import CannedBsd.Kernel.Errands

/-!
# The C library on a running task

The functions of the C library reach the kernel through the calls of their task only. A machine is the
kernel with the calls the library has made so far; the host's answers may depend on both. What the
library holds of the task is a set of blocks and a set of open directories, and each of its functions
says what it adds and what it gives back.

* `Desk.call`: what is left to show for a call that returns.
* `Desk.allocate`, `Desk.release`, `Desk.libcOpendir`, `Desk.libcReaddir`, `Desk.libcClosedir`: what each
  function adds and gives back.
-/

namespace CannedBsd

open CannedBsd.Lib

/-- The kernel, and the calls that were made with what they returned. -/
structure Machine where
  kernel : Kernel
  log : List (Op × Outcome)

/-- The pointer a call returns; `NULL` is `0`. -/
def Outcome.pointer : Outcome → ℕ
  | .done r _ => r.value.toNat
  | _ => 0

/-- The `int` a call returns. -/
def Outcome.result : Outcome → ℤ
  | .done r _ => r.value
  | _ => 0

/-- The `sizeof` of what the library allocates; each is a `size_t`. -/
structure Sizes where
  ftsent : ℕ
  stat : ℕ
  fts : ℕ
  dir : ℕ
  ftsent_le : ftsent ≤ sizeMax
  stat_le : stat ≤ sizeMax
  fts_le : fts ≤ sizeMax

section Calls

variable (hosts : Machine → Host) (t : TaskId)

/-- A call through `bound_api`. -/
def Machine.call (op : Op) (m : Machine) : Machine × Outcome :=
  let r := perform (hosts m) m.kernel t op
  (⟨deliver t r, m.log ++ [(op, r.2)]⟩, r.2)

/-- `*bound_api->errno_location()`. -/
def Machine.errno (m : Machine) : ℤ := (errnoOf t m.kernel).getD 0

/-- `set_errno`, and assignments to `errno`. -/
def setErrno (error : ℤ) (m : Machine) : Machine := (m.call hosts t (.setErrno error)).1

def cbLibcMalloc (size : ℕ) (m : Machine) : Machine × ℕ :=
  let (m, r) := m.call hosts t (.allocate size)
  (m, r.pointer)

def cbLibcCalloc (count size : ℕ) (m : Machine) : Machine × ℕ :=
  if size ≠ 0 ∧ sizeMax / size < count then (setErrno hosts t Errno.enomem.code m, 0)
  else cbLibcMalloc hosts t (count * size) m

def cbLibcFree (pointer : ℕ) (m : Machine) : Machine :=
  let savedError := m.errno t
  setErrno hosts t savedError (m.call hosts t (.release pointer)).1

/-- `cb_libc_stat`, up to `translate_stat`, which keeps the type and the inode. -/
def cbLibcStat (path : Bytes) (m : Machine) : Machine × Option Stat :=
  match m.call hosts t (.stat path) with
  | (m, .done _ (.stat status)) => (m, some status)
  | (m, _) => (m, none)

/-- `struct cb_libc_dir` without its `struct dirent`. -/
structure CbLibcDir where
  pointer : ℕ
  descriptor : ℤ
  deriving DecidableEq, Repr

variable (sizes : Sizes)

def cbLibcOpendir (path : Bytes) (m : Machine) : Machine × Option CbLibcDir :=
  let (m, r) := m.call hosts t (.opendir path)
  let descriptor := r.result
  if descriptor < 0 then (m, none)
  else
    let (m, dir) := cbLibcMalloc hosts t sizes.dir m
    if dir = 0 then
      let (m, _) := m.call hosts t (.closedir descriptor)
      (setErrno hosts t Errno.enomem.code m, none)
    else (m, some ⟨dir, descriptor⟩)

/-- `cb_libc_readdir`: the name of the entry, in a buffer of `CB_PATH_MAX` bytes. -/
def cbLibcReaddir (dir : CbLibcDir) (m : Machine) : Machine × Option Bytes :=
  match m.call hosts t (.readdir dir.descriptor cbPathMax) with
  | (m, .done _ (.entry name _ _)) => (m, if name = [] then none else some name)
  | (m, _) => (m, none)

def cbLibcClosedir (dir : CbLibcDir) (m : Machine) : Machine :=
  let (m, _) := m.call hosts t (.closedir dir.descriptor)
  (m.call hosts t (.release dir.pointer)).1

end Calls

/-! ### What the calls say about blocks and handles -/

/-- The block a call of the library took or gave back. -/
def blockCall : Op × Outcome → Option (HeapCall ℕ)
  | (.allocate _, r) => if r.pointer = 0 then none else some (.took r.pointer)
  | (.release pointer, _) => if pointer = 0 then none else some (.gave pointer)
  | _ => none

/-- The directory descriptor a call of the library opened or closed. -/
def handleCall : Op × Outcome → Option (HeapCall ℤ)
  | (.opendir _, r) => if r.result < 0 then none else some (.took r.result)
  | (.closedir descriptor, _) => some (.gave descriptor)
  | _ => none

def Machine.blockCalls (m : Machine) : List (HeapCall ℕ) := m.log.filterMap blockCall

def Machine.handleCalls (m : Machine) : List (HeapCall ℤ) := m.log.filterMap handleCall

/-- A host that grants a block grants one that is not out. -/
def FreshHosts (hosts : Machine → Host) : Prop :=
  ∀ m, (hosts m).allocate .block = true → (hosts m).block ≠ 0 ∧ Unused m.kernel (hosts m).block

/-! ### What the library holds -/

/-- A directory the library has open, with what is left to read of it. -/
structure OpenDir where
  slot : Fin cbMaxDirs
  dir : NodeId
  unread : List Entry

/-- No directory is open through the handle. -/
def Idle (t : TaskId) (d : Fin cbMaxDirs) (k : Kernel) : Prop := (handleOf t d k).any DirHandle.inUse = false

/-- Since the kernel was `base` the library has taken these blocks and opened these directories, and has
given back everything else. -/
structure Desk (t : TaskId) (base : Kernel) (m : Machine) (blocks : List ℕ) (dirs : List OpenDir) : Prop where
  work : AtWork t m.kernel
  errand : Errand t base m.kernel
  taken : ∃ live, replay m.blockCalls = some live ∧ live.Perm blocks
  ledger : (ledgerOf m.kernel t).Perm (blocks ++ ledgerOf base t)
  real : ∀ b ∈ blocks, b ≠ 0
  opened : ∃ live, replay m.handleCalls = some live ∧ live.Perm (dirs.map fun o => (o.slot.val : ℤ))
  apart : (dirs.map OpenDir.slot).Nodup
  unused : ∀ o ∈ dirs, Idle t o.slot base
  reading : ∀ o ∈ dirs, Reading m.kernel t o.slot o.dir o.unread ∧ Rooted m.kernel.vfs o.dir
  others : ∀ d, d ∉ dirs.map OpenDir.slot →
    handleOf t d m.kernel = handleOf t d base ∨ Idle t d m.kernel ∧ Idle t d base

theorem Reading.keep {k k' : Kernel} {t : TaskId} {d : Fin cbMaxDirs} {dir : NodeId} {entries : List Entry}
    (h : Reading k t d dir entries) (hhandle : handleOf t d k' = handleOf t d k) (hs : Still k.vfs k'.vfs) :
    Reading k' t d dir entries := by
  obtain ⟨first, hold, hunread⟩ := h
  exact ⟨first, hhandle.trans hold, hunread.still hs⟩

/-- The number of directory handles a task has in use. -/
def handlesInUse (t : TaskId) (k : Kernel) : ℕ :=
  (Finset.univ.filter fun d => (handleOf t d k).any DirHandle.inUse = true).card

section Holding

variable {hosts : Machine → Host} {t : TaskId} {base : Kernel} {m : Machine} {blocks : List ℕ} {dirs : List OpenDir}

/-- The blocks and the directories are sets. -/
theorem Desk.perm {blocks' : List ℕ} {dirs' : List OpenDir} (h : Desk t base m blocks dirs) (hb : blocks.Perm blocks')
    (hd : dirs.Perm dirs') : Desk t base m blocks' dirs' where
  work := h.work
  errand := h.errand
  taken := by
    obtain ⟨live, hreplay, hperm⟩ := h.taken
    exact ⟨live, hreplay, hperm.trans hb⟩
  ledger := h.ledger.trans (hb.append_right _)
  real b hmem := h.real b (hb.mem_iff.mpr hmem)
  opened := by
    obtain ⟨live, hreplay, hperm⟩ := h.opened
    exact ⟨live, hreplay, hperm.trans (hd.map _)⟩
  apart := (hd.map _).nodup_iff.mp h.apart
  unused o ho := h.unused o (hd.mem_iff.mpr ho)
  reading o ho := h.reading o (hd.mem_iff.mpr ho)
  others d hmem := h.others d fun hmem' => hmem ((hd.map _).mem_iff.mp hmem')

/-- The task has those handles in use that it had in use before, and those the library has opened. -/
theorem Desk.inUse (h : Desk t base m blocks dirs) : handlesInUse t m.kernel = handlesInUse t base + dirs.length := by
  have hslots : (dirs.map OpenDir.slot).toFinset.card = dirs.length := by
    rw [List.toFinset_card_of_nodup h.apart, List.length_map]
  rw [handlesInUse, handlesInUse, ← hslots, ← Finset.card_union_of_disjoint]
  · congr 1
    ext d
    rw [Finset.mem_union, Finset.mem_filter, Finset.mem_filter, List.mem_toFinset]
    by_cases hd : d ∈ dirs.map OpenDir.slot
    · obtain ⟨o, ho, rfl⟩ := List.mem_map.mp hd
      obtain ⟨⟨first, hhandle, -⟩, -⟩ := h.reading o ho
      simp [hhandle, hd]
    · rcases h.others d hd with hsame | ⟨hnow, hbase⟩
      · simp [hsame, hd]
      · rw [Idle] at hnow hbase
        simp [hnow, hbase, hd]
  · rw [Finset.disjoint_left]
    intro d hd hmem
    obtain ⟨o, ho, rfl⟩ := List.mem_map.mp (List.mem_toFinset.mp hmem)
    have hidle := h.unused o ho
    rw [Idle] at hidle
    simp [hidle] at hd

/-- Without a free handle all are in use. -/
theorem handlesInUse_of_full {k : Kernel} {task : Task} (ht : k.task t = some task)
    (h : (k.task t).bind freeDir = none) : handlesInUse t k = cbMaxDirs := by
  rw [ht, Option.bind_some, freeDir, List.find?_eq_none] at h
  rw [handlesInUse, Finset.filter_true_of_mem, Finset.card_univ, Fintype.card_fin]
  intro d _
  have hd := h d (List.mem_finRange d)
  rw [handleOf, ht]
  simpa using hd

/-- What a call does before it returns is all it does to the handles and to the ledger. -/
structure Passed (t : TaskId) (k k' : Kernel) : Prop where
  errand : Errand t k k'
  handles : ∀ d, handleOf t d k' = handleOf t d k
  ledger : ledgerOf k' t = ledgerOf k t

theorem passed_deliver (k : Kernel) (r : Reply) (out : Out) : Passed t k (deliver t (k, .done r out)) :=
  ⟨.deliver k r out, fun _ => handleOf_deliver (k, .done r out), (reserved_ledgerOf t t).deliver (k, .done r out)⟩

/-- The blocks that are out after a call that may have taken or given one. -/
def outAfter {β : Type} [DecidableEq β] (c : Option (HeapCall β)) (live : List β) : Option (List β) :=
  match c with
  | none => some live
  | some c => c.run live

theorem replay_snoc {α β : Type} [DecidableEq β] {f : α → Option (HeapCall β)} {log : List α} {a : α} {held held' : List β}
    (h : ∃ live, replay (log.filterMap f) = some live ∧ live.Perm held)
    (hstep : ∀ live, live.Perm held → ∃ live', outAfter (f a) live = some live' ∧ live'.Perm held') :
    ∃ live, replay ((log ++ [a]).filterMap f) = some live ∧ live.Perm held' := by
  obtain ⟨live, hreplay, hperm⟩ := h
  obtain ⟨live', hout, hperm'⟩ := hstep live hperm
  refine ⟨live', ?_, hperm'⟩
  rw [List.filterMap_append, List.filterMap_cons, List.filterMap_nil]
  cases hf : f a with
  | none =>
    rw [hf, outAfter, Option.some.injEq] at hout
    rw [List.append_nil, hreplay, hout]
  | some c =>
    rw [hf, outAfter] at hout
    dsimp only
    rw [replay_append, hreplay]
    exact hout

theorem outAfter_none {β : Type} [DecidableEq β] {held live : List β} (h : live.Perm held) :
    ∃ live', outAfter none live = some live' ∧ live'.Perm held := ⟨live, rfl, h⟩

theorem outAfter_took {β : Type} [DecidableEq β] {held live : List β} {b : β} (h : live.Perm held) (hb : b ∉ held) :
    ∃ live', outAfter (some (.took b)) live = some live' ∧ live'.Perm (b :: held) :=
  ⟨b :: live, if_neg fun hmem => hb (h.mem_iff.mp hmem), h.cons b⟩

theorem outAfter_gave {β : Type} [DecidableEq β] {held live : List β} {b : β} (h : live.Perm (b :: held)) :
    ∃ live', outAfter (some (.gave b)) live = some live' ∧ live'.Perm held := by
  refine ⟨live.erase b, if_pos (h.mem_iff.mpr (List.mem_cons_self ..)), ?_⟩
  have herase := h.erase b
  rwa [List.erase_cons_head] at herase

/-- What is left to show for a call that returns. -/
theorem Desk.call {op : Op} {r : Reply} {out : Out} {blocks' : List ℕ} {dirs' : List OpenDir}
    (h : Desk t base m blocks dirs) (hdone : (perform (hosts m) m.kernel t op).2 = .done r out)
    (herrand : Errand t m.kernel (perform (hosts m) m.kernel t op).1)
    (hfresh : FreshBlock m.kernel (.call (hosts m) op))
    (htaken : ∀ live, live.Perm blocks →
      ∃ live', outAfter (blockCall (op, .done r out)) live = some live' ∧ live'.Perm blocks')
    (hledger : (ledgerOf (perform (hosts m) m.kernel t op).1 t).Perm (blocks' ++ ledgerOf base t))
    (hreal : ∀ b ∈ blocks', b ≠ 0)
    (hopened : ∀ live, live.Perm (dirs.map fun o => (o.slot.val : ℤ)) →
      ∃ live', outAfter (handleCall (op, .done r out)) live = some live' ∧
        live'.Perm (dirs'.map fun o => (o.slot.val : ℤ)))
    (hapart : (dirs'.map OpenDir.slot).Nodup) (hunused : ∀ o ∈ dirs', Idle t o.slot base)
    (hreading : ∀ o ∈ dirs', Reading (perform (hosts m) m.kernel t op).1 t o.slot o.dir o.unread ∧
      Rooted (perform (hosts m) m.kernel t op).1.vfs o.dir)
    (hothers : ∀ d, d ∉ dirs'.map OpenDir.slot → handleOf t d (perform (hosts m) m.kernel t op).1 = handleOf t d base ∨
      Idle t d (perform (hosts m) m.kernel t op).1 ∧ Idle t d base) :
    Desk t base (m.call hosts t op).1 blocks' dirs' := by
  have hwork := h.work.call hfresh
  rw [Machine.call]
  generalize perform (hosts m) m.kernel t op = result at *
  obtain ⟨k, outcome⟩ := result
  dsimp only at *
  subst hdone
  have hreturn := @passed_deliver t k r out
  have htotal := herrand.trans hreturn.errand
  exact {
    work := hwork htotal
    errand := h.errand.trans htotal
    taken := replay_snoc h.taken htaken
    ledger := by rwa [hreturn.ledger]
    real := hreal
    opened := replay_snoc h.opened hopened
    apart := hapart
    unused := hunused
    reading := fun o ho => ⟨(hreading o ho).1.keep (hreturn.handles o.slot) hreturn.errand.still,
      hreturn.errand.still.rooted (hreading o ho).2⟩
    others := fun d hd => by
      rw [Idle, hreturn.handles]
      exact hothers d hd }

/-- A call that reaches neither the handles nor the ledger. -/
theorem Desk.idle {op : Op} {r : Reply} {out : Out} (h : Desk t base m blocks dirs)
    (hdone : (perform (hosts m) m.kernel t op).2 = .done r out)
    (herrand : Errand t m.kernel (perform (hosts m) m.kernel t op).1)
    (hsame : ownOf t (perform (hosts m) m.kernel t op).1 = ownOf t m.kernel)
    (hfresh : FreshBlock m.kernel (.call (hosts m) op)) (hblock : blockCall (op, .done r out) = none)
    (hhandle : handleCall (op, .done r out) = none) : Desk t base (m.call hosts t op).1 blocks dirs := by
  have hhandles := handleOf_eq_of_ownOf hsame
  refine h.call hdone herrand hfresh (fun live hlive => ?_) ?_ h.real (fun live hlive => ?_) h.apart h.unused
    (fun o ho => ?_) fun d hd => ?_
  · rw [hblock]
    exact outAfter_none hlive
  · rw [ledgerOf_of_ownOf hsame]
    exact h.ledger
  · rw [hhandle]
    exact outAfter_none hlive
  · exact ⟨(h.reading o ho).1.keep (hhandles o.slot) herrand.still, herrand.still.rooted (h.reading o ho).2⟩
  · rw [Idle, hhandles]
    exact h.others d hd

/-! ### The calls -/

theorem freshBlock_of_none {k : Kernel} {a : Action} (h : blockReturned a = none) : FreshBlock k a := by
  intro r hr
  rw [h] at hr
  cases hr

theorem FreshHosts.allocate (h : FreshHosts hosts) (m : Machine) (size : ℕ) :
    FreshBlock m.kernel (.call (hosts m) (.allocate size)) := by
  intro r hr
  rw [blockReturned] at hr
  split at hr
  · rename_i hblock
    cases hr
    exact .inr (h m hblock).2
  · cases hr

theorem Desk.setErrno (h : Desk t base m blocks dirs) (error : ℤ) :
    Desk t base (setErrno hosts t error m) blocks dirs := by
  refine h.idle rfl ?_ ?_ (freshBlock_of_none rfl) rfl rfl
  · exact .setTask m.kernel fun _ => rfl
  · exact field_setTask Task.possessions m.kernel t t fun _ => rfl

theorem blockCall_allocate {block : ℕ} (size : ℕ) (h : block ≠ 0) :
    blockCall (.allocate size, .done ⟨block, [], some 0⟩ .none) = some (.took block) := by
  have hpointer : Outcome.pointer (.done ⟨block, [], some 0⟩ .none) = block := Int.toNat_natCast _
  rw [blockCall, hpointer, if_neg h]

theorem Desk.allocate (h : Desk t base m blocks dirs) (hf : FreshHosts hosts) (size : ℕ) :
    (cbLibcMalloc hosts t size m).2 = 0 ∧ (hosts m).starves = true ∧
        Desk t base (cbLibcMalloc hosts t size m).1 blocks dirs ∨
      (cbLibcMalloc hosts t size m).2 ≠ 0 ∧
        Desk t base (cbLibcMalloc hosts t size m).1 ((cbLibcMalloc hosts t size m).2 :: blocks) dirs := by
  obtain ⟨task, ht⟩ := h.work.task
  have hround := apiAllocate_round (hosts m) size ht
  have hcall := @Desk.call hosts t base m blocks dirs (.allocate size)
  have hidle := @Desk.idle hosts t base m blocks dirs (.allocate size)
  rw [cbLibcMalloc]
  have heq : (m.call hosts t (.allocate size)).2 = (apiAllocate (hosts m) m.kernel t size).2 := rfl
  dsimp only [perform] at hcall hidle
  generalize apiAllocate (hosts m) m.kernel t size = result at hround hcall hidle heq
  cases hround with
  | refused hwhy herrand hsame =>
    refine .inl ⟨?_, hwhy, hidle h rfl herrand hsame (hf.allocate m size) rfl rfl⟩
    dsimp only
    rw [heq]
    rfl
  | granted hblock herrand hhandles hledger =>
    obtain ⟨hnull, hunused⟩ := hf m hblock
    have hpointer : (m.call hosts t (.allocate size)).2.pointer = (hosts m).block := by
      rw [heq]
      exact Int.toNat_natCast _
    have hnew : (hosts m).block ∉ blocks := fun hmem =>
      hunused.not_mem h.work.books.owned t (h.ledger.mem_iff.mpr (List.mem_append_left _ hmem))
    dsimp only
    rw [hpointer]
    refine .inr ⟨hnull, hcall h rfl herrand (hf.allocate m size) (fun live hlive => ?_) ?_ ?_
      (fun live hlive => outAfter_none hlive) h.apart h.unused (fun o ho => ?_) fun d hd => ?_⟩
    · rw [blockCall_allocate size hnull]
      exact outAfter_took hlive hnew
    · rw [hledger]
      exact h.ledger.cons _
    · intro b hb
      rcases List.mem_cons.mp hb with rfl | hb
      · exact hnull
      · exact h.real b hb
    · exact ⟨(h.reading o ho).1.keep (hhandles o.slot) herrand.still, herrand.still.rooted (h.reading o ho).2⟩
    · rw [Idle, hhandles]
      exact h.others d hd

theorem Desk.release {pointer : ℕ} (h : Desk t base m (pointer :: blocks) dirs) :
    Desk t base (m.call hosts t (.release pointer)).1 blocks dirs := by
  obtain ⟨task, ht⟩ := h.work.task
  have hnull : pointer ≠ 0 := h.real pointer (List.mem_cons_self ..)
  have hmem : pointer ∈ ledgerOf m.kernel t := h.ledger.mem_iff.mpr (List.mem_cons_self ..)
  obtain ⟨herrand, ⟨r, out, hdone⟩, hhandles, hledger⟩ := apiRelease_round ht hmem hnull
  refine h.call hdone herrand (freshBlock_of_none rfl) (fun live hlive => ?_) ?_
    (fun b hb => h.real b (List.mem_cons_of_mem _ hb)) (fun live hlive => outAfter_none hlive) h.apart h.unused
    (fun o ho => ?_) fun d hd => ?_
  · rw [show blockCall (.release pointer, .done r out) = some (.gave pointer) from if_neg hnull]
    exact outAfter_gave hlive
  · dsimp only [perform]
    rw [hledger]
    have herase := h.ledger.erase pointer
    rwa [List.cons_append, List.erase_cons_head] at herase
  · exact ⟨(h.reading o ho).1.keep (hhandles o.slot) herrand.still, herrand.still.rooted (h.reading o ho).2⟩
  · dsimp only [perform]
    rw [Idle, hhandles]
    exact h.others d hd

theorem Desk.stat (h : Desk t base m blocks dirs) (path : Bytes) :
    Desk t base (cbLibcStat hosts t path m).1 blocks dirs ∧
      (cbLibcStat hosts t path m).2 = (cbVfsStatPath base.vfs (base.viewOf t) path).toOption := by
  have hstat : cbVfsStatPath m.kernel.vfs (m.kernel.viewOf t) path = cbVfsStatPath base.vfs (base.viewOf t) path := by
    rw [h.errand.view, h.errand.still.statPath]
  have hidle := fun r out hdone => @Desk.idle hosts t base m blocks dirs (.stat path) r out h hdone (.refl _) rfl
    (freshBlock_of_none rfl) rfl rfl
  rw [cbLibcStat, ← hstat]
  dsimp only [perform] at hidle
  have heq : (m.call hosts t (.stat path)).2 = apiStat m.kernel t path := rfl
  rw [apiStat] at heq hidle
  generalize m.call hosts t (.stat path) = result at heq hidle ⊢
  obtain ⟨m', outcome⟩ := result
  dsimp only at heq hidle
  subst heq
  generalize cbVfsStatPath m.kernel.vfs (m.kernel.viewOf t) path = found at hidle ⊢
  cases found with
  | error e => exact ⟨hidle _ _ rfl, rfl⟩
  | ok status => exact ⟨hidle _ _ rfl, rfl⟩

theorem handleCall_opendir {path : Bytes} (d : Fin cbMaxDirs) :
    handleCall (.opendir path, .done (.done d.val) .none) = some (.took (d.val : ℤ)) := by
  rw [handleCall]
  exact if_neg (Int.not_lt.mpr (Int.natCast_nonneg d.val))

/-- How the library's call of `opendir` can go. -/
theorem Desk.opendir (h : Desk t base m blocks dirs) (path : Bytes) :
    (∃ error, (m.call hosts t (.opendir path)).2 = .fail error) ∧
        Desk t base (m.call hosts t (.opendir path)).1 blocks dirs ∧
        (∀ dir, lookupDirectory base.vfs (base.viewOf t) path = .ok dir →
          handlesInUse t base + dirs.length = cbMaxDirs) ∨
      ∃ (d : Fin cbMaxDirs) (dir : NodeId), (m.call hosts t (.opendir path)).2 = .value d.val ∧
        lookupDirectory base.vfs (base.viewOf t) path = .ok dir ∧
        Desk t base (m.call hosts t (.opendir path)).1 blocks (⟨d, dir, entriesOf base.vfs dir⟩ :: dirs) := by
  obtain ⟨l, hp⟩ := h.work.poised
  have hround := apiOpendir_round hp h.work.current path
  have hlooks : lookupDirectory m.kernel.vfs (m.kernel.viewOf t) path = lookupDirectory base.vfs (base.viewOf t) path := by
    rw [h.errand.view, h.errand.still.lookupDirectory]
  have hcall := @Desk.call hosts t base m blocks dirs (.opendir path)
  have hidle := @Desk.idle hosts t base m blocks dirs (.opendir path)
  have heq : (m.call hosts t (.opendir path)).2 = (apiOpendir m.kernel t path).2 := rfl
  dsimp only [perform] at hcall hidle
  generalize apiOpendir m.kernel t path = result at hround hcall hidle heq
  cases hround with
  | @failed k' error herrand hsame hwhy =>
    refine .inl ⟨⟨error, heq⟩, hidle h rfl herrand hsame (freshBlock_of_none rfl) rfl rfl, fun dir hdir => ?_⟩
    obtain ⟨task, ht⟩ := h.work.task
    rw [← h.inUse]
    exact handlesInUse_of_full ht (hwhy dir (hlooks.trans hdir))
  | @opened k' dir d hlook hfree herrand hothers hreading hledger =>
    have hroot := herrand.still.rooted (lookupDirectory_rooted_of_poised hp h.work.current hlook)
    -- the handle was not in use, so it is none of those the library has open
    have hidleSlot : Idle t d m.kernel := by
      obtain ⟨task, ht, hfind⟩ := Option.bind_eq_some_iff.mp hfree
      have hunused := List.find?_some hfind
      rw [Idle, handleOf, ht]
      simpa using hunused
    have hnew : d ∉ dirs.map OpenDir.slot := by
      intro hmem
      obtain ⟨o, ho, rfl⟩ := List.mem_map.mp hmem
      obtain ⟨first, hhandle, -⟩ := (h.reading o ho).1
      rw [Idle, hhandle] at hidleSlot
      cases hidleSlot
    have hbase : Idle t d base := by
      rcases h.others d hnew with hsame | ⟨-, hidleBase⟩
      · rwa [Idle, hsame] at hidleSlot
      · exact hidleBase
    refine .inr ⟨d, dir, heq, hlooks ▸ hlook, hcall h rfl herrand (freshBlock_of_none rfl)
      (fun live hlive => outAfter_none hlive) ?_ h.real (fun live hlive => ?_) ?_ ?_ ?_ fun e he => ?_⟩
    · rw [hledger]
      exact h.ledger
    · rw [handleCall_opendir]
      refine outAfter_took hlive fun hmem => ?_
      obtain ⟨o, ho, heq⟩ := List.mem_map.mp hmem
      have hslot : o.slot = d := Fin.ext (Int.ofNat.inj heq)
      exact hnew (hslot ▸ List.mem_map_of_mem ho)
    · exact List.nodup_cons.mpr ⟨hnew, h.apart⟩
    · intro o ho
      rcases List.mem_cons.mp ho with rfl | ho
      · exact hbase
      · exact h.unused o ho
    · intro o ho
      rcases List.mem_cons.mp ho with rfl | hold
      · refine ⟨?_, hroot⟩
        rw [← h.errand.still.entriesOf]
        exact hreading
      · have hne : o.slot ≠ d := by
          rintro rfl
          exact hnew (List.mem_map_of_mem hold)
        exact ⟨(h.reading o hold).1.keep (hothers o.slot hne) herrand.still, herrand.still.rooted (h.reading o hold).2⟩
    · rw [List.map_cons, List.mem_cons, not_or] at he
      rw [Idle, hothers e he.1]
      exact h.others e he.2

theorem dirSlot_val (d : Fin cbMaxDirs) : dirSlot d.val = some d := by
  have hd := d.isLt
  rw [dirSlot, dif_pos ⟨Int.natCast_nonneg _, by exact_mod_cast hd⟩]
  rfl

/-- What stays open while one directory is read or closed. -/
theorem Desk.others_keep {k : Kernel} {o x : OpenDir} (h : Desk t base m blocks (o :: dirs)) (hx : x ∈ dirs)
    (hothers : ∀ e, e ≠ o.slot → handleOf t e k = handleOf t e m.kernel) (hs : Still m.kernel.vfs k.vfs) :
    Reading k t x.slot x.dir x.unread ∧ Rooted k.vfs x.dir := by
  have hne : x.slot ≠ o.slot := by
    intro heq
    exact (List.nodup_cons.mp h.apart).1 (heq ▸ List.mem_map_of_mem hx)
  have hold := h.reading x (List.mem_cons_of_mem _ hx)
  exact ⟨hold.1.keep (hothers x.slot hne) hs, hs.rooted hold.2⟩

theorem Desk.readdir {o : OpenDir} (h : Desk t base m blocks (o :: dirs)) (size : ℕ) :
    (m.call hosts t (.readdir o.slot.val size)).2 = (readNext o.unread size).1 ∧
      Desk t base (m.call hosts t (.readdir o.slot.val size)).1 blocks
        ({ o with unread := (readNext o.unread size).2 } :: dirs) := by
  obtain ⟨l, hp⟩ := h.work.poised
  obtain ⟨hold, hroot⟩ := h.reading o (List.mem_cons_self ..)
  obtain ⟨herrand, hreply, hreading, hothers⟩ := apiReaddir_round size hp (dirSlot_val o.slot) hold hroot
  have hdone : ∃ r out, (readNext o.unread size).1 = .done r out := by
    rw [readNext.eq_def]
    split
    · exact ⟨_, _, rfl⟩
    split
    · exact ⟨_, _, rfl⟩
    split <;> exact ⟨_, _, rfl⟩
  obtain ⟨r, out, hdone⟩ := hdone
  refine ⟨hreply, h.call (hreply.trans hdone) herrand (freshBlock_of_none rfl) (fun live hlive => outAfter_none hlive) ?_
    h.real (fun live hlive => outAfter_none hlive) h.apart ?_ ?_ fun d hd => ?_⟩
  · rw [ledgerOf_dirCall (hosts m) rfl rfl]
    exact h.ledger
  · intro x hx
    rcases List.mem_cons.mp hx with rfl | hx
    · exact h.unused o (List.mem_cons_self ..)
    · exact h.unused x (List.mem_cons_of_mem _ hx)
  · intro x hx
    rcases List.mem_cons.mp hx with rfl | hx
    · exact ⟨hreading, herrand.still.rooted hroot⟩
    · exact h.others_keep hx hothers herrand.still
  · have hne : d ≠ o.slot := fun heq => hd (heq ▸ List.mem_cons_self ..)
    dsimp only [perform]
    rw [Idle, hothers d hne]
    exact h.others d hd

theorem Desk.closedir {o : OpenDir} (h : Desk t base m blocks (o :: dirs)) :
    Desk t base (m.call hosts t (.closedir o.slot.val)).1 blocks dirs := by
  obtain ⟨l, hp⟩ := h.work.poised
  obtain ⟨hold, hroot⟩ := h.reading o (List.mem_cons_self ..)
  obtain ⟨herrand, hreply, hclosed, hothers⟩ := apiClosedir_round hp (dirSlot_val o.slot) hold hroot
  refine h.call hreply herrand (freshBlock_of_none rfl) (fun live hlive => outAfter_none hlive) ?_ h.real
    (fun live hlive => outAfter_gave hlive) (List.nodup_cons.mp h.apart).2
    (fun x hx => h.unused x (List.mem_cons_of_mem _ hx)) (fun x hx => h.others_keep hx hothers herrand.still) fun d hd => ?_
  · rw [ledgerOf_dirCall (hosts m) rfl rfl]
    exact h.ledger
  · dsimp only [perform]
    by_cases hne : d = o.slot
    · right
      rw [hne]
      exact ⟨by rw [Idle, hclosed]; rfl, h.unused o (List.mem_cons_self ..)⟩
    · rw [Idle, hothers d hne]
      refine h.others d ?_
      rw [List.map_cons, List.mem_cons, not_or]
      exact ⟨hne, hd⟩

/-! ### The functions -/

/-- `calloc` of one object goes as `malloc` does. -/
theorem cbLibcCalloc_one {size : ℕ} (h : size ≤ sizeMax) : cbLibcCalloc hosts t 1 size m = cbLibcMalloc hosts t size m := by
  rw [cbLibcCalloc, if_neg, Nat.one_mul]
  rintro ⟨hpos, hlt⟩
  exact absurd hlt (Nat.not_lt.mpr (Nat.div_pos h (Nat.pos_of_ne_zero hpos)))

theorem Desk.free {pointer : ℕ} (h : Desk t base m (pointer :: blocks) dirs) :
    Desk t base (cbLibcFree hosts t pointer m) blocks dirs := h.release.setErrno _

/-- How `cb_libc_opendir` can go. -/
theorem Desk.libcOpendir (sizes : Sizes) (h : Desk t base m blocks dirs) (hf : FreshHosts hosts) (path : Bytes) :
    (cbLibcOpendir hosts t sizes path m).2 = none ∧ Desk t base (cbLibcOpendir hosts t sizes path m).1 blocks dirs ∧
        (∀ dir, lookupDirectory base.vfs (base.viewOf t) path = .ok dir →
          handlesInUse t base + dirs.length = cbMaxDirs ∨ ∃ m, (hosts m).starves = true) ∨
      ∃ (d : Fin cbMaxDirs) (dir : NodeId) (pointer : ℕ), (cbLibcOpendir hosts t sizes path m).2 = some ⟨pointer, d.val⟩ ∧
        lookupDirectory base.vfs (base.viewOf t) path = .ok dir ∧
        Desk t base (cbLibcOpendir hosts t sizes path m).1 (pointer :: blocks)
          (⟨d, dir, entriesOf base.vfs dir⟩ :: dirs) := by
  have hopen := @Desk.opendir hosts t base m blocks dirs h path
  rw [cbLibcOpendir]
  generalize m.call hosts t (.opendir path) = result at hopen ⊢
  obtain ⟨m₁, outcome⟩ := result
  dsimp only at hopen ⊢
  rcases hopen with ⟨⟨error, rfl⟩, hdesk, hwhy⟩ | ⟨d, dir, rfl, hlook, hdesk⟩
  · left
    rw [if_pos (show (Outcome.fail error).result < 0 from Int.negSucc_lt_zero 0)]
    exact ⟨rfl, hdesk, fun dir hdir => .inl (hwhy dir hdir)⟩
  · have hpos : ¬ (Outcome.value d.val).result < 0 := Int.not_lt.mpr (Int.natCast_nonneg d.val)
    rw [if_neg hpos]
    have halloc := hdesk.allocate hf sizes.dir
    generalize cbLibcMalloc hosts t sizes.dir m₁ = result at halloc ⊢
    obtain ⟨m₂, pointer⟩ := result
    dsimp only at halloc ⊢
    rcases halloc with ⟨hnull, hstarves, hdesk'⟩ | ⟨hnull, hdesk'⟩
    · left
      rw [if_pos hnull]
      have hclosed : Desk t base (m₂.call hosts t (.closedir d.val)).1 blocks dirs := hdesk'.closedir
      exact ⟨rfl, hclosed.setErrno _, fun _ _ => .inr ⟨m₁, hstarves⟩⟩
    · right
      rw [if_neg hnull]
      exact ⟨d, dir, pointer, rfl, hlook, hdesk'⟩

/-- The name `cb_libc_readdir` returns through a handle with these entries left. -/
def nextName : List Entry → Option Bytes
  | [] => none
  | e :: _ => if cbPathMax ≤ e.name.length ∨ e.name = [] then none else some e.name

theorem Desk.libcReaddir {o : OpenDir} {pointer : ℕ} (h : Desk t base m blocks (o :: dirs)) :
    (cbLibcReaddir hosts t ⟨pointer, o.slot.val⟩ m).2 = nextName o.unread ∧
      Desk t base (cbLibcReaddir hosts t ⟨pointer, o.slot.val⟩ m).1 blocks
        ({ o with unread := (readNext o.unread cbPathMax).2 } :: dirs) := by
  have hread := @Desk.readdir hosts t base m blocks dirs o h cbPathMax
  rw [cbLibcReaddir]
  generalize m.call hosts t (.readdir o.slot.val cbPathMax) = result at hread ⊢
  obtain ⟨m₁, outcome⟩ := result
  dsimp only at hread ⊢
  obtain ⟨hreply, hdesk⟩ := hread
  subst hreply
  have hsize : cbPathMax ≠ 0 := by decide
  generalize o.unread = entries at hdesk ⊢
  cases entries with
  | nil =>
    rw [readNext, if_neg hsize] at hdesk ⊢
    exact ⟨rfl, hdesk⟩
  | cons e rest =>
    rw [readNext, if_neg hsize] at hdesk ⊢
    by_cases hlong : cbPathMax ≤ e.name.length
    · rw [if_pos hlong] at hdesk ⊢
      refine ⟨?_, hdesk⟩
      rw [nextName, if_pos (.inl hlong)]
      rfl
    · rw [if_neg hlong] at hdesk ⊢
      refine ⟨?_, hdesk⟩
      dsimp only
      rw [nextName]
      simp [hlong]

theorem Desk.libcClosedir {o : OpenDir} {pointer : ℕ} (h : Desk t base m (pointer :: blocks) (o :: dirs)) :
    Desk t base (cbLibcClosedir hosts t ⟨pointer, o.slot.val⟩ m) blocks dirs := by
  have hclosed : Desk t base (m.call hosts t (.closedir o.slot.val)).1 (pointer :: blocks) dirs := h.closedir
  exact hclosed.release

end Holding

end CannedBsd
