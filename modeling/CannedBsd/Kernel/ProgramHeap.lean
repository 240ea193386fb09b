import CannedBsd.Kernel.Ledgers

/-!
# The heaps of the programs

A program gets its memory from the host through the kernel. Whatever pointers the programs pass, the blocks
that are out are those in the ledgers, each in one ledger once, and every block is given back once: by its
task, or by the kernel when the task exits or is replaced.

* `HeapBooks.step`: a step on a host that returns fresh blocks keeps the books.
* `replay_cbKernelDestroy`: after the kernel is gone no block is out.
* `program_heap_owned`: the blocks that are out are those in the ledgers, in every run on such a host.
-/

namespace CannedBsd

open CannedBsd.Lib

variable {k k' : Kernel} {t : TaskId} {l : NodeId → ℕ}

/-! ### The heap calls -/

/-- The block is not out. -/
def Unused (k : Kernel) (block : ℕ) : Prop := ∀ live, replay k.heap = some live → block ∉ live

/-- The block the host returns for a heap call, with the one it replaces. -/
def blockReturned : Action → Option (ℕ × Option ℕ)
  | .call h (.allocate _) => if h.allocate .block then some (h.block, none) else none
  | .call h (.resize pointer size) =>
    if pointer = 0 then if h.allocate .block then some (h.block, none) else none
    else if h.grants size then some (h.block, some pointer) else none
  | _ => none

/-- The host returns a block that is not out, or leaves the block where it is. -/
def FreshBlock (k : Kernel) (a : Action) : Prop := ∀ r ∈ blockReturned a, r.2 = some r.1 ∨ Unused k r.1

theorem Unused.not_mem {block : ℕ} (hu : Unused k block) (ho : Owned (ledgerOf k) k.heap) (t : TaskId) :
    block ∉ ledgerOf k t := by
  obtain ⟨live, hreplay, -, hmem⟩ := ho.live
  exact fun hb => hu live hreplay ((hmem block).mpr ⟨t, hb⟩)

theorem unused_of_returned {h : Host}
    (hf : ∀ r ∈ (if h.allocate .block then some (h.block, (none : Option ℕ)) else none), r.2 = some r.1 ∨ Unused k r.1)
    (hblock : h.allocate .block = true) : Unused k h.block := by
  rcases hf (h.block, none) (by simp [hblock]) with hsame | hunused
  · cases hsame
  · exact hunused

theorem blocks_eraseP (p : ℕ) (l : List Allocation) :
    (l.eraseP (·.pointer = p)).map Allocation.pointer = (l.map Allocation.pointer).erase p := by
  induction l with
  | nil => rfl
  | cons a l ih =>
    by_cases ha : a.pointer = p
    · rw [List.eraseP_cons_of_pos (by simpa using ha), List.map_cons, ha, List.erase_cons_head]
    · rw [List.eraseP_cons_of_neg (by simpa using ha), List.map_cons, List.map_cons, ih,
        List.erase_cons_tail (by simpa using ha)]

theorem blocks_rebook {p : ℕ} (new : Allocation) {l : List Allocation} (hp : p ∈ l.map Allocation.pointer) :
    ((rebook p new l).map Allocation.pointer).Perm (new.pointer :: (l.map Allocation.pointer).erase p) := by
  induction l with
  | nil => cases hp
  | cons a l ih =>
    rw [rebook]
    by_cases ha : a.pointer = p
    · rw [if_pos ha, List.map_cons, List.map_cons, ha, List.erase_cons_head]
    · rw [if_neg ha, List.map_cons, List.map_cons, List.erase_cons_tail (by simpa using ha)]
      rw [List.map_cons, List.mem_cons] at hp
      have hrest := ih (hp.resolve_left fun h => ha h.symm)
      exact (hrest.cons a.pointer).trans (List.Perm.swap _ _ _)

theorem booked_iff {pointer : ℕ} : booked k t pointer = true ↔ pointer ∈ ledgerOf k t := by
  rw [booked, ledgerOf]
  cases k.task t with
  | none => simp
  | some task => simp [Task.blocks]

theorem ledgerOf_book_self {task : Task} {f : Task → Task} (ht : k.task t = some task) (heap : List (HeapCall ℕ)) :
    ledgerOf ({ k with heap := heap }.setTask t f) t = (f task).blocks :=
  ledgerOf_eq (Kernel.task_setTask_self (k := { k with heap := heap }) f ht)

theorem ledgerOf_book_of_ne {f : Task → Task} (k : Kernel) (heap : List (HeapCall ℕ)) (c : TaskId) (hc : c ≠ t) :
    ledgerOf ({ k with heap := heap }.setTask t f) c = ledgerOf k c :=
  congrArg (fun o => (o.map Task.blocks).getD []) (Kernel.task_setTask_of_ne { k with heap := heap } f hc)

theorem owned_apiAllocate {task : Task} (h : Host) (size : ℕ) (ho : Owned (ledgerOf k) k.heap) (ht : k.task t = some task)
    (hfresh : h.allocate .block = true → Unused k h.block) :
    Owned (ledgerOf (apiAllocate h k t size).1) (apiAllocate h k t size).1.heap := by
  rw [apiAllocate]
  split
  · exact ho
  rename_i hblock
  have hnew := fun c => (hfresh (by simpa using hblock)).not_mem ho c
  dsimp only
  split
  · exact ho.bounce hnew
  · refine ho.took (i := t) hnew ?_ fun c hc => ledgerOf_book_of_ne k _ c hc
    rw [ledgerOf_eq ht]
    exact ledgerOf_book_self ht _

theorem owned_unbook {task : Task} {pointer : ℕ} (ho : Owned (ledgerOf k) k.heap) (ht : k.task t = some task)
    (hp : pointer ∈ ledgerOf k t) : Owned (ledgerOf (unbook k t pointer)) (unbook k t pointer).heap := by
  refine ho.gave hp ?_ fun c hc => ledgerOf_book_of_ne k _ c hc
  rw [ledgerOf_eq ht, unbook]
  exact (ledgerOf_book_self ht _).trans (blocks_eraseP pointer task.allocations)

theorem owned_apiResize {task : Task} (h : Host) (pointer size : ℕ) (ho : Owned (ledgerOf k) k.heap)
    (ht : k.task t = some task) (hfresh : FreshBlock k (.call h (.resize pointer size))) :
    Owned (ledgerOf (apiResize h k t pointer size).1) (apiResize h k t pointer size).1.heap := by
  rw [FreshBlock, blockReturned] at hfresh
  rw [apiResize]
  split
  · rename_i hnull
    rw [if_pos hnull] at hfresh
    exact owned_apiAllocate h size ho ht (unused_of_returned hfresh)
  rename_i hnull
  rw [if_neg hnull] at hfresh
  split
  · exact ho
  rename_i hbooked
  have hp : pointer ∈ ledgerOf k t := booked_iff.mp (by simpa using hbooked)
  split
  · exact owned_unbook ho ht hp
  split
  · exact ho
  rename_i hgrants
  have hnew : h.block ≠ pointer → Unused k h.block := by
    intro hne
    rcases hfresh (h.block, some pointer) (by simp [hgrants]) with hsame | hunused
    · exact absurd (Option.some.inj hsame).symm hne
    · exact hunused
  refine ho.moved hp (fun hne c => (hnew hne).not_mem ho c) ?_ fun c hc => ledgerOf_book_of_ne k _ c hc
  rw [ledgerOf_eq ht] at hp ⊢
  refine List.Perm.trans (List.Perm.of_eq (ledgerOf_book_self ht _)) ?_
  exact blocks_rebook ⟨h.block, size⟩ hp

theorem owned_apiRelease {task : Task} (pointer : ℕ) (ho : Owned (ledgerOf k) k.heap) (ht : k.task t = some task) :
    Owned (ledgerOf (apiRelease k t pointer).1) (apiRelease k t pointer).1.heap := by
  rw [apiRelease]
  split
  · exact ho
  split
  · exact ho
  rename_i hbooked
  exact owned_unbook ho ht (booked_iff.mp (by simpa using hbooked))

/-! ### Runs -/

/-- The ledgers agree with the host, and tasks that have exited have nothing left. -/
structure HeapBooks (k : Kernel) : Prop where
  owned : Owned (ledgerOf k) k.heap
  bankrupt : Bankrupt k

theorem history_heapCall {op : Op} (h : Host) (hop : op.heaps = true) : (perform h k t op).1.history = k.history := by
  have halloc : ∀ size, (apiAllocate h k t size).1.history = k.history := by
    intro size
    rw [apiAllocate]
    split
    · rfl
    dsimp only
    split <;> rfl
  cases op with
  | allocate size => exact halloc size
  | resize pointer size =>
    dsimp only [perform]
    rw [apiResize]
    split
    · exact halloc size
    split
    · rfl
    split
    · rfl
    split <;> rfl
  | release pointer =>
    dsimp only [perform]
    rw [apiRelease]
    split
    · rfl
    split <;> rfl
  | _ => cases hop

theorem owned_heapCall {op : Op} {task : Task} (h : Host) (hop : op.heaps = true) (ho : Owned (ledgerOf k) k.heap)
    (ht : k.task t = some task) (hf : FreshBlock k (.call h op)) :
    Owned (ledgerOf (perform h k t op).1) (perform h k t op).1.heap := by
  cases op with
  | allocate size => exact owned_apiAllocate h size ho ht (unused_of_returned hf)
  | resize pointer size => exact owned_apiResize h pointer size ho ht hf
  | release pointer => exact owned_apiRelease pointer ho ht
  | _ => cases hop

/-- The running task has not exited. -/
theorem current_not_departed {fl : Flight} (hb : Base k fl) (hc : k.current = some t) : t ∉ k.departures := by
  intro hx
  obtain ⟨e, he, hleaver⟩ := List.mem_filterMap.mp hx
  obtain ⟨hmem, task, ht, hrun⟩ := hb.roster.current hc
  cases e with
  | exited c status =>
    obtain rfl : c = t := Option.some.inj hleaver
    rw [hb.lineage.left he hmem ht] at hrun
    cases hrun
  | spawned => cases hleaver
  | reaped => cases hleaver

theorem heapStep_closes {a : Action} (h : heapStep a = true) : closesHandles k a = none := by
  cases a with
  | call host op =>
    cases op with
    | allocate | resize | release => rfl
    | _ => cases h
  | _ => cases h

/-- **Step.**  A step on a host that returns fresh blocks keeps the books. -/
theorem HeapBooks.step {a : Action} (h : HeapBooks k) (hp : Poised k l) (hf : FreshBlock k a)
    (hs : step k a = some k') : HeapBooks k' := by
  cases hheap : heapStep a with
  | false =>
    have hledger : ∀ c, closesHandles k a ≠ some c → ledgerOf k' c = ledgerOf k c := by
      refine fun c => ledgerOf_step hp h.bankrupt hs fun htrue => ?_
      rw [hheap] at htrue
      cases htrue
    cases hclose : closesHandles k a with
    | none =>
      have haccount := accountOf_step hp h.bankrupt hs hheap hclose
      have hsame : ∀ c, ledgerOf k' c = ledgerOf k c := by
        refine fun c => hledger c ?_
        rw [hclose]
        exact fun heq => nomatch heq
      refine ⟨?_, fun c hc => ?_⟩
      · rw [show k'.heap = k.heap from congrArg Prod.fst haccount]
        exact h.owned.congr hsame
      · rw [hsame]
        exact h.bankrupt c ((show k'.departures = k.departures from congrArg Prod.snd haccount) ▸ hc)
    | some t =>
      have hsettles := settles_step hs hclose
      have hothers : ∀ c, c ≠ t → ledgerOf k' c = ledgerOf k c := by
        refine fun c hc => hledger c ?_
        rw [hclose]
        exact fun heq => hc (Option.some.inj heq).symm
      refine ⟨?_, fun c hc => ?_⟩
      · rw [hsettles.heap]
        exact h.owned.clear hsettles.ledger hothers
      · by_cases hct : c = t
        · rw [hct]
          exact hsettles.ledger
        · rw [hothers c hct]
          exact h.bankrupt c ((hsettles.departures c hc).resolve_left hct)
  | true =>
    have hothers : ∀ c, k.current ≠ some c → ledgerOf k' c = ledgerOf k c := by
      refine fun c hc => ledgerOf_step hp h.bankrupt hs (fun _ => hc) ?_
      rw [heapStep_closes hheap]
      exact fun heq => nomatch heq
    cases a with
    | call host op =>
      cases hc : k.current with
      | none =>
        unfold CannedBsd.step at hs
        split at hs
        · cases hs
        simp [hc] at hs
      | some t =>
        obtain ⟨-, task, ht, -⟩ := hp.base.roster.current hc
        have howned := owned_heapCall host hheap h.owned ht hf
        have hhistory := history_heapCall (k := k) (t := t) host hheap
        unfold CannedBsd.step at hs
        split at hs
        · cases hs
        simp only [hc, Option.some.injEq] at hs
        have haccount := accountOf_deliver (t := t) (perform host k t op)
        have hdeliver : ∀ c, ledgerOf (deliver t (perform host k t op)) c = ledgerOf (perform host k t op).1 c :=
          fun c => (reserved_ledgerOf c t).deliver _
        rw [hs] at haccount hdeliver
        have hleft : k'.departures = k.departures := by
          refine (congrArg Prod.snd haccount).trans ?_
          exact congrArg (List.filterMap Passage.leaver) hhistory
        refine ⟨?_, fun c hx => ?_⟩
        · rw [show k'.heap = (perform host k t op).1.heap from congrArg Prod.fst haccount]
          exact howned.congr hdeliver
        · rw [hleft] at hx
          rw [hothers c ?_]
          · exact h.bankrupt c hx
          · intro hcurrent
            exact current_not_departed hp.base hcurrent hx
    | _ => cases hheap

/-- **Runs.**  In every run on a host that returns fresh blocks the books are kept. -/
theorem ReachBy.heapBooks (hr : ReachBy FreshBlock k) : (∃ l, Poised k l) ∧ HeapBooks k := by
  obtain ⟨h, hr⟩ := hr
  refine hr.invariant (P := fun k => (∃ l, Poised k l) ∧ HeapBooks k) ⟨⟨_, poised_cbKernelCreate h⟩, ?_, ?_⟩ ?_
  · exact Owned.empty.congr fun c => ledgerOf_none (Heap.get_empty c)
  · intro c hc
    cases hc
  · rintro k a k' hok hs ⟨⟨l, hp⟩, hbooks⟩
    obtain ⟨l', -, hp', -⟩ := hp.step hs
    exact ⟨⟨l', hp'⟩, hbooks.step hp hok hs⟩

/-! ### The end of the kernel -/

/-- `cb_kernel_destroy`, up to the programs, the file system and the kernel itself. -/
def cbKernelDestroy (k : Kernel) : Kernel := k.order.foldl taskDestroy k

theorem ledgerOf_taskDestroy (k : Kernel) (t : TaskId) :
    ledgerOf (taskDestroy k t) t = [] ∧ ∀ c, c ≠ t → ledgerOf (taskDestroy k t) c = ledgerOf k c := by
  refine ⟨ledgerOf_none ?_, fun c hc => ledgerOf_of_ownOf ?_⟩
  · rw [taskDestroy]
    generalize dirCloseAll _ t = k₁
    rw [taskRelease]
    split
    · assumption
    · exact Heap.get_free_self _ _
  · have hv := beyond_ownOf hc
    rw [taskDestroy, hv.taskRelease hv.free, hv.dirCloseAll, fdCloseAll, hv.fdCloseWhere, hv.taskReleaseAllocations]

theorem owned_taskDestroy (ho : Owned (ledgerOf k) k.heap) (t : TaskId) :
    Owned (ledgerOf (taskDestroy k t)) (taskDestroy k t).heap := by
  obtain ⟨hself, hothers⟩ := ledgerOf_taskDestroy k t
  have haccount := accountOf_taskDestroy k t
  generalize taskDestroy k t = k' at hself hothers haccount ⊢
  have hheap : k'.heap = k.heap ++ (ledgerOf k t).map .gave := congrArg Prod.fst haccount
  rw [hheap]
  exact ho.clear hself hothers

/-- The loop gives back the blocks of all its tasks. -/
theorem owned_foldl_taskDestroy (ts : List TaskId) : ∀ {k : Kernel}, Owned (ledgerOf k) k.heap →
    Owned (ledgerOf (ts.foldl taskDestroy k)) (ts.foldl taskDestroy k).heap ∧
      ∀ c, c ∈ ts ∨ ledgerOf k c = [] → ledgerOf (ts.foldl taskDestroy k) c = [] := by
  induction ts with
  | nil =>
    intro k ho
    refine ⟨ho, fun c hc => ?_⟩
    exact hc.resolve_left List.not_mem_nil
  | cons t ts ih =>
    intro k ho
    obtain ⟨hself, hothers⟩ := ledgerOf_taskDestroy k t
    have hfirst := owned_taskDestroy ho t
    rw [List.foldl_cons]
    generalize taskDestroy k t = k' at hself hothers hfirst ⊢
    obtain ⟨howned, hempty⟩ := ih hfirst
    refine ⟨howned, fun c hc => hempty c ?_⟩
    by_cases hct : c = t
    · rw [hct]
      exact .inr hself
    · rcases hc with hmem | hnone
      · exact .inl ((List.mem_cons.mp hmem).resolve_left hct)
      · rw [hothers c hct]
        exact .inr hnone

/-- **Destruction.**  After the kernel is gone no block is out. -/
theorem replay_cbKernelDestroy (hb : HeapBooks k) (hp : Poised k l) : replay (cbKernelDestroy k).heap = some [] := by
  obtain ⟨howned, hempty⟩ := owned_foldl_taskDestroy k.order hb.owned
  obtain ⟨live, hreplay, -, hmem⟩ := howned.live
  have hnil : live = [] := by
    refine List.eq_nil_iff_forall_not_mem.mpr fun b hb => ?_
    obtain ⟨c, hc⟩ := (hmem b).mp hb
    rw [hempty c] at hc
    · cases hc
    · cases ht : k.task c with
      | none => exact .inr (ledgerOf_none ht)
      | some task => exact .inl ((hp.base.roster.listed ht).resolve_right fun h => nomatch h)
  rw [cbKernelDestroy, hreplay, hnil]

/-! ### Ownership -/

theorem perform_foreign {pointer : ℕ} (h : Host) (size : ℕ) (hnull : pointer ≠ 0) (hp : pointer ∉ ledgerOf k t) :
    perform h k t (.release pointer) = (k, pointerReply 0 Errno.einval.code) ∧
      perform h k t (.resize pointer size) = (k, pointerReply 0 Errno.einval.code) := by
  have hbooked : booked k t pointer = false := by
    cases hb : booked k t pointer with
    | false => rfl
    | true => exact absurd (booked_iff.mp hb) hp
  dsimp only [perform]
  rw [apiRelease, apiResize, if_neg hnull, if_neg hnull, if_pos hbooked, if_pos hbooked]
  exact ⟨rfl, rfl⟩

theorem perform_refused {pointer size : ℕ} (h : Host) (hnull : pointer ≠ 0) (hp : pointer ∈ ledgerOf k t)
    (hsize : size ≠ 0) (hrefuse : h.grants size = false) :
    perform h k t (.resize pointer size) = (k, pointerReply 0 Errno.enomem.code) := by
  have hbooked : ¬ booked k t pointer = false := by simp [booked_iff.mpr hp]
  dsimp only [perform]
  rw [apiResize, if_neg hnull, if_neg hbooked, if_neg hsize, if_pos hrefuse]

/-- **Ownership.**  In every run on a host that returns fresh blocks: the blocks that are out are those in
the ledgers, each in one ledger once, and none was given back that was not out. A task that has exited has
none, and one that exits or is replaced gives back its own. A call with a foreign pointer changes nothing
but errno, and so does a `resize` the host refuses. When the kernel is destroyed no block stays out. -/
theorem program_heap_owned (hr : ReachBy FreshBlock k) :
    Owned (ledgerOf k) k.heap ∧
    (∀ t task, k.task t = some task → task.state = .zombie → task.allocations = []) ∧
    (∀ a k' t, step k a = some k' → closesHandles k a = some t →
      ledgerOf k' t = [] ∧ k'.heap = k.heap ++ (ledgerOf k t).map .gave) ∧
    (∀ h t pointer size, k.current = some t → pointer ≠ 0 → pointer ∉ ledgerOf k t →
      perform h k t (.release pointer) = (k, pointerReply 0 Errno.einval.code) ∧
      perform h k t (.resize pointer size) = (k, pointerReply 0 Errno.einval.code)) ∧
    (∀ h t pointer size, k.current = some t → pointer ≠ 0 → pointer ∈ ledgerOf k t → size ≠ 0 →
      h.grants size = false → perform h k t (.resize pointer size) = (k, pointerReply 0 Errno.enomem.code)) ∧
    replay (cbKernelDestroy k).heap = some [] := by
  obtain ⟨⟨l, hp⟩, hbooks⟩ := hr.heapBooks
  refine ⟨hbooks.owned, fun t task ht hz => ?_, fun a k' t hs hclose => ?_,
    fun h t pointer size _ hnull hpointer => perform_foreign h size hnull hpointer,
    fun h t pointer size _ hnull hpointer hsize hrefuse => perform_refused h hnull hpointer hsize hrefuse,
    replay_cbKernelDestroy hbooks hp⟩
  · have hmem : t ∈ k.order := (hp.base.roster.listed ht).resolve_right fun h => nomatch h
    have hempty := hbooks.bankrupt.zombie hp.base hmem ht hz
    rw [ledgerOf_eq ht] at hempty
    exact List.map_eq_nil_iff.mp hempty
  · have hsettles := settles_step hs hclose
    exact ⟨hsettles.ledger, hsettles.heap⟩

instance (k : Kernel) (block : ℕ) : Decidable (Unused k block) :=
  match h : replay k.heap with
  | none => isTrue fun live hlive => by simp [h] at hlive
  | some live => decidable_of_iff (block ∉ live)
      ⟨fun hb live' hlive => by rw [h, Option.some.injEq] at hlive; exact hlive ▸ hb, fun hu => hu live h⟩

instance (k : Kernel) (a : Action) : Decidable (FreshBlock k a) :=
  inferInstanceAs (Decidable (∀ r ∈ blockReturned a, r.2 = some r.1 ∨ Unused k r.1))

/-- The shell allocates two blocks, moves one and releases the other. -/
def allocatingRun : List Action :=
  shellStart ++ [.call { Host.calm with block := 16 } (.allocate 8), .call { Host.calm with block := 32 } (.allocate 0),
    .call { Host.calm with block := 48 } (.resize 16 64), .call .calm (.release 32), .call .calm (.release 77)]

theorem program_heap_owned_shell : ledgerOf (stateAfter allocatingRun) 0 = [48] ∧
    Owned (ledgerOf (stateAfter allocatingRun)) (stateAfter allocatingRun).heap := by
  have hr : ReachBy FreshBlock (stateAfter allocatingRun) := reachBy_stateAfter (by decide +kernel)
  exact ⟨by decide +kernel, (program_heap_owned hr).1⟩

end CannedBsd
