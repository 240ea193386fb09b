import CannedBsd.Kernel.Iteration
import CannedBsd.Kernel.Renaming
import CannedBsd.Kernel.Possessions
import CannedBsd.Vfs.Listing

/-!
# Reading a directory to its end

A handle that is open on a directory has a list of entries left to read, and `readdir` takes them off one
by one. The steps in between may add entries and may take out those that have been returned: the list
stays, because the handle points into the list of children behind both.

* `apiReaddir_reading`: `readdir` takes the first entry off the list.
* `Reading.step`: no other step changes what is left to read.
* `readdir_drains`: the calls of `readdir` return the entries the directory had at `opendir`, each once and in
  order.
-/

namespace CannedBsd

open CannedBsd.Lib

variable {gone : NodeId → Prop} {k k' : Kernel} {fl fl' : Flight} {t : TaskId} {l : NodeId → ℕ}
variable {d : Fin cbMaxDirs} {dir : NodeId} {first : Option NodeId} {entries : List Entry}

/-! ### The list stays -/

theorem Unread.micro (h : Unread k.vfs dir first entries) (hb : Base k fl) (hm : Micro gone k fl k' fl')
    (hstay : ∀ e ∈ entries, ¬ gone e.node) : Unread k'.vfs dir first entries := by
  cases hm with
  | vfs hv => exact h.move hv hb.books.vfs hstay
  | sched hs =>
    rw [hs.pointers.vfs]
    exact h
  | closeReader =>
    rw [pipeReadClose, Waiting.vfs_pipeClose]
    exact h
  | closeWriter =>
    rw [pipeWriteClose, Waiting.vfs_pipeClose]
    exact h
  | _ => exact h

theorem Unread.moves (h : Unread k.vfs dir first entries) (hb : Base k fl) (hm : Moves gone k fl k' fl')
    (hstay : ∀ e ∈ entries, ¬ gone e.node) : Unread k'.vfs dir first entries := by
  induction hm with
  | refl => exact h
  | step hprev hs ih => exact ih.micro (hb.moves hprev) hs hstay

/-! ### One handle -/

/-- A directory handle of a task. -/
def handleOf (t : TaskId) (d : Fin cbMaxDirs) (k : Kernel) : Option DirHandle :=
  (k.task t).map fun task => task.directories d

theorem handleOf_eq_of_ownOf (h : ownOf t k' = ownOf t k) (d : Fin cbMaxDirs) : handleOf t d k' = handleOf t d k := by
  have hmap := congrArg (Option.map fun s : (Fin cbMaxDirs → DirHandle) × List Allocation => s.1 d) h
  rw [ownOf, ownOf, Option.map_map, Option.map_map] at hmap
  exact hmap

theorem handleOf_setDir_of_ne {d e : Fin cbMaxDirs} (hne : d ≠ e) (k : Kernel) (handle : DirHandle) :
    handleOf t d (k.setDir t e handle) = handleOf t d k :=
  field_setTask (fun task => task.directories d) k t t fun _ => Function.update_of_ne hne _ _

theorem handleOf_setDir_self {old : DirHandle} (handle : DirHandle) (h : handleOf t d k = some old) :
    handleOf t d (k.setDir t d handle) = some handle := by
  obtain ⟨task, ht, -⟩ := Option.map_eq_some_iff.mp h
  rw [handleOf, Kernel.setDir, Kernel.task_setTask_self _ ht, Option.map_some]
  exact congrArg some (Function.update_self ..)

theorem handleOf_deliver (r : Kernel × Outcome) : handleOf t d (deliver t r) = handleOf t d r.1 :=
  field_deliver (fun task => task.directories d) r t (fun _ _ => rfl) (fun _ _ => rfl) fun _ _ _ _ => rfl

theorem dir_of_handleOf {handle : DirHandle} (h : handleOf t d k = some handle) : k.dir t d = handle := by
  rw [Kernel.dir]
  rw [handleOf] at h
  rw [h]
  rfl

/-- The handle has these entries left to read. -/
def Reading (k : Kernel) (t : TaskId) (d : Fin cbMaxDirs) (dir : NodeId) (entries : List Entry) : Prop :=
  ∃ first, handleOf t d k = some ⟨some dir, first, true⟩ ∧ Unread k.vfs dir first entries

/-- The descriptor of a handle in use is found. -/
theorem filter_dirSlot {descriptor : ℤ} {handle : DirHandle} (hd : dirSlot descriptor = some d)
    (h : handleOf t d k = some handle) (huse : handle.inUse = true) :
    (dirSlot descriptor).filter (fun d => (k.dir t d).inUse) = some d := by
  rw [hd, Option.filter_some, dir_of_handleOf h, if_pos huse]

/-- What `readdir` returns through a handle with these entries left, and what is left after it. -/
def readNext (entries : List Entry) (nameSize : ℕ) : Outcome × List Entry :=
  if nameSize = 0 then (.fail .einval, entries)
  else
    match entries with
    | [] => (.done ⟨0, [], none⟩ (.entry [] 0 .regular), [])
    | e :: rest =>
      if nameSize ≤ e.name.length then (.fail .enametoolong, entries)
      else (.done (.done 0) (.entry e.name e.inode e.type), rest)

/-- `readdir` reads the list. -/
theorem apiReaddir_reading {descriptor : ℤ} (nameSize : ℕ) (hd : dirSlot descriptor = some d)
    (h : Reading k t d dir entries) :
    (apiReaddir k t descriptor nameSize).2 = (readNext entries nameSize).1 ∧
      ∃ first, handleOf t d (apiReaddir k t descriptor nameSize).1 = some ⟨some dir, first, true⟩ ∧
        Unread k.vfs dir first (readNext entries nameSize).2 := by
  obtain ⟨first, hhandle, hlist⟩ := h
  have hdir := dir_of_handleOf hhandle
  rw [apiReaddir, filter_dirSlot hd hhandle rfl, readNext.eq_def]
  dsimp only
  by_cases hzero : nameSize = 0
  · rw [if_pos hzero, if_pos hzero]
    exact ⟨rfl, first, hhandle, hlist⟩
  rw [if_neg hzero, if_neg hzero, hdir]
  dsimp only
  cases entries with
  | nil =>
    obtain rfl := hlist.chain.eq_none
    exact ⟨rfl, none, hhandle, hlist⟩
  | cons e rest =>
    obtain rfl := hlist.first_eq
    obtain ⟨node, hn, hname, hinode, htype⟩ := hlist.node
    dsimp only
    rw [hn]
    dsimp only
    rw [hname]
    by_cases hlong : nameSize ≤ e.name.length
    · rw [if_pos hlong, if_pos hlong]
      exact ⟨rfl, _, hhandle, hlist⟩
    rw [if_neg hlong, if_neg hlong, hinode, htype]
    refine ⟨rfl, k.vfs.nextOf e.node, ?_, hlist.tail⟩
    -- the retained node and the released one do not show in the handle
    have hset := @handleOf_setDir_self (retainNode k (ramfsNextSibling k.vfs e.node)) t d _
      ⟨some dir, k.vfs.nextOf e.node, true⟩ hhandle
    rw [← hset]
    dsimp only
    rw [show (retainNode k (ramfsNextSibling k.vfs e.node)).dir t d = ⟨some dir, some e.node, true⟩ from hdir]
    rfl

/-- At the end the state stays. -/
theorem apiReaddir_end {descriptor : ℤ} {nameSize : ℕ} (hd : dirSlot descriptor = some d) (h : Reading k t d dir [])
    (hsize : nameSize ≠ 0) :
    apiReaddir k t descriptor nameSize = (k, .done ⟨0, [], none⟩ (.entry [] 0 .regular)) := by
  obtain ⟨first, hhandle, hlist⟩ := h
  obtain rfl := hlist.chain.eq_none
  rw [apiReaddir, filter_dirSlot hd hhandle rfl]
  dsimp only
  rw [if_neg hsize, dir_of_handleOf hhandle]

/-! ### The calls on other handles -/

theorem handleOf_apiOpendir (path : Bytes) (huse : (handleOf t d k).any DirHandle.inUse = true) :
    handleOf t d (apiOpendir k t path).1 = handleOf t d k := by
  rw [apiOpendir]
  split
  · rfl
  dsimp only
  split
  · rfl
  split
  · rename_i e hfree
    refine handleOf_setDir_of_ne ?_ _ _
    rintro rfl
    obtain ⟨task, ht, hfind⟩ := Option.bind_eq_some_iff.mp hfree
    have hunused := List.find?_some hfind
    have hold : k.task t = some task := ht
    rw [handleOf, hold, Option.map_some, Option.any_some] at huse
    rw [huse] at hunused
    cases hunused
  · rfl

theorem handleOf_apiReaddir {descriptor : ℤ} (nameSize : ℕ) (hd : dirSlot descriptor ≠ some d) :
    handleOf t d (apiReaddir k t descriptor nameSize).1 = handleOf t d k := by
  rw [apiReaddir]
  split
  · rfl
  rename_i e hslot
  have hne : d ≠ e := by
    rintro rfl
    exact hd (Option.filter_eq_some_iff.mp hslot).1
  split
  · rfl
  split
  · rfl
  split
  · rfl
  split
  · rfl
  · exact handleOf_setDir_of_ne hne (retainNode k _) _

theorem handleOf_apiClosedir {descriptor : ℤ} (hd : dirSlot descriptor ≠ some d) :
    handleOf t d (apiClosedir k t descriptor).1 = handleOf t d k := by
  rw [apiClosedir]
  split
  · rfl
  rename_i e hslot
  have hne : d ≠ e := by
    rintro rfl
    exact hd (Option.filter_eq_some_iff.mp hslot).1
  exact handleOf_setDir_of_ne hne k _

/-- The heap calls write to the ledger and ask the host. -/
theorem handleOf_setTask {f : Task → Task} (hf : ∀ task, (f task).directories = task.directories) (k : Kernel)
    (heap : List (HeapCall ℕ)) : handleOf t d ({ k with heap := heap }.setTask t f) = handleOf t d k :=
  field_setTask (fun task => task.directories d) { k with heap := heap } t t fun task => congrFun (hf task) d

theorem handleOf_apiAllocate (h : Host) (k : Kernel) (size : ℕ) :
    handleOf t d (apiAllocate h k t size).1 = handleOf t d k := by
  rw [apiAllocate]
  split
  · rfl
  dsimp only
  split
  · rfl
  · apply handleOf_setTask
    exact fun _ => rfl

theorem handleOf_unbook (k : Kernel) (pointer : ℕ) : handleOf t d (unbook k t pointer) = handleOf t d k := by
  apply handleOf_setTask
  exact fun _ => rfl

theorem handleOf_apiResize (h : Host) (k : Kernel) (pointer size : ℕ) :
    handleOf t d (apiResize h k t pointer size).1 = handleOf t d k := by
  rw [apiResize]
  split
  · exact handleOf_apiAllocate h k size
  split
  · rfl
  split
  · exact handleOf_unbook k pointer
  split
  · rfl
  · apply handleOf_setTask
    exact fun _ => rfl

theorem handleOf_apiRelease (k : Kernel) (pointer : ℕ) : handleOf t d (apiRelease k t pointer).1 = handleOf t d k := by
  rw [apiRelease]
  split
  · rfl
  split
  · rfl
  · exact handleOf_unbook k pointer

/-! ### Steps -/

/-- The step reads through the handle, with this buffer size. -/
def readsThrough (k : Kernel) (t : TaskId) (d : Fin cbMaxDirs) : Action → Option ℕ
  | .call _ (.readdir descriptor nameSize) =>
    if k.current = some t ∧ dirSlot descriptor = some d then some nameSize else none
  | _ => none

/-- The step closes the handle: by `closedir`, or because its task ends or is replaced. -/
def closesHandle (k : Kernel) (t : TaskId) (d : Fin cbMaxDirs) (a : Action) : Prop :=
  closesHandles k a = some t ∨
    ∃ h descriptor, a = .call h (.closedir descriptor) ∧ k.current = some t ∧ dirSlot descriptor = some d

/-- The step leaves the handle open and takes none of these entries out of its place. -/
def Undisturbed (k : Kernel) (t : TaskId) (d : Fin cbMaxDirs) (entries : List Entry) (a : Action) : Prop :=
  ¬ closesHandle k t d a ∧ ∀ e ∈ entries, ¬ stepStirs k a e.node

/-- Steps that do not read through the handle and do not close it keep it. -/
theorem handleOf_step {a : Action} {handle : DirHandle} (hb : Base k fl) (hs : step k a = some k')
    (hhandle : handleOf t d k = some handle) (huse : handle.inUse = true) (hread : readsThrough k t d a = none)
    (hclose : ¬ closesHandle k t d a) : handleOf t d k' = handleOf t d k := by
  obtain ⟨task, ht, htask⟩ := Option.map_eq_some_iff.mp hhandle
  cases hown : handlesOwn k t a with
  | false =>
    have hne : t ≠ k.tasks.next := Nat.ne_of_lt (Heap.lt_next_of_get ht)
    rcases remains_step hs (fun _ => hne) hown fun h => hclose (.inl h) with heq | ⟨⟨z, hz, hzombie⟩, -⟩
    · exact handleOf_eq_of_ownOf heq d
    · -- a zombie has no handle in use
      rw [ht, Option.some.injEq] at hz
      subst hz
      have hunused := (hb.orderly t task ht).handles (by rw [hzombie]; rfl) d
      rw [htask, huse] at hunused
      cases hunused
  | true =>
    cases a with
    | call h op =>
      rw [handlesOwn, Bool.and_eq_true, decide_eq_true_eq] at hown
      obtain ⟨hc, hop⟩ := hown
      unfold step at hs
      split at hs
      · cases hs
      simp only [hc, Option.some.injEq] at hs
      subst hs
      rw [handleOf_deliver]
      cases op with
      | opendir path =>
        refine handleOf_apiOpendir path ?_
        rw [hhandle]
        exact huse
      | readdir descriptor nameSize =>
        refine handleOf_apiReaddir nameSize fun hd => ?_
        simp [readsThrough, hc, hd] at hread
      | closedir descriptor => exact handleOf_apiClosedir fun hd => hclose (.inr ⟨h, descriptor, rfl, hc, hd⟩)
      | allocate size => exact handleOf_apiAllocate h k size
      | resize pointer size => exact handleOf_apiResize h k pointer size
      | release pointer => exact handleOf_apiRelease k pointer
      | _ => cases hop
    | _ => cases hown

/-- Steps that do not read through the handle keep what is left to read. -/
theorem Reading.step {a : Action} (h : Reading k t d dir entries) (hp : Poised k l) (hs : step k a = some k')
    (hread : readsThrough k t d a = none) (hun : Undisturbed k t d entries a) : Reading k' t d dir entries := by
  obtain ⟨first, hhandle, hlist⟩ := h
  obtain ⟨l', hm, -, -⟩ := hp.step hs
  refine ⟨first, ?_, hlist.moves hp.base hm hun.2⟩
  rw [handleOf_step hp.base hs hhandle rfl hread hun.1, hhandle]

/-- The errno cell of a task. -/
def errnoOf (t : TaskId) (k : Kernel) : Option ℤ := (k.task t).map Task.errorCell

/-- What the running task is told by the step. -/
def replyOf (k : Kernel) : Action → Option Outcome
  | .call h op => k.current.map fun t => (perform h k t op).2
  | _ => none

/-- Steps that read through the handle take off the first entry. -/
theorem Reading.read {a : Action} {nameSize : ℕ} (h : Reading k t d dir entries) (hp : Poised k l)
    (hs : CannedBsd.step k a = some k') (hread : readsThrough k t d a = some nameSize) :
    replyOf k a = some (readNext entries nameSize).1 ∧ Reading k' t d dir (readNext entries nameSize).2 ∧
      (entries = [] → nameSize ≠ 0 → errnoOf t k' = errnoOf t k) := by
  obtain ⟨l', hm, -, -⟩ := hp.step hs
  cases a with
  | call host op =>
    cases op with
    | readdir descriptor size =>
      rw [readsThrough] at hread
      split at hread
      · rename_i hcond
        obtain ⟨hc, hd⟩ := hcond
        cases hread
        obtain ⟨hreply, first, hhandle, hlist⟩ := apiReaddir_reading nameSize hd h
        have hstirs : stepStirs k (.call host (.readdir descriptor nameSize)) = noNode := by
          rw [stepStirs, hc]
          rfl
        rw [hstirs] at hm
        unfold CannedBsd.step at hs
        split at hs
        · cases hs
        simp only [hc, Option.some.injEq] at hs
        subst hs
        refine ⟨?_, ⟨first, ?_, hlist.moves hp.base hm fun _ _ hno => hno⟩, ?_⟩
        · rw [replyOf, hc]
          exact congrArg some hreply
        · rw [handleOf_deliver]
          exact hhandle
        · rintro rfl hsize
          dsimp only [perform]
          rw [apiReaddir_end hd h hsize, deliver]
          exact field_setTask Task.errorCell k t t fun _ => rfl
      · cases hread
    | _ => cases hread
  | _ => cases hread

/-! ### Runs -/

/-- In a run whose steps leave the handle open and the unread entries in their place, every `readdir`
through the handle returns what the list says. -/
def Drains (t : TaskId) (d : Fin cbMaxDirs) : Kernel → List Entry → List Action → Prop
  | _, _, [] => True
  | k, entries, a :: actions => Undisturbed k t d entries a → ∀ k', step k a = some k' →
    match readsThrough k t d a with
    | none => Drains t d k' entries actions
    | some nameSize =>
      replyOf k a = some (readNext entries nameSize).1 ∧
        (entries = [] → nameSize ≠ 0 → errnoOf t k' = errnoOf t k) ∧
        Drains t d k' (readNext entries nameSize).2 actions

theorem Reading.drains (actions : List Action) : ∀ {k l entries}, Reading k t d dir entries → Poised k l →
    Drains t d k entries actions := by
  induction actions with
  | nil => exact fun _ _ => trivial
  | cons a actions ih =>
    intro k l entries h hp hun k' hs
    obtain ⟨l', -, hp', -⟩ := hp.step hs
    cases hread : readsThrough k t d a with
    | none => exact ih (h.step hp hs hread hun) hp'
    | some nameSize =>
      obtain ⟨hreply, hnext, herrno⟩ := h.read hp hs hread
      exact ⟨hreply, herrno, ih hnext hp'⟩

/-- `ramfs_child_at` of index zero, behind the retained directory, is the head of the list. -/
theorem ramfsChildAt_zero {v : Vfs} {n : NodeId} {node : Node} {first : Option NodeId} (hn : v.node n = some node)
    (h : ramfsChildAt (cbVfsNodeRetain v (some n)) n 0 = .ok first) : first = node.children := by
  have hnode : (cbVfsNodeRetain v (some n)).node n = some { node with references := node.references + 1 } := by
    rw [cbVfsNodeRetain, ramfsNodeRetain, Vfs.node_setNode_self, hn]
    rfl
  rw [ramfsChildAt, hnode] at h
  dsimp only at h
  split at h
  · cases h
  rw [Except.ok.injEq] at h
  have hpos : 0 < (cbVfsNodeRetain v (some n)).nodes.next := Nat.zero_lt_of_lt (Vfs.lt_next_of_node hnode)
  obtain ⟨m, hm⟩ := Nat.exists_eq_succ_of_ne_zero (Nat.ne_of_gt hpos)
  rw [hm] at h
  rw [← h]
  cases node.children with
  | none => rfl
  | some c => rfl

/-- A new handle has the whole directory left to read. -/
theorem apiOpendir_reading {path : Bytes} (hp : Poised k l) (hc : k.current = some t)
    (hopen : (apiOpendir k t path).2 = .value d.val) :
    ∃ dir, lookupDirectory k.vfs (k.viewOf t) path = .ok dir ∧ (∃ node, k.vfs.node dir = some node) ∧
      ∃ first, handleOf t d (apiOpendir k t path).1 = some ⟨some dir, first, true⟩ ∧
        Unread k.vfs dir first (entriesOf k.vfs dir) := by
  obtain ⟨-, task, ht, -⟩ := hp.base.roster.current hc
  rw [apiOpendir] at hopen ⊢
  cases hlook : lookupDirectory k.vfs (k.viewOf t) path with
  | error e =>
    rw [hlook] at hopen
    cases hopen
  | ok dir =>
    have hroot : (k.viewOf t).root = some k.vfs.vfsRoot := by
      rw [viewOf_eq ht]
      exact hp.base.books.roots ht
    obtain ⟨node, hn, -⟩ := lookupDirectory_rooted ⟨hp.base.books.vfs, hp.base.books.root, hroot⟩ hlook
    refine ⟨dir, rfl, ⟨node, hn⟩, ?_⟩
    rw [hlook] at hopen
    dsimp only at hopen ⊢
    split at hopen
    · cases hopen
    rename_i first hfirst
    have hunread := (unread_entriesOf hp.base.books.vfs.tree.links hn).1
    obtain rfl := ramfsChildAt_zero hn hfirst
    split at hopen
    · rename_i e hfree
      obtain rfl : e = d := by
        rw [Outcome.value, Outcome.value, Outcome.done.injEq] at hopen
        have hval := congrArg Reply.value hopen.1
        exact Fin.ext (Int.ofNat.inj hval)
      refine ⟨node.children, ?_, hunread⟩
      have hold : handleOf t e (retainNode (retainNode k (some dir)) node.children) = some (task.directories e) := by
        rw [handleOf]
        exact congrArg (Option.map fun task => task.directories e) ht
      exact handleOf_setDir_self ⟨some dir, node.children, true⟩ hold
    · cases hopen

/-- **Draining.**  Through a handle that `opendir` returned, `readdir` returns the entries the directory
had at that time, each once and in the order of the list of children, and then the empty name. The steps
in between may change everything but the place of the entries that are still to come. -/
theorem readdir_drains (hr : Reachable k) (hc : k.current = some t) (h : Host) (path : Bytes)
    (hopen : (perform h k t (.opendir path)).2 = .value d.val)
    (hs : step k (.call h (.opendir path)) = some k') :
    ∃ dir, lookupDirectory k.vfs (k.viewOf t) path = .ok dir ∧
      ((entriesOf k.vfs dir).map Entry.node).Nodup ∧
      (∀ c, k.vfs.parentOf c = some dir ↔ ∃ e ∈ entriesOf k.vfs dir, e.node = c ∧ k.vfs.entry c = some e) ∧
      ∀ actions, Drains t d k' (entriesOf k.vfs dir) actions := by
  obtain ⟨l, hp⟩ := hr.poised
  obtain ⟨l', hm, hp', -⟩ := hp.step hs
  obtain ⟨dir, hlook, ⟨node, hn⟩, first, hhandle, hunread⟩ := apiOpendir_reading hp hc hopen
  obtain ⟨-, hnodes⟩ := unread_entriesOf hp.base.books.vfs.tree.links hn
  obtain ⟨hchain, hmem⟩ := hp.base.books.vfs.tree.links.collect_children hn
  have hstirs : stepStirs k (.call h (.opendir path)) = noNode := by
    rw [stepStirs, hc]
    rfl
  rw [hstirs] at hm
  have hreading : Reading k' t d dir (entriesOf k.vfs dir) := by
    refine ⟨first, ?_, hunread.moves hp.base hm fun _ _ hno => hno⟩
    unfold CannedBsd.step at hs
    split at hs
    · cases hs
    simp only [hc, Option.some.injEq] at hs
    rw [← hs, handleOf_deliver]
    exact hhandle
  refine ⟨dir, hlook, ?_, fun c => ⟨fun hparent => ?_, ?_⟩, fun actions => hreading.drains actions hp'⟩
  · rw [hnodes]
    exact hchain.nodup
  · rw [← hmem, ← hnodes] at hparent
    obtain ⟨e, he, rfl⟩ := List.mem_map.mp hparent
    exact ⟨e, he, rfl, hunread.entry e he⟩
  · rintro ⟨e, he, rfl, -⟩
    exact hunread.parent e he

/-- The shell opens the root after it has made `/d`. -/
theorem readdir_drains_root : ∃ k' dir, step beforeRename (.call .calm (.opendir [slash])) = some k' ∧
    lookupDirectory beforeRename.vfs (beforeRename.viewOf 0) [slash] = .ok dir ∧
    ∀ actions, Drains 0 ⟨0, by decide⟩ k' (entriesOf beforeRename.vfs dir) actions := by
  have hpossible : (step beforeRename (.call .calm (.opendir [slash]))).isSome = true := by decide +kernel
  obtain ⟨k', hs⟩ := Option.isSome_iff_exists.mp hpossible
  obtain ⟨dir, hlook, -, -, hdrains⟩ := @readdir_drains beforeRename k' 0 ⟨0, by decide⟩ (reachable_stateAfter _)
    (by decide +kernel) .calm [slash] (by decide +kernel) hs
  exact ⟨k', dir, hs, hlook, hdrains⟩

end CannedBsd
