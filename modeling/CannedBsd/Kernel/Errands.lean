import CannedBsd.Kernel.Draining
import CannedBsd.Kernel.ProgramHeap
import CannedBsd.Vfs.Still

/-!
# Calls that leave the tree alone

A program that only looks at the tree asks for the status of paths, opens, reads and closes directories,
and asks for memory. These calls return to the program, change counts of nodes only, and apart from that
reach one handle or one block of the task.

* `apiOpendir_round`, `apiReaddir_round`, `apiClosedir_round`, `apiAllocate_round`, `apiRelease_round`: what
  each of these calls leaves.
* `AtWork.call`: a call that is such an errand keeps the task at work.
-/

namespace CannedBsd

open CannedBsd.Lib

variable {k k' : Kernel} {t : TaskId} {l : NodeId → ℕ} {d e : Fin cbMaxDirs} {dir : NodeId} {entries : List Entry}

/-! ### Counts of nodes in the tree -/

theorem Sound.retained {v : Vfs} {ext : NodeId → ℕ} {o : Option NodeId} (h : Sound v ext)
    (ho : ∀ n, o = some n → Rooted v n) : Sound (cbVfsNodeRetain v o) fun c => ext c + pointsTo o c := by
  cases o with
  | none => exact h.congr fun _ => rfl
  | some n =>
    obtain ⟨node, hn, -⟩ := ho n rfl
    exact h.retain hn fun _ => rfl

theorem Sound.released {v : Vfs} {ext : NodeId → ℕ} {o : Option NodeId} (h : Sound v fun c => ext c + pointsTo o c)
    (ho : ∀ n, o = some n → Rooted v n) : Sound (cbVfsNodeRelease v o) ext ∧ Still v (cbVfsNodeRelease v o) := by
  refine ⟨?_, .release fun n hn => ?_⟩
  · cases o with
    | none => exact h.congr fun _ => rfl
    | some n => exact h.release fun _ => rfl
  · subst hn
    refine h.shared (ho n rfl) ?_
    rw [pointsTo_self]
    omega

/-- A child of a node of the tree is in the tree. -/
theorem Rooted.child {v : Vfs} {c : NodeId} (ht : Tree v) (hd : Rooted v dir) (hc : v.parentOf c = some dir) :
    Rooted v c := by
  obtain ⟨dnode, hdnode, hattached, -⟩ := hd
  obtain ⟨node, hn, hp⟩ := Vfs.node_of_parentOf hc
  refine ⟨node, hn, ?_, .inl ?_⟩
  · rwa [← ht.links.mount hn hp hdnode]
  · rw [hp]
    exact fun h => nomatch h

/-! ### What such a call keeps -/

/-- The task goes on, and every path leads where it led. -/
structure Errand (t : TaskId) (k k' : Kernel) : Prop where
  current : k'.current = k.current
  fatal : k'.fatal = k.fatal
  view : k'.viewOf t = k.viewOf t
  still : Still k.vfs k'.vfs

namespace Errand

theorem refl (k : Kernel) : Errand t k k := ⟨rfl, rfl, rfl, .refl k.vfs⟩

theorem trans {k'' : Kernel} (h : Errand t k k') (h' : Errand t k' k'') : Errand t k k'' :=
  ⟨h'.current.trans h.current, h'.fatal.trans h.fatal, h'.view.trans h.view, h.still.trans h'.still⟩

theorem setTask (k : Kernel) {f : Task → Task} (hf : ∀ task, (f task).view = task.view) : Errand t k (k.setTask t f) := by
  refine ⟨rfl, rfl, ?_, .refl k.vfs⟩
  rw [Kernel.viewOf, Kernel.viewOf, field_setTask Task.view k t t hf]

theorem heap (k : Kernel) (heap : List (HeapCall ℕ)) : Errand t k { k with heap := heap } := ⟨rfl, rfl, rfl, .refl k.vfs⟩

/-- The counts of nodes change. -/
theorem vfs {v : Vfs} (h : Still k.vfs v) : Errand t k { k with vfs := v } := ⟨rfl, rfl, rfl, h⟩

theorem retainNode (k : Kernel) (o : Option NodeId) : Errand t k (retainNode k o) := .vfs (.retain k.vfs o)

theorem releaseNode {o : Option NodeId} (h : Still k.vfs (cbVfsNodeRelease k.vfs o)) : Errand t k (releaseNode k o) := .vfs h

theorem setDir (k : Kernel) (d : Fin cbMaxDirs) (handle : DirHandle) : Errand t k (k.setDir t d handle) :=
  .setTask k fun _ => rfl

theorem deliver (k : Kernel) (r : Reply) (out : Out) : Errand t k (deliver t (k, .done r out)) := by
  rw [CannedBsd.deliver]
  cases r.error with
  | none => exact .setTask k fun _ => rfl
  | some e =>
    have hset : Errand t k (k.setError t e) := .setTask k fun _ => rfl
    refine hset.trans (.setTask (k.setError t e) ?_)
    exact fun _ => rfl

end Errand

/-! ### The calls on directories -/

/-- The pointers of a handle in use are among those the counts know of. -/
theorem handle_le_holders {handle : DirHandle} (hhandle : handleOf t d k = some handle) (huse : handle.inUse = true)
    (n : NodeId) : pointsTo handle.node n + pointsTo handle.next n ≤ k.holders n := by
  obtain ⟨task, ht, rfl⟩ := Option.map_eq_some_iff.mp hhandle
  have hdir : dirHold n (task.directories d) ≤ ∑ e, dirHold n (task.directories e) :=
    Finset.single_le_sum (f := fun e => dirHold n (task.directories e)) (fun _ _ => Nat.zero_le _) (Finset.mem_univ d)
  have htask := Heap.le_total (taskHold n) ht
  rw [taskHold] at htask
  rw [dirHold, if_pos huse] at hdir
  rw [Kernel.holders]
  omega

theorem lookupDirectory_rooted_of_poised {path : Bytes} (hp : Poised k l) (hc : k.current = some t)
    (h : lookupDirectory k.vfs (k.viewOf t) path = .ok dir) : Rooted k.vfs dir := by
  obtain ⟨-, task, ht, -⟩ := hp.base.roster.current hc
  refine lookupDirectory_rooted ⟨hp.base.books.vfs, hp.base.books.root, ?_⟩ h
  rw [viewOf_eq ht]
  exact hp.base.books.roots ht

theorem type_of_lookupDirectory {v : Vfs} {view : View} {path : Bytes} (h : lookupDirectory v view path = .ok dir) :
    ∃ node, v.node dir = some node ∧ node.type = .directory := by
  rw [lookupDirectory] at h
  cases hn : cbVfsLookupNode v view path with
  | error e => simp [hn] at h
  | ok n =>
    simp only [hn] at h
    cases hnode : v.node n with
    | none => simp [ramfsStat, hnode] at h
    | some node =>
      simp only [ramfsStat, hnode] at h
      obtain ⟨htype, h⟩ := ok_of_guard h
      cases h
      exact ⟨node, hnode, not_not.mp htype⟩

/-- The first node of a list of children is a child. -/
theorem parentOf_of_first {v : Vfs} {c : NodeId} {node : Node} (hl : Links v) (hn : v.node dir = some node)
    (h : v.childrenOf dir = some c) : v.parentOf c = some dir := by
  rw [Vfs.childrenOf_of_node hn] at h
  obtain ⟨list, hchain, hmem⟩ := hl.children hn
  rw [h] at hchain
  cases hchain with
  | cons hrest => exact (hmem c).mp (List.mem_cons_self ..)

theorem Unread.still {v v' : Vfs} {first : Option NodeId} (h : Unread v dir first entries) (hs : Still v v') :
    Unread v' dir first entries :=
  h.keep fun _ _ => hs.field Node.place fun _ => rfl

/-- What a reader points to is in the tree, and so is the entry behind it. -/
theorem Unread.rooted_first {v : Vfs} {first : Option NodeId} {c : NodeId} (h : Unread v dir first entries) (ht : Tree v)
    (hroot : Rooted v dir) (hc : first = some c) : Rooted v c := by
  subst hc
  cases entries with
  | nil => cases h.chain.eq_none
  | cons e rest =>
    refine hroot.child ht ?_
    rw [Option.some.inj h.first_eq]
    exact h.parent e (List.mem_cons_self ..)

theorem Unread.rooted_next {v : Vfs} {first : Option NodeId} {c c' : NodeId} (h : Unread v dir first entries) (ht : Tree v)
    (hroot : Rooted v dir) (hc : first = some c) (hc' : v.nextOf c = some c') : Rooted v c' := by
  subst hc
  cases entries with
  | nil => cases h.chain.eq_none
  | cons e rest =>
    refine h.tail.rooted_first ht hroot ?_
    rw [← Option.some.inj h.first_eq]
    exact hc'

/-- How `opendir` can go: it opens the lowest unused handle on the directory, or it fails and everything
is as before, up to the counts it has raised and lowered again. -/
inductive OpendirRound (t : TaskId) (path : Bytes) (k : Kernel) : Kernel × Outcome → Prop
  | opened {k' : Kernel} {dir : NodeId} {d : Fin cbMaxDirs} (hlook : lookupDirectory k.vfs (k.viewOf t) path = .ok dir)
      (hfree : (k.task t).bind freeDir = some d) (herrand : Errand t k k')
      (hothers : ∀ e, e ≠ d → handleOf t e k' = handleOf t e k)
      (hreading : Reading k' t d dir (entriesOf k.vfs dir)) (hledger : ledgerOf k' t = ledgerOf k t) :
      OpendirRound t path k (k', .value d.val)
  | failed {k' : Kernel} {error : Errno} (herrand : Errand t k k') (hsame : ownOf t k' = ownOf t k)
      (hwhy : ∀ dir, lookupDirectory k.vfs (k.viewOf t) path = .ok dir → (k.task t).bind freeDir = none) :
      OpendirRound t path k (k', .fail error)

/-- `opendir` on a directory that is found. -/
theorem apiOpendir_eq {path : Bytes} (hlook : lookupDirectory k.vfs (k.viewOf t) path = .ok dir) :
    apiOpendir k t path =
      match (k.task t).bind freeDir with
      | some d => ((retainNode (retainNode k (some dir)) (k.vfs.childrenOf dir)).setDir t d
          ⟨some dir, k.vfs.childrenOf dir, true⟩, .value d.val)
      | none => (releaseNode (releaseNode (retainNode (retainNode k (some dir)) (k.vfs.childrenOf dir))
          (k.vfs.childrenOf dir)) (some dir), .fail .emfile) := by
  obtain ⟨node, hn, htype⟩ := type_of_lookupDirectory hlook
  have hfirst : ramfsChildAt (retainNode k (some dir)).vfs dir 0 = .ok (k.vfs.childrenOf dir) := by
    have hnode : (retainNode k (some dir)).vfs.node dir = some { node with references := node.references + 1 } := by
      rw [retainNode, cbVfsNodeRetain, ramfsNodeRetain, Vfs.node_setNode_self, hn]
      rfl
    have hok : ∃ first, ramfsChildAt (retainNode k (some dir)).vfs dir 0 = .ok first := by
      rw [ramfsChildAt, hnode]
      dsimp only
      rw [if_neg (not_not.mpr htype)]
      exact ⟨_, rfl⟩
    obtain ⟨first, hfirst⟩ := hok
    rw [hfirst, ramfsChildAt_zero hn hfirst, Vfs.childrenOf_of_node hn]
  rw [apiOpendir, hlook]
  dsimp only
  rw [hfirst]
  dsimp only
  cases hfree : (k.task t).bind freeDir with
  | some d =>
    rw [show ((retainNode (retainNode k (some dir)) (k.vfs.childrenOf dir)).task t).bind freeDir = some d from hfree]
  | none =>
    rw [show ((retainNode (retainNode k (some dir)) (k.vfs.childrenOf dir)).task t).bind freeDir = none from hfree]

theorem apiOpendir_round (hp : Poised k l) (hc : k.current = some t) (path : Bytes) :
    OpendirRound t path k (apiOpendir k t path) := by
  have hsound := hp.base.books.vfs
  cases hlook : lookupDirectory k.vfs (k.viewOf t) path with
  | error error =>
    rw [apiOpendir, hlook]
    refine .failed (.refl k) rfl fun dir h => ?_
    cases hlook.symm.trans h
  | ok dir =>
    have hroot := lookupDirectory_rooted_of_poised hp hc hlook
    obtain ⟨node, hn, -⟩ := id hroot
    have hfirst : ∀ c, k.vfs.childrenOf dir = some c → Rooted k.vfs c := fun c hchild =>
      hroot.child hsound.tree (parentOf_of_first hsound.tree.links hn hchild)
    have hretain := Still.retain k.vfs (some dir)
    have hsound₁ := hsound.retained fun n hn => (Option.some.inj hn) ▸ hroot
    have hretain' := Still.retain (cbVfsNodeRetain k.vfs (some dir)) (k.vfs.childrenOf dir)
    have hsound₂ := hsound₁.retained fun c hchild => hretain.rooted (hfirst c hchild)
    have heq := apiOpendir_eq hlook
    cases hfree : (k.task t).bind freeDir with
    | some d =>
      rw [hfree] at heq
      have hreading := @apiOpendir_reading k t l d path hp hc (by rw [heq])
      obtain ⟨dir', hlook', -, first, hhandle, hunread⟩ := hreading
      obtain rfl : dir = dir' := Except.ok.inj (hlook.symm.trans hlook')
      rw [heq] at hhandle ⊢
      have hstill := hretain.trans hretain'
      refine .opened hlook hfree ?_ (fun e he => ?_) ⟨first, hhandle, hunread.still hstill⟩ ?_
      · exact (Errand.vfs hstill).trans (.setDir _ d _)
      · exact handleOf_setDir_of_ne he (retainNode (retainNode k (some dir)) (k.vfs.childrenOf dir)) _
      · exact ledgerOf_setDir (retainNode (retainNode k (some dir)) (k.vfs.childrenOf dir)) t d _
    | none =>
      rw [hfree] at heq
      rw [heq]
      obtain ⟨hsound₃, hrelease⟩ := hsound₂.released fun c hchild => hretain'.rooted (hretain.rooted (hfirst c hchild))
      have hback := hretain.trans (hretain'.trans hrelease)
      obtain ⟨-, hrelease'⟩ := hsound₃.released fun n hn => hback.rooted ((Option.some.inj hn) ▸ hroot)
      exact .failed (.vfs (hback.trans hrelease')) rfl fun _ _ => hfree

/-- `readdir` reads the list and reaches no other handle. -/
theorem apiReaddir_round {descriptor : ℤ} (nameSize : ℕ) (hp : Poised k l) (hd : dirSlot descriptor = some d)
    (h : Reading k t d dir entries) (hroot : Rooted k.vfs dir) :
    Errand t k (apiReaddir k t descriptor nameSize).1 ∧
      (apiReaddir k t descriptor nameSize).2 = (readNext entries nameSize).1 ∧
      Reading (apiReaddir k t descriptor nameSize).1 t d dir (readNext entries nameSize).2 ∧
      ∀ e, e ≠ d → handleOf t e (apiReaddir k t descriptor nameSize).1 = handleOf t e k := by
  obtain ⟨hreply, first', hhandle', hunread'⟩ := apiReaddir_reading nameSize hd h
  have herrand : Errand t k (apiReaddir k t descriptor nameSize).1 := by
    obtain ⟨first, hhandle, hunread⟩ := h
    rw [apiReaddir, filter_dirSlot hd hhandle rfl]
    dsimp only
    split
    · exact .refl k
    rw [dir_of_handleOf hhandle]
    dsimp only
    split
    · exact .refl k
    rename_i child
    split
    · exact .refl k
    split
    · exact .refl k
    have hsound := hp.base.books.vfs
    have hchild := hunread.rooted_first hsound.tree hroot rfl
    have hretain := Still.retain k.vfs (k.vfs.nextOf child)
    have hsound₁ := hsound.retained fun c hc => hunread.rooted_next hsound.tree hroot rfl hc
    have hhold := handle_le_holders hhandle rfl child
    dsimp only at hhold
    rw [pointsTo_self] at hhold
    have hrelease : Still (cbVfsNodeRetain k.vfs (k.vfs.nextOf child))
        (cbVfsNodeRelease (cbVfsNodeRetain k.vfs (k.vfs.nextOf child)) (some child)) := by
      refine .release fun n hn => ?_
      cases hn
      refine hsound₁.shared (hretain.rooted hchild) ?_
      omega
    refine Errand.trans ?_ (Errand.releaseNode hrelease)
    exact (Errand.retainNode k _).trans (.setDir _ d _)
  refine ⟨herrand, hreply, ⟨first', hhandle', hunread'.still herrand.still⟩, fun e he => ?_⟩
  refine handleOf_apiReaddir nameSize ?_
  rw [hd]
  exact fun heq => he (Option.some.inj heq).symm

/-- `closedir` closes the handle and reaches no other one. -/
theorem apiClosedir_round {descriptor : ℤ} (hp : Poised k l) (hd : dirSlot descriptor = some d)
    (h : Reading k t d dir entries) (hroot : Rooted k.vfs dir) :
    Errand t k (apiClosedir k t descriptor).1 ∧ (apiClosedir k t descriptor).2 = .value 0 ∧
      handleOf t d (apiClosedir k t descriptor).1 = some ⟨none, none, false⟩ ∧
      ∀ e, e ≠ d → handleOf t e (apiClosedir k t descriptor).1 = handleOf t e k := by
  obtain ⟨first, hhandle, hunread⟩ := h
  have hdir := dir_of_handleOf hhandle
  have heq : apiClosedir k t descriptor =
      (releaseNode (releaseNode (k.setDir t d ⟨none, none, false⟩) first) (some dir), .value 0) := by
    rw [apiClosedir, filter_dirSlot hd hhandle rfl]
    dsimp only
    rw [hdir]
  rw [heq]
  have hsound := hp.base.books.vfs
  have hhold := handle_le_holders hhandle rfl
  dsimp only at hhold
  -- the counts without the pointer of the handle to its look-ahead entry
  have hsound₁ : Sound k.vfs fun n => (k.holders n + l n + 0 - pointsTo first n) + pointsTo first n := by
    refine hsound.congr fun n => ?_
    have hn := hhold n
    simp only [Flight.rest]
    omega
  obtain ⟨hsound₂, hrelease⟩ := hsound₁.released fun c hc => hunread.rooted_first hsound.tree hroot hc
  have hrelease' : Still (cbVfsNodeRelease k.vfs first) (cbVfsNodeRelease (cbVfsNodeRelease k.vfs first) (some dir)) := by
    refine .release fun n hn => ?_
    cases hn
    refine hsound₂.shared (hrelease.rooted hroot) ?_
    have hn := hhold dir
    rw [pointsTo_self] at hn
    omega
  refine ⟨?_, rfl, handleOf_setDir_self _ hhandle, fun e he => handleOf_setDir_of_ne he k _⟩
  refine Errand.trans ?_ (Errand.releaseNode hrelease')
  refine Errand.trans ?_ (Errand.releaseNode hrelease)
  exact .setDir k d _

/-! ### The calls on the heap -/

/-- The host refuses a block or the entry for it in the ledger. -/
def Host.starves (h : Host) : Bool := !h.allocate .block || !h.allocate .ledger

/-- How `allocate` can go. -/
inductive AllocateRound (h : Host) (t : TaskId) (k : Kernel) : Kernel × Outcome → Prop
  | granted {k' : Kernel} (hblock : h.allocate .block = true) (herrand : Errand t k k')
      (hhandles : ∀ d, handleOf t d k' = handleOf t d k) (hledger : ledgerOf k' t = h.block :: ledgerOf k t) :
      AllocateRound h t k (k', pointerReply h.block 0)
  | refused {k' : Kernel} (hwhy : h.starves = true) (herrand : Errand t k k') (hsame : ownOf t k' = ownOf t k) :
      AllocateRound h t k (k', pointerReply 0 Errno.enomem.code)

theorem apiAllocate_round {task : Task} (h : Host) (size : ℕ) (ht : k.task t = some task) :
    AllocateRound h t k (apiAllocate h k t size) := by
  rw [apiAllocate]
  split
  · rename_i hblock
    refine .refused ?_ (.refl k) rfl
    rw [Host.starves, hblock, Bool.true_or]
  rename_i hblock
  dsimp only
  split
  · rename_i hledger
    refine .refused ?_ (.heap k _) rfl
    rw [Host.starves, hledger, Bool.or_true]
  · refine .granted (by simpa using hblock) ?_ (fun d => ?_) ?_
    · refine (Errand.heap k (k.heap ++ [.took h.block])).trans (.setTask _ ?_)
      exact fun _ => rfl
    · apply handleOf_setTask
      exact fun _ => rfl
    · rw [ledgerOf_eq ht]
      exact ledgerOf_book_self ht _

/-- `release` of a block of the task. -/
theorem apiRelease_round {task : Task} {pointer : ℕ} (ht : k.task t = some task) (hmem : pointer ∈ ledgerOf k t)
    (hnull : pointer ≠ 0) :
    Errand t k (apiRelease k t pointer).1 ∧ (∃ r out, (apiRelease k t pointer).2 = .done r out) ∧
      (∀ d, handleOf t d (apiRelease k t pointer).1 = handleOf t d k) ∧
      ledgerOf (apiRelease k t pointer).1 t = (ledgerOf k t).erase pointer := by
  have hbooked : ¬ booked k t pointer = false := by simp [booked_iff.mpr hmem]
  refine ⟨?_, ?_, fun d => handleOf_apiRelease k pointer, ?_⟩
  · rw [apiRelease, if_neg hnull, if_neg hbooked]
    refine (Errand.heap k (k.heap ++ [.gave pointer])).trans (.setTask _ ?_)
    exact fun _ => rfl
  · rw [apiRelease, if_neg hnull, if_neg hbooked]
    exact ⟨_, _, rfl⟩
  · rw [apiRelease, if_neg hnull, if_neg hbooked, ledgerOf_eq ht, unbook]
    exact (ledgerOf_book_self ht _).trans (blocks_eraseP pointer task.allocations)

/-! ### A task at work -/

/-- The task is running, and the books are kept. -/
structure AtWork (t : TaskId) (k : Kernel) : Prop where
  poised : ∃ l, Poised k l
  books : HeapBooks k
  current : k.current = some t
  fatal : k.fatal = none

namespace AtWork

theorem task (h : AtWork t k) : ∃ task, k.task t = some task := by
  obtain ⟨l, hp⟩ := h.poised
  obtain ⟨-, task, ht, -⟩ := hp.base.roster.current h.current
  exact ⟨task, ht⟩

/-- A call that returns to the task. -/
theorem call {h : Host} {op : Op} (hw : AtWork t k) (hf : FreshBlock k (.call h op))
    (herrand : Errand t k (deliver t (perform h k t op))) : AtWork t (deliver t (perform h k t op)) := by
  obtain ⟨l, hp⟩ := hw.poised
  have hs : step k (.call h op) = some (deliver t (perform h k t op)) := by
    unfold step
    rw [if_neg (not_not.mpr hw.fatal)]
    simp only [hw.current]
  obtain ⟨l', -, hp', -⟩ := hp.step hs
  exact ⟨⟨l', hp'⟩, hw.books.step hp hf hs, herrand.current.trans hw.current, herrand.fatal.trans hw.fatal⟩

end AtWork

end CannedBsd
