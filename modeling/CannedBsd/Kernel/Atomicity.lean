import CannedBsd.Kernel.Descriptors
import CannedBsd.Kernel.Opening
import CannedBsd.Kernel.Views

/-!
# Failed `spawn` and `exec`

`task_create` acquires nodes and open files for the child and gives them back in one place when an
action is refused or an allocation fails. All open files of an unfinished child are open in its parent
too, so that nothing the actions close is closed for the last time: no pipe end, no node and no other
task notices. What is left is the number of the child, and the errno of the caller.

* `shadowed_taskApplyActions`: the actions on an unfinished child reach nothing else.
* `restored_taskCreate`: a `task_create` that fails has given everything back.
* `failed_start_atomic`: a `spawn` or `exec` that fails leaves the kernel as it was, but for the next pid and
  the errno.
-/

namespace CannedBsd

open CannedBsd.Lib

variable {k k' k'' : Kernel} {fl : Flight} {t c : TaskId}

/-! ### Nodes -/

/-- A reference that is taken and given back leaves the file system as it was. -/
theorem release_retain {v : Vfs} {n : NodeId} {node : Node} (hn : v.node n = some node) (hpos : 0 < node.references) :
    cbVfsNodeRelease (cbVfsNodeRetain v (some n)) (some n) = v := by
  have hkept : (ramfsNodeRetain v n).node n = some { node with references := node.references + 1 } := by
    rw [ramfsNodeRetain, Vfs.node_setNode_self, hn]
    rfl
  show ramfsNodeRelease (ramfsNodeRetain v n) n = v
  rw [ramfsNodeRelease, nodeRelease, hkept]
  dsimp only
  rw [if_neg (by omega), ramfsNodeRetain, Vfs.setNode, Vfs.setNode, Heap.modify_modify, Heap.modify_eq_self hn rfl]

/-- A node that a task holds has a reference. -/
theorem held_references {n : NodeId} {task : Task} (hb : Base k fl) (ht : k.task t = some task) (hn : 0 < taskHold n task) :
    ∃ node, k.vfs.node n = some node ∧ 0 < node.references := by
  obtain ⟨node, hnode⟩ := hb.books.node_live ht hn
  have hcount := hb.books.vfs.refs.count hnode
  have htotal := Heap.le_total (taskHold n) ht
  rw [Kernel.holders] at hcount
  exact ⟨node, hnode, by omega⟩

/-! ### In the shadow of the parent -/

/-- An open file without its count. -/
def OpenFile.uncounted (file : OpenFile) : OpenFile := { file with references := 0 }

/-- The nodes a task holds besides its directory handles. -/
def Task.places (task : Task) : Option NodeId × Option NodeId × Option NodeId × Option NodeId :=
  (task.root, task.cwd, task.executableNode, task.pendingExecutableNode)

/-- Nothing has changed but one task, which stays where it is, and the counts of open files. -/
structure Shadowed (c : TaskId) (k k' : Kernel) : Prop where
  vfs : k'.vfs = k.vfs
  pipes : k'.pipes = k.pipes
  order : k'.order = k.order
  trace : k'.trace = k.trace
  history : k'.history = k.history
  nextPid : k'.nextPid = k.nextPid
  tasks : ∀ b, b ≠ c → k'.task b = k.task b
  places : (k'.task c).map Task.places = (k.task c).map Task.places
  files : ∀ f, (k'.files.get f).map OpenFile.uncounted = (k.files.get f).map OpenFile.uncounted

namespace Shadowed

theorem refl (k : Kernel) : Shadowed c k k := ⟨rfl, rfl, rfl, rfl, rfl, rfl, fun _ _ => rfl, rfl, fun _ => rfl⟩

theorem trans (h : Shadowed c k k') (h' : Shadowed c k' k'') : Shadowed c k k'' :=
  ⟨h'.vfs.trans h.vfs, h'.pipes.trans h.pipes, h'.order.trans h.order, h'.trace.trans h.trace,
    h'.history.trans h.history, h'.nextPid.trans h.nextPid, fun b hb => (h'.tasks b hb).trans (h.tasks b hb),
    h'.places.trans h.places, fun f => (h'.files f).trans (h.files f)⟩

theorem setTask (k : Kernel) (c : TaskId) {f : Task → Task} (hf : ∀ task, (f task).places = task.places) :
    Shadowed c k (k.setTask c f) :=
  ⟨rfl, rfl, rfl, rfl, rfl, rfl, fun _ hb => Kernel.task_setTask_of_ne _ _ hb, field_setTask Task.places k c c hf,
    fun _ => rfl⟩

theorem setSlot (k : Kernel) (c : TaskId) (d : Fin cbMaxFds) (entry : Option FdEntry) : Shadowed c k (k.setSlot c d entry) :=
  .setTask k c fun _ => rfl

theorem setFile (k : Kernel) (f : FileId) {g : OpenFile → OpenFile} (hg : ∀ file, (g file).uncounted = file.uncounted) :
    Shadowed c k (k.setFile f g) := by
  refine ⟨rfl, rfl, rfl, rfl, rfl, rfl, fun _ _ => rfl, rfl, fun f' => ?_⟩
  show ((k.files.modify f g).get f').map OpenFile.uncounted = _
  rw [Heap.get_modify]
  split
  · rw [Option.map_map]
    exact congrArg (fun h => (k.files.get f').map h) (funext hg)
  · rfl

theorem retain (k : Kernel) (f : FileId) : Shadowed c k (cbOpenFileRetain k f) := .setFile k f fun _ => rfl

theorem slot (h : Shadowed c k k') {b : TaskId} (hb : b ≠ c) (d : Fin cbMaxFds) : k'.slot b d = k.slot b d := by
  rw [Kernel.slot, Kernel.slot, h.tasks b hb]

end Shadowed

/-- Every open file of `c` is open in `t`. -/
def Covered (t c : TaskId) (k : Kernel) : Prop :=
  ∀ d entry, k.slot c d = some entry → ∃ e entry', k.slot t e = some entry' ∧ entry'.file = entry.file

/-- A slot counts at least once. -/
theorem slotHold_pos {task : Task} {d : Fin cbMaxFds} {entry : FdEntry} (hd : task.descriptors d = some entry) :
    1 ≤ slotHold entry.file task := by
  have hone : pointsTo ((task.descriptors d).map FdEntry.file) entry.file = 1 := by
    rw [hd, Option.map_some, pointsTo_self]
  rw [slotHold, ← hone]
  exact Finset.single_le_sum (f := fun d => pointsTo ((task.descriptors d).map FdEntry.file) entry.file)
    (fun _ _ => Nat.zero_le _) (Finset.mem_univ d)

/-- An open file with slots in two tasks has at least two references. -/
theorem references_shared {d e : Fin cbMaxFds} {entry entry' : FdEntry} {file : OpenFile} (hb : Base k fl)
    (htc : t ≠ c) (hd : k.slot c d = some entry) (he : k.slot t e = some entry') (hsame : entry'.file = entry.file)
    (hf : k.files.get entry.file = some file) : 2 ≤ file.references := by
  obtain ⟨child, hc, hd⟩ := Option.bind_eq_some_iff.mp hd
  obtain ⟨parent, ht, he⟩ := Option.bind_eq_some_iff.mp he
  have hchild : 1 ≤ slotHold entry.file child := slotHold_pos hd
  have hparent : 1 ≤ slotHold entry.file parent := by
    rw [← hsame]
    exact slotHold_pos he
  have hfree : (k.tasks.free c).get t = some parent := by
    rw [Heap.get_free, if_neg htc]
    exact ht
  have hrest := Heap.le_total (slotHold entry.file) hfree
  have htotal := Heap.total_free (slotHold entry.file) hc
  have hcount := (hb.books.files hf).1
  rw [Kernel.slots] at hcount
  omega

/-- What a shared open file loses is one reference. -/
theorem release_shared {f : FileId} {file : OpenFile} (hf : k.files.get f = some file) (hrefs : 2 ≤ file.references) :
    Shadowed c k (cbOpenFileRelease k f) := by
  rw [cbOpenFileRelease, hf]
  dsimp only
  rw [if_pos (by omega)]
  exact .setFile k f fun _ => rfl

/-- Closing a descriptor of the child reaches nothing else. -/
theorem shadowed_fdCloseSlot (hb : Base k fl) (htc : t ≠ c) (hcov : Covered t c k) (d : Fin cbMaxFds) :
    Shadowed c k (fdCloseSlot k c d) := by
  rw [fdCloseSlot]
  cases hs : k.slot c d with
  | none => exact .refl k
  | some entry =>
    obtain ⟨child, hchild, hd⟩ := Option.bind_eq_some_iff.mp hs
    obtain ⟨file, hf⟩ := hb.books.slot_live hchild hd
    obtain ⟨e, entry', he, hsame⟩ := hcov d entry hs
    have hrefs := references_shared hb htc hs he hsame hf
    exact (Shadowed.setSlot k c d none).trans (release_shared (k := k.setSlot c d none) hf hrefs)

/-- So does installing one of its own files in another of its slots. -/
theorem shadowed_fdInstallAt (hb : Base k fl) (htc : t ≠ c) (hcov : Covered t c k) (f : FileId) (d : Fin cbMaxFds) :
    Shadowed c k (fdInstallAt k c f d true) := by
  have hclose := shadowed_fdCloseSlot hb htc hcov d
  rw [fdInstallAt_eq]
  exact (hclose.trans (.retain _ f)).trans (.setSlot _ c d _)

/-- A slot that is emptied, or gets a file the child has, keeps the child covered. -/
theorem Covered.update {T : Table} (hcov : Covered t c k) (hslots : k'.slot c = T) (ht : ∀ d, k'.slot t d = k.slot t d)
    (hT : ∀ d entry, T d = some entry → ∃ d₀ entry₀, k.slot c d₀ = some entry₀ ∧ entry₀.file = entry.file) :
    Covered t c k' := by
  intro d entry hd
  rw [hslots] at hd
  obtain ⟨d₀, entry₀, hd₀, hfile⟩ := hT d entry hd
  obtain ⟨e, entry', he, hsame⟩ := hcov d₀ entry₀ hd₀
  exact ⟨e, entry', (ht e).trans he, hsame.trans hfile⟩

theorem Covered.fdCloseSlot (hb : Base k fl) (htc : t ≠ c) (hu : Unparked k c) (hcov : Covered t c k) (d : Fin cbMaxFds) :
    Covered t c (fdCloseSlot k c d) := by
  have hshadow := shadowed_fdCloseSlot hb htc hcov d
  refine hcov.update (T := fun e => if e = d then none else k.slot c e) (funext fun e => slot_fdCloseSlot hu e)
    (fun e => hshadow.slot htc e) fun e entry he => ?_
  split at he
  · cases he
  · exact ⟨e, entry, he, rfl⟩

/-- `fd_close_all` on the child. -/
theorem shadowed_fdCloseAll (hb : Base k fl) (htc : t ≠ c) (hu : Unparked k c) (hcov : Covered t c k) :
    Shadowed c k (fdCloseAll k c) := by
  rw [fdCloseAll, fdCloseWhere]
  generalize List.finRange cbMaxFds = todo
  induction todo generalizing k with
  | nil => exact .refl k
  | cons d todo ih =>
    rw [List.foldl_cons]
    split
    · have hpath : Path noNode k fl (CannedBsd.fdCloseSlot k c d) fl := fdCloseSlot_path hb hu
      exact (shadowed_fdCloseSlot hb htc hcov d).trans
        (ih (hpath.base hb) (hu.steady hpath.steady) (hcov.fdCloseSlot hb htc hu d))
    · exact ih hb hu hcov

theorem Covered.fdInstallAt (hb : Base k fl) (htc : t ≠ c) (hu : Unparked k c) (hcov : Covered t c k) {d₀ : Fin cbMaxFds}
    {entry₀ : FdEntry} (hd₀ : k.slot c d₀ = some entry₀) (d : Fin cbMaxFds) :
    Covered t c (fdInstallAt k c entry₀.file d true) := by
  have hshadow := shadowed_fdInstallAt hb htc hcov entry₀.file d
  refine hcov.update (slot_fdInstallAt_table hu entry₀.file d) (fun e => hshadow.slot htc e) fun e entry he => ?_
  rw [Function.update_apply] at he
  split at he
  · cases he
    exact ⟨d₀, entry₀, hd₀, rfl⟩
  · exact ⟨e, entry, he, rfl⟩

/-- `task_apply_actions` on a child whose files are all open in its parent. -/
theorem shadowed_taskApplyActions (actions : List SpawnAction) (hb : Base k fl) (htc : t ≠ c) (hu : Unparked k c)
    (hcov : Covered t c k) :
    Shadowed c k (taskApplyActions c k actions).1 ∧ Covered t c (taskApplyActions c k actions).1 := by
  induction actions generalizing k with
  | nil => exact ⟨.refl k, hcov⟩
  | cons action actions ih =>
    have hgo : ∀ {k'}, Shadowed c k k' → Covered t c k' → Path noNode k fl k' fl →
        Shadowed c k (taskApplyActions c k' actions).1 ∧ Covered t c (taskApplyActions c k' actions).1 := by
      intro k' hshadow hcov' hpath
      obtain ⟨hrest, hlast⟩ := ih (hpath.base hb) (hu.steady hpath.steady) hcov'
      exact ⟨hshadow.trans hrest, hlast⟩
    have hstop : ∀ e, Shadowed c k (k.setError c e) ∧ Covered t c (k.setError c e) := by
      intro e
      have hshadow : Shadowed c k (k.setError c e) := .setTask k c fun _ => rfl
      exact ⟨hshadow, hcov.update (slot_setError k c e) (fun d => hshadow.slot htc d) fun d entry hd => ⟨d, entry, hd, rfl⟩⟩
    rw [taskApplyActions]
    split
    · exact hstop _
    split
    · split
      · rename_i f file d hfile hd
        obtain ⟨d₀, entry, hd₀, hslot, hf, -⟩ := slot_of_fileOf hfile
        subst hf
        split
        · -- the slot keeps its file and loses its mark
          rename_i heq
          rw [heq, hd, Option.some.injEq] at hd₀
          subst hd₀
          obtain ⟨task, ht, -⟩ := id hu
          have hpath : Path noNode k fl (k.setSlot c d (some ⟨entry.file, false⟩)) fl :=
            setSlot_same ht hu ((slot_eq ht).symm.trans hslot) rfl
          refine hgo (.setSlot k c d _) (hcov.update (slot_setSlot_table hu d _) (fun e => ?_) fun e entry' he => ?_) hpath
          · exact (Shadowed.setSlot k c d _).slot htc e
          · rw [Function.update_apply] at he
            split at he
            · cases he
              exact ⟨d, entry, hslot, rfl⟩
            · exact ⟨e, entry', he, rfl⟩
        · rename_i hne
          exact hgo (shadowed_fdInstallAt hb htc hcov entry.file d) (hcov.fdInstallAt hb htc hu hslot d)
            (fdInstallAt_path hb hu hslot rfl (fdSlot_ne hd₀ hd hne))
      · exact hstop _
    · split
      · exact hgo (.refl k) hcov (.refl k fl)
      · exact hgo (shadowed_fdCloseSlot hb htc hcov _) (hcov.fdCloseSlot hb htc hu _) (fdCloseSlot_path hb hu)
    · exact hstop _

/-- The child gets the descriptors of its parent. -/
theorem shadowed_inheritDescriptors (k : Kernel) (c : TaskId) (parent : Task) :
    Shadowed c k (inheritDescriptors k c parent) := by
  rw [inheritDescriptors]
  generalize List.finRange cbMaxFds = todo
  induction todo generalizing k with
  | nil => exact .refl k
  | cons d todo ih =>
    rw [List.foldl_cons]
    cases hd : parent.descriptors d with
    | none => exact ih k
    | some entry => exact ((Shadowed.retain k entry.file).trans (.setSlot _ c d _)).trans (ih _)

/-! ### The unfinished child is taken apart -/

/-- What a failed call leaves as it was; only a pid may have been used. -/
structure Unspoiled (k k' : Kernel) : Prop where
  order : k'.order = k.order
  tasks : ∀ b, k'.task b = k.task b
  files : ∀ f, k'.files.get f = k.files.get f
  pipes : k'.pipes = k.pipes
  vfs : k'.vfs = k.vfs
  trace : k'.trace = k.trace
  history : k'.history = k.history
  nextPid : k'.nextPid = k.nextPid ∨ k'.nextPid = k.nextPid + 1

/-- The same, but for the counts of open files. -/
structure Restored (k k' : Kernel) : Prop where
  order : k'.order = k.order
  tasks : ∀ b, k'.task b = k.task b
  files : ∀ f, (k'.files.get f).map OpenFile.uncounted = (k.files.get f).map OpenFile.uncounted
  pipes : k'.pipes = k.pipes
  vfs : k'.vfs = k.vfs
  trace : k'.trace = k.trace
  history : k'.history = k.history
  nextPid : k'.nextPid = k.nextPid ∨ k'.nextPid = k.nextPid + 1

/-- Where the slots are the same and the counts agree with them, the counts are the same. -/
theorem Restored.unspoiled {fl' : Flight} (h : Restored k k') (hb : Base k fl) (hb' : Base k' fl')
    (hfl : fl'.files = fl.files) : Unspoiled k k' := by
  have hslots : ∀ f, k'.slots f = k.slots f := fun f => Heap.total_ext (slotHold f) h.tasks
  refine ⟨h.order, h.tasks, fun f => ?_, h.pipes, h.vfs, h.trace, h.history, h.nextPid⟩
  have hsame := h.files f
  cases hf : k.files.get f with
  | none =>
    rw [hf, Option.map_none, Option.map_eq_none_iff] at hsame
    exact hsame
  | some file =>
    rw [hf, Option.map_some, Option.map_eq_some_iff] at hsame
    obtain ⟨file', hf', heq⟩ := hsame
    have hcount := (hb.books.files hf).1
    have hcount' := (hb'.books.files hf').1
    rw [hslots, hfl, ← hcount] at hcount'
    have hfile : file' = { file'.uncounted with references := file'.references } := rfl
    rw [hf', hfile, heq, hcount']
    rfl

theorem retained_live {v : Vfs} {n : NodeId} {node : Node} (o : Option NodeId) (hn : v.node n = some node)
    (hpos : 0 < node.references) : ∃ node', (cbVfsNodeRetain v o).node n = some node' ∧ 0 < node'.references := by
  cases o with
  | none => exact ⟨node, hn, hpos⟩
  | some m =>
    show ∃ node', (ramfsNodeRetain v m).node n = some node' ∧ 0 < node'.references
    rw [ramfsNodeRetain]
    by_cases hnm : n = m
    · subst hnm
      rw [Vfs.node_setNode_self, hn]
      exact ⟨_, rfl, Nat.succ_pos _⟩
    · rw [Vfs.node_setNode_of_ne _ _ hnm]
      exact ⟨node, hn, hpos⟩

/-- A task that has not started gives back its root and its working directory when it is freed. -/
theorem taskRelease_infant {child : Task} (hc : k.task c = some child)
    (hplaces : child.places = (child.root, child.cwd, none, none)) :
    taskRelease k c = { k with
      tasks := k.tasks.free c, vfs := cbVfsNodeRelease (cbVfsNodeRelease k.vfs child.cwd) child.root } := by
  have hexec : child.executableNode = none := congrArg (fun p => p.2.2.1) hplaces
  have hpend : child.pendingExecutableNode = none := congrArg (fun p => p.2.2.2) hplaces
  rw [taskRelease, hc]
  dsimp only
  rw [hexec, hpend]
  rfl

/-- A child that was built in the shadow of its parent leaves nothing behind. -/
theorem restored_dismantle {task : Task} {program : Option ProgramId} {argv environment : List Bytes} (hb : Base k fl)
    (ht : k.task t = some task)
    (hshadow : Shadowed k.tasks.next (withTask k (some task) program argv environment) k') :
    Restored k (taskRelease k' k.tasks.next) := by
  obtain ⟨rootNode, hroot, hrootPos⟩ : ∃ node, k.vfs.node k.vfs.vfsRoot = some node ∧ 0 < node.references := by
    refine held_references hb ht ?_
    rw [taskHold, hb.books.roots ht, pointsTo_self]
    omega
  have hself := (@task_withTask k (some task) program argv environment k.tasks.next).trans (if_pos rfl)
  have hplaces := hshadow.places
  rw [hself, Option.map_some, Option.map_eq_some_iff] at hplaces
  obtain ⟨child, hchild, hplaces⟩ := hplaces
  have hstart : startRoot k (some task) = some k.vfs.vfsRoot := hb.books.roots ht
  have hchildRoot : child.root = some k.vfs.vfsRoot := (congrArg Prod.fst hplaces).trans hstart
  have hchildCwd : child.cwd = task.cwd := congrArg (fun p => p.2.1) hplaces
  have hbare : child.places = (child.root, child.cwd, none, none) := by
    rw [hplaces, hchildRoot, hchildCwd, ← hstart]
    rfl
  have hvfs : k'.vfs = cbVfsNodeRetain (cbVfsNodeRetain k.vfs (some k.vfs.vfsRoot)) task.cwd := by
    rw [hshadow.vfs, ← hstart]
    rfl
  -- the references come back in the opposite order
  have hback : cbVfsNodeRelease (cbVfsNodeRelease k'.vfs child.cwd) child.root = k.vfs := by
    rw [hvfs, hchildCwd, hchildRoot]
    cases hcwd : task.cwd with
    | none => exact release_retain hroot hrootPos
    | some n =>
      obtain ⟨node, hn, hpos⟩ : ∃ node, k.vfs.node n = some node ∧ 0 < node.references := by
        refine held_references hb ht ?_
        rw [taskHold, hcwd, pointsTo_self]
        omega
      obtain ⟨node', hn', hpos'⟩ := retained_live (some k.vfs.vfsRoot) hn hpos
      rw [release_retain hn' hpos']
      exact release_retain hroot hrootPos
  rw [taskRelease_infant hchild hbare]
  refine ⟨hshadow.order, fun b => ?_, hshadow.files, hshadow.pipes, hback, hshadow.trace, hshadow.history,
    .inr hshadow.nextPid⟩
  show (k'.tasks.free k.tasks.next).get b = k.task b
  rw [Heap.get_free]
  split
  · rename_i heq
    rw [heq]
    exact (Heap.get_next k.tasks).symm
  · rename_i hne
    have hother := hshadow.tasks b hne
    rw [task_withTask, if_neg hne] at hother
    exact hother

/-- `task_create` for a running task, where it fails. -/
theorem restored_taskCreate {task : Task} {program : Option ProgramId} {argv : List Bytes} {envp : Option (List Bytes)}
    {actions : List SpawnAction} (h : Host) (hb : Base k fl) (hl : fl.limbo = none) (ht : k.task t = some task)
    (hfail : taskCreate h k (some t) program argv envp actions = (k', none)) : Restored k k' := by
  rcases taskCreate_stages h k (some t) program argv envp actions with heq | heq | ⟨environment, heq⟩
  · rw [heq] at hfail
    cases hfail
    exact ⟨rfl, fun _ => rfl, fun _ => rfl, rfl, rfl, rfl, rfl, .inl rfl⟩
  · rw [heq] at hfail
    cases hfail
    exact ⟨rfl, fun _ => rfl, fun _ => rfl, rfl, rfl, rfl, rfl, .inr rfl⟩
  rw [heq, Option.bind_some, ht] at hfail
  have htc : t ≠ k.tasks.next := Nat.ne_of_lt (Heap.lt_next_of_get ht)
  have hp : ∀ task', some task = some task' → ∃ p, k.task p = some task' := by
    intro task' hsame
    rw [← hsame]
    exact ⟨t, ht⟩
  obtain ⟨hbuild, -, hnew, -⟩ : Moves noNode k fl (buildTask k (some task) program argv environment) _ ∧ _ :=
    buildTask_moves program argv environment hb hl hp
  have hb₁ := hb.moves hbuild
  have hinherit : Shadowed k.tasks.next (withTask k (some task) program argv environment)
      (buildTask k (some task) program argv environment) := shadowed_inheritDescriptors _ _ task
  have hcov : Covered t k.tasks.next (buildTask k (some task) program argv environment) := by
    intro d entry hd
    rw [slot_buildTask ht] at hd
    refine ⟨d, entry, ?_, rfl⟩
    rw [hinherit.slot htc, Kernel.slot, task_withTask, if_neg htc]
    exact hd
  obtain ⟨hact, hcov₂⟩ := shadowed_taskApplyActions actions hb₁ htc hnew.unparked hcov
  have hpath : Path noNode _ _ _ _ := taskApplyActions_path actions hb₁ hnew.unparked
  have hclose := shadowed_fdCloseAll (hpath.base hb₁) htc (hnew.unparked.steady hpath.steady) hcov₂
  have hall := (hinherit.trans hact).trans hclose
  generalize taskApplyActions k.tasks.next (buildTask k (some task) program argv environment) actions = acted at *
  obtain ⟨k₁, accepted⟩ := acted
  have hgone := restored_dismantle hb ht hall
  cases accepted with
  | false =>
    rw [settleTask] at hfail
    rw [← (Prod.mk.inj hfail).1]
    exact hgone
  | true =>
    rw [settleTask] at hfail
    split at hfail
    · rw [← (Prod.mk.inj hfail).1]
      exact hgone
    · cases (Prod.mk.inj hfail).2

/-! ### The calls -/

/-- The node that `spawn` and `exec` retain while they try. -/
theorem released_target {l : NodeId → ℕ} {n : NodeId} {programName : Bytes} (hb : Base k (.rest l)) (hc : k.current = some t)
    (hres : resolveExecutableNode k.vfs (k.viewOf t) programName = .ok n) :
    cbVfsNodeRelease (cbVfsNodeRetain k.vfs (some n)) (some n) = k.vfs := by
  have hroot := executableNode_rooted (hb.resolves (.of_current hb hc)) hres
  obtain ⟨node, hn, -⟩ := id hroot
  exact release_retain hn (hroot.references_pos hb.books.vfs hn)

theorem restored_apiSpawn {l : NodeId → ℕ} {programName : Bytes} {argv : List Bytes} {envp : Option (List Bytes)}
    {actions : List SpawnAction} {e : Errno} (h : Host) (hb : Base k (.rest l)) (hc : k.current = some t)
    (hfail : (apiSpawn h k t programName argv envp actions).2 = .fail e) :
    Restored k (apiSpawn h k t programName argv envp actions).1 := by
  have hsame : Restored k k := ⟨rfl, fun _ => rfl, fun _ => rfl, rfl, rfl, rfl, rfl, .inl rfl⟩
  obtain ⟨-, task, ht, -⟩ := hb.roster.current hc
  rw [apiSpawn] at hfail ⊢
  split at hfail
  · rename_i hargv
    rw [if_pos hargv]
    exact hsame
  rename_i hargv
  rw [if_neg hargv]
  split at hfail
  · rename_i hmany
    rw [if_pos hmany]
    exact hsame
  rename_i hmany
  rw [if_neg hmany]
  cases hres : resolveExecutableNode k.vfs (k.viewOf t) programName with
  | error e => exact hsame
  | ok n =>
    simp only [hres] at hfail ⊢
    obtain ⟨node, hn, -⟩ := executableNode_rooted (hb.resolves (.of_current hb hc)) hres
    have hretain : Path noNode k (.rest l) (retainNode k (some n)) ((Flight.rest l).addNode (some n)) := retainNode_path hn
    cases hcreate : taskCreate h (retainNode k (some n)) (some t) (executableOf k n) argv envp actions with
    | mk k₁ made =>
      rw [hcreate] at hfail
      cases made with
      | none =>
        have hmade := restored_taskCreate (k := retainNode k (some n)) h (hretain.base hb) rfl ht hcreate
        refine ⟨hmade.order, hmade.tasks, hmade.files, hmade.pipes, ?_, hmade.trace, hmade.history, hmade.nextPid⟩
        show cbVfsNodeRelease k₁.vfs (some n) = k.vfs
        rw [hmade.vfs]
        exact released_target hb hc hres
      | some child => cases hfail

/-- **Failed starts.**  When `api_spawn` fails, the task list, every task, the tree with all counts of nodes,
every open file with its count and every pipe are as they were, and no open file was closed on the way; at
most a pid has been used. When `api_exec` fails, the kernel is as it was. -/
theorem failed_start_atomic (hr : Reachable k) (hc : k.current = some t) (h : Host) (programName : Bytes)
    (argv : List Bytes) (envp : Option (List Bytes)) (actions : List SpawnAction) (e : Errno) :
    ((apiSpawn h k t programName argv envp actions).2 = .fail e →
      Unspoiled k (apiSpawn h k t programName argv envp actions).1) ∧
    ((apiExec h k t programName argv envp).2 = .fail e → (apiExec h k t programName argv envp).1 = k) := by
  obtain ⟨l, hb⟩ := hr.base
  refine ⟨fun hfail => ?_, fun hfail => ?_⟩
  · have hrestored := restored_apiSpawn h hb hc hfail
    have hends : Ends noNode k (.rest l) t (.rest l) (apiSpawn h k t programName argv envp actions) :=
      apiSpawn_ends h programName argv envp actions hb rfl hc
    generalize apiSpawn h k t programName argv envp actions = r at hfail hrestored hends
    obtain ⟨k', o⟩ := r
    cases hfail
    exact hrestored.unspoiled hb (hb.moves hends.1) rfl
  · rw [apiExec] at hfail ⊢
    cases htarget : execTarget k t programName argv with
    | error e' => rfl
    | ok n =>
      obtain ⟨task, -, hres⟩ := execTarget_ok htarget
      simp only [htarget] at hfail ⊢
      cases href : execRefusal h (retainNode k (some n)) t n with
      | some e' =>
        show { k with vfs := cbVfsNodeRelease (cbVfsNodeRetain k.vfs (some n)) (some n) } = k
        rw [released_target hb hc hres]
      | none =>
        rw [href] at hfail
        cases hfail

/-- The second action is refused after the first has closed a descriptor of the child. -/
theorem failed_start_atomic_badAction :
    (∃ e, (apiSpawn .calm (stateAfter shellStart) 0 shName [shName] none
      [⟨true, .close, 1, 0⟩, ⟨true, .dup2, 1, 5⟩]).2 = .fail e) ∧
    Unspoiled (stateAfter shellStart) (apiSpawn .calm (stateAfter shellStart) 0 shName [shName] none
      [⟨true, .close, 1, 0⟩, ⟨true, .dup2, 1, 5⟩]).1 := by
  have hc : (stateAfter shellStart).current = some 0 := by decide +kernel
  have hfail : (apiSpawn .calm (stateAfter shellStart) 0 shName [shName] none
      [⟨true, .close, 1, 0⟩, ⟨true, .dup2, 1, 5⟩]).2 = .fail .enomem := by decide +kernel
  exact ⟨⟨_, hfail⟩, (failed_start_atomic (reachable_stateAfter _) hc .calm shName [shName] none _ .enomem).1 hfail⟩

end CannedBsd
