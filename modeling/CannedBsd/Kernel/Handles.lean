import CannedBsd.Kernel.Hands

/-!
# Directory handles and whole tasks

`dir_close_all` gives back the directory of each handle and forgets the look-ahead entry, which is
then lost. The other functions of this module close all descriptors of a task, free it and build a
new one.

* `dirCloseAll_path`: what `dir_close_all` loses are the look-ahead entries of the open handles.
* `taskRelease_moves`: freeing a task whose descriptors and handles are closed.
-/

namespace CannedBsd

open CannedBsd.Lib

variable {gone : NodeId → Prop} {k k' : Kernel} {fl : Flight} {t : TaskId}

/-! ### Directory handles -/

theorem taskHold_setDir (task : Task) (d : Fin cbMaxDirs) (handle : DirHandle) (n : NodeId) :
    taskHold n { task with directories := Function.update task.directories d handle } +
        dirHold n (task.directories d) = taskHold n task + dirHold n handle := by
  have hsum := sum_update (dirHold n) task.directories d handle
  simp only [taskHold]
  omega

/-- A handle of a task changes, and the hands take or give the difference. -/
theorem setDir_path {task : Task} {d : Fin cbMaxDirs} {new : DirHandle} {a : NodeId → ℕ}
    (ht : k.task t = some task)
    (hbal : ∀ n, dirHold n new + a n = dirHold n (task.directories d) + fl.nodes n)
    (hfresh : FreshHandle k.vfs (task.directories d) → FreshHandle k.vfs new)
    (hgone : ∀ c, new.inUse = true → new.next = some c → ¬ gone c)
    (huse : new.inUse = true → (task.directories d).inUse = true ∨ task.state = .running) :
    Path gone k fl (k.setDir t d new) { fl with nodes := a } := by
  have hin : ∀ e, (Function.update task.directories d new e).inUse = true →
      (task.directories e).inUse = true ∨ task.state = .running := by
    intro e he
    by_cases hed : e = d
    · subst hed
      rw [Function.update_self] at he
      exact huse he
    · rw [Function.update_of_ne hed] at he
      exact .inl he
  refine ⟨.single (.hold ht ⟨?_, fun _ => rfl, rfl, rfl, rfl, rfl, rfl, rfl, rfl, rfl, rfl, .inl rfl, ?_, hin, .inl rfl,
      id, rfl⟩),
    .setTask k t ?_⟩
  · intro n
    have hsum := taskHold_setDir task d new n
    have hn := hbal n
    dsimp only
    omega
  · intro e
    by_cases he : e = d
    · subst he
      right
      dsimp only
      rw [Function.update_self]
      exact ⟨hfresh, hgone⟩
    · exact .inl (Function.update_of_ne he _ _)
  · intro x hx
    rw [ht, Option.some.injEq] at hx
    subst hx
    exact ⟨rfl, .inl rfl, .inl rfl, rfl, rfl, hin⟩

theorem dir_eq {task : Task} {d : Fin cbMaxDirs} (ht : k.task t = some task) :
    k.dir t d = task.directories d := by
  rw [Kernel.dir, ht]
  rfl

theorem dir_setDir {task : Task} (ht : k.task t = some task) (d e : Fin cbMaxDirs) (handle : DirHandle) :
    (k.setDir t d handle).dir t e = if e = d then handle else k.dir t e := by
  rw [Kernel.setDir, dir_eq (Kernel.task_setTask_self _ ht), dir_eq ht]
  exact Function.update_apply _ _ _ _

/-- A change of a task that leaves its handles alone. -/
theorem dir_setTask (k : Kernel) {f : Task → Task} (hf : ∀ task, (f task).directories = task.directories)
    (c : TaskId) (d : Fin cbMaxDirs) : (k.setTask t f).dir c d = k.dir c d := by
  rw [Kernel.dir, Kernel.dir, Kernel.task_setTask]
  split
  · rw [Option.map_map]
    congr 2
    funext task
    exact congrFun (hf task) d
  · rfl

theorem dir_destroyInstance (k : Kernel) (t c : TaskId) (d : Fin cbMaxDirs) :
    (destroyInstance k t).dir c d = k.dir c d := by
  apply dir_setTask
  intro task
  rfl

theorem dir_taskReleaseAllocations (k : Kernel) (t c : TaskId) (d : Fin cbMaxDirs) :
    (taskReleaseAllocations k t).dir c d = k.dir c d := by
  apply dir_setTask
  intro task
  rfl

theorem task_taskReleaseAllocations_of_ne (k : Kernel) {t c : TaskId} (hc : c ≠ t) :
    (taskReleaseAllocations k t).task c = k.task c := Kernel.task_setTask_of_ne _ _ hc

theorem dir_releaseNode (k : Kernel) (o : Option NodeId) (t : TaskId) (d : Fin cbMaxDirs) :
    (releaseNode k o).dir t d = k.dir t d := rfl

/-- One round of the loop of `dir_close_all`. -/
def closeDir (k : Kernel) (t : TaskId) (d : Fin cbMaxDirs) : Kernel :=
  if (k.dir t d).inUse then
    releaseNode (k.setDir t d { k.dir t d with node := none, inUse := false }) (k.dir t d).node
  else k

/-- The look-ahead entry that closing the handle loses. -/
def lookahead (k : Kernel) (t : TaskId) (d : Fin cbMaxDirs) : Option NodeId :=
  if (k.dir t d).inUse then (k.dir t d).next else none

theorem closeDir_path (hu : Unparked k t) (d : Fin cbMaxDirs) :
    Path gone k fl (closeDir k t d) (fl.addLeak (lookahead k t d)) := by
  obtain ⟨task, ht, -⟩ := hu
  rw [closeDir, lookahead]
  split
  · rename_i huse
    have hset : Path gone k fl (k.setDir t d { k.dir t d with node := none, inUse := false })
        ((fl.addNode (k.dir t d).node).addNode (k.dir t d).next) := by
      refine setDir_path ht ?_ (fun _ c h => by cases h) (fun c h => by cases h) (fun h => by cases h)
      intro n
      rw [← dir_eq ht, dirHold, dirHold, if_pos huse, if_neg Bool.false_ne_true, Flight.addNode_nodes]
      omega
    exact hset.trans ((leak_path _ _ _).trans (releaseNode_path _ (fl.addLeak (k.dir t d).next) _))
  · exact .refl k fl

theorem dir_closeDir (hu : Unparked k t) (d e : Fin cbMaxDirs) :
    (closeDir k t d).dir t e =
      if e = d ∧ (k.dir t d).inUse = true then { k.dir t d with node := none, inUse := false }
      else k.dir t e := by
  obtain ⟨task, ht, -⟩ := hu
  rw [closeDir]
  by_cases huse : (k.dir t d).inUse = true
  · rw [if_pos huse, dir_releaseNode, dir_setDir ht]
    simp only [huse, and_true]
  · rw [if_neg huse, if_neg fun h => huse h.2]

theorem dirCloseAll_eq (k : Kernel) (t : TaskId) :
    dirCloseAll k t = (List.finRange cbMaxDirs).foldl (fun k d => closeDir k t d) k := rfl

/-- No handle of the task that is in use has a look-ahead entry. -/
def Tidy (k : Kernel) (t : TaskId) : Prop :=
  ∀ d, (k.dir t d).inUse = true → (k.dir t d).next = none

/-- `dir_close_all` is a path that leaves no handle in use; what it loses are the look-ahead entries
of the handles that were. -/
theorem dirCloseAll_path (hu : Unparked k t) :
    ∃ l, Path gone k fl (dirCloseAll k t) { fl with leaked := l } ∧ (Tidy k t → l = fl.leaked) ∧
      ∀ d, ((dirCloseAll k t).dir t d).inUse = false := by
  -- the handles that are still in use are among those the loop has yet to visit
  have hloop : ∀ (todo : List (Fin cbMaxDirs)) (k : Kernel) (fl : Flight), Unparked k t →
      (∀ d, (k.dir t d).inUse = true → d ∈ todo) →
      ∃ l, Path gone k fl (todo.foldl (fun k d => closeDir k t d) k) { fl with leaked := l } ∧
        (Tidy k t → l = fl.leaked) ∧
        ∀ d, ((todo.foldl (fun k d => closeDir k t d) k).dir t d).inUse = false := by
    intro todo
    induction todo with
    | nil =>
      intro k fl _ hin
      refine ⟨fl.leaked, .refl k fl, fun _ => rfl, fun d => ?_⟩
      cases huse : (k.dir t d).inUse with
      | false => exact huse
      | true => exact absurd (hin d huse) List.not_mem_nil
    | cons d todo ih =>
      intro k fl hu hin
      have hone : Path gone k fl (closeDir k t d) (fl.addLeak (lookahead k t d)) := closeDir_path hu d
      obtain ⟨l, hpath, htidy, hclosed⟩ := ih (closeDir k t d) (fl.addLeak (lookahead k t d))
        (hu.steady hone.steady) (by
          intro e he
          rw [dir_closeDir hu] at he
          split at he
          · cases he
          · rename_i hne
            refine (List.mem_cons.mp (hin e he)).resolve_left ?_
            rintro rfl
            exact hne ⟨rfl, he⟩)
      refine ⟨l, hone.trans hpath, fun ht => ?_, hclosed⟩
      have hnone : lookahead k t d = none := by
        rw [lookahead]
        split
        · rename_i huse
          exact ht d huse
        · rfl
      rw [htidy, hnone, Flight.addLeak_none]
      intro e he
      rw [dir_closeDir hu] at he ⊢
      split at he
      · cases he
      · rename_i hne
        rw [if_neg hne]
        exact ht e he
  rw [dirCloseAll_eq]
  exact hloop _ k fl hu fun d _ => List.mem_finRange d

/-! ### Closing everything -/

theorem dir_setSlot (k : Kernel) (t : TaskId) (e : Fin cbMaxFds) (entry : Option FdEntry)
    (d : Fin cbMaxDirs) : (k.setSlot t e entry).dir t d = k.dir t d := by
  rw [Kernel.dir, Kernel.setSlot, Kernel.task_setTask, if_pos rfl, Kernel.dir, Option.map_map]
  rfl

theorem slot_setDir (k : Kernel) (t : TaskId) (e : Fin cbMaxDirs) (handle : DirHandle) (d : Fin cbMaxFds) :
    (k.setDir t e handle).slot t d = k.slot t d := by
  rw [Kernel.slot, Kernel.setDir, Kernel.task_setTask, if_pos rfl, Kernel.slot]
  cases k.task t <;> rfl

theorem dir_fdCloseWhere (p : FdEntry → Bool) (k : Kernel) (t : TaskId) (d : Fin cbMaxDirs) :
    (fdCloseWhere p k t).dir t d = k.dir t d := by
  refine foldl_keep (fun k => k.dir t d) _ ?_ _ k
  intro k e
  split
  · rw [fdCloseSlot]
    split
    · rfl
    · rw [(resting_cbOpenFileRelease _ _).dir, dir_setSlot]
  · rfl

theorem slot_dirCloseAll (k : Kernel) (t : TaskId) (d : Fin cbMaxFds) :
    (dirCloseAll k t).slot t d = k.slot t d := by
  rw [dirCloseAll_eq]
  refine foldl_keep (fun k => k.slot t d) _ ?_ _ k
  intro k e
  rw [closeDir]
  split
  · exact slot_setDir k t e _ d
  · rfl

/-- `fd_close_all` and `dir_close_all`. -/
theorem closeAll_path (hb : Base k fl) (hu : Unparked k t) :
    ∃ l, Path gone k fl (dirCloseAll (fdCloseAll k t) t) { fl with leaked := l } ∧
      (Tidy k t → l = fl.leaked) ∧ (∀ d, (dirCloseAll (fdCloseAll k t) t).slot t d = none) ∧
      ∀ d, ((dirCloseAll (fdCloseAll k t) t).dir t d).inUse = false := by
  have hfds : Path gone k fl (fdCloseAll k t) fl := fdCloseWhere_path _ hb hu
  obtain ⟨l, hdirs, htidy, hclosed⟩ : ∃ l, Path gone (fdCloseAll k t) fl _ _ ∧ _ :=
    dirCloseAll_path (hu.steady hfds.steady)
  refine ⟨l, hfds.trans hdirs, fun ht => htidy ?_, fun d => ?_, hclosed⟩
  · intro d
    rw [fdCloseAll, dir_fdCloseWhere]
    exact ht d
  · rw [slot_dirCloseAll, slot_fdCloseAll hu]

/-! ### The end of a task -/

theorem slotHold_of_none {task : Task} (h : ∀ d, task.descriptors d = none) (f : FileId) :
    slotHold f task = 0 := by
  rw [slotHold]
  exact Finset.sum_eq_zero fun d _ => by rw [h d]; rfl

theorem taskHold_of_closed {task : Task} (h : ∀ d, (task.directories d).inUse = false) (n : NodeId) :
    taskHold n task = pointsTo task.cwd n + pointsTo task.root n + pointsTo task.executableNode n +
      pointsTo task.pendingExecutableNode n := by
  have hzero : ∑ d, dirHold n (task.directories d) = 0 :=
    Finset.sum_eq_zero fun d _ => by rw [dirHold, h d, if_neg Bool.false_ne_true]
  rw [taskHold, hzero, Nat.add_zero]

/-- Freeing a task whose descriptors and handles are closed. -/
theorem taskRelease_moves (hl : fl.limbo = some t) (ho : t ∉ k.order) (hlive : ∃ task, k.task t = some task)
    (hslots : ∀ d, k.slot t d = none) (hdirs : ∀ d, (k.dir t d).inUse = false) :
    Moves gone k fl (taskRelease k t) { fl with limbo := none } := by
  obtain ⟨task, ht⟩ := hlive
  rw [taskRelease, ht]
  dsimp only
  set fl' : Flight := { fl with limbo := none }
  have hnodes : fl'.nodes = fl.nodes := rfl
  have hdestroy : Moves gone k fl { k with tasks := k.tasks.free t }
      ((((fl'.addNode task.root).addNode task.cwd).addNode task.pendingExecutableNode).addNode
        task.executableNode) := by
    refine .single (.destroy hl ho ht (fun n => ?_) (slotHold_of_none fun d => ?_))
    · rw [taskHold_of_closed fun d => by rw [← dir_eq ht, hdirs]]
      dsimp only [Flight.addNode]
      rw [hnodes]
      omega
    · rw [← slot_eq ht, hslots]
  exact hdestroy.trans ((releaseNode_path _ _ _).moves.trans ((releaseNode_path _ _ _).moves.trans
    ((releaseNode_path _ _ _).moves.trans (releaseNode_path _ fl' _).moves)))

end CannedBsd
