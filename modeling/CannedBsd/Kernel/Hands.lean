import CannedBsd.Kernel.Base

/-!
# Handling references

The functions of `src/core.c` that take and give back references, as paths of elementary steps:
nodes, open files, descriptor slots and directory handles. A call passes what it holds from hand
to hand, so each lemma says what is in flight before and after.

* `releaseNode_path`, `cbOpenFileRelease_path`, `fdCloseSlot_path`, `fdInstallAt_path`, `fdInstall_path`: each
  function is a path, with what it takes from the hands and what it puts into them.
-/

namespace CannedBsd

open CannedBsd.Lib

/-! ### More in flight -/

namespace Flight

/-- One more node reference. -/
def addNode (fl : Flight) (o : Option NodeId) : Flight :=
  { fl with nodes := fun c => fl.nodes c + pointsTo o c }

/-- One more reference to an open file. -/
def addFile (fl : Flight) (o : Option FileId) : Flight :=
  { fl with files := fun x => fl.files x + pointsTo o x }

/-- One more lost reference. -/
def addLeak (fl : Flight) (o : Option NodeId) : Flight :=
  { fl with leaked := fun c => fl.leaked c + pointsTo o c }

variable (fl : Flight)

theorem addNode_nodes (o : Option NodeId) (c : NodeId) :
    (fl.addNode o).nodes c = fl.nodes c + pointsTo o c := rfl

theorem addFile_files (o : Option FileId) (x : FileId) :
    (fl.addFile o).files x = fl.files x + pointsTo o x := rfl

@[simp] theorem addLeak_none : fl.addLeak none = fl := rfl

theorem addFile_comm (o o' : Option FileId) : (fl.addFile o).addFile o' = (fl.addFile o').addFile o := by
  simp only [addFile, Nat.add_right_comm]

end Flight

/-! ### Paths that schedule nothing -/

/-- A task that at most wakes up; its pointers may change. -/
structure Stands (task task' : Task) : Prop where
  pid : task'.pid = task.pid
  state : task'.state = task.state ∨ blocked task.state = true ∧ task'.state = .runnable
  frame : task'.frame = task.frame ∨ task.state = .running ∧ task'.frame = .program
  badge : task'.badge = task.badge
  ppid : task'.ppid = task.ppid
  inUse : ∀ d, (task'.directories d).inUse = true →
    (task.directories d).inUse = true ∨ task.state = .running

theorem Stands.refl (task : Task) : Stands task task := ⟨rfl, .inl rfl, .inl rfl, rfl, rfl, fun _ => .inl⟩

theorem Stands.trans {task task' task'' : Task} (h : Stands task task') (h' : Stands task' task'') :
    Stands task task'' := by
  refine ⟨h'.pid.trans h.pid, ?_, ?_, h'.badge.trans h.badge, h'.ppid.trans h.ppid, ?_⟩
  · rcases h'.state with hs' | ⟨hb', hs'⟩
    · rw [hs']
      exact h.state
    · rcases h.state with hs | ⟨hb, -⟩
      · rw [hs] at hb'
        exact .inr ⟨hb', hs'⟩
      · exact .inr ⟨hb, hs'⟩
  · rcases h'.frame with hf' | ⟨hr', hf'⟩
    · rw [hf']
      exact h.frame
    · rcases h.state with hs | ⟨-, hs⟩
      · rw [hs] at hr'
        exact .inr ⟨hr', hf'⟩
      · rw [hs] at hr'
        cases hr'
  · intro d hd
    rcases h'.inUse d hd with hd' | hr'
    · exact h.inUse d hd'
    · rcases h.state with hs | ⟨-, hs⟩
      · rw [hs] at hr'
        exact .inr hr'
      · rw [hs] at hr'
        cases hr'

/-- The scheduler's view of the kernel stays, but for tasks that wake up. -/
structure Steady (k k' : Kernel) : Prop where
  order : k'.order = k.order
  current : k'.current = k.current
  finishing : k'.finishing = k.finishing
  next : k'.tasks.next = k.tasks.next
  tasks : ∀ {t task}, k.task t = some task → ∃ task', k'.task t = some task' ∧ Stands task task'

/-- The tasks there are stay, but for some that wake up; others may come. -/
structure Bystanders (k k' : Kernel) : Prop where
  current : k'.current = k.current
  finishing : k'.finishing = k.finishing
  tasks : ∀ {t task}, k.task t = some task → ∃ task', k'.task t = some task' ∧ Stands task task'

theorem Steady.bystanders {k k' : Kernel} (h : Steady k k') : Bystanders k k' := ⟨h.current, h.finishing, h.tasks⟩

theorem Bystanders.refl (k : Kernel) : Bystanders k k := ⟨rfl, rfl, fun ht => ⟨_, ht, .refl _⟩⟩

theorem Bystanders.trans {k k' k'' : Kernel} (h : Bystanders k k') (h' : Bystanders k' k'') : Bystanders k k'' := by
  refine ⟨h'.current.trans h.current, h'.finishing.trans h.finishing, fun ht => ?_⟩
  obtain ⟨task', ht', hs⟩ := h.tasks ht
  obtain ⟨task'', ht'', hs'⟩ := h'.tasks ht'
  exact ⟨task'', ht'', hs.trans hs'⟩

namespace Steady

variable {k k' k'' : Kernel}

theorem trans (h : Steady k k') (h' : Steady k' k'') : Steady k k'' := by
  refine ⟨h'.order.trans h.order, h'.current.trans h.current, h'.finishing.trans h.finishing,
    h'.next.trans h.next, ?_⟩
  intro t task ht
  obtain ⟨task', ht', hs⟩ := h.tasks ht
  obtain ⟨task'', ht'', hs'⟩ := h'.tasks ht'
  exact ⟨task'', ht'', hs.trans hs'⟩

theorem of_resting (h : Resting k k') : Steady k k' := by
  refine ⟨h.order, h.current, h.finishing, h.next, ?_⟩
  intro t task ht
  obtain ⟨task', ht'⟩ := h.live ht
  obtain ⟨x, hx, hrest⟩ := h.tasks ht'
  rw [ht, Option.some.injEq] at hx
  subst hx
  refine ⟨task', ht', hrest.pid, hrest.state, hrest.frame, hrest.badge, hrest.ppid, ?_⟩
  intro d hd
  have hdirs : task'.directories = task.directories := congrArg Holdings.directories hrest.holdings
  rw [hdirs] at hd
  exact .inl hd

theorem refl (k : Kernel) : Steady k k := .of_resting (.refl k)

theorem setTask (k : Kernel) (t : TaskId) {f : Task → Task}
    (hf : ∀ task, k.task t = some task → Stands task (f task)) :
    Steady k (k.setTask t f) := by
  refine ⟨rfl, rfl, rfl, Heap.next_modify _ _ _, ?_⟩
  intro c task hc
  rw [Kernel.task_setTask]
  split
  · rename_i heq
    subst heq
    rw [hc]
    exact ⟨f task, rfl, hf task hc⟩
  · exact ⟨task, hc, .refl task⟩

end Steady

/-- A path of elementary steps on which no task is switched, created or destroyed. -/
structure Path (gone : NodeId → Prop) (k : Kernel) (fl : Flight) (k' : Kernel) (fl' : Flight) : Prop where
  moves : Moves gone k fl k' fl'
  steady : Steady k k'

namespace Path

variable {gone : NodeId → Prop} {k k' k'' : Kernel} {fl fl' fl'' : Flight}

theorem refl (k : Kernel) (fl : Flight) : Path gone k fl k fl := ⟨.refl, .refl k⟩

theorem trans (h : Path gone k fl k' fl') (h' : Path gone k' fl' k'' fl'') : Path gone k fl k'' fl'' :=
  ⟨h.moves.trans h'.moves, h.steady.trans h'.steady⟩

theorem single (hm : Micro gone k fl k' fl') (hr : Resting k k') : Path gone k fl k' fl' :=
  ⟨.single hm, .of_resting hr⟩

theorem calm (h : Calm k k') : Path gone k fl k' fl := .single (.sched (.calm h)) h.rest

theorem vfs {v : Vfs} {a : NodeId → ℕ} (h : VMoves gone k.vfs fl.nodes v a) :
    Path gone k fl { k with vfs := v } { fl with nodes := a } :=
  ⟨.vfs h, .of_resting (.of_tasks rfl rfl rfl rfl rfl)⟩

theorem base (h : Path gone k fl k' fl') (hb : Base k fl) : Base k' fl' := hb.moves h.moves

end Path

/-! ### Tasks that may be changed -/

/-- The task is in no call that could be resumed, so its descriptors may change. -/
def Unparked (k : Kernel) (t : TaskId) : Prop :=
  ∃ task, k.task t = some task ∧ (suspended task.state = false ∨ task.frame = .entry)

variable {gone : NodeId → Prop} {k k' : Kernel} {fl : Flight} {t : TaskId}

theorem Unparked.steady (h : Unparked k t) (hs : Steady k k') : Unparked k' t := by
  obtain ⟨task, ht, hu⟩ := h
  obtain ⟨task', ht', hst⟩ := hs.tasks ht
  refine ⟨task', ht', ?_⟩
  rcases hu with hu | hf
  · left
    rcases hst.state with heq | ⟨hb, -⟩
    · rwa [heq]
    · rw [suspended_of_blocked hb] at hu
      cases hu
  · rcases hst.frame with heq | ⟨hrun, -⟩
    · exact .inr (heq.trans hf)
    · left
      rcases hst.state with heq | ⟨hb, -⟩
      · rw [heq, hrun]
        rfl
      · rw [hrun] at hb
        cases hb

theorem Unparked.of_current (hb : Base k fl) (hc : k.current = some t) : Unparked k t := by
  obtain ⟨-, task, ht, hst⟩ := hb.roster.current hc
  exact ⟨task, ht, .inl (by rw [hst]; rfl)⟩

/-- A task notes something down. -/
theorem calm_setTask (k : Kernel) (t : TaskId) {f : Task → Task}
    (hf : ∀ task, k.task t = some task → Rests task (f task)) : Calm k (k.setTask t f) := by
  refine ⟨rfl, rfl, rfl, rfl, rfl, rfl, rfl, rfl, rfl, rfl, le_rfl, Heap.next_modify _ _ _, ?_, ?_⟩
  · intro c task' hc
    rw [Kernel.task_setTask] at hc
    split at hc
    · rename_i heq
      subst heq
      obtain ⟨task, htask, rfl⟩ := Option.map_eq_some_iff.mp hc
      exact ⟨task, htask, hf task htask⟩
    · exact ⟨task', hc, .refl task'⟩
  · intro c task hc
    rw [Kernel.task_setTask]
    split
    · rw [hc]
      exact ⟨_, rfl⟩
    · exact ⟨task, hc⟩

/-! ### Nodes -/

theorem retainNode_path {n : NodeId} {node : Node} (hn : k.vfs.node n = some node) :
    Path gone k fl (retainNode k (some n)) (fl.addNode (some n)) :=
  .single (.vfs (.retain hn fun _ => rfl)) (.of_tasks rfl rfl rfl rfl rfl)

theorem releaseNode_path (k : Kernel) (fl : Flight) (o : Option NodeId) :
    Path gone k (fl.addNode o) (releaseNode k o) fl := by
  cases o with
  | none => exact .refl k fl
  | some n => exact .single (.vfs (.release fun _ => rfl)) (.of_tasks rfl rfl rfl rfl rfl)

theorem leak_path (k : Kernel) (fl : Flight) (o : Option NodeId) :
    Path gone k (fl.addNode o) k (fl.addLeak o) := by
  cases o with
  | none => exact .refl k fl
  | some n => exact .single (.leak fun _ => rfl) (.refl k)

/-! ### Open files -/

theorem cbOpenFileRetain_path {f : FileId} {file : OpenFile} (hf : k.files.get f = some file) :
    Path gone k fl (cbOpenFileRetain k f) (fl.addFile (some f)) := by
  refine .single (.file hf rfl rfl (Nat.succ_pos _) ?_ ?_) (.of_tasks rfl rfl rfl rfl rfl)
  · rw [pointsTo_self]
    dsimp only
    omega
  · intro x hx
    rw [pointsTo_of_ne hx]
    rfl

/-- Giving back a reference to an open file, the last one included. -/
theorem cbOpenFileRelease_moves {f : FileId} (hb : Base k (fl.addFile (some f))) :
    Moves gone k (fl.addFile (some f)) (cbOpenFileRelease k f) fl := by
  have hself : (fl.addFile (some f)).files f = fl.files f + 1 := by
    rw [Flight.addFile_files, pointsTo_self]
  rw [cbOpenFileRelease]
  cases hf : k.files.get f with
  | none =>
    have hz := hb.books.freedFiles hf
    omega
  | some file =>
    dsimp only
    split
    · refine .single (.file hf rfl rfl ?_ ?_ ?_)
      · dsimp only
        omega
      · dsimp only
        omega
      · intro x hx
        rw [Flight.addFile_files, pointsTo_of_ne hx, Nat.add_zero]
    · rename_i hlast
      have hone : file.references - 1 = 0 := not_not.mp hlast
      have hbal : ∀ x, (fl.addFile (some f)).files x = fl.files x + pointsTo (some f) x := fun _ => rfl
      cases ho : file.object with
      | node n =>
        have hend : ∀ c, endHold (.node c) file = pointsTo (some n) c := by
          intro c
          simp [endHold, ho, pointsTo]
        have hclose : Micro gone k (fl.addFile (some f)) ({ k with files := k.files.free f }.log (.lastClose f))
            (fl.addNode (some n)) :=
          .closeFile hf hone (fun p => by simp [ho]) (fun c => by rw [hend]; rfl) hbal
        exact (Moves.single hclose).trans (releaseNode_path _ fl (some n)).moves
      | pipeRead p => exact .single (.closeReader hf hone ho hbal)
      | pipeWrite p => exact .single (.closeWriter hf hone ho hbal)
      | consoleInput =>
        refine .single (.closeFile (a := fl.nodes) hf hone (fun p => by simp [ho]) (fun c => ?_) hbal)
        simp [endHold, ho, Flight.addFile]
      | consoleOutput s =>
        refine .single (.closeFile (a := fl.nodes) hf hone (fun p => by simp [ho]) (fun c => ?_) hbal)
        simp [endHold, ho, Flight.addFile]

theorem resting_cbOpenFileRelease (k : Kernel) (f : FileId) : Resting k (cbOpenFileRelease k f) := by
  rw [cbOpenFileRelease]
  split
  · exact .refl k
  · split
    · exact .of_tasks rfl rfl rfl rfl rfl
    · rename_i file _ _
      cases file.object with
      | node n => exact .of_tasks rfl rfl rfl rfl rfl
      | pipeRead p => exact (resting_pipeClose _ _ _).after rfl rfl rfl rfl rfl
      | pipeWrite p => exact (resting_pipeClose _ _ _).after rfl rfl rfl rfl rfl
      | consoleInput => exact .of_tasks rfl rfl rfl rfl rfl
      | consoleOutput s => exact .of_tasks rfl rfl rfl rfl rfl

theorem cbOpenFileRelease_path {f : FileId} (hb : Base k (fl.addFile (some f))) :
    Path gone k (fl.addFile (some f)) (cbOpenFileRelease k f) fl :=
  ⟨cbOpenFileRelease_moves hb, .of_resting (resting_cbOpenFileRelease k f)⟩

/-! ### Descriptor slots -/

/-- Replacing one summand. -/
theorem sum_update {ι α : Type} [Fintype ι] [DecidableEq ι] (w : α → ℕ) (g : ι → α) (i : ι) (a : α) :
    (∑ j, w (Function.update g i a j)) + w (g i) = (∑ j, w (g j)) + w a := by
  have hsplit : ∀ h : ι → α, ∑ j, w (h j) = w (h i) + ∑ j ∈ Finset.univ.erase i, w (h j) := by
    intro h
    exact (Finset.add_sum_erase Finset.univ (fun j => w (h j)) (Finset.mem_univ i)).symm
  have hrest : ∑ j ∈ Finset.univ.erase i, w (Function.update g i a j) = ∑ j ∈ Finset.univ.erase i, w (g j) := by
    refine Finset.sum_congr rfl fun j hj => ?_
    rw [Function.update_of_ne (Finset.ne_of_mem_erase hj)]
  rw [hsplit g, hsplit (Function.update g i a), hrest, Function.update_self]
  omega

theorem slotHold_update (task : Task) (d : Fin cbMaxFds) (entry : Option FdEntry) (f : FileId) :
    slotHold f { task with descriptors := Function.update task.descriptors d entry } +
        pointsTo ((task.descriptors d).map FdEntry.file) f =
      slotHold f task + pointsTo (entry.map FdEntry.file) f :=
  sum_update (fun e : Option FdEntry => pointsTo (e.map FdEntry.file) f) task.descriptors d entry

/-- The hands swap what a slot holds. -/
theorem setSlot_path {task : Task} {d : Fin cbMaxFds} {old : Option FdEntry} (fl : Flight)
    (new : Option FdEntry) (ht : k.task t = some task) (hu : Unparked k t) (hd : task.descriptors d = old) :
    Path gone k (fl.addFile (new.map FdEntry.file)) (k.setSlot t d new)
      (fl.addFile (old.map FdEntry.file)) := by
  obtain ⟨x, hx, hpark⟩ := hu
  rw [ht, Option.some.injEq] at hx
  subst hx
  refine ⟨.single (.hold ht ⟨fun _ => rfl, ?_, rfl, rfl, rfl, rfl, rfl, rfl, rfl, rfl, rfl, .inr hpark,
    fun _ => .inl rfl, fun _ => .inl, .inl rfl, id, rfl⟩), .setTask k t fun _ _ => ⟨rfl, .inl rfl, .inl rfl, rfl, rfl, fun _ => .inl⟩⟩
  intro f
  have hsum := slotHold_update task d new f
  rw [hd] at hsum
  simp only [Flight.addFile]
  omega

/-- The open file of a slot stays, its flag may change. -/
theorem setSlot_same {task : Task} {d : Fin cbMaxFds} {old new : FdEntry} (ht : k.task t = some task)
    (hu : Unparked k t) (hd : task.descriptors d = some old) (hf : new.file = old.file) :
    Path gone k fl (k.setSlot t d (some new)) fl := by
  obtain ⟨x, hx, hpark⟩ := hu
  rw [ht, Option.some.injEq] at hx
  subst hx
  refine ⟨.single (.hold ht ⟨fun _ => rfl, ?_, rfl, rfl, rfl, rfl, rfl, rfl, rfl, rfl, rfl, .inr hpark,
    fun _ => .inl rfl, fun _ => .inl, .inl rfl, id, rfl⟩), .setTask k t fun _ _ => ⟨rfl, .inl rfl, .inl rfl, rfl, rfl, fun _ => .inl⟩⟩
  intro f
  have hsum := slotHold_update task d (some new) f
  rw [hd, Option.map_some, Option.map_some, hf] at hsum
  omega

theorem slot_eq {task : Task} {d : Fin cbMaxFds} (ht : k.task t = some task) :
    k.slot t d = task.descriptors d := by
  rw [Kernel.slot, ht, Option.bind_some]

theorem slot_setSlot {task : Task} (ht : k.task t = some task) (d d' : Fin cbMaxFds)
    (entry : Option FdEntry) :
    (k.setSlot t d entry).slot t d' = if d' = d then entry else k.slot t d' := by
  rw [Kernel.setSlot, slot_eq (Kernel.task_setTask_self _ ht), slot_eq ht]
  exact Function.update_apply _ _ _ _

/-- A step in which all tasks rest keeps all pointers of all tasks. -/
theorem Resting.holdings (hr : Resting k k') (t : TaskId) :
    (k'.task t).map Task.holdings = (k.task t).map Task.holdings := by
  cases ht' : k'.task t with
  | none =>
    cases ht : k.task t with
    | none => rfl
    | some task =>
      obtain ⟨task', hlive⟩ := hr.live ht
      rw [ht'] at hlive
      cases hlive
  | some task' =>
    obtain ⟨task, ht, hrest⟩ := hr.tasks ht'
    rw [ht, Option.map_some, Option.map_some, hrest.holdings]

theorem Resting.slot (hr : Resting k k') (t : TaskId) (d : Fin cbMaxFds) : k'.slot t d = k.slot t d := by
  have hread : ∀ k : Kernel, k.slot t d = ((k.task t).map Task.holdings).bind fun o => o.descriptors d := by
    intro k
    rw [Kernel.slot]
    cases k.task t <;> rfl
  rw [hread, hread, hr.holdings]

theorem Resting.dir (hr : Resting k k') (t : TaskId) (d : Fin cbMaxDirs) : k'.dir t d = k.dir t d := by
  have hread : ∀ k : Kernel, k.dir t d =
      (((k.task t).map Task.holdings).map fun o => o.directories d).getD ⟨none, none, false⟩ := by
    intro k
    rw [Kernel.dir]
    cases k.task t <;> rfl
  rw [hread, hread, hr.holdings]

theorem fdCloseSlot_path {d : Fin cbMaxFds} (hb : Base k fl) (hu : Unparked k t) :
    Path gone k fl (fdCloseSlot k t d) fl := by
  obtain ⟨task, ht, -⟩ := id hu
  rw [fdCloseSlot]
  cases hs : k.slot t d with
  | none => exact .refl k fl
  | some entry =>
    have hd : task.descriptors d = some entry := by rw [← slot_eq ht, hs]
    have hset : Path gone k fl (k.setSlot t d none) (fl.addFile (some entry.file)) :=
      setSlot_path fl none ht hu hd
    exact hset.trans (cbOpenFileRelease_path (hset.base hb))

theorem steady_fdCloseSlot (k : Kernel) (t : TaskId) (d : Fin cbMaxFds) : Steady k (fdCloseSlot k t d) := by
  rw [fdCloseSlot]
  split
  · exact .refl k
  · have hset : Steady k (k.setSlot t d none) := .setTask k t fun _ _ => ⟨rfl, .inl rfl, .inl rfl, rfl, rfl, fun _ => .inl⟩
    exact hset.trans (.of_resting (resting_cbOpenFileRelease _ _))

theorem steady_fdCloseWhere (p : FdEntry → Bool) (k : Kernel) (t : TaskId) : Steady k (fdCloseWhere p k t) := by
  rw [fdCloseWhere]
  induction List.finRange cbMaxFds generalizing k with
  | nil => exact .refl k
  | cons d ds ih =>
    rw [List.foldl_cons]
    split
    · exact (steady_fdCloseSlot k t d).trans (ih _)
    · exact ih k

theorem slot_fdCloseSlot {d : Fin cbMaxFds} (hu : Unparked k t) (d' : Fin cbMaxFds) :
    (fdCloseSlot k t d).slot t d' = if d' = d then none else k.slot t d' := by
  obtain ⟨task, ht, -⟩ := hu
  rw [fdCloseSlot]
  cases hs : k.slot t d with
  | none =>
    dsimp only
    split
    · rename_i heq
      rw [heq, hs]
    · rfl
  | some entry =>
    dsimp only
    rw [(resting_cbOpenFileRelease _ _).slot, slot_setSlot ht]

/-- A loop whose rounds are paths with the same hands before and after. -/
theorem foldl_path {α : Type} (step : Kernel → α → Kernel) (l : List α)
    (hstep : ∀ k a, Base k fl → Unparked k t → Path gone k fl (step k a) fl) (hb : Base k fl)
    (hu : Unparked k t) : Path gone k fl (l.foldl step k) fl := by
  induction l generalizing k with
  | nil => exact .refl k fl
  | cons a l ih =>
    have hm := hstep k a hb hu
    exact hm.trans (ih (hm.base hb) (hu.steady hm.steady))

theorem fdCloseWhere_path (p : FdEntry → Bool) (hb : Base k fl) (hu : Unparked k t) :
    Path gone k fl (fdCloseWhere p k t) fl := by
  refine foldl_path _ _ ?_ hb hu
  intro k d hb hu
  split
  · exact fdCloseSlot_path hb hu
  · exact .refl k fl

/-- A slot after the loop of `fd_close_all`, by induction on the slots that are left. -/
theorem slot_fdCloseWhere (p : FdEntry → Bool) (hu : Unparked k t) (d' : Fin cbMaxFds) :
    (fdCloseWhere p k t).slot t d' = if (k.slot t d').any p = true then none else k.slot t d' := by
  have hloop : ∀ (ds : List (Fin cbMaxFds)) (k : Kernel), Unparked k t →
      (ds.foldl (fun k d => if (k.slot t d).any p then fdCloseSlot k t d else k) k).slot t d' =
        if d' ∈ ds ∧ (k.slot t d').any p = true then none else k.slot t d' := by
    intro ds
    induction ds with
    | nil => simp
    | cons d ds ih =>
      intro k hu
      rw [List.foldl_cons]
      by_cases hd : (k.slot t d).any p = true
      · rw [if_pos hd, ih _ (hu.steady (steady_fdCloseSlot k t d)), slot_fdCloseSlot hu]
        by_cases heq : d' = d
        · subst heq
          simp [hd]
        · simp [heq]
      · rw [if_neg hd, ih k hu]
        by_cases heq : d' = d
        · subst heq
          simp [hd]
        · simp [heq]
  rw [fdCloseWhere, hloop _ k hu]
  simp only [List.mem_finRange, true_and]

theorem slot_fdCloseAll (hu : Unparked k t) (d : Fin cbMaxFds) : (fdCloseAll k t).slot t d = none := by
  rw [fdCloseAll, slot_fdCloseWhere _ hu]
  cases k.slot t d <;> rfl

/-- `dup2` into a slot: what was there is closed, and the slot gets a reference of its own. Another
slot of the task keeps the open file alive in between. -/
theorem fdInstallAt_path {f : FileId} {d d₀ : Fin cbMaxFds} {entry : FdEntry} (hb : Base k fl)
    (hu : Unparked k t) (hslot : k.slot t d₀ = some entry) (hfile : entry.file = f) (hne : d₀ ≠ d) :
    Path gone k fl (fdInstallAt k t f d true) fl := by
  have hclose : Path gone k fl (fdCloseSlot k t d) fl := fdCloseSlot_path hb hu
  have hu₁ := hu.steady hclose.steady
  have hslot₁ : (fdCloseSlot k t d).slot t d₀ = some entry := by
    rw [slot_fdCloseSlot hu, if_neg hne, hslot]
  have hempty : (fdCloseSlot k t d).slot t d = none := by rw [slot_fdCloseSlot hu, if_pos rfl]
  have heq : fdInstallAt k t f d true =
      (cbOpenFileRetain (fdCloseSlot k t d) f).setSlot t d (some ⟨f, false⟩) := by
    rw [fdInstallAt, fdCloseSlot]
    cases k.slot t d <;> rfl
  rw [heq]
  obtain ⟨task, ht, -⟩ := id hu₁
  obtain ⟨file, hlive⟩ := (hclose.base hb).books.slot_live ht ((slot_eq ht).symm.trans hslot₁)
  rw [hfile] at hlive
  have hretain : Path gone (fdCloseSlot k t d) fl (cbOpenFileRetain (fdCloseSlot k t d) f)
      (fl.addFile (some f)) := cbOpenFileRetain_path hlive
  have hset : Path gone (cbOpenFileRetain (fdCloseSlot k t d) f) (fl.addFile (some f))
      ((cbOpenFileRetain (fdCloseSlot k t d) f).setSlot t d (some ⟨f, false⟩)) fl :=
    setSlot_path (k := cbOpenFileRetain (fdCloseSlot k t d) f) fl (some ⟨f, false⟩) ht
      (hu₁.steady hretain.steady) ((slot_eq ht).symm.trans hempty)
  exact hclose.trans (hretain.trans hset)

/-- A new open file gets the lowest free slot, or stays in the hands of the call. -/
theorem fdInstall_path {f : FileId} (hu : Unparked k t) :
    Path gone k (fl.addFile (some f)) (fdInstall k t f).1
      (if (fdInstall k t f).2.isSome then fl else fl.addFile (some f)) := by
  obtain ⟨task, ht, -⟩ := id hu
  rw [fdInstall, ht, Option.bind_some]
  cases hfree : freeSlot task with
  | none =>
    refine .calm (calm_setTask k t ?_)
    exact fun task _ => ⟨rfl, rfl, rfl, .inl rfl, .inl rfl, .inl rfl, rfl, rfl⟩
  | some d =>
    have hnone : task.descriptors d = none := by
      have hd := List.find?_some hfree
      simpa using hd
    exact setSlot_path fl (some ⟨f, false⟩) ht hu hnone

end CannedBsd
