import CannedBsd.Kernel.Handles

/-!
# New tasks

`task_create` builds a task step by step and takes it apart again when an action is refused or an
allocation fails. While it is built the task is alive and not on the list.

* `taskApplyActions_path`: the actions work on the descriptors of a task that is in no call.
* `taskCreate_creates`: `task_create` makes a task, or it leaves nothing behind.
-/

namespace CannedBsd

open CannedBsd.Lib

variable {gone : NodeId → Prop} {k k' : Kernel} {fl : Flight} {t : TaskId}

/-! ### Descriptors -/

theorem slot_of_fileOf {descriptor : ℤ} {f : FileId} {file : OpenFile}
    (h : fileOf k t descriptor = some (f, file)) :
    ∃ d entry, fdSlot descriptor = some d ∧ k.slot t d = some entry ∧ entry.file = f ∧
      k.files.get f = some file := by
  rw [fileOf] at h
  split at h
  · cases h
  · rename_i d hd
    split at h
    · cases h
    · rename_i entry hs
      obtain ⟨file', hf, heq⟩ := Option.map_eq_some_iff.mp h
      cases heq
      exact ⟨d, entry, hd, hs, rfl, hf⟩

theorem fdSlot_ne {a b : ℤ} {d e : Fin cbMaxFds} (ha : fdSlot a = some d) (hb : fdSlot b = some e)
    (hne : a ≠ b) : d ≠ e := by
  rw [fdSlot] at ha hb
  split at ha
  · rename_i hrange
    split at hb
    · rename_i hrange'
      cases ha
      cases hb
      intro heq
      have hval : a.toNat = b.toNat := congrArg Fin.val heq
      omega
    · cases hb
  · cases ha

/-- The loop of `inheritDescriptors`. -/
theorem inheritDescriptors_loop {p : TaskId} {parent : Task} (hpt : p ≠ t) (todo : List (Fin cbMaxFds)) :
    ∀ k : Kernel, todo.Nodup → Base k fl → k.task p = some parent → Unparked k t → (∀ d ∈ todo, k.slot t d = none) →
      Path gone k fl (todo.foldl (fun k d =>
        match parent.descriptors d with
        | none => k
        | some entry => (cbOpenFileRetain k entry.file).setSlot t d (some entry)) k) fl := by
  induction todo with
  | nil =>
    intro k _ _ _ _ _
    exact .refl k fl
  | cons d todo ih =>
    intro k hnd hb hp hu hslots
    rw [List.foldl_cons]
    have hrest : ∀ e ∈ todo, e ≠ d := fun e he heq => (List.nodup_cons.mp hnd).1 (heq ▸ he)
    cases hd : parent.descriptors d with
    | none => exact ih k (List.nodup_cons.mp hnd).2 hb hp hu fun e he => hslots e (List.mem_cons_of_mem _ he)
    | some entry =>
      dsimp only
      obtain ⟨task, ht, -⟩ := id hu
      obtain ⟨file, hf⟩ := hb.books.slot_live hp hd
      have hretain : Path gone k fl (cbOpenFileRetain k entry.file) (fl.addFile (some entry.file)) :=
        cbOpenFileRetain_path hf
      have hempty : task.descriptors d = none := by
        rw [← slot_eq ht]
        exact hslots d List.mem_cons_self
      have hset : Path gone (cbOpenFileRetain k entry.file) (fl.addFile (some entry.file))
          ((cbOpenFileRetain k entry.file).setSlot t d (some entry)) fl :=
        setSlot_path (k := cbOpenFileRetain k entry.file) fl (some entry) ht (hu.steady hretain.steady) hempty
      have hround := hretain.trans hset
      refine hround.trans (ih _ (List.nodup_cons.mp hnd).2 (hround.base hb) ?_ (hu.steady hround.steady) ?_)
      · exact (Kernel.task_setTask_of_ne _ _ hpt).trans hp
      · intro e he
        rw [slot_setSlot (k := cbOpenFileRetain k entry.file) ht, if_neg (hrest e he)]
        exact hslots e (List.mem_cons_of_mem _ he)

/-- A task inherits the descriptors of its parent. -/
theorem inheritDescriptors_path {p : TaskId} {parent : Task} (hb : Base k fl) (hp : k.task p = some parent)
    (hpt : p ≠ t) (hu : Unparked k t) (hslots : ∀ d, k.slot t d = none) :
    Path gone k fl (inheritDescriptors k t parent) fl := by
  exact inheritDescriptors_loop hpt _ k (List.nodup_finRange _) hb hp hu fun d _ => hslots d

theorem setError_path (k : Kernel) (t : TaskId) (e : ℤ) : Path gone k fl (k.setError t e) fl :=
  .calm (calm_setTask k t fun _ _ => ⟨rfl, rfl, rfl, .inl rfl, .inl rfl, .inl rfl, rfl, rfl⟩)

/-- `task_apply_actions` works on the descriptors of a task that is in no call. -/
theorem taskApplyActions_path (actions : List SpawnAction) (hb : Base k fl) (hu : Unparked k t) :
    Path gone k fl (taskApplyActions t k actions).1 fl := by
  induction actions generalizing k with
  | nil => exact .refl k fl
  | cons action actions ih =>
    have hgo : ∀ {k' : Kernel}, Path gone k fl k' fl → Path gone k fl (taskApplyActions t k' actions).1 fl := by
      intro k' hstep
      exact hstep.trans (ih (hstep.base hb) (hu.steady hstep.steady))
    rw [taskApplyActions]
    split
    · exact setError_path k t _
    · split
      · split
        · rename_i f file d hfile hd
          obtain ⟨d₀, entry, hd₀, hslot, hf, -⟩ := slot_of_fileOf hfile
          split
          · rename_i heq
            rw [heq, hd, Option.some.injEq] at hd₀
            subst hd₀
            obtain ⟨task, ht, -⟩ := id hu
            exact hgo (setSlot_same ht hu ((slot_eq ht).symm.trans hslot) hf.symm)
          · rename_i hne
            exact hgo (fdInstallAt_path hb hu hslot hf (fdSlot_ne hd₀ hd hne))
        · exact setError_path k t _
      · split
        · exact hgo (.refl k fl)
        · exact hgo (fdCloseSlot_path hb hu)
      · exact setError_path k t _

/-! ### Creation -/

/-- A task that has not run yet and has no program file, no instance and no directory handle. -/
structure Infant (program : Option ProgramId) (ppid : ℕ) (task : Task) : Prop where
  state : task.state = .runnable
  frame : task.frame = .entry
  badge : ∃ ignored, task.badge = ⟨none, none, none, program, none, ignored, false⟩
  ppid : task.ppid = ppid
  handles : ∀ d, (task.directories d).inUse = false

theorem Infant.stands {program : Option ProgramId} {ppid : ℕ} {task task' : Task} (h : Infant program ppid task)
    (hs : Stands task task') : Infant program ppid task' := by
  refine ⟨?_, ?_, ?_, hs.ppid.trans h.ppid, fun d => ?_⟩
  · rcases hs.state with heq | ⟨-, hr⟩
    · rw [heq, h.state]
    · exact hr
  · rcases hs.frame with heq | ⟨hrun, -⟩
    · rw [heq, h.frame]
    · rw [h.state] at hrun
      cases hrun
  · rw [hs.badge]
    exact h.badge
  · cases huse : (task'.directories d).inUse with
    | false => rfl
    | true =>
      rcases hs.inUse d huse with hin | hrun
      · rw [h.handles d] at hin
        cases hin
      · rw [h.state] at hrun
        cases hrun

def Newborn (k : Kernel) (t : TaskId) (program : Option ProgramId) (ppid : ℕ) : Prop :=
  ∃ task, k.task t = some task ∧ Infant program ppid task

theorem Newborn.steady {program : Option ProgramId} {ppid : ℕ} (h : Newborn k t program ppid) (hs : Steady k k') :
    Newborn k' t program ppid := by
  obtain ⟨task, ht, hn⟩ := h
  obtain ⟨task', ht', hstand⟩ := hs.tasks ht
  exact ⟨task', ht', hn.stands hstand⟩

theorem Newborn.unparked {program : Option ProgramId} {ppid : ℕ} (h : Newborn k t program ppid) : Unparked k t := by
  obtain ⟨task, ht, hn⟩ := h
  exact ⟨task, ht, .inr hn.frame⟩

theorem retainSome_path {o : Option NodeId} (ho : ∀ n, o = some n → ∃ node, k.vfs.node n = some node) :
    Path gone k fl (retainNode k o) (fl.addNode o) := by
  cases o with
  | none => exact .refl k fl
  | some n =>
    obtain ⟨node, hn⟩ := ho n rfl
    exact retainNode_path hn

/-- The root and the working directory a new task starts with. -/
def startRoot (k : Kernel) (parent : Option Task) : Option NodeId :=
  (parent.map Task.root).getD (some k.vfs.vfsRoot)

def startCwd (k : Kernel) (parent : Option Task) : Option NodeId :=
  (parent.map Task.cwd).getD (some k.vfs.vfsRoot)

theorem Books.root_live (hb : Books k fl) : ∃ node, k.vfs.node k.vfs.vfsRoot = some node := by
  obtain ⟨node, hn, -⟩ := (rooted_vfsRoot hb.vfs.tree hb.root)
  exact ⟨node, hn⟩

/-- The kernel with a new task that is not on the list and has no descriptors yet. -/
def withTask (k : Kernel) (parent : Option Task) (program : Option ProgramId)
    (argv environment : List Bytes) : Kernel :=
  let root := startRoot k parent
  let cwd := startCwd k parent
  let k := retainNode (retainNode { k with nextPid := k.nextPid + 1 } root) cwd
  { k with tasks := k.tasks.alloc (newTask k.nextPid parent program argv environment root cwd) }

theorem vfsRoot_retainNode (k : Kernel) (o : Option NodeId) :
    (retainNode k o).vfs.vfsRoot = k.vfs.vfsRoot := by
  cases o <;> rfl

theorem startRoot_eq {parent : Option Task} (hb : Books k fl)
    (hp : ∀ task, parent = some task → ∃ p, k.task p = some task) :
    startRoot k parent = some k.vfs.vfsRoot := by
  cases parent with
  | none => rfl
  | some task =>
    obtain ⟨p, hp⟩ := hp task rfl
    exact hb.roots hp

theorem startCwd_live {parent : Option Task} (hb : Books k fl)
    (hp : ∀ task, parent = some task → ∃ p, k.task p = some task) (n : NodeId)
    (hn : startCwd k parent = some n) : ∃ node, k.vfs.node n = some node := by
  cases parent with
  | none =>
    have heq : k.vfs.vfsRoot = n := Option.some.inj hn
    rw [← heq]
    exact hb.root_live
  | some task =>
    obtain ⟨p, hp⟩ := hp task rfl
    have hcwd : task.cwd = some n := hn
    refine hb.node_live hp ?_
    rw [taskHold, hcwd, pointsTo_self]
    omega

theorem withTask_moves {parent : Option Task} (program : Option ProgramId) (argv environment : List Bytes)
    (hb : Base k fl) (hl : fl.limbo = none) (hp : ∀ task, parent = some task → ∃ p, k.task p = some task) :
    Moves gone k fl (withTask k parent program argv environment) { fl with limbo := some k.tasks.next } := by
  have hroot := startRoot_eq hb.books hp
  have hr : Path gone k fl (retainNode k (startRoot k parent)) (fl.addNode (startRoot k parent)) := by
    refine retainSome_path fun n hn => ?_
    rw [hroot, Option.some.injEq] at hn
    rw [← hn]
    exact hb.books.root_live
  have hb₁ := hr.base hb
  have hc : Path gone (retainNode k (startRoot k parent)) (fl.addNode (startRoot k parent))
      (retainNode (retainNode k (startRoot k parent)) (startCwd k parent))
      ((fl.addNode (startRoot k parent)).addNode (startCwd k parent)) := by
    refine retainSome_path fun n hn => ?_
    refine startCwd_live hb₁.books hp n ?_
    rw [startCwd, vfsRoot_retainNode]
    exact hn
  refine (hr.trans hc).moves.trans (.single (.create hl ?_ ?_ ?_ rfl rfl rfl (fun _ => rfl) rfl))
  · intro n
    rw [taskHold_of_closed fun _ => rfl]
    show fl.nodes n + pointsTo (startRoot k parent) n + pointsTo (startCwd k parent) n = _
    simp only [newTask, pointsTo_none]
    omega
  · exact slotHold_of_none fun _ => rfl
  · rw [vfsRoot_retainNode, vfsRoot_retainNode]
    exact hroot

theorem task_withTask {parent : Option Task} (program : Option ProgramId) (argv environment : List Bytes)
    (c : TaskId) : (withTask k parent program argv environment).task c =
      if c = k.tasks.next then some (newTask (k.nextPid + 1) parent program argv environment
        (startRoot k parent) (startCwd k parent)) else k.task c :=
  Heap.get_alloc _ _ _

theorem current_taskRelease (k : Kernel) (t : TaskId) : (taskRelease k t).current = k.current := by
  rw [taskRelease]
  split <;> rfl

theorem finishing_taskRelease (k : Kernel) (t : TaskId) : (taskRelease k t).finishing = k.finishing := by
  rw [taskRelease]
  split <;> rfl

/-- Freeing a task leaves the others alone. -/
theorem task_taskRelease (k : Kernel) {t c : TaskId} (hc : c ≠ t) : (taskRelease k t).task c = k.task c := by
  rw [taskRelease]
  split
  · rfl
  · exact (Heap.get_free _ _ _).trans (if_neg hc)

/-- Build a task that runs no program yet and hand it the descriptors of its parent. -/
def buildTask (k : Kernel) (parent : Option Task) (program : Option ProgramId)
    (argv environment : List Bytes) : Kernel :=
  let t := k.tasks.next
  let k := withTask k parent program argv environment
  match parent with
  | none => k
  | some task => inheritDescriptors k t task

theorem buildTask_moves {parent : Option Task} (program : Option ProgramId) (argv environment : List Bytes)
    (hb : Base k fl) (hl : fl.limbo = none) (hp : ∀ task, parent = some task → ∃ p, k.task p = some task) :
    Moves gone k fl (buildTask k parent program argv environment) { fl with limbo := some k.tasks.next } ∧
      (buildTask k parent program argv environment).order = k.order ∧
      Newborn (buildTask k parent program argv environment) k.tasks.next program
        ((parent.map Task.pid).getD 0) ∧
      Bystanders k (buildTask k parent program argv environment) := by
  have hmoves : Moves gone k fl (withTask k parent program argv environment)
      { fl with limbo := some k.tasks.next } := withTask_moves program argv environment hb hl hp
  have hself : (withTask k parent program argv environment).task k.tasks.next =
      some (newTask (k.nextPid + 1) parent program argv environment (startRoot k parent)
        (startCwd k parent)) := by
    rw [task_withTask, if_pos rfl]
  have hnew : Newborn (withTask k parent program argv environment) k.tasks.next program
      ((parent.map Task.pid).getD 0) := ⟨_, hself, rfl, rfl, ⟨_, rfl⟩, rfl, fun _ => rfl⟩
  have hother : ∀ {p task}, k.task p = some task → p ≠ k.tasks.next ∧
      (withTask k parent program argv environment).task p = some task := by
    intro p task hp
    have hne : p ≠ k.tasks.next := Nat.ne_of_lt (Heap.lt_next_of_get hp)
    exact ⟨hne, by rw [task_withTask, if_neg hne, hp]⟩
  have hbystand : Bystanders k (withTask k parent program argv environment) :=
    ⟨rfl, rfl, fun hp => ⟨_, (hother hp).2, .refl _⟩⟩
  cases parent with
  | none => exact ⟨hmoves, rfl, hnew, hbystand⟩
  | some task =>
    obtain ⟨p, hp⟩ := hp task rfl
    have hne := (hother hp).1
    have hpath : Path gone (withTask k (some task) program argv environment)
        { fl with limbo := some k.tasks.next }
        (inheritDescriptors (withTask k (some task) program argv environment) k.tasks.next task)
        { fl with limbo := some k.tasks.next } := by
      refine inheritDescriptors_path (hb.moves hmoves) (hother hp).2 hne hnew.unparked fun d => ?_
      rw [slot_eq hself]
      rfl
    exact ⟨hmoves.trans hpath.moves, hpath.steady.order, hnew.steady hpath.steady,
      hbystand.trans hpath.steady.bystanders⟩

theorem dismantle_moves {program : Option ProgramId} {ppid : ℕ} (gone : NodeId → Prop) (hb : Base k fl)
    (hl : fl.limbo = some t) (ho : t ∉ k.order) (hn : Newborn k t program ppid) :
    Moves gone k fl (taskRelease (fdCloseAll k t) t) { fl with limbo := none } ∧
      Steady k (fdCloseAll k t) := by
  have hclose : Path gone k fl (fdCloseAll k t) fl := fdCloseWhere_path _ hb hn.unparked
  obtain ⟨task, ht, hinfant⟩ := hn.steady hclose.steady
  have hfree : Moves gone (fdCloseAll k t) fl (taskRelease (fdCloseAll k t) t) { fl with limbo := none } := by
    refine taskRelease_moves hl ?_ ⟨task, ht⟩ (slot_fdCloseAll hn.unparked) fun d => ?_
    · rw [hclose.steady.order]
      exact ho
    · rw [dir_eq ht]
      exact hinfant.handles d
  exact ⟨hclose.moves.trans hfree, hclose.steady⟩

/-- The task gets an instance of its program and comes onto the list. -/
def enlist (k : Kernel) (parent : Option TaskId) (t : TaskId) : Kernel :=
  let k := k.setTask t fun task => { task with execution := task.program }
  { k with order := t :: k.order }.record (.spawned parent t (((k.task t).map Task.pid).getD 0))

/-- The end of `task_create`: put the task on the list, or take it apart. -/
def settleTask (h : Host) (parent : Option TaskId) (program : Option ProgramId) (t : TaskId) :
    Kernel × Bool → Kernel × Option TaskId
  | (k, false) => (taskRelease (fdCloseAll k t) t, none)
  | (k, true) =>
    if program = none ∨ h.allocate .execution = false then (taskRelease (fdCloseAll k t) t, none)
    else (enlist k parent t, some t)

/-- What `task_create` does: it leaves no trace but a used pid, or it leads to a task that has only to
be put on the list. -/
inductive Creates (gone : NodeId → Prop) (k : Kernel) (fl : Flight) (parent : Option TaskId)
    (program : Option ProgramId) : Kernel × Option TaskId → Prop
  | refused {k' : Kernel} : Moves gone k fl k' fl → Bystanders k k' → Creates gone k fl parent program (k', none)
  | ready {k' : Kernel} {t : TaskId} : Moves gone k fl k' { fl with limbo := some t } → Bystanders k k' →
      t ∉ k'.order → k.task t = none → Newborn k' t program (((parent.bind k.task).map Task.pid).getD 0) →
      program ≠ none →
      Creates gone k fl parent program (enlist k' parent t, some t)

/-- **Creation.**  `task_create`, up to the list. -/
theorem taskCreate_creates (h : Host) (parent : Option TaskId) (program : Option ProgramId)
    (argv : List Bytes) (envp : Option (List Bytes)) (actions : List SpawnAction) (hb : Base k fl)
    (hl : fl.limbo = none) :
    Creates gone k fl parent program (taskCreate h k parent program argv envp actions) := by
  rw [taskCreate]
  split
  · exact .refused .refl (.refl k)
  split
  · exact .refused .refl (.refl k)
  dsimp only
  split
  · refine .refused ?_ ⟨rfl, rfl, fun ht => ⟨_, ht, .refl _⟩⟩
    exact .single (.sched (.calm ⟨rfl, rfl, rfl, rfl, rfl, rfl, rfl, rfl, rfl, rfl, Nat.le_succ _, rfl,
      fun {_ task} ht => ⟨task, ht, .refl task⟩, fun {_ task} ht => ⟨task, ht⟩⟩))
  -- the rest is `buildTask`, `taskApplyActions` and `settleTask`
  set parentTask := parent.bind k.task with hparent
  set environment := envp.getD ((parentTask.map Task.environment).getD [])
  have hp : ∀ task, parentTask = some task → ∃ p, k.task p = some task := by
    intro task htask
    rw [hparent] at htask
    obtain ⟨p, -, hp⟩ := Option.bind_eq_some_iff.mp htask
    exact ⟨p, hp⟩
  obtain ⟨hbuild, horder, hnew, hothers⟩ : Moves gone k fl (buildTask k parentTask program argv environment) _ ∧ _ :=
    buildTask_moves program argv environment hb hl hp
  set acted := taskApplyActions k.tasks.next (buildTask k parentTask program argv environment) actions with hacted
  have hactions : Path gone (buildTask k parentTask program argv environment) _ acted.1 _ :=
    taskApplyActions_path actions (hb.moves hbuild) hnew.unparked
  have hout : k.tasks.next ∉ acted.1.order := by
    rw [hactions.steady.order, horder]
    intro hmem
    obtain ⟨task, ht⟩ := hb.roster.live hmem
    rw [Kernel.task, Heap.get_next] at ht
    cases ht
  have hready := hbuild.trans hactions.moves
  have hstand := hothers.trans hactions.steady.bystanders
  have hnew' := hnew.steady hactions.steady
  have hfail : Creates gone k fl parent program (taskRelease (fdCloseAll acted.1 k.tasks.next) k.tasks.next, none) := by
    obtain ⟨hmoves, hback⟩ := dismantle_moves gone (hb.moves hready) rfl hout hnew'
    have hrest : { { fl with limbo := some k.tasks.next } with limbo := none } = fl := by
      cases fl
      cases hl
      rfl
    rw [hrest] at hmoves
    have hall := hstand.trans hback.bystanders
    refine .refused (hready.trans hmoves) ⟨?_, ?_, fun {p task} hp => ?_⟩
    · exact (current_taskRelease _ _).trans hall.current
    · exact (finishing_taskRelease _ _).trans hall.finishing
    · rw [task_taskRelease _ (Nat.ne_of_lt (Heap.lt_next_of_get hp))]
      exact hall.tasks hp
  show Creates gone k fl parent program (settleTask h parent program k.tasks.next acted)
  clear_value acted
  obtain ⟨k', accepted⟩ := acted
  cases accepted with
  | false => exact hfail
  | true =>
    rw [settleTask]
    split
    · exact hfail
    · rename_i hok
      exact .ready hready hstand hout (Heap.get_next _) hnew' fun hnone => hok (.inl hnone)

end CannedBsd
