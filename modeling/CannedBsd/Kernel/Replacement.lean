import CannedBsd.Kernel.Programs

/-!
# What `exec` keeps

`api_exec` prepares the replacement and the scheduler commits it in `task_finish_exec`. Closing the
marked descriptors and the directory handles reaches into other objects, but of the tasks it changes
only the slots and handles it closes; every other field either survives or is reset.

* `core_closing`: the rest of every task survives the closing of descriptors and handles.
* `exec_keeps_exactly`: which fields of a task a committed `exec` keeps and which it resets.
-/

namespace CannedBsd

open CannedBsd.Lib

variable {k k' : Kernel} {t : TaskId}

/-! ### Closing, field by field -/

/-- A task without what closing descriptors and handles may change. -/
def Task.core (task : Task) : Task :=
  { task with
    descriptors := fun _ => none
    directories := fun _ => ⟨none, none, false⟩
    state := .runnable
    wakeReason := .none }

theorem core_wakePipeTask (task : Task) : (wakePipeTask task).core = task.core := by
  rw [wakePipeTask]
  split
  · rfl
  split
  · rfl
  · rfl

theorem descriptors_wakePipeTask (task : Task) : (wakePipeTask task).descriptors = task.descriptors := by
  rw [wakePipeTask]
  split
  · rfl
  split
  · rfl
  · rfl

/-- The rest of every task survives the closing of descriptors and handles. -/
theorem core_closing (p : FdEntry → Bool) (k : Kernel) (t c : TaskId) :
    ((dirCloseAll (fdCloseWhere p k t) t).task c).map Task.core = (k.task c).map Task.core := by
  have haloof := aloof_field Task.core core_wakePipeTask c
  rw [haloof.dirCloseAll fun k _ _ => field_setTask Task.core k t c fun _ => rfl]
  exact haloof.fdCloseWhere (fun k _ _ => field_setTask Task.core k t c fun _ => rfl) p k

/-- The descriptors of the other tasks survive. -/
theorem descriptors_closing (p : FdEntry → Bool) (k : Kernel) {t c : TaskId} (hc : c ≠ t) :
    ((dirCloseAll (fdCloseWhere p k t) t).task c).map Task.descriptors = (k.task c).map Task.descriptors := by
  have haloof := aloof_field Task.descriptors descriptors_wakePipeTask c
  rw [haloof.dirCloseAll fun k _ _ => field_setTask Task.descriptors k t c fun _ => rfl]
  refine haloof.fdCloseWhere (fun k d entry => ?_) p k
  rw [Kernel.setSlot, Kernel.task_setTask_of_ne _ _ hc]

/-! ### Open files -/

/-- The open files that are left are those from before, with the same object, flags and offset. -/
def FilesFade (k k' : Kernel) : Prop :=
  ∀ f file', k'.files.get f = some file' →
    ∃ file, k.files.get f = some file ∧ file'.object = file.object ∧ file'.flags = file.flags ∧
      file'.offset = file.offset

namespace FilesFade

theorem of_files (h : k'.files = k.files) : FilesFade k k' := by
  intro f file hf
  rw [h] at hf
  exact ⟨file, hf, rfl, rfl, rfl⟩

theorem trans {k'' : Kernel} (h : FilesFade k k') (h' : FilesFade k' k'') : FilesFade k k'' := by
  intro f file'' hf''
  obtain ⟨file', hf', hobject', hflags', hoffset'⟩ := h' f file'' hf''
  obtain ⟨file, hf, hobject, hflags, hoffset⟩ := h f file' hf'
  exact ⟨file, hf, hobject'.trans hobject, hflags'.trans hflags, hoffset'.trans hoffset⟩

theorem files_lastClose (k : Kernel) (object : FileObject) : (lastClose k object).files = k.files := by
  cases object with
  | node n => rfl
  | pipeRead p => exact Waiting.files_pipeClose k p _
  | pipeWrite p => exact Waiting.files_pipeClose k p _
  | consoleInput => rfl
  | consoleOutput s => rfl

theorem cbOpenFileRelease (k : Kernel) (f : FileId) : FilesFade k (cbOpenFileRelease k f) := by
  rw [CannedBsd.cbOpenFileRelease]
  split
  · exact .of_files rfl
  split
  · intro g file' hg
    rw [Kernel.setFile, Heap.get_modify] at hg
    split at hg
    · obtain ⟨file, hfile, rfl⟩ := Option.map_eq_some_iff.mp hg
      exact ⟨file, hfile, rfl, rfl, rfl⟩
    · exact ⟨file', hg, rfl, rfl, rfl⟩
  · intro g file' hg
    rw [files_lastClose] at hg
    have hg' : (k.files.free f).get g = some file' := hg
    rw [Heap.get_free] at hg'
    split at hg'
    · cases hg'
    · exact ⟨file', hg', rfl, rfl, rfl⟩

theorem foldl {α : Type} (step : Kernel → α → Kernel) (hstep : ∀ k a, FilesFade k (step k a)) (as : List α) :
    ∀ k, FilesFade k (as.foldl step k) := by
  induction as with
  | nil => exact fun k => .of_files rfl
  | cons a as ih => exact fun k => (hstep k a).trans (ih (step k a))

theorem fdCloseWhere (p : FdEntry → Bool) (k : Kernel) : FilesFade k (fdCloseWhere p k t) := by
  rw [CannedBsd.fdCloseWhere]
  refine foldl _ (fun k d => ?_) _ k
  split
  · rw [fdCloseSlot]
    split
    · exact .of_files rfl
    · exact (FilesFade.of_files rfl).trans (cbOpenFileRelease _ _)
  · exact .of_files rfl

theorem dirCloseAll (k : Kernel) : FilesFade k (dirCloseAll k t) := by
  rw [CannedBsd.dirCloseAll]
  refine foldl _ (fun k d => ?_) _ k
  dsimp only
  split
  · exact .of_files rfl
  · exact .of_files rfl

end FilesFade

/-! ### The whole of `exec` -/

/-- What a task is after a successful `exec`: identity, directories of reference and interrupt state
survive, marked descriptors, handles and allocations are gone, the vectors are those passed, and the
state libc keeps is that of a new task. -/
structure Successor (task task' : Task) (argv : List Bytes) (envp : Option (List Bytes)) : Prop where
  pid : task'.pid = task.pid
  ppid : task'.ppid = task.ppid
  cwd : task'.cwd = task.cwd
  root : task'.root = task.root
  interruptIgnored : task'.interruptIgnored = task.interruptIgnored
  interruptPending : task'.interruptPending = task.interruptPending
  descriptors : ∀ d, task'.descriptors d =
    if (task.descriptors d).any FdEntry.closeOnExec = true then none else task.descriptors d
  directories : ∀ d, (task'.directories d).inUse = false
  allocations : task'.allocations = []
  argv : task'.argv = argv
  environment : task'.environment = envp.getD task.environment
  errorCell : task'.errorCell = 0
  libc : task'.libc = .start

theorem apiExec_gone {h : Host} {programName : Bytes} {argv : List Bytes} {envp : Option (List Bytes)}
    (hgone : (apiExec h k t programName argv envp).2 = .gone) :
    ∃ n, (apiExec h k t programName argv envp).1 = execPublish (retainNode k (some n)) t n argv envp := by
  rw [apiExec] at hgone ⊢
  split at hgone
  · cases hgone
  rename_i n htarget
  dsimp only at hgone
  split at hgone
  · cases hgone
  · rename_i href
    refine ⟨n, ?_⟩
    dsimp only
    rw [href]

/-- The task when `task_finish_exec` has closed what it closes. -/
theorem task_cleared {task : Task} (ht : k.task t = some task) (hst : suspended task.state = false) :
    ∃ x, (cleared k t).task t = some x ∧
      x.core = { task with
        execution := none, allocations := [], libc := { task.libc with inputStreams := none } }.core ∧
      (∀ d, x.descriptors d = if (task.descriptors d).any FdEntry.closeOnExec = true then none else task.descriptors d) ∧
      ∀ d, (x.directories d).inUse = false := by
  have hbare := task_bared ht
  have hu : Unparked (bared k t) t := ⟨_, hbare, .inl hst⟩
  have hcore := core_closing FdEntry.closeOnExec (bared k t) t t
  rw [hbare, Option.map_some, Option.map_eq_some_iff] at hcore
  obtain ⟨x, hx, hcore⟩ := hcore
  have hx' : (cleared k t).task t = some x := hx
  refine ⟨x, hx', hcore, fun d => ?_, fun d => ?_⟩
  · rw [← slot_eq hx', cleared, slot_dirCloseAll, shut, slot_fdCloseWhere _ hu, slot_eq hbare]
  · have hshut : Unparked (shut k t) t := hu.steady (steady_fdCloseWhere FdEntry.closeOnExec (bared k t) t)
    obtain ⟨-, -, -, hclosed⟩ : ∃ l, Path noNode (shut k t) (.rest fun _ => 0) (dirCloseAll (shut k t) t) _ ∧ _ :=
      dirCloseAll_path hshut
    rw [← dir_eq hx', cleared]
    exact hclosed d

/-- The task when `task_finish_exec` is done. -/
theorem task_startInstance (h : Host) {x : Task} (hx : k.task t = some x) :
    (startInstance h (installProgram k t) t).task t = some { x with
      program := x.pendingProgram
      argv := x.pendingArgv
      environment := x.pendingEnvironment
      executableNode := x.pendingExecutableNode
      pendingExecutableNode := none
      libc := { LibcState.start with inputStreams := x.libc.inputStreams }
      pendingProgram := none
      pendingArgv := []
      pendingEnvironment := []
      errorCell := 0
      execution := if h.allocate .execution then x.pendingProgram else none
      state := .runnable
      frame := .entry } := by
  have hnew : (installProgram k t).task t = _ := (congrArg (fun k => Kernel.task k t) (installProgram_eq hx)).trans
    (Kernel.task_setTask_self _ hx)
  rw [startInstance, hnew]
  exact Kernel.task_setTask_self _ hnew

theorem others_startInstance (h : Host) {x : Task} (hx : k.task t = some x) {c : TaskId} (hc : c ≠ t) :
    (startInstance h (installProgram k t) t).task c = k.task c := by
  have hnew : (installProgram k t).task t = _ := (congrArg (fun k => Kernel.task k t) (installProgram_eq hx)).trans
    (Kernel.task_setTask_self _ hx)
  rw [startInstance, hnew]
  show ((installProgram k t).setTask t _).task c = k.task c
  rw [Kernel.task_setTask_of_ne _ _ hc, installProgram_eq hx]
  show ((k.setTask t _).task c) = k.task c
  exact Kernel.task_setTask_of_ne _ _ hc

theorem files_startInstance (h : Host) {x : Task} (hx : k.task t = some x) :
    (startInstance h (installProgram k t) t).files = k.files := by
  have hnew : (installProgram k t).task t = _ := (congrArg (fun k => Kernel.task k t) (installProgram_eq hx)).trans
    (Kernel.task_setTask_self _ hx)
  rw [startInstance, hnew]
  show (installProgram k t).files = k.files
  rw [installProgram_eq hx]
  rfl

/-- The successor of a task whose replacement is published. -/
theorem successor_of_published {h : Host} {n : NodeId} {task : Task} {argv : List Bytes} {envp : Option (List Bytes)}
    (ht : k.task t = some task) :
    ∃ task', (taskFinishExec h (execPublish k t n argv envp) t).task t = some task' ∧ Successor task task' argv envp := by
  obtain ⟨x, hx, hcore, hfds, hdirs⟩ := task_cleared (task_execPublish n argv envp ht) rfl
  refine ⟨_, (taskFinishExec_eq h _ t).symm ▸ task_startInstance h hx, ?_⟩
  have hstreams : x.libc.inputStreams = none := congrArg (fun task => task.libc.inputStreams) hcore
  refine ⟨(congrArg Task.pid hcore :), (congrArg Task.ppid hcore :), (congrArg Task.cwd hcore :),
    (congrArg Task.root hcore :), (congrArg Task.interruptIgnored hcore :), (congrArg Task.interruptPending hcore :),
    hfds, hdirs, (congrArg Task.allocations hcore :), (congrArg Task.pendingArgv hcore :),
    (congrArg Task.pendingEnvironment hcore :), rfl, ?_⟩
  show { LibcState.start with inputStreams := x.libc.inputStreams } = LibcState.start
  rw [hstreams]
  rfl

/-- The other tasks keep their descriptors. -/
theorem others_of_published {h : Host} {n : NodeId} {task : Task} {argv : List Bytes} {envp : Option (List Bytes)}
    (ht : k.task t = some task) {c : TaskId} (hc : c ≠ t) :
    ((taskFinishExec h (execPublish k t n argv envp) t).task c).map Task.descriptors =
      (k.task c).map Task.descriptors := by
  obtain ⟨x, hx, -⟩ := task_cleared (task_execPublish n argv envp ht) rfl
  rw [taskFinishExec_eq, others_startInstance h hx hc, cleared, shut, descriptors_closing _ _ hc]
  have hbare : (bared (execPublish k t n argv envp) t).task c = (execPublish k t n argv envp).task c := by
    rw [bared, task_taskReleaseAllocations_of_ne _ hc, destroyInstance, Kernel.task_setTask_of_ne _ _ hc]
  have hpublish : (execPublish k t n argv envp).task c = k.task c := by
    rw [execPublish]
    show ((k.setTask t _).setTask t _).task c = k.task c
    rw [Kernel.task_setTask_of_ne _ _ hc, Kernel.task_setTask_of_ne _ _ hc]
  rw [hbare, hpublish]

theorem filesFade_of_published {h : Host} {n : NodeId} {task : Task} {argv : List Bytes} {envp : Option (List Bytes)}
    (ht : k.task t = some task) : FilesFade k (taskFinishExec h (execPublish k t n argv envp) t) := by
  obtain ⟨x, hx, -⟩ := task_cleared (task_execPublish n argv envp ht) rfl
  have hbare : FilesFade k (bared (execPublish k t n argv envp) t) := .of_files rfl
  have hclose : FilesFade (bared (execPublish k t n argv envp) t) (cleared (execPublish k t n argv envp) t) :=
    (FilesFade.fdCloseWhere _ _).trans (FilesFade.dirCloseAll _)
  rw [taskFinishExec_eq]
  exact hbare.trans (hclose.trans (.of_files (files_startInstance h hx)))

theorem base_of_published {fl : Flight} {h' : Host} {n : NodeId} {r : Kernel × Outcome} {argv : List Bytes}
    {envp : Option (List Bytes)} (hb : Base k fl) (hend : Ends noNode k fl t fl r) (hgone : r.2 = .gone)
    (hexec : r.1 = execPublish (retainNode k (some n)) t n argv envp)
    (hk' : k' = taskFinishExec h' (execPublish (retainNode k (some n)) t n argv envp) t) : ∃ fl', Base k' fl' := by
  obtain ⟨k₁, o⟩ := r
  cases hgone
  obtain ⟨hm, hpledge⟩ := hend
  have hexec' : k₁ = execPublish (retainNode k (some n)) t n argv envp := hexec
  have hfin : k₁.finishing = some t := by
    rw [hexec']
    rfl
  obtain ⟨l, hm', -, -⟩ : ∃ l, Moves noNode k₁ fl (taskFinishExec h' k₁ t) _ ∧ _ :=
    taskFinishExec_moves h' (hb.moves hm) hpledge hfin
  refine ⟨{ fl with leaked := l }, ?_⟩
  rw [hk', ← hexec']
  exact (hb.moves hm).moves hm'

/-- **Replacement.**  A successful `exec` that the scheduler commits leaves a successor of the task.
No other task's descriptors change, and every slot that survives still has its open file, with the
same object, flags and offset. -/
theorem exec_keeps_exactly (h h' : Host) (programName : Bytes) (argv : List Bytes) (envp : Option (List Bytes))
    {task : Task} (ht : k.task t = some task) (hgone : (apiExec h k t programName argv envp).2 = .gone)
    (hk' : k' = taskFinishExec h' (apiExec h k t programName argv envp).1 t) :
    (∃ task', k'.task t = some task' ∧ Successor task task' argv envp) ∧
    (∀ c, c ≠ t → (k'.task c).map Task.descriptors = (k.task c).map Task.descriptors) ∧
    (Reachable k → k.current = some t → ∀ d entry, k'.slot t d = some entry →
      ∃ file file', k.files.get entry.file = some file ∧ k'.files.get entry.file = some file' ∧
        file'.object = file.object ∧ file'.flags = file.flags ∧ file'.offset = file.offset) := by
  obtain ⟨n, hexec⟩ := apiExec_gone hgone
  have ht' : (retainNode k (some n)).task t = some task := ht
  rw [hexec] at hk'
  have hnext : ∃ task', k'.task t = some task' ∧ Successor task task' argv envp := by
    rw [hk']
    exact successor_of_published ht'
  refine ⟨hnext, fun c hc => ?_, fun hr hc d entry hslot => ?_⟩
  · rw [hk']
    exact others_of_published ht' hc
  · -- the slot still counts, so the file is there, and closing changes no file but its count
    obtain ⟨l, hp⟩ := hr.poised
    have hend : Ends noNode k (.rest l) t (.rest l) (apiExec h k t programName argv envp) :=
      apiExec_ends h programName argv envp hp.base rfl hc
    have hfade : FilesFade k k' := by
      have hretain : FilesFade k (retainNode k (some n)) := .of_files rfl
      rw [hk']
      exact hretain.trans (filesFade_of_published ht')
    obtain ⟨fl, hb'⟩ : ∃ fl, Base k' fl :=
      base_of_published (r := apiExec h k t programName argv envp) hp.base hend hgone hexec hk'
    obtain ⟨task', htask', -⟩ := hnext
    rw [slot_eq htask'] at hslot
    obtain ⟨file', hfile'⟩ := hb'.books.slot_live htask' hslot
    obtain ⟨file, hfile, hsame⟩ := hfade _ _ hfile'
    exact ⟨file, file', hfile, hfile', hsame⟩

/-- The shell has a marked and an unmarked duplicate of its input, an open directory and an
allocation, and has written to its vectors. -/
def busyShell : Kernel :=
  stateAfter (shellStart ++ calls [.dup 0, .setCloexec 3 true, .dup 0, .opendir [slash], .allocate 8,
    .scribble [[1], [2]] [homeSetting] { LibcState.start with optind := 2, stdinEof := 1 }, .setErrno 9])

theorem exec_keeps_exactly_shell :
    ∃ task task', busyShell.task 0 = some task ∧
      (taskFinishExec .calm (apiExec .calm busyShell 0 shName [shName] none).1 0).task 0 = some task' ∧
      Successor task task' [shName] none ∧ task'.environment = [homeSetting] ∧
      (task.descriptors ⟨3, by decide⟩).isSome = true ∧ task'.descriptors ⟨3, by decide⟩ = none ∧
      (task'.descriptors ⟨4, by decide⟩).isSome = true := by
  have hlive : (busyShell.task 0).isSome = true := by decide +kernel
  have hgone : (apiExec .calm busyShell 0 shName [shName] none).2 = .gone := by decide +kernel
  have hslots : (busyShell.task 0).map
      (fun task => (task.descriptors ⟨3, by decide⟩, task.descriptors ⟨4, by decide⟩, task.environment)) =
        some (some ⟨0, true⟩, some ⟨0, false⟩, [homeSetting]) := by decide +kernel
  obtain ⟨task, ht⟩ := Option.isSome_iff_exists.mp hlive
  obtain ⟨⟨task', ht', hnext⟩, -⟩ := exec_keeps_exactly .calm .calm shName [shName] none ht hgone rfl
  rw [ht, Option.map_some, Option.some.injEq, Prod.mk.injEq, Prod.mk.injEq] at hslots
  obtain ⟨hmarked, hplain, henv⟩ := hslots
  refine ⟨task, task', ht, ht', hnext, hnext.environment.trans henv, ?_, ?_, ?_⟩
  · rw [hmarked]
    rfl
  · rw [hnext.descriptors, hmarked]
    rfl
  · rw [hnext.descriptors, hplain]
    rfl

end CannedBsd
