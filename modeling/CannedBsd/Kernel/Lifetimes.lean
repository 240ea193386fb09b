import CannedBsd.Kernel.Blocking

/-!
# The life of a task

`spawn`, `exec`, `exit` and `waitpid` as paths of elementary steps. Only `dir_close_all` may lose a
reference, so the lost ones are the same before and after when the task that ends or is replaced has
no look-ahead entry.

* `enlist_moves`: a new task comes onto the list.
* `apiExec_ends`, `taskFinishExec_moves`: `exec` and the replacement of the program.
* `apiExit_moves`: `exit`, with the look-ahead entries it loses.
* `apiWaitpid_ends`: `waitpid`, with the zombie it frees.
-/

namespace CannedBsd

open CannedBsd.Lib

variable {gone : NodeId → Prop} {k k' : Kernel} {fl : Flight} {t : TaskId}

theorem Flight.limbo_none (hl : fl.limbo = none) : { fl with limbo := none } = fl := by
  cases fl
  cases hl
  rfl

/-! ### Waiting -/

/-- `waitpid` frees a zombie. It has closed its handles, so nothing is lost. -/
theorem reap_moves {c : TaskId} {parent child : Task} (hb : Base k fl) (hl : fl.limbo = none)
    (hcur : k.current = some t) (ht : k.task t = some parent) (hppid : child.ppid = parent.pid) (hmem : c ∈ k.order)
    (hc : k.task c = some child) (hst : child.state = .zombie) :
    Moves gone k fl (reap (k.record (.reaped t c child.pid child.exitStatus)) c) fl ∧
      (reap (k.record (.reaped t c child.pid child.exitStatus)) c).current = k.current := by
  set r := k.record (.reaped t c child.pid child.exitStatus) with hr
  have hunlist : Moves gone k fl (unlist r c) { fl with limbo := some c } :=
    .single (.sched (.unlist hl hcur ht hppid hmem hc hst))
  have hdead : (unlist r c).task c = some { child with state := .dead } :=
    Kernel.task_setTask_self (k := { r with order := _, scheduleCursor := _ }) _ hc
  have hb₁ := hb.moves hunlist
  have hgive : Path gone (unlist r c) { fl with limbo := some c } (taskReleaseAllocations (unlist r c) c)
      { fl with limbo := some c } := taskReleaseAllocations_path _ _
  have hempty : (taskReleaseAllocations (unlist r c) c).task c = some { child with
      state := .dead, allocations := [], libc := { child.libc with inputStreams := none } } :=
    Kernel.task_setTask_self _ hdead
  have hu : Unparked (taskReleaseAllocations (unlist r c) c) c := ⟨_, hempty, .inl rfl⟩
  have hb₂ := hgive.base hb₁
  have hout : c ∉ (unlist r c).order := hb.roster.nodup.not_mem_erase
  obtain ⟨l, hclose, htidy, hslots, hdirs⟩ : ∃ l, Path gone (taskReleaseAllocations (unlist r c) c) _ _ _ ∧ _ :=
    closeAll_path hb₂ hu
  have hl' : l = fl.leaked := by
    refine htidy fun d huse => ?_
    rw [dir_eq hempty, (hb₂.orderly c _ hempty).handles rfl d] at huse
    cases huse
  subst hl'
  have hall := hgive.trans hclose
  obtain ⟨task, htask, -⟩ := hclose.steady.tasks hempty
  have heq : reap r c = taskRelease (dirCloseAll (fdCloseAll (taskReleaseAllocations (unlist r c) c) c) c) c := rfl
  rw [heq]
  have hfree : Moves gone (dirCloseAll (fdCloseAll (taskReleaseAllocations (unlist r c) c) c) c)
      { fl with limbo := some c }
      (taskRelease (dirCloseAll (fdCloseAll (taskReleaseAllocations (unlist r c) c) c) c) c)
      { fl with limbo := none } := by
    refine taskRelease_moves rfl ?_ ⟨task, htask⟩ hslots hdirs
    rw [hall.steady.order]
    exact hout
  rw [Flight.limbo_none hl] at hfree
  refine ⟨hunlist.trans (hall.moves.trans hfree), ?_⟩
  rw [current_taskRelease, hall.steady.current]
  rfl

theorem mem_childrenOf {parent : Task} {pid : ℤ} {c : TaskId} :
    c ∈ childrenOf k parent pid ↔ c ∈ k.order ∧ ∃ child, k.task c = some child ∧ isChild parent pid child = true := by
  rw [childrenOf, List.mem_filter, Option.any_eq_true]

theorem apiWaitpid_ends (pid : ℤ) (hb : Base k fl) (hl : fl.limbo = none) (hw : fl.writing = none)
    (hc : k.current = some t) : Ends gone k fl t fl (apiWaitpid k t pid) := by
  rw [apiWaitpid]
  split
  · exact ⟨.refl, hc⟩
  rename_i parent ht
  split
  · rename_i c hfind
    split
    · exact ⟨.refl, hc⟩
    rename_i child hchild
    obtain ⟨hmem, x, hx, his⟩ := mem_childrenOf.mp (List.mem_of_find?_eq_some hfind)
    rw [hchild, Option.some.injEq] at hx
    subst hx
    have hz : child.state = .zombie := by
      have hany := List.find?_some hfind
      rw [hchild] at hany
      simpa using hany
    have hppid : child.ppid = parent.pid := by
      rw [isChild, Bool.and_eq_true, decide_eq_true_eq] at his
      exact his.1
    obtain ⟨hmoves, hcur⟩ : Moves gone k fl (reap (k.record (.reaped t c child.pid child.exitStatus)) c) fl ∧ _ :=
      reap_moves hb hl hc ht hppid hmem hchild hz
    generalize reap (k.record (.reaped t c child.pid child.exitStatus)) c = k' at hmoves hcur ⊢
    exact ⟨hmoves, hcur.trans hc⟩
  · rename_i hnone
    split
    · exact ⟨.refl, hc⟩
    rename_i hchildren
    -- the parent notes what it waits for before it suspends
    have hrun := (hb.roster.current_task hc ht).2
    have hnote : Moves gone k fl (k.setTask t fun task => { task with waitingFor := pid }) fl := by
      refine .single (.sched (.calm (calm_setTask k t fun task htask => ?_)))
      exact ⟨rfl, rfl, rfl, .inl rfl, .inl rfl, .inr (hb.roster.current_task hc htask).2, rfl, rfl⟩
    refine .after hnote (block_ends hc hw rfl rfl (by simp) fun task' ht' => ?_)
    rw [Kernel.task_setTask_self _ ht, Option.some.injEq] at ht'
    subst ht'
    have hback : ∀ {c child'}, (k.setTask t fun task => { task with waitingFor := pid }).task c = some child' →
        ∃ child, k.task c = some child ∧ child'.pid = child.pid ∧ child'.ppid = child.ppid ∧
          child'.state = child.state := by
      intro c child' hc'
      rw [Kernel.task_setTask] at hc'
      split at hc'
      · obtain ⟨child, hk, rfl⟩ := Option.map_eq_some_iff.mp hc'
        exact ⟨child, hk, rfl, rfl, rfl⟩
      · exact ⟨child', hc', rfl, rfl, rfl⟩
    refine ⟨fun h => (by cases h), fun _ => ⟨?_, ?_⟩, fun h => (by cases h), fun _ =>
      ⟨fun p count h => (by cases h), fun p call buffer total h => (by cases h)⟩⟩
    · obtain ⟨c, hmem⟩ := List.exists_mem_of_ne_nil _ hchildren
      obtain ⟨horder, child, hk, his⟩ := mem_childrenOf.mp hmem
      refine ⟨c, horder, ?_⟩
      by_cases hct : c = t
      · subst hct
        rw [Kernel.task_setTask_self _ hk]
        exact ⟨_, rfl, his⟩
      · rw [Kernel.task_setTask_of_ne _ _ hct]
        exact ⟨child, hk, his⟩
    · intro c horder child' hk' his hz
      obtain ⟨child, hk, hpid, hppid, hstate⟩ := hback hk'
      have hisk : isChild parent pid child = true := by
        rw [← isChild_congr rfl hpid hppid]
        exact his
      have hno := List.find?_eq_none.mp hnone c (mem_childrenOf.mpr ⟨horder, child, hk, hisk⟩)
      rw [hk] at hno
      simp only [Option.any_some, decide_eq_true_eq] at hno
      exact hno (hstate.symm.trans hz)

/-! ### Spawning -/

/-- A new task gets its instance and its program file and comes onto the list. -/
theorem enlist_moves {c : TaskId} {parent : Option TaskId} {p : ProgramId} {ppid : ℕ} {n : NodeId}
    (hl : fl.limbo = none) (hn : Newborn k c (some p) ppid) (ho : c ∉ k.order) (hh : Houses k.vfs n p)
    (hf : ∀ task : Task, task.ppid = ppid → Fathers k parent task) :
    Moves gone k { fl.addNode (some n) with limbo := some c }
      ((enlist k parent c).setTask c fun task => { task with executableNode := some n }) fl := by
  obtain ⟨task, ht, hinfant⟩ := hn
  obtain ⟨ignored, hbadge⟩ := hinfant.badge
  have hnode : task.executableNode = none := congrArg Badge.executableNode hbadge
  set f : Task → Task := fun task => { task with execution := task.program } with hfdef
  set g : Task → Task := fun task => { task with executableNode := some n } with hgdef
  have hprogram : task.program = some p := congrArg Badge.program hbadge
  have ht₁ : (k.setTask c f).task c = some (f task) := Kernel.task_setTask_self f ht
  have ht₂ : ((k.setTask c f).setTask c g).task c = some (g (f task)) := Kernel.task_setTask_self g ht₁
  have hinstance : Moves gone k { fl.addNode (some n) with limbo := some c } (k.setTask c f)
      { fl.addNode (some n) with limbo := some c } := by
    refine .single (.hold ht ⟨fun _ => rfl, fun _ => rfl, rfl, rfl, rfl, rfl, rfl, rfl, rfl, rfl, rfl, .inl rfl,
      fun _ => .inl rfl, fun _ => .inl, .inl rfl, fun hfit => ?_, rfl⟩)
    exact ⟨hfit.program, hfit.pending, hfit.target, .inr rfl, hfit.waits, hfit.interrupt⟩
  have hexecutable : Moves gone (k.setTask c f) { fl.addNode (some n) with limbo := some c }
      ((k.setTask c f).setTask c g) { fl with limbo := some c } := by
    refine .single (.hold ht₁ ⟨fun x => ?_, fun _ => rfl, rfl, rfl, rfl, rfl, rfl, rfl, rfl, rfl, rfl, .inl rfl,
      fun _ => .inl rfl, fun _ => .inl, .inl rfl, fun hfit => ?_, rfl⟩)
    · simp only [hfdef, hgdef, taskHold, hnode, pointsTo_none, Flight.addNode_nodes]
      omega
    · obtain ⟨p, m, -, hm, -⟩ := hfit.program
      rw [show (f task).badge.executableNode = none from hnode] at hm
      cases hm
  have hfit : Fit ((k.setTask c f).setTask c g).vfs (g (f task)).badge (g (f task)).state := by
    have hpend : (g (f task)).badge.pendingProgram = none := congrArg Badge.pendingProgram hbadge
    have hint : (g (f task)).badge.interruptPending = false := congrArg Badge.interruptPending hbadge
    refine ⟨⟨p, n, hprogram, rfl, hh⟩, fun p hp => ?_, fun _ => congrArg Badge.pendingExecutableNode hbadge, .inr rfl,
      fun _ => hpend, fun hp => ?_⟩
    · rw [hpend] at hp
      cases hp
    · rw [hint] at hp
      cases hp
  have hfathers : Fathers ((k.setTask c f).setTask c g) parent (g (f task)) := by
    have hfather := hf (g (f task)) hinfant.ppid
    cases parent with
    | none => exact hfather
    | some p =>
      obtain ⟨hmem, x, hx, hppid⟩ := hfather
      have hne : p ≠ c := fun heq => ho (heq ▸ hmem)
      refine ⟨hmem, x, ?_, hppid⟩
      rw [Kernel.task_setTask_of_ne _ _ hne, Kernel.task_setTask_of_ne _ _ hne]
      exact hx
  have hlist : Moves gone ((k.setTask c f).setTask c g) { fl with limbo := some c }
      ({ (k.setTask c f).setTask c g with order := c :: k.order }.record (.spawned parent c (g (f task)).pid))
      { fl with limbo := none } :=
    .single (.sched (.list rfl ht₂ ho hinfant.state hinfant.frame hfit hfathers))
  have heq : (enlist k parent c).setTask c g =
      { (k.setTask c f).setTask c g with order := c :: k.order }.record (.spawned parent c (g (f task)).pid) := by
    rw [enlist]
    dsimp only
    rw [ht₁, Option.map_some, Option.getD_some]
    rfl
  rw [Flight.limbo_none hl] at hlist
  rw [heq]
  exact hinstance.trans (hexecutable.trans hlist)

/-- The program of an executable node stays with it until the new task takes the node over. -/
theorem houses_of_executableOf {n : NodeId} {p : ProgramId} (h : executableOf k n = some p) : Houses k.vfs n p := by
  obtain ⟨node, hn, hp⟩ := Option.bind_eq_some_iff.mp h
  exact ⟨node, hn, hp⟩

theorem apiSpawn_ends (h : Host) (programName : Bytes) (argv : List Bytes) (envp : Option (List Bytes))
    (actions : List SpawnAction) (hb : Base k fl) (hl : fl.limbo = none) (hc : k.current = some t) :
    Ends gone k fl t fl (apiSpawn h k t programName argv envp actions) := by
  rw [apiSpawn]
  split
  · exact ⟨.refl, hc⟩
  split
  · exact ⟨.refl, hc⟩
  split
  · exact ⟨.refl, hc⟩
  rename_i n hexec
  obtain ⟨node, hn, -⟩ := executableNode_rooted (hb.resolves (.of_current hb hc)) hexec
  have hretain : Path gone k fl (retainNode k (some n)) (fl.addNode (some n)) := retainNode_path hn
  have hb₁ := hretain.base hb
  have hcreate : Creates gone (retainNode k (some n)) (fl.addNode (some n)) (some t) (executableOf k n)
      (taskCreate h (retainNode k (some n)) (some t) (executableOf k n) argv envp actions) :=
    taskCreate_creates h (some t) (executableOf k n) argv envp actions hb₁ hl
  generalize taskCreate h (retainNode k (some n)) (some t) (executableOf k n) argv envp actions = r at hcreate ⊢
  cases hcreate with
  | @refused k' hmoves hstand =>
    exact ⟨hretain.moves.trans (hmoves.trans (releaseNode_path k' fl (some n)).moves), hstand.current.trans hc⟩
  | @ready k' child hmoves hstand ho hfresh hnew hprogram =>
    have hready := hretain.moves.trans hmoves
    obtain ⟨p, hp⟩ := Option.ne_none_iff_exists'.mp hprogram
    rw [hp] at hnew
    refine ⟨hready.trans (enlist_moves hl hnew ho ?_ fun task hppid => ?_), hstand.current.trans hc⟩
    · refine hb.houses hready ?_ (houses_of_executableOf hp)
      rw [Flight.addNode_nodes, pointsTo_self]
      omega
    · -- the parent is the running task, and its pid has not changed
      obtain ⟨hmem, -⟩ := (hb.moves hready).roster.current (hstand.current.trans hc)
      obtain ⟨-, parent, hparent, -⟩ := hb₁.roster.current hc
      obtain ⟨x, hx, hpid⟩ := hstand.tasks hparent
      refine ⟨hmem, x, hx, hppid.trans ?_⟩
      rw [Option.bind_some, hparent, hpid.pid]
      rfl

/-! ### Replacement -/

/-- An executable file has a program. -/
theorem executableOf_resolved {view : View} {programName : Bytes} {n : NodeId} (hs : Stocked k.vfs)
    (h : resolveExecutableNode k.vfs view programName = .ok n) : ∃ p, executableOf k n = some p := by
  obtain ⟨node, hn, htype⟩ := type_of_executableNode h
  obtain ⟨p, hp⟩ := hs.typed hn htype
  exact ⟨p, by rw [executableOf, hn, Option.bind_some, hp]⟩

theorem execTarget_ok {programName : Bytes} {argv : List Bytes} {n : NodeId}
    (h : execTarget k t programName argv = .ok n) :
    ∃ task, k.task t = some task ∧ resolveExecutableNode k.vfs (k.viewOf t) programName = .ok n := by
  rw [execTarget] at h
  split at h
  · cases h
  rename_i task ht
  split at h
  · cases h
  split at h
  · cases h
  split at h
  · cases h
  rename_i m hm
  split at h
  · cases h
  · cases h
    exact ⟨task, ht, hm⟩

/-- An interrupt that is pending when `exec` publishes the new program can be delivered to it. -/
theorem execRefusal_none {h : Host} {n : NodeId} {task : Task} (href : execRefusal h k t n = none)
    (ht : k.task t = some task) (hint : task.interruptPending = true) :
    supportsInterrupt k.vfs (executableOf k n) = true := by
  rw [execRefusal] at href
  split at href
  · cases href
  split at href
  · cases href
  rename_i hbar
  rw [ht, Option.any_some, execBarred, hint, Bool.true_or, Bool.true_and, Bool.not_eq_true,
    Bool.not_eq_false'] at hbar
  exact hbar

/-- The end of `exec`: first the task stops, then it takes the node, since only a task inside `exec`
has a pending one. -/
theorem execPublish_moves {h : Host} {n : NodeId} {p : ProgramId} (argv : List Bytes) (envp : Option (List Bytes))
    (hb : Base k (fl.addNode (some n))) (hw : fl.writing = none) (hc : k.current = some t)
    (href : execRefusal h k t n = none) (hp : executableOf k n = some p) :
    Moves gone k (fl.addNode (some n)) (execPublish k t n argv envp) fl := by
  obtain ⟨-, task, ht, hrun⟩ := hb.roster.current hc
  set f : Task → Task := fun task =>
    { task with
      pendingExecutableNode := some n
      pendingProgram := executableOf k n
      pendingArgv := argv
      pendingEnvironment := envp.getD task.environment } with hf
  set y : Task → Task := fun task =>
    { task with wakeReason := .none, state := .execPending, frame := .entry } with hy
  have hstop : Moves gone k (fl.addNode (some n))
      { cbTaskYieldAs k t .execPending .entry with finishing := some t } (fl.addNode (some n)) :=
    .single (.sched (.exec hc ht hw))
  have hnone : task.pendingExecutableNode = none := by
    refine (hb.orderly t task ht).pending ?_
    rw [hrun]
    decide
  have hhold : Moves gone { cbTaskYieldAs k t .execPending .entry with finishing := some t } (fl.addNode (some n))
      ({ cbTaskYieldAs k t .execPending .entry with finishing := some t }.setTask t f) fl := by
    refine .single (.hold (Kernel.task_setTask_self y ht) ⟨fun x => ?_, fun _ => rfl, rfl, rfl, rfl, rfl, rfl,
      rfl, rfl, rfl, rfl, .inl rfl, fun _ => .inl rfl, fun _ => .inl, .inr rfl, fun hfit => ?_, rfl⟩)
    · simp only [hf, hy, taskHold, hnone, pointsTo_none, Flight.addNode_nodes]
      omega
    · refine ⟨hfit.program, fun p hp => .inl ⟨n, rfl, houses_of_executableOf hp⟩, fun hnone => ?_, hfit.execution,
        fun hne => absurd rfl hne, fun hint hx => ?_⟩
      · rw [show (f (y task)).badge.pendingProgram = some p from hp] at hnone
        cases hnone
      · obtain ⟨hign, hsup, -⟩ := hfit.interrupt hint hx
        have hnew := execRefusal_none href ht hint
        exact ⟨hign, hsup, fun _ => hnew⟩
  have heq : execPublish k t n argv envp =
      { cbTaskYieldAs k t .execPending .entry with finishing := some t }.setTask t f := by
    simp only [execPublish, cbTaskYieldAs, Kernel.setTask, Heap.modify_modify]
    rfl
  rw [heq]
  exact hstop.trans hhold

/-- The running task, as `exec` leaves it for the scheduler. -/
theorem task_execPublish {task : Task} (n : NodeId) (argv : List Bytes) (envp : Option (List Bytes))
    (ht : k.task t = some task) : (execPublish k t n argv envp).task t = some
      { task with
        pendingExecutableNode := some n
        pendingProgram := executableOf k n
        pendingArgv := argv
        pendingEnvironment := envp.getD task.environment
        wakeReason := .none
        state := .execPending
        frame := .entry } :=
  Kernel.task_setTask_self _ (Kernel.task_setTask_self _ ht)

/-- `exec` suspends the task until the scheduler replaces its program. -/
theorem apiExec_ends (h : Host) (programName : Bytes) (argv : List Bytes) (envp : Option (List Bytes))
    (hb : Base k fl) (hw : fl.writing = none) (hc : k.current = some t) :
    Ends gone k fl t fl (apiExec h k t programName argv envp) := by
  rw [apiExec]
  split
  · exact ⟨.refl, hc⟩
  rename_i n htarget
  obtain ⟨task, ht, hexec⟩ := execTarget_ok htarget
  obtain ⟨node, hn, -⟩ := executableNode_rooted (hb.resolves (.of_current hb hc)) hexec
  have hretain : Path gone k fl (retainNode k (some n)) (fl.addNode (some n)) := retainNode_path hn
  have hb₁ := hretain.base hb
  dsimp only
  split
  · exact ⟨(hretain.trans (releaseNode_path _ fl (some n))).moves, hc⟩
  · rename_i href
    obtain ⟨p, hp⟩ := executableOf_resolved hb.stock hexec
    have hp' : executableOf (retainNode k (some n)) n = some p := by
      obtain ⟨node', hn', hx'⟩ := hb.houses hretain.moves (n := n) (by rw [Flight.addNode_nodes, pointsTo_self]; omega)
        (houses_of_executableOf hp)
      rw [executableOf, hn']
      exact hx'
    refine ⟨hretain.moves.trans (execPublish_moves argv envp hb₁ hw hc href hp'), ?_⟩
    intro c task' hfin htask
    cases hfin
    rw [task_execPublish (k := retainNode k (some n)) n argv envp ht, Option.some.injEq] at htask
    rw [← htask]
    exact Option.some_ne_none n

theorem destroyInstance_moves {task : Task} (ht : k.task t = some task) (hst : task.state = .execPending) :
    Moves gone k fl (destroyInstance k t) fl := by
  refine .single (.hold ht ⟨fun _ => rfl, fun _ => rfl, rfl, rfl, rfl, rfl, rfl, rfl, rfl, rfl, rfl, .inl rfl,
    fun _ => .inl rfl, fun _ => .inl, .inr hst, fun hfit => ?_, rfl⟩)
  exact ⟨hfit.program, hfit.pending, hfit.target, .inl rfl, hfit.waits, hfit.interrupt⟩

/-- `task_finish_exec` when the new program is in the place of the old one, whose node is not yet
released. -/
def replaced (k : Kernel) (t : TaskId) : Kernel :=
  k.setTask t fun task =>
    { task with
      program := task.pendingProgram
      argv := task.pendingArgv
      environment := task.pendingEnvironment
      executableNode := task.pendingExecutableNode
      pendingExecutableNode := none }

/-- `task_finish_exec` when nothing is left of the old program, before the new instance is created. -/
def forgotten (k : Kernel) (t : TaskId) : Kernel :=
  k.setTask t fun task =>
    { task with
      libc := { LibcState.start with inputStreams := task.libc.inputStreams }
      pendingProgram := none
      pendingArgv := []
      pendingEnvironment := []
      errorCell := 0 }

/-- `task_finish_exec` when the task has its new instance and is runnable. -/
def launched (h : Host) (k : Kernel) (t : TaskId) : Kernel :=
  restart k t
    (fun task =>
      { task with
        execution := if h.allocate .execution then task.program else none
        state := .runnable
        frame := .entry })
    (if ((k.task t).bind Task.program) = none ∨ h.allocate .execution = false then some .execution else k.fatal)

theorem installProgram_eq {task : Task} (ht : k.task t = some task) :
    installProgram k t = releaseNode (replaced k t) task.executableNode := by
  rw [installProgram, ht]
  rfl

theorem startInstance_eq {task : Task} (h : Host) (ht : k.task t = some task) :
    startInstance h k t = launched h (forgotten k t) t := by
  have ht' : (forgotten k t).task t = _ := Kernel.task_setTask_self _ ht
  rw [startInstance, ht, launched, ht', Option.bind_some]
  simp only [restart, forgotten, Kernel.setTask, Heap.modify_modify]
  rfl

theorem replaced_moves {task : Task} (ht : k.task t = some task) (hst : task.state = .execPending)
    (hx : task.execution = none) (hnode : task.pendingExecutableNode ≠ none) :
    Moves gone k fl (replaced k t) (fl.addNode task.executableNode) := by
  refine .single (.hold ht ⟨fun x => ?_, fun _ => rfl, rfl, rfl, rfl, rfl, rfl, rfl, rfl, rfl, rfl, .inl rfl,
    fun _ => .inl rfl, fun _ => .inl, .inr hst, fun hfit => ?_, rfl⟩)
  · simp only [taskHold, pointsTo_none, Flight.addNode_nodes]
    omega
  · have hpend : task.pendingProgram ≠ none := fun hnone => hnode (hfit.target hnone)
    obtain ⟨p, hp⟩ := Option.ne_none_iff_exists'.mp hpend
    rcases hfit.pending p hp with ⟨n, hn, hh⟩ | ⟨hnone, -⟩
    · refine ⟨⟨p, n, hp, hn, hh⟩, fun q hq => .inr ⟨rfl, hq⟩, fun _ => rfl, .inl hx, hfit.waits, fun hint hx => ?_⟩
      obtain ⟨hign, -, hsup⟩ := hfit.interrupt hint hx
      exact ⟨hign, hsup hpend, hsup⟩
    · exact absurd hnone hnode

theorem forgotten_moves {task : Task} (ht : k.task t = some task) (hst : task.state = .execPending)
    (hnode : task.pendingExecutableNode = none) : Moves gone k fl (forgotten k t) fl := by
  refine .single (.hold ht ⟨fun _ => rfl, fun _ => rfl, rfl, rfl, rfl, rfl, rfl, rfl, rfl, rfl, rfl, .inl rfl,
    fun _ => .inl rfl, fun _ => .inl, .inr hst, fun hfit => ?_, rfl⟩)
  refine ⟨hfit.program, fun p hp => (by cases hp), fun _ => hnode, hfit.execution, fun _ => rfl, fun hint hx => ?_⟩
  obtain ⟨hign, hsup, -⟩ := hfit.interrupt hint hx
  exact ⟨hign, hsup, fun hne => absurd rfl hne⟩

theorem launched_moves {task : Task} (h : Host) (hfin : k.finishing = some t) (ht : k.task t = some task)
    (hst : task.state = .execPending) (hp : task.pendingProgram = none) (hnode : task.pendingExecutableNode = none) :
    Moves gone k fl (launched h k t) fl := by
  refine .single (.sched (.restart hfin ht rfl rfl rfl hnode rfl rfl (fun hfit => ?_) rfl))
  refine ⟨hfit.program, hfit.pending, hfit.target, ?_, fun _ => hp, fun hint _ => hfit.interrupt hint ?_⟩
  · by_cases ha : h.allocate .execution = true
    · exact .inr (if_pos ha)
    · exact .inl (if_neg ha)
  · rw [hst]
    rfl

/-- `task_finish_exec` when descriptors and handles are closed: the new program takes the place of the
old one, whose node is then released, and the task starts again. -/
theorem startInstance_moves {task : Task} (h : Host) (hfin : k.finishing = some t) (ht : k.task t = some task)
    (hst : task.state = .execPending) (hx : task.execution = none) (hnode : task.pendingExecutableNode ≠ none) :
    Moves gone k fl (startInstance h (installProgram k t) t) fl := by
  have hreplace : Moves gone k fl (replaced k t) (fl.addNode task.executableNode) := replaced_moves ht hst hx hnode
  have hrelease : Moves gone (replaced k t) (fl.addNode task.executableNode)
      (releaseNode (replaced k t) task.executableNode) fl := (releaseNode_path _ fl task.executableNode).moves
  have ht₁ : (releaseNode (replaced k t) task.executableNode).task t = _ := Kernel.task_setTask_self _ ht
  have ht₂ : (forgotten (releaseNode (replaced k t) task.executableNode) t).task t = _ :=
    Kernel.task_setTask_self _ ht₁
  have hforget : Moves gone (releaseNode (replaced k t) task.executableNode) fl
      (forgotten (releaseNode (replaced k t) task.executableNode) t) fl := forgotten_moves ht₁ hst rfl
  rw [installProgram_eq ht, startInstance_eq h ht₁]
  exact hreplace.trans (hrelease.trans (hforget.trans (launched_moves h hfin ht₂ hst rfl rfl)))

theorem finishing_startInstance {task : Task} (h : Host) (ht : k.task t = some task) :
    (startInstance h (installProgram k t) t).finishing = none := by
  have ht₁ : (installProgram k t).task t = _ :=
    (congrArg (fun k => Kernel.task k t) (installProgram_eq ht)).trans (Kernel.task_setTask_self _ ht)
  rw [startInstance_eq h ht₁]
  rfl

/-- `task_finish_exec` when the old instance and the allocations are gone. -/
def bared (k : Kernel) (t : TaskId) : Kernel := taskReleaseAllocations (destroyInstance k t) t

/-- `task_finish_exec` when the marked descriptors are closed too. -/
def shut (k : Kernel) (t : TaskId) : Kernel := fdCloseWhere FdEntry.closeOnExec (bared k t) t

/-- `task_finish_exec` when the directory handles are closed too. -/
def cleared (k : Kernel) (t : TaskId) : Kernel := dirCloseAll (shut k t) t

theorem taskFinishExec_eq (h : Host) (k : Kernel) (t : TaskId) :
    taskFinishExec h k t = startInstance h (installProgram (cleared k t) t) t := by
  rw [taskFinishExec, cleared, shut, bared]

theorem task_bared {task : Task} (ht : k.task t = some task) :
    (bared k t).task t = some
      { task with execution := none, allocations := [], libc := { task.libc with inputStreams := none } } :=
  Kernel.task_setTask_self _ (Kernel.task_setTask_self _ ht)

theorem bared_moves (hb : Base k fl) (hfin : k.finishing = some t) :
    Moves gone k fl (bared k t) fl ∧ Unparked (bared k t) t := by
  obtain ⟨-, task, ht, hexec⟩ := hb.roster.finishing hfin
  have hdestroy : Moves gone k fl (destroyInstance k t) fl := destroyInstance_moves ht hexec
  have hgive : Path gone (destroyInstance k t) fl (bared k t) fl := taskReleaseAllocations_path _ _
  refine ⟨hdestroy.trans hgive.moves, _, task_bared ht, .inl ?_⟩
  show suspended task.state = false
  rw [hexec]
  rfl

theorem shut_path (hb : Base k fl) (hfin : k.finishing = some t) : Path gone (bared k t) fl (shut k t) fl := by
  obtain ⟨hm, hu⟩ : Moves gone k fl (bared k t) fl ∧ _ := bared_moves hb hfin
  exact fdCloseWhere_path _ (hb.moves hm) hu

/-- The look-ahead entries of the open handles are lost. -/
theorem cleared_path (hb : Base k fl) (hfin : k.finishing = some t) :
    ∃ l, Path gone (shut k t) fl (cleared k t) { fl with leaked := l } ∧ (Tidy k t → l = fl.leaked) := by
  obtain ⟨-, hu⟩ : Moves gone k fl (bared k t) fl ∧ _ := bared_moves hb hfin
  have hshut : Path gone (bared k t) fl (shut k t) fl := shut_path hb hfin
  obtain ⟨l, hdirs, htidy, -⟩ : ∃ l, Path gone (shut k t) fl (dirCloseAll (shut k t) t) _ ∧ _ :=
    dirCloseAll_path (hu.steady hshut.steady)
  refine ⟨l, hdirs, fun ht => htidy fun d => ?_⟩
  rw [shut, dir_fdCloseWhere, bared, dir_taskReleaseAllocations, dir_destroyInstance]
  exact ht d

/-- **Replacement.**  `task_finish_exec` loses the look-ahead entries of the open handles. -/
theorem taskFinishExec_moves (h : Host) (hb : Base k fl) (hp : Pledged k) (hfin : k.finishing = some t) :
    ∃ l, Moves gone k fl (taskFinishExec h k t) { fl with leaked := l } ∧ (taskFinishExec h k t).finishing = none ∧
      (Tidy k t → l = fl.leaked) := by
  obtain ⟨-, old, hold, hexec⟩ := hb.roster.finishing hfin
  obtain ⟨hbare, -⟩ : Moves gone k fl (bared k t) fl ∧ _ := bared_moves hb hfin
  obtain ⟨l, hdirs, htidy⟩ : ∃ l, Path gone (shut k t) fl (cleared k t) _ ∧ _ := cleared_path hb hfin
  have hclose := (shut_path hb hfin).trans hdirs
  have hfin₁ : (cleared k t).finishing = some t := hclose.steady.finishing.trans hfin
  obtain ⟨-, task, ht, hst⟩ := (hclose.base (hb.moves hbare)).roster.finishing hfin₁
  rw [taskFinishExec_eq]
  refine ⟨l, ?_, finishing_startInstance h ht, htidy⟩
  obtain ⟨x, hx, hstand⟩ := hclose.steady.tasks (task_bared hold)
  rw [ht, Option.some.injEq] at hx
  subst hx
  have hnode : task.pendingExecutableNode ≠ none := by
    rw [show task.pendingExecutableNode = old.pendingExecutableNode from
      congrArg Badge.pendingExecutableNode hstand.badge]
    exact hp t old hfin hold
  have hinstance : task.execution = none := congrArg Badge.execution hstand.badge
  exact hbare.trans (hclose.moves.trans (startInstance_moves h hfin₁ ht hst hinstance hnode))

/-! ### Termination -/

theorem apiExit_eq (k : Kernel) (t : TaskId) (status : ℤ) :
    apiExit k t status =
      match (dirCloseAll (fdCloseAll (taskReleaseAllocations k t) t) t).task t with
      | none => dirCloseAll (fdCloseAll (taskReleaseAllocations k t) t) t
      | some task => leave (dirCloseAll (fdCloseAll (taskReleaseAllocations k t) t) t) t task status := by
  unfold apiExit
  generalize dirCloseAll (fdCloseAll (taskReleaseAllocations k t) t) t = k₁
  rfl

theorem finishing_leave (k : Kernel) (t : TaskId) (task : Task) (status : ℤ) :
    (leave k t task status).finishing = k.finishing := by
  obtain ⟨finished, bootStatus, heq⟩ := retire_eq k t task status
  rw [leave, heq]
  exact (Roster.resting_wakeWaitingParent _ task).finishing

/-- `exit` loses the look-ahead entries of the open handles. -/
theorem apiExit_moves (status : ℤ) (hb : Base k fl) (hc : k.current = some t) :
    ∃ l, Moves gone k fl (apiExit k t status) { fl with leaked := l, writing := none } ∧
      (Tidy k t → l = fl.leaked) ∧ (apiExit k t status).finishing = none := by
  have hgive : Path gone k fl (taskReleaseAllocations k t) fl := taskReleaseAllocations_path k t
  have hb₁ := hgive.base hb
  have hc₁ := hgive.steady.current.trans hc
  obtain ⟨l, hclose, htidy, -, hdirs⟩ : ∃ l, Path gone (taskReleaseAllocations k t) fl _ _ ∧ _ :=
    closeAll_path hb₁ (.of_current hb₁ hc₁)
  have hc₂ := hclose.steady.current.trans hc₁
  obtain ⟨-, task, ht, -⟩ := (hclose.base hb₁).roster.current hc₂
  rw [apiExit_eq, ht]
  refine ⟨l, ?_, fun htask => htidy fun d => ?_, ?_⟩
  · refine hgive.moves.trans (hclose.moves.trans (.single (.sched (.leave hc₂ ht fun d => ?_))))
    rw [← dir_eq ht]
    exact hdirs d
  · rw [dir_taskReleaseAllocations]
    exact htask d
  · exact (finishing_leave _ t task status).trans ((hclose.base hb₁).not_finishing hc₂)

end CannedBsd
