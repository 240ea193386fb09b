import CannedBsd.Kernel.Views
import CannedBsd.Kernel.Table

/-!
# Process state is private

All tasks live in one address space. The private state of a task is a view of the kernel that no call
of another task can reach.

* `beyond_stillOf`: no call on behalf of another task reaches the private state.
* `process_state_private`: a call leaves every other task as it was, apart from scheduling; a `waitpid`
  removes the child it returns.
-/

namespace CannedBsd

open CannedBsd.Lib

/-! ### The views -/

/-- A task without its scheduling state and its wake reason. -/
def Task.still (task : Task) : Task := { task with state := .runnable, wakeReason := .none }

/-- The private state of a task. -/
def stillOf (b : TaskId) (k : Kernel) : Option Task := (k.task b).map Task.still

theorem still_wakePipeTask (task : Task) : (wakePipeTask task).still = task.still := by
  rw [wakePipeTask]
  split
  · rfl
  split <;> rfl

theorem stillOf_wakeWaitingParent (b : TaskId) (k : Kernel) (child : Task) :
    stillOf b (wakeWaitingParent k child) = stillOf b k := by
  rw [wakeWaitingParent]
  split
  · rfl
  · exact field_setTask Task.still k _ b fun _ => rfl

/-- No call on behalf of another task reaches the private state of a task. -/
theorem beyond_stillOf {b c : TaskId} (hne : b ≠ c) : Beyond c (stillOf b) where
  toAloof := aloof_field Task.still still_wakePipeTask b
  setSpare k f _ := congrArg (Option.map Task.still) (Kernel.task_setTask_of_ne k f hne)
  setTask k f := congrArg (Option.map Task.still) (Kernel.task_setTask_of_ne k f hne)
  parent := stillOf_wakeWaitingParent b
  current _ _ := rfl
  finishing _ _ _ := rfl
  calls _ _ := rfl
  alloc k task hnext := by
    have hfresh : b ≠ k.tasks.next := hnext ▸ hne
    exact congrArg (Option.map Task.still) (Heap.get_alloc_of_ne k.tasks task hfresh)
  free k := by
    refine congrArg (Option.map Task.still) ?_
    rw [Kernel.task, Heap.get_free, if_neg hne]
    rfl
  nextPid _ _ := rfl
  heap _ _ := rfl
  boot _ _ _ _ := rfl

/-- Neither does it reach the list of tasks and the cursor of the scheduler. -/
theorem beyond_order (c : TaskId) : Beyond c Kernel.order where
  vfs _ _ := rfl
  files _ _ := rfl
  pipes _ _ := rfl
  trace _ _ := rfl
  wake _ := rfl
  setSpare _ _ _ := rfl
  setTask _ _ := rfl
  parent k child := by
    rw [wakeWaitingParent]
    split <;> rfl
  current _ _ := rfl
  finishing _ _ _ := rfl
  calls _ _ := rfl
  alloc _ _ _ := rfl
  free _ := rfl
  nextPid _ _ := rfl
  heap _ _ := rfl
  boot _ _ _ _ := rfl

theorem beyond_scheduleCursor (c : TaskId) : Beyond c Kernel.scheduleCursor where
  vfs _ _ := rfl
  files _ _ := rfl
  pipes _ _ := rfl
  trace _ _ := rfl
  wake _ := rfl
  setSpare _ _ _ := rfl
  setTask _ _ := rfl
  parent k child := by
    rw [wakeWaitingParent]
    split <;> rfl
  current _ _ := rfl
  finishing _ _ _ := rfl
  calls _ _ := rfl
  alloc _ _ _ := rfl
  free _ := rfl
  nextPid _ _ := rfl
  heap _ _ := rfl
  boot _ _ _ _ := rfl

/-! ### Waiting -/

/-- What a round of `api_waitpid` does to the kernel. -/
inductive WaitRound (k : Kernel) (t : TaskId) (pid : ℤ) : Kernel × Outcome → Prop
  | kept (o : Outcome) : WaitRound k t pid (k, o)
  | noted (o : Outcome) : WaitRound k t pid (k.setTask t fun task => { task with waitingFor := pid }, o)
  | reaped {parent child : Task} {c : TaskId} : k.task t = some parent → c ∈ k.order → k.task c = some child →
      child.ppid = parent.pid → child.state = .zombie →
      WaitRound k t pid (reap (k.record (.reaped t c child.pid child.exitStatus)) c,
        .done (.done child.pid) (.status child.exitStatus))

theorem apiWaitpid_round (k : Kernel) (t : TaskId) (pid : ℤ) : WaitRound k t pid (apiWaitpid k t pid) := by
  rw [apiWaitpid]
  split
  · exact .kept _
  rename_i parent ht
  split
  · rename_i c hfind
    split
    · exact .kept _
    rename_i child hchild
    obtain ⟨hmem, x, hx, his⟩ := mem_childrenOf.mp (List.mem_of_find?_eq_some hfind)
    rw [hchild, Option.some.injEq] at hx
    subst hx
    have hzombie : child.state = .zombie := by
      have hany := List.find?_some hfind
      rw [hchild] at hany
      simpa using hany
    have hppid : child.ppid = parent.pid := by
      rw [isChild, Bool.and_eq_true] at his
      exact of_decide_eq_true his.1
    exact .reaped ht hmem hchild hppid hzombie
  split
  · exact .kept _
  · exact .noted _

/-- Reaping a task does not reach the others. -/
theorem stillOf_reap {b c : TaskId} (hne : b ≠ c) (k : Kernel) : stillOf b (reap k c) = stillOf b k :=
  (beyond_stillOf hne).reap (fun _ _ _ => rfl) k

theorem task_reap_self (k : Kernel) (c : TaskId) : (reap k c).task c = none := by
  rw [reap, taskDestroy]
  generalize dirCloseAll _ c = k₁
  rw [taskRelease]
  split
  · assumption
  · exact Heap.get_free_self _ _

/-! ### Calls -/

/-- The task is still there with its private state. -/
def Untouched (b : TaskId) (k k' : Kernel) : Prop :=
  ∃ task task', k.task b = some task ∧ k'.task b = some task' ∧ task'.still = task.still

/-- The task was an unreaped child of `t` and is gone. -/
def Collected (t b : TaskId) (k k' : Kernel) : Prop :=
  ∃ parent task, k.task t = some parent ∧ k.task b = some task ∧ task.ppid = parent.pid ∧ task.state = .zombie ∧
    k'.task b = none

/-- All tasks but `t` are untouched, except for one that may be collected. -/
def LeavesOthers (t : TaskId) (k k' : Kernel) (collected : Option TaskId) : Prop :=
  ∀ b task, b ≠ t → k.task b = some task →
    (collected = some b → Collected t b k k') ∧ (collected ≠ some b → Untouched b k k')

theorem untouched_of_stillOf {b : TaskId} {k k' : Kernel} {task : Task} (hb : k.task b = some task)
    (h : stillOf b k' = stillOf b k) : Untouched b k k' := by
  rw [stillOf, stillOf, hb, Option.map_some] at h
  obtain ⟨task', ht', heq⟩ := Option.map_eq_some_iff.mp h
  exact ⟨task, task', hb, ht', heq⟩

theorem leavesOthers_of_stillOf {t : TaskId} {k k' : Kernel}
    (h : ∀ b task, b ≠ t → k.task b = some task → stillOf b k' = stillOf b k) : LeavesOthers t k k' none := by
  intro b task hne hb
  refine ⟨fun hc => ?_, fun _ => untouched_of_stillOf hb (h b task hne hb)⟩
  cases hc

theorem LeavesOthers.deliver {t : TaskId} {k : Kernel} {r : Kernel × Outcome} {collected : Option TaskId}
    (h : LeavesOthers t k r.1 collected) : LeavesOthers t k (deliver t r) collected := by
  intro b task hne hb
  have hdeliver := (beyond_stillOf hne).deliver r
  refine ⟨fun hc => ?_, fun hc => ?_⟩
  · obtain ⟨parent, child, hparent, hchild, hppid, hzombie, hgone⟩ := (h b task hne hb).1 hc
    rw [stillOf, stillOf, hgone, Option.map_none] at hdeliver
    exact ⟨parent, child, hparent, hchild, hppid, hzombie, Option.map_eq_none_iff.mp hdeliver⟩
  · obtain ⟨x, x', hx, hx', hstill⟩ := (h b task hne hb).2 hc
    refine untouched_of_stillOf hb ?_
    rw [hdeliver, stillOf, stillOf, hx, hx', Option.map_some, Option.map_some, hstill]

theorem stillOf_apiSpawn {b t : TaskId} {k : Kernel} {task : Task} (hb : k.task b = some task) (h : Host)
    (programName : Bytes) (argv : List Bytes) (envp : Option (List Bytes)) (actions : List SpawnAction) :
    stillOf b (apiSpawn h k t programName argv envp actions).1 = stillOf b k := by
  have hne : b ≠ k.tasks.next := Nat.ne_of_lt (Heap.lt_next_of_get hb)
  exact (beyond_stillOf hne).apiSpawn (fun _ _ _ _ _ => rfl) h t programName argv envp actions

/-- A `waitpid` leaves the other tasks alone but for the child it returns. -/
theorem apiWaitpid_others (k : Kernel) (t : TaskId) (pid : ℤ) :
    ∃ collected, LeavesOthers t k (apiWaitpid k t pid).1 collected ∧ ∀ c, collected = some c →
      ∃ child, k.task c = some child ∧ (apiWaitpid k t pid).2 = .done (.done child.pid) (.status child.exitStatus) := by
  have hround := apiWaitpid_round k t pid
  generalize apiWaitpid k t pid = r at hround
  cases hround with
  | kept o =>
    refine ⟨none, leavesOthers_of_stillOf fun b task hne hb => rfl, fun c hc => ?_⟩
    cases hc
  | noted o =>
    refine ⟨none, leavesOthers_of_stillOf fun b task hne hb => (beyond_stillOf hne).setTask k _, fun c hc => ?_⟩
    cases hc
  | @reaped parent child c ht hmem hchild hppid hzombie =>
    have hothers : ∀ b, b ≠ c → stillOf b (reap (k.record (.reaped t c child.pid child.exitStatus)) c) = stillOf b k :=
      fun b hbc => stillOf_reap hbc (k.record (.reaped t c child.pid child.exitStatus))
    have hgone := task_reap_self (k.record (.reaped t c child.pid child.exitStatus)) c
    dsimp only
    generalize reap (k.record (.reaped t c child.pid child.exitStatus)) c = k' at hothers hgone ⊢
    refine ⟨some c, fun b task hne hb => ⟨fun hc => ?_, fun hc => ?_⟩, fun d hd => ?_⟩
    · cases hc
      exact ⟨parent, child, ht, hchild, hppid, hzombie, hgone⟩
    · refine untouched_of_stillOf hb (hothers b ?_)
      rintro rfl
      exact hc rfl
    · cases hd
      exact ⟨child, hchild, rfl⟩

/-- A call other than `waitpid` does not touch the other tasks. -/
theorem stillOf_performTable {b t : TaskId} {k : Kernel} {task : Task} (hne : b ≠ t) (hb : k.task b = some task)
    (h : Host) {call : TableCall} (hcall : ∀ pid, call ≠ .op (.waitpid pid)) :
    stillOf b (performTable h k t call).1 = stillOf b k := by
  have hv := beyond_stillOf hne
  cases call with
  | op op =>
    rw [performTable]
    cases hop : op.solitary with
    | true => exact hv.perform h k hop
    | false =>
      cases op with
      | spawn programName argv envp actions => exact stillOf_apiSpawn hb h programName argv envp actions
      | exec programName argv envp => exact hv.apiExec h k programName argv envp
      | exit status =>
        dsimp only [CannedBsd.perform]
        exact hv.apiExit k status
      | waitpid pid => exact absurd rfl (hcall pid)
      | _ => cases hop
  | setenv name value overwrite =>
    rw [performTable, apiSetenv.eq_def]
    split
    · split
      · rfl
      split
      · rfl
      dsimp only
      split
      · rfl
      split
      · rfl
      split
      · exact hv.setTask k _
      split
      · rfl
      · exact hv.setTask k _
    · rfl
  | unsetenv name =>
    rw [performTable, apiUnsetenv]
    split
    · rfl
    · exact hv.setTask k _
  | getenv | getErrno | tcgetattr | tcsetattr | location => rfl

/-! ### Rounds of the scheduler -/

/-- What the loops of the scheduler over the tasks leave alone. -/
def Task.settled (task : Task) : Task × Bool := (task.still, decide (task.state = .zombie))

theorem settled_wakeConsoleTask (task : Task) : (wakeConsoleTask task).settled = task.settled := by
  rw [wakeConsoleTask]
  split
  · rename_i hstate
    simp [Task.settled, Task.still, hstate]
  split
  · rename_i hstate
    simp [Task.settled, Task.still, hstate]
  · rfl

theorem settled_wakeExpired (current : ℕ) (task : Task) : (wakeExpired current task).settled = task.settled := by
  rw [wakeExpired]
  split
  · rename_i hstate
    simp [Task.settled, Task.still, hstate.1]
  · rfl

theorem settled_wakePollTask (task : Task) : (wakePollTask task).settled = task.settled := by
  rw [wakePollTask]
  split
  · rename_i hstate
    simp [Task.settled, Task.still, hstate]
  · rfl

theorem settled_forTasks {f : Task → Task} (hf : ∀ task, (f task).settled = task.settled) (b : TaskId) (k : Kernel) :
    ((forTasks k f).task b).map Task.settled = (k.task b).map Task.settled := by
  rw [forTasks, Kernel.task, Heap.get_map, Option.map_map]
  refine congrArg (fun g => (k.task b).map g) (funext fun task => ?_)
  show (if b ∈ k.order then f task else task).settled = task.settled
  split
  · exact hf task
  · rfl

theorem settled_roused (h : Host) (b : TaskId) (k : Kernel) :
    ((roused h k).task b).map Task.settled = (k.task b).map Task.settled := by
  rw [roused, settled_forTasks (settled_wakeExpired _)]
  split
  · exact settled_forTasks settled_wakeConsoleTask b k
  · rfl

theorem settled_idleRound (h : Host) (b : TaskId) (k : Kernel) :
    ((idleRound h k).task b).map Task.settled = (k.task b).map Task.settled := by
  rw [idleRound]
  split
  · rw [settled_forTasks settled_wakePollTask]
    split
    · exact settled_forTasks settled_wakeConsoleTask b k
    · rfl
  split <;> rfl

/-- A call that goes on after its task was suspended leaves the other tasks alone; only a `waitpid`
collects one. -/
theorem resume_others (h : Host) (k : Kernel) (t : TaskId) :
    ∃ collected, LeavesOthers t k (resume h k t) collected ∧ (collected ≠ none →
      ∃ runner pid, k.task t = some runner ∧ runner.frame = .waitpid pid) := by
  have hkept : ∀ {k'}, (∀ b, b ≠ t → stillOf b k' = stillOf b k) → ∃ collected, LeavesOthers t k k' collected ∧
      (collected ≠ none → ∃ runner pid, k.task t = some runner ∧ runner.frame = .waitpid pid) :=
    fun h => ⟨none, leavesOthers_of_stillOf fun b _ hne _ => h b hne, fun hne => absurd rfl hne⟩
  rw [resume]
  split
  · exact hkept fun b _ => rfl
  rename_i runner ht
  split
  · refine hkept fun b hne => ?_
    rw [(beyond_stillOf hne).apiExit, (beyond_stillOf hne).setTask]
  split
  · exact hkept fun b hne => (beyond_stillOf hne).setTask k _
  · exact hkept fun b _ => rfl
  · exact hkept fun b hne => ((beyond_stillOf hne).deliver _).trans ((beyond_stillOf hne).pipeRead k _ _)
  · exact hkept fun b hne => ((beyond_stillOf hne).deliver _).trans ((beyond_stillOf hne).pipeWriteLoop _ _ _ _ _ _)
  · refine hkept fun b hne => ((beyond_stillOf hne).deliver _).trans ?_
    rw [consoleRead_kernel]
  · rename_i pid hframe
    obtain ⟨collected, hothers, -⟩ := apiWaitpid_others k t pid
    exact ⟨collected, hothers.deliver, fun _ => ⟨runner, pid, ht, hframe⟩⟩
  · refine hkept fun b hne => ((beyond_stillOf hne).deliver _).trans ?_
    rw [pollLoop_kernel]

/-- A round of the scheduler that dispatches a task leaves the other tasks alone. -/
theorem scheduleRound_others {h : Host} {k : Kernel} {t : TaskId} (hpick : pickRunnable (roused h k) = some t) :
    ∃ collected, LeavesOthers t k (scheduleRound h k) collected ∧ (collected ≠ none →
      ∃ runner pid, k.task t = some runner ∧ runner.frame = .waitpid pid) := by
  -- a task behind the loops of the scheduler is settled as it was before them
  have hback : ∀ {c x}, (roused h k).task c = some x → ∃ y, k.task c = some y ∧ x.settled = y.settled := by
    intro c x hx
    have hset := settled_roused h c k
    rw [hx, Option.map_some] at hset
    obtain ⟨y, hy, heq⟩ := Option.map_eq_some_iff.mp hset.symm
    exact ⟨y, hy, heq.symm⟩
  have hself : (dispatch (roused h k) t).task t = ((roused h k).task t).map fun y => { y with state := .running } :=
    Heap.get_modify_self _ _ _
  obtain ⟨collected, hothers, hframe⟩ := resume_others h (dispatch (roused h k) t) t
  rw [scheduleRound_eq, hpick]
  dsimp only
  generalize resume h (dispatch (roused h k) t) t = k' at hothers ⊢
  refine ⟨collected, fun b task hne hb => ?_, fun hc => ?_⟩
  · have hset := settled_roused h b k
    rw [hb, Option.map_some] at hset
    obtain ⟨x, hx, hxset⟩ := Option.map_eq_some_iff.mp hset
    have hstill : x.still = task.still := congrArg Prod.fst hxset
    have hx₁ : (dispatch (roused h k) t).task b = some x := (Kernel.task_setTask_of_ne _ _ hne).trans hx
    refine ⟨fun hc => ?_, fun hc => ?_⟩
    · obtain ⟨parent, child, hparent, hchild, hppid, hzombie, hgone⟩ := (hothers b x hne hx₁).1 hc
      rw [hx₁, Option.some.injEq] at hchild
      subst hchild
      rw [hself] at hparent
      obtain ⟨y, hy, rfl⟩ := Option.map_eq_some_iff.mp hparent
      obtain ⟨z, hz, hyz⟩ := hback hy
      have hpid : y.pid = z.pid := (congrArg (fun s : Task × Bool => s.1.pid) hyz :)
      have hchildppid : x.ppid = task.ppid := (congrArg Task.ppid hstill :)
      have hflag : decide (x.state = .zombie) = decide (task.state = .zombie) := congrArg Prod.snd hxset
      rw [decide_eq_true hzombie] at hflag
      exact ⟨z, task, hz, hb, (hchildppid.symm.trans hppid).trans hpid, of_decide_eq_true hflag.symm, hgone⟩
    · obtain ⟨y, y', hy, hy', heq⟩ := (hothers b x hne hx₁).2 hc
      rw [hx₁, Option.some.injEq] at hy
      subst hy
      exact ⟨task, y', hb, hy', heq.trans hstill⟩
  · obtain ⟨runner, pid, hrunner, hwait⟩ := hframe hc
    rw [hself] at hrunner
    obtain ⟨y, hy, rfl⟩ := Option.map_eq_some_iff.mp hrunner
    obtain ⟨z, hz, hyz⟩ := hback hy
    have hsame : y.frame = z.frame := (congrArg (fun s : Task × Bool => s.1.frame) hyz :)
    exact ⟨z, pid, hz, hsame.symm.trans hwait⟩

/-- **Process state is private.**  A call of any entry of the table leaves every other task as it was,
apart from scheduling state and wake reason; so does a call that goes on after other tasks ran, and
the end of an `exec`. Only a `waitpid` that returns a child takes a task away, and it takes that child. -/
theorem process_state_private (k : Kernel) (t : TaskId) (h : Host) :
    (∀ call, ∃ collected, LeavesOthers t k (deliver t (performTable h k t call)) collected ∧ ∀ c, collected = some c →
      ∃ pid child, call = .op (.waitpid pid) ∧ k.task c = some child ∧
        (performTable h k t call).2 = .done (.done child.pid) (.status child.exitStatus)) ∧
    (pickRunnable (roused h k) = some t → ∃ collected, LeavesOthers t k (scheduleRound h k) collected ∧
      (collected ≠ none → ∃ runner pid, k.task t = some runner ∧ runner.frame = .waitpid pid)) ∧
    LeavesOthers t k (taskFinishExec h k t) none := by
  refine ⟨fun call => ?_, scheduleRound_others, ?_⟩
  · by_cases hcall : ∃ pid, call = .op (.waitpid pid)
    · obtain ⟨pid, rfl⟩ := hcall
      obtain ⟨collected, hothers, hreply⟩ := apiWaitpid_others k t pid
      refine ⟨collected, LeavesOthers.deliver hothers, fun c hc => ?_⟩
      obtain ⟨child, hchild, hout⟩ := hreply c hc
      exact ⟨pid, child, rfl, hchild, hout⟩
    · refine ⟨none, LeavesOthers.deliver (leavesOthers_of_stillOf fun b task hne hb => ?_), fun c hc => ?_⟩
      · exact stillOf_performTable hne hb h fun pid heq => hcall ⟨pid, heq⟩
      · cases hc
  · exact leavesOthers_of_stillOf fun b task hne hb => (beyond_stillOf hne).taskFinishExec h k

end CannedBsd
