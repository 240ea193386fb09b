import CannedBsd.Lib.Interaction
import CannedBsd.Kernel.Descriptors
import CannedBsd.Kernel.Privacy
import CannedBsd.Kernel.ProgramHeap

/-!
# A program and its calls

A program talks to the kernel through the calls of its task. Between a call and its return other tasks
may run, and the embedding program may do what it likes. `Answered` is what can happen from one point
of the program to the return of its next call.

What others do in between does not reach the descriptor table of the task, and they cause no passages in
its name.

* `Quiet.step`: a step that is not its own leaves the quiet parts of a task alone.
* `Seated.step`: what others do leaves the seat of a suspended task alone.
* `Poised.reach_seated`: as long as the task waits, nothing of it changes, unless it is ended.
-/

namespace CannedBsd

open CannedBsd.Lib

/-! ### Calls and returns -/

/-- What a call returns to the program. -/
structure Answer where
  reply : Reply
  out : Out
  deriving DecidableEq

def Answer.value (a : Answer) : ℤ := a.reply.value

/-- What a program does, as far as the kernel is concerned. -/
abbrev Script (α : Type) := Prog TableCall Answer α

/-- The rest of a call that was suspended with this frame. -/
def goOn (h : Host) (k : Kernel) (t : TaskId) : Frame → Kernel × Outcome
  | .entry => (k, .gone)
  | .program => (k, .done ⟨0, [], none⟩ .none)
  | .pipeRead p count => pipeRead k p count
  | .pipeWrite p call buffer total => pipeWrite k p call buffer total
  | .consoleRead count => consoleRead h k count
  | .waitpid pid => apiWaitpid k t pid
  | .poll fds => pollLoop h k t fds

/-- How the call of `t` goes on in a round of the scheduler that resumes it. -/
def resumed (h : Host) (k : Kernel) (t : TaskId) : Option (Kernel × Outcome) :=
  if pickRunnable (roused h k) = some t then
    match (roused h k).task t with
    | none => none
    | some task =>
      if task.interrupted then none else some (goOn h (dispatch (roused h k) t) t task.frame)
  else none

/-- The step neither is a call of the task nor returns from one. -/
def otherStep (t : TaskId) (k : Kernel) (a : Action) : Prop :=
  (∀ h op, a = .call h op → k.current ≠ some t) ∧
    ∀ h k' r out, a = .schedule h → resumed h k t ≠ some (k', .done r out)

/-- The next call of `t` after `k` is `call`, it returns `a`, and then the kernel is the last one. -/
inductive Answered (t : TaskId) (k : Kernel) (call : TableCall) (a : Answer) : Kernel → Prop
  | atOnce {k₁ : Kernel} {h : Host} : Reach step (otherStep t) k k₁ → k₁.fatal = none → k₁.current = some t →
      (performTable h k₁ t call).2 = .done a.reply a.out → Answered t k call a (deliver t (performTable h k₁ t call))
  | later {k₁ k₂ k₃ k' : Kernel} {h h' : Host} {state : TaskState} {frame : Frame} :
      Reach step (otherStep t) k k₁ → k₁.fatal = none → k₁.current = some t →
      (performTable h k₁ t call).2 = .block state frame →
      Reach step (otherStep t) (deliver t (performTable h k₁ t call)) k₂ → step k₂ (.schedule h') = some k' →
      resumed h' k₂ t = some (k₃, .done a.reply a.out) → Answered t k call a k'

/-- The task that caused a passage. -/
def Passage.actor : Passage → Option TaskId
  | .spawned parent _ _ => parent
  | .exited t _ => some t
  | .reaped parent _ _ _ => some parent

/-- The passages a task caused. -/
def deeds (t : TaskId) (k : Kernel) : List Passage := k.history.filter fun e => e.actor = some t

variable {k k' : Kernel} {t c : TaskId} {l : NodeId → ℕ}

/-! ### Histories -/

/-- The history goes on with passages that the task caused. -/
def Appends (c : Option TaskId) (k k' : Kernel) : Prop :=
  ∃ new, k'.history = k.history ++ new ∧ ∀ e ∈ new, e.actor = c

theorem Appends.of_eq {c : Option TaskId} (h : k'.history = k.history) : Appends c k k' := by
  refine ⟨[], ?_, fun e he => ?_⟩
  · rw [h, List.append_nil]
  · cases he

theorem Appends.one {c : Option TaskId} {e : Passage} (h : k'.history = k.history ++ [e]) (he : e.actor = c) :
    Appends c k k' := by
  refine ⟨[e], h, fun e' hmem => ?_⟩
  rw [List.mem_singleton.mp hmem, he]

theorem Appends.after {c : Option TaskId} {k₀ : Kernel} (h : Appends c k k') (h₀ : k.history = k₀.history) :
    Appends c k₀ k' := by
  obtain ⟨new, heq, hall⟩ := h
  exact ⟨new, heq.trans (by rw [h₀]), hall⟩

theorem Appends.deliver {c : Option TaskId} {r : Kernel × Outcome} (h : Appends c k r.1) (t : TaskId) :
    Appends c k (deliver t r) := by
  obtain ⟨new, heq, hall⟩ := h
  exact ⟨new, (history_deliver t r).trans heq, hall⟩

/-- The passages of a task are those it had, if somebody else caused what happened. -/
theorem Appends.deeds {c : Option TaskId} (h : Appends c k k') (hne : c ≠ some t) : deeds t k' = deeds t k := by
  obtain ⟨new, heq, hall⟩ := h
  have hnone : new.filter (fun e => e.actor = some t) = [] := by
    rw [List.filter_eq_nil_iff]
    intro e he
    rw [hall e he]
    simpa using hne
  rw [CannedBsd.deeds, heq, List.filter_append, hnone, List.append_nil]
  rfl

/-- A view of the history alone is out of reach of the calls that create, end or reap no task. -/
theorem outside_history (c : TaskId) : Outside c Kernel.history where
  toAloof := aloof_history
  setSpare _ _ _ := rfl
  parent k child := (history_wakeWaitingParent k child).1
  current _ _ := rfl
  finishing _ _ _ := rfl
  calls _ _ := rfl
  setTask _ _ := rfl
  alloc _ _ _ := rfl
  free _ := rfl
  nextPid _ _ := rfl

theorem history_solitary (h : Host) (k : Kernel) {op : Op} (hop : op.solitary = true) :
    (perform h k t op).1.history = k.history := by
  have hv := outside_history t
  cases hdis : op.discreet with
  | true => exact hv.toReserved.perform h k hdis
  | false =>
    cases op with
    | opendir path => exact hv.apiOpendir k path
    | readdir descriptor nameSize => exact hv.apiReaddir k descriptor nameSize
    | closedir descriptor => exact hv.apiClosedir k descriptor
    | allocate | resize | release => exact history_heapCall h rfl
    | spawn | exec | exit | waitpid => cases hop
    | _ => cases hdis

theorem appends_apiSpawn (h : Host) (k : Kernel) (t : TaskId) (programName : Bytes) (argv : List Bytes)
    (envp : Option (List Bytes)) (actions : List SpawnAction) :
    Appends (some t) k (apiSpawn h k t programName argv envp actions).1 := by
  rw [apiSpawn]
  split
  · exact .of_eq rfl
  split
  · exact .of_eq rfl
  split
  · exact .of_eq rfl
  rename_i n _
  rcases @Outside.taskCreate _ _ (retainNode k (some n)) (outside_history _) h (some t) (executableOf k n) argv envp
      actions with ⟨k', heq, hview⟩ | ⟨k', pid, heq, hview⟩
  · rw [heq]
    exact .of_eq hview
  · rw [heq]
    refine .one (e := .spawned (some t) k.tasks.next pid) ?_ rfl
    exact congrArg (· ++ [Passage.spawned (some t) (retainNode k (some n)).tasks.next pid]) hview

theorem history_closeAll (k : Kernel) (t : TaskId) :
    (dirCloseAll (fdCloseAll (taskReleaseAllocations k t) t) t).history = k.history := by
  rw [(outside_history t).dirCloseAll, fdCloseAll, (outside_history t).fdCloseWhere]
  rfl

theorem appends_apiExit (k : Kernel) (t : TaskId) (status : ℤ) : Appends (some t) k (apiExit k t status) := by
  have hclosed := history_closeAll k t
  rw [apiExit_eq]
  generalize dirCloseAll (fdCloseAll (taskReleaseAllocations k t) t) t = k₁ at hclosed ⊢
  cases k₁.task t with
  | none => exact .of_eq hclosed
  | some task =>
    dsimp only
    refine .one (e := .exited t status) ?_ rfl
    show (wakeWaitingParent (retire k₁ t task status) task).history = _
    rw [(history_wakeWaitingParent _ _).1, history_retire, hclosed]

theorem appends_apiWaitpid (k : Kernel) (t : TaskId) (pid : ℤ) : Appends (some t) k (apiWaitpid k t pid).1 := by
  have hround := apiWaitpid_round k t pid
  generalize apiWaitpid k t pid = r at hround
  cases hround with
  | kept o => exact .of_eq rfl
  | noted o => exact .of_eq rfl
  | @reaped parent child c hparent hmem hchild hppid hzombie =>
    have hhistory := history_reap (k.record (.reaped t c child.pid child.exitStatus)) c
    dsimp only
    generalize reap (k.record (.reaped t c child.pid child.exitStatus)) c = k' at hhistory ⊢
    exact .one hhistory rfl

/-- A call causes passages of its caller only. -/
theorem appends_perform (h : Host) (k : Kernel) (t : TaskId) (op : Op) : Appends (some t) k (perform h k t op).1 := by
  cases hop : op.solitary with
  | true => exact .of_eq (history_solitary h k hop)
  | false =>
    cases op with
    | spawn programName argv envp actions => exact appends_apiSpawn h k t programName argv envp actions
    | exec programName argv envp => exact .of_eq ((outside_history t).apiExec h k programName argv envp)
    | exit status =>
      dsimp only [perform]
      exact appends_apiExit k t status
    | waitpid pid => exact appends_apiWaitpid k t pid
    | _ => cases hop

theorem appends_resume (h : Host) (k : Kernel) (t : TaskId) : Appends (some t) k (resume h k t) := by
  have hv := outside_history t
  rw [resume]
  split
  · exact .of_eq rfl
  split
  · exact (appends_apiExit _ t 130).after rfl
  split
  · exact .of_eq rfl
  · exact .of_eq rfl
  · exact .of_eq ((hv.deliver _).trans (hv.pipeRead k _ _))
  · exact .of_eq ((hv.deliver _).trans (hv.pipeWriteLoop _ _ _ _ _ _))
  · refine .of_eq ((hv.deliver _).trans ?_)
    rw [consoleRead_kernel]
  · exact (appends_apiWaitpid k t _).deliver t
  · refine .of_eq ((hv.deliver _).trans ?_)
    rw [pollLoop_kernel]

theorem history_taskFinishExec (h : Host) (k : Kernel) (t : TaskId) : (taskFinishExec h k t).history = k.history := by
  have hinstall : ∀ k, (installProgram k t).history = k.history := by
    intro k
    rw [installProgram]
    split <;> rfl
  have hstart : ∀ k, (startInstance h k t).history = k.history := by
    intro k
    rw [startInstance]
    split <;> rfl
  rw [taskFinishExec, hstart, hinstall, (outside_history t).dirCloseAll, (outside_history t).fdCloseWhere]
  rfl

theorem appends_cbKernelBoot (h : Host) (k : Kernel) (command : Option Bytes) :
    Appends none k (cbKernelBoot h k command) := by
  have hwith : ∀ n argv, Appends none k (bootWith h k n argv) := by
    intro n argv
    have hv := outside_history k.tasks.next
    rw [bootWith]
    rcases @Outside.taskCreate _ _ (retainNode k (some n)) hv h none (executableOf k n) argv
        (some [homeSetting, pathSetting]) [] with ⟨k', heq, hview⟩ | ⟨k', pid, heq, hview⟩
    · rw [heq]
      exact .of_eq hview
    rw [heq]
    have hlisted : ({ k' with order := k.tasks.next :: k'.order }.record (.spawned none k.tasks.next pid)).history =
        k.history ++ [.spawned none k.tasks.next pid] :=
      congrArg (· ++ [Passage.spawned none k.tasks.next pid]) hview
    refine .one (e := .spawned none k.tasks.next pid) ?_ rfl
    dsimp only [bootConsole]
    split
    · exact hlisted
    · dsimp only [cbOpenFileCreate]
      exact (hv.fdInstallAt _ _ _ _).trans ((hv.fdInstallAt _ _ _ _).trans ((hv.fdInstallAt _ _ _ _).trans hlisted))
  unfold cbKernelBoot
  split
  · exact .of_eq rfl
  split
  · exact .of_eq rfl
  · exact hwith _ _

/-! ### Steps of others -/

/-- The task has exited. -/
def Gone (t : TaskId) (k : Kernel) : Prop := ∃ status, .exited t status ∈ k.history

/-- A part of a task that neither wake-ups nor interrupts change. -/
def Quiet {β : Type} (field : Task → β) : Prop :=
  ∀ task state reason ignored pending, field { task with
    state := state, wakeReason := reason, interruptIgnored := ignored, interruptPending := pending } = field task

/-- What a task needs to go on with a call: its descriptors, and where it is. -/
def Task.seat (task : Task) : Table × Frame × Option NodeId := (task.descriptors, task.frame, task.pendingExecutableNode)

def seatOf (t : TaskId) (k : Kernel) : Option (Table × Frame × Option NodeId) := (k.task t).map Task.seat

theorem quiet_seat : Quiet Task.seat := fun _ _ _ _ _ => rfl

section Quiet

variable {β : Type} {field : Task → β}

theorem Quiet.still (hq : Quiet field) (task : Task) : field task.still = field task := hq task _ _ _ _

theorem Quiet.of_stillOf (hq : Quiet field) (h : stillOf t k' = stillOf t k) :
    (k'.task t).map field = (k.task t).map field := by
  have hmap := congrArg (Option.map field) h
  have hstill : field ∘ Task.still = field := funext hq.still
  rw [stillOf, stillOf, Option.map_map, Option.map_map, hstill] at hmap
  exact hmap

theorem Quiet.of_settled (hq : Quiet field) (h : (k'.task t).map Task.settled = (k.task t).map Task.settled) :
    (k'.task t).map field = (k.task t).map field := by
  refine hq.of_stillOf ?_
  have hmap := congrArg (Option.map Prod.fst) h
  rw [Option.map_map, Option.map_map] at hmap
  exact hmap

end Quiet

theorem Poised.gone_of_zombie {task : Task} (hp : Poised k l) (hmem : t ∈ k.order) (ht : k.task t = some task)
    (hz : task.state = .zombie) : Gone t k := by
  obtain ⟨status, hexit, -⟩ := hp.base.lineage.zombie hmem ht hz
  exact ⟨status, hexit⟩

theorem Poised.gone_step {a : Action} (hp : Poised k l) (hs : CannedBsd.step k a = some k') (hgone : Gone t k) :
    Gone t k' := by
  obtain ⟨status, hexit⟩ := hgone
  obtain ⟨_, hm, -⟩ := hp.step hs
  exact ⟨status, hm.history_prefix.subset hexit⟩

theorem LeavesOthers.stillOf {collected : Option TaskId} (hp : Poised k l) (hmem : t ∈ k.order) (hne : t ≠ c)
    (h : LeavesOthers c k k' collected) : Gone t k ∨ stillOf t k' = stillOf t k := by
  obtain ⟨task, ht⟩ := hp.base.roster.live hmem
  obtain ⟨hcollected, huntouched⟩ := h t task hne ht
  by_cases hc : collected = some t
  · obtain ⟨-, x, -, hx, -, hzombie, -⟩ := hcollected hc
    exact .inl (hp.gone_of_zombie hmem hx hzombie)
  · obtain ⟨x, x', hx, hx', hstill⟩ := huntouched hc
    refine .inr ?_
    rw [CannedBsd.stillOf, CannedBsd.stillOf, hx, hx', Option.map_some, Option.map_some, hstill]

theorem stillOf_cbKernelBoot (h : Host) (k : Kernel) (command : Option Bytes) (hne : t ≠ k.tasks.next) :
    stillOf t (cbKernelBoot h k command) = stillOf t k := by
  have hv : Beyond k.tasks.next (stillOf t) := beyond_stillOf hne
  have hwith : ∀ n argv, stillOf t (bootWith h k n argv) = stillOf t k := by
    intro n argv
    have hretain := hv.retainNode k (some n)
    rw [bootWith]
    rcases @Outside.taskCreate _ _ (retainNode k (some n)) hv.toOutside h none (executableOf k n) argv
        (some [homeSetting, pathSetting]) [] with ⟨k', heq, hview⟩ | ⟨k', e, heq, hview⟩
    · rw [heq]
      exact (hv.releaseNode _ _).trans (hview.trans hretain)
    rw [heq]
    dsimp only [bootConsole]
    split
    · exact (hv.setTask _ _).trans (hview.trans hretain)
    · dsimp only [cbOpenFileCreate]
      refine (hv.fdInstallAt _ _ _ _).trans ((hv.fdInstallAt _ _ _ _).trans ((hv.fdInstallAt _ _ _ _).trans ?_))
      exact (hv.setTask _ _).trans (hview.trans hretain)
  unfold cbKernelBoot
  split
  · rfl
  split
  · rfl
  · exact hwith _ _

/-- The embedding program between the calls of a task. -/
def Action.embeds : Action → Bool
  | .call _ _ => false
  | .schedule _ => false
  | .finishExec _ => false
  | _ => true

/-- The embedding program leaves quiet parts, passages and the running task alone. -/
theorem step_embeds {β : Type} {field : Task → β} {a : Action} (hq : Quiet field) (hp : Poised k l)
    (hs : step k a = some k') (ha : a.embeds = true) (hlive : t < k.tasks.next) :
    (k'.task t).map field = (k.task t).map field ∧ deeds t k' = deeds t k ∧ k'.current = k.current := by
  unfold step at hs
  split at hs
  · cases hs
  cases a with
  | call | schedule | finishExec => cases ha
  | requestInterrupt pid =>
    cases hs
    rw [cbKernelRequestInterrupt]
    split
    · exact ⟨rfl, rfl, rfl⟩
    split
    · exact ⟨rfl, rfl, rfl⟩
    split
    · exact ⟨rfl, rfl, rfl⟩
    split
    · exact ⟨rfl, rfl, rfl⟩
    split
    · exact ⟨rfl, rfl, rfl⟩
    · exact ⟨field_setTask field k _ t fun task => hq task _ task.wakeReason task.interruptIgnored _, rfl, rfl⟩
  | setInterrupt c disposition =>
    dsimp only at hs
    split at hs
    · cases hs
      rw [cbTaskSetInterrupt]
      split
      · exact ⟨rfl, rfl, rfl⟩
      split
      · exact ⟨rfl, rfl, rfl⟩
      split
      · exact ⟨rfl, rfl, rfl⟩
      · exact ⟨field_setTask field k _ t fun task => hq task task.state task.wakeReason _ _, rfl, rfl⟩
    · cases hs
  | mountCreate h =>
    cases hs
    exact ⟨rfl, rfl, rfl⟩
  | mountPath c path m =>
    dsimp only at hs
    split at hs
    · cases hs
      exact ⟨rfl, rfl, rfl⟩
    · cases hs
  | register h program =>
    rw [Option.some.injEq] at hs
    subst hs
    obtain ⟨v, heq⟩ := cbKernelRegister_vfs h k program
    rw [heq]
    exact ⟨rfl, rfl, rfl⟩
  | boot h command =>
    rw [Option.some.injEq] at hs
    subst hs
    refine ⟨hq.of_stillOf (stillOf_cbKernelBoot h k command (Nat.ne_of_lt hlive)), ?_, ?_⟩
    · exact (appends_cbKernelBoot h k command).deeds fun hnone => by cases hnone
    · obtain ⟨-, hstand⟩ : Moves noNode k (.rest l) (cbKernelBoot h k command) (.rest l) ∧ _ :=
        cbKernelBoot_moves h command hp.base rfl
      exact hstand.current

theorem history_idleRound (h : Host) (k : Kernel) : (idleRound h k).history = k.history := by
  rw [idleRound]
  split
  · split <;> rfl
  split <;> rfl

theorem deeds_of_history (h : k'.history = k.history) : deeds t k' = deeds t k := by
  rw [deeds, deeds, h]

/-- The task runs, goes on or is replaced in this step. -/
def ownStep (t : TaskId) (k : Kernel) : Action → Prop
  | .call _ _ => k.current = some t
  | .schedule h => pickRunnable (roused h k) = some t
  | .finishExec _ => k.finishing = some t
  | _ => False

/-- **Others.**  A step that is not its own leaves the quiet parts of a task alone, as long as the task is
there. -/
theorem Quiet.step {β : Type} {field : Task → β} {a : Action} {task : Task} (hq : Quiet field) (hp : Poised k l)
    (ht : k.task t = some task) (hother : ¬ ownStep t k a) (hs : step k a = some k') :
    Gone t k' ∨ (k'.task t).map field = (k.task t).map field ∧ deeds t k' = deeds t k := by
  have hmem : t ∈ k.order := (hp.base.roster.listed ht).resolve_right fun hl => by cases hl
  have hgone : Gone t k → Gone t k' := hp.gone_step hs
  have hothers : ∀ {c collected}, t ≠ c → LeavesOthers c k k' collected → Appends (some c) k k' →
      Gone t k' ∨ (k'.task t).map field = (k.task t).map field ∧ deeds t k' = deeds t k := by
    intro c collected hne hleaves happends
    rcases hleaves.stillOf hp hmem hne with hg | hstill
    · exact .inl (hgone hg)
    · exact .inr ⟨hq.of_stillOf hstill, happends.deeds fun heq => hne (Option.some.inj heq).symm⟩
  cases hembed : a.embeds with
  | true =>
    obtain ⟨hfield, hdeeds, -⟩ := step_embeds (t := t) hq hp hs hembed (Heap.lt_next_of_get ht)
    exact .inr ⟨hfield, hdeeds⟩
  | false =>
    unfold CannedBsd.step at hs
    split at hs
    · cases hs
    cases a with
    | call host op =>
      cases hc : k.current with
      | none => simp [hc] at hs
      | some c =>
        simp only [hc, Option.some.injEq] at hs
        have hne : t ≠ c := by
          rintro rfl
          exact hother hc
        obtain ⟨collected, hleaves, -⟩ := (process_state_private k c host).1 (.op op)
        have happends := (appends_perform host k c op).deliver c
        rw [← hs]
        rw [← hs] at hothers
        exact hothers hne hleaves happends
    | schedule host =>
      dsimp only at hs
      split at hs
      · rw [Option.some.injEq] at hs
        cases hpick : pickRunnable (roused host k) with
        | none =>
          rw [scheduleRound_eq, hpick] at hs
          dsimp only at hs
          refine .inr ⟨?_, deeds_of_history ?_⟩
          · rw [← hs, hq.of_settled (settled_idleRound host t (roused host k)), hq.of_settled (settled_roused host t k)]
          · rw [← hs, history_idleRound, history_roused]
        | some c =>
          have hne : t ≠ c := by
            rintro rfl
            exact hother hpick
          obtain ⟨collected, hleaves, -⟩ := scheduleRound_others hpick
          have happends : Appends (some c) k (scheduleRound host k) := by
            rw [scheduleRound_eq, hpick]
            exact (appends_resume host _ c).after (history_roused host k)
          rw [← hs]
          rw [← hs] at hothers
          exact hothers hne hleaves happends
      · cases hs
    | finishExec host =>
      obtain ⟨c, hc, heq⟩ := Option.map_eq_some_iff.mp hs
      have hne : t ≠ c := by
        rintro rfl
        exact hother hc
      have hleaves := (process_state_private k c host).2.2
      have hhistory := history_taskFinishExec host k c
      rw [heq] at hleaves hhistory
      exact hothers hne hleaves (.of_eq hhistory)
    | _ => cases hembed

/-! ### Going on -/

/-- The child a suspended call waits for. -/
def Frame.waits : Frame → Option ℤ
  | .waitpid pid => some pid
  | _ => none

/-- The descriptors of a task and the program file it is about to run. -/
def Task.gear (task : Task) : Table × Option NodeId := (task.descriptors, task.pendingExecutableNode)

theorem gear_wakePipeTask (task : Task) : (wakePipeTask task).gear = task.gear := by
  rw [wakePipeTask]
  split
  · rfl
  split <;> rfl

theorem aloof_gear (t : TaskId) : Aloof fun k => (k.task t).map Task.gear := aloof_field Task.gear gear_wakePipeTask t

theorem gear_deliver (r : Kernel × Outcome) : ((deliver t r).task t).map Task.gear = (r.1.task t).map Task.gear :=
  field_deliver Task.gear r t (fun _ _ => rfl) (fun _ _ => rfl) fun _ _ _ _ => rfl

/-- The suspended call, without how far it has come. -/
def Frame.call : Frame → Frame
  | .pipeWrite p call buffer _ => .pipeWrite p call buffer 0
  | frame => frame

/-- The call returns, or is suspended in one of these frames. -/
def Outcome.Stays (frames : Frame → Prop) : Outcome → Prop
  | .done _ _ => True
  | .block _ frame => frames frame
  | .gone => False

theorem Outcome.Stays.mono {frames frames' : Frame → Prop} {o : Outcome} (h : o.Stays frames)
    (himp : ∀ frame, frames frame → frames' frame) : o.Stays frames' := by
  cases o with
  | done reply out => trivial
  | block state frame => exact himp frame h
  | gone => exact h

theorem pipeRead_stays (k : Kernel) (p : PipeId) (count : ℕ) :
    (pipeRead k p count).2.Stays fun frame => frame = .pipeRead p count := by
  rw [pipeRead]
  split
  · trivial
  split
  · trivial
  split
  · split
    · trivial
    · exact rfl
  · trivial

theorem pipeWriteLoop_stays (p : PipeId) (call : ℕ) (buffer : Bytes) (fuel : ℕ) :
    ∀ (k : Kernel) (total : ℕ), (pipeWriteLoop p call buffer fuel k total).2.Stays
      fun frame => ∃ total, frame = .pipeWrite p call buffer total := by
  induction fuel with
  | zero => exact fun k total => ⟨total, rfl⟩
  | succ fuel ih =>
    intro k total
    rw [pipeWriteLoop]
    split
    · trivial
    split
    · trivial
    split
    · trivial
    split
    · exact ⟨total, rfl⟩
    · exact ih _ _

theorem consoleRead_stays (host : Host) (k : Kernel) (count : ℕ) :
    (consoleRead host k count).2.Stays fun frame => frame = .consoleRead count := by
  rw [consoleRead]
  split
  · trivial
  split
  · exact rfl
  split <;> trivial

theorem pollLoop_stays (host : Host) (k : Kernel) (t : TaskId) (fds : List PollFd) :
    (pollLoop host k t fds).2.Stays fun frame => frame = .poll fds := by
  rw [pollLoop]
  split
  · trivial
  dsimp only
  split
  · trivial
  split
  · trivial
  split
  · trivial
  · exact rfl

theorem apiWaitpid_block {pid : ℤ} {state : TaskState} {frame : Frame}
    (h : (apiWaitpid k t pid).2 = .block state frame) :
    frame = .waitpid pid ∧ (apiWaitpid k t pid).1 = k.setTask t fun task => { task with waitingFor := pid } := by
  rw [apiWaitpid] at h ⊢
  cases ht : k.task t with
  | none =>
    rw [ht] at h
    cases h
  | some parent =>
    rw [ht] at h
    dsimp only at h ⊢
    split at h
    · split at h <;> cases h
    · split at h
      · cases h
      · rename_i hne
        cases h
        rw [if_neg hne]
        exact ⟨rfl, rfl⟩

theorem apiWaitpid_stays (k : Kernel) (t : TaskId) (pid : ℤ) :
    (apiWaitpid k t pid).2.Stays fun frame => frame = .waitpid pid := by
  rw [apiWaitpid]
  split
  · trivial
  split
  · split <;> trivial
  split
  · trivial
  · exact rfl

theorem apiRead_stays (h : Host) (k : Kernel) (t : TaskId) (descriptor : ℤ) (count : ℕ) :
    (apiRead h k t descriptor count).2.Stays fun frame => (∃ p, frame = .pipeRead p count) ∨ frame = .consoleRead count := by
  rw [apiRead]
  split
  · trivial
  dsimp only
  split
  · trivial
  · trivial
  · split
    · trivial
    split <;> trivial
  · split
    · trivial
    · exact (pipeRead_stays k _ count).mono fun frame hframe => .inl ⟨_, hframe⟩
  · split
    · trivial
    · exact (consoleRead_stays h k count).mono fun frame hframe => .inr hframe

theorem apiWrite_stays (h : Host) (k : Kernel) (t : TaskId) (descriptor : ℤ) (buffer : Bytes) :
    (apiWrite h k t descriptor buffer).2.Stays fun frame => ∃ p call total, frame = .pipeWrite p call buffer total := by
  rw [apiWrite]
  split
  · trivial
  dsimp only
  split
  · trivial
  · trivial
  · split
    · trivial
    split <;> trivial
  · split
    · trivial
    · exact (pipeWriteLoop_stays _ _ buffer _ _ _).mono fun frame hframe => ⟨_, _, hframe⟩
  · split
    · trivial
    · rw [consoleWrite]
      split
      · trivial
      split
      · trivial
      split <;> trivial

theorem apiPoll_stays (h : Host) (k : Kernel) (t : TaskId) (fds : List PollFd) (timeout : ℤ) :
    (apiPoll h k t fds timeout).2.Stays fun frame => frame = .poll fds := by
  rw [apiPoll]
  split
  · trivial
  dsimp only
  split
  · split
    · trivial
    · exact pollLoop_stays _ _ _ _
  · exact pollLoop_stays _ _ _ _

theorem apiSpawn_stays (h : Host) (k : Kernel) (t : TaskId) (programName : Bytes) (argv : List Bytes)
    (envp : Option (List Bytes)) (actions : List SpawnAction) :
    (apiSpawn h k t programName argv envp actions).2.Stays fun _ => False := by
  rw [apiSpawn]
  split
  · trivial
  split
  · trivial
  split
  · trivial
  split <;> trivial

/-- The places where a call can be suspended. -/
inductive HeldIn : Op → Frame → Prop
  | pipeRead {descriptor : ℤ} {count : ℕ} {p : PipeId} : HeldIn (.read descriptor count) (.pipeRead p count)
  | consoleRead {descriptor : ℤ} {count : ℕ} : HeldIn (.read descriptor count) (.consoleRead count)
  | pipeWrite {descriptor : ℤ} {buffer : Bytes} {p : PipeId} {call total : ℕ} :
      HeldIn (.write descriptor buffer) (.pipeWrite p call buffer total)
  | waitpid {pid : ℤ} : HeldIn (.waitpid pid) (.waitpid pid)
  | yield : HeldIn .yield .program
  | poll {fds : List PollFd} {timeout : ℤ} : HeldIn (.poll fds timeout) (.poll fds)

/-- The calls after which the program that made them is no more. -/
def Op.ends : Op → Bool
  | .exec _ _ _ => true
  | .exit _ => true
  | _ => false

/-- A call returns or is suspended in its own loop, unless it ends its program. -/
theorem perform_stays {op : Op} (h : Host) (hb : Base k (.rest l)) (hc : k.current = some t) (hop : op.ends = false) :
    (perform h k t op).2.Stays (HeldIn op) := by
  cases hplain : op.plain with
  | true =>
    obtain ⟨reply, out, hdone⟩ := (perform_returns h op hb hc hplain).done
    rw [hdone]
    trivial
  | false =>
    cases op with
    | spawn programName argv envp actions => exact (apiSpawn_stays h k t _ _ _ _).mono fun _ hfalse => hfalse.elim
    | exec | exit => cases hop
    | waitpid pid =>
      refine (apiWaitpid_stays k t pid).mono ?_
      rintro frame rfl
      exact .waitpid
    | yield => exact .yield
    | read descriptor count =>
      refine (apiRead_stays h k t descriptor count).mono ?_
      rintro frame (⟨p, rfl⟩ | rfl)
      · exact .pipeRead
      · exact .consoleRead
    | write descriptor buffer =>
      refine (apiWrite_stays h k t descriptor buffer).mono ?_
      rintro frame ⟨p, call, total, rfl⟩
      exact .pipeWrite
    | poll fds timeout =>
      refine (apiPoll_stays h k t fds timeout).mono ?_
      rintro frame rfl
      exact .poll
    | _ => cases hplain

/-- A call that is suspended is suspended in its own loop. -/
theorem perform_block {h : Host} {op : Op} {state : TaskState} {frame : Frame} (hb : Base k (.rest l))
    (hc : k.current = some t) (hblock : (perform h k t op).2 = .block state frame) : HeldIn op frame := by
  cases hends : op.ends with
  | false =>
    have hstays := perform_stays h hb hc hends
    rw [hblock] at hstays
    exact hstays
  | true =>
    cases op with
    | exec programName argv envp =>
      rw [perform, apiExec] at hblock
      split at hblock
      · cases hblock
      dsimp only at hblock
      split at hblock <;> cases hblock
    | exit status => cases hblock
    | _ => cases hends

/-- A suspended call other than a wait changes nothing of its task. -/
theorem goOn_keeps (host : Host) {frame : Frame} (hw : frame.waits = none) :
    ((goOn host k t frame).1.task t).map Task.gear = (k.task t).map Task.gear ∧
      (goOn host k t frame).1.history = k.history := by
  have hv := outside_history t
  cases frame with
  | entry => exact ⟨rfl, rfl⟩
  | program => exact ⟨rfl, rfl⟩
  | pipeRead p count => exact ⟨(aloof_gear t).pipeRead k p count, hv.pipeRead k p count⟩
  | pipeWrite p call buffer total =>
    exact ⟨(aloof_gear t).pipeWriteLoop p call buffer _ k total, hv.pipeWriteLoop p call buffer _ k total⟩
  | consoleRead count =>
    rw [goOn, consoleRead_kernel]
    exact ⟨rfl, rfl⟩
  | waitpid pid => cases hw
  | poll fds =>
    rw [goOn, pollLoop_kernel]
    exact ⟨rfl, rfl⟩

/-- A suspended call returns or is suspended again. -/
theorem goOn_stays (host : Host) (k : Kernel) (t : TaskId) {frame : Frame} (hne : frame ≠ .entry) :
    (goOn host k t frame).2.Stays fun frame' => frame'.call = frame.call := by
  cases frame with
  | entry => exact absurd rfl hne
  | program => trivial
  | pipeRead p count =>
    refine (pipeRead_stays k p count).mono ?_
    rintro frame rfl
    rfl
  | pipeWrite p call buffer total =>
    refine (pipeWriteLoop_stays p call buffer _ k total).mono ?_
    rintro frame ⟨total', rfl⟩
    rfl
  | consoleRead count =>
    refine (consoleRead_stays host k count).mono ?_
    rintro frame rfl
    rfl
  | waitpid pid =>
    refine (apiWaitpid_stays k t pid).mono ?_
    rintro frame rfl
    rfl
  | poll fds =>
    refine (pollLoop_stays host k t fds).mono ?_
    rintro frame rfl
    rfl

theorem Frame.waits_of_call {frame frame' : Frame} (h : frame'.call = frame.call) : frame'.waits = frame.waits := by
  have hcall : ∀ frame : Frame, frame.call.waits = frame.waits := by
    intro frame
    cases frame <;> rfl
  rw [← hcall frame', h, hcall]

/-- A call that is suspended again waits for what it waited for, and it has changed nothing of its
task. -/
theorem goOn_block {host : Host} {frame frame' : Frame} {state : TaskState} (hne : frame ≠ .entry)
    (h : (goOn host k t frame).2 = .block state frame') :
    frame'.waits = frame.waits ∧ ((goOn host k t frame).1.task t).map Task.gear = (k.task t).map Task.gear ∧
      (goOn host k t frame).1.history = k.history := by
  have hstays := goOn_stays host k t hne
  rw [h] at hstays
  refine ⟨Frame.waits_of_call hstays, ?_⟩
  cases hw : frame.waits with
  | none => exact goOn_keeps host hw
  | some pid =>
    cases frame with
    | waitpid pid =>
      obtain ⟨-, hk⟩ := apiWaitpid_block h
      rw [goOn, hk]
      exact ⟨field_setTask Task.gear k t t fun _ => rfl, rfl⟩
    | _ => cases hw

/-- A task that is resumed in a call goes on with it. -/
theorem resume_goOn {host : Host} {task : Task} (ht : k.task t = some task) (hint : task.interrupted = false)
    (hentry : task.frame ≠ .entry) (hprogram : task.frame ≠ .program) :
    resume host k t = deliver t (goOn host k t task.frame) := by
  rw [resume, ht]
  dsimp only
  rw [if_neg]
  · cases hframe : task.frame with
    | entry => exact absurd hframe hentry
    | program => exact absurd hframe hprogram
    | _ => rfl
  · rintro ⟨hpending, hignored⟩
    rw [Task.interrupted, hpending, hignored] at hint
    cases hint

/-! ### Between a call and its return -/

/-- The task is there with this table and these passages, and it waits for this child. -/
def Seated (t : TaskId) (T : Table) (ds : List Passage) (w : Option ℤ) (k : Kernel) : Prop :=
  deeds t k = ds ∧ ∃ task, k.task t = some task ∧ task.descriptors = T ∧ task.frame.waits = w ∧
    task.pendingExecutableNode = none

variable {T : Table} {ds : List Passage} {w : Option ℤ} {a : Action}

theorem Seated.of_seatOf (h : Seated t T ds w k) (hseat : seatOf t k' = seatOf t k) (hdeeds : deeds t k' = deeds t k) :
    Seated t T ds w k' := by
  obtain ⟨hds, task, ht, hT, hw, hpend⟩ := h
  rw [seatOf, seatOf, ht, Option.map_some] at hseat
  obtain ⟨task', ht', heq⟩ := Option.map_eq_some_iff.mp hseat
  obtain ⟨hT', hframe, hpend'⟩ : task'.descriptors = task.descriptors ∧ task'.frame = task.frame ∧
      task'.pendingExecutableNode = task.pendingExecutableNode := by
    simpa [Task.seat] using heq
  exact ⟨hdeeds.trans hds, task', ht', hT'.trans hT, (congrArg Frame.waits hframe).trans hw, hpend'.trans hpend⟩

theorem gone_apiExit {status : ℤ} {task : Task} (ht : k.task t = some task) : Gone t (apiExit k t status) := by
  have hbadge := badge_closeAll k t t
  have hclosed := history_closeAll k t
  rw [ht, Option.map_some] at hbadge
  rw [apiExit_eq]
  generalize dirCloseAll (fdCloseAll (taskReleaseAllocations k t) t) t = k₁ at hbadge hclosed ⊢
  obtain ⟨task₁, ht₁, -⟩ := Option.map_eq_some_iff.mp hbadge
  rw [ht₁]
  refine ⟨status, ?_⟩
  show _ ∈ (wakeWaitingParent (retire k₁ t task₁ status) task₁).history
  rw [(history_wakeWaitingParent _ _).1, history_retire]
  exact List.mem_append_right _ (List.mem_singleton.mpr rfl)

/-- What a round of the scheduler does with the task it picks. -/
inductive OwnRound (h : Host) (k : Kernel) (t : TaskId) (task : Task) : Kernel → Prop
  | interrupted {k' : Kernel} : task.interrupted = true → Gone t k' → OwnRound h k t task k'
  | started : task.interrupted = false → task.frame = .entry →
      OwnRound h k t task ((dispatch (roused h k) t).setTask t fun task => { task with frame := .program })
  | yielded : task.interrupted = false → task.frame = .program → OwnRound h k t task (dispatch (roused h k) t)
  | resumed : task.interrupted = false → task.frame ≠ .entry → task.frame ≠ .program →
      OwnRound h k t task (deliver t (goOn h (dispatch (roused h k) t) t task.frame))

theorem ownRound {h : Host} {task : Task} (hpick : pickRunnable (roused h k) = some t)
    (ht : (roused h k).task t = some task) : OwnRound h k t task (scheduleRound h k) := by
  have ht₁ : (dispatch (roused h k) t).task t = some { task with state := .running } := Kernel.task_setTask_self _ ht
  rw [scheduleRound_eq, hpick]
  dsimp only
  cases hint : task.interrupted with
  | true =>
    refine .interrupted hint ?_
    rw [CannedBsd.resume, ht₁]
    dsimp only
    rw [if_pos]
    · exact gone_apiExit (Kernel.task_setTask_self _ ht₁)
    · simpa [Task.interrupted] using hint
  | false =>
    have hno : ¬ (task.interruptPending = true ∧ task.interruptIgnored = false) := by
      simpa [Task.interrupted] using hint
    by_cases hentry : task.frame = .entry
    · rw [CannedBsd.resume, ht₁]
      dsimp only
      rw [if_neg hno, hentry]
      exact .started hint hentry
    by_cases hprogram : task.frame = .program
    · rw [CannedBsd.resume, ht₁]
      dsimp only
      rw [if_neg hno, hprogram]
      exact .yielded hint hprogram
    · rw [resume_goOn ht₁ hint hentry hprogram]
      exact .resumed hint hentry hprogram

/-- A round in which the call of the task goes on has picked the task. -/
theorem resumed_eq_some {h : Host} {r : Kernel × Outcome} (hres : resumed h k t = some r) :
    ∃ task, pickRunnable (roused h k) = some t ∧ (roused h k).task t = some task ∧ task.state = .runnable ∧
      task.interrupted = false ∧ goOn h (dispatch (roused h k) t) t task.frame = r := by
  rw [resumed] at hres
  split at hres
  · rename_i hpick
    obtain ⟨-, task, ht, hst⟩ := pickRunnable_eq_some hpick
    rw [ht] at hres
    dsimp only at hres
    split at hres
    · cases hres
    · rename_i hint
      exact ⟨task, hpick, ht, hst, by simpa using hint, Option.some.inj hres⟩
  · cases hres

/-- A round of the scheduler that resumes the task ends it, or suspends it as it was. -/
theorem Seated.resume {h : Host} (hs : Seated t T ds w k) (hpick : pickRunnable (roused h k) = some t)
    (hno : ∀ k' r out, resumed h k t ≠ some (k', .done r out)) :
    Gone t (scheduleRound h k) ∨ Seated t T ds w (scheduleRound h k) := by
  obtain ⟨-, task, ht, hst⟩ := pickRunnable_eq_some hpick
  have hroused : Seated t T ds w (roused h k) :=
    hs.of_seatOf (quiet_seat.of_settled (settled_roused h t k)) (deeds_of_history (history_roused h k))
  obtain ⟨hds, task', ht', hT, hw, hpend⟩ := hroused
  rw [ht, Option.some.injEq] at ht'
  subst ht'
  have hresumed : task.interrupted = false →
      resumed h k t = some (goOn h (dispatch (roused h k) t) t task.frame) := by
    intro hint
    rw [resumed, if_pos hpick, ht]
    dsimp only
    rw [hint]
    rfl
  have ht₁ : (dispatch (roused h k) t).task t = some { task with state := .running } := Kernel.task_setTask_self _ ht
  have hround := ownRound hpick ht
  generalize scheduleRound h k = k' at hround ⊢
  cases hround with
  | interrupted hint hgone => exact .inl hgone
  | started hint hentry =>
    refine .inr ⟨hds, _, Kernel.task_setTask_self _ ht₁, hT, ?_, hpend⟩
    rw [← hw, hentry]
    rfl
  | yielded hint hprogram =>
    have hdone := hresumed hint
    rw [hprogram] at hdone
    exact absurd hdone (hno _ _ _)
  | resumed hint hentry hprogram =>
    right
    have hdone := hresumed hint
    have hstays := goOn_stays h (dispatch (roused h k) t) t hentry
    have hblock := @goOn_block (dispatch (roused h k) t) t h task.frame
    have hds₁ : deeds t (dispatch (roused h k) t) = ds := hds
    generalize dispatch (roused h k) t = k₁ at ht₁ hdone hstays hblock hds₁ ⊢
    generalize goOn h k₁ t task.frame = r at hdone hstays hblock ⊢
    obtain ⟨k₂, o⟩ := r
    cases o with
    | gone => exact hstays.elim
    | done r out => exact absurd hdone (hno _ _ _)
    | block state frame =>
      obtain ⟨hwaits, hkeep, hsame⟩ := hblock hentry rfl
      rw [ht₁, Option.map_some] at hkeep
      obtain ⟨task₂, ht₂, hgear⟩ := Option.map_eq_some_iff.mp hkeep
      obtain ⟨hT₂, hpend₂⟩ : task₂.descriptors = task.descriptors ∧
          task₂.pendingExecutableNode = task.pendingExecutableNode := by
        simpa [Task.gear] using hgear
      exact ⟨(deeds_of_history hsame).trans hds₁, _, Kernel.task_setTask_self _ ht₂, hT₂.trans hT, hwaits.trans hw,
        hpend₂.trans hpend⟩

/-- **Waiting.**  What others do leaves the seat of a task alone, as long as the task is there. -/
theorem Seated.step (hp : Poised k l) (h : Seated t T ds w k) (hok : otherStep t k a) (hs : step k a = some k') :
    Gone t k' ∨ Seated t T ds w k' := by
  obtain ⟨-, task, ht, -, -, hpend⟩ := id h
  by_cases hown : ownStep t k a
  · -- the only step of its own that `otherStep` admits is a round that suspends it again
    cases a with
    | call host op => exact absurd hown (hok.1 host op rfl)
    | schedule host =>
      unfold CannedBsd.step at hs
      split at hs
      · cases hs
      dsimp only at hs
      split at hs
      · rw [Option.some.injEq] at hs
        rw [← hs]
        exact h.resume hown fun k'' r out => hok.2 host k'' r out rfl
      · cases hs
    | finishExec host => exact absurd hpend (hp.pledged t task hown ht)
    | _ => cases hown
  · rcases quiet_seat.step hp ht hown hs with hgone | ⟨hseat, hdeeds⟩
    · exact .inl hgone
    · exact .inr (h.of_seatOf hseat hdeeds)

/-- As long as the task runs, nothing of it changes without its calls. -/
theorem Poised.reach_running (hp : Poised k l) (hc : k.current = some t) (hr : Reach CannedBsd.step (otherStep t) k k') :
    (∃ l', Poised k' l') ∧ k'.current = some t ∧ seatOf t k' = seatOf t k ∧ deeds t k' = deeds t k := by
  induction hr with
  | init => exact ⟨⟨l, hp⟩, hc, rfl, rfl⟩
  | @step k₁ k₂ a _ hok hs ih =>
    obtain ⟨⟨l₁, hp₁⟩, hc₁, hseat, hdeeds⟩ := ih
    obtain ⟨l₂, -, hp₂, -⟩ := hp₁.step hs
    have hembed : a.embeds = true := by
      cases a with
      | call host op => exact absurd hc₁ (hok.1 host op rfl)
      | schedule host => simp [CannedBsd.step, hc₁] at hs
      | finishExec host => simp [CannedBsd.step, hp₁.base.not_finishing hc₁] at hs
      | _ => rfl
    obtain ⟨-, task, ht, -⟩ := hp₁.base.roster.current hc₁
    obtain ⟨hseat₂, hdeeds₂, hc₂⟩ := step_embeds (t := t) quiet_seat hp₁ hs hembed (Heap.lt_next_of_get ht)
    exact ⟨⟨l₂, hp₂⟩, hc₂.trans hc₁, hseat₂.trans hseat, hdeeds₂.trans hdeeds⟩

/-- As long as the task waits, nothing of it changes, unless it is ended. -/
theorem Poised.reach_seated (hp : Poised k l) (h : Seated t T ds w k) (hr : Reach CannedBsd.step (otherStep t) k k') :
    (∃ l', Poised k' l') ∧ (Gone t k' ∨ Seated t T ds w k') := by
  induction hr with
  | init => exact ⟨⟨l, hp⟩, .inr h⟩
  | @step k₁ k₂ a _ hok hs ih =>
    obtain ⟨⟨l₁, hp₁⟩, hseat⟩ := ih
    obtain ⟨l₂, -, hp₂, -⟩ := hp₁.step hs
    refine ⟨⟨l₂, hp₂⟩, ?_⟩
    rcases hseat with hgone | hseat
    · exact .inl (hp₁.gone_step hs hgone)
    · exact hseat.step hp₁ hok hs

/-- A task that has exited is not resumed. -/
theorem Poised.not_gone {task : Task} (hp : Poised k l) (hmem : t ∈ k.order) (ht : k.task t = some task)
    (hrun : task.state ≠ .zombie) : ¬ Gone t k := by
  rintro ⟨status, hexit⟩
  exact hrun (hp.base.lineage.left hexit hmem ht)

end CannedBsd
