import CannedBsd.Lib.Rotation
import CannedBsd.Kernel.Deadlock
import CannedBsd.Kernel.Privacy

/-!
# Turns of the scheduler

`pick_runnable` scans the task list behind the task it picked last. New tasks come in front of the
list, `api_waitpid` takes zombies out, and the task that calls either of them is the one picked last.
So a runnable task that a scan reaches before `t` is reached before `t` by every later scan, until it
has had its turn.

* `Waits.step`: a step that does not give `u` its turn keeps it waiting in front of `t`.
* `Waits.run`: over a run, `t` does not come before `u`.
* `round_robin_never_overtakes`: between two turns of a task every task that stays runnable has had one.
-/

namespace CannedBsd

open CannedBsd.Lib

variable {k k' : Kernel} {t u c : TaskId} {l : NodeId → ℕ}

/-! ### The cursor -/

/-- The running task is the one that was picked last. -/
def Follows (k : Kernel) : Prop := ∀ t, k.current = some t → k.scheduleCursor = some t

theorem Follows.same (h : Follows k) (hcur : k'.current = k.current) (hcursor : k'.scheduleCursor = k.scheduleCursor) :
    Follows k' := by
  intro t ht
  rw [hcursor]
  exact h t (hcur ▸ ht)

theorem follows_of_idle (h : k.current = none) : Follows k := by
  intro t ht
  rw [h] at ht
  cases ht

theorem Follows.sched {fl fl' : Flight} (h : Follows k) (hr : Roster k fl) (hs : Sched k fl k' fl') : Follows k' := by
  cases hs with
  | calm hcalm => exact h.same hcalm.rest.current hcalm.cursor
  | dispatch =>
    intro t ht
    exact ht
  | yield => exact follows_of_idle rfl
  | exec => exact follows_of_idle rfl
  | restart hfin => exact follows_of_idle (hr.idle hfin)
  | leave => exact follows_of_idle rfl
  | list => exact h.same rfl rfl
  | @unlist _ p c parent child hl hp hparent hppid hmem hchild hzombie =>
    intro t ht
    -- the running task is not a zombie
    have htk : k.current = some t := ht
    obtain ⟨-, task, htask, hrun⟩ := hr.current htk
    have hne : t ≠ c := by
      rintro rfl
      rw [hchild, Option.some.injEq] at htask
      subst htask
      rw [hzombie] at hrun
      cases hrun
    show (if k.scheduleCursor = some c then none else k.scheduleCursor) = some t
    rw [h t htk, if_neg fun heq => hne (Option.some.inj heq)]

theorem Follows.micro {gone : NodeId → Prop} {fl fl' : Flight} (h : Follows k) (hr : Roster k fl)
    (hm : Micro gone k fl k' fl') : Follows k' := by
  cases hm with
  | sched hs => exact h.sched hr hs
  | closeReader =>
    exact h.same (resting_pipeClose _ _ _).current (history_pipeClose _ _ _).2
  | closeWriter =>
    exact h.same (resting_pipeClose _ _ _).current (history_pipeClose _ _ _).2
  | _ => exact h.same rfl rfl

/-- No two tasks get the same identity. -/
theorem next_micro {gone : NodeId → Prop} {fl fl' : Flight} (hm : Micro gone k fl k' fl') :
    k.tasks.next ≤ k'.tasks.next := by
  cases hm with
  | sched hs =>
    cases hs with
    | calm hcalm => exact le_of_eq hcalm.rest.next.symm
    | @leave _ t task status =>
      have hparent : ∀ k child, (wakeWaitingParent k child).tasks.next = k.tasks.next := by
        intro k child
        rw [wakeWaitingParent]
        split
        · rfl
        · exact Heap.next_modify _ _ _
      obtain ⟨finished, bootStatus, heq⟩ := retire_eq k t task status
      refine le_of_eq ?_
      show _ = (wakeWaitingParent (retire k t task status) task).tasks.next
      rw [hparent, heq]
      exact (Heap.next_modify _ _ _).symm
    | list => exact le_rfl
    | _ => exact le_of_eq (Heap.next_modify _ _ _).symm
  | hold => exact le_of_eq (Heap.next_modify _ _ _).symm
  | create => exact (Nat.le_succ _).trans_eq (Heap.next_alloc _ _).symm
  | destroy => exact le_of_eq (Heap.next_free _ _).symm
  | closeReader =>
    rw [pipeReadClose, (resting_pipeClose _ _ _).next]
    exact le_rfl
  | closeWriter =>
    rw [pipeWriteClose, (resting_pipeClose _ _ _).next]
    exact le_rfl
  | fetch => exact le_of_eq (Resting.after (Books.calm_cbWakePipeTasks _).rest rfl rfl rfl rfl rfl).next.symm
  | store => exact le_of_eq (Resting.after (Books.calm_cbWakePipeTasks _).rest rfl rfl rfl rfl rfl).next.symm
  | _ => exact le_rfl

theorem follows_moves {gone : NodeId → Prop} {fl fl' : Flight} (hb : Base k fl) (h : Follows k)
    (hm : Moves gone k fl k' fl') : Follows k' := by
  induction hm with
  | refl => exact h
  | step hms hmic ih => exact ih.micro (hb.moves hms).roster hmic

theorem next_moves {gone : NodeId → Prop} {fl fl' : Flight} (hm : Moves gone k fl k' fl') :
    k.tasks.next ≤ k'.tasks.next := by
  induction hm with
  | refl => exact le_rfl
  | step _ hmic ih => exact ih.trans (next_micro hmic)

/-- The states of a run, with the task that was picked last. -/
theorem Reachable.follows (hr : Reachable k) : Follows k := by
  obtain ⟨h, hreach⟩ := hr
  have hboth : (∃ l, Poised k l) ∧ Follows k := by
    refine hreach.invariant (P := fun k => (∃ l, Poised k l) ∧ Follows k) ⟨⟨_, poised_cbKernelCreate h⟩, follows_of_idle rfl⟩ ?_
    rintro s a s' - hs ⟨⟨l, hpoised⟩, hfollows⟩
    obtain ⟨l', hm, hpoised', -⟩ := hpoised.step hs
    exact ⟨⟨l', hpoised'⟩, follows_moves hpoised.base hfollows hm⟩
  exact hboth.2

/-! ### What a step does to the list -/

/-- The cursor stays where it is, and the list stays, gets a new task in front, or loses a zombie that
is not at the cursor. -/
structure Relisted (k k' : Kernel) : Prop where
  cursor : k'.scheduleCursor = k.scheduleCursor
  order : k'.order = k.order ∨ k'.order = k.tasks.next :: k.order ∨
    ∃ c child, k.task c = some child ∧ child.state = .zombie ∧ k.scheduleCursor ≠ some c ∧ k'.order = k.order.erase c

theorem relisted_same (hcursor : k'.scheduleCursor = k.scheduleCursor) (horder : k'.order = k.order) : Relisted k k' :=
  ⟨hcursor, .inl horder⟩

theorem relisted_vfs (k : Kernel) (v : Vfs) : Relisted k { k with vfs := v } := relisted_same rfl rfl

/-- What a round of `api_waitpid` takes out is a zombie. -/
theorem relisted_apiWaitpid (pid : ℤ) (hcursor : k.scheduleCursor = some t) {task : Task} (ht : k.task t = some task)
    (hrun : task.state = .running) : Relisted k (apiWaitpid k t pid).1 := by
  have hround := apiWaitpid_round k t pid
  generalize apiWaitpid k t pid = r at hround
  cases hround with
  | kept o => exact relisted_same rfl rfl
  | noted o => exact relisted_same rfl rfl
  | @reaped parent child c hparent hmem hchild hppid hzombie =>
    have hne : k.scheduleCursor ≠ some c := by
      rintro heq
      rw [hcursor, Option.some.injEq] at heq
      subst heq
      rw [ht, Option.some.injEq] at hchild
      subst hchild
      rw [hrun] at hzombie
      cases hzombie
    have hdestroy : ∀ {β : Type} {view : Kernel → β}, Beyond c view → ∀ k, view (taskDestroy k c) = view k := by
      intro β view hv k
      rw [taskDestroy, hv.taskRelease hv.free, hv.dirCloseAll, fdCloseAll, hv.fdCloseWhere, hv.taskReleaseAllocations]
    dsimp only
    rw [reap]
    refine ⟨?_, .inr (.inr ⟨c, child, hchild, hzombie, hne, ?_⟩)⟩
    · rw [hdestroy (beyond_scheduleCursor c)]
      exact if_neg hne
    · rw [hdestroy (beyond_order c)]
      rfl

theorem Relisted.deliver {r : Kernel × Outcome} (h : Relisted k r.1) : Relisted k (deliver t r) := by
  have hcursor := (beyond_scheduleCursor t).deliver r
  have horder := (beyond_order t).deliver r
  exact ⟨hcursor.trans h.cursor, by rw [horder]; exact h.order⟩

theorem Relisted.keep {k'' : Kernel} (h : Relisted k k') (hcursor : k''.scheduleCursor = k'.scheduleCursor)
    (horder : k''.order = k'.order) : Relisted k k'' := by
  refine ⟨hcursor.trans h.cursor, ?_⟩
  rw [horder]
  exact h.order

theorem relisted_taskCreate (h : Host) (k : Kernel) (parent : Option TaskId) (program : Option ProgramId)
    (argv : List Bytes) (envp : Option (List Bytes)) (actions : List SpawnAction) :
    Relisted k (taskCreate h k parent program argv envp actions).1 := by
  refine ⟨?_, ?_⟩
  · rcases (beyond_scheduleCursor k.tasks.next).taskCreate h parent program argv envp actions with
      ⟨k', heq, hsame⟩ | ⟨k', e, heq, hsame⟩
    · rw [heq]
      exact hsame
    · rw [heq]
      exact hsame
  · rcases (beyond_order k.tasks.next).taskCreate h parent program argv envp actions with
      ⟨k', heq, hsame⟩ | ⟨k', e, heq, hsame⟩
    · rw [heq]
      exact .inl hsame
    · rw [heq]
      exact .inr (.inl (congrArg (k.tasks.next :: ·) hsame))

/-- `api_spawn` and `cb_kernel_boot` retain the executable before they create the task. -/
theorem relisted_created (h : Host) (k : Kernel) (n : NodeId) (parent : Option TaskId) (program : Option ProgramId)
    (argv : List Bytes) (envp : Option (List Bytes)) (actions : List SpawnAction) :
    Relisted k (taskCreate h (retainNode k (some n)) parent program argv envp actions).1 := by
  have hcreate := relisted_taskCreate h (retainNode k (some n)) parent program argv envp actions
  exact ⟨hcreate.cursor, hcreate.order⟩

theorem relisted_apiSpawn (h : Host) (k : Kernel) (t : TaskId) (programName : Bytes) (argv : List Bytes)
    (envp : Option (List Bytes)) (actions : List SpawnAction) :
    Relisted k (apiSpawn h k t programName argv envp actions).1 := by
  rw [apiSpawn]
  split
  · exact relisted_same rfl rfl
  split
  · exact relisted_same rfl rfl
  split
  · exact relisted_same rfl rfl
  rename_i n _
  have hcreate := relisted_created h k n (some t) (executableOf k n) argv envp actions
  split
  · rename_i k' heq
    rw [heq] at hcreate
    exact hcreate.keep rfl rfl
  · rename_i k' c heq
    rw [heq] at hcreate
    exact hcreate.keep rfl rfl

theorem bootConsole_list (h : Host) (k : Kernel) (c : TaskId) :
    (bootConsole h k c).scheduleCursor = k.scheduleCursor ∧ (bootConsole h k c).order = k.order := by
  rw [bootConsole]
  split
  · exact ⟨rfl, rfl⟩
  · dsimp only [cbOpenFileCreate]
    refine ⟨?_, ?_⟩
    · have hv := beyond_scheduleCursor c
      show Kernel.scheduleCursor (fdInstallAt _ c _ _ _) = _
      rw [hv.fdInstallAt, hv.fdInstallAt, hv.fdInstallAt]
    · have hv := beyond_order c
      show Kernel.order (fdInstallAt _ c _ _ _) = _
      rw [hv.fdInstallAt, hv.fdInstallAt, hv.fdInstallAt]

theorem relisted_cbKernelBoot (h : Host) (k : Kernel) (command : Option Bytes) :
    Relisted k (cbKernelBoot h k command) := by
  have hwith : ∀ n argv, Relisted k (bootWith h k n argv) := by
    intro n argv
    have hcreate := relisted_created h k n none (executableOf k n) argv (some [homeSetting, pathSetting]) []
    rw [bootWith]
    split
    · rename_i k' heq
      rw [heq] at hcreate
      exact hcreate.keep rfl rfl
    · rename_i k' c heq
      rw [heq] at hcreate
      obtain ⟨hcursor, horder⟩ := bootConsole_list h (k'.setTask c fun task => { task with executableNode := some n }) c
      exact hcreate.keep hcursor horder
  unfold cbKernelBoot
  split
  · exact relisted_same rfl rfl
  split
  · exact relisted_same rfl rfl
  · exact hwith _ _

theorem relisted_cbKernelRegister (h : Host) (k : Kernel) (program : Program) :
    Relisted k (cbKernelRegister h k program) := by
  obtain ⟨v, heq⟩ := cbKernelRegister_vfs h k program
  rw [heq]
  exact relisted_same rfl rfl

theorem relisted_cbKernelRequestInterrupt (k : Kernel) (pid : ℤ) : Relisted k (cbKernelRequestInterrupt k pid).1 := by
  unfold cbKernelRequestInterrupt
  split
  · exact relisted_same rfl rfl
  split
  · exact relisted_same rfl rfl
  split
  · exact relisted_same rfl rfl
  split
  · exact relisted_same rfl rfl
  split
  · exact relisted_same rfl rfl
  · exact relisted_same rfl rfl

theorem relisted_cbTaskSetInterrupt (k : Kernel) (t : TaskId) (disposition : Disposition) :
    Relisted k (cbTaskSetInterrupt k t disposition).1 := by
  unfold cbTaskSetInterrupt
  split
  · exact relisted_same rfl rfl
  split
  · exact relisted_same rfl rfl
  split
  · exact relisted_same rfl rfl
  · exact relisted_same rfl rfl

/-- A call of the task that was picked last. -/
theorem relisted_call (h : Host) (op : Op) (hcursor : k.scheduleCursor = some t) {task : Task}
    (ht : k.task t = some task) (hrun : task.state = .running) : Relisted k (deliver t (perform h k t op)) := by
  refine Relisted.deliver ?_
  have hplain : op.solitary = true → Relisted k (perform h k t op).1 := by
    intro hop
    exact relisted_same ((beyond_scheduleCursor t).perform h k hop) ((beyond_order t).perform h k hop)
  cases hop : op.solitary with
  | true => exact hplain hop
  | false =>
    cases op with
    | spawn programName argv envp actions => exact relisted_apiSpawn h k t programName argv envp actions
    | exec programName argv envp =>
      exact relisted_same ((beyond_scheduleCursor t).apiExec h k programName argv envp)
        ((beyond_order t).apiExec h k programName argv envp)
    | exit status =>
      dsimp only [perform]
      exact relisted_same ((beyond_scheduleCursor t).apiExit k status) ((beyond_order t).apiExit k status)
    | waitpid pid => exact relisted_apiWaitpid pid hcursor ht hrun
    | _ => cases hop

/-- A task that has just been switched to. -/
theorem relisted_resume (h : Host) (hcursor : k.scheduleCursor = some t) {task : Task}
    (ht : k.task t = some task) (hrun : task.state = .running) : Relisted k (resume h k t) := by
  have hc := beyond_scheduleCursor t
  have ho := beyond_order t
  rw [resume, ht]
  dsimp only
  split
  · refine relisted_same ?_ ?_
    · rw [hc.apiExit, hc.setTask]
    · rw [ho.apiExit, ho.setTask]
  split
  · exact relisted_same rfl rfl
  · exact relisted_same rfl rfl
  · exact (relisted_same (hc.pipeRead k _ _) (ho.pipeRead k _ _)).deliver
  · exact (relisted_same (hc.pipeWriteLoop _ _ _ _ _ _) (ho.pipeWriteLoop _ _ _ _ _ _)).deliver
  · refine Relisted.deliver ?_
    rw [consoleRead_kernel]
    exact relisted_same rfl rfl
  · exact (relisted_apiWaitpid _ hcursor ht hrun).deliver
  · refine Relisted.deliver ?_
    rw [pollLoop_kernel]
    exact relisted_same rfl rfl

/-! ### Turns -/

/-- The task can be picked. -/
def Runnable (k : Kernel) (t : TaskId) : Prop := t ∈ k.order ∧ ∃ task, k.task t = some task ∧ task.state = .runnable

instance (k : Kernel) (t : TaskId) : Decidable (Runnable k t) :=
  decidable_of_iff (t ∈ k.order ∧ (k.task t).any (fun task => task.state = .runnable) = true) (by
    rw [Runnable, Option.any_eq_true]
    simp only [decide_eq_true_eq])

/-- The task that the action switches to. -/
def dispatched (k : Kernel) : Action → Option TaskId
  | .schedule h => pickRunnable (roused h k)
  | _ => none

/-- The task is runnable in every state of the run until it is dispatched. -/
def StaysRunnable (u : TaskId) : Kernel → List Action → Prop
  | k, [] => Runnable k u
  | k, a :: as => Runnable k u ∧ (dispatched k a ≠ some u → ∀ k', step k a = some k' → StaysRunnable u k' as)

/-- Whether it does can be decided. -/
def decideStaysRunnable (u : TaskId) : (k : Kernel) → (as : List Action) → Decidable (StaysRunnable u k as)
  | k, [] => inferInstanceAs (Decidable (Runnable k u))
  | k, a :: as =>
    have : Decidable (∀ k', step k a = some k' → StaysRunnable u k' as) :=
      match hs : step k a with
      | none => .isTrue fun k' h => absurd h (by simp)
      | some k' =>
        have := decideStaysRunnable u k' as
        decidable_of_iff (StaysRunnable u k' as) (by
          constructor
          · intro h k'' heq
            cases heq
            exact h
          · intro h
            exact h k' rfl)
    inferInstanceAs (Decidable (Runnable k u ∧ (dispatched k a ≠ some u → _)))

instance (u : TaskId) (k : Kernel) (as : List Action) : Decidable (StaysRunnable u k as) := decideStaysRunnable u k as

/-- The task is dispatched in the run. -/
def GetsTurn (u : TaskId) : Kernel → List Action → Prop
  | _, [] => False
  | k, a :: as => dispatched k a = some u ∨ ∃ k', step k a = some k' ∧ GetsTurn u k' as

theorem scanOrder_eq (k : Kernel) : scanOrder k = Lib.rotation k.scheduleCursor k.order := by
  unfold scanOrder Lib.rotation
  cases k.scheduleCursor with
  | none => rfl
  | some c =>
    dsimp only
    cases (k.order.dropWhile (· ≠ c)).tail with
    | nil => rfl
    | cons a after => rfl

theorem pickRunnable_eq_none : pickRunnable k = none ↔ ∀ t, ¬ Runnable k t := by
  constructor
  · rintro hpick t ⟨hmem, task, ht, hst⟩
    exact not_runnable_of_pick hpick hmem ht hst
  · intro hnone
    cases hpick : pickRunnable k with
    | none => rfl
    | some t => exact absurd (pickRunnable_eq_some hpick) (hnone t)

theorem order_roused (h : Host) (k : Kernel) :
    (roused h k).order = k.order ∧ (roused h k).scheduleCursor = k.scheduleCursor := by
  rw [roused]
  split <;> exact ⟨rfl, rfl⟩

theorem runnable_roused (h : Host) (hu : Runnable k u) : Runnable (roused h k) u := by
  obtain ⟨hmem, task, ht, hst⟩ := hu
  have hkeep : ∀ {k : Kernel} {f : Task → Task}, (∀ task, task.state = .runnable → (f task).state = .runnable) →
      (∃ task, k.task u = some task ∧ task.state = .runnable) →
      ∃ task, (forTasks k f).task u = some task ∧ task.state = .runnable := by
    rintro k f hf ⟨task, ht, hst⟩
    refine ⟨if u ∈ k.order then f task else task, ?_, ?_⟩
    · rw [forTasks, Kernel.task, Heap.get_map]
      exact congrArg (Option.map _) ht
    · split
      · exact hf task hst
      · exact hst
  have hconsole : ∀ task : Task, task.state = .runnable → (wakeConsoleTask task).state = .runnable := by
    intro task hst
    simp [wakeConsoleTask, hst]
  have hexpired : ∀ task : Task, task.state = .runnable → (wakeExpired (h.monotonic 0) task).state = .runnable := by
    intro task hst
    simp [wakeExpired, hst]
  refine ⟨(order_roused h k).1 ▸ hmem, ?_⟩
  rw [roused]
  refine hkeep hexpired ?_
  split
  · exact hkeep hconsole ⟨task, ht, hst⟩
  · exact ⟨task, ht, hst⟩

/-- Of the tasks that are runnable, `pick_runnable` picks one that the scan does not reach behind `u`. -/
theorem pick_before (hnodup : k.order.Nodup) (hb : Before u t (scanOrder k)) (hu : Runnable k u) {v : TaskId}
    (hpick : pickRunnable k = some v) : v = u ∨ v ≠ t ∧ Before u t (Lib.rotation (some v) k.order) := by
  by_cases hvu : v = u
  · exact .inl hvu
  obtain ⟨-, pre, post, hscan, hpre⟩ := List.find?_eq_some_iff_append.mp hpick
  have hupre : u ∉ pre := by
    intro hmem
    obtain ⟨-, task, ht, hst⟩ := hu
    have hnot := hpre u hmem
    rw [ht, Option.any_some, hst] at hnot
    cases hnot
  rw [hscan] at hb
  obtain ⟨hvt, -, hbehind⟩ := hb.behind (Ne.symm hvu) hupre
  rw [scanOrder_eq] at hscan
  rw [rotation_advance hnodup hscan]
  exact .inr ⟨hvt, (hbehind.append pre).append [v]⟩

/-- The next scan reaches `u` before `t`, and no new task will be mistaken for `t`. -/
structure Waits (u t : TaskId) (k : Kernel) : Prop where
  before : Before u t (scanOrder k)
  known : t < k.tasks.next
  cursor : ∃ c, k.scheduleCursor = some c

/-- The list changes behind the cursor and `u` keeps its place. -/
theorem Relisted.before {fl : Flight} (h : Relisted k k') (hb : Base k fl) (hw : Waits u t k) (hu : Runnable k u) :
    Before u t (scanOrder k') := by
  obtain ⟨c, hc⟩ := hw.cursor
  have hcmem : c ∈ k.order := hb.lineage.cursor hc
  have hbefore := hw.before
  rw [scanOrder_eq, hc] at hbefore
  rw [scanOrder_eq, h.cursor, hc]
  rcases h.order with heq | heq | ⟨x, child, hchild, hzombie, hxc, heq⟩
  · rw [heq]
    exact hbefore
  · rw [heq]
    obtain ⟨task, ht⟩ := hb.roster.live hcmem
    exact before_cons hcmem (Nat.ne_of_gt hw.known) (Nat.ne_of_gt (Heap.lt_next_of_get ht)) hbefore
  · rw [heq]
    obtain ⟨-, task, ht, hst⟩ := hu
    have hxu : x ≠ u := by
      rintro rfl
      rw [ht, Option.some.injEq] at hchild
      subst hchild
      rw [hst] at hzombie
      cases hzombie
    refine before_erase hb.roster.nodup hcmem (fun hx => hxc ?_) hxu hbefore
    rw [hc, hx]

/-- What a step that is no round of the scheduler does to the list. -/
theorem relisted_step {a : Action} (hb : Base k (.rest l)) (hf : Follows k) (ha : ∀ h, a ≠ .schedule h)
    (hs : step k a = some k') : Relisted k k' := by
  unfold step at hs
  split at hs
  · cases hs
  cases a with
  | call h op =>
    cases hc : k.current with
    | none => simp [hc] at hs
    | some t =>
      simp only [hc, Option.some.injEq] at hs
      subst hs
      obtain ⟨-, task, ht, hrun⟩ := hb.roster.current hc
      exact relisted_call h op (hf t hc) ht hrun
  | schedule h => exact absurd rfl (ha h)
  | finishExec h =>
    obtain ⟨t, -, rfl⟩ := Option.map_eq_some_iff.mp hs
    exact relisted_same ((beyond_scheduleCursor t).taskFinishExec h k) ((beyond_order t).taskFinishExec h k)
  | requestInterrupt pid =>
    cases hs
    exact relisted_cbKernelRequestInterrupt k pid
  | setInterrupt t disposition =>
    dsimp only at hs
    split at hs
    · cases hs
      exact relisted_cbTaskSetInterrupt k t disposition
    · cases hs
  | mountCreate h =>
    cases hs
    exact relisted_vfs k _
  | mountPath t path m =>
    dsimp only at hs
    split at hs
    · cases hs
      exact relisted_vfs k _
    · cases hs
  | register h program =>
    cases hs
    exact relisted_cbKernelRegister h k program
  | boot h command =>
    cases hs
    exact relisted_cbKernelBoot h k command

theorem runnable_dispatch {v : TaskId} (hu : Runnable k u) (hne : u ≠ v) : Runnable (dispatch k v) u := by
  obtain ⟨hmem, task, ht, hst⟩ := hu
  exact ⟨hmem, task, (Kernel.task_setTask_of_ne k _ hne).trans ht, hst⟩

/-- A round that dispatches `v` leaves the cursor at `v`; `resume` changes the list from there. -/
theorem waits_scheduleRound {h : Host} {v : TaskId} (hb : Base k (.rest l)) (hcur : k.current = none)
    (hfin : k.finishing = none) (hpick : pickRunnable (roused h k) = some v) (hu : Runnable (roused h k) u)
    (huv : u ≠ v) (ht : t < k.tasks.next) (ht' : t < (scheduleRound h k).tasks.next)
    (hbefore : Before u t (Lib.rotation (some v) k.order)) : Waits u t (scheduleRound h k) := by
  have hwake : Path noNode k (.rest l) (roused h k) (.rest l) := roused_path h k
  obtain ⟨hmem, task, hv, hst⟩ := pickRunnable_eq_some hpick
  have hgo : Moves noNode (roused h k) (.rest l) (dispatch (roused h k) v) (.resumed l task.frame) :=
    .single (.sched (.dispatch (hwake.steady.current.trans hcur) (hwake.steady.finishing.trans hfin) hmem hv hst rfl))
  have hrunner : (dispatch (roused h k) v).task v = some { task with state := .running } :=
    Kernel.task_setTask_self _ hv
  have hknown : t < (dispatch (roused h k) v).tasks.next := ht.trans_le (next_moves (hwake.moves.trans hgo))
  have hlisted : Relisted (dispatch (roused h k) v) (scheduleRound h k) := by
    rw [scheduleRound_eq, hpick]
    exact relisted_resume h rfl hrunner rfl
  have hwaits : Waits u t (dispatch (roused h k) v) := by
    refine ⟨?_, hknown, v, rfl⟩
    rw [scanOrder_eq]
    show Before u t (Lib.rotation (some v) (roused h k).order)
    rw [(order_roused h k).1]
    exact hbefore
  exact ⟨hlisted.before ((hwake.base hb).moves hgo) hwaits (runnable_dispatch hu huv), ht', v, hlisted.cursor⟩

/-- A round that finds no task. -/
theorem waits_idleRound (h : Host) (hw : Waits u t k) (ht : t < (idleRound h (roused h k)).tasks.next) :
    Waits u t (idleRound h (roused h k)) := by
  obtain ⟨horder, hcursor⟩ := order_roused h k
  have hidle : (idleRound h (roused h k)).order = k.order ∧
      (idleRound h (roused h k)).scheduleCursor = k.scheduleCursor := by
    rw [idleRound]
    split
    · split
      · exact ⟨horder, hcursor⟩
      · exact ⟨horder, hcursor⟩
    split
    · exact ⟨horder, hcursor⟩
    · exact ⟨horder, hcursor⟩
  refine ⟨?_, ht, ?_⟩
  · rw [scanOrder_eq, hidle.1, hidle.2, ← scanOrder_eq]
    exact hw.before
  · rw [hidle.2]
    exact hw.cursor

/-- A round of the scheduler happens between two tasks. -/
theorem step_schedule {h : Host} (hs : step k (.schedule h) = some k') :
    k.current = none ∧ k.finishing = none ∧ k' = scheduleRound h k := by
  unfold step at hs
  split at hs
  · cases hs
  dsimp only at hs
  split at hs
  · rename_i hready
    rw [Option.some.injEq] at hs
    exact ⟨hready.1, hready.2.1, hs.symm⟩
  · cases hs

/-- The scan of the next round reaches the same tasks in the same order. -/
theorem Waits.pick {h : Host} {v : TaskId} (hb : Base k (.rest l)) (hw : Waits u t k) (hu : Runnable k u)
    (hpick : pickRunnable (roused h k) = some v) : v = u ∨ v ≠ t ∧ Before u t (Lib.rotation (some v) k.order) := by
  obtain ⟨horder, hcursor⟩ := order_roused h k
  have hbefore : Before u t (scanOrder (roused h k)) := by
    rw [scanOrder_eq, horder, hcursor, ← scanOrder_eq]
    exact hw.before
  have hpicked := pick_before (horder ▸ hb.roster.nodup) hbefore (runnable_roused h hu) hpick
  rwa [horder] at hpicked

/-- A step that does not give `u` its turn keeps it waiting in front of `t`. -/
theorem Waits.step {a : Action} (hp : Poised k l) (hf : Follows k) (hw : Waits u t k) (hu : Runnable k u)
    (hs : step k a = some k') (hturn : dispatched k a ≠ some u) : Waits u t k' := by
  obtain ⟨l', hm, -⟩ := hp.step hs
  have hknown : t < k'.tasks.next := hw.known.trans_le (next_moves hm)
  by_cases ha : ∃ h, a = .schedule h
  · obtain ⟨h, rfl⟩ := ha
    obtain ⟨hcur, hfin, rfl⟩ := step_schedule hs
    cases hpick : pickRunnable (roused h k) with
    | none =>
      rw [scheduleRound_eq, hpick] at hknown ⊢
      exact waits_idleRound h hw hknown
    | some v =>
      have huv : u ≠ v := by
        rintro rfl
        exact hturn hpick
      rcases hw.pick hp.base hu hpick with heq | ⟨-, hbefore⟩
      · exact absurd heq.symm huv
      · exact waits_scheduleRound hp.base hcur hfin hpick (runnable_roused h hu) huv hw.known hknown hbefore
  · have hlisted : Relisted k k' := relisted_step hp.base hf (fun h heq => ha ⟨h, heq⟩) hs
    refine ⟨hlisted.before hp.base hw hu, hknown, ?_⟩
    rw [hlisted.cursor]
    exact hw.cursor

theorem Reachable.step {a : Action} (hr : Reachable k) (hs : step k a = some k') : Reachable k' := by
  obtain ⟨h, hreach⟩ := hr
  exact ⟨h, hreach.step trivial hs⟩

/-- Over a run, `t` does not come before `u`. -/
theorem Waits.run {h : Host} {k₂ : Kernel} {as : List Action} (hr : Reachable k) (hw : Waits u t k) (hne : u ≠ t)
    (hrun : run CannedBsd.step k as = some k₂) (hstays : StaysRunnable u k as)
    (hlast : pickRunnable (roused h k₂) = some t) : GetsTurn u k as := by
  induction as generalizing k with
  | nil =>
    cases hrun
    obtain ⟨l, hp⟩ := hr.poised
    rcases hw.pick hp.base hstays hlast with heq | ⟨hnot, -⟩
    · exact absurd heq.symm hne
    · exact absurd rfl hnot
  | cons a as ih =>
    obtain ⟨k', hs, hrest⟩ := Option.bind_eq_some_iff.mp hrun
    by_cases hturn : dispatched k a = some u
    · exact .inl hturn
    · obtain ⟨l, hp⟩ := hr.poised
      have hw' : Waits u t k' := hw.step hp hr.follows hstays.1 hs hturn
      exact .inr ⟨k', hs, ih (hr.step hs) hw' hrest (hstays.2 hturn k' hs)⟩

/-- **Round robin.**  `pick_runnable` finds no task exactly when no task of the list is runnable. In
every run, between two rounds that dispatch `t`, every other task that was runnable at the first of
them and stays so until it is dispatched gets its turn, whatever else is spawned, reaped, blocked or
woken in between. -/
theorem round_robin_never_overtakes :
    (∀ k, pickRunnable k = none ↔ ∀ t, ¬ Runnable k t) ∧
    ∀ (k k₁ k₂ k₃ : Kernel) (h h' : Host) (t u : TaskId) (as : List Action), Reachable k →
      step k (.schedule h) = some k₁ → dispatched k (.schedule h) = some t → Runnable (roused h k) u → u ≠ t →
      run step k₁ as = some k₂ → StaysRunnable u k₁ as → step k₂ (.schedule h') = some k₃ →
      dispatched k₂ (.schedule h') = some t → GetsTurn u k₁ as := by
  refine ⟨fun k => pickRunnable_eq_none, ?_⟩
  intro k k₁ k₂ k₃ h h' t u as hr hs hpick hu hne hrun hstays _ hlast
  obtain ⟨l, hp⟩ := hr.poised
  obtain ⟨l', hm, -⟩ := hp.step hs
  have hr₁ := hr.step hs
  obtain ⟨hcur, hfin, rfl⟩ := step_schedule hs
  obtain ⟨horder, -⟩ := order_roused h k
  obtain ⟨hmem, -⟩ := pickRunnable_eq_some hpick
  rw [horder] at hmem
  obtain ⟨task, ht⟩ := hp.base.roster.live hmem
  have hknown : t < k.tasks.next := Heap.lt_next_of_get ht
  have hfirst : Before u t (Lib.rotation (some t) k.order) :=
    before_self hmem (horder ▸ hu.1) hne hp.base.roster.nodup
  have hw := waits_scheduleRound hp.base hcur hfin hpick hu hne hknown (hknown.trans_le (next_moves hm)) hfirst
  exact hw.run hr₁ hne hrun hstays hlast

/-- The shell has spawned a second shell; both have yielded. -/
def pairOfShells : Kernel :=
  stateAfter (shellStart ++ calls [.spawn shName [shName] none [], .yield] ++ [.schedule .calm] ++ calls [.yield])

/-- The shell has its turn, and spawns a third one before it yields. -/
def turns : List Action :=
  calls [.spawn shName [shName] none [], .yield] ++ [.schedule .calm] ++ calls [.yield] ++ [.schedule .calm] ++ calls [.yield]

/-- Before the first shell has its next turn the second one has one. -/
theorem round_robin_never_overtakes_pair :
    ∃ k₁, step pairOfShells (.schedule .calm) = some k₁ ∧ GetsTurn 1 k₁ turns := by
  have hrun : ((step pairOfShells (.schedule .calm)).any fun k₁ =>
      decide (dispatched pairOfShells (.schedule .calm) = some 0 ∧ Runnable (roused .calm pairOfShells) 1 ∧
        StaysRunnable 1 k₁ turns) &&
      (run step k₁ turns).any fun k₂ =>
        (step k₂ (.schedule .calm)).any fun _ => decide (dispatched k₂ (.schedule .calm) = some 0)) = true := by
    decide +kernel
  obtain ⟨k₁, hs, hk₁⟩ := (Option.any_eq_true _ _).mp hrun
  rw [Bool.and_eq_true, decide_eq_true_eq] at hk₁
  obtain ⟨⟨hpick, hu, hstays⟩, hrest⟩ := hk₁
  obtain ⟨k₂, hk₂, hlast⟩ := (Option.any_eq_true _ _).mp hrest
  obtain ⟨k₃, hk₃, hturn⟩ := (Option.any_eq_true _ _).mp hlast
  exact ⟨k₁, hs, round_robin_never_overtakes.2 pairOfShells k₁ k₂ k₃ .calm .calm 0 1 turns (reachable_stateAfter _) hs hpick hu
    (by decide) hk₂ hstays hk₃ (of_decide_eq_true hturn)⟩

end CannedBsd
