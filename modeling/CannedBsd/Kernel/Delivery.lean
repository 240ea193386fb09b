import CannedBsd.Kernel.Purview
import CannedBsd.Kernel.Reentry

/-!
# Delivery of interrupts

A task that is suspended when an interrupt is requested does not come back to its program:
`cb_task_yield_as` delivers the interrupt before it returns, and so does the entry of a program that an
`exec` has put in the place of the old one. What other tasks and the embedding program do in between
does not change this, unless the embedding program makes the task ignore interrupts.

* `Doomed.step`: a suspended task with a pending interrupt stays one in every step, or it exits.
* `interrupted_task_never_resumes`: it does not get back to its program in any run.
-/

namespace CannedBsd

open CannedBsd.Lib

variable {k k' : Kernel} {t c : TaskId} {l : NodeId → ℕ}

/-! ### Whose turn it is -/

/-- What `api_exit` leaves behind: a passage, and nobody running. -/
theorem apiExit_leaves {task : Task} (ht : k.task t = some task) (status : ℤ) :
    (apiExit k t status).history = k.history ++ [.exited t status] ∧ (apiExit k t status).current = none := by
  have hbadge := badge_closeAll k t t
  have hhistory := history_closeAll k t
  rw [ht, Option.map_some] at hbadge
  obtain ⟨x, hx, -⟩ := Option.map_eq_some_iff.mp hbadge
  rw [apiExit_eq, hx]
  dsimp only
  generalize dirCloseAll (fdCloseAll (taskReleaseAllocations k t) t) t = k₁ at hhistory hx
  obtain ⟨finished, bootStatus, heq⟩ := retire_eq k₁ t x status
  refine ⟨?_, rfl⟩
  show (wakeWaitingParent (retire k₁ t x status) x).history = _
  rw [(history_wakeWaitingParent _ x).1, heq, ← hhistory]

/-- The end of a call leaves its task running or nobody. -/
theorem current_deliver_call {r : Kernel × Outcome} (hr : r.1.current = some c) (hgone : r.2 ≠ .gone) :
    (deliver c r).current = some c ∨ (deliver c r).current = none := by
  obtain ⟨k, o⟩ := r
  cases o with
  | done reply out => exact .inl ((current_deliver k reply out).trans hr)
  | block state frame => exact .inr rfl
  | gone => exact absurd rfl hgone

theorem current_exec (h : Host) (programName : Bytes) (argv : List Bytes) (envp : Option (List Bytes))
    (hc : k.current = some c) :
    (deliver c (apiExec h k c programName argv envp)).current = some c ∨
      (deliver c (apiExec h k c programName argv envp)).current = none := by
  have hfail : ∀ (k : Kernel) (e : Errno), k.current = some c → (deliver c (k, .fail e)).current = some c ∨
      (deliver c (k, .fail e)).current = none :=
    fun k e hc => current_deliver_call (r := (k, .fail e)) hc fun heq => Outcome.noConfusion heq
  rw [apiExec]
  split
  · exact hfail k _ hc
  dsimp only
  split
  · exact hfail (releaseNode (retainNode k _) _) _ hc
  · exact .inr rfl

theorem current_call (h : Host) (op : Op) (hp : Poised k l) (hc : k.current = some c) :
    (deliver c (perform h k c op)).current = some c ∨ (deliver c (perform h k c op)).current = none := by
  obtain ⟨-, task, ht, -⟩ := hp.base.roster.current hc
  cases hends : op.ends with
  | false =>
    obtain ⟨l', hend, -⟩ := perform_ends h op hp.base hc
    have hstays := perform_stays h hp.base hc hends
    generalize perform h k c op = r at hend hstays
    obtain ⟨k', o⟩ := r
    cases o with
    | done reply out => exact current_deliver_call hend.2 fun heq => Outcome.noConfusion heq
    | block state frame => exact current_deliver_call hend.2.1 fun heq => Outcome.noConfusion heq
    | gone => exact hstays.elim
  | true =>
    cases op with
    | exit status =>
      rw [perform, deliver]
      exact .inr (apiExit_leaves ht status).2
    | exec programName argv envp =>
      rw [perform]
      exact current_exec h programName argv envp hc
    | _ => cases hends

theorem current_resume (h : Host) (hc : k.current = some c) :
    (resume h k c).current = some c ∨ (resume h k c).current = none := by
  have hgo : ∀ frame, frame ≠ .entry → (goOn h k c frame).2 ≠ .gone := by
    intro frame hne hgone
    have hstays := goOn_stays h k c hne
    rw [hgone] at hstays
    exact hstays
  have hback : ∀ frame, frame ≠ .entry →
      (deliver c (goOn h k c frame)).current = some c ∨ (deliver c (goOn h k c frame)).current = none :=
    fun frame hne => current_deliver_call ((current_goOn h k c frame).trans hc) (hgo frame hne)
  rw [resume]
  split
  · exact .inl hc
  rename_i task ht
  split
  · exact .inr (apiExit_leaves (Kernel.task_setTask_self _ ht) 130).2
  split
  · exact .inl hc
  · exact .inl hc
  · exact hback (.pipeRead _ _) fun heq => Frame.noConfusion heq
  · exact hback (.pipeWrite _ _ _ _) fun heq => Frame.noConfusion heq
  · exact hback (.consoleRead _) fun heq => Frame.noConfusion heq
  · exact hback (.waitpid _) fun heq => Frame.noConfusion heq
  · exact hback (.poll _) fun heq => Frame.noConfusion heq

theorem current_idleRound (h : Host) (k : Kernel) : (idleRound h k).current = k.current := by
  rw [idleRound]
  split
  · split <;> rfl
  split <;> rfl

theorem current_taskFinishExec (h : Host) (k : Kernel) (c : TaskId) : (taskFinishExec h k c).current = k.current := by
  have hinstall : ∀ k, (installProgram k c).current = k.current := by
    intro k
    rw [installProgram]
    split <;> rfl
  have hstart : ∀ k, (startInstance h k c).current = k.current := by
    intro k
    rw [startInstance]
    split <;> rfl
  rw [taskFinishExec_eq, hstart, hinstall, cleared, aloof_current.dirCloseAll fun _ _ _ => rfl, shut,
    aloof_current.fdCloseWhere fun _ _ _ => rfl]
  rfl

/-! ### Steps of others -/

/-- The embedding program causes passages in nobody's name, and gives nobody the turn. -/
theorem embeds_aside {a : Action} (hp : Poised k l) (hs : step k a = some k') (ha : a.embeds = true) :
    Appends none k k' ∧ k'.current = k.current := by
  unfold step at hs
  split at hs
  · cases hs
  cases a with
  | call | schedule | finishExec => cases ha
  | requestInterrupt pid =>
    cases hs
    exact ⟨.of_eq (part_request Kernel.history (fun _ _ _ => rfl) k pid),
      part_request Kernel.current (fun _ _ _ => rfl) k pid⟩
  | setInterrupt c disposition =>
    dsimp only at hs
    split at hs
    · cases hs
      rw [cbTaskSetInterrupt]
      split
      · exact ⟨.of_eq rfl, rfl⟩
      split
      · exact ⟨.of_eq rfl, rfl⟩
      split
      · exact ⟨.of_eq rfl, rfl⟩
      · exact ⟨.of_eq rfl, rfl⟩
    · cases hs
  | mountCreate h =>
    cases hs
    exact ⟨.of_eq rfl, rfl⟩
  | mountPath c path m =>
    dsimp only at hs
    split at hs
    · cases hs
      exact ⟨.of_eq rfl, rfl⟩
    · cases hs
  | register h program =>
    rw [Option.some.injEq] at hs
    subst hs
    obtain ⟨v, heq⟩ := cbKernelRegister_vfs h k program
    rw [heq]
    exact ⟨.of_eq rfl, rfl⟩
  | boot h command =>
    rw [Option.some.injEq] at hs
    subst hs
    obtain ⟨-, hstand⟩ : Moves noNode k (.rest l) (cbKernelBoot h k command) (.rest l) ∧ _ :=
      cbKernelBoot_moves h command hp.base rfl
    exact ⟨appends_cbKernelBoot h k command, hstand.current⟩

/-- What a step that is not its own does to a task: nothing in its name, it does not get the turn, and
unless the embedding program acts or the task has exited, only its scheduling state can change. -/
structure Aside (t : TaskId) (k k' : Kernel) (a : Action) : Prop where
  deeds : deeds t k' = CannedBsd.deeds t k
  current : k'.current = some t → k.current = some t
  still : a.embeds = false → t ∈ k.order → Gone t k ∨ stillOf t k' = stillOf t k

theorem aside_step {a : Action} (hp : Poised k l) (hs : step k a = some k') (hother : ¬ ownStep t k a) :
    Aside t k k' a := by
  have hothers : ∀ {c collected}, t ≠ c → LeavesOthers c k k' collected → Appends (some c) k k' →
      (k'.current = some c ∨ k'.current = none) → Aside t k k' a := by
    intro c collected hne hleaves happends hcurrent
    refine ⟨happends.deeds fun heq => hne (Option.some.inj heq).symm, fun hc => ?_,
      fun _ hmem => hleaves.stillOf hp hmem hne⟩
    rcases hcurrent with hsome | hnone
    · rw [hc, Option.some.injEq] at hsome
      exact absurd hsome hne
    · rw [hc] at hnone
      cases hnone
  cases hembed : a.embeds with
  | true =>
    obtain ⟨happends, hcurrent⟩ := embeds_aside hp hs hembed
    refine ⟨happends.deeds (by simp), fun hc => hcurrent.symm.trans hc, fun ha => ?_⟩
    rw [hembed] at ha
    cases ha
  | false =>
    unfold step at hs
    split at hs
    · cases hs
    cases a with
    | call host op =>
      cases hc : k.current with
      | none => simp [hc] at hs
      | some c =>
        simp only [hc, Option.some.injEq] at hs
        subst hs
        have hne : t ≠ c := by
          rintro rfl
          exact hother hc
        obtain ⟨collected, hleaves, -⟩ := (process_state_private k c host).1 (.op op)
        exact hothers hne hleaves ((appends_perform host k c op).deliver c) (current_call host op hp hc)
    | schedule host =>
      dsimp only at hs
      split at hs
      · rename_i hready
        rw [Option.some.injEq] at hs
        cases hpick : pickRunnable (roused host k) with
        | none =>
          rw [scheduleRound_eq, hpick] at hs
          dsimp only at hs
          have hhistory : k'.history = k.history := by rw [← hs, history_idleRound, history_roused]
          have hset := settled_idleRound host t (roused host k)
          rw [settled_roused host t k, hs] at hset
          have hstill := congrArg (Option.map Prod.fst) hset
          rw [Option.map_map, Option.map_map] at hstill
          have hrouse : Path noNode k (.rest l) (roused host k) (.rest l) := roused_path host k
          have hcurrent : k'.current = k.current := by rw [← hs, current_idleRound, hrouse.steady.current]
          exact ⟨deeds_of_history hhistory, fun hc => hcurrent.symm.trans hc, fun _ _ => .inr hstill⟩
        | some c =>
          have hne : t ≠ c := by
            rintro rfl
            exact hother hpick
          obtain ⟨collected, hleaves, -⟩ := scheduleRound_others hpick
          have happends : Appends (some c) k (scheduleRound host k) := by
            rw [scheduleRound_eq, hpick]
            exact (appends_resume host _ c).after (history_roused host k)
          have hcurrent : (scheduleRound host k).current = some c ∨ (scheduleRound host k).current = none := by
            rw [scheduleRound_eq, hpick]
            exact current_resume host rfl
          rw [← hs]
          rw [← hs] at hothers
          exact hothers hne hleaves happends hcurrent
      · cases hs
    | finishExec host =>
      obtain ⟨c, hc, heq⟩ := Option.map_eq_some_iff.mp hs
      have hne : t ≠ c := by
        rintro rfl
        exact hother hc
      have hleaves := (process_state_private k c host).2.2
      have hhistory := history_taskFinishExec host k c
      have hcurrent := current_taskFinishExec host k c
      rw [heq] at hleaves hhistory hcurrent
      rw [hp.base.roster.idle hc] at hcurrent
      exact hothers hne hleaves (.of_eq hhistory) (.inr hcurrent)
    | _ => cases hembed

/-! ### The steps of the interrupted task -/

/-- The task has an interrupt that it does not ignore. -/
def Interrupted (t : TaskId) (k : Kernel) : Prop := (k.task t).any Task.interrupted = true

theorem Interrupted.task (h : Interrupted t k) : ∃ task, k.task t = some task ∧ task.interrupted = true := by
  rw [Interrupted, Option.any_eq_true] at h
  exact h

theorem interrupted_of_task {task : Task} (ht : k.task t = some task) (hint : task.interrupted = true) :
    Interrupted t k := by
  rw [Interrupted, ht]
  exact hint

theorem Interrupted.stillOf (h : Interrupted t k) (hstill : stillOf t k' = stillOf t k) : Interrupted t k' := by
  obtain ⟨task, ht, hint⟩ := h.task
  rw [CannedBsd.stillOf, CannedBsd.stillOf, ht, Option.map_some] at hstill
  obtain ⟨task', ht', heq⟩ := Option.map_eq_some_iff.mp hstill
  have hbits : task'.interrupted = task.interrupted := (congrArg Task.interrupted heq :)
  exact interrupted_of_task ht' (hbits.trans hint)

/-- A task that is switched to exits instead of going on. -/
theorem resume_interrupted (h : Host) (hint : Interrupted t k) :
    (resume h k t).history = k.history ++ [.exited t 130] ∧ (resume h k t).current = none := by
  obtain ⟨task, ht, hbits⟩ := hint.task
  rw [Task.interrupted, Bool.and_eq_true, Bool.not_eq_true'] at hbits
  rw [resume, ht]
  dsimp only
  rw [if_pos hbits]
  exact apiExit_leaves (Kernel.task_setTask_self _ ht) 130

theorem interrupted_roused (h : Host) (hint : Interrupted t k) : Interrupted t (dispatch (roused h k) t) := by
  have hset := congrArg (Option.map Prod.fst) (settled_roused h t k)
  rw [Option.map_map, Option.map_map] at hset
  obtain ⟨task, ht, hbits⟩ := (hint.stillOf hset).task
  have hself : (dispatch (roused h k) t).task t = _ := Kernel.task_setTask_self _ ht
  exact interrupted_of_task hself hbits

/-- The end of an `exec` keeps the interrupt for the new program. -/
theorem interrupted_taskFinishExec (h : Host) (hp : Poised k l) (hfin : k.finishing = some t) (hint : Interrupted t k) :
    Interrupted t (taskFinishExec h k t) := by
  obtain ⟨task, ht, hbits⟩ := hint.task
  obtain ⟨-, x, hx, hst⟩ := hp.base.roster.finishing hfin
  rw [ht, Option.some.injEq] at hx
  subst hx
  obtain ⟨y, hy, hcore, -⟩ := task_cleared ht (by rw [hst]; rfl)
  have hsame : y.interrupted = task.interrupted := (congrArg Task.interrupted hcore :)
  rw [taskFinishExec_eq]
  exact interrupted_of_task (task_startInstance h hy) (hsame.trans hbits)

/-- The embedding program takes the interrupt back only by making the task ignore it. -/
theorem interrupted_embeds {a : Action} (hs : step k a = some k') (ha : a.embeds = true)
    (hne : a ≠ .setInterrupt t .ignore) (hint : Interrupted t k) : Interrupted t k' := by
  obtain ⟨task, ht, hbits⟩ := hint.task
  unfold step at hs
  split at hs
  · cases hs
  cases a with
  | call | schedule | finishExec => cases ha
  | requestInterrupt pid =>
    cases hs
    rcases request_cases k pid with heq | ⟨c, x, -, hx, -, -, hign, heq⟩
    · rw [heq]
      exact hint
    rw [heq]
    by_cases htc : t = c
    · subst htc
      refine interrupted_of_task (Kernel.task_setTask_self interrupt hx) ?_
      show (true && !x.interruptIgnored) = true
      rw [hign]
      rfl
    · exact interrupted_of_task ((Kernel.task_setTask_of_ne _ _ htc).trans ht) hbits
  | setInterrupt c disposition =>
    dsimp only at hs
    split at hs
    · cases hs
      rw [cbTaskSetInterrupt]
      split
      · exact hint
      split
      · exact hint
      split
      · exact hint
      dsimp only
      by_cases htc : t = c
      · subst htc
        have hdefault : disposition ≠ .ignore := by
          rintro rfl
          exact hne rfl
        refine interrupted_of_task (Kernel.task_setTask_self _ ht) ?_
        rw [Task.interrupted, Bool.and_eq_true] at hbits
        show ((if disposition = .ignore then false else task.interruptPending) &&
          !decide (disposition = .ignore)) = true
        rw [if_neg hdefault, hbits.1, decide_eq_false hdefault]
        rfl
      · exact interrupted_of_task ((Kernel.task_setTask_of_ne _ _ htc).trans ht) hbits
    · cases hs
  | mountCreate h =>
    cases hs
    exact hint
  | mountPath c path m =>
    dsimp only at hs
    split at hs
    · cases hs
      exact hint
    · cases hs
  | register h program =>
    rw [Option.some.injEq] at hs
    subst hs
    obtain ⟨v, heq⟩ := cbKernelRegister_vfs h k program
    rw [heq]
    exact hint
  | boot h command =>
    rw [Option.some.injEq] at hs
    subst hs
    exact hint.stillOf (stillOf_cbKernelBoot h k command (Nat.ne_of_lt (Heap.lt_next_of_get ht)))

/-! ### Runs -/

/-- The task waits for its end, or it has exited with the status of an interrupt; it has done nothing
else since it had caused the passages `ds`. -/
def Doomed (t : TaskId) (ds : List Passage) (k : Kernel) : Prop :=
  k.current ≠ some t ∧
    (Interrupted t k ∧ deeds t k = ds ∧ ¬ Gone t k ∨ deeds t k = ds ++ [.exited t 130])

theorem gone_iff_deeds : Gone t k ↔ ∃ status, .exited t status ∈ deeds t k := by
  rw [Gone]
  refine exists_congr fun status => ?_
  rw [deeds, List.mem_filter]
  exact ⟨fun h => ⟨h, decide_eq_true rfl⟩, fun h => h.1⟩

/-- A task that has exited takes no part any more. -/
theorem not_ownStep_of_gone {a : Action} (hp : Poised k l) (hgone : Gone t k) : ¬ ownStep t k a := by
  -- on the list such a task is a zombie, and a zombie neither runs nor is it runnable or inside an `exec`
  have hzombie : ∀ {task}, t ∈ k.order → k.task t = some task → task.state = .zombie := by
    intro task hmem ht
    obtain ⟨status, hexit⟩ := hgone
    exact hp.base.lineage.left hexit hmem ht
  intro hown
  cases a with
  | call host op =>
    obtain ⟨hmem, task, ht, hrun⟩ := hp.base.roster.current hown
    rw [hzombie hmem ht] at hrun
    cases hrun
  | schedule host =>
    have hrouse : Path noNode k (.rest l) (roused host k) (.rest l) := roused_path host k
    obtain ⟨hmem, task, ht, hrun⟩ := pickRunnable_eq_some hown
    rw [hrouse.steady.order] at hmem
    obtain ⟨x, hx⟩ := hp.base.roster.live hmem
    obtain ⟨x', hx', hstand⟩ := hrouse.steady.tasks hx
    rw [ht, Option.some.injEq] at hx'
    subst hx'
    have hz := hzombie hmem hx
    rcases hstand.state with hsame | ⟨hblock, -⟩
    · rw [hrun, hz] at hsame
      cases hsame
    · rw [hz] at hblock
      cases hblock
  | finishExec host =>
    obtain ⟨hmem, task, ht, hrun⟩ := hp.base.roster.finishing hown
    rw [hzombie hmem ht] at hrun
    cases hrun
  | _ => exact hown

/-- The round that picks the task is its end. -/
theorem deeds_pick {h : Host} (hs : step k (.schedule h) = some k') (hint : Interrupted t k)
    (hpick : pickRunnable (roused h k) = some t) : deeds t k' = deeds t k ++ [.exited t 130] ∧ k'.current = none := by
  unfold step at hs
  split at hs
  · cases hs
  dsimp only at hs
  split at hs
  · rw [Option.some.injEq, scheduleRound_eq, hpick] at hs
    dsimp only at hs
    obtain ⟨hhistory, hcurrent⟩ := resume_interrupted h (interrupted_roused h hint)
    rw [hs] at hhistory hcurrent
    rw [show (dispatch (roused h k) t).history = k.history from history_roused h k] at hhistory
    refine ⟨deeds_append hhistory fun e he => ?_, hcurrent⟩
    rw [List.mem_singleton.mp he]
    rfl
  · cases hs

/-- One step of any kind, other than one that makes the task ignore interrupts. -/
theorem Doomed.step {ds : List Passage} {a : Action} (h : Doomed t ds k) (hp : Poised k l)
    (hs : CannedBsd.step k a = some k') (hne : a ≠ .setInterrupt t .ignore) : Doomed t ds k' := by
  obtain ⟨hcur, hwait | hdone⟩ := h
  · obtain ⟨hint, hdeeds, hlive⟩ := hwait
    obtain ⟨task, ht, -⟩ := hint.task
    have hmem : t ∈ k.order := (hp.base.roster.listed ht).resolve_right fun hl => by cases hl
    by_cases hown : ownStep t k a
    · cases a with
      | call host op => exact absurd hown hcur
      | schedule host =>
        obtain ⟨hexit, hnobody⟩ := deeds_pick hs hint hown
        refine ⟨?_, .inr ?_⟩
        · rw [hnobody]
          exact fun heq => by cases heq
        · rw [hexit, hdeeds]
      | finishExec host =>
        have hfin : k.finishing = some t := hown
        unfold CannedBsd.step at hs
        split at hs
        · cases hs
        obtain ⟨c, hc, heq⟩ := Option.map_eq_some_iff.mp hs
        rw [hfin, Option.some.injEq] at hc
        subst hc
        have hdeeds' : deeds t k' = deeds t k := deeds_of_history (heq ▸ history_taskFinishExec host k t)
        refine ⟨?_, .inl ⟨heq ▸ interrupted_taskFinishExec host hp hfin hint, hdeeds'.trans hdeeds, ?_⟩⟩
        · rw [← heq, current_taskFinishExec]
          exact hcur
        · rw [gone_iff_deeds, hdeeds', ← gone_iff_deeds]
          exact hlive
      | _ => exact hown.elim
    · have haside := aside_step hp hs hown
      refine ⟨fun hc => hcur (haside.current hc), .inl ⟨?_, haside.deeds.trans hdeeds, ?_⟩⟩
      · cases hembed : a.embeds with
        | true => exact interrupted_embeds hs hembed hne hint
        | false => exact hint.stillOf ((haside.still hembed hmem).resolve_left hlive)
      · rw [gone_iff_deeds, haside.deeds, ← gone_iff_deeds]
        exact hlive
  · have hgone : Gone t k := gone_iff_deeds.mpr ⟨130, by rw [hdone]; exact List.mem_append_right _ (List.mem_singleton.mpr rfl)⟩
    have haside := aside_step hp hs (not_ownStep_of_gone hp hgone)
    exact ⟨fun hc => hcur (haside.current hc), .inr (haside.deeds.trans hdone)⟩

/-- **Delivery.**  A suspended task with a pending interrupt never gets back to its program: in every run
in which the embedding program does not make it ignore interrupts it never has the turn again. As long as
it is there it has done nothing, the round of the scheduler that picks it is its exit with status 130,
and that is the last thing it does. -/
theorem interrupted_task_never_resumes {task : Task} (hr : Reachable k) (ht : k.task t = some task)
    (hlive : exited task.state = false) (hint : task.interrupted = true) (hcur : k.current ≠ some t)
    (hrun : Reach step (fun _ a => a ≠ .setInterrupt t .ignore) k k') :
    k'.current ≠ some t ∧
    (deeds t k' = deeds t k ∧ t ∈ k'.order ∧ (∃ task', k'.task t = some task' ∧ task'.interrupted = true) ∧
        (∀ h k'', step k' (.schedule h) = some k'' → pickRunnable (roused h k') = some t →
          deeds t k'' = deeds t k ++ [.exited t 130]) ∨
      deeds t k' = deeds t k ++ [.exited t 130]) := by
  obtain ⟨l, hp⟩ := hr.poised
  have hmem : t ∈ k.order := (hp.base.roster.listed ht).resolve_right fun hl => by cases hl
  have hnot : ¬ Gone t k := by
    rintro ⟨status, hexit⟩
    rw [hp.base.lineage.left hexit hmem ht] at hlive
    cases hlive
  have hfirst : Doomed t (deeds t k) k := ⟨hcur, .inl ⟨interrupted_of_task ht hint, rfl, hnot⟩⟩
  have hall : (∃ l, Poised k' l) ∧ Doomed t (deeds t k) k' := by
    refine hrun.invariant (P := fun k₁ => (∃ l, Poised k₁ l) ∧ Doomed t (deeds t k) k₁) ⟨⟨l, hp⟩, hfirst⟩ ?_
    intro k₁ a k₂ hne hs ⟨⟨l₁, hp₁⟩, hdoom⟩
    obtain ⟨l₂, -, hp₂, -⟩ := hp₁.step hs
    exact ⟨⟨l₂, hp₂⟩, hdoom.step hp₁ hs hne⟩
  obtain ⟨⟨l', hp'⟩, hcur', hwait | hdone⟩ := hall
  · obtain ⟨hint', hdeeds, -⟩ := hwait
    obtain ⟨task', ht', hbits⟩ := hint'.task
    refine ⟨hcur', .inl ⟨hdeeds, ?_, ⟨task', ht', hbits⟩, fun h k'' hs hpick => ?_⟩⟩
    · exact (hp'.base.roster.listed ht').resolve_right fun hl => by cases hl
    · rw [(deeds_pick hs hint' hpick).1, hdeeds]
  · exact ⟨hcur', .inr hdone⟩

/-- The shell sleeps in a read from the console when the interrupt comes. -/
def sleepingRun : Kernel :=
  stateAfter (shellStart ++ calls [.read 0 16] ++ [.requestInterrupt 1])

theorem interrupted_task_never_resumes_reader :
    (∃ task, sleepingRun.task 0 = some task ∧ task.state = .runnable ∧ task.interrupted = true) ∧
    ∃ k', step sleepingRun (.schedule .calm) = some k' ∧ k'.current ≠ some 0 ∧
      deeds 0 k' = deeds 0 sleepingRun ++ [.exited 0 130] := by
  have hbits : (sleepingRun.task 0).map (fun task => (task.state, task.interrupted)) = some (.runnable, true) := by
    decide +kernel
  obtain ⟨task, ht, hfields⟩ := Option.map_eq_some_iff.mp hbits
  have hstate : task.state = .runnable := congrArg Prod.fst hfields
  have hint : task.interrupted = true := congrArg Prod.snd hfields
  have hpick : pickRunnable (roused .calm sleepingRun) = some 0 := by decide +kernel
  have hnext : (step sleepingRun (.schedule .calm)).isSome = true := by decide +kernel
  obtain ⟨k', hs⟩ := Option.isSome_iff_exists.mp hnext
  have hlive : exited task.state = false := by rw [hstate]; rfl
  have hcur : sleepingRun.current ≠ some 0 := by decide +kernel
  have hone : Reach step (fun _ a => a ≠ .setInterrupt 0 .ignore) sleepingRun k' :=
    Reach.init.step (fun heq => by cases heq) hs
  obtain ⟨hafter, -⟩ := interrupted_task_never_resumes (reachable_stateAfter _) ht hlive hint hcur hone
  obtain ⟨-, ⟨-, -, -, hexit⟩ | hdone⟩ := interrupted_task_never_resumes (reachable_stateAfter _) ht hlive hint hcur .init
  · exact ⟨⟨task, ht, hstate, hint⟩, k', hs, hafter, hexit .calm k' hs hpick⟩
  · have hfew : deeds 0 sleepingRun ≠ deeds 0 sleepingRun ++ [.exited 0 130] := by simp
    exact absurd hdone hfew

end CannedBsd
