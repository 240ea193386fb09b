import CannedBsd.Kernel.Books

/-!
# The task list

Who is on the list, who runs, and that process numbers are unique. A task that is not on the list
is the one the running call is creating or destroying.

* `Roster.current_task`: the current task is the only one that runs.
* `Roster.micro`: every elementary step keeps the roster.
-/

namespace CannedBsd

open CannedBsd.Lib

/-- Who is on the list. -/
structure Listing (k : Kernel) (fl : Flight) : Prop where
  nodup : k.order.Nodup
  live : ∀ {t}, t ∈ k.order → ∃ task, k.task t = some task
  listed : ∀ {t task}, k.task t = some task → t ∈ k.order ∨ fl.limbo = some t
  pids : ∀ {t t' task task'}, k.task t = some task → k.task t' = some task' → task.pid = task'.pid → t = t'
  pidLe : ∀ {t task}, k.task t = some task → task.pid ≤ k.nextPid

/-- The task list agrees with the states of the tasks. -/
structure Roster (k : Kernel) (fl : Flight) : Prop extends Listing k fl where
  current : ∀ {t}, k.current = some t → t ∈ k.order ∧ ∃ task, k.task t = some task ∧ task.state = .running
  running : ∀ {t task}, t ∈ k.order → k.task t = some task → task.state = .running → k.current = some t
  finishing : ∀ {t}, k.finishing = some t →
    t ∈ k.order ∧ ∃ task, k.task t = some task ∧ task.state = .execPending
  pending : ∀ {t task}, t ∈ k.order → k.task t = some task → task.state = .execPending →
    k.finishing = some t
  idle : ∀ {t}, k.finishing = some t → k.current = none
  alive : ∀ {t task}, t ∈ k.order → k.task t = some task → task.state ≠ .dead

/-! ### Reading a changed task -/

namespace Kernel

theorem task_setTask (k : Kernel) (t : TaskId) (f : Task → Task) (c : TaskId) :
    (k.setTask t f).task c = if c = t then (k.task c).map f else k.task c :=
  Heap.get_modify _ _ _ _

theorem task_setTask_self {k : Kernel} {t : TaskId} {task : Task} (f : Task → Task)
    (ht : k.task t = some task) : (k.setTask t f).task t = some (f task) := by
  rw [task_setTask, if_pos rfl, ht, Option.map_some]

theorem task_setTask_of_ne (k : Kernel) {t c : TaskId} (f : Task → Task) (hc : c ≠ t) :
    (k.setTask t f).task c = k.task c := by
  rw [task_setTask, if_neg hc]

end Kernel

/-- A field that a change of a task keeps is the same for all tasks. -/
theorem field_setTask {β : Type} (field : Task → β) (k : Kernel) (t c : TaskId) {f : Task → Task}
    (hf : ∀ task, field (f task) = field task) : ((k.setTask t f).task c).map field = (k.task c).map field := by
  rw [Kernel.task_setTask]
  split
  · rw [Option.map_map]
    exact congrArg (fun g => (k.task c).map g) (funext hf)
  · rfl

/-! ### Steps in which all tasks rest -/

theorem Rests.running_iff {task task' : Task} (h : Rests task task') :
    task'.state = .running ↔ task.state = .running := by
  rcases h.state with hs | ⟨hb, hs⟩
  · rw [hs]
  · constructor
    · intro hr
      rw [hs] at hr
      cases hr
    · intro hr
      rw [hr] at hb
      cases hb

theorem Rests.pending_iff {task task' : Task} (h : Rests task task') :
    task'.state = .execPending ↔ task.state = .execPending := by
  rcases h.state with hs | ⟨hb, hs⟩
  · rw [hs]
  · constructor
    · intro hr
      rw [hs] at hr
      cases hr
    · intro hr
      rw [hr] at hb
      cases hb

theorem Rests.zombie_iff {task task' : Task} (h : Rests task task') :
    task'.state = .zombie ↔ task.state = .zombie := by
  rcases h.state with hs | ⟨hb, hs⟩
  · rw [hs]
  · constructor
    · intro hr
      rw [hs] at hr
      cases hr
    · intro hr
      rw [hr] at hb
      cases hb

theorem Resting.refl (k : Kernel) : Resting k k :=
  ⟨rfl, rfl, rfl, le_rfl, rfl, fun {_ task'} ht => ⟨task', ht, .refl task'⟩, fun {_ task} ht => ⟨task, ht⟩⟩

/-- The kernels have the same tasks. -/
theorem Resting.of_tasks {k k' : Kernel} (ht : k'.tasks = k.tasks) (ho : k'.order = k.order)
    (hc : k'.current = k.current) (hf : k'.finishing = k.finishing) (hn : k'.nextPid = k.nextPid) :
    Resting k k' := by
  have htask : k'.task = k.task := by
    funext t
    rw [Kernel.task, Kernel.task, ht]
  refine ⟨ho, hc, hf, le_of_eq hn.symm, by rw [ht], ?_, ?_⟩
  · intro t task' h
    exact ⟨task', by rw [← htask, h], .refl task'⟩
  · intro t task h
    exact ⟨task, by rw [htask, h]⟩

theorem Resting.after {k k' k'' : Kernel} (h : Resting k' k'') (ht : k'.tasks = k.tasks)
    (ho : k'.order = k.order) (hc : k'.current = k.current) (hf : k'.finishing = k.finishing)
    (hn : k'.nextPid = k.nextPid) : Resting k k'' := by
  have htask : k'.task = k.task := by
    funext t
    rw [Kernel.task, Kernel.task, ht]
  refine ⟨h.order.trans ho, h.current.trans hc, h.finishing.trans hf, by rw [← hn]; exact h.nextPid,
    by rw [h.next, ht], ?_, ?_⟩
  · intro t task' hk
    obtain ⟨task, hk', hr⟩ := h.tasks hk
    exact ⟨task, by rw [← htask, hk'], hr⟩
  · intro t task hk
    exact h.live (by rw [htask, hk])

theorem resting_pipeClose (k : Kernel) (p : PipeId) (lower : Pipe → Pipe) :
    Resting k (pipeClose k p lower) := by
  rw [pipeClose]
  split
  · exact .refl k
  · have hw := (Books.calm_cbWakePipeTasks (k.setPipe p lower)).rest
    have hr : Resting k (cbWakePipeTasks (k.setPipe p lower)) := hw.after rfl rfl rfl rfl rfl
    dsimp only
    split
    · exact ⟨hr.order, hr.current, hr.finishing, hr.nextPid, hr.next, hr.tasks, hr.live⟩
    · exact hr

/-! ### The list -/

variable {k k' : Kernel} {fl fl' : Flight}

/-- The list stays the same list when tasks keep their numbers. -/
theorem Listing.transfer (h : Listing k fl) (ho : k'.order = k.order) (hl : fl'.limbo = fl.limbo)
    (hn : k.nextPid ≤ k'.nextPid)
    (hback : ∀ {t task'}, k'.task t = some task' → ∃ task, k.task t = some task ∧ task'.pid = task.pid)
    (hlive : ∀ {t task}, k.task t = some task → ∃ task', k'.task t = some task') : Listing k' fl' := by
  refine ⟨by rw [ho]; exact h.nodup, ?_, ?_, ?_, ?_⟩
  · intro t ht
    rw [ho] at ht
    obtain ⟨task, htask⟩ := h.live ht
    exact hlive htask
  · intro t task' ht
    obtain ⟨task, htask, -⟩ := hback ht
    rw [ho, hl]
    exact h.listed htask
  · intro t t' task task' ht ht' heq
    obtain ⟨x, hx, hpid⟩ := hback ht
    obtain ⟨x', hx', hpid'⟩ := hback ht'
    exact h.pids hx hx' (by rw [← hpid, ← hpid', heq])
  · intro t task' ht
    obtain ⟨task, htask, hpid⟩ := hback ht
    rw [hpid]
    exact (h.pidLe htask).trans hn

/-- Rewriting one task that keeps its number. -/
theorem Listing.setTask (h : Listing k fl) {t : TaskId} {task : Task} (ht : k.task t = some task)
    {f : Task → Task} (hf : (f task).pid = task.pid) (ho : k'.order = k.order)
    (hl : fl'.limbo = fl.limbo) (hn : k.nextPid ≤ k'.nextPid)
    (hk : k'.task = (k.setTask t f).task) : Listing k' fl' := by
  refine h.transfer ho hl hn ?_ ?_
  · intro c task' hc
    rw [hk, Kernel.task_setTask] at hc
    split at hc
    · rename_i heq
      subst heq
      rw [ht, Option.map_some, Option.some.injEq] at hc
      subst hc
      exact ⟨task, ht, hf⟩
    · exact ⟨task', hc, rfl⟩
  · intro c x hc
    rw [hk, Kernel.task_setTask]
    split
    · rw [hc]
      exact ⟨_, rfl⟩
    · exact ⟨x, hc⟩

namespace Roster

theorem resting (h : Roster k fl) (hr : Resting k k') (hl : fl'.limbo = fl.limbo) : Roster k' fl' := by
  have hlist := h.toListing.transfer hr.order hl hr.nextPid
    (fun ht => by
      obtain ⟨task, htask, hrest⟩ := hr.tasks ht
      exact ⟨task, htask, hrest.pid⟩) hr.live
  have hback : ∀ {t s}, (∀ task task' : Task, Rests task task' → (task'.state = s ↔ task.state = s)) →
      (t ∈ k.order ∧ ∃ task, k.task t = some task ∧ task.state = s) →
      t ∈ k'.order ∧ ∃ task, k'.task t = some task ∧ task.state = s := by
    rintro t s hs ⟨hmem, task, htask, hst⟩
    rw [hr.order]
    obtain ⟨task', htask'⟩ := hr.live htask
    obtain ⟨x, hx, hrest⟩ := hr.tasks htask'
    rw [htask, Option.some.injEq] at hx
    subst hx
    exact ⟨hmem, task', htask', (hs task task' hrest).mpr hst⟩
  refine ⟨hlist, ?_, ?_, ?_, ?_, ?_, ?_⟩
  · intro t hc
    rw [hr.current] at hc
    exact hback (fun _ _ hx => hx.running_iff) (h.current hc)
  · intro t task' hmem ht hst
    rw [hr.order] at hmem
    obtain ⟨task, htask, hrest⟩ := hr.tasks ht
    rw [hr.current]
    exact h.running hmem htask (hrest.running_iff.mp hst)
  · intro t hc
    rw [hr.finishing] at hc
    exact hback (fun _ _ hx => hx.pending_iff) (h.finishing hc)
  · intro t task' hmem ht hst
    rw [hr.order] at hmem
    obtain ⟨task, htask, hrest⟩ := hr.tasks ht
    rw [hr.finishing]
    exact h.pending hmem htask (hrest.pending_iff.mp hst)
  · intro t hf
    rw [hr.finishing] at hf
    rw [hr.current]
    exact h.idle hf
  · intro t task' hmem ht hst
    rw [hr.order] at hmem
    obtain ⟨task, htask, hrest⟩ := hr.tasks ht
    rcases hrest.state with hs | ⟨-, hs⟩
    · exact h.alive hmem htask (by rw [← hs, hst])
    · rw [hst] at hs
      cases hs

/-- One task changes its state; the rest of the list is as it was. -/
theorem setState (h : Roster k fl) {t : TaskId} {task : Task} (ht : k.task t = some task)
    {f : Task → Task} (hf : (f task).pid = task.pid) (ho : k'.order = k.order)
    (hl : fl'.limbo = fl.limbo) (hn : k.nextPid ≤ k'.nextPid) (hk : k'.task = (k.setTask t f).task)
    (hcurrent : ∀ {c}, k'.current = some c → c ≠ t ∧ k.current = some c ∨
      c = t ∧ t ∈ k.order ∧ (f task).state = .running)
    (hrunning : ∀ {c}, k.current = some c → c ≠ t → k'.current = some c)
    (hself : t ∈ k.order → (f task).state = .running → k'.current = some t)
    (hfinishing : ∀ {c}, k'.finishing = some c → c ≠ t ∧ k.finishing = some c ∨
      c = t ∧ t ∈ k.order ∧ (f task).state = .execPending)
    (hpending : ∀ {c}, k.finishing = some c → c ≠ t → k'.finishing = some c)
    (hselfp : t ∈ k.order → (f task).state = .execPending → k'.finishing = some t)
    (hidle : ∀ {c}, k'.finishing = some c → k'.current = none)
    (halive : t ∈ k.order → (f task).state ≠ .dead) : Roster k' fl' := by
  have hget : ∀ c, k'.task c = if c = t then some (f task) else k.task c := by
    intro c
    rw [hk, Kernel.task_setTask]
    split
    · rename_i heq
      rw [heq, ht, Option.map_some]
    · rfl
  refine ⟨h.toListing.setTask ht hf ho hl hn hk, ?_, ?_, ?_, ?_, hidle, ?_⟩
  · intro c hc
    rw [ho, hget]
    rcases hcurrent hc with ⟨hne, hold⟩ | ⟨rfl, hmem, hst⟩
    · rw [if_neg hne]
      exact h.current hold
    · rw [if_pos rfl]
      exact ⟨hmem, f task, rfl, hst⟩
  · intro c x hmem hc hst
    rw [ho] at hmem
    rw [hget] at hc
    split at hc
    · rename_i heq
      subst heq
      rw [Option.some.injEq] at hc
      subst hc
      exact hself hmem hst
    · rename_i hne
      exact hrunning (h.running hmem hc hst) hne
  · intro c hc
    rw [ho, hget]
    rcases hfinishing hc with ⟨hne, hold⟩ | ⟨rfl, hmem, hst⟩
    · rw [if_neg hne]
      exact h.finishing hold
    · rw [if_pos rfl]
      exact ⟨hmem, f task, rfl, hst⟩
  · intro c x hmem hc hst
    rw [ho] at hmem
    rw [hget] at hc
    split at hc
    · rename_i heq
      subst heq
      rw [Option.some.injEq] at hc
      subst hc
      exact hselfp hmem hst
    · rename_i hne
      exact hpending (h.pending hmem hc hst) hne
  · intro c x hmem hc
    rw [ho] at hmem
    rw [hget] at hc
    split at hc
    · rw [Option.some.injEq] at hc
      subst hc
      rename_i heq
      exact halive (heq ▸ hmem)
    · exact h.alive hmem hc

/-- The current task is the only one that runs. -/
theorem current_task (h : Roster k fl) {t : TaskId} {task : Task} (hc : k.current = some t)
    (ht : k.task t = some task) : t ∈ k.order ∧ task.state = .running := by
  obtain ⟨hmem, x, hx, hst⟩ := h.current hc
  rw [ht, Option.some.injEq] at hx
  subst hx
  exact ⟨hmem, hst⟩

theorem finishing_ne (h : Roster k fl) {t c : TaskId} {task : Task} (ht : k.task t = some task)
    (hst : task.state ≠ .execPending) (hc : k.finishing = some c) : c ≠ t := by
  rintro rfl
  obtain ⟨-, x, hx, hxst⟩ := h.finishing hc
  rw [ht, Option.some.injEq] at hx
  subst hx
  exact hst hxst

theorem current_ne (h : Roster k fl) {t c : TaskId} {task : Task} (ht : k.task t = some task)
    (hst : task.state ≠ .running) (hc : k.current = some c) : c ≠ t := by
  rintro rfl
  exact hst (h.current_task hc ht).2

/-- `leave` after the task itself: at most the waiting parent wakes up. -/
theorem resting_wakeWaitingParent (k : Kernel) (child : Task) : Resting k (wakeWaitingParent k child) := by
  rw [wakeWaitingParent]
  split
  · exact .refl k
  · rename_i t hfind
    have hw := List.find?_some hfind
    refine ⟨rfl, rfl, rfl, le_rfl, Heap.next_modify _ _ _, ?_, ?_⟩
    · intro c task' hc
      rw [Kernel.task_setTask] at hc
      split at hc
      · obtain ⟨task, htask, rfl⟩ := Option.map_eq_some_iff.mp hc
        refine ⟨task, htask, rfl, rfl, rfl, .inr ⟨?_, rfl⟩, .inl rfl, .inl rfl, rfl, rfl⟩
        rename_i heq
        subst heq
        rw [htask] at hw
        simp only [Option.any_some, waitsFor, Bool.and_eq_true, decide_eq_true_eq] at hw
        simp [blocked, hw.1.2]
      · exact ⟨task', hc, .refl task'⟩
    · intro c task hc
      rw [Kernel.task_setTask]
      split
      · rw [hc]
        exact ⟨_, rfl⟩
      · exact ⟨task, hc⟩

theorem sched (h : Roster k fl) (hs : Sched k fl k' fl') : Roster k' fl' := by
  cases hs with
  | calm hc => exact h.resting hc.rest rfl
  | @dispatch _ t task hcur hfin hmem ht hst hw =>
    refine h.setState (t := t) ht (f := fun task => { task with state := .running }) rfl rfl rfl le_rfl rfl
      ?_ ?_ (fun _ _ => rfl) ?_ ?_ (fun _ hp => by cases hp) ?_ (fun _ => by simp)
    · intro c hc
      have hct : t = c := Option.some.inj hc
      exact .inr ⟨hct.symm, hmem, rfl⟩
    · intro c hc
      rw [hcur] at hc
      cases hc
    · intro c hc
      have hc' : k.finishing = some c := hc
      rw [hfin] at hc'
      cases hc'
    · intro c hc hne
      exact hc
    · intro c hc
      have hc' : k.finishing = some c := hc
      rw [hfin] at hc'
      cases hc'
  | @yield _ t task state frame hcur ht hs hp hw hf =>
    obtain ⟨hmem, hst⟩ := h.current_task hcur ht
    have hnot : state ≠ .running ∧ state ≠ .execPending ∧ state ≠ .dead := by
      refine ⟨?_, ?_, ?_⟩ <;> rintro rfl <;> cases hs
    refine h.setState (t := t) ht
      (f := fun task => { task with wakeReason := .none, state := state, frame := frame }) rfl rfl rfl
      le_rfl rfl (fun hc => by cases hc) ?_ (fun _ hp => absurd hp hnot.1) ?_ (fun hc _ => hc)
      (fun _ hp => absurd hp hnot.2.1) (fun _ => rfl) (fun _ => hnot.2.2)
    · intro c hc hne
      rw [hcur] at hc
      exact absurd (Option.some.inj hc).symm hne
    · intro c hc
      exact .inl ⟨h.finishing_ne ht (by rw [hst]; simp) hc, hc⟩
  | @exec _ t task hcur ht hw =>
    obtain ⟨hmem, hst⟩ := h.current_task hcur ht
    have hfin : k.finishing = none := by
      cases hf : k.finishing with
      | none => rfl
      | some c =>
        rw [h.idle hf] at hcur
        cases hcur
    refine h.setState (t := t) ht
      (f := fun task => { task with wakeReason := .none, state := .execPending, frame := .entry }) rfl rfl
      rfl le_rfl rfl (fun hc => by cases hc) ?_ (fun _ hp => by cases hp) ?_ ?_ (fun _ _ => rfl)
      (fun _ => rfl) (fun _ => by simp)
    · intro c hc hne
      rw [hcur] at hc
      exact absurd (Option.some.inj hc).symm hne
    · intro c hc
      have hct : t = c := Option.some.inj hc
      exact .inr ⟨hct.symm, hmem, rfl⟩
    · intro c hc
      rw [hfin] at hc
      cases hc
  | @restart _ t task f fatal hfin ht hh hpid hppid hpend hst hfr hfit hexit =>
    obtain ⟨hmem, x, hx, hxst⟩ := h.finishing hfin
    rw [ht, Option.some.injEq] at hx
    subst hx
    refine h.setState (t := t) ht (f := f) hpid rfl rfl le_rfl rfl ?_ (fun hc _ => hc) ?_
      (fun hc => by cases hc) ?_ ?_ (fun hc => by cases hc) (fun _ => by rw [hst]; simp)
    · intro c hc
      exact .inl ⟨h.current_ne ht (by rw [hxst]; simp) hc, hc⟩
    · intro _ hp
      rw [hst] at hp
      cases hp
    · intro c hc hne
      rw [hfin] at hc
      exact absurd (Option.some.inj hc).symm hne
    · intro _ hp
      rw [hst] at hp
      cases hp
  | @leave _ t task status hcur ht hdirs =>
    obtain ⟨hmem, hst⟩ := h.current_task hcur ht
    obtain ⟨finished, bootStatus, heq⟩ := retire_eq k t task status
    -- first the task itself, then its waiting parent
    have hself : Roster { retire k t task status with current := none } { fl with writing := none } := by
      rw [heq]
      refine h.setState (t := t) ht
        (f := fun task => { task with exitStatus := status % 256, state := .zombie }) rfl rfl rfl le_rfl rfl
        (fun hc => by cases hc) ?_ (fun _ hp => by cases hp) ?_ (fun hc _ => hc) (fun _ hp => by cases hp)
        (fun _ => rfl) (fun _ => by simp)
      · intro c hc hne
        rw [hcur] at hc
        exact absurd (Option.some.inj hc).symm hne
      · intro c hc
        exact .inl ⟨h.finishing_ne ht (by rw [hst]; simp) hc, hc⟩
    have hr := resting_wakeWaitingParent (retire k t task status) task
    have hwake : Resting { retire k t task status with current := none } (CannedBsd.leave k t task status) :=
      ⟨hr.order, rfl, hr.finishing, hr.nextPid, hr.next, hr.tasks, hr.live⟩
    exact hself.resting hwake rfl
  | @list _ t task parent hl ht hmem hst hfr hfit hfath =>
    refine ⟨⟨List.nodup_cons.mpr ⟨hmem, h.nodup⟩, ?_, ?_, h.pids, h.pidLe⟩, ?_, ?_, ?_, ?_, h.idle, ?_⟩
    · intro c hc
      rcases List.mem_cons.mp hc with rfl | hc
      · exact ⟨task, ht⟩
      · exact h.live hc
    · intro c x hc
      rcases h.listed hc with hc | hc
      · exact .inl (List.mem_cons_of_mem _ hc)
      · rw [hl, Option.some.injEq] at hc
        exact .inl (hc ▸ List.mem_cons_self)
    · intro c hc
      obtain ⟨hc, hx⟩ := h.current hc
      exact ⟨List.mem_cons_of_mem _ hc, hx⟩
    · intro c x hc hx hxst
      rcases List.mem_cons.mp hc with rfl | hc
      · have hx' : k.task c = some x := hx
        rw [ht, Option.some.injEq] at hx'
        subst hx'
        rw [hst] at hxst
        cases hxst
      · exact h.running hc hx hxst
    · intro c hc
      obtain ⟨hc, hx⟩ := h.finishing hc
      exact ⟨List.mem_cons_of_mem _ hc, hx⟩
    · intro c x hc hx hxst
      rcases List.mem_cons.mp hc with rfl | hc
      · have hx' : k.task c = some x := hx
        rw [ht, Option.some.injEq] at hx'
        subst hx'
        rw [hst] at hxst
        cases hxst
      · exact h.pending hc hx hxst
    · intro c x hc hx
      rcases List.mem_cons.mp hc with rfl | hc
      · have hx' : k.task c = some x := hx
        rw [ht, Option.some.injEq] at hx'
        subst hx'
        rw [hst]
        simp
      · exact h.alive hc hx
  | @unlist _ p c parent child hl hcur hp hppid hmem ht hst =>
    have hget : ∀ x, (CannedBsd.unlist (k.record (.reaped p c child.pid child.exitStatus)) c).task x =
        if x = c then some { child with state := .dead } else k.task x := by
      intro x
      rw [CannedBsd.unlist, Kernel.task_setTask]
      split
      · rename_i heq
        rw [heq]
        exact congrArg (Option.map fun task : Task => { task with state := .dead }) ht
      · rfl
    have hout : ∀ {x}, x ∈ k.order.erase c → x ≠ c ∧ x ∈ k.order := by
      intro x hx
      exact (List.Nodup.mem_erase_iff h.nodup).mp hx
    have hin : ∀ {x}, x ≠ c → x ∈ k.order → x ∈ k.order.erase c := by
      intro x hne hx
      exact (List.Nodup.mem_erase_iff h.nodup).mpr ⟨hne, hx⟩
    have hpid : ∀ {x task}, (CannedBsd.unlist (k.record (.reaped p c child.pid child.exitStatus)) c).task x = some task →
        ∃ old, k.task x = some old ∧ task.pid = old.pid := by
      intro x task hx
      rw [hget] at hx
      split at hx
      · rename_i heq
        cases hx
        exact ⟨child, heq ▸ ht, rfl⟩
      · exact ⟨task, hx, rfl⟩
    refine ⟨⟨h.nodup.erase c, ?_, ?_, ?_, ?_⟩, ?_, ?_, ?_, ?_, h.idle, ?_⟩
    · intro x hx
      obtain ⟨hne, hx⟩ := hout hx
      rw [hget, if_neg hne]
      exact h.live hx
    · intro x task hx
      by_cases hne : x = c
      · exact .inr (congrArg some hne.symm)
      · rw [hget, if_neg hne] at hx
        rcases h.listed hx with hx | hx
        · exact .inl (hin hne hx)
        · rw [hl] at hx
          cases hx
    · intro x x' task task' hx hx' heq
      obtain ⟨y, hy, hp⟩ := hpid hx
      obtain ⟨y', hy', hp'⟩ := hpid hx'
      exact h.pids hy hy' (by rw [← hp, ← hp', heq])
    · intro x task hx
      obtain ⟨y, hy, hp⟩ := hpid hx
      rw [hp]
      exact h.pidLe hy
    · intro x hx
      have hne := h.current_ne ht (by rw [hst]; simp) hx
      obtain ⟨hm, y, hy, hyst⟩ := h.current hx
      exact ⟨hin hne hm, y, by rw [hget, if_neg hne, hy], hyst⟩
    · intro x task hx hxt hxst
      obtain ⟨hne, hx⟩ := hout hx
      rw [hget, if_neg hne] at hxt
      exact h.running hx hxt hxst
    · intro x hx
      have hne := h.finishing_ne ht (by rw [hst]; simp) hx
      obtain ⟨hm, y, hy, hyst⟩ := h.finishing hx
      exact ⟨hin hne hm, y, by rw [hget, if_neg hne, hy], hyst⟩
    · intro x task hx hxt hxst
      obtain ⟨hne, hx⟩ := hout hx
      rw [hget, if_neg hne] at hxt
      exact h.pending hx hxt hxst
    · intro x task hx hxt
      obtain ⟨hne, hx⟩ := hout hx
      rw [hget, if_neg hne] at hxt
      exact h.alive hx hxt

theorem hold {gone : NodeId → Prop} {t : TaskId} {task : Task} {f : Task → Task} (h : Roster k fl)
    (ht : k.task t = some task) (hx : Exchange gone k.vfs fl fl' task (f task)) :
    Roster (k.setTask t f) fl' := by
  refine h.setState ht hx.pid rfl hx.limbo le_rfl rfl ?_ (fun hc _ => hc) ?_ ?_ (fun hc _ => hc) ?_ h.idle ?_
  · intro c hc
    by_cases hct : c = t
    · subst hct
      obtain ⟨hmem, hst⟩ := h.current_task hc ht
      exact .inr ⟨rfl, hmem, hx.state.trans hst⟩
    · exact .inl ⟨hct, hc⟩
  · intro hmem hst
    rw [hx.state] at hst
    exact h.running hmem ht hst
  · intro c hc
    by_cases hct : c = t
    · subst hct
      obtain ⟨hmem, x, hx', hst⟩ := h.finishing hc
      rw [ht, Option.some.injEq] at hx'
      subst hx'
      exact .inr ⟨rfl, hmem, hx.state.trans hst⟩
    · exact .inl ⟨hct, hc⟩
  · intro hmem hst
    rw [hx.state] at hst
    exact h.pending hmem ht hst
  · intro hmem
    rw [hx.state]
    exact h.alive hmem ht

theorem create {task : Task} (h : Roster k fl) (hl : fl.limbo = none) (hpid : task.pid = k.nextPid + 1)
    (hl' : fl'.limbo = some k.tasks.next) :
    Roster { k with nextPid := k.nextPid + 1, tasks := k.tasks.alloc task } fl' := by
  have hfresh : ∀ t other, k.task t = some other → other.pid ≠ task.pid := by
    intro t other ht heq
    have hle := h.pidLe ht
    omega
  have hget : ∀ c, Kernel.task { k with nextPid := k.nextPid + 1, tasks := k.tasks.alloc task } c =
      if c = k.tasks.next then some task else k.task c := fun c => Heap.get_alloc _ _ _
  have hne : ∀ {c x}, k.task c = some x → c ≠ k.tasks.next :=
    fun hc => Nat.ne_of_lt (Heap.lt_next_of_get hc)
  have hold : ∀ {c x}, c ∈ k.order → Kernel.task { k with nextPid := k.nextPid + 1, tasks := k.tasks.alloc task } c = some x →
      k.task c = some x := by
    intro c x hc hx
    obtain ⟨y, hy⟩ := h.live hc
    rwa [hget, if_neg (hne hy)] at hx
  have hnew : ∀ {c x}, k.task c = some x →
      Kernel.task { k with nextPid := k.nextPid + 1, tasks := k.tasks.alloc task } c = some x := by
    intro c x hx
    rw [hget, if_neg (hne hx), hx]
  refine ⟨⟨h.nodup, ?_, ?_, ?_, ?_⟩, ?_, ?_, ?_, ?_, h.idle, ?_⟩
  · intro c hc
    obtain ⟨x, hx⟩ := h.live hc
    exact ⟨x, hnew hx⟩
  · intro c x hc
    rw [hget] at hc
    split at hc
    · rename_i heq
      exact .inr (by rw [hl', heq])
    · rcases h.listed hc with hc | hc
      · exact .inl hc
      · rw [hl] at hc
        cases hc
  · intro c c' x x' hc hc' heq
    rw [hget] at hc hc'
    split at hc <;> split at hc'
    · rename_i h₁ h₂
      rw [h₁, h₂]
    · cases hc
      exact absurd heq.symm (hfresh _ _ hc')
    · cases hc'
      exact absurd heq (hfresh _ _ hc)
    · exact h.pids hc hc' heq
  · intro c x hc
    rw [hget] at hc
    split at hc
    · cases hc
      exact le_of_eq hpid
    · exact (h.pidLe hc).trans (Nat.le_succ _)
  · intro c hc
    obtain ⟨hm, x, hx, hst⟩ := h.current hc
    exact ⟨hm, x, hnew hx, hst⟩
  · intro c x hm hx hst
    exact h.running hm (hold hm hx) hst
  · intro c hc
    obtain ⟨hm, x, hx, hst⟩ := h.finishing hc
    exact ⟨hm, x, hnew hx, hst⟩
  · intro c x hm hx hst
    exact h.pending hm (hold hm hx) hst
  · intro c x hm hx
    exact h.alive hm (hold hm hx)

theorem destroy {t : TaskId} (h : Roster k fl) (hl : fl.limbo = some t) (ht : t ∉ k.order) :
    Roster { k with tasks := k.tasks.free t } fl' := by
  have hget : ∀ c, Kernel.task { k with tasks := k.tasks.free t } c =
      if c = t then none else k.task c := fun c => Heap.get_free _ _ _
  have hold : ∀ {c x}, Kernel.task { k with tasks := k.tasks.free t } c = some x →
      c ≠ t ∧ k.task c = some x := by
    intro c x hx
    rw [hget] at hx
    split at hx
    · cases hx
    · rename_i hne
      exact ⟨hne, hx⟩
  have hnew : ∀ {c x}, c ∈ k.order → k.task c = some x →
      Kernel.task { k with tasks := k.tasks.free t } c = some x := by
    intro c x hm hx
    rw [hget, if_neg]
    · exact hx
    · rintro rfl
      exact ht hm
  refine ⟨⟨h.nodup, ?_, ?_, ?_, ?_⟩, ?_, ?_, ?_, ?_, h.idle, ?_⟩
  · intro c hc
    obtain ⟨x, hx⟩ := h.live hc
    exact ⟨x, hnew hc hx⟩
  · intro c x hc
    obtain ⟨hne, hc⟩ := hold hc
    rcases h.listed hc with hc | hc
    · exact .inl hc
    · rw [hl, Option.some.injEq] at hc
      exact absurd hc.symm hne
  · intro c c' x x' hc hc' heq
    exact h.pids (hold hc).2 (hold hc').2 heq
  · intro c x hc
    exact h.pidLe (hold hc).2
  · intro c hc
    obtain ⟨hm, x, hx, hst⟩ := h.current hc
    exact ⟨hm, x, hnew hm hx, hst⟩
  · intro c x hm hx hst
    exact h.running hm (hold hx).2 hst
  · intro c hc
    obtain ⟨hm, x, hx, hst⟩ := h.finishing hc
    exact ⟨hm, x, hnew hm hx, hst⟩
  · intro c x hm hx hst
    exact h.pending hm (hold hx).2 hst
  · intro c x hm hx
    exact h.alive hm (hold hx).2

/-- Every elementary step keeps the roster. -/
theorem micro {gone : NodeId → Prop} (h : Roster k fl) (hm : Micro gone k fl k' fl') : Roster k' fl' := by
  cases hm with
  | vfs hv => exact h.resting (.of_tasks rfl rfl rfl rfl rfl) rfl
  | sched hs => exact h.sched hs
  | hold ht hx => exact h.hold ht hx
  | create hl _ _ _ hpid => exact h.create hl hpid rfl
  | destroy hl hmem _ _ _ => exact h.destroy hl hmem
  | leak ha => exact h.resting (.refl k) rfl
  | file => exact h.resting (.of_tasks rfl rfl rfl rfl rfl) rfl
  | openFile => exact h.resting (.of_tasks rfl rfl rfl rfl rfl) rfl
  | closeFile => exact h.resting (.of_tasks rfl rfl rfl rfl rfl) rfl
  | openPipe => exact h.resting (.of_tasks rfl rfl rfl rfl rfl) rfl
  | openWriter => exact h.resting (.of_tasks rfl rfl rfl rfl rfl) rfl
  | closeReader => exact h.resting ((resting_pipeClose _ _ _).after rfl rfl rfl rfl rfl) rfl
  | closeWriter => exact h.resting ((resting_pipeClose _ _ _).after rfl rfl rfl rfl rfl) rfl
  | fetch => exact h.resting ((Books.calm_cbWakePipeTasks _).rest.after rfl rfl rfl rfl rfl) rfl
  | beginWrite => exact h.resting (.of_tasks rfl rfl rfl rfl rfl) rfl
  | store => exact h.resting ((Books.calm_cbWakePipeTasks _).rest.after rfl rfl rfl rfl rfl) rfl
  | endWrite => exact h.resting (.of_tasks rfl rfl rfl rfl rfl) rfl

end Roster

end CannedBsd
