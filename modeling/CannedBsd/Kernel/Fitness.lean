import CannedBsd.Kernel.Waiting

/-!
# What the tasks run

Every task on the list holds the nodes of its program and of the program it is about to run, and an
interrupt is pending only where the task and its executors take interrupts. Programs go with their
nodes, so no task ever runs a destroyed program.

* `Fitted.micro`, `Keeps.micro`, `Stocked.micro`: every elementary step keeps what the tasks run.
-/

namespace CannedBsd

open CannedBsd.Lib

variable {gone : NodeId → Prop} {k k' : Kernel} {fl fl' : Flight} {t : TaskId}

theorem exited_of_suspended {state : TaskState} (h : suspended state = true) : exited state = false := by
  cases state <;> first | rfl | cases h

namespace Fit

variable {v v' : Vfs} {b : Badge} {state state' : TaskState}

/-- A task outside `exec` may change its state, unless it comes back to life. -/
theorem move (h : Fit v b state) (hne : state ≠ .execPending) (hx : exited state' = false → exited state = false) :
    Fit v b state' :=
  ⟨h.program, h.pending, h.target, h.execution, fun _ => h.waits hne, fun hp hs => h.interrupt hp (hx hs)⟩

theorem rests {task task' : Task} (h : Fit v task.badge task.state) (hr : Rests task task') :
    Fit v task'.badge task'.state := by
  rw [hr.badge]
  rcases hr.state with heq | ⟨hb, heq⟩
  · rwa [heq]
  · rw [heq]
    refine h.move ?_ fun _ => exited_of_suspended (by rw [suspended, hb, Bool.true_or])
    intro hexec
    rw [hexec] at hb
    cases hb

/-- Programs that are held by the same node before and after take interrupts or not, as before. -/
theorem supports_keep {n : NodeId} {p : ProgramId} (hk : Keeps v v') (hs : Stocked v) (hs' : Stocked v')
    (hh : Houses v n p) (hh' : Houses v' n p) : supportsInterrupt v' (some p) = supportsInterrupt v (some p) := by
  obtain ⟨node, hn, hp⟩ := hh
  obtain ⟨node', hn', hp'⟩ := hh'
  obtain ⟨program, hlive⟩ := hs.live hn hp
  obtain ⟨program', hlive'⟩ := hs'.live hn' hp'
  rw [supportsInterrupt, supportsInterrupt, Option.bind_some, Option.bind_some, hlive',
    hk.program hlive' (Heap.lt_next_of_get hlive)]

/-- A change of the file system that leaves the nodes of the task alive. -/
theorem vfs (h : Fit v b state) (hk : Keeps v v') (hs : Stocked v) (hs' : Stocked v')
    (hlive : ∀ n, b.executableNode = some n ∨ b.pendingExecutableNode = some n → ∃ node, v'.node n = some node) :
    Fit v' b state := by
  obtain ⟨p, n, hp, hn, hh⟩ := h.program
  obtain ⟨node, hnode⟩ := hlive n (.inl hn)
  have hh' := hk.houses hh hnode
  refine ⟨⟨p, n, hp, hn, hh'⟩, fun p hp => ?_, h.target, h.execution, h.waits, fun hint hx => ?_⟩
  · rcases h.pending p hp with ⟨n, hn, hh⟩ | hsame
    · obtain ⟨node, hnode⟩ := hlive n (.inr hn)
      exact .inl ⟨n, hn, hk.houses hh hnode⟩
    · exact .inr hsame
  · obtain ⟨hign, hsup, hpend⟩ := h.interrupt hint hx
    have hsup' : supportsInterrupt v' b.program = true := by
      rw [hp] at hsup ⊢
      rw [supports_keep hk hs hs' hh hh']
      exact hsup
    refine ⟨hign, hsup', fun hne => ?_⟩
    cases hpending : b.pendingProgram with
    | none => exact absurd hpending hne
    | some q =>
      have hold := hpend hne
      rw [hpending] at hold
      rcases h.pending q hpending with ⟨m, hm, hhouse⟩ | ⟨-, hsame⟩
      · obtain ⟨node, hnode⟩ := hlive m (.inr hm)
        rw [supports_keep hk hs hs' hhouse (hk.houses hhouse hnode)]
        exact hold
      · rwa [hsame] at hsup'

end Fit

/-- All tasks on the list are fit. -/
def Fitted (k : Kernel) : Prop := ∀ t ∈ k.order, ∀ task, k.task t = some task → Fit k.vfs task.badge task.state

namespace Fitted

theorem resting (h : Fitted k) (hv : k'.vfs = k.vfs) (hr : Resting k k') : Fitted k' := by
  intro t hmem task' ht'
  obtain ⟨task, ht, hrest⟩ := hr.tasks ht'
  rw [hr.order] at hmem
  rw [hv]
  exact (h t hmem task ht).rests hrest

/-- One task changes. -/
theorem setTask {f : Task → Task} {task : Task} (h : Fitted k) (ht : k.task t = some task)
    (hf : Fit k.vfs task.badge task.state → Fit k.vfs (f task).badge (f task).state)
    (hv : k'.vfs = k.vfs) (ho : k'.order = k.order) (hk : k'.tasks = (k.setTask t f).tasks) : Fitted k' := by
  intro c hmem x hx
  rw [ho] at hmem
  rw [hv]
  rw [Kernel.task, hk] at hx
  have hx' : (k.setTask t f).task c = some x := hx
  by_cases hct : c = t
  · subst hct
    rw [Kernel.task_setTask_self _ ht, Option.some.injEq] at hx'
    subst hx'
    exact hf (h c hmem task ht)
  · rw [Kernel.task_setTask_of_ne _ _ hct] at hx'
    exact h c hmem x hx'

theorem vfs {v : Vfs} {a : NodeId → ℕ} (h : Fitted k) (hb : Books k fl) (hs : Stocked k.vfs)
    (hm : VMove gone k.vfs fl.nodes v a) : Fitted { k with vfs := v } := by
  intro t hmem task ht
  obtain ⟨hs', hk⟩ := hm.stock hb.vfs hs
  refine (h t hmem task ht).vfs hk hs hs' fun n hn => ?_
  refine (hb.vfsMove hm).node_live (t := t) ht ?_
  rw [taskHold]
  rcases hn with hn | hn
  · rw [show task.executableNode = some n from hn, pointsTo_self]
    omega
  · rw [show task.pendingExecutableNode = some n from hn, pointsTo_self]
    omega

theorem leave {task : Task} {status : ℤ} (h : Fitted k) (hr : Roster k fl) (hcur : k.current = some t)
    (ht : k.task t = some task) : Fitted (leave k t task status) := by
  have hst := (hr.current_task hcur ht).2
  obtain ⟨finished, bootStatus, heq⟩ := retire_eq k t task status
  have hretire : Fitted (retire k t task status) := by
    rw [heq]
    refine h.setTask (f := fun task => { task with exitStatus := status % 256, state := .zombie }) ht (fun hf => ?_)
      rfl rfl rfl
    exact hf.move (by rw [hst]; decide) fun hx => by cases hx
  have hwake : Resting (retire k t task status) (wakeWaitingParent (retire k t task status) task) :=
    Roster.resting_wakeWaitingParent _ task
  have hvfs := (pointers_wakeWaitingParent (retire k t task status) task).vfs
  intro c hmem x hx
  exact hretire.resting hvfs hwake c hmem x hx

theorem sched (h : Fitted k) (hr : Roster k fl) (hs : Sched k fl k' fl') : Fitted k' := by
  cases hs with
  | calm hc => exact h.resting hc.vfs hc.rest
  | @dispatch _ t task hcur hfin hmem ht hst hw =>
    refine h.setTask (f := fun task => { task with state := .running }) ht (fun hf => ?_) rfl rfl rfl
    rw [hst] at hf
    exact hf.move (by decide) fun _ => rfl
  | @yield _ t task state frame hcur ht hs hp hw hf =>
    refine h.setTask (f := fun task => { task with wakeReason := .none, state := state, frame := frame }) ht
      (fun hfit => ?_) rfl rfl rfl
    rw [(hr.current_task hcur ht).2] at hfit
    exact hfit.move (by decide) fun _ => rfl
  | @exec _ t task hcur ht hw =>
    refine h.setTask (f := fun task => { task with wakeReason := .none, state := .execPending, frame := .entry }) ht
      (fun hfit => ?_) rfl rfl rfl
    rw [(hr.current_task hcur ht).2] at hfit
    exact hfit.move (by decide) fun _ => rfl
  | @restart _ t task f fatal hfin ht hh hpid hppid hpend hst hfr hfit hexit => exact h.setTask ht hfit rfl rfl rfl
  | leave hcur ht hdirs => exact h.leave hr hcur ht
  | @list _ t task parent hl ht hmem hst hfr hfit hfath =>
    intro c hc x hx
    rcases List.mem_cons.mp hc with rfl | hc
    · have hx' : k.task c = some x := hx
      rw [ht, Option.some.injEq] at hx'
      subst hx'
      exact hfit
    · exact h c hc x hx
  | @unlist _ p c parent child hl hcur hp hppid hmem hc hst =>
    intro d hd x hx
    have hne : d ≠ c := by
      rintro rfl
      exact hr.nodup.not_mem_erase hd
    have hx' : (k.setTask c fun task => { task with state := .dead }).task d = some x := hx
    rw [Kernel.task_setTask_of_ne _ _ hne] at hx'
    exact h d (List.mem_of_mem_erase hd) x hx'

theorem micro (h : Fitted k) (hb : Books k fl) (hr : Roster k fl) (hs : Stocked k.vfs)
    (hm : Micro gone k fl k' fl') : Fitted k' := by
  cases hm with
  | vfs hv => exact h.vfs hb hs hv
  | sched hsched => exact h.sched hr hsched
  | @hold _ _ t task f ht hx =>
    refine h.setTask (f := f) ht (fun hf => ?_) rfl rfl rfl
    rw [hx.state]
    exact hx.fit hf
  | create =>
    intro c hmem x hx
    obtain ⟨y, hy⟩ := hr.live hmem
    rw [Kernel.task, Heap.get_alloc_of_ne _ _ (Nat.ne_of_lt (Heap.lt_next_of_get hy))] at hx
    exact h c hmem x hx
  | destroy =>
    intro c hmem x hx
    rw [Kernel.task, Heap.get_free] at hx
    split at hx
    · cases hx
    · exact h c hmem x hx
  | leak => exact h
  | file => exact h
  | openFile => exact h
  | closeFile => exact h
  | openPipe => exact h
  | openWriter => exact h
  | closeReader => exact h.resting (Waiting.vfs_pipeClose _ _ _) ((resting_pipeClose _ _ _).after rfl rfl rfl rfl rfl)
  | closeWriter => exact h.resting (Waiting.vfs_pipeClose _ _ _) ((resting_pipeClose _ _ _).after rfl rfl rfl rfl rfl)
  | fetch => exact h.resting rfl ((Books.calm_cbWakePipeTasks _).rest.after rfl rfl rfl rfl rfl)
  | beginWrite => exact h
  | store => exact h.resting rfl ((Books.calm_cbWakePipeTasks _).rest.after rfl rfl rfl rfl rfl)
  | endWrite => exact h

end Fitted

theorem Keeps.micro (hs : Stocked k.vfs) (hb : Books k fl) (hm : Micro gone k fl k' fl') : Keeps k.vfs k'.vfs := by
  cases hm with
  | vfs hv => exact (hv.stock hb.vfs hs).2
  | sched hs =>
    rw [hs.pointers.vfs]
    exact .refl _
  | closeReader =>
    rw [pipeReadClose, Waiting.vfs_pipeClose]
    exact .refl _
  | closeWriter =>
    rw [pipeWriteClose, Waiting.vfs_pipeClose]
    exact .refl _
  | _ => exact .refl _

theorem Stocked.micro (h : Stocked k.vfs) (hb : Books k fl) (hm : Micro gone k fl k' fl') : Stocked k'.vfs := by
  cases hm with
  | vfs hv => exact (hv.stock hb.vfs h).1
  | sched hs =>
    rw [hs.pointers.vfs]
    exact h
  | closeReader =>
    rw [pipeReadClose, Waiting.vfs_pipeClose]
    exact h
  | closeWriter =>
    rw [pipeWriteClose, Waiting.vfs_pipeClose]
    exact h
  | _ => exact h

end CannedBsd
