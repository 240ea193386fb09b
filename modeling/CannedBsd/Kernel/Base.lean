import CannedBsd.Kernel.Fitness
import CannedBsd.Kernel.Lineage

/-!
# The invariants of a step

What every elementary step keeps: the reference counts, the task list, the reasons for which tasks
are suspended, that a task holds no more than its state allows, that pipes stay within their
buffers, that the tasks hold what they run, and that they are the ones the history speaks of.

* `Base.micro`: every elementary step keeps the invariants.
* `Base.moves`: so does every path of elementary steps.
-/

namespace CannedBsd

open CannedBsd.Lib

/-- A task that has exited has no directory handle in use, and only a task inside `exec` has a
program file it is about to run. -/
structure Settled (task : Task) : Prop where
  handles : exited task.state = true → ∀ d, (task.directories d).inUse = false
  pending : task.state ≠ .execPending → task.pendingExecutableNode = none

/-- All tasks are settled. -/
def Orderly (k : Kernel) : Prop := ∀ t task, k.task t = some task → Settled task

variable {k k' : Kernel} {fl fl' : Flight}

theorem Rests.settled {task task' : Task} (h : Rests task task') (hs : Settled task) : Settled task' := by
  have hdirs : task'.directories = task.directories := congrArg Holdings.directories h.holdings
  have hpend : task'.pendingExecutableNode = task.pendingExecutableNode :=
    congrArg Holdings.pendingExecutableNode h.holdings
  refine ⟨fun hx d => ?_, fun hne => ?_⟩
  · rw [hdirs]
    rcases h.state with heq | ⟨-, heq⟩
    · rw [heq] at hx
      exact hs.handles hx d
    · rw [heq] at hx
      cases hx
  · rw [hpend]
    refine hs.pending fun hexec => hne ?_
    exact h.pending_iff.mpr hexec

/-- A task that is neither gone nor inside `exec` and has no pending program file. -/
theorem Settled.of_state {task : Task} (hx : exited task.state = false)
    (hp : task.pendingExecutableNode = none) : Settled task := by
  refine ⟨fun h => ?_, fun _ => hp⟩
  rw [hx] at h
  cases h

namespace Orderly

theorem resting (h : Orderly k) (hr : Resting k k') : Orderly k' := by
  intro t task' ht'
  obtain ⟨task, ht, hrest⟩ := hr.tasks ht'
  exact hrest.settled (h t task ht)

theorem setTask (h : Orderly k) {t : TaskId} {f : Task → Task}
    (hf : ∀ task, k.task t = some task → Settled task → Settled (f task)) : Orderly (k.setTask t f) := by
  intro c task' hc
  by_cases hct : c = t
  · subst hct
    rw [Kernel.task_setTask, if_pos rfl] at hc
    obtain ⟨task, ht, rfl⟩ := Option.map_eq_some_iff.mp hc
    exact hf task ht (h c task ht)
  · rw [Kernel.task_setTask_of_ne _ _ hct] at hc
    exact h c task' hc

theorem sched (h : Orderly k) (hr : Roster k fl) (hs : Sched k fl k' fl') : Orderly k' := by
  cases hs with
  | calm hc => exact h.resting hc.rest
  | @dispatch _ t task hcur hfin hmem ht hst hw =>
    refine h.setTask (f := fun task => { task with state := .running }) fun task' ht' hset => ?_
    rw [ht, Option.some.injEq] at ht'
    subst ht'
    exact .of_state rfl (hset.pending (by rw [hst]; decide))
  | @yield _ t task state frame hcur ht hs hp hw hf =>
    refine h.setTask (f := fun task => { task with wakeReason := .none, state := state, frame := frame })
      fun task' ht' hset => .of_state (exited_of_suspended hs) (hset.pending ?_)
    rw [(hr.current_task hcur ht').2]
    decide
  | @exec _ t task hcur ht hw =>
    exact h.setTask (f := fun task => { task with wakeReason := .none, state := .execPending, frame := .entry })
      fun _ _ _ => ⟨fun hx => (by cases hx), fun hne => absurd rfl hne⟩
  | @restart _ t task f fatal hfin ht hh hpid hppid hpend hst hfr hfit hexit =>
    refine h.setTask (f := f) fun task' ht' hset => ?_
    rw [ht, Option.some.injEq] at ht'
    subst ht'
    refine .of_state (by rw [hst]; rfl) ?_
    exact (congrArg Holdings.pendingExecutableNode hh).trans hpend
  | @leave _ t task status hcur ht hdirs =>
    obtain ⟨finished, bootStatus, heq⟩ := retire_eq k t task status
    have hretire : Orderly (retire k t task status) := by
      rw [heq]
      refine h.setTask (f := fun task => { task with exitStatus := status % 256, state := .zombie }) ?_
      intro task' ht' hset
      rw [ht, Option.some.injEq] at ht'
      subst ht'
      refine ⟨fun _ => hdirs, fun _ => hset.pending ?_⟩
      rw [(hr.current_task hcur ht).2]
      decide
    have hwake : Orderly (wakeWaitingParent (retire k t task status) task) :=
      hretire.resting (Roster.resting_wakeWaitingParent _ task)
    exact hwake
  | list => exact h
  | @unlist _ p c parent child hl hcur hp hppid hmem hc hst =>
    refine h.setTask (f := fun task => { task with state := .dead }) fun task' ht' hset => ?_
    rw [hc, Option.some.injEq] at ht'
    subst ht'
    exact ⟨fun _ => hset.handles (by rw [hst]; rfl), fun _ => hset.pending (by rw [hst]; decide)⟩

theorem hold {gone : NodeId → Prop} {t : TaskId} {task : Task} {f : Task → Task} (h : Orderly k)
    (ht : k.task t = some task) (hx : Exchange gone k.vfs fl fl' task (f task)) : Orderly (k.setTask t f) := by
  refine h.setTask fun task' ht' hset => ?_
  rw [ht, Option.some.injEq] at ht'
  subst ht'
  refine ⟨fun hexit d => ?_, fun hne => ?_⟩
  · rw [hx.state] at hexit
    cases huse : ((f task).directories d).inUse with
    | false => rfl
    | true =>
      rcases hx.inUse d huse with hin | hrun
      · rw [hset.handles hexit d] at hin
        cases hin
      · rw [hrun] at hexit
        cases hexit
  · rw [hx.state] at hne
    exact (hx.pending.resolve_right hne).trans (hset.pending hne)

theorem micro {gone : NodeId → Prop} (h : Orderly k) (hr : Roster k fl) (hm : Micro gone k fl k' fl') :
    Orderly k' := by
  cases hm with
  | vfs hv => exact h
  | sched hs => exact h.sched hr hs
  | hold ht hx => exact h.hold ht hx
  | @create _ task a hl hn hs hroot hpid hst hfr hdirs hpend =>
    intro c task' hc
    rw [Kernel.task, Heap.get_alloc] at hc
    split at hc
    · cases hc
      exact .of_state (by rw [hst]; rfl) hpend
    · exact h c task' hc
  | @destroy _ t task a hl hmem ht ha hs =>
    intro c task' hc
    rw [Kernel.task, Heap.get_free] at hc
    split at hc
    · cases hc
    · exact h c task' hc
  | leak ha => exact h
  | file => exact h
  | openFile => exact h
  | closeFile => exact h
  | openPipe => exact h
  | openWriter => exact h
  | closeReader => exact h.resting ((resting_pipeClose _ _ _).after rfl rfl rfl rfl rfl)
  | closeWriter => exact h.resting ((resting_pipeClose _ _ _).after rfl rfl rfl rfl rfl)
  | fetch => exact h.resting ((Books.calm_cbWakePipeTasks _).rest.after rfl rfl rfl rfl rfl)
  | beginWrite => exact h
  | store => exact h.resting ((Books.calm_cbWakePipeTasks _).rest.after rfl rfl rfl rfl rfl)
  | endWrite => exact h

end Orderly

/-! ### Ring positions -/

/-- The position and the fill level of a pipe are within its buffer. -/
structure Pipe.Fits (pipe : Pipe) : Prop where
  position : pipe.readPosition < cbPipeBytes
  used : pipe.used ≤ cbPipeBytes

def Rings (k : Kernel) : Prop := ∀ p pipe, k.pipes.get p = some pipe → pipe.Fits

namespace Rings

theorem modify {p : PipeId} {g : Pipe → Pipe} (h : Rings k) (hp : k'.pipes = k.pipes.modify p g)
    (hg : ∀ pipe, k.pipes.get p = some pipe → pipe.Fits → (g pipe).Fits) : Rings k' := by
  intro q pipe hq
  rw [hp, Heap.get_modify] at hq
  split at hq
  · rename_i heq
    subst heq
    obtain ⟨pipe', hpipe, rfl⟩ := Option.map_eq_some_iff.mp hq
    exact hg pipe' hpipe (h q pipe' hpipe)
  · exact h q pipe hq

theorem pipeClose {p : PipeId} {lower : Pipe → Pipe} (h : Rings k)
    (hl : ∀ pipe, pipe.Fits → (lower pipe).Fits) : Rings (pipeClose k p lower) := by
  rw [CannedBsd.pipeClose]
  split
  · exact h
  have hlow : Rings (cbWakePipeTasks (k.setPipe p lower)) := h.modify rfl fun pipe _ => hl pipe
  dsimp only
  split
  · intro q pipe hq
    rw [Heap.get_free] at hq
    split at hq
    · cases hq
    · exact hlow q pipe hq
  · exact hlow

theorem micro {gone : NodeId → Prop} (h : Rings k) (hm : Micro gone k fl k' fl') : Rings k' := by
  cases hm with
  | vfs hv => exact h
  | sched hs =>
    have hpipes := hs.pointers.pipes
    intro p pipe hp
    rw [hpipes] at hp
    exact h p pipe hp
  | hold => exact h
  | create => exact h
  | destroy => exact h
  | leak => exact h
  | file => exact h
  | openFile => exact h
  | closeFile => exact h
  | openPipe =>
    intro p pipe hp
    rw [Heap.get_alloc] at hp
    split at hp
    · cases hp
      exact ⟨by decide, by decide⟩
    · exact h p pipe hp
  | openWriter hp hz hb => exact h.modify rfl fun pipe _ hf => ⟨hf.position, hf.used⟩
  | @closeReader _ f file p b hf hlast ho hb =>
    have hk : Rings ({ k with files := k.files.free f }.log (.lastClose f)) := h
    exact hk.pipeClose fun pipe hp => ⟨hp.position, hp.used⟩
  | @closeWriter _ f file p b hf hlast ho hb =>
    have hk : Rings ({ k with files := k.files.free f }.log (.lastClose f)) := h
    exact hk.pipeClose fun pipe hp => ⟨hp.position, hp.used⟩
  | @fetch _ p pipe amount hp hle =>
    refine h.modify rfl fun pipe' _ hfit => ⟨Nat.mod_lt _ (by decide), ?_⟩
    exact (Nat.sub_le _ _).trans hfit.used
  | beginWrite => exact h
  | @store _ w pipe bytes hw hp hne hbytes =>
    refine h.modify rfl fun pipe' hp' hfit => ⟨hfit.position, ?_⟩
    rw [hp, Option.some.injEq] at hp'
    subst hp'
    have hlen : bytes.length ≤ cbPipeBytes - pipe.used := by
      rw [hbytes]
      exact List.length_take_le _ _
    have hused := hfit.used
    dsimp only
    omega
  | endWrite => exact h

end Rings

/-- The invariants that hold between any two elementary steps. -/
structure Base (k : Kernel) (fl : Flight) : Prop where
  books : Books k fl
  roster : Roster k fl
  waiting : Waiting k
  orderly : Orderly k
  rings : Rings k
  stock : Stocked k.vfs
  fit : Fitted k
  lineage : Lineage k fl

theorem Base.micro {gone : NodeId → Prop} (h : Base k fl) (hm : Micro gone k fl k' fl') : Base k' fl' :=
  ⟨h.books.micro hm, h.roster.micro hm, h.waiting.micro h.books h.roster hm, h.orderly.micro h.roster hm,
    h.rings.micro hm, h.stock.micro h.books hm, h.fit.micro h.books h.roster h.stock hm,
    h.lineage.micro h.roster hm⟩

theorem Base.moves {gone : NodeId → Prop} (h : Base k fl) (hm : Moves gone k fl k' fl') : Base k' fl' := by
  induction hm with
  | refl => exact h
  | step _ hs ih => exact ih.micro hs

/-- No node that is still there has changed its program. -/
theorem Base.keeps {gone : NodeId → Prop} (h : Base k fl) (hm : Moves gone k fl k' fl') : Keeps k.vfs k'.vfs := by
  induction hm with
  | refl => exact .refl _
  | step hprev hs ih =>
    have hmid := h.moves hprev
    exact ih.trans (.micro hmid.stock hmid.books hs)

/-- A node the call still holds keeps its program. -/
theorem Base.houses {gone : NodeId → Prop} {n : NodeId} {p : ProgramId} (h : Base k fl)
    (hm : Moves gone k fl k' fl') (hn : 0 < fl'.nodes n) (hh : Houses k.vfs n p) : Houses k'.vfs n p := by
  obtain ⟨node, hnode⟩ := (h.moves hm).books.vfs.live (n := n) (by omega)
  exact (h.keeps hm).houses hh hnode

end CannedBsd
