import CannedBsd.Kernel.Children

/-!
# Programs outlive their uses

A program is destroyed with the node that holds it, and user commands may remove that node at any
time. The tasks hold the nodes of what they run, so a program is never destroyed while a task on the
list runs it, is about to run it, or has an instance of it. Where a step takes a use away, by reaping
a zombie or by replacing a program, it does so before it gives the node back.

* `persists_step`: a step that neither replaces a program nor reaps a zombie takes no use away.
* `spares_step`: a step spares the programs in use.
* `programs_outlive_uses`: in every run each task holds the node of its program, and no program in use is
  destroyed.
-/

namespace CannedBsd

open CannedBsd.Lib

variable {gone : NodeId → Prop} {k k' k'' : Kernel} {fl : Flight} {l : NodeId → ℕ} {t : TaskId} {p : ProgramId}

/-! ### Uses of a program -/

/-- The task runs the program, is about to run it, or has an instance of it. -/
def Uses (task : Task) (p : ProgramId) : Prop :=
  task.program = some p ∨ task.pendingProgram = some p ∨ task.execution = some p

/-- A task on the list uses the program. -/
def InUse (k : Kernel) (p : ProgramId) : Prop := ∃ t ∈ k.order, ∃ task, k.task t = some task ∧ Uses task p

/-- No program that is destroyed on the way is in use before or after it. -/
def Spares (k k' : Kernel) : Prop :=
  ∀ p ∈ k'.vfs.destroyed, p ∉ k.vfs.destroyed → ¬ InUse k p ∧ ¬ InUse k' p

/-- The node pointer goes to a live node that holds the program, and the count of the node covers all
pointers of tasks and open files to it. -/
def Secures (k : Kernel) (program : Option ProgramId) (executable : Option NodeId) : Prop :=
  ∀ p, program = some p → ∃ n node, executable = some n ∧ k.vfs.node n = some node ∧
    node.executable = some p ∧ k.holders n ≤ node.references

theorem Spares.of_vfs (h : k'.vfs = k.vfs) : Spares k k' := by
  intro p hp hnew
  rw [h] at hp
  exact absurd hp hnew

theorem Uses.badge {task task' : Task} (h : Uses task p) (hb : task'.badge = task.badge) : Uses task' p := by
  have hprogram : task'.program = task.program := congrArg Badge.program hb
  have hpending : task'.pendingProgram = task.pendingProgram := congrArg Badge.pendingProgram hb
  have hexecution : task'.execution = task.execution := congrArg Badge.execution hb
  rw [Uses, hprogram, hpending, hexecution]
  exact h

/-- What is in use is there. -/
theorem Base.inUse_live (hb : Base k fl) (h : InUse k p) : ∃ program, k.vfs.programs.get p = some program := by
  obtain ⟨t, hmem, task, ht, huse⟩ := h
  have hfit := hb.fit t hmem task ht
  have hlive : ∀ {n q}, Houses k.vfs n q → ∃ program, k.vfs.programs.get q = some program := by
    rintro n q ⟨node, hn, hq⟩
    exact hb.stock.live hn hq
  have hprogram : task.program = some p → ∃ program, k.vfs.programs.get p = some program := by
    intro heq
    obtain ⟨q, n, hq, -, hhouse⟩ := hfit.program
    have hqp : some q = some p := hq.symm.trans heq
    cases hqp
    exact hlive hhouse
  rcases huse with heq | heq | heq
  · exact hprogram heq
  · rcases hfit.pending p heq with ⟨n, -, hhouse⟩ | ⟨-, hsame⟩
    · exact hlive hhouse
    · exact hprogram hsame
  · rcases hfit.execution with hnone | hsame
    · rw [show task.execution = none from hnone] at heq
      cases heq
    · exact hprogram (hsame.symm.trans heq)

theorem Base.not_inUse (hb : Base k fl) (hp : p ∈ k.vfs.destroyed) : ¬ InUse k p := by
  intro huse
  obtain ⟨program, hlive⟩ := hb.inUse_live huse
  rw [(hb.stock.gone hp).2] at hlive
  cases hlive

theorem Base.secures {program : Option ProgramId} {executable : Option NodeId} (hb : Base k fl)
    (hh : ∀ p, program = some p → ∃ n, executable = some n ∧ Houses k.vfs n p) : Secures k program executable := by
  intro p hp
  obtain ⟨n, hn, node, hnode, hexec⟩ := hh p hp
  refine ⟨n, node, hn, hnode, hexec, ?_⟩
  have hcount := hb.books.vfs.refs.count hnode
  omega

/-! ### Fields of tasks -/

theorem task_cbWakePipeTasks (k : Kernel) (c : TaskId) :
    (cbWakePipeTasks k).task c = (k.task c).map fun task => if c ∈ k.order then wakePipeTask task else task :=
  Heap.get_map _ _ _

/-- A field that waking up does not change. -/
theorem wake_field {β : Type} (field : Task → β) (hf : ∀ task, field (wakePipeTask task) = field task) (k : Kernel)
    (c : TaskId) : ((cbWakePipeTasks k).task c).map field = (k.task c).map field := by
  rw [task_cbWakePipeTasks, Option.map_map]
  apply congrArg (fun g => (k.task c).map g)
  funext task
  show field (if c ∈ k.order then wakePipeTask task else task) = field task
  split
  · exact hf task
  · rfl

/-- Fields of a task that waking up does not change do not depend on nodes, files and pipes. -/
theorem aloof_field {β : Type} (field : Task → β) (hf : ∀ task, field (wakePipeTask task) = field task) (c : TaskId) :
    Aloof fun k => (k.task c).map field :=
  ⟨fun _ _ => rfl, fun _ _ => rfl, fun _ _ => rfl, fun _ _ => rfl, fun k => wake_field field hf k c⟩

theorem badge_wakePipeTask (task : Task) : (wakePipeTask task).badge = task.badge := by
  rw [wakePipeTask]
  split
  · rfl
  split
  · rfl
  · rfl

theorem badge_closeAll (k : Kernel) (t c : TaskId) :
    ((dirCloseAll (fdCloseAll (taskReleaseAllocations k t) t) t).task c).map Task.badge =
      (k.task c).map Task.badge := by
  have haloof := aloof_field Task.badge badge_wakePipeTask c
  rw [haloof.dirCloseAll fun k _ _ => field_setTask Task.badge k t c fun _ => rfl, fdCloseAll,
    haloof.fdCloseWhere fun k _ _ => field_setTask Task.badge k t c fun _ => rfl]
  exact field_setTask Task.badge k t c fun _ => rfl

/-! ### Steps that leave the programs and the interrupt state of every task alone -/

/-- Every task is still there, with the same programs and the same interrupt state. -/
structure SameBadges (k k' : Kernel) : Prop where
  tasks : ∀ {t task}, k.task t = some task → ∃ task', k'.task t = some task' ∧ task'.badge = task.badge

namespace SameBadges

theorem refl (k : Kernel) : SameBadges k k := ⟨fun ht => ⟨_, ht, rfl⟩⟩

theorem trans (h : SameBadges k k') (h' : SameBadges k' k'') : SameBadges k k'' := by
  refine ⟨fun {t task} ht => ?_⟩
  obtain ⟨task', ht', heq⟩ := h.tasks ht
  obtain ⟨task'', ht'', heq'⟩ := h'.tasks ht'
  exact ⟨task'', ht'', heq'.trans heq⟩

theorem of_tasks (h : k'.tasks = k.tasks) : SameBadges k k' := by
  refine ⟨fun {t task} ht => ⟨task, ?_, rfl⟩⟩
  rw [Kernel.task, h]
  exact ht

theorem of_bystanders (h : Bystanders k k') : SameBadges k k' := by
  refine ⟨fun {t task} ht => ?_⟩
  obtain ⟨task', ht', hstand⟩ := h.tasks ht
  exact ⟨task', ht', hstand.badge⟩

theorem of_resting (h : Resting k k') : SameBadges k k' := .of_bystanders (Steady.of_resting h).bystanders

theorem of_map (h : ∀ c, (k'.task c).map Task.badge = (k.task c).map Task.badge) : SameBadges k k' := by
  refine ⟨fun {t task} ht => ?_⟩
  have hsame := h t
  rw [ht, Option.map_some, Option.map_eq_some_iff] at hsame
  exact hsame

theorem setTask (k : Kernel) (t : TaskId) {f : Task → Task}
    (hf : ∀ task, k.task t = some task → (f task).badge = task.badge) : SameBadges k (k.setTask t f) := by
  refine ⟨fun {c task} hc => ?_⟩
  by_cases hct : c = t
  · subst hct
    exact ⟨f task, Kernel.task_setTask_self f hc, hf task hc⟩
  · refine ⟨task, ?_, rfl⟩
    rw [Kernel.task_setTask_of_ne _ _ hct]
    exact hc

end SameBadges

theorem Returns.sameBadges {r : Kernel × Outcome} (h : Returns gone k fl r) : SameBadges k r.1 := by
  obtain ⟨hpath, -⟩ := h
  exact .of_bystanders hpath.steady.bystanders

theorem sameBadges_deliver (t : TaskId) (r : Kernel × Outcome) : SameBadges r.1 (deliver t r) := by
  obtain ⟨k, o⟩ := r
  cases o with
  | done reply out =>
    rw [deliver]
    have hprogram : ∀ k : Kernel, SameBadges k (k.setTask t fun task => { task with frame := .program }) :=
      fun k => .setTask k t fun _ _ => rfl
    cases reply.error with
    | none => exact hprogram k
    | some e =>
      have herror : SameBadges k (k.setError t e) := .setTask k t fun _ _ => rfl
      exact herror.trans (hprogram (k.setError t e))
  | block state frame =>
    have hstate : SameBadges k
        (k.setTask t fun task => { task with wakeReason := .none, state := state, frame := frame }) :=
      .setTask k t fun _ _ => rfl
    exact hstate.trans (.of_tasks rfl)
  | gone => exact .refl k

theorem sameBadges_wakePipe (p : PipeId) (g : Pipe → Pipe) (e : Event) :
    SameBadges k (cbWakePipeTasks ((k.setPipe p g).log e)) :=
  .of_resting ((Books.calm_cbWakePipeTasks ((k.setPipe p g).log e)).rest.after rfl rfl rfl rfl rfl)

theorem sameBadges_pipeRead (k : Kernel) (p : PipeId) (count : ℕ) : SameBadges k (pipeRead k p count).1 := by
  rw [pipeRead]
  split
  · exact .refl k
  split
  · exact .refl k
  split
  · split
    · exact .refl k
    · exact .refl k
  · exact sameBadges_wakePipe p _ _

theorem sameBadges_pipeWriteLoop (p : PipeId) (call : ℕ) (buffer : Bytes) (fuel : ℕ) :
    ∀ (k : Kernel) (total : ℕ), SameBadges k (pipeWriteLoop p call buffer fuel k total).1 := by
  induction fuel with
  | zero => exact fun k total => .refl k
  | succ fuel ih =>
    intro k total
    rw [pipeWriteLoop]
    split
    · exact .of_tasks rfl
    split
    · exact .of_tasks rfl
    split
    · exact .of_tasks rfl
    split
    · exact .of_tasks rfl
    · exact (sameBadges_wakePipe p _ _).trans (ih _ _)

theorem tasks_consoleRead (h : Host) (k : Kernel) (count : ℕ) : (consoleRead h k count).1.tasks = k.tasks := by
  rw [consoleRead]
  split
  · rfl
  split
  · rfl
  split
  · rfl
  · rfl

theorem tasks_pollLoop (h : Host) (k : Kernel) (t : TaskId) (fds : List PollFd) :
    (pollLoop h k t fds).1.tasks = k.tasks := by
  rw [pollLoop]
  split
  · rfl
  dsimp only
  split
  · rfl
  split
  · rfl
  split
  · rfl
  · rfl

theorem sameBadges_apiPoll (h : Host) (fds : List PollFd) (timeout : ℤ) : SameBadges k (apiPoll h k t fds timeout).1 := by
  have hloop : ∀ k : Kernel, SameBadges k
      (pollLoop h (k.setTask t fun task => { task with wakeTimeout := timeout }) t fds).1 := by
    intro k
    have hnote : SameBadges k (k.setTask t fun task => { task with wakeTimeout := timeout }) :=
      .setTask k t fun _ _ => rfl
    exact hnote.trans (.of_tasks (tasks_pollLoop h _ t fds))
  have hstart : SameBadges k (k.setTask t fun task => { task with wakeStart := h.monotonic 0 }) :=
    .setTask k t fun _ _ => rfl
  rw [apiPoll]
  split
  · exact .refl k
  split
  · dsimp only
    split
    · exact hstart
    · exact hstart.trans (hloop _)
  · exact hloop k

theorem sameBadges_apiRead (h : Host) (descriptor : ℤ) (count : ℕ) :
    SameBadges k (apiRead h k t descriptor count).1 := by
  rw [apiRead]
  split
  · exact .refl k
  split
  · exact .refl k
  · exact .refl k
  · split
    · exact .refl k
    split
    · exact .refl k
    · exact .of_tasks rfl
  · split
    · exact .refl k
    · exact sameBadges_pipeRead k _ count
  · split
    · exact .refl k
    · exact .of_tasks (tasks_consoleRead h k count)

theorem sameBadges_apiWrite (h : Host) (descriptor : ℤ) (buffer : Bytes) :
    SameBadges k (apiWrite h k t descriptor buffer).1 := by
  rw [apiWrite]
  split
  · exact .refl k
  split
  · exact .refl k
  · exact .refl k
  · split
    · exact .refl k
    split
    · exact .refl k
    · exact .of_tasks rfl
  · split
    · exact .refl k
    · have hbegin : SameBadges k { k with calls := k.calls + 1 } := .of_tasks rfl
      exact hbegin.trans (sameBadges_pipeWriteLoop _ _ _ _ _ _)
  · split
    · exact .refl k
    · exact .refl k

theorem sameBadges_apiExit (k : Kernel) (t : TaskId) (status : ℤ) : SameBadges k (apiExit k t status) := by
  have hclose : SameBadges k (dirCloseAll (fdCloseAll (taskReleaseAllocations k t) t) t) :=
    .of_map fun c => badge_closeAll k t c
  rw [apiExit_eq]
  generalize dirCloseAll (fdCloseAll (taskReleaseAllocations k t) t) t = k₁ at hclose ⊢
  cases ht : k₁.task t with
  | none => exact hclose
  | some task =>
    obtain ⟨finished, bootStatus, heq⟩ := retire_eq k₁ t task status
    have hretire : SameBadges k₁ (retire k₁ t task status) := by
      rw [heq]
      have hzombie : SameBadges k₁ (k₁.setTask t fun task => { task with exitStatus := status % 256, state := .zombie }) :=
        .setTask k₁ t fun _ _ => rfl
      exact hzombie.trans (.of_tasks rfl)
    have hwake : SameBadges (retire k₁ t task status) (wakeWaitingParent (retire k₁ t task status) task) :=
      .of_resting (Roster.resting_wakeWaitingParent _ task)
    exact hclose.trans (hretire.trans (hwake.trans (.of_tasks rfl)))

theorem sameBadges_apiSpawn (h : Host) (programName : Bytes) (argv : List Bytes) (envp : Option (List Bytes))
    (actions : List SpawnAction) (hb : Base k fl) (hl : fl.limbo = none) (hc : k.current = some t) :
    SameBadges k (apiSpawn h k t programName argv envp actions).1 := by
  rw [apiSpawn]
  split
  · exact .refl k
  split
  · exact .refl k
  split
  · exact .refl k
  rename_i n hexec
  obtain ⟨node, hn, -⟩ := executableNode_rooted (hb.resolves (.of_current hb hc)) hexec
  have hretain : Path noNode k fl (retainNode k (some n)) (fl.addNode (some n)) := retainNode_path hn
  have hcreate : Creates noNode (retainNode k (some n)) (fl.addNode (some n)) (some t) (executableOf k n)
      (taskCreate h (retainNode k (some n)) (some t) (executableOf k n) argv envp actions) :=
    taskCreate_creates h (some t) (executableOf k n) argv envp actions (hretain.base hb) hl
  have hstart : SameBadges k (retainNode k (some n)) := .of_tasks rfl
  generalize taskCreate h (retainNode k (some n)) (some t) (executableOf k n) argv envp actions = r at hcreate ⊢
  cases hcreate with
  | @refused k' hmoves hstand => exact hstart.trans ((SameBadges.of_bystanders hstand).trans (.of_tasks rfl))
  | @ready k' child hmoves hstand ho hfresh hnew hprogram =>
    exact hstart.trans (.of_bystanders (bystanders_enlist (some t) n hstand hfresh))

/-! ### Steps that take no use away -/

/-- Every task is still there and uses what it used. -/
structure Persists (k k' : Kernel) : Prop where
  tasks : ∀ {t task}, k.task t = some task → ∃ task', k'.task t = some task' ∧ ∀ p, Uses task p → Uses task' p

theorem SameBadges.persists (h : SameBadges k k') : Persists k k' := by
  refine ⟨fun {t task} ht => ?_⟩
  obtain ⟨task', ht', heq⟩ := h.tasks ht
  exact ⟨task', ht', fun p hp => hp.badge heq⟩

theorem Persists.refl (k : Kernel) : Persists k k := (SameBadges.refl k).persists

theorem Persists.of_tasks (h : k'.tasks = k.tasks) : Persists k k' := (SameBadges.of_tasks h).persists

theorem Persists.of_bystanders (h : Bystanders k k') : Persists k k' := (SameBadges.of_bystanders h).persists

theorem Persists.of_resting (h : Resting k k') : Persists k k' := (SameBadges.of_resting h).persists

theorem Persists.trans (h : Persists k k') (h' : Persists k' k'') : Persists k k'' := by
  refine ⟨fun {t task} ht => ?_⟩
  obtain ⟨task', ht', huse⟩ := h.tasks ht
  obtain ⟨task'', ht'', huse'⟩ := h'.tasks ht'
  exact ⟨task'', ht'', fun p hp => huse' p (huse p hp)⟩

theorem Persists.setTask (k : Kernel) (t : TaskId) {f : Task → Task}
    (hf : ∀ task p, k.task t = some task → Uses task p → Uses (f task) p) : Persists k (k.setTask t f) := by
  refine ⟨fun {c task} hc => ?_⟩
  by_cases hct : c = t
  · subst hct
    exact ⟨f task, Kernel.task_setTask_self f hc, fun p => hf task p hc⟩
  · refine ⟨task, ?_, fun _ hp => hp⟩
    rw [Kernel.task_setTask_of_ne _ _ hct]
    exact hc

/-- Tasks that are still there are on the list, and what they use is there too. -/
theorem spares_of_listed (hb' : Base k' fl) (hl : fl.limbo = none)
    (h : ∀ t ∈ k.order, ∀ task, k.task t = some task →
      ∃ task', k'.task t = some task' ∧ ∀ p, Uses task p → Uses task' p) : Spares k k' := by
  intro p hp _
  have hnot := hb'.not_inUse hp
  refine ⟨?_, hnot⟩
  rintro ⟨t, hmem, task, ht, huse⟩
  obtain ⟨task', ht', huse'⟩ := h t hmem task ht
  refine hnot ⟨t, ?_, task', ht', huse' p huse⟩
  refine (hb'.roster.listed ht').resolve_right fun hlimbo => ?_
  rw [hl] at hlimbo
  cases hlimbo

theorem Persists.spares (h : Persists k k') (hb' : Base k' fl) (hl : fl.limbo = none) : Spares k k' :=
  spares_of_listed hb' hl fun _ _ _ ht => h.tasks ht

theorem persists_apiExec (h : Host) (programName : Bytes) (argv : List Bytes) (envp : Option (List Bytes))
    (hb : Base k fl) (hc : k.current = some t) : Persists k (apiExec h k t programName argv envp).1 := by
  rw [apiExec]
  split
  · exact (SameBadges.refl k).persists
  rename_i n htarget
  dsimp only
  split
  · exact .of_tasks rfl
  · -- the running task has no pending program that would be overwritten
    obtain ⟨hmem, task, ht, hrun⟩ := hb.roster.current hc
    have hnone : task.pendingProgram = none := (hb.fit t hmem task ht).waits (by rw [hrun]; decide)
    refine ⟨fun {c x} hx => ?_⟩
    by_cases hct : c = t
    · subst hct
      have hxt : x = task := Option.some.inj (hx.symm.trans ht)
      subst hxt
      refine ⟨_, task_execPublish (k := retainNode k (some n)) n argv envp ht, fun p huse => ?_⟩
      rcases huse with hp | hp | hp
      · exact .inl hp
      · rw [hnone] at hp
        cases hp
      · exact .inr (.inr hp)
    · refine ⟨x, ?_, fun _ hp => hp⟩
      rw [execPublish]
      show (((retainNode k (some n)).setTask t _).setTask t _).task c = some x
      rw [Kernel.task_setTask_of_ne _ _ hct, Kernel.task_setTask_of_ne _ _ hct]
      exact hx

/-- **Calls.**  No call but `waitpid` takes a use away. -/
theorem persists_perform (h : Host) (op : Op) (hb : Base k (.rest l)) (hc : k.current = some t)
    (hop : ∀ pid, op ≠ .waitpid pid) : Persists k (perform h k t op).1 := by
  cases op with
  | exit status =>
    have hexit := (sameBadges_apiExit k t status).persists
    rw [perform]
    dsimp only
    exact hexit
  | spawn programName argv envp actions => exact (sameBadges_apiSpawn h programName argv envp actions hb rfl hc).persists
  | exec programName argv envp => exact persists_apiExec h programName argv envp hb hc
  | waitpid pid => exact absurd rfl (hop pid)
  | yield => exact (SameBadges.refl k).persists
  | read descriptor count => exact (sameBadges_apiRead h descriptor count).persists
  | write descriptor buffer => exact (sameBadges_apiWrite h descriptor buffer).persists
  | poll fds timeout => exact (sameBadges_apiPoll h fds timeout).persists
  | _ => exact (perform_returns h _ hb hc rfl).sameBadges.persists

/-! ### Reaping -/

/-- The zombie a round of `api_waitpid` finds, taken off the list. -/
def waitUnlist (k : Kernel) (t : TaskId) (pid : ℤ) : Option Kernel :=
  (k.task t).bind fun parent =>
    ((childrenOf k parent pid).find? fun c => (k.task c).any fun task => task.state = .zombie).bind fun c =>
      (k.task c).map fun child => unlist (k.record (.reaped t c child.pid child.exitStatus)) c

/-- Without a zombie the round takes no use away. -/
theorem persists_apiWaitpid {pid : ℤ} (h : waitUnlist k t pid = none) : Persists k (apiWaitpid k t pid).1 := by
  rw [apiWaitpid]
  split
  · exact .refl k
  rename_i parent ht
  split
  · rename_i c hfind
    split
    · exact .refl k
    · rename_i child hchild
      rw [waitUnlist, ht, Option.bind_some, hfind, Option.bind_some, hchild] at h
      cases h
  · split
    · exact .refl k
    · exact .setTask k t fun _ _ _ hp => hp

/-- With a zombie it destroys the task that it has taken off the list. -/
theorem spares_waitUnlist {fl' : Flight} {pid : ℤ} (h : waitUnlist k t pid = some k') (hb : Base k fl)
    (hb' : Base (deliver t (apiWaitpid k t pid)) fl') (hl : fl'.limbo = none) :
    Spares k' (deliver t (apiWaitpid k t pid)) := by
  obtain ⟨parent, ht, h⟩ := Option.bind_eq_some_iff.mp h
  obtain ⟨c, hfind, h⟩ := Option.bind_eq_some_iff.mp h
  obtain ⟨child, hchild, rfl⟩ := Option.map_eq_some_iff.mp h
  refine spares_of_listed hb' hl fun b hmem task hb₁ => ?_
  have hne : b ≠ c := by
    intro heq
    subst heq
    exact hb.roster.nodup.not_mem_erase hmem
  have heq : (apiWaitpid k t pid).1 = taskDestroy (unlist (k.record (.reaped t c child.pid child.exitStatus)) c) c := by
    rw [apiWaitpid, ht]
    dsimp only
    rw [hfind]
    dsimp only
    rw [hchild]
    dsimp only
    rw [reap, unlist]
  have hbadge : ((apiWaitpid k t pid).1.task b).map Task.badge = some task.badge := by
    rw [heq, taskDestroy, (aloof_field Task.badge badge_wakePipeTask b).taskRelease fun k => ?_, badge_closeAll, hb₁,
      Option.map_some]
    rw [Kernel.task, Heap.get_free, if_neg hne]
    rfl
  obtain ⟨x, hx, hxb⟩ := Option.map_eq_some_iff.mp hbadge
  obtain ⟨task', ht', heq'⟩ := (sameBadges_deliver t (apiWaitpid k t pid)).tasks hx
  exact ⟨task', ht', fun p hp => hp.badge (heq'.trans hxb)⟩

/-! ### Rounds of the scheduler -/

theorem persists_dispatch (k : Kernel) (t : TaskId) : Persists k (dispatch k t) := by
  have hrun : Persists k (k.setTask t fun task => { task with state := .running }) := .setTask k t fun _ _ _ hp => hp
  exact hrun.trans (.of_tasks rfl)

/-- A task that goes on, unless it goes on with a `waitpid` that finds a zombie. -/
theorem persists_resume (h : Host) {task : Task} (ht : k.task t = some task)
    (hw : ∀ pid, task.interrupted = false → task.frame = .waitpid pid → waitUnlist k t pid = none) :
    Persists k (resume h k t) := by
  have hgo : ∀ r : Kernel × Outcome, Persists k r.1 → Persists k (deliver t r) :=
    fun r hr => hr.trans (sameBadges_deliver t r).persists
  rw [resume, ht]
  dsimp only
  split
  · have hnote : Persists k (k.setTask t fun task => { task with interruptPending := false }) :=
      .setTask k t fun _ _ _ hp => hp
    exact hnote.trans (sameBadges_apiExit _ t 130).persists
  rename_i hint
  split
  · exact .setTask k t fun _ _ _ hp => hp
  · exact .refl k
  · exact hgo _ (sameBadges_pipeRead k _ _).persists
  · exact hgo _ (sameBadges_pipeWriteLoop _ _ _ _ _ _).persists
  · exact hgo _ (.of_tasks (tasks_consoleRead h k _))
  · rename_i pid hframe
    refine hgo _ (persists_apiWaitpid (hw pid ?_ hframe))
    rw [Task.interrupted]
    simpa [not_and] using hint
  · exact hgo _ (.of_tasks (tasks_pollLoop h k t _))

theorem persists_idleRound (h : Host) (k : Kernel) : Persists k (idleRound h k) := by
  have hpoll : ∀ k : Kernel, Persists k (forTasks k wakePollTask) :=
    fun k => .of_resting (Books.calm_forTasks k rests_wakePollTask).rest
  have hconsole : Persists k (wakeConsoleWaiters k) := .of_resting (Books.calm_forTasks k rests_wakeConsoleTask).rest
  rw [idleRound]
  split
  · split
    · exact hconsole.trans (hpoll _)
    · exact hpoll k
  split
  · exact .of_tasks rfl
  · exact .of_tasks rfl

theorem persists_roused (h : Host) (k : Kernel) : Persists k (roused h k) := by
  have hwake : Path noNode k (.rest fun _ => 0) (roused h k) (.rest fun _ => 0) := roused_path h k
  exact .of_bystanders hwake.steady.bystanders

theorem persists_scheduleRound (h : Host)
    (hw : ∀ k₁ t pid, waitRound k (.schedule h) = some (k₁, t, pid) → waitUnlist k₁ t pid = none) :
    Persists k (scheduleRound h k) := by
  have hroused := persists_roused h k
  rw [scheduleRound_eq]
  cases hpick : pickRunnable (roused h k) with
  | none => exact hroused.trans (persists_idleRound h _)
  | some t =>
    obtain ⟨-, task, ht, -⟩ := pickRunnable_eq_some hpick
    have ht' : (dispatch (roused h k) t).task t = some { task with state := .running } :=
      Kernel.task_setTask_self _ ht
    refine hroused.trans ((persists_dispatch _ t).trans (persists_resume h ht' fun pid hint hframe => ?_))
    have hint' : task.interrupted = false := hint
    have hframe' : task.frame = .waitpid pid := hframe
    refine hw (dispatch (roused h k) t) t pid ?_
    rw [waitRound, hpick, Option.bind_some, ht]
    dsimp only
    rw [hint', hframe']
    rfl

theorem persists_cbTaskSetInterrupt (k : Kernel) (t : TaskId) (disposition : Disposition) :
    Persists k (cbTaskSetInterrupt k t disposition).1 := by
  rw [cbTaskSetInterrupt]
  split
  · exact .refl k
  split
  · exact .refl k
  split
  · exact .refl k
  · exact .setTask k t fun _ _ _ hp => hp

theorem persists_cbKernelRequestInterrupt (k : Kernel) (pid : ℤ) :
    Persists k (cbKernelRequestInterrupt k pid).1 := by
  rw [cbKernelRequestInterrupt]
  split
  · exact .refl k
  split
  · exact .refl k
  split
  · exact .refl k
  split
  · exact .refl k
  split
  · exact .refl k
  · exact .setTask k _ fun _ _ _ hp => hp

/-- **Steps.**  A step that neither replaces a program nor reaps a zombie takes no use away. -/
theorem persists_step {a : Action} (h : Poised k l) (hs : step k a = some k') (ha : ∀ host, a ≠ .finishExec host)
    (hw : ∀ k₁ t pid, waitRound k a = some (k₁, t, pid) → waitUnlist k₁ t pid = none) : Persists k k' := by
  unfold step at hs
  split at hs
  · cases hs
  cases a with
  | call host op =>
    cases hc : k.current with
    | none => simp [hc] at hs
    | some t =>
      simp only [hc, Option.some.injEq] at hs
      subst hs
      refine Persists.trans ?_ (sameBadges_deliver t _).persists
      by_cases hop : ∃ pid, op = .waitpid pid
      · obtain ⟨pid, rfl⟩ := hop
        exact persists_apiWaitpid (hw k t pid (by rw [waitRound, hc, Option.map_some]))
      · exact persists_perform host op h.base hc fun pid heq => hop ⟨pid, heq⟩
  | schedule host =>
    dsimp only at hs
    split at hs
    · cases hs
      exact persists_scheduleRound host hw
    · cases hs
  | finishExec host => exact absurd rfl (ha host)
  | requestInterrupt pid =>
    cases hs
    exact persists_cbKernelRequestInterrupt k pid
  | setInterrupt t disposition =>
    dsimp only at hs
    split at hs
    · cases hs
      exact persists_cbTaskSetInterrupt k t disposition
    · cases hs
  | mountCreate host =>
    cases hs
    exact .of_tasks rfl
  | mountPath t path m =>
    dsimp only at hs
    split at hs
    · cases hs
      exact .of_tasks rfl
    · cases hs
  | register host program =>
    cases hs
    have hpath : Path noNode k (.rest l) (cbKernelRegister host k program) (.rest l) :=
      cbKernelRegister_path host program h.base
    exact .of_bystanders hpath.steady.bystanders
  | boot host command =>
    cases hs
    obtain ⟨-, hstand⟩ : Moves noNode k (.rest l) (cbKernelBoot host k command) (.rest l) ∧ _ :=
      cbKernelBoot_moves host command h.base rfl
    exact .of_bystanders hstand

/-! ### Replacement -/

/-- The states `task_finish_exec` passes through. -/
def finishStages (k : Kernel) (t : TaskId) : List Kernel :=
  [bared k t, shut k t, cleared k t, replaced (cleared k t) t, installProgram (cleared k t) t]

/-- The states a step passes through where it takes a use away. -/
def stages (k : Kernel) : Action → List Kernel
  | .finishExec _ => (k.finishing.map (finishStages k)).getD []
  | a => ((waitRound k a).bind fun (k₁, t, pid) => waitUnlist k₁ t pid).toList

theorem vfs_replaced (k : Kernel) (t : TaskId) : (replaced k t).vfs = k.vfs := rfl

/-- What becomes of a task that has no instance when it gets its new program and an instance of it. -/
theorem startInstance_uses {h : Host} {task : Task} (ht : k.task t = some task) (hx : task.execution = none) :
    (startInstance h k t).vfs = k.vfs ∧ (startInstance h k t).order = k.order ∧
      ∀ c x, k.task c = some x → (c = t → x.pendingProgram = x.program) →
        ∃ x', (startInstance h k t).task c = some x' ∧ ∀ p, Uses x p → Uses x' p := by
  rw [startInstance, ht]
  refine ⟨rfl, rfl, fun c x hc hp => ?_⟩
  by_cases hct : c = t
  · subst hct
    have hxt : x = task := Option.some.inj (hc.symm.trans ht)
    subst hxt
    refine ⟨_, Kernel.task_setTask_self _ ht, fun p huse => ?_⟩
    rcases huse with hprogram | hpending | hexecution
    · exact .inl hprogram
    · rw [hp rfl] at hpending
      exact .inl hpending
    · rw [hx] at hexecution
      cases hexecution
  · refine ⟨x, ?_, fun _ hp => hp⟩
    show (k.setTask t _).task c = some x
    rw [Kernel.task_setTask_of_ne _ _ hct]
    exact hc

/-- The node of the old program is given back when the task runs the new one. -/
theorem spares_installProgram (h : Host) {task : Task} (ht : k.task t = some task) (hx : task.execution = none)
    (hb : Base (startInstance h (installProgram k t) t) fl) :
    Spares (replaced k t) (installProgram k t) ∧
      Spares (installProgram k t) (startInstance h (installProgram k t) t) := by
  rw [installProgram_eq ht] at hb ⊢
  have ht' : (replaced k t).task t = _ := Kernel.task_setTask_self _ ht
  generalize hr : replaced k t = r at ht' hb ⊢
  obtain ⟨hvfs, horder, htasks⟩ := startInstance_uses (h := h) (k := releaseNode r task.executableNode) ht' hx
  refine ⟨fun p hp _ => ?_, .of_vfs hvfs⟩
  -- what a task runs after the replacement, it runs in the end
  have hafter : ∀ {k₀ : Kernel}, k₀.order = r.order → k₀.tasks = r.tasks → ¬ InUse k₀ p := by
    rintro k₀ ho hk ⟨c, hmem, x, hc, huse⟩
    rw [← hvfs] at hp
    have hc' : r.task c = some x := (congrArg (fun tasks => tasks.get c) hk).symm.trans hc
    have hsettled : c = t → x.pendingProgram = x.program := by
      intro hct
      subst hct
      rw [ht'] at hc'
      cases hc'
      rfl
    obtain ⟨x', hx', huses⟩ := htasks c x hc' hsettled
    refine hb.not_inUse hp ⟨c, ?_, x', hx', huses p huse⟩
    rw [horder]
    exact ho ▸ hmem
  exact ⟨hafter rfl rfl, hafter rfl rfl⟩

/-- **Replacement.**  `task_finish_exec` spares the programs in use. -/
theorem spares_finishStages (h : Host) (hb : Base k fl) (hl : fl.limbo = none) (hfin : k.finishing = some t)
    {fl' : Flight} (hb' : Base (taskFinishExec h k t) fl') :
    List.IsChain Spares (k :: finishStages k t ++ [taskFinishExec h k t]) := by
  obtain ⟨-, old, hold, hexec⟩ := hb.roster.finishing hfin
  obtain ⟨hbare, -⟩ : Moves noNode k fl (bared k t) fl ∧ _ := bared_moves hb hfin
  have hshut : Path noNode (bared k t) fl (shut k t) fl := shut_path hb hfin
  obtain ⟨l, hdirs, -⟩ : ∃ l, Path noNode (shut k t) fl (cleared k t) _ ∧ _ := cleared_path hb hfin
  have hb₂ := hshut.base (hb.moves hbare)
  have hb₃ := hdirs.base hb₂
  obtain ⟨task, ht, hstand⟩ := (hshut.trans hdirs).steady.tasks (task_bared hold)
  have hnone : task.execution = none := congrArg Badge.execution hstand.badge
  rw [taskFinishExec_eq] at hb' ⊢
  obtain ⟨hrelease, hstart⟩ := spares_installProgram h ht hnone hb'
  have hinstance : Spares k (bared k t) := .of_vfs rfl
  have hfiles : Spares (bared k t) (shut k t) := (Persists.of_bystanders hshut.steady.bystanders).spares hb₂ hl
  have hhandles : Spares (shut k t) (cleared k t) := (Persists.of_bystanders hdirs.steady.bystanders).spares hb₃ hl
  have hreplace : Spares (cleared k t) (replaced (cleared k t) t) := .of_vfs (vfs_replaced _ t)
  simp only [finishStages, List.cons_append, List.nil_append, List.isChain_cons_cons, List.isChain_singleton, and_true]
  exact ⟨hinstance, hfiles, hhandles, hreplace, hrelease, hstart⟩

/-! ### Whole runs -/

theorem vfs_roused (h : Host) (k : Kernel) : (roused h k).vfs = k.vfs := by
  rw [roused]
  split <;> rfl

theorem vfs_waitRound {a : Action} {k₁ : Kernel} {pid : ℤ} (h : waitRound k a = some (k₁, t, pid)) :
    k₁.vfs = k.vfs := by
  cases a with
  | call host op =>
    cases op with
    | waitpid p =>
      obtain ⟨c, -, heq⟩ := Option.map_eq_some_iff.mp h
      cases heq
      rfl
    | _ => cases h
  | schedule host =>
    obtain ⟨c, -, hround⟩ := Option.bind_eq_some_iff.mp h
    split at hround
    · cases hround
    split at hround
    · cases hround
    split at hround
    · cases hround
      exact vfs_roused host k
    · cases hround
  | _ => cases h

/-- **Steps.**  A step spares the programs in use. -/
theorem spares_step {a : Action} (h : Poised k l) (hs : step k a = some k') :
    List.IsChain Spares (k :: stages k a ++ [k']) := by
  obtain ⟨l', -, hp', -⟩ := h.step hs
  by_cases ha : ∃ host, a = .finishExec host
  · obtain ⟨host, rfl⟩ := ha
    unfold step at hs
    split at hs
    · cases hs
    obtain ⟨t, hfin, rfl⟩ := Option.map_eq_some_iff.mp hs
    rw [stages, hfin, Option.map_some, Option.getD_some]
    exact spares_finishStages host h.base rfl hfin hp'.base
  have hstages : stages k a = ((waitRound k a).bind fun (k₁, t, pid) => waitUnlist k₁ t pid).toList := by
    cases a with
    | finishExec host => exact absurd ⟨host, rfl⟩ ha
    | _ => rfl
  rw [hstages]
  cases hround : (waitRound k a).bind fun (k₁, t, pid) => waitUnlist k₁ t pid with
  | none =>
    have hkeep : Persists k k' := by
      refine persists_step h hs (fun host heq => ha ⟨host, heq⟩) fun k₁ t pid hw => ?_
      rw [hw] at hround
      exact hround
    simp only [Option.toList_none, List.cons_append, List.nil_append, List.isChain_cons_cons,
      List.isChain_singleton, and_true]
    exact hkeep.spares hp'.base rfl
  | some k₂ =>
    obtain ⟨⟨k₁, t, pid⟩, hw, hunlist⟩ := Option.bind_eq_some_iff.mp hround
    obtain ⟨heq, -, -, fl, hb₁⟩ := waitRound_spec h hs hw
    simp only [Option.toList_some, List.cons_append, List.nil_append, List.isChain_cons_cons, List.isChain_singleton,
      and_true]
    rw [heq] at hp' ⊢
    refine ⟨.of_vfs ?_, spares_waitUnlist hunlist hb₁ hp'.base rfl⟩
    obtain ⟨parent, -, hfind⟩ := Option.bind_eq_some_iff.mp hunlist
    obtain ⟨c, -, hchild⟩ := Option.bind_eq_some_iff.mp hfind
    obtain ⟨child, -, rfl⟩ := Option.map_eq_some_iff.mp hchild
    have hsame : k₁.vfs = k.vfs := vfs_waitRound hw
    exact hsame

/-- **Programs outlive their uses.**  In every reachable state each task holds, with a counted
reference, the node of its program and of the program it is about to run, what it uses is not
destroyed, and no program was destroyed twice. Every step passes through states between which no
program in use is destroyed. -/
theorem programs_outlive_uses (hr : Reachable k) :
    (∀ t ∈ k.order, ∀ task, k.task t = some task → task.program ≠ none ∧
      Secures k task.program task.executableNode ∧ Secures k task.pendingProgram task.pendingExecutableNode ∧
      ∀ p, Uses task p → p ∉ k.vfs.destroyed) ∧
    k.vfs.destroyed.Nodup ∧
    ∀ a k', step k a = some k' → List.IsChain Spares (k :: stages k a ++ [k']) := by
  obtain ⟨l, hp⟩ := hr.poised
  have hb := hp.base
  refine ⟨fun t hmem task ht => ?_, hb.stock.once, fun a k' hs => spares_step hp hs⟩
  have hfit := hb.fit t hmem task ht
  obtain ⟨p, n, hprogram, hnode, hhouse⟩ := hfit.program
  refine ⟨?_, hb.secures fun q hq => ?_, hb.secures fun q hq => ?_, fun q huse hgone => ?_⟩
  · rw [show task.program = some p from hprogram]
    exact Option.some_ne_none p
  · have hqp : some q = some p := hq.symm.trans hprogram
    cases hqp
    exact ⟨n, hnode, hhouse⟩
  · -- between two steps a task with a pending program is inside `exec` and has the node
    have hexec : task.state = .execPending := by
      by_contra hne
      rw [show task.pendingProgram = none from hfit.waits hne] at hq
      cases hq
    refine (hfit.pending q hq).resolve_right fun hnone => ?_
    exact hp.pledged t task (hb.roster.pending hmem ht hexec) ht hnone.1
  · exact hb.not_inUse hgone ⟨t, hmem, task, ht, huse⟩

/-- The shell removes its own program file and asks to be replaced by the program `d`. -/
def orphanRun : Kernel :=
  stateAfter ([.register .calm ⟨[100], true⟩] ++ shellStart ++
    calls [.unlink (binDirectory ++ shName), .exec [100] [[100]] none])

theorem programs_outlive_uses_orphan :
    (∃ task, orphanRun.task 0 = some task ∧ Secures orphanRun (some 1) task.executableNode ∧
      Secures orphanRun (some 0) task.pendingExecutableNode ∧ 1 ∉ orphanRun.vfs.destroyed) ∧
    ∃ k', step orphanRun (.finishExec .calm) = some k' ∧ k'.vfs.destroyed = [1] ∧
      List.IsChain Spares (orphanRun :: stages orphanRun (.finishExec .calm) ++ [k']) := by
  obtain ⟨htasks, -, hsteps⟩ := programs_outlive_uses (k := orphanRun) (reachable_stateAfter _)
  have hmem : 0 ∈ orphanRun.order := by decide +kernel
  have hlive : (orphanRun.task 0).isSome = true := by decide +kernel
  have hruns : (orphanRun.task 0).map (fun task => (task.program, task.pendingProgram)) = some (some 1, some 0) := by decide +kernel
  have hgone : (step orphanRun (.finishExec .calm)).map (fun k => k.vfs.destroyed) = some [1] := by decide +kernel
  obtain ⟨task, ht⟩ := Option.isSome_iff_exists.mp hlive
  obtain ⟨k', hs, hdestroyed⟩ := Option.map_eq_some_iff.mp hgone
  rw [ht, Option.map_some, Option.some.injEq] at hruns
  have hprogram : task.program = some 1 := congrArg Prod.fst hruns
  have hpending : task.pendingProgram = some 0 := congrArg Prod.snd hruns
  obtain ⟨-, hexecutable, hnext, huses⟩ := htasks 0 hmem task ht
  rw [hprogram] at hexecutable
  rw [hpending] at hnext
  exact ⟨⟨task, ht, hexecutable, hnext, huses 1 (.inl hprogram)⟩, k', hs, hdestroyed, hsteps _ _ hs⟩

end CannedBsd
