import CannedBsd.Kernel.Replacement

/-!
# Interrupts inside `exec`

An allocator of the host may ask for an interrupt while the kernel is inside one of its calls. In
`api_exec` and `task_finish_exec` this is allowed to happen at every allocation and every release,
so that a request can find a task between its old program and its new one. The machine below stops
at each of these places; a request is possible at all of them, and without requests it computes what
the step of the kernel computes.

* `Reentrant.sane`: the invariants hold between any two calls of the host.
* `unasked_step`: without requests in between, an action of the machine is a step of the kernel.
* `Reachable.reentrant`: every reachable state of the kernel is a state of the machine at rest.
* `pending_interrupts_deliverable`: wherever the kernel is, an interrupt is pending only for a task that takes
  it.
-/

namespace CannedBsd

open CannedBsd.Lib

variable {k k' : Kernel} {t : TaskId}

/-! ### The machine -/

/-- Which calls of the host the kernel is about to make. -/
inductive Phase
  /-- None; it is between two steps. -/
  | rest
  /-- `api_exec` copies the vectors. It holds the node of the new program. -/
  | copying (h : Host) (t : TaskId) (n : NodeId) (argv : List Bytes) (envp : Option (List Bytes))
  /-- `api_exec` destroys the copies again. -/
  | refused (t : TaskId) (n : NodeId) (e : Errno)
  /-- `api_exec` has released the node and is about to fail. -/
  | failing (t : TaskId) (e : Errno)
  /-- `task_finish_exec` destroys the old instance. -/
  | destroying (h : Host) (t : TaskId)
  /-- `task_finish_exec` releases the allocations of the old program. -/
  | freeing (h : Host) (t : TaskId)
  /-- `task_finish_exec` has these descriptors left to look at. -/
  | closing (h : Host) (t : TaskId) (slots : List (Fin cbMaxFds))
  /-- `dir_close_all` has these handles left to look at. -/
  | leaving (h : Host) (t : TaskId) (handles : List (Fin cbMaxDirs))
  /-- `task_finish_exec` has released the node of the old program. -/
  | released (h : Host) (t : TaskId)
  /-- `task_finish_exec` creates the new instance. -/
  | creating (h : Host) (t : TaskId)

/-- The kernel and what it is doing. -/
structure Midway where
  kernel : Kernel
  phase : Phase

/-- What can happen to the machine. -/
inductive Stir
  /-- At rest, an action of the kernel begins. -/
  | act (a : Action)
  /-- The host asks for an interrupt. -/
  | request (pid : ℤ)
  /-- The host returns. -/
  | proceed

/-- The kernel goes on to its next calls of the host. -/
def proceed (k : Kernel) : Phase → Midway
  | .rest => ⟨k, .rest⟩
  | .copying h t n argv envp =>
    match execRefusal h k t n with
    | some e => ⟨k, .refused t n e⟩
    | none => ⟨execPublish k t n argv envp, .rest⟩
  | .refused t n e => ⟨releaseNode k (some n), .failing t e⟩
  | .failing t e => ⟨deliver t (k, .fail e), .rest⟩
  | .destroying h t => ⟨destroyInstance k t, .freeing h t⟩
  | .freeing h t => ⟨taskReleaseAllocations k t, .closing h t (List.finRange cbMaxFds)⟩
  | .closing h t [] => ⟨k, .leaving h t (List.finRange cbMaxDirs)⟩
  | .closing h t (d :: ds) =>
    ⟨if (k.slot t d).any FdEntry.closeOnExec then fdCloseSlot k t d else k, .closing h t ds⟩
  -- the old vectors are destroyed before the new program is installed
  | .leaving h t [] => ⟨installProgram k t, .released h t⟩
  | .leaving h t (d :: ds) => ⟨closeDir k t d, .leaving h t ds⟩
  | .released h t => ⟨forgotten k t, .creating h t⟩
  | .creating h t => ⟨launched h k t, .rest⟩

/-- An action begins. Only `exec` and its end stop on the way. -/
def commence (k : Kernel) : Action → Option Midway
  | .call h (.exec programName argv envp) =>
    k.current.map fun t =>
      match execTarget k t programName argv with
      | .error e => ⟨deliver t (k, .fail e), .rest⟩
      | .ok n => ⟨retainNode k (some n), .copying h t n argv envp⟩
  | .finishExec h => k.finishing.map fun t => ⟨k, .destroying h t⟩
  | a => (step k a).map fun k' => ⟨k', .rest⟩

def Midway.step (m : Midway) (s : Stir) : Option Midway :=
  if m.kernel.fatal ≠ none then none
  else
    match s with
    | .act a =>
      match m.phase with
      | .rest => commence m.kernel a
      | _ => none
    | .request pid => some ⟨(cbKernelRequestInterrupt m.kernel pid).1, m.phase⟩
    | .proceed => some (proceed m.kernel m.phase)

/-- The states of the machine in all runs from `cb_kernel_create`, those between two calls of the
host included. -/
def Reentrant (m : Midway) : Prop := ∃ h, Reach Midway.step anyStep ⟨cbKernelCreate h, .rest⟩ m

/-! ### Requests -/

/-- What a request that gets through does to its task. -/
def interrupt (task : Task) : Task :=
  { task with
    interruptPending := true
    state := if blocked task.state then .runnable else task.state }

/-- A request changes nothing, or it reaches a task on the list that takes interrupts. -/
theorem request_cases (k : Kernel) (pid : ℤ) :
    (cbKernelRequestInterrupt k pid).1 = k ∨
      ∃ t task, t ∈ k.order ∧ k.task t = some task ∧ exited task.state = false ∧
        taskInterruptSupported k task = true ∧ task.interruptIgnored = false ∧
        cbKernelRequestInterrupt k pid = (k.setTask t interrupt, .ok ()) := by
  rw [cbKernelRequestInterrupt]
  split
  · exact .inl rfl
  rename_i t hfind
  split
  · exact .inl rfl
  rename_i task ht
  split
  · exact .inl rfl
  rename_i hlive
  split
  · exact .inl rfl
  rename_i hsup
  split
  · exact .inl rfl
  rename_i hign
  refine .inr ⟨t, task, List.mem_of_find?_eq_some hfind, ht, ?_, by simpa using hsup, by simpa using hign, rfl⟩
  exact decide_eq_false hlive

/-- A part of the kernel other than its tasks. -/
theorem part_request {β : Type} (part : Kernel → β) (hp : ∀ k t f, part (k.setTask t f) = part k) (k : Kernel)
    (pid : ℤ) : part (cbKernelRequestInterrupt k pid).1 = part k := by
  rcases request_cases k pid with h | ⟨t, task, -, -, -, -, -, h⟩
  · rw [h]
  · rw [h]
    exact hp k t interrupt

/-! ### What holds in each phase -/

/-- The task is between its two programs, with nothing in the hands of the kernel. -/
def Replacing (k : Kernel) (t : TaskId) (P : Badge → Prop) : Prop :=
  k.finishing = some t ∧ (∀ task, k.task t = some task → P task.badge) ∧ ∃ l, Base k (.rest l)

/-- The new program is still to be installed. -/
def Badge.awaits (b : Badge) : Prop := b.pendingExecutableNode ≠ none

/-- The old instance is gone too. -/
def Badge.bare (b : Badge) : Prop := b.pendingExecutableNode ≠ none ∧ b.execution = none

/-- The new program is installed. -/
def Badge.renewed (b : Badge) : Prop := b.pendingExecutableNode = none

/-- Nothing is left of the preparation. -/
def Badge.fresh (b : Badge) : Prop := b.pendingExecutableNode = none ∧ b.pendingProgram = none

/-- The invariant of the machine: inside `api_exec` the kernel holds the node of the new program, in
all other phases its hands are empty. -/
def Sane (k : Kernel) : Phase → Prop
  | .rest => ∃ l, Poised k l
  | .copying _ t n _ _ =>
    k.current = some t ∧ (∃ p, executableOf k n = some p) ∧ ∃ l, Base k ((Flight.rest l).addNode (some n))
  | .refused t n _ => k.current = some t ∧ ∃ l, Base k ((Flight.rest l).addNode (some n))
  | .failing t _ => k.current = some t ∧ ∃ l, Base k (.rest l)
  | .destroying _ t => Replacing k t Badge.awaits
  | .freeing _ t => Replacing k t Badge.bare
  | .closing _ t _ => Replacing k t Badge.bare
  | .leaving _ t _ => Replacing k t Badge.bare
  | .released _ t => Replacing k t Badge.renewed
  | .creating _ t => Replacing k t Badge.fresh

/-- Whatever the phase, the invariants of the kernel hold for some hands. -/
theorem Sane.base {phase : Phase} (h : Sane k phase) : ∃ fl, Base k fl := by
  cases phase with
  | rest =>
    obtain ⟨l, hp⟩ := h
    exact ⟨_, hp.base⟩
  | copying =>
    obtain ⟨-, -, l, hb⟩ := h
    exact ⟨_, hb⟩
  | refused =>
    obtain ⟨-, l, hb⟩ := h
    exact ⟨_, hb⟩
  | failing =>
    obtain ⟨-, l, hb⟩ := h
    exact ⟨_, hb⟩
  | _ =>
    obtain ⟨-, -, l, hb⟩ := h
    exact ⟨_, hb⟩

theorem badge_interrupt (task : Task) : (interrupt task).badge = { task.badge with interruptPending := true } := rfl

theorem Replacing.request {P : Badge → Prop} (h : Replacing k t P)
    (hP : ∀ b, P b → P { b with interruptPending := true }) (pid : ℤ) :
    Replacing (cbKernelRequestInterrupt k pid).1 t P := by
  obtain ⟨hfin, htask, l, hb⟩ := h
  refine ⟨(part_request Kernel.finishing (fun _ _ _ => rfl) k pid).trans hfin, fun task ht => ?_,
    l, hb.moves (cbKernelRequestInterrupt_moves k pid : Moves noNode _ _ _ _)⟩
  rcases request_cases k pid with heq | ⟨c, x, -, hx, -, -, -, heq⟩
  · rw [heq] at ht
    exact htask task ht
  · rw [heq] at ht
    by_cases hct : t = c
    · subst hct
      have ht' := Kernel.task_setTask_self interrupt hx
      rw [show (k.setTask t interrupt).task t = some task from ht, Option.some.injEq] at ht'
      rw [ht', badge_interrupt]
      exact hP _ (htask x hx)
    · rw [show (k.setTask c interrupt).task t = k.task t from Kernel.task_setTask_of_ne _ _ hct] at ht
      exact htask task ht

theorem Replacing.task {P : Badge → Prop} (h : Replacing k t P) :
    ∃ task, k.task t = some task ∧ task.state = .execPending ∧ P task.badge := by
  obtain ⟨hfin, htask, l, hb⟩ := h
  obtain ⟨-, task, ht, hst⟩ := hb.roster.finishing hfin
  exact ⟨task, ht, hst, htask task ht⟩

theorem Replacing.unparked {P : Badge → Prop} (h : Replacing k t P) : Unparked k t := by
  obtain ⟨task, ht, hst, -⟩ := h.task
  refine ⟨task, ht, .inl ?_⟩
  rw [hst]
  rfl

/-- Closing and releasing keep what the task is between. -/
theorem Replacing.path {P : Badge → Prop} (h : Replacing k t P)
    (hpath : ∀ l, Base k (.rest l) → ∃ l', Path noNode k (.rest l) k' (.rest l')) : Replacing k' t P := by
  obtain ⟨x, hx, -, hP⟩ := h.task
  obtain ⟨hfin, -, l, hb⟩ := h
  obtain ⟨l', hp⟩ := hpath l hb
  refine ⟨hp.steady.finishing.trans hfin, fun task ht => ?_, l', hp.base hb⟩
  obtain ⟨x', hx', hstand⟩ := hp.steady.tasks hx
  rw [ht, Option.some.injEq] at hx'
  rw [hx', hstand.badge]
  exact hP

/-- A request keeps the invariant, whatever the kernel is doing. -/
theorem Sane.request {phase : Phase} (h : Sane k phase) (pid : ℤ) :
    Sane (cbKernelRequestInterrupt k pid).1 phase := by
  have hcurrent := part_request Kernel.current (fun _ _ _ => rfl) k pid
  have hvfs := part_request Kernel.vfs (fun _ _ _ => rfl) k pid
  have hbase : ∀ fl, Base k fl → Base (cbKernelRequestInterrupt k pid).1 fl := by
    intro fl hb
    exact hb.moves (cbKernelRequestInterrupt_moves k pid : Moves noNode _ _ _ _)
  cases phase with
  | rest =>
    obtain ⟨l, hp⟩ := h
    exact ⟨l, hbase _ hp.base, pledged_cbKernelRequestInterrupt hp.pledged⟩
  | copying host c n argv envp =>
    obtain ⟨hc, ⟨p, hp⟩, l, hb⟩ := h
    refine ⟨hcurrent.trans hc, ⟨p, ?_⟩, l, hbase _ hb⟩
    rw [executableOf, hvfs]
    exact hp
  | refused c n e =>
    obtain ⟨hc, l, hb⟩ := h
    exact ⟨hcurrent.trans hc, l, hbase _ hb⟩
  | failing c e =>
    obtain ⟨hc, l, hb⟩ := h
    exact ⟨hcurrent.trans hc, l, hbase _ hb⟩
  | destroying host c => exact Replacing.request h (fun _ hb => hb) pid
  | freeing host c => exact Replacing.request h (fun _ hb => hb) pid
  | closing host c ds => exact Replacing.request h (fun _ hb => hb) pid
  | leaving host c ds => exact Replacing.request h (fun _ hb => hb) pid
  | released host c => exact Replacing.request h (fun _ hb => hb) pid
  | creating host c => exact Replacing.request h (fun _ hb => hb) pid

/-! ### Going on -/

/-- `api_exec` behind the copies: it publishes the new program or begins to give everything back. -/
theorem Sane.copied {h : Host} {n : NodeId} {argv : List Bytes} {envp : Option (List Bytes)}
    (hs : Sane k (.copying h t n argv envp)) :
    Sane (proceed k (.copying h t n argv envp)).kernel (proceed k (.copying h t n argv envp)).phase := by
  obtain ⟨hc, ⟨p, hp⟩, l, hb⟩ := hs
  obtain ⟨-, task, ht, -⟩ := hb.roster.current hc
  cases href : execRefusal h k t n with
  | some e =>
    simp only [proceed, href]
    exact ⟨hc, l, hb⟩
  | none =>
    simp only [proceed, href]
    have hm : Moves noNode k ((Flight.rest l).addNode (some n)) (execPublish k t n argv envp) (.rest l) :=
      execPublish_moves argv envp hb rfl hc href hp
    refine ⟨l, hb.moves hm, ?_⟩
    intro c task' hfin hc'
    cases hfin
    rw [task_execPublish n argv envp ht, Option.some.injEq] at hc'
    rw [← hc']
    exact Option.some_ne_none n

/-- Where the machine goes on without the host, the invariant is kept. -/
theorem Sane.proceed {phase : Phase} (hs : Sane k phase) :
    Sane (proceed k phase).kernel (proceed k phase).phase := by
  cases phase with
  | rest => exact hs
  | copying h t n argv envp => exact hs.copied
  | refused t n e =>
    obtain ⟨hc, l, hb⟩ := hs
    have hpath : Path noNode k ((Flight.rest l).addNode (some n)) (releaseNode k (some n)) (.rest l) :=
      releaseNode_path _ _ _
    exact ⟨hpath.steady.current.trans hc, l, hpath.base hb⟩
  | failing t e =>
    obtain ⟨hc, l, hb⟩ := hs
    have hend : Ends noNode k (.rest l) t (.rest l) (k, .fail e) := ⟨.refl, hc⟩
    exact ⟨l, hb.moves (deliver_moves hb hend rfl), deliver_pledged hb hend⟩
  | destroying h t =>
    obtain ⟨task, ht, hst, hwait⟩ := Replacing.task hs
    obtain ⟨hfin, -, l, hb⟩ := hs
    show Replacing (destroyInstance k t) t Badge.bare
    refine ⟨hfin, fun task' ht' => ?_, l, hb.moves (destroyInstance_moves ht hst : Moves noNode _ _ _ _)⟩
    rw [show (destroyInstance k t).task t = _ from Kernel.task_setTask_self _ ht, Option.some.injEq] at ht'
    rw [← ht']
    exact ⟨hwait, rfl⟩
  | freeing h t => exact Replacing.path hs fun l _ => ⟨l, taskReleaseAllocations_path k t⟩
  | closing h t ds =>
    cases ds with
    | nil => exact hs
    | cons d ds =>
      refine Replacing.path hs fun l hb => ⟨l, ?_⟩
      show Path noNode k _ (if (k.slot t d).any FdEntry.closeOnExec then fdCloseSlot k t d else k) _
      split
      · exact fdCloseSlot_path hb (Replacing.unparked hs)
      · exact .refl k _
  | leaving h t ds =>
    cases ds with
    | nil =>
      obtain ⟨task, ht, hst, hwait, hbare⟩ := Replacing.task hs
      obtain ⟨hfin, -, l, hb⟩ := hs
      have hreplace : Moves noNode k (.rest l) (replaced k t) ((Flight.rest l).addNode task.executableNode) :=
        replaced_moves ht hst hbare hwait
      have hrelease : Moves noNode (replaced k t) ((Flight.rest l).addNode task.executableNode)
          (releaseNode (replaced k t) task.executableNode) (.rest l) := (releaseNode_path _ _ _).moves
      have hnew : (releaseNode (replaced k t) task.executableNode).task t = _ := Kernel.task_setTask_self _ ht
      show Replacing (installProgram k t) t Badge.renewed
      rw [installProgram_eq ht]
      refine ⟨hfin, fun task' ht' => ?_, l, hb.moves (hreplace.trans hrelease)⟩
      rw [hnew, Option.some.injEq] at ht'
      rw [← ht']
      rfl
    | cons d ds =>
      refine Replacing.path hs fun l _ => ?_
      have hone : Path noNode k (.rest l) (closeDir k t d) ((Flight.rest l).addLeak (lookahead k t d)) :=
        closeDir_path (Replacing.unparked hs) d
      exact ⟨_, hone⟩
  | released h t =>
    obtain ⟨task, ht, hst, hnone⟩ := Replacing.task hs
    obtain ⟨hfin, -, l, hb⟩ := hs
    show Replacing (forgotten k t) t Badge.fresh
    refine ⟨hfin, fun task' ht' => ?_, l, hb.moves (forgotten_moves ht hst hnone : Moves noNode _ _ _ _)⟩
    rw [show (forgotten k t).task t = _ from Kernel.task_setTask_self _ ht, Option.some.injEq] at ht'
    rw [← ht']
    exact ⟨hnone, rfl⟩
  | creating h t =>
    obtain ⟨task, ht, hst, hnone, hpend⟩ := Replacing.task hs
    obtain ⟨hfin, -, l, hb⟩ := hs
    exact ⟨l, hb.moves (launched_moves h hfin ht hst hpend hnone : Moves noNode _ _ _ _), pledged_of_not_finishing rfl⟩

/-- An action that begins in a state of poise leads to a phase whose invariant holds. -/
theorem Poised.commence {l : NodeId → ℕ} {a : Action} {m : Midway} (hp : Poised k l)
    (h : commence k a = some m) : Sane m.kernel m.phase := by
  have hstep : ∀ a, (CannedBsd.step k a).map (fun k' => (⟨k', .rest⟩ : Midway)) = some m → Sane m.kernel m.phase := by
    intro a ha
    obtain ⟨k', hs, rfl⟩ := Option.map_eq_some_iff.mp ha
    obtain ⟨l', -, hp', -⟩ := hp.step hs
    exact ⟨l', hp'⟩
  cases a with
  | call host op =>
    cases op with
    | exec programName argv envp =>
      obtain ⟨t, hc, rfl⟩ := Option.map_eq_some_iff.mp h
      cases htarget : execTarget k t programName argv with
      | error e =>
        have hend : Ends noNode k (.rest l) t (.rest l) (k, .fail e) := ⟨.refl, hc⟩
        exact ⟨l, hp.base.moves (deliver_moves hp.base hend rfl), deliver_pledged hp.base hend⟩
      | ok n =>
        obtain ⟨task, ht, hexec⟩ := execTarget_ok htarget
        obtain ⟨node, hn, -⟩ := executableNode_rooted (hp.base.resolves (.of_current hp.base hc)) hexec
        have hretain : Path noNode k (.rest l) (retainNode k (some n)) ((Flight.rest l).addNode (some n)) :=
          retainNode_path hn
        obtain ⟨p, hprogram⟩ := executableOf_resolved hp.base.stock hexec
        obtain ⟨node', hn', hx'⟩ := hp.base.houses hretain.moves (n := n)
          (by rw [Flight.addNode_nodes, pointsTo_self]; omega) (houses_of_executableOf hprogram)
        refine ⟨hc, ⟨p, ?_⟩, l, hretain.base hp.base⟩
        show executableOf (retainNode k (some n)) n = some p
        rw [executableOf, hn']
        exact hx'
    | _ => exact hstep _ h
  | finishExec host =>
    obtain ⟨t, hfin, rfl⟩ := Option.map_eq_some_iff.mp h
    exact ⟨hfin, fun task ht => hp.pledged t task hfin ht, l, hp.base⟩
  | _ => exact hstep _ h

/-- One step of the machine. -/
theorem Sane.step {m m' : Midway} {s : Stir} (hs : Sane m.kernel m.phase) (h : m.step s = some m') :
    Sane m'.kernel m'.phase := by
  unfold Midway.step at h
  split at h
  · cases h
  cases s with
  | act a =>
    obtain ⟨k, phase⟩ := m
    cases phase with
    | rest =>
      obtain ⟨l, hp⟩ := hs
      exact hp.commence h
    | _ => cases h
  | request pid =>
    cases h
    exact hs.request pid
  | proceed =>
    cases h
    exact hs.proceed

/-- **Invariants between any two calls of the host.** -/
theorem Reentrant.sane {m : Midway} (h : Reentrant m) : Sane m.kernel m.phase := by
  obtain ⟨host, hr⟩ := h
  have hfirst : Sane (cbKernelCreate host) .rest := ⟨_, poised_cbKernelCreate host⟩
  refine hr.invariant (P := fun m => Sane m.kernel m.phase) hfirst ?_
  intro m s m' _ hstep hs
  exact hs.step hstep

/-! ### Without requests -/

/-- The host returns a number of times and asks for nothing. -/
def Unasked (m m' : Midway) : Prop := ∃ n, run Midway.step m (List.replicate n .proceed) = some m'

theorem Unasked.refl (m : Midway) : Unasked m m := ⟨0, rfl⟩

theorem Unasked.head {phase : Phase} {m : Midway} (hok : k.fatal = none)
    (h : Unasked (CannedBsd.proceed k phase) m) : Unasked ⟨k, phase⟩ m := by
  obtain ⟨n, hn⟩ := h
  refine ⟨n + 1, ?_⟩
  have hone : Midway.step ⟨k, phase⟩ .proceed = some (CannedBsd.proceed k phase) := by
    unfold Midway.step
    rw [if_neg (not_not.mpr hok)]
  rw [List.replicate_succ, run, hone]
  exact hn

/-- The loop over the descriptors. -/
theorem unasked_closing {h : Host} {m : Midway} (ds : List (Fin cbMaxFds)) : ∀ k : Kernel, k.fatal = none →
    Unasked ⟨ds.foldl (fun k d => if (k.slot t d).any FdEntry.closeOnExec then fdCloseSlot k t d else k) k,
      .leaving h t (List.finRange cbMaxDirs)⟩ m →
    Unasked ⟨k, .closing h t ds⟩ m := by
  induction ds with
  | nil =>
    intro k hok hq
    exact .head hok hq
  | cons d ds ih =>
    intro k hok hq
    refine .head hok (ih _ ?_ hq)
    split
    · rw [aloof_fatal.fdCloseSlot fun _ _ _ => rfl]
      exact hok
    · exact hok

/-- The loop of `dir_close_all`. -/
theorem unasked_leaving {h : Host} {m : Midway} (ds : List (Fin cbMaxDirs)) : ∀ k : Kernel, k.fatal = none →
    Unasked ⟨ds.foldl (fun k d => closeDir k t d) k, .leaving h t []⟩ m → Unasked ⟨k, .leaving h t ds⟩ m := by
  induction ds with
  | nil => exact fun k _ hq => hq
  | cons d ds ih =>
    intro k hok hq
    refine .head hok (ih _ ?_ hq)
    rw [closeDir]
    split
    · exact hok
    · exact hok

/-- The new program takes the place of the old one. -/
theorem unasked_install {task : Task} (h : Host) (ht : k.task t = some task) (hok : k.fatal = none) :
    Unasked ⟨k, .leaving h t []⟩ ⟨startInstance h (installProgram k t) t, .rest⟩ := by
  have ht' : (releaseNode (replaced k t) task.executableNode).task t = _ := Kernel.task_setTask_self _ ht
  have hinstall : (installProgram k t).fatal = none := by
    rw [installProgram_eq ht]
    exact hok
  refine .head hok (.head hinstall (.head hinstall ?_))
  rw [installProgram_eq ht, startInstance_eq h ht']
  exact .refl _

/-- The stages of `task_finish_exec` make up the whole of it. -/
theorem unasked_finishExec {l : NodeId → ℕ} (h : Host) (hp : Poised k l) (hok : k.fatal = none)
    (hfin : k.finishing = some t) : Unasked ⟨k, .destroying h t⟩ ⟨taskFinishExec h k t, .rest⟩ := by
  have hshut : (shut k t).fatal = none := by
    rw [shut, aloof_fatal.fdCloseWhere fun _ _ _ => rfl]
    exact hok
  have hclear : (cleared k t).fatal = none := by
    rw [cleared, aloof_fatal.dirCloseAll fun _ _ _ => rfl]
    exact hshut
  obtain ⟨hbare, -⟩ : Moves noNode k (.rest l) (bared k t) (.rest l) ∧ _ := bared_moves hp.base hfin
  obtain ⟨l', hdirs, -⟩ : ∃ l', Path noNode (shut k t) (.rest l) (cleared k t) _ ∧ _ := cleared_path hp.base hfin
  have hclose : Path noNode (bared k t) (.rest l) (cleared k t) _ := (shut_path hp.base hfin).trans hdirs
  obtain ⟨-, task, ht, -⟩ :=
    (hclose.base (hp.base.moves hbare)).roster.finishing (hclose.steady.finishing.trans hfin)
  have hlast : Unasked ⟨cleared k t, .leaving h t []⟩ ⟨taskFinishExec h k t, .rest⟩ := by
    rw [taskFinishExec_eq]
    exact unasked_install h ht hclear
  have hleave : Unasked ⟨shut k t, .leaving h t (List.finRange cbMaxDirs)⟩ ⟨taskFinishExec h k t, .rest⟩ :=
    unasked_leaving (List.finRange cbMaxDirs) (shut k t) hshut hlast
  have hcloses : Unasked ⟨bared k t, .closing h t (List.finRange cbMaxFds)⟩ ⟨taskFinishExec h k t, .rest⟩ :=
    unasked_closing (List.finRange cbMaxFds) (bared k t) hok hleave
  exact .head hok (.head hok hcloses)

/-- `api_exec` in its stages. -/
theorem unasked_exec {n : NodeId} (h : Host) (argv : List Bytes) (envp : Option (List Bytes)) (hok : k.fatal = none) :
    Unasked ⟨k, .copying h t n argv envp⟩
      ⟨deliver t (match execRefusal h k t n with
        | some e => (releaseNode k (some n), .fail e)
        | none => (execPublish k t n argv envp, .gone)), .rest⟩ := by
  cases href : execRefusal h k t n with
  | some e =>
    refine .head hok ?_
    simp only [proceed, href]
    exact .head hok (.head hok (.refl _))
  | none =>
    refine .head hok ?_
    simp only [proceed, href]
    exact .refl _

/-- Without requests between the calls of the host, an action of the machine is a step of the
kernel. -/
theorem unasked_step {l : NodeId → ℕ} {a : Action} (hp : Poised k l) (hs : step k a = some k') :
    ∃ m, Midway.step ⟨k, .rest⟩ (.act a) = some m ∧ Unasked m ⟨k', .rest⟩ := by
  have hok : k.fatal = none := by
    unfold step at hs
    split at hs
    · cases hs
    · rename_i hok
      exact not_not.mp hok
  have hact : Midway.step ⟨k, .rest⟩ (.act a) = commence k a := by
    unfold Midway.step
    rw [if_neg (not_not.mpr hok)]
  rw [hact]
  have hplain : (step k a).map (fun k' => (⟨k', .rest⟩ : Midway)) = some ⟨k', .rest⟩ := by
    rw [hs]
    rfl
  cases a with
  | call host op =>
    cases op with
    | exec programName argv envp =>
      unfold step at hs
      rw [if_neg (not_not.mpr hok)] at hs
      cases hc : k.current with
      | none => simp [hc] at hs
      | some t =>
        simp only [hc, Option.some.injEq] at hs
        subst hs
        simp only [commence, hc, Option.map_some]
        refine ⟨_, rfl, ?_⟩
        rw [perform, apiExec]
        cases htarget : execTarget k t programName argv with
        | error e => exact .refl _
        | ok n => exact unasked_exec (k := retainNode k (some n)) host argv envp hok
    | _ => exact ⟨_, hplain, .refl _⟩
  | finishExec host =>
    unfold step at hs
    rw [if_neg (not_not.mpr hok)] at hs
    obtain ⟨t, hfin, rfl⟩ := Option.map_eq_some_iff.mp hs
    refine ⟨⟨k, .destroying host t⟩, ?_, unasked_finishExec host hp hok hfin⟩
    rw [commence, hfin]
    rfl
  | _ => exact ⟨_, hplain, .refl _⟩

/-- Every reachable state of the kernel is a state of the machine at rest. -/
theorem Reachable.reentrant (hr : Reachable k) : Reentrant ⟨k, .rest⟩ := by
  obtain ⟨h, hr⟩ := hr
  have hboth : (∃ l, Poised k l) ∧ Reach Midway.step anyStep ⟨cbKernelCreate h, .rest⟩ ⟨k, .rest⟩ := by
    refine hr.invariant (P := fun k => (∃ l, Poised k l) ∧
      Reach Midway.step anyStep ⟨cbKernelCreate h, .rest⟩ ⟨k, .rest⟩) ⟨⟨_, poised_cbKernelCreate h⟩, .init⟩ ?_
    intro k a k' _ hs ⟨⟨l, hp⟩, hreach⟩
    obtain ⟨l', -, hp', -⟩ := hp.step hs
    obtain ⟨m, hact, n, hrest⟩ := unasked_step hp hs
    exact ⟨⟨l', hp'⟩, (hreach.step trivial hact).trans (reach_of_run hrest)⟩
  exact ⟨h, hboth.2⟩

/-! ### Pending interrupts -/

/-- **Interrupts.**  Wherever the kernel is, between two steps or between two calls of the host inside an
`exec`, an interrupt is pending only for a task that takes it and whose program, and the program it is
about to run, take interrupts. A request wakes a blocked task and otherwise moves none, so that it never
takes a task out of an `exec`; it leaves every disposition alone, and one that fails changes nothing. -/
theorem pending_interrupts_deliverable {m : Midway} (hr : Reentrant m) :
    (∀ t ∈ m.kernel.order, ∀ task, m.kernel.task t = some task → exited task.state = false →
      task.interruptPending = true → task.interruptIgnored = false ∧
        supportsInterrupt m.kernel.vfs task.program = true ∧
        (task.state = .execPending → task.pendingProgram ≠ none →
          supportsInterrupt m.kernel.vfs task.pendingProgram = true)) ∧
    ∀ pid, ((cbKernelRequestInterrupt m.kernel pid).2 ≠ .ok () → (cbKernelRequestInterrupt m.kernel pid).1 = m.kernel) ∧
      ∀ t task, m.kernel.task t = some task → ∃ task', (cbKernelRequestInterrupt m.kernel pid).1.task t = some task' ∧
        (task'.state = task.state ∨ blocked task.state = true ∧ task'.state = .runnable) ∧
        task'.interruptIgnored = task.interruptIgnored := by
  obtain ⟨fl, hb⟩ := hr.sane.base
  refine ⟨fun t hmem task ht hlive hpend => ?_, fun pid => ⟨fun hfail => ?_, fun t task ht => ?_⟩⟩
  · obtain ⟨hign, hsup, hnext⟩ := (hb.fit t hmem task ht).interrupt hpend hlive
    exact ⟨hign, hsup, fun _ => hnext⟩
  · rcases request_cases m.kernel pid with heq | ⟨t, task, -, -, -, -, -, heq⟩
    · exact heq
    · exact absurd (congrArg Prod.snd heq) hfail
  · rcases request_cases m.kernel pid with heq | ⟨c, x, -, hx, -, -, -, heq⟩
    · rw [heq]
      exact ⟨task, ht, .inl rfl, rfl⟩
    rw [heq]
    by_cases htc : t = c
    · subst htc
      refine ⟨interrupt task, Kernel.task_setTask_self interrupt ht, ?_, rfl⟩
      cases hblock : blocked task.state with
      | true => exact .inr ⟨rfl, if_pos hblock⟩
      | false => exact .inl (if_neg (by rw [hblock]; exact Bool.false_ne_true))
    · exact ⟨task, (Kernel.task_setTask_of_ne _ _ htc).trans ht, .inl rfl, rfl⟩

/-- The machine after a list of stirs on a calm host; the first one when some of them are not possible. -/
def midwayAfter (ss : List Stir) : Midway :=
  (run Midway.step ⟨cbKernelCreate .calm, .rest⟩ ss).getD ⟨cbKernelCreate .calm, .rest⟩

theorem reentrant_midwayAfter (ss : List Stir) : Reentrant (midwayAfter ss) := by
  rw [midwayAfter]
  cases h : run Midway.step ⟨cbKernelCreate .calm, .rest⟩ ss with
  | none => exact ⟨.calm, .init⟩
  | some m => exact ⟨.calm, reach_of_run h⟩

/-- The shell execs another program; the allocator asks for an interrupt while the vectors are copied and
once more while the old instance is destroyed. -/
def midExec : Midway :=
  midwayAfter ((.act (.register .calm ⟨[100], true⟩) :: shellStart.map .act) ++
    [.act (.call .calm (.exec [100] [[100]] none)), .request 1, .proceed, .act (.finishExec .calm), .request 1, .proceed])

theorem pending_interrupts_deliverable_midExec :
    (∃ task, midExec.kernel.task 0 = some task ∧ task.state = .execPending ∧ task.interruptPending = true ∧
      supportsInterrupt midExec.kernel.vfs task.program = true ∧
      supportsInterrupt midExec.kernel.vfs task.pendingProgram = true) ∧
    ∃ task', (cbKernelRequestInterrupt midExec.kernel 1).1.task 0 = some task' ∧ task'.state = .execPending := by
  obtain ⟨hpending, hrequest⟩ := pending_interrupts_deliverable (m := midExec) (reentrant_midwayAfter _)
  have hmem : 0 ∈ midExec.kernel.order := by decide +kernel
  have htask : (midExec.kernel.task 0).map (fun task => (task.state, task.interruptPending, task.pendingProgram)) =
      some (.execPending, true, some 0) := by decide +kernel
  obtain ⟨task, ht, hfields⟩ := Option.map_eq_some_iff.mp htask
  have hstate : task.state = .execPending := congrArg Prod.fst hfields
  have hbit : task.interruptPending = true := congrArg (fun x => x.2.1) hfields
  have hnext : task.pendingProgram = some 0 := congrArg (fun x => x.2.2) hfields
  obtain ⟨-, hsup, hsup'⟩ := hpending 0 hmem task ht (by rw [hstate]; rfl) hbit
  obtain ⟨task', ht', hmove, -⟩ := (hrequest 1).2 0 task ht
  refine ⟨⟨task, ht, hstate, hbit, hsup, hsup' hstate (by rw [hnext]; exact Option.some_ne_none _)⟩, task', ht', ?_⟩
  rcases hmove with hsame | ⟨hblock, -⟩
  · rw [hsame, hstate]
  · rw [hstate] at hblock
    cases hblock

end CannedBsd
