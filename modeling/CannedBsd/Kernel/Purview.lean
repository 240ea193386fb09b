import CannedBsd.Kernel.Session

/-!
# What a program sees

What a program can tell apart is less than the kernel: the descriptor table of its task, and the
children it made and reaped. `Admits` says what each call does to these. Every session of a program on
the kernel is one on its purview.

* `performTable_ends`: every entry of the call table ends with empty hands.
* `Answered.admits`: what a call does to the kernel, it does to the purview of its task.
* `Session.runs_purview`: a session of a program on the kernel is a session on its purview.
-/

namespace CannedBsd

open CannedBsd.Lib

/-- The slot of a descriptor that is open. -/
def Table.entryOf (T : Table) (descriptor : ℤ) : Option FdEntry := (fdSlot descriptor).bind T

def Table.close (T : Table) (descriptor : ℤ) : Table :=
  match fdSlot descriptor with
  | none => T
  | some d => Function.update T d none

/-- `dup`: the new descriptor and table. -/
def Table.dup (T : Table) (descriptor : ℤ) : ℤ × Table :=
  match T.entryOf descriptor, T.lowest with
  | some entry, some d => (d.val, Function.update T d (some ⟨entry.file, false⟩))
  | _, _ => (-1, T)

/-- `dup2`: the result and the new table. -/
def Table.dup2 (T : Table) (oldDescriptor newDescriptor : ℤ) : ℤ × Table :=
  match T.entryOf oldDescriptor, fdSlot newDescriptor with
  | some entry, some d =>
    (newDescriptor, if oldDescriptor = newDescriptor then T else Function.update T d (some ⟨entry.file, false⟩))
  | _, _ => (-1, T)

/-- No slot names the file. -/
def Table.Lacks (T : Table) (f : FileId) : Prop := ∀ d entry, T d = some entry → entry.file ≠ f

/-- The calls that leave the table and the children of the caller alone. -/
def TableCall.quiet : TableCall → Bool
  | .op (.write _ _) => true
  | .op (.chdir _) => true
  | .op (.getcwd _) => true
  | .getenv _ => true
  | .setenv _ _ _ => true
  | .unsetenv _ => true
  | .getErrno => true
  | .location _ => true
  | _ => false

/-- What a call that returns `a` does: the caller's table becomes `T'`, it causes the passages `new`,
and a child gets the table `child`. Of the calls that the programs here do not make nothing is said. -/
def Admits (t : TaskId) (T : Table) (old : List Passage) (call : TableCall) (a : Answer) (T' : Table)
    (new : List Passage) (child : Option Table) : Prop :=
  match call with
  | .op (.openPath _ _ _) => new = [] ∧
    (a.value = -1 ∧ T' = T ∨
      ∃ d f, T.lowest = some d ∧ T.Lacks f ∧ a.value = d.val ∧ T' = Function.update T d (some ⟨f, false⟩))
  | .op (.close descriptor) => new = [] ∧ T' = T.close descriptor
  | .op (.dup descriptor) => new = [] ∧ (a.value, T') = T.dup descriptor
  | .op (.dup2 oldDescriptor newDescriptor) => new = [] ∧ (a.value, T') = T.dup2 oldDescriptor newDescriptor
  | .op .pipe => new = [] ∧
    (a.value = -1 ∧ T' = T ∨
      ∃ r w f g, T r = none ∧ T w = none ∧ r ≠ w ∧ T.Lacks f ∧ T.Lacks g ∧ a.value = 0 ∧ a.out = .descriptors r.val w.val ∧
        T' = Function.update (Function.update T r (some ⟨f, false⟩)) w (some ⟨g, false⟩))
  | .op (.spawn _ _ _ actions) => T' = T ∧
    (a.value = -1 ∧ new = [] ∨
      ∃ c n T₁, a.value = 0 ∧ a.out = .pid n ∧ new = [.spawned (some t) c n] ∧ T.acts actions = .ok T₁ ∧
        child = some T₁ ∧ ∀ p b m, .spawned p b m ∈ old → b ≠ c ∧ m ≠ n)
  | .op (.waitpid pid) => T' = T ∧
    (a.value = -1 ∧ new = [] ∧ (∀ (c : TaskId) (n : ℕ), .spawned (some t) c n ∈ old → pid = -1 ∨ (n : ℤ) = pid → Buried old c) ∨
      ∃ (c : TaskId) (n : ℕ) (status : ℤ), a.value = n ∧ (pid = -1 ∨ (n : ℤ) = pid) ∧ a.out = .status status ∧
        new = [.reaped t c n status] ∧ .spawned (some t) c n ∈ old ∧ ¬ Buried old c)
  | call => call.quiet = true → T' = T ∧ new = []

/-- What is remembered of a call: the table of the caller behind it, and the table of the child it
made. -/
structure Note where
  call : TableCall
  answer : Answer
  table : Table
  child : Option Table

/-- What a program sees of the kernel, with its calls so far. -/
structure Purview where
  table : Table
  deeds : List Passage
  log : List Note

/-- A call, as the program sees it. -/
def Purview.Step (t : TaskId) (v : Purview) (call : TableCall) (a : Answer) (v' : Purview) : Prop :=
  ∃ new child, Admits t v.table v.deeds call a v'.table new child ∧ v'.deeds = v.deeds ++ new ∧
    v'.log = v.log ++ [⟨call, a, v'.table, child⟩]

/-! ### Sessions -/

/-- The table of the task with the pid that the call returned. -/
def childTable (k : Kernel) (a : Answer) : Option Table :=
  match a.out with
  | .pid n => ((k.order.find? fun c => (k.task c).any fun task => task.pid = n).bind k.task).map Task.descriptors
  | _ => none

/-- The kernel under a program, and the calls of the program so far. -/
structure Session where
  kernel : Kernel
  log : List Note

/-- A call in a session of `t`. -/
def Session.Step (t : TaskId) (s : Session) (call : TableCall) (a : Answer) (s' : Session) : Prop :=
  Answered t s.kernel call a s'.kernel ∧
    s'.log = s.log ++ [⟨call, a, s'.kernel.slot t, childTable s'.kernel a⟩]

def Session.purview (t : TaskId) (s : Session) : Purview := ⟨s.kernel.slot t, CannedBsd.deeds t s.kernel, s.log⟩

variable {k k' : Kernel} {t : TaskId} {l : NodeId → ℕ} {call : TableCall} {a : Answer}

/-! ### How a call comes back -/

theorem aloof_current : Aloof Kernel.current := ⟨fun _ _ => rfl, fun _ _ => rfl, fun _ _ => rfl, fun _ _ => rfl, fun _ => rfl⟩

theorem current_reap (k : Kernel) (c : TaskId) : (reap k c).current = k.current := by
  rw [reap, taskDestroy, aloof_current.taskRelease fun _ => rfl, aloof_current.dirCloseAll fun _ _ _ => rfl, fdCloseAll,
    aloof_current.fdCloseWhere fun _ _ _ => rfl]
  rfl

theorem current_apiWaitpid (k : Kernel) (t : TaskId) (pid : ℤ) : (apiWaitpid k t pid).1.current = k.current := by
  have hround := apiWaitpid_round k t pid
  generalize apiWaitpid k t pid = r at hround
  cases hround with
  | kept o => rfl
  | noted o => rfl
  | @reaped parent child c hparent hmem hchild hppid hzombie =>
    have hcurrent := current_reap (k.record (.reaped t c child.pid child.exitStatus)) c
    dsimp only
    generalize reap (k.record (.reaped t c child.pid child.exitStatus)) c = k' at hcurrent ⊢
    exact hcurrent

theorem current_goOn (h : Host) (k : Kernel) (t : TaskId) (frame : Frame) :
    (goOn h k t frame).1.current = k.current := by
  cases frame with
  | entry => rfl
  | program => rfl
  | pipeRead p count => exact aloof_current.pipeRead k p count
  | pipeWrite p call buffer total => exact aloof_current.pipeWriteLoop p call buffer _ k total
  | consoleRead count => rw [goOn, consoleRead_kernel]
  | waitpid pid => exact current_apiWaitpid k t pid
  | poll fds => rw [goOn, pollLoop_kernel]

theorem current_deliver (k : Kernel) (r : Reply) (out : Out) : (deliver t (k, .done r out)).current = k.current := by
  rw [deliver]
  cases r.error <;> rfl

theorem slot_of_descriptors (hmap : (k'.task t).map Task.descriptors = (k.task t).map Task.descriptors) :
    k'.slot t = k.slot t := by
  funext d
  have hslot : ∀ k : Kernel, k.slot t d = ((k.task t).map Task.descriptors).bind fun table => table d := by
    intro k
    rw [Kernel.slot]
    cases k.task t <;> rfl
  rw [hslot, hslot, hmap]

theorem slot_of_seatOf (h : seatOf t k' = seatOf t k) : k'.slot t = k.slot t := by
  have hseat := congrArg (Option.map Prod.fst) h
  rw [seatOf, seatOf, Option.map_map, Option.map_map] at hseat
  exact slot_of_descriptors hseat

/-- The entries of the table besides the calls of the kernel return, and change at most the environment of
the task. -/
theorem performTable_other (h : Host) (k : Kernel) (t : TaskId) (hop : ∀ op, call ≠ .op op) :
    ∃ reply out, performTable h k t call = (k, .done reply out) ∨
      ∃ environment, performTable h k t call = (setEnvironment k t environment, .done reply out) := by
  cases call with
  | op op => exact absurd rfl (hop op)
  | getenv name =>
    rw [performTable, apiGetenv]
    split
    · exact ⟨_, _, .inl rfl⟩
    split
    · exact ⟨_, _, .inl rfl⟩
    · exact ⟨_, _, .inl rfl⟩
  | setenv name value overwrite =>
    rw [performTable, apiSetenv.eq_def]
    split
    · split
      · exact ⟨_, _, .inl rfl⟩
      split
      · exact ⟨_, _, .inl rfl⟩
      dsimp only
      split
      · exact ⟨_, _, .inl rfl⟩
      split
      · exact ⟨_, _, .inl rfl⟩
      split
      · exact ⟨_, _, .inr ⟨_, rfl⟩⟩
      split
      · exact ⟨_, _, .inl rfl⟩
      · exact ⟨_, _, .inr ⟨_, rfl⟩⟩
    · exact ⟨_, _, .inl rfl⟩
  | unsetenv name =>
    rw [performTable, apiUnsetenv]
    split
    · exact ⟨_, _, .inl rfl⟩
    · exact ⟨_, _, .inr ⟨_, rfl⟩⟩
  | getErrno => exact ⟨_, _, .inl rfl⟩
  | tcgetattr descriptor attributes =>
    rw [performTable, terminalAttributesUnavailable]
    split
    · exact ⟨_, _, .inl rfl⟩
    · split <;> exact ⟨_, _, .inl rfl⟩
  | tcsetattr descriptor action attributes =>
    rw [performTable, terminalAttributesUnavailable]
    split
    · exact ⟨_, _, .inl rfl⟩
    · split <;> exact ⟨_, _, .inl rfl⟩
  | location what => exact ⟨_, _, .inl rfl⟩

/-- **The table.**  Every entry of the call table ends with empty hands. -/
theorem performTable_ends (h : Host) (call : TableCall) (hb : Base k (.rest l)) (hc : k.current = some t) :
    ∃ gone l', Ends gone k (.rest l) t (.rest l') (performTable h k t call) := by
  by_cases hop : ∃ op, call = .op op
  · obtain ⟨op, rfl⟩ := hop
    obtain ⟨l', hend, -⟩ := perform_ends h op hb hc
    exact ⟨_, l', hend⟩
  · refine ⟨noNode, l, ?_⟩
    obtain ⟨reply, out, heq | ⟨environment, heq⟩⟩ := performTable_other h k t fun op heq => hop ⟨op, heq⟩
    · rw [heq]
      exact (Returns.same k _ reply out).ends hc
    · rw [heq]
      exact ((note_path k t fun _ => rfl).returns reply out).ends hc

theorem Ends.poised {gone : NodeId → Prop} {l' : NodeId → ℕ} {r : Kernel × Outcome} (hb : Base k (.rest l))
    (h : Ends gone k (.rest l) t (.rest l') r) : Poised (deliver t r) l' :=
  ⟨hb.moves (deliver_moves hb h rfl), deliver_pledged hb h⟩

/-- A call that returns leaves its task running. -/
theorem Ends.running {gone : NodeId → Prop} {l' : NodeId → ℕ} {r : Kernel × Outcome} {reply : Reply} {out : Out}
    (h : Ends gone k (.rest l) t (.rest l') r) (hdone : r.2 = .done reply out) : (deliver t r).current = some t := by
  obtain ⟨k', o⟩ := r
  cases hdone
  exact (current_deliver k' reply out).trans h.2

/-- The child a call waits for. -/
def TableCall.waits : TableCall → Option ℤ
  | .op (.waitpid pid) => some pid
  | _ => none

theorem gear_apiPoll (h : Host) (fds : List PollFd) (timeout : ℤ) :
    ((apiPoll h k t fds timeout).1.task t).map Task.gear = (k.task t).map Task.gear := by
  have hset : ∀ (k : Kernel) (f : Task → Task), (∀ task, (f task).gear = task.gear) →
      ((k.setTask t f).task t).map Task.gear = (k.task t).map Task.gear := fun k f hf => field_setTask Task.gear k t t hf
  rw [apiPoll]
  split
  · rfl
  dsimp only
  split
  · split
    · exact hset k _ fun _ => rfl
    · rw [pollLoop_kernel]
      refine (hset _ _ ?_).trans (hset k _ ?_)
      · exact fun _ => rfl
      · exact fun _ => rfl
  · rw [pollLoop_kernel]
    exact hset k _ fun _ => rfl

/-- A call that is suspended has changed nothing of its task. -/
theorem performTable_block {h : Host} {state : TaskState} {frame : Frame} (hb : Base k (.rest l))
    (hc : k.current = some t) (hblock : (performTable h k t call).2 = .block state frame) :
    frame.waits = call.waits ∧ ((performTable h k t call).1.task t).map Task.gear = (k.task t).map Task.gear ∧
      (performTable h k t call).1.history = k.history := by
  by_cases hop : ∃ op, call = .op op
  · obtain ⟨op, rfl⟩ := hop
    have hblock' : (perform h k t op).2 = .block state frame := hblock
    cases perform_block hb hc hblock' with
    | @pipeRead descriptor count p =>
      exact ⟨rfl, (aloof_gear t).apiRead h k descriptor count, history_solitary h k rfl⟩
    | @consoleRead descriptor count =>
      exact ⟨rfl, (aloof_gear t).apiRead h k descriptor count, history_solitary h k rfl⟩
    | @pipeWrite descriptor buffer p id total =>
      exact ⟨rfl, (aloof_gear t).apiWrite (fun _ _ => rfl) h k descriptor buffer, history_solitary h k rfl⟩
    | @waitpid pid =>
      obtain ⟨-, hk⟩ := apiWaitpid_block hblock'
      have hkernel : (performTable h k t (.op (.waitpid pid))).1 = k.setTask t fun task =>
        { task with waitingFor := pid } := hk
      rw [hkernel]
      exact ⟨rfl, field_setTask Task.gear k t t fun _ => rfl, rfl⟩
    | yield => exact ⟨rfl, rfl, rfl⟩
    | @poll fds timeout => exact ⟨rfl, gear_apiPoll h fds timeout, history_solitary h k rfl⟩
  · obtain ⟨reply, out, heq | ⟨environment, heq⟩⟩ := performTable_other h k t fun op heq => hop ⟨op, heq⟩
    · rw [heq] at hblock
      cases hblock
    · rw [heq] at hblock
      cases hblock

/-- The program has come as far as its call: `k` became `k₁`. -/
structure Comes (t : TaskId) (k k₁ : Kernel) : Prop where
  base : ∃ fl, Base k₁ fl
  current : k₁.current = some t
  table : k₁.slot t = k.slot t
  deeds : deeds t k₁ = deeds t k

/-- The ways in which a call can return: at once, or later as a wait, or later as another call, which
does not reach the table of the task. -/
inductive Comeback (t : TaskId) (k : Kernel) (call : TableCall) (a : Answer) (k' : Kernel) : Prop
  | atOnce (k₁ : Kernel) (l₁ : NodeId → ℕ) (h : Host) : Poised k₁ l₁ → Comes t k k₁ →
      (performTable h k₁ t call).2 = .done a.reply a.out → k' = deliver t (performTable h k₁ t call) →
      Comeback t k call a k'
  | wait (k₁ : Kernel) (pid : ℤ) : call = .op (.waitpid pid) → Comes t k k₁ →
      (apiWaitpid k₁ t pid).2 = .done a.reply a.out → k' = deliver t (apiWaitpid k₁ t pid) → Comeback t k call a k'
  | later (k₁ : Kernel) (l₁ : NodeId → ℕ) (h : Host) (state : TaskState) (frame : Frame) : Poised k₁ l₁ →
      Comes t k k₁ → (performTable h k₁ t call).2 = .block state frame → call.waits = none → k'.slot t = k.slot t →
      deeds t k' = deeds t k → Comeback t k call a k'

theorem slot_of_gear (h : (k'.task t).map Task.gear = (k.task t).map Task.gear) : k'.slot t = k.slot t := by
  have hmap := congrArg (Option.map Prod.fst) h
  rw [Option.map_map, Option.map_map] at hmap
  exact slot_of_descriptors hmap

/-- A suspended call keeps its task seated. -/
theorem seated_of_block {h : Host} {state : TaskState} {frame : Frame} (hp : Poised k l) (hc : k.current = some t)
    (hblock : (performTable h k t call).2 = .block state frame) :
    Seated t (k.slot t) (deeds t k) call.waits (deliver t (performTable h k t call)) := by
  obtain ⟨hwaits, hgear, hhistory⟩ := performTable_block hp.base hc hblock
  obtain ⟨-, task, ht, hrun⟩ := hp.base.roster.current hc
  have hpend : task.pendingExecutableNode = none := (hp.base.orderly t task ht).pending (by rw [hrun]; decide)
  generalize performTable h k t call = r at hblock hgear hhistory
  obtain ⟨k₁, o⟩ := r
  cases hblock
  rw [ht, Option.map_some] at hgear
  obtain ⟨task₁, ht₁, heq⟩ := Option.map_eq_some_iff.mp hgear
  obtain ⟨hT, hpend₁⟩ : task₁.descriptors = task.descriptors ∧
      task₁.pendingExecutableNode = task.pendingExecutableNode := by
    simpa [Task.gear] using heq
  refine ⟨deeds_of_history hhistory, _, Kernel.task_setTask_self _ ht₁, ?_, hwaits, hpend₁.trans hpend⟩
  funext d
  rw [slot_eq ht, ← hT]

/-- A round of the scheduler that returns from a call of the task. -/
theorem resumed_done {h : Host} {k₃ : Kernel} {r : Reply} {out : Out} (hs : step k (.schedule h) = some k')
    (hres : resumed h k t = some (k₃, .done r out)) :
    ∃ task, pickRunnable (roused h k) = some t ∧ (roused h k).task t = some task ∧ task.state = .runnable ∧
      task.interrupted = false ∧ goOn h (dispatch (roused h k) t) t task.frame = (k₃, .done r out) ∧
      (k' = deliver t (k₃, .done r out) ∨ task.frame = .program ∧ k' = dispatch (roused h k) t) := by
  obtain ⟨task, hpick, ht, hst, hint, hgo⟩ := resumed_eq_some hres
  refine ⟨task, hpick, ht, hst, hint, hgo, ?_⟩
  have hk : scheduleRound h k = k' := by
    unfold step at hs
    split at hs
    · cases hs
    dsimp only at hs
    split at hs
    · exact Option.some.inj hs
    · cases hs
  have hround := ownRound hpick ht
  rw [hk] at hround
  cases hround with
  | interrupted hint' hgone =>
    rw [hint] at hint'
    cases hint'
  | started hint' hentry =>
    rw [hentry] at hgo
    cases hgo
  | yielded hint' hprogram => exact .inr ⟨hprogram, rfl⟩
  | resumed hint' hentry hprogram => exact .inl (congrArg (deliver t) hgo)

/-- **Calls come back.**  A call of a running task returns in one of three ways, and then the task runs
again. -/
theorem Answered.comeback (hp : Poised k l) (hc : k.current = some t) (h : Answered t k call a k') :
    Comeback t k call a k' ∧ (∃ l', Poised k' l') ∧ k'.current = some t := by
  cases h with
  | @atOnce k₁ host hreach hfatal hc₁ hdone =>
    obtain ⟨⟨l₁, hp₁⟩, -, hseat, hdeeds⟩ := hp.reach_running hc hreach
    obtain ⟨gone, l', hend⟩ := performTable_ends host call hp₁.base hc₁
    refine ⟨.atOnce k₁ l₁ host hp₁ ⟨⟨_, hp₁.base⟩, hc₁, slot_of_seatOf hseat, hdeeds⟩ hdone rfl, ⟨l', hend.poised hp₁.base⟩,
      hend.running hdone⟩
  | @later k₁ k₂ k₃ _ host host' state frame hreach hfatal hc₁ hblock hreach₂ hs hres =>
    obtain ⟨⟨l₁, hp₁⟩, -, hseat, hdeeds⟩ := hp.reach_running hc hreach
    have hcomes : Comes t k k₁ := ⟨⟨_, hp₁.base⟩, hc₁, slot_of_seatOf hseat, hdeeds⟩
    obtain ⟨gone, l', hend⟩ := performTable_ends host call hp₁.base hc₁
    have hseated := seated_of_block hp₁ hc₁ hblock
    obtain ⟨⟨l₂, hp₂⟩, hstill⟩ := (hend.poised hp₁.base).reach_seated hseated hreach₂
    obtain ⟨l₄, -, hp₄, -⟩ := hp₂.step hs
    obtain ⟨task, hpick, ht, hst, hint, hgo, hk'⟩ := resumed_done hs hres
    have hnot : ¬ Gone t k₂ := by
      have hset := settled_roused host' t k₂
      rw [ht, Option.map_some] at hset
      obtain ⟨task₂, ht₂, heq⟩ := Option.map_eq_some_iff.mp hset.symm
      have hmem := (hp₂.base.roster.listed ht₂).resolve_right fun hl => by cases hl
      refine hp₂.not_gone hmem ht₂ fun hz => ?_
      have hflag : decide (task₂.state = .zombie) = decide (task.state = .zombie) := congrArg Prod.snd heq
      rw [hz, hst] at hflag
      cases hflag
    have hseat₂ := hstill.resolve_left hnot
    have hseat₃ : Seated t (k₁.slot t) (deeds t k₁) call.waits (roused host' k₂) :=
      hseat₂.of_seatOf (quiet_seat.of_settled (settled_roused host' t k₂)) (deeds_of_history (history_roused host' k₂))
    obtain ⟨hds, task', ht', hT, hw, -⟩ := hseat₃
    rw [ht, Option.some.injEq] at ht'
    subst ht'
    set k₅ := dispatch (roused host' k₂) t with hk₅
    have ht₅ : k₅.task t = some { task with state := .running } := Kernel.task_setTask_self _ ht
    have hslot₅ : k₅.slot t = k₁.slot t := by
      funext d
      rw [slot_eq ht₅, ← hT]
    have hcurrent : k'.current = some t := by
      rcases hk' with rfl | ⟨-, rfl⟩
      · have hgoing := current_goOn host' k₅ t task.frame
        rw [hgo] at hgoing
        exact (current_deliver k₃ _ _).trans hgoing
      · rfl
    refine ⟨?_, ⟨l₄, hp₄⟩, hcurrent⟩
    cases hwaits : call.waits with
    | none =>
      rw [hwaits] at hw
      obtain ⟨hgear, hhistory⟩ := goOn_keeps (k := k₅) (t := t) host' hw
      rw [hgo] at hgear hhistory
      refine .later k₁ l₁ host state frame hp₁ hcomes hblock hwaits ?_ ?_
      · rw [← hcomes.table, ← hslot₅]
        rcases hk' with rfl | ⟨-, rfl⟩
        · exact slot_of_gear ((gear_deliver _).trans hgear)
        · rfl
      · rw [← hcomes.deeds, ← hds]
        rcases hk' with rfl | ⟨-, rfl⟩
        · exact deeds_of_history ((history_deliver _ _).trans hhistory)
        · rfl
    | some pid =>
      rw [hwaits] at hw
      have hframe : task.frame = .waitpid pid := by
        cases hf : task.frame with
        | waitpid p =>
          rw [hf] at hw
          cases hw
          rfl
        | _ =>
          rw [hf] at hw
          cases hw
      have hcall : call = .op (.waitpid pid) := by
        unfold TableCall.waits at hwaits
        split at hwaits
        · cases hwaits
          rfl
        · cases hwaits
      have hround : waitRound k₂ (.schedule host') = some (k₅, t, pid) := by
        rw [waitRound, hpick, Option.bind_some, ht]
        dsimp only
        rw [hint, hframe]
        rfl
      obtain ⟨heq, hhist, hc₅, fl, hb₅⟩ := waitRound_spec hp₂ hs hround
      rw [hframe] at hgo
      refine .wait k₅ pid hcall ⟨⟨fl, hb₅⟩, hc₅, hslot₅.trans hcomes.table, ?_⟩ (congrArg Prod.snd hgo) heq
      exact hds.trans hcomes.deeds

/-! ### What the calls do -/

theorem cbVfsOpen_eq {h : Host} {view : View} {path : Bytes} {flags : OpenFlags} {mode : ℕ} {r : Except Errno FileId}
    (heq : cbVfsOpen h k view path flags mode = (k', r)) :
    ∃ v, k' = { k with vfs := v } ∧ (∃ e, r = .error e) ∨
      ∃ file, k' = { k with vfs := v, files := k.files.alloc file } ∧ r = .ok k.files.next := by
  have hnode : ∀ (v : Vfs) (n : NodeId), openNode h { k with vfs := v } n flags = (k', r) →
      ∃ v, k' = { k with vfs := v } ∧ (∃ e, r = .error e) ∨
        ∃ file, k' = { k with vfs := v, files := k.files.alloc file } ∧ r = .ok k.files.next := by
    intro v n heq
    rw [openNode] at heq
    split at heq
    · cases heq
      exact ⟨_, .inl ⟨rfl, _, rfl⟩⟩
    split at heq
    · cases heq
      exact ⟨_, .inl ⟨rfl, _, rfl⟩⟩
    dsimp only [cbOpenFileCreate] at heq
    split at heq
    · cases heq
      exact ⟨_, .inl ⟨rfl, _, rfl⟩⟩
    · cases heq
      exact ⟨_, .inr ⟨_, rfl, rfl⟩⟩
  rw [cbVfsOpen] at heq
  split at heq
  · cases heq
    exact ⟨_, .inl ⟨rfl, _, rfl⟩⟩
  split at heq
  · exact hnode k.vfs _ heq
  split at heq
  · split at heq
    · cases heq
      exact ⟨_, .inl ⟨rfl, _, rfl⟩⟩
    · exact hnode _ _ heq
  · cases heq
    exact ⟨_, .inl ⟨rfl, _, rfl⟩⟩

/-- A file that is not there yet is in no slot. -/
theorem Base.lacks {fl : Flight} {f : FileId} (hb : Base k fl) (hf : k.files.get f = none) : Table.Lacks (k.slot t) f := by
  intro d entry hslot heq
  rw [Kernel.slot] at hslot
  obtain ⟨task, ht, hd⟩ := Option.bind_eq_some_iff.mp hslot
  obtain ⟨file, hlive⟩ := hb.books.slot_live ht hd
  rw [heq, hf] at hlive
  cases hlive

theorem apiOpen_table {fl : Flight} (h : Host) (path : Bytes) (flags : OpenFlags) (mode : ℕ) (hb : Base k fl)
    (hu : Unparked k t) :
    (∃ e, (apiOpen h k t path flags mode).2 = .fail e ∧ (apiOpen h k t path flags mode).1.slot t = k.slot t) ∨
    ∃ d f, (apiOpen h k t path flags mode).2 = .done ⟨d.val, [], some 0⟩ .none ∧
      Table.lowest (k.slot t) = some d ∧ Table.Lacks (k.slot t) f ∧
      (apiOpen h k t path flags mode).1.slot t = Function.update (k.slot t) d (some ⟨f, false⟩) := by
  rw [apiOpen]
  rcases hopen : cbVfsOpen h k (k.viewOf t) path flags mode with ⟨k₁, r⟩
  obtain ⟨v, ⟨rfl, e, rfl⟩ | ⟨file, rfl, rfl⟩⟩ := cbVfsOpen_eq hopen
  · exact .inl ⟨e, rfl, rfl⟩
  · dsimp only
    set k₁ : Kernel := { k with vfs := v, files := k.files.alloc file } with hk₁
    have hu₁ : Unparked k₁ t := hu
    have hslot : k₁.slot t = k.slot t := rfl
    cases hd : Table.lowest (k.slot t) with
    | none =>
      rw [fdInstall_none hu₁ (hslot ▸ hd)]
      refine .inl ⟨.emfile, rfl, ?_⟩
      dsimp only
      rw [slot_cbOpenFileRelease, slot_setError, hslot]
    | some d =>
      rw [fdInstall_some hu₁ (hslot ▸ hd)]
      refine .inr ⟨d, k.files.next, rfl, rfl, hb.lacks (Heap.get_next _), ?_⟩
      dsimp only
      rw [slot_setSlot_table hu₁, hslot]

theorem apiClose_table (hu : Unparked k t) (descriptor : ℤ) :
    (apiClose k t descriptor).1.slot t = Table.close (k.slot t) descriptor := by
  rw [apiClose, Table.close]
  cases hd : fdSlot descriptor with
  | none => rfl
  | some d =>
    rw [Option.bind_some]
    cases hslot : k.slot t d with
    | none =>
      show k.slot t = Function.update (k.slot t) d none
      rw [← hslot, Function.update_eq_self]
    | some entry => exact slot_fdCloseSlot_table hu d

theorem Table.entryOf_some {T : Table} {descriptor : ℤ} {entry : FdEntry} (h : T.entryOf descriptor = some entry) :
    ∃ d, fdSlot descriptor = some d ∧ T d = some entry := Option.bind_eq_some_iff.mp h

/-- The file behind a descriptor, by its slot. -/
theorem fileOf_entryOf {fl : Flight} (hb : Base k fl) (hu : Unparked k t) (descriptor : ℤ) :
    (Table.entryOf (k.slot t) descriptor = none ∧ fileOf k t descriptor = none) ∨
    ∃ entry file, Table.entryOf (k.slot t) descriptor = some entry ∧ fileOf k t descriptor = some (entry.file, file) := by
  cases hentry : Table.entryOf (k.slot t) descriptor with
  | none =>
    refine .inl ⟨rfl, fileOf_eq_none fun d hd => ?_⟩
    rw [Table.entryOf, hd] at hentry
    exact hentry
  | some entry =>
    obtain ⟨d, hd, hslot⟩ := Table.entryOf_some hentry
    obtain ⟨file, hfile⟩ := fileOf_of_slot hb hu hd hslot
    exact .inr ⟨entry, file, rfl, hfile⟩

theorem apiDup_table {fl : Flight} (hb : Base k fl) (hu : Unparked k t) (descriptor : ℤ) :
    ∃ reply out, (apiDup k t descriptor).2 = .done reply out ∧
      (reply.value, (apiDup k t descriptor).1.slot t) = Table.dup (k.slot t) descriptor := by
  rw [apiDup, Table.dup]
  rcases fileOf_entryOf hb hu descriptor with ⟨hentry, hfile⟩ | ⟨entry, file, hentry, hfile⟩
  · rw [hentry, hfile]
    exact ⟨_, _, rfl, rfl⟩
  rw [hentry, hfile]
  dsimp only
  have hu₁ : Unparked (cbOpenFileRetain k entry.file) t := hu
  have hslot : (cbOpenFileRetain k entry.file).slot t = k.slot t := rfl
  cases hd : Table.lowest (k.slot t) with
  | none =>
    rw [fdInstall_none hu₁ (hslot ▸ hd)]
    refine ⟨_, _, rfl, ?_⟩
    dsimp only
    rw [slot_cbOpenFileRelease, slot_setError, hslot]
    rfl
  | some d =>
    rw [fdInstall_some hu₁ (hslot ▸ hd)]
    refine ⟨_, _, rfl, ?_⟩
    dsimp only
    rw [slot_setSlot_table hu₁, hslot]
    rfl

theorem apiDup2_table {fl : Flight} (hb : Base k fl) (hu : Unparked k t) (oldDescriptor newDescriptor : ℤ) :
    ∃ reply out, (apiDup2 k t oldDescriptor newDescriptor).2 = .done reply out ∧
      (reply.value, (apiDup2 k t oldDescriptor newDescriptor).1.slot t) =
        Table.dup2 (k.slot t) oldDescriptor newDescriptor := by
  rw [apiDup2, Table.dup2]
  rcases fileOf_entryOf hb hu oldDescriptor with ⟨hentry, hfile⟩ | ⟨entry, file, hentry, hfile⟩
  · rw [hentry, hfile]
    exact ⟨_, _, rfl, rfl⟩
  rw [hentry, hfile]
  cases hd : fdSlot newDescriptor with
  | none => exact ⟨_, _, rfl, rfl⟩
  | some d =>
    dsimp only
    by_cases heq : oldDescriptor = newDescriptor
    · rw [if_pos heq, if_pos heq]
      exact ⟨_, _, rfl, rfl⟩
    · rw [if_neg heq, if_neg heq]
      refine ⟨_, _, rfl, ?_⟩
      rw [slot_fdInstallAt_table hu]
      rfl

/-- The two descriptors of a new pipe were empty. -/
theorem Table.pipeAnswer_ok {T : Table} {granted : Site → Bool} {r w : Fin cbMaxFds}
    (h : T.pipeAnswer granted = .ok (r, w)) : T r = none ∧ T w = none ∧ r ≠ w := by
  unfold pipeAnswer at h
  split at h
  · cases h
  split at h
  · cases h
  rename_i r' hr
  split at h
  · cases h
  rename_i w' hw
  cases h
  exact two_lowest hr hw

theorem gear_quiet (h : Host) (hq : call.quiet = true) :
    ((performTable h k t call).1.task t).map Task.gear = (k.task t).map Task.gear := by
  by_cases hop : ∃ op, call = .op op
  · obtain ⟨op, rfl⟩ := hop
    cases op with
    | write descriptor buffer => exact (aloof_gear t).apiWrite (fun _ _ => rfl) h k descriptor buffer
    | chdir path =>
      show ((apiChdir k t path).1.task t).map Task.gear = _
      rw [apiChdir]
      split
      · rfl
      · exact field_setTask Task.gear (retainNode k _) t t fun _ => rfl
    | getcwd size => rfl
    | _ => cases hq
  · obtain ⟨reply, out, heq | ⟨environment, heq⟩⟩ := performTable_other h k t fun op heq => hop ⟨op, heq⟩
    · rw [heq]
    · rw [heq]
      exact field_setTask Task.gear k t t fun _ => rfl

theorem history_quiet (h : Host) (hq : call.quiet = true) : (performTable h k t call).1.history = k.history := by
  by_cases hop : ∃ op, call = .op op
  · obtain ⟨op, rfl⟩ := hop
    refine history_solitary h k ?_
    cases op with
    | spawn | exec | exit | waitpid => cases hq
    | _ => rfl
  · obtain ⟨reply, out, heq | ⟨environment, heq⟩⟩ := performTable_other h k t fun op heq => hop ⟨op, heq⟩
    · rw [heq]
    · rw [heq]
      rfl

/-! ### Children -/

theorem mem_deeds {e : Passage} : e ∈ deeds t k ↔ e ∈ k.history ∧ e.actor = some t := by
  rw [deeds, List.mem_filter, decide_eq_true_eq]

/-- Whether a child of a task is reaped can be told from the deeds of the task. -/
theorem buried_deeds {c : TaskId} {n : ℕ} (hchron : Chronicle k.history) (hs : .spawned (some t) c n ∈ k.history) :
    Buried (deeds t k) c ↔ Buried k.history c := by
  constructor
  · rintro ⟨p, pid, status, hr⟩
    exact ⟨p, pid, status, (mem_deeds.mp hr).1⟩
  · rintro ⟨p, pid, status, hr⟩
    obtain ⟨pre, post, heq⟩ := List.append_of_mem hr
    have hborn : .spawned (some p) c pid ∈ k.history := heq ▸ List.mem_append_left _ (hchron.possible heq).1
    have hp : some p = some t := (hchron.spawned_unique hborn hs).2 rfl
    exact ⟨p, pid, status, mem_deeds.mpr ⟨hr, hp⟩⟩

/-- A round of `waitpid` that returns has found no child, or a zombie. -/
theorem apiWaitpid_done {pid : ℤ} {parent : Task} {reply : Reply} {out : Out} (ht : k.task t = some parent)
    (hdone : (apiWaitpid k t pid).2 = .done reply out) :
    apiWaitpid k t pid = (k, .fail .echild) ∨
    ∃ c child, k.task c = some child ∧ child.state = .zombie ∧
      apiWaitpid k t pid = (reap (k.record (.reaped t c child.pid child.exitStatus)) c,
        .done (.done child.pid) (.status child.exitStatus)) := by
  rw [apiWaitpid, ht] at hdone ⊢
  dsimp only at hdone ⊢
  split at hdone
  · rename_i c hfind
    obtain ⟨-, child, hchild, -⟩ := mem_childrenOf.mp (List.mem_of_find?_eq_some hfind)
    have hzombie : child.state = .zombie := by
      have hany := List.find?_some hfind
      rw [hchild] at hany
      simpa using hany
    rw [hchild]
    exact .inr ⟨c, child, hchild, hzombie, rfl⟩
  · split at hdone
    · rename_i hnil
      rw [if_pos hnil]
      exact .inl rfl
    · cases hdone

/-- A round of `waitpid` that returns, in terms of the history. -/
theorem apiWaitpid_returns {fl : Flight} {pid : ℤ} {reply : Reply} {out : Out} (hb : Base k fl) (hc : k.current = some t)
    (hdone : (apiWaitpid k t pid).2 = .done reply out) :
    (apiWaitpid k t pid).1.slot t = k.slot t ∧
    (reply.value = -1 ∧ (apiWaitpid k t pid).1.history = k.history ∧
      (∀ (c : TaskId) (n : ℕ), .spawned (some t) c n ∈ k.history → pid = -1 ∨ (n : ℤ) = pid → Buried k.history c) ∨
    ∃ (c : TaskId) (n : ℕ) (status : ℤ), reply.value = n ∧ (pid = -1 ∨ (n : ℤ) = pid) ∧ out = .status status ∧
      .spawned (some t) c n ∈ k.history ∧ ¬ Buried k.history c ∧
      (apiWaitpid k t pid).1.history = k.history ++ [.reaped t c n status]) := by
  obtain ⟨-, parent, ht, hrun⟩ := hb.roster.current hc
  have hechild : (apiWaitpid k t pid).2 = _ ↔ _ := apiWaitpid_echild hb hc
  have hstatus : ∀ {v status}, (apiWaitpid k t pid).2 = .done (.done v) (.status status) → _ :=
    fun {_ _} => apiWaitpid_status hb hc
  rcases apiWaitpid_done ht hdone with heq | ⟨c, child, hchild, hzombie, heq⟩
  · rw [heq] at hdone hechild ⊢
    cases hdone
    exact ⟨rfl, .inl ⟨rfl, rfl, hechild.mp rfl⟩⟩
  · have hne : t ≠ c := by
      rintro rfl
      rw [ht, Option.some.injEq] at hchild
      rw [← hchild, hrun] at hzombie
      cases hzombie
    have hslot : (reap (k.record (.reaped t c child.pid child.exitStatus)) c).slot t = k.slot t :=
      slot_of_seatOf (quiet_seat.of_stillOf (stillOf_reap hne (k.record (.reaped t c child.pid child.exitStatus))))
    obtain ⟨b, n, argument, hv, hpid, hspawned, -, -, hfresh, hgrow⟩ := hstatus (congrArg Prod.snd heq)
    rw [heq] at hdone hgrow ⊢
    dsimp only at hdone hgrow ⊢
    generalize reap (k.record (.reaped t c child.pid child.exitStatus)) c = k' at hslot hgrow ⊢
    cases hdone
    refine ⟨hslot, .inr ⟨b, n, child.exitStatus, hv, ?_, rfl, hspawned, hfresh, hgrow⟩⟩
    rw [← hv]
    exact hpid

/-- `task_create` for a running task: it fails and nothing has happened, or the child has the table that
the actions make. -/
theorem taskCreate_cases {fl : Flight} {task : Task} (h : Host) (hb : Base k fl) (hl : fl.limbo = none)
    (ht : k.task t = some task) (program : Option ProgramId) (argv : List Bytes) (envp : Option (List Bytes))
    (actions : List SpawnAction) :
    (∃ k', taskCreate h k (some t) program argv envp actions = (k', none) ∧ k'.history = k.history) ∨
    ∃ k' c child, taskCreate h k (some t) program argv envp actions = (k', some c) ∧ k'.task c = some child ∧ c ≠ t ∧
      c ∈ k'.order ∧ Table.acts (k.slot t) actions = .ok child.descriptors ∧
      k'.history = k.history ++ [.spawned (some t) c child.pid] := by
  have hv := outside_history k.tasks.next
  rcases taskCreate_stages h k (some t) program argv envp actions with heq | heq | ⟨environment, heq⟩
  · exact .inl ⟨k, heq, rfl⟩
  · exact .inl ⟨_, heq, rfl⟩
  rw [Option.bind_some, ht] at heq
  have hp : ∀ task', some task = some task' → ∃ p, k.task p = some task' := by
    intro task' hsame
    rw [← hsame]
    exact ⟨t, ht⟩
  obtain ⟨hbuild, -, hnew, -⟩ :
      Moves (fun _ => False) k fl (buildTask k (some task) program argv environment) _ ∧ _ :=
    buildTask_moves program argv environment hb hl hp
  have hb' := hb.moves hbuild
  have hpath : Path (fun _ => False) _ _ _ _ := taskApplyActions_path actions hb' hnew.unparked
  obtain ⟨child, hchild, -⟩ := hnew.steady hpath.steady
  have hacts := taskApplyActions_table actions hb' hnew.unparked
  rw [slot_buildTask ht] at hacts
  have hhistory := (hv.taskApplyActions actions (buildTask k (some task) program argv environment)).trans
    (hv.buildTask (some task) program argv environment)
  rw [heq]
  generalize taskApplyActions k.tasks.next (buildTask k (some task) program argv environment) actions = acted at *
  obtain ⟨k₁, accepted⟩ := acted
  have hfail : (taskRelease (fdCloseAll k₁ k.tasks.next) k.tasks.next).history = k.history := by
    rw [hv.taskRelease hv.free, fdCloseAll, hv.fdCloseWhere]
    exact hhistory
  cases accepted with
  | false => exact .inl ⟨_, rfl, hfail⟩
  | true =>
    rw [settleTask]
    split
    · exact .inl ⟨_, rfl, hfail⟩
    · have hchild₁ : k₁.task k.tasks.next = some child := hchild
      have hself : (enlist k₁ (some t) k.tasks.next).task k.tasks.next = some { child with execution := child.program } :=
        Kernel.task_setTask_self _ hchild₁
      have hslots : k₁.slot k.tasks.next = child.descriptors := funext fun d => slot_eq hchild₁
      obtain ⟨k₂, heq₂, htable⟩ | ⟨k₂, e, heq₂, -⟩ := hacts
      · cases heq₂
        refine .inr ⟨_, k.tasks.next, _, rfl, hself, ?_, List.mem_cons_self, ?_, ?_⟩
        · exact (Nat.ne_of_lt (Heap.lt_next_of_get ht)).symm
        · rw [htable, hslots]
        · have hpid : (((k₁.setTask k.tasks.next fun task => { task with execution := task.program }).task
              k.tasks.next).map Task.pid).getD 0 = child.pid := by
            rw [Kernel.task_setTask_self _ hchild₁]
            rfl
          rw [enlist]
          dsimp only
          rw [hpid]
          exact congrArg (· ++ [Passage.spawned (some t) k.tasks.next child.pid]) hhistory
      · cases heq₂

theorem apiSpawn_cases {fl : Flight} (h : Host) (hb : Base k fl) (hl : fl.limbo = none) (hc : k.current = some t)
    (programName : Bytes) (argv : List Bytes) (envp : Option (List Bytes)) (actions : List SpawnAction) :
    (∃ k' e, apiSpawn h k t programName argv envp actions = (k', .fail e) ∧ k'.history = k.history) ∨
    ∃ k' c child, apiSpawn h k t programName argv envp actions = (k', .done (.done 0) (.pid child.pid)) ∧
      k'.task c = some child ∧ c ≠ t ∧ c ∈ k'.order ∧ Table.acts (k.slot t) actions = .ok child.descriptors ∧
      k'.history = k.history ++ [.spawned (some t) c child.pid] := by
  obtain ⟨-, task, ht, -⟩ := hb.roster.current hc
  rw [apiSpawn]
  split
  · exact .inl ⟨k, _, rfl, rfl⟩
  split
  · exact .inl ⟨k, _, rfl, rfl⟩
  split
  · exact .inl ⟨k, _, rfl, rfl⟩
  rename_i n hres
  obtain ⟨node, hn, -⟩ := executableNode_rooted (hb.resolves (.of_current hb hc)) hres
  have hretain : Path (fun _ => False) k fl (retainNode k (some n)) (fl.addNode (some n)) := retainNode_path hn
  have ht' : (retainNode k (some n)).task t = some task := ht
  have hcreate := taskCreate_cases h (hretain.base hb) hl ht' (executableOf k n) argv envp actions
  rw [slot_retainNode] at hcreate
  obtain ⟨k', heq, hhistory⟩ | ⟨k', c, child, heq, hchild, hne, hmem, htable, hhistory⟩ := hcreate
  · rw [heq]
    exact .inl ⟨_, _, rfl, hhistory⟩
  · have hpid : ((k'.task c).map Task.pid).getD 0 = child.pid := by
      rw [hchild]
      rfl
    rw [heq]
    dsimp only
    rw [hpid]
    exact .inr ⟨_, c, { child with executableNode := some n }, rfl, Kernel.task_setTask_self _ hchild, hne, hmem, htable,
      hhistory⟩

/-! ### Sessions on the purview -/

/-- The new child is the task that the answer of a spawn names. -/
theorem childTable_eq {fl : Flight} {c : TaskId} {child : Task} (hb : Base k fl) (hmem : c ∈ k.order)
    (hchild : k.task c = some child) (hout : a.out = .pid child.pid) : childTable k a = some child.descriptors := by
  rw [childTable, hout]
  dsimp only
  have hsome : (k.order.find? fun b => (k.task b).any fun task => task.pid = child.pid).isSome = true := by
    rw [List.find?_isSome]
    refine ⟨c, hmem, ?_⟩
    rw [hchild]
    simp
  obtain ⟨b, hb'⟩ := Option.isSome_iff_exists.mp hsome
  have hany := List.find?_some hb'
  obtain ⟨task, ht, hpid⟩ := Option.any_eq_true _ _ |>.mp hany
  have hbc : b = c := hb.roster.pids ht hchild (of_decide_eq_true hpid)
  rw [hb', Option.bind_some, hbc, hchild]
  rfl

theorem deeds_append {e : List Passage} (h : k'.history = k.history ++ e) (he : ∀ x ∈ e, x.actor = some t) :
    deeds t k' = deeds t k ++ e := by
  have hall : e.filter (fun x => x.actor = some t) = e := by
    rw [List.filter_eq_self]
    intro x hx
    exact decide_eq_true (he x hx)
  rw [deeds, h, List.filter_append, hall]
  rfl

theorem appends_performTable (h : Host) (k : Kernel) (t : TaskId) (call : TableCall) :
    Appends (some t) k (performTable h k t call).1 := by
  by_cases hop : ∃ op, call = .op op
  · obtain ⟨op, rfl⟩ := hop
    exact appends_perform h k t op
  · obtain ⟨reply, out, heq | ⟨environment, heq⟩⟩ := performTable_other h k t fun op heq => hop ⟨op, heq⟩
    · rw [heq]
      exact .of_eq rfl
    · rw [heq]
      exact .of_eq rfl

/-- What a round of `waitpid` that returns does to the purview. -/
theorem admits_waitpid {fl : Flight} {pid : ℤ} (hb : Base k fl) (hc : k.current = some t)
    (hdone : (apiWaitpid k t pid).2 = .done a.reply a.out) (child : Option Table) :
    ∃ new, Admits t (k.slot t) (deeds t k) (.op (.waitpid pid)) a ((apiWaitpid k t pid).1.slot t) new child ∧
      deeds t (apiWaitpid k t pid).1 = deeds t k ++ new := by
  have hchron := hb.lineage.chronicle
  obtain ⟨hslot, ⟨hv, hhistory, hall⟩ | ⟨c, n, status, hv, hpid, hout, hs, hfresh, hhistory⟩⟩ :=
    apiWaitpid_returns hb hc hdone
  · refine ⟨[], ⟨hslot, .inl ⟨hv, rfl, fun c n hs hpid => ?_⟩⟩, ?_⟩
    · have hborn := (mem_deeds.mp hs).1
      exact (buried_deeds hchron hborn).mpr (hall c n hborn hpid)
    · rw [List.append_nil]
      exact deeds_of_history hhistory
  · refine ⟨[.reaped t c n status], ⟨hslot, .inr ⟨c, n, status, hv, hpid, hout, rfl, ?_, ?_⟩⟩, ?_⟩
    · exact mem_deeds.mpr ⟨hs, rfl⟩
    · exact fun hbur => hfresh ((buried_deeds hchron hs).mp hbur)
    · refine deeds_append hhistory fun x hx => ?_
      rw [List.mem_singleton.mp hx]
      rfl

/-- What a spawn that returns does to the purview. -/
theorem admits_spawn {h : Host} {programName : Bytes} {argv : List Bytes} {envp : Option (List Bytes)}
    {actions : List SpawnAction} (hp : Poised k l) (hc : k.current = some t)
    (hdone : (apiSpawn h k t programName argv envp actions).2 = .done a.reply a.out) :
    ∃ new, Admits t (k.slot t) (deeds t k) (.op (.spawn programName argv envp actions)) a
        ((apiSpawn h k t programName argv envp actions).1.slot t) new
        (childTable (deliver t (apiSpawn h k t programName argv envp actions)) a) ∧
      deeds t (apiSpawn h k t programName argv envp actions).1 = deeds t k ++ new := by
  obtain ⟨-, task, ht, -⟩ := hp.base.roster.current hc
  have hslot : (apiSpawn h k t programName argv envp actions).1.slot t = k.slot t :=
    slot_of_seatOf (quiet_seat.of_stillOf (stillOf_apiSpawn ht h programName argv envp actions))
  obtain ⟨gone, l', hend⟩ := performTable_ends h (.op (.spawn programName argv envp actions)) hp.base hc
  have hp' : Poised (deliver t (apiSpawn h k t programName argv envp actions)) l' := hend.poised hp.base
  rcases apiSpawn_cases h hp.base rfl hc programName argv envp actions with
    ⟨k₁, e, heq, hhistory⟩ | ⟨k₁, c, child, heq, hchild, hne, hmem, htable, hhistory⟩
  · rw [heq] at hslot hdone ⊢
    refine ⟨[], ⟨hslot, .inl ⟨?_, rfl⟩⟩, ?_⟩
    · rw [Answer.value, ← (Outcome.done.inj hdone).1]
      rfl
    · rw [List.append_nil]
      exact deeds_of_history hhistory
  · rw [heq] at hslot hdone hp' ⊢
    obtain ⟨hreply, hout⟩ := Outcome.done.inj hdone
    have hchild' : (deliver t (k₁, .done (.done 0) (.pid child.pid))).task c = some child := by
      rw [deliver]
      exact (Kernel.task_setTask_of_ne _ _ hne).trans ((Kernel.task_setTask_of_ne _ _ hne).trans hchild)
    have hmem' : c ∈ (deliver t (k₁, .done (.done 0) (.pid child.pid))).order := hmem
    have hnew : Possible k.history (.spawned (some t) c child.pid) :=
      hp'.base.lineage.chronicle.possible ((history_deliver t _).trans hhistory)
    refine ⟨[.spawned (some t) c child.pid], ⟨hslot, .inr ⟨c, child.pid, child.descriptors, ?_, hout.symm, rfl, htable,
      childTable_eq hp'.base hmem' hchild' hout.symm, fun p b m hb => ?_⟩⟩, ?_⟩
    · rw [Answer.value, ← hreply]
      rfl
    · exact hnew.2.2 p b m (mem_deeds.mp hb).1
    · refine deeds_append hhistory fun x hx => ?_
      rw [List.mem_singleton.mp hx]
      rfl

/-- What a call that returns at once does to the purview. -/
theorem admits_performTable {h : Host} (hp : Poised k l) (hc : k.current = some t)
    (hdone : (performTable h k t call).2 = .done a.reply a.out) :
    ∃ new, Admits t (k.slot t) (deeds t k) call a ((performTable h k t call).1.slot t) new
        (childTable (deliver t (performTable h k t call)) a) ∧
      deeds t (performTable h k t call).1 = deeds t k ++ new := by
  have hb := hp.base
  have hu := Unparked.of_current hb hc
  have hsame : ∀ {op}, (perform h k t op).1.history = k.history → deeds t (perform h k t op).1 = deeds t k ++ [] := by
    intro op hhistory
    rw [List.append_nil]
    exact deeds_of_history hhistory
  have hother : ∃ new, (call.quiet = true → (performTable h k t call).1.slot t = k.slot t ∧ new = []) ∧
      deeds t (performTable h k t call).1 = deeds t k ++ new := by
    obtain ⟨new, hnew, hall⟩ := appends_performTable h k t call
    refine ⟨new, fun hq => ⟨slot_of_gear (gear_quiet h hq), ?_⟩, deeds_append hnew hall⟩
    rw [history_quiet h hq] at hnew
    exact List.self_eq_append_right.mp hnew
  cases call with
  | op op =>
    have hdone' : (perform h k t op).2 = .done a.reply a.out := hdone
    cases op with
    | openPath path flags mode =>
      refine ⟨[], ⟨rfl, ?_⟩, hsame (history_solitary h k rfl)⟩
      rcases apiOpen_table h path flags mode hb hu with ⟨e, hout, hslot⟩ | ⟨d, f, hout, hlow, hlacks, hslot⟩
      · refine .inl ⟨?_, hslot⟩
        rw [Answer.value, ← (Outcome.done.inj (hout.symm.trans hdone')).1]
        rfl
      · refine .inr ⟨d, f, hlow, hlacks, ?_, hslot⟩
        rw [Answer.value, ← (Outcome.done.inj (hout.symm.trans hdone')).1]
    | close descriptor => exact ⟨[], ⟨rfl, apiClose_table hu descriptor⟩, hsame (history_solitary h k rfl)⟩
    | dup descriptor =>
      refine ⟨[], ⟨rfl, ?_⟩, hsame (history_solitary h k rfl)⟩
      obtain ⟨reply, out, hout, hslot⟩ := apiDup_table hb hu descriptor
      rw [Answer.value, ← (Outcome.done.inj (hout.symm.trans hdone')).1]
      exact hslot
    | dup2 oldDescriptor newDescriptor =>
      refine ⟨[], ⟨rfl, ?_⟩, hsame (history_solitary h k rfl)⟩
      obtain ⟨reply, out, hout, hslot⟩ := apiDup2_table hb hu oldDescriptor newDescriptor
      rw [Answer.value, ← (Outcome.done.inj (hout.symm.trans hdone')).1]
      exact hslot
    | pipe =>
      refine ⟨[], ⟨rfl, ?_⟩, hsame (history_solitary h k rfl)⟩
      have htable := apiPipe_table h hu
      cases hpipe : Table.pipeAnswer (k.slot t) h.allocate with
      | error e =>
        rw [hpipe] at htable
        refine .inl ⟨?_, htable.2⟩
        rw [Answer.value, ← (Outcome.done.inj (htable.1.symm.trans hdone')).1]
        rfl
      | ok ends =>
        obtain ⟨r, w⟩ := ends
        rw [hpipe] at htable
        obtain ⟨hreply, hout⟩ := Outcome.done.inj (htable.1.symm.trans hdone')
        obtain ⟨hr, hw, hne⟩ := Table.pipeAnswer_ok hpipe
        refine .inr ⟨r, w, k.files.next, k.files.next + 1, hr, hw, hne, hb.lacks (Heap.get_next _),
          hb.lacks (Heap.get_of_next_le (Nat.le_succ _)), ?_, hout.symm, htable.2⟩
        rw [Answer.value, ← hreply]
        rfl
    | spawn programName argv envp actions => exact admits_spawn hp hc hdone'
    | waitpid pid => exact admits_waitpid hb hc hdone' _
    | _ => exact hother
  | _ => exact hother

/-- **The purview.**  What a call does to the kernel, it does to the purview of its task. -/
theorem Answered.admits (hp : Poised k l) (hc : k.current = some t) (h : Answered t k call a k') :
    ∃ new, Admits t (k.slot t) (deeds t k) call a (k'.slot t) new (childTable k' a) ∧ deeds t k' = deeds t k ++ new := by
  obtain ⟨hback, -, -⟩ := h.comeback hp hc
  cases hback with
  | atOnce k₁ l₁ host hp₁ hcomes hdone heq =>
    subst heq
    have hadmits := admits_performTable hp₁ hcomes.current hdone
    rw [hcomes.table, hcomes.deeds] at hadmits
    rw [slot_of_gear (gear_deliver _), deeds_of_history (history_deliver _ _)]
    exact hadmits
  | wait k₁ pid hcall hcomes hdone heq =>
    subst heq hcall
    obtain ⟨fl, hb⟩ := hcomes.base
    have hadmits := admits_waitpid hb hcomes.current hdone (childTable (deliver t (apiWaitpid k₁ t pid)) a)
    rw [hcomes.table, hcomes.deeds] at hadmits
    rw [slot_of_gear (gear_deliver _), deeds_of_history (history_deliver _ _)]
    exact hadmits
  | later k₁ l₁ host state frame hp₁ hcomes hblock hwaits hslot hdeeds =>
    have hquiet : ∃ new, (call.quiet = true → k'.slot t = k.slot t ∧ new = []) ∧ deeds t k' = deeds t k ++ new := by
      refine ⟨[], fun _ => ⟨hslot, rfl⟩, ?_⟩
      rw [List.append_nil]
      exact hdeeds
    cases call with
    | op op =>
      have hblock' : (perform host k₁ t op).2 = .block state frame := hblock
      cases perform_block hp₁.base hcomes.current hblock' with
      | waitpid => cases hwaits
      | _ => exact hquiet
    | _ => exact hquiet

/-- A session of a program on the kernel is a session on its purview. -/
theorem Session.runs_purview {α : Type} {s s' : Session} {p : Script α} {b : α} (hp : Poised s.kernel l)
    (hc : s.kernel.current = some t) (hr : Prog.Runs (Session.Step t) s p s' b) :
    Prog.Runs (Purview.Step t) (s.purview t) p (s'.purview t) b ∧ (∃ l', Poised s'.kernel l') ∧
      s'.kernel.current = some t := by
  obtain ⟨v, hrun, rfl, hend⟩ : ∃ v, Prog.Runs (Purview.Step t) (s.purview t) p v b ∧ v = s'.purview t ∧
      (∃ l', Poised s'.kernel l') ∧ s'.kernel.current = some t := hr.follow
    (R := fun s v => v = s.purview t ∧ (∃ l, Poised s.kernel l) ∧ s.kernel.current = some t)
    ⟨rfl, ⟨l, hp⟩, hc⟩ (fun s v call a s' ⟨heq, ⟨l, hp⟩, hc⟩ hstep => by
      subst heq
      obtain ⟨hanswered, hlog⟩ := hstep
      obtain ⟨new, hadmits, hdeeds⟩ := hanswered.admits hp hc
      obtain ⟨-, hp', hc'⟩ := hanswered.comeback hp hc
      exact ⟨s'.purview t, ⟨new, _, hadmits, hdeeds, hlog⟩, rfl, hp', hc'⟩)
  exact ⟨hrun, hend⟩

end CannedBsd
