import CannedBsd.Kernel.Playback
import CannedBsd.Kernel.Delivery
import CannedBsd.Kernel.Fairness
import CannedBsd.Lib.Underway

/-!
# Recorded runs

A recording follows a run of the kernel from some state on and notes for every task the calls that have
returned, with their answers, and the call it is suspended in. Other tasks run between a call and its
return, so the notes of one task come about in many steps. What a task was told is checked against its
program by `Plays`.

The transfers of a recording are honest: a read that delivers bytes says how many and delivers no more than
were asked for, and a write accepts no more than it was given, wherever the call was suspended on the way.

* `Synced.step`: a step of a recording keeps the notes in step with the kernel.
* `Recorded.synced`: so the notes of every recorded run are right, and its transfers are honest.
-/

namespace CannedBsd

open CannedBsd.Lib

/-! ### Recordings -/

/-- The calls of a task and their answers. -/
abbrev CallLog := List (TableCall × Answer)

structure Recording where
  kernel : Kernel
  /-- The calls that have returned. -/
  log : TaskId → CallLog
  /-- The call the task is suspended in. -/
  pending : TaskId → Option TableCall
  /-- The call with which the first program of the task ended. -/
  last : TaskId → Option TableCall

namespace Recording

def start (k : Kernel) : Recording := ⟨k, fun _ => [], fun _ => none, fun _ => none⟩

/-- A call of the running task. -/
def call (r : Recording) (h : Host) (t : TaskId) (c : TableCall) : Recording :=
  let result := performTable h r.kernel t c
  let after := { r with kernel := deliver t result }
  match result.2 with
  | .done reply out => { after with log := Function.update r.log t (r.log t ++ [(c, ⟨reply, out⟩)]) }
  | .block _ _ => { after with pending := Function.update r.pending t (some c) }
  | .gone => { after with last := Function.update r.last t ((r.last t).or (some c)) }

/-- The suspended call of a task returns. -/
def answer (r : Recording) (t : TaskId) (a : Answer) : Recording :=
  { r with
    log := Function.update r.log t (r.log t ++ (r.pending t).toList.map fun c => (c, a))
    pending := Function.update r.pending t none }

/-- A round of the scheduler that leads to `k'`. -/
def schedule (r : Recording) (h : Host) (k' : Kernel) : Recording :=
  match pickRunnable (roused h r.kernel) with
  | none => { r with kernel := k' }
  | some t =>
    match resumed h r.kernel t with
    | some (_, .done reply out) => { r.answer t ⟨reply, out⟩ with kernel := k' }
    | _ => { r with kernel := k' }

end Recording

/-- The steps that are neither calls nor rounds of the scheduler. -/
def Action.silent : Action → Bool
  | .call _ _ => false
  | .schedule _ => false
  | _ => true

/-- One step of a recording. -/
inductive Recording.Step (r : Recording) : Recording → Prop
  | call {t : TaskId} (h : Host) (c : TableCall) : r.kernel.fatal = none → r.kernel.current = some t →
      Step r (r.call h t c)
  | schedule {k' : Kernel} (h : Host) : step r.kernel (.schedule h) = some k' → Step r (r.schedule h k')
  | silent {k' : Kernel} {a : Action} : a.silent = true → step r.kernel a = some k' → Step r { r with kernel := k' }

/-- The recordings that start at `k₀`. -/
inductive Recorded (k₀ : Kernel) : Recording → Prop
  | start : Recorded k₀ (.start k₀)
  | step {r r' : Recording} : Recorded k₀ r → r.Step r' → Recorded k₀ r'

/-- The task has run `p` since the recording started, and nothing else. A program that returns makes one more
call, `exit` with its result. The loops of `p` may go on for any number of rounds. -/
def Plays (p : ℕ → Script (Option ℤ)) (t : TaskId) (r : Recording) : Prop :=
  ∃ fuel q, Prog.After (p fuel) (r.log t) q ∧ (∀ c, r.pending t = some c → ∃ next, q = .call c next) ∧
    ∀ c, r.last t = some c → ∃ status, q = .ret (some status) ∧ c = .op (.exit status)

/-- The program has come to its end with this result. -/
def Ended (p : ℕ → Script (Option ℤ)) (t : TaskId) (r : Recording) (status : ℤ) : Prop :=
  ∃ fuel, Prog.After (p fuel) (r.log t) (.ret (some status))

variable {k k' k₀ : Kernel} {t c : TaskId} {l : NodeId → ℕ} {r r' : Recording}

theorem Recording.call_kernel (r : Recording) (h : Host) (t : TaskId) (c : TableCall) :
    (r.call h t c).kernel = deliver t (performTable h r.kernel t c) := by
  rw [call]
  dsimp only
  split <;> rfl

theorem Recording.schedule_kernel (r : Recording) (h : Host) (k' : Kernel) : (r.schedule h k').kernel = k' := by
  rw [schedule]
  split
  · rfl
  split <;> rfl

theorem Recording.Step.attained (h : Attained r.kernel) (hs : r.Step r') : Attained r'.kernel := by
  cases hs with
  | call host c _ hc =>
    rw [Recording.call_kernel]
    exact .call host c h hc
  | schedule host hs =>
    rw [Recording.schedule_kernel]
    exact .step h hs
  | silent _ hs => exact .step h hs

/-! ### What calls answer -/

/-- A read says how many bytes it delivers. -/
def ReadReply (count : ℕ) (r : Reply) : Prop :=
  r.value = r.data.length ∧ r.data.length ≤ count ∨ r.value = -1 ∧ r.data = []

/-- A write accepts a part of its buffer. -/
def WriteReply (buffer : Bytes) (r : Reply) : Prop := -1 ≤ r.value ∧ r.value ≤ buffer.length

def Honest : TableCall → Reply → Prop
  | .op (.read _ count), r => ReadReply count r
  | .op (.write _ buffer), r => WriteReply buffer r
  | _, _ => True

/-- A suspended write has stored a part of its buffer. -/
def Frame.bounded : Frame → Prop
  | .pipeWrite _ _ buffer total => total ≤ buffer.length
  | _ => True

/-- How an outcome may look. -/
def Outcome.Gives (reply : Reply → Prop) (frames : Frame → Prop) : Outcome → Prop
  | .done r _ => reply r
  | .block _ frame => frames frame
  | .gone => False

theorem Outcome.Gives.mono {reply : Reply → Prop} {frames frames' : Frame → Prop} {o : Outcome}
    (h : o.Gives reply frames) (himp : ∀ frame, frames frame → frames' frame) : o.Gives reply frames' := by
  cases o with
  | done r out => exact h
  | block state frame => exact himp frame h
  | gone => exact h

theorem readReply_fail (count : ℕ) (e : Errno) : ReadReply count (.fail e) := .inr ⟨rfl, rfl⟩

theorem readReply_zero (count : ℕ) (e : Option ℤ) : ReadReply count ⟨0, [], e⟩ := .inl ⟨rfl, Nat.zero_le _⟩

theorem writeReply_fail (buffer : Bytes) (e : Errno) : WriteReply buffer (.fail e) := by
  constructor
  · exact le_refl _
  · show (-1 : ℤ) ≤ buffer.length
    omega

theorem writeReply_of_le {buffer : Bytes} {n : ℕ} {e : Option ℤ} (h : n ≤ buffer.length) :
    WriteReply buffer ⟨n, [], e⟩ := by
  constructor
  · show (-1 : ℤ) ≤ n
    omega
  · show (n : ℤ) ≤ buffer.length
    exact_mod_cast h

theorem pipeRead_gives (k : Kernel) (p : PipeId) (count : ℕ) :
    (pipeRead k p count).2.Gives (ReadReply count) fun frame => frame = .pipeRead p count := by
  rw [pipeRead]
  split
  · exact readReply_fail count .eio
  split
  · exact readReply_zero count _
  split
  · split
    · exact readReply_zero count _
    · rfl
  · rename_i pipe _ _ _
    have hlen : (pipeTake pipe (min count pipe.used)).length = min count pipe.used := by simp [pipeTake]
    refine .inl ⟨?_, ?_⟩
    · show ((min count pipe.used : ℕ) : ℤ) = _
      rw [hlen]
    · rw [hlen]
      exact Nat.min_le_left _ _

theorem pipeWriteLoop_gives (p : PipeId) (call : ℕ) (buffer : Bytes) (fuel : ℕ) :
    ∀ (k : Kernel) (total : ℕ), total ≤ buffer.length → (pipeWriteLoop p call buffer fuel k total).2.Gives
      (WriteReply buffer) fun frame => ∃ total, frame = .pipeWrite p call buffer total ∧ total ≤ buffer.length := by
  induction fuel with
  | zero => exact fun k total hle => ⟨total, rfl, hle⟩
  | succ fuel ih =>
    intro k total hle
    rw [pipeWriteLoop]
    split
    · exact writeReply_of_le hle
    split
    · exact writeReply_fail buffer .eio
    split
    · show WriteReply buffer ⟨if total = 0 then -1 else total, [], some Errno.epipe.code⟩
      split
      · exact writeReply_fail buffer .epipe
      · exact writeReply_of_le hle
    split
    · exact ⟨total, rfl, hle⟩
    · refine ih _ _ ?_
      rw [List.length_take, List.length_drop]
      omega

theorem consoleRead_gives (h : Host) (k : Kernel) (count : ℕ) :
    (consoleRead h k count).2.Gives (ReadReply count) fun frame => frame = .consoleRead count := by
  rw [consoleRead]
  split
  · exact readReply_zero count _
  split
  · rfl
  split
  · exact .inr ⟨rfl, rfl⟩
  · exact .inl ⟨rfl, List.length_take_le _ _⟩

theorem nodeRead_reply (h : Host) (file : OpenFile) (node : Node) (count : ℕ) :
    ReadReply count (nodeRead h file node count).2.2 := by
  rw [nodeRead]
  split
  · exact readReply_fail count .ebadf
  split
  · exact readReply_fail count .einval
  split
  · exact readReply_zero count _
  split
  · exact readReply_zero count _
  · refine .inl ⟨?_, ?_⟩
    · simp
    · simp

theorem nodeWrite_reply (h : Host) (file : OpenFile) (node : Node) (buffer : Bytes) :
    WriteReply buffer (nodeWrite h file node buffer).2.2 := by
  rw [nodeWrite]
  split
  · exact writeReply_fail buffer .ebadf
  split
  · exact writeReply_fail buffer .eperm
  split
  · exact writeReply_of_le (Nat.zero_le _)
  dsimp only
  split
  · exact writeReply_fail buffer .enospc
  split
  · exact writeReply_fail buffer .enomem
  · exact writeReply_of_le (le_refl _)

theorem consoleWrite_gives (h : Host) (buffer : Bytes) :
    (consoleWrite h buffer.length).Gives (WriteReply buffer) fun _ => False := by
  rw [consoleWrite]
  split
  · exact writeReply_of_le (Nat.zero_le _)
  split
  · refine ⟨?_, ?_⟩
    · exact le_refl _
    · show (-1 : ℤ) ≤ buffer.length
      omega
  split
  · exact writeReply_fail buffer .eio
  · rename_i hneg hbad
    refine ⟨?_, ?_⟩
    · show (-1 : ℤ) ≤ h.consoleWrite
      omega
    · show h.consoleWrite ≤ buffer.length
      omega

/-- A call is suspended in its own loop, with what it still has to do. -/
def Held (op : Op) (frame : Frame) : Prop := HeldIn op frame ∧ frame.bounded

theorem apiRead_gives (h : Host) (k : Kernel) (t : TaskId) (descriptor : ℤ) (count : ℕ) :
    (apiRead h k t descriptor count).2.Gives (ReadReply count) (Held (.read descriptor count)) := by
  rw [apiRead]
  split
  · exact readReply_fail count .ebadf
  dsimp only
  split
  · exact readReply_fail count .ebadf
  · exact readReply_fail count .ebadf
  · split
    · exact readReply_fail count .einval
    split
    · exact readReply_fail count .eio
    · exact nodeRead_reply h _ _ count
  · split
    · exact readReply_fail count .einval
    · refine (pipeRead_gives k _ count).mono fun frame hframe => ?_
      rw [hframe]
      exact ⟨.pipeRead, trivial⟩
  · split
    · exact readReply_fail count .einval
    · refine (consoleRead_gives h k count).mono fun frame hframe => ?_
      rw [hframe]
      exact ⟨.consoleRead, trivial⟩

theorem apiWrite_gives (h : Host) (k : Kernel) (t : TaskId) (descriptor : ℤ) (buffer : Bytes) :
    (apiWrite h k t descriptor buffer).2.Gives (WriteReply buffer) (Held (.write descriptor buffer)) := by
  rw [apiWrite]
  split
  · exact writeReply_fail buffer .ebadf
  dsimp only
  split
  · exact writeReply_fail buffer .ebadf
  · exact writeReply_fail buffer .ebadf
  · split
    · exact writeReply_fail buffer .einval
    split
    · exact writeReply_fail buffer .eio
    · exact nodeWrite_reply h _ _ buffer
  · split
    · exact writeReply_fail buffer .einval
    · refine (pipeWriteLoop_gives _ _ buffer _ _ 0 (Nat.zero_le _)).mono fun frame hframe => ?_
      obtain ⟨total, rfl, hle⟩ := hframe
      exact ⟨.pipeWrite, hle⟩
  · split
    · exact writeReply_fail buffer .einval
    · exact (consoleWrite_gives h buffer).mono fun frame hframe => hframe.elim

/-- A call answers honestly, and where it is suspended it has stored no more than its buffer. -/
theorem perform_done {h : Host} {op : Op} {reply : Reply} {out : Out} (hdone : (perform h k t op).2 = .done reply out) :
    Honest (.op op) reply := by
  cases op with
  | read descriptor count =>
    have hgives := apiRead_gives h k t descriptor count
    rw [show (apiRead h k t descriptor count).2 = .done reply out from hdone] at hgives
    exact hgives
  | write descriptor buffer =>
    have hgives := apiWrite_gives h k t descriptor buffer
    rw [show (apiWrite h k t descriptor buffer).2 = .done reply out from hdone] at hgives
    exact hgives
  | _ => trivial

theorem perform_held {h : Host} {op : Op} {state : TaskState} {frame : Frame} (hb : Base k (.rest l))
    (hc : k.current = some t) (hblock : (perform h k t op).2 = .block state frame) : Held op frame := by
  have hheld := perform_block hb hc hblock
  refine ⟨hheld, ?_⟩
  cases hheld with
  | @pipeWrite descriptor buffer p call total =>
    have hgives := apiWrite_gives h k t descriptor buffer
    rw [show (apiWrite h k t descriptor buffer).2 = .block state _ from hblock] at hgives
    exact hgives.2
  | _ => trivial

theorem performTable_done {h : Host} {c : TableCall} {reply : Reply} {out : Out}
    (hdone : (performTable h k t c).2 = .done reply out) : Honest c reply := by
  cases c with
  | op op => exact perform_done hdone
  | _ => trivial

theorem performTable_held {h : Host} {c : TableCall} {state : TaskState} {frame : Frame} (hb : Base k (.rest l))
    (hc : k.current = some t) (hblock : (performTable h k t c).2 = .block state frame) :
    ∃ op, c = .op op ∧ Held op frame := by
  by_cases hop : ∃ op, c = .op op
  · obtain ⟨op, rfl⟩ := hop
    exact ⟨op, rfl, perform_held hb hc hblock⟩
  · obtain ⟨reply, out, heq | ⟨environment, heq⟩⟩ := performTable_other h k t fun op heq => hop ⟨op, heq⟩
    · rw [heq] at hblock
      cases hblock
    · rw [heq] at hblock
      cases hblock

theorem Outcome.Stays.gives {reply : Reply → Prop} {frames : Frame → Prop} {o : Outcome} (h : o.Stays frames)
    (hreply : ∀ r, reply r) : o.Gives reply frames := by
  cases o with
  | done r out => exact hreply r
  | block state frame => exact h
  | gone => exact h

/-- A call that goes on answers as if it had not been suspended. -/
theorem goOn_gives (host : Host) (k : Kernel) (t : TaskId) {op : Op} {frame : Frame} (h : Held op frame) :
    (goOn host k t frame).2.Gives (Honest (.op op)) (Held op) := by
  obtain ⟨hheld, hbound⟩ := h
  cases hheld with
  | @pipeRead descriptor count p =>
    refine (pipeRead_gives k p count).mono fun frame hframe => ?_
    rw [hframe]
    exact ⟨.pipeRead, trivial⟩
  | @consoleRead descriptor count =>
    refine (consoleRead_gives host k count).mono fun frame hframe => ?_
    rw [hframe]
    exact ⟨.consoleRead, trivial⟩
  | @pipeWrite descriptor buffer p call total =>
    refine (pipeWriteLoop_gives p call buffer _ k total hbound).mono fun frame hframe => ?_
    obtain ⟨total', rfl, hle⟩ := hframe
    exact ⟨.pipeWrite, hle⟩
  | @waitpid pid =>
    refine ((apiWaitpid_stays k t pid).gives fun _ => trivial).mono fun frame hframe => ?_
    rw [hframe]
    exact ⟨.waitpid, trivial⟩
  | yield => trivial
  | @poll fds timeout =>
    refine ((pollLoop_stays host k t fds).gives fun _ => trivial).mono fun frame hframe => ?_
    rw [hframe]
    exact ⟨.poll, trivial⟩

/-! ### The turns of a task -/

/-- What a step of a recording is for the task `t`: a step of somebody else, a call, a round of the scheduler that
picks it, or the end of its `exec`. In a round, `task` is the task as the wake-ups leave it. -/
inductive Turn (t : TaskId) (r r' : Recording) : Prop
  | other : ((∃ task, r.kernel.task t = some task) → Gone t r'.kernel ∨ seatOf t r'.kernel = seatOf t r.kernel) →
      (r'.kernel.current = some t → r.kernel.current = some t) → r'.log t = r.log t → r'.pending t = r.pending t →
      r'.last t = r.last t → Turn t r r'
  | call (h : Host) (c : TableCall) : r.kernel.current = some t → r' = r.call h t c → Turn t r r'
  | interrupted (k' : Kernel) : ¬ Gone t r.kernel → Gone t k' → r' = { r with kernel := k' } → Turn t r r'
  | started (h : Host) (task : Task) : ¬ Gone t r.kernel → seatOf t r.kernel = some task.seat → task.frame = .entry →
      (roused h r.kernel).task t = some task →
      r' = { r with kernel := (dispatch (roused h r.kernel) t).setTask t fun task => { task with frame := .program } } →
      Turn t r r'
  | returned (h : Host) (k₃ k' : Kernel) (task : Task) (a : Answer) : ¬ Gone t r.kernel →
      seatOf t r.kernel = some task.seat → (roused h r.kernel).task t = some task →
      goOn h (dispatch (roused h r.kernel) t) t task.frame = (k₃, .done a.reply a.out) →
      (k' = deliver t (k₃, .done a.reply a.out) ∨ task.frame = .program ∧ k' = dispatch (roused h r.kernel) t) →
      r' = { r.answer t a with kernel := k' } → Turn t r r'
  | stays (h : Host) (k₃ : Kernel) (task : Task) (state : TaskState) (frame : Frame) : ¬ Gone t r.kernel →
      seatOf t r.kernel = some task.seat → (roused h r.kernel).task t = some task → task.frame ≠ .entry →
      goOn h (dispatch (roused h r.kernel) t) t task.frame = (k₃, .block state frame) →
      r' = { r with kernel := deliver t (k₃, .block state frame) } → Turn t r r'
  | replaced (h : Host) (k' : Kernel) : r.kernel.finishing = some t → step r.kernel (.finishExec h) = some k' →
      r' = { r with kernel := k' } → Turn t r r'

/-- What is noted about another task stays. -/
theorem Recording.call_other (r : Recording) (h : Host) (call : TableCall) (hne : t ≠ c) :
    (r.call h c call).log t = r.log t ∧ (r.call h c call).pending t = r.pending t ∧
      (r.call h c call).last t = r.last t := by
  rw [Recording.call]
  dsimp only
  split
  · exact ⟨Function.update_of_ne hne _ _, rfl, rfl⟩
  · exact ⟨rfl, Function.update_of_ne hne _ _, rfl⟩
  · exact ⟨rfl, rfl, Function.update_of_ne hne _ _⟩

theorem Recording.schedule_other (r : Recording) (h : Host) (k' : Kernel)
    (hne : pickRunnable (roused h r.kernel) ≠ some t) :
    (r.schedule h k').log t = r.log t ∧ (r.schedule h k').pending t = r.pending t ∧
      (r.schedule h k').last t = r.last t := by
  rw [Recording.schedule]
  split
  · exact ⟨rfl, rfl, rfl⟩
  rename_i c hpick
  have htc : t ≠ c := by
    intro heq
    rw [heq] at hne
    exact hne hpick
  split
  · exact ⟨Function.update_of_ne htc _ _, Function.update_of_ne htc _ _, rfl⟩
  · exact ⟨rfl, rfl, rfl⟩

/-- Any call of another task leaves the seat of a task alone, as long as the task is there. -/
theorem seatOf_call (h : Host) (call : TableCall) (hp : Poised k l) (hc : k.current = some c) (hne : t ≠ c)
    (hlive : ∃ task, k.task t = some task) :
    Gone t (deliver c (performTable h k c call)) ∨ seatOf t (deliver c (performTable h k c call)) = seatOf t k := by
  obtain ⟨task, ht⟩ := hlive
  have hmem : t ∈ k.order := (hp.base.roster.listed ht).resolve_right fun hl => by cases hl
  obtain ⟨gone, l', hend⟩ := performTable_ends h call hp.base hc
  have hmoves := deliver_moves hp.base hend rfl
  obtain ⟨collected, hleaves, -⟩ := (process_state_private k c h).1 call
  rcases hleaves.stillOf hp hmem hne with ⟨status, hexit⟩ | hstill
  · exact .inl ⟨status, hmoves.history_prefix.subset hexit⟩
  · exact .inr (quiet_seat.of_stillOf hstill)

theorem current_performTable (h : Host) (call : TableCall) (hp : Poised k l) (hc : k.current = some c) :
    (deliver c (performTable h k c call)).current = some c ∨ (deliver c (performTable h k c call)).current = none := by
  by_cases hop : ∃ op, call = .op op
  · obtain ⟨op, rfl⟩ := hop
    exact current_call h op hp hc
  · obtain ⟨reply, out, heq | ⟨environment, heq⟩⟩ := performTable_other h k c fun op heq => hop ⟨op, heq⟩
    · rw [heq]
      exact .inl ((current_deliver k reply out).trans hc)
    · rw [heq]
      exact .inl ((current_deliver _ reply out).trans hc)

/-- The rounds of the scheduler that pick the task. -/
theorem Recording.turn_of_round {h : Host} (hp : Poised r.kernel l) (hs : step r.kernel (.schedule h) = some k')
    (hpick : pickRunnable (roused h r.kernel) = some t) : Turn t r (r.schedule h k') := by
  obtain ⟨-, task, ht, -⟩ := pickRunnable_eq_some hpick
  have hk : scheduleRound h r.kernel = k' := (step_schedule hs).2.2.symm
  have hround := ownRound hpick ht
  have hlive : ¬ Gone t r.kernel := fun hgone => not_ownStep_of_gone (a := .schedule h) hp hgone hpick
  have hseat : seatOf t r.kernel = some task.seat := by
    rw [seatOf, ← quiet_seat.of_settled (settled_roused h t r.kernel), ht]
    rfl
  have hresumed : resumed h r.kernel t =
      if task.interrupted then none else some (goOn h (dispatch (roused h r.kernel) t) t task.frame) := by
    rw [resumed, if_pos hpick, ht]
  rw [hk] at hround
  rw [Recording.schedule, hpick]
  dsimp only
  rw [hresumed]
  cases hround with
  | interrupted hint hgone =>
    rw [if_pos hint]
    exact .interrupted k' hlive hgone rfl
  | started hint hentry =>
    rw [if_neg (by simp [hint]), hentry]
    exact .started h task hlive hseat hentry ht rfl
  | yielded hint hprogram =>
    rw [if_neg (by simp [hint]), hprogram]
    refine .returned h (dispatch (roused h r.kernel) t) _ task ⟨⟨0, [], none⟩, .none⟩ hlive hseat ht ?_ ?_ rfl
    · rw [hprogram]
      rfl
    · exact .inr ⟨hprogram, rfl⟩
  | resumed hint hentry hprogram =>
    rw [if_neg (by simp [hint])]
    have hstays := goOn_stays h (dispatch (roused h r.kernel) t) t hentry
    cases hgo : goOn h (dispatch (roused h r.kernel) t) t task.frame with
    | mk k₃ o =>
      rw [hgo] at hstays
      cases o with
      | done reply out =>
        rw [← hgo]
        exact .returned h k₃ _ task ⟨reply, out⟩ hlive hseat ht hgo (.inl (congrArg (deliver t) hgo)) (by rw [hgo])
      | block state frame => exact .stays h k₃ task state frame hlive hseat ht hentry hgo rfl
      | gone => exact hstays.elim

theorem Recording.Step.turn (hp : Poised r.kernel l) (hs : r.Step r') (t : TaskId) : Turn t r r' := by
  cases hs with
  | @call c h call _ hc =>
    by_cases hct : c = t
    · rw [hct] at hc ⊢
      exact .call h call hc rfl
    · have hne : t ≠ c := fun heq => hct heq.symm
      obtain ⟨hlog, hpending, hlast⟩ := r.call_other h call hne
      refine .other ?_ ?_ hlog hpending hlast
      · rw [Recording.call_kernel]
        exact seatOf_call h call hp hc hne
      · rw [Recording.call_kernel]
        intro hcur
        rcases current_performTable h call hp hc with hsome | hnone
        · rw [hsome] at hcur
          exact absurd (Option.some.inj hcur) hct
        · rw [hnone] at hcur
          cases hcur
  | @schedule k' h hs =>
    by_cases hpick : pickRunnable (roused h r.kernel) = some t
    · exact Recording.turn_of_round hp hs hpick
    · have hother : ¬ ownStep t r.kernel (.schedule h) := hpick
      obtain ⟨hlog, hpending, hlast⟩ := r.schedule_other h k' hpick
      refine .other ?_ ?_ hlog hpending hlast
      · rw [Recording.schedule_kernel]
        rintro ⟨task, ht⟩
        exact (quiet_seat.step hp ht hother hs).imp id And.left
      · rw [Recording.schedule_kernel]
        exact (aside_step hp hs hother).current
  | @silent k' a ha hs =>
    by_cases hown : ownStep t r.kernel a
    · cases a with
      | finishExec h => exact .replaced h k' hown hs rfl
      | call | schedule => cases ha
      | _ => cases hown
    · refine .other ?_ (aside_step hp hs hown).current rfl rfl rfl
      rintro ⟨task, ht⟩
      exact (quiet_seat.step hp ht hown hs).imp id And.left

/-! ### What is noted of a task fits its state -/

/-- The task is suspended in the call. -/
def SuspendedIn (t : TaskId) (op : Op) (k : Kernel) : Prop :=
  k.current ≠ some t ∧ ∃ task, k.task t = some task ∧ Held op task.frame ∧ task.pendingExecutableNode = none

structure Synced (t : TaskId) (r : Recording) : Prop where
  pending : ∀ c, r.pending t = some c → Gone t r.kernel ∨ ∃ op, c = .op op ∧ SuspendedIn t op r.kernel
  last : ∀ status, r.last t = some (.op (.exit status)) → Gone t r.kernel
  honest : ∀ e ∈ r.log t, Honest e.1 e.2.reply

theorem Poised.current_stays (hp : Poised k l) (hc : k.current = some t) : ¬ Gone t k :=
  fun hgone => not_ownStep_of_gone (a := .call .calm .yield) hp hgone hc

theorem Synced.not_pending (h : Synced t r) (hp : Poised r.kernel l) (hc : r.kernel.current = some t) :
    r.pending t = none := by
  cases hpend : r.pending t with
  | none => rfl
  | some c =>
    rcases h.pending c hpend with hgone | ⟨op, -, hcur, -⟩
    · exact absurd hgone (hp.current_stays hc)
    · exact absurd hc hcur

/-- A task that is picked is suspended in the call that is noted. -/
theorem Synced.held {task : Task} {call : TableCall} (h : Synced t r) (hlive : ¬ Gone t r.kernel)
    (hseat : seatOf t r.kernel = some task.seat) (hpend : r.pending t = some call) :
    ∃ op, call = .op op ∧ Held op task.frame ∧ task.pendingExecutableNode = none := by
  obtain ⟨op, rfl, -, task', ht', hheld, hnone⟩ := (h.pending call hpend).resolve_left hlive
  rw [seatOf, ht', Option.map_some, Option.some.injEq] at hseat
  have hframe : task'.frame = task.frame := congrArg (fun seat => seat.2.1) hseat
  have hnode : task'.pendingExecutableNode = task.pendingExecutableNode := congrArg (fun seat => seat.2.2) hseat
  rw [hframe] at hheld
  rw [hnode] at hnone
  exact ⟨op, rfl, hheld, hnone⟩

/-- What has gone stays away. -/
theorem Recording.Step.gone (hp : Poised r.kernel l) (hs : r.Step r') (h : Gone t r.kernel) : Gone t r'.kernel := by
  cases hs with
  | call host call _ hc =>
    rw [Recording.call_kernel]
    obtain ⟨status, hexit⟩ := h
    obtain ⟨gone, l', hend⟩ := performTable_ends host call hp.base hc
    have hmoves := deliver_moves hp.base hend rfl
    exact ⟨status, hmoves.history_prefix.subset hexit⟩
  | schedule host hs =>
    rw [Recording.schedule_kernel]
    exact hp.gone_step hs h
  | silent _ hs => exact hp.gone_step hs h

theorem Recording.call_done {h : Host} {call : TableCall} {reply : Reply} {out : Out}
    (hdone : (performTable h r.kernel t call).2 = .done reply out) :
    r.call h t call = { r with
      kernel := deliver t (performTable h r.kernel t call)
      log := Function.update r.log t (r.log t ++ [(call, ⟨reply, out⟩)]) } := by
  rw [Recording.call, hdone]

theorem Recording.call_block {h : Host} {call : TableCall} {state : TaskState} {frame : Frame}
    (hblock : (performTable h r.kernel t call).2 = .block state frame) :
    r.call h t call = { r with
      kernel := deliver t (performTable h r.kernel t call)
      pending := Function.update r.pending t (some call) } := by
  rw [Recording.call, hblock]

theorem Recording.call_gone {h : Host} {call : TableCall} (hgone : (performTable h r.kernel t call).2 = .gone) :
    r.call h t call = { r with
      kernel := deliver t (performTable h r.kernel t call)
      last := Function.update r.last t ((r.last t).or (some call)) } := by
  rw [Recording.call, hgone]

/-- A task that is suspended with its table and its program as they were. -/
theorem suspendedIn_deliver {k₃ : Kernel} {op : Op} {state : TaskState} {frame : Frame} {gear : Table × Option NodeId}
    (hheld : Held op frame) (hgear : (k₃.task t).map Task.gear = some gear) (hnone : gear.2 = none) :
    SuspendedIn t op (deliver t (k₃, .block state frame)) := by
  obtain ⟨task, ht, heq⟩ := Option.map_eq_some_iff.mp hgear
  refine ⟨by simp [deliver, cbTaskYieldAs], _, Kernel.task_setTask_self _ ht, hheld, ?_⟩
  rw [← heq] at hnone
  exact hnone

theorem suspendedIn_call {h : Host} {call : TableCall} {state : TaskState} {frame : Frame} (hp : Poised k l)
    (hc : k.current = some t) (hblock : (performTable h k t call).2 = .block state frame) :
    ∃ op, call = .op op ∧ SuspendedIn t op (deliver t (performTable h k t call)) := by
  obtain ⟨op, hop, hheld⟩ := performTable_held hp.base hc hblock
  obtain ⟨-, hgear, -⟩ := performTable_block hp.base hc hblock
  obtain ⟨-, task, ht, hrun⟩ := hp.base.roster.current hc
  have hpend : task.pendingExecutableNode = none := (hp.base.orderly t task ht).pending (by rw [hrun]; decide)
  rw [ht, Option.map_some] at hgear
  refine ⟨op, hop, ?_⟩
  generalize performTable h k t call = result at hblock hgear ⊢
  obtain ⟨k₃, o⟩ := result
  cases hblock
  exact suspendedIn_deliver hheld hgear hpend

/-- The call of a task goes on and is suspended again. -/
theorem suspendedIn_goOn {h : Host} {task : Task} {op : Op} {state : TaskState} {frame : Frame} {k₁ k₃ : Kernel}
    (hheld : Held op task.frame) (ht : k₁.task t = some task) (hnone : task.pendingExecutableNode = none)
    (hgo : goOn h k₁ t task.frame = (k₃, .block state frame)) :
    SuspendedIn t op (deliver t (k₃, .block state frame)) := by
  have hentry : task.frame ≠ .entry := by
    intro hentry
    rw [hentry] at hheld
    cases hheld.1
  have hgives := goOn_gives h k₁ t hheld
  rw [hgo] at hgives
  obtain ⟨-, hgear, -⟩ := goOn_block hentry (congrArg Prod.snd hgo)
  rw [hgo, ht, Option.map_some] at hgear
  exact suspendedIn_deliver hgives hgear hnone

/-- A step of somebody else leaves the notes as they are and the task where it is. -/
theorem Synced.other (h : Synced t r) (hgone : Gone t r.kernel → Gone t r'.kernel)
    (hseat : (∃ task, r.kernel.task t = some task) → Gone t r'.kernel ∨ seatOf t r'.kernel = seatOf t r.kernel)
    (hcur : r'.kernel.current = some t → r.kernel.current = some t) (hlog : r'.log t = r.log t)
    (hpending : r'.pending t = r.pending t) (hlast : r'.last t = r.last t) : Synced t r' := by
  refine ⟨?_, ?_, ?_⟩
  · intro call hcall
    rw [hpending] at hcall
    rcases h.pending call hcall with hg | ⟨op, rfl, hne, task, ht, hheld, hnone⟩
    · exact .inl (hgone hg)
    rcases hseat ⟨task, ht⟩ with hg | hsame
    · exact .inl hg
    · rw [seatOf, seatOf, ht, Option.map_some] at hsame
      obtain ⟨task', ht', heq⟩ := Option.map_eq_some_iff.mp hsame
      have hframe : task'.frame = task.frame := congrArg (fun seat => seat.2.1) heq
      have hnode : task'.pendingExecutableNode = task.pendingExecutableNode := congrArg (fun seat => seat.2.2) heq
      refine .inr ⟨op, rfl, fun hc => hne (hcur hc), task', ht', ?_, hnode.trans hnone⟩
      rw [hframe]
      exact hheld
  · intro status hstatus
    rw [hlast] at hstatus
    exact hgone (h.last status hstatus)
  · rw [hlog]
    exact h.honest

/-- A call of the task is noted with its answer, as pending, or as the last one. -/
theorem Synced.call (h : Synced t r) (hp : Poised r.kernel l) (hc : r.kernel.current = some t) (host : Host)
    (call : TableCall) : Synced t (r.call host t call) := by
  have hidle := h.not_pending hp hc
  have hstay := hp.current_stays hc
  cases hout : (performTable host r.kernel t call).2 with
  | done reply out =>
    rw [Recording.call_done hout]
    refine ⟨?_, ?_, ?_⟩
    · intro call' hcall
      rw [show r.pending t = some call' from hcall] at hidle
      cases hidle
    · intro status hstatus
      exact absurd (h.last status hstatus) hstay
    · intro e he
      simp only [Function.update_self, List.mem_append, List.mem_singleton] at he
      rcases he with he | rfl
      · exact h.honest e he
      · exact performTable_done hout
  | block state frame =>
    rw [Recording.call_block hout]
    refine ⟨?_, ?_, h.honest⟩
    · intro call' hcall
      simp only [Function.update_self, Option.some.injEq] at hcall
      subst hcall
      exact .inr (suspendedIn_call hp hc hout)
    · intro status hstatus
      exact absurd (h.last status hstatus) hstay
  | gone =>
    rw [Recording.call_gone hout]
    refine ⟨?_, ?_, h.honest⟩
    · intro call' hcall
      rw [show r.pending t = some call' from hcall] at hidle
      cases hidle
    · intro status hstatus
      simp only [Function.update_self] at hstatus
      cases hlast : r.last t with
      | some call' =>
        rw [hlast, Option.or_some, Option.getD_some] at hstatus
        exact absurd (h.last status (hlast.trans hstatus)) hstay
      | none =>
        rw [hlast, Option.none_or, Option.some.injEq] at hstatus
        obtain ⟨-, task, ht, -⟩ := hp.base.roster.current hc
        simp only [hstatus, performTable, perform, deliver]
        exact gone_apiExit ht

/-- **Notes.**  A step of a recording keeps the notes in step with the kernel. -/
theorem Synced.step (h : Synced t r) (hp : Poised r.kernel l) (hs : r.Step r') : Synced t r' := by
  have hturn := hs.turn hp t
  cases hturn with
  | other hseat hcur hlog hpending hlast => exact h.other (hs.gone hp) hseat hcur hlog hpending hlast
  | call host call hc heq =>
    rw [heq]
    exact h.call hp hc host call
  | interrupted k' hlive hg heq =>
    subst heq
    exact ⟨fun _ _ => .inl hg, fun _ _ => hg, h.honest⟩
  | started host task hlive hseat hentry ht heq =>
    subst heq
    refine ⟨?_, fun status hstatus => absurd (h.last status hstatus) hlive, h.honest⟩
    intro call hcall
    obtain ⟨op, -, hheld, -⟩ := h.held hlive hseat hcall
    rw [hentry] at hheld
    cases hheld.1
  | returned host k₃ k' task a hlive hseat ht hgo hk heq =>
    subst heq
    refine ⟨?_, fun status hstatus => absurd (h.last status hstatus) hlive, ?_⟩
    · intro call hcall
      simp [Recording.answer] at hcall
    · intro e he
      simp only [Recording.answer, Function.update_self, List.mem_append] at he
      rcases he with he | he
      · exact h.honest e he
      · obtain ⟨call, hcall, rfl⟩ := List.mem_map.mp he
        obtain ⟨op, rfl, hheld, -⟩ := h.held hlive hseat (Option.mem_toList.mp hcall)
        have hgives := goOn_gives host (dispatch (roused host r.kernel) t) t hheld
        rw [hgo] at hgives
        exact hgives
  | stays host k₃ task state frame hlive hseat ht hentry hgo heq =>
    subst heq
    refine ⟨?_, fun status hstatus => absurd (h.last status hstatus) hlive, h.honest⟩
    intro call hcall
    obtain ⟨op, rfl, hheld, hnone⟩ := h.held hlive hseat hcall
    have ht₁ : (dispatch (roused host r.kernel) t).task t = some { task with state := .running } :=
      Kernel.task_setTask_self _ ht
    have hframe : Held op ({ task with state := .running } : Task).frame := hheld
    exact .inr ⟨op, rfl, suspendedIn_goOn hframe ht₁ hnone hgo⟩
  | replaced host k' hfin hs' heq =>
    have hlive : ¬ Gone t r.kernel := fun hg => not_ownStep_of_gone (a := .finishExec host) hp hg hfin
    subst heq
    refine ⟨?_, fun status hstatus => absurd (h.last status hstatus) hlive, h.honest⟩
    intro call hcall
    obtain ⟨op, -, -, task, ht, -, hnone⟩ := (h.pending call hcall).resolve_left hlive
    exact absurd hnone (hp.pledged t task hfin ht)

theorem Recorded.synced (h₀ : Attained k₀) (hr : Recorded k₀ r) (t : TaskId) : Attained r.kernel ∧ Synced t r := by
  induction hr with
  | start =>
    refine ⟨h₀, ⟨?_, ?_, ?_⟩⟩
    · intro c hc
      cases hc
    · intro status hlast
      cases hlast
    · intro e he
      cases he
  | step _ hs ih =>
    obtain ⟨hatt, hsync⟩ := ih
    obtain ⟨l, hp⟩ := hatt.poised
    exact ⟨hs.attained hatt, hsync.step hp hs⟩

/-! ### Bytes that were moved -/

/-- The bytes a call read from the descriptor. -/
def readBy (d : ℤ) (e : TableCall × Answer) : Bytes :=
  match e.1 with
  | .op (.read descriptor _) => if descriptor = d then e.2.reply.data else []
  | _ => []

/-- The bytes a call passes to the descriptor. -/
def passedTo (d : ℤ) : TableCall → Bytes
  | .op (.write descriptor buffer) => if descriptor = d then buffer else []
  | _ => []

/-- The bytes a call wrote to the descriptor. -/
def writtenBy (d : ℤ) (e : TableCall × Answer) : Bytes := (passedTo d e.1).take e.2.value.toNat

def bytesRead (d : ℤ) (log : CallLog) : Bytes := log.flatMap (readBy d)

def bytesWritten (d : ℤ) (log : CallLog) : Bytes := log.flatMap (writtenBy d)

@[simp]
theorem bytesRead_snoc (d : ℤ) (log : CallLog) (e : TableCall × Answer) :
    bytesRead d (log ++ [e]) = bytesRead d log ++ readBy d e := by
  simp [bytesRead]

@[simp]
theorem bytesWritten_snoc (d : ℤ) (log : CallLog) (e : TableCall × Answer) :
    bytesWritten d (log ++ [e]) = bytesWritten d log ++ writtenBy d e := by
  simp [bytesWritten]

/-- The bytes of the write the task is suspended in. -/
def Recording.passing (r : Recording) (d : ℤ) (t : TaskId) : Bytes := (r.pending t).elim [] (passedTo d)

/-- A read of the descriptor has reached the end of the file. -/
def SawEnd (d : ℤ) (log : CallLog) : Prop := ∃ count a, (.op (.read d count), a) ∈ log ∧ 0 < count ∧ a.value = 0

/-! ### Recordings that are computed -/

/-- A step on a calm host: a call of the running task, or a round of the scheduler. -/
inductive Cue
  | call (c : TableCall)
  | round

def Recording.cue (r : Recording) : Cue → Option Recording
  | .call c => if r.kernel.fatal = none then r.kernel.current.map fun t => r.call .calm t c else none
  | .round => (step r.kernel (.schedule .calm)).map fun k' => r.schedule .calm k'

theorem Recording.step_of_cue {cue : Cue} (h : r.cue cue = some r') : r.Step r' := by
  cases cue with
  | call c =>
    rw [Recording.cue] at h
    split at h
    · rename_i hfatal
      obtain ⟨t, hc, heq⟩ := Option.map_eq_some_iff.mp h
      rw [← heq]
      exact .call .calm c hfatal hc
    · cases h
  | round =>
    obtain ⟨k', hs, heq⟩ := Option.map_eq_some_iff.mp h
    rw [← heq]
    exact .schedule .calm hs

/-- The recording after a list of steps; it ends before one that is not possible. -/
def Recording.play (r : Recording) : List Cue → Recording
  | [] => r
  | cue :: cues => ((r.cue cue).map fun r' => r'.play cues).getD r

theorem Recorded.play (hr : Recorded k₀ r) (cues : List Cue) : Recorded k₀ (r.play cues) := by
  induction cues generalizing r with
  | nil => exact hr
  | cons cue cues ih =>
    rw [Recording.play]
    cases hcue : r.cue cue with
    | none => exact hr
    | some r' => exact ih (hr.step (r.step_of_cue hcue))

end CannedBsd
