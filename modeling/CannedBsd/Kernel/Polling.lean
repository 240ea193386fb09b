import CannedBsd.Kernel.Possessions
import CannedBsd.Kernel.Session

/-!
# Poll

A call of `api_poll` looks at its descriptors, and if it finds nothing it sleeps and looks again when
somebody wakes it. The start and the timeout of the call stand in two fields of its task, where the
scheduler finds them: it wakes the task at the deadline, and when nobody can run it asks the host to wait
no longer than until the first deadline.

The clock goes on from step to step. What a call returns is compared with what its descriptors show at
that moment, and with the time at which it was made.

* `apiPoll_truthful`: a call that returns at once says the truth.
* `Punctual.returns`: so does a call that returns in a round of the scheduler, and zero only when its time is
  over.
* `Punctual.waits`: no wait of the scheduler is longer than the remaining time of a task with a deadline.
* `poll_truthful_and_timely`: the three together, in every run with a clock that goes on.
-/

namespace CannedBsd

open CannedBsd.Lib

variable {k k' : Kernel} {t : TaskId} {l : NodeId → ℕ}

/-! ### What a descriptor shows -/

/-- A read from the open file would not wait; `input` says whether the console has input. -/
def Readable (k : Kernel) (input : Prop) (file : OpenFile) : Prop :=
  match file.object with
  | .node _ => file.flags.access ≠ .wronly
  | .pipeRead p => ∃ pipe, k.pipes.get p = some pipe ∧ (pipe.used ≠ 0 ∨ pipe.writers = 0)
  | .pipeWrite _ => False
  | .consoleInput => input
  | .consoleOutput _ => False

/-- A write to the open file would not wait. -/
def Writable (k : Kernel) (file : OpenFile) : Prop :=
  match file.object with
  | .node _ => file.flags.access ≠ .rdonly
  | .pipeRead _ => False
  | .pipeWrite p => ∃ pipe, k.pipes.get p = some pipe ∧ (pipe.used < cbPipeBytes ∨ pipe.readers = 0)
  | .consoleInput => False
  | .consoleOutput _ => True

/-- The open file reads from a pipe without writers. -/
def HungUp (k : Kernel) (file : OpenFile) : Prop :=
  ∃ p pipe, file.object = .pipeRead p ∧ k.pipes.get p = some pipe ∧ pipe.writers = 0

/-- The open file writes to a pipe without readers. -/
def Unheard (k : Kernel) (file : OpenFile) : Prop :=
  ∃ p pipe, file.object = .pipeWrite p ∧ k.pipes.get p = some pipe ∧ pipe.readers = 0

/-- The `revents` of an entry that nothing happened to. -/
def PollResult.clear : PollResult := ⟨.none, false⟩

/-- The `revents` of an entry are those that the descriptor table and the object behind the descriptor
imply. -/
structure Reports (k : Kernel) (t : TaskId) (input : Prop) (entry : PollFd) (result : PollResult) : Prop where
  ignored : entry.fd < 0 → result = .clear
  closed : 0 ≤ entry.fd → (∀ d : Fin cbMaxFds, (d : ℤ) = entry.fd → k.slot t d = none) → result = ⟨.none, true⟩
  live : ∀ (d : Fin cbMaxFds) slot, (d : ℤ) = entry.fd → k.slot t d = some slot → ∃ file, k.files.get slot.file = some file
  opened : ∀ (d : Fin cbMaxFds) slot file, (d : ℤ) = entry.fd → k.slot t d = some slot →
    k.files.get slot.file = some file → result.invalid = false ∧
      (result.mask.read = true ↔ entry.pollIn = true ∧ Readable k input file) ∧
      (result.mask.write = true ↔ entry.pollOut = true ∧ Writable k file) ∧
      (result.mask.hup = true ↔ HungUp k file) ∧ (result.mask.err = true ↔ Unheard k file)

theorem fdSlot_eq_some_iff {descriptor : ℤ} {d : Fin cbMaxFds} : fdSlot descriptor = some d ↔ (d : ℤ) = descriptor := by
  rw [fdSlot]
  have hd := d.isLt
  constructor
  · intro h
    split at h
    · cases h
      simp only
      omega
    · cases h
  · intro h
    have hrange : 0 ≤ descriptor ∧ descriptor < cbMaxFds := by omega
    rw [dif_pos hrange, Option.some.injEq]
    apply Fin.ext
    simp only
    omega

/-- The four bits that `ops->poll` reports. -/
theorem filePoll_reports (k : Kernel) (input : Prop) [Decidable input] (file : OpenFile) (pollIn pollOut : Bool) :
    ((filePoll k (decide input) file ⟨pollIn, pollOut, false, false⟩).read = true ↔
        pollIn = true ∧ Readable k input file) ∧
      ((filePoll k (decide input) file ⟨pollIn, pollOut, false, false⟩).write = true ↔
        pollOut = true ∧ Writable k file) ∧
      ((filePoll k (decide input) file ⟨pollIn, pollOut, false, false⟩).hup = true ↔ HungUp k file) ∧
      ((filePoll k (decide input) file ⟨pollIn, pollOut, false, false⟩).err = true ↔ Unheard k file) := by
  unfold filePoll Readable Writable HungUp Unheard
  cases hobject : file.object with
  | node n => simp [nodePoll]
  | pipeRead p =>
    cases hp : k.pipes.get p with
    | none => simp [hp, PollMask.none]
    | some pipe => simp [hp, pipeReadPoll]
  | pipeWrite p =>
    cases hp : k.pipes.get p with
    | none => simp [hp, PollMask.none]
    | some pipe => simp [hp, pipeWritePoll]
  | consoleInput => simp [PollMask.none]
  | consoleOutput s => simp [PollMask.none]

/-- No descriptor of the task dangles. -/
def Anchored (k : Kernel) (t : TaskId) : Prop :=
  ∀ d slot, k.slot t d = some slot → ∃ file, k.files.get slot.file = some file

theorem pollEntry_reports (hlive : Anchored k t) (input : Prop) [Decidable input] (entry : PollFd) :
    Reports k t input entry (pollEntry k t (decide input) entry) := by
  refine ⟨?_, ?_, fun d slot _ hslot => hlive d slot hslot, ?_⟩
  · intro hneg
    exact if_pos hneg
  · intro hpos hclosed
    have hnone : fileOf k t entry.fd = none := by
      refine fileOf_eq_none ?_
      intro d hd
      exact hclosed d (fdSlot_eq_some_iff.mp hd)
    rw [pollEntry, if_neg (by omega), hnone]
  · intro d slot file hd hslot hfile
    have hof : fileOf k t entry.fd = some (slot.file, file) := by
      rw [fileOf, fdSlot_eq_some_iff.mpr hd]
      dsimp only
      rw [hslot]
      dsimp only
      rw [hfile]
      rfl
    rw [pollEntry, if_neg (by omega), hof]
    exact ⟨rfl, filePoll_reports k input file entry.pollIn entry.pollOut⟩

theorem ready_iff (result : PollResult) : result.ready = true ↔ result ≠ .clear := by
  obtain ⟨mask, invalid⟩ := result
  simp [PollResult.ready, PollResult.clear]
  tauto

/-! ### What a call returns -/

/-- A call of `api_poll` and the time at which it was made. -/
structure PollCall where
  fds : List PollFd
  timeout : ℤ
  start : ℕ
  deriving DecidableEq

/-- What a return of the call may say at this moment: the results are true and counted, and the count is
zero only when nothing is ready and the call was not to wait any longer. -/
structure Truthful (h : Host) (k : Kernel) (t : TaskId) (call : PollCall) (value : ℤ) (results : List PollResult) :
    Prop where
  length : results.length = call.fds.length
  reports : ∀ i entry result, call.fds[i]? = some entry → results[i]? = some result →
    Reports k t (0 < h.consolePoll (i + 1)) entry result
  counted : value = results.countP fun result => decide (result ≠ .clear)
  unready : value = 0 → ∀ result ∈ results, result = .clear
  due : value = 0 → call.timeout = 0 ∨ 0 < call.timeout ∧ call.start + call.timeout ≤ h.monotonic 1
  patient : call.timeout < 0 → value ≠ 0

theorem length_pollScan (h : Host) (k : Kernel) (t : TaskId) (fds : List PollFd) :
    (pollScan h k t fds).length = fds.length := by
  rw [pollScan, List.length_mapIdx]

theorem pollScan_reports (h : Host) (hlive : Anchored k t) (fds : List PollFd) {i : ℕ} {entry : PollFd}
    {result : PollResult} (hentry : fds[i]? = some entry) (hresult : (pollScan h k t fds)[i]? = some result) :
    Reports k t (0 < h.consolePoll (i + 1)) entry result := by
  rw [pollScan, List.getElem?_mapIdx, hentry, Option.map_some, Option.some.injEq] at hresult
  rw [← hresult]
  exact pollEntry_reports hlive _ entry

theorem countP_ready (results : List PollResult) :
    results.countP PollResult.ready = results.countP fun result => decide (result ≠ .clear) := by
  refine List.countP_congr ?_
  intro result _
  rw [ready_iff, decide_eq_true_iff]

/-- A return with the results of a scan says the truth, if it is due when the scan found nothing. -/
theorem truthful_pollScan {h : Host} {call : PollCall} {value : ℤ} (hlive : Anchored k t)
    (hvalue : value = ((pollScan h k t call.fds).countP PollResult.ready : ℕ))
    (hdue : value = 0 → call.timeout = 0 ∨ 0 < call.timeout ∧ call.start + call.timeout ≤ h.monotonic 1) :
    Truthful h k t call value (pollScan h k t call.fds) := by
  refine ⟨length_pollScan h k t call.fds, ?_, ?_, ?_, hdue, ?_⟩
  · intro i entry result hentry hresult
    exact pollScan_reports h hlive call.fds hentry hresult
  · rw [hvalue, countP_ready]
  · intro hzero result hmem
    have hcount : (pollScan h k t call.fds).countP PollResult.ready = 0 := by omega
    have hnot := List.countP_eq_zero.mp hcount result hmem
    rw [ready_iff] at hnot
    exact not_not.mp hnot
  · intro hnegative hzero
    have := hdue hzero
    omega

/-- `current - start` does not wrap when the clock has gone on. -/
theorem elapsed_of_le {current start : ℕ} (hle : start ≤ current) (hfits : current < 2 ^ 64) :
    elapsed current start = current - start := by
  rw [elapsed]
  have hsum : current + 2 ^ 64 - start = current - start + 2 ^ 64 := by omega
  rw [hsum, Nat.add_mod_right, Nat.mod_eq_of_lt (by omega)]

/-! ### The clock -/

/-- The clock is never zero and goes on from `now`. -/
structure Timely (now : ℕ) (h : Host) : Prop where
  nonzero : 0 < h.monotonic 0
  onward : now ≤ h.monotonic 0
  within : h.monotonic 0 ≤ h.monotonic 1
  fits : h.monotonic 1 < 2 ^ 64

/-- The fields of the task hold the timeout and the start of the call. -/
structure Stamped (now : ℕ) (task : Task) (call : PollCall) : Prop where
  bound : call.fds.length ≤ cbMaxFds
  timeout : task.wakeTimeout = call.timeout
  int : call.timeout ≤ intMax
  start : 0 < call.timeout → task.wakeStart = call.start
  past : call.start ≤ now

/-- What the loop of `api_poll` returns at this moment is the truth. -/
theorem pollLoop_truthful {h : Host} {task : Task} {call : PollCall} {r : Reply} {out : Out} {now : ℕ}
    (hlive : Anchored k t) (ht : k.task t = some task) (hcall : Stamped (h.monotonic 0) task call)
    (hclock : Timely now h) (hdone : (pollLoop h k t call.fds).2 = .done r out) :
    ∃ results, out = .revents results ∧ Truthful h k t call r.value results := by
  have hpast : call.start ≤ h.monotonic 1 := hcall.past.trans hclock.within
  rw [pollLoop, ht] at hdone
  dsimp only at hdone
  split at hdone
  · rename_i hready
    cases hdone
    refine ⟨_, rfl, truthful_pollScan hlive rfl fun hzero => .inl ?_⟩
    have hzero' : (pollScan h k t call.fds).countP PollResult.ready = 0 := Int.ofNat_eq_zero.mp hzero
    rw [← hcall.timeout]
    exact hready.resolve_left (by omega)
  rename_i hnone
  split at hdone
  · rename_i hlost
    have hpositive := hclock.nonzero.trans_le hclock.within
    omega
  split at hdone
  · rename_i hexpired
    cases hdone
    have hcount : (pollScan h k t call.fds).countP PollResult.ready = 0 := by omega
    refine ⟨_, rfl, truthful_pollScan hlive (by rw [hcount]; rfl) fun _ => .inr ?_⟩
    obtain ⟨hpositive, hpassed⟩ := hexpired
    rw [hcall.timeout] at hpositive hpassed
    rw [hcall.start hpositive, elapsed_of_le hpast hclock.fits] at hpassed
    exact ⟨hpositive, by omega⟩
  · cases hdone

theorem Stamped.mono {now now' : ℕ} {task : Task} {call : PollCall} (h : Stamped now task call) (hle : now ≤ now') :
    Stamped now' task call := ⟨h.bound, h.timeout, h.int, h.start, h.past.trans hle⟩

/-- What `api_poll` notes down before it looks at the descriptors. -/
def stamp (h : Host) (timeout : ℤ) (task : Task) : Task :=
  if 0 < timeout then { task with wakeStart := h.monotonic 0, wakeTimeout := timeout }
  else { task with wakeTimeout := timeout }

theorem apiPoll_eq {h : Host} {fds : List PollFd} {timeout : ℤ} (hlen : fds.length ≤ cbMaxFds)
    (hclock : 0 < h.monotonic 0) : apiPoll h k t fds timeout = pollLoop h (k.setTask t (stamp h timeout)) t fds := by
  rw [apiPoll, if_neg (by omega)]
  by_cases hpositive : 0 < timeout
  · rw [if_pos hpositive]
    dsimp only
    rw [if_neg (by omega)]
    have hstamp : (fun task : Task => { { task with wakeStart := h.monotonic 0 } with wakeTimeout := timeout }) =
        stamp h timeout := by
      funext task
      rw [stamp, if_pos hpositive]
    simp only [Kernel.setTask, Heap.modify_modify, ← hstamp]
    rfl
  · rw [if_neg hpositive]
    have hstamp : (fun task : Task => { task with wakeTimeout := timeout }) = stamp h timeout := by
      funext task
      rw [stamp, if_neg hpositive]
    rw [hstamp]

theorem stamped_stamp {h : Host} {fds : List PollFd} {timeout : ℤ} (hlen : fds.length ≤ cbMaxFds)
    (hint : timeout ≤ intMax) (task : Task) : Stamped (h.monotonic 0) (stamp h timeout task) ⟨fds, timeout, h.monotonic 0⟩ := by
  refine ⟨hlen, ?_, hint, fun hpositive => ?_, le_refl _⟩
  · rw [stamp]
    split <;> rfl
  · rw [stamp, if_pos hpositive]

theorem Anchored.of_same (h : Anchored k t) (hslot : k'.slot t = k.slot t) (hfiles : k'.files = k.files) :
    Anchored k' t := by
  intro d slot hd
  rw [hslot] at hd
  rw [hfiles]
  exact h d slot hd

theorem Base.anchored {fl : Flight} (hb : Base k fl) (t : TaskId) : Anchored k t := by
  intro d slot hd
  obtain ⟨task, ht, hslot⟩ := Option.bind_eq_some_iff.mp hd
  exact hb.books.slot_live ht hslot

theorem slot_stamp (h : Host) (timeout : ℤ) : (k.setTask t (stamp h timeout)).slot t = k.slot t := by
  funext d
  have hsame : (fun task : Task => task.descriptors d) ∘ stamp h timeout = fun task => task.descriptors d := by
    funext task
    simp only [Function.comp, stamp]
    split <;> rfl
  rw [Kernel.slot, Kernel.slot, Kernel.task_setTask, if_pos rfl, Option.bind_map, hsame]

/-- **At once.**  A call of `api_poll` that returns without waiting says the truth. -/
theorem apiPoll_truthful {h : Host} {fds : List PollFd} {timeout : ℤ} {r : Reply} {out : Out} {now : ℕ}
    (hp : Poised k l) (hc : k.current = some t) (hlen : fds.length ≤ cbMaxFds) (hint : timeout ≤ intMax)
    (hclock : Timely now h) (hdone : (apiPoll h k t fds timeout).2 = .done r out) :
    ∃ results, out = .revents results ∧
      Truthful h (apiPoll h k t fds timeout).1 t ⟨fds, timeout, h.monotonic 0⟩ r.value results := by
  obtain ⟨-, task, ht, -⟩ := hp.base.roster.current hc
  rw [apiPoll_eq hlen hclock.nonzero] at hdone ⊢
  rw [pollLoop_kernel]
  have hlive : Anchored (k.setTask t (stamp h timeout)) t := (hp.base.anchored t).of_same (slot_stamp h timeout) rfl
  exact pollLoop_truthful hlive (Kernel.task_setTask_self _ ht) (stamped_stamp hlen hint task) hclock hdone

/-! ### New tasks -/

/-- The task that `task_create` makes has not started. -/
theorem taskCreate_entry {fl : Flight} {task : Task} (h : Host) (parent : Option TaskId) (program : Option ProgramId)
    (argv : List Bytes) (envp : Option (List Bytes)) (actions : List SpawnAction) (hb : Base k fl) (hl : fl.limbo = none)
    (ht : (taskCreate h k parent program argv envp actions).1.task k.tasks.next = some task) :
    task.state = .runnable ∧ task.frame = .entry := by
  have hfresh : k.task k.tasks.next = none := Heap.get_next _
  rcases taskCreate_stages h k parent program argv envp actions with heq | heq | ⟨environment, heq⟩
  · rw [heq, hfresh] at ht
    cases ht
  · rw [heq] at ht
    exact absurd (hfresh.symm.trans ht) (by simp)
  have hp : ∀ x, parent.bind k.task = some x → ∃ p, k.task p = some x := by
    intro x hx
    obtain ⟨p, -, hp⟩ := Option.bind_eq_some_iff.mp hx
    exact ⟨p, hp⟩
  obtain ⟨hbuild, -, hnew, -⟩ : Moves noNode k fl (buildTask k (parent.bind k.task) program argv environment) _ ∧ _ :=
    buildTask_moves program argv environment hb hl hp
  have hactions : Path noNode (buildTask k (parent.bind k.task) program argv environment) _
      (taskApplyActions k.tasks.next (buildTask k (parent.bind k.task) program argv environment) actions).1 _ :=
    taskApplyActions_path actions (hb.moves hbuild) hnew.unparked
  obtain ⟨infant, hinfant, hborn⟩ := hnew.steady hactions.steady
  rw [heq] at ht
  generalize taskApplyActions k.tasks.next (buildTask k (parent.bind k.task) program argv environment) actions = acted
    at ht hinfant
  obtain ⟨k₁, accepted⟩ := acted
  have hfail : (taskRelease (fdCloseAll k₁ k.tasks.next) k.tasks.next).task k.tasks.next ≠ some task := by
    intro hx
    rw [taskRelease] at hx
    split at hx
    · rename_i hnone
      exact absurd (hnone.symm.trans hx) (by simp)
    · exact absurd ((Heap.get_free _ _ _).symm.trans hx) (by simp)
  cases accepted with
  | false =>
    rw [settleTask] at ht
    dsimp only at ht
    exact (hfail ht).elim
  | true =>
    rw [settleTask] at ht
    split at ht
    · dsimp only at ht
      exact (hfail ht).elim
    · have hlisted : (enlist k₁ parent k.tasks.next).task k.tasks.next = some { infant with execution := infant.program } :=
        Kernel.task_setTask_self _ hinfant
      obtain rfl := Option.some.inj (hlisted.symm.trans ht)
      exact ⟨hborn.state, hborn.frame⟩

theorem apiSpawn_entry {task : Task} (h : Host) (programName : Bytes) (argv : List Bytes) (envp : Option (List Bytes))
    (actions : List SpawnAction) (hb : Base k (.rest l)) (hc : k.current = some t)
    (ht : (apiSpawn h k t programName argv envp actions).1.task k.tasks.next = some task) : task.frame = .entry := by
  have hfresh : k.task k.tasks.next = none := Heap.get_next _
  rw [apiSpawn] at ht
  split at ht
  · exact absurd (hfresh.symm.trans ht) (by simp)
  split at ht
  · exact absurd (hfresh.symm.trans ht) (by simp)
  split at ht
  · exact absurd (hfresh.symm.trans ht) (by simp)
  rename_i n hexec
  obtain ⟨node, hn, -⟩ := executableNode_rooted (hb.resolves (.of_current hb hc)) hexec
  have hretain : Path noNode k (.rest l) (retainNode k (some n)) ((Flight.rest l).addNode (some n)) := retainNode_path hn
  have hcreate := fun x => @taskCreate_entry (retainNode k (some n)) _ x h (some t) (executableOf k n) argv envp actions
    (hretain.base hb) rfl
  have hnext : (retainNode k (some n)).tasks.next = k.tasks.next := rfl
  rw [hnext] at hcreate
  generalize taskCreate h (retainNode k (some n)) (some t) (executableOf k n) argv envp actions = r at ht hcreate
  obtain ⟨k₁, o⟩ := r
  cases o with
  | none => exact (hcreate task ht).2
  | some child =>
    have hframe := field_setTask Task.frame k₁ child k.tasks.next (f := fun task => { task with executableNode := some n })
      fun _ => rfl
    dsimp only at ht
    rw [ht, Option.map_some] at hframe
    obtain ⟨x, hx, heq⟩ := Option.map_eq_some_iff.mp hframe.symm
    rw [← heq]
    exact (hcreate x hx).2

theorem frame_wakePipeTask (task : Task) : (wakePipeTask task).frame = task.frame := by
  rw [wakePipeTask]
  split
  · rfl
  split <;> rfl

theorem frame_bootConsole (h : Host) (k : Kernel) (t c : TaskId) :
    ((bootConsole h k t).task c).map Task.frame = (k.task c).map Task.frame := by
  have hv : Aloof fun k => (k.task c).map Task.frame := aloof_field Task.frame frame_wakePipeTask c
  have hslot : ∀ (k : Kernel) d entry, ((k.setSlot t d entry).task c).map Task.frame = (k.task c).map Task.frame :=
    fun k d entry => field_setTask Task.frame k t c fun _ => rfl
  rw [bootConsole]
  split
  · rfl
  · dsimp only [cbOpenFileCreate]
    exact (hv.fdInstallAt hslot _ _ _ _).trans ((hv.fdInstallAt hslot _ _ _ _).trans (hv.fdInstallAt hslot _ _ _ _))

theorem cbKernelBoot_entry {task : Task} (h : Host) (command : Option Bytes) (hb : Base k (.rest l))
    (ht : (cbKernelBoot h k command).task k.tasks.next = some task) : task.frame = .entry := by
  have hfresh : k.task k.tasks.next = none := Heap.get_next _
  have hwith : ∀ n node argv, k.vfs.node n = some node → (bootWith h k n argv).task k.tasks.next = some task →
      task.frame = .entry := by
    intro n node argv hn ht
    have hretain : Path noNode k (.rest l) (retainNode k (some n)) ((Flight.rest l).addNode (some n)) := retainNode_path hn
    have hcreate := fun x => @taskCreate_entry (retainNode k (some n)) _ x h none (executableOf k n) argv
      (some [homeSetting, pathSetting]) [] (hretain.base hb) rfl
    have hnext : (retainNode k (some n)).tasks.next = k.tasks.next := rfl
    rw [hnext] at hcreate
    rw [bootWith] at ht
    generalize taskCreate h (retainNode k (some n)) none (executableOf k n) argv (some [homeSetting, pathSetting]) [] =
      r at ht hcreate
    obtain ⟨k₁, o⟩ := r
    cases o with
    | none => exact (hcreate task ht).2
    | some child =>
      have hframe := (frame_bootConsole h (k₁.setTask child fun task => { task with executableNode := some n }) child
        k.tasks.next).trans (field_setTask Task.frame k₁ child k.tasks.next fun _ => rfl)
      dsimp only at ht
      rw [ht, Option.map_some] at hframe
      obtain ⟨x, hx, heq⟩ := Option.map_eq_some_iff.mp hframe.symm
      rw [← heq]
      exact (hcreate x hx).2
  unfold cbKernelBoot at ht
  split at ht
  · exact absurd (hfresh.symm.trans ht) (by simp)
  split at ht
  · exact absurd (hfresh.symm.trans ht) (by simp)
  rename_i n hexec
  obtain ⟨node, hn, -⟩ := executableNode_rooted ⟨hb.books.vfs, hb.books.root, rfl⟩ hexec
  exact hwith n node _ hn ht

theorem quiet_frame : Quiet Task.frame := fun _ _ _ _ _ => rfl

/-- A task that comes into being has not started. -/
theorem frame_of_new {a : Action} {task' : Task} (hp : Poised k l) (hs : step k a = some k') (hnone : k.task t = none)
    (ht' : k'.task t = some task') : task'.frame = .entry := by
  have hcurrent : k.current ≠ some t := by
    intro hc
    obtain ⟨-, task, ht, -⟩ := hp.base.roster.current hc
    rw [hnone] at ht
    cases ht
  have hfinishing : k.finishing ≠ some t := by
    intro hfin
    obtain ⟨-, task, ht, -⟩ := hp.base.roster.finishing hfin
    rw [hnone] at ht
    cases ht
  have hnever : ¬ Remains t k k' := by
    rintro (heq | ⟨-, hgone⟩)
    · rw [ownOf, ownOf, hnone, ht'] at heq
      cases heq
    · rw [hgone] at ht'
      cases ht'
  have hown : handlesOwn k t a = false := by
    cases a with
    | call h op => simp [handlesOwn, hcurrent]
    | _ => rfl
  have hclose : closesHandles k a ≠ some t := by
    intro hclose
    cases a with
    | call h op =>
      cases op with
      | exit status => exact hcurrent hclose
      | _ => cases hclose
    | schedule h =>
      obtain ⟨hpick, -⟩ := Option.filter_eq_some_iff.mp hclose
      obtain ⟨-, task, ht, -⟩ := pickRunnable_eq_some hpick
      have hset := settled_roused h t k
      rw [ht, hnone] at hset
      cases hset
    | finishExec h => exact hfinishing hclose
    | _ => cases hclose
  by_cases hnew : creates a = true → t ≠ k.tasks.next
  · exact absurd (remains_step hs hnew hown hclose) hnever
  · push Not at hnew
    obtain ⟨hcreates, rfl⟩ := hnew
    unfold step at hs
    split at hs
    · cases hs
    cases a with
    | call h op =>
      cases hc : k.current with
      | none => simp [hc] at hs
      | some c =>
        simp only [hc, Option.some.injEq] at hs
        subst hs
        cases op with
        | spawn programName argv envp actions =>
          have hne : k.tasks.next ≠ c := fun heq => hcurrent (hc.trans (congrArg some heq.symm))
          have hframe := quiet_frame.of_stillOf ((beyond_stillOf hne).deliver (perform h k c (.spawn programName argv envp
            actions)))
          rw [ht', Option.map_some] at hframe
          obtain ⟨task, ht, heq⟩ := Option.map_eq_some_iff.mp hframe.symm
          rw [← heq]
          exact apiSpawn_entry h programName argv envp actions hp.base hc ht
        | _ => cases hcreates
    | boot h command =>
      rw [Option.some.injEq] at hs
      subst hs
      exact cbKernelBoot_entry h command hp.base ht'
    | _ => cases hcreates

/-! ### Steps -/

/-- Where a task goes on, and what its last call of `api_poll` noted down. -/
def Task.stint (task : Task) : Frame × ℕ × ℤ := (task.frame, task.wakeStart, task.wakeTimeout)

theorem quiet_stint : Quiet Task.stint := fun _ _ _ _ _ => rfl

theorem frame_deliver_done {r : Reply} {out : Out} {task : Task} (ht : (deliver t (k, .done r out)).task t = some task) :
    task.frame = .program := by
  rw [deliver, Kernel.task_setTask, if_pos rfl] at ht
  obtain ⟨x, -, rfl⟩ := Option.map_eq_some_iff.mp ht
  rfl

theorem stint_deliver_block {state : TaskState} {frame : Frame} {task : Task}
    (ht : (deliver t (k, .block state frame)).task t = some task) :
    ∃ x, k.task t = some x ∧ task.stint = (frame, x.wakeStart, x.wakeTimeout) := by
  have hset : (deliver t (k, .block state frame)).task t =
      (k.setTask t fun task => { task with wakeReason := .none, state := state, frame := frame }).task t := rfl
  rw [hset, Kernel.task_setTask, if_pos rfl] at ht
  obtain ⟨x, hx, rfl⟩ := Option.map_eq_some_iff.mp ht
  exact ⟨x, hx, rfl⟩

theorem frame_execPublish {n : NodeId} {argv : List Bytes} {envp : Option (List Bytes)} {task : Task}
    (ht : (execPublish k t n argv envp).task t = some task) : task.frame = .entry := by
  have hset : ∀ k : Kernel, ({ cbTaskYieldAs k t .execPending .entry with finishing := some t }).task t =
      (k.setTask t fun task => { task with wakeReason := .none, state := .execPending, frame := .entry }).task t :=
    fun _ => rfl
  rw [execPublish, hset, Kernel.task_setTask, if_pos rfl] at ht
  obtain ⟨x, -, rfl⟩ := Option.map_eq_some_iff.mp ht
  rfl

/-- A call of its task leaves a task in the loop of `api_poll` only if it is a call of `api_poll`. -/
theorem stint_call {h : Host} {op : Op} {task' : Task} {fds : List PollFd} (hp : Poised k l) (hc : k.current = some t)
    (hclock : 0 < h.monotonic 0) (ht' : (deliver t (perform h k t op)).task t = some task')
    (hgone : ¬ Gone t (deliver t (perform h k t op))) (hf : task'.frame = .poll fds) :
    ∃ timeout, op = .poll fds timeout ∧ fds.length ≤ cbMaxFds ∧ task'.wakeTimeout = timeout ∧
      (0 < timeout → task'.wakeStart = h.monotonic 0) := by
  obtain ⟨-, task, ht, -⟩ := hp.base.roster.current hc
  cases hends : op.ends with
  | true =>
    cases op with
    | exit status =>
      rw [perform, deliver] at hgone
      exact absurd (gone_apiExit ht) hgone
    | exec programName argv envp =>
      rw [perform, apiExec] at ht'
      split at ht'
      · rw [frame_deliver_done ht'] at hf
        cases hf
      dsimp only at ht'
      split at ht'
      · rw [Outcome.fail] at ht'
        rw [frame_deliver_done ht'] at hf
        cases hf
      · rw [deliver] at ht'
        rw [frame_execPublish ht'] at hf
        cases hf
    | _ => cases hends
  | false =>
    have hstays := perform_stays h hp.base hc hends
    generalize hperform : perform h k t op = r at ht' hstays
    obtain ⟨k₁, o⟩ := r
    cases o with
    | done r out =>
      rw [frame_deliver_done ht'] at hf
      cases hf
    | gone => exact hstays.elim
    | block state frame =>
      obtain ⟨x, hx, hstint⟩ := stint_deliver_block ht'
      obtain ⟨hframe, hstart, htimeout⟩ : task'.frame = frame ∧ task'.wakeStart = x.wakeStart ∧
          task'.wakeTimeout = x.wakeTimeout := by
        simpa [Task.stint] using hstint
      rw [hf] at hframe
      subst hframe
      cases hstays with
      | @poll _ timeout =>
        have hlen : fds.length ≤ cbMaxFds := by
          by_contra hlong
          rw [perform, apiPoll, if_pos (by omega)] at hperform
          cases hperform
        have hkernel : k₁ = k.setTask t (stamp h timeout) := by
          have hpair := congrArg Prod.fst hperform
          rw [perform, apiPoll_eq hlen hclock, pollLoop_kernel] at hpair
          exact hpair.symm
        rw [hkernel, Kernel.task_setTask_self _ ht, Option.some.injEq] at hx
        refine ⟨timeout, rfl, hlen, ?_, fun hpositive => ?_⟩
        · rw [htimeout, ← hx, stamp]
          split <;> rfl
        · rw [hstart, ← hx, stamp, if_pos hpositive]

/-- A round that resumes a task leaves it in the loop of `api_poll` only if it was there, and with what it had
noted down. -/
theorem stint_round {h : Host} {task task' : Task} {fds : List PollFd} (ht : k.task t = some task)
    (hpick : pickRunnable (roused h k) = some t) (ht' : (scheduleRound h k).task t = some task')
    (hgone : ¬ Gone t (scheduleRound h k)) (hf : task'.frame = .poll fds) : task'.stint = task.stint := by
  obtain ⟨-, x, hx, -⟩ := pickRunnable_eq_some hpick
  have hstint : x.stint = task.stint := by
    have hroused := quiet_stint.of_settled (settled_roused h t k)
    rw [hx, ht, Option.map_some, Option.map_some, Option.some.injEq] at hroused
    exact hroused
  rw [← hstint]
  have hx₁ : (dispatch (roused h k) t).task t = some { x with state := .running } := Kernel.task_setTask_self _ hx
  have hround := ownRound hpick hx
  generalize scheduleRound h k = k' at hround ht' hgone
  cases hround with
  | interrupted hint hexit => exact absurd hexit hgone
  | started hint hentry =>
    obtain rfl := Option.some.inj ((Kernel.task_setTask_self _ hx₁).symm.trans ht')
    cases hf
  | yielded hint hprogram =>
    obtain rfl := Option.some.inj (hx₁.symm.trans ht')
    exact absurd (hprogram.symm.trans hf) (by simp)
  | resumed hint hentry hprogram =>
    have hstays := goOn_stays h (dispatch (roused h k) t) t hentry
    generalize dispatch (roused h k) t = k₁ at ht' hx₁ hstays
    generalize hgo : goOn h k₁ t x.frame = r at ht' hstays
    obtain ⟨k₂, o⟩ := r
    cases o with
    | done r out =>
      rw [frame_deliver_done ht'] at hf
      cases hf
    | gone => exact hstays.elim
    | block state frame =>
      obtain ⟨y, hy, hstint'⟩ := stint_deliver_block ht'
      have hframe : task'.frame = frame := congrArg Prod.fst hstint'
      rw [hf] at hframe
      subst hframe
      have hsame : x.frame = .poll fds := by
        cases hxf : x.frame with
        | poll fds' =>
          rw [hxf] at hstays
          exact hstays.symm
        | _ =>
          rw [hxf] at hstays
          cases hstays
      -- the loop of poll changes nothing
      rw [hsame, goOn] at hgo
      have hkernel := congrArg Prod.fst hgo
      rw [pollLoop_kernel] at hkernel
      obtain rfl : k₁ = k₂ := hkernel
      rw [hx₁, Option.some.injEq] at hy
      rw [hstint', ← hy, ← hsame]
      rfl

theorem frame_startInstance {h : Host} {task : Task} (ht : (startInstance h k t).task t = some task) :
    task.frame = .entry := by
  rw [startInstance] at ht
  split at ht
  · rename_i hnone
    exact absurd (hnone.symm.trans ht) (by simp)
  · rename_i x hx
    obtain rfl := Option.some.inj ((Kernel.task_setTask_self _ hx).symm.trans ht)
    rfl

/-- **Steps.**  After a step a task is in the loop of `api_poll` because it was there, with what it had noted
down, or because it has just called. -/
theorem stint_step {a : Action} {task' : Task} {fds : List PollFd} (hp : Poised k l) (hs : step k a = some k')
    (hclock : ∀ h op, a = .call h op → 0 < h.monotonic 0) (ht' : k'.task t = some task') (hz : task'.state ≠ .zombie)
    (hf : task'.frame = .poll fds) :
    (∃ task, k.task t = some task ∧ task.state ≠ .zombie ∧ task'.stint = task.stint ∧
        ∀ h op, a = .call h op → k.current ≠ some t) ∨
      ∃ h timeout, a = .call h (.poll fds timeout) ∧ k.current = some t ∧ fds.length ≤ cbMaxFds ∧
        task'.wakeTimeout = timeout ∧ (0 < timeout → task'.wakeStart = h.monotonic 0) := by
  obtain ⟨l', -, hp', -⟩ := hp.step hs
  have hmem' : t ∈ k'.order := (hp'.base.roster.listed ht').resolve_right fun hl => by cases hl
  have hgone : ¬ Gone t k' := hp'.not_gone hmem' ht' hz
  cases ht : k.task t with
  | none =>
    rw [frame_of_new hp hs ht ht'] at hf
    cases hf
  | some task =>
    have hmem : t ∈ k.order := (hp.base.roster.listed ht).resolve_right fun hl => by cases hl
    have halive : task.state ≠ .zombie := fun hzombie => hgone (hp.gone_step hs (hp.gone_of_zombie hmem ht hzombie))
    by_cases hown : ownStep t k a
    · cases a with
      | call h op =>
        have hc : k.current = some t := hown
        right
        unfold step at hs
        split at hs
        · cases hs
        simp only [hc, Option.some.injEq] at hs
        rw [← hs] at ht' hgone
        obtain ⟨timeout, rfl, hrest⟩ := stint_call hp hc (hclock h op rfl) ht' hgone hf
        exact ⟨h, timeout, rfl, hc, hrest⟩
      | schedule h =>
        left
        unfold step at hs
        split at hs
        · cases hs
        dsimp only at hs
        split at hs
        · rw [Option.some.injEq] at hs
          rw [← hs] at ht' hgone
          exact ⟨task, rfl, halive, stint_round ht hown ht' hgone hf, fun h op heq => by cases heq⟩
        · cases hs
      | finishExec h =>
        have hfin : k.finishing = some t := hown
        unfold step at hs
        split at hs
        · cases hs
        simp only [hfin, Option.map_some, Option.some.injEq] at hs
        rw [← hs, taskFinishExec] at ht'
        rw [frame_startInstance ht'] at hf
        cases hf
      | _ => cases hown
    · left
      rcases quiet_stint.step hp ht hown hs with hexit | ⟨hstint, -⟩
      · exact absurd hexit hgone
      · rw [ht, ht', Option.map_some, Option.map_some, Option.some.injEq] at hstint
        refine ⟨task, rfl, halive, hstint, ?_⟩
        rintro h op rfl hc
        exact hown hc

/-! ### Runs with a clock -/

/-- The kernel, the last time the clock showed, and the last call of `api_poll` of each task. -/
structure Clocked where
  kernel : Kernel
  now : ℕ
  polls : TaskId → Option PollCall

/-- The host that a step asks. -/
def Action.host : Action → Option Host
  | .call h _ => some h
  | .schedule h => some h
  | .finishExec h => some h
  | .mountCreate h => some h
  | .register h _ => some h
  | .boot h _ => some h
  | _ => none

/-- The calls of `api_poll` after a step. -/
def pollsAfter (s : Clocked) : Action → TaskId → Option PollCall
  | .call h (.poll fds timeout), t =>
    if s.kernel.current = some t then some ⟨fds, timeout, h.monotonic 0⟩ else s.polls t
  | _, t => s.polls t

def Clocked.step (s : Clocked) (a : Action) : Option Clocked :=
  (CannedBsd.step s.kernel a).map fun k => ⟨k, (a.host.map fun h => h.monotonic 1).getD s.now, pollsAfter s a⟩

/-- The clock goes on, and the timeouts of calls are of type `int`. -/
structure Clocked.timely (s : Clocked) (a : Action) : Prop where
  clock : ∀ h, a.host = some h → Timely s.now h
  int : ∀ h fds timeout, a = .call h (.poll fds timeout) → -(intMax : ℤ) - 1 ≤ timeout ∧ timeout ≤ intMax

/-- The states of the runs from `cb_kernel_create` with a clock that goes on. -/
def ClockedReach (s : Clocked) : Prop :=
  ∃ h, Reach Clocked.step Clocked.timely ⟨cbKernelCreate h, 0, fun _ => none⟩ s

/-- Every task in the loop of `api_poll` has noted down what it called for. -/
structure Punctual (s : Clocked) : Prop where
  poised : ∃ l, Poised s.kernel l
  noted : ∀ {t task fds}, s.kernel.task t = some task → task.state ≠ .zombie → task.frame = .poll fds →
    ∃ call, s.polls t = some call ∧ call.fds = fds ∧ Stamped s.now task call

theorem Stamped.of_stint {now : ℕ} {task task' : Task} {call : PollCall} (h : Stamped now task call)
    (hstint : task'.stint = task.stint) : Stamped now task' call := by
  obtain ⟨-, hstart, htimeout⟩ : task'.frame = task.frame ∧ task'.wakeStart = task.wakeStart ∧
      task'.wakeTimeout = task.wakeTimeout := by
    simpa [Task.stint] using hstint
  exact ⟨h.bound, htimeout.trans h.timeout, h.int, fun hpositive => hstart.trans (h.start hpositive), h.past⟩

theorem punctual_start (h : Host) : Punctual ⟨cbKernelCreate h, 0, fun _ => none⟩ := by
  refine ⟨⟨_, poised_cbKernelCreate h⟩, ?_⟩
  intro t task fds ht
  cases ht

theorem pollsAfter_of_other {s : Clocked} {a : Action} {t : TaskId}
    (hother : ∀ h op, a = .call h op → s.kernel.current ≠ some t) : pollsAfter s a t = s.polls t := by
  unfold pollsAfter
  split
  · exact if_neg (hother _ _ rfl)
  · rfl

theorem Punctual.step {s s' : Clocked} {a : Action} (hs : Punctual s) (hok : s.timely a) (hstep : s.step a = some s') :
    Punctual s' := by
  obtain ⟨l, hp⟩ := hs.poised
  obtain ⟨k', hk', rfl⟩ := Option.map_eq_some_iff.mp hstep
  obtain ⟨l', -, hp', -⟩ := hp.step hk'
  have hnow : s.now ≤ (a.host.map fun h => h.monotonic 1).getD s.now := by
    cases hhost : a.host with
    | none => exact le_refl _
    | some h => exact (hok.clock h hhost).onward.trans (hok.clock h hhost).within
  refine ⟨⟨l', hp'⟩, ?_⟩
  intro t task' fds ht' hz hf
  have hclock : ∀ h op, a = .call h op → 0 < h.monotonic 0 := by
    rintro h op rfl
    exact (hok.clock h rfl).nonzero
  rcases stint_step hp hk' hclock ht' hz hf with
    ⟨task, ht, halive, hstint, hother⟩ | ⟨h, timeout, rfl, hc, hlen, htimeout, hstart⟩
  · have hframe : task.frame = .poll fds := (congrArg Prod.fst hstint).symm.trans hf
    obtain ⟨call, hcall, hfds, hstamped⟩ := hs.noted ht halive hframe
    exact ⟨call, (pollsAfter_of_other hother).trans hcall, hfds, (hstamped.of_stint hstint).mono hnow⟩
  · have hrange := (hok.int h fds timeout rfl).2
    refine ⟨⟨fds, timeout, h.monotonic 0⟩, if_pos hc, rfl, hlen, htimeout, hrange, hstart, ?_⟩
    exact (hok.clock h rfl).within

theorem ClockedReach.punctual {s : Clocked} (hr : ClockedReach s) : Punctual s := by
  obtain ⟨h, hr⟩ := hr
  refine hr.invariant (punctual_start h) ?_
  intro s a s' hok hstep hs
  exact hs.step hok hstep

/-! ### The wait -/

/-- The wait that `cb_kernel_run` asks `console_poll` for when no task can run. -/
def requestedWait (h : Host) (k : Kernel) : ℤ := getPollTimeout (roused h k) (h.monotonic 1)

/-- The task is blocked in `api_poll` with a deadline. -/
def Task.timed (task : Task) : Prop := task.state = .blockedPoll ∧ 0 < task.wakeTimeout

/-- The least remaining time never grows. -/
theorem pollTimeout_le (current : ℕ) (tasks : List Task) :
    ∀ best : ℤ, 0 ≤ best → 0 ≤ pollTimeout current best tasks ∧ pollTimeout current best tasks ≤ best := by
  induction tasks with
  | nil => exact fun best hbest => ⟨hbest, le_refl _⟩
  | cons task tasks ih =>
    intro best hbest
    rw [pollTimeout]
    split
    · split
      · exact ⟨le_refl _, hbest⟩
      split
      · exact ⟨le_refl _, hbest⟩
      rename_i hlater
      dsimp only
      split
      · rename_i hless
        obtain ⟨hnonneg, hle⟩ := ih (task.wakeTimeout - elapsed current task.wakeStart) (by omega)
        exact ⟨hnonneg, by omega⟩
      · exact ih best hbest
    · exact ih best hbest

/-- The wait is not longer than the remaining time of any task with a deadline. -/
theorem pollTimeout_of_mem (current : ℕ) {task : Task} (htimed : task.timed) {tasks : List Task} :
    ∀ best : ℤ, task ∈ tasks → 0 ≤ pollTimeout current best tasks ∧
      pollTimeout current best tasks ≤ max 0 (task.wakeTimeout - elapsed current task.wakeStart) := by
  induction tasks with
  | nil => exact fun best hmem => by cases hmem
  | cons first tasks ih =>
    intro best hmem
    have hzero : (0 : ℤ) ≤ 0 ∧ (0 : ℤ) ≤ max 0 (task.wakeTimeout - elapsed current task.wakeStart) :=
      ⟨le_refl _, le_max_left _ _⟩
    rw [pollTimeout]
    rcases List.mem_cons.mp hmem with rfl | hrest
    · rw [if_pos ⟨htimed.1, htimed.2⟩]
      split
      · exact hzero
      split
      · exact hzero
      rename_i hlater
      dsimp only
      -- from here on the best is at most the remaining time of this task
      have hbest : ∀ best : ℤ, 0 ≤ best → best ≤ task.wakeTimeout - elapsed current task.wakeStart →
          0 ≤ pollTimeout current best tasks ∧
            pollTimeout current best tasks ≤ max 0 (task.wakeTimeout - elapsed current task.wakeStart) := by
        intro best hnonneg hle
        obtain ⟨hlow, hhigh⟩ := pollTimeout_le current tasks best hnonneg
        exact ⟨hlow, (hhigh.trans hle).trans (le_max_right _ _)⟩
      split
      · exact hbest _ (by omega) (le_refl _)
      · exact hbest best (by omega) (by omega)
    · split
      · split
        · exact hzero
        split
        · exact hzero
        · exact ih _ hrest
      · exact ih best hrest

/-- No number in the computation of the remaining time of the task leaves its type: the subtraction of the
times does not wrap, and what is cast to `int` fits. -/
structure Exact (current : ℕ) (task : Task) : Prop where
  started : task.wakeStart ≤ current
  elapsed : elapsed current task.wakeStart = current - task.wakeStart
  cast : (current - task.wakeStart : ℕ) < task.wakeTimeout → current - task.wakeStart ≤ intMax
  remaining : (current - task.wakeStart : ℕ) < task.wakeTimeout → task.wakeTimeout - (current - task.wakeStart : ℕ) ≤ intMax

theorem Stamped.exact {now current : ℕ} {task : Task} {call : PollCall} (h : Stamped now task call)
    (htimed : 0 < task.wakeTimeout) (hnow : now ≤ current) (hfits : current < 2 ^ 64) : Exact current task := by
  have htimeout := h.timeout
  have hint := h.int
  have hstart := h.start (by omega)
  have hpast := h.past
  have hle : task.wakeStart ≤ current := by omega
  exact ⟨hle, elapsed_of_le hle hfits, fun _ => by omega, fun _ => by omega⟩

/-! ### The main result -/

theorem Base.roused {fl : Flight} (hb : Base k fl) (h : Host) : Base (roused h k) fl := by
  have hpath : Path noNode k fl (CannedBsd.roused h k) fl := roused_path h k
  exact hpath.base hb

theorem roused_old {h : Host} {task : Task} (ht : (roused h k).task t = some task) :
    ∃ old, k.task t = some old ∧ task.stint = old.stint ∧ (task.state ≠ .zombie → old.state ≠ .zombie) := by
  have hset := settled_roused h t k
  rw [ht, Option.map_some] at hset
  obtain ⟨old, hold, heq⟩ := Option.map_eq_some_iff.mp hset.symm
  have hstill : old.still = task.still := congrArg Prod.fst heq
  have hflag : decide (old.state = .zombie) = decide (task.state = .zombie) := congrArg Prod.snd heq
  refine ⟨old, hold, ?_, fun hz hzombie => hz ?_⟩
  · rw [← quiet_stint.still task, ← hstill, quiet_stint.still]
  · rw [decide_eq_true hzombie] at hflag
    exact of_decide_eq_true hflag.symm

/-- **Later.**  A call of `api_poll` that returns in a round of the scheduler says the truth about that moment
and about the time since the task made it. -/
theorem Punctual.returns {s : Clocked} {h : Host} {task : Task} {fds : List PollFd} {r : Reply} {out : Out}
    (hs : Punctual s) (hclock : Timely s.now h) (ht : s.kernel.task t = some task) (hframe : task.frame = .poll fds)
    (hres : resumed h s.kernel t = some (k, .done r out)) :
    ∃ call results, s.polls t = some call ∧ call.fds = fds ∧ out = .revents results ∧
      Truthful h k t call r.value results := by
  obtain ⟨l, hp⟩ := hs.poised
  obtain ⟨x, -, hx, hrun, -, hgo⟩ := resumed_eq_some hres
  obtain ⟨old, hold, hstint, halive⟩ := roused_old hx
  obtain rfl : task = old := Option.some.inj (ht.symm.trans hold)
  have hz : x.state ≠ .zombie := by
    rw [hrun]
    simp
  obtain ⟨call, hcall, rfl, hstamped⟩ := hs.noted ht (halive hz) hframe
  have hxf : x.frame = .poll call.fds := (congrArg Prod.fst hstint).trans hframe
  rw [hxf, goOn] at hgo
  have hkernel := congrArg Prod.fst hgo
  rw [pollLoop_kernel] at hkernel
  obtain rfl : dispatch (roused h s.kernel) t = k := hkernel
  have hx₁ : (dispatch (roused h s.kernel) t).task t = some { x with state := .running } := Kernel.task_setTask_self _ hx
  have hbase := hp.base.roused h
  have hlive : Anchored (dispatch (roused h s.kernel) t) t := by
    refine (hbase.anchored t).of_same ?_ rfl
    funext d
    rw [slot_eq hx₁, slot_eq hx]
  have hstint₁ : ({ x with state := .running } : Task).stint = task.stint := hstint
  have hstamped₁ := (hstamped.of_stint hstint₁).mono hclock.onward
  obtain ⟨results, hout, htrue⟩ := pollLoop_truthful hlive hx₁ hstamped₁ hclock (congrArg Prod.snd hgo)
  exact ⟨call, results, hcall, rfl, hout, htrue⟩

/-- **The wait.**  No wait of `cb_kernel_run` is longer than the remaining time of a task that is blocked in
`api_poll` with a deadline. -/
theorem Punctual.waits {s : Clocked} {h : Host} {task : Task} (hs : Punctual s) (hclock : Timely s.now h)
    (ht : (roused h s.kernel).task t = some task) (htimed : task.timed) :
    ∃ call, s.polls t = some call ∧ task.wakeTimeout = call.timeout ∧ task.wakeStart = call.start ∧
      Exact (h.monotonic 1) task ∧ 0 ≤ requestedWait h s.kernel ∧
      requestedWait h s.kernel ≤ max 0 (call.start + call.timeout - h.monotonic 1) := by
  obtain ⟨l, hp⟩ := hs.poised
  have hbase := hp.base.roused h
  have hmem : t ∈ (roused h s.kernel).order := (hbase.roster.listed ht).resolve_right fun hl => by cases hl
  obtain ⟨fds, hframe, -⟩ := (hbase.waiting t hmem task ht).poll htimed.1
  obtain ⟨old, hold, hstint, halive⟩ := roused_old ht
  have hz : task.state ≠ .zombie := by
    rw [htimed.1]
    simp
  obtain ⟨call, hcall, -, hstamped⟩ := hs.noted hold (halive hz) ((congrArg Prod.fst hstint).symm.trans hframe)
  have hstamped' := hstamped.of_stint hstint
  have hpositive : 0 < call.timeout := by
    rw [← hstamped'.timeout]
    exact htimed.2
  have hexact := hstamped'.exact htimed.2 (hclock.onward.trans hclock.within) hclock.fits
  have hlisted : task ∈ (roused h s.kernel).order.filterMap (roused h s.kernel).task :=
    List.mem_filterMap.mpr ⟨t, hmem, ht⟩
  obtain ⟨hnonneg, hle⟩ := pollTimeout_of_mem (h.monotonic 1) htimed (-1) hlisted
  refine ⟨call, hcall, hstamped'.timeout, hstamped'.start hpositive, hexact, hnonneg, hle.trans ?_⟩
  have hstarted := hexact.started
  rw [hexact.elapsed, hstamped'.timeout]
  rw [hstamped'.start hpositive] at hstarted ⊢
  exact max_le_max (le_refl 0) (by omega)

/-- **Poll.**  In every run with a clock that goes on, a call of `api_poll` that returns, at once or when a round
of the scheduler resumes its task, reports what the descriptors show at that moment, and it reports nothing
only at its deadline or when it was not to wait; and when no task can run, the host is never asked to wait
beyond the deadline of a task that is blocked in `api_poll`. -/
theorem poll_truthful_and_timely {s : Clocked} (hr : ClockedReach s) {h : Host} (hclock : Timely s.now h) :
    (∀ t fds (timeout : ℤ) r out, s.kernel.current = some t → fds.length ≤ cbMaxFds → timeout ≤ intMax →
      (apiPoll h s.kernel t fds timeout).2 = .done r out →
      ∃ results, out = .revents results ∧
        Truthful h (apiPoll h s.kernel t fds timeout).1 t ⟨fds, timeout, h.monotonic 0⟩ r.value results) ∧
    (∀ t task fds k r out, s.kernel.task t = some task → task.frame = .poll fds →
      resumed h s.kernel t = some (k, .done r out) →
      ∃ call results, s.polls t = some call ∧ call.fds = fds ∧ out = .revents results ∧
        Truthful h k t call r.value results) ∧
    ∀ t task, (roused h s.kernel).task t = some task → task.timed →
      ∃ call, s.polls t = some call ∧ task.wakeTimeout = call.timeout ∧ task.wakeStart = call.start ∧
        Exact (h.monotonic 1) task ∧ 0 ≤ requestedWait h s.kernel ∧
        requestedWait h s.kernel ≤ max 0 (call.start + call.timeout - h.monotonic 1) := by
  have hs := hr.punctual
  obtain ⟨l, hp⟩ := hs.poised
  refine ⟨?_, ?_, ?_⟩
  · intro t fds timeout r out hc hlen hint hdone
    exact apiPoll_truthful hp hc hlen hint hclock hdone
  · intro t task fds k r out ht hframe hres
    exact hs.returns hclock ht hframe hres
  · intro t task ht htimed
    exact hs.waits hclock ht htimed

/-- The step asks the calm host, whose clock stands still. -/
structure Action.OnCalmHost (a : Action) : Prop where
  host : ∀ h, a.host = some h → h = .calm
  int : ∀ h fds timeout, a = .call h (.poll fds timeout) → -(intMax : ℤ) - 1 ≤ timeout ∧ timeout ≤ intMax

theorem timely_of_calm {as : List Action} :
    ∀ {s : Clocked}, s.now ≤ 1 → (∀ a ∈ as, a.OnCalmHost) → okAlong Clocked.step Clocked.timely s as := by
  induction as with
  | nil => exact fun _ _ => trivial
  | cons a as ih =>
    intro s hnow hall
    have ha := hall a (List.mem_cons_self ..)
    refine ⟨⟨fun h hh => ?_, ha.int⟩, fun s' hs => ih ?_ fun b hb => hall b (List.mem_cons_of_mem a hb)⟩
    · rw [ha.host h hh]
      exact ⟨by decide, hnow, by decide, by decide⟩
    · obtain ⟨k, -, rfl⟩ := Option.map_eq_some_iff.mp hs
      cases hh : a.host with
      | none => exact hnow
      | some h =>
        rw [ha.host h hh]
        exact le_refl 1

/-- The shell waits up to five milliseconds for something in an empty pipe. -/
def pollingRun : List Action := shellStart ++ calls [.pipe, .poll [⟨3, true, false⟩] 5]

def pollingShell : Clocked :=
  (run Clocked.step ⟨cbKernelCreate .calm, 0, fun _ => none⟩ pollingRun).getD ⟨cbKernelCreate .calm, 0, fun _ => none⟩

/-- The clock shows four. -/
def Host.four : Host := { Host.calm with monotonic := fun _ => 4 }

theorem poll_truthful_and_timely_pipe :
    ClockedReach pollingShell ∧ 0 ≤ requestedWait .four pollingShell.kernel ∧
      requestedWait .four pollingShell.kernel ≤ 2 := by
  have hcalm : ∀ a ∈ pollingRun, a.OnCalmHost := by
    intro a ha
    simp only [pollingRun, shellStart, calls, List.map_cons, List.map_nil, List.cons_append, List.nil_append, List.mem_cons,
      List.not_mem_nil, or_false] at ha
    refine ⟨fun h hh => ?_, ?_⟩
    · rcases ha with rfl | rfl | rfl | rfl | rfl <;> exact (Option.some.inj hh).symm
    · rintro h fds timeout rfl
      simp at ha
      obtain ⟨-, -, rfl⟩ := ha
      decide
  have hreach : ClockedReach pollingShell := by
    rw [pollingShell]
    cases hrun : run Clocked.step ⟨cbKernelCreate .calm, 0, fun _ => none⟩ pollingRun with
    | none => exact ⟨.calm, .init⟩
    | some s => exact ⟨.calm, reach_of_okAlong hrun (timely_of_calm (by decide) hcalm)⟩
  have hclock : Timely pollingShell.now .four := ⟨by decide, by decide +kernel, by decide, by decide⟩
  have hblocked : ((roused .four pollingShell.kernel).task 0).map (fun task => (task.state, task.wakeTimeout)) =
      some (.blockedPoll, 5) := by decide +kernel
  have hpolls : pollingShell.polls 0 = some ⟨[⟨3, true, false⟩], 5, 1⟩ := by decide +kernel
  obtain ⟨task, ht, heq⟩ := Option.map_eq_some_iff.mp hblocked
  obtain ⟨hstate, htimeout⟩ := Prod.mk.inj heq
  obtain ⟨call, hcall, -, -, -, hwait⟩ := (poll_truthful_and_timely hreach hclock).2.2 0 task ht
    ⟨hstate, by rw [htimeout]; decide⟩
  obtain rfl := Option.some.inj (hpolls.symm.trans hcall)
  exact ⟨hreach, hwait⟩

end CannedBsd
