import CannedBsd.Kernel.Returns

/-!
# Calls that may suspend the task

Pipes, the console, `poll` and `waitpid`. A call that suspends leaves the task with a reason that
holds, and a pipe write that suspends goes on with what it has not stored yet.

* `pipeRead_ends`, `pipeWrite_ends`, `consoleRead_ends`, `apiPoll_ends`: each of these calls ends with empty
  hands, or suspends its task with a reason.
* `deliver_moves`: the end of a call reaches the program or the scheduler by elementary steps.
-/

namespace CannedBsd

open CannedBsd.Lib

variable {gone : NodeId → Prop} {k k' : Kernel} {fl fl' : Flight} {t : TaskId}

/-- The task whose `exec` is to be finished has the node of its new program. -/
def Pledged (k : Kernel) : Prop :=
  ∀ t task, k.finishing = some t → k.task t = some task → task.pendingExecutableNode ≠ none

theorem pledged_of_not_finishing (h : k.finishing = none) : Pledged k := by
  intro c task hc
  rw [h] at hc
  cases hc

theorem Base.not_finishing (hb : Base k fl) (hc : k.current = some t) : k.finishing = none := by
  cases hf : k.finishing with
  | none => rfl
  | some c =>
    rw [hb.roster.idle hf] at hc
    cases hc

theorem Bystanders.pledged (h : Bystanders k k') (hb : Base k fl) (hp : Pledged k) : Pledged k' := by
  intro t task' hfin ht'
  rw [h.finishing] at hfin
  obtain ⟨-, task, ht, -⟩ := hb.roster.finishing hfin
  obtain ⟨x, hx, hstand⟩ := h.tasks ht
  rw [ht', Option.some.injEq] at hx
  subst hx
  have hsame : task'.pendingExecutableNode = task.pendingExecutableNode :=
    congrArg Badge.pendingExecutableNode hstand.badge
  rw [hsame]
  exact hp t task hfin ht

/-- What the end of a call needs to be delivered: a returning task still runs, a suspended one has a
reason, and a pipe write is in progress only inside a suspended write. -/
def Ends (gone : NodeId → Prop) (k : Kernel) (fl : Flight) (t : TaskId) (fl' : Flight) :
    Kernel × Outcome → Prop
  | (k', .done _ _) => Moves gone k fl k' fl' ∧ k'.current = some t
  | (k', .block state frame) =>
    Moves gone k fl k' { fl' with writing := frame.writing } ∧ k'.current = some t ∧
      suspended state = true ∧ frame ≠ .entry ∧
      ∀ task, k'.task t = some task →
        Parked k' { task with wakeReason := .none, state := state, frame := frame }
  | (k', .gone) => Moves gone k fl k' fl' ∧ Pledged k'

theorem Returns.ends {r : Kernel × Outcome} (h : Returns gone k fl r) (hc : k.current = some t) :
    Ends gone k fl t fl r := by
  obtain ⟨k', o⟩ := r
  obtain ⟨hpath, reply, out, ho⟩ := h
  have ho' : o = .done reply out := ho
  subst ho'
  exact ⟨hpath.moves, hpath.steady.current.trans hc⟩

/-- A path in front of a call. -/
theorem Ends.after {fl₁ : Flight} {r : Kernel × Outcome} (hm : Moves gone k fl k' fl₁)
    (h : Ends gone k' fl₁ t fl' r) : Ends gone k fl t fl' r := by
  obtain ⟨k'', o⟩ := r
  cases o with
  | done reply out => exact ⟨hm.trans h.1, h.2⟩
  | block state frame => exact ⟨hm.trans h.1, h.2⟩
  | gone => exact ⟨hm.trans h.1, h.2⟩

/-- The end of a call reaches the program or the scheduler. -/
theorem deliver_moves {r : Kernel × Outcome} (hb : Base k fl) (h : Ends gone k fl t fl' r)
    (hw : fl'.writing = none) : Moves gone k fl (deliver t r) fl' := by
  obtain ⟨k', o⟩ := r
  cases o with
  | done reply out =>
    obtain ⟨hm, hc⟩ := h
    have herror : ∃ k'', Path gone k' fl' k'' fl' ∧ deliver t (k', .done reply out) =
        k''.setTask t fun task => { task with frame := .program } := by
      rw [deliver]
      cases reply.error with
      | none => exact ⟨k', .refl k' fl', rfl⟩
      | some e => exact ⟨k'.setError t e, setError_path k' t e, rfl⟩
    obtain ⟨k'', herr, heq⟩ := herror
    rw [heq]
    have hb' := (hb.moves hm).moves herr.moves
    refine hm.trans (herr.moves.trans (.single (.sched (.calm (calm_setTask k'' t ?_)))))
    intro task ht
    have hrun := (hb'.roster.current_task (herr.steady.current.trans hc) ht).2
    exact ⟨rfl, rfl, rfl, .inl rfl, .inr ⟨hrun, rfl⟩, .inl rfl, rfl, rfl⟩
  | block state frame =>
    obtain ⟨hm, hc, hs, hf, hp⟩ := h
    obtain ⟨-, task, ht, -⟩ := (hb.moves hm).roster.current hc
    refine hm.trans (.single (.sched ?_))
    have hyield : Sched k' { fl' with writing := frame.writing } (cbTaskYieldAs k' t state frame)
        { { fl' with writing := frame.writing } with writing := none } :=
      .yield hc ht hs (hp task ht) rfl hf
    have heq : { { fl' with writing := frame.writing } with writing := none } = fl' := by
      cases fl'
      cases hw
      rfl
    rwa [heq] at hyield
  | gone => exact h.1

theorem deliver_pledged {r : Kernel × Outcome} (hb : Base k fl) (h : Ends gone k fl t fl' r) :
    Pledged (deliver t r) := by
  obtain ⟨k', o⟩ := r
  cases o with
  | done reply out =>
    obtain ⟨hm, hc⟩ := h
    have hnone := (hb.moves hm).not_finishing hc
    refine pledged_of_not_finishing ?_
    rw [deliver]
    cases reply.error <;> exact hnone
  | block state frame =>
    obtain ⟨hm, hc, -⟩ := h
    exact pledged_of_not_finishing ((hb.moves hm).not_finishing hc)
  | gone => exact h.2

/-! ### Pipes -/

theorem Refers.resting {task task' : Task} {object : FileObject} (h : Refers k task object)
    (hd : task'.descriptors = task.descriptors) (hf : k'.files = k.files) : Refers k' task' object := by
  obtain ⟨d, entry, file, hslot, hfile, ho⟩ := h
  exact ⟨d, entry, file, by rw [hd, hslot], by rw [hf, hfile], ho⟩

/-- The running task has a descriptor for the object. -/
def HasDescriptor (k : Kernel) (t : TaskId) (object : FileObject) : Prop :=
  ∃ task, k.task t = some task ∧ Refers k task object

theorem HasDescriptor.of_fileOf {descriptor : ℤ} {f : FileId} {file : OpenFile}
    (h : fileOf k t descriptor = some (f, file)) : HasDescriptor k t file.object := by
  obtain ⟨d, entry, -, hslot, rfl, hf⟩ := slot_of_fileOf h
  cases ht : k.task t with
  | none =>
    rw [Kernel.slot, ht] at hslot
    cases hslot
  | some task =>
    rw [slot_eq ht] at hslot
    exact ⟨task, ht, d, entry, file, hslot, hf, rfl⟩

theorem HasDescriptor.pipe_live {object : FileObject} {p : PipeId} (h : HasDescriptor k t object) (hb : Base k fl)
    (ho : object = .pipeRead p ∨ object = .pipeWrite p) : ∃ pipe, k.pipes.get p = some pipe := by
  obtain ⟨task, -, d, entry, file, -, hf, rfl⟩ := h
  exact hb.books.pipe_live hf ho

/-- A task that waits for a pipe is parked. -/
theorem parked_pipe {task : Task} {frame : Frame} {object : FileObject} (hr : Refers k task object)
    (hwait : (∃ p count pipe, frame = .pipeRead p count ∧ object = .pipeRead p ∧ k.pipes.get p = some pipe ∧
        pipe.used = 0 ∧ 0 < pipe.writers) ∨
      ∃ p call buffer total pipe, frame = .pipeWrite p call buffer total ∧ object = .pipeWrite p ∧
        k.pipes.get p = some pipe ∧ pipe.used = cbPipeBytes ∧ 0 < pipe.readers) :
    Parked k { task with wakeReason := .none, state := .blockedPipe, frame := frame } := by
  refine ⟨fun _ => ?_, fun h => (by cases h), fun h => (by cases h), fun _ => ?_⟩
  · rcases hwait with ⟨p, count, pipe, rfl, -, hp, hu, hw⟩ | ⟨p, call, buffer, total, pipe, rfl, -, hp, hu, hw⟩
    · exact .inl ⟨p, count, pipe, rfl, hp, hu, hw⟩
    · exact .inr ⟨p, call, buffer, total, pipe, rfl, hp, hu, hw⟩
  · rcases hwait with ⟨p, count, pipe, rfl, rfl, -⟩ | ⟨p, call, buffer, total, pipe, rfl, rfl, -⟩
    · refine ⟨fun q c h => ?_, fun q c b n h => (by cases h)⟩
      cases h
      exact hr.resting rfl rfl
    · refine ⟨fun q c h => (by cases h), fun q c b n h => ?_⟩
      cases h
      exact hr.resting rfl rfl

theorem pipeRead_ends {p : PipeId} (count : ℕ) (hb : Base k fl) (hc : k.current = some t)
    (hw : fl.writing = none) (hh : HasDescriptor k t (.pipeRead p)) : Ends gone k fl t fl (pipeRead k p count) := by
  obtain ⟨pipe, hp⟩ := hh.pipe_live hb (.inl rfl)
  obtain ⟨task, ht, hr⟩ := hh
  rw [pipeRead, hp]
  dsimp only
  split
  · exact ⟨.refl, hc⟩
  split
  · rename_i hempty
    split
    · exact ⟨.refl, hc⟩
    · rename_i hwriters
      have hfl : { fl with writing := none } = fl := by
        cases fl
        cases hw
        rfl
      refine ⟨?_, hc, rfl, by simp, ?_⟩
      · show Moves gone k fl k { fl with writing := none }
        rw [hfl]
        exact .refl
      · intro task' ht'
        rw [ht, Option.some.injEq] at ht'
        subst ht'
        exact parked_pipe hr (.inl ⟨p, count, pipe, rfl, rfl, hp, hempty, Nat.pos_of_ne_zero hwriters⟩)
  · exact ⟨.single (.fetch hp (Nat.min_le_right count pipe.used)), hc⟩

/-- What is left of a write that stores no more. -/
theorem pipeWriteReturn_ends {w : Writing} {r : Reply} (hc : k.current = some t) (hw : fl.writing = some w)
    (hr : r.value = w.total ∨ r.value = -1 ∧ w.total = 0) :
    Ends gone k fl t { fl with writing := none } (pipeWriteReturn k w.pipe w.call w.buffer r) :=
  ⟨.single (.endWrite hw hr), hc⟩

theorem holds_store {p : PipeId} {g : Pipe → Pipe} {e : Event} {object : FileObject} (h : HasDescriptor k t object) :
    HasDescriptor (cbWakePipeTasks ((k.setPipe p g).log e)) t object := by
  obtain ⟨task, ht, hr⟩ := h
  have hwake := (Books.calm_cbWakePipeTasks ((k.setPipe p g).log e)).rest
  have ht₁ : ((k.setPipe p g).log e).task t = some task := ht
  obtain ⟨task', ht'⟩ := hwake.live ht₁
  obtain ⟨x, hx, hrest⟩ := hwake.tasks ht'
  have hxt : x = task := Option.some.inj (hx.symm.trans ht)
  subst hxt
  exact ⟨task', ht', hr.resting (congrArg Holdings.descriptors hrest.holdings) rfl⟩

/-- The loop of `pipe_write`, by induction on the rounds that are left. -/
theorem pipeWriteLoop_ends (p : PipeId) (call : ℕ) (buffer : Bytes) (fuel : ℕ) :
    ∀ (k : Kernel) (fl : Flight) (total : ℕ), Base k fl → k.current = some t →
      fl.writing = some ⟨p, call, buffer, total⟩ → HasDescriptor k t (.pipeWrite p) → buffer.length - total < fuel →
      Ends gone k fl t { fl with writing := none } (pipeWriteLoop p call buffer fuel k total) := by
  induction fuel with
  | zero =>
    intro k fl total _ _ _ _ hfuel
    omega
  | succ fuel ih =>
    intro k fl total hb hc hw hh hfuel
    obtain ⟨pipe, hp⟩ := hh.pipe_live hb (.inr rfl)
    rw [pipeWriteLoop]
    split
    · exact pipeWriteReturn_ends (r := .done total) hc hw (.inl rfl)
    rename_i hshort
    rw [hp]
    dsimp only
    split
    · refine pipeWriteReturn_ends (r := ⟨if total = 0 then -1 else total, [], some Errno.epipe.code⟩) hc hw ?_
      by_cases hz : total = 0
      · exact .inr ⟨if_pos hz, hz⟩
      · exact .inl (if_neg hz)
    rename_i hreaders
    split
    · rename_i hfull
      refine ⟨?_, hc, rfl, by simp, ?_⟩
      · show Moves gone k fl k { fl with writing := some ⟨p, call, buffer, total⟩ }
        rw [← hw]
        exact .refl
      · intro task ht
        obtain ⟨x, hx, hr⟩ := hh
        rw [ht, Option.some.injEq] at hx
        subst hx
        have hle := (hb.rings p pipe hp).used
        exact parked_pipe hr (.inr ⟨p, call, buffer, total, pipe, rfl, rfl, hp, by omega,
          Nat.pos_of_ne_zero hreaders⟩)
    · rename_i hroom
      set bytes := (buffer.drop total).take (cbPipeBytes - pipe.used) with hbytes
      have hlen : bytes.length = min (cbPipeBytes - pipe.used) (buffer.length - total) := by
        rw [hbytes, List.length_take, List.length_drop]
      have hne : bytes ≠ [] := by
        intro hnil
        rw [hnil, List.length_nil] at hlen
        omega
      have hstore : Moves gone k fl _ { fl with writing := some ⟨p, call, buffer, total + bytes.length⟩ } :=
        .single (.store hw hp hne hbytes)
      exact .after hstore (ih _ _ (total + bytes.length) (hb.moves hstore) hc rfl (holds_store hh) (by omega))

theorem pipeWrite_ends {p : PipeId} {call : ℕ} {buffer : Bytes} {total : ℕ} (hb : Base k fl)
    (hc : k.current = some t) (hw : fl.writing = some ⟨p, call, buffer, total⟩)
    (hh : HasDescriptor k t (.pipeWrite p)) :
    Ends gone k fl t { fl with writing := none } (pipeWrite k p call buffer total) :=
  pipeWriteLoop_ends p call buffer _ k fl total hb hc hw hh (Nat.lt_succ_self _)

/-! ### The console -/

/-- A task that waits for neither a pipe nor a child nor a poll needs no reason. -/
theorem parked_other {task : Task} {state : TaskState} {frame : Frame} (hp : state ≠ .blockedPipe)
    (hw : state ≠ .blockedWait) (hl : state ≠ .blockedPoll) (hr : ∀ p count, frame ≠ .pipeRead p count)
    (hwr : ∀ p call buffer total, frame ≠ .pipeWrite p call buffer total) :
    Parked k { task with wakeReason := .none, state := state, frame := frame } :=
  ⟨fun h => absurd h hp, fun h => absurd h hw, fun h => absurd h hl,
    fun _ => ⟨fun p count h => absurd h (hr p count), fun p call buffer total h => absurd h (hwr p call buffer total)⟩⟩

theorem Flight.writing_none (hw : fl.writing = none) : { fl with writing := none } = fl := by
  cases fl
  cases hw
  rfl

/-- The task suspends without having done anything, outside a pipe write. -/
theorem block_ends {state : TaskState} {frame : Frame} (hc : k.current = some t) (hw : fl.writing = none)
    (hframe : frame.writing = none) (hs : suspended state = true) (he : frame ≠ .entry)
    (hp : ∀ task, k.task t = some task →
      Parked k { task with wakeReason := .none, state := state, frame := frame }) :
    Ends gone k fl t fl (k, .block state frame) := by
  refine ⟨?_, hc, hs, he, hp⟩
  rw [hframe, Flight.writing_none hw]
  exact .refl

theorem consoleRead_ends (h : Host) (count : ℕ) (hc : k.current = some t) (hw : fl.writing = none) :
    Ends gone k fl t fl (consoleRead h k count) := by
  rw [consoleRead]
  split
  · exact ⟨.refl, hc⟩
  split
  · exact block_ends hc hw rfl rfl (by simp) fun _ _ => parked_other (by decide) (by decide) (by decide)
      (by simp) (by simp)
  split
  · exact ⟨.refl, hc⟩
  · exact ⟨.refl, hc⟩

theorem consoleWrite_returns (h : Host) (k : Kernel) (fl : Flight) (count : ℕ) :
    Returns gone k fl (k, consoleWrite h count) := by
  refine .of_outcome k fl ?_
  rw [consoleWrite]
  split
  · exact ⟨_, _, rfl⟩
  split
  · exact ⟨_, _, rfl⟩
  split
  · exact ⟨_, _, rfl⟩
  · exact ⟨_, _, rfl⟩

/-! ### Reading and writing -/

/-- The open file and the node behind it change together. -/
theorem nodeCall_returns {f : FileId} {file file' : OpenFile} {n : NodeId} {node node' : Node} (r : Reply)
    (hb : Base k fl) (hf : k.files.get f = some file) (hn : k.vfs.node n = some node)
    (hface : file' = { file with offset := file'.offset }) (hfix : node'.fixed = node.fixed) :
    Returns gone k fl
      ({ k.setFile f fun _ => file' with vfs := k.vfs.setNode n fun _ => node' }, .done r .none) := by
  have hoffset : Path gone k fl (k.setFile f fun _ => file') fl := setOffset_path hb hf hface
  exact (hoffset.trans (setContent_path hn hfix)).returns _ _

theorem apiRead_ends (h : Host) (descriptor : ℤ) (count : ℕ) (hb : Base k fl) (hc : k.current = some t)
    (hw : fl.writing = none) : Ends gone k fl t fl (apiRead h k t descriptor count) := by
  rw [apiRead]
  split
  · exact ⟨.refl, hc⟩
  rename_i f file hfile
  obtain ⟨-, -, -, -, -, hf⟩ := slot_of_fileOf hfile
  have hh := HasDescriptor.of_fileOf hfile
  split
  · exact ⟨.refl, hc⟩
  · exact ⟨.refl, hc⟩
  · split
    · exact ⟨.refl, hc⟩
    split
    · exact ⟨.refl, hc⟩
    rename_i node hn
    exact (nodeCall_returns _ hb hf hn (nodeRead_file h file node count)
      (fixed_nodeRead h file node count)).ends hc
  · rename_i p hobj
    rw [hobj] at hh
    split
    · exact ⟨.refl, hc⟩
    · exact pipeRead_ends count hb hc hw hh
  · split
    · exact ⟨.refl, hc⟩
    · exact consoleRead_ends h count hc hw

theorem apiWrite_ends (h : Host) (descriptor : ℤ) (buffer : Bytes) (hb : Base k fl) (hc : k.current = some t)
    (hw : fl.writing = none) : Ends gone k fl t fl (apiWrite h k t descriptor buffer) := by
  rw [apiWrite]
  split
  · exact ⟨.refl, hc⟩
  rename_i f file hfile
  obtain ⟨-, -, -, -, -, hf⟩ := slot_of_fileOf hfile
  have hh := HasDescriptor.of_fileOf hfile
  split
  · exact ⟨.refl, hc⟩
  · exact ⟨.refl, hc⟩
  · split
    · exact ⟨.refl, hc⟩
    split
    · exact ⟨.refl, hc⟩
    rename_i node hn
    exact (nodeCall_returns _ hb hf hn (nodeWrite_file h file node buffer)
      (fixed_nodeWrite h file node buffer)).ends hc
  · rename_i p hobj
    rw [hobj] at hh
    split
    · exact ⟨.refl, hc⟩
    · have hbegin : Moves gone k fl { k with calls := k.calls + 1 }
          { fl with writing := some ⟨p, k.calls, buffer, 0⟩ } := .single (.beginWrite hw)
      have hend : Ends gone k fl t { fl with writing := none }
          (pipeWrite { k with calls := k.calls + 1 } p k.calls buffer 0) :=
        .after hbegin (pipeWrite_ends (hb.moves hbegin) hc rfl hh)
      rwa [Flight.writing_none hw] at hend
  · split
    · exact ⟨.refl, hc⟩
    · exact (consoleWrite_returns h k fl buffer.length).ends hc

/-! ### Poll -/

/-- Whether the console has input matters for the console only. -/
theorem filePoll_internal {file : OpenFile} (h : file.object.internal = true) (ready : Bool)
    (events : PollMask) : filePoll k ready file events = filePoll k false file events := by
  rw [filePoll, filePoll]
  cases ho : file.object with
  | node n => rfl
  | pipeRead p => rfl
  | pipeWrite p => rfl
  | consoleInput =>
    rw [ho] at h
    cases h
  | consoleOutput s => rfl

/-- A scan that finds nothing finds every descriptor unready. -/
theorem unready_of_scan {h : Host} {task : Task} {fds : List PollFd} (ht : k.task t = some task)
    (hscan : (pollScan h k t fds).countP PollResult.ready = 0) : ∀ entry ∈ fds, Unready k task entry := by
  intro entry hmem d slot file hd hslot hfile hint
  obtain ⟨i, hi, hget⟩ := List.mem_iff_getElem.mp hmem
  have hnot : ∀ r ∈ pollScan h k t fds, ¬ r.ready = true := List.countP_eq_zero.mp hscan
  have hr := hnot (pollEntry k t (decide (0 < h.consolePoll (i + 1))) entry) (by
    rw [pollScan, List.mem_iff_getElem]
    exact ⟨i, by simpa using hi, by rw [List.getElem_mapIdx, hget]⟩)
  have hpos : ¬ entry.fd < 0 := by
    rw [fdSlot] at hd
    split at hd
    · omega
    · cases hd
  have hof : fileOf k t entry.fd = some (slot.file, file) := by
    rw [fileOf, hd]
    dsimp only
    rw [slot_eq ht, hslot]
    dsimp only
    rw [hfile]
    rfl
  rw [pollEntry, if_neg hpos, hof] at hr
  simp only [PollResult.ready, Bool.false_or, decide_eq_true_eq, not_not] at hr
  rw [← hr]
  exact (filePoll_internal hint _ _).symm

theorem pollLoop_ends (h : Host) (fds : List PollFd) (hc : k.current = some t) (hw : fl.writing = none) :
    Ends gone k fl t fl (pollLoop h k t fds) := by
  rw [pollLoop]
  split
  · exact ⟨.refl, hc⟩
  rename_i task ht
  dsimp only
  split
  · exact ⟨.refl, hc⟩
  rename_i hnone
  split
  · exact ⟨.refl, hc⟩
  split
  · exact ⟨.refl, hc⟩
  refine block_ends hc hw rfl rfl (by simp) fun task' ht' => ?_
  rw [ht, Option.some.injEq] at ht'
  subst ht'
  have hzero : (pollScan h k t fds).countP PollResult.ready = 0 := by
    by_contra hne
    exact hnone (.inl (Nat.pos_of_ne_zero hne))
  refine ⟨fun h => (by cases h), fun h => (by cases h), fun _ => ⟨fds, rfl, ?_⟩, fun _ => ?_⟩
  · intro entry hmem d slot file hd hslot hfile hint
    exact unready_of_scan ht hzero entry hmem d slot file hd hslot hfile hint
  · exact ⟨fun p count h => (by cases h), fun p call buffer total h => (by cases h)⟩

theorem apiPoll_ends (h : Host) (fds : List PollFd) (timeout : ℤ) (hc : k.current = some t)
    (hw : fl.writing = none) : Ends gone k fl t fl (apiPoll h k t fds timeout) := by
  have hstart : Moves gone k fl (k.setTask t fun task => { task with wakeStart := h.monotonic 0 }) fl :=
    .single (.sched (.calm (calm_setTask k t fun _ _ => ⟨rfl, rfl, rfl, .inl rfl, .inl rfl, .inl rfl, rfl, rfl⟩)))
  have hloop : ∀ k : Kernel, k.current = some t → Ends gone k fl t fl
      (pollLoop h (k.setTask t fun task => { task with wakeTimeout := timeout }) t fds) := by
    intro k hc
    have hnote : Moves gone k fl (k.setTask t fun task => { task with wakeTimeout := timeout }) fl :=
      .single (.sched (.calm (calm_setTask k t fun _ _ => ⟨rfl, rfl, rfl, .inl rfl, .inl rfl, .inl rfl, rfl, rfl⟩)))
    exact .after hnote (pollLoop_ends h fds hc hw)
  rw [apiPoll]
  split
  · exact ⟨.refl, hc⟩
  split
  · dsimp only
    split
    · exact ⟨hstart, hc⟩
    · exact .after hstart (hloop _ hc)
  · exact hloop k hc

end CannedBsd
