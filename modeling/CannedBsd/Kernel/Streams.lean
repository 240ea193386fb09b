import CannedBsd.Kernel.Reachable

/-!
# The bytes that go through a pipe

The trace records what reads took out of a pipe and what writes stored in it. At any time the bytes
taken out, followed by what the ring holds, are the bytes stored, in the order of storing.

A write that does not fit is suspended and goes on later. Until it returns, its record (the pipe, the
buffer, how much of it is stored) belongs either to the running call or to one suspended task, and it
never has two owners; so no other call stores bytes under its number.

* `fetchedFrom_pipeRead`: a read returns the bytes the trace says it took.
* `trace_pipeWriteLoop`: a write returns the value that ends its record.
* `Streams.micro`, `Ledger.micro`: every elementary step keeps the streams and the owners of the writes.
* `reachable_streamsIntact`: in every reachable state the bytes read and the bytes held are the bytes stored,
  in order.
-/

namespace CannedBsd

open CannedBsd.Lib

variable {gone : NodeId → Prop} {k k' : Kernel} {fl fl' : Flight} {trace : List Event}

/-- The bytes queued in a pipe, oldest first. -/
def Pipe.contents (pipe : Pipe) : Bytes :=
  Ring.contents cbPipeBytes pipe.data pipe.readPosition pipe.used

/-! ### Histories -/

namespace Event

/-- What the event takes out of the pipe. -/
def taken (p : PipeId) : Event → Bytes
  | .fetched q bytes => if q = p then bytes else []
  | _ => []

/-- What the event adds to the pipe. -/
def added (p : PipeId) : Event → Bytes
  | .stored q _ bytes => if q = p then bytes else []
  | _ => []

/-- What the event stores for a write call. -/
def addedBy (call : ℕ) : Event → Bytes
  | .stored _ c bytes => if c = call then bytes else []
  | _ => []

end Event

/-- All bytes read from a pipe. -/
def fetchedFrom (trace : List Event) (p : PipeId) : Bytes := trace.flatMap (Event.taken p)

/-- All bytes stored in a pipe. -/
def storedIn (trace : List Event) (p : PipeId) : Bytes := trace.flatMap (Event.added p)

/-- All bytes a write call has stored. -/
def storedBy (trace : List Event) (call : ℕ) : Bytes := trace.flatMap (Event.addedBy call)

/-- The call stores into no other pipe. -/
def StoresOnly (trace : List Event) (call : ℕ) (p : PipeId) : Prop :=
  ∀ q bytes, Event.stored q call bytes ∈ trace → q = p

@[simp] theorem fetchedFrom_append (e : Event) (p : PipeId) :
    fetchedFrom (trace ++ [e]) p = fetchedFrom trace p ++ e.taken p := by
  simp [fetchedFrom]

@[simp] theorem storedIn_append (e : Event) (p : PipeId) :
    storedIn (trace ++ [e]) p = storedIn trace p ++ e.added p := by
  simp [storedIn]

@[simp] theorem storedBy_append (e : Event) (call : ℕ) :
    storedBy (trace ++ [e]) call = storedBy trace call ++ e.addedBy call := by
  simp [storedBy]

theorem trace_pipeClose (k : Kernel) (p : PipeId) (lower : Pipe → Pipe) :
    (pipeClose k p lower).trace = k.trace := by
  rw [pipeClose]
  split
  · rfl
  dsimp only
  split
  · rfl
  · rfl

theorem calls_pipeClose (k : Kernel) (p : PipeId) (lower : Pipe → Pipe) :
    (pipeClose k p lower).calls = k.calls := by
  rw [pipeClose]
  split
  · rfl
  dsimp only
  split
  · rfl
  · rfl

/-- A read that returns has taken out of the pipe, by the trace, the bytes it returns. -/
theorem fetchedFrom_pipeRead {k k' : Kernel} {p : PipeId} {count : ℕ} {r : Reply} {out : Out}
    (h : pipeRead k p count = (k', .done r out)) : fetchedFrom k'.trace p = fetchedFrom k.trace p ++ r.data := by
  rw [pipeRead] at h
  split at h
  · cases h
    exact (List.append_nil _).symm
  split at h
  · cases h
    exact (List.append_nil _).symm
  split at h
  · split at h
    · cases h
      exact (List.append_nil _).symm
    · cases h
  · cases h
    show fetchedFrom (k.trace ++ [.fetched p _]) p = _
    rw [fetchedFrom_append]
    simp [fetchedFrom, Event.taken]

/-- A write that returns ends the trace with the value it returns. -/
theorem trace_pipeWriteLoop {p : PipeId} {call : ℕ} {buffer : Bytes} {r : Reply} {out : Out} {k' : Kernel} (fuel : ℕ) :
    ∀ {k : Kernel} {total : ℕ}, (∃ pipe, k.pipes.get p = some pipe) →
      pipeWriteLoop p call buffer fuel k total = (k', .done r out) →
      k'.trace.getLast? = some (.wrote p call buffer r.value) := by
  have hreturn : ∀ {k : Kernel} {reply : Reply}, pipeWriteReturn k p call buffer reply = (k', .done r out) →
      k'.trace.getLast? = some (.wrote p call buffer r.value) := by
    intro k reply h
    cases h
    exact List.getLast?_concat
  induction fuel with
  | zero =>
    intro k total _ h
    cases h
  | succ fuel ih =>
    intro k total hp h
    obtain ⟨pipe, hpipe⟩ := hp
    rw [pipeWriteLoop] at h
    split at h
    · exact hreturn h
    rw [hpipe] at h
    dsimp only at h
    split at h
    · exact hreturn h
    split at h
    · cases h
    · refine ih ?_ h
      exact ⟨_, (Heap.get_modify_self _ _ _).trans (congrArg _ hpipe)⟩

/-! ### The ring -/

theorem Pipe.Fits.take_contents {pipe : Pipe} (h : pipe.Fits) {amount : ℕ} (hle : amount ≤ pipe.used) :
    pipeTake pipe amount = pipe.contents.take amount := by
  rw [Pipe.contents, Ring.contents_take, Nat.min_eq_left hle]
  exact Ring.read_two_pieces pipe.data h.position (hle.trans h.used)

theorem Pipe.contents_drop (pipe : Pipe) (amount : ℕ) :
    Pipe.contents { pipe with
      readPosition := (pipe.readPosition + amount) % cbPipeBytes
      used := pipe.used - amount } = pipe.contents.drop amount := by
  rw [Pipe.contents, Pipe.contents, Ring.contents_drop]
  exact Ring.contents_mod _ _ _

theorem Pipe.Fits.contents_put {pipe : Pipe} {bytes : Bytes}
    (hle : pipe.used + bytes.length ≤ cbPipeBytes) :
    Pipe.contents { pipe with data := pipePut pipe bytes, used := pipe.used + bytes.length } =
      pipe.contents ++ bytes := by
  have hput : pipePut pipe bytes = Ring.put cbPipeBytes pipe.data (pipe.readPosition + pipe.used) bytes := by
    rw [← Ring.put_mod]
    exact Ring.write_two_pieces pipe.data bytes (Nat.mod_lt _ (by decide)) (by omega)
  rw [Pipe.contents, Pipe.contents, hput]
  exact Ring.contents_put pipe.data pipe.readPosition pipe.used bytes hle

/-- What was read and what the ring holds is what was stored. -/
structure Streams (k : Kernel) : Prop where
  balance : ∀ {p pipe}, k.pipes.get p = some pipe →
    fetchedFrom k.trace p ++ pipe.contents = storedIn k.trace p
  fresh : ∀ {p}, k.pipes.next ≤ p → fetchedFrom k.trace p = [] ∧ storedIn k.trace p = []

namespace Streams

/-- No bytes move. -/
theorem keep (h : Streams k) (hnext : k.pipes.next ≤ k'.pipes.next)
    (htaken : ∀ p, fetchedFrom k'.trace p = fetchedFrom k.trace p)
    (hadded : ∀ p, storedIn k'.trace p = storedIn k.trace p)
    (hback : ∀ p pipe', k'.pipes.get p = some pipe' →
      ∃ pipe, k.pipes.get p = some pipe ∧ pipe'.contents = pipe.contents) : Streams k' := by
  constructor
  · intro p pipe' hp'
    obtain ⟨pipe, hp, hc⟩ := hback p pipe' hp'
    rw [htaken, hadded, hc]
    exact h.balance hp
  · intro p hp
    rw [htaken, hadded]
    exact h.fresh (hnext.trans hp)

theorem same (h : Streams k) (hp : k'.pipes = k.pipes) (ht : k'.trace = k.trace) : Streams k' := by
  refine h.keep (by rw [hp]) (fun p => by rw [ht]) (fun p => by rw [ht]) fun p pipe hpipe => ?_
  rw [hp] at hpipe
  exact ⟨pipe, hpipe, rfl⟩

theorem pipeClose {f : FileId} {p : PipeId} {lower : Pipe → Pipe} (h : Streams k)
    (hl : ∀ pipe, (lower pipe).contents = pipe.contents) :
    Streams (pipeClose ({ k with files := k.files.free f }.log (.lastClose f)) p lower) := by
  have hlog : Streams ({ k with files := k.files.free f }.log (.lastClose f)) := by
    refine h.keep le_rfl ?_ ?_ fun q pipe hq => ⟨pipe, hq, rfl⟩
    · intro q
      exact (fetchedFrom_append _ q).trans (List.append_nil _)
    · intro q
      exact (storedIn_append _ q).trans (List.append_nil _)
  generalize { k with files := k.files.free f }.log (.lastClose f) = k₁ at hlog
  rw [CannedBsd.pipeClose]
  split
  · exact hlog
  have hlow : Streams (cbWakePipeTasks (k₁.setPipe p lower)) := by
    refine hlog.keep (by exact (Heap.next_modify _ _ _).ge) (fun _ => rfl) (fun _ => rfl) ?_
    intro q pipe' hq
    rw [cbWakePipeTasks, forTasks, Kernel.setPipe, Heap.get_modify] at hq
    split at hq
    · obtain ⟨pipe, hpipe, rfl⟩ := Option.map_eq_some_iff.mp hq
      exact ⟨pipe, hpipe, hl pipe⟩
    · exact ⟨pipe', hq, rfl⟩
  dsimp only
  split
  · refine hlow.keep (by exact (Heap.next_free _ _).ge) (fun _ => rfl) (fun _ => rfl) ?_
    intro q pipe' hq
    rw [Heap.get_free] at hq
    split at hq
    · cases hq
    · exact ⟨pipe', hq, rfl⟩
  · exact hlow

theorem fetch {p : PipeId} {pipe : Pipe} {amount : ℕ} (h : Streams k) (hr : Rings k)
    (hp : k.pipes.get p = some pipe) (hle : amount ≤ pipe.used) :
    Streams (cbWakePipeTasks ((k.setPipe p fun pipe =>
      { pipe with
        readPosition := (pipe.readPosition + amount) % cbPipeBytes
        used := pipe.used - amount }).log (.fetched p (pipeTake pipe amount)))) := by
  have htrace : ∀ q, fetchedFrom (k.trace ++ [.fetched p (pipeTake pipe amount)]) q =
      fetchedFrom k.trace q ++ if p = q then pipeTake pipe amount else [] := fetchedFrom_append _
  have hadded : ∀ q, storedIn (k.trace ++ [.fetched p (pipeTake pipe amount)]) q = storedIn k.trace q := by
    intro q
    rw [storedIn_append]
    exact List.append_nil _
  constructor
  · intro q pipe' hq
    change (k.pipes.modify p _).get q = some pipe' at hq
    change fetchedFrom (k.trace ++ [_]) q ++ _ = storedIn (k.trace ++ [_]) q
    rw [htrace, hadded]
    rw [Heap.get_modify] at hq
    split at hq
    · rename_i heq
      subst heq
      rw [hp, Option.map_some, Option.some.injEq] at hq
      subst hq
      rw [if_pos rfl, (hr _ _ hp).take_contents hle, Pipe.contents_drop, List.append_assoc,
        List.take_append_drop]
      exact h.balance hp
    · rename_i hne
      rw [if_neg fun heq => hne heq.symm, List.append_nil]
      exact h.balance hq
  · intro q hq
    have hq' : k.pipes.next ≤ q := (Heap.next_modify _ _ _).ge.trans hq
    change fetchedFrom (k.trace ++ [_]) q = [] ∧ storedIn (k.trace ++ [_]) q = []
    have hne : p ≠ q := (lt_of_lt_of_le (Heap.lt_next_of_get hp) hq').ne
    rw [htrace, hadded, if_neg hne, List.append_nil]
    exact h.fresh hq'

theorem store {p : PipeId} {call : ℕ} {pipe : Pipe} {bytes : Bytes} (h : Streams k)
    (hp : k.pipes.get p = some pipe) (hle : pipe.used + bytes.length ≤ cbPipeBytes) :
    Streams (cbWakePipeTasks ((k.setPipe p fun pipe =>
      { pipe with data := pipePut pipe bytes, used := pipe.used + bytes.length }).log
        (.stored p call bytes))) := by
  have htaken : ∀ q, fetchedFrom (k.trace ++ [.stored p call bytes]) q = fetchedFrom k.trace q := by
    intro q
    rw [fetchedFrom_append]
    exact List.append_nil _
  have hadded : ∀ q, storedIn (k.trace ++ [.stored p call bytes]) q =
      storedIn k.trace q ++ if p = q then bytes else [] := storedIn_append _
  constructor
  · intro q pipe' hq
    change (k.pipes.modify p _).get q = some pipe' at hq
    change fetchedFrom (k.trace ++ [_]) q ++ _ = storedIn (k.trace ++ [_]) q
    rw [htaken, hadded]
    rw [Heap.get_modify] at hq
    split at hq
    · rename_i heq
      subst heq
      rw [hp, Option.map_some, Option.some.injEq] at hq
      subst hq
      rw [if_pos rfl, Pipe.Fits.contents_put hle, ← List.append_assoc, h.balance hp]
    · rename_i hne
      rw [if_neg fun heq => hne heq.symm, List.append_nil]
      exact h.balance hq
  · intro q hq
    have hq' : k.pipes.next ≤ q := (Heap.next_modify _ _ _).ge.trans hq
    change fetchedFrom (k.trace ++ [_]) q = [] ∧ storedIn (k.trace ++ [_]) q = []
    have hne : p ≠ q := (lt_of_lt_of_le (Heap.lt_next_of_get hp) hq').ne
    rw [htaken, hadded, if_neg hne, List.append_nil]
    exact h.fresh hq'

theorem micro (h : Streams k) (hr : Rings k) (hm : Micro gone k fl k' fl') : Streams k' := by
  cases hm with
  | vfs hv => exact h.same rfl rfl
  | sched hs => exact h.same hs.pointers.pipes hs.pointers.trace
  | hold => exact h.same rfl rfl
  | create => exact h.same rfl rfl
  | destroy => exact h.same rfl rfl
  | leak => exact h
  | file => exact h.same rfl rfl
  | openFile => exact h.same rfl rfl
  | closeFile =>
    refine h.keep le_rfl ?_ ?_ fun p pipe hp => ⟨pipe, hp, rfl⟩
    · intro p
      exact (fetchedFrom_append _ p).trans (List.append_nil _)
    · intro p
      exact (storedIn_append _ p).trans (List.append_nil _)
  | openPipe =>
    constructor
    · intro p pipe hp
      rw [Heap.get_alloc] at hp
      split at hp
      · rename_i heq
        cases hp
        obtain ⟨htaken, hadded⟩ := h.fresh heq.ge
        change fetchedFrom k.trace p ++ [] = storedIn k.trace p
        rw [htaken, hadded]
        rfl
      · exact h.balance hp
    · intro p hp
      rw [Heap.next_alloc] at hp
      exact h.fresh (by omega)
  | @openWriter _ p pipe b hp hz hb =>
    refine h.keep (by exact (Heap.next_modify _ _ _).ge) (fun _ => rfl) (fun _ => rfl) ?_
    intro q pipe' hq
    rw [Kernel.setPipe, Heap.get_modify] at hq
    split at hq
    · obtain ⟨old, hold, rfl⟩ := Option.map_eq_some_iff.mp hq
      exact ⟨old, hold, rfl⟩
    · exact ⟨pipe', hq, rfl⟩
  | closeReader => exact h.pipeClose fun _ => rfl
  | closeWriter => exact h.pipeClose fun _ => rfl
  | fetch hp hle => exact h.fetch hr hp hle
  | beginWrite => exact h.same rfl rfl
  | @store _ w pipe bytes hw hp hne hbytes =>
    have hlen : bytes.length ≤ cbPipeBytes - pipe.used := by
      rw [hbytes]
      exact List.length_take_le _ _
    have hused := (hr _ _ hp).used
    exact h.store hp (by omega)
  | endWrite =>
    refine h.keep le_rfl ?_ ?_ fun p pipe hp => ⟨pipe, hp, rfl⟩
    · intro p
      exact (fetchedFrom_append _ p).trans (List.append_nil _)
    · intro p
      exact (storedIn_append _ p).trans (List.append_nil _)

end Streams

/-! ### Writes in progress -/

/-- The write an owner has to go on with: `none` stands for the running call, a task for itself while
it is suspended. -/
def owned (k : Kernel) (fl : Flight) : Option TaskId → Option Writing
  | none => fl.writing
  | some t => ((k.task t).filter fun task => suspended task.state).bind fun task => task.frame.writing

theorem owned_task {t : TaskId} {task : Task} (ht : k.task t = some task) :
    owned k fl (some t) = if suspended task.state then task.frame.writing else none := by
  rw [owned, ht]
  cases hs : suspended task.state with
  | true => simp [Option.filter, hs]
  | false => simp [Option.filter, hs]

/-- A write in progress has stored the first bytes of its buffer and has not returned. -/
structure Underway (k : Kernel) (w : Writing) : Prop where
  call : w.call < k.calls
  total : w.total ≤ w.buffer.length
  stored : storedBy k.trace w.call = w.buffer.take w.total
  only : StoresOnly k.trace w.call w.pipe
  unreturned : ∀ p buffer value, Event.wrote p w.call buffer value ∉ k.trace

/-- What a write that returned `value` has stored. -/
structure Returned (trace : List Event) (p : PipeId) (call : ℕ) (buffer : Bytes) (value : ℤ) : Prop where
  stored : (∃ n : ℕ, value = n ∧ n ≤ buffer.length ∧ storedBy trace call = buffer.take n) ∨
    value = -1 ∧ storedBy trace call = []
  only : StoresOnly trace call p

/-- The calls of the trace have been numbered, and every write call is in progress or has returned. -/
structure Ledger (k : Kernel) (fl : Flight) : Prop where
  numbered : ∀ {q call bytes}, Event.stored q call bytes ∈ k.trace → call < k.calls
  returned : ∀ {p call buffer value}, Event.wrote p call buffer value ∈ k.trace →
    call < k.calls ∧ Returned k.trace p call buffer value
  underway : ∀ {o w}, owned k fl o = some w → Underway k w
  distinct : ∀ {o o' w w'}, owned k fl o = some w → owned k fl o' = some w' → w.call = w'.call → o = o'

namespace Ledger

/-- Writes change their owners, and nothing is written. -/
theorem move (h : Ledger k fl) (f : Option TaskId → Option TaskId) (hf : Function.Injective f)
    (ht : k'.trace = k.trace) (hc : k'.calls = k.calls)
    (hown : ∀ o w, owned k' fl' o = some w → owned k fl (f o) = some w) : Ledger k' fl' := by
  refine ⟨?_, ?_, ?_, ?_⟩
  · rw [ht, hc]
    exact h.numbered
  · rw [ht, hc]
    exact h.returned
  · intro o w ho
    obtain ⟨hcall, htotal, hstored, honly, hopen⟩ := h.underway (hown o w ho)
    refine ⟨?_, htotal, ?_, ?_, ?_⟩
    · rwa [hc]
    · rwa [ht]
    · rwa [ht]
    · rwa [ht]
  · intro o o' w w' ho ho' heq
    exact hf (h.distinct (hown o w ho) (hown o' w' ho') heq)

/-- Nobody gets a new write. -/
theorem shrink (h : Ledger k fl) (ht : k'.trace = k.trace) (hc : k'.calls = k.calls)
    (hown : ∀ o w, owned k' fl' o = some w → owned k fl o = some w) : Ledger k' fl' :=
  h.move id Function.injective_id ht hc hown

/-- A task that rests keeps its write. -/
theorem owned_resting (hr : Resting k k') (hw : fl'.writing = fl.writing) (o : Option TaskId) (w : Writing)
    (ho : owned k' fl' o = some w) : owned k fl o = some w := by
  cases o with
  | none => rwa [owned, ← hw]
  | some t =>
    cases ht' : k'.task t with
    | none =>
      rw [owned, ht'] at ho
      cases ho
    | some task' =>
      obtain ⟨task, ht, hrest⟩ := hr.tasks ht'
      rw [owned_task ht'] at ho
      rw [owned_task ht]
      split at ho
      · rename_i hs
        have hold : suspended task.state = true := by
          rcases hrest.state with heq | ⟨hb, -⟩
          · rwa [← heq]
          · exact suspended_of_blocked hb
        have hframe : task'.frame = task.frame := by
          rcases hrest.frame with heq | ⟨hrun, -⟩
          · exact heq
          · rw [hrun] at hold
            cases hold
        rw [if_pos hold, ← hframe]
        exact ho
      · cases ho

theorem resting (h : Ledger k fl) (hr : Resting k k') (ht : k'.trace = k.trace) (hc : k'.calls = k.calls)
    (hw : fl'.writing = fl.writing) : Ledger k' fl' :=
  h.shrink ht hc (owned_resting hr hw)

/-- A task that is rewritten so that it owns no write. -/
theorem setTask (h : Ledger k fl) {t : TaskId} {f : Task → Task} (htask : ∀ c, k'.task c = (k.setTask t f).task c)
    (ht : k'.trace = k.trace) (hc : k'.calls = k.calls) (hw : fl'.writing = fl.writing ∨ fl'.writing = none)
    (hf : ∀ task, k.task t = some task → suspended (f task).state = true → (f task).frame.writing = none ∨
      suspended task.state = true ∧ (f task).frame = task.frame) : Ledger k' fl' := by
  refine h.shrink ht hc fun o w ho => ?_
  cases o with
  | none =>
    rcases hw with hw | hw
    · rwa [owned, ← hw]
    · rw [owned, hw] at ho
      cases ho
  | some c =>
    by_cases hct : c = t
    · subst hct
      cases hget : k.task c with
      | none =>
        rw [owned, htask, Kernel.task_setTask, if_pos rfl, hget] at ho
        cases ho
      | some task =>
        have hget' : k'.task c = some (f task) := (htask c).trans (Kernel.task_setTask_self f hget)
        rw [owned_task hget'] at ho
        rw [owned_task hget]
        split at ho
        · rename_i hs
          rcases hf task hget hs with hnone | ⟨hold, hframe⟩
          · rw [hnone] at ho
            cases ho
          · rw [if_pos hold, ← hframe]
            exact ho
        · cases ho
    · rw [owned, htask, Kernel.task_setTask_of_ne _ _ hct] at ho
      exact ho

/-- The running call and a task exchange what they own. -/
theorem exchange (h : Ledger k fl) {t : TaskId} (ht : k'.trace = k.trace) (hc : k'.calls = k.calls)
    (hcall : ∀ w, fl'.writing = some w → owned k fl (some t) = some w)
    (htask : ∀ w, owned k' fl' (some t) = some w → fl.writing = some w)
    (hother : ∀ c, c ≠ t → k'.task c = k.task c) : Ledger k' fl' := by
  refine h.move (Equiv.swap none (some t)) (Equiv.injective _) ht hc fun o w ho => ?_
  cases o with
  | none =>
    rw [Equiv.swap_apply_left]
    exact hcall w ho
  | some c =>
    by_cases hct : c = t
    · subst hct
      rw [Equiv.swap_apply_right]
      exact htask w ho
    · have hne : (some c : Option TaskId) ≠ some t := fun heq => hct (Option.some.inj heq)
      rw [Equiv.swap_apply_of_ne_of_ne (by simp) hne]
      rwa [owned, hother c hct] at ho

theorem sched (h : Ledger k fl) (hs : Sched k fl k' fl') : Ledger k' fl' := by
  cases hs with
  | calm hc => exact h.resting hc.rest hc.trace hc.calls rfl
  | @dispatch _ t task hcur hfin hmem ht hst hw =>
    have ht' : (dispatch k t).task t = some { task with state := .running } := Kernel.task_setTask_self _ ht
    refine h.exchange (t := t) rfl rfl ?_ ?_ fun c hc => Kernel.task_setTask_of_ne _ _ hc
    · intro w hfw
      rw [owned_task ht, hst]
      exact hfw
    · intro w ho
      rw [owned_task ht'] at ho
      cases ho
  | @yield _ t task state frame hcur ht hsus hp hw hf =>
    have ht' : (cbTaskYieldAs k t state frame).task t =
        some { task with wakeReason := .none, state := state, frame := frame } :=
      Kernel.task_setTask_self _ ht
    refine h.exchange (t := t) rfl rfl ?_ ?_ fun c hc => Kernel.task_setTask_of_ne _ _ hc
    · intro w hfw
      cases hfw
    · intro w ho
      rw [owned_task ht', if_pos hsus] at ho
      rw [← hw]
      exact ho
  | @exec _ t task hcur ht hw =>
    exact h.setTask (t := t) (f := fun task => { task with wakeReason := .none, state := .execPending, frame := .entry })
      (fun _ => rfl) rfl rfl (.inl rfl) fun _ _ _ => .inl rfl
  | @restart _ t task f fatal hfin ht hh hpid hppid hpend hst hfr hfit hexit =>
    refine h.setTask (t := t) (f := f) (fun _ => rfl) rfl rfl (.inl rfl) fun task' ht' _ => .inl ?_
    rw [ht, Option.some.injEq] at ht'
    subst ht'
    rw [hfr]
    rfl
  | @leave _ t task status hcur ht hdirs =>
    obtain ⟨finished, bootStatus, heq⟩ := retire_eq k t task status
    have hretire : Ledger (retire k t task status) { fl with writing := none } := by
      rw [heq]
      refine h.setTask (t := t) (f := fun task => { task with exitStatus := status % 256, state := .zombie })
        (fun _ => rfl) rfl rfl (.inr rfl) fun _ _ hsus => ?_
      cases hsus
    have hrest := Roster.resting_wakeWaitingParent (retire k t task status) task
    have htrace := (pointers_wakeWaitingParent (retire k t task status) task).trace
    have hcalls : (CannedBsd.leave k t task status).calls = (retire k t task status).calls := by
      rw [CannedBsd.leave, wakeWaitingParent]
      split
      · rfl
      · rfl
    exact (hretire.resting hrest htrace hcalls rfl).shrink rfl rfl fun o w ho => by cases o <;> exact ho
  | list hl ht hmem hst hfr => exact h.shrink rfl rfl fun o w ho => by cases o <;> exact ho
  | @unlist _ p c parent child hl hcur hp hppid hmem ht hst =>
    refine h.setTask (t := c) (f := fun task => { task with state := .dead }) (fun _ => rfl) rfl rfl (.inl rfl)
      fun _ _ hsus => ?_
    cases hsus

/-- A new call has a new number. -/
theorem beginWrite {p : PipeId} {buffer : Bytes} (h : Ledger k fl) :
    Ledger { k with calls := k.calls + 1 } { fl with writing := some ⟨p, k.calls, buffer, 0⟩ } := by
  have hold : ∀ {o w}, o ≠ none →
      owned { k with calls := k.calls + 1 } { fl with writing := some ⟨p, k.calls, buffer, 0⟩ } o = some w →
        owned k fl o = some w := by
    intro o w hne ho
    cases o with
    | none => exact absurd rfl hne
    | some t => exact ho
  refine ⟨fun hs => (h.numbered hs).trans (Nat.lt_succ_self _), ?_, ?_, ?_⟩
  · intro q call b value hmem
    obtain ⟨hlt, hret⟩ := h.returned hmem
    exact ⟨hlt.trans (Nat.lt_succ_self _), hret⟩
  · intro o w ho
    by_cases hne : o = none
    · subst hne
      cases ho
      refine ⟨Nat.lt_succ_self _, Nat.zero_le _, ?_, ?_, ?_⟩
      · rw [List.take_zero, storedBy, List.flatMap_eq_nil_iff]
        intro e he
        cases e with
        | stored q c bytes => exact if_neg (h.numbered he).ne
        | lastClose => rfl
        | fetched => rfl
        | wrote => rfl
      · intro q bytes hmem
        exact absurd rfl (h.numbered hmem).ne
      · intro q b value hmem
        exact absurd rfl (h.returned hmem).1.ne
    · obtain ⟨hcall, htotal, hstored, honly, hopen⟩ := h.underway (hold hne ho)
      exact ⟨hcall.trans (Nat.lt_succ_self _), htotal, hstored, honly, hopen⟩
  · intro o o' w w' ho ho' heq
    by_cases hne : o = none
    · by_cases hne' : o' = none
      · rw [hne, hne']
      · subst hne
        cases ho
        have hlt := (h.underway (hold hne' ho')).call
        rw [← heq] at hlt
        exact absurd hlt (lt_irrefl _)
    · by_cases hne' : o' = none
      · subst hne'
        cases ho'
        have hlt := (h.underway (hold hne ho)).call
        rw [heq] at hlt
        exact absurd hlt (lt_irrefl _)
      · exact h.distinct (hold hne ho) (hold hne' ho') heq

/-- A store under another number changes nothing for a call. -/
theorem storedBy_other {c call : ℕ} {p : PipeId} {bytes : Bytes} (hne : call ≠ c) :
    storedBy (trace ++ [.stored p call bytes]) c = storedBy trace c := by
  rw [storedBy_append, Event.addedBy, if_neg hne, List.append_nil]

theorem StoresOnly.append {c call : ℕ} {p q : PipeId} {bytes : Bytes} (h : StoresOnly trace c q)
    (hcall : call = c → p = q) : StoresOnly (trace ++ [.stored p call bytes]) c q := by
  intro r bytes' hmem
  rcases List.mem_append.mp hmem with hmem | hmem
  · exact h r bytes' hmem
  · obtain ⟨rfl, rfl, -⟩ := Event.stored.inj (List.mem_singleton.mp hmem)
    exact hcall rfl

/-- The running call stores the next bytes of its buffer. -/
theorem store {w : Writing} {bytes : Bytes} {n : ℕ} (h : Ledger k fl) (hw : fl.writing = some w)
    (hbytes : bytes = (w.buffer.drop w.total).take n) (hrest : Resting k k') (hc : k'.calls = k.calls)
    (ht : k'.trace = k.trace ++ [.stored w.pipe w.call bytes]) :
    Ledger k' { fl with writing := some { w with total := w.total + bytes.length } } := by
  have hmine : owned k fl none = some w := hw
  have hown := h.underway hmine
  -- the other writes have other numbers
  have hother : ∀ {t w'}, owned k' { fl with writing := some { w with total := w.total + bytes.length } } (some t) =
      some w' → owned k fl (some t) = some w' ∧ w.call ≠ w'.call := by
    intro t w' ho
    have hold : owned k fl (some t) = some w' := owned_resting hrest rfl (some t) w' ho
    refine ⟨hold, fun heq => ?_⟩
    cases h.distinct hmine hold heq
  refine ⟨?_, ?_, ?_, ?_⟩
  · intro q call b hmem
    rw [ht] at hmem
    rw [hc]
    rcases List.mem_append.mp hmem with hmem | hmem
    · exact h.numbered hmem
    · obtain ⟨-, rfl, -⟩ := Event.stored.inj (List.mem_singleton.mp hmem)
      exact hown.call
  · intro p call buffer value hmem
    rw [ht, List.mem_append, List.mem_singleton] at hmem
    have hmem := hmem.resolve_right (by simp)
    obtain ⟨hlt, hstored, honly⟩ := h.returned hmem
    have hne : w.call ≠ call := by
      rintro rfl
      exact hown.unreturned _ _ _ hmem
    rw [hc, ht]
    refine ⟨hlt, ?_, StoresOnly.append honly fun heq => absurd heq hne⟩
    rw [storedBy_other hne]
    exact hstored
  · intro o w' ho
    cases o with
    | none =>
      cases ho
      have hlen : bytes.length ≤ w.buffer.length - w.total := by
        rw [hbytes, List.length_take, List.length_drop]
        exact Nat.min_le_right _ _
      have htake : bytes = (w.buffer.drop w.total).take bytes.length := by
        rw [hbytes, List.length_take, List.take_eq_take_iff]
        omega
      have htotal := hown.total
      refine ⟨?_, ?_, ?_, ?_, ?_⟩
      · rw [hc]
        exact hown.call
      · dsimp only
        omega
      · rw [ht, storedBy_append, Event.addedBy, if_pos rfl, hown.stored, List.take_add]
        exact congrArg _ htake
      · rw [ht]
        exact StoresOnly.append hown.only fun _ => rfl
      · intro p buffer value hmem
        rw [ht, List.mem_append, List.mem_singleton] at hmem
        exact hown.unreturned p buffer value (hmem.resolve_right (by simp))
    | some t =>
      obtain ⟨hold, hne⟩ := hother ho
      have hu := h.underway hold
      refine ⟨?_, hu.total, ?_, ?_, ?_⟩
      · rw [hc]
        exact hu.call
      · rw [ht, storedBy_other hne]
        exact hu.stored
      · rw [ht]
        exact StoresOnly.append hu.only fun heq => absurd heq hne
      · intro p buffer value hmem
        rw [ht, List.mem_append, List.mem_singleton] at hmem
        exact hu.unreturned p buffer value (hmem.resolve_right (by simp))
  · intro o o' w₁ w₂ ho ho' heq
    cases o with
    | none =>
      cases o' with
      | none => rfl
      | some t =>
        cases ho
        exact absurd heq (hother ho').2
    | some t =>
      cases o' with
      | none =>
        cases ho'
        exact absurd heq.symm (hother ho).2
      | some t' => exact h.distinct (hother ho).1 (hother ho').1 heq

/-- The running call returns. -/
theorem endWrite {w : Writing} {value : ℤ} (h : Ledger k fl) (hw : fl.writing = some w)
    (hv : value = w.total ∨ value = -1 ∧ w.total = 0) :
    Ledger (k.log (.wrote w.pipe w.call w.buffer value)) { fl with writing := none } := by
  have hmine : owned k fl none = some w := hw
  have hown := h.underway hmine
  have hby : ∀ c, storedBy (k.trace ++ [.wrote w.pipe w.call w.buffer value]) c = storedBy k.trace c := by
    intro c
    rw [storedBy_append]
    exact List.append_nil _
  have honly : ∀ {c p}, StoresOnly k.trace c p → StoresOnly (k.trace ++ [.wrote w.pipe w.call w.buffer value]) c p := by
    intro c p hs q bytes hmem
    rw [List.mem_append, List.mem_singleton] at hmem
    exact hs q bytes (hmem.resolve_right (by simp))
  refine ⟨?_, ?_, ?_, ?_⟩
  · intro q call bytes hmem
    rw [Kernel.log, List.mem_append, List.mem_singleton] at hmem
    exact h.numbered (hmem.resolve_right (by simp))
  · intro p call buffer value' hmem
    rw [Kernel.log, List.mem_append, List.mem_singleton] at hmem
    rcases hmem with hmem | hmem
    · obtain ⟨hlt, hstored, hon⟩ := h.returned hmem
      refine ⟨hlt, ?_, honly hon⟩
      rw [Kernel.log, hby]
      exact hstored
    · obtain ⟨rfl, rfl, rfl, rfl⟩ := Event.wrote.inj hmem
      refine ⟨hown.call, ?_, honly hown.only⟩
      rw [Kernel.log, hby, hown.stored]
      rcases hv with rfl | ⟨rfl, hz⟩
      · exact .inl ⟨w.total, rfl, hown.total, rfl⟩
      · exact .inr ⟨rfl, by rw [hz, List.take_zero]⟩
  · intro o w' ho
    cases o with
    | none => cases ho
    | some t =>
      have hold : owned k fl (some t) = some w' := ho
      have hu := h.underway hold
      refine ⟨hu.call, hu.total, ?_, honly hu.only, ?_⟩
      · rw [Kernel.log, hby]
        exact hu.stored
      · intro p buffer value' hmem
        rw [Kernel.log, List.mem_append, List.mem_singleton] at hmem
        rcases hmem with hmem | hmem
        · exact hu.unreturned p buffer value' hmem
        · obtain ⟨-, hcall, -, -⟩ := Event.wrote.inj hmem
          cases h.distinct hmine hold hcall.symm
  · intro o o' w₁ w₂ ho ho' heq
    cases o with
    | none => cases ho
    | some t =>
      cases o' with
      | none => cases ho'
      | some t' =>
        have hold : owned k fl (some t) = some w₁ := ho
        have hold' : owned k fl (some t') = some w₂ := ho'
        exact h.distinct hold hold' heq

/-- An event that does not belong to a write. -/
theorem log {e : Event} (h : Ledger k fl) (hs : ∀ p call bytes, e ≠ .stored p call bytes)
    (hr : ∀ p call buffer value, e ≠ .wrote p call buffer value) (hrest : Resting k k')
    (hc : k'.calls = k.calls) (ht : k'.trace = k.trace ++ [e]) (hw : fl'.writing = fl.writing) :
    Ledger k' fl' := by
  have hby : ∀ c, storedBy k'.trace c = storedBy k.trace c := by
    intro c
    have hnone : e.addedBy c = [] := by
      cases e with
      | stored p call bytes => exact absurd rfl (hs p call bytes)
      | lastClose => rfl
      | fetched => rfl
      | wrote => rfl
    rw [ht, storedBy_append, hnone, List.append_nil]
  have honly : ∀ {c p}, StoresOnly k.trace c p → StoresOnly k'.trace c p := by
    intro c p hon q bytes hmem
    rw [ht, List.mem_append, List.mem_singleton] at hmem
    exact hon q bytes (hmem.resolve_right (hs _ _ _).symm)
  have hown := owned_resting hrest hw
  refine ⟨?_, ?_, ?_, ?_⟩
  · intro q call bytes hmem
    rw [ht, List.mem_append, List.mem_singleton] at hmem
    rw [hc]
    exact h.numbered (hmem.resolve_right (hs _ _ _).symm)
  · intro p call buffer value hmem
    rw [ht, List.mem_append, List.mem_singleton] at hmem
    obtain ⟨hlt, hstored, hon⟩ := h.returned (hmem.resolve_right (hr _ _ _ _).symm)
    refine ⟨by rwa [hc], ?_, honly hon⟩
    rw [hby]
    exact hstored
  · intro o w ho
    have hu := h.underway (hown o w ho)
    refine ⟨?_, hu.total, ?_, honly hu.only, ?_⟩
    · rw [hc]
      exact hu.call
    · rw [hby]
      exact hu.stored
    · intro p buffer value hmem
      rw [ht, List.mem_append, List.mem_singleton] at hmem
      exact hu.unreturned p buffer value (hmem.resolve_right (hr _ _ _ _).symm)
  · intro o o' w w' ho ho' heq
    exact h.distinct (hown o w ho) (hown o' w' ho') heq

theorem hold {t : TaskId} {task : Task} {f : Task → Task} (h : Ledger k fl) (ht : k.task t = some task)
    (hx : Exchange gone k.vfs fl fl' task (f task)) : Ledger (k.setTask t f) fl' := by
  refine h.setTask (t := t) (f := f) (fun _ => rfl) rfl rfl (.inl hx.writing) fun task' ht' hsus => .inr ?_
  rw [ht, Option.some.injEq] at ht'
  subst ht'
  rw [hx.state] at hsus
  exact ⟨hsus, hx.frame⟩

theorem micro (h : Ledger k fl) (hm : Micro gone k fl k' fl') : Ledger k' fl' := by
  have hsame : ∀ {K : Kernel} {FL : Flight}, K.tasks = k.tasks → K.trace = k.trace → K.calls = k.calls →
      FL.writing = fl.writing → Ledger K FL := by
    intro K FL hK ht hc hw
    refine h.shrink ht hc fun o w ho => ?_
    cases o with
    | none => rwa [owned, ← hw]
    | some t => rwa [owned, Kernel.task, hK] at ho
  cases hm with
  | vfs hv => exact hsame rfl rfl rfl rfl
  | sched hs => exact h.sched hs
  | hold ht hx => exact h.hold ht hx
  | @create _ task a hl hn hs hroot hpid hst hfr hdirs hpend =>
    refine h.shrink rfl rfl fun o w ho => ?_
    cases o with
    | none => exact ho
    | some t =>
      rw [owned, Kernel.task, Heap.get_alloc] at ho
      split at ho
      · obtain ⟨task', htask, hw⟩ := Option.bind_eq_some_iff.mp ho
        rw [Option.filter_eq_some_iff] at htask
        cases htask.1
        rw [hfr] at hw
        cases hw
      · exact ho
  | @destroy _ t task a hl hmem ht ha hs =>
    refine h.shrink rfl rfl fun o w ho => ?_
    cases o with
    | none => exact ho
    | some c =>
      rw [owned, Kernel.task, Heap.get_free] at ho
      split at ho
      · cases ho
      · exact ho
  | leak => exact hsame rfl rfl rfl rfl
  | file => exact hsame rfl rfl rfl rfl
  | openFile => exact hsame rfl rfl rfl rfl
  | closeFile => exact h.log (by simp) (by simp) (.of_tasks rfl rfl rfl rfl rfl) rfl rfl rfl
  | openPipe => exact hsame rfl rfl rfl rfl
  | openWriter => exact hsame rfl rfl rfl rfl
  | @closeReader _ f file p b hf hlast ho hb =>
    exact h.log (e := .lastClose f) (by simp) (by simp) ((resting_pipeClose _ _ _).after rfl rfl rfl rfl rfl)
      (by rw [pipeReadClose, calls_pipeClose]; rfl) (by rw [pipeReadClose, trace_pipeClose]; rfl) rfl
  | @closeWriter _ f file p b hf hlast ho hb =>
    exact h.log (e := .lastClose f) (by simp) (by simp) ((resting_pipeClose _ _ _).after rfl rfl rfl rfl rfl)
      (by rw [pipeWriteClose, calls_pipeClose]; rfl) (by rw [pipeWriteClose, trace_pipeClose]; rfl) rfl
  | fetch =>
    exact h.log (by simp) (by simp) ((Books.calm_cbWakePipeTasks _).rest.after rfl rfl rfl rfl rfl) rfl rfl rfl
  | beginWrite => exact h.beginWrite
  | store hw hp hne hbytes =>
    exact h.store hw hbytes ((Books.calm_cbWakePipeTasks _).rest.after rfl rfl rfl rfl rfl) rfl rfl
  | endWrite hw hv => exact h.endWrite hw hv

end Ledger

/-! ### Runs -/

/-- Both parts of the history. -/
structure Historic (k : Kernel) (fl : Flight) : Prop where
  base : Base k fl
  streams : Streams k
  ledger : Ledger k fl

theorem Historic.moves (h : Historic k fl) (hm : Moves gone k fl k' fl') : Historic k' fl' := by
  induction hm with
  | refl => exact h
  | step _ hs ih => exact ⟨ih.base.micro hs, ih.streams.micro ih.base.rings hs, ih.ledger.micro hs⟩

theorem owned_create (h : Host) (l : NodeId → ℕ) (o : Option TaskId) :
    owned (cbKernelCreate h) (.rest l) o = none := by
  cases o with
  | none => rfl
  | some t =>
    have ht : (cbKernelCreate h).task t = none := Heap.get_empty t
    rw [owned, ht]
    rfl

theorem historic_cbKernelCreate (h : Host) : Historic (cbKernelCreate h) (.rest fun _ => 0) := by
  have hpipes : (cbKernelCreate h).pipes = .empty := rfl
  have htrace : (cbKernelCreate h).trace = [] := rfl
  refine ⟨base_cbKernelCreate h, ⟨?_, ?_⟩, ⟨?_, ?_, ?_, ?_⟩⟩
  · intro p pipe hp
    rw [hpipes, Heap.get_empty] at hp
    cases hp
  · intro p _
    rw [htrace]
    exact ⟨rfl, rfl⟩
  · rw [htrace]
    simp
  · rw [htrace]
    simp
  · intro o w ho
    rw [owned_create] at ho
    cases ho
  · intro o o' w w' ho
    rw [owned_create] at ho
    cases ho

theorem Reachable.historic (hr : Reachable k) : ∃ l, Historic k (.rest l) := by
  obtain ⟨h, hr⟩ := hr
  have hinv : ∃ l, Historic k (.rest l) ∧ Pledged k := by
    refine hr.invariant (P := fun k => ∃ l, Historic k (.rest l) ∧ Pledged k)
      ⟨_, historic_cbKernelCreate h, pledged_of_not_finishing rfl⟩ ?_
    rintro k a k' - hs ⟨l, hh, hp⟩
    obtain ⟨l', hm, hp', -⟩ := step_moves hh.base hp hs
    exact ⟨l', hh.moves hm, hp'⟩
  obtain ⟨l, hh, -⟩ := hinv
  exact ⟨l, hh⟩

/-- What the history says about the pipes and the writes. -/
structure StreamsIntact (k : Kernel) : Prop where
  /-- The ring is well formed, and nothing was lost, made up or reordered. -/
  rings : ∀ p pipe, k.pipes.get p = some pipe → pipe.readPosition < cbPipeBytes ∧ pipe.used ≤ cbPipeBytes ∧
    fetchedFrom k.trace p ++ pipe.contents = storedIn k.trace p
  /-- A write that returned `n` has stored the first `n` bytes of its buffer, and only those. -/
  stored : ∀ p call buffer (n : ℕ), 0 < n → Event.wrote p call buffer n ∈ k.trace →
    n ≤ buffer.length ∧ storedBy k.trace call = buffer.take n ∧ StoresOnly k.trace call p
  /-- A write that failed has stored nothing. -/
  failed : ∀ p call buffer, Event.wrote p call buffer (-1) ∈ k.trace → storedBy k.trace call = []

/-- **Pipe streams.**  In every reachable state the bytes read from a pipe and the bytes it holds are
the bytes stored in it, and every write has stored what its result says. -/
theorem reachable_streamsIntact (hr : Reachable k) : StreamsIntact k := by
  obtain ⟨l, hh⟩ := hr.historic
  refine ⟨?_, ?_, ?_⟩
  · intro p pipe hp
    exact ⟨(hh.base.rings p pipe hp).position, (hh.base.rings p pipe hp).used, hh.streams.balance hp⟩
  · intro p call buffer n hn hmem
    obtain ⟨-, ⟨m, hm, hle, hstored⟩ | ⟨hneg, -⟩, honly⟩ := hh.ledger.returned hmem
    · obtain rfl : n = m := by exact_mod_cast hm
      exact ⟨hle, hstored, honly⟩
    · omega
  · intro p call buffer hmem
    obtain ⟨-, ⟨m, hm, -, -⟩ | ⟨-, hstored⟩, -⟩ := hh.ledger.returned hmem
    · omega
    · exact hstored

/-- The shell writes three bytes to a pipe and reads two of them. -/
def pipeRun : Kernel := stateAfter (shellStart ++ calls [.pipe, .write 4 [97, 98, 99], .read 3 2])

theorem reachable_streamsIntact_pipeRun :
    fetchedFrom pipeRun.trace 0 = [97, 98] ∧ storedIn pipeRun.trace 0 = [97, 98, 99] ∧
      StreamsIntact pipeRun :=
  ⟨by decide +kernel, by decide +kernel, reachable_streamsIntact (reachable_stateAfter _)⟩

end CannedBsd
