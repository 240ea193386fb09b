import CannedBsd.Abi
import CannedBsd.Lib.Ring

/-!
# Streams

The stream transfers of `libc/cb_libc.c`. The answers of `bound_api->read` and `bound_api->write` are
inputs, one for each call, whatever they are: errors, zero, short counts and more than was asked for. The
state keeps the requests that were made, and the answer to a request is the one at its place in that list.
The memory is a function from addresses, and a read stores what it delivers as far as the request goes.

* `cbLibcFread_outcome`: the calls of `fread` are those of the transfer that the results describe.
* `fwriteLoop_ends`: so are those of `fwrite`, from any point of a transfer.
* `stream_transfers_split`: what is stored and passed does not depend on how the kernel splits the transfers.
-/

namespace CannedBsd

namespace Libc

open CannedBsd.Lib

/-! ### Transfers in pieces

A transfer of `total` cells is made by calls, each asking for what is missing but for no more than `cap` cells, and
call `n` answers `answers n`. A positive answer within the request moves that many cells; any other answer stops
the transfer, and so does its completion. Where the transfer ends is determined by the answers alone. -/

namespace Transfer

variable {cap total : ℕ} {answers : ℕ → ℤ} {n : ℕ}

/-- The cells the first `n` calls move. -/
def moved (answers : ℕ → ℤ) (n : ℕ) : ℕ := ∑ i ∈ Finset.range n, (answers i).toNat

/-- What call `n` asks for. -/
def request (cap total : ℕ) (answers : ℕ → ℤ) (n : ℕ) : ℕ := min (total - moved answers n) cap

/-- Call `n` moves cells. -/
def Taken (cap total : ℕ) (answers : ℕ → ℤ) (n : ℕ) : Prop :=
  0 < answers n ∧ answers n ≤ request cap total answers n

instance : Decidable (Taken cap total answers n) := inferInstanceAs (Decidable (_ ∧ _))

/-- The first `n` calls move cells and the next one, if there is one, does not. -/
structure StopsAfter (cap total : ℕ) (answers : ℕ → ℤ) (n : ℕ) : Prop where
  taken : ∀ i < n, Taken cap total answers i
  stops : ¬ Taken cap total answers n

@[simp] theorem moved_zero (answers : ℕ → ℤ) : moved answers 0 = 0 := rfl

theorem moved_succ (answers : ℕ → ℤ) (n : ℕ) : moved answers (n + 1) = moved answers n + (answers n).toNat :=
  Finset.sum_range_succ _ _

/-- A call that moves cells stays within the total. -/
theorem Taken.moved_le (h : Taken cap total answers n) : moved answers (n + 1) ≤ total := by
  obtain ⟨hpos, hle⟩ := h
  rw [moved_succ]
  simp only [request] at hle
  omega

theorem moved_le (h : ∀ i < n, Taken cap total answers i) : moved answers n ≤ total := by
  cases n with
  | zero => exact Nat.zero_le _
  | succ n => exact (h n n.lt_succ_self).moved_le

end Transfer

open Transfer

/-! ### State -/

/-- A `struct cb_libc_file *`; `opened` is any pointer other than `NULL` and the standard streams. -/
inductive Stream
  | null | stdin | stdout | stderr
  | opened (address : ℕ)
  deriving DecidableEq, Repr

/-- The sticky flags of an input stream. -/
structure StreamFlags where
  eof : Bool
  error : Bool
  deriving DecidableEq, Repr

/-- A node of `input_streams`. -/
structure OpenedStream where
  descriptor : ℤ
  flags : StreamFlags
  deriving DecidableEq, Repr

/-- `struct cb_input_state_v1`; the nodes of its list are found by their address. -/
structure InputState where
  stdin : StreamFlags
  stdinClosed : Bool
  inputStreams : ℕ → Option OpenedStream

/-- `struct cb_stdio_state_v1`. -/
structure StdioState where
  stdoutError : Bool
  stderrError : Bool
  stdoutClosed : Bool
  stderrClosed : Bool
  deriving DecidableEq, Repr

/-- A call of the kernel: a read into memory, or a write with the bytes it passes. -/
inductive Request
  | read (descriptor : ℤ) (address count : ℕ)
  | write (descriptor : ℤ) (data : Bytes)
  deriving DecidableEq, Repr

/-- What the stream functions see of a task. -/
structure Stdio where
  errno : ℤ
  input : InputState
  output : StdioState
  memory : ℕ → UInt8
  requests : List Request

/-- A result of type `cb_ssize_t` and the `errno` the callback leaves. -/
structure CallbackReply where
  result : ℤ
  errno : ℤ
  least : -2 ^ 63 ≤ result
  most : result < 2 ^ 63

/-- An answer of `read` with the bytes it delivers. -/
structure Delivery extends CallbackReply where
  bytes : Bytes
  amount : bytes.length = result.toNat

/-- `CB_EOVERFLOW`. -/
def eoverflow : ℤ := 84

/-! ### Input -/

/-- Where an `input_reference` finds its flags. -/
inductive FlagPlace
  | stdin
  | node (address : ℕ)
  deriving DecidableEq, Repr

/-- `struct input_reference`. -/
structure InputReference where
  descriptor : ℤ
  place : FlagPlace
  deriving DecidableEq, Repr

def InputState.flags (state : InputState) : FlagPlace → StreamFlags
  | .stdin => state.stdin
  | .node address => ((state.inputStreams address).map OpenedStream.flags).getD ⟨false, false⟩

def InputState.setFlags (state : InputState) (flags : StreamFlags) : FlagPlace → InputState
  | .stdin => { state with stdin := flags }
  | .node address =>
      { state with
        inputStreams := Function.update state.inputStreams address
          ((state.inputStreams address).map fun node => { node with flags := flags }) }

/-- `*ref->eof = 1`. -/
def InputState.markEof (state : InputState) (place : FlagPlace) : InputState :=
  state.setFlags { state.flags place with eof := true } place

/-- `*ref->error = 1`. -/
def InputState.markError (state : InputState) (place : FlagPlace) : InputState :=
  state.setFlags { state.flags place with error := true } place

def resolveInput (state : InputState) : Stream → Except Errno InputReference
  | .null | .stdout | .stderr => .error .einval
  | .stdin => if state.stdinClosed then .error .einval else .ok ⟨0, .stdin⟩
  | .opened address =>
      match state.inputStreams address with
      | none => .error .einval
      | some node => .ok ⟨node.descriptor, .node address⟩

section

variable (reads : ℕ → Delivery)

/-- The call of `bound_api->read`. -/
def callRead (descriptor : ℤ) (address count : ℕ) (s : Stdio) : Stdio × ℤ :=
  let answer := reads s.requests.length
  ({ s with
      errno := answer.errno
      memory := Block.write s.memory address (answer.bytes.take count)
      requests := s.requests ++ [.read descriptor address count] }, answer.result)

def readInput (ref : InputReference) (address count : ℕ) (s : Stdio) : Stdio × ℤ :=
  let savedErrno := s.errno
  if (s.input.flags ref.place).eof then (s, 0)
  else
    let (s, result) := callRead reads ref.descriptor address count s
    if result < 0 then ({ s with input := s.input.markError ref.place }, result)
    else if count < result then
      ({ s with input := s.input.markError ref.place, errno := Errno.eio.code }, -1)
    else
      let s := if result = 0 then { s with input := s.input.markEof ref.place } else s
      ({ s with errno := savedErrno }, result)

/-- The loop of `cb_libc_fread`. -/
def freadLoop (ref : InputReference) (buffer total done : ℕ) (s : Stdio) : Stdio × ℕ :=
  if _h : done < total then
    let request := if int64Max < total - done then int64Max else total - done
    let (s, result) := readInput reads ref (buffer + done) request s
    if _hr : result ≤ 0 then (s, done) else freadLoop ref buffer total (done + result.toNat) s
  else (s, done)
  termination_by total - done

def cbLibcFread (buffer : Option ℕ) (size count : ℕ) (stream : Stream) (s : Stdio) : Stdio × ℕ :=
  if size = 0 ∨ count = 0 then (s, 0)
  else
    match resolveInput s.input stream with
    | .error e => ({ s with errno := e.code }, 0)
    | .ok ref =>
        if sizeMax / count < size then ({ s with errno := eoverflow }, 0)
        else
          match buffer with
          | none => ({ s with errno := Errno.einval.code }, 0)
          | some buffer =>
              let (s, done) := freadLoop reads ref buffer (size * count) 0 s
              (s, done / size)

end

/-! ### Output -/

/-- `mark_stdio_error`. -/
def markStdioError (descriptor : ℤ) (state : StdioState) : StdioState :=
  if descriptor = 1 then { state with stdoutError := true }
  else if descriptor = 2 then { state with stderrError := true }
  else state

def stdioStreamClosed (descriptor : ℤ) (state : StdioState) : Bool :=
  if descriptor = 1 then state.stdoutClosed
  else if descriptor = 2 then state.stderrClosed
  else false

section

variable (writes : ℕ → CallbackReply)

/-- The call of `bound_api->write`. -/
def callWrite (descriptor : ℤ) (data : Bytes) (s : Stdio) : Stdio × ℤ :=
  let answer := writes s.requests.length
  ({ s with errno := answer.errno, requests := s.requests ++ [.write descriptor data] }, answer.result)

/-- The loop of `cb_libc_fwrite`, with what remains at its end. -/
def fwriteLoop (descriptor : ℤ) (text remaining : ℕ) (s : Stdio) : Stdio × ℕ :=
  if _h : remaining ≠ 0 then
    let chunk := if int64Max < remaining then int64Max else remaining
    let (s, written) := callWrite writes descriptor (Block.read s.memory text chunk) s
    if written < 0 then ({ s with output := markStdioError descriptor s.output }, remaining)
    else if _hw : written = 0 ∨ chunk < written then
      ({ s with output := markStdioError descriptor s.output, errno := Errno.eio.code }, remaining)
    else fwriteLoop descriptor (text + written.toNat) (remaining - written.toNat) s
  else (s, remaining)
  termination_by remaining

/-- The output descriptor of a standard stream. -/
def outputDescriptor (stream : Stream) : ℤ := if stream = .stderr then 2 else 1

def cbLibcFwrite (buffer : Option ℕ) (size count : ℕ) (stream : Stream) (s : Stdio) : Stdio × ℕ :=
  if size = 0 ∨ count = 0 then (s, 0)
  else if stream ≠ .stdout ∧ stream ≠ .stderr then ({ s with errno := Errno.einval.code }, 0)
  else if sizeMax / count < size then ({ s with errno := eoverflow }, 0)
  else
    match buffer with
    | none => ({ s with errno := Errno.einval.code }, 0)
    | some buffer =>
        let descriptor := outputDescriptor stream
        if stdioStreamClosed descriptor s.output then ({ s with errno := Errno.ebadf.code }, 0)
        else
          let savedIncomingErrno := s.errno
          let totalBytes := size * count
          let (s, remaining) := fwriteLoop writes descriptor buffer totalBytes s
          let s := if remaining = 0 then { s with errno := savedIncomingErrno } else s
          (s, (totalBytes - remaining) / size)

end

/-! ### How a transfer ends -/

inductive Ending
  | complete | zero | failure | excess
  deriving DecidableEq, Repr

/-- How a transfer ends after `n` calls that moved bytes. -/
def ending (total : ℕ) (answers : ℕ → ℤ) (n : ℕ) : Ending :=
  if moved answers n = total then .complete
  else if answers n < 0 then .failure
  else if answers n = 0 then .zero
  else .excess

theorem ending_eq_complete (total : ℕ) (answers : ℕ → ℤ) (n : ℕ) :
    ending total answers n = .complete ↔ moved answers n = total := by
  rw [ending]
  split
  case isTrue h => simp [h]
  case isFalse h =>
    split
    · simp [h]
    · split <;> simp [h]

/-- The calls a transfer makes: those that moved bytes and the one that stopped it. -/
def callCount (total : ℕ) (answers : ℕ → ℤ) (n : ℕ) : ℕ := if ending total answers n = .complete then n else n + 1

/-- What the callback leaves in `errno`, or what the library sets it to. -/
def finalErrno (before after : ℤ) : Ending → ℤ
  | .complete | .zero => before
  | .failure => after
  | .excess => Errno.eio.code

/-- The flags of an input stream after a transfer. -/
def StreamFlags.after (flags : StreamFlags) (e : Ending) : StreamFlags :=
  ⟨flags.eof || e = .zero, flags.error || e = .failure || e = .excess⟩

theorem StreamFlags.after_complete (flags : StreamFlags) : flags.after .complete = flags := by
  cases flags
  simp [StreamFlags.after]

theorem request_eq (total done : ℕ) :
    (if int64Max < total - done then int64Max else total - done) = min (total - done) int64Max := by
  split <;> omega

section Reading

variable (reads : ℕ → Delivery) (k : ℕ)

/-- The results from call `k` on. -/
def readResults (i : ℕ) : ℤ := (reads (k + i)).result

/-- The bytes `n` calls deliver. -/
def delivered (n : ℕ) : Bytes := (List.range n).flatMap fun i => (reads (k + i)).bytes

/-- What a call that returned too much had stored. -/
def spilled (total n : ℕ) : Bytes :=
  if ending total (readResults reads k) n = .excess then
    (reads (k + n)).bytes.take (request int64Max total (readResults reads k) n)
  else []

/-- Call `i` of a transfer into `buffer`. -/
def readRequest (descriptor : ℤ) (buffer total i : ℕ) : Request :=
  .read descriptor (buffer + moved (readResults reads k) i) (request int64Max total (readResults reads k) i)

variable {reads k}

theorem delivered_succ (n : ℕ) : delivered reads k (n + 1) = delivered reads k n ++ (reads (k + n)).bytes := by
  simp only [delivered, List.range_succ, List.flatMap_append, List.flatMap_singleton]

theorem length_delivered (n : ℕ) : (delivered reads k n).length = moved (readResults reads k) n := by
  induction n with
  | zero => rfl
  | succ n ih => rw [delivered_succ, List.length_append, ih, moved_succ, (reads (k + n)).amount, readResults]

/-- The state after `n` calls that moved bytes. -/
def afterReads (reads : ℕ → Delivery) (ref : InputReference) (buffer total : ℕ) (s : Stdio) (n : ℕ) : Stdio :=
  let k := s.requests.length
  { s with
    memory := Block.write s.memory buffer (delivered reads k n)
    requests := s.requests ++ (List.range n).map (readRequest reads k ref.descriptor buffer total) }

/-- The state at the end of a transfer. -/
def readEnd (reads : ℕ → Delivery) (ref : InputReference) (buffer total : ℕ) (s : Stdio) (n : ℕ) : Stdio :=
  let k := s.requests.length
  let e := ending total (readResults reads k) n
  { s with
    errno := finalErrno s.errno (reads (k + n)).errno e
    input := s.input.setFlags ((s.input.flags ref.place).after e) ref.place
    memory := Block.write s.memory buffer (delivered reads k n ++ spilled reads k total n)
    requests := s.requests ++
      (List.range (callCount total (readResults reads k) n)).map (readRequest reads k ref.descriptor buffer total) }

variable {ref : InputReference} {buffer total n : ℕ} {s : Stdio}

theorem length_afterReads : (afterReads reads ref buffer total s n).requests.length = s.requests.length + n := by
  simp [afterReads]

theorem InputState.setFlags_self (state : InputState) (place : FlagPlace) :
    state.setFlags (state.flags place) place = state := by
  cases place with
  | stdin => rfl
  | node address =>
    have hnode : (state.inputStreams address).map (fun node => { node with flags := state.flags (.node address) }) =
        state.inputStreams address := by
      cases h : state.inputStreams address with
      | none => rfl
      | some node => simp [InputState.flags, h]
    simp only [InputState.setFlags, hnode, Function.update_eq_self]

/-- The call after `n` calls that moved bytes. -/
theorem callRead_afterReads :
    callRead reads ref.descriptor (buffer + moved (readResults reads s.requests.length) n)
        (request int64Max total (readResults reads s.requests.length) n) (afterReads reads ref buffer total s n) =
      ({ s with
          errno := (reads (s.requests.length + n)).errno
          memory := Block.write s.memory buffer (delivered reads s.requests.length n ++
            (reads (s.requests.length + n)).bytes.take (request int64Max total (readResults reads s.requests.length) n))
          requests := s.requests ++
            (List.range (n + 1)).map (readRequest reads s.requests.length ref.descriptor buffer total) },
        readResults reads s.requests.length n) := by
  rw [callRead, length_afterReads, ← length_delivered]
  simp only [afterReads, Block.write_append, List.range_succ, List.map_append, List.append_assoc, readResults]
  rw [length_delivered]
  rfl

/-- A call that moves bytes. -/
theorem readInput_taken (buffer : ℕ) (heof : (s.input.flags ref.place).eof = false)
    (h : Taken int64Max total (readResults reads s.requests.length) n) :
    readInput reads ref (buffer + moved (readResults reads s.requests.length) n)
        (request int64Max total (readResults reads s.requests.length) n) (afterReads reads ref buffer total s n) =
      (afterReads reads ref buffer total s (n + 1), readResults reads s.requests.length n) := by
  obtain ⟨hpos, hle⟩ := h
  have hlen : (reads (s.requests.length + n)).bytes.length ≤
      request int64Max total (readResults reads s.requests.length) n := by
    rw [(reads _).amount]
    simp only [readResults] at hle ⊢
    omega
  rw [readInput, if_neg (by simpa [afterReads] using heof), callRead_afterReads]
  simp only
  rw [if_neg (by omega), if_neg (by omega), if_neg (by omega), List.take_of_length_le hlen, ← delivered_succ]
  rfl

/-- The call that stops a transfer. -/
theorem readInput_stops (buffer : ℕ) (heof : (s.input.flags ref.place).eof = false)
    (hmore : moved (readResults reads s.requests.length) n < total)
    (h : ¬ Taken int64Max total (readResults reads s.requests.length) n) :
    ∃ r ≤ 0, readInput reads ref (buffer + moved (readResults reads s.requests.length) n)
        (request int64Max total (readResults reads s.requests.length) n) (afterReads reads ref buffer total s n) =
      (readEnd reads ref buffer total s n, r) := by
  have hnone : readResults reads s.requests.length n ≤ 0 → (reads (s.requests.length + n)).bytes = [] := by
    intro hr
    rw [← List.length_eq_zero_iff, (reads _).amount]
    simpa [readResults] using hr
  have hcount : ∀ e, ending total (readResults reads s.requests.length) n = e → e ≠ .complete →
      callCount total (readResults reads s.requests.length) n = n + 1 := by
    intro e he hne
    rw [callCount, if_neg (by rw [he]; exact hne)]
  rw [readInput, if_neg (by simpa [afterReads] using heof), callRead_afterReads]
  simp only
  rcases Int.lt_trichotomy (readResults reads s.requests.length n) 0 with hneg | hzero | hpos
  · have he : ending total (readResults reads s.requests.length) n = .failure := by
      rw [ending, if_neg (by omega), if_pos hneg]
    refine ⟨readResults reads s.requests.length n, by omega, ?_⟩
    rw [if_pos hneg, hnone (by omega)]
    simp [readEnd, he, hcount _ he, spilled, finalErrno, StreamFlags.after, InputState.markError]
  · have he : ending total (readResults reads s.requests.length) n = .zero := by
      rw [ending, if_neg (by omega), if_neg (by omega), if_pos hzero]
    refine ⟨readResults reads s.requests.length n, by omega, ?_⟩
    rw [if_neg (by omega), if_neg (by omega), if_pos hzero, hnone (by omega)]
    simp [readEnd, he, hcount _ he, spilled, finalErrno, StreamFlags.after, InputState.markEof, afterReads]
  · have hover : (request int64Max total (readResults reads s.requests.length) n : ℤ) <
        readResults reads s.requests.length n := by
      by_contra hle
      exact h ⟨hpos, by omega⟩
    have he : ending total (readResults reads s.requests.length) n = .excess := by
      rw [ending, if_neg (by omega), if_neg (by omega), if_neg (by omega)]
    refine ⟨-1, by omega, ?_⟩
    rw [if_neg (by omega), if_pos hover]
    simp [readEnd, he, hcount _ he, spilled, finalErrno, StreamFlags.after, InputState.markError]

/-- The loop of `fread` from any point of a transfer. -/
theorem freadLoop_ends (reads : ℕ → Delivery) (buffer total : ℕ) (heof : (s.input.flags ref.place).eof = false) : ∀ left n,
    total - moved (readResults reads s.requests.length) n = left →
    (∀ i < n, Taken int64Max total (readResults reads s.requests.length) i) →
    ∃ m, StopsAfter int64Max total (readResults reads s.requests.length) m ∧
      freadLoop reads ref buffer total (moved (readResults reads s.requests.length) n)
        (afterReads reads ref buffer total s n) =
      (readEnd reads ref buffer total s m, moved (readResults reads s.requests.length) m) := by
  intro left
  induction left using Nat.strong_induction_on with
  | _ left ih =>
    intro n hleft htaken
    have hle := moved_le htaken
    rw [freadLoop]
    split
    case isTrue hmore =>
      simp only [request_eq]
      by_cases h : Taken int64Max total (readResults reads s.requests.length) n
      · have hread := readInput_taken buffer heof h
        rw [request] at hread
        rw [hread]
        obtain ⟨hpos, hreq⟩ := h
        simp only
        rw [dif_neg (by omega), ← moved_succ]
        have hnext := moved_succ (readResults reads s.requests.length) n
        refine ih _ (by omega) (n + 1) rfl ?_
        intro i hi
        rcases Nat.lt_succ_iff_lt_or_eq.mp hi with hlt | rfl
        · exact htaken i hlt
        · exact ⟨hpos, hreq⟩
      · obtain ⟨r, hr, hread⟩ := readInput_stops buffer heof hmore h
        rw [request] at hread
        refine ⟨n, ⟨htaken, h⟩, ?_⟩
        rw [hread]
        simp only
        rw [dif_pos hr]
    case isFalse hmore =>
      have hall : moved (readResults reads s.requests.length) n = total := by omega
      refine ⟨n, ⟨htaken, ?_⟩, ?_⟩
      · rintro ⟨hpos, hreq⟩
        rw [request] at hreq
        omega
      · have he : ending total (readResults reads s.requests.length) n = .complete := if_pos hall
        simp [afterReads, readEnd, he, callCount, spilled, finalErrno, StreamFlags.after_complete,
          InputState.setFlags_self]

/-- A stream that is resolved has its flags where the reference says. -/
theorem InputState.flags_setFlags {state : InputState} {stream : Stream} (h : resolveInput state stream = .ok ref)
    (flags : StreamFlags) (place : FlagPlace) :
    (state.setFlags flags ref.place).flags place = if place = ref.place then flags else state.flags place := by
  cases stream with
  | null => cases h
  | stdout => cases h
  | stderr => cases h
  | stdin =>
    simp only [resolveInput] at h
    split at h
    · cases h
    · cases h
      cases place <;> simp [InputState.setFlags, InputState.flags]
  | opened address =>
    simp only [resolveInput] at h
    split at h
    · cases h
    case _ node hnode =>
      cases h
      cases place with
      | stdin => simp [InputState.setFlags, InputState.flags]
      | node other =>
        by_cases hother : other = address
        · subst hother
          simp [InputState.setFlags, InputState.flags, hnode]
        · simp [InputState.setFlags, InputState.flags, hother]

theorem cbLibcFread_eq {stream : Stream} {size count : ℕ} (hfit : size * count ≤ sizeMax)
    (href : resolveInput s.input stream = .ok ref) :
    cbLibcFread reads (some buffer) size count stream s =
      ((freadLoop reads ref buffer (size * count) 0 s).1, (freadLoop reads ref buffer (size * count) 0 s).2 / size) := by
  rw [cbLibcFread]
  by_cases hnone : size = 0 ∨ count = 0
  · rw [if_pos hnone, freadLoop, dif_neg (by rcases hnone with rfl | rfl <;> simp), Nat.zero_div]
  · rw [if_neg hnone, href]
    simp only
    rw [if_neg]
    rw [Nat.not_lt, Nat.le_div_iff_mul_le (by omega)]
    exact hfit

theorem length_spilled (h : ∀ i < n, Taken int64Max total (readResults reads k) i) :
    (delivered reads k n ++ spilled reads k total n).length ≤ total := by
  have hle := moved_le h
  rw [List.length_append, length_delivered, spilled]
  split
  · rw [List.length_take, request]
    omega
  · rw [List.length_nil]
    omega

/-- What `fread` leaves behind after `n` calls that moved bytes. The bytes delivered are in the buffer in order,
nothing outside of it changes, and the flags and `errno` are those of the way the transfer ended. -/
structure FreadOutcome (reads : ℕ → Delivery) (s : Stdio) (ref : InputReference) (buffer total n : ℕ)
    (s' : Stdio) : Prop where
  ends : StopsAfter int64Max total (readResults reads s.requests.length) n
  requests : s'.requests = s.requests ++
    (List.range (callCount total (readResults reads s.requests.length) n)).map
      (readRequest reads s.requests.length ref.descriptor buffer total)
  stored : Block.read s'.memory buffer (moved (readResults reads s.requests.length) n) =
    delivered reads s.requests.length n
  outside : ∀ a, a < buffer ∨ buffer + total ≤ a → s'.memory a = s.memory a
  exact : ending total (readResults reads s.requests.length) n ≠ .excess →
    s'.memory = Block.write s.memory buffer (delivered reads s.requests.length n)
  flags : ∀ place, s'.input.flags place =
    if place = ref.place then (s.input.flags place).after (ending total (readResults reads s.requests.length) n)
    else s.input.flags place
  output : s'.output = s.output
  errno : s'.errno = finalErrno s.errno (reads (s.requests.length + n)).errno
    (ending total (readResults reads s.requests.length) n)

/-- Unless the end of file was seen before, the calls are those of the transfer the results describe. -/
theorem cbLibcFread_outcome (reads : ℕ → Delivery) {s : Stdio} {stream : Stream} {ref : InputReference}
    (buffer : ℕ) {size count : ℕ} (hfit : size * count ≤ sizeMax) (href : resolveInput s.input stream = .ok ref) :
    ((s.input.flags ref.place).eof = true → cbLibcFread reads (some buffer) size count stream s = (s, 0)) ∧
    ((s.input.flags ref.place).eof = false →
      ∃ n s', cbLibcFread reads (some buffer) size count stream s =
          (s', moved (readResults reads s.requests.length) n / size) ∧
        FreadOutcome reads s ref buffer (size * count) n s') := by
  rw [cbLibcFread_eq hfit href]
  constructor
  · intro heof
    rw [freadLoop]
    split
    · simp only [readInput, heof, if_true]
      simp
    · simp
  · intro heof
    obtain ⟨n, hends, hloop⟩ := freadLoop_ends reads buffer (size * count) heof _ 0 rfl (by simp)
    have hstart : afterReads reads ref buffer (size * count) s 0 = s := by
      simp [afterReads, delivered, Block.write_nil]
    rw [moved_zero, hstart] at hloop
    rw [hloop]
    have hlen := length_spilled hends.taken
    refine ⟨n, readEnd reads ref buffer (size * count) s n, rfl, ?_⟩
    constructor
    case ends => exact hends
    case requests => rfl
    case stored =>
      rw [← length_delivered]
      exact Block.read_write_left _ _ _ _
    case outside =>
      intro a ha
      rcases ha with hlt | hge
      · exact Block.write_of_lt _ _ hlt
      · exact Block.write_of_ge _ _ (by omega)
    case exact =>
      intro hexcess
      simp only [readEnd, spilled, if_neg hexcess, List.append_nil]
    case flags =>
      intro place
      simp only [readEnd, InputState.flags_setFlags href]
      split
      case isTrue h => rw [h]
      case isFalse => rfl
    case output => rfl
    case errno => rfl

end Reading

section Writing

variable (writes : ℕ → CallbackReply) (k : ℕ)

def writeResults (i : ℕ) : ℤ := (writes (k + i)).result

/-- The bytes call `i` of a transfer from `buffer` passes. -/
def passedBytes (memory : ℕ → UInt8) (buffer total i : ℕ) : Bytes :=
  Block.read memory (buffer + moved (writeResults writes k) i) (request int64Max total (writeResults writes k) i)

/-- What `n` calls accept of the bytes they are passed. -/
def acceptedBytes (memory : ℕ → UInt8) (buffer total n : ℕ) : Bytes :=
  (List.range n).flatMap fun i => (passedBytes writes k memory buffer total i).take (writeResults writes k i).toNat

/-- Where `fwrite` leaves `errno`. -/
def writeErrno (before after : ℤ) : Ending → ℤ
  | .complete => before
  | .failure => after
  | .zero | .excess => Errno.eio.code

variable {writes k} {descriptor : ℤ} {buffer total n : ℕ} {s : Stdio}

/-- The pieces accepted join up to a prefix of the buffer. -/
theorem acceptedBytes_eq (memory : ℕ → UInt8) (h : ∀ i < n, Taken int64Max total (writeResults writes k) i) :
    acceptedBytes writes k memory buffer total n =
      Block.read memory buffer (moved (writeResults writes k) n) := by
  induction n with
  | zero => rfl
  | succ n ih =>
    obtain ⟨hpos, hle⟩ := h n n.lt_succ_self
    have hmin : min (writeResults writes k n).toNat (request int64Max total (writeResults writes k) n) =
        (writeResults writes k n).toNat := by
      omega
    have hprev := ih fun i hi => h i (Nat.lt_succ_of_lt hi)
    rw [acceptedBytes] at hprev ⊢
    rw [List.range_succ, List.flatMap_append, hprev, List.flatMap_singleton, moved_succ, Block.read_add,
      passedBytes, Block.take_read, hmin]

/-- The state after `n` calls that moved bytes; the callback may have changed `errno`. -/
def afterWrites (writes : ℕ → CallbackReply) (descriptor : ℤ) (buffer total : ℕ) (s : Stdio) (n : ℕ) (errno : ℤ) : Stdio :=
  { s with
    errno := errno
    requests := s.requests ++
      (List.range n).map fun i => .write descriptor (passedBytes writes s.requests.length s.memory buffer total i) }

/-- The state at the end of the loop. -/
def writeEnd (writes : ℕ → CallbackReply) (descriptor : ℤ) (buffer total : ℕ) (s : Stdio) (n : ℕ) (errno : ℤ) : Stdio :=
  let e := ending total (writeResults writes s.requests.length) n
  { s with
    errno := writeErrno errno (writes (s.requests.length + n)).errno e
    output := if e = .complete then s.output else markStdioError descriptor s.output
    requests := s.requests ++ (List.range (callCount total (writeResults writes s.requests.length) n)).map
      fun i => .write descriptor (passedBytes writes s.requests.length s.memory buffer total i) }

theorem callWrite_afterWrites (errno : ℤ) :
    callWrite writes descriptor (Block.read s.memory (buffer + moved (writeResults writes s.requests.length) n)
        (request int64Max total (writeResults writes s.requests.length) n))
        (afterWrites writes descriptor buffer total s n errno) =
      (afterWrites writes descriptor buffer total s (n + 1) (writes (s.requests.length + n)).errno,
        writeResults writes s.requests.length n) := by
  simp [callWrite, afterWrites, List.range_succ, passedBytes, writeResults]

/-- The loop of `fwrite` from any point of a transfer. -/
theorem fwriteLoop_ends (writes : ℕ → CallbackReply) (descriptor : ℤ) (buffer total : ℕ) (s : Stdio) : ∀ left n errno,
    total - moved (writeResults writes s.requests.length) n = left →
    (∀ i < n, Taken int64Max total (writeResults writes s.requests.length) i) →
    ∃ m errno', StopsAfter int64Max total (writeResults writes s.requests.length) m ∧
      fwriteLoop writes descriptor (buffer + moved (writeResults writes s.requests.length) n) left
        (afterWrites writes descriptor buffer total s n errno) =
      (writeEnd writes descriptor buffer total s m errno',
        total - moved (writeResults writes s.requests.length) m) := by
  intro left
  induction left using Nat.strong_induction_on with
  | _ left ih =>
    intro n errno hleft htaken
    have hle := moved_le htaken
    rw [fwriteLoop]
    split
    case isTrue hmore =>
      have hchunk : (if int64Max < left then int64Max else left) =
          request int64Max total (writeResults writes s.requests.length) n := by
        rw [request, hleft]
        split <;> omega
      have hmem : (afterWrites writes descriptor buffer total s n errno).memory = s.memory := rfl
      simp only [hchunk, hmem, callWrite_afterWrites]
      by_cases h : Taken int64Max total (writeResults writes s.requests.length) n
      · obtain ⟨hpos, hreq⟩ := h
        have hnext := moved_succ (writeResults writes s.requests.length) n
        rw [if_neg (by omega), dif_neg (by omega), Nat.add_assoc, ← hnext]
        have hreq' := hreq
        rw [request] at hreq'
        refine ih _ (by omega) (n + 1) _ (by omega) ?_
        intro i hi
        rcases Nat.lt_succ_iff_lt_or_eq.mp hi with hlt | rfl
        · exact htaken i hlt
        · exact ⟨hpos, hreq⟩
      · have hcount : ending total (writeResults writes s.requests.length) n ≠ .complete →
            callCount total (writeResults writes s.requests.length) n = n + 1 := fun h => if_neg h
        refine ⟨n, errno, ⟨htaken, h⟩, ?_⟩
        rcases Int.lt_trichotomy (writeResults writes s.requests.length n) 0 with hneg | hzero | hpos
        · have he : ending total (writeResults writes s.requests.length) n = .failure := by
            rw [ending, if_neg (by omega), if_pos hneg]
          rw [if_pos hneg, hleft]
          simp [writeEnd, he, hcount, writeErrno, afterWrites]
        · have he : ending total (writeResults writes s.requests.length) n = .zero := by
            rw [ending, if_neg (by omega), if_neg (by omega), if_pos hzero]
          rw [if_neg (by omega), dif_pos (.inl hzero), hleft]
          simp [writeEnd, he, hcount, writeErrno, afterWrites]
        · have hover : (request int64Max total (writeResults writes s.requests.length) n : ℤ) <
              writeResults writes s.requests.length n := by
            by_contra hle
            exact h ⟨hpos, by omega⟩
          have he : ending total (writeResults writes s.requests.length) n = .excess := by
            rw [ending, if_neg (by omega), if_neg (by omega), if_neg (by omega)]
          rw [if_neg (by omega), dif_pos (.inr hover), hleft]
          simp [writeEnd, he, hcount, writeErrno, afterWrites]
    case isFalse hmore =>
      have hall : moved (writeResults writes s.requests.length) n = total := by omega
      refine ⟨n, errno, ⟨htaken, ?_⟩, ?_⟩
      · rintro ⟨hpos, hreq⟩
        rw [request] at hreq
        omega
      · have he : ending total (writeResults writes s.requests.length) n = .complete := if_pos hall
        rw [hleft]
        simp [afterWrites, writeEnd, he, callCount, writeErrno]

/-- What `fwrite` leaves behind after `n` calls that moved bytes. The calls passed consecutive pieces of the
buffer, what they accepted is a prefix of it, and the error flag is set exactly when a result stopped them. -/
structure FwriteOutcome (writes : ℕ → CallbackReply) (s : Stdio) (descriptor : ℤ) (buffer total n : ℕ)
    (s' : Stdio) : Prop where
  ends : StopsAfter int64Max total (writeResults writes s.requests.length) n
  requests : s'.requests = s.requests ++
    (List.range (callCount total (writeResults writes s.requests.length) n)).map
      fun i => .write descriptor (passedBytes writes s.requests.length s.memory buffer total i)
  accepted : acceptedBytes writes s.requests.length s.memory buffer total n =
    Block.read s.memory buffer (moved (writeResults writes s.requests.length) n)
  output : s'.output = if moved (writeResults writes s.requests.length) n = total then s.output
    else markStdioError descriptor s.output
  errno : s'.errno = writeErrno s.errno (writes (s.requests.length + n)).errno
    (ending total (writeResults writes s.requests.length) n)
  memory : s'.memory = s.memory
  input : s'.input = s.input

theorem cbLibcFwrite_eq {stream : Stream} {size count : ℕ} (hfit : size * count ≤ sizeMax)
    (hstream : stream = .stdout ∨ stream = .stderr)
    (hopen : stdioStreamClosed (outputDescriptor stream) s.output = false) :
    cbLibcFwrite writes (some buffer) size count stream s =
      let r := fwriteLoop writes (outputDescriptor stream) buffer (size * count) s
      (if r.2 = 0 then { r.1 with errno := s.errno } else r.1, (size * count - r.2) / size) := by
  rw [cbLibcFwrite]
  by_cases hnone : size = 0 ∨ count = 0
  · have htotal : size * count = 0 := Nat.mul_eq_zero.mpr hnone
    rw [if_pos hnone, htotal, fwriteLoop, dif_neg (by simp)]
    simp
  · have hsize : ¬ sizeMax / count < size := by
      rw [Nat.not_lt, Nat.le_div_iff_mul_le (by omega)]
      exact hfit
    have hout : ¬ (stream ≠ .stdout ∧ stream ≠ .stderr) := by
      rintro ⟨h₁, h₂⟩
      exact hstream.elim h₁ h₂
    rw [if_neg hnone, if_neg hout, if_neg hsize]
    simp only
    rw [if_neg (by simpa using hopen)]

theorem cbLibcFwrite_outcome (writes : ℕ → CallbackReply) {s : Stdio} {stream : Stream} (buffer : ℕ) {size count : ℕ}
    (hfit : size * count ≤ sizeMax) (hstream : stream = .stdout ∨ stream = .stderr)
    (hopen : stdioStreamClosed (outputDescriptor stream) s.output = false) :
    ∃ n s', cbLibcFwrite writes (some buffer) size count stream s =
        (s', moved (writeResults writes s.requests.length) n / size) ∧
      FwriteOutcome writes s (outputDescriptor stream) buffer (size * count) n s' := by
  obtain ⟨n, errno, hends, hloop⟩ := fwriteLoop_ends writes (outputDescriptor stream) buffer
    (size * count) s _ 0 s.errno rfl (by simp)
  have hstart : afterWrites writes (outputDescriptor stream) buffer (size * count) s 0 s.errno = s := by
    simp [afterWrites]
  rw [hstart, moved_zero, Nat.sub_zero, Nat.add_zero] at hloop
  have hle := moved_le hends.taken
  rw [cbLibcFwrite_eq hfit hstream hopen, hloop]
  refine ⟨n, writeEnd writes (outputDescriptor stream) buffer (size * count) s n s.errno, ?_, ?_⟩
  · simp only
    rw [Nat.sub_sub_self hle]
    congr 1
    by_cases hall : moved (writeResults writes s.requests.length) n = size * count
    · have he : ending (size * count) (writeResults writes s.requests.length) n = .complete := if_pos hall
      simp [writeEnd, he, hall, writeErrno]
    · have hne : ending (size * count) (writeResults writes s.requests.length) n ≠ .complete := by
        rwa [Ne, ending_eq_complete]
      rw [if_neg (by omega)]
      simp only [writeEnd]
      congr 1
      revert hne
      cases ending (size * count) (writeResults writes s.requests.length) n with
      | complete => exact fun h => absurd rfl h
      | zero => exact fun _ => rfl
      | failure => exact fun _ => rfl
      | excess => exact fun _ => rfl
  · constructor
    case ends => exact hends
    case requests => rfl
    case accepted => exact acceptedBytes_eq s.memory hends.taken
    case output =>
      simp only [writeEnd, ending_eq_complete]
    case errno => rfl
    case memory => rfl
    case input => rfl

end Writing

/-! ### Independence of the splitting -/

/-- **Stream transfers do not depend on how the kernel splits them.**  For every sequence of results, `fread` stores
and `fwrite` passes exactly what the results up to the first zero, error or excess move. -/
theorem stream_transfers_split (reads : ℕ → Delivery) (writes : ℕ → CallbackReply) (s : Stdio) (buffer : ℕ) {size count : ℕ}
    (hfit : size * count ≤ sizeMax) :
    (∀ stream ref, resolveInput s.input stream = .ok ref →
      ((s.input.flags ref.place).eof = true → cbLibcFread reads (some buffer) size count stream s = (s, 0)) ∧
      ((s.input.flags ref.place).eof = false →
        ∃ n s', cbLibcFread reads (some buffer) size count stream s =
            (s', moved (readResults reads s.requests.length) n / size) ∧
          FreadOutcome reads s ref buffer (size * count) n s')) ∧
    (∀ stream, stream = .stdout ∨ stream = .stderr → stdioStreamClosed (outputDescriptor stream) s.output = false →
      ∃ n s', cbLibcFwrite writes (some buffer) size count stream s =
          (s', moved (writeResults writes s.requests.length) n / size) ∧
        (size ≠ 0 → (moved (writeResults writes s.requests.length) n / size < count ↔
          moved (writeResults writes s.requests.length) n ≠ size * count)) ∧
        FwriteOutcome writes s (outputDescriptor stream) buffer (size * count) n s') := by
  constructor
  · intro stream ref href
    exact cbLibcFread_outcome reads buffer hfit href
  · intro stream hstream hopen
    obtain ⟨n, s', hrun, hout⟩ := cbLibcFwrite_outcome writes buffer hfit hstream hopen
    refine ⟨n, s', hrun, ?_, hout⟩
    intro hsize
    have hle := moved_le hout.ends.taken
    rw [Nat.div_lt_iff_lt_mul (by omega), Nat.mul_comm count size]
    omega

/-- Reads of one byte at a time fill the elements of a task that has not used its streams. -/
theorem stream_transfers_split_bytes :
    let reads : ℕ → Delivery := fun _ => ⟨⟨1, 0, by decide, by decide⟩, [65], rfl⟩
    let s : Stdio := ⟨0, ⟨⟨false, false⟩, false, fun _ => none⟩, ⟨false, false, false, false⟩, fun _ => 0, []⟩
    2 * 3 ≤ sizeMax ∧ ∃ n s', cbLibcFread reads (some 100) 2 3 .stdin s = (s', moved (readResults reads 0) n / 2) ∧
      FreadOutcome reads s ⟨0, .stdin⟩ 100 (2 * 3) n s' := by
  intro reads s
  refine ⟨by decide, ?_⟩
  exact ((stream_transfers_split reads (fun _ => ⟨0, 0, by decide, by decide⟩) s 100 (by decide)).1 .stdin
    ⟨0, .stdin⟩ rfl).2 rfl

end Libc

end CannedBsd
