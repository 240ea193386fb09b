import CannedBsd.Terminal.Engine

/-!
# The reference line discipline

The engine is compared with a discipline that has no buffers at all: it folds the bytes
the engine accepted into a line and a list of finished records, and a read takes the next
bytes of the first record that is not yet delivered. The two agree on every run, whatever
the interleaving of input, end of source, reads and acknowledgements.

The simulation relation says where the undelivered records live: in the two rings, in
order, and behind them a record still pending in the line buffer.

* `session_agrees`: the simulation relation holds after every run.
* `session_refines_reference`: every read returned what the reference returns.
-/

namespace CannedBsd.Terminal

open CannedBsd.Lib

/-! ### The reference -/

/-- The current line and the finished records of the reference discipline. -/
structure Reference where
  line : List UInt8
  records : List (List UInt8)

/-- One accepted byte. -/
def Reference.accept (r : Reference) (input : UInt8) : Reference :=
  let byte := translate input
  if byte = 8 then { r with line := r.line.dropLast }
  else if byte = 4 then ⟨[], r.records ++ [r.line]⟩
  else if byte = 10 then ⟨[], r.records ++ [r.line ++ [10]]⟩
  else if r.line.length < cbTermBytes - 1 then { r with line := r.line ++ [byte] }
  else r

def reference (bytes : List UInt8) : Reference := bytes.foldl Reference.accept ⟨[], []⟩

/-- The reference records of an accepted sequence: source EOF ends a non-empty line. -/
def referenceRecords (bytes : List UInt8) (eof : Bool) : List (List UInt8) :=
  let r := reference bytes
  if eof = true ∧ r.line ≠ [] then r.records ++ [r.line] else r.records

/-- The line the reference is still editing. -/
def referenceLine (bytes : List UInt8) (eof : Bool) : List UInt8 :=
  if eof then [] else (reference bytes).line

/-- What a read with room for `capacity` bytes finds, given the undelivered records. -/
def referenceRead (queue : List (List UInt8)) (eof : Bool) (capacity : ℕ) : ReadReport :=
  match queue with
  | record :: _ => .done (record.take capacity)
  | [] => if eof then .done [] else .notReady

/-- The undelivered records after the first of them gave away `capacity` bytes. -/
def afterRead (capacity : ℕ) : List (List UInt8) → List (List UInt8)
  | [] => []
  | record :: queue =>
    if record.drop capacity = [] then queue else record.drop capacity :: queue

/-- Take the deliveries out of the records one after another; `none` if one of them is not
the next part of the first record left. On an exhausted queue only an empty delivery, the
end of file, is possible. -/
def drain : List (List UInt8) → List (ℕ × List UInt8) → Option (List (List UInt8))
  | queue, [] => some queue
  | [], (_, bytes) :: rest => if bytes = [] then drain [] rest else none
  | record :: queue, (capacity, bytes) :: rest =>
    if bytes = record.take capacity then drain (afterRead capacity (record :: queue)) rest else none

/-! ### Reading a run -/

def acceptedBytes (events : List CallEvent) : List UInt8 :=
  events.filterMap fun e => match e with
    | .accepted byte => some byte
    | _ => none

def eofSeen (events : List CallEvent) : Bool := events.any fun e => decide (e = .sourceEof)

/-- The reads of non-zero capacity that returned `1`, with what they delivered. -/
def deliveries (events : List CallEvent) : List (ℕ × List UInt8) :=
  events.filterMap fun e => match e with
    | .read capacity (.done bytes) => if capacity = 0 then none else some (capacity, bytes)
    | _ => none

/-- The reference records of a run less what its reads delivered. -/
def undelivered (events : List CallEvent) : Option (List (List UInt8)) :=
  drain (referenceRecords (acceptedBytes events) (eofSeen events)) (deliveries events)

/-! ### Where the engine keeps the records -/

def editBytes (t : Engine) : List UInt8 := Block.read t.edit 0 t.editUsed

def recordLengths (t : Engine) : List ℕ :=
  Ring.contents cbTermRecords t.records t.recordHead t.recordCount

def fifoBytes (t : Engine) : List UInt8 :=
  Ring.contents cbTermBytes t.fifo t.fifoHead t.fifoUsed

/-- Cut a list into pieces of the given lengths. -/
def pieces : List ℕ → List UInt8 → List (List UInt8)
  | [], _ => []
  | n :: ns, l => l.take n :: pieces ns (l.drop n)

def queued (t : Engine) : List (List UInt8) := pieces (recordLengths t) (fifoBytes t)

/-- Every record the engine still owes its reader. -/
def held (t : Engine) : List (List UInt8) :=
  queued t ++ if t.pending then [editBytes t] else []

/-- The line being edited; a pending record is no longer being edited. -/
def editing (t : Engine) : List UInt8 := if t.pending then [] else editBytes t

/-- The bounds of the three buffers. -/
structure EngineBounded (t : Engine) : Prop where
  edit : t.editUsed ≤ cbTermBytes
  fifo : t.fifoUsed ≤ cbTermBytes
  count : t.recordCount ≤ cbTermRecords
  head : t.recordHead < cbTermRecords
  lengths : (recordLengths t).sum = t.fifoUsed

/-- A pending record is one that cannot be committed now. -/
def EngineSettled (t : Engine) : Prop :=
  t.pending = true → t.recordCount = cbTermRecords ∨ cbTermBytes - t.fifoUsed < t.editUsed

theorem pieces_append (ns : List ℕ) (m : ℕ) (l xs : List UInt8) (hs : ns.sum = l.length)
    (hm : m = xs.length) : pieces (ns ++ [m]) (l ++ xs) = pieces ns l ++ [xs] := by
  induction ns generalizing l with
  | nil =>
    have hl : l = [] := List.eq_nil_of_length_eq_zero (by simpa using hs.symm)
    subst hl hm
    simp [pieces]
  | cons n ns ih =>
    have hn : n ≤ l.length := by simp only [List.sum_cons] at hs; omega
    simp only [List.cons_append, pieces, List.take_append_of_le_length hn,
      List.drop_append_of_le_length hn]
    rw [ih (l.drop n) (by simp only [List.sum_cons] at hs; rw [List.length_drop]; omega)]

/-! ### Committing a pending record -/

/-- Moving the pending record into the rings changes nothing a reader or an editor sees. -/
theorem commitPending_spec {t : Engine} (h : EngineBounded t) :
    EngineBounded (commitPending t) ∧ EngineSettled (commitPending t) ∧
      held (commitPending t) = held t ∧ editing (commitPending t) = editing t ∧
      (commitPending t).sourceEof = t.sourceEof := by
  by_cases hc : t.pending = false ∨ t.recordCount = cbTermRecords ∨
      cbTermBytes - t.fifoUsed < t.editUsed
  · rw [commitPending, if_pos hc]
    refine ⟨h, fun hp => ?_, rfl, rfl, rfl⟩
    rcases hc with hc | hc | hc
    · rw [hp] at hc; cases hc
    · exact .inl hc
    · exact .inr hc
  · rw [commitPending, if_neg hc]
    simp only [not_or, Bool.not_eq_false, Nat.not_lt] at hc
    obtain ⟨hp, hcount, hroom⟩ := hc
    have hlt : t.recordCount < cbTermRecords := lt_of_le_of_ne h.count hcount
    have hfit : t.fifoUsed + t.editUsed ≤ cbTermBytes := by have := h.fifo; omega
    -- the two rings each gain one entry behind their contents
    have hlens := Ring.contents_put t.records t.recordHead t.recordCount [t.editUsed]
      (show t.recordCount + [t.editUsed].length ≤ cbTermRecords by simpa using hlt)
    have hbytes := Ring.contents_put t.fifo t.fifoHead t.fifoUsed (editBytes t)
      (show t.fifoUsed + (editBytes t).length ≤ cbTermBytes by simpa [editBytes] using hfit)
    simp only [List.length_singleton] at hlens
    simp only [editBytes, Block.length_read] at hbytes
    refine ⟨⟨Nat.zero_le _, hfit, hlt, h.head, ?_⟩, ?_, ?_, ?_, rfl⟩
    · show (Ring.contents cbTermRecords (Ring.put cbTermRecords t.records
        ((t.recordHead + t.recordCount) % cbTermRecords) [t.editUsed])
        t.recordHead (t.recordCount + 1)).sum = t.fifoUsed + t.editUsed
      have hl := h.lengths
      rw [recordLengths] at hl
      rw [Ring.put_mod, hlens, List.sum_append, hl]
      simp
    · intro hpend
      cases hpend
    · have hlen : (recordLengths t).sum = (fifoBytes t).length := by
        rw [h.lengths, fifoBytes, Ring.length_contents]
      have hp' := pieces_append (recordLengths t) t.editUsed (fifoBytes t) (editBytes t) hlen
        (by simp [editBytes])
      simp only [held, queued, recordLengths, fifoBytes, editBytes, hp, if_true,
        Ring.put_mod, hlens, hbytes]
      simpa [recordLengths, fifoBytes, editBytes] using hp'
    · simp [editing, editBytes, Block.read, hp]

/-! ### Reading -/

theorem recordLengths_of_pos {t : Engine} (hc : t.recordCount ≠ 0) (hh : t.recordHead < cbTermRecords) :
    recordLengths t = t.records t.recordHead ::
      Ring.contents cbTermRecords t.records (t.recordHead + 1) (t.recordCount - 1) := by
  obtain ⟨c, hc'⟩ : ∃ c, t.recordCount = c + 1 := ⟨t.recordCount - 1, by omega⟩
  rw [recordLengths, hc', Ring.contents_succ, Nat.mod_eq_of_lt hh]
  rfl

/-- Overwriting the cell of the head leaves the rest of the queue of lengths alone. -/
theorem contents_update_head {t : Engine} (n : ℕ)
    (hle : t.recordCount ≤ cbTermRecords) (hh : t.recordHead < cbTermRecords) :
    Ring.contents cbTermRecords (Function.update t.records t.recordHead n) (t.recordHead + 1)
        (t.recordCount - 1)
      = Ring.contents cbTermRecords t.records (t.recordHead + 1) (t.recordCount - 1) := by
  refine List.map_congr_left fun i hi => Function.update_of_ne ?_ _ _
  rw [List.mem_range] at hi
  have hne : t.recordHead % cbTermRecords ≠ (t.recordHead + 1 + i) % cbTermRecords :=
    Ring.mod_ne (by omega) (by omega)
  rw [Nat.mod_eq_of_lt hh] at hne
  exact Ne.symm hne

/-- Reading from the first record: the rings lose exactly what is handed out. -/
theorem takeFront_spec {t : Engine} (h : EngineBounded t) (hc : t.recordCount ≠ 0) (capacity : ℕ) :
    EngineBounded (takeFront t (min (t.records t.recordHead) capacity)) ∧
      ∃ record rest, queued t = record :: rest ∧
        Ring.contents cbTermBytes t.fifo t.fifoHead (min (t.records t.recordHead) capacity)
          = record.take capacity ∧
        queued (takeFront t (min (t.records t.recordHead) capacity))
          = afterRead capacity (record :: rest) := by
  set n := t.records t.recordHead with hn
  set k := min n capacity with hk
  have hlens := recordLengths_of_pos hc h.head
  have hsum := h.lengths
  rw [hlens, List.sum_cons, ← hn] at hsum
  have hrest := contents_update_head (n - k) h.count h.head
  set tailLens := Ring.contents cbTermRecords t.records (t.recordHead + 1) (t.recordCount - 1)
    with htail
  have hq : queued t = (fifoBytes t).take n :: pieces tailLens ((fifoBytes t).drop n) := by
    rw [queued, hlens, pieces]
  have hdrop : Ring.contents cbTermBytes t.fifo ((t.fifoHead + k) % cbTermBytes) (t.fifoUsed - k)
      = (fifoBytes t).drop k := by
    rw [Ring.contents_mod, fifoBytes, Ring.contents_drop]
  -- the record is exhausted exactly when the reader had room for all of it
  have hleft : ((fifoBytes t).take n).drop capacity = [] ↔ n - k = 0 := by
    rw [List.drop_eq_nil_iff, List.length_take, fifoBytes, Ring.length_contents]
    omega
  have htake : Ring.contents cbTermBytes t.fifo t.fifoHead k = ((fifoBytes t).take n).take capacity := by
    rw [fifoBytes, List.take_take, Ring.contents_take]
    congr 1
    omega
  by_cases hz : n - k = 0
  · have hkn : k = n := by omega
    have hlens' : recordLengths (takeFront t k) = tailLens := by
      simp only [recordLengths, takeFront, ← hn, hz, if_true, Ring.contents_mod]
      rw [← hz, hrest]
    refine ⟨⟨?_, ?_, ?_, ?_, ?_⟩, _, _, hq, htake, ?_⟩
    · simpa [takeFront, ← hn, hz] using h.edit
    · simp only [takeFront, ← hn, hz, if_true]
      have := h.fifo
      omega
    · simp only [takeFront, ← hn, hz, if_true]
      have := h.count
      omega
    · simp only [takeFront, ← hn, hz, if_true]
      exact Nat.mod_lt _ (by decide)
    · rw [hlens']
      simp only [takeFront, ← hn, hz, if_true]
      omega
    · rw [afterRead, if_pos (hleft.mpr hz), queued, hlens']
      congr 1
      simp only [fifoBytes, takeFront, ← hn, hz, if_true]
      rw [hdrop, hkn]
      rfl
  · have hlens' : recordLengths (takeFront t k) = (n - k) :: tailLens := by
      have hpos := recordLengths_of_pos (t := takeFront t k)
      simp only [takeFront, ← hn, hz, if_false] at hpos
      simp only [recordLengths, takeFront, ← hn, hz, if_false] at hpos ⊢
      rw [hpos hc h.head, Function.update_self, hrest]
    have hcapk : k = capacity := by omega
    refine ⟨⟨?_, ?_, ?_, ?_, ?_⟩, _, _, hq, htake, ?_⟩
    · simpa [takeFront, ← hn, hz] using h.edit
    · simp only [takeFront, ← hn, hz, if_false]
      have := h.fifo
      omega
    · simpa [takeFront, ← hn, hz] using h.count
    · simpa [takeFront, ← hn, hz] using h.head
    · rw [hlens', List.sum_cons]
      simp only [takeFront, ← hn, hz, if_false]
      omega
    · rw [afterRead, if_neg (fun he => hz (hleft.mp he)), queued, hlens', pieces]
      simp only [fifoBytes, takeFront, ← hn, hz, if_false]
      rw [hdrop, ← hcapk, List.drop_drop, fifoBytes, List.drop_take,
        show k + (n - k) = n by omega]

/-! ### Deliveries -/

theorem drain_append (queue : List (List UInt8)) (ds es : List (ℕ × List UInt8)) :
    drain queue (ds ++ es) = (drain queue ds).bind fun q => drain q es := by
  induction ds generalizing queue with
  | nil => cases queue <;> rfl
  | cons d ds ih =>
    obtain ⟨capacity, bytes⟩ := d
    cases queue with
    | nil =>
      simp only [List.cons_append, drain]
      split
      · exact ih []
      · rfl
    | cons record queue =>
      simp only [List.cons_append, drain]
      split
      · exact ih _
      · rfl

/-- The engine agrees with the reference on what was accepted and delivered so far. -/
structure Agrees (t : Engine) (accepted : List UInt8) (eof : Bool)
    (delivered : List (ℕ × List UInt8)) : Prop where
  bounded : EngineBounded t
  settled : EngineSettled t
  room : t.pending = false → t.editUsed < cbTermBytes
  source : t.sourceEof = eof
  line : referenceLine accepted eof = editing t
  queue : drain (referenceRecords accepted eof) delivered = some (held t)
  -- before the end of the source later records simply queue up behind
  extend : eof = false → ∀ more, drain ((reference accepted).records ++ more) delivered
    = some (held t ++ more)

theorem reference_snoc (bytes : List UInt8) (byte : UInt8) :
    reference (bytes ++ [byte]) = (reference bytes).accept byte := by
  simp [reference]

theorem agrees_init : Agrees cbTerminalInit [] false [] where
  bounded := ⟨by decide, by decide, by decide, by decide, rfl⟩
  settled := fun h => by cases h
  room := fun _ => by decide
  source := rfl
  line := rfl
  queue := rfl
  extend := fun _ _ => rfl

/-- While the source is open the reference queue alone determines an agreement. -/
theorem agrees_of_open {t : Engine} {accepted : List UInt8} {delivered : List (ℕ × List UInt8)}
    (hb : EngineBounded t) (hs : EngineSettled t) (hr : t.pending = false → t.editUsed < cbTermBytes)
    (he : t.sourceEof = false) (hl : (reference accepted).line = editing t)
    (hx : ∀ more, drain ((reference accepted).records ++ more) delivered = some (held t ++ more)) :
    Agrees t accepted false delivered where
  bounded := hb
  settled := hs
  room := hr
  source := he
  line := by simpa [referenceLine] using hl
  queue := by simpa [referenceRecords] using hx []
  extend := fun _ => hx

theorem room_of_commit {t : Engine} (h : t.editUsed < cbTermBytes ∨ t.pending = true) :
    (commitPending t).pending = false → (commitPending t).editUsed < cbTermBytes := by
  unfold commitPending
  split
  · intro hp
    rcases h with h | h
    · exact h
    · rw [hp] at h; cases h
  · intro _
    show 0 < cbTermBytes
    decide

/-- Ending the line: the record is queued behind everything held so far. -/
theorem Agrees.finish (t : Engine) {accepted : List UInt8} {delivered : List (ℕ × List UInt8)}
    {line : List UInt8} {records : List (List UInt8)} (t' : Engine) {byte : UInt8}
    (hb : EngineBounded t') (hp : t'.pending = true) (he : t'.sourceEof = false)
    (hh : held t' = held t ++ [line])
    (hx : ∀ more, drain (records ++ more) delivered = some (held t ++ more))
    (hacc : reference (accepted ++ [byte]) = ⟨[], records ++ [line]⟩) :
    Agrees (commitPending t') (accepted ++ [byte]) false delivered := by
  obtain ⟨hb', hs', hheld, hedit, heof⟩ := commitPending_spec hb
  refine agrees_of_open hb' hs' (room_of_commit (.inr hp)) (heof.trans he) ?_ fun more => ?_
  · rw [hacc, hedit, editing, hp]
    rfl
  · rw [hacc, hheld, hh, List.append_assoc, List.append_assoc]
    exact hx _

theorem appendByte_editBytes (t : Engine) (byte : UInt8) :
    editBytes (appendByte t byte) = editBytes t ++ [byte] :=
  Block.read_write_append t.edit t.editUsed [byte]

theorem EngineBounded.appendByte {t : Engine} (h : EngineBounded t) (hr : t.editUsed < cbTermBytes)
    (byte : UInt8) : EngineBounded (appendByte t byte) :=
  ⟨hr, h.fifo, h.count, h.head, h.lengths⟩

/-! ### One call -/

theorem Agrees.feed {t : Engine} {accepted : List UInt8} {eof : Bool}
    {delivered : List (ℕ × List UInt8)} (h : Agrees t accepted eof delivered) (input : UInt8) :
    if (cbTerminalFeed t input).2 then
      Agrees (cbTerminalFeed t input).1 (accepted ++ [input]) eof delivered
    else Agrees (cbTerminalFeed t input).1 accepted eof delivered := by
  by_cases hacc : cbTerminalCanAccept t = false
  · simpa [cbTerminalFeed, hacc] using h
  have hcan : cbTerminalCanAccept t = true := by simpa using hacc
  simp only [cbTerminalCanAccept, Bool.and_eq_true, Bool.not_eq_true', beq_iff_eq] at hcan
  obtain ⟨⟨hpend, hopen⟩, -⟩ := hcan
  have heof : eof = false := by rw [← h.source, hopen]
  subst heof
  have hroom := h.room hpend
  have hline : (reference accepted).line = editBytes t := by
    simpa [referenceLine, editing, hpend] using h.line
  have hheld : held t = queued t := by simp [held, hpend]
  have hx := h.extend rfl
  have hsnoc := reference_snoc accepted input
  simp only [Reference.accept] at hsnoc
  simp only [cbTerminalFeed, hacc, Bool.not_true, Bool.false_eq_true, if_false]
  by_cases h8 : translate input = 8
  · -- erase
    rw [if_pos h8] at hsnoc
    have hrecs : (reference (accepted ++ [input])).records = (reference accepted).records := by
      rw [hsnoc]
    by_cases h0 : t.editUsed = 0
    · simp only [h8, h0, if_true, ne_eq, not_true_eq_false, if_false]
      refine agrees_of_open h.bounded h.settled h.room hopen ?_ fun more => ?_
      · rw [hsnoc, editing, hpend]
        simp [hline, editBytes, h0, Block.read]
      · rw [hrecs]
        exact hx more
    · simp only [h8, h0, if_true, ne_eq, not_false_eq_true]
      refine agrees_of_open ⟨?_, h.bounded.fifo, h.bounded.count, h.bounded.head, h.bounded.lengths⟩
        ?_ ?_ hopen ?_ fun more => ?_
      · have := h.bounded.edit
        simp only [eraseLast]
        omega
      · intro hp
        have hp' : t.pending = true := hp
        rw [hpend] at hp'
        cases hp'
      · intro _
        simp only [eraseLast]
        omega
      · have hedit : editing (eraseLast t) = Block.read t.edit 0 (t.editUsed - 1) := by
          simp [editing, eraseLast, hpend, editBytes]
        rw [hsnoc, hedit]
        simp only [hline, editBytes, List.dropLast_eq_take, Block.length_read, Block.take_read]
        congr 1
        omega
      · have hh : held (eraseLast t) = held t := by simp [held, eraseLast, hpend, queued, recordLengths, fifoBytes]
        rw [hrecs, hh]
        exact hx more
  by_cases h4 : translate input = 4
  · -- end of record without a byte
    rw [if_neg h8, if_pos h4] at hsnoc
    simp only [h4, if_true, if_neg (show ¬ (4 : UInt8) = 8 by decide)]
    refine Agrees.finish t { t with pending := true } ?_ rfl hopen ?_ hx hsnoc
    · exact ⟨h.bounded.edit, h.bounded.fifo, h.bounded.count, h.bounded.head, h.bounded.lengths⟩
    · rw [hheld, hline]
      rfl
  by_cases h10 : translate input = 10
  · -- newline
    rw [if_neg h8, if_neg h4, if_pos h10] at hsnoc
    simp only [h10, true_or, if_true, if_neg (show ¬ (10 : UInt8) = 8 by decide),
      if_neg (show ¬ (10 : UInt8) = 4 by decide)]
    have hb := h.bounded.appendByte hroom 10
    refine Agrees.finish t { appendByte t 10 with pending := true }
      ⟨hb.edit, hb.fifo, hb.count, hb.head, hb.lengths⟩ rfl hopen ?_ hx hsnoc
    rw [hheld, hline, ← appendByte_editBytes]
    rfl
  rw [if_neg h8, if_neg h4, if_neg h10] at hsnoc
  have hlen : (reference accepted).line.length = t.editUsed := by
    rw [hline, editBytes, Block.length_read]
  by_cases hfull : t.editUsed < cbTermBytes - 1
  · -- an ordinary byte
    rw [hlen, if_pos hfull] at hsnoc
    simp only [h8, h4, h10, hfull, or_true, if_true, if_false]
    have hb := h.bounded.appendByte hroom (translate input)
    refine agrees_of_open hb ?_ ?_ hopen ?_ fun more => ?_
    · intro hp
      have hp' : t.pending = true := hp
      rw [hpend] at hp'
      cases hp'
    · intro _
      simp only [appendByte]
      omega
    · have hedit : editing (appendByte t (translate input)) = editBytes (appendByte t (translate input)) := by
        simp [editing, appendByte, hpend]
      rw [hsnoc, hedit, appendByte_editBytes, hline]
    · have hh : held (appendByte t (translate input)) = held t := by
        simp [held, appendByte, hpend, queued, recordLengths, fifoBytes]
      rw [hsnoc, hh]
      exact hx more
  · -- a full line discards the byte
    rw [hlen, if_neg hfull] at hsnoc
    simp only [h8, h4, h10, hfull, or_self, if_false, if_true]
    refine agrees_of_open h.bounded h.settled h.room hopen ?_ fun more => ?_
    · rw [hsnoc, hline]
      simp [editing, hpend]
    · rw [hsnoc]
      exact hx more

theorem Agrees.sourceEof {t : Engine} {accepted : List UInt8} {eof : Bool}
    {delivered : List (ℕ × List UInt8)} (h : Agrees t accepted eof delivered) :
    Agrees (cbTerminalSourceEof t) accepted true delivered := by
  by_cases hdone : t.sourceEof = true
  · have heof : eof = true := by rw [← h.source, hdone]
    subst heof
    simpa [cbTerminalSourceEof, hdone] using h
  have hopen : t.sourceEof = false := by simpa using hdone
  have heof : eof = false := by rw [← h.source, hopen]
  subst heof
  simp only [cbTerminalSourceEof, hopen, Bool.false_eq_true, if_false]
  -- the engine with the end noted and, if there is a line, with that line pending
  set t' : Engine := if t.editUsed ≠ 0 then { t with sourceEof := true, pending := true }
    else { t with sourceEof := true } with ht'
  have hb' : EngineBounded t' := by
    rw [ht']
    split
    all_goals exact ⟨h.bounded.edit, h.bounded.fifo, h.bounded.count, h.bounded.head,
      h.bounded.lengths⟩
  have hline : (reference accepted).line = editing t := by simpa [referenceLine] using h.line
  have hqueue : held t' = held t ++ if (reference accepted).line ≠ [] then [(reference accepted).line] else [] := by
    rw [hline]
    by_cases h0 : t.editUsed = 0
    · cases hp : t.pending <;>
        simp [ht', h0, held, hp, editing, queued, recordLengths, fifoBytes, editBytes, Block.read]
    · have hne : editBytes t ≠ [] := by
        intro he
        have := congrArg List.length he
        simp [editBytes] at this
        exact h0 this
      cases hp : t.pending <;>
        simp [ht', h0, held, hp, editing, queued, recordLengths, fifoBytes, editBytes]
      all_goals simpa [editBytes] using hne
  have hdry : editing t' = [] := by
    rw [ht']
    split
    · rfl
    · rename_i h0
      simp only [ne_eq, not_not] at h0
      simp [editing, editBytes, h0, Block.read]
  obtain ⟨hb, hs, hh, he, heof⟩ := commitPending_spec hb'
  have hroom' : t'.editUsed < cbTermBytes ∨ t'.pending = true := by
    rw [ht']
    split
    · exact .inr rfl
    · rename_i h0
      simp only [ne_eq, not_not] at h0
      left
      show t.editUsed < cbTermBytes
      rw [h0]
      decide
  have heof' : t'.sourceEof = true := by
    rw [ht']
    split <;> rfl
  have hgoal : Agrees (commitPending t') accepted true delivered :=
    { bounded := hb
      settled := hs
      room := room_of_commit hroom'
      source := heof.trans heof'
      line := by rw [he, hdry]; rfl
      queue := by
        rw [hh, hqueue]
        have hx := h.extend rfl (if (reference accepted).line ≠ [] then [(reference accepted).line] else [])
        rw [← hx]
        congr 1
        by_cases hl : (reference accepted).line = [] <;> simp [referenceRecords, hl]
      extend := fun hf => by cases hf }
  simpa [ht'] using hgoal

/-- A read with a buffer and a non-zero capacity returns what the reference returns. -/
theorem Agrees.read_reply {t : Engine} {accepted : List UInt8} {eof : Bool}
    {delivered : List (ℕ × List UInt8)} (h : Agrees t accepted eof delivered) {capacity : ℕ}
    (hcap : capacity ≠ 0) :
    (cbTerminalRead t true true capacity).2 = referenceRead (held t) eof capacity := by
  by_cases hc : t.recordCount = 0
  · -- with no record queued none can be pending: it would have been committed
    have hused : t.fifoUsed = 0 := by
      have hl := h.bounded.lengths
      rw [recordLengths, hc] at hl
      simpa using hl.symm
    have hp : t.pending = false := by
      by_contra hp
      rcases h.settled (by simpa using hp) with hs | hs
      · rw [hc] at hs; cases hs
      · have := h.bounded.edit
        omega
    have hq : held t = [] := by simp [held, hp, queued, recordLengths, hc, pieces]
    simp [cbTerminalRead, hcap, hc, hq, referenceRead, h.source]
  · obtain ⟨-, record, rest, hq, htake, -⟩ := takeFront_spec h.bounded hc capacity
    have hheld : held t = record :: (rest ++ if t.pending then [editBytes t] else []) := by
      rw [held, hq, List.cons_append]
    simp [cbTerminalRead, hcap, hc, hheld, referenceRead, htake]

theorem Agrees.read {t : Engine} {accepted : List UInt8} {eof : Bool}
    {delivered : List (ℕ × List UInt8)} (h : Agrees t accepted eof delivered)
    (hasCount hasBuffer : Bool) (capacity : ℕ) :
    Agrees (cbTerminalRead t hasCount hasBuffer capacity).1 accepted eof
      (delivered ++ deliveries [.read capacity (cbTerminalRead t hasCount hasBuffer capacity).2]) := by
  by_cases hcount : hasCount = false
  · simpa [cbTerminalRead, hcount, deliveries] using h
  by_cases hcap : capacity = 0
  · simpa [cbTerminalRead, hcount, hcap, deliveries] using h
  by_cases hbuf : hasBuffer = false
  · simpa [cbTerminalRead, hcount, hcap, hbuf, deliveries] using h
  simp only [Bool.not_eq_false] at hcount hbuf
  subst hcount hbuf
  have hreply := h.read_reply hcap
  by_cases hc : t.recordCount = 0
  · have hst : (cbTerminalRead t true true capacity).1 = t := by simp [cbTerminalRead, hcap, hc]
    rw [hst]
    cases he : eof with
    | false =>
      have hrep : (cbTerminalRead t true true capacity).2 = .notReady := by
        simp [cbTerminalRead, hcap, hc, h.source, he]
      rw [hrep]
      simpa [deliveries, he] using h
    | true =>
      subst he
      have hrep : (cbTerminalRead t true true capacity).2 = .done [] := by
        simp [cbTerminalRead, hcap, hc, h.source]
      rw [hrep] at hreply ⊢
      have hdel : deliveries [.read capacity (.done [])] = [(capacity, [])] := by
        simp [deliveries, hcap]
      rw [hdel]
      refine { h with queue := ?_, extend := fun hf => by cases hf }
      rw [drain_append, h.queue]
      -- an empty delivery here means that nothing at all is held
      have hq : held t = [] := by
        cases hh : held t with
        | nil => rfl
        | cons r q =>
          exfalso
          have hl := h.bounded.lengths
          rw [recordLengths, hc] at hl
          have hp : t.pending = false := by
            by_contra hp
            rcases h.settled (by simpa using hp) with hs | hs
            · rw [hc] at hs; cases hs
            · have := h.bounded.edit
              simp only [Ring.contents_zero, List.sum_nil] at hl
              omega
          simp [held, hp, queued, recordLengths, hc, pieces] at hh
      simp [hq, drain]
  · obtain ⟨hb, record, rest, hq, htake, hafter⟩ := takeFront_spec h.bounded hc capacity
    set k := min (t.records t.recordHead) capacity with hk
    obtain ⟨hb', hs', hh', he', heof'⟩ := commitPending_spec hb
    have hpend : (takeFront t k).pending = t.pending := by simp only [takeFront]; split <;> rfl
    have hused : (takeFront t k).editUsed = t.editUsed := by simp only [takeFront]; split <;> rfl
    have hedit : (takeFront t k).edit = t.edit := by simp only [takeFront]; split <;> rfl
    have heof : (takeFront t k).sourceEof = t.sourceEof := by simp only [takeFront]; split <;> rfl
    have hebytes : editBytes (takeFront t k) = editBytes t := by rw [editBytes, editBytes, hused, hedit]
    have hst : (cbTerminalRead t true true capacity).1 = commitPending (takeFront t k) := by
      simp [cbTerminalRead, hcap, hc, hk]
    have hrep : (cbTerminalRead t true true capacity).2 = .done (record.take capacity) := by
      simp [cbTerminalRead, hcap, hc, ← hk, htake]
    have hheld : held t = record :: (rest ++ if t.pending then [editBytes t] else []) := by
      rw [held, hq, List.cons_append]
    have hheld' : held (takeFront t k) = afterRead capacity (held t) := by
      rw [held, hafter, hpend, hebytes, hheld]
      simp only [afterRead]
      split <;> rfl
    have hdel : deliveries [.read capacity (.done (record.take capacity))]
        = [(capacity, record.take capacity)] := by
      simp [deliveries, hcap]
    rw [hst, hrep, hdel]
    have hdrain : ∀ more, drain (held t ++ more) [(capacity, record.take capacity)]
        = some (held (takeFront t k) ++ more) := by
      intro more
      rw [hheld', hheld]
      simp only [List.cons_append, drain, afterRead, if_true]
      split <;> rfl
    exact
      { bounded := hb'
        settled := hs'
        room := room_of_commit (by
          rw [hused, hpend]
          cases hp : t.pending with
          | false => exact .inl (h.room hp)
          | true => exact .inr rfl)
        source := by rw [heof', heof, h.source]
        line := by rw [he', h.line, editing, editing, hpend, hebytes]
        queue := by
          rw [drain_append, h.queue, hh']
          simpa using hdrain []
        extend := fun hf more => by
          rw [drain_append, h.extend hf more, hh']
          exact hdrain more }

theorem Agrees.echoAck {t : Engine} {accepted : List UInt8} {eof : Bool}
    {delivered : List (ℕ × List UInt8)} (h : Agrees t accepted eof delivered) (count : ℕ) :
    Agrees (cbTerminalEchoAck t count).1 accepted eof delivered := by
  unfold cbTerminalEchoAck
  split
  · exact h
  · exact ⟨⟨h.bounded.edit, h.bounded.fifo, h.bounded.count, h.bounded.head, h.bounded.lengths⟩,
      h.settled, h.room, h.source, h.line, h.queue, h.extend⟩

/-! ### Whole runs -/

/-- After every run the engine agrees with the reference. -/
theorem session_agrees (calls : List Call) :
    Agrees (session calls).1 (acceptedBytes (session calls).2) (eofSeen (session calls).2)
      (deliveries (session calls).2) := by
  induction calls using List.reverseRecOn with
  | nil => exact agrees_init
  | append_singleton calls call ih =>
    rw [session_snoc]
    cases call with
    | feed byte =>
      have hf := ih.feed byte
      cases hr : (cbTerminalFeed (session calls).1 byte).2 with
      | false => simpa [perform, hr, acceptedBytes, eofSeen, deliveries] using hf
      | true => simpa [perform, hr, acceptedBytes, eofSeen, deliveries] using hf
    | sourceEof => simpa [perform, acceptedBytes, eofSeen, deliveries] using ih.sourceEof
    | read hasCount hasBuffer capacity =>
      simpa [perform, acceptedBytes, eofSeen, deliveries] using ih.read hasCount hasBuffer capacity
    | echoAck count => simpa [perform, acceptedBytes, eofSeen, deliveries] using ih.echoAck count

/-- **The engine refines the line discipline.**  After any interleaving of calls, everything
delivered so far was, read by read, the next part of the first undelivered reference record;
the undelivered records are exactly those the engine still holds; and a read of any non-zero
capacity returns what the reference returns on them. -/
theorem session_refines_reference (calls : List Call) :
    ∃ queue, undelivered (session calls).2 = some queue ∧ queue = held (session calls).1 ∧
      ∀ capacity, capacity ≠ 0 →
        (cbTerminalRead (session calls).1 true true capacity).2
          = referenceRead queue (eofSeen (session calls).2) capacity := by
  have h := session_agrees calls
  exact ⟨_, h.queue, rfl, fun capacity hcap => h.read_reply hcap⟩

end CannedBsd.Terminal
