import CannedBsd.Terminal.Progress

/-!
# The echo

What the engine echoes for a byte depends on the line at that moment. The caller takes the echo in parts of
any size, and no byte is accepted before the echo of the last one is gone. The parts taken, and what is left,
are the echo of the accepted bytes by the reference discipline.

* `feed_echo`: a byte that is accepted finds no echo and leaves its own.
* `echo_faithful`: the parts taken and the part left are the echo of the accepted bytes, after any calls.
-/

namespace CannedBsd.Terminal

open CannedBsd.Lib

/-! ### The reference -/

/-- The echo of an accepted byte when the line is the given one. -/
def echoOf (line : List UInt8) (input : UInt8) : List UInt8 :=
  let byte := translate input
  if byte = 8 then if line = [] then [] else [8, 32, 8]
  else if byte = 4 then []
  else if byte = 10 then [10]
  else if line.length < cbTermBytes - 1 then [byte]
  else []

/-- The echo of bytes that are accepted one after another. -/
def echoFrom (r : Reference) : List UInt8 → List UInt8
  | [] => []
  | byte :: bytes => echoOf r.line byte ++ echoFrom (r.accept byte) bytes

def referenceEcho (bytes : List UInt8) : List UInt8 := echoFrom ⟨[], []⟩ bytes

theorem echoFrom_snoc (bytes : List UInt8) (byte : UInt8) : ∀ r : Reference,
    echoFrom r (bytes ++ [byte]) = echoFrom r bytes ++ echoOf (bytes.foldl Reference.accept r).line byte := by
  induction bytes with
  | nil => exact fun r => List.append_nil _
  | cons first bytes ih =>
    intro r
    rw [List.cons_append, echoFrom, ih, echoFrom, List.foldl_cons, List.append_assoc]

theorem referenceEcho_snoc (bytes : List UInt8) (byte : UInt8) :
    referenceEcho (bytes ++ [byte]) = referenceEcho bytes ++ echoOf (reference bytes).line byte :=
  echoFrom_snoc bytes byte ⟨[], []⟩

/-! ### What was acknowledged -/

/-- The bytes that a call takes from the echo. -/
def taken (t : Engine) : Call → List UInt8
  | .echoAck count => if (cbTerminalEchoAck t count).2 = 0 then (cbTerminalEcho t).take count else []
  | _ => []

/-- The bytes that were acknowledged in a run. -/
def acknowledged (calls : List Call) : List UInt8 :=
  (calls.foldl (fun s call => ((perform s.1 call).1, s.2 ++ taken s.1 call)) (cbTerminalInit, [])).2

theorem acknowledged_snoc (calls : List Call) (call : Call) :
    acknowledged (calls ++ [call]) = acknowledged calls ++ taken (session calls).1 call := by
  have hengine : (calls.foldl (fun s call => ((perform s.1 call).1, s.2 ++ taken s.1 call))
      ((cbTerminalInit, []) : Engine × List UInt8)).1 = (session calls).1 := by
    induction calls using List.reverseRecOn with
    | nil => rfl
    | append_singleton calls call ih =>
      rw [session_snoc, List.foldl_append, List.foldl_cons, List.foldl_nil, ih]
  rw [acknowledged, List.foldl_append, List.foldl_cons, List.foldl_nil, hengine, acknowledged]

/-! ### One call -/

/-- An acknowledgement moves bytes from the front of the echo. -/
theorem taken_echoAck (t : Engine) (count : ℕ) :
    taken t (.echoAck count) ++ cbTerminalEcho (cbTerminalEchoAck t count).1 = cbTerminalEcho t := by
  rw [taken, cbTerminalEchoAck]
  by_cases hover : t.echoUsed < count
  · rw [if_pos hover]
    rfl
  · have hrest : cbTerminalEcho { t with
        echoOffset := if t.echoUsed - count = 0 then 0 else t.echoOffset + count
        echoUsed := t.echoUsed - count } = (cbTerminalEcho t).drop count := by
      rw [cbTerminalEcho, cbTerminalEcho, Block.drop_read]
      dsimp only
      by_cases hall : t.echoUsed - count = 0
      · rw [hall]
        rfl
      · rw [if_neg hall]
    rw [if_neg hover]
    dsimp only
    rw [if_pos rfl, hrest, List.take_append_drop]

/-- A byte that is accepted finds no echo and leaves its own. -/
theorem feed_echo {t : Engine} {accepted : List UInt8} {eof : Bool} {delivered : List (ℕ × List UInt8)}
    (h : Agrees t accepted eof delivered) (hsound : EchoSound t) {input : UInt8}
    (hacc : (cbTerminalFeed t input).2 = true) :
    cbTerminalEcho t = [] ∧ cbTerminalEcho (cbTerminalFeed t input).1 = echoOf (reference accepted).line input := by
  have hcan : cbTerminalCanAccept t = true := by
    by_contra hno
    rw [Bool.not_eq_true] at hno
    rw [cbTerminalFeed, hno] at hacc
    cases hacc
  have hcan' := hcan
  rw [cbTerminalCanAccept, Bool.and_eq_true, Bool.and_eq_true, Bool.not_eq_true', Bool.not_eq_true', beq_iff_eq] at hcan'
  obtain ⟨⟨hpending, hopen⟩, hused⟩ := hcan'
  have hfront := hsound.front hused
  have hnone : cbTerminalEcho t = [] := by
    rw [cbTerminalEcho, hused]
    rfl
  have hline : (reference accepted).line = editBytes t := by
    have := h.line
    rw [← h.source, hopen, editing, hpending] at this
    exact this
  have hlength : (reference accepted).line.length = t.editUsed := by
    rw [hline, editBytes, Block.length_read]
  have hempty : (reference accepted).line = [] ↔ t.editUsed = 0 := by
    rw [← List.length_eq_zero_iff, hlength]
  -- what is written at the front of the buffer is the echo
  have hwritten : ∀ (u : Engine) (bytes : List UInt8), u.echo = Block.write t.echo 0 bytes → u.echoOffset = t.echoOffset →
      u.echoUsed = bytes.length → cbTerminalEcho u = bytes := by
    intro u bytes hecho hoffset hcount
    have hread := Block.read_write_append t.echo 0 bytes
    rw [Nat.zero_add] at hread
    rw [cbTerminalEcho, hecho, hoffset, hfront, hcount, hread]
    rfl
  refine ⟨hnone, ?_⟩
  rw [cbTerminalFeed, hcan, echoOf]
  dsimp only
  rw [if_neg (by decide)]
  by_cases h8 : translate input = 8
  · rw [if_pos h8, if_pos h8]
    by_cases hzero : t.editUsed = 0
    · rw [if_neg (not_not.mpr hzero), if_pos (hempty.mpr hzero)]
      exact hnone
    · rw [if_pos hzero, if_neg fun heq => hzero (hempty.mp heq)]
      exact hwritten _ [8, 32, 8] rfl rfl rfl
  rw [if_neg h8, if_neg h8]
  by_cases h4 : translate input = 4
  · rw [if_pos h4, if_pos h4]
    exact (commitPending_echo _).bytes.trans hnone
  rw [if_neg h4, if_neg h4]
  by_cases h10 : translate input = 10
  · rw [if_pos (Or.inl h10), if_pos h10, if_pos h10]
    apply (commitPending_echo _).bytes.trans
    exact hwritten _ [10] (by rw [h10]; rfl) rfl rfl
  by_cases hroom : t.editUsed < cbTermBytes - 1
  · rw [if_pos (Or.inr hroom), if_neg h10, if_neg h10, hlength, if_pos hroom]
    exact hwritten _ [translate input] rfl rfl rfl
  · rw [if_neg (not_or.mpr ⟨h10, hroom⟩), if_neg h10, hlength, if_neg hroom]
    exact hnone

/-! ### Whole runs -/

/-- **The echo is faithful.**  After any calls, the bytes acknowledged and the echo still pending are the
echo of the accepted bytes, and a read does not change the echo. -/
theorem echo_faithful (calls : List Call) :
    acknowledged calls ++ cbTerminalEcho (session calls).1 = referenceEcho (acceptedBytes (session calls).2) ∧
      ∀ hasCount hasBuffer capacity, acknowledged (calls ++ [.read hasCount hasBuffer capacity]) = acknowledged calls ∧
        cbTerminalEcho (session (calls ++ [.read hasCount hasBuffer capacity])).1 = cbTerminalEcho (session calls).1 := by
  constructor
  · induction calls using List.reverseRecOn with
    | nil => rfl
    | append_singleton calls call ih =>
      rw [acknowledged_snoc, session_snoc]
      cases call with
      | feed byte =>
        cases hacc : (cbTerminalFeed (session calls).1 byte).2 with
        | false =>
          have hsame := (inert (session calls).1).feed byte hacc
          simpa [perform, hacc, hsame, taken, acceptedBytes] using ih
        | true =>
          obtain ⟨hnone, hecho⟩ := feed_echo (session_agrees calls) (session_echoSound calls) hacc
          rw [hnone, List.append_nil] at ih
          have haccepted : acceptedBytes ((session calls).2 ++ [.accepted byte]) =
              acceptedBytes (session calls).2 ++ [byte] := by simp [acceptedBytes]
          simp only [perform, hacc, if_true, taken, List.append_nil]
          rw [haccepted, referenceEcho_snoc, hecho, ih]
      | sourceEof =>
        have hsame := (cbTerminalSourceEof_echo (session calls).1).bytes
        simpa [perform, hsame, taken, acceptedBytes] using ih
      | read hasCount hasBuffer capacity =>
        have hsame := (cbTerminalRead_echo (session calls).1 hasCount hasBuffer capacity).bytes
        simpa [perform, hsame, taken, acceptedBytes] using ih
      | echoAck count =>
        have hmoved := taken_echoAck (session calls).1 count
        rw [← hmoved] at ih
        simpa [perform, acceptedBytes, List.append_assoc] using ih
  · intro hasCount hasBuffer capacity
    constructor
    · rw [acknowledged_snoc]
      exact List.append_nil _
    · rw [session_snoc]
      exact (cbTerminalRead_echo (session calls).1 hasCount hasBuffer capacity).bytes

end CannedBsd.Terminal
