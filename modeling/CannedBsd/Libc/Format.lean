import CannedBsd.Lib.Numeral
import CannedBsd.Libc.Stdio

/-!
# Formatted output

`write_all`, `add_output` and `format_output` of `libc/cb_libc.c`. The format string is read from a cursor,
the rest of the string behind it, and the variadic arguments are a list of typed values. What C leaves
undefined, an argument of another type than the conversion asks for or a digit stored before the start of
its buffer, is a fault of its own.

* `writeAllLoop_puts`: `write_all` puts out a text, or it stops within it at a write that failed.
* `exists_reads`: every format string has a valid part.
* `formatOutput_renders`: for arguments that match this part, its rendering is put out and counted, or the
  call fails for a reason the format or the callback gives.
-/

namespace CannedBsd

namespace Libc

open CannedBsd.Lib

/-! ### Output -/

/-- A `write` callback: it sees the requests before its own and accepts at most what it is passed. -/
structure Writer where
  answer : List Request → ℤ → Bytes → CallbackReply
  within : ∀ log descriptor data, (answer log descriptor data).result ≤ data.length

/-- Why a function does not return a count: `-1` with the state it leaves, or undefined behaviour. -/
inductive Fault
  | undefined
  | failed (s : Stdio)

/-- A `char *` argument: the bytes before the terminator. -/
structure CString where
  val : Bytes
  noNul : 0 ∉ val

section

variable (w : Writer) (descriptor : ℤ)

/-- The state after `bound_api->write`. -/
def afterCall (text : Bytes) (s : Stdio) : Stdio :=
  { s with
    errno := (w.answer s.requests descriptor text).errno
    requests := s.requests ++ [.write descriptor text] }

/-- The loop of `write_all`. -/
def writeAllLoop (text : Bytes) (s : Stdio) : Except Fault Stdio :=
  if _h : text ≠ [] then
    let s' := afterCall w descriptor text s
    if (w.answer s.requests descriptor text).result < 0 then
      .error (.failed { s' with output := markStdioError descriptor s'.output })
    else if _hw : (w.answer s.requests descriptor text).result = 0 then
      .error (.failed { s' with output := markStdioError descriptor s'.output, errno := Errno.eio.code })
    else writeAllLoop (text.drop (w.answer s.requests descriptor text).result.toNat) s'
  else .ok s
  termination_by text.length
  decreasing_by
    have hlen := List.length_pos_iff.mpr _h
    rw [List.length_drop]
    omega

def writeAll (text : Bytes) (s : Stdio) : Except Fault Stdio :=
  let savedIncomingErrno := s.errno
  if (descriptor = 1 ∨ descriptor = 2) ∧ stdioStreamClosed descriptor s.output then
    .error (.failed { s with errno := Errno.ebadf.code })
  else do
    let s ← writeAllLoop w descriptor text s
    .ok { s with errno := savedIncomingErrno }

def addOutput (text : Bytes) (out : Stdio × ℕ) : Except Fault (Stdio × ℕ) :=
  if intMax - out.2 < text.length then .error (.failed { out.1 with errno := Errno.einval.code })
  else do
    let s ← writeAll w descriptor text out.1
    .ok (s, out.2 + text.length)

/-! ### Conversions -/

/-- The conversions `d`, `s`, `u`, `lu` and `llu`. -/
inductive Conversion
  | d | s | u | lu | llu
  deriving DecidableEq, Repr

/-- A variadic argument with its type; a string may be `NULL`. -/
inductive Argument
  | int (value : Int32)
  | string (text : Option CString)
  | uint (value : UInt32)
  | ulong (value : UInt64)
  | ullong (value : UInt64)

def percent : UInt8 := 37
def space : UInt8 := 32
def minus : UInt8 := 45

/-- The character of a digit. -/
def digitByte (d : ℕ) : UInt8 := UInt8.ofNat (48 + d)

/-- The text `"(null)"`. -/
def nullText : Bytes := [40, 110, 117, 108, 108, 41]

/-- The digits of a number stored downwards in what is left of a buffer, with the room left before them. -/
def storeDigits : ℕ → ℕ → Bytes → Option (ℕ × Bytes)
  | 0, _, _ => none
  | room + 1, magnitude, digits =>
      let digits := digitByte (magnitude % 10) :: digits
      if magnitude / 10 ≠ 0 then storeDigits room (magnitude / 10) digits else some (room, digits)

/-- The text of `%d`, built in `number[(sizeof(int) * CHAR_BIT + 2) / 3 + 2]`. -/
def intText (value : Int32) : Option Bytes :=
  let magnitude := if value < 0 then 0 - value.toUInt32 else value.toUInt32
  match storeDigits ((4 * 8 + 2) / 3 + 2) magnitude.toNat [] with
  | none => none
  | some (room, digits) =>
      if value < 0 then if room = 0 then none else some (minus :: digits) else some digits

/-- The text of an unsigned conversion, built in `number[(sizeof(uint64_t) * CHAR_BIT + 2) / 3 + 1]`. -/
def unsignedText (magnitude : UInt64) : Option Bytes :=
  (storeDigits ((8 * 8 + 2) / 3 + 1) magnitude.toNat []).map Prod.snd

/-- `va_arg` for a conversion, with the text it stands for and the arguments left. -/
def vaArg : Conversion → List Argument → Option (Bytes × List Argument)
  | .d, .int value :: arguments => (intText value).map (·, arguments)
  | .s, .string text :: arguments => some ((text.map CString.val).getD nullText, arguments)
  | .u, .uint value :: arguments => (unsignedText value.toUInt64).map (·, arguments)
  | .lu, .ulong value :: arguments => (unsignedText value).map (·, arguments)
  | .llu, .ullong value :: arguments => (unsignedText value).map (·, arguments)
  | _, _ => none

/-! ### The scanner -/

/-- The `do` loop that reads a width; `none` is a width above 32. -/
def widthDigits : ℕ → Bytes → Option (ℕ × Bytes)
  | width, [] => some (width, [])
  | width, c :: cursor =>
      if 48 ≤ c ∧ c ≤ 57 then
        let digit := c.toNat - 48
        if (32 - digit) / 10 < width then none else widthDigits (width * 10 + digit) cursor
      else some (width, c :: cursor)

def scanWidth (cursor : Bytes) : Option (ℕ × Bytes) :=
  match cursor with
  | [] => some (0, cursor)
  | c :: _ => if 49 ≤ c ∧ c ≤ 57 then widthDigits 0 cursor else some (0, cursor)

/-- The conversion at the cursor and the cursor behind it. -/
def scanConversion : Bytes → Option (Conversion × Bytes)
  | 100 :: cursor => some (.d, cursor)
  | 115 :: cursor => some (.s, cursor)
  | 117 :: cursor => some (.u, cursor)
  | 108 :: 117 :: cursor => some (.lu, cursor)
  | 108 :: 108 :: 117 :: cursor => some (.llu, cursor)
  | _ => none

/-- `while (width > length)`, one space each time. -/
def padOutput (length : ℕ) : ℕ → Stdio × ℕ → Except Fault (Stdio × ℕ)
  | 0, out => .ok out
  | width + 1, out =>
      if length < width + 1 then do
        let out ← addOutput w descriptor [space] out
        padOutput length width out
      else .ok out

/-- What stands behind a `%` that is not doubled: its width and conversion and the cursor behind them. -/
def scanDirective (cursor : Bytes) : Option (ℕ × Conversion × Bytes) :=
  (scanWidth cursor).bind fun found => (scanConversion found.2).map fun next => (found.1, next)

/-- The loop of `format_output`; the first argument bounds its rounds. -/
def formatLoop : ℕ → Bytes → List Argument → Stdio × ℕ → Except Fault (Stdio × ℕ)
  | 0, _, _, _ => .error .undefined
  | rounds + 1, cursor, arguments, out =>
      if cursor = [] then .ok out
      else do
        let out ← addOutput w descriptor (cursor.takeWhile (· ≠ percent)) out
        match cursor.dropWhile (· ≠ percent) with
        | [] => .ok out
        | _ :: cursor =>
            if cursor.head? = some percent then do
              let out ← addOutput w descriptor [percent] out
              formatLoop rounds cursor.tail arguments out
            else
              match scanDirective cursor with
              | none => .error (.failed { out.1 with errno := Errno.einval.code })
              | some (width, conversion, cursor) =>
                  match vaArg conversion arguments with
                  | none => .error .undefined
                  | some (text, arguments) => do
                      let out ← padOutput w descriptor text.length width out
                      let out ← addOutput w descriptor text out
                      formatLoop rounds cursor arguments out

/-- `format_output`: the state it leaves and the value it returns, or undefined behaviour. -/
def formatOutput (format : Option CString) (arguments : List Argument) (s : Stdio) : Option (Stdio × ℤ) :=
  match format with
  | none => some ({ s with errno := Errno.einval.code }, -1)
  | some format =>
      match formatLoop w descriptor (format.val.length + 1) format.val arguments (s, 0) with
      | .ok (s, total) => some (s, total)
      | .error (.failed s) => some (s, -1)
      | .error .undefined => none

end

/-! ### The reference rendering -/

/-- A number in decimal. -/
def decimal (n : ℕ) : Bytes := (digitList 10 n).map digitByte

/-- A part of a format string. -/
inductive Piece
  | literal (c : UInt8)
  | percent
  | conversion (width : Option ℕ) (kind : Conversion)
  deriving DecidableEq, Repr

def Conversion.spell : Conversion → Bytes
  | .d => [100]
  | .s => [115]
  | .u => [117]
  | .lu => [108, 117]
  | .llu => [108, 108, 117]

/-- The spelling of a width. -/
def widthText (width : Option ℕ) : Bytes := (width.map decimal).getD []

def Piece.spell : Piece → Bytes
  | .literal c => [c]
  | .percent => [Libc.percent, Libc.percent]
  | .conversion width kind => Libc.percent :: (widthText width ++ kind.spell)

/-- A literal is not `%`, and a width is a number from 1 to 32. -/
def Piece.Valid : Piece → Prop
  | .literal c => c ≠ Libc.percent
  | .percent => True
  | .conversion width _ => ∀ n ∈ width, 1 ≤ n ∧ n ≤ 32

/-- How a format string is read: its valid part, up to the end of the string or to a `%` that does not start a
valid conversion. -/
structure ReadAs (format : Bytes) (pieces : List Piece) (tail : Bytes) : Prop where
  spelled : format = pieces.flatMap Piece.spell ++ tail
  valid : ∀ piece ∈ pieces, piece.Valid
  rest : tail = [] ∨ tail.head? = some percent ∧ ∀ piece : Piece, piece.Valid → ¬ piece.spell <+: tail

/-- The type of argument a conversion takes. -/
def Argument.kind : Argument → Conversion
  | .int _ => .d
  | .string _ => .s
  | .uint _ => .u
  | .ulong _ => .lu
  | .ullong _ => .llu

/-- The text of an argument. -/
def Argument.render : Argument → Bytes
  | .int value => (if value.toInt < 0 then [minus] else []) ++ decimal value.toInt.natAbs
  | .string none => nullText
  | .string (some text) => text.val
  | .uint value => decimal value.toNat
  | .ulong value => decimal value.toNat
  | .ullong value => decimal value.toNat

/-- A text moved to the right of a field, never cut. -/
def justify (width : Option ℕ) (text : Bytes) : Bytes :=
  List.replicate (width.getD 0 - text.length) space ++ text

/-- The arguments match the conversions. -/
def Supplies : List Argument → List Piece → Prop
  | _, [] => True
  | arguments, .literal _ :: pieces => Supplies arguments pieces
  | arguments, .percent :: pieces => Supplies arguments pieces
  | argument :: arguments, .conversion _ kind :: pieces => argument.kind = kind ∧ Supplies arguments pieces
  | [], .conversion _ _ :: _ => False

/-- The text a format stands for. -/
def render : List Argument → List Piece → Bytes
  | _, [] => []
  | arguments, .literal c :: pieces => c :: render arguments pieces
  | arguments, .percent :: pieces => percent :: render arguments pieces
  | argument :: arguments, .conversion width _ :: pieces =>
      justify width argument.render ++ render arguments pieces
  | [], .conversion _ _ :: pieces => render [] pieces

/-! ### The texts of the arguments -/

/-- A buffer with room for all digits receives them. -/
theorem storeDigits_eq : ∀ (room magnitude : ℕ) (digits : Bytes), (digitList 10 magnitude).length ≤ room →
    storeDigits room magnitude digits =
      some (room - (digitList 10 magnitude).length, decimal magnitude ++ digits) := by
  intro room
  induction room with
  | zero =>
    intro magnitude digits h
    by_cases hdiv : magnitude / 10 = 0
    · rw [digitList_of_lt (by omega) hdiv] at h
      exact absurd h (by simp)
    · rw [digitList_div (by omega) hdiv, List.length_append] at h
      exact absurd h (by simp)
  | succ room ih =>
    intro magnitude digits h
    rw [storeDigits, decimal]
    by_cases hdiv : magnitude / 10 = 0
    · rw [if_neg (by simpa using hdiv), digitList_of_lt (by omega) hdiv]
      rfl
    · rw [digitList_div (by omega) hdiv, List.length_append, List.length_singleton] at h ⊢
      rw [if_pos hdiv, ih _ _ (by omega), List.map_append, List.append_assoc, Nat.add_sub_add_right]
      rfl

theorem unsignedText_eq (magnitude : UInt64) : unsignedText magnitude = some (decimal magnitude.toNat) := by
  have hlt : magnitude.toNat < 10 ^ 20 := by
    have := magnitude.toNat_lt
    omega
  have hlen := length_digitList_le (by omega) (by omega) hlt
  rw [unsignedText, storeDigits_eq _ _ _ (by omega), Option.map_some, List.append_nil]

theorem int_lt_zero_iff (value : Int32) : value < 0 ↔ value.toInt < 0 := by
  rw [Int32.lt_iff_toInt_lt]
  rfl

/-- The unsigned magnitude of an `int`, that of the least one included. -/
theorem magnitude_eq (value : Int32) :
    (if value < 0 then 0 - value.toUInt32 else value.toUInt32).toNat = value.toInt.natAbs := by
  have hvalue : value.toInt = if 2 * value.toUInt32.toNat < 2 ^ 32 then (value.toUInt32.toNat : ℤ)
      else (value.toUInt32.toNat : ℤ) - (2 ^ 32 : ℕ) := BitVec.toInt_eq_toNat_cond value.toBitVec
  have hlt := value.toUInt32.toNat_lt
  by_cases h : value < 0
  · rw [if_pos h, UInt32.toNat_sub, UInt32.toNat_zero]
    rw [int_lt_zero_iff] at h
    split at hvalue <;> omega
  · rw [if_neg h]
    rw [int_lt_zero_iff] at h
    split at hvalue <;> omega

theorem intText_eq (value : Int32) : intText value = some (Argument.int value).render := by
  have hlt : value.toInt.natAbs < 10 ^ 10 := by
    have h₁ := value.toInt_lt
    have h₂ := value.le_toInt
    omega
  have hlen := length_digitList_le (by omega) (by omega) hlt
  have hstore := storeDigits_eq ((4 * 8 + 2) / 3 + 2) value.toInt.natAbs [] (by omega)
  have hroom : (4 * 8 + 2) / 3 + 2 - (digitList 10 value.toInt.natAbs).length ≠ 0 := by omega
  rw [intText]
  simp only [magnitude_eq, hstore, List.append_nil, Argument.render]
  by_cases h : value < 0
  · rw [if_pos h, if_neg hroom, if_pos ((int_lt_zero_iff value).mp h)]
    rfl
  · rw [if_neg h, if_neg (mt (int_lt_zero_iff value).mpr h)]
    rfl

/-- An argument of the right type is rendered. -/
theorem vaArg_eq (argument : Argument) (arguments : List Argument) :
    vaArg argument.kind (argument :: arguments) = some (argument.render, arguments) := by
  cases argument with
  | int value => simp only [vaArg, Argument.kind, intText_eq, Option.map_some]
  | string text => cases text <;> rfl
  | uint value => simp [vaArg, Argument.kind, unsignedText_eq, Argument.render]
  | ulong value => simp only [vaArg, Argument.kind, unsignedText_eq, Option.map_some, Argument.render]
  | ullong value => simp only [vaArg, Argument.kind, unsignedText_eq, Option.map_some, Argument.render]

/-! ### The scanner reads what is spelled -/

theorem digitByte_toNat {d : ℕ} (h : d < 10) : (digitByte d).toNat = 48 + d := by
  rw [digitByte, UInt8.toNat_ofNat']
  omega

theorem digitByte_mem {d : ℕ} (h : d < 10) : 48 ≤ digitByte d ∧ digitByte d ≤ 57 := by
  have hd := digitByte_toNat h
  constructor
  · rw [UInt8.le_iff_toNat_le, hd]
    exact Nat.le_add_right 48 d
  · rw [UInt8.le_iff_toNat_le, hd]
    change 48 + d ≤ 57
    omega

theorem toNat_of_digit {c : UInt8} (h : 48 ≤ c ∧ c ≤ 57) : 48 ≤ c.toNat ∧ c.toNat ≤ 57 :=
  ⟨UInt8.le_iff_toNat_le.mp h.1, UInt8.le_iff_toNat_le.mp h.2⟩

theorem digitByte_sub {c : UInt8} (h : 48 ≤ c ∧ c ≤ 57) : digitByte (c.toNat - 48) = c := by
  have hc := toNat_of_digit h
  rw [← UInt8.toNat_inj, digitByte_toNat (by omega)]
  omega

theorem le_foldl_digits (digits : List ℕ) : ∀ n : ℕ, n ≤ digits.foldl (fun n d => n * 10 + d) n := by
  induction digits with
  | nil => exact fun n => le_rfl
  | cons d digits ih =>
    intro n
    rw [List.foldl_cons]
    have := ih (n * 10 + d)
    omega

/-- The loop reads digits up to the first other byte as long as the number is at most 32. -/
theorem widthDigits_spell {rest : Bytes} (hrest : ∀ c ∈ rest.head?, ¬ (48 ≤ c ∧ c ≤ 57)) (digits : List ℕ) :
    ∀ width, (∀ d ∈ digits, d < 10) → digits.foldl (fun n d => n * 10 + d) width ≤ 32 →
      widthDigits width (digits.map digitByte ++ rest) =
        some (digits.foldl (fun n d => n * 10 + d) width, rest) := by
  induction digits with
  | nil =>
    intro width _ _
    cases rest with
    | nil => rfl
    | cons c rest => exact if_neg (hrest c rfl)
  | cons d digits ih =>
    intro width hlt hmax
    have hd := hlt d List.mem_cons_self
    rw [List.foldl_cons] at hmax ⊢
    have hstep := le_foldl_digits digits (width * 10 + d)
    rw [List.map_cons, List.cons_append, widthDigits, if_pos (digitByte_mem hd), digitByte_toNat hd,
      Nat.add_sub_cancel_left]
    simp only
    rw [if_neg (by omega)]
    exact ih _ (fun x hx => hlt x (List.mem_cons_of_mem d hx)) hmax

theorem widthDigits_sound (cursor : Bytes) : ∀ {width n : ℕ} {rest : Bytes}, widthDigits width cursor = some (n, rest) →
    ∃ digits : List ℕ, (∀ d ∈ digits, d < 10) ∧ cursor = digits.map digitByte ++ rest ∧
      n = digits.foldl (fun n d => n * 10 + d) width ∧ (width ≤ 32 → n ≤ 32) := by
  induction cursor with
  | nil =>
    intro width n rest h
    cases h
    exact ⟨[], by simp, rfl, rfl, id⟩
  | cons c cursor ih =>
    intro width n rest h
    rw [widthDigits] at h
    split at h
    case isTrue hc =>
      have hnat := toNat_of_digit hc
      simp only at h
      split at h
      · cases h
      case isFalse hle =>
        obtain ⟨digits, hlt, hcursor, hn, hmax⟩ := ih h
        refine ⟨(c.toNat - 48) :: digits, ?_, ?_, hn, fun _ => hmax (by omega)⟩
        · intro d hd
          rcases List.mem_cons.mp hd with rfl | hd
          · omega
          · exact hlt d hd
        · rw [List.map_cons, digitByte_sub hc, hcursor, List.cons_append]
    case isFalse hc =>
      cases h
      exact ⟨[], by simp, rfl, rfl, id⟩

theorem scanConversion_spell (kind : Conversion) (rest : Bytes) :
    scanConversion (kind.spell ++ rest) = some (kind, rest) := by
  cases kind <;> rfl

theorem scanConversion_sound {cursor rest : Bytes} {kind : Conversion}
    (h : scanConversion cursor = some (kind, rest)) : cursor = kind.spell ++ rest := by
  unfold scanConversion at h
  split at h <;> cases h <;> rfl

theorem head_spell (kind : Conversion) (rest : Bytes) : ∀ c ∈ (kind.spell ++ rest).head?, ¬ (48 ≤ c ∧ c ≤ 57) := by
  cases kind <;> simp [Conversion.spell]

/-- A width is read back. -/
theorem scanWidth_spell {width : Option ℕ} (h : ∀ n ∈ width, 1 ≤ n ∧ n ≤ 32) (kind : Conversion) (rest : Bytes) :
    scanWidth (widthText width ++ (kind.spell ++ rest)) = some (width.getD 0, kind.spell ++ rest) := by
  cases width with
  | none => cases kind <;> rfl
  | some n =>
    obtain ⟨hpos, hmax⟩ := h n rfl
    have hfold : (digitList 10 n).foldl (fun n d => n * 10 + d) 0 = n := by
      rw [← numeral_eq_foldl, numeral_digitList]
    have hdigits := widthDigits_spell (head_spell kind rest) (digitList 10 n) 0
      (fun d hd => lt_of_mem_digitList (by omega) hd) (by rw [hfold]; exact hmax)
    rw [hfold] at hdigits
    obtain ⟨d, digits, hlist, hd⟩ := exists_digitList_cons 10 (show n ≠ 0 by omega)
    have hd10 : d < 10 := lt_of_mem_digitList (by omega) (hlist ▸ List.mem_cons_self)
    have hbyte := digitByte_toNat hd10
    have hfirst : 49 ≤ digitByte d ∧ digitByte d ≤ 57 := by
      refine ⟨?_, (digitByte_mem hd10).2⟩
      rw [UInt8.le_iff_toNat_le, hbyte]
      change 49 ≤ 48 + d
      omega
    rw [widthText, Option.map_some, Option.getD_some, decimal, Option.getD_some]
    rw [hlist, List.map_cons, List.cons_append] at hdigits ⊢
    rw [scanWidth]
    exact (if_pos hfirst).trans hdigits

theorem scanWidth_sound {cursor rest : Bytes} {n : ℕ} (h : scanWidth cursor = some (n, rest)) :
    ∃ width : Option ℕ, (∀ m ∈ width, 1 ≤ m ∧ m ≤ 32) ∧ n = width.getD 0 ∧ cursor = widthText width ++ rest := by
  cases cursor with
  | nil =>
    cases h
    exact ⟨none, by simp, rfl, rfl⟩
  | cons c cursor =>
    rw [scanWidth] at h
    split at h
    case isFalse =>
      cases h
      exact ⟨none, by simp, rfl, rfl⟩
    case isTrue hc =>
      have hfirst : 49 ≤ c.toNat := UInt8.le_iff_toNat_le.mp hc.1
      have hdigit : 48 ≤ c ∧ c ≤ 57 := by
        refine ⟨?_, hc.2⟩
        rw [UInt8.le_iff_toNat_le]
        change 48 ≤ c.toNat
        omega
      have hlast := (toNat_of_digit hdigit).2
      rw [widthDigits, if_pos hdigit] at h
      simp only at h
      rw [if_neg (by omega), Nat.zero_mul, Nat.zero_add] at h
      obtain ⟨digits, hlt, hcursor, hn, hmax⟩ := widthDigits_sound _ h
      have hall : ∀ x ∈ (c.toNat - 48) :: digits, x < 10 := by
        intro x hx
        rcases List.mem_cons.mp hx with rfl | hx
        · omega
        · exact hlt x hx
      have hnum : n = numeral 10 ((c.toNat - 48) :: digits) := by
        rw [hn, numeral_eq_foldl, List.foldl_cons, Nat.zero_mul, Nat.zero_add]
      have hlower := le_foldl_digits digits (c.toNat - 48)
      refine ⟨some n, ?_, rfl, ?_⟩
      · intro m hm
        cases hm
        omega
      · rw [widthText, Option.map_some, Option.getD_some, decimal, hnum,
          digitList_numeral (by omega) (by omega) hall, List.map_cons, digitByte_sub hdigit, hcursor, List.cons_append]

theorem scanDirective_spell {width : Option ℕ} (h : ∀ n ∈ width, 1 ≤ n ∧ n ≤ 32) (kind : Conversion)
    (rest : Bytes) :
    scanDirective (widthText width ++ (kind.spell ++ rest)) = some (width.getD 0, kind, rest) := by
  simp only [scanDirective, scanWidth_spell h, Option.bind_some, scanConversion_spell, Option.map_some]

theorem scanDirective_sound {cursor rest : Bytes} {n : ℕ} {kind : Conversion}
    (h : scanDirective cursor = some (n, kind, rest)) :
    ∃ width : Option ℕ, (∀ m ∈ width, 1 ≤ m ∧ m ≤ 32) ∧ n = width.getD 0 ∧
      cursor = widthText width ++ (kind.spell ++ rest) := by
  obtain ⟨⟨n', cursor'⟩, hwidth, hconv⟩ := Option.bind_eq_some_iff.mp h
  obtain ⟨⟨kind', rest'⟩, hscan, heq⟩ := Option.map_eq_some_iff.mp hconv
  cases heq
  obtain ⟨width, hvalid, hn, hcursor⟩ := scanWidth_sound hwidth
  have hspell := scanConversion_sound hscan
  simp only at hspell
  exact ⟨width, hvalid, hn, by rw [hcursor, hspell]⟩

/-! ### What was written -/

section Writing

variable (w : Writer)

/-- The bytes the callback accepted of the requests of a log. -/
def written (log : List Request) : Bytes :=
  (List.range log.length).flatMap fun i : ℕ =>
    match log[i]? with
    | some (.write descriptor data) => data.take (w.answer (log.take i) descriptor data).result.toNat
    | _ => []

/-- A write from position `start` of the log on failed. -/
def WriteRefused (log : List Request) (start : ℕ) : Prop :=
  ∃ i descriptor data, start ≤ i ∧ log[i]? = some (.write descriptor data) ∧
    (w.answer (log.take i) descriptor data).result ≤ 0

/-- The requests added since `s` put out the text. -/
structure Advance (s s' : Stdio) (text : Bytes) : Prop where
  log : s.requests <+: s'.requests
  bytes : written w s'.requests = written w s.requests ++ text

/-- A function has put out the text and counted it, or it has failed on the way because a write failed or the count
would pass `INT_MAX`. -/
def Renders (text : Bytes) (out : Stdio × ℕ) : Except Fault (Stdio × ℕ) → Prop
  | .ok out' => Advance w out.1 out'.1 text ∧ ¬ WriteRefused w out'.1.requests out.1.requests.length ∧
      out'.2 = out.2 + text.length ∧ out'.2 ≤ intMax ∧ out'.1.errno = out.1.errno ∧ out'.1.output = out.1.output
  | .error (.failed s') => (∃ part, part <+: text ∧ Advance w out.1 s' part) ∧
      (WriteRefused w s'.requests out.1.requests.length ∨ intMax < out.2 + text.length)
  | .error .undefined => False

/-- A function has failed within the text. -/
def Breaks (text : Bytes) (out : Stdio × ℕ) : Except Fault (Stdio × ℕ) → Prop
  | .error (.failed s') => ∃ part, part <+: text ∧ Advance w out.1 s' part
  | _ => False

variable {w} {s s' s'' : Stdio} {text more : Bytes} {out : Stdio × ℕ}

theorem written_snoc (log : List Request) (descriptor : ℤ) (data : Bytes) :
    written w (log ++ [.write descriptor data]) =
      written w log ++ data.take (w.answer log descriptor data).result.toNat := by
  rw [written, List.length_append, List.length_singleton, List.range_succ, List.flatMap_append,
    List.flatMap_singleton, List.getElem?_concat_length, List.take_left', written]
  · congr 1
    refine List.flatMap_congr fun i hi => ?_
    rw [List.mem_range] at hi
    rw [List.getElem?_append_left hi, List.take_append_of_le_length hi.le]
  · rfl

theorem refused_snoc (log : List Request) (descriptor : ℤ) (data : Bytes) {start : ℕ} (h : start ≤ log.length) :
    WriteRefused w (log ++ [.write descriptor data]) start ↔
      WriteRefused w log start ∨ (w.answer log descriptor data).result ≤ 0 := by
  constructor
  · rintro ⟨i, d, bytes, hi, hget, hres⟩
    rcases Nat.lt_trichotomy i log.length with hlt | rfl | hgt
    · rw [List.getElem?_append_left hlt] at hget
      rw [List.take_append_of_le_length hlt.le] at hres
      exact .inl ⟨i, d, bytes, hi, hget, hres⟩
    · rw [List.getElem?_concat_length] at hget
      cases hget
      rw [List.take_left] at hres
      exact .inr hres
    · rw [List.getElem?_eq_none (by rw [List.length_append, List.length_singleton]; omega)] at hget
      cases hget
  · rintro (⟨i, d, bytes, hi, hget, hres⟩ | hres)
    · have hlt := (List.getElem?_eq_some_iff.mp hget).1
      refine ⟨i, d, bytes, hi, ?_, ?_⟩
      · rw [List.getElem?_append_left hlt]
        exact hget
      · rw [List.take_append_of_le_length hlt.le]
        exact hres
    · refine ⟨log.length, descriptor, data, h, List.getElem?_concat_length, ?_⟩
      rw [List.take_left]
      exact hres

/-- A longer log has the failures of the shorter one and those behind it. -/
theorem refused_append (log log' : List Request) {start : ℕ} (h : start ≤ log.length) :
    WriteRefused w (log ++ log') start ↔ WriteRefused w log start ∨ WriteRefused w (log ++ log') log.length := by
  constructor
  · rintro ⟨i, d, bytes, hi, hget, hres⟩
    by_cases hlt : i < log.length
    · rw [List.getElem?_append_left hlt] at hget
      rw [List.take_append_of_le_length hlt.le] at hres
      exact .inl ⟨i, d, bytes, hi, hget, hres⟩
    · exact .inr ⟨i, d, bytes, by omega, hget, hres⟩
  · rintro (⟨i, d, bytes, hi, hget, hres⟩ | ⟨i, d, bytes, hi, hget, hres⟩)
    · have hlt := (List.getElem?_eq_some_iff.mp hget).1
      refine ⟨i, d, bytes, hi, ?_, ?_⟩
      · rw [List.getElem?_append_left hlt]
        exact hget
      · rw [List.take_append_of_le_length hlt.le]
        exact hres
    · exact ⟨i, d, bytes, h.trans hi, hget, hres⟩

theorem Advance.refl (w : Writer) (s : Stdio) : Advance w s s [] := ⟨List.prefix_rfl, (List.append_nil _).symm⟩

theorem Advance.trans (h : Advance w s s' text) (h' : Advance w s' s'' more) : Advance w s s'' (text ++ more) :=
  ⟨h.log.trans h'.log, by rw [h'.bytes, h.bytes, List.append_assoc]⟩

theorem Advance.refused_iff (h : Advance w s s' text) (h' : Advance w s' s'' more) :
    WriteRefused w s''.requests s.requests.length ↔
      WriteRefused w s'.requests s.requests.length ∨ WriteRefused w s''.requests s'.requests.length := by
  obtain ⟨log, hlog⟩ := h'.log
  rw [← hlog]
  exact refused_append _ _ h.log.length_le

theorem Renders.nil (hmax : out.2 ≤ intMax) : Renders w [] out (.ok out) := by
  refine ⟨Advance.refl w out.1, ?_, rfl, hmax, rfl, rfl⟩
  rintro ⟨i, d, bytes, hi, hget, -⟩
  rw [List.getElem?_eq_none hi] at hget
  cases hget

/-- Texts that are put out one after the other. -/
theorem Renders.bind {r : Except Fault (Stdio × ℕ)} {f : Stdio × ℕ → Except Fault (Stdio × ℕ)}
    (h : Renders w text out r)
    (hf : ∀ out', out'.1.output = out.1.output → out'.2 ≤ intMax → Renders w more out' (f out')) :
    Renders w (text ++ more) out (r >>= f) := by
  match r, h with
  | .ok out', ⟨hadv, hnot, hcount, hmax, herrno, houtput⟩ =>
    have hnext := hf out' houtput hmax
    change Renders w (text ++ more) out (f out')
    match f out', hnext with
    | .ok out'', ⟨hadv', hnot', hcount', hmax', herrno', houtput'⟩ =>
      refine ⟨hadv.trans hadv', ?_, ?_, hmax', herrno'.trans herrno, houtput'.trans houtput⟩
      · rw [hadv.refused_iff hadv']
        exact not_or.mpr ⟨hnot, hnot'⟩
      · rw [hcount', hcount, List.length_append, Nat.add_assoc]
    | .error (.failed s'), ⟨⟨part, hpart, hadv'⟩, hwhy⟩ =>
      refine ⟨⟨text ++ part, List.prefix_append_right_inj text |>.mpr hpart, hadv.trans hadv'⟩, ?_⟩
      rw [hadv.refused_iff hadv', List.length_append]
      rcases hwhy with href | hbig
      · exact .inl (.inr href)
      · exact .inr (by omega)
    | .error .undefined, hnext => exact hnext
  | .error (.failed s'), ⟨⟨part, hpart, hadv⟩, hwhy⟩ =>
    refine ⟨⟨part, hpart.trans (List.prefix_append text more), hadv⟩, ?_⟩
    rw [List.length_append]
    rcases hwhy with href | hbig
    · exact .inl href
    · exact .inr (by omega)
  | .error .undefined, h => exact h

/-- A failure behind a text. -/
theorem Renders.breaks {r : Except Fault (Stdio × ℕ)} {f : Stdio × ℕ → Except Fault (Stdio × ℕ)}
    (h : Renders w text out r)
    (hf : ∀ out', out'.1.output = out.1.output → out'.2 ≤ intMax → Breaks w more out' (f out')) :
    Breaks w (text ++ more) out (r >>= f) := by
  match r, h with
  | .ok out', ⟨hadv, _, _, hmax, _, houtput⟩ =>
    have hnext := hf out' houtput hmax
    change Breaks w (text ++ more) out (f out')
    match f out', hnext with
    | .error (.failed s'), ⟨part, hpart, hadv'⟩ =>
      exact ⟨text ++ part, List.prefix_append_right_inj text |>.mpr hpart, hadv.trans hadv'⟩
  | .error (.failed s'), ⟨⟨part, hpart, hadv⟩, _⟩ =>
    exact ⟨part, hpart.trans (List.prefix_append text more), hadv⟩

end Writing

section Output

variable {w : Writer} {descriptor : ℤ} {s : Stdio} {text : Bytes} {out : Stdio × ℕ}

/-- One call of the callback. -/
theorem afterCall_advance (w : Writer) (descriptor : ℤ) (text : Bytes) (s : Stdio) :
    Advance w s (afterCall w descriptor text s) (text.take (w.answer s.requests descriptor text).result.toNat) :=
  ⟨List.prefix_append _ _, written_snoc _ _ _⟩

theorem afterCall_refused (w : Writer) (descriptor : ℤ) (text : Bytes) (s : Stdio) :
    WriteRefused w (afterCall w descriptor text s).requests s.requests.length ↔
      (w.answer s.requests descriptor text).result ≤ 0 := by
  rw [afterCall, refused_snoc _ _ _ le_rfl, or_iff_right]
  rintro ⟨i, d, bytes, hi, hget, -⟩
  rw [List.getElem?_eq_none hi] at hget
  cases hget

/-- The loop of `write_all` puts out the text, or it stops within it at a write that failed. -/
theorem writeAllLoop_puts (w : Writer) (descriptor : ℤ) : ∀ (n : ℕ) (text : Bytes) (s : Stdio), text.length = n →
    (∃ s', writeAllLoop w descriptor text s = .ok s' ∧ Advance w s s' text ∧
      ¬ WriteRefused w s'.requests s.requests.length ∧ s'.output = s.output) ∨
    (∃ s' part, writeAllLoop w descriptor text s = .error (.failed s') ∧ part <+: text ∧ Advance w s s' part ∧
      WriteRefused w s'.requests s.requests.length) := by
  intro n
  induction n using Nat.strong_induction_on with
  | _ n ih =>
    intro text s hn
    rw [writeAllLoop]
    split
    case isFalse hnil =>
      rw [not_not] at hnil
      subst hnil
      refine .inl ⟨s, rfl, Advance.refl w s, ?_, rfl⟩
      rintro ⟨i, d, bytes, hi, hget, -⟩
      rw [List.getElem?_eq_none hi] at hget
      cases hget
    case isTrue hne =>
      have hadv := afterCall_advance w descriptor text s
      have href := afterCall_refused w descriptor text s
      simp only
      by_cases hpos : 0 < (w.answer s.requests descriptor text).result
      · rw [if_neg (by omega), dif_neg (by omega)]
        have hlen := List.length_pos_iff.mpr hne
        have hnot : ¬ WriteRefused w (afterCall w descriptor text s).requests s.requests.length := by
          rw [href]
          omega
        rcases ih _ (by rw [List.length_drop]; omega)
          (text.drop (w.answer s.requests descriptor text).result.toNat) (afterCall w descriptor text s) rfl with
          ⟨s', hrun, hadv', hnot', houtput⟩ | ⟨s', part, hrun, hpart, hadv', href'⟩
        · refine .inl ⟨s', hrun, ?_, ?_, houtput⟩
          · have hall := hadv.trans hadv'
            rwa [List.take_append_drop] at hall
          · rw [hadv.refused_iff hadv']
            exact not_or.mpr ⟨hnot, hnot'⟩
        · refine .inr ⟨s', _, hrun, ?_, hadv.trans hadv', (hadv.refused_iff hadv').mpr (.inr href')⟩
          have hpre := (List.prefix_append_right_inj
            (text.take (w.answer s.requests descriptor text).result.toNat)).mpr hpart
          rwa [List.take_append_drop] at hpre
      · rw [show (w.answer s.requests descriptor text).result.toNat = 0 by omega, List.take_zero] at hadv
        have hfail : WriteRefused w (afterCall w descriptor text s).requests s.requests.length := href.mpr (by omega)
        by_cases hneg : (w.answer s.requests descriptor text).result < 0
        · rw [if_pos hneg]
          exact .inr ⟨_, [], rfl, List.nil_prefix, ⟨hadv.log, hadv.bytes⟩, hfail⟩
        · rw [if_neg hneg, dif_pos (by omega)]
          exact .inr ⟨_, [], rfl, List.nil_prefix, ⟨hadv.log, hadv.bytes⟩, hfail⟩

/-- The stream of the descriptor is a standard one and not marked closed. -/
def StreamOpen (descriptor : ℤ) (s : Stdio) : Prop :=
  (descriptor = 1 ∨ descriptor = 2) ∧ stdioStreamClosed descriptor s.output = false

theorem addOutput_renders (hopen : StreamOpen descriptor out.1) (text : Bytes) (hmax : out.2 ≤ intMax) :
    Renders w text out (addOutput w descriptor text out) := by
  rw [addOutput]
  split
  case isTrue hbig =>
    exact ⟨⟨[], List.nil_prefix, (Advance.refl w out.1).log, (Advance.refl w out.1).bytes⟩, .inr (by omega)⟩
  case isFalse hfit =>
    have hclosed : ¬ ((descriptor = 1 ∨ descriptor = 2) ∧ stdioStreamClosed descriptor out.1.output = true) := by
      rw [hopen.2]
      simp
    rw [writeAll, if_neg hclosed]
    rcases writeAllLoop_puts w descriptor _ text out.1 rfl with
      ⟨s', hrun, hadv, hnot, houtput⟩ | ⟨s', part, hrun, hpart, hadv, href⟩
    · rw [hrun]
      exact ⟨⟨hadv.log, hadv.bytes⟩, hnot, rfl, by omega, rfl, houtput⟩
    · rw [hrun]
      exact ⟨⟨part, hpart, hadv⟩, .inl href⟩

theorem StreamOpen.of_eq {out' : Stdio × ℕ} (h : StreamOpen descriptor out.1) (houtput : out'.1.output = out.1.output) :
    StreamOpen descriptor out'.1 := by
  rw [StreamOpen, houtput]
  exact h

theorem padOutput_renders (length width : ℕ) : ∀ {out : Stdio × ℕ}, StreamOpen descriptor out.1 → out.2 ≤ intMax →
    Renders w (List.replicate (width - length) space) out (padOutput w descriptor length width out) := by
  induction width with
  | zero =>
    intro out _ hmax
    rw [Nat.zero_sub]
    exact Renders.nil hmax
  | succ width ih =>
    intro out hopen hmax
    rw [padOutput]
    split
    case isTrue hlt =>
      have hsub : width + 1 - length = width - length + 1 := by omega
      rw [hsub, List.replicate_succ]
      refine (addOutput_renders hopen [space] hmax).bind fun out' houtput hmax' => ?_
      exact ih (hopen.of_eq houtput) hmax'
    case isFalse hge =>
      rw [show width + 1 - length = 0 by omega]
      exact Renders.nil hmax

end Output

/-! ### The loop -/

section Loop

variable {w : Writer} {descriptor : ℤ} {pieces : List Piece} {tail : Bytes}

def Piece.isLiteral : Piece → Bool
  | .literal _ => true
  | _ => false

/-- The literal text before the next `%`. -/
def literalText (pieces : List Piece) : Bytes := (pieces.takeWhile Piece.isLiteral).flatMap Piece.spell

/-- The pieces from the next conversion on. -/
def fromDirective (pieces : List Piece) : List Piece := pieces.dropWhile Piece.isLiteral

@[simp] theorem literalText_literal (c : UInt8) (pieces : List Piece) :
    literalText (.literal c :: pieces) = c :: literalText pieces := rfl

@[simp] theorem fromDirective_literal (c : UInt8) (pieces : List Piece) :
    fromDirective (.literal c :: pieces) = fromDirective pieces := rfl

theorem literalText_directive {piece : Piece} (h : piece.isLiteral = false) (pieces : List Piece) :
    literalText (piece :: pieces) = [] := by
  rw [literalText, List.takeWhile_cons_of_neg (by simp [h]), List.flatMap_nil]

theorem fromDirective_directive {piece : Piece} (h : piece.isLiteral = false) (pieces : List Piece) :
    fromDirective (piece :: pieces) = piece :: pieces := by
  rw [fromDirective, List.dropWhile_cons_of_neg (by simp [h])]

theorem Piece.spell_directive {piece : Piece} (h : piece.isLiteral = false) :
    ∃ text, piece.spell = Libc.percent :: text := by
  cases piece with
  | literal c => cases h
  | percent => exact ⟨_, rfl⟩
  | conversion width kind => exact ⟨_, rfl⟩

theorem takeWhile_spell (hvalid : ∀ piece ∈ pieces, piece.Valid) (htail : tail = [] ∨ tail.head? = some percent) :
    (pieces.flatMap Piece.spell ++ tail).takeWhile (· ≠ percent) = literalText pieces ∧
      (pieces.flatMap Piece.spell ++ tail).dropWhile (· ≠ percent) =
        (fromDirective pieces).flatMap Piece.spell ++ tail := by
  induction pieces with
  | nil =>
    cases tail with
    | nil => exact ⟨rfl, rfl⟩
    | cons c tail =>
      obtain rfl : c = percent := by simpa using htail
      simp [literalText, fromDirective]
  | cons piece pieces ih =>
    cases hlit : piece.isLiteral with
    | true =>
      cases piece with
      | literal c =>
        have hc : c ≠ percent := hvalid _ List.mem_cons_self
        obtain ⟨ih₁, ih₂⟩ := ih fun p hp => hvalid p (List.mem_cons_of_mem _ hp)
        rw [literalText_literal, fromDirective_literal, ← ih₁, ← ih₂, List.flatMap_cons, Piece.spell,
          List.singleton_append, List.cons_append]
        exact ⟨List.takeWhile_cons_of_pos (by simpa using hc), List.dropWhile_cons_of_pos (by simpa using hc)⟩
      | percent => cases hlit
      | conversion width kind => cases hlit
    | false =>
      obtain ⟨text, htext⟩ := Piece.spell_directive hlit
      rw [literalText_directive hlit, fromDirective_directive hlit, List.flatMap_cons, htext, List.cons_append,
        List.cons_append]
      exact ⟨List.takeWhile_cons_of_neg (by simp), List.dropWhile_cons_of_neg (by simp)⟩

theorem render_eq (arguments : List Argument) (pieces : List Piece) :
    render arguments pieces = literalText pieces ++ render arguments (fromDirective pieces) := by
  induction pieces with
  | nil => cases arguments <;> rfl
  | cons piece pieces ih =>
    cases piece with
    | literal c => rw [literalText_literal, fromDirective_literal, render, ih, List.cons_append]
    | percent => rw [literalText_directive rfl, fromDirective_directive rfl, List.nil_append]
    | conversion width kind => rw [literalText_directive rfl, fromDirective_directive rfl, List.nil_append]

theorem supplies_fromDirective (arguments : List Argument) (pieces : List Piece) :
    Supplies arguments (fromDirective pieces) ↔ Supplies arguments pieces := by
  induction pieces with
  | nil => rfl
  | cons piece pieces ih =>
    cases piece with
    | literal c => rw [fromDirective_literal, Supplies, ih]
    | percent => rfl
    | conversion width kind => rfl

/-- A directive does not start with a second `%`. -/
theorem head_directive {width : Option ℕ} (h : ∀ n ∈ width, 1 ≤ n ∧ n ≤ 32) (kind : Conversion) (rest : Bytes) :
    (widthText width ++ (kind.spell ++ rest)).head? ≠ some percent := by
  cases width with
  | none => cases kind <;> simp [widthText, Conversion.spell, percent]
  | some n =>
    obtain ⟨hpos, -⟩ := h n rfl
    obtain ⟨d, digits, hlist, -⟩ := exists_digitList_cons 10 (show n ≠ 0 by omega)
    have hd : d < 10 := lt_of_mem_digitList (by omega) (hlist ▸ List.mem_cons_self)
    have hbyte := digitByte_toNat hd
    intro hhead
    simp only [widthText, decimal, Option.map_some, Option.getD_some, hlist, List.map_cons, List.cons_append,
      List.head?_cons, Option.some.injEq] at hhead
    rw [hhead, show percent.toNat = 37 from rfl] at hbyte
    omega

/-- Behind a `%` that starts no valid conversion the scanner fails. -/
theorem scanDirective_offending {cursor : Bytes}
    (h : ∀ piece : Piece, piece.Valid → ¬ piece.spell <+: percent :: cursor) :
    cursor.head? ≠ some percent ∧ scanDirective cursor = none := by
  constructor
  · intro hhead
    cases cursor with
    | nil => cases hhead
    | cons c cursor =>
      obtain rfl : c = percent := by simpa using hhead
      exact h .percent trivial ⟨cursor, rfl⟩
  · cases hscan : scanDirective cursor with
    | none => rfl
    | some found =>
      obtain ⟨n, kind, rest⟩ := found
      obtain ⟨width, hvalid, -, hcursor⟩ := scanDirective_sound hscan
      refine absurd ⟨rest, ?_⟩ (h (.conversion width kind) hvalid)
      rw [hcursor, Piece.spell, List.cons_append, List.append_assoc]

/-- The text is put out as far as the format is valid. -/
def Concludes (w : Writer) (tail text : Bytes) (out : Stdio × ℕ) (r : Except Fault (Stdio × ℕ)) : Prop :=
  (tail = [] → Renders w text out r) ∧ (tail ≠ [] → Breaks w text out r)

theorem Renders.concludes {text more : Bytes} {out : Stdio × ℕ} {r : Except Fault (Stdio × ℕ)}
    {f : Stdio × ℕ → Except Fault (Stdio × ℕ)} (h : Renders w text out r)
    (hf : ∀ out', out'.1.output = out.1.output → out'.2 ≤ intMax → Concludes w tail more out' (f out')) :
    Concludes w tail (text ++ more) out (r >>= f) :=
  ⟨fun ht => h.bind fun out' houtput hmax => (hf out' houtput hmax).1 ht,
    fun ht => h.breaks fun out' houtput hmax => (hf out' houtput hmax).2 ht⟩

/-- The rest of a format behind its first piece. -/
theorem ReadAs.rest_of_cons {format : Bytes} {piece : Piece} (h : ReadAs format (piece :: pieces) tail) :
    ReadAs (pieces.flatMap Piece.spell ++ tail) pieces tail :=
  ⟨rfl, fun p hp => h.valid p (List.mem_cons_of_mem _ hp), h.rest⟩

theorem ReadAs.fromDirective {format : Bytes} (h : ReadAs format pieces tail) :
    ReadAs ((fromDirective pieces).flatMap Piece.spell ++ tail) (fromDirective pieces) tail :=
  ⟨rfl, fun p hp => h.valid p ((List.dropWhile_sublist _).subset hp), h.rest⟩

theorem ReadAs.eq_nil {format : Bytes} (h : ReadAs format pieces tail) (hnil : format = []) : pieces = [] ∧ tail = [] := by
  have hspelled := h.spelled
  rw [hnil, eq_comm, List.append_eq_nil_iff] at hspelled
  refine ⟨?_, hspelled.2⟩
  cases pieces with
  | nil => rfl
  | cons piece pieces =>
    have hspell := (List.append_eq_nil_iff.mp hspelled.1).1
    cases piece <;> simp [Piece.spell] at hspell

theorem fromDirective_head (pieces : List Piece) : ∀ piece rest, Libc.fromDirective pieces = piece :: rest →
    piece.isLiteral = false := by
  induction pieces with
  | nil =>
    intro piece rest h
    cases h
  | cons first pieces ih =>
    intro piece rest h
    cases hfirst : first.isLiteral with
    | true =>
      rw [Libc.fromDirective, List.dropWhile_cons_of_pos hfirst] at h
      exact ih piece rest h
    | false =>
      rw [fromDirective_directive hfirst] at h
      cases h
      exact hfirst

/-- The loop puts out the rendering of the valid part of the format. -/
theorem formatLoop_concludes (rounds : ℕ) : ∀ {cursor : Bytes} {pieces : List Piece} {arguments : List Argument}
    {out : Stdio × ℕ}, ReadAs cursor pieces tail → Supplies arguments pieces → cursor.length < rounds →
    StreamOpen descriptor out.1 → out.2 ≤ intMax →
    Concludes w tail (render arguments pieces) out (formatLoop w descriptor rounds cursor arguments out) := by
  induction rounds with
  | zero =>
    intro cursor pieces arguments out _ _ hlen
    exact absurd hlen (Nat.not_lt_zero _)
  | succ rounds ih =>
    intro cursor pieces arguments out hreads hsupplies hlen hopen hmax
    by_cases hnil : cursor = []
    · obtain ⟨rfl, rfl⟩ := hreads.eq_nil hnil
      rw [formatLoop, if_pos hnil, render]
      exact ⟨fun _ => Renders.nil hmax, fun h => absurd rfl h⟩
    have htail : tail = [] ∨ tail.head? = some percent := hreads.rest.imp_right And.left
    obtain ⟨htake, hdrop⟩ := takeWhile_spell hreads.valid htail
    rw [← hreads.spelled] at htake hdrop
    have hshort := (@List.dropWhile_sublist _ cursor (· ≠ percent)).length_le
    rw [hdrop] at hshort
    rw [formatLoop, if_neg hnil, htake, hdrop, render_eq]
    refine (addOutput_renders hopen _ hmax).concludes fun out' houtput hmax' => ?_
    have hopen' := hopen.of_eq houtput
    rw [← supplies_fromDirective] at hsupplies
    have hrest := hreads.fromDirective
    have hhead := fromDirective_head pieces
    generalize Libc.fromDirective pieces = rest at hsupplies hrest hshort hhead
    cases rest with
    | nil =>
      -- The valid part ends here: at the end of the string, or at a `%` the scanner refuses.
      rw [render]
      rcases hrest.rest with htail | ⟨hpercent, hoffending⟩
      · subst htail
        exact ⟨fun _ => Renders.nil hmax', fun h => absurd rfl h⟩
      · cases tail with
        | nil => cases hpercent
        | cons c tail =>
          obtain rfl : c = percent := by simpa using hpercent
          obtain ⟨hsecond, hscan⟩ := scanDirective_offending hoffending
          refine ⟨fun h => absurd h (List.cons_ne_nil _ _), fun _ => ?_⟩
          change Breaks w [] out' (if tail.head? = some percent then _ else _)
          rw [if_neg hsecond, hscan]
          exact ⟨[], List.nil_prefix, (Advance.refl w out'.1).log, (Advance.refl w out'.1).bytes⟩
    | cons piece rest =>
      have hnext := hrest.rest_of_cons
      rw [List.flatMap_cons, List.append_assoc, List.length_append] at hshort
      cases piece with
      | literal c => exact absurd (hhead _ rest rfl) (by simp [Piece.isLiteral])
      | percent =>
        have hcursor : (Piece.percent :: rest).flatMap Piece.spell ++ tail =
            percent :: percent :: (rest.flatMap Piece.spell ++ tail) := rfl
        rw [hcursor, render, ← List.singleton_append]
        simp only [List.head?_cons, if_true, List.tail_cons]
        refine (addOutput_renders hopen' [percent] hmax').concludes fun out'' houtput' hmax'' => ?_
        refine ih hnext hsupplies ?_ (hopen'.of_eq houtput') hmax''
        simp only [Piece.spell, List.length_cons] at hshort
        omega
      | conversion width kind =>
        have hvalid : ∀ n ∈ width, 1 ≤ n ∧ n ≤ 32 := hrest.valid _ List.mem_cons_self
        cases arguments with
        | nil => exact absurd hsupplies id
        | cons argument arguments =>
          obtain ⟨rfl, hsupplies⟩ := hsupplies
          have hcursor : (Piece.conversion width argument.kind :: rest).flatMap Piece.spell ++ tail =
              percent :: (widthText width ++ (argument.kind.spell ++ (rest.flatMap Piece.spell ++ tail))) := by
            simp only [List.flatMap_cons, Piece.spell, List.cons_append, List.append_assoc]
          rw [hcursor]
          simp only [if_neg (head_directive hvalid argument.kind _), scanDirective_spell hvalid, vaArg_eq]
          rw [render, justify, List.append_assoc]
          refine (padOutput_renders argument.render.length (width.getD 0) hopen' hmax').concludes
            fun out₁ houtput₁ hmax₁ => ?_
          have hopen₁ := hopen'.of_eq houtput₁
          refine (addOutput_renders hopen₁ argument.render hmax₁).concludes fun out₂ houtput₂ hmax₂ => ?_
          refine ih hnext hsupplies ?_ (hopen₁.of_eq houtput₂) hmax₂
          simp only [Piece.spell, List.length_cons] at hshort
          omega

end Loop

/-! ### Every format is read -/

/-- Every format string has a valid part. -/
theorem exists_reads : ∀ (n : ℕ) (format : Bytes), format.length = n → ∃ pieces tail, ReadAs format pieces tail := by
  intro n
  induction n using Nat.strong_induction_on with
  | _ n ih =>
    intro format hn
    -- A valid piece in front of a shorter format.
    have hcons : ∀ (piece : Piece) (rest : Bytes), piece.Valid → format = piece.spell ++ rest →
        rest.length < format.length → ∃ pieces tail, ReadAs format pieces tail := by
      intro piece rest hvalid hformat hlt
      obtain ⟨pieces, tail, hreads⟩ := ih rest.length (by omega) rest rfl
      refine ⟨piece :: pieces, tail, ?_, ?_, hreads.rest⟩
      · rw [hformat, hreads.spelled, List.flatMap_cons, List.append_assoc]
      · intro p hp
        rcases List.mem_cons.mp hp with rfl | hp
        · exact hvalid
        · exact hreads.valid p hp
    cases format with
    | nil => exact ⟨[], [], rfl, by simp, .inl rfl⟩
    | cons c cursor =>
      by_cases hc : c = percent
      · subst hc
        by_cases hsecond : cursor.head? = some percent
        · cases cursor with
          | nil => cases hsecond
          | cons c cursor =>
            obtain rfl : c = percent := by simpa using hsecond
            exact hcons .percent cursor trivial rfl (by simp only [List.length_cons]; omega)
        · cases hscan : scanDirective cursor with
          | some found =>
            obtain ⟨m, kind, rest⟩ := found
            obtain ⟨width, hvalid, -, hcursor⟩ := scanDirective_sound hscan
            refine hcons (.conversion width kind) rest hvalid ?_ ?_
            · rw [hcursor, Piece.spell, List.cons_append, List.append_assoc]
            · rw [hcursor, List.length_cons, List.length_append, List.length_append]
              omega
          | none =>
            refine ⟨[], percent :: cursor, rfl, by simp, .inr ⟨rfl, ?_⟩⟩
            intro piece hvalid
            rintro ⟨rest, hrest⟩
            cases piece with
            | literal c => exact hvalid (List.cons.inj hrest).1
            | percent =>
              obtain rfl := (List.cons.inj hrest).2
              exact hsecond rfl
            | conversion width kind =>
              rw [Piece.spell, List.cons_append, List.append_assoc] at hrest
              have hcursor := (List.cons.inj hrest).2
              rw [← hcursor, scanDirective_spell hvalid] at hscan
              cases hscan
      · exact hcons (.literal c) cursor hc rfl (Nat.lt_succ_self _)

/-- **Formatted output is its rendering.**  Every format string is read up to its end or to an invalid conversion. For
arguments that match what was read, the count is returned exactly when all of the format is valid, no write fails and
the count fits an `int`; the bytes written are then the rendering. In every other case `-1` is returned and the
bytes written are a prefix of the rendering of what was read. -/
theorem formatOutput_renders (w : Writer) {descriptor : ℤ} {s : Stdio} (hopen : StreamOpen descriptor s) :
    (∀ format : CString, ∃ pieces tail, ReadAs format.val pieces tail) ∧
    ∀ (format : CString) (pieces : List Piece) (tail : Bytes) (arguments : List Argument),
      ReadAs format.val pieces tail → Supplies arguments pieces →
      ∃ s' n, formatOutput w descriptor (some format) arguments s = some (s', n) ∧ s.requests <+: s'.requests ∧
        (0 ≤ n ↔ tail = [] ∧ ¬ WriteRefused w s'.requests s.requests.length ∧
          (render arguments pieces).length ≤ intMax) ∧
        (0 ≤ n → n = (render arguments pieces).length ∧
          written w s'.requests = written w s.requests ++ render arguments pieces ∧ s'.errno = s.errno) ∧
        (n < 0 → n = -1 ∧ ∃ part, part <+: render arguments pieces ∧
          written w s'.requests = written w s.requests ++ part) := by
  refine ⟨fun format => exists_reads _ format.val rfl, ?_⟩
  intro format pieces tail arguments hreads hsupplies
  have hloop := @formatLoop_concludes w descriptor tail (format.val.length + 1) format.val pieces arguments (s, 0)
    hreads hsupplies (Nat.lt_succ_self _) hopen (Nat.zero_le _)
  rw [formatOutput]
  by_cases htail : tail = []
  · have hrenders := hloop.1 htail
    match formatLoop w descriptor (format.val.length + 1) format.val arguments (s, 0), hrenders with
    | .ok (s', total), ⟨hadv, hnot, hcount, hmax, herrno, _⟩ =>
      simp only [Nat.zero_add] at hcount hmax
      refine ⟨s', total, rfl, hadv.log, ?_, fun _ => ⟨by rw [hcount], hadv.bytes, herrno⟩, fun h => by omega⟩
      exact ⟨fun _ => ⟨htail, hnot, by omega⟩, fun _ => by omega⟩
    | .error (.failed s'), ⟨⟨part, hpart, hadv⟩, hwhy⟩ =>
      simp only [Nat.zero_add] at hwhy
      refine ⟨s', -1, rfl, hadv.log, ?_, fun h => absurd h (by omega), fun _ => ⟨rfl, part, hpart, hadv.bytes⟩⟩
      refine ⟨fun h => absurd h (by omega), ?_⟩
      rintro ⟨-, hnot, hle⟩
      rcases hwhy with href | hbig
      · exact absurd href hnot
      · omega
  · have hbreaks := hloop.2 htail
    match formatLoop w descriptor (format.val.length + 1) format.val arguments (s, 0), hbreaks with
    | .error (.failed s'), ⟨part, hpart, hadv⟩ =>
      refine ⟨s', -1, rfl, hadv.log, ?_, fun h => absurd h (by omega), fun _ => ⟨rfl, part, hpart, hadv.bytes⟩⟩
      exact ⟨fun h => absurd h (by omega), fun h => absurd h.1 htail⟩

/-- A callback that takes one byte at a time prints the least `int` and a newline, in twelve bytes. -/
theorem formatOutput_renders_least :
    let w : Writer := ⟨fun _ _ data => ⟨min data.length 1, 0, by omega, by omega⟩, fun _ _ _ => by simp⟩
    let s : Stdio := ⟨0, ⟨⟨false, false⟩, false, fun _ => none⟩, ⟨false, false, false, false⟩, fun _ => 0, []⟩
    StreamOpen 1 s ∧ ∃ s', formatOutput w 1 (some ⟨[37, 100, 10], by decide⟩) [.int Int32.minValue] s = some (s', 12) ∧
      written w s'.requests = [45, 50, 49, 52, 55, 52, 56, 51, 54, 52, 56, 10] ∧
      written w s'.requests = render [.int Int32.minValue] [.conversion none .d, .literal 10] ∧ s'.errno = 0 := by
  intro w s
  have hopen : StreamOpen 1 s := ⟨.inl rfl, rfl⟩
  refine ⟨hopen, ?_⟩
  have hvalue : (formatOutput w 1 (some ⟨[37, 100, 10], by decide⟩) [.int Int32.minValue] s).map
      (fun result => (result.2, written w result.1.requests)) =
      some (12, [45, 50, 49, 52, 55, 52, 56, 51, 54, 52, 56, 10]) := by
    decide +kernel
  obtain ⟨s', n, hrun, -, -, hcount, -⟩ := (formatOutput_renders w hopen).2 ⟨[37, 100, 10], by decide⟩
    [.conversion none .d, .literal 10] [] [.int Int32.minValue] ⟨rfl, by simp [Piece.Valid, percent], .inl rfl⟩
    ⟨rfl, trivial⟩
  rw [hrun, Option.map_some, Option.some.injEq, Prod.mk.injEq] at hvalue
  obtain ⟨rfl, hbytes⟩ := hvalue
  obtain ⟨-, hrender, herrno⟩ := hcount (by decide)
  exact ⟨s', hrun, hbytes, hrender, herrno⟩

end Libc

end CannedBsd
