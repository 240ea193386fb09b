import CannedBsd.Lib.Numeral
import CannedBsd.Shell.Pipeline

/-!
# Exit statuses

`parse_exit_status` reads a decimal number of any length. It keeps only the value modulo 256 while it
reads, and takes the sign into account at the end.

* `parseDigits_eq_some`: the loop is Horner's rule modulo 256.
* `exit_status_exact`: a text is accepted exactly when it is an optional sign and digits, and the result is
  its value modulo 256.
-/

namespace CannedBsd

open CannedBsd.Lib

namespace Shell

/-- The value of a digit. -/
def digitOf (c : UInt8) : ℕ := c.toNat - 48

/-- The text is an optional sign and at least one decimal digit, and denotes the number. -/
inductive Denotes : Bytes → ℤ → Prop
  | plain {digits : Bytes} : digits ≠ [] → (∀ c ∈ digits, isDigit c = true) →
      Denotes digits (numeral 10 (digits.map digitOf))
  | plus {digits : Bytes} : digits ≠ [] → (∀ c ∈ digits, isDigit c = true) →
      Denotes (43 :: digits) (numeral 10 (digits.map digitOf))
  | minus {digits : Bytes} : digits ≠ [] → (∀ c ∈ digits, isDigit c = true) →
      Denotes (45 :: digits) (-(numeral 10 (digits.map digitOf)))

/-! ### The digits -/

/-- The loop goes through when everything is a digit, and then it is Horner's rule modulo 256. -/
theorem parseDigits_eq_some (text : Bytes) : ∀ {status result : ℕ}, parseDigits status text = some result ↔
    (∀ c ∈ text, isDigit c = true) ∧
      result = (text.map digitOf).foldl (fun n d => (n * 10 + d) % 256) status := by
  induction text with
  | nil =>
    intro status result
    constructor
    · intro h
      exact ⟨fun c hc => absurd hc List.not_mem_nil, (Option.some.inj h).symm⟩
    · rintro ⟨-, rfl⟩
      rfl
  | cons c rest ih =>
    intro status result
    rw [parseDigits, List.forall_mem_cons, List.map_cons, List.foldl_cons]
    by_cases hc : isDigit c = true
    · rw [if_pos hc, ih]
      exact ⟨fun h => ⟨⟨hc, h.1⟩, h.2⟩, fun h => ⟨h.1.2, h.2⟩⟩
    · rw [if_neg hc]
      exact ⟨fun h => (by cases h), fun h => absurd h.1.1 hc⟩

/-- The first check asks for one digit at least. -/
theorem cursor_digits {cursor : Bytes} {result : ℕ} :
    (cursor.head?.any isDigit = true ∧ parseDigits 0 cursor = some result) ↔
      (cursor ≠ [] ∧ ∀ c ∈ cursor, isDigit c = true) ∧
        result = (cursor.map digitOf).foldl (fun n d => (n * 10 + d) % 256) 0 := by
  rw [parseDigits_eq_some]
  cases cursor with
  | nil => exact ⟨fun h => (by cases h.1), fun h => absurd rfl h.1.1⟩
  | cons c rest =>
    constructor
    · rintro ⟨-, hall, hresult⟩
      exact ⟨⟨List.cons_ne_nil c rest, hall⟩, hresult⟩
    · rintro ⟨⟨-, hall⟩, hresult⟩
      exact ⟨hall c (List.mem_cons_self ..), hall, hresult⟩

theorem foldl_digits_lt (digits : List ℕ) : digits.foldl (fun n d => (n * 10 + d) % 256) 0 < 256 := by
  induction digits using List.reverseRecOn with
  | nil => decide
  | append_singleton digits d ih =>
    rw [List.foldl_append]
    exact Nat.mod_lt _ (by decide)

/-! ### The sign -/

/-- What is accepted behind the sign, and the value it is accepted with. -/
def acceptDigits (cursor : Bytes) (value : ℕ → ℤ) : Option ℤ :=
  if cursor.head?.any isDigit then (parseDigits 0 cursor).map value else none

theorem parseExitStatus_plus (rest : Bytes) : parseExitStatus (43 :: rest) = acceptDigits rest fun status => status := rfl

theorem parseExitStatus_minus (rest : Bytes) :
    parseExitStatus (45 :: rest) = acceptDigits rest fun status => ((256 - status) % 256 : ℕ) := rfl

theorem parseExitStatus_plain {text : Bytes} (h : ∀ rest, text ≠ 43 :: rest ∧ text ≠ 45 :: rest) :
    parseExitStatus text = acceptDigits text fun status => status := by
  have hsign : text.head?.filter (fun c => c = 43 || c = 45) = none := by
    cases text with
    | nil => rfl
    | cons c rest =>
      refine Option.filter_eq_none_iff.mpr fun d hd => ?_
      cases hd
      intro hc
      rcases Bool.or_eq_true_iff.mp hc with hc | hc
      · exact (h rest).1 (by rw [of_decide_eq_true hc])
      · exact (h rest).2 (by rw [of_decide_eq_true hc])
  rw [parseExitStatus, hsign]
  rfl

theorem acceptDigits_eq_some {cursor : Bytes} {value : ℕ → ℤ} {status : ℤ} :
    acceptDigits cursor value = some status ↔ (cursor ≠ [] ∧ ∀ c ∈ cursor, isDigit c = true) ∧
      status = value ((cursor.map digitOf).foldl (fun n d => (n * 10 + d) % 256) 0) := by
  have hcursor := @cursor_digits cursor
  rw [acceptDigits]
  constructor
  · intro h
    split at h
    · rename_i hhead
      obtain ⟨result, hparse, hvalue⟩ := Option.map_eq_some_iff.mp h
      obtain ⟨hall, rfl⟩ := hcursor.mp ⟨hhead, hparse⟩
      exact ⟨hall, hvalue.symm⟩
    · cases h
  · rintro ⟨hall, rfl⟩
    obtain ⟨hhead, hparse⟩ := hcursor.mpr ⟨hall, rfl⟩
    rw [if_pos hhead, hparse]
    rfl

/-- What the loop comes to, as an integer. -/
theorem horner_status (digits : Bytes) :
    (((digits.map digitOf).foldl (fun n d => (n * 10 + d) % 256) 0 : ℕ) : ℤ) ≡
      numeral 10 (digits.map digitOf) [ZMOD 256] :=
  Int.natCast_modEq_iff.mpr (horner_mod 10 256 (digits.map digitOf))

/-- Negation modulo 256, as the code computes it. -/
theorem negated_status {status : ℕ} (h : status < 256) : (((256 - status) % 256 : ℕ) : ℤ) ≡ -(status : ℤ) [ZMOD 256] := by
  have hsum : (256 - status + status) = 256 := Nat.sub_add_cancel (le_of_lt h)
  have hmod : (((256 - status) % 256 : ℕ) : ℤ) ≡ ((256 - status : ℕ) : ℤ) [ZMOD 256] :=
    Int.natCast_modEq_iff.mpr (Nat.mod_modEq _ _)
  refine hmod.trans (Int.modEq_iff_dvd.mpr ⟨-1, ?_⟩)
  omega

theorem parse_of_denotes {text : Bytes} {n : ℤ} (h : Denotes text n) :
    ∃ status, parseExitStatus text = some status ∧ 0 ≤ status ∧ status < 256 ∧ status ≡ n [ZMOD 256] := by
  cases h with
  | plain hne hall =>
    have hsign : ∀ rest, text ≠ 43 :: rest ∧ text ≠ 45 :: rest := by
      refine fun rest => ⟨?_, ?_⟩
      · rintro rfl
        exact absurd (hall 43 (List.mem_cons_self ..)) (by decide)
      · rintro rfl
        exact absurd (hall 45 (List.mem_cons_self ..)) (by decide)
    have hlt := foldl_digits_lt (text.map digitOf)
    refine ⟨_, ?_, ?_, ?_, horner_status text⟩
    · rw [parseExitStatus_plain hsign]
      exact acceptDigits_eq_some.mpr ⟨⟨hne, hall⟩, rfl⟩
    · omega
    · omega
  | @plus digits hne hall =>
    have hlt := foldl_digits_lt (digits.map digitOf)
    refine ⟨_, ?_, ?_, ?_, horner_status digits⟩
    · rw [parseExitStatus_plus]
      exact acceptDigits_eq_some.mpr ⟨⟨hne, hall⟩, rfl⟩
    · omega
    · omega
  | @minus digits hne hall =>
    have hlt := foldl_digits_lt (digits.map digitOf)
    refine ⟨_, ?_, ?_, ?_, (negated_status hlt).trans (horner_status digits).neg⟩
    · rw [parseExitStatus_minus]
      exact acceptDigits_eq_some.mpr ⟨⟨hne, hall⟩, rfl⟩
    · omega
    · omega

theorem denotes_of_parse {text : Bytes} {status : ℤ} (h : parseExitStatus text = some status) : ∃ n, Denotes text n := by
  by_cases hplus : ∃ rest, text = 43 :: rest
  · obtain ⟨rest, rfl⟩ := hplus
    rw [parseExitStatus_plus, acceptDigits_eq_some] at h
    exact ⟨_, .plus h.1.1 h.1.2⟩
  by_cases hminus : ∃ rest, text = 45 :: rest
  · obtain ⟨rest, rfl⟩ := hminus
    rw [parseExitStatus_minus, acceptDigits_eq_some] at h
    exact ⟨_, .minus h.1.1 h.1.2⟩
  · rw [parseExitStatus_plain fun rest => ⟨fun heq => hplus ⟨rest, heq⟩, fun heq => hminus ⟨rest, heq⟩⟩,
      acceptDigits_eq_some] at h
    exact ⟨_, .plain h.1.1 h.1.2⟩

/-- **Exit statuses.**  The text is accepted exactly when it is an optional sign and one or more digits, and
the result is the value from 0 to 255 that is congruent to the number it denotes. -/
theorem exit_status_exact (text : Bytes) :
    ((∃ status, parseExitStatus text = some status) ↔ ∃ n, Denotes text n) ∧
      ∀ status n, parseExitStatus text = some status → Denotes text n →
        0 ≤ status ∧ status < 256 ∧ status ≡ n [ZMOD 256] := by
  constructor
  · constructor
    · rintro ⟨status, h⟩
      exact denotes_of_parse h
    · rintro ⟨n, hn⟩
      obtain ⟨status, h, -⟩ := parse_of_denotes hn
      exact ⟨status, h⟩
  · intro status n h hn
    obtain ⟨status', h', hrange⟩ := parse_of_denotes hn
    have hsame : status = status' := Option.some.inj (h.symm.trans h')
    rw [hsame]
    exact hrange

-- `exit -1` leaves 255 and `exit 1000` leaves 232
example : parseExitStatus (ascii "-1") = some 255 ∧ parseExitStatus (ascii "1000") = some 232 := by
  decide +kernel

end Shell

end CannedBsd
