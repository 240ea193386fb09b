import Mathlib.Data.Nat.Digits.Lemmas
import Mathlib.Tactic

/-!
# Numerals

A list of digits, the most significant first, is read by Horner's rule. Reducing after every digit does
not change the result modulo the base of the reduction, however long the list is.

* `horner_mod`: reducing after every digit ends congruent to the numeral.
* `digitList_numeral`: without a leading zero the digits of a number are the list it was read from.
-/

namespace CannedBsd.Lib

/-- The number that a list of digits stands for, the most significant digit first. -/
def numeral (base : ℕ) (digits : List ℕ) : ℕ := Nat.ofDigits base digits.reverse

theorem numeral_snoc (base : ℕ) (digits : List ℕ) (d : ℕ) :
    numeral base (digits ++ [d]) = numeral base digits * base + d := by
  rw [numeral, List.reverse_append, List.reverse_singleton, List.singleton_append, Nat.ofDigits_cons, numeral]
  ring

/-- **Horner's rule.**  A fold that reduces modulo `m` after every digit ends congruent to the numeral. -/
theorem horner_mod (base m : ℕ) (digits : List ℕ) :
    digits.foldl (fun n d => (n * base + d) % m) 0 ≡ numeral base digits [MOD m] := by
  induction digits using List.reverseRecOn with
  | nil => rfl
  | append_singleton digits d ih =>
    rw [List.foldl_append, List.foldl_cons, List.foldl_nil, numeral_snoc]
    exact (Nat.mod_modEq _ m).trans ((ih.mul_right base).add_right d)

theorem numeral_eq_foldl (base : ℕ) (digits : List ℕ) :
    numeral base digits = digits.foldl (fun n d => n * base + d) 0 := by
  induction digits using List.reverseRecOn with
  | nil => rfl
  | append_singleton digits d ih => rw [numeral_snoc, List.foldl_append, List.foldl_cons, List.foldl_nil, ih]

/-- The digits of a number, the most significant first; zero has one digit. -/
def digitList (base n : ℕ) : List ℕ := if n = 0 then [0] else (Nat.digits base n).reverse

theorem numeral_digitList (base n : ℕ) : numeral base (digitList base n) = n := by
  rw [numeral, digitList]
  split
  case isTrue h => rw [h, List.reverse_singleton, Nat.ofDigits_singleton]
  case isFalse => rw [List.reverse_reverse, Nat.ofDigits_digits]

theorem lt_of_mem_digitList {base n d : ℕ} (hb : 1 < base) (h : d ∈ digitList base n) : d < base := by
  rw [digitList] at h
  split at h
  · rw [List.mem_singleton] at h
    omega
  · exact Nat.digits_lt_base hb (List.mem_reverse.mp h)

/-- Without a leading zero the digits are those of the number. -/
theorem digitList_numeral {base : ℕ} (hb : 1 < base) {d : ℕ} {digits : List ℕ} (hd : d ≠ 0)
    (hlt : ∀ x ∈ d :: digits, x < base) : digitList base (numeral base (d :: digits)) = d :: digits := by
  have hdigits : Nat.digits base (numeral base (d :: digits)) = (d :: digits).reverse := by
    refine Nat.digits_ofDigits base hb _ (fun x hx => hlt x (List.mem_reverse.mp hx)) fun _ => ?_
    simpa using hd
  have hne : numeral base (d :: digits) ≠ 0 := by
    intro h
    rw [h, Nat.digits_zero] at hdigits
    simp at hdigits
  rw [digitList, if_neg hne, hdigits, List.reverse_reverse]

theorem exists_digitList_cons (base : ℕ) {n : ℕ} (hn : n ≠ 0) :
    ∃ d digits, digitList base n = d :: digits ∧ d ≠ 0 := by
  rw [digitList, if_neg hn]
  rcases List.eq_nil_or_concat (Nat.digits base n) with hnil | ⟨init, last, hlast⟩
  · exact absurd (Nat.digits_eq_nil_iff_eq_zero.mp hnil) hn
  · refine ⟨last, init.reverse, by rw [hlast, List.concat_eq_append, List.reverse_concat], ?_⟩
    have hne := Nat.getLast_digit_ne_zero base hn
    simpa only [hlast, List.concat_eq_append, List.getLast_append_singleton] using hne

/-- The last digit and the digits before it. -/
theorem digitList_div {base n : ℕ} (hb : 1 < base) (h : n / base ≠ 0) :
    digitList base n = digitList base (n / base) ++ [n % base] := by
  have hn : n ≠ 0 := by
    rintro rfl
    exact h (Nat.zero_div _)
  rw [digitList, if_neg hn, digitList, if_neg h, Nat.digits_def' hb (Nat.pos_of_ne_zero hn), List.reverse_cons]

theorem digitList_of_lt {base n : ℕ} (hb : 1 < base) (h : n / base = 0) : digitList base n = [n % base] := by
  have hlt : n < base := (Nat.div_eq_zero_iff_lt (by omega)).mp h
  rw [digitList, Nat.mod_eq_of_lt hlt]
  split
  case isTrue hn => rw [hn]
  case isFalse hn => rw [Nat.digits_of_lt base n hn hlt, List.reverse_singleton]

theorem length_digitList_le {base : ℕ} (hb : 1 < base) {n k : ℕ} (hk : 0 < k) (h : n < base ^ k) :
    (digitList base n).length ≤ k := by
  rw [digitList]
  split
  · exact hk
  · rw [List.length_reverse]
    exact (Nat.digits_length_le_iff hb n).mpr h

end CannedBsd.Lib
