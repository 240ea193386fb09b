import Mathlib.Tactic

/-!
# Borrowed slots

A table has slots that are empty or hold a value. A program takes empty slots for its own use and overwrites
some of the others for a while. `Borrowed old now taken astray` says how far the table is from what it was:
the slots in `taken` were empty and are in use, and all others hold what they held unless they are in
`astray`. When nothing is astray, emptying what was taken gives the old table back.

* `Borrowed.take`, `Borrowed.divert`, `Borrowed.settle`: how far the table is after one change.
* `Borrowed.emptied_apply`: outside of what is astray, emptying what was taken gives the old table back.
* `lowestEmpty_succ`: the lowest empty slots, one more of them.
-/

namespace CannedBsd.Lib

variable {ι α : Type} {old now : ι → Option α} {taken astray : Set ι} {d : ι} {a : α}

open Classical in
/-- The table with some slots emptied. -/
noncomputable def emptied (now : ι → Option α) (slots : Set ι) : ι → Option α :=
  fun d => if d ∈ slots then none else now d

@[simp]
theorem emptied_empty (now : ι → Option α) : emptied now ∅ = now := by
  funext d
  exact if_neg (Set.notMem_empty d)

theorem emptied_emptied (now : ι → Option α) (slots slots' : Set ι) :
    emptied (emptied now slots) slots' = emptied now (slots ∪ slots') := by
  funext d
  by_cases hd' : d ∈ slots'
  · rw [emptied, if_pos hd', emptied, if_pos (Set.mem_union_right slots hd')]
  · by_cases hd : d ∈ slots
    · rw [emptied, if_neg hd', emptied, if_pos hd, emptied, if_pos (Set.mem_union_left slots' hd)]
    · have hno : d ∉ slots ∪ slots' := fun h => h.elim hd hd'
      rw [emptied, if_neg hd', emptied, if_neg hd, emptied, if_neg hno]

theorem update_none_eq_emptied [DecidableEq ι] (now : ι → Option α) (d : ι) :
    Function.update now d none = emptied now {d} := by
  funext e
  by_cases he : e = d
  · rw [he, Function.update_self, emptied, if_pos (Set.mem_singleton d)]
  · rw [Function.update_of_ne he, emptied, if_neg (mt Set.mem_singleton_iff.mp he)]

/-- How far a table is from what it was. -/
structure Borrowed (old now : ι → Option α) (taken astray : Set ι) : Prop where
  free : ∀ d ∈ taken, old d = none
  held : ∀ d ∈ taken, now d ≠ none
  same : ∀ d, d ∉ taken → d ∉ astray → now d = old d

theorem Borrowed.refl (old : ι → Option α) : Borrowed old old ∅ ∅ :=
  ⟨fun _ h => h.elim, fun _ h => h.elim, fun _ _ _ => rfl⟩

/-- An empty slot is in nobody's use. -/
theorem Borrowed.notMem (h : Borrowed old now taken astray) (hd : now d = none) : d ∉ taken :=
  fun hmem => h.held d hmem hd

/-- An empty slot is taken. -/
theorem Borrowed.take [DecidableEq ι] (h : Borrowed old now taken astray) (hd : now d = none) (hastray : d ∉ astray)
    (a : α) : Borrowed old (Function.update now d (some a)) (insert d taken) astray where
  free := by
    intro e he
    rcases he with rfl | he
    · rw [← h.same e (h.notMem hd) hastray, hd]
    · exact h.free e he
  held := by
    intro e he
    rw [Function.update_apply]
    split
    · exact Option.some_ne_none a
    · rename_i hne
      exact h.held e (he.resolve_left hne)
  same := by
    intro e he he'
    rw [Function.update_of_ne fun heq => he (Set.mem_insert_iff.mpr (.inl heq))]
    exact h.same e (fun hmem => he (Set.mem_insert_of_mem d hmem)) he'

/-- A slot is overwritten. -/
theorem Borrowed.divert [DecidableEq ι] (h : Borrowed old now taken astray) (d : ι) (a : α) :
    Borrowed old (Function.update now d (some a)) taken (insert d astray) where
  free := h.free
  held := by
    intro e he
    rw [Function.update_apply]
    split
    · exact Option.some_ne_none a
    · exact h.held e he
  same := by
    intro e he he'
    rw [Function.update_of_ne fun heq => he' (Set.mem_insert_iff.mpr (.inl heq))]
    exact h.same e he fun hmem => he' (Set.mem_insert_of_mem d hmem)

/-- A slot that was taken, or holds what it held, is not astray. -/
theorem Borrowed.settle (h : Borrowed old now taken astray) (hd : d ∈ taken ∨ now d = old d) :
    Borrowed old now taken (astray \ {d}) where
  free := h.free
  held := h.held
  same := by
    intro e he he'
    by_cases heq : e = d
    · subst heq
      exact hd.resolve_left he
    · exact h.same e he fun hmem => he' ⟨hmem, heq⟩

/-- What was in the table when the slots were taken is still there. -/
theorem Borrowed.keeps (h : Borrowed old now taken ∅) (hd : old d = some a) : now d = some a := by
  rw [h.same d (fun hmem => ?_) (Set.notMem_empty d), hd]
  rw [h.free d hmem] at hd
  cases hd

/-- Slots are taken twice, and not the same ones. -/
theorem Borrowed.trans {mid : ι → Option α} {taken' : Set ι} (h : Borrowed old mid taken ∅) (h' : Borrowed mid now taken' ∅) :
    Borrowed old now (taken ∪ taken') ∅ ∧ ∀ d ∈ taken, d ∉ taken' := by
  have hapart : ∀ d ∈ taken, d ∉ taken' := fun d hd hd' => h.held d hd (h'.free d hd')
  refine ⟨⟨?_, ?_, ?_⟩, hapart⟩
  · rintro d (hd | hd)
    · exact h.free d hd
    · rw [← h.same d (fun hmem => hapart d hmem hd) (Set.notMem_empty d)]
      exact h'.free d hd
  · rintro d (hd | hd)
    · rw [h'.same d (hapart d hd) (Set.notMem_empty d)]
      exact h.held d hd
    · exact h'.held d hd
  · intro d hd _
    rw [h'.same d (fun hmem => hd (.inr hmem)) (Set.notMem_empty d)]
    exact h.same d (fun hmem => hd (.inl hmem)) (Set.notMem_empty d)

/-- Outside of what is astray, emptying what was taken gives the old table back. -/
theorem Borrowed.emptied_apply (h : Borrowed old now taken astray) (hd : d ∈ taken ∨ d ∉ astray) :
    emptied now taken d = old d := by
  rw [emptied]
  split
  · rename_i hmem
    rw [h.free d hmem]
  · rename_i hmem
    exact h.same d hmem (hd.resolve_left hmem)

theorem Borrowed.release (h : Borrowed old now taken ∅) : emptied now taken = old :=
  funext fun d => h.emptied_apply (.inr (Set.notMem_empty d))

/-! ### Empty slots -/

variable [Fintype ι]

/-- The number of empty slots. -/
def room (now : ι → Option α) : ℕ := (Finset.univ.filter fun d => (now d).isNone).card

theorem room_eq_zero : room now = 0 ↔ ∀ d, now d ≠ none := by
  rw [room, Finset.card_eq_zero, Finset.filter_eq_empty_iff]
  refine ⟨fun h d hd => h (Finset.mem_univ d) (Option.isNone_iff_eq_none.mpr hd), fun h d _ hd => ?_⟩
  exact h d (Option.isNone_iff_eq_none.mp hd)

theorem room_take [DecidableEq ι] (hd : now d = none) (a : α) : room (Function.update now d (some a)) + 1 = room now := by
  have hmem : d ∈ Finset.univ.filter fun e => (now e).isNone := by
    rw [Finset.mem_filter, hd]
    exact ⟨Finset.mem_univ d, rfl⟩
  have herase : (Finset.univ.filter fun e => (Function.update now d (some a) e).isNone) =
      (Finset.univ.filter fun e => (now e).isNone).erase d := by
    ext e
    rw [Finset.mem_erase, Finset.mem_filter, Finset.mem_filter, Function.update_apply]
    split
    · rename_i heq
      simp [heq]
    · rename_i hne
      simp [hne]
  rw [room, herase]
  exact Finset.card_erase_add_one hmem

theorem room_divert [DecidableEq ι] (hd : now d ≠ none) (a : α) : room (Function.update now d (some a)) = room now := by
  rw [room, room]
  congr 1
  ext e
  rw [Finset.mem_filter, Finset.mem_filter, Function.update_apply]
  split
  · rename_i heq
    rw [heq, Option.isNone_some, Option.isNone_eq_false_iff.mpr (Option.isSome_iff_ne_none.mpr hd)]
  · rfl

/-! ### The lowest empty slots -/

section Lowest

variable [LinearOrder ι]

/-- The number of empty slots below a slot. -/
def emptyBelow (now : ι → Option α) (d : ι) : ℕ := (Finset.univ.filter fun e => (now e).isNone ∧ e < d).card

/-- The `n` lowest empty slots. -/
def lowestEmpty (now : ι → Option α) (n : ℕ) : Set ι := {d | now d = none ∧ emptyBelow now d < n}

theorem lowestEmpty_zero (now : ι → Option α) : lowestEmpty now 0 = ∅ := by
  ext d
  exact ⟨fun hd => absurd hd.2 (Nat.not_lt_zero _), fun hd => hd.elim⟩

theorem emptyBelow_lt {e : ι} (he : now e = none) (h : e < d) : emptyBelow now e < emptyBelow now d := by
  apply Finset.card_lt_card
  rw [Finset.ssubset_iff_of_subset]
  · refine ⟨e, ?_, ?_⟩
    · rw [Finset.mem_filter, he]
      exact ⟨Finset.mem_univ e, rfl, h⟩
    · rw [Finset.mem_filter]
      exact fun hmem => lt_irrefl e hmem.2.2
  · intro x hx
    rw [Finset.mem_filter] at hx ⊢
    exact ⟨hx.1, hx.2.1, hx.2.2.trans h⟩

/-- Behind the `n` lowest empty slots comes the one that has only these below it. -/
theorem emptyBelow_eq {n : ℕ} (hnot : ¬ emptyBelow now d < n)
    (hbelow : ∀ e, e < d → now e = none → emptyBelow now e < n) : emptyBelow now d = n := by
  refine le_antisymm ?_ (not_lt.mp hnot)
  rw [emptyBelow]
  rcases Finset.eq_empty_or_nonempty (Finset.univ.filter fun e => (now e).isNone ∧ e < d) with hempty | hne
  · rw [hempty, Finset.card_empty]
    exact Nat.zero_le n
  · -- all of them are the greatest and what is below it
    obtain ⟨-, hnone, hlt⟩ := Finset.mem_filter.mp (Finset.max'_mem _ hne)
    have hlast := hbelow _ hlt (Option.isNone_iff_eq_none.mp hnone)
    have hsub : (Finset.univ.filter fun e => (now e).isNone ∧ e < d) ⊆
        insert (Finset.max' _ hne) (Finset.univ.filter fun e => (now e).isNone ∧ e < Finset.max' _ hne) := by
      intro e he
      rw [Finset.mem_insert, Finset.mem_filter]
      rcases eq_or_lt_of_le (Finset.le_max' _ e he) with heq | hlt
      · exact .inl heq
      · exact .inr ⟨Finset.mem_univ e, (Finset.mem_filter.mp he).2.1, hlt⟩
    calc _ ≤ _ := Finset.card_le_card hsub
      _ ≤ _ := Finset.card_insert_le _ _
      _ ≤ n := hlast

theorem lowestEmpty_succ {n : ℕ} (hd : now d = none) (hnot : d ∉ lowestEmpty now n)
    (hbelow : ∀ e, e < d → now e = none → e ∈ lowestEmpty now n) :
    lowestEmpty now (n + 1) = insert d (lowestEmpty now n) := by
  have heq : emptyBelow now d = n :=
    emptyBelow_eq (fun hlt => hnot ⟨hd, hlt⟩) fun e he hnone => (hbelow e he hnone).2
  ext e
  constructor
  · rintro ⟨he, hlt⟩
    by_cases hless : emptyBelow now e < n
    · exact .inr ⟨he, hless⟩
    · left
      rcases lt_trichotomy e d with hed | hed | hed
      · exact absurd (hbelow e hed he).2 hless
      · exact hed
      · have := emptyBelow_lt hd hed
        omega
  · rintro (rfl | he)
    · exact ⟨hd, by omega⟩
    · exact ⟨he.1, he.2.trans (Nat.lt_succ_self n)⟩

end Lowest

end CannedBsd.Lib
