import CannedBsd.Lib.Chain

/-!
# Forests

A forest is given by parent pointers along which every element comes to a root. What lies below one
child of an element is disjoint from what lies below another. `Shallow up fuel n` bounds the paths below
`n`: it is the bound that a recursion over the children of an element needs.

`Marked up mark x n` says that there is a marked element on the way from `x` up to `n`. A recursion that
goes down from `n` and stops at marked elements misses exactly these `x`.

* `Forest.siblings`: an element is below one child only.
* `Forest.marked_child`: where an element is not marked, the marks are those below its children.
* `Forest.shallow`: no path downwards is longer than the number of addresses.
-/

namespace CannedBsd.Lib

variable {α : Type}

/-- Every element that has a parent comes to a root. -/
def Forest (up : α → Option α) : Prop := ∀ a p, up a = some p → ∃ r, Climb up a r ∧ up r = none

/-- On the way from `x` to `n` is a marked element. -/
def Marked (up : α → Option α) (mark : α → Prop) (x n : α) : Prop := ∃ d, Climb up x d ∧ Climb up d n ∧ mark d

/-- No path that goes down from the element has more than `fuel` elements. -/
def Shallow (up : α → Option α) : ℕ → α → Prop
  | 0, _ => False
  | fuel + 1, n => ∀ c, up c = some n → Shallow up fuel c

variable {up : α → Option α} {mark : α → Prop} {c c' n x : α}

/-- What is below an element is the element or below one of its children. -/
theorem Climb.child_above (h : Climb up x n) (hne : x ≠ n) : ∃ c, up c = some n ∧ Climb up x c := by
  induction h with
  | refl => exact absurd rfl hne
  | @step a p r hp _ ih =>
    by_cases hpr : p = r
    · subst hpr
      exact ⟨a, hp, .refl⟩
    · obtain ⟨c, hc, hclimb⟩ := ih hpr
      exact ⟨c, hc, .step hp hclimb⟩

namespace Forest

/-- No element is below its own child. -/
theorem not_climb_child (h : Forest up) (hc : up c = some n) : ¬ Climb up n c := by
  obtain ⟨r, hclimb, hr⟩ := h c n hc
  exact hclimb.acyclic hr hc

theorem ne_parent (h : Forest up) (hc : up c = some n) : c ≠ n := by
  intro heq
  apply h.not_climb_child hc
  rw [heq]
  exact .refl

theorem antisymm (h : Forest up) (hx : Climb up x n) (hn : Climb up n x) : x = n := by
  cases hx with
  | refl => rfl
  | step hp hx => exact absurd (hx.trans hn) (h.not_climb_child hp)

/-- An element is below one child only. -/
theorem siblings (h : Forest up) (hc : up c = some n) (hc' : up c' = some n) (hx : Climb up x c)
    (hx' : Climb up x c') : c = c' := by
  have hup : ∀ {a b : α}, up a = some n → up b = some n → Climb up a b → a = b := by
    intro a b ha hb hab
    cases hab with
    | refl => rfl
    | step hp hab =>
      rw [ha, Option.some.injEq] at hp
      subst hp
      exact absurd hab (h.not_climb_child hb)
  rcases hx.comparable hx' with hcc | hcc
  · exact hup hc hc' hcc
  · exact (hup hc' hc hcc).symm

/-- Where the element itself is not marked, the marks are those below its children. -/
theorem marked_child (h : Forest up) (hn : ¬ mark n) (hc : up c = some n) (hx : Climb up x c) :
    Marked up mark x n ↔ Marked up mark x c := by
  constructor
  · intro hmarked
    obtain ⟨d, hd, hdn, hm⟩ := hmarked
    have hne : d ≠ n := by
      intro heq
      rw [heq] at hm
      exact hn hm
    obtain ⟨c', hc', hdc⟩ := hdn.child_above hne
    rw [← h.siblings hc hc' hx (hd.trans hdc)] at hdc
    exact ⟨d, hd, hdc, hm⟩
  · intro hmarked
    obtain ⟨d, hd, hdc, hm⟩ := hmarked
    exact ⟨d, hd, hdc.trans (.step hc .refl), hm⟩

theorem not_marked_self (h : Forest up) (hn : ¬ mark n) : ¬ Marked up mark n n := by
  intro hmarked
  obtain ⟨d, hd, hdn, hm⟩ := hmarked
  rw [h.antisymm hdn hd] at hm
  exact hn hm

/-- A path downwards has no more elements than there are addresses, by induction on how many are left.
The addresses above the element are on the list. -/
theorem shallow {up : ℕ → Option ℕ} {bound : ℕ} (h : Forest up) (hlt : ∀ c p, up c = some p → p < bound) (n : ℕ) :
    Shallow up (bound + 1) n := by
  have hpath : ∀ (fuel : ℕ) (n : ℕ) (above : List ℕ), above.Nodup →
      (∀ p ∈ above, p < bound ∧ Climb up n p ∧ p ≠ n) → above.length + fuel = bound + 1 → Shallow up fuel n := by
    intro fuel
    induction fuel with
    | zero =>
      intro n above hnodup habove hlen
      have hle := length_le_of_lt hnodup fun p hp => (habove p hp).1
      omega
    | succ fuel ih =>
      intro n above hnodup habove hlen c hc
      apply ih c (n :: above)
      · exact List.nodup_cons.mpr ⟨fun hmem => (habove n hmem).2.2 rfl, hnodup⟩
      · intro p hp
        rcases List.mem_cons.mp hp with heq | hmem
        · rw [heq]
          exact ⟨hlt c n hc, .step hc .refl, (h.ne_parent hc).symm⟩
        · obtain ⟨hbound, hclimb, -⟩ := habove p hmem
          refine ⟨hbound, .step hc hclimb, ?_⟩
          intro heq
          rw [heq] at hclimb
          exact h.not_climb_child hc hclimb
      · rw [List.length_cons]
        omega
  apply hpath (bound + 1) n []
  · exact List.nodup_nil
  · intro p hp
    cases hp
  · exact Nat.zero_add _

end Forest

end CannedBsd.Lib
