import Mathlib.Tactic
import Mathlib.Data.List.Infix

/-!
# Walks along labels

`step x c` is where the label `c` leads from `x`, if it leads anywhere. `Grafted` describes two step
functions of which the second has one arrow of the first, from `d` by `a` to `n`, hung up elsewhere:
it leads from `d'` by `b` to `n`. When the first has at most one walk from the root to each place, the
walks of the second are those of the first with the prefix replaced.

* `walk_unique`: when arrows can be followed backwards, at most one walk leads from the root to each place.
* `Grafted.elsewhere`, `Grafted.old_place`, `Grafted.new_place`: where the walks of the second step function
  lead.
-/

namespace CannedBsd.Lib

variable {α β ε : Type}

/-- Follow the labels one after the other. -/
def walk (step : α → β → Except ε α) : α → List β → Except ε α
  | x, [] => .ok x
  | x, c :: cs =>
    match step x c with
    | .error e => .error e
    | .ok y => walk step y cs

section Append

variable {step : α → β → Except ε α} {x y : α} {c : β} {cs cs' : List β}

theorem walk_cons_ok (h : step x c = .ok y) : walk step x (c :: cs) = walk step y cs := by
  rw [walk, h]

theorem walk_append_ok (h : walk step x cs = .ok y) : walk step x (cs ++ cs') = walk step y cs' := by
  induction cs generalizing x with
  | nil =>
    cases h
    rfl
  | cons c cs ih =>
    rw [walk] at h
    rw [List.cons_append, walk]
    cases hc : step x c with
    | error e => simp [hc] at h
    | ok z =>
      simp only [hc] at h
      exact ih h

/-- A walk that arrives has arrived somewhere after each of its pieces. -/
theorem walk_split (h : walk step x (cs ++ cs') = .ok y) :
    ∃ z, walk step x cs = .ok z ∧ walk step z cs' = .ok y := by
  induction cs generalizing x with
  | nil => exact ⟨x, rfl, h⟩
  | cons c cs ih =>
    rw [List.cons_append, walk] at h
    rw [walk]
    cases hc : step x c with
    | error e => simp [hc] at h
    | ok z =>
      simp only [hc] at h ⊢
      exact ih h

theorem walk_snoc : walk step x (cs ++ [c]) = .ok y ↔ ∃ z, walk step x cs = .ok z ∧ step z c = .ok y := by
  constructor
  · intro h
    obtain ⟨z, hz, hy⟩ := walk_split h
    rw [walk] at hy
    cases hc : step z c with
    | error e => simp [hc] at hy
    | ok w =>
      simp only [hc] at hy
      cases hy
      exact ⟨z, hz, hc⟩
  · rintro ⟨z, hz, hc⟩
    rw [walk_append_ok hz, walk_cons_ok hc]
    rfl

/-- When every arrow can be followed backwards and none leads to the root, at most one walk leads from
the root to each place. -/
theorem walk_unique {back : α → Option (α × β)} {root : α} (hback : ∀ {x c y}, step x c = .ok y → back y = some (x, c))
    (hroot : back root = none) (h : walk step root cs = .ok x) (h' : walk step root cs' = .ok x) : cs = cs' := by
  induction cs using List.reverseRecOn generalizing cs' x with
  | nil =>
    cases h
    cases cs' using List.reverseRecOn with
    | nil => rfl
    | append_singleton cs' c =>
      obtain ⟨z, -, hc⟩ := walk_snoc.mp h'
      rw [hback hc] at hroot
      cases hroot
  | append_singleton cs c ih =>
    obtain ⟨z, hz, hc⟩ := walk_snoc.mp h
    cases cs' using List.reverseRecOn with
    | nil =>
      cases h'
      rw [hback hc] at hroot
      cases hroot
    | append_singleton cs' c' =>
      obtain ⟨z', hz', hc'⟩ := walk_snoc.mp h'
      have hsame := (hback hc).symm.trans (hback hc')
      rw [Option.some.injEq, Prod.mk.injEq] at hsame
      obtain ⟨rfl, rfl⟩ := hsame
      rw [ih hz hz']

end Append

/-- The arrow from `d` by `a` to `n` is hung up at `d'` under the label `b`. -/
structure Grafted (step step' : α → β → Except ε α) (root : α) (os ps : List β) (a b : β) (d d' n : α) (e : ε) :
    Prop where
  unique : ∀ {p q x}, walk step root p = .ok x → walk step root q = .ok x → p = q
  place : walk step root os = .ok d
  arrow : step d a = .ok n
  target : walk step root ps = .ok d'
  apart : ¬ os ++ [a] <+: ps
  above : ¬ ps ++ [b] <+: os
  hung : step' d' b = .ok n
  cut : step' d a = .error e
  others : ∀ {p x c}, walk step root p = .ok x → ¬ ps ++ [b] <+: p → ¬ (x = d ∧ c = a) → ¬ (x = d' ∧ c = b) →
    step' x c = step x c

namespace Grafted

variable {step step' : α → β → Except ε α} {root d d' n x : α} {os ps p q r : List β} {a b : β} {e : ε}

/-- A walk that takes neither of the two arrows is the same in both. -/
theorem walk_eq (h : Grafted step step' root os ps a b d d' n e) (hp : walk step root p = .ok x)
    (hold : ¬ os ++ [a] <+: p ++ q) (hnew : ¬ ps ++ [b] <+: p ++ q) : walk step' x q = walk step x q := by
  induction q generalizing p x with
  | nil => rfl
  | cons c q ih =>
    have hstep : step' x c = step x c := by
      refine h.others hp (fun hpre => hnew (hpre.trans (List.prefix_append _ _))) ?_ ?_
      · rintro ⟨rfl, rfl⟩
        refine hold ?_
        rw [h.unique hp h.place]
        exact ⟨q, by simp⟩
      · rintro ⟨rfl, rfl⟩
        refine hnew ?_
        rw [h.unique hp h.target]
        exact ⟨q, by simp⟩
    rw [walk, walk, hstep]
    cases hc : step x c with
    | error e => rfl
    | ok y =>
      have hp' : walk step root (p ++ [c]) = .ok y := by
        rw [walk_append_ok hp, walk_cons_ok hc]
        rfl
      exact ih hp' (by simpa using hold) (by simpa using hnew)

/-- **Elsewhere.**  A path under neither of the two places leads where it led. -/
theorem elsewhere (h : Grafted step step' root os ps a b d d' n e) (hold : ¬ os ++ [a] <+: q)
    (hnew : ¬ ps ++ [b] <+: q) : walk step' root q = walk step root q :=
  @walk_eq _ _ _ step step' root d d' n root os ps [] q a b e h rfl hold hnew

theorem not_prefix_self (l : List β) (c : β) : ¬ l ++ [c] <+: l := by
  intro hpre
  have hlen := hpre.length_le
  simp at hlen

/-- **The old place.**  Nothing is left where the arrow was. -/
theorem old_place (h : Grafted step step' root os ps a b d d' n e) (r : List β) :
    walk step' root (os ++ [a] ++ r) = .error e := by
  have hd : walk step' root os = .ok d := (h.elsewhere (not_prefix_self os a) h.above).trans h.place
  rw [List.append_assoc, walk_append_ok hd, List.singleton_append, walk, h.cut]

/-- Nothing below the old place is below the new one. -/
theorem not_below (h : Grafted step step' root os ps a b d d' n e) (s : List β) : ¬ ps ++ [b] <+: os ++ [a] ++ s := by
  have hne : ps ++ [b] ≠ os ++ [a] := by
    intro heq
    obtain ⟨rfl, hlast⟩ := List.append_inj' heq rfl
    cases hlast
    cases h.place.symm.trans h.target
    cases h.hung.symm.trans h.cut
  intro hpre
  rcases List.prefix_or_prefix_of_prefix hpre (List.prefix_append (os ++ [a]) s) with hle | hle
  · rcases List.prefix_concat_iff.mp hle with heq | hle
    · exact hne heq
    · exact h.above hle
  · rcases List.prefix_concat_iff.mp hle with heq | hle
    · exact hne heq.symm
    · exact h.apart hle

/-- **The new place.**  What was under the old place is under the new one. -/
theorem new_place (h : Grafted step step' root os ps a b d d' n e) (r : List β) :
    walk step' root (ps ++ [b] ++ r) = walk step root (os ++ [a] ++ r) := by
  have hn : walk step root (os ++ [a]) = .ok n := by
    rw [walk_append_ok h.place, walk_cons_ok h.arrow]
    rfl
  have hd' : walk step' root ps = .ok d' := (h.elsewhere h.apart (not_prefix_self ps b)).trans h.target
  -- below `n` neither of the two arrows is met again
  have hbelow : ∀ {s r x}, walk step root (os ++ [a] ++ s) = .ok x → walk step' x r = walk step x r := by
    intro s r
    induction r generalizing s with
    | nil => exact fun _ => rfl
    | cons c r ih =>
      intro x hx
      have hstep : step' x c = step x c := by
        refine h.others hx (h.not_below s) ?_ ?_
        · rintro ⟨rfl, -⟩
          have hlen := congrArg List.length (h.unique hx h.place)
          simp at hlen
        · rintro ⟨rfl, -⟩
          exact h.apart ⟨s, h.unique hx h.target⟩
      rw [walk, walk, hstep]
      cases hc : step x c with
      | error e => rfl
      | ok y =>
        have hs : walk step root (os ++ [a] ++ (s ++ [c])) = .ok y := by
          rw [← List.append_assoc, walk_append_ok hx, walk_cons_ok hc]
          rfl
        exact ih hs
  rw [List.append_assoc, walk_append_ok hd', List.singleton_append, walk_cons_ok h.hung, walk_append_ok hn]
  exact @hbelow [] r n (by rw [List.append_nil]; exact hn)

end Grafted

end CannedBsd.Lib
