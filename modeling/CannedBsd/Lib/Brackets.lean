import Mathlib.Data.List.Basic

/-!
# Bracketed visits

A walk over a tree reports its places: some once, some when it enters them and when it leaves them, and
some that it is told to pass over. A report is nested if what stands between the two visits of a place
belongs below it.

* `Inside.leave`: the innermost place is left.
* `Inside.complete`: a walk that goes on can leave all the places it is in.
* `Inside.count`: these are the places it has entered and not left.
-/

namespace CannedBsd.Lib

/-- A visit of a place. -/
inductive Visit (β : Type)
  | leaf (x : β)
  | skipped (x : β)
  | enter (x : β)
  | leave (x : β)
  deriving DecidableEq, Repr

variable {β : Type} {under : Option β → β → Prop} {w : Option β} {x : β} {vs ws : List (Visit β)} {stack : List β}

/-- The visits are nested below a place, or at the top; `under` says which places belong there. -/
inductive Nested (under : Option β → β → Prop) : Option β → List (Visit β) → Prop
  | nil {w : Option β} : Nested under w []
  | leaf {w : Option β} {x : β} {vs : List (Visit β)} (hx : under w x) (hvs : Nested under w vs) :
      Nested under w (.leaf x :: vs)
  | skipped {w : Option β} {x : β} {vs : List (Visit β)} (hx : under w x) (hvs : Nested under w vs) :
      Nested under w (.skipped x :: vs)
  | group {w : Option β} {x : β} {inner vs : List (Visit β)} (hx : under w x) (hinner : Nested under (some x) inner)
      (hvs : Nested under w vs) : Nested under w (.enter x :: inner ++ .leave x :: vs)

theorem Nested.append (h : Nested under w vs) (h' : Nested under w ws) : Nested under w (vs ++ ws) := by
  induction h with
  | nil => exact h'
  | leaf hx _ ih => exact .leaf hx (ih h')
  | skipped hx _ ih => exact .skipped hx (ih h')
  | group hx hinner _ _ ih =>
    rw [List.append_assoc, List.cons_append]
    exact .group hx hinner (ih h')

/-- The walk is inside these places, the innermost first. -/
inductive Inside (under : Option β → β → Prop) : List β → List (Visit β) → Prop
  | outside {vs : List (Visit β)} (hvs : Nested under none vs) : Inside under [] vs
  | entered {stack : List β} {x : β} {before inner : List (Visit β)} (hbefore : Inside under stack before)
      (hx : under stack.head? x) (hinner : Nested under (some x) inner) :
      Inside under (x :: stack) (before ++ .enter x :: inner)

namespace Inside

/-- Visits that belong where the walk is. -/
theorem append (h : Inside under stack vs) (h' : Nested under stack.head? ws) : Inside under stack (vs ++ ws) := by
  cases h with
  | outside hvs => exact .outside (hvs.append h')
  | entered hbefore hx hinner =>
    rw [List.append_assoc, List.cons_append]
    exact .entered hbefore hx (hinner.append h')

theorem leaf (h : Inside under stack vs) (hx : under stack.head? x) : Inside under stack (vs ++ [.leaf x]) :=
  h.append (.leaf hx .nil)

theorem skipped (h : Inside under stack vs) (hx : under stack.head? x) : Inside under stack (vs ++ [.skipped x]) :=
  h.append (.skipped hx .nil)

theorem enter (h : Inside under stack vs) (hx : under stack.head? x) : Inside under (x :: stack) (vs ++ [.enter x]) :=
  .entered h hx .nil

/-- The innermost place is left. -/
theorem leave (h : Inside under (x :: stack) vs) : Inside under stack (vs ++ [.leave x]) := by
  cases h with
  | entered hbefore hx hinner =>
    rw [List.append_assoc]
    exact hbefore.append (.group hx hinner .nil)

/-- A walk that goes on can leave all the places it is in. -/
theorem complete (stack : List β) : ∀ {vs : List (Visit β)}, Inside under stack vs →
    Nested under none (vs ++ stack.map .leave) := by
  induction stack with
  | nil =>
    intro vs h
    cases h with
    | outside hvs =>
      rw [List.map_nil, List.append_nil]
      exact hvs
  | cons x stack ih =>
    intro vs h
    rw [List.map_cons, List.append_cons]
    exact ih h.leave

end Inside

/-! ### Counting -/

def Visit.isEnter : Visit β → Bool
  | .enter _ => true
  | _ => false

def Visit.isLeave : Visit β → Bool
  | .leave _ => true
  | _ => false

theorem Nested.count (h : Nested under w vs) : vs.countP Visit.isEnter = vs.countP Visit.isLeave := by
  induction h with
  | nil => rfl
  | leaf _ _ ih => simpa [Visit.isEnter, Visit.isLeave] using ih
  | skipped _ _ ih => simpa [Visit.isEnter, Visit.isLeave] using ih
  | group _ _ _ ih ih' =>
    simp only [List.cons_append, List.countP_cons, List.countP_append, ih, ih', Visit.isEnter, Visit.isLeave]
    simp
    omega

/-- The places a walk is in are those it has entered and not left. -/
theorem Inside.count (stack : List β) : ∀ {vs : List (Visit β)}, Inside under stack vs →
    vs.countP Visit.isEnter = vs.countP Visit.isLeave + stack.length := by
  intro vs h
  have hcount := (Inside.complete stack h).count
  simp only [List.countP_append] at hcount
  have henter : (stack.map Visit.leave).countP Visit.isEnter = 0 := by
    rw [List.countP_map, List.countP_eq_zero]
    exact fun _ _ h => nomatch h
  have hleave : (stack.map Visit.leave).countP Visit.isLeave = stack.length := by
    rw [List.countP_map, List.countP_eq_length]
    exact fun _ _ => rfl
  omega

end CannedBsd.Lib
