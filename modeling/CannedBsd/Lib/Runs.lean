import Mathlib.Tactic

/-!
# Runs of a step function

A system is a partial step function on states, driven by actions. `Reach step ok s₀`
collects the states of the runs from `s₀` in which every step satisfies `ok`; the
induction over a run is packaged once as `Reach.invariant`. `run` executes a list of
actions, so that a concrete run can be evaluated.

* `Reach.invariant`: what holds initially and is kept by every allowed step holds in every state of a run.
* `reach_of_run`: the states of an executed list are reached.
-/

namespace CannedBsd.Lib

variable {σ A : Type}

/-- The states reached from `s₀` by steps that all satisfy `ok`. -/
inductive Reach (step : σ → A → Option σ) (ok : σ → A → Prop) (s₀ : σ) : σ → Prop
  | init : Reach step ok s₀ s₀
  | step {s s' : σ} {a : A} : Reach step ok s₀ s → ok s a → step s a = some s' →
      Reach step ok s₀ s'

/-- Every step is allowed. -/
def anyStep : σ → A → Prop := fun _ _ => True

/-- Execute a list of actions. -/
def run (step : σ → A → Option σ) : σ → List A → Option σ
  | s, [] => some s
  | s, a :: as => (step s a).bind fun s' => run step s' as

namespace Reach

variable {step : σ → A → Option σ} {ok : σ → A → Prop} {s₀ s : σ}

/-- What holds initially and is kept by every allowed step holds in every state of a run. -/
theorem invariant {P : σ → Prop} (h : Reach step ok s₀ s) (h₀ : P s₀)
    (hstep : ∀ s a s', ok s a → step s a = some s' → P s → P s') : P s := by
  induction h with
  | init => exact h₀
  | step _ hok hs ih => exact hstep _ _ _ hok hs ih

theorem trans {s' : σ} (h₁ : Reach step ok s₀ s) (h₂ : Reach step ok s s') :
    Reach step ok s₀ s' := by
  induction h₂ with
  | init => exact h₁
  | step _ hok hs ih => exact .step ih hok hs

end Reach

/-- Every step of the run over a list of actions satisfies `ok`. -/
def okAlong (step : σ → A → Option σ) (ok : σ → A → Prop) : σ → List A → Prop
  | _, [] => True
  | s, a :: as => ok s a ∧ ∀ s', step s a = some s' → okAlong step ok s' as

/-- Whether a condition that can be decided holds along a run can be decided. -/
def decideOkAlong (step : σ → A → Option σ) (ok : σ → A → Prop) [∀ s a, Decidable (ok s a)] :
    ∀ s as, Decidable (okAlong step ok s as)
  | _, [] => isTrue trivial
  | s, a :: as =>
    match h : step s a with
    | none => decidable_of_iff (ok s a) ⟨fun hok => ⟨hok, fun s' hs => by simp [h] at hs⟩, fun hok => hok.1⟩
    | some s' =>
      have : Decidable (okAlong step ok s' as) := decideOkAlong step ok s' as
      decidable_of_iff (ok s a ∧ okAlong step ok s' as)
        ⟨fun hok => ⟨hok.1, fun s'' hs => by rw [h, Option.some.injEq] at hs; exact hs ▸ hok.2⟩,
          fun hok => ⟨hok.1, hok.2 s' h⟩⟩

instance (step : σ → A → Option σ) (ok : σ → A → Prop) [∀ s a, Decidable (ok s a)] (s : σ) (as : List A) :
    Decidable (okAlong step ok s as) := decideOkAlong step ok s as

theorem reach_of_okAlong {step : σ → A → Option σ} {ok : σ → A → Prop} {s₀ s : σ} {as : List A}
    (h : run step s₀ as = some s) (hok : okAlong step ok s₀ as) : Reach step ok s₀ s := by
  induction as generalizing s₀ with
  | nil =>
    simp only [run, Option.some.injEq] at h
    subst h
    exact .init
  | cons a as ih =>
    simp only [run, Option.bind_eq_some_iff] at h
    obtain ⟨s₁, hs, hr⟩ := h
    exact (Reach.step .init hok.1 hs).trans (ih hr (hok.2 s₁ hs))

theorem reach_of_run {step : σ → A → Option σ} {s₀ s : σ} {as : List A}
    (h : run step s₀ as = some s) : Reach step anyStep s₀ s := by
  refine reach_of_okAlong h ?_
  clear h
  induction as generalizing s₀ with
  | nil => trivial
  | cons a as ih => exact ⟨trivial, fun _ _ => ih⟩

end CannedBsd.Lib
