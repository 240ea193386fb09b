import CannedBsd.Lib.Interaction

/-!
# Programs under way

A program that has not ended yet stands before a call, and what it has been told so far is the list of its
calls with their answers. `Prog.After p log q` says that `p` has come to `q` that way. `Prog.keeps` is the
weakest precondition for what has to hold before every call of a program, not only at its end; it is
computed along the tree, like `Prog.wp`.

* `Prog.keeps_seq`: a condition for the first part of a program, and one for the second for each of its
  results.
* `Prog.After.keeps`: what was computed for the start of a program holds wherever it has come to.
-/

namespace CannedBsd.Lib

namespace Prog

variable {C A α β σ : Type}

/-- The program has made the calls of the list, with these answers, and `q` is what it still has to do. -/
inductive After (p : Prog C A α) : List (C × A) → Prog C A α → Prop
  | start : After p [] p
  | told {log : List (C × A)} {c : C} {next : A → Prog C A α} (a : A) :
      After p log (.call c next) → After p (log ++ [(c, a)]) (next a)

theorem After.cons {c : C} {next : A → Prog C A α} {a : A} {log : List (C × A)} {q : Prog C A α}
    (h : After (next a) log q) : After (.call c next) ((c, a) :: log) q := by
  induction h with
  | start =>
    have hcall : After (.call c next) [] (.call c next) := .start
    exact hcall.told a
  | @told log c' next' a' _ ih =>
    have hlast := ih.told a'
    rwa [List.cons_append] at hlast

/-- Where a list of calls and answers leads to, if the program makes these calls. -/
def follow [DecidableEq C] : Prog C A α → List (C × A) → Option (Prog C A α)
  | p, [] => some p
  | .call c next, (c', a) :: log => if c = c' then (next a).follow log else none
  | _, _ => none

theorem After.of_follow [DecidableEq C] {p q : Prog C A α} {log : List (C × A)} (h : p.follow log = some q) :
    After p log q := by
  induction log generalizing p with
  | nil =>
    rw [follow.eq_def] at h
    cases p <;> (cases h; exact .start)
  | cons e log ih =>
    obtain ⟨c', a⟩ := e
    cases p with
    | ret b => cases h
    | wild => cases h
    | call c next =>
      rw [follow] at h
      split at h
      · rename_i heq
        rw [← heq]
        exact (ih h).cons
      · cases h

/-- The result of a program that has ended. -/
def result : Prog C A α → Option α
  | .ret a => some a
  | _ => none

theorem After.of_result [DecidableEq C] {p : Prog C A α} {log : List (C × A)} {a : α}
    (h : (p.follow log).bind result = some a) : After p log (.ret a) := by
  obtain ⟨q, hq, hresult⟩ := Option.bind_eq_some_iff.mp h
  have hret : q = .ret a := by
    cases q with
    | ret b =>
      cases hresult
      rfl
    | call c next => cases hresult
    | wild => cases hresult
  rw [hret] at hq
  exact .of_follow hq

/-! ### What holds before every call -/

section Keeps

variable (step : σ → C → A → σ → Prop) (inv : σ → C → Prop)

/-- `inv` holds before every call the program makes, and `goal` where it ends; no access goes outside an array. -/
def keeps : Prog C A α → (α → σ → Prop) → σ → Prop
  | .ret a, goal, s => goal a s
  | .call c next, goal, s => inv s c ∧ ∀ a s', step s c a s' → (next a).keeps goal s'
  | .wild, _, _ => False

variable {step inv} {goal goal' : α → σ → Prop} {s : σ} {p : Prog C A α}

/-- A condition for the first part of a program, and one for the second part for each of its results. -/
theorem keeps_seq {f : α → Prog C A β} {goal : β → σ → Prop} {mid : α → σ → Prop} (h : p.keeps step inv mid s)
    (hf : ∀ a s', mid a s' → (f a).keeps step inv goal s') : (p >>= f).keeps step inv goal s := by
  induction p generalizing s with
  | ret a => exact hf a s h
  | call c next ih => exact ⟨h.1, fun a s' hs => ih a (h.2 a s' hs)⟩
  | wild => exact h

end Keeps

/-- The state is the list of the calls so far, and the answers are as promised. -/
def Told (ok : C → A → Prop) (log : List (C × A)) (c : C) (a : A) (log' : List (C × A)) : Prop :=
  ok c a ∧ log' = log ++ [(c, a)]

/-- What was computed for the start of a program holds wherever the program has come to. -/
theorem After.keeps {ok : C → A → Prop} {inv : List (C × A) → C → Prop} {goal : α → List (C × A) → Prop}
    {p q : Prog C A α} {log : List (C × A)} (h : After p log q) (hok : ∀ e ∈ log, ok e.1 e.2)
    (hp : p.keeps (Told ok) inv goal []) : q.keeps (Told ok) inv goal log := by
  induction h with
  | start => exact hp
  | @told log c next a _ ih =>
    have hcall := ih fun e he => hok e (List.mem_append_left _ he)
    have hlast : ok c a := hok (c, a) (List.mem_append_right _ (List.mem_singleton.mpr rfl))
    exact hcall.2 a _ ⟨hlast, rfl⟩

end Prog

end CannedBsd.Lib
