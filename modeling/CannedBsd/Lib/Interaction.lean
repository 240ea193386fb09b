import Mathlib.Tactic

/-!
# Programs that make calls

A program computes, makes a call and goes on with the answer. It is a finite tree with one branch for
each answer. `step s c a s'` says that a system in state `s` may answer `a` to the call `c` and be in
state `s'` then; a run of a program is a path through its tree that the system goes along with. `Prog.wp`
is the weakest precondition of a program, computed along the tree.

* `Prog.wp_seq`: a precondition of the first part of a program, and one of the second for each of its results.
* `Prog.Makes.wp`: what the calls of a program keep holds at its end.
* `Prog.Runs.post`: what the weakest precondition promises holds at the end of every run.
* `Prog.Runs.follow`: a system that follows another by a relation of their states follows every run.
-/

namespace CannedBsd.Lib

/-- A program with calls of type `C`, answers of type `A` and a result of type `α`. -/
inductive Prog (C A α : Type) : Type
  | ret (result : α)
  | call (c : C) (next : A → Prog C A α)
  /-- An access outside an array; whatever happens then is not described. -/
  | wild

namespace Prog

variable {C A α β γ : Type}

def bind : Prog C A α → (α → Prog C A β) → Prog C A β
  | .ret a, f => f a
  | .call c next, f => .call c fun a => (next a).bind f
  | .wild, _ => .wild

instance : Monad (Prog C A) where
  pure := .ret
  bind := .bind

/-- Make one call. -/
def ask (c : C) : Prog C A A := .call c .ret

@[simp]
theorem pure_eq (a : α) : (pure a : Prog C A α) = .ret a := rfl

@[simp]
theorem ret_bind (a : α) (f : α → Prog C A β) : (Prog.ret a >>= f) = f a := rfl

@[simp]
theorem call_bind (c : C) (next : A → Prog C A α) (f : α → Prog C A β) :
    (Prog.call c next >>= f) = .call c fun a => next a >>= f := rfl

@[simp]
theorem ask_bind (c : C) (f : A → Prog C A β) : (ask c >>= f) = .call c f := rfl

@[simp]
theorem wild_bind (f : α → Prog C A β) : (Prog.wild >>= f) = .wild := rfl

@[simp]
theorem bind_ret (p : Prog C A α) : (p >>= Prog.ret) = p := by
  induction p with
  | ret a => rfl
  | call c next ih => exact congrArg (Prog.call c) (funext ih)
  | wild => rfl

/-! ### The calls of a program -/

/-- Whatever the answers are, no access goes outside an array. -/
def Safe : Prog C A α → Prop
  | .ret _ => True
  | .call _ next => ∀ a, (next a).Safe
  | .wild => False

/-- Whatever the answers are, all calls satisfy `may`. -/
def Makes (may : C → Prop) : Prog C A α → Prop
  | .ret _ => True
  | .call c next => may c ∧ ∀ a, (next a).Makes may
  | .wild => True

@[simp]
theorem safe_ret (a : α) : (Prog.ret a : Prog C A α).Safe ↔ True := Iff.rfl

@[simp]
theorem safe_call (c : C) (next : A → Prog C A α) : (Prog.call c next).Safe ↔ ∀ a, (next a).Safe := Iff.rfl

@[simp]
theorem makes_ret (may : C → Prop) (a : α) : (Prog.ret a : Prog C A α).Makes may ↔ True := Iff.rfl

@[simp]
theorem makes_call (may : C → Prop) (c : C) (next : A → Prog C A α) :
    (Prog.call c next).Makes may ↔ may c ∧ ∀ a, (next a).Makes may := Iff.rfl

@[simp]
theorem makes_wild (may : C → Prop) : (Prog.wild : Prog C A α).Makes may ↔ True := Iff.rfl

theorem Safe.ask {c : C} {f : A → Prog C A β} (hf : ∀ a, (f a).Safe) : (Prog.ask c >>= f).Safe := hf

theorem Safe.bind {p : Prog C A α} {f : α → Prog C A β} (hp : p.Safe) (hf : ∀ a, (f a).Safe) : (p >>= f).Safe := by
  induction p with
  | ret a => exact hf a
  | call c next ih => exact fun a => ih a (hp a)
  | wild => exact hp

theorem Makes.ask {may : C → Prop} {c : C} {f : A → Prog C A β} (hc : may c) (hf : ∀ a, (f a).Makes may) :
    (Prog.ask c >>= f).Makes may := ⟨hc, hf⟩

theorem Makes.mono {may may' : C → Prop} {p : Prog C A α} (hp : p.Makes may) (h : ∀ c, may c → may' c) :
    p.Makes may' := by
  induction p with
  | ret a => trivial
  | call c next ih => exact ⟨h c hp.1, fun a => ih a (hp.2 a)⟩
  | wild => trivial

theorem Makes.bind {may : C → Prop} {p : Prog C A α} {f : α → Prog C A β} (hp : p.Makes may)
    (hf : ∀ a, (f a).Makes may) : (p >>= f).Makes may := by
  induction p with
  | ret a => exact hf a
  | call c next ih => exact ⟨hp.1, fun a => ih a (hp.2 a)⟩
  | wild => trivial

/-! ### Runs -/

variable {σ τ : Type} (step : σ → C → A → σ → Prop)

/-- The program, started in the first state, ends in the second with a result. -/
inductive Runs : σ → Prog C A α → σ → α → Prop
  | ret (s : σ) (a : α) : Runs s (.ret a) s a
  | call {s s' s'' : σ} {c : C} {a : A} {next : A → Prog C A α} {b : α} : step s c a s' →
      Runs s' (next a) s'' b → Runs s (.call c next) s'' b

/-- The weakest precondition for `post` of the runs of a program. -/
def wp : Prog C A α → (α → σ → Prop) → σ → Prop
  | .ret a, post, s => post a s
  | .call c next, post, s => ∀ a s', step s c a s' → (next a).wp post s'
  | .wild, _, _ => True

variable {step} {goal goal' : α → σ → Prop} {s s' : σ} {p : Prog C A α}

@[simp]
theorem wp_ret (a : α) : (Prog.ret a : Prog C A α).wp step goal s ↔ goal a s := Iff.rfl

@[simp]
theorem wp_call (c : C) (next : A → Prog C A α) :
    (Prog.call c next).wp step goal s ↔ ∀ a s', step s c a s' → (next a).wp step goal s' := Iff.rfl

theorem wp_mono (h : p.wp step goal s) (himp : ∀ a s', goal a s' → goal' a s') : p.wp step goal' s := by
  induction p generalizing s with
  | ret a => exact himp a s h
  | call c next ih => exact fun a s' hs => ih a (h a s' hs)
  | wild => trivial

/-- Preconditions compose. -/
theorem wp_bind {f : α → Prog C A β} {goal : β → σ → Prop} :
    (p >>= f).wp step goal s ↔ p.wp step (fun a s' => (f a).wp step goal s') s := by
  induction p generalizing s with
  | ret a => exact Iff.rfl
  | call c next ih => exact forall_congr' fun a => forall_congr' fun s' => imp_congr_right fun _ => ih a
  | wild => exact Iff.rfl

/-- A precondition of the first part and one of the second for each of its results. -/
theorem wp_seq {f : α → Prog C A β} {mid : α → σ → Prop} {goal : β → σ → Prop} (h : p.wp step mid s)
    (hf : ∀ a s', mid a s' → (f a).wp step goal s') : (p >>= f).wp step goal s :=
  wp_bind.mpr (wp_mono h hf)

/-- What the calls of a program keep holds at its end. -/
theorem Makes.wp {may : C → Prop} {I : σ → Prop} (hp : p.Makes may) (hs : I s)
    (hstep : ∀ s c a s', I s → may c → step s c a s' → I s') : p.wp step (fun _ s' => I s') s := by
  induction p generalizing s with
  | ret a => exact hs
  | call c next ih => exact fun a s' hcall => ih a (hp.2 a) (hstep s c a s' hs hp.1 hcall)
  | wild => trivial

/-- What the weakest precondition promises holds at the end of every run. -/
theorem Runs.post {b : α} (hr : Runs step s p s' b) (h : p.wp step goal s) : goal b s' := by
  induction hr with
  | ret s a => exact h
  | call hs _ ih => exact ih (h _ _ hs)

/-- If one system follows another by a relation of their states, it follows every run. -/
theorem Runs.follow {step' : τ → C → A → τ → Prop} {R : σ → τ → Prop} {u : τ} {b : α}
    (hr : Runs step s p s' b) (h : R s u)
    (hsim : ∀ s u c a s', R s u → step s c a s' → ∃ u', step' u c a u' ∧ R s' u') :
    ∃ u', Runs step' u p u' b ∧ R s' u' := by
  induction hr generalizing u with
  | ret s a => exact ⟨u, .ret u a, h⟩
  | call hs _ ih =>
    obtain ⟨u₁, hu, hrel⟩ := hsim _ _ _ _ _ h hs
    obtain ⟨u', hrun, hend⟩ := ih hrel
    exact ⟨u', .call hu hrun, hend⟩

end Prog

end CannedBsd.Lib
