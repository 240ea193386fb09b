import CannedBsd.Kernel.Purview

/-!
# Attained states and concrete sessions

A task also makes the calls of the table that are no operations of the kernel, such as `setenv`. What is
attained with them keeps the invariants. A session with a fixed plan for the other tasks can be computed.

* `Attained.poised`: the invariants hold in every attained state.
* `Session.runs_of_play`: a session that has been computed is a run.
-/

namespace CannedBsd

open CannedBsd.Lib

/-- The states of the kernel under tasks that make all calls of the table. -/
inductive Attained : Kernel → Prop
  | start (h : Host) : Attained (cbKernelCreate h)
  | step {k k' : Kernel} {a : Action} : Attained k → step k a = some k' → Attained k'
  | call {k : Kernel} {t : TaskId} (h : Host) (call : TableCall) : Attained k → k.current = some t →
      Attained (deliver t (performTable h k t call))

variable {k k' : Kernel} {t : TaskId} {call : TableCall} {a : Answer}

theorem Attained.poised (h : Attained k) : ∃ l, Poised k l := by
  induction h with
  | start h => exact ⟨fun _ => 0, poised_cbKernelCreate h⟩
  | step _ hs ih =>
    obtain ⟨l, hp⟩ := ih
    obtain ⟨l', -, hp', -⟩ := hp.step hs
    exact ⟨l', hp'⟩
  | call h call _ hc ih =>
    obtain ⟨l, hp⟩ := ih
    obtain ⟨gone, l', hend⟩ := performTable_ends h call hp.base hc
    exact ⟨l', hend.poised hp.base⟩

theorem Attained.of_reachable (h : Reachable k) : Attained k := by
  obtain ⟨h, hr⟩ := h
  exact hr.invariant (.start h) fun _ _ _ _ hs hk => .step hk hs

/-! ### Sessions that are computed -/

/-- Whether the step is one of the others. -/
def isOther (t : TaskId) (k : Kernel) : Action → Bool
  | .call _ _ => decide (k.current ≠ some t)
  | .schedule h =>
    match resumed h k t with
    | some (_, .done _ _) => false
    | _ => true
  | _ => true

theorem otherStep_of_isOther {x : Action} (h : isOther t k x = true) : otherStep t k x := by
  constructor
  · rintro host op rfl
    exact of_decide_eq_true h
  · rintro host k' r out rfl hres
    rw [isOther, hres] at h
    cases h

/-- The steps of the others. -/
def runOthers (t : TaskId) : Kernel → List Action → Option Kernel
  | k, [] => some k
  | k, x :: rest => if isOther t k x then (step k x).bind fun k' => runOthers t k' rest else none

theorem reach_of_runOthers {k₀ : Kernel} (hr : Reach step (otherStep t) k₀ k) {actions : List Action}
    (h : runOthers t k actions = some k') : Reach step (otherStep t) k₀ k' := by
  induction actions generalizing k with
  | nil =>
    cases h
    exact hr
  | cons x rest ih =>
    rw [runOthers] at h
    split at h
    · rename_i hother
      obtain ⟨k₁, hs, hrest⟩ := Option.bind_eq_some_iff.mp h
      exact ih (hr.step (otherStep_of_isOther hother) hs) hrest
    · cases h

/-- The answer to a call on a calm host. When the call is suspended, the others make the next steps of the
plan, and then it returns. -/
def playCall (t : TaskId) (k : Kernel) (call : TableCall) (plan : List (List Action)) :
    Option (Answer × Kernel × List (List Action)) :=
  if k.fatal = none ∧ k.current = some t then
    match (performTable .calm k t call).2 with
    | .done reply out => some (⟨reply, out⟩, deliver t (performTable .calm k t call), plan)
    | .block _ _ =>
      (runOthers t (deliver t (performTable .calm k t call)) (plan.headD [])).bind fun k₂ =>
        match step k₂ (.schedule .calm), resumed .calm k₂ t with
        | some k', some (_, .done reply out) => some (⟨reply, out⟩, k', plan.tail)
        | _, _ => none
    | _ => none
  else none

theorem answered_of_playCall {plan plan' : List (List Action)} (h : playCall t k call plan = some (a, k', plan')) :
    Answered t k call a k' := by
  rw [playCall] at h
  split at h
  · rename_i hk
    split at h
    · rename_i reply out hdone
      cases h
      exact .atOnce .init hk.1 hk.2 hdone
    · rename_i state frame hblock
      obtain ⟨k₂, hothers, h⟩ := Option.bind_eq_some_iff.mp h
      split at h
      · rename_i k₁ k₃ reply out hstep hres
        cases h
        exact .later .init hk.1 hk.2 hblock (reach_of_runOthers .init hothers) hstep hres
      · cases h
    · cases h
  · cases h

/-- A session that is computed. -/
def Session.play {α : Type} (t : TaskId) : Script α → List (List Action) → Session → Option (Session × α)
  | .ret b, _, s => some (s, b)
  | .wild, _, _ => none
  | .call call next, plan, s =>
    (playCall t s.kernel call plan).bind fun r =>
      play t (next r.1) r.2.2 ⟨r.2.1, s.log ++ [⟨call, r.1, r.2.1.slot t, childTable r.2.1 r.1⟩]⟩

theorem Session.runs_of_play {α : Type} {p : Script α} {plan : List (List Action)} {s s' : Session} {b : α}
    (h : Session.play t p plan s = some (s', b)) : Prog.Runs (Session.Step t) s p s' b := by
  induction p generalizing plan s with
  | ret b' =>
    cases h
    exact .ret _ _
  | wild => cases h
  | call call next ih =>
    obtain ⟨⟨a, k', plan'⟩, hcall, hrest⟩ := Option.bind_eq_some_iff.mp h
    exact .call ⟨answered_of_playCall hcall, rfl⟩ (ih a hrest)

end CannedBsd
