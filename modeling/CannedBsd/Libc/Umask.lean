import CannedBsd.Abi

/-!
# The file mode creation mask

`cb_libc_umask` keeps the mask in a static variable of the libc layer, and all programs share one
data segment. A run is the order in which the tasks call it, across the lifetimes of the commands.

* `mask_per_task_iff`: the tasks see private masks exactly in the runs in which, at every call, the last call
  of all asked for the mask that the caller itself asked for last.
* `mask_survives_mkdir`: a `cp` behind a `mkdir` sees the mask of the other command.
-/

namespace CannedBsd

namespace Libc

/-- The static `current_umask`. -/
def currentUmask : UInt32 := 0o022

/-- The new mask and the value returned. -/
def cbLibcUmask (mask numask : UInt32) : UInt32 × UInt32 := (numask &&& 0o777, mask)

section

variable {τ : Type}

/-- A call of `cb_libc_umask` by a task. -/
structure UmaskCall (τ : Type) where
  task : τ
  numask : UInt32

/-- The values returned along a run, each with its caller. -/
def umaskValues (mask : UInt32) : List (UmaskCall τ) → List (τ × UInt32)
  | [] => []
  | call :: run => (call.task, (cbLibcUmask mask call.numask).2) :: umaskValues (cbLibcUmask mask call.numask).1 run

/-- The mask the last of some calls asked for. -/
def lastAsked (calls : List (UmaskCall τ)) : UInt32 :=
  match calls.getLast? with
  | none => currentUmask
  | some call => call.numask &&& 0o777

theorem umaskValues_snoc (call : UmaskCall τ) (run : List (UmaskCall τ)) : ∀ mask : UInt32,
    umaskValues mask (run ++ [call]) =
      umaskValues mask run ++ [(call.task, run.foldl (fun _ c => c.numask &&& 0o777) mask)] := by
  induction run with
  | nil => exact fun mask => rfl
  | cons first run ih =>
    intro mask
    rw [List.cons_append, umaskValues, ih, umaskValues, List.cons_append, List.foldl_cons]
    rfl

theorem lastAsked_eq (run : List (UmaskCall τ)) :
    run.foldl (fun _ c => c.numask &&& 0o777) currentUmask = lastAsked run := by
  cases run using List.reverseRecOn with
  | nil => rfl
  | append_singleton run call => rw [List.foldl_concat, lastAsked, List.getLast?_concat]

variable [DecidableEq τ]

/-- What a task sees of a run. -/
def observed (task : τ) (run : List (UmaskCall τ)) : List UInt32 :=
  ((umaskValues currentUmask run).filter (·.1 = task)).map (·.2)

/-- The calls a task made itself. -/
def ownCalls (task : τ) (run : List (UmaskCall τ)) : List (UmaskCall τ) := run.filter (·.task = task)

/-- Every task sees what its own calls alone would return. -/
def MaskPerTask (run : List (UmaskCall τ)) : Prop := ∀ task, observed task run = observed task (ownCalls task run)

/-! ### One call more -/

theorem observed_snoc (task : τ) (run : List (UmaskCall τ)) (call : UmaskCall τ) :
    observed task (run ++ [call]) = observed task run ++ if call.task = task then [lastAsked run] else [] := by
  rw [observed, umaskValues_snoc, lastAsked_eq, List.filter_append, List.map_append, ← observed]
  by_cases h : call.task = task
  · simp [h]
  · simp [h]

theorem ownCalls_snoc (task : τ) (run : List (UmaskCall τ)) (call : UmaskCall τ) :
    ownCalls task (run ++ [call]) = ownCalls task run ++ if call.task = task then [call] else [] := by
  rw [ownCalls, List.filter_append, ← ownCalls]
  by_cases h : call.task = task
  · simp [h]
  · simp [h]

theorem maskPerTask_snoc (run : List (UmaskCall τ)) (call : UmaskCall τ) :
    MaskPerTask (run ++ [call]) ↔ MaskPerTask run ∧ lastAsked run = lastAsked (ownCalls call.task run) := by
  have hself : observed call.task (run ++ [call]) = observed call.task run ++ [lastAsked run] := by
    rw [observed_snoc, if_pos rfl]
  have hown : observed call.task (ownCalls call.task (run ++ [call])) =
      observed call.task (ownCalls call.task run) ++ [lastAsked (ownCalls call.task run)] := by
    rw [ownCalls_snoc, if_pos rfl, observed_snoc, if_pos rfl]
  have hother : ∀ task, call.task ≠ task → observed task (run ++ [call]) = observed task run ∧
      observed task (ownCalls task (run ++ [call])) = observed task (ownCalls task run) := by
    intro task hne
    rw [observed_snoc, ownCalls_snoc, if_neg hne, if_neg hne, List.append_nil, List.append_nil]
    exact ⟨rfl, rfl⟩
  constructor
  · intro h
    have hcaller := h call.task
    rw [hself, hown] at hcaller
    obtain ⟨hfront, hlast⟩ := List.append_inj' hcaller rfl
    refine ⟨fun task => ?_, List.cons.inj hlast |>.1⟩
    by_cases htask : call.task = task
    · exact htask ▸ hfront
    · obtain ⟨hrun, hcalls⟩ := hother task htask
      rw [← hrun, ← hcalls]
      exact h task
  · rintro ⟨hrun, hmask⟩ task
    by_cases htask : call.task = task
    · subst htask
      rw [hself, hown, hrun call.task, hmask]
    · obtain ⟨hsame, hcalls⟩ := hother task htask
      rw [hsame, hcalls]
      exact hrun task

/-- **When the mask looks per task.**  The tasks see private masks exactly in the runs in which, at
every call, the last call of all asked for the mask that the caller itself asked for last. -/
theorem mask_per_task_iff (run : List (UmaskCall τ)) :
    MaskPerTask run ↔ ∀ before call after, run = before ++ call :: after →
      lastAsked before = lastAsked (ownCalls call.task before) := by
  induction run using List.reverseRecOn with
  | nil =>
    refine ⟨fun _ before call after h => ?_, fun _ task => rfl⟩
    simp at h
  | append_singleton run last ih =>
    rw [maskPerTask_snoc, ih]
    constructor
    · rintro ⟨hrun, hlast⟩ before call after h
      cases after using List.reverseRecOn with
      | nil =>
        obtain ⟨rfl, hcall⟩ := List.append_inj' h rfl
        rw [← (List.cons.inj hcall).1]
        exact hlast
      | append_singleton after end' =>
        rw [← List.cons_append, ← List.append_assoc] at h
        obtain ⟨rfl, -⟩ := List.append_inj' h rfl
        exact hrun before call after rfl
    · intro h
      refine ⟨fun before call after hsplit => ?_, h run last [] rfl⟩
      refine h before call (after ++ [last]) ?_
      rw [hsplit, List.append_assoc, List.cons_append]

end

/-- Task 1 is a `mkdir` that has called `umask(0)` and exited, task 2 a `cp` that calls it for the first time: the
copy sees the mask of the other command, and not the one it would see alone. -/
theorem mask_survives_mkdir :
    umaskValues currentUmask [⟨1, 0⟩, ⟨2, 0⟩] = [(1, 0o022), (2, 0)] ∧ observed 2 [⟨2, 0⟩] = [0o022] ∧
      ¬ MaskPerTask [⟨1, 0⟩, ⟨2, 0⟩] := by
  refine ⟨by decide, by decide, ?_⟩
  intro h
  have hcp := h 2
  revert hcp
  decide

end Libc

end CannedBsd
