import Mathlib.Data.List.Nodup
import Mathlib.Data.List.Lemmas

/-!
# Ownership

An allocator hands out blocks and takes them back. A log of its calls is sound if no block is handed out
while it is out and only blocks that are out are taken back. Owners keep ledgers of their blocks; the
ledgers agree with the log if the blocks that are out are those in the ledgers, each in one ledger once.

* `Owned.took`, `Owned.gave`, `Owned.moved`: a call of the allocator with the change of a ledger that goes
  with it.
* `Owned.clear`: an owner gives back all its blocks.
-/

namespace CannedBsd.Lib

/-- A call of an allocator. -/
inductive HeapCall (β : Type)
  /-- `allocate` returned this block. -/
  | took (block : β)
  /-- `resize` moved the block. -/
  | moved (old new : β)
  /-- The block was passed to `release`. -/
  | gave (block : β)
  deriving DecidableEq, Repr

variable {ι β : Type} [DecidableEq β]

/-- The blocks that are out after a call; nothing if the call is not sound. -/
def HeapCall.run (live : List β) : HeapCall β → Option (List β)
  | .took b => if b ∈ live then none else some (b :: live)
  | .moved old new => if old ∈ live ∧ new ∉ live.erase old then some (new :: live.erase old) else none
  | .gave b => if b ∈ live then some (live.erase b) else none

/-- The blocks that are out after a log; nothing if the log is not sound. -/
def replay (log : List (HeapCall β)) : Option (List β) := log.foldlM HeapCall.run []

theorem replay_append (log : List (HeapCall β)) (c : HeapCall β) :
    replay (log ++ [c]) = (replay log).bind fun live => c.run live := by
  rw [replay, List.foldlM_append]
  simp only [List.foldlM_cons, List.foldlM_nil, bind_pure]
  rfl

/-- The log is sound, and the blocks that are out are those in the ledgers. -/
structure Owned (ledger : ι → List β) (log : List (HeapCall β)) : Prop where
  live : ∃ live, replay log = some live ∧ live.Nodup ∧ ∀ b, b ∈ live ↔ ∃ i, b ∈ ledger i
  once : ∀ i, (ledger i).Nodup
  apart : ∀ {i j b}, b ∈ ledger i → b ∈ ledger j → i = j

namespace Owned

variable {ledger ledger' : ι → List β} {log : List (HeapCall β)} {i : ι} {b new : β}

theorem empty : Owned (fun _ : ι => ([] : List β)) [] := by
  refine ⟨⟨[], rfl, List.nodup_nil, fun b => ?_⟩, fun _ => List.nodup_nil, ?_⟩
  · simp
  · intro i j b hb
    cases hb

theorem congr (h : Owned ledger log) (heq : ∀ j, ledger' j = ledger j) : Owned ledger' log := by
  obtain rfl : ledger' = ledger := funext heq
  exact h

/-- A block that is handed out is put into a ledger. -/
theorem took (h : Owned ledger log) (hfresh : ∀ j, b ∉ ledger j) (hself : ledger' i = b :: ledger i)
    (hothers : ∀ j, j ≠ i → ledger' j = ledger j) : Owned ledger' (log ++ [.took b]) := by
  obtain ⟨live, hreplay, hnodup, hmem⟩ := h.live
  have hb : b ∉ live := fun hb => by
    obtain ⟨j, hj⟩ := (hmem b).mp hb
    exact hfresh j hj
  have hcase : ∀ {x j}, x ∈ ledger' j ↔ x = b ∧ j = i ∨ x ∈ ledger j := by
    intro x j
    by_cases hj : j = i
    · rw [hj, hself, List.mem_cons]
      simp
    · rw [hothers j hj]
      simp [hj]
  refine ⟨⟨b :: live, ?_, List.nodup_cons.mpr ⟨hb, hnodup⟩, fun x => ?_⟩, fun j => ?_, ?_⟩
  · rw [replay_append, hreplay]
    exact if_neg hb
  · rw [List.mem_cons, hmem]
    simp only [hcase]
    constructor
    · rintro (rfl | ⟨j, hj⟩)
      · exact ⟨i, .inl ⟨rfl, rfl⟩⟩
      · exact ⟨j, .inr hj⟩
    · rintro ⟨j, ⟨rfl, -⟩ | hj⟩
      · exact .inl rfl
      · exact .inr ⟨j, hj⟩
  · by_cases hj : j = i
    · rw [hj, hself]
      exact List.nodup_cons.mpr ⟨hfresh i, h.once i⟩
    · rw [hothers j hj]
      exact h.once j
  · intro j j' x hx hx'
    rcases hcase.mp hx with ⟨rfl, hji⟩ | hold
    · rcases hcase.mp hx' with ⟨-, hji'⟩ | hold'
      · rw [hji, hji']
      · exact absurd hold' (hfresh _)
    · rcases hcase.mp hx' with ⟨rfl, -⟩ | hold'
      · exact absurd hold (hfresh _)
      · exact h.apart hold hold'

/-- A block is taken out of its ledger and given back. -/
theorem gave (h : Owned ledger log) (hb : b ∈ ledger i) (hself : ledger' i = (ledger i).erase b)
    (hothers : ∀ j, j ≠ i → ledger' j = ledger j) : Owned ledger' (log ++ [.gave b]) := by
  obtain ⟨live, hreplay, hnodup, hmem⟩ := h.live
  have hlive : b ∈ live := (hmem b).mpr ⟨i, hb⟩
  have hcase : ∀ {x j}, x ∈ ledger' j ↔ x ≠ b ∧ x ∈ ledger j := by
    intro x j
    by_cases hj : j = i
    · rw [hj, hself, (h.once i).mem_erase_iff]
    · rw [hothers j hj]
      refine ⟨fun hx => ⟨?_, hx⟩, And.right⟩
      rintro rfl
      exact hj (h.apart hx hb)
  refine ⟨⟨live.erase b, ?_, hnodup.erase b, fun x => ?_⟩, fun j => ?_, ?_⟩
  · rw [replay_append, hreplay]
    exact if_pos hlive
  · rw [hnodup.mem_erase_iff, hmem]
    simp only [hcase, exists_and_left]
  · by_cases hj : j = i
    · rw [hj, hself]
      exact (h.once i).erase b
    · rw [hothers j hj]
      exact h.once j
  · intro j j' x hx hx'
    exact h.apart (hcase.mp hx).2 (hcase.mp hx').2

/-- A block is handed out and given back at once. -/
theorem bounce (h : Owned ledger log) (hfresh : ∀ j, b ∉ ledger j) : Owned ledger (log ++ [.took b] ++ [.gave b]) := by
  obtain ⟨live, hreplay, hnodup, hmem⟩ := h.live
  have hb : b ∉ live := fun hb => by
    obtain ⟨j, hj⟩ := (hmem b).mp hb
    exact hfresh j hj
  refine ⟨⟨live, ?_, hnodup, hmem⟩, h.once, h.apart⟩
  rw [replay_append, replay_append, hreplay]
  simp [HeapCall.run, hb]

/-- A block moves, and its ledger follows. -/
theorem moved {old : β} (h : Owned ledger log) (hold : old ∈ ledger i) (hfresh : new ≠ old → ∀ j, new ∉ ledger j)
    (hself : (ledger' i).Perm (new :: (ledger i).erase old)) (hothers : ∀ j, j ≠ i → ledger' j = ledger j) :
    Owned ledger' (log ++ [.moved old new]) := by
  obtain ⟨live, hreplay, hnodup, hmem⟩ := h.live
  have hlive : old ∈ live := (hmem old).mpr ⟨i, hold⟩
  have hclear : ∀ j, new ∈ ledger j → new = old := by
    intro j hj
    by_contra hne
    exact hfresh hne j hj
  have hcase : ∀ {x j}, x ∈ ledger' j ↔ x = new ∧ j = i ∨ x ≠ old ∧ x ∈ ledger j := by
    intro x j
    by_cases hj : j = i
    · rw [hj, hself.mem_iff, List.mem_cons, (h.once i).mem_erase_iff]
      simp
    · rw [hothers j hj]
      refine ⟨fun hx => .inr ⟨?_, hx⟩, ?_⟩
      · rintro rfl
        exact hj (h.apart hx hold)
      · rintro (⟨-, rfl⟩ | ⟨-, hx⟩)
        · exact absurd rfl hj
        · exact hx
  have hout : new ∉ live.erase old := by
    rw [hnodup.mem_erase_iff, hmem]
    rintro ⟨hne, j, hj⟩
    exact hne (hclear j hj)
  refine ⟨⟨new :: live.erase old, ?_, List.nodup_cons.mpr ⟨hout, hnodup.erase old⟩, fun x => ?_⟩, fun j => ?_, ?_⟩
  · rw [replay_append, hreplay]
    exact if_pos ⟨hlive, hout⟩
  · rw [List.mem_cons, hnodup.mem_erase_iff, hmem]
    simp only [hcase]
    constructor
    · rintro (rfl | ⟨hne, j, hj⟩)
      · exact ⟨i, .inl ⟨rfl, rfl⟩⟩
      · exact ⟨j, .inr ⟨hne, hj⟩⟩
    · rintro ⟨j, ⟨rfl, -⟩ | ⟨hne, hj⟩⟩
      · exact .inl rfl
      · exact .inr ⟨hne, j, hj⟩
  · by_cases hj : j = i
    · rw [hj, hself.nodup_iff, List.nodup_cons, (h.once i).mem_erase_iff]
      exact ⟨fun hx => hx.1 (hclear i hx.2), (h.once i).erase old⟩
    · rw [hothers j hj]
      exact h.once j
  · intro j j' x hx hx'
    rcases hcase.mp hx with ⟨rfl, hji⟩ | ⟨hne, hx⟩
    · rcases hcase.mp hx' with ⟨-, hji'⟩ | ⟨hne', hx'⟩
      · rw [hji, hji']
      · exact absurd (hclear _ hx') hne'
    · rcases hcase.mp hx' with ⟨rfl, -⟩ | ⟨-, hx'⟩
      · exact absurd (hclear _ hx) hne
      · exact h.apart hx hx'

/-- An owner gives back all its blocks. -/
theorem clear [DecidableEq ι] (h : Owned ledger log) (hself : ledger' i = [])
    (hothers : ∀ j, j ≠ i → ledger' j = ledger j) : Owned ledger' (log ++ (ledger i).map .gave) := by
  generalize hl : ledger i = l
  induction l generalizing ledger log with
  | nil =>
    rw [List.map_nil, List.append_nil]
    refine h.congr fun j => ?_
    by_cases hj : j = i
    · rw [hj, hself, hl]
    · exact hothers j hj
  | cons b l ih =>
    have hfirst : Owned (Function.update ledger i l) (log ++ [.gave b]) := by
      refine @gave ι β _ ledger (Function.update ledger i l) log i b h ?_ ?_ fun j hj => Function.update_of_ne hj l ledger
      · rw [hl]
        exact List.mem_cons_self ..
      · rw [Function.update_self, hl, List.erase_cons_head]
    have hrest := ih hfirst (fun j hj => (hothers j hj).trans (Function.update_of_ne hj l ledger).symm)
      (Function.update_self i l ledger)
    rw [List.map_cons, List.append_cons]
    exact hrest

end Owned

end CannedBsd.Lib
