import Mathlib.Tactic

/-!
# Pointer chains

Intrusive lists and parent pointers, as functions from an element to an optional
successor. `Chain next o l` says that following `next` from `o` visits exactly the
elements of `l` and then stops; a chain is automatically free of repetitions. The
searches a C loop makes over such a list are computed with a bound on the number of
hops and identified with the corresponding search in `l`.

`Climb up a r` says that following `up` from `a` meets `r`. It is what the shape of a
tree is stated with when only parent pointers are stored: redirecting one parent
pointer keeps every path to a root as long as the new parent is not below the moved
element.

* `Chain.nodup`: a chain meets no element twice.
* `Chain.splice_after`: cutting out an inner element.
* `findFrom_eq`, `collect_eq`, `findLink_eq`: the bounded searches are searches in the list.
* `Climb.acyclic`: parent pointers under a root make no cycle.
* `Climb.redirect`: every path to the root survives when an element moves below one that is not below it.
-/

namespace CannedBsd.Lib

variable {α : Type}

/-- Following `next` from `o` visits the elements of `l`, in order, and stops. -/
inductive Chain (next : α → Option α) : Option α → List α → Prop
  | nil : Chain next none []
  | cons {a : α} {l : List α} : Chain next (next a) l → Chain next (some a) (a :: l)

namespace Chain

variable {next next' : α → Option α} {o : Option α} {a : α} {l : List α}

theorem unique {l₁ l₂ : List α} (h₁ : Chain next o l₁) (h₂ : Chain next o l₂) : l₁ = l₂ := by
  induction h₁ generalizing l₂ with
  | nil => cases h₂; rfl
  | cons _ ih =>
    cases h₂ with
    | cons h => rw [ih h]

theorem eq_none (h : Chain next o []) : o = none := by
  cases h
  rfl

theorem eq_some (h : Chain next o (a :: l)) : o = some a := by
  cases h
  rfl

/-- The part of a chain from one of its elements on. -/
theorem drop_to {l₁ l₂ : List α} (h : Chain next o (l₁ ++ a :: l₂)) :
    Chain next (some a) (a :: l₂) := by
  induction l₁ generalizing o with
  | nil => cases h with | cons h => exact .cons h
  | cons b l₁ ih => cases h with | cons h => exact ih h

theorem next_of_split {l₁ l₂ : List α} (h : Chain next o (l₁ ++ a :: l₂)) : Chain next (next a) l₂ := by
  cases h.drop_to with | cons h => exact h

/-- A chain never meets an element twice: the two visits would be followed by equal tails. -/
theorem nodup (h : Chain next o l) : l.Nodup := by
  induction h with
  | nil => exact List.nodup_nil
  | @cons a l h ih =>
    refine List.nodup_cons.mpr ⟨fun hmem => ?_, ih⟩
    obtain ⟨l₁, l₂, rfl⟩ := List.append_of_mem hmem
    have heq := unique (.cons h) h.drop_to
    have hlen := congrArg List.length heq
    simp only [List.length_cons, List.length_append] at hlen
    omega

theorem next_mem (h : Chain next o l) (ha : a ∈ l) {b : α} (hb : next a = some b) : b ∈ l := by
  obtain ⟨l₁, l₂, rfl⟩ := List.append_of_mem ha
  have hn := h.next_of_split
  rw [hb] at hn
  cases hn with
  | cons _ => simp

theorem congr (h : Chain next o l) (hn : ∀ b ∈ l, next' b = next b) : Chain next' o l := by
  induction h with
  | nil => exact .nil
  | @cons a l _ ih =>
    refine .cons ?_
    rw [hn a (by simp)]
    exact ih fun b hb => hn b (by simp [hb])

/-- Inserting a new first element. -/
theorem push (h : Chain next o l) (ha : next' a = o) (hn : ∀ b ∈ l, next' b = next b) :
    Chain next' (some a) (a :: l) := by
  refine .cons ?_
  rw [ha]
  exact h.congr hn

/-- Cutting out the first element: the head pointer skips it. -/
theorem splice_head {l₂ : List α} (h : Chain next (some a) (a :: l₂))
    (hn : ∀ b ∈ l₂, next' b = next b) : Chain next' (next a) l₂ := by
  cases h with | cons h => exact h.congr hn

/-- Cutting out an inner element: the pointer of its predecessor skips it. -/
theorem splice_after {l₁ l₂ : List α} {p : α} (h : Chain next o (l₁ ++ p :: a :: l₂))
    (hp : next' p = next a) (hn : ∀ b ∈ l₁ ++ l₂, next' b = next b) :
    Chain next' o (l₁ ++ p :: l₂) := by
  induction l₁ generalizing o with
  | nil =>
    have ha : Chain next (next a) l₂ := next_of_split (show Chain next o ([p] ++ a :: l₂) from h)
    cases h with
    | cons _ =>
      refine .cons ?_
      rw [hp]
      exact ha.congr fun b hb => hn b (by simpa using hb)
  | cons c l₁ ih =>
    cases h with
    | cons h =>
      refine .cons ?_
      rw [hn c (by simp)]
      exact ih h fun b hb => hn b (by simp only [List.cons_append, List.mem_cons]; exact .inr hb)

end Chain

/-! ### Bounded searches -/

/-- The first element of the list at `o` that satisfies `p`, within `fuel` hops. -/
def findFrom (next : α → Option α) (p : α → Bool) : ℕ → Option α → Option α
  | 0, _ => none
  | _ + 1, none => none
  | fuel + 1, some a => if p a then some a else findFrom next p fuel (next a)

theorem findFrom_eq {next : α → Option α} {o : Option α} {l : List α} (h : Chain next o l)
    (p : α → Bool) {fuel : ℕ} (hf : l.length ≤ fuel) : findFrom next p fuel o = l.find? p := by
  induction h generalizing fuel with
  | nil => cases fuel <;> rfl
  | @cons a l _ ih =>
    obtain ⟨fuel, rfl⟩ : ∃ n, fuel = n + 1 := ⟨fuel - 1, by simp only [List.length_cons] at hf; omega⟩
    simp only [List.length_cons] at hf
    rw [findFrom, List.find?_cons]
    cases p a with
    | true => rfl
    | false => simpa using ih (by omega)

/-- The elements of the list at `o`, within `fuel` hops. -/
def collect (next : α → Option α) : ℕ → Option α → List α
  | 0, _ => []
  | _ + 1, none => []
  | fuel + 1, some a => a :: collect next fuel (next a)

theorem collect_eq {next : α → Option α} {o : Option α} {l : List α} (h : Chain next o l)
    {fuel : ℕ} (hf : l.length ≤ fuel) : collect next fuel o = l := by
  induction h generalizing fuel with
  | nil => cases fuel <;> rfl
  | @cons a l _ ih =>
    obtain ⟨fuel, rfl⟩ : ∃ n, fuel = n + 1 := ⟨fuel - 1, by simp only [List.length_cons] at hf; omega⟩
    simp only [List.length_cons] at hf
    rw [collect, ih (by omega)]

/-- Where the pointer to a list element is stored: in the head of the list, or in the
element before it. -/
inductive Link (α : Type)
  | head
  | after (a : α)
  deriving DecidableEq

section FindLink

variable [DecidableEq α]

/-- The place of the pointer to `target`, searched from the place `link`, which holds `o`. -/
def findLink (next : α → Option α) (target : α) : ℕ → Link α → Option α → Option (Link α)
  | 0, _, _ => none
  | _ + 1, _, none => none
  | fuel + 1, link, some a =>
    if a = target then some link else findLink next target fuel (.after a) (next a)

/-- The link the search reports for a target behind the prefix `l₁`. -/
def linkBehind (link : Link α) (l₁ : List α) : Link α :=
  match l₁.getLast? with
  | none => link
  | some p => .after p

theorem findLink_eq {next : α → Option α} {target : α} {l₁ l₂ : List α} {o : Option α}
    {link : Link α} {fuel : ℕ} (h : Chain next o (l₁ ++ target :: l₂))
    (hf : (l₁ ++ target :: l₂).length ≤ fuel) :
    findLink next target fuel link o = some (linkBehind link l₁) := by
  have hnd := h.nodup
  induction l₁ generalizing o link fuel with
  | nil =>
    cases h with
    | cons _ =>
      obtain ⟨fuel, rfl⟩ : ∃ n, fuel = n + 1 := ⟨fuel - 1, by simp at hf; omega⟩
      simp [findLink, linkBehind]
  | cons b l₁ ih =>
    cases h with
    | cons h =>
      obtain ⟨fuel, rfl⟩ : ∃ n, fuel = n + 1 := ⟨fuel - 1, by simp at hf; omega⟩
      have hb : b ≠ target := by
        rintro rfl
        simp at hnd
      rw [findLink, if_neg hb, ih h (by simp at hf ⊢; omega) (List.nodup_cons.mp hnd).2]
      cases l₁ using List.reverseRecOn with
      | nil => simp [linkBehind]
      | append_singleton l₁ c =>
        rw [linkBehind, linkBehind, ← List.cons_append, List.getLast?_concat, List.getLast?_concat]

/-- The link the search reports points to the target. -/
theorem findLink_next {next : α → Option α} {target p : α} {fuel : ℕ} {link : Link α} {o : Option α}
    (h : findLink next target fuel link o = some (.after p)) (hlink : link = .after p → next p = o) :
    next p = some target := by
  induction fuel generalizing link o with
  | zero => cases h
  | succ fuel ih =>
    cases o with
    | none => cases h
    | some a =>
      rw [findLink] at h
      split at h
      · rename_i ha
        rw [Option.some.injEq] at h
        rw [hlink h, ha]
      · refine ih h fun heq => ?_
        rw [Link.after.inj heq]

end FindLink

theorem length_le_of_lt {l : List ℕ} {n : ℕ} (hnd : l.Nodup) (hlt : ∀ a ∈ l, a < n) :
    l.length ≤ n := by
  have hsub : l ⊆ List.range n := fun a ha => List.mem_range.mpr (hlt a ha)
  simpa using (hnd.subperm hsub).length_le

/-! ### Climbing parent pointers -/

/-- Following `up` from the first element meets the second. -/
inductive Climb (up : α → Option α) : α → α → Prop
  | refl {a : α} : Climb up a a
  | step {a p r : α} : up a = some p → Climb up p r → Climb up a r

namespace Climb

variable {up up' : α → Option α} {a b n d r : α}

theorem trans (h₁ : Climb up a b) (h₂ : Climb up b r) : Climb up a r := by
  induction h₁ with
  | refl => exact h₂
  | step hp _ ih => exact .step hp (ih h₂)

/-- Two climbs from one element lie on one path. -/
theorem comparable (h₁ : Climb up a b) (h₂ : Climb up a r) : Climb up b r ∨ Climb up r b := by
  induction h₁ with
  | refl => exact .inl h₂
  | step hp h ih =>
    cases h₂ with
    | refl => exact .inr (.step hp h)
    | step hp₂ h₂ =>
      rw [hp] at hp₂
      cases hp₂
      exact ih h₂

theorem eq_of_up_none (h : Climb up a b) (ha : up a = none) : a = b := by
  cases h with
  | refl => rfl
  | step hp _ => rw [ha] at hp; cases hp

/-- Above an element with a root over it there is no way back: parent pointers make no cycle. -/
theorem acyclic (h : Climb up a r) (hr : up r = none) {p : α} (hp : up a = some p) :
    ¬ Climb up p a := by
  induction h generalizing p with
  | refl => rw [hr] at hp; cases hp
  | @step a q r hq _ ih =>
    rw [hq] at hp
    cases hp
    intro hback
    cases hback with
    | refl => exact ih hr hq .refl
    | step hs hback => exact ih hr hs (hback.trans (.step hq .refl))

theorem congr (h : Climb up a r) (hn : ∀ b, Climb up a b → up' b = up b) : Climb up' a r := by
  induction h with
  | refl => exact .refl
  | step hp _ ih =>
    refine .step ?_ (ih fun b hb => hn b (.step hp hb))
    rw [hn _ .refl, hp]

/-- A climb along some of the pointers is a climb along all of them. -/
theorem mono (h : Climb up a r) (hle : ∀ b p, up b = some p → up' b = some p) : Climb up' a r := by
  induction h with
  | refl => exact .refl
  | step hp _ ih => exact .step (hle _ _ hp) ih

/-- Moving `n` below `d`: every path to `r` survives if `d` has one that avoids `n`. -/
theorem redirect (h : Climb up a r) (hd : Climb up d r) (hdn : ¬ Climb up d n)
    (hn : up' n = some d) (hne : ∀ b, b ≠ n → up' b = up b) : Climb up' a r := by
  have hd' : Climb up' d r := hd.congr fun b hb => hne b fun hbn => hdn (hbn ▸ hb)
  induction h with
  | refl => exact .refl
  | @step a p r hp _ ih =>
    by_cases han : a = n
    · subst han
      exact .step hn hd'
    · exact .step ((hne a han).trans hp) (ih hd hd')

end Climb

/-- What a bounded upward walk from `o` finds. -/
inductive WalkResult
  | clear
  | hit
  | tooLong
  deriving DecidableEq

/-- Walk upwards from `o` looking for `target`, making at most `fuel` further hops. -/
def walkUp [DecidableEq α] (up : α → Option α) (target : α) : ℕ → Option α → WalkResult
  | _, none => .clear
  | 0, some a => if a = target then .hit else .tooLong
  | fuel + 1, some a => if a = target then .hit else walkUp up target fuel (up a)

theorem not_climb_of_walkUp [DecidableEq α] {up : α → Option α} {target : α} {fuel : ℕ} {a : α}
    (h : walkUp up target fuel (some a) = .clear) : ¬ Climb up a target := by
  induction fuel generalizing a with
  | zero =>
    rw [walkUp] at h
    split at h <;> cases h
  | succ fuel ih =>
    rw [walkUp] at h
    split at h
    · cases h
    · rename_i hne
      intro hc
      cases hc with
      | refl => exact hne rfl
      | step hp hc =>
        rw [hp] at h
        exact ih h hc

end CannedBsd.Lib
