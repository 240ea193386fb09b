import Mathlib.Tactic
import Mathlib.Data.List.TakeWhile

/-!
# Cyclic scans of a list

A scan starts behind a cursor, goes to the end of the list, starts over at its front and ends with
the cursor itself. `Before u t` says that a list reaches `u` before it reaches `t`. In a scan this
survives new elements in front of the list, the removal of elements other than `u` and the cursor,
and a move of the cursor to an element that the scan reaches before `u`.

* `before_cons`: a new element in front of the list does not come between.
* `before_erase`: neither does the removal of an element other than `u` and the cursor.
* `rotation_advance`: a scan from an element that another scan reaches.
* `Before.behind`: what is found first is `u` or comes before it.
-/

namespace CannedBsd.Lib

variable {α : Type}

/-- The list reaches `u` before `t`. -/
def Before (u t : α) (l : List α) : Prop := ∃ pre post, l = pre ++ u :: post ∧ t ∉ pre

theorem Before.append {u t : α} {l : List α} (h : Before u t l) (l' : List α) : Before u t (l ++ l') := by
  obtain ⟨pre, post, rfl, hpre⟩ := h
  exact ⟨pre, post ++ l', by simp, hpre⟩

/-- Elements other than `u` may be left out. -/
theorem Before.filter {u t : α} {l : List α} (h : Before u t l) {p : α → Bool} (hu : p u = true) :
    Before u t (l.filter p) := by
  obtain ⟨pre, post, rfl, hpre⟩ := h
  refine ⟨pre.filter p, post.filter p, ?_, fun ht => hpre (List.mem_of_mem_filter ht)⟩
  rw [List.filter_append, List.filter_cons_of_pos hu]

/-- An element other than `t` may be put in anywhere. -/
theorem Before.insert {u t n : α} {l l' : List α} (h : Before u t (l ++ l')) (hn : n ≠ t) :
    Before u t (l ++ n :: l') := by
  obtain ⟨pre, post, heq, hpre⟩ := h
  rcases List.append_eq_append_iff.mp heq with ⟨as, rfl, hl'⟩ | ⟨bs, rfl, hbs⟩
  · refine ⟨l ++ n :: as, post, by simp [hl'], ?_⟩
    simp only [List.mem_append, List.mem_cons, not_or] at hpre ⊢
    exact ⟨hpre.1, hn.symm, hpre.2⟩
  · cases bs with
    | nil =>
      refine ⟨pre ++ [n], post, ?_, ?_⟩
      · simp only [List.nil_append] at hbs
        simp [← hbs]
      · simp only [List.mem_append, List.mem_singleton, not_or]
        exact ⟨hpre, hn.symm⟩
    | cons b bs =>
      obtain ⟨rfl, rfl⟩ := List.cons.inj hbs
      exact ⟨pre, bs ++ n :: l', by simp, hpre⟩

/-- What is reached first, of the elements that are looked for, is `u` or comes before `u`, and then
`t` comes behind both. -/
theorem Before.behind {u t v : α} {pre post : List α} (h : Before u t (pre ++ v :: post)) (hv : u ≠ v)
    (hu : u ∉ pre) : v ≠ t ∧ t ∉ pre ∧ Before u t post := by
  obtain ⟨pre', post', heq, hpre'⟩ := h
  rcases List.append_eq_append_iff.mp heq with ⟨as, rfl, hrest⟩ | ⟨bs, rfl, hrest⟩
  · cases as with
    | nil =>
      simp only [List.nil_append, List.cons.injEq] at hrest
      exact absurd hrest.1.symm hv
    | cons a as =>
      obtain ⟨rfl, rfl⟩ := List.cons.inj hrest
      simp only [List.mem_append, List.mem_cons, not_or] at hpre'
      exact ⟨fun heq => hpre'.2.1 heq.symm, hpre'.1, as, post', rfl, hpre'.2.2⟩
  · cases bs with
    | nil =>
      simp only [List.nil_append, List.cons.injEq] at hrest
      exact absurd hrest.1 hv
    | cons b bs =>
      obtain ⟨rfl, -⟩ := List.cons.inj hrest
      exact absurd (by simp) hu

variable [DecidableEq α]

/-- The order of a scan of `order` that starts behind `cursor`. -/
def rotation (cursor : Option α) (order : List α) : List α :=
  match cursor with
  | none => order
  | some c =>
    match (order.dropWhile (· ≠ c)).tail with
    | [] => order
    | after => after ++ order.takeWhile (· ≠ c) ++ [c]

theorem rotation_some {before after : List α} {c : α} (h : c ∉ before) :
    rotation (some c) (before ++ c :: after) = after ++ before ++ [c] := by
  have hall : ∀ x ∈ before, decide (x ≠ c) = true := by
    intro x hx
    refine decide_eq_true ?_
    rintro rfl
    exact h hx
  have hdrop : (before ++ c :: after).dropWhile (· ≠ c) = c :: after := by
    rw [List.dropWhile_append_of_pos hall]
    simp
  have htake : (before ++ c :: after).takeWhile (· ≠ c) = before := by
    rw [List.takeWhile_append_of_pos hall]
    simp
  rw [rotation, hdrop, htake, List.tail_cons]
  cases after with
  | nil => simp
  | cons a after => rfl

theorem rotation_of_not_mem {cursor : Option α} {order : List α} (h : ∀ c, cursor = some c → c ∉ order) :
    rotation cursor order = order := by
  cases cursor with
  | none => rfl
  | some c =>
    have hdrop : order.dropWhile (· ≠ c) = [] := by
      refine List.dropWhile_eq_nil_iff.mpr ?_
      intro x hx
      refine decide_eq_true ?_
      rintro rfl
      exact h x rfl hx
    rw [rotation, hdrop, List.tail_nil]

/-- A scan from an element that another scan reaches. -/
theorem rotation_advance {cursor : Option α} {order pre post : List α} {v : α} (hnodup : order.Nodup)
    (h : rotation cursor order = pre ++ v :: post) : rotation (some v) order = post ++ pre ++ [v] := by
  have hplain : ∀ pre post : List α, order = pre ++ v :: post → rotation (some v) order = post ++ pre ++ [v] := by
    rintro pre post rfl
    refine rotation_some fun hv => ?_
    have hdisjoint := List.nodup_append.mp hnodup
    exact hdisjoint.2.2 v hv v (by simp) rfl
  by_cases hc : ∃ c, cursor = some c ∧ c ∈ order
  · obtain ⟨c, rfl, hmem⟩ := hc
    obtain ⟨before, after, rfl, hbefore⟩ := List.eq_append_cons_of_mem hmem
    rw [rotation_some hbefore] at h
    -- the element is behind the cursor, in front of it, or the cursor itself
    rcases List.append_eq_append_iff.mp h with ⟨as, hpre, hlast⟩ | ⟨bs, hfront, hrest⟩
    · cases as with
      | nil =>
        simp only [List.nil_append, List.cons.injEq] at hlast
        obtain ⟨rfl, rfl⟩ := hlast
        rw [List.append_nil] at hpre
        rw [rotation_some hbefore, hpre]
        simp
      | cons a as =>
        have hlen := congrArg List.length hlast
        simp at hlen
    · cases bs with
      | nil =>
        simp only [List.nil_append, List.cons.injEq] at hrest
        obtain ⟨rfl, rfl⟩ := hrest
        rw [List.append_nil] at hfront
        rw [rotation_some hbefore, hfront]
        simp
      | cons b bs =>
        obtain ⟨rfl, rfl⟩ := List.cons.inj hrest
        rcases List.append_eq_append_iff.mp hfront with ⟨as, rfl, hb⟩ | ⟨as, rfl, hb⟩
        · rw [hplain as (bs ++ c :: after) (by simp [hb])]
          simp
        · cases as with
          | nil =>
            simp only [List.nil_append] at hb
            rw [hplain [] (bs ++ c :: pre) (by simp [← hb])]
            simp
          | cons a as =>
            obtain ⟨rfl, rfl⟩ := List.cons.inj hb
            rw [hplain (before ++ c :: pre) as (by simp)]
            simp
  · have hsame : rotation cursor order = order := rotation_of_not_mem fun c hcur hmem => hc ⟨c, hcur, hmem⟩
    exact hplain pre post (hsame.symm.trans h)

/-- Behind its own turn an element comes last. -/
theorem before_self {order : List α} {u t : α} (ht : t ∈ order) (hu : u ∈ order) (hne : u ≠ t)
    (hnodup : order.Nodup) : Before u t (rotation (some t) order) := by
  obtain ⟨before, after, rfl, hbefore⟩ := List.eq_append_cons_of_mem ht
  rw [rotation_some hbefore]
  have hafter : t ∉ after := by
    have hcons := (List.nodup_append.mp hnodup).2.1
    exact (List.nodup_cons.mp hcons).1
  have hmem : u ∈ after ++ before := by
    simp only [List.mem_append, List.mem_cons] at hu ⊢
    rcases hu with hu | rfl | hu
    · exact .inr hu
    · exact absurd rfl hne
    · exact .inl hu
  obtain ⟨pre, post, heq⟩ := List.append_of_mem hmem
  refine ⟨pre, post ++ [t], by rw [heq]; simp, fun htpre => ?_⟩
  have htmem : t ∈ after ++ before := heq ▸ List.mem_append_left _ htpre
  rcases List.mem_append.mp htmem with h | h
  · exact hafter h
  · exact hbefore h

/-- A new element in front of the list does not come between. -/
theorem before_cons {order : List α} {u t c n : α} (hc : c ∈ order) (hn : n ≠ t) (hnc : n ≠ c)
    (h : Before u t (rotation (some c) order)) : Before u t (rotation (some c) (n :: order)) := by
  obtain ⟨before, after, rfl, hbefore⟩ := List.eq_append_cons_of_mem hc
  rw [rotation_some hbefore] at h
  have hbefore' : c ∉ n :: before := by
    simp only [List.mem_cons, not_or]
    exact ⟨hnc.symm, hbefore⟩
  rw [show n :: (before ++ c :: after) = (n :: before) ++ c :: after from rfl, rotation_some hbefore']
  rw [List.append_assoc] at h
  have hins := h.insert hn
  simpa using hins

/-- The removal of an element other than `u` and the cursor. -/
theorem before_erase {order : List α} {u t c x : α} (hnodup : order.Nodup) (hc : c ∈ order) (hxc : x ≠ c) (hxu : x ≠ u)
    (h : Before u t (rotation (some c) order)) : Before u t (rotation (some c) (order.erase x)) := by
  obtain ⟨before, after, rfl, hbefore⟩ := List.eq_append_cons_of_mem hc
  rw [rotation_some hbefore] at h
  have hkeep : ∀ y : α, y ≠ x → (y != x) = true := fun y hy => bne_iff_ne.mpr hy
  have hfilter := @Before.filter _ u t _ h (· != x) (hkeep u hxu.symm)
  rw [List.filter_append, List.filter_append, List.filter_singleton, hkeep c hxc.symm, cond_true] at hfilter
  have hcons : (c :: after).filter (· != x) = c :: after.filter (· != x) :=
    List.filter_cons_of_pos (hkeep c hxc.symm)
  rw [hnodup.erase_eq_filter, List.filter_append, hcons,
    rotation_some fun hmem => hbefore (List.mem_of_mem_filter hmem)]
  exact hfilter

end CannedBsd.Lib
