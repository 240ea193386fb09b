import Mathlib.Tactic

/-!
# Cells with stable addresses

A heap is a list of cells, each empty or holding one object. Allocation appends a
cell, so an address is never used twice; freeing empties its cell for good. The
weighted total of a heap adds up a natural number over the live objects. It is what
reference accounting is stated with: the number of pointers to an address is the
total of the pointers each live object holds.

* `Heap.get_alloc`, `Heap.get_modify`, `Heap.get_free`: what is at an address after each operation.
* `Heap.total_alloc`, `Heap.total_modify`, `Heap.total_free`: what each operation does to the total.
* `Heap.total_congr`: the total only depends on the weights of the live objects.
-/

namespace CannedBsd.Lib

/-- The cells of a heap, indexed by address. -/
structure Heap (α : Type) where
  cells : List (Option α)

namespace Heap

variable {α : Type}

def empty : Heap α := ⟨[]⟩

/-- The next address `alloc` hands out. -/
def next (h : Heap α) : ℕ := h.cells.length

def get (h : Heap α) (i : ℕ) : Option α := h.cells[i]?.join

/-- Store `a` in a fresh cell, whose address is `h.next`. -/
def alloc (h : Heap α) (a : α) : Heap α := ⟨h.cells ++ [some a]⟩

/-- Rewrite the object at `i`; an empty cell stays empty. -/
def modify (h : Heap α) (i : ℕ) (f : α → α) : Heap α := ⟨h.cells.modify i (Option.map f)⟩

/-- Rewrite every object, given its address. -/
def map (h : Heap α) (f : ℕ → α → α) : Heap α := ⟨h.cells.mapIdx fun i c => c.map (f i)⟩

def free (h : Heap α) (i : ℕ) : Heap α := ⟨h.cells.set i none⟩

/-- The weighted number of live objects. -/
def total (h : Heap α) (w : α → ℕ) : ℕ := (h.cells.map fun c => (c.map w).getD 0).sum

/-! ### Reading back -/

@[simp] theorem get_empty (i : ℕ) : (empty : Heap α).get i = none := by simp [get, empty]

theorem get_of_next_le {h : Heap α} {i : ℕ} (hi : h.next ≤ i) : h.get i = none := by
  simp [get, List.getElem?_eq_none hi]

theorem lt_next_of_get {h : Heap α} {i : ℕ} {a : α} (hg : h.get i = some a) : i < h.next := by
  by_contra hlt
  rw [get_of_next_le (by omega)] at hg
  cases hg

@[simp] theorem get_next (h : Heap α) : h.get h.next = none := get_of_next_le le_rfl

@[simp] theorem next_alloc (h : Heap α) (a : α) : (h.alloc a).next = h.next + 1 := by
  simp [next, alloc]

@[simp] theorem next_modify (h : Heap α) (i : ℕ) (f : α → α) : (h.modify i f).next = h.next := by
  simp [next, modify]

@[simp] theorem next_free (h : Heap α) (i : ℕ) : (h.free i).next = h.next := by
  simp [next, free]

theorem get_alloc (h : Heap α) (a : α) (i : ℕ) :
    (h.alloc a).get i = if i = h.next then some a else h.get i := by
  rcases Nat.lt_trichotomy i h.cells.length with hlt | heq | hgt
  · have hne : i ≠ h.next := by unfold next; omega
    rw [if_neg hne]
    simp [get, alloc, List.getElem?_append_left hlt]
  · subst heq
    simp [get, alloc, next]
  · have hne : i ≠ h.next := by unfold next; omega
    rw [if_neg hne, get_of_next_le (by rw [next_alloc]; unfold next; omega),
      get_of_next_le (by unfold next; omega)]

@[simp] theorem get_alloc_self (h : Heap α) (a : α) : (h.alloc a).get h.next = some a := by
  rw [get_alloc, if_pos rfl]

theorem get_alloc_of_ne (h : Heap α) (a : α) {i : ℕ} (hi : i ≠ h.next) :
    (h.alloc a).get i = h.get i := by
  rw [get_alloc, if_neg hi]

theorem get_alloc_of_get {h : Heap α} {a b : α} {i : ℕ} (hg : h.get i = some b) :
    (h.alloc a).get i = some b := by
  rw [get_alloc_of_ne h a (Nat.ne_of_lt (lt_next_of_get hg)), hg]

theorem get_modify (h : Heap α) (i : ℕ) (f : α → α) (j : ℕ) :
    (h.modify i f).get j = if j = i then (h.get j).map f else h.get j := by
  by_cases hij : j = i
  · subst hij
    simp only [get, modify, List.getElem?_modify, if_pos]
    cases h.cells[j]? with
    | none => rfl
    | some c => cases c <;> rfl
  · rw [if_neg hij]
    simp [get, modify, Ne.symm hij]

@[simp] theorem get_modify_self (h : Heap α) (i : ℕ) (f : α → α) :
    (h.modify i f).get i = (h.get i).map f := by
  rw [get_modify, if_pos rfl]

theorem get_modify_of_ne (h : Heap α) {i j : ℕ} (f : α → α) (hij : j ≠ i) :
    (h.modify i f).get j = h.get j := by
  rw [get_modify, if_neg hij]

theorem get_free (h : Heap α) (i j : ℕ) :
    (h.free i).get j = if j = i then none else h.get j := by
  by_cases hij : j = i
  · subst hij
    rw [if_pos rfl]
    by_cases hlt : j < h.cells.length
    · simp [get, free, hlt]
    · exact get_of_next_le (by rw [next_free]; unfold next; omega)
  · rw [if_neg hij]
    simp [get, free, List.getElem?_set_ne (Ne.symm hij)]

@[simp] theorem get_free_self (h : Heap α) (i : ℕ) : (h.free i).get i = none := by
  rw [get_free, if_pos rfl]

theorem get_free_of_ne (h : Heap α) {i j : ℕ} (hij : j ≠ i) : (h.free i).get j = h.get j := by
  rw [get_free, if_neg hij]

@[simp] theorem next_map (h : Heap α) (f : ℕ → α → α) : (h.map f).next = h.next := by
  simp [next, map]

@[simp] theorem get_map (h : Heap α) (f : ℕ → α → α) (i : ℕ) :
    (h.map f).get i = (h.get i).map (f i) := by
  simp only [get, map, List.getElem?_mapIdx]
  cases h.cells[i]? with
  | none => rfl
  | some c => cases c <;> rfl

/-- Rewriting one object twice is rewriting it once. -/
theorem modify_modify (h : Heap α) (i : ℕ) (f g : α → α) :
    (h.modify i f).modify i g = h.modify i (g ∘ f) := by
  unfold modify
  congr 1
  apply List.ext_getElem? fun j => ?_
  simp only [List.getElem?_modify]
  cases h.cells[j]? with
  | none => rfl
  | some c => split <;> simp

/-- How often the object at `i` was freed. -/
def freed (h : Heap α) (i : ℕ) : ℕ := if i < h.next ∧ h.get i = none then 1 else 0

@[simp] theorem freed_modify (h : Heap α) (i : ℕ) (f : α → α) (j : ℕ) :
    (h.modify i f).freed j = h.freed j := by
  have hnone : (h.modify i f).get j = none ↔ h.get j = none := by
    rw [get_modify]
    split <;> simp
  simp only [freed, next_modify, hnone]

@[simp] theorem freed_alloc (h : Heap α) (a : α) (j : ℕ) : (h.alloc a).freed j = h.freed j := by
  by_cases hj : j = h.next
  · subst hj
    simp [freed]
  · have hlt : j < h.next + 1 ↔ j < h.next := ⟨fun hl => by omega, fun hl => by omega⟩
    simp only [freed, next_alloc, get_alloc_of_ne h a hj, hlt]

theorem freed_free {h : Heap α} {i : ℕ} {a : α} (hg : h.get i = some a) (j : ℕ) :
    (h.free i).freed j = h.freed j + if j = i then 1 else 0 := by
  by_cases hj : j = i
  · subst hj
    simp [freed, hg, lt_next_of_get hg]
  · simp only [freed, next_free, get_free_of_ne h hj, if_neg hj, Nat.add_zero]

/-! ### Totals -/

section Total

variable (w : α → ℕ)

theorem total_alloc (h : Heap α) (a : α) : (h.alloc a).total w = h.total w + w a := by
  simp [total, alloc]

/-- What one list cell contributes, before and after it is overwritten. -/
theorem sum_map_set {β : Type} (v : β → ℕ) (l : List β) (i : ℕ) (x y : β) (hx : l[i]? = some x) :
    ((l.set i y).map v).sum + v x = (l.map v).sum + v y := by
  induction l generalizing i with
  | nil => simp at hx
  | cons b l ih =>
    cases i with
    | zero =>
      simp only [List.getElem?_cons_zero, Option.some.injEq] at hx
      subst hx
      simp only [List.set_cons_zero, List.map_cons, List.sum_cons]
      omega
    | succ i =>
      simp only [List.getElem?_cons_succ] at hx
      have hi := ih i hx
      simp only [List.set_cons_succ, List.map_cons, List.sum_cons]
      omega

theorem cells_of_get {h : Heap α} {i : ℕ} {a : α} (hg : h.get i = some a) :
    h.cells[i]? = some (some a) := by
  unfold get at hg
  cases hc : h.cells[i]? with
  | none => simp [hc] at hg
  | some c => cases c <;> simp_all

theorem modify_eq_set {h : Heap α} {i : ℕ} {a : α} (hg : h.get i = some a) (f : α → α) :
    h.modify i f = ⟨h.cells.set i (some (f a))⟩ := by
  have hc := cells_of_get hg
  unfold modify
  congr 1
  apply List.ext_getElem? fun j => ?_
  by_cases hij : i = j
  · subst hij
    have hlt : i < h.cells.length := lt_next_of_get hg
    rw [List.getElem?_modify, hc, List.getElem?_set_self hlt]
    simp
  · simp [hij]

theorem modify_eq_self {h : Heap α} {i : ℕ} {a : α} {f : α → α} (hg : h.get i = some a) (hf : f a = a) :
    h.modify i f = h := by
  have hc := cells_of_get hg
  rw [modify_eq_set hg, hf]
  obtain ⟨hlt, hi⟩ := List.getElem?_eq_some_iff.mp hc
  rw [← hi, List.set_getElem_self hlt]

/-- Rewriting a live object exchanges its old weight for its new one. -/
theorem total_modify {h : Heap α} {i : ℕ} {a : α} (hg : h.get i = some a) (f : α → α) :
    (h.modify i f).total w + w a = h.total w + w (f a) := by
  rw [modify_eq_set hg]
  have hs := sum_map_set (fun c : Option α => (c.map w).getD 0) h.cells i (some a) (some (f a))
    (cells_of_get hg)
  simpa [total] using hs

/-- Freeing a live object gives its weight back. -/
theorem total_free {h : Heap α} {i : ℕ} {a : α} (hg : h.get i = some a) :
    (h.free i).total w + w a = h.total w := by
  have hs := sum_map_set (fun c : Option α => (c.map w).getD 0) h.cells i (some a) none
    (cells_of_get hg)
  simpa [total, free] using hs

/-- The total only depends on the weights of the live objects. -/
theorem total_congr {h h' : Heap α} (hn : h'.next = h.next)
    (hg : ∀ i, (h'.get i).map w = (h.get i).map w) : h'.total w = h.total w := by
  unfold total
  congr 1
  refine List.ext_getElem? fun i => ?_
  simp only [List.getElem?_map]
  by_cases hi : i < h.cells.length
  · have hi' : i < h'.cells.length := by
      unfold next at hn
      omega
    have hgi := hg i
    simp only [get, List.getElem?_eq_getElem hi, List.getElem?_eq_getElem hi', Option.join_some] at hgi
    rw [List.getElem?_eq_getElem hi, List.getElem?_eq_getElem hi', Option.map_some, Option.map_some, hgi]
  · have hi' : ¬ i < h'.cells.length := by
      unfold next at hn
      omega
    rw [List.getElem?_eq_none (by omega), List.getElem?_eq_none (by omega)]

/-- The weighted number of objects depends on nothing but the objects and their addresses. -/
theorem total_ext {h h' : Heap α} (hg : ∀ i, h'.get i = h.get i) : h'.total w = h.total w := by
  have hcells : ∀ l l' : List (Option α), (∀ i : ℕ, l'[i]?.join = l[i]?.join) →
      (l'.map fun c => (c.map w).getD 0).sum = (l.map fun c => (c.map w).getD 0).sum := by
    intro l
    induction l with
    | nil =>
      intro l' heq
      rw [List.map_nil, List.sum_nil]
      refine List.sum_eq_zero fun n hn => ?_
      obtain ⟨c, hc, rfl⟩ := List.mem_map.mp hn
      obtain ⟨i, hi⟩ := List.getElem?_of_mem hc
      have hnone := heq i
      rw [hi] at hnone
      cases c with
      | none => rfl
      | some a => cases hnone
    | cons c l ih =>
      intro l' heq
      cases l' with
      | nil =>
        have hnone : c = none := (heq 0).symm
        have hrest := ih [] fun i => heq (i + 1)
        rw [List.map_cons, List.sum_cons, ← hrest, hnone]
        rfl
      | cons c' l' =>
        have hhead : c' = c := heq 0
        rw [List.map_cons, List.map_cons, List.sum_cons, List.sum_cons, hhead, ih l' fun i => heq (i + 1)]
  exact hcells h.cells h'.cells hg

theorem le_total {h : Heap α} {i : ℕ} {a : α} (hg : h.get i = some a) : w a ≤ h.total w := by
  have ht := total_free w hg
  omega

theorem total_eq_zero {h : Heap α} (hz : ∀ i a, h.get i = some a → w a = 0) : h.total w = 0 := by
  unfold total
  rw [List.sum_eq_zero]
  intro n hn
  obtain ⟨c, hc, rfl⟩ := List.mem_map.mp hn
  obtain ⟨i, hi⟩ := List.mem_iff_getElem?.mp hc
  cases c with
  | none => rfl
  | some a => exact hz i a (by simp [get, hi])

theorem exists_of_total_pos {h : Heap α} (hp : 0 < h.total w) :
    ∃ i a, h.get i = some a ∧ 0 < w a := by
  by_contra hne
  have hz : h.total w = 0 := total_eq_zero w fun i a hg => by
    by_contra hw
    exact hne ⟨i, a, hg, Nat.pos_of_ne_zero hw⟩
  omega

end Total

end Heap

end CannedBsd.Lib
