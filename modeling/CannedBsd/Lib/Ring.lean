import Mathlib.Tactic

/-!
# Memory blocks and ring buffers

A block of memory is a function from offsets; `read`, `write` and `fill` are the
copies a C program makes with `memcpy` and `memset`. A ring buffer keeps a queue in the
first `cap` cells of a block, from a head position on and around the end. Storing
behind the queue appends to it and advancing the head drops from it, whether the copy
is made cell by cell or in two pieces around the wrap point.

* `Ring.contents_put`: storing behind a queue appends to it, as long as there is room.
* `Ring.contents_drop`: advancing the head drops from it.
* `Ring.read_two_pieces`, `Ring.write_two_pieces`: the copies around the wrap point.
-/

namespace CannedBsd.Lib

variable {α : Type}

namespace Block

/-- The `n` cells from `pos` on. -/
def read (buf : ℕ → α) (pos n : ℕ) : List α := (List.range n).map fun i => buf (pos + i)

/-- Overwrite the cells from `pos` on with `xs`. -/
def write (buf : ℕ → α) (pos : ℕ) (xs : List α) : ℕ → α :=
  fun i => if pos ≤ i then xs[i - pos]?.getD (buf i) else buf i

/-- Set the `n` cells from `pos` on to `v`. -/
def fill (buf : ℕ → α) (pos n : ℕ) (v : α) : ℕ → α :=
  fun i => if pos ≤ i ∧ i < pos + n then v else buf i

@[simp] theorem length_read (buf : ℕ → α) (pos n : ℕ) : (read buf pos n).length = n := by
  simp [read]

theorem getElem?_read (buf : ℕ → α) (pos n i : ℕ) :
    (read buf pos n)[i]? = if i < n then some (buf (pos + i)) else none := by
  by_cases hi : i < n
  · simp [read, hi]
  · simp [read, hi]

theorem write_of_lt (buf : ℕ → α) {pos : ℕ} (xs : List α) {i : ℕ} (hi : i < pos) :
    write buf pos xs i = buf i := by
  simp [write, Nat.not_le.mpr hi]

theorem write_of_ge (buf : ℕ → α) {pos : ℕ} (xs : List α) {i : ℕ} (hi : pos + xs.length ≤ i) :
    write buf pos xs i = buf i := by
  rw [write, if_pos (by omega), List.getElem?_eq_none (by omega)]
  rfl

theorem write_at (buf : ℕ → α) (pos : ℕ) (xs : List α) {i : ℕ} (hi : i < xs.length) :
    write buf pos xs (pos + i) = xs[i] := by
  simp [write, hi]

theorem take_read (buf : ℕ → α) (pos n k : ℕ) :
    (read buf pos n).take k = read buf pos (min k n) := by
  simp [read, ← List.map_take]

theorem drop_read (buf : ℕ → α) (pos n k : ℕ) : (read buf pos n).drop k = read buf (pos + k) (n - k) := by
  refine List.ext_getElem? fun i => ?_
  rw [List.getElem?_drop, getElem?_read, getElem?_read, Nat.add_assoc]
  by_cases hi : k + i < n
  · rw [if_pos hi, if_pos (by omega)]
  · rw [if_neg hi, if_neg (by omega)]

/-- Writing directly behind a stretch extends it. -/
theorem read_write_append (buf : ℕ → α) (n : ℕ) (xs : List α) :
    read (write buf n xs) 0 (n + xs.length) = read buf 0 n ++ xs := by
  refine List.ext_getElem? fun i => ?_
  rw [getElem?_read, Nat.zero_add]
  by_cases hi : i < n
  · rw [if_pos (by omega), List.getElem?_append_left (by simpa using hi), getElem?_read, if_pos hi,
      write_of_lt _ _ hi, Nat.zero_add]
  · rw [List.getElem?_append_right (by simpa using Nat.le_of_not_lt hi), length_read]
    by_cases hlt : i < n + xs.length
    · obtain ⟨j, rfl⟩ : ∃ j, i = n + j := ⟨i - n, by omega⟩
      have hj : j < xs.length := by omega
      rw [if_pos hlt, write_at _ _ _ hj, Nat.add_sub_cancel_left, List.getElem?_eq_getElem hj]
    · rw [if_neg hlt, List.getElem?_eq_none (by omega)]

@[simp] theorem write_nil (buf : ℕ → α) (pos : ℕ) : write buf pos [] = buf := by
  funext i
  simp [write]

/-- Two writes in a row are one. -/
theorem write_append (buf : ℕ → α) (pos : ℕ) (xs ys : List α) :
    write (write buf pos xs) (pos + xs.length) ys = write buf pos (xs ++ ys) := by
  funext i
  by_cases hi : i < pos + xs.length
  · rw [write_of_lt _ _ hi]
    by_cases hpos : i < pos
    · rw [write_of_lt _ _ hpos, write_of_lt _ _ hpos]
    · obtain ⟨j, rfl⟩ : ∃ j, i = pos + j := ⟨i - pos, by omega⟩
      have hj : j < xs.length := by omega
      rw [write_at _ _ _ hj, write_at _ _ _ (by rw [List.length_append]; omega), List.getElem_append_left hj]
  · by_cases hend : i < pos + xs.length + ys.length
    · obtain ⟨j, rfl⟩ : ∃ j, i = pos + xs.length + j := ⟨i - (pos + xs.length), by omega⟩
      have hj : j < ys.length := by omega
      rw [write_at _ _ _ hj, Nat.add_assoc, write_at _ _ _ (by rw [List.length_append]; omega),
        List.getElem_append_right (by omega)]
      simp only [Nat.add_sub_cancel_left]
    · rw [write_of_ge _ _ (by omega), write_of_ge _ _ (by omega),
        write_of_ge _ _ (by rw [List.length_append]; omega)]

/-- What was written first is read back. -/
theorem read_write_left (buf : ℕ → α) (pos : ℕ) (xs ys : List α) :
    read (write buf pos (xs ++ ys)) pos xs.length = xs := by
  refine List.ext_getElem? fun i => ?_
  rw [getElem?_read]
  by_cases hi : i < xs.length
  · rw [if_pos hi, write_at _ _ _ (by rw [List.length_append]; omega), List.getElem_append_left hi,
      List.getElem?_eq_getElem hi]
  · rw [if_neg hi, List.getElem?_eq_none (by omega)]

theorem read_add (buf : ℕ → α) (pos n m : ℕ) : read buf pos (n + m) = read buf pos n ++ read buf (pos + n) m := by
  rw [← List.take_append_drop n (read buf pos (n + m)), take_read, drop_read, Nat.min_eq_left (Nat.le_add_right n m),
    Nat.add_sub_cancel_left]

theorem fill_of_lt (buf : ℕ → α) {pos n i : ℕ} (v : α) (hi : i < pos) :
    fill buf pos n v i = buf i := by
  simp [fill, Nat.not_le.mpr hi]

theorem fill_of_mem (buf : ℕ → α) {pos n i : ℕ} (v : α) (h₁ : pos ≤ i) (h₂ : i < pos + n) :
    fill buf pos n v i = v := by
  simp [fill, h₁, h₂]

end Block

namespace Ring

/-- The queue of length `n` whose first element is in cell `head`. -/
def contents (cap : ℕ) (buf : ℕ → α) (head n : ℕ) : List α :=
  (List.range n).map fun i => buf ((head + i) % cap)

/-- Store `xs` cell by cell from position `pos` on, around the end. -/
def put (cap : ℕ) (buf : ℕ → α) : ℕ → List α → (ℕ → α)
  | _, [] => buf
  | pos, x :: xs => put cap (Function.update buf (pos % cap) x) (pos + 1) xs

variable {cap : ℕ}

@[simp] theorem length_contents (buf : ℕ → α) (head n : ℕ) :
    (contents cap buf head n).length = n := by
  simp [contents]

@[simp] theorem contents_zero (buf : ℕ → α) (head : ℕ) : contents cap buf head 0 = [] := rfl

theorem getElem?_contents (buf : ℕ → α) (head n i : ℕ) :
    (contents cap buf head n)[i]? = if i < n then some (buf ((head + i) % cap)) else none := by
  by_cases hi : i < n
  · simp [contents, hi]
  · simp [contents, hi]

theorem contents_succ (buf : ℕ → α) (head n : ℕ) :
    contents cap buf head (n + 1) = buf (head % cap) :: contents cap buf (head + 1) n := by
  simp only [contents, List.range_succ_eq_map, List.map_cons, List.map_map, Nat.add_zero]
  congr 1
  refine List.map_congr_left fun i _ => ?_
  simp only [Function.comp_apply]
  congr 2
  omega

/-- Only the cell a position denotes matters, not the position. -/
theorem contents_mod (buf : ℕ → α) (head n : ℕ) :
    contents cap buf (head % cap) n = contents cap buf head n := by
  simp [contents]

theorem contents_drop (buf : ℕ → α) (head n k : ℕ) :
    (contents cap buf head n).drop k = contents cap buf (head + k) (n - k) := by
  refine List.ext_getElem? fun i => ?_
  rw [List.getElem?_drop, getElem?_contents, getElem?_contents]
  by_cases hi : k + i < n
  · rw [if_pos hi, if_pos (by omega), Nat.add_assoc]
  · rw [if_neg hi, if_neg (by omega)]

theorem contents_take (buf : ℕ → α) (head n k : ℕ) :
    (contents cap buf head n).take k = contents cap buf head (min k n) := by
  refine List.ext_getElem? fun i => ?_
  rw [List.getElem?_take, getElem?_contents, getElem?_contents]
  by_cases hk : i < k
  · by_cases hi : i < n
    · rw [if_pos hk, if_pos hi, if_pos (by omega)]
    · rw [if_pos hk, if_neg hi, if_neg (by omega)]
  · rw [if_neg hk, if_neg (by omega)]

/-! ### Storing -/

/-- Positions less than one turn apart denote different cells. -/
theorem mod_ne {a b : ℕ} (hab : a < b) (hlt : b - a < cap) : a % cap ≠ b % cap := by
  intro heq
  have hz : (b - a) % cap = 0 := Nat.sub_mod_eq_zero_of_mod_eq heq.symm
  rw [Nat.mod_eq_of_lt hlt] at hz
  omega

theorem put_of_forall_ne (buf : ℕ → α) (pos : ℕ) (xs : List α) {j : ℕ}
    (hj : ∀ i < xs.length, (pos + i) % cap ≠ j) : put cap buf pos xs j = buf j := by
  induction xs generalizing buf pos with
  | nil => rfl
  | cons x xs ih =>
    rw [put, ih]
    · refine Function.update_of_ne ?_ _ _
      have h0 := hj 0 (by simp)
      exact Ne.symm (by simpa using h0)
    · intro i hi
      have h1 := hj (i + 1) (by simpa using hi)
      rwa [show pos + 1 + i = pos + (i + 1) by omega]

theorem put_at (buf : ℕ → α) (pos : ℕ) (xs : List α) (hc : xs.length ≤ cap) {i : ℕ}
    (hi : i < xs.length) : put cap buf pos xs ((pos + i) % cap) = xs[i] := by
  induction xs generalizing buf pos i with
  | nil => simp at hi
  | cons x xs ih =>
    simp only [List.length_cons] at hc hi
    rw [put]
    cases i with
    | zero =>
      rw [put_of_forall_ne]
      · simp
      · intro i hi
        refine Ne.symm (mod_ne ?_ ?_) <;> omega
    | succ i =>
      rw [show pos + (i + 1) = pos + 1 + i by omega, ih _ _ (by omega) (by omega)]
      simp

/-- Storing behind a queue appends to it, as long as there is room. -/
theorem contents_put (buf : ℕ → α) (head n : ℕ) (xs : List α) (hc : n + xs.length ≤ cap) :
    contents cap (put cap buf (head + n) xs) head (n + xs.length)
      = contents cap buf head n ++ xs := by
  refine List.ext_getElem? fun i => ?_
  rw [getElem?_contents]
  by_cases hi : i < n
  · rw [if_pos (by omega), List.getElem?_append_left (by simpa using hi), getElem?_contents,
      if_pos hi, put_of_forall_ne]
    intro j hj
    refine Ne.symm (mod_ne ?_ ?_) <;> omega
  · rw [List.getElem?_append_right (by simpa using Nat.le_of_not_lt hi), length_contents]
    by_cases hlt : i < n + xs.length
    · have hput := put_at buf (head + n) xs (show xs.length ≤ cap by omega)
        (show i - n < xs.length by omega)
      rw [show head + n + (i - n) = head + i by omega] at hput
      rw [if_pos hlt, hput, List.getElem?_eq_getElem (show i - n < xs.length by omega)]
    · rw [if_neg hlt, List.getElem?_eq_none (by omega)]

/-- Storing may start from the reduced position. -/
theorem put_mod (buf : ℕ → α) (pos : ℕ) (xs : List α) :
    put cap buf (pos % cap) xs = put cap buf pos xs := by
  induction xs generalizing buf pos with
  | nil => rfl
  | cons x xs ih =>
    rw [put, put, Nat.mod_mod, ← ih, ← ih _ (pos + 1), Nat.mod_add_mod]

/-! ### Copies in two pieces -/

/-- A copy out of the ring: up to the wrap point, then from the start. -/
theorem read_two_pieces (buf : ℕ → α) {head n : ℕ} (hh : head < cap) (hn : n ≤ cap) :
    Block.read buf head (min (cap - head) n) ++ Block.read buf 0 (n - min (cap - head) n)
      = contents cap buf head n := by
  refine List.ext_getElem? fun i => ?_
  rw [getElem?_contents]
  by_cases hi : i < min (cap - head) n
  · rw [List.getElem?_append_left (by simpa using hi), Block.getElem?_read, if_pos hi,
      if_pos (by omega), Nat.mod_eq_of_lt (by omega)]
  · rw [List.getElem?_append_right (by simpa using Nat.le_of_not_lt hi), Block.getElem?_read,
      Block.length_read]
    by_cases hlt : i < n
    · have hmod : (head + i) % cap = i - (cap - head) := by
        rw [show head + i = i - (cap - head) + cap by omega, Nat.add_mod_right,
          Nat.mod_eq_of_lt (by omega)]
      rw [if_pos (by omega), if_pos hlt, hmod]
      congr 2
      omega
    · rw [if_neg (by omega), if_neg hlt]

/-- A copy into the ring: up to the wrap point, then from the start. -/
theorem write_two_pieces (buf : ℕ → α) {pos : ℕ} (xs : List α) (hp : pos < cap)
    (hc : xs.length ≤ cap) :
    Block.write (Block.write buf pos (xs.take (min (cap - pos) xs.length))) 0
        (xs.drop (min (cap - pos) xs.length))
      = put cap buf pos xs := by
  funext j
  by_cases hex : ∃ i < xs.length, (pos + i) % cap = j
  · obtain ⟨i, hi, rfl⟩ := hex
    rw [put_at buf pos xs hc hi]
    by_cases hw : i < cap - pos
    · -- the cell is written by the first piece and lies behind the second
      have hmod : (pos + i) % cap = pos + i := Nat.mod_eq_of_lt (by omega)
      rw [hmod, Block.write_of_ge _ _ (by simp only [List.length_drop]; omega),
        Block.write_at _ _ _ (by simp only [List.length_take]; omega), List.getElem_take]
    · have hmod : (pos + i) % cap = 0 + (i - (cap - pos)) := by
        rw [show pos + i = i - (cap - pos) + cap by omega, Nat.add_mod_right,
          Nat.mod_eq_of_lt (by omega)]
        omega
      rw [hmod, Block.write_at _ _ _ (by simp only [List.length_drop]; omega), List.getElem_drop]
      congr 1
      omega
  · have hne : ∀ i < xs.length, (pos + i) % cap ≠ j := fun i hi h => hex ⟨i, hi, h⟩
    rw [put_of_forall_ne _ _ _ hne]
    have hfirst : ¬ (pos ≤ j ∧ j < pos + min (cap - pos) xs.length) := by
      rintro ⟨h₁, h₂⟩
      refine hne (j - pos) (by omega) ?_
      rw [show pos + (j - pos) = j by omega, Nat.mod_eq_of_lt (by omega)]
    have hsecond : xs.length - min (cap - pos) xs.length ≤ j := by
      by_contra hlt
      refine hne (j + (cap - pos)) (by omega) ?_
      rw [show pos + (j + (cap - pos)) = j + cap by omega, Nat.add_mod_right,
        Nat.mod_eq_of_lt (by omega)]
    rw [Block.write_of_ge _ _ (by simp only [List.length_drop]; omega)]
    by_cases hj : j < pos
    · exact Block.write_of_lt _ _ hj
    · exact Block.write_of_ge _ _ (by simp only [List.length_take]; omega)

end Ring

end CannedBsd.Lib
