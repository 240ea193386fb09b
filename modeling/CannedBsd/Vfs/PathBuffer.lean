import CannedBsd.Vfs.Normalize

/-!
# Normalization in its buffer

`cb_test_path_normalize` builds its result in place: it truncates the output at a stored start for
`..` and appends behind the used part otherwise. Here the loop runs on the output array itself, with
every store recorded. The array mirrors the list of kept components, no store leaves the buffer, and
the call fails exactly when one of the prefixes it builds does not fit.

* `cbTestPathNormalize_eq`: what the call returns, from the list of components alone.
* `pathNormalizeBuffer_spec`: the array holds what the list version returns, and no store is outside of it.
* `normalization_canonical`: results are canonical and their own normal forms, and the call fails exactly for
  a prefix that does not fit.
-/

namespace CannedBsd

/-! ### The loop on the array -/

/-- The local variables of `cb_test_path_normalize`, the output array and the indices written. -/
structure Scratch where
  starts : List ℕ
  used : ℕ
  memory : ℕ → UInt8
  touched : List ℕ

namespace Scratch

/-- `output[i] = b`. -/
def put (s : Scratch) (i : ℕ) (b : UInt8) : Scratch :=
  { s with memory := Function.update s.memory i b, touched := i :: s.touched }

/-- `memcpy(output + i, ...)`. -/
def copy (s : Scratch) : ℕ → Bytes → Scratch
  | _, [] => s
  | i, b :: bs => (s.put i b).copy (i + 1) bs

end Scratch

/-- One round of the loop of `cb_test_path_normalize`. -/
def copyComponent (outputSize : ℕ) (s : Scratch) (component : Bytes) : Scratch × Option Errno :=
  if component = [dot] then (s, none)
  else if component = [dot, dot] then
    match s.starts with
    | [] => (s, none)
    | start :: starts => ({ s with starts := starts, used := start }.put start 0, none)
  else if s.starts.length = cbPathMax / 2 then (s, some .enametoolong)
  else
    let s := { s with starts := s.used :: s.starts }
    if 1 < s.used ∧ outputSize ≤ s.used + 1 then (s, some .enametoolong)
    else
      let s := if 1 < s.used then { s.put s.used slash with used := s.used + 1 } else s
      if outputSize ≤ s.used + component.length then (s, some .enametoolong)
      else
        let s := { s.copy s.used component with used := s.used + component.length }
        (s.put s.used 0, none)

def copyComponents (outputSize : ℕ) : Scratch → List Bytes → Scratch × Option Errno
  | s, [] => (s, none)
  | s, c :: cs =>
    match copyComponent outputSize s c with
    | (s, some e) => (s, some e)
    | (s, none) => copyComponents outputSize s cs

/-- `cb_test_path_normalize` on an output array with arbitrary contents. -/
def pathNormalizeBuffer (cwd path : Bytes) (outputSize : ℕ) (memory : ℕ → UInt8) : Scratch × Option Errno :=
  if outputSize < 2 ∨ cwd.head? ≠ some slash then (⟨[], 1, memory, []⟩, some .einval)
  else if cbPathMax * 2 ≤ (absoluteInput cwd path).length then (⟨[], 1, memory, []⟩, some .enametoolong)
  else
    copyComponents outputSize (((⟨[], 1, memory, []⟩ : Scratch).put 0 slash).put 1 0)
      (components (absoluteInput cwd path))

/-! ### Stores -/

namespace Scratch

variable (s : Scratch)

theorem put_memory_self (i : ℕ) (b : UInt8) : (s.put i b).memory i = b := Function.update_self _ _ _

theorem put_memory_of_ne {i j : ℕ} (h : j ≠ i) (b : UInt8) : (s.put i b).memory j = s.memory j :=
  Function.update_of_ne h _ _

theorem copy_starts (bs : Bytes) : ∀ (s : Scratch) (i : ℕ), (s.copy i bs).starts = s.starts := by
  induction bs with
  | nil => exact fun s i => rfl
  | cons b bs ih => exact fun s i => ih (s.put i b) (i + 1)

theorem copy_memory_below (bs : Bytes) : ∀ (s : Scratch) {i j : ℕ}, j < i → (s.copy i bs).memory j = s.memory j := by
  induction bs with
  | nil => exact fun s i j h => rfl
  | cons b bs ih =>
    intro s i j h
    rw [copy, ih (s.put i b) (by omega), put_memory_of_ne s (by omega)]

theorem copy_memory (bs : Bytes) :
    ∀ (s : Scratch) (i : ℕ) {j : ℕ} (h : j < bs.length), (s.copy i bs).memory (i + j) = bs[j] := by
  induction bs with
  | nil => exact fun s i j h => absurd h (Nat.not_lt_zero j)
  | cons b bs ih =>
    intro s i j h
    rw [copy]
    cases j with
    | zero =>
      show ((s.put i b).copy (i + 1) bs).memory i = b
      rw [copy_memory_below bs _ (Nat.lt_add_one i), put_memory_self]
    | succ j =>
      have hj := ih (s.put i b) (i + 1) (j := j) (by simpa using h)
      rw [show i + (j + 1) = i + 1 + j by omega, hj]
      rfl

theorem copy_touched (bs : Bytes) :
    ∀ (s : Scratch) (i : ℕ) {j : ℕ}, j ∈ (s.copy i bs).touched → j ∈ s.touched ∨ j < i + bs.length := by
  induction bs with
  | nil => exact fun s i j h => .inl h
  | cons b bs ih =>
    intro s i j h
    rcases ih (s.put i b) (i + 1) h with h | h
    · rcases List.mem_cons.mp h with rfl | h
      · right
        simp
      · exact .inl h
    · right
      simp only [List.length_cons]
      omega

end Scratch

/-! ### The array mirrors the kept components -/

/-- The canonical prefix fits the output and the array of starts. -/
def PrefixFits (outputSize : ℕ) (kept : List Bytes) : Prop :=
  (render kept).length ≤ outputSize - 1 ∧ kept.length ≤ cbPathMax / 2

/-- The array holds the rendered components and the final `NUL`, and no store was out of bounds. -/
structure Mirrors (outputSize : ℕ) (s : Scratch) (kept : List Bytes) : Prop where
  starts : s.starts = startsOf kept
  used : s.used = (render kept).length
  room : s.used < outputSize
  depth : kept.length ≤ cbPathMax / 2
  bytes : ∀ i (h : i < (render kept).length), s.memory i = (render kept)[i]
  final : s.memory s.used = 0
  touched : ∀ i ∈ s.touched, i < outputSize

theorem render_length_snoc {kept : List Bytes} (hk : ∀ x ∈ kept, x ≠ []) (c : Bytes) :
    (render (kept ++ [c])).length =
      (if 1 < (render kept).length then (render kept).length + 1 else (render kept).length) + c.length := by
  rw [render_snoc, List.length_append]
  by_cases hnil : kept = []
  · subst hnil
    rfl
  · rw [if_neg hnil, if_pos ((one_lt_length_render hk).mpr hnil), List.length_append]
    rfl

theorem render_pos (kept : List Bytes) : 0 < (render kept).length := by
  cases kept with
  | nil => decide
  | cons k kept => simp [render, joined]

theorem render_dropLast_le (kept : List Bytes) : (render kept.dropLast).length ≤ (render kept).length := by
  cases kept using List.reverseRecOn with
  | nil => rfl
  | append_singleton kept k =>
    rw [List.dropLast_concat, render_snoc]
    split
    · rename_i hnil
      subst hnil
      simp [render]
    · simp only [List.length_append]
      omega

theorem PrefixFits.dropLast {size : ℕ} {kept : List Bytes} (h : PrefixFits size kept) :
    PrefixFits size kept.dropLast := by
  have hlen := render_dropLast_le kept
  have hdepth : kept.dropLast.length ≤ kept.length := by simp
  exact ⟨hlen.trans h.1, hdepth.trans h.2⟩

/-- The bytes of a component, behind a slash unless it is the first. -/
theorem Mirrors.append {size : ℕ} {s : Scratch} {kept : List Bytes} {c : Bytes} (h : Mirrors size s kept)
    (hk : ∀ x ∈ kept, x ≠ []) (hfit : PrefixFits size (kept ++ [c])) (hsize : 2 ≤ size) :
    let s₁ : Scratch := { s with starts := s.used :: s.starts }
    let s₂ : Scratch := if 1 < s₁.used then { s₁.put s₁.used slash with used := s₁.used + 1 } else s₁
    let s₃ : Scratch := { s₂.copy s₂.used c with used := s₂.used + c.length }
    Mirrors size (s₃.put s₃.used 0) (kept ++ [c]) := by
  intro s₁ s₂ s₃
  have hlen := render_length_snoc hk c
  have hused : s₂.used = if 1 < (render kept).length then (render kept).length + 1 else (render kept).length := by
    show (if 1 < s.used then _ else _ : Scratch).used = _
    rw [h.used]
    split <;> simp [s₁, h.used]
  have hprefix : ∀ i (hi : i < (render kept).length), s₂.memory i = (render kept)[i] := by
    intro i hi
    rw [← h.bytes i hi]
    show (if 1 < s.used then _ else _ : Scratch).memory i = _
    split
    · exact s₁.put_memory_of_ne (by show i ≠ s.used; have := h.used; omega) slash
    · rfl
  have hslash : 1 < (render kept).length → s₂.memory (render kept).length = slash := by
    intro hone
    show (if 1 < s.used then _ else _ : Scratch).memory _ = _
    rw [if_pos (by rw [h.used]; exact hone), ← h.used]
    exact s₁.put_memory_self s.used slash
  -- what is in front of the component, with its slash
  have hfront : ∃ pre : Bytes, (pre.length = s₂.used ∧ render (kept ++ [c]) = pre ++ c) ∧
      ∀ i (hi : i < pre.length), s₂.memory i = pre[i] := by
    refine ⟨if kept = [] then [slash] else render kept ++ [slash], ⟨?_, render_snoc kept c⟩, ?_⟩
    · have happ := congrArg List.length (render_snoc kept c)
      rw [hlen, ← hused, List.length_append] at happ
      omega
    · by_cases hnil : kept = []
      · subst hnil
        simp only [if_pos]
        exact hprefix
      · simp only [if_neg hnil]
        have hone := (one_lt_length_render hk).mpr hnil
        intro i hi
        rw [List.length_append, List.length_singleton] at hi
        by_cases hlt : i < (render kept).length
        · rw [List.getElem_append_left hlt]
          exact hprefix i hlt
        · have heq : i = (render kept).length := by omega
          subst heq
          rw [List.getElem_append_right (Nat.le_refl _), hslash hone]
          simp
  have htouched : ∀ i ∈ s₂.touched, i < size := by
    intro i hi
    have hi' : i ∈ (if 1 < s.used then { s₁.put s₁.used slash with used := s₁.used + 1 } else s₁ : Scratch).touched := hi
    split at hi'
    · rcases List.mem_cons.mp hi' with rfl | hi'
      · exact h.room
      · exact h.touched i hi'
    · exact h.touched i hi'
  have hstarts : s₂.starts = s.used :: s.starts := by
    show (if 1 < s.used then _ else _ : Scratch).starts = _
    split <;> rfl
  have htotal : s₃.used = (render (kept ++ [c])).length := by
    rw [hlen, ← hused]
  have hroom : s₃.used < size := by
    have := hfit.1
    omega
  refine ⟨?_, htotal, hroom, hfit.2, fun i hi => ?_, s₃.put_memory_self _ 0, fun i hi => ?_⟩
  · show (s₂.copy s₂.used c).starts = _
    rw [Scratch.copy_starts, hstarts, startsOf_snoc, h.used, h.starts]
  · have hne : i ≠ s₃.used := by omega
    rw [s₃.put_memory_of_ne hne]
    show (s₂.copy s₂.used c).memory i = _
    obtain ⟨pre, hpre, hsame⟩ := hfront
    rw [List.getElem_of_eq hpre.2 hi]
    by_cases hlt : i < s₂.used
    · rw [Scratch.copy_memory_below c s₂ hlt, List.getElem_append_left (by rw [hpre.1]; exact hlt)]
      exact hsame i (by rw [hpre.1]; exact hlt)
    · obtain ⟨j, rfl⟩ : ∃ j, i = s₂.used + j := ⟨i - s₂.used, by omega⟩
      have hj : j < c.length := by
        have : s₃.used = s₂.used + c.length := rfl
        omega
      rw [Scratch.copy_memory c s₂ s₂.used hj, List.getElem_append_right (by rw [hpre.1]; omega)]
      simp only [hpre.1, Nat.add_sub_cancel_left]
  · rcases List.mem_cons.mp hi with rfl | hi
    · exact hroom
    · rcases Scratch.copy_touched c s₂ s₂.used hi with hi | hi
      · exact htouched i hi
      · exact hi.trans hroom

/-- Truncation at the start of the last component. -/
theorem Mirrors.truncate {size : ℕ} {s : Scratch} {kept : List Bytes} {k : Bytes}
    (h : Mirrors size s (kept ++ [k])) :
    Mirrors size ({ s with starts := startsOf kept, used := (render kept).length }.put (render kept).length 0) kept := by
  have hlen : (render kept).length ≤ (render (kept ++ [k])).length := by
    have hdrop := render_dropLast_le (kept ++ [k])
    rwa [List.dropLast_concat] at hdrop
  have hroom : (render kept).length < size := by
    have := h.room
    have := h.used
    omega
  refine ⟨rfl, rfl, hroom, ?_, fun i hi => ?_, Scratch.put_memory_self _ _ _, fun i hi => ?_⟩
  · have hdepth := h.depth
    rw [List.length_append, List.length_singleton] at hdepth
    omega
  · rw [Scratch.put_memory_of_ne _ (by omega)]
    have hbytes := h.bytes i (by omega)
    rw [hbytes, List.getElem_of_eq (render_snoc kept k)]
    by_cases hnil : kept = []
    · subst hnil
      have hzero : i = 0 := by
        rw [render, if_pos rfl, List.length_singleton] at hi
        omega
      subst hzero
      rfl
    · simp only [if_neg hnil, List.append_assoc]
      rw [List.getElem_append_left hi]
  · rcases List.mem_cons.mp hi with rfl | hi
    · exact hroom
    · exact h.touched i hi

/-- Whether the next component fits, as the two length checks of the code say it. -/
theorem prefixFits_snoc {size : ℕ} {kept : List Bytes} {c : Bytes} (hk : ∀ x ∈ kept, x ≠ []) (hc : c ≠ [])
    (hsize : 2 ≤ size) :
    PrefixFits size (kept ++ [c]) ↔ kept.length < cbPathMax / 2 ∧
      ¬ (1 < (render kept).length ∧ size ≤ (render kept).length + 1) ∧
      ¬ size ≤ (if 1 < (render kept).length then (render kept).length + 1 else (render kept).length) + c.length := by
  have hpos := List.length_pos_of_ne_nil hc
  rw [PrefixFits, render_length_snoc hk c, List.length_append, List.length_singleton]
  split <;> constructor <;> intro h <;> refine ⟨?_, ?_⟩ <;> omega

theorem keep_fits {size : ℕ} {kept : List Bytes} {c : Bytes} (h : PrefixFits size kept)
    (hspecial : c = [dot] ∨ c = [dot, dot]) : PrefixFits size (keep kept c) := by
  rw [keep]
  split
  · exact h
  · rename_i hdot
    rw [if_pos (hspecial.resolve_left hdot)]
    exact h.dropLast

/-- A call that failed failed at its check or behind it. -/
theorem error_of_guard {α : Type} {p : Prop} [Decidable p] {e e' : Errno} {x : Except Errno α}
    (h : (if p then .error e else x) = .error e') : e' = e ∨ x = .error e' := by
  by_cases hp : p
  · rw [if_pos hp] at h
    cases h
    exact .inl rfl
  · rw [if_neg hp] at h
    exact .inr h

/-- One round on the list of kept components: the new prefix fits and is built, or the call fails. -/
theorem addComponent_eq {size : ℕ} {kept : List Bytes} {c : Bytes} (hk : ∀ x ∈ kept, x ≠ []) (hc : c ≠ [])
    (hsize : 2 ≤ size) (hfit : PrefixFits size kept) :
    (PrefixFits size (keep kept c) ∧
      addComponent size ⟨startsOf kept, render kept⟩ c = .ok ⟨startsOf (keep kept c), render (keep kept c)⟩) ∨
    ¬ PrefixFits size (keep kept c) ∧ addComponent size ⟨startsOf kept, render kept⟩ c = .error .enametoolong := by
  by_cases hspecial : c = [dot] ∨ c = [dot, dot]
  · left
    refine ⟨keep_fits hfit hspecial, ?_⟩
    cases ha : addComponent size ⟨startsOf kept, render kept⟩ c with
    | ok s => rw [addComponent_render hk ha]
    | error e =>
      rw [addComponent] at ha
      rcases hspecial with rfl | rfl
      · rw [if_pos rfl] at ha
        cases ha
      · rw [if_neg (by decide), if_pos rfl] at ha
        dsimp only at ha
        split at ha <;> cases ha
  · obtain ⟨hdot, hdots⟩ := not_or.mp hspecial
    have hkeep : keep kept c = kept ++ [c] := by rw [keep, if_neg hdot, if_neg hdots]
    have hfits := prefixFits_snoc hk hc hsize
    rw [← hkeep] at hfits
    cases ha : addComponent size ⟨startsOf kept, render kept⟩ c with
    | ok s =>
      left
      rw [addComponent_render hk ha]
      rw [addComponent, if_neg hdot, if_neg hdots] at ha
      obtain ⟨hdepth, ha⟩ := ok_of_guard ha
      obtain ⟨hsep, ha⟩ := ok_of_guard ha
      obtain ⟨hroom, -⟩ := ok_of_guard ha
      refine ⟨hfits.mpr ⟨?_, hsep, ?_⟩, rfl⟩
      · rw [length_startsOf] at hdepth
        exact lt_of_le_of_ne hfit.2 hdepth
      · dsimp only at hroom
        rw [apply_ite List.length, List.length_append] at hroom
        exact hroom
    | error e =>
      right
      have hnot : ¬ PrefixFits size (keep kept c) := by
        intro hyes
        obtain ⟨hdepth, hsep, hroom⟩ := hfits.mp hyes
        rw [addComponent, if_neg hdot, if_neg hdots, if_neg (by rw [length_startsOf]; omega), if_neg hsep] at ha
        dsimp only at ha
        rw [if_neg (by rw [apply_ite List.length, List.length_append]; exact hroom)] at ha
        cases ha
      refine ⟨hnot, ?_⟩
      rw [addComponent, if_neg hdot, if_neg hdots] at ha
      rcases error_of_guard ha with rfl | ha
      · rfl
      rcases error_of_guard ha with rfl | ha
      · rfl
      rcases error_of_guard ha with rfl | ha
      · rfl
      · cases ha

/-- The same round on the array, for any contents behind the used part. -/
theorem copyComponent_spec {size : ℕ} {s : Scratch} {kept : List Bytes} {c : Bytes} (hk : ∀ x ∈ kept, x ≠ [])
    (hc : c ≠ []) (hsize : 2 ≤ size) (h : Mirrors size s kept) :
    (∀ i ∈ (copyComponent size s c).1.touched, i < size) ∧
    ((PrefixFits size (keep kept c) ∧ (copyComponent size s c).2 = none ∧
        Mirrors size (copyComponent size s c).1 (keep kept c)) ∨
      ¬ PrefixFits size (keep kept c) ∧ (copyComponent size s c).2 = some .enametoolong) := by
  have hfit : PrefixFits size kept := by
    refine ⟨?_, h.depth⟩
    have := h.used
    have := h.room
    omega
  rw [copyComponent, keep]
  by_cases hdot : c = [dot]
  · rw [if_pos hdot, if_pos hdot]
    exact ⟨h.touched, .inl ⟨hfit, rfl, h⟩⟩
  rw [if_neg hdot, if_neg hdot]
  by_cases hdots : c = [dot, dot]
  · rw [if_pos hdots, if_pos hdots]
    cases kept using List.reverseRecOn with
    | nil =>
      have hstarts : s.starts = [] := h.starts
      rw [hstarts]
      exact ⟨h.touched, .inl ⟨hfit, rfl, h⟩⟩
    | append_singleton kept k =>
      have hstarts : s.starts = (render kept).length :: startsOf kept := by rw [h.starts, startsOf_snoc]
      have hcut := h.truncate
      rw [hstarts, List.dropLast_concat]
      refine ⟨hcut.touched, .inl ⟨?_, rfl, hcut⟩⟩
      have hdrop := hfit.dropLast
      rwa [List.dropLast_concat] at hdrop
  rw [if_neg hdots, if_neg hdots]
  have hfits := prefixFits_snoc hk hc hsize
  rw [← h.used] at hfits
  have hdepth : s.starts.length = kept.length := by rw [h.starts, length_startsOf]
  by_cases hfull : s.starts.length = cbPathMax / 2
  · rw [if_pos hfull]
    refine ⟨h.touched, .inr ⟨fun hyes => ?_, rfl⟩⟩
    have := (hfits.mp hyes).1
    omega
  rw [if_neg hfull]
  dsimp only
  by_cases hsep : 1 < s.used ∧ size ≤ s.used + 1
  · rw [if_pos hsep]
    exact ⟨h.touched, .inr ⟨fun hyes => (hfits.mp hyes).2.1 hsep, rfl⟩⟩
  rw [if_neg hsep]
  -- the separator is stored before the length of the component is checked
  have hslash : ∀ i ∈ (if 1 < s.used then { ({ s with starts := s.used :: s.starts } : Scratch).put s.used slash with
      used := s.used + 1 } else { s with starts := s.used :: s.starts } : Scratch).touched, i < size := by
    intro i hi
    split at hi
    · rcases List.mem_cons.mp hi with rfl | hi
      · exact h.room
      · exact h.touched i hi
    · exact h.touched i hi
  by_cases hroom : size ≤ (if 1 < s.used then s.used + 1 else s.used) + c.length
  · rw [if_pos (by rw [apply_ite Scratch.used]; exact hroom)]
    exact ⟨hslash, .inr ⟨fun hyes => (hfits.mp hyes).2.2 hroom, rfl⟩⟩
  · rw [if_neg (by rw [apply_ite Scratch.used]; exact hroom)]
    have hyes : PrefixFits size (kept ++ [c]) := hfits.mpr ⟨lt_of_le_of_ne h.depth (hdepth ▸ hfull), hsep, hroom⟩
    have hnext := h.append hk hyes hsize
    exact ⟨hnext.touched, .inl ⟨hyes, rfl, hnext⟩⟩

/-! ### Whole calls -/

/-- Every prefix of the components gives a canonical prefix that fits. -/
def AllFit (outputSize : ℕ) (kept cs : List Bytes) : Prop :=
  ∀ front, front <+: cs → PrefixFits outputSize (front.foldl keep kept)

theorem allFit_cons {size : ℕ} {kept cs : List Bytes} {c : Bytes} :
    AllFit size kept (c :: cs) ↔ PrefixFits size kept ∧ AllFit size (keep kept c) cs := by
  constructor
  · intro h
    refine ⟨h [] List.nil_prefix, fun front hfront => ?_⟩
    exact h (c :: front) (List.cons_prefix_cons.mpr ⟨rfl, hfront⟩)
  · rintro ⟨hkept, hrest⟩ front hfront
    cases front with
    | nil => exact hkept
    | cons d front =>
      obtain ⟨rfl, hrestfront⟩ := List.cons_prefix_cons.mp hfront
      exact hrest front hrestfront

theorem AllFit.all {size : ℕ} {kept cs : List Bytes} (h : AllFit size kept cs) :
    PrefixFits size (cs.foldl keep kept) :=
  h cs (List.prefix_refl cs)

theorem addComponents_eq {size : ℕ} {cs kept : List Bytes} (hk : ∀ x ∈ kept, x ≠ []) (hcs : ∀ c ∈ cs, c ≠ [])
    (hsize : 2 ≤ size) (hfit : PrefixFits size kept) :
    (AllFit size kept cs ∧ addComponents size ⟨startsOf kept, render kept⟩ cs =
      .ok ⟨startsOf (cs.foldl keep kept), render (cs.foldl keep kept)⟩) ∨
    ¬ AllFit size kept cs ∧ addComponents size ⟨startsOf kept, render kept⟩ cs = .error .enametoolong := by
  induction cs generalizing kept with
  | nil =>
    left
    refine ⟨fun front hfront => ?_, rfl⟩
    rw [List.prefix_nil.mp hfront]
    exact hfit
  | cons c cs ih =>
    rw [allFit_cons, addComponents]
    rcases addComponent_eq hk (hcs c (by simp)) hsize hfit with ⟨hnext, hadd⟩ | ⟨hnext, hadd⟩
    · rw [hadd]
      rcases ih (keep_ne_nil hk (hcs c (by simp))) (fun x hx => hcs x (by simp [hx])) hnext with h | h
      · exact .inl ⟨⟨hfit, h.1⟩, h.2⟩
      · exact .inr ⟨fun hall => h.1 hall.2, h.2⟩
    · rw [hadd]
      exact .inr ⟨fun hall => hnext (hall.2 [] List.nil_prefix), rfl⟩

theorem copyComponents_spec {size : ℕ} {cs kept : List Bytes} {s : Scratch} (hk : ∀ x ∈ kept, x ≠ [])
    (hcs : ∀ c ∈ cs, c ≠ []) (hsize : 2 ≤ size) (h : Mirrors size s kept) :
    (∀ i ∈ (copyComponents size s cs).1.touched, i < size) ∧
    ((AllFit size kept cs ∧ (copyComponents size s cs).2 = none ∧
        Mirrors size (copyComponents size s cs).1 (cs.foldl keep kept)) ∨
      ¬ AllFit size kept cs ∧ (copyComponents size s cs).2 = some .enametoolong) := by
  induction cs generalizing kept s with
  | nil =>
    refine ⟨h.touched, .inl ⟨fun front hfront => ?_, rfl, h⟩⟩
    rw [List.prefix_nil.mp hfront]
    refine ⟨?_, h.depth⟩
    have := h.used
    have := h.room
    show (render kept).length ≤ size - 1
    omega
  | cons c cs ih =>
    rw [allFit_cons, copyComponents]
    have hstep := copyComponent_spec hk (hcs c (by simp)) hsize h
    have hfit : PrefixFits size kept := by
      refine ⟨?_, h.depth⟩
      have := h.used
      have := h.room
      omega
    generalize copyComponent size s c = next at hstep
    obtain ⟨s', e⟩ := next
    rcases hstep with ⟨htouched, ⟨hnext, hnone, hmirrors⟩ | ⟨hnext, hsome⟩⟩
    · dsimp only at hnone
      subst hnone
      obtain ⟨hin, hcase⟩ := ih (keep_ne_nil hk (hcs c (by simp))) (fun x hx => hcs x (by simp [hx])) hmirrors
      refine ⟨hin, ?_⟩
      rcases hcase with hcase | hcase
      · exact .inl ⟨⟨hfit, hcase.1⟩, hcase.2⟩
      · exact .inr ⟨fun hall => hcase.1 hall.2, hcase.2⟩
    · dsimp only at hsome
      subst hsome
      exact ⟨htouched, .inr ⟨fun hall => hnext (hall.2 [] List.nil_prefix), rfl⟩⟩

/-- The components of a text: the non-empty pieces between its slashes. -/
theorem components_eq_splitOn (text : Bytes) : components text = (text.splitOn slash).filter (· ≠ []) := by
  have hfrom : ∀ (text current : Bytes), componentsFrom current text =
      (List.splitOnPPrepend (· == slash) text current.reverse).filter (· ≠ []) := by
    intro text
    induction text with
    | nil =>
      intro current
      rw [componentsFrom, List.splitOnPPrepend_nil, List.reverse_reverse]
      split
      · rename_i hnil
        subst hnil
        rfl
      · rename_i hne
        simp [hne]
    | cons b text ih =>
      intro current
      rw [componentsFrom, List.splitOnPPrepend_cons_eq_if]
      by_cases hb : b = slash
      · rw [if_pos hb, if_pos (beq_iff_eq.mpr hb), List.reverse_reverse, ih []]
        split
        · rename_i hnil
          subst hnil
          rfl
        · rename_i hne
          simp [hne]
      · rw [if_neg hb, if_neg (by simpa using hb), ih]
        simp
  exact hfrom text []

/-- The pieces of a normal path between its slashes are its components. -/
theorem splitOn_render {kept : List Bytes} (hk : ∀ c ∈ kept, goodName c) (hne : kept ≠ []) :
    ((render kept).drop 1).splitOn slash = kept := by
  have hjoin : ∀ cs : List Bytes, cs ≠ [] → joined cs = slash :: [slash].intercalate cs := by
    intro cs
    induction cs with
    | nil => exact fun h => absurd rfl h
    | cons c cs ih =>
      intro _
      cases cs with
      | nil => simp [joined]
      | cons d cs =>
        have hrest := ih (by simp)
        rw [show joined (c :: d :: cs) = slash :: (c ++ joined (d :: cs)) by simp [joined], hrest,
          List.intercalate_cons_cons]
        simp
  rw [render, if_neg hne, hjoin kept hne, List.drop_one, List.tail_cons]
  exact List.splitOn_intercalate slash (fun c hc => (hk c hc).component.2) hne

/-- A normal path other than `/` ends in the last byte of a name. -/
theorem getLast_render {kept : List Bytes} (hk : ∀ c ∈ kept, goodName c) (hne : kept ≠ []) :
    (render kept).getLast? ≠ some slash := by
  cases kept using List.reverseRecOn with
  | nil => exact absurd rfl hne
  | append_singleton kept k =>
    obtain ⟨hnil, hslash⟩ := (hk k (by simp)).component
    rw [render_snoc, List.getLast?_append_of_ne_nil _ hnil]
    intro hlast
    exact hslash (List.mem_of_getLast? hlast)

/-! ### Normal paths are not longer than their input -/

theorem joined_append (as bs : List Bytes) : joined (as ++ bs) = joined as ++ joined bs :=
  List.flatMap_append

theorem joined_cons (c : Bytes) (cs : List Bytes) : (joined (c :: cs)).length = c.length + 1 + (joined cs).length := by
  rw [joined, List.flatMap_cons, List.length_append, List.length_cons]
  rfl

theorem joined_components_le (text : Bytes) :
    ∀ current : Bytes, (joined (componentsFrom current text)).length ≤ current.length + text.length + 1 := by
  induction text with
  | nil =>
    intro current
    rw [componentsFrom]
    split <;> simp [joined]
  | cons b text ih =>
    intro current
    rw [componentsFrom]
    split
    · have hrest := ih []
      split
      · simp only [List.length_cons, List.length_nil] at hrest ⊢
        omega
      · rw [joined_cons]
        simp only [List.length_cons, List.length_nil] at hrest ⊢
        omega
    · have hrest := ih (current ++ [b])
      simp only [List.length_append, List.length_cons, List.length_nil] at hrest ⊢
      omega

theorem joined_keep_le (kept : List Bytes) (c : Bytes) :
    (joined (keep kept c)).length ≤ (joined kept).length + (c.length + 1) := by
  rw [keep]
  split
  · omega
  split
  · cases kept using List.reverseRecOn with
    | nil => simp [joined]
    | append_singleton kept k =>
      rw [List.dropLast_concat, joined_append, List.length_append]
      omega
  · rw [joined_append, List.length_append, joined_cons]
    simp [joined]

theorem joined_foldl_keep_le (cs : List Bytes) :
    ∀ kept : List Bytes, (joined (cs.foldl keep kept)).length ≤ (joined kept).length + (joined cs).length := by
  induction cs with
  | nil => exact fun kept => Nat.le_add_right _ _
  | cons c cs ih =>
    intro kept
    have hrest := ih (keep kept c)
    have hone := joined_keep_le kept c
    rw [List.foldl_cons, joined_cons]
    omega

theorem absoluteInput_cons {cwd : Bytes} (hcwd : cwd.head? = some slash) (path : Bytes) :
    ∃ rest, absoluteInput cwd path = slash :: rest := by
  rw [absoluteInput]
  split
  · rename_i hpath
    exact ⟨path.tail, (List.cons_head?_tail hpath).symm⟩
  · obtain ⟨rest, rfl⟩ : ∃ rest, cwd = slash :: rest := ⟨cwd.tail, (List.cons_head?_tail hcwd).symm⟩
    exact ⟨_, rfl⟩

theorem render_keptComponents_le {cwd : Bytes} (hcwd : cwd.head? = some slash) (path : Bytes) :
    (render (keptComponents cwd path)).length ≤ (absoluteInput cwd path).length := by
  rw [keptComponents]
  obtain ⟨rest, hrest⟩ := absoluteInput_cons hcwd path
  rw [hrest]
  have hskip : components (slash :: rest) = components rest := by
    rw [components, componentsFrom, if_pos rfl, if_pos rfl, components]
  have hin := joined_components_le rest []
  have hfold := joined_foldl_keep_le (components rest) []
  rw [hskip, render]
  split
  · simp
  · simp only [components] at hfold ⊢
    simp only [joined, List.flatMap_nil, List.length_nil, List.length_cons] at hin hfold ⊢
    omega

/-! ### Normalization of a normal path -/

theorem PrefixFits.front {size : ℕ} {front rest : List Bytes} (h : PrefixFits size (front ++ rest)) :
    PrefixFits size front := by
  induction rest using List.reverseRecOn with
  | nil => rwa [List.append_nil] at h
  | append_singleton rest c ih =>
    have hdrop := h.dropLast
    rw [← List.append_assoc, List.dropLast_concat] at hdrop
    exact ih hdrop

/-- What the call returns, from the list of components alone. -/
theorem cbTestPathNormalize_eq {cwd path : Bytes} {size : ℕ} (hcwd : cwd.head? = some slash) (hsize : 2 ≤ size)
    (hinput : (absoluteInput cwd path).length < cbPathMax * 2) :
    (AllFit size [] (components (absoluteInput cwd path)) ∧
      cbTestPathNormalize cwd path size = .ok (render (keptComponents cwd path))) ∨
    ¬ AllFit size [] (components (absoluteInput cwd path)) ∧
      cbTestPathNormalize cwd path size = .error .enametoolong := by
  have hroot : PrefixFits size [] := by
    refine ⟨?_, Nat.zero_le _⟩
    show 1 ≤ size - 1
    omega
  have hcs : ∀ c ∈ components (absoluteInput cwd path), c ≠ [] := fun c hc => (components_mem hc).1
  have hloop := addComponents_eq (List.forall_mem_nil _) hcs hsize hroot
  have hstart : (⟨startsOf [], render []⟩ : Normal) = ⟨[], [slash]⟩ := rfl
  rw [hstart] at hloop
  rw [cbTestPathNormalize, if_neg (by simp [hcwd]; omega), if_neg (by omega)]
  rcases hloop with ⟨hall, hok⟩ | ⟨hnot, herror⟩
  · rw [hok]
    exact .inl ⟨hall, rfl⟩
  · rw [herror]
    exact .inr ⟨hnot, rfl⟩

theorem normalize_again {cwd path cwd' : Bytes} {size size' : ℕ} {out : Bytes} (hcwd : cwd.head? = some slash)
    (hcwd' : cwd'.head? = some slash) (hsize : 2 ≤ size) (h : cbTestPathNormalize cwd path size = .ok out)
    (hfits : out.length < size') : cbTestPathNormalize cwd' out size' = .ok out := by
  have hout := normalize_eq_render h
  have hgood := keptComponents_good cwd path
  have hle := render_keptComponents_le hcwd path
  have hinput : (absoluteInput cwd path).length < cbPathMax * 2 := by
    rw [cbTestPathNormalize] at h
    obtain ⟨-, h⟩ := ok_of_guard h
    obtain ⟨hlt, -⟩ := ok_of_guard h
    omega
  have hdepth : (keptComponents cwd path).length ≤ cbPathMax / 2 := by
    rcases cbTestPathNormalize_eq hcwd hsize hinput with ⟨hall, -⟩ | ⟨-, herror⟩
    · exact hall.all.2
    · rw [herror] at h
      cases h
  subst hout
  generalize keptComponents cwd path = kept at hgood hle hdepth hfits
  have habs : absoluteInput cwd' (render kept) = render kept := by
    rw [absoluteInput, if_pos]
    cases kept with
    | nil => rfl
    | cons k kept => simp [render, joined]
  have hcomponents : components (render kept) = kept := components_render fun c hc => (hgood c hc).component
  have hkept : keptComponents cwd' (render kept) = kept := by
    rw [keptComponents, habs, hcomponents, foldl_keep_good hgood, List.nil_append]
  have hpos := render_pos kept
  have hagain := @cbTestPathNormalize_eq cwd' (render kept) size' hcwd' (by omega) (by rw [habs]; omega)
  rw [habs, hcomponents, hkept] at hagain
  rcases hagain with ⟨-, hok⟩ | ⟨hnot, -⟩
  · exact hok
  · refine absurd (fun front hfront => ?_) hnot
    obtain ⟨rest, rfl⟩ := hfront
    rw [foldl_keep_good fun c hc => hgood c (by simp [hc]), List.nil_append]
    have hfit : PrefixFits size' (front ++ rest) := ⟨by omega, hdepth⟩
    exact hfit.front

/-- The array holds what the list version returns, and no store is outside of it. -/
theorem pathNormalizeBuffer_spec {cwd path : Bytes} {size : ℕ} (memory : ℕ → UInt8) (hcwd : cwd.head? = some slash)
    (hsize : 2 ≤ size) :
    (∀ i ∈ (pathNormalizeBuffer cwd path size memory).1.touched, i < size) ∧
    (∀ e, cbTestPathNormalize cwd path size = .error e → (pathNormalizeBuffer cwd path size memory).2 = some e) ∧
    ∀ out, cbTestPathNormalize cwd path size = .ok out → (pathNormalizeBuffer cwd path size memory).2 = none ∧
      (∀ i (h : i < out.length), (pathNormalizeBuffer cwd path size memory).1.memory i = out[i]) ∧
      (pathNormalizeBuffer cwd path size memory).1.memory out.length = 0 := by
  have hguard : ¬ (size < 2 ∨ cwd.head? ≠ some slash) := by
    simp [hcwd]
    omega
  by_cases hinput : cbPathMax * 2 ≤ (absoluteInput cwd path).length
  · rw [pathNormalizeBuffer, if_neg hguard, if_pos hinput, cbTestPathNormalize, if_neg hguard, if_pos hinput]
    refine ⟨List.forall_mem_nil _, fun e he => ?_, fun out hout => ?_⟩
    · cases he
      rfl
    · cases hout
  · rw [pathNormalizeBuffer, if_neg hguard, if_neg hinput]
    have hstart : Mirrors size (((⟨[], 1, memory, []⟩ : Scratch).put 0 slash).put 1 0) [] := by
      refine ⟨rfl, rfl, hsize, Nat.zero_le _, ?_, rfl, ?_⟩ <;> intro i hi
      · have hzero : i = 0 := by
          simp only [render, if_pos, List.length_singleton] at hi
          omega
        subst hzero
        rfl
      · have : i = 1 ∨ i = 0 := by simpa [Scratch.put] using hi
        omega
    have hcs : ∀ c ∈ components (absoluteInput cwd path), c ≠ [] := fun c hc => (components_mem hc).1
    obtain ⟨htouched, hcase⟩ := copyComponents_spec (List.forall_mem_nil _) hcs hsize hstart
    refine ⟨htouched, ?_⟩
    rcases cbTestPathNormalize_eq hcwd hsize (not_le.mp hinput) with ⟨hall, hlist⟩ | ⟨hnot, hlist⟩
    · obtain ⟨-, hnone, hmirrors⟩ := hcase.resolve_right fun h => h.1 hall
      rw [hlist]
      refine ⟨fun e he => ?_, fun out hout => ?_⟩
      · cases he
      cases hout
      have hfinal := hmirrors.final
      rw [hmirrors.used] at hfinal
      exact ⟨hnone, hmirrors.bytes, hfinal⟩
    · obtain ⟨-, hsome⟩ := hcase.resolve_left fun h => hnot h.1
      rw [hlist]
      refine ⟨fun e he => ?_, fun out hout => ?_⟩
      · cases he
        exact hsome
      · cases hout

/-! ### The contract of normalization -/

/-- The components of the normalized text, as the documentation of paths counts them. -/
def pathComponents (cwd path : Bytes) : List Bytes :=
  ((absoluteInput cwd path).splitOn slash).filter (· ≠ [])

/-- The canonical path of some components: `.` is skipped and `..` drops the last kept one. -/
def canonical (cs : List Bytes) : Bytes := render (cs.foldl keep [])

/-- **Normalization is canonical and exact.**  A result is the canonical path of the components, it is
its own normal form from every directory, the call fails exactly for a text, a prefix or a depth that
is too large, and on the array it stays inside of the output. -/
theorem normalization_canonical (cwd path : Bytes) (size : ℕ) (memory : ℕ → UInt8)
    (hcwd : cwd.head? = some slash) (hsize : 2 ≤ size) :
    (∀ out, cbTestPathNormalize cwd path size = .ok out →
      out = canonical (pathComponents cwd path) ∧
      (out = [slash] ∨ out.getLast? ≠ some slash ∧
        ∀ c ∈ (out.drop 1).splitOn slash, c ≠ [] ∧ c ≠ [dot] ∧ c ≠ [dot, dot]) ∧
      ∀ cwd' size', cwd'.head? = some slash → out.length < size' →
        cbTestPathNormalize cwd' out size' = .ok out) ∧
    (∀ e, cbTestPathNormalize cwd path size = .error e → e = .enametoolong) ∧
    (cbTestPathNormalize cwd path size = .error .enametoolong ↔
      2 * cbPathMax - 1 < (absoluteInput cwd path).length ∨
      ∃ front, front <+: pathComponents cwd path ∧
        (size - 1 < (canonical front).length ∨ cbPathMax / 2 < (front.foldl keep []).length)) ∧
    (∀ i ∈ (pathNormalizeBuffer cwd path size memory).1.touched, i < size) ∧
    (∀ e, cbTestPathNormalize cwd path size = .error e → (pathNormalizeBuffer cwd path size memory).2 = some e) ∧
    ∀ out, cbTestPathNormalize cwd path size = .ok out → (pathNormalizeBuffer cwd path size memory).2 = none ∧
      (∀ i (h : i < out.length), (pathNormalizeBuffer cwd path size memory).1.memory i = out[i]) ∧
      (pathNormalizeBuffer cwd path size memory).1.memory out.length = 0 := by
  have hcomponents : pathComponents cwd path = components (absoluteInput cwd path) :=
    (components_eq_splitOn _).symm
  have hguard : ¬ (size < 2 ∨ cwd.head? ≠ some slash) := by
    simp [hcwd]
    omega
  have hshort : ¬ 2 * cbPathMax - 1 < (absoluteInput cwd path).length →
      (absoluteInput cwd path).length < cbPathMax * 2 := by
    have hpos : 0 < cbPathMax := by decide
    omega
  have hlong : 2 * cbPathMax - 1 < (absoluteInput cwd path).length →
      cbTestPathNormalize cwd path size = .error .enametoolong := by
    intro hlt
    have hpos : 0 < cbPathMax := by decide
    rw [cbTestPathNormalize, if_neg hguard, if_pos (by omega)]
  have hfront : ∀ cs : List Bytes, ¬ AllFit size [] cs ↔ ∃ front, front <+: cs ∧
      (size - 1 < (canonical front).length ∨ cbPathMax / 2 < (front.foldl keep []).length) := by
    intro cs
    simp only [AllFit, PrefixFits, canonical, not_forall, not_and_or, not_le, exists_prop]
  rw [hcomponents]
  refine ⟨fun out hout => ⟨normalize_eq_render hout, ?_, fun cwd' size' hcwd' hlen => ?_⟩, fun e he => ?_, ?_,
    pathNormalizeBuffer_spec memory hcwd hsize⟩
  · have hgood := keptComponents_good cwd path
    rw [normalize_eq_render hout]
    by_cases hnil : keptComponents cwd path = []
    · left
      rw [hnil]
      rfl
    · refine .inr ⟨getLast_render hgood hnil, ?_⟩
      rw [splitOn_render hgood hnil]
      intro c hc
      exact ⟨(hgood c hc).1, (hgood c hc).2.1, (hgood c hc).2.2.1⟩
  · exact normalize_again hcwd hcwd' hsize hout hlen
  · by_cases hlt : 2 * cbPathMax - 1 < (absoluteInput cwd path).length
    · rw [hlong hlt] at he
      cases he
      rfl
    · rcases cbTestPathNormalize_eq hcwd hsize (hshort hlt) with ⟨-, hok⟩ | ⟨-, herror⟩
      · rw [hok] at he
        cases he
      · rw [herror] at he
        cases he
        rfl
  · rw [← hfront]
    by_cases hlt : 2 * cbPathMax - 1 < (absoluteInput cwd path).length
    · exact ⟨fun _ => .inl hlt, fun _ => hlong hlt⟩
    · rcases cbTestPathNormalize_eq hcwd hsize (hshort hlt) with ⟨hall, hok⟩ | ⟨hnot, herror⟩
      · rw [hok]
        constructor
        · intro h
          cases h
        · rintro (h | h)
          · exact absurd h hlt
          · exact absurd hall h
      · exact ⟨fun _ => .inr hnot, fun _ => herror⟩

/-- `a/../b` from `/` in a buffer of four bytes. -/
theorem normalization_canonical_sibling :
    cbTestPathNormalize [slash] [97, slash, dot, dot, slash, 98] 4 = .ok [slash, 98] ∧
      ([slash, 98] : Bytes) = canonical (pathComponents [slash] [97, slash, dot, dot, slash, 98]) ∧
      ∀ i ∈ (pathNormalizeBuffer [slash] [97, slash, dot, dot, slash, 98] 4 fun _ => 255).1.touched, i < 4 := by
  have hok : cbTestPathNormalize [slash] [97, slash, dot, dot, slash, 98] 4 = .ok [slash, 98] := by decide
  obtain ⟨hout, -, -, htouched, -⟩ :=
    normalization_canonical [slash] [97, slash, dot, dot, slash, 98] 4 (fun _ => 255) rfl (by decide)
  exact ⟨hok, (hout _ hok).1, htouched⟩

end CannedBsd
