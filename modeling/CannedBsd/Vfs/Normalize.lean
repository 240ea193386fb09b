import CannedBsd.Vfs.Links

/-!
# Normal paths

A normal path is `/` or a `/` in front of each of a list of entry names. What
`cb_test_path_normalize` returns is the normal path of the components it keeps, and the loops that
read a normal path back, `resolve_normalized` and `resolve_parent`, see exactly these components.

* `normalize_eq_render`: a successful result is the normal path of the kept components.
* `resolveNormalized_render`, `resolveParent_render`: the loops read these components back.
-/

namespace CannedBsd

open CannedBsd.Lib

/-- Each component behind a slash. -/
def joined (cs : List Bytes) : Bytes := cs.flatMap fun c => slash :: c

/-- The normal path with these components. -/
def render (cs : List Bytes) : Bytes := if cs = [] then [slash] else joined cs

/-- One component of the input, applied to the components kept so far. -/
def keep (kept : List Bytes) (c : Bytes) : List Bytes :=
  if c = [dot] then kept else if c = [dot, dot] then kept.dropLast else kept ++ [c]

/-- The components that survive normalization. -/
def keptComponents (cwd path : Bytes) : List Bytes :=
  (components (absoluteInput cwd path)).foldl keep []

/-- Names without a meaning of their own are all kept. -/
theorem foldl_keep_good {cs : List Bytes} (hcs : ∀ c ∈ cs, goodName c) (kept : List Bytes) :
    cs.foldl keep kept = kept ++ cs := by
  induction cs generalizing kept with
  | nil => exact (List.append_nil kept).symm
  | cons c cs ih =>
    obtain ⟨-, hdot, hup, -⟩ := hcs c (by simp)
    rw [List.foldl_cons, keep, if_neg hdot, if_neg hup, ih fun x hx => hcs x (by simp [hx]), List.append_assoc]
    rfl

/-! ### Components -/

theorem componentsFrom_mem {current text c : Bytes} (hcur : slash ∉ current)
    (hc : c ∈ componentsFrom current text) : c ≠ [] ∧ slash ∉ c := by
  induction text generalizing current with
  | nil =>
    rw [componentsFrom] at hc
    split at hc
    · cases hc
    · rename_i hne
      rw [List.mem_singleton] at hc
      subst hc
      exact ⟨hne, hcur⟩
  | cons b text ih =>
    rw [componentsFrom] at hc
    split at hc
    · split at hc
      · exact ih (by simp) hc
      · rename_i hne
        rcases List.mem_cons.mp hc with rfl | hc
        · exact ⟨hne, hcur⟩
        · exact ih (by simp) hc
    · rename_i hb
      exact ih (by simp [hcur, Ne.symm hb]) hc

theorem components_mem {text c : Bytes} (hc : c ∈ components text) : c ≠ [] ∧ slash ∉ c :=
  componentsFrom_mem (by simp) hc

theorem componentsFrom_append {current c text : Bytes} (hc : slash ∉ c) :
    componentsFrom current (c ++ text) = componentsFrom (current ++ c) text := by
  induction c generalizing current with
  | nil => simp
  | cons b c ih =>
    simp only [List.mem_cons, not_or] at hc
    rw [List.cons_append, componentsFrom, if_neg (Ne.symm hc.1), ih hc.2, List.append_assoc]
    rfl

theorem components_joined {cs : List Bytes} (hcs : ∀ c ∈ cs, c ≠ [] ∧ slash ∉ c) :
    components (joined cs) = cs := by
  -- the piece in front of a slash is finished by it
  have hrest : ∀ (current : Bytes) (cs : List Bytes), current ≠ [] → (∀ c ∈ cs, c ≠ [] ∧ slash ∉ c) →
      componentsFrom current (joined cs) = current :: cs := by
    intro current cs hcur hcs
    induction cs generalizing current with
    | nil => simp [joined, componentsFrom, hcur]
    | cons c cs ih =>
      obtain ⟨hc, hs⟩ := hcs c (by simp)
      rw [show joined (c :: cs) = slash :: (c ++ joined cs) by simp [joined], componentsFrom,
        if_pos rfl, if_neg hcur, componentsFrom_append hs, List.nil_append,
        ih c hc fun x hx => hcs x (by simp [hx])]
  cases cs with
  | nil => rfl
  | cons c cs =>
    obtain ⟨hc, hs⟩ := hcs c (by simp)
    rw [components, show joined (c :: cs) = slash :: (c ++ joined cs) by simp [joined], componentsFrom,
      if_pos rfl, if_pos rfl, componentsFrom_append hs, List.nil_append]
    exact hrest c cs hc fun x hx => hcs x (by simp [hx])

theorem components_render {cs : List Bytes} (hcs : ∀ c ∈ cs, c ≠ [] ∧ slash ∉ c) :
    components (render cs) = cs := by
  rw [render]
  split
  · rename_i hnil
    subst hnil
    rfl
  · exact components_joined hcs

/-! ### The last component -/

theorem splitLast_append {front name : Bytes} (hname : slash ∉ name) :
    splitLast (front ++ slash :: name) = some (front, name) := by
  have hrev : (front ++ slash :: name).reverse = name.reverse ++ slash :: front.reverse := by simp
  have hall : ∀ b ∈ name.reverse, decide (b ≠ slash) = true := by
    intro b hb
    simp only [decide_eq_true_eq]
    rintro rfl
    exact hname (List.mem_reverse.mp hb)
  have hdrop : (name.reverse ++ slash :: front.reverse).dropWhile (· ≠ slash) = slash :: front.reverse := by
    rw [List.dropWhile_append_of_pos hall]
    simp
  have htake : (name.reverse ++ slash :: front.reverse).takeWhile (· ≠ slash) = name.reverse := by
    rw [List.takeWhile_append_of_pos hall]
    simp
  rw [splitLast, hrev, hdrop, htake]
  simp

theorem splitLast_render_nil : splitLast (render []) = some ([], []) := by decide

theorem splitLast_render_snoc (cs : List Bytes) {c : Bytes} (hc : slash ∉ c) :
    splitLast (render (cs ++ [c])) = some (joined cs, c) := by
  rw [render, if_neg (by simp), show joined (cs ++ [c]) = joined cs ++ slash :: c by simp [joined]]
  exact splitLast_append hc

/-- Reading the front of a normal path back. -/
theorem components_front {cs : List Bytes} (hcs : ∀ c ∈ cs, c ≠ [] ∧ slash ∉ c) :
    components (if joined cs = [] then [slash] else joined cs) = cs := by
  split
  · rename_i hnil
    cases cs with
    | nil => rfl
    | cons c cs => simp [joined] at hnil
  · exact components_joined hcs

/-! ### The normalization loop -/

/-- The starts the loop has stored when it has kept these components. -/
def startsOf (kept : List Bytes) : List ℕ :=
  ((List.range kept.length).map fun i => (render (kept.take i)).length).reverse

theorem length_startsOf (kept : List Bytes) : (startsOf kept).length = kept.length := by
  rw [startsOf, List.length_reverse, List.length_map, List.length_range]

theorem startsOf_snoc (kept : List Bytes) (c : Bytes) :
    startsOf (kept ++ [c]) = (render kept).length :: startsOf kept := by
  rw [startsOf, startsOf, List.length_append, List.length_singleton, List.range_succ, List.map_append,
    List.reverse_append]
  simp only [List.map_cons, List.map_nil, List.reverse_singleton, List.singleton_append,
    List.take_left']
  congr 2
  refine List.map_congr_left fun i hi => ?_
  rw [List.take_append_of_le_length (Nat.le_of_lt (List.mem_range.mp hi))]

theorem render_snoc (kept : List Bytes) (c : Bytes) :
    render (kept ++ [c]) = (if kept = [] then [slash] else render kept ++ [slash]) ++ c := by
  cases kept with
  | nil => simp [render, joined]
  | cons k kept => simp [render, joined]

/-- A rendered path has more than the first slash exactly when a component was kept. -/
theorem one_lt_length_render {kept : List Bytes} (hk : ∀ c ∈ kept, c ≠ []) :
    1 < (render kept).length ↔ kept ≠ [] := by
  cases kept with
  | nil => simp [render]
  | cons k kept =>
    have hne := hk k (by simp)
    have hlen := List.length_pos_of_ne_nil hne
    simp [render, joined]
    omega

/-- A call that returned passed its check. -/
theorem ok_of_guard {α : Type} {p : Prop} [Decidable p] {e : Errno} {x : Except Errno α} {a : α}
    (h : (if p then .error e else x) = .ok a) : ¬ p ∧ x = .ok a := by
  by_cases hp : p
  · rw [if_pos hp] at h
    cases h
  · rw [if_neg hp] at h
    exact ⟨hp, h⟩

theorem addComponent_render {size : ℕ} {kept : List Bytes} {c : Bytes} {s : Normal}
    (hk : ∀ x ∈ kept, x ≠ [])
    (h : addComponent size ⟨startsOf kept, render kept⟩ c = .ok s) :
    s = ⟨startsOf (keep kept c), render (keep kept c)⟩ := by
  rw [addComponent] at h
  by_cases h₁ : c = [dot]
  · rw [if_pos h₁] at h
    cases h
    rw [keep, if_pos h₁]
  rw [if_neg h₁] at h
  by_cases h₂ : c = [dot, dot]
  · rw [if_pos h₂] at h
    rw [keep, if_neg h₁, if_pos h₂]
    cases kept using List.reverseRecOn with
    | nil =>
      simp only [startsOf, List.length_nil, List.range_zero, List.map_nil, List.reverse_nil] at h
      cases h
      rfl
    | append_singleton kept k =>
      simp only [startsOf_snoc] at h
      cases h
      rw [List.dropLast_concat]
      congr 1
      -- cutting at the stored start removes the component and its slash
      rw [render_snoc]
      split
      · rename_i hnil
        subst hnil
        simp [render]
      · rw [List.append_assoc, List.take_left']
        rfl
  rw [if_neg h₂] at h
  obtain ⟨-, h⟩ := ok_of_guard h
  obtain ⟨-, h⟩ := ok_of_guard h
  obtain ⟨-, h⟩ := ok_of_guard h
  cases h
  rw [keep, if_neg h₁, if_neg h₂, startsOf_snoc, render_snoc]
  congr 2
  by_cases hnil : kept = []
  · subst hnil
    simp [render]
  · rw [if_neg hnil, if_pos ((one_lt_length_render hk).mpr hnil)]

theorem keep_ne_nil {kept : List Bytes} {c : Bytes} (hk : ∀ x ∈ kept, x ≠ []) (hc : c ≠ []) :
    ∀ x ∈ keep kept c, x ≠ [] := by
  intro x hx
  rw [keep] at hx
  split at hx
  · exact hk x hx
  split at hx
  · exact hk x (List.dropLast_subset _ hx)
  · rcases List.mem_append.mp hx with hx | hx
    · exact hk x hx
    · rw [List.mem_singleton] at hx
      exact hx ▸ hc

/-- The state of the loop is determined by the kept components. -/
theorem addComponents_state {size : ℕ} {cs kept : List Bytes} {s : Normal} (hk : ∀ x ∈ kept, x ≠ [])
    (hcs : ∀ c ∈ cs, c ≠ []) (h : addComponents size ⟨startsOf kept, render kept⟩ cs = .ok s) :
    s = ⟨startsOf (cs.foldl keep kept), render (cs.foldl keep kept)⟩ := by
  induction cs generalizing kept with
  | nil =>
    cases h
    rfl
  | cons c cs ih =>
    rw [addComponents] at h
    cases ha : addComponent size ⟨startsOf kept, render kept⟩ c with
    | error e => simp [ha] at h
    | ok s' =>
      simp only [ha] at h
      have hs' := addComponent_render hk ha
      subst hs'
      exact ih (keep_ne_nil hk (hcs c (by simp))) (fun x hx => hcs x (by simp [hx])) h

theorem addComponents_render {size : ℕ} {cs kept : List Bytes} {s : Normal}
    (hk : ∀ x ∈ kept, x ≠ []) (hcs : ∀ c ∈ cs, c ≠ [])
    (h : addComponents size ⟨startsOf kept, render kept⟩ cs = .ok s) :
    s.output = render (cs.foldl keep kept) :=
  congrArg Normal.output (addComponents_state hk hcs h)

theorem keep_good {kept : List Bytes} {c : Bytes} (hk : ∀ x ∈ kept, goodName x)
    (hc : c ≠ [] ∧ slash ∉ c) : ∀ x ∈ keep kept c, goodName x := by
  intro x hx
  rw [keep] at hx
  split at hx
  · exact hk x hx
  rename_i h₁
  split at hx
  · exact hk x (List.dropLast_subset _ hx)
  rename_i h₂
  rcases List.mem_append.mp hx with hx | hx
  · exact hk x hx
  · rw [List.mem_singleton] at hx
    subst hx
    exact ⟨hc.1, h₁, h₂, hc.2⟩

theorem keptComponents_good (cwd path : Bytes) : ∀ c ∈ keptComponents cwd path, goodName c := by
  have hfold : ∀ cs kept : List Bytes, (∀ c ∈ cs, c ≠ [] ∧ slash ∉ c) → (∀ c ∈ kept, goodName c) →
      ∀ c ∈ cs.foldl keep kept, goodName c := by
    intro cs
    induction cs with
    | nil =>
      intro kept _ hk
      exact hk
    | cons c cs ih =>
      intro kept hcs hk
      exact ih (keep kept c) (fun x hx => hcs x (by simp [hx])) (keep_good hk (hcs c (by simp)))
  exact hfold _ [] (fun c hc => components_mem hc) (by simp)

/-- **Normalization.**  A successful result is the normal path of the kept components. -/
theorem normalize_eq_render {cwd path out : Bytes} {size : ℕ}
    (h : cbTestPathNormalize cwd path size = .ok out) : out = render (keptComponents cwd path) := by
  rw [cbTestPathNormalize] at h
  split at h
  · cases h
  split at h
  · cases h
  split at h
  · cases h
  · rename_i s hs
    cases h
    exact addComponents_render (List.forall_mem_nil _) (fun c hc => (components_mem hc).1) hs

/-- The normal path a task's path argument denotes. -/
theorem normalizeForTask_eq {v : Vfs} {view : View} {path out : Bytes}
    (h : normalizeForTask v view path = .ok out) :
    ∃ cs, out = render cs ∧ ∀ c ∈ cs, goodName c := by
  rw [normalizeForTask] at h
  split at h
  · cases h
  · exact ⟨_, normalize_eq_render h, keptComponents_good _ _⟩

/-! ### Resolving normal paths -/

theorem goodName.component {c : Bytes} (h : goodName c) : c ≠ [] ∧ slash ∉ c := ⟨h.1, h.2.2.2⟩

theorem resolveNormalized_render (v : Vfs) {view : View} {root : NodeId} (hr : view.root = some root)
    {cs : List Bytes} (hcs : ∀ c ∈ cs, goodName c) :
    resolveNormalized v view (render cs) = resolveFrom v root cs := by
  rw [resolveNormalized, hr, components_render fun c hc => (hcs c hc).component]

/-- The parent of a normal path: the front is resolved and the last component is the name. -/
theorem resolveParent_render {v : Vfs} {view : View} {root parent : NodeId} {name : Bytes}
    (hr : view.root = some root) {cs : List Bytes} (hcs : ∀ c ∈ cs, goodName c)
    (h : resolveParent v view (render cs) = .ok (parent, name)) :
    ∃ front, cs = front ++ [name] ∧ resolveFrom v root front = .ok parent := by
  cases cs using List.reverseRecOn with
  | nil => simp [resolveParent, splitLast_render_nil] at h
  | append_singleton front c =>
    have hc := hcs c (by simp)
    have hf : ∀ x ∈ front, x ≠ [] ∧ slash ∉ x := fun x hx => (hcs x (by simp [hx])).component
    simp only [resolveParent, splitLast_render_snoc front hc.component.2, if_neg hc.1] at h
    rw [resolveNormalized, hr, components_front hf] at h
    dsimp only at h
    cases hres : resolveFrom v root front with
    | error e => simp [hres] at h
    | ok p =>
      simp only [hres, Except.ok.injEq, Prod.mk.injEq] at h
      obtain ⟨rfl, rfl⟩ := h
      exact ⟨front, rfl, hres⟩

end CannedBsd
