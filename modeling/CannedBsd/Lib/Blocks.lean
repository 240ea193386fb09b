import CannedBsd.Lib.Ownership

/-!
# Programs on blocks

A program that works on allocated blocks reads and writes them, takes new ones from an allocator and gives
them back. Touching a block that is not live is a fault, and so is giving one back twice. The allocator may
refuse at any call. It is a function of the log of its calls, so it may hand out an address again once that
was given back.

A program is specified by the blocks it needs and the blocks it leaves. Whatever else is live is a frame it
does not touch. The rules at the end put such specifications together.

* `Meets.bind`: specifications of two programs compose, each with the blocks of the other as a frame.
* `Meets.take`, `Meets.give`, `Meets.load`, `Meets.store`, `Meets.move`: what the single accesses need and
  leave.
-/

namespace CannedBsd.Lib

variable {ι β : Type} [DecidableEq ι]

/-- The live blocks with their contents, and the calls of the allocator so far. -/
structure Store (ι β : Type) where
  get : ι → Option β
  log : List (HeapCall ι)

/-- An allocator. It hands out no block that is out, and none above its limit. -/
structure Allocator (ι : Type) [DecidableEq ι] where
  limit : ℕ
  allocate : List (HeapCall ι) → ℕ → Option ι
  resize : List (HeapCall ι) → ι → ℕ → Option ι
  fresh : ∀ {log : List (HeapCall ι)} {live : List ι} {size : ℕ} {a : ι}, replay log = some live →
    allocate log size = some a → a ∉ live ∧ size ≤ limit
  resized : ∀ {log : List (HeapCall ι)} {live : List ι} {size : ℕ} {old new : ι}, replay log = some live →
    resize log old size = some new → new ∉ live.erase old ∧ size ≤ limit

/-- A program on blocks; `none` is a fault. -/
abbrev Blocks (ι β α : Type) := StateT (Store ι β) Option α

namespace Blocks

/-- Stop with a fault. -/
def fault {α : Type} : Blocks ι β α := fun _ => none

/-- Take a block of this size, with these contents; `none` when the allocator refuses. -/
def take (A : Allocator ι) (size : ℕ) (contents : β) : Blocks ι β (Option ι) := fun s =>
  match A.allocate s.log size with
  | none => some (none, s)
  | some a => some (some a, ⟨Function.update s.get a (some contents), s.log ++ [.took a]⟩)

/-- Resize a block, which may move; its contents change by `f`. -/
def move (A : Allocator ι) (old : ι) (size : ℕ) (f : β → β) : Blocks ι β (Option ι) := fun s =>
  match s.get old with
  | none => none
  | some contents =>
    match A.resize s.log old size with
    | none => some (none, s)
    | some new =>
      some (some new,
        ⟨Function.update (Function.update s.get old none) new (some (f contents)), s.log ++ [.moved old new]⟩)

/-- Give a block back. -/
def give (a : ι) : Blocks ι β Unit := fun s =>
  match s.get a with
  | none => none
  | some _ => some ((), ⟨Function.update s.get a none, s.log ++ [.gave a]⟩)

/-- The contents of a block. -/
def load (a : ι) : Blocks ι β β := fun s =>
  match s.get a with
  | none => none
  | some contents => some (contents, s)

/-- Replace the contents of a block. -/
def store (a : ι) (contents : β) : Blocks ι β Unit := fun s =>
  match s.get a with
  | none => none
  | some _ => some ((), ⟨Function.update s.get a (some contents), s.log⟩)

end Blocks

/-- The live blocks are those of the list, each once, and the log is sound and agrees. -/
structure Holds (s : Store ι β) (cells : List (ι × β)) : Prop where
  get : ∀ a b, s.get a = some b ↔ (a, b) ∈ cells
  once : (cells.map Prod.fst).Nodup
  live : ∃ live, replay s.log = some live ∧ live.Perm (cells.map Prod.fst)

omit [DecidableEq ι] in
theorem not_mem_of_key {cells : List (ι × β)} {a : ι} (ha : a ∉ cells.map Prod.fst) (b : β) : (a, b) ∉ cells :=
  fun hm => ha (List.mem_map.mpr ⟨(a, b), hm, rfl⟩)

namespace Holds

variable {s : Store ι β} {cells cells' : List (ι × β)} {a : ι} {b : β}

theorem perm (h : Holds s cells) (hp : cells.Perm cells') : Holds s cells' := by
  have hp' := hp.map Prod.fst
  obtain ⟨live, hreplay, hlive⟩ := h.live
  refine ⟨fun a b => ?_, hp'.nodup_iff.mp h.once, live, hreplay, hlive.trans hp'⟩
  rw [h.get, hp.mem_iff]

theorem get_eq_none (h : Holds s cells) (ha : a ∉ cells.map Prod.fst) : s.get a = none := by
  cases hg : s.get a with
  | none => rfl
  | some b => exact absurd (List.mem_map_of_mem ((h.get a b).mp hg)) ha

/-- With no block held, none is out. -/
theorem nil_iff : Holds s [] ↔ (∀ a, s.get a = none) ∧ replay s.log = some [] := by
  constructor
  · intro h
    obtain ⟨live, hreplay, hlive⟩ := h.live
    rw [List.map_nil, List.perm_nil] at hlive
    rw [hlive] at hreplay
    exact ⟨fun a => h.get_eq_none (List.not_mem_nil), hreplay⟩
  · intro ⟨hget, hreplay⟩
    refine ⟨fun a b => ?_, List.nodup_nil, [], hreplay, .refl _⟩
    rw [hget]
    simp

theorem took (h : Holds s cells) (ha : a ∉ cells.map Prod.fst) (b : β) :
    Holds ⟨Function.update s.get a (some b), s.log ++ [.took a]⟩ ((a, b) :: cells) := by
  obtain ⟨live, hreplay, hlive⟩ := h.live
  refine ⟨fun x y => ?_, List.nodup_cons.mpr ⟨ha, h.once⟩, a :: live, ?_, hlive.cons a⟩
  · dsimp only
    rw [List.mem_cons]
    by_cases hx : x = a
    · rw [hx, Function.update_self]
      simp [not_mem_of_key ha y, eq_comm]
    · rw [Function.update_of_ne hx, h.get]
      simp [hx]
  · rw [replay_append, hreplay]
    exact if_neg fun hm => ha (hlive.mem_iff.mp hm)

theorem gave (h : Holds s ((a, b) :: cells)) :
    Holds ⟨Function.update s.get a none, s.log ++ [.gave a]⟩ cells := by
  obtain ⟨live, hreplay, hlive⟩ := h.live
  have hout := List.nodup_cons.mp h.once
  rw [List.map_cons] at hlive
  have hmem : a ∈ live := hlive.mem_iff.mpr (List.mem_cons_self ..)
  refine ⟨fun x y => ?_, hout.2, live.erase a, ?_, ?_⟩
  · dsimp only
    by_cases hx : x = a
    · rw [hx, Function.update_self]
      simp [not_mem_of_key hout.1 y]
    · rw [Function.update_of_ne hx, h.get, List.mem_cons]
      simp [hx]
  · rw [replay_append, hreplay]
    exact if_pos hmem
  · have hperm := hlive.erase a
    rwa [List.erase_cons_head] at hperm

theorem set (h : Holds s ((a, b) :: cells)) (b' : β) :
    Holds ⟨Function.update s.get a (some b'), s.log⟩ ((a, b') :: cells) := by
  obtain ⟨live, hreplay, hlive⟩ := h.live
  have hout := List.nodup_cons.mp h.once
  refine ⟨fun x y => ?_, h.once, live, hreplay, hlive⟩
  dsimp only
  rw [List.mem_cons]
  by_cases hx : x = a
  · rw [hx, Function.update_self]
    simp [not_mem_of_key hout.1 y, eq_comm]
  · rw [Function.update_of_ne hx, h.get, List.mem_cons]
    simp [hx]

theorem moved {new : ι} (h : Holds s ((a, b) :: cells)) (hnew : new ∉ cells.map Prod.fst) (b' : β) :
    Holds ⟨Function.update (Function.update s.get a none) new (some b'), s.log ++ [.moved a new]⟩
      ((new, b') :: cells) := by
  obtain ⟨live, hreplay, hlive⟩ := h.live
  have hout := List.nodup_cons.mp h.once
  rw [List.map_cons] at hlive
  have hmem : a ∈ live := hlive.mem_iff.mpr (List.mem_cons_self ..)
  have hperm : (live.erase a).Perm (cells.map Prod.fst) := by
    have hperm := hlive.erase a
    rwa [List.erase_cons_head] at hperm
  refine ⟨fun x y => ?_, List.nodup_cons.mpr ⟨hnew, hout.2⟩, new :: live.erase a, ?_, hperm.cons new⟩
  · dsimp only
    rw [List.mem_cons]
    by_cases hx : x = new
    · rw [hx, Function.update_self]
      simp [not_mem_of_key hnew y, eq_comm]
    · rw [Function.update_of_ne hx]
      by_cases hxa : x = a
      · rw [hxa, Function.update_self]
        simp [not_mem_of_key hout.1 y, hxa ▸ hx]
      · rw [Function.update_of_ne hxa, h.get, List.mem_cons]
        simp [hx, hxa]
  · rw [replay_append, hreplay]
    exact if_pos ⟨hmem, fun hm => hnew (hperm.mem_iff.mp hm)⟩

end Holds

/-! ### Specifications -/

/-- From the blocks `cells` and any frame the program ends without a fault, and the blocks it leaves beside
the frame are as `post` says. -/
def Meets {α : Type} (cells : List (ι × β)) (m : Blocks ι β α) (post : α → List (ι × β) → Prop) : Prop :=
  ∀ frame s, Holds s (cells ++ frame) →
    ∃ a s' cells', m s = some (a, s') ∧ post a cells' ∧ Holds s' (cells' ++ frame)

namespace Meets

variable {α γ : Type} {cells owned : List (ι × β)} {m : Blocks ι β α} {f : α → Blocks ι β γ}
  {mid post' : α → List (ι × β) → Prop} {post : γ → List (ι × β) → Prop}

theorem pure {x : γ} (h : post x cells) : Meets cells (Pure.pure x) post := fun _ s hs =>
  ⟨x, s, cells, rfl, h, hs⟩

/-- The first program uses the blocks `owned`, the others are a frame for it. -/
theorem bind (rest : List (ι × β)) (hm : Meets owned m mid) (hcells : cells.Perm (owned ++ rest))
    (hf : ∀ x cells', mid x cells' → Meets (cells' ++ rest) (f x) post) : Meets cells (m >>= f) post := by
  intro frame s hs
  have hsplit : Holds s (owned ++ (rest ++ frame)) := by
    rw [← List.append_assoc]
    exact hs.perm (hcells.append_right frame)
  obtain ⟨x, s', cells', hrun, hmid, hs'⟩ := hm _ s hsplit
  rw [← List.append_assoc] at hs'
  obtain ⟨y, s'', cells'', hrun', hpost, hs''⟩ := hf x cells' hmid frame s' hs'
  refine ⟨y, s'', cells'', ?_, hpost, hs''⟩
  change (m s).bind _ = _
  rw [hrun]
  exact hrun'

theorem perm {m : Blocks ι β γ} (hm : Meets owned m post) (hcells : cells.Perm owned) : Meets cells m post := by
  intro frame s hs
  exact hm frame s (hs.perm (hcells.append_right frame))

/-- A specification under a frame. -/
theorem frame (rest : List (ι × β)) (hm : Meets owned m mid) (hcells : cells.Perm (owned ++ rest))
    (h : ∀ x left, mid x left → ∃ cells', (left ++ rest).Perm cells' ∧ post' x cells') : Meets cells m post' := by
  intro frame s hs
  have hsplit : Holds s (owned ++ (rest ++ frame)) := by
    rw [← List.append_assoc]
    exact hs.perm (hcells.append_right frame)
  obtain ⟨x, s', left, hrun, hmid, hs'⟩ := hm _ s hsplit
  obtain ⟨cells', hperm, hpost⟩ := h x left hmid
  rw [← List.append_assoc] at hs'
  exact ⟨x, s', cells', hrun, hpost, hs'.perm (hperm.append_right frame)⟩

theorem take (A : Allocator ι) (size : ℕ) (b : β) :
    Meets [] (Blocks.take A size b) fun r cells =>
      r = none ∧ cells = [] ∨ ∃ a, r = some a ∧ size ≤ A.limit ∧ cells = [(a, b)] := by
  intro frame s hs
  rw [List.nil_append] at hs
  obtain ⟨live, hreplay, hlive⟩ := hs.live
  cases hg : A.allocate s.log size with
  | none => exact ⟨none, s, [], by rw [Blocks.take, hg], .inl ⟨rfl, rfl⟩, hs⟩
  | some a =>
    obtain ⟨hout, hsize⟩ := A.fresh hreplay hg
    have ha : a ∉ frame.map Prod.fst := fun hm => hout (hlive.mem_iff.mpr hm)
    exact ⟨some a, _, [(a, b)], by rw [Blocks.take, hg], .inr ⟨a, rfl, hsize, rfl⟩, hs.took ha b⟩

theorem give (a : ι) (b : β) : Meets [(a, b)] (Blocks.give a) fun _ cells => cells = [] := by
  intro frame s hs
  have hg : s.get a = some b := (hs.get a b).mpr (List.mem_cons_self ..)
  exact ⟨(), _, [], by rw [Blocks.give, hg], rfl, hs.gave⟩

theorem load (a : ι) (b : β) : Meets [(a, b)] (Blocks.load a) fun r cells => r = b ∧ cells = [(a, b)] := by
  intro frame s hs
  have hg : s.get a = some b := (hs.get a b).mpr (List.mem_cons_self ..)
  exact ⟨b, s, _, by rw [Blocks.load, hg], ⟨rfl, rfl⟩, hs⟩

theorem store (a : ι) (b b' : β) : Meets [(a, b)] (Blocks.store a b') fun _ cells => cells = [(a, b')] := by
  intro frame s hs
  have hg : s.get a = some b := (hs.get a b).mpr (List.mem_cons_self ..)
  exact ⟨(), _, _, by rw [Blocks.store, hg], rfl, hs.set b'⟩

theorem move (A : Allocator ι) (a : ι) (b : β) (size : ℕ) (g : β → β) :
    Meets [(a, b)] (Blocks.move A a size g) fun r cells =>
      r = none ∧ cells = [(a, b)] ∨ ∃ new, r = some new ∧ size ≤ A.limit ∧ cells = [(new, g b)] := by
  intro frame s hs
  have hg : s.get a = some b := (hs.get a b).mpr (List.mem_cons_self ..)
  obtain ⟨live, hreplay, hlive⟩ := hs.live
  cases hr : A.resize s.log a size with
  | none => exact ⟨none, s, _, by rw [Blocks.move, hg]; simp only [hr], .inl ⟨rfl, rfl⟩, hs⟩
  | some new =>
    obtain ⟨hout, hsize⟩ := A.resized hreplay hr
    have hnew : new ∉ frame.map Prod.fst := fun hm => by
      have herase := hlive.erase a
      rw [List.cons_append, List.map_cons, List.erase_cons_head] at herase
      exact hout (herase.mem_iff.mpr hm)
    refine ⟨some new, _, [(new, g b)], ?_, .inr ⟨new, rfl, hsize, rfl⟩, hs.moved hnew (g b)⟩
    rw [Blocks.move, hg]
    simp only [hr]

end Meets

end CannedBsd.Lib
