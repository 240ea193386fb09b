import CannedBsd.Kernel.Table
import CannedBsd.Kernel.Roster

/-!
# The environment vector

A task keeps its environment as an allocated array of pointers that ends with `NULL`. `api_getenv`,
`api_setenv` and `api_unsetenv` each search the array by themselves and edit it in place. Here they run
on the cells of the array. The array refines the list of strings the kernel model keeps, and the three
calls are those of a map, except that `unsetenv` takes out one string only.

* `environment_mapLaws_iff`: the calls obey the laws of a map for a name exactly when at most one string sets
  it.
* `unsetenv_leaves_second`: with two such strings `unsetenv` leaves the second.
* `apiGetenv_refines`, `apiSetenv_refines`, `apiUnsetenv_refines`: the calls of the kernel model are those on
  the cells.
-/

namespace CannedBsd

open CannedBsd.Lib

/-- The cells of an array of pointers to strings; `none` is `NULL`. -/
abbrev Cells := List (Option Bytes)

namespace Cells

/-- The strings up to the first `NULL`. -/
def strings : Cells → List Bytes
  | some entry :: rest => entry :: strings rest
  | _ => []

/-- The array ends with a `NULL`, and it is an object of the host. -/
structure Terminated (cells : Cells) : Prop where
  ended : none ∈ cells
  small : 8 * cells.length ≤ int64Max

end Cells

/-- An environment as `string_vector_copy` makes it and the calls leave it. -/
structure StringVector where
  cells : Cells
  terminated : cells.Terminated

namespace Environ

open Cells

variable (h : Host)

/-! ### The calls on the array -/

/-- The comparison of the three search loops: `strncmp` finds the name in front, and `=` is behind it. -/
def setsName (name entry : Bytes) : Bool :=
  decide (entry.take name.length = name) && decide (entry[name.length]? = some equalsSign)

/-- The loop of `string_vector_count` from a cell on; `none` stands for `SIZE_MAX`. -/
def countFrom : ℕ → Cells → Option ℕ
  | count, some _ :: rest => if count = sizeMax / 8 - 1 then none else countFrom (count + 1) rest
  | count, _ => some count

def stringVectorCount (cells : Cells) : Option ℕ := countFrom 0 cells

/-- The copy of the strings, when every allocation is granted. -/
def stringVectorCopy (vector : List Bytes) : Option Cells :=
  if h.allocate .environment = true ∧ 8 * (vector.length + 1) ≤ int64Max then
    some (vector.map some ++ [none])
  else none

/-- The loop of `api_getenv`. -/
def lookup (name : Bytes) : Cells → Option Bytes
  | some entry :: rest =>
    if setsName name entry then some (entry.drop (name.length + 1)) else lookup name rest
  | _ => none

def apiGetenv (cells : Cells) (name : Bytes) : Option Bytes × Option Errno :=
  if validEnvironmentName name then (lookup name cells, none) else (none, some .einval)

/-- The loop `for (index = 0; index < count; ++index)` of `api_setenv` and `api_unsetenv`, with the number
of turns that are left: where it stops. -/
def searchFrom (name : Bytes) : ℕ → ℕ → Cells → ℕ
  | left + 1, index, some entry :: rest =>
    if setsName name entry then index else searchFrom name left (index + 1) rest
  | _, index, _ => index

/-- The array after `cb_resize` to `count` cells. -/
def resizedCells (cells : Cells) (count : ℕ) : Cells :=
  cells.take count ++
    (List.range (count - cells.length)).map fun i => if h.tail i = 0 then none else some [h.tail i]

def apiSetenv (cells : Cells) (name value : Bytes) (overwrite : Bool) : Cells × Reply :=
  if validEnvironmentName name = false then (cells, .fail .einval)
  else if sizeMax - 2 < value.length ∨ sizeMax - value.length - 2 < name.length then (cells, .fail .enomem)
  else
    match stringVectorCount cells with
    | none => (cells, .fail .enomem)
    | some count =>
      let index := searchFrom name count 0 cells
      if index < count ∧ overwrite = false then (cells, ⟨0, [], none⟩)
      else if h.allocate .environment = false then (cells, .fail .enomem)
      else
        let entry := name ++ [equalsSign] ++ value
        if index < count then (cells.set index (some entry), .done 0)
        else if h.grants ((count + 2) * 8 % (sizeMax + 1)) = false then (cells, .fail .enomem)
        else (((resizedCells h cells (count + 2)).set count (some entry)).set (count + 1) none, .done 0)

/-- `memmove` of `size` cells from behind `index` to `index`. -/
def moveDown (cells : Cells) (index size : ℕ) : Cells :=
  cells.take index ++ (cells.drop (index + 1)).take size ++ cells.drop (index + size)

def apiUnsetenv (cells : Cells) (name : Bytes) : Cells × Reply :=
  if validEnvironmentName name = false then (cells, .fail .einval)
  else
    let count := (stringVectorCount cells).getD sizeMax
    let index := searchFrom name count 0 cells
    if index < count then (moveDown cells index (count - index), .done 0) else (cells, .done 0)

end Environ

/-! ### The first match in a list -/

section FirstMatch

variable {α : Type} {p q : α → Bool}

theorem find?_set_findIdx {l : List α} {a : α} (hl : l.findIdx p < l.length) (ha : p a = true) :
    (l.set (l.findIdx p) a).find? p = some a := by
  induction l with
  | nil => simp at hl
  | cons x l ih =>
    rw [List.findIdx_cons] at hl ⊢
    cases hx : p x with
    | true => simp [ha]
    | false =>
      simp only [hx, cond_false, List.length_cons, Nat.add_lt_add_iff_right] at hl
      simp [hx, ih hl]

theorem find?_set_findIdx_other {l : List α} {a : α} (hpq : ∀ x, p x = true → q x = false) (ha : q a = false) :
    (l.set (l.findIdx p) a).find? q = l.find? q := by
  induction l with
  | nil => rfl
  | cons x l ih =>
    rw [List.findIdx_cons]
    cases hx : p x with
    | true => simp [ha, hpq x hx]
    | false => simp [List.find?_cons, ih]

theorem eraseIdx_findIdx (l : List α) : l.eraseIdx (l.findIdx p) = l.eraseP p := by
  induction l with
  | nil => rfl
  | cons x l ih =>
    rw [List.findIdx_cons, List.eraseP_cons]
    cases hx : p x with
    | true => simp
    | false => simp [ih]

theorem find?_eraseP_other {l : List α} (hpq : ∀ x, p x = true → q x = false) :
    (l.eraseP p).find? q = l.find? q := by
  induction l with
  | nil => rfl
  | cons x l ih =>
    rw [List.eraseP_cons]
    cases hx : p x with
    | true => simp [hpq x hx]
    | false => simp [List.find?_cons, ih]

/-- After the first match is gone, there is no match exactly when there was one at most. -/
theorem find?_eraseP_eq_none_iff (l : List α) : (l.eraseP p).find? p = none ↔ l.countP p ≤ 1 := by
  induction l with
  | nil => simp
  | cons x l ih =>
    rw [List.eraseP_cons, List.countP_cons]
    cases hx : p x with
    | true =>
      simp only [cond_true, if_true]
      rw [List.find?_eq_none, ← List.countP_eq_zero]
      omega
    | false => simpa [hx] using ih

end FirstMatch

/-! ### The strings of the array -/

namespace Cells

/-- The array with these strings, its `NULL` and what is left behind it. -/
def layOut (ss : List Bytes) (rest : Cells) : Cells := ss.map some ++ none :: rest

theorem Terminated.layOut {cells : Cells} (h : cells.Terminated) :
    ∃ rest, cells = Cells.layOut (strings cells) rest := by
  obtain ⟨hend, -⟩ := h
  induction cells with
  | nil => simp at hend
  | cons c cells ih =>
    cases c with
    | none => exact ⟨cells, rfl⟩
    | some entry =>
      obtain ⟨rest, hrest⟩ := ih (by simpa using hend)
      refine ⟨rest, ?_⟩
      rw [strings]
      exact congrArg (some entry :: ·) hrest

theorem strings_layOut (ss : List Bytes) (rest : Cells) : strings (layOut ss rest) = ss := by
  induction ss with
  | nil => rfl
  | cons s ss ih => exact congrArg (s :: ·) ih

theorem length_layOut (ss : List Bytes) (rest : Cells) :
    (layOut ss rest).length = ss.length + 1 + rest.length := by
  rw [layOut, List.length_append, List.length_map, List.length_cons]
  omega

theorem ended_layOut (ss : List Bytes) (rest : Cells) : none ∈ layOut ss rest := by
  simp [layOut]

theorem take_layOut (ss : List Bytes) (rest : Cells) : (layOut ss rest).take ss.length = ss.map some := by
  rw [layOut, List.take_append_of_le_length (by simp), List.take_of_length_le (by simp)]

theorem set_layOut {ss : List Bytes} {rest : Cells} {i : ℕ} (hi : i < ss.length) (entry : Bytes) :
    (layOut ss rest).set i (some entry) = layOut (ss.set i entry) rest := by
  rw [layOut, layOut, List.set_append_left _ _ (by simpa using hi), List.map_set]

end Cells

namespace Environ

open Cells

variable {h : Host}

theorem setsName_eq (name entry : Bytes) : setsName name entry = CannedBsd.setsName name entry := by
  rw [CannedBsd.setsName, Bool.eq_iff_iff, List.isPrefixOf_iff_prefix, setsName, Bool.and_eq_true, decide_eq_true_eq,
    decide_eq_true_eq]
  refine ⟨?_, ?_⟩
  · rintro ⟨hname, hsign⟩
    refine ⟨entry.drop (name.length + 1), ?_⟩
    obtain ⟨hlt, hget⟩ := List.getElem?_eq_some_iff.mp hsign
    nth_rewrite 1 [← hname]
    rw [← hget, List.append_assoc, List.singleton_append, ← List.drop_eq_getElem_cons hlt, List.take_append_drop]
  · rintro ⟨rest, rfl⟩
    rw [List.append_assoc]
    refine ⟨List.take_left, ?_⟩
    rw [List.getElem?_append_right le_rfl, Nat.sub_self]
    rfl

theorem setsName_iff {name entry : Bytes} :
    setsName name entry = true ↔ ∃ value, entry = name ++ equalsSign :: value := by
  rw [setsName_eq, CannedBsd.setsName, List.isPrefixOf_iff_prefix]
  refine ⟨?_, ?_⟩
  · rintro ⟨value, rfl⟩
    exact ⟨value, by rw [List.append_assoc]; rfl⟩
  · rintro ⟨value, rfl⟩
    exact ⟨value, by rw [List.append_assoc]; rfl⟩

theorem validName_no_sign {name : Bytes} (hn : validEnvironmentName name = true) : equalsSign ∉ name := by
  cases name with
  | nil => cases hn
  | cons c rest =>
    rw [validEnvironmentName, Bool.and_eq_true] at hn
    intro hmem
    rw [List.mem_cons] at hmem
    rcases hmem with rfl | hmem
    · exact absurd hn.1 (by decide)
    · exact absurd (List.all_eq_true.mp hn.2 _ hmem) (by decide)

/-- A string sets one valid name only. -/
theorem setsName_unique {name other entry : Bytes} (hn : validEnvironmentName name = true)
    (ho : validEnvironmentName other = true) (hname : setsName name entry = true)
    (hother : setsName other entry = true) : other = name := by
  obtain ⟨value, rfl⟩ := setsName_iff.mp hname
  obtain ⟨value', heq⟩ := setsName_iff.mp hother
  have hleft := congrArg (List.takeWhile (· ≠ equalsSign)) heq
  have htake : ∀ (l r : Bytes), equalsSign ∉ l → (l ++ equalsSign :: r).takeWhile (· ≠ equalsSign) = l := by
    intro l r hl
    have hpos : ∀ c ∈ l, decide (c ≠ equalsSign) = true := by
      intro c hc
      refine decide_eq_true ?_
      rintro rfl
      exact hl hc
    rw [List.takeWhile_append_of_pos hpos]
    simp
  rw [htake _ _ (validName_no_sign hn), htake _ _ (validName_no_sign ho)] at hleft
  exact hleft.symm

/-! ### What the loops find -/

theorem countFrom_layOut (count : ℕ) (ss : List Bytes) (rest : Cells) (hsmall : count + ss.length ≤ sizeMax / 8 - 1) :
    countFrom count (layOut ss rest) = some (count + ss.length) := by
  induction ss generalizing count with
  | nil => rfl
  | cons s ss ih =>
    rw [List.length_cons] at hsmall ⊢
    show (if count = sizeMax / 8 - 1 then none else countFrom (count + 1) (layOut ss rest)) = _
    rw [if_neg (by omega), ih (count + 1) (by omega)]
    congr 1
    omega

theorem stringVectorCount_layOut {ss : List Bytes} {rest : Cells} (hsmall : 8 * (layOut ss rest).length ≤ int64Max) :
    stringVectorCount (layOut ss rest) = some ss.length := by
  rw [length_layOut] at hsmall
  rw [stringVectorCount, countFrom_layOut 0 ss rest, Nat.zero_add]
  simp only [int64Max, sizeMax] at hsmall ⊢
  omega

theorem lookup_layOut (name : Bytes) (ss : List Bytes) (rest : Cells) :
    lookup name (layOut ss rest) = (ss.find? (setsName name)).map fun entry => entry.drop (name.length + 1) := by
  induction ss with
  | nil => rfl
  | cons s ss ih =>
    show (if setsName name s then some (s.drop (name.length + 1)) else lookup name (layOut ss rest)) = _
    rw [List.find?_cons]
    cases hs : setsName name s with
    | true => rfl
    | false => exact ih

theorem searchFrom_layOut (name : Bytes) (index : ℕ) (ss : List Bytes) (rest : Cells) :
    searchFrom name ss.length index (layOut ss rest) = index + ss.findIdx (setsName name) := by
  induction ss generalizing index with
  | nil => rfl
  | cons s ss ih =>
    show (if setsName name s then index else searchFrom name ss.length (index + 1) (layOut ss rest)) = _
    rw [List.findIdx_cons]
    cases hs : setsName name s with
    | true => rfl
    | false =>
      show searchFrom name ss.length (index + 1) (layOut ss rest) = index + (ss.findIdx (setsName name) + 1)
      rw [ih]
      omega

/-! ### What the calls leave -/

theorem resized_append {L : Cells} {A : Cells} {x y : Option Bytes} (hlen : L.length = A.length + 2)
    (htake : L.take A.length = A) : (L.set A.length x).set (A.length + 1) y = A ++ [x, y] := by
  have hsplit := List.take_append_drop A.length L
  rw [htake] at hsplit
  obtain ⟨B, rfl⟩ : ∃ B, L = A ++ B := ⟨_, hsplit.symm⟩
  rw [List.length_append, Nat.add_left_cancel_iff] at hlen
  match B, hlen with
  | [b, c], _ => simp

/-- `setenv` on the array in terms of its strings. -/
theorem apiSetenv_eq {ss : List Bytes} {rest : Cells} (hsmall : 8 * (layOut ss rest).length ≤ int64Max)
    (name value : Bytes) (overwrite : Bool) :
    apiSetenv h (layOut ss rest) name value overwrite =
      if validEnvironmentName name = false then (layOut ss rest, .fail .einval)
      else if sizeMax - 2 < value.length ∨ sizeMax - value.length - 2 < name.length then
        (layOut ss rest, .fail .enomem)
      else if ss.findIdx (setsName name) < ss.length ∧ overwrite = false then (layOut ss rest, ⟨0, [], none⟩)
      else if h.allocate .environment = false then (layOut ss rest, .fail .enomem)
      else if ss.findIdx (setsName name) < ss.length then
        (layOut (ss.set (ss.findIdx (setsName name)) (name ++ [equalsSign] ++ value)) rest, .done 0)
      else if h.grants ((ss.length + 2) * 8) = false then (layOut ss rest, .fail .enomem)
      else (layOut (ss ++ [name ++ [equalsSign] ++ value]) [], .done 0) := by
  have hwrap : (ss.length + 2) * 8 % (sizeMax + 1) = (ss.length + 2) * 8 := by
    rw [length_layOut] at hsmall
    refine Nat.mod_eq_of_lt ?_
    simp only [int64Max, sizeMax] at hsmall ⊢
    omega
  have hput : ((resizedCells h (layOut ss rest) (ss.length + 2)).set ss.length
      (some (name ++ [equalsSign] ++ value))).set (ss.length + 1) none =
        layOut (ss ++ [name ++ [equalsSign] ++ value]) [] := by
    have hlong := length_layOut ss rest
    have hlen : (resizedCells h (layOut ss rest) (ss.length + 2)).length = (ss.map some).length + 2 := by
      rw [resizedCells, List.length_append, List.length_take, List.length_map, List.length_range, List.length_map]
      omega
    have htake : (resizedCells h (layOut ss rest) (ss.length + 2)).take (ss.map some).length = ss.map some := by
      rw [resizedCells, List.length_map, List.take_append_of_le_length (by rw [List.length_take]; omega),
        List.take_take, Nat.min_eq_left (by omega), take_layOut]
    have happend := @resized_append _ _ (some (name ++ [equalsSign] ++ value)) none hlen htake
    rw [List.length_map] at happend
    rw [happend, layOut, List.map_append, List.append_assoc (ss.map some)]
    rfl
  unfold apiSetenv
  rw [stringVectorCount_layOut hsmall]
  dsimp only
  rw [searchFrom_layOut, Nat.zero_add, hwrap, hput]
  split
  · rfl
  split
  · rfl
  split
  · rfl
  split
  · rfl
  by_cases hfound : ss.findIdx (setsName name) < ss.length
  · rw [if_pos hfound, if_pos hfound, set_layOut hfound]
  · rw [if_neg hfound, if_neg hfound]

/-- Where the array has room for the strings, `setenv` replaces the first match or appends. -/
theorem apiSetenv_layOut {ss : List Bytes} {rest : Cells} (hsmall : 8 * (layOut ss rest).length ≤ int64Max)
    (name value : Bytes) (overwrite : Bool) :
    (∃ r : Reply, apiSetenv h (layOut ss rest) name value overwrite = (layOut ss rest, r) ∧
      (r.value < 0 ∨ ss.findIdx (setsName name) < ss.length ∧ overwrite = false ∧ r = ⟨0, [], none⟩)) ∨
    (∃ ss' rest', apiSetenv h (layOut ss rest) name value overwrite = (layOut ss' rest', .done 0) ∧
      8 * (layOut ss' rest').length ≤ int64Max ∧
      (ss.findIdx (setsName name) < ss.length ∧ overwrite = true ∧
          ss' = ss.set (ss.findIdx (setsName name)) (name ++ [equalsSign] ++ value) ∨
        ¬ ss.findIdx (setsName name) < ss.length ∧ ss' = ss ++ [name ++ [equalsSign] ++ value])) := by
  rw [apiSetenv_eq hsmall]
  split
  · exact .inl ⟨_, rfl, .inl (by decide)⟩
  split
  · exact .inl ⟨_, rfl, .inl (by decide)⟩
  split
  · rename_i hkeep
    exact .inl ⟨_, rfl, .inr ⟨hkeep.1, hkeep.2, rfl⟩⟩
  rename_i hkeep
  split
  · exact .inl ⟨_, rfl, .inl (by decide)⟩
  split
  · rename_i hfound
    refine .inr ⟨_, rest, rfl, ?_, .inl ⟨hfound, ?_, rfl⟩⟩
    · rw [length_layOut, List.length_set, ← length_layOut]
      exact hsmall
    · cases overwrite with
      | false => exact absurd ⟨hfound, rfl⟩ hkeep
      | true => rfl
  rename_i hfound
  split
  · exact .inl ⟨_, rfl, .inl (by decide)⟩
  rename_i hgrant
  refine .inr ⟨_, [], rfl, ?_, .inr ⟨hfound, rfl⟩⟩
  rw [Bool.not_eq_false, Host.grants, Bool.and_eq_true, decide_eq_true_eq] at hgrant
  rw [length_layOut, List.length_append, List.length_singleton, List.length_nil]
  omega

theorem moveDown_layOut {ss : List Bytes} {i : ℕ} (rest : Cells) (hi : i < ss.length) :
    moveDown (layOut ss rest) i (ss.length - i) = layOut (ss.eraseIdx i) (none :: rest) := by
  have hfront : (layOut ss rest).take i = (ss.take i).map some := by
    rw [layOut, List.take_append_of_le_length (by rw [List.length_map]; omega), List.map_take]
  have hmiddle : ((layOut ss rest).drop (i + 1)).take (ss.length - i) = (ss.drop (i + 1)).map some ++ [none] := by
    have hlen : ((ss.drop (i + 1)).map some).length + 1 = ss.length - i := by
      rw [List.length_map, List.length_drop]
      omega
    rw [layOut, List.drop_append_of_le_length (by rw [List.length_map]; omega), ← List.map_drop, ← hlen,
      List.take_length_add_append]
    rfl
  have hback : (layOut ss rest).drop (i + (ss.length - i)) = none :: rest := by
    rw [Nat.add_sub_cancel' hi.le, layOut]
    exact List.drop_left' (by rw [List.length_map])
  rw [moveDown, hfront, hmiddle, hback, layOut, List.eraseIdx_eq_take_drop_succ, List.map_append,
    List.append_assoc, List.append_assoc, List.append_assoc]
  rfl

/-- `unsetenv` takes out the first match. -/
theorem apiUnsetenv_layOut {ss : List Bytes} {rest : Cells} {name : Bytes}
    (hsmall : 8 * (layOut ss rest).length ≤ int64Max) (hn : validEnvironmentName name = true) :
    ∃ rest', apiUnsetenv (layOut ss rest) name = (layOut (ss.eraseP (setsName name)) rest', .done 0) ∧
      8 * (layOut (ss.eraseP (setsName name)) rest').length ≤ int64Max := by
  rw [apiUnsetenv, if_neg (by rw [hn]; decide), stringVectorCount_layOut hsmall, Option.getD_some]
  dsimp only
  rw [searchFrom_layOut, Nat.zero_add]
  split
  · rename_i hfound
    refine ⟨none :: rest, by rw [moveDown_layOut rest hfound, eraseIdx_findIdx], ?_⟩
    have hlen := List.length_eraseIdx_of_lt hfound
    rw [eraseIdx_findIdx] at hlen
    rw [length_layOut] at hsmall ⊢
    rw [hlen, List.length_cons]
    omega
  · rename_i hfound
    have hsame : ss.eraseP (setsName name) = ss := by
      rw [← eraseIdx_findIdx]
      exact List.eraseIdx_of_length_le (not_lt.mp hfound)
    rw [hsame]
    exact ⟨rest, rfl, hsmall⟩

/-! ### The laws of a map -/

/-- The value of a name, `none` for `NULL`. -/
def getenv (cells : Cells) (name : Bytes) : Option Bytes := (apiGetenv cells name).1

theorem getenv_layOut {name : Bytes} (hn : validEnvironmentName name = true) (ss : List Bytes) (rest : Cells) :
    getenv (layOut ss rest) name = (ss.find? (setsName name)).map fun entry => entry.drop (name.length + 1) := by
  rw [getenv, apiGetenv, if_pos hn]
  exact lookup_layOut name ss rest

theorem getenv_eq_none_iff {name : Bytes} (hn : validEnvironmentName name = true) {ss : List Bytes} {rest : Cells} :
    getenv (layOut ss rest) name = none ↔ ¬ ss.findIdx (setsName name) < ss.length := by
  rw [getenv_layOut hn, Option.map_eq_none_iff, List.find?_eq_none, List.findIdx_lt_length]
  push Not
  rfl

/-- What the calls with one name and one value make of the environment. -/
structure MapLaws (h : Host) (cells : Cells) (name value : Bytes) : Prop where
  /-- A successful `setenv` that overwrites sets the value. -/
  set : (apiSetenv h cells name value true).2.value = 0 →
    getenv (apiSetenv h cells name value true).1 name = some value
  /-- Without overwriting, `setenv` changes nothing when there is a value. -/
  keep : getenv cells name ≠ none → (apiSetenv h cells name value false).1 = cells
  fill : getenv cells name = none → apiSetenv h cells name value false = apiSetenv h cells name value true
  unset : (apiUnsetenv cells name).2.value = 0 → getenv (apiUnsetenv cells name).1 name = none
  /-- The other names keep their values. -/
  others : ∀ other, validEnvironmentName other = true → other ≠ name →
    (∀ overwrite, getenv (apiSetenv h cells name value overwrite).1 other = getenv cells other) ∧
      getenv (apiUnsetenv cells name).1 other = getenv cells other
  /-- A failing `setenv` leaves the array as it was. -/
  failed : ∀ overwrite, (apiSetenv h cells name value overwrite).2.value < 0 →
    (apiSetenv h cells name value overwrite).1 = cells
  /-- The array stays an array that ends with `NULL`. -/
  ended : (∀ overwrite, (apiSetenv h cells name value overwrite).1.Terminated) ∧
    (apiUnsetenv cells name).1.Terminated

theorem setsName_entry (name value : Bytes) : setsName name (name ++ [equalsSign] ++ value) = true :=
  setsName_iff.mpr ⟨value, by rw [List.append_assoc]; rfl⟩

theorem drop_entry (name value : Bytes) : (name ++ [equalsSign] ++ value).drop (name.length + 1) = value :=
  List.drop_left' (by rw [List.length_append, List.length_singleton])

section Laws

variable {name value : Bytes} {ss : List Bytes} {rest : Cells}

/-- A string that sets the name sets no other. -/
theorem setsName_other (hn : validEnvironmentName name = true) {other : Bytes}
    (ho : validEnvironmentName other = true) (hne : other ≠ name) (entry : Bytes) (hs : setsName name entry = true) :
    setsName other entry = false := by
  rw [← Bool.not_eq_true]
  exact fun hother => hne (setsName_unique hn ho hs hother)

theorem apiSetenv_set (hn : validEnvironmentName name = true) (hsmall : 8 * (layOut ss rest).length ≤ int64Max)
    (hok : (apiSetenv h (layOut ss rest) name value true).2.value = 0) :
    getenv (apiSetenv h (layOut ss rest) name value true).1 name = some value := by
  rcases @apiSetenv_layOut h ss rest hsmall name value true with ⟨r, heq, hr⟩ | ⟨ss', rest', heq, -, hss⟩
  · rw [heq] at hok
    rcases hr with hneg | ⟨-, hfalse, -⟩
    · exact absurd hok hneg.ne
    · cases hfalse
  rw [heq, getenv_layOut hn]
  rcases hss with ⟨hfound, -, rfl⟩ | ⟨hfound, rfl⟩
  · rw [find?_set_findIdx hfound (setsName_entry name value), Option.map_some, drop_entry]
  · have hnone : ss.find? (setsName name) = none := by
      rw [List.findIdx_lt_length] at hfound
      push Not at hfound
      rw [List.find?_eq_none]
      exact hfound
    rw [List.find?_append, hnone, Option.none_or, List.find?_singleton, if_pos (setsName_entry name value),
      Option.map_some, drop_entry]

theorem apiSetenv_other (hn : validEnvironmentName name = true) (hsmall : 8 * (layOut ss rest).length ≤ int64Max)
    {other : Bytes} (ho : validEnvironmentName other = true) (hne : other ≠ name) (overwrite : Bool) :
    getenv (apiSetenv h (layOut ss rest) name value overwrite).1 other = getenv (layOut ss rest) other := by
  rcases @apiSetenv_layOut h ss rest hsmall name value overwrite with ⟨r, heq, -⟩ | ⟨ss', rest', heq, -, hss⟩
  · rw [heq]
  have hpq := setsName_other hn ho hne
  have hentry := hpq _ (setsName_entry name value)
  rw [heq, getenv_layOut ho, getenv_layOut ho]
  rcases hss with ⟨-, -, rfl⟩ | ⟨-, rfl⟩
  · rw [find?_set_findIdx_other hpq hentry]
  · rw [List.find?_append, List.find?_singleton, hentry]
    simp

theorem apiSetenv_terminated (hsmall : 8 * (layOut ss rest).length ≤ int64Max) (overwrite : Bool) :
    (apiSetenv h (layOut ss rest) name value overwrite).1.Terminated := by
  rcases @apiSetenv_layOut h ss rest hsmall name value overwrite with ⟨r, heq, -⟩ | ⟨ss', rest', heq, hsmall', -⟩
  · rw [heq]
    exact ⟨ended_layOut ss rest, hsmall⟩
  · rw [heq]
    exact ⟨ended_layOut ss' rest', hsmall'⟩

theorem apiSetenv_failed (hsmall : 8 * (layOut ss rest).length ≤ int64Max) (overwrite : Bool)
    (hneg : (apiSetenv h (layOut ss rest) name value overwrite).2.value < 0) :
    (apiSetenv h (layOut ss rest) name value overwrite).1 = layOut ss rest := by
  rcases @apiSetenv_layOut h ss rest hsmall name value overwrite with ⟨r, heq, -⟩ | ⟨ss', rest', heq, -, -⟩
  · rw [heq]
  · rw [heq] at hneg
    exact absurd hneg (lt_irrefl (0 : ℤ))

theorem apiSetenv_keep (hn : validEnvironmentName name = true) (hsmall : 8 * (layOut ss rest).length ≤ int64Max)
    (hsome : getenv (layOut ss rest) name ≠ none) :
    (apiSetenv h (layOut ss rest) name value false).1 = layOut ss rest := by
  rcases @apiSetenv_layOut h ss rest hsmall name value false with ⟨r, heq, -⟩ | ⟨ss', rest', heq, -, hss⟩
  · rw [heq]
  rcases hss with ⟨-, hfalse, -⟩ | ⟨hfound, -⟩
  · cases hfalse
  · exact absurd ((getenv_eq_none_iff hn).mpr hfound) hsome

theorem apiSetenv_fill (hn : validEnvironmentName name = true) (hsmall : 8 * (layOut ss rest).length ≤ int64Max)
    (hnone : getenv (layOut ss rest) name = none) :
    apiSetenv h (layOut ss rest) name value false = apiSetenv h (layOut ss rest) name value true := by
  have hfound := (getenv_eq_none_iff hn).mp hnone
  unfold apiSetenv
  rw [stringVectorCount_layOut hsmall]
  dsimp only
  rw [searchFrom_layOut, Nat.zero_add]
  simp only [hfound, false_and, if_false]

theorem apiUnsetenv_unset_iff (hn : validEnvironmentName name = true)
    (hsmall : 8 * (layOut ss rest).length ≤ int64Max) :
    getenv (apiUnsetenv (layOut ss rest) name).1 name = none ↔ ss.countP (setsName name) ≤ 1 := by
  obtain ⟨rest', heq, -⟩ := apiUnsetenv_layOut hsmall hn
  rw [heq, getenv_layOut hn, Option.map_eq_none_iff, find?_eraseP_eq_none_iff]

theorem mapLaws_layOut_iff (hn : validEnvironmentName name = true) (hsmall : 8 * (layOut ss rest).length ≤ int64Max) :
    MapLaws h (layOut ss rest) name value ↔ ss.countP (setsName name) ≤ 1 := by
  obtain ⟨rest', hunset, hsmall'⟩ := apiUnsetenv_layOut hsmall hn
  refine ⟨fun hlaws => ?_, fun honce => ?_⟩
  · refine (apiUnsetenv_unset_iff hn hsmall).mp (hlaws.unset ?_)
    rw [hunset]
    rfl
  · refine ⟨apiSetenv_set hn hsmall, apiSetenv_keep hn hsmall, apiSetenv_fill hn hsmall,
      fun _ => (apiUnsetenv_unset_iff hn hsmall).mpr honce, fun other ho hne => ⟨?_, ?_⟩,
      apiSetenv_failed hsmall, apiSetenv_terminated hsmall, ?_⟩
    · exact apiSetenv_other hn hsmall ho hne
    · rw [hunset, getenv_layOut ho, getenv_layOut ho, find?_eraseP_other (setsName_other hn ho hne)]
    · rw [hunset]
      exact ⟨ended_layOut _ _, hsmall'⟩

end Laws

/-- What `spawn` and `exec` give a task is such an array. -/
theorem stringVectorCopy_terminated {vector : List Bytes} {cells : Cells}
    (hcopy : stringVectorCopy h vector = some cells) : cells.Terminated ∧ cells.strings = vector := by
  rw [stringVectorCopy] at hcopy
  split at hcopy
  · rename_i hroom
    cases hcopy
    refine ⟨⟨ended_layOut vector [], ?_⟩, strings_layOut vector []⟩
    have hlen := length_layOut vector []
    rw [layOut] at hlen
    rw [hlen, List.length_nil, Nat.add_zero]
    exact hroom.2
  · cases hcopy

/-- **The environment is a map** for a name exactly when one string of the vector at most sets it. -/
theorem environment_mapLaws_iff (h : Host) (v : StringVector) (name value : Bytes)
    (hn : validEnvironmentName name = true) :
    MapLaws h v.cells name value ↔ v.cells.strings.countP (setsName name) ≤ 1 := by
  obtain ⟨rest, hrest⟩ := v.terminated.layOut
  have hsmall := v.terminated.small
  rw [hrest] at hsmall
  have hiff := @mapLaws_layOut_iff h name value v.cells.strings rest hn hsmall
  rwa [← hrest] at hiff

/-- The array with the strings `A=1` and `A=2`. -/
def twiceSet : StringVector := ⟨[some [65, 61, 49], some [65, 61, 50], none], by simp, by decide⟩

/-- The name `AB` is not set twice, although `A` is. -/
theorem environment_mapLaws_prefix : MapLaws .calm twiceSet.cells [65, 66] [51] :=
  (environment_mapLaws_iff .calm twiceSet [65, 66] [51] (by decide)).mpr (by decide)

/-- `unsetenv` of `A` leaves the second string, and `A` has the value `2`. -/
theorem unsetenv_leaves_second :
    stringVectorCopy .calm [[65, 61, 49], [65, 61, 50]] = some twiceSet.cells ∧
      (apiUnsetenv twiceSet.cells [65]).2.value = 0 ∧
      getenv (apiUnsetenv twiceSet.cells [65]).1 [65] = some [50] ∧
      ¬ MapLaws .calm twiceSet.cells [65] [51] := by
  refine ⟨by decide, by decide, by decide, fun hlaws => ?_⟩
  exact absurd (hlaws.unset (by decide)) (by decide)

/-! ### The array and the kernel -/

/-- The list of strings in the kernel model is what the array of the task holds. -/
structure ArrayHolds (k : Kernel) (t : TaskId) (cells : Cells) : Prop where
  terminated : cells.Terminated
  live : ∃ task, k.task t = some task
  environment : environmentOf k t = cells.strings

theorem environmentOf_setEnvironment {k : Kernel} {t : TaskId} (hlive : ∃ task, k.task t = some task)
    (environment : List Bytes) : environmentOf (setEnvironment k t environment) t = environment := by
  obtain ⟨task, ht⟩ := hlive
  unfold environmentOf setEnvironment
  rw [Kernel.task_setTask_self _ ht]
  rfl

theorem ArrayHolds.setEnvironment {k : Kernel} {t : TaskId} {cells cells' : Cells} (hk : ArrayHolds k t cells)
    (hterm : cells'.Terminated) : ArrayHolds (setEnvironment k t cells'.strings) t cells' := by
  obtain ⟨task, ht⟩ := hk.live
  refine ⟨hterm, ⟨{ task with environment := cells'.strings }, ?_⟩, environmentOf_setEnvironment hk.live _⟩
  exact Kernel.task_setTask_self _ ht

theorem setsName_fun (name : Bytes) : CannedBsd.setsName name = setsName name := by
  funext entry
  exact (setsName_eq name entry).symm

theorem apiGetenv_refines {k : Kernel} {t : TaskId} {cells : Cells} (hk : ArrayHolds k t cells) (name : Bytes) :
    CannedBsd.apiGetenv k t (some name) =
      match apiGetenv cells name with
      | (none, none) => .done ⟨0, [], none⟩ .none
      | (none, some e) => .done ⟨0, [], some e.code⟩ .none
      | (some value, _) => .done ⟨1, value, none⟩ .none := by
  unfold CannedBsd.apiGetenv apiGetenv
  cases hn : validEnvironmentName name with
  | false => simp [Option.filter, hn]
  | true =>
    obtain ⟨rest, hrest⟩ := hk.terminated.layOut
    have hlookup := lookup_layOut name cells.strings rest
    rw [← hrest] at hlookup
    simp only [Option.filter, hn, if_true]
    rw [hlookup, hk.environment, setsName_fun]
    cases cells.strings.find? (setsName name) with
    | none => rfl
    | some entry => rfl

theorem apiUnsetenv_refines {k : Kernel} {t : TaskId} {cells : Cells} (hk : ArrayHolds k t cells) (name : Bytes) :
    ArrayHolds (CannedBsd.apiUnsetenv k t (some name)).1 t (apiUnsetenv cells name).1 ∧
      (CannedBsd.apiUnsetenv k t (some name)).2 = .done (apiUnsetenv cells name).2 .none := by
  unfold CannedBsd.apiUnsetenv
  cases hn : validEnvironmentName name with
  | false =>
    simp only [Option.filter, hn, apiUnsetenv, if_true]
    exact ⟨hk, rfl⟩
  | true =>
    obtain ⟨rest, hrest⟩ := hk.terminated.layOut
    have hsmall := hk.terminated.small
    rw [hrest] at hsmall
    obtain ⟨rest', heq, hsmall'⟩ := apiUnsetenv_layOut hsmall hn
    rw [← hrest] at heq
    simp only [Option.filter, hn, if_true]
    have hholds := hk.setEnvironment ⟨ended_layOut _ rest', hsmall'⟩
    rw [strings_layOut] at hholds
    rw [heq, hk.environment, setsName_fun]
    exact ⟨hholds, rfl⟩

theorem stringVectorCount_strings {ss : List Bytes} {rest : Cells} (hsmall : 8 * (layOut ss rest).length ≤ int64Max) :
    CannedBsd.stringVectorCount ss = some ss.length := by
  rw [length_layOut] at hsmall
  rw [CannedBsd.stringVectorCount, if_neg]
  simp only [int64Max, sizeMax] at hsmall ⊢
  omega

theorem apiSetenv_refines {k : Kernel} {t : TaskId} {cells : Cells} (hk : ArrayHolds k t cells) (name value : Bytes)
    (overwrite : Bool) :
    ArrayHolds (CannedBsd.apiSetenv h k t (some name) (some value) overwrite).1 t (apiSetenv h cells name value overwrite).1 ∧
      (CannedBsd.apiSetenv h k t (some name) (some value) overwrite).2 =
        .done (apiSetenv h cells name value overwrite).2 .none := by
  obtain ⟨rest, hrest⟩ := hk.terminated.layOut
  have hsmall := hk.terminated.small
  rw [hrest] at hsmall
  have hterm := @apiSetenv_terminated h name value cells.strings rest hsmall overwrite
  have heq := @apiSetenv_eq h cells.strings rest hsmall name value overwrite
  rw [← hrest] at hterm heq
  rw [CannedBsd.apiSetenv.eq_def, heq]
  rw [heq] at hterm
  cases hn : validEnvironmentName name with
  | false =>
    simp only [Option.filter, hn, if_true]
    exact ⟨hk, rfl⟩
  | true =>
  simp only [Option.filter, hn, if_true, Bool.true_eq_false, if_false] at hterm ⊢
  rw [hk.environment, stringVectorCount_strings hsmall, setsName_fun]
  dsimp only
  -- the two run through the same checks, and store the same strings at the end of each branch
  split
  · exact ⟨hk, rfl⟩
  split
  · exact ⟨hk, rfl⟩
  split
  · exact ⟨hk, rfl⟩
  split
  · rename_i hlong hkeep halloc hfound
    rw [if_neg hlong, if_neg hkeep, if_neg halloc, if_pos hfound] at hterm
    have hholds := hk.setEnvironment hterm
    rw [strings_layOut] at hholds
    exact ⟨hholds, rfl⟩
  split
  · exact ⟨hk, rfl⟩
  · rename_i hlong hkeep halloc hfound hgrant
    rw [if_neg hlong, if_neg hkeep, if_neg halloc, if_neg hfound, if_neg hgrant] at hterm
    have hholds := hk.setEnvironment hterm
    rw [strings_layOut] at hholds
    exact ⟨hholds, rfl⟩

end Environ

end CannedBsd
