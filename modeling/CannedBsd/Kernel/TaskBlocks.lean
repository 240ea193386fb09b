import CannedBsd.Kernel.Environment
import CannedBsd.Lib.Blocks

/-!
# The blocks of a task

A task owns its record, its error cell, the vectors of its arguments and of its environment with a block
for each string, those of a pending `exec`, its execution and context, and what its program allocated. The
program may write into the vector of arguments it is given, so the kernel keeps a second one with the
pointers it owns.

Here the calls run on the blocks themselves. The allocator may refuse at every call.

* `taskCreate_meets`: a new task owns its copies; when its creation fails nothing is left.
* `apiSetenv_meets`: `setenv` acts as on the cells, or it leaves everything as it was.
* `OwnersMatch.step`: after every deed the live blocks are those that the records own.
* `task_blocks_owned`: over any run no dead block is touched and none is given back twice.
-/

namespace CannedBsd

open CannedBsd.Lib

namespace TaskBlocks

/-- The records that are allocated. -/
inductive Struct
  | task
  | errorCell
  | execution
  | context
  | allocation
  deriving DecidableEq, Repr

inductive Block
  | text (chars : Bytes)
  /-- An array of pointers; `none` is `NULL`. -/
  | vector (cells : List (Option ℕ))
  /-- A record, or memory of a program. -/
  | plain
  deriving DecidableEq, Repr

abbrev Work (α : Type) := Blocks ℕ Block α

/-- The allocator of the host, the sizes of the records, and what the cells behind the old end of a resized
array hold. -/
structure Arena where
  allocator : Allocator ℕ
  limit : allocator.limit = int64Max
  sizeOf : Struct → ℕ
  tail : ℕ → Option ℕ

variable (A : Arena)

/-! ### Vectors of strings -/

def cbAllocate (size : ℕ) (zeroed : Block) : Work (Option ℕ) := Blocks.take A.allocator size zeroed

def cbRelease : Option ℕ → Work Unit
  | none => pure ()
  | some pointer => Blocks.give pointer

def loadVector (vector : ℕ) : Work (List (Option ℕ)) := do
  match ← Blocks.load vector with
  | .vector cells => pure cells
  | _ => Blocks.fault

def loadText (string : ℕ) : Work Bytes := do
  match ← Blocks.load string with
  | .text chars => pure chars
  | _ => Blocks.fault

/-- `vector[index]`. -/
def cellAt (vector index : ℕ) : Work (Option ℕ) := do
  match (← loadVector vector)[index]? with
  | none => Blocks.fault
  | some pointer => pure pointer

/-- `vector[index] = pointer`. -/
def setCell (vector index : ℕ) (pointer : Option ℕ) : Work Unit := do
  let cells ← loadVector vector
  if index < cells.length then Blocks.store vector (.vector (cells.set index pointer)) else Blocks.fault

def cbStringDuplicate (text : Bytes) : Work (Option ℕ) := do
  match ← cbAllocate A (text.length + 1) (.text []) with
  | none => pure none
  | some copy => do
    Blocks.store copy (.text text)
    pure (some copy)

/-- Where a vector to be copied comes from: `NULL`, memory of the caller, or a block of the kernel. -/
inductive Source
  | null
  | given (texts : List Bytes)
  | held (vector : ℕ)

/-- The strings up to the first `NULL`; it is a fault when there is none. -/
def readStrings : List (Option ℕ) → Work (List Bytes)
  | [] => Blocks.fault
  | none :: _ => pure []
  | some string :: rest => do
    let text ← loadText string
    let texts ← readStrings rest
    pure (text :: texts)

/-- The strings a copy reads. It writes into other blocks only, so they are read in front. -/
def Source.read : Source → Work (List Bytes)
  | .null => pure []
  | .given texts => pure texts
  | .held vector => do readStrings (← loadVector vector)

/-- `string_vector_count` of a vector of pointers; it does not look at the strings. -/
def stringVectorCount (cells : List (Option ℕ)) : Option ℕ :=
  Environ.stringVectorCount (cells.map (Option.map fun _ => []))

/-- The way out of `string_vector_copy` when a string is refused. -/
def unwind (copy : ℕ) : ℕ → Work Unit
  | 0 => cbRelease (some copy)
  | index + 1 => do
    cbRelease (← cellAt copy index)
    unwind copy index

/-- The loop of `string_vector_copy` from an index on. -/
def fillFrom (copy : ℕ) : ℕ → List Bytes → Work Bool
  | _, [] => pure true
  | index, text :: texts => do
    match ← cbStringDuplicate A text with
    | none => do
      unwind copy index
      pure false
    | some string => do
      setCell copy index (some string)
      fillFrom copy (index + 1) texts

def stringVectorCopy (vector : Source) : Work (Option ℕ) := do
  let texts ← vector.read
  match Environ.stringVectorCount (texts.map some ++ [none]) with
  | none => pure none
  | some count => do
    match ← cbAllocate A ((count + 1) * 8) (.vector (List.replicate (count + 1) none)) with
    | none => pure none
    | some copy => do
      if ← fillFrom A copy 0 texts then do
        setCell copy count none
        pure (some copy)
      else pure none

/-- The loop of `string_vector_destroy`. -/
def releaseCells : List (Option ℕ) → Work Unit
  | [] => Blocks.fault
  | none :: _ => pure ()
  | some string :: rest => do
    cbRelease (some string)
    releaseCells rest

def stringVectorDestroy : Option ℕ → Work Unit
  | none => pure ()
  | some vector => do
    releaseCells (← loadVector vector)
    cbRelease (some vector)

/-- `argument_vector_copy`: the vector for the program and the one that stays private. -/
def argumentVectorCopy (vector : Source) : Work (Option ℕ × Option ℕ) := do
  match ← stringVectorCopy A vector with
  | none => pure (none, none)
  | some owned => do
    let cells ← loadVector owned
    match stringVectorCount cells with
    | none => Blocks.fault
    | some count => do
      match ← cbAllocate A ((count + 1) * 8) (.vector (List.replicate (count + 1) none)) with
      | none => do
        stringVectorDestroy (some owned)
        pure (none, none)
      | some values => do
        Blocks.store values (.vector (cells.take (count + 1)))
        pure (some values, some owned)

def argumentVectorDestroy (values owned : Option ℕ) : Work Unit := do
  cbRelease values
  stringVectorDestroy owned

/-! ### What the vectors hold -/

/-- The block of a string. -/
def textCell (string : ℕ × Bytes) : ℕ × Block := (string.1, .text string.2)

/-- The pointers to some strings. -/
def slots (strings : List (ℕ × Bytes)) : List (Option ℕ) := strings.map fun string => some string.1

/-- A vector with the blocks of its strings; there may be cells behind the first `NULL`. -/
def vectorCells (vector : ℕ) (strings : List (ℕ × Bytes)) (slack : List (Option ℕ)) : List (ℕ × Block) :=
  (vector, .vector (slots strings ++ none :: slack)) :: strings.map textCell

/-- These blocks are a vector with these strings, and it is an object of the host. -/
def OwnsVector (vector : ℕ) (texts : List Bytes) (cells : List (ℕ × Block)) : Prop :=
  ∃ strings slack, cells = vectorCells vector strings slack ∧ strings.map Prod.snd = texts ∧
    8 * (strings.length + 1 + slack.length) ≤ int64Max

/-- The source has these strings, in these blocks. -/
def Source.Reads : Source → List Bytes → List (ℕ × Block) → Prop
  | .null, texts, cells => texts = [] ∧ cells = []
  | .given own, texts, cells => texts = own ∧ cells = []
  | .held vector, texts, cells => OwnsVector vector texts cells

section Specs

variable {A : Arena}

@[simp]
theorem length_slots (strings : List (ℕ × Bytes)) : (slots strings).length = strings.length := by
  rw [slots, List.length_map]

theorem slots_append (strings strings' : List (ℕ × Bytes)) :
    slots (strings ++ strings') = slots strings ++ slots strings' := by
  rw [slots, List.map_append]
  rfl

theorem loadVector_meets (vector : ℕ) (cells : List (Option ℕ)) :
    Meets [(vector, Block.vector cells)] (loadVector vector) fun r left =>
      r = cells ∧ left = [(vector, .vector cells)] := by
  refine Meets.bind _ (Meets.load vector (.vector cells)) (.refl _) fun r left h => ?_
  obtain ⟨rfl, rfl⟩ := h
  exact Meets.pure ⟨rfl, rfl⟩

theorem loadText_meets (string : ℕ) (chars : Bytes) :
    Meets [(string, Block.text chars)] (loadText string) fun r left =>
      r = chars ∧ left = [(string, .text chars)] := by
  refine Meets.bind _ (Meets.load string (.text chars)) (.refl _) fun r left h => ?_
  obtain ⟨rfl, rfl⟩ := h
  exact Meets.pure ⟨rfl, rfl⟩

theorem cellAt_meets {vector index : ℕ} {cells : List (Option ℕ)} {pointer : Option ℕ}
    (hp : cells[index]? = some pointer) :
    Meets [(vector, Block.vector cells)] (cellAt vector index) fun r left =>
      r = pointer ∧ left = [(vector, .vector cells)] := by
  refine Meets.bind _ (loadVector_meets vector cells) (.refl _) fun r left h => ?_
  obtain ⟨rfl, rfl⟩ := h
  rw [hp]
  exact Meets.pure ⟨rfl, rfl⟩

theorem setCell_meets {vector index : ℕ} {cells : List (Option ℕ)} (pointer : Option ℕ)
    (hi : index < cells.length) :
    Meets [(vector, Block.vector cells)] (setCell vector index pointer) fun _ left =>
      left = [(vector, .vector (cells.set index pointer))] := by
  refine Meets.bind _ (loadVector_meets vector cells) (.refl _) fun r left h => ?_
  obtain ⟨rfl, rfl⟩ := h
  rw [if_pos hi]
  exact Meets.store vector (Block.vector r) (Block.vector (r.set index pointer))

theorem cbStringDuplicate_meets (text : Bytes) :
    Meets [] (cbStringDuplicate A text) fun r left =>
      r = none ∧ left = [] ∨ ∃ string, r = some string ∧ left = [textCell (string, text)] := by
  refine Meets.bind _ (Meets.take A.allocator (text.length + 1) (Block.text [])) (.refl _) fun r left h => ?_
  rcases h with ⟨rfl, rfl⟩ | ⟨copy, rfl, -, rfl⟩
  · exact Meets.pure (.inl ⟨rfl, rfl⟩)
  · refine Meets.bind _ (Meets.store copy (Block.text []) (Block.text text)) (.refl _) fun _ left h => ?_
    rw [h]
    exact Meets.pure (.inr ⟨copy, rfl, rfl⟩)

theorem readStrings_meets (strings : List (ℕ × Bytes)) (slack : List (Option ℕ)) :
    Meets (strings.map textCell) (readStrings (slots strings ++ none :: slack))
      fun r left => r = strings.map Prod.snd ∧ left = strings.map textCell := by
  induction strings with
  | nil => exact Meets.pure ⟨rfl, rfl⟩
  | cons string strings ih =>
    refine Meets.bind _ (loadText_meets string.1 string.2) (.refl _) fun text left h => ?_
    obtain ⟨rfl, rfl⟩ := h
    have hcomm : ([textCell string] ++ strings.map textCell).Perm (strings.map textCell ++ [textCell string]) :=
      List.perm_append_comm
    refine Meets.bind _ ih hcomm fun texts left h => ?_
    obtain ⟨rfl, rfl⟩ := h
    exact (Meets.pure ⟨rfl, rfl⟩).perm hcomm.symm

theorem Source.read_meets {source : Source} {texts : List Bytes} {cells : List (ℕ × Block)}
    (h : source.Reads texts cells) : Meets cells source.read fun r left => r = texts ∧ left = cells := by
  cases source with
  | null => exact Meets.pure ⟨h.1.symm, rfl⟩
  | given own => exact Meets.pure ⟨h.1.symm, rfl⟩
  | held vector =>
    obtain ⟨strings, slack, rfl, rfl, -⟩ := h
    refine Meets.bind _ (loadVector_meets vector _) (.refl _) fun r left h => ?_
    obtain ⟨rfl, rfl⟩ := h
    have hcomm := @List.perm_append_comm _ [(vector, Block.vector (slots strings ++ none :: slack))]
      (strings.map textCell)
    refine Meets.frame _ (readStrings_meets strings slack) hcomm fun r left h => ?_
    obtain ⟨rfl, rfl⟩ := h
    exact ⟨_, hcomm.symm, rfl, rfl⟩

/-- The strings copied so far are given back from the last one on, and then the vector. -/
theorem unwind_meets (copy : ℕ) (strings : List (ℕ × Bytes)) (more : List (Option ℕ)) :
    Meets ((copy, .vector (slots strings ++ more)) :: strings.map textCell) (unwind copy strings.length)
      fun _ left => left = [] := by
  induction strings using List.reverseRecOn generalizing more with
  | nil => exact Meets.give copy (Block.vector more)
  | append_singleton strings string ih =>
    rw [List.length_append, List.length_singleton, slots_append, List.append_assoc, List.map_append]
    have hcell : (slots strings ++ (slots [string] ++ more))[strings.length]? = some (some string.1) := by
      rw [List.getElem?_append_right (by rw [length_slots]), length_slots, Nat.sub_self]
      rfl
    refine Meets.bind _ (cellAt_meets hcell) (.refl _) fun pointer left h => ?_
    obtain ⟨rfl, rfl⟩ := h
    refine Meets.bind _ (Meets.give string.1 (Block.text string.2))
      (List.perm_append_singleton (textCell string) (_ :: strings.map textCell)) fun _ left h => ?_
    rw [h]
    exact ih _

/-- The loop either fills the vector or gives everything back. -/
theorem fillFrom_meets (copy : ℕ) (strings : List (ℕ × Bytes)) (texts : List Bytes) :
    Meets ((copy, .vector (slots strings ++ List.replicate (texts.length + 1) none)) :: strings.map textCell)
      (fillFrom A copy strings.length texts) fun ok left =>
        ok = false ∧ left = [] ∨
          ok = true ∧ ∃ all, left = vectorCells copy all [] ∧ all.map Prod.snd = strings.map Prod.snd ++ texts := by
  induction texts generalizing strings with
  | nil => exact Meets.pure (.inr ⟨rfl, strings, rfl, by rw [List.append_nil]⟩)
  | cons text texts ih =>
    refine Meets.bind _ (cbStringDuplicate_meets text) (.refl _) fun r left h => ?_
    rcases h with ⟨rfl, rfl⟩ | ⟨string, rfl, rfl⟩
    · refine Meets.bind [] (unwind_meets copy strings _) (by rw [List.append_nil]; exact .refl _) fun _ left h => ?_
      rw [h]
      exact Meets.pure (.inl ⟨rfl, rfl⟩)
    · have hroom : strings.length < (slots strings ++ List.replicate ((text :: texts).length + 1) none).length := by
        rw [List.length_append, length_slots, List.length_replicate]
        omega
      refine Meets.bind _ (setCell_meets (some string) hroom)
        (List.Perm.swap _ (textCell (string, text)) (strings.map textCell)) fun _ left h => ?_
      rw [h]
      have hset : (slots strings ++ List.replicate ((text :: texts).length + 1) none).set strings.length
          (some string) = slots (strings ++ [(string, text)]) ++ List.replicate (texts.length + 1) none := by
        rw [List.set_append_right _ _ (by rw [length_slots]), length_slots, Nat.sub_self, List.length_cons,
          List.replicate_succ, List.set_cons_zero, slots_append, List.append_assoc]
        rfl
      have hnext := ih (strings ++ [(string, text)])
      rw [List.map_append, List.map_append, List.length_append, List.append_assoc] at hnext
      rw [hset]
      exact hnext.perm ((List.perm_append_singleton (textCell (string, text)) (strings.map textCell)).symm.cons _)

theorem countFrom_eq_some {count n : ℕ} {texts : List Bytes} {rest : Cells}
    (h : Environ.countFrom count (Cells.layOut texts rest) = some n) : n = count + texts.length := by
  induction texts generalizing count with
  | nil => exact (Option.some.inj h).symm
  | cons text texts ih =>
    change (if count = sizeMax / 8 - 1 then none else Environ.countFrom (count + 1) (Cells.layOut texts rest)) = _ at h
    split at h
    · cases h
    · rw [ih h, List.length_cons]
      omega

/-- A copy holds the strings of its source; when it fails it leaves nothing behind. -/
theorem stringVectorCopy_meets {source : Source} {texts : List Bytes} {cells : List (ℕ × Block)}
    (h : source.Reads texts cells) :
    Meets cells (stringVectorCopy A source) fun r left =>
      r = none ∧ left = cells ∨
        ∃ vector own, r = some vector ∧ OwnsVector vector texts own ∧ left = own ++ cells := by
  refine Meets.bind [] (Source.read_meets h) (by rw [List.append_nil]) fun r left h => ?_
  obtain ⟨rfl, rfl⟩ := h
  rw [List.append_nil]
  cases hcount : Environ.stringVectorCount (r.map some ++ [none]) with
  | none => exact Meets.pure (.inl ⟨rfl, rfl⟩)
  | some count =>
    have hlen : count = r.length := by
      rw [countFrom_eq_some hcount, Nat.zero_add]
    subst hlen
    refine Meets.bind _ (Meets.take A.allocator _ _) (.refl _) fun copy left h => ?_
    rcases h with ⟨rfl, rfl⟩ | ⟨copy, rfl, hsize, rfl⟩
    · exact Meets.pure (.inl ⟨rfl, rfl⟩)
    · refine Meets.bind _ (fillFrom_meets copy [] r) (.refl _) fun ok left h => ?_
      rcases h with ⟨rfl, rfl⟩ | ⟨rfl, strings, rfl, hall⟩
      · exact Meets.pure (.inl ⟨rfl, rfl⟩)
      · have hall : strings.map Prod.snd = r := hall
        have hlen : r.length = strings.length := by rw [← hall, List.length_map]
        have hroom : r.length < (slots strings ++ [none]).length := by
          rw [List.length_append, length_slots, hlen]
          exact Nat.lt_succ_self _
        have hset : (slots strings ++ [none]).set r.length none = slots strings ++ [none] := by
          rw [hlen, List.set_append_right _ _ (by rw [length_slots]), length_slots, Nat.sub_self]
          rfl
        refine Meets.bind _ (setCell_meets none hroom) (.refl _) fun _ left h => ?_
        rw [h, hset]
        refine Meets.pure (.inr ⟨copy, vectorCells copy strings [], rfl, ⟨strings, [], rfl, hall, ?_⟩, rfl⟩)
        rw [A.limit, hlen] at hsize
        rw [List.length_nil]
        omega

theorem releaseCells_meets (strings : List (ℕ × Bytes)) (slack : List (Option ℕ)) :
    Meets (strings.map textCell) (releaseCells (slots strings ++ none :: slack)) fun _ left => left = [] := by
  induction strings with
  | nil => exact Meets.pure rfl
  | cons string strings ih =>
    refine Meets.bind _ (Meets.give string.1 (Block.text string.2)) (.refl _) fun _ left h => ?_
    rw [h]
    exact ih

theorem stringVectorDestroy_meets {vector : ℕ} {texts : List Bytes} {cells : List (ℕ × Block)}
    (h : OwnsVector vector texts cells) :
    Meets cells (stringVectorDestroy (some vector)) fun _ left => left = [] := by
  obtain ⟨strings, slack, rfl, -, -⟩ := h
  refine Meets.bind _ (loadVector_meets vector _) (.refl _) fun r left h => ?_
  obtain ⟨rfl, rfl⟩ := h
  refine Meets.bind _ (releaseCells_meets strings slack) List.perm_append_comm fun _ left h => ?_
  rw [h]
  exact Meets.give vector _

/-- The blocks of a vector that may be `NULL`. -/
def OwnsOptional (vector : Option ℕ) (texts : Option (List Bytes)) (cells : List (ℕ × Block)) : Prop :=
  vector = none ∧ texts = none ∧ cells = [] ∨
    ∃ v strings, vector = some v ∧ texts = some strings ∧ OwnsVector v strings cells

/-- The blocks of the two vectors of arguments. The program may have put anything into the first one. -/
def OwnsArguments (values owned : Option ℕ) (texts : Option (List Bytes)) (cells : List (ℕ × Block)) : Prop :=
  values = none ∧ owned = none ∧ texts = none ∧ cells = [] ∨
    ∃ v o strings pointers own, values = some v ∧ owned = some o ∧ texts = some strings ∧
      OwnsVector o strings own ∧ cells = (v, .vector pointers) :: own

theorem optionalDestroy_meets {vector : Option ℕ} {texts : Option (List Bytes)} {cells : List (ℕ × Block)}
    (h : OwnsOptional vector texts cells) :
    Meets cells (stringVectorDestroy vector) fun _ left => left = [] := by
  rcases h with ⟨rfl, -, rfl⟩ | ⟨v, strings, rfl, -, hv⟩
  · exact Meets.pure rfl
  · exact stringVectorDestroy_meets hv

/-- Whatever the program put into its vector, the strings are given back through the private one. -/
theorem argumentVectorDestroy_meets {values owned : Option ℕ} {texts : Option (List Bytes)}
    {cells : List (ℕ × Block)} (h : OwnsArguments values owned texts cells) :
    Meets cells (argumentVectorDestroy values owned) fun _ left => left = [] := by
  rcases h with ⟨rfl, rfl, -, rfl⟩ | ⟨v, o, strings, pointers, own, rfl, rfl, -, hown, rfl⟩
  · exact Meets.pure rfl
  · refine Meets.bind _ (Meets.give v (Block.vector pointers)) (.refl _) fun _ left h => ?_
    rw [h]
    exact stringVectorDestroy_meets hown

theorem stringVectorCount_slots {strings : List (ℕ × Bytes)} {slack : List (Option ℕ)}
    (hsmall : 8 * (strings.length + 1 + slack.length) ≤ int64Max) :
    stringVectorCount (slots strings ++ none :: slack) = some strings.length := by
  have hcells : (slots strings ++ none :: slack).map (Option.map fun _ => ([] : Bytes)) =
      Cells.layOut (strings.map fun _ => []) (slack.map (Option.map fun _ => [])) := by
    rw [slots, List.map_append, List.map_map, Cells.layOut, List.map_map]
    rfl
  rw [stringVectorCount, hcells, Environ.stringVectorCount_layOut, List.length_map]
  rw [Cells.length_layOut, List.length_map, List.length_map]
  exact hsmall

theorem argumentVectorCopy_meets {source : Source} {texts : List Bytes} {cells : List (ℕ × Block)}
    (h : source.Reads texts cells) :
    Meets cells (argumentVectorCopy A source) fun r left =>
      ∃ own, OwnsArguments r.1 r.2 (r.1.map fun _ => texts) own ∧ left = own ++ cells := by
  refine Meets.bind [] (stringVectorCopy_meets h) (by rw [List.append_nil]) fun r left h => ?_
  rw [List.append_nil]
  rcases h with ⟨rfl, rfl⟩ | ⟨owned, own, rfl, hown, rfl⟩
  · exact Meets.pure ⟨[], .inl ⟨rfl, rfl, rfl, rfl⟩, rfl⟩
  · obtain ⟨strings, slack, rfl, hstrings, hsmall⟩ := hown
    refine Meets.bind _ (loadVector_meets owned _) (.refl _) fun r left h => ?_
    obtain ⟨rfl, rfl⟩ := h
    rw [stringVectorCount_slots hsmall]
    refine Meets.bind _ (Meets.take A.allocator _ _) (.refl _) fun values left h => ?_
    rcases h with ⟨rfl, rfl⟩ | ⟨values, rfl, -, rfl⟩
    · refine Meets.bind _ (stringVectorDestroy_meets ⟨strings, slack, rfl, hstrings, hsmall⟩) (.refl _)
        fun _ left h => ?_
      rw [h]
      exact Meets.pure ⟨[], .inl ⟨rfl, rfl, rfl, rfl⟩, rfl⟩
    · refine Meets.bind _ (Meets.store values _ _) (.refl _) fun _ left h => ?_
      rw [h]
      exact Meets.pure ⟨_, .inr ⟨values, owned, texts, _, vectorCells owned strings slack, rfl, rfl, rfl,
        ⟨strings, slack, rfl, hstrings, hsmall⟩, rfl⟩, rfl⟩

end Specs

/-! ### The calls on a task -/

/-- The pointers of `struct cb_task` to the blocks it owns. An execution has a context of the host, and an
allocation of a program is a record with the pointer it is about. -/
structure TaskRecord where
  self : ℕ
  errorCell : Option ℕ
  argv : Option ℕ
  ownedArgv : Option ℕ
  environment : Option ℕ
  pendingArgv : Option ℕ
  pendingOwnedArgv : Option ℕ
  pendingEnvironment : Option ℕ
  execution : Option (ℕ × ℕ)
  allocations : List (ℕ × ℕ)

/-- The zeroed record. -/
def TaskRecord.blank (self : ℕ) : TaskRecord := ⟨self, none, none, none, none, none, none, none, none, []⟩

/-- `native_instance_create`. -/
def instanceCreate : Work (Option (ℕ × ℕ)) := do
  match ← cbAllocate A (A.sizeOf .execution) .plain with
  | none => pure none
  | some native => do
    match ← cbAllocate A (A.sizeOf .context) .plain with
    | none => do
      cbRelease (some native)
      pure none
    | some context => pure (some (native, context))

/-- `native_instance_destroy`; there is nothing to do for `NULL`. -/
def instanceDestroy : Option (ℕ × ℕ) → Work Unit
  | none => pure ()
  | some (native, context) => do
    cbRelease (some context)
    cbRelease (some native)

/-- The end of `task_create` after a failure. -/
def taskFail (task : TaskRecord) : Work (Option TaskRecord) := do
  argumentVectorDestroy task.argv task.ownedArgv
  stringVectorDestroy task.environment
  cbRelease task.errorCell
  cbRelease (some task.self)
  pure none

/-- The environment a new program gets. -/
def environmentSource : Option (List Bytes) → Option ℕ → Source
  | some envp, _ => .given envp
  | none, some inherited => .held inherited
  | none, none => .null

/-- `task_create` for a parent with this environment; `applied` says whether `task_apply_actions` succeeds. -/
def taskCreate (inherited : Option ℕ) (argv : List Bytes) (envp : Option (List Bytes)) (applied : Bool) :
    Work (Option TaskRecord) := do
  if intMax < argv.length then pure none
  else
    match ← cbAllocate A (A.sizeOf .task) .plain with
    | none => pure none
    | some self => do
      match ← cbAllocate A (A.sizeOf .errorCell) .plain with
      | none => taskFail (.blank self)
      | some cell => do
        let (values, owned) ← argumentVectorCopy A (.given argv)
        let environment ← stringVectorCopy A (environmentSource envp inherited)
        let task := { TaskRecord.blank self with
          errorCell := some cell, argv := values, ownedArgv := owned, environment := environment }
        if values = none ∨ environment = none ∨ applied = false then taskFail task
        else
          match ← instanceCreate A with
          | none => taskFail task
          | some execution => pure (some { task with execution := some execution })

/-- `task_release_allocations`. -/
def releaseAllocations : List (ℕ × ℕ) → Work Unit
  | [] => pure ()
  | allocation :: rest => do
    cbRelease (some allocation.2)
    cbRelease (some allocation.1)
    releaseAllocations rest

def taskReleaseAllocations (task : TaskRecord) : Work TaskRecord := do
  releaseAllocations task.allocations
  pure { task with allocations := [] }

def taskDestroy (task : TaskRecord) : Work Unit := do
  let task ← taskReleaseAllocations task
  instanceDestroy task.execution
  argumentVectorDestroy task.argv task.ownedArgv
  stringVectorDestroy task.environment
  argumentVectorDestroy task.pendingArgv task.pendingOwnedArgv
  stringVectorDestroy task.pendingEnvironment
  cbRelease task.errorCell
  cbRelease (some task.self)

/-- `api_exec` from its copies on; `barred` is what the second check of the interrupt finds. -/
def apiExec (task : TaskRecord) (argv : List Bytes) (envp : Option (List Bytes)) (barred : Bool) :
    Work TaskRecord := do
  let (values, owned) ← argumentVectorCopy A (.given argv)
  let environment ← stringVectorCopy A (environmentSource envp task.environment)
  if values = none ∨ environment = none ∨ barred = true then do
    argumentVectorDestroy values owned
    stringVectorDestroy environment
    pure task
  else
    pure { task with pendingArgv := values, pendingOwnedArgv := owned, pendingEnvironment := environment }

/-- `task_finish_exec`; without an instance at the end the host stops. -/
def taskFinishExec (task : TaskRecord) : Work TaskRecord := do
  instanceDestroy task.execution
  let task ← taskReleaseAllocations { task with execution := none }
  argumentVectorDestroy task.argv task.ownedArgv
  stringVectorDestroy task.environment
  let execution ← instanceCreate A
  pure { task with
    argv := task.pendingArgv, ownedArgv := task.pendingOwnedArgv, environment := task.pendingEnvironment
    pendingArgv := none, pendingOwnedArgv := none, pendingEnvironment := none, execution := execution }

/-- A resized array of pointers. -/
def resizedVector (count : ℕ) : Block → Block
  | .vector cells => .vector (cells.take count ++ (List.range (count - cells.length)).map A.tail)
  | block => block

/-- The search of `api_setenv` and `api_unsetenv`: how many strings there are and where it stops. -/
def environmentIndex (cells : List (Option ℕ)) (count : ℕ) (name : Bytes) : Work ℕ := do
  let texts ← readStrings cells
  pure (Environ.searchFrom name count 0 (Cells.layOut texts []))

/-- The end of `api_setenv`: the new string takes the place of the one at `index`, or the array grows. -/
def putEntry (task : TaskRecord) (vector index count entry : ℕ) : Work TaskRecord := do
  if index < count then do
    cbRelease (← cellAt vector index)
    setCell vector index (some entry)
    pure task
  else
    match ← Blocks.move A.allocator vector ((count + 2) * 8 % (sizeMax + 1)) (resizedVector A (count + 2)) with
    | none => do
      cbRelease (some entry)
      pure task
    | some resized => do
      setCell resized count (some entry)
      setCell resized (count + 1) none
      pure { task with environment := some resized }

def apiSetenv (task : TaskRecord) (name value : Bytes) (overwrite : Bool) : Work TaskRecord := do
  if validEnvironmentName name = false then pure task
  else if sizeMax - 2 < value.length ∨ sizeMax - value.length - 2 < name.length then pure task
  else
    match task.environment with
    | none => Blocks.fault
    | some vector => do
      let cells ← loadVector vector
      match stringVectorCount cells with
      | none => pure task
      | some count => do
        let index ← environmentIndex cells count name
        if index < count ∧ overwrite = false then pure task
        else
          match ← cbStringDuplicate A (name ++ [equalsSign] ++ value) with
          | none => pure task
          | some entry => putEntry A task vector index count entry

/-- `memmove` of `size` cells from behind `index` to `index`. -/
def moveDown (vector index size : ℕ) : Work Unit := do
  let cells ← loadVector vector
  if index + 1 + size ≤ cells.length then
    Blocks.store vector (.vector (cells.take index ++ (cells.drop (index + 1)).take size ++ cells.drop (index + size)))
  else Blocks.fault

def apiUnsetenv (task : TaskRecord) (name : Bytes) : Work TaskRecord := do
  if validEnvironmentName name = false then pure task
  else
    match task.environment with
    | none => Blocks.fault
    | some vector => do
      let cells ← loadVector vector
      let count := (stringVectorCount cells).getD sizeMax
      let index ← environmentIndex cells count name
      if index < count then do
        cbRelease (← cellAt vector index)
        moveDown vector index (count - index)
        pure task
      else pure task

def apiAllocate (task : TaskRecord) (size : ℕ) : Work TaskRecord := do
  match ← cbAllocate A (if size = 0 then 1 else size) .plain with
  | none => pure task
  | some pointer => do
    match ← cbAllocate A (A.sizeOf .allocation) .plain with
    | none => do
      cbRelease (some pointer)
      pure task
    | some allocation => pure { task with allocations := (allocation, pointer) :: task.allocations }

/-- Take the allocation out of the list and give its blocks back. -/
def dropAllocation (task : TaskRecord) (allocation : ℕ × ℕ) : Work TaskRecord := do
  cbRelease (some allocation.2)
  cbRelease (some allocation.1)
  pure { task with allocations := task.allocations.erase allocation }

/-- The allocation `task_allocation_link` finds. -/
def allocationOf (task : TaskRecord) (pointer : ℕ) : Option (ℕ × ℕ) :=
  task.allocations.find? fun allocation => allocation.2 = pointer

/-- `(*link)->pointer = resized`. -/
def relink (pointer resized : ℕ) : List (ℕ × ℕ) → List (ℕ × ℕ)
  | [] => []
  | allocation :: rest =>
    if allocation.2 = pointer then (allocation.1, resized) :: rest else allocation :: relink pointer resized rest

def apiResize (task : TaskRecord) : Option ℕ → ℕ → Work TaskRecord
  | none, size => apiAllocate A task size
  | some pointer, size => do
    match allocationOf task pointer with
    | none => pure task
    | some allocation => do
      if size = 0 then dropAllocation task allocation
      else
        match ← Blocks.move A.allocator pointer size id with
        | none => pure task
        | some resized => pure { task with allocations := relink pointer resized task.allocations }

def apiRelease (task : TaskRecord) : Option ℕ → Work TaskRecord
  | none => pure task
  | some pointer =>
    match allocationOf task pointer with
    | none => pure task
    | some allocation => dropAllocation task allocation

/-- The program writes into the vector of arguments it was given. -/
def writeArgument (task : TaskRecord) (index : ℕ) (pointer : Option ℕ) : Work TaskRecord :=
  match task.argv with
  | none => pure task
  | some values => do
    let cells ← loadVector values
    Blocks.store values (.vector (cells.set index pointer))
    pure task

/-! ### What a task owns -/

/-- The strings in the four vectors of a task. -/
structure Contents where
  argv : Option (List Bytes)
  environment : Option (List Bytes)
  pendingArgv : Option (List Bytes)
  pendingEnvironment : Option (List Bytes)

/-- The blocks of the four vectors. -/
structure VectorBlocks where
  arguments : List (ℕ × Block)
  environment : List (ℕ × Block)
  pendingArguments : List (ℕ × Block)
  pendingEnvironment : List (ℕ × Block)

def plainCell (block : ℕ) : ℕ × Block := (block, .plain)

def executionCells : Option (ℕ × ℕ) → List (ℕ × Block)
  | none => []
  | some (native, context) => [plainCell context, plainCell native]

def allocationCells (allocation : ℕ × ℕ) : List (ℕ × Block) := [plainCell allocation.2, plainCell allocation.1]

/-- A record with the blocks it owns. -/
structure Owner where
  record : TaskRecord
  contents : Contents
  holdings : VectorBlocks
  arguments : OwnsArguments record.argv record.ownedArgv contents.argv holdings.arguments
  environment : OwnsOptional record.environment contents.environment holdings.environment
  pendingArguments : OwnsArguments record.pendingArgv record.pendingOwnedArgv contents.pendingArgv
    holdings.pendingArguments
  pendingEnvironment : OwnsOptional record.pendingEnvironment contents.pendingEnvironment
    holdings.pendingEnvironment
  present : record.environment ≠ none
  paired : record.pendingArgv = none ↔ record.pendingEnvironment = none

namespace Owner

/-- The blocks of an owner beside those of its vectors. -/
def bare (record : TaskRecord) : List (ℕ × Block) :=
  plainCell record.self :: record.errorCell.toList.map plainCell ++ executionCells record.execution ++
    record.allocations.flatMap allocationCells

def cells (o : Owner) : List (ℕ × Block) :=
  o.holdings.arguments ++ o.holdings.environment ++ o.holdings.pendingArguments ++
    o.holdings.pendingEnvironment ++ bare o.record

end Owner

section Records

variable {A : Arena}

theorem cbRelease_meets (pointer : Option ℕ) :
    Meets (pointer.toList.map plainCell) (cbRelease pointer) fun _ left => left = [] := by
  cases pointer with
  | none => exact Meets.pure rfl
  | some block => exact Meets.give block Block.plain

theorem instanceCreate_meets :
    Meets [] (instanceCreate A) fun r left => left = executionCells r := by
  refine Meets.bind _ (Meets.take A.allocator _ Block.plain) (.refl _) fun r left h => ?_
  rcases h with ⟨rfl, rfl⟩ | ⟨native, rfl, -, rfl⟩
  · exact Meets.pure rfl
  · refine Meets.bind _ (Meets.take A.allocator _ Block.plain) (.refl _) fun r left h => ?_
    rcases h with ⟨rfl, rfl⟩ | ⟨context, rfl, -, rfl⟩
    · refine Meets.bind _ (Meets.give native Block.plain) (.refl _) fun _ left h => ?_
      rw [h]
      exact Meets.pure rfl
    · exact Meets.pure rfl

theorem instanceDestroy_meets (execution : Option (ℕ × ℕ)) :
    Meets (executionCells execution) (instanceDestroy execution) fun _ left => left = [] := by
  cases execution with
  | none => exact Meets.pure rfl
  | some pair =>
    refine Meets.bind _ (Meets.give pair.2 Block.plain) (.refl _) fun _ left h => ?_
    rw [h]
    exact Meets.give pair.1 Block.plain

theorem releaseAllocations_meets (allocations : List (ℕ × ℕ)) :
    Meets (allocations.flatMap allocationCells) (releaseAllocations allocations) fun _ left => left = [] := by
  induction allocations with
  | nil => exact Meets.pure rfl
  | cons allocation rest ih =>
    refine Meets.bind _ (Meets.give allocation.2 Block.plain) (.refl _) fun _ left h => ?_
    rw [h]
    refine Meets.bind _ (Meets.give allocation.1 Block.plain) (.refl _) fun _ left h => ?_
    rw [h]
    exact ih

/-- The way out of `task_create` gives everything back. -/
theorem taskFail_meets {task : TaskRecord} {argv environment : Option (List Bytes)}
    {args env : List (ℕ × Block)} (hargs : OwnsArguments task.argv task.ownedArgv argv args)
    (henv : OwnsOptional task.environment environment env) :
    Meets (env ++ args ++ task.errorCell.toList.map plainCell ++ [plainCell task.self]) (taskFail task)
      fun r left => r = none ∧ left = [] := by
  have hswap : (env ++ args ++ task.errorCell.toList.map plainCell ++ [plainCell task.self]).Perm
      (args ++ (env ++ (task.errorCell.toList.map plainCell ++ [plainCell task.self]))) := by
    rw [List.append_assoc, ← List.append_assoc args]
    exact List.perm_append_comm.append_right _
  refine Meets.bind _ (argumentVectorDestroy_meets hargs) hswap fun _ left h => ?_
  rw [h]
  refine Meets.bind _ (optionalDestroy_meets henv) (.refl _) fun _ left h => ?_
  rw [h]
  refine Meets.bind _ (cbRelease_meets task.errorCell) (.refl _) fun _ left h => ?_
  rw [h]
  refine Meets.bind _ (Meets.give task.self Block.plain) (.refl _) fun _ left h => ?_
  rw [h]
  exact Meets.pure ⟨rfl, rfl⟩

theorem environmentCopy_meets {inherited : Option ℕ} {texts : Option (List Bytes)} {cells : List (ℕ × Block)}
    (h : OwnsOptional inherited texts cells) (envp : Option (List Bytes)) :
    Meets cells (stringVectorCopy A (environmentSource envp inherited)) fun r left =>
      ∃ own, OwnsOptional r (r.map fun _ => envp.getD (texts.getD [])) own ∧ left = own ++ cells := by
  have hcopy : ∀ {source : Source} {strings : List Bytes} {used rest : List (ℕ × Block)},
      source.Reads strings used → Meets (used ++ rest) (stringVectorCopy A source) fun r left =>
        ∃ own, OwnsOptional r (r.map fun _ => strings) own ∧ left = own ++ (used ++ rest) := by
    intro source strings used rest hreads
    refine Meets.frame rest (stringVectorCopy_meets hreads) (.refl _) fun r left h => ?_
    rcases h with ⟨rfl, rfl⟩ | ⟨vector, own, rfl, hown, rfl⟩
    · exact ⟨_, .refl _, [], .inl ⟨rfl, rfl, rfl⟩, rfl⟩
    · refine ⟨_, .refl _, own, .inr ⟨vector, strings, rfl, rfl, hown⟩, ?_⟩
      rw [List.append_assoc]
  cases envp with
  | some envp => exact @hcopy (.given envp) envp [] cells ⟨rfl, rfl⟩
  | none =>
    rcases h with ⟨rfl, rfl, rfl⟩ | ⟨v, strings, rfl, rfl, hv⟩
    · exact @hcopy .null [] [] [] ⟨rfl, rfl⟩
    · have hheld := @hcopy (.held v) strings cells [] hv
      rw [List.append_nil] at hheld
      exact hheld

/-- A new task owns its copies; when its creation fails nothing is left. -/
theorem taskCreate_meets {inherited : Option ℕ} {texts : Option (List Bytes)} {cells : List (ℕ × Block)}
    (h : OwnsOptional inherited texts cells) (argv : List Bytes) (envp : Option (List Bytes)) (applied : Bool) :
    Meets cells (taskCreate A inherited argv envp applied) fun r left =>
      r = none ∧ left = cells ∨ ∃ o : Owner, r = some o.record ∧
        o.contents = ⟨some argv, some (envp.getD (texts.getD [])), none, none⟩ ∧ left = o.cells ++ cells := by
  rw [taskCreate]
  split
  · exact Meets.pure (.inl ⟨rfl, rfl⟩)
  refine Meets.bind _ (Meets.take A.allocator _ Block.plain) (.refl _) fun r left hr => ?_
  rcases hr with ⟨rfl, rfl⟩ | ⟨self, rfl, -, rfl⟩
  · exact Meets.pure (.inl ⟨rfl, rfl⟩)
  refine Meets.bind _ (Meets.take A.allocator _ Block.plain) (.refl _) fun r left hr => ?_
  rcases hr with ⟨rfl, rfl⟩ | ⟨cell, rfl, -, rfl⟩
  · refine Meets.frame cells (@taskFail_meets (.blank self) none none [] [] (.inl ⟨rfl, rfl, rfl, rfl⟩)
      (.inl ⟨rfl, rfl, rfl⟩)) (.refl _) fun r left hr => ?_
    obtain ⟨rfl, rfl⟩ := hr
    exact ⟨_, .refl _, .inl ⟨rfl, rfl⟩⟩
  refine Meets.bind _ (@argumentVectorCopy_meets A (.given argv) argv [] ⟨rfl, rfl⟩) (.refl _) fun r left hr => ?_
  obtain ⟨args, hargs, rfl⟩ := hr
  obtain ⟨values, owned⟩ := r
  have hfront : (args ++ [] ++ ([plainCell cell] ++ ([plainCell self] ++ cells))).Perm
      (cells ++ (args ++ [plainCell cell, plainCell self])) := by
    refine List.perm_iff_count.mpr fun x => ?_
    simp only [List.count_append, List.count_cons, List.count_nil]
    omega
  refine Meets.bind _ (environmentCopy_meets h envp) hfront fun environment left hr => ?_
  obtain ⟨env, henv, rfl⟩ := hr
  dsimp only at hargs ⊢
  have hback : (env ++ cells ++ (args ++ [plainCell cell, plainCell self])).Perm
      (env ++ args ++ [plainCell cell] ++ [plainCell self] ++ cells) := by
    refine List.perm_iff_count.mpr fun x => ?_
    simp only [List.count_append, List.count_cons, List.count_nil]
    omega
  have hfail := @taskFail_meets { TaskRecord.blank self with
    errorCell := some cell, argv := values, ownedArgv := owned, environment := environment } _ _ _ _ hargs henv
  have hleave : ∀ (r : Option TaskRecord) left, r = none ∧ left = [] → ∃ cells', (left ++ cells).Perm cells' ∧
      (r = none ∧ cells' = cells ∨ ∃ o : Owner, r = some o.record ∧
        o.contents = ⟨some argv, some (envp.getD (texts.getD [])), none, none⟩ ∧ cells' = o.cells ++ cells) := by
    intro r left hr
    obtain ⟨rfl, rfl⟩ := hr
    exact ⟨_, .refl _, .inl ⟨rfl, rfl⟩⟩
  by_cases hstop : values = none ∨ environment = none ∨ applied = false
  · rw [if_pos hstop]
    exact Meets.frame cells hfail hback hleave
  rw [if_neg hstop]
  refine Meets.bind _ instanceCreate_meets (.refl _) fun execution left hr => ?_
  subst hr
  cases execution with
  | none => exact Meets.frame cells hfail hback hleave
  | some execution =>
    push Not at hstop
    obtain ⟨v, rfl⟩ := Option.ne_none_iff_exists'.mp hstop.1
    obtain ⟨e, rfl⟩ := Option.ne_none_iff_exists'.mp hstop.2.1
    let o : Owner := ⟨{ TaskRecord.blank self with
        errorCell := some cell, argv := some v, ownedArgv := owned, environment := some e
        execution := some execution },
      ⟨some argv, some (envp.getD (texts.getD [])), none, none⟩, ⟨args, env, [], []⟩, hargs, henv,
      .inl ⟨rfl, rfl, rfl, rfl⟩, .inl ⟨rfl, rfl, rfl⟩, hstop.2.1, Iff.rfl⟩
    have hready : (executionCells (some execution) ++ (env ++ cells ++ (args ++ [plainCell cell, plainCell self]))).Perm
        (o.cells ++ cells) := by
      refine List.perm_iff_count.mpr fun x => ?_
      simp only [o, Owner.cells, Owner.bare, List.count_append, List.count_cons, List.count_nil, TaskRecord.blank,
        Option.toList_some, List.map_cons, List.map_nil, List.flatMap_nil]
      omega
    exact (Meets.pure (.inr ⟨o, rfl, rfl, rfl⟩)).perm hready

theorem taskDestroy_meets (o : Owner) : Meets o.cells (taskDestroy o.record) fun _ left => left = [] := by
  have horder : o.cells.Perm (o.record.allocations.flatMap allocationCells ++ (executionCells o.record.execution ++
      (o.holdings.arguments ++ (o.holdings.environment ++ (o.holdings.pendingArguments ++
        (o.holdings.pendingEnvironment ++ (o.record.errorCell.toList.map plainCell ++
          [plainCell o.record.self]))))))) := by
    refine List.perm_iff_count.mpr fun x => ?_
    simp only [Owner.cells, Owner.bare, List.count_append, List.count_cons, List.count_nil]
    omega
  refine Meets.perm ?_ horder
  rw [taskDestroy, taskReleaseAllocations, bind_assoc]
  refine Meets.bind _ (releaseAllocations_meets _) (.refl _) fun _ left h => ?_
  rw [h, pure_bind]
  refine Meets.bind _ (instanceDestroy_meets _) (.refl _) fun _ left h => ?_
  rw [h]
  refine Meets.bind _ (argumentVectorDestroy_meets o.arguments) (.refl _) fun _ left h => ?_
  rw [h]
  refine Meets.bind _ (optionalDestroy_meets o.environment) (.refl _) fun _ left h => ?_
  rw [h]
  refine Meets.bind _ (argumentVectorDestroy_meets o.pendingArguments) (.refl _) fun _ left h => ?_
  rw [h]
  refine Meets.bind _ (optionalDestroy_meets o.pendingEnvironment) (.refl _) fun _ left h => ?_
  rw [h]
  refine Meets.bind _ (cbRelease_meets _) (.refl _) fun _ left h => ?_
  rw [h]
  exact Meets.give o.record.self Block.plain

/-- Without a pending `exec` there are no blocks for one. -/
theorem Owner.idle (o : Owner) (hidle : o.record.pendingArgv = none) :
    o.holdings.pendingArguments = [] ∧ o.holdings.pendingEnvironment = [] := by
  constructor
  · rcases o.pendingArguments with ⟨-, -, -, h⟩ | ⟨v, _, _, _, _, hv, -⟩
    · exact h
    · rw [hidle] at hv
      cases hv
  · rcases o.pendingEnvironment with ⟨-, -, h⟩ | ⟨v, _, hv, -⟩
    · exact h
    · rw [o.paired.mp hidle] at hv
      cases hv

/-- The strings a successful `exec` has pending. -/
def Contents.exec (c : Contents) (argv : List Bytes) (envp : Option (List Bytes)) : Contents :=
  { c with pendingArgv := some argv, pendingEnvironment := some (envp.getD (c.environment.getD [])) }

theorem apiExec_meets (o : Owner) (hidle : o.record.pendingArgv = none) (argv : List Bytes)
    (envp : Option (List Bytes)) (barred : Bool) :
    Meets o.cells (apiExec A o.record argv envp barred) fun r left =>
      ∃ o' : Owner, r = o'.record ∧ left = o'.cells ∧
        (o'.contents = o.contents ∨ o'.contents = o.contents.exec argv envp) := by
  rw [apiExec]
  refine Meets.bind _ (@argumentVectorCopy_meets A (.given argv) argv [] ⟨rfl, rfl⟩) (.refl _) fun r left hr => ?_
  obtain ⟨args, hargs, rfl⟩ := hr
  obtain ⟨values, owned⟩ := r
  have hfront : (args ++ [] ++ o.cells).Perm (o.holdings.environment ++ (args ++ (o.holdings.arguments ++
      (o.holdings.pendingArguments ++ (o.holdings.pendingEnvironment ++ Owner.bare o.record))))) := by
    refine List.perm_iff_count.mpr fun x => ?_
    simp only [Owner.cells, List.count_append, List.count_nil]
    omega
  refine Meets.bind _ (environmentCopy_meets o.environment envp) hfront fun environment left hr => ?_
  obtain ⟨env, henv, rfl⟩ := hr
  dsimp only at hargs ⊢
  have hback : (env ++ o.holdings.environment ++ (args ++ (o.holdings.arguments ++
      (o.holdings.pendingArguments ++ (o.holdings.pendingEnvironment ++ Owner.bare o.record))))).Perm
        (args ++ (env ++ o.cells)) := by
    refine List.perm_iff_count.mpr fun x => ?_
    simp only [Owner.cells, List.count_append]
    omega
  by_cases hstop : values = none ∨ environment = none ∨ barred = true
  · rw [if_pos hstop]
    refine Meets.bind _ (argumentVectorDestroy_meets hargs) hback fun _ left h => ?_
    rw [h]
    refine Meets.bind _ (optionalDestroy_meets henv) (.refl _) fun _ left h => ?_
    rw [h]
    exact Meets.pure ⟨o, rfl, rfl, .inl rfl⟩
  · rw [if_neg hstop]
    push Not at hstop
    obtain ⟨v, rfl⟩ := Option.ne_none_iff_exists'.mp hstop.1
    obtain ⟨e, rfl⟩ := Option.ne_none_iff_exists'.mp hstop.2.1
    obtain ⟨hargs', henv'⟩ := o.idle hidle
    let o' : Owner := ⟨{ o.record with
        pendingArgv := some v, pendingOwnedArgv := owned, pendingEnvironment := some e },
      o.contents.exec argv envp, ⟨o.holdings.arguments, o.holdings.environment, args, env⟩, o.arguments, o.environment,
      hargs, henv, o.present, by simp⟩
    have hready : (env ++ o.holdings.environment ++ (args ++ (o.holdings.arguments ++
        (o.holdings.pendingArguments ++ (o.holdings.pendingEnvironment ++ Owner.bare o.record))))).Perm o'.cells := by
      refine List.perm_iff_count.mpr fun x => ?_
      simp only [o', hargs', henv', Owner.cells, Owner.bare, List.count_append, List.count_nil]
      omega
    exact (Meets.pure ⟨o', rfl, rfl, .inr rfl⟩).perm hready

/-- The strings after a finished `exec`. -/
def Contents.finish (c : Contents) : Contents := ⟨c.pendingArgv, c.pendingEnvironment, none, none⟩

theorem taskFinishExec_meets (o : Owner) (hpending : o.record.pendingArgv ≠ none) :
    Meets o.cells (taskFinishExec A o.record) fun r left =>
      ∃ o' : Owner, r = o'.record ∧ left = o'.cells ∧ o'.contents = o.contents.finish := by
  have horder : o.cells.Perm (executionCells o.record.execution ++ (o.record.allocations.flatMap allocationCells ++
      (o.holdings.arguments ++ (o.holdings.environment ++ (o.holdings.pendingArguments ++
        (o.holdings.pendingEnvironment ++ (o.record.errorCell.toList.map plainCell ++
          [plainCell o.record.self]))))))) := by
    refine List.perm_iff_count.mpr fun x => ?_
    simp only [Owner.cells, Owner.bare, List.count_append, List.count_cons, List.count_nil]
    omega
  refine Meets.perm ?_ horder
  refine Meets.bind _ (instanceDestroy_meets _) (.refl _) fun _ left h => ?_
  rw [h, taskReleaseAllocations, bind_assoc]
  refine Meets.bind _ (releaseAllocations_meets _) (.refl _) fun _ left h => ?_
  rw [h, pure_bind]
  refine Meets.bind _ (argumentVectorDestroy_meets o.arguments) (.refl _) fun _ left h => ?_
  rw [h]
  refine Meets.bind _ (optionalDestroy_meets o.environment) (.refl _) fun _ left h => ?_
  rw [h]
  refine Meets.bind _ instanceCreate_meets (.refl _) fun execution left h => ?_
  rw [h]
  let o' : Owner := ⟨{ o.record with
      execution := execution, allocations := [], argv := o.record.pendingArgv
      ownedArgv := o.record.pendingOwnedArgv, environment := o.record.pendingEnvironment
      pendingArgv := none, pendingOwnedArgv := none, pendingEnvironment := none },
    o.contents.finish, ⟨o.holdings.pendingArguments, o.holdings.pendingEnvironment, [], []⟩,
    o.pendingArguments, o.pendingEnvironment, .inl ⟨rfl, rfl, rfl, rfl⟩, .inl ⟨rfl, rfl, rfl⟩,
    mt o.paired.mpr hpending, Iff.rfl⟩
  have hready : (executionCells execution ++ (o.holdings.pendingArguments ++ (o.holdings.pendingEnvironment ++
      (o.record.errorCell.toList.map plainCell ++ [plainCell o.record.self])))).Perm o'.cells := by
    refine List.perm_iff_count.mpr fun x => ?_
    simp only [o', Owner.cells, Owner.bare, List.count_append, List.count_cons, List.count_nil, List.flatMap_nil]
    omega
  exact (Meets.pure ⟨o', rfl, rfl, rfl⟩).perm hready

/-! ### The environment in place -/

theorem exists_split {α : Type} {l : List α} {i : ℕ} (hi : i < l.length) :
    ∃ front x back, l = front ++ x :: back ∧ front.length = i := by
  refine ⟨l.take i, l[i], l.drop (i + 1), ?_, ?_⟩
  · rw [← List.drop_eq_getElem_cons hi, List.take_append_drop]
  · rw [List.length_take]
    omega

theorem set_slots (front back : List (ℕ × Bytes)) (old new : ℕ × Bytes) (slack : List (Option ℕ)) :
    (slots (front ++ old :: back) ++ none :: slack).set front.length (some new.1) =
      slots (front ++ new :: back) ++ none :: slack := by
  rw [slots_append, slots_append, List.append_assoc, List.append_assoc,
    List.set_append_right _ _ (by rw [length_slots]), length_slots, Nat.sub_self]
  rfl

/-- The string of a cell is given back and another one takes its place. -/
theorem replace_meets {vector : ℕ} {front back : List (ℕ × Bytes)} {old new : ℕ × Bytes} {slack : List (Option ℕ)}
    (task : TaskRecord) :
    Meets (textCell new :: vectorCells vector (front ++ old :: back) slack)
      (do
        cbRelease (← cellAt vector front.length)
        setCell vector front.length (some new.1)
        pure task) fun r left => r = task ∧ left = vectorCells vector (front ++ new :: back) slack := by
  have hcell : (slots (front ++ old :: back) ++ none :: slack)[front.length]? = some (some old.1) := by
    rw [slots_append, List.append_assoc, List.getElem?_append_right (by rw [length_slots]), length_slots, Nat.sub_self]
    rfl
  have hroom : front.length < (slots (front ++ old :: back) ++ none :: slack).length := by
    rw [List.length_append, length_slots, List.length_append, List.length_cons]
    omega
  refine Meets.bind _ (cellAt_meets hcell) (List.Perm.swap _ _ _) fun pointer left h => ?_
  obtain ⟨rfl, rfl⟩ := h
  have hold : ([(vector, Block.vector (slots (front ++ old :: back) ++ none :: slack))] ++
      (textCell new :: (front ++ old :: back).map textCell)).Perm ([textCell old] ++
        ((vector, Block.vector (slots (front ++ old :: back) ++ none :: slack)) ::
          (textCell new :: (front ++ back).map textCell))) := by
    refine List.perm_iff_count.mpr fun x => ?_
    simp only [List.map_append, List.map_cons, List.count_append, List.count_cons, List.count_nil]
    omega
  refine Meets.bind _ (Meets.give old.1 (Block.text old.2)) hold fun _ left h => ?_
  rw [h]
  refine Meets.bind _ (setCell_meets (some new.1) hroom) (.refl _) fun _ left h => ?_
  rw [h, set_slots]
  have hready : ([(vector, Block.vector (slots (front ++ new :: back) ++ none :: slack))] ++
      (textCell new :: (front ++ back).map textCell)).Perm (vectorCells vector (front ++ new :: back) slack) := by
    refine List.perm_iff_count.mpr fun x => ?_
    simp only [vectorCells, List.map_append, List.map_cons, List.count_append, List.count_cons, List.count_nil]
    omega
  exact (Meets.pure ⟨rfl, rfl⟩).perm hready

/-- Two stores at the end of an array. -/
theorem set_set_end {α : Type} {l front : List α} {x y : α} (hlen : l.length = front.length + 2)
    (htake : l.take front.length = front) : (l.set front.length x).set (front.length + 1) y = front ++ [x, y] := by
  have hsplit := List.take_append_drop front.length l
  rw [htake] at hsplit
  obtain ⟨back, rfl⟩ : ∃ back, l = front ++ back := ⟨_, hsplit.symm⟩
  rw [List.length_append, Nat.add_left_cancel_iff] at hlen
  obtain ⟨a, b, rfl⟩ := List.length_eq_two.mp hlen
  simp

/-- The array grows by one string, or the new string is given back. -/
theorem append_meets {vector : ℕ} {strings : List (ℕ × Bytes)} {new : ℕ × Bytes} {slack : List (Option ℕ)}
    (task : TaskRecord) (size : ℕ) :
    Meets (textCell new :: vectorCells vector strings slack)
      (do
        match ← Blocks.move A.allocator vector size (resizedVector A (strings.length + 2)) with
        | none => do
          cbRelease (some new.1)
          pure task
        | some resized => do
          setCell resized strings.length (some new.1)
          setCell resized (strings.length + 1) none
          pure { task with environment := some resized }) fun r left =>
      r = task ∧ left = vectorCells vector strings slack ∨
        ∃ resized, size ≤ int64Max ∧ r = { task with environment := some resized } ∧
          left = vectorCells resized (strings ++ [new]) [] := by
  refine Meets.bind _ (Meets.move A.allocator vector (Block.vector (slots strings ++ none :: slack)) size _)
    (List.Perm.swap _ _ _) fun r left h => ?_
  rcases h with ⟨rfl, rfl⟩ | ⟨resized, rfl, hsize, rfl⟩
  · refine Meets.bind _ (Meets.give new.1 (Block.text new.2)) (List.Perm.swap _ _ _) fun _ left h => ?_
    rw [h]
    exact Meets.pure (.inl ⟨rfl, rfl⟩)
  · generalize hcells : (slots strings ++ none :: slack).take (strings.length + 2) ++
      (List.range (strings.length + 2 - (slots strings ++ none :: slack).length)).map A.tail = cells
    have hresized : resizedVector A (strings.length + 2) (.vector (slots strings ++ none :: slack)) =
        .vector cells := by
      rw [← hcells]
      rfl
    have hlen : cells.length = (slots strings).length + 2 := by
      rw [← hcells, List.length_append, List.length_map, List.length_range, List.length_take, List.length_append,
        length_slots]
      omega
    have htake : cells.take (slots strings).length = slots strings := by
      rw [← hcells, length_slots, List.take_append_of_le_length, List.take_take, Nat.min_eq_left (by omega)]
      · exact List.take_left' (length_slots strings)
      · rw [List.length_take, List.length_append, length_slots, List.length_cons]
        omega
    have hend := @set_set_end _ cells (slots strings) (some new.1) none hlen htake
    rw [length_slots] at hlen hend
    rw [hresized]
    refine Meets.bind _ (setCell_meets (some new.1) (by omega)) (.refl _) fun _ left h => ?_
    rw [h]
    refine Meets.bind _ (setCell_meets none (by rw [List.length_set]; omega)) (.refl _) fun _ left h => ?_
    rw [h, hend]
    have hslots : slots strings ++ [some new.1, none] = slots (strings ++ [new]) ++ [none] := by
      rw [slots_append, List.append_assoc]
      rfl
    have hready : ([(resized, Block.vector (slots strings ++ [some new.1, none]))] ++
        (textCell new :: strings.map textCell)).Perm (vectorCells resized (strings ++ [new]) []) := by
      rw [hslots]
      refine List.perm_iff_count.mpr fun x => ?_
      simp only [vectorCells, List.map_append, List.map_cons, List.map_nil, List.count_append, List.count_cons,
        List.count_nil]
      omega
    exact (Meets.pure (.inr ⟨resized, A.limit ▸ hsize, rfl, rfl⟩)).perm hready

theorem move_down {α : Type} (front back slack : List α) (old x : α) :
    (front ++ old :: (back ++ x :: slack)).take front.length ++
        ((front ++ old :: (back ++ x :: slack)).drop (front.length + 1)).take (back.length + 1) ++
          (front ++ old :: (back ++ x :: slack)).drop (front.length + (back.length + 1)) =
      front ++ (back ++ x :: x :: slack) := by
  rw [List.take_left, List.drop_length_add_append, List.drop_length_add_append, List.drop_succ_cons, List.drop_succ_cons,
    List.drop_zero, List.take_length_add_append, List.drop_left, List.append_assoc, List.append_assoc]
  rfl

/-- The string of a cell is given back, and those behind it move down. -/
theorem remove_meets {vector : ℕ} {front back : List (ℕ × Bytes)} {old : ℕ × Bytes} {slack : List (Option ℕ)}
    (task : TaskRecord) :
    Meets (vectorCells vector (front ++ old :: back) slack)
      (do
        cbRelease (← cellAt vector front.length)
        moveDown vector front.length ((front ++ old :: back).length - front.length)
        pure task) fun r left => r = task ∧ left = vectorCells vector (front ++ back) (none :: slack) := by
  have hcell : (slots (front ++ old :: back) ++ none :: slack)[front.length]? = some (some old.1) := by
    rw [slots_append, List.append_assoc, List.getElem?_append_right (by rw [length_slots]), length_slots, Nat.sub_self]
    rfl
  refine Meets.bind _ (cellAt_meets hcell) (.refl _) fun pointer left h => ?_
  obtain ⟨rfl, rfl⟩ := h
  have hold : ([(vector, Block.vector (slots (front ++ old :: back) ++ none :: slack))] ++
      (front ++ old :: back).map textCell).Perm ([textCell old] ++
        ((vector, Block.vector (slots (front ++ old :: back) ++ none :: slack)) :: (front ++ back).map textCell)) := by
    refine List.perm_iff_count.mpr fun x => ?_
    simp only [List.map_append, List.map_cons, List.count_append, List.count_cons, List.count_nil]
    omega
  refine Meets.bind _ (Meets.give old.1 (Block.text old.2)) hold fun _ left h => ?_
  rw [h]
  have hsize : (front ++ old :: back).length - front.length = back.length + 1 := by
    rw [List.length_append, List.length_cons]
    omega
  have hmove : Meets [(vector, Block.vector (slots (front ++ old :: back) ++ none :: slack))]
      (moveDown vector front.length (back.length + 1)) fun _ left =>
        left = [(vector, Block.vector (slots (front ++ back) ++ none :: none :: slack))] := by
    refine Meets.bind _ (loadVector_meets vector _) (.refl _) fun r left h => ?_
    obtain ⟨rfl, rfl⟩ := h
    have hroom : front.length + 1 + (back.length + 1) ≤ (slots (front ++ old :: back) ++ none :: slack).length := by
      rw [List.length_append, length_slots, List.length_append, List.length_cons, List.length_cons]
      omega
    have hmoved : (slots (front ++ old :: back) ++ none :: slack).take front.length ++
        ((slots (front ++ old :: back) ++ none :: slack).drop (front.length + 1)).take (back.length + 1) ++
          (slots (front ++ old :: back) ++ none :: slack).drop (front.length + (back.length + 1)) =
        slots (front ++ back) ++ none :: none :: slack := by
      have hmoved := move_down (slots front) (slots back) slack (some old.1) none
      have hslots : slots (front ++ old :: back) ++ none :: slack =
          slots front ++ some old.1 :: (slots back ++ none :: slack) := by
        rw [slots_append, List.append_assoc]
        rfl
      rw [length_slots, length_slots] at hmoved
      rw [hslots, slots_append, List.append_assoc (slots front), hmoved]
    rw [if_pos hroom, hmoved]
    exact Meets.store vector _ _
  rw [hsize]
  refine Meets.bind _ hmove (.refl _) fun _ left h => ?_
  rw [h]
  exact Meets.pure ⟨rfl, rfl⟩

theorem environmentIndex_meets (strings : List (ℕ × Bytes)) (slack : List (Option ℕ)) (name : Bytes) :
    Meets (strings.map textCell) (environmentIndex (slots strings ++ none :: slack) strings.length name)
      fun r left => r = (strings.map Prod.snd).findIdx (Environ.setsName name) ∧ left = strings.map textCell := by
  refine Meets.bind [] (readStrings_meets strings slack) (by rw [List.append_nil]) fun texts left h => ?_
  obtain ⟨rfl, rfl⟩ := h
  have hfind := Environ.searchFrom_layOut name 0 (strings.map Prod.snd) []
  rw [List.length_map, Nat.zero_add] at hfind
  rw [List.append_nil]
  exact Meets.pure ⟨hfind, rfl⟩

/-- The environment after a `setenv` that is granted its blocks. -/
def Contents.setenv (c : Contents) (name value : Bytes) (overwrite : Bool) : Contents :=
  { c with environment := c.environment.map fun texts =>
      (Environ.apiSetenv .calm (Cells.layOut texts []) name value overwrite).1.strings }

/-- The environment after an `unsetenv`. -/
def Contents.unsetenv (c : Contents) (name : Bytes) : Contents :=
  { c with environment := c.environment.map fun texts =>
      (Environ.apiUnsetenv (Cells.layOut texts []) name).1.strings }

/-- An owner whose environment is another vector. -/
def Owner.withEnvironment (o : Owner) (vector : ℕ) (strings : List (ℕ × Bytes)) (slack : List (Option ℕ))
    (hsmall : 8 * (strings.length + 1 + slack.length) ≤ int64Max) : Owner :=
  ⟨{ o.record with environment := some vector }, { o.contents with environment := some (strings.map Prod.snd) },
    { o.holdings with environment := vectorCells vector strings slack }, o.arguments,
    .inr ⟨vector, _, rfl, rfl, strings, slack, rfl, rfl, hsmall⟩, o.pendingArguments, o.pendingEnvironment,
    Option.some_ne_none _, o.paired⟩

/-- The blocks of an owner beside its environment. -/
def Owner.rest (o : Owner) : List (ℕ × Block) :=
  o.holdings.arguments ++ o.holdings.pendingArguments ++ o.holdings.pendingEnvironment ++ Owner.bare o.record

theorem Owner.cells_perm (o : Owner) : o.cells.Perm (o.holdings.environment ++ o.rest) := by
  refine List.perm_iff_count.mpr fun x => ?_
  simp only [Owner.cells, Owner.rest, List.count_append]
  omega

/-- The vector of the environment. -/
theorem Owner.exists_vector (o : Owner) : ∃ vector strings slack, o.record.environment = some vector ∧
    o.contents.environment = some (strings.map Prod.snd) ∧ o.holdings.environment = vectorCells vector strings slack ∧
      8 * (strings.length + 1 + slack.length) ≤ int64Max := by
  rcases o.environment with ⟨hnone, -⟩ | ⟨v, texts, hv, htexts, strings, slack, hcells, rfl, hsmall⟩
  · exact absurd hnone o.present
  · exact ⟨v, strings, slack, hv, htexts, hcells, hsmall⟩

/-- `setenv` in terms of the strings. -/
theorem strings_setenv {texts : List Bytes} {name value : Bytes} {overwrite : Bool}
    (hsmall : 8 * (texts.length + 1) ≤ int64Max) (hname : ¬ validEnvironmentName name = false)
    (hsize : ¬ (sizeMax - 2 < value.length ∨ sizeMax - value.length - 2 < name.length))
    (hkeep : ¬ (texts.findIdx (Environ.setsName name) < texts.length ∧ overwrite = false)) :
    (texts.findIdx (Environ.setsName name) < texts.length →
      (Environ.apiSetenv .calm (Cells.layOut texts []) name value overwrite).1.strings =
        texts.set (texts.findIdx (Environ.setsName name)) (name ++ [equalsSign] ++ value)) ∧
    (¬ texts.findIdx (Environ.setsName name) < texts.length → (texts.length + 2) * 8 ≤ int64Max →
      (Environ.apiSetenv .calm (Cells.layOut texts []) name value overwrite).1.strings =
        texts ++ [name ++ [equalsSign] ++ value]) := by
  have hlen : 8 * (Cells.layOut texts []).length ≤ int64Max := by
    rw [Cells.length_layOut]
    exact hsmall
  rw [Environ.apiSetenv_eq hlen, if_neg hname, if_neg hsize, if_neg hkeep, if_neg (by decide)]
  refine ⟨fun hfound => ?_, fun hfound hroom => ?_⟩
  · rw [if_pos hfound, Cells.strings_layOut]
  · have hgrant : ¬ Host.calm.grants ((texts.length + 2) * 8) = false := by
      rw [Bool.not_eq_false, Host.grants, Bool.and_eq_true, decide_eq_true_eq]
      exact ⟨rfl, hroom⟩
    rw [if_neg hfound, if_neg hgrant, Cells.strings_layOut]

theorem putEntry_meets (task : TaskRecord) (vector index : ℕ) (strings : List (ℕ × Bytes)) (new : ℕ × Bytes)
    (slack : List (Option ℕ)) :
    Meets (textCell new :: vectorCells vector strings slack) (putEntry A task vector index strings.length new.1)
      fun r left =>
        (r = task ∧ ∃ strings', left = vectorCells vector strings' slack ∧ strings'.length = strings.length ∧
          (strings' = strings ∨ index < strings.length ∧
            strings'.map Prod.snd = (strings.map Prod.snd).set index new.2)) ∨
        ¬ index < strings.length ∧ ∃ resized, (strings.length + 2) * 8 % (sizeMax + 1) ≤ int64Max ∧
          r = { task with environment := some resized } ∧ left = vectorCells resized (strings ++ [new]) [] := by
  rw [putEntry]
  by_cases hfound : index < strings.length
  · rw [if_pos hfound]
    obtain ⟨front, old, back, rfl, rfl⟩ := exists_split hfound
    refine Meets.frame [] (@replace_meets vector front back old new slack task) (by rw [List.append_nil])
      fun r left h => ?_
    obtain ⟨rfl, rfl⟩ := h
    refine ⟨_, by rw [List.append_nil], .inl ⟨rfl, front ++ new :: back, rfl, ?_, .inr ⟨hfound, ?_⟩⟩⟩
    · rw [List.length_append, List.length_append, List.length_cons, List.length_cons]
    · rw [List.map_append, List.map_append, List.map_cons, List.map_cons,
        List.set_append_right _ _ (by rw [List.length_map]), List.length_map, Nat.sub_self, List.set_cons_zero]
  · rw [if_neg hfound]
    refine Meets.frame [] (@append_meets A vector strings new slack task _) (by rw [List.append_nil])
      fun r left h => ?_
    rcases h with ⟨rfl, rfl⟩ | ⟨resized, hroom, rfl, rfl⟩
    · exact ⟨_, by rw [List.append_nil], .inl ⟨rfl, strings, rfl, rfl, .inl rfl⟩⟩
    · exact ⟨_, by rw [List.append_nil], .inr ⟨hfound, resized, hroom, rfl, rfl⟩⟩

/-- `setenv` acts as on the cells, or it leaves everything as it was. -/
theorem apiSetenv_meets (o : Owner) (name value : Bytes) (overwrite : Bool) :
    Meets o.cells (apiSetenv A o.record name value overwrite) fun r left =>
      ∃ o' : Owner, r = o'.record ∧ left = o'.cells ∧
        (o'.contents = o.contents ∨ o'.contents = o.contents.setenv name value overwrite) := by
  have hsame : ∀ {cells : List (ℕ × Block)}, cells.Perm o.cells → Meets cells
      (pure o.record : Work TaskRecord) fun r left => ∃ o' : Owner, r = o'.record ∧ left = o'.cells ∧
        (o'.contents = o.contents ∨ o'.contents = o.contents.setenv name value overwrite) :=
    fun hperm => (Meets.pure ⟨o, rfl, rfl, .inl rfl⟩).perm hperm
  rw [apiSetenv]
  split
  · exact hsame (.refl _)
  rename_i hname
  split
  · exact hsame (.refl _)
  rename_i hsize
  obtain ⟨vector, strings, slack, hvector, htexts, hcells, hsmall⟩ := o.exists_vector
  have hperm := o.cells_perm
  rw [hcells] at hperm
  rw [hvector]
  refine Meets.bind _ (loadVector_meets vector _) hperm fun r left h => ?_
  obtain ⟨rfl, rfl⟩ := h
  rw [stringVectorCount_slots hsmall]
  have hcomm : ([(vector, Block.vector (slots strings ++ none :: slack))] ++
      (strings.map textCell ++ o.rest)).Perm (strings.map textCell ++
        ((vector, Block.vector (slots strings ++ none :: slack)) :: o.rest)) := by
    refine List.perm_iff_count.mpr fun x => ?_
    simp only [List.count_append, List.count_cons, List.count_nil]
    omega
  refine Meets.bind _ (environmentIndex_meets strings slack name) hcomm fun index left h => ?_
  obtain ⟨rfl, rfl⟩ := h
  have hback := hcomm.symm.trans hperm.symm
  by_cases hkeep : (strings.map Prod.snd).findIdx (Environ.setsName name) < strings.length ∧ overwrite = false
  · rw [if_pos hkeep]
    exact hsame hback
  rw [if_neg hkeep]
  refine Meets.bind _ (cbStringDuplicate_meets _) (.refl _) fun r left h => ?_
  rcases h with ⟨rfl, rfl⟩ | ⟨entry, rfl, rfl⟩
  · exact hsame hback
  have hentry : ([textCell (entry, name ++ [equalsSign] ++ value)] ++ (strings.map textCell ++
      ((vector, Block.vector (slots strings ++ none :: slack)) :: o.rest))).Perm
        (textCell (entry, name ++ [equalsSign] ++ value) :: vectorCells vector strings slack ++ o.rest) := by
    refine List.perm_iff_count.mpr fun x => ?_
    simp only [vectorCells, List.count_append, List.count_cons, List.count_nil]
    omega
  have hsmall' : 8 * ((strings.map Prod.snd).length + 1) ≤ int64Max := by
    rw [List.length_map]
    omega
  have heffect := strings_setenv hsmall' hname hsize (by rwa [List.length_map])
  rw [List.length_map] at heffect
  refine Meets.frame o.rest (putEntry_meets o.record vector _ strings (entry, name ++ [equalsSign] ++ value) slack)
    hentry fun r left h => ?_
  rcases h with ⟨rfl, strings', rfl, hlen, hstrings⟩ | ⟨hfound, resized, hroom, rfl, rfl⟩
  · let o' := o.withEnvironment vector strings' slack (by rw [hlen]; exact hsmall)
    have hrecord : o.record = o'.record := by
      show o.record = { o.record with environment := some vector }
      rw [← hvector]
    refine ⟨_, o'.cells_perm.symm, o', hrecord, rfl, ?_⟩
    rcases hstrings with rfl | ⟨hfound, htext⟩
    · refine .inl ?_
      show ({ o.contents with environment := some (strings'.map Prod.snd) } : Contents) = o.contents
      rw [← htexts]
    · refine .inr ?_
      show ({ o.contents with environment := some (strings'.map Prod.snd) } : Contents) = _
      rw [Contents.setenv, htexts, Option.map_some, heffect.1 hfound, htext]
  · have hwrap : (strings.length + 2) * 8 ≤ int64Max := by
      rw [Nat.mod_eq_of_lt] at hroom
      · exact hroom
      · simp only [int64Max, sizeMax] at hsmall ⊢
        omega
    let o' := o.withEnvironment resized (strings ++ [(entry, name ++ [equalsSign] ++ value)]) [] (by
      rw [List.length_append, List.length_singleton, List.length_nil]
      omega)
    refine ⟨_, o'.cells_perm.symm, o', rfl, rfl, .inr ?_⟩
    have hcontents : o'.contents = { o.contents with
        environment := some ((strings ++ [(entry, name ++ [equalsSign] ++ value)]).map Prod.snd) } := rfl
    rw [hcontents, Contents.setenv, htexts, Option.map_some, heffect.2 hfound hwrap, List.map_append]
    rfl

theorem apiUnsetenv_meets (o : Owner) (name : Bytes) :
    Meets o.cells (apiUnsetenv o.record name) fun r left =>
      ∃ o' : Owner, r = o'.record ∧ left = o'.cells ∧ o'.contents = o.contents.unsetenv name := by
  obtain ⟨vector, strings, slack, hvector, htexts, hcells, hsmall⟩ := o.exists_vector
  have hlen : 8 * (Cells.layOut (strings.map Prod.snd) []).length ≤ int64Max := by
    rw [Cells.length_layOut, List.length_map, List.length_nil]
    omega
  rw [apiUnsetenv]
  by_cases hname : validEnvironmentName name = false
  · rw [if_pos hname]
    refine Meets.pure ⟨o, rfl, rfl, ?_⟩
    rw [Contents.unsetenv, htexts, Option.map_some, Environ.apiUnsetenv, if_pos hname, Cells.strings_layOut, ← htexts]
  rw [if_neg hname]
  obtain ⟨rest', hunset, -⟩ := Environ.apiUnsetenv_layOut hlen (Bool.not_eq_false _ ▸ hname)
  have heffect : o.contents.unsetenv name =
      { o.contents with environment := some ((strings.map Prod.snd).eraseP (Environ.setsName name)) } := by
    rw [Contents.unsetenv, htexts, Option.map_some, hunset, Cells.strings_layOut]
  have hperm := o.cells_perm
  rw [hcells] at hperm
  rw [hvector]
  refine Meets.bind _ (loadVector_meets vector _) hperm fun r left h => ?_
  obtain ⟨rfl, rfl⟩ := h
  dsimp only
  rw [stringVectorCount_slots hsmall, Option.getD_some]
  have hcomm : ([(vector, Block.vector (slots strings ++ none :: slack))] ++
      (strings.map textCell ++ o.rest)).Perm (strings.map textCell ++
        ((vector, Block.vector (slots strings ++ none :: slack)) :: o.rest)) := by
    refine List.perm_iff_count.mpr fun x => ?_
    simp only [List.count_append, List.count_cons, List.count_nil]
    omega
  refine Meets.bind _ (environmentIndex_meets strings slack name) hcomm fun index left h => ?_
  obtain ⟨rfl, rfl⟩ := h
  have hback := hcomm.symm.trans hperm.symm
  have herase := eraseIdx_findIdx (p := Environ.setsName name) (strings.map Prod.snd)
  by_cases hfound : (strings.map Prod.snd).findIdx (Environ.setsName name) < strings.length
  · rw [if_pos hfound]
    obtain ⟨front, old, back, rfl, hfront⟩ := exists_split hfound
    rw [← hfront] at herase ⊢
    refine Meets.frame o.rest (@remove_meets vector front back old slack o.record)
      (hcomm.symm.trans (.refl _)) fun r left h => ?_
    obtain ⟨rfl, rfl⟩ := h
    let o' := o.withEnvironment vector (front ++ back) (none :: slack) (by
      rw [List.length_append, List.length_cons] at hsmall ⊢
      omega)
    have hrecord : o.record = o'.record := by
      show o.record = { o.record with environment := some vector }
      rw [← hvector]
    have hcontents : o'.contents = { o.contents with environment := some ((front ++ back).map Prod.snd) } := rfl
    refine ⟨_, o'.cells_perm.symm, o', hrecord, rfl, ?_⟩
    rw [heffect, hcontents, ← herase, List.map_append, List.map_append, List.map_cons,
      List.eraseIdx_append_of_length_le (by rw [List.length_map]), List.length_map, Nat.sub_self, List.eraseIdx_cons_zero]
  · rw [if_neg hfound]
    refine (Meets.pure ⟨o, rfl, rfl, ?_⟩).perm hback
    rw [heffect, ← herase, List.eraseIdx_of_length_le (by rw [List.length_map]; omega), ← htexts]

/-! ### The memory of the program -/

/-- An owner with other allocations. -/
def Owner.withAllocations (o : Owner) (allocations : List (ℕ × ℕ)) : Owner :=
  ⟨{ o.record with allocations := allocations }, o.contents, o.holdings, o.arguments, o.environment,
    o.pendingArguments, o.pendingEnvironment, o.present, o.paired⟩

/-- The blocks of an owner beside its allocations. -/
def Owner.frame (o : Owner) : List (ℕ × Block) :=
  o.holdings.arguments ++ o.holdings.environment ++ o.holdings.pendingArguments ++ o.holdings.pendingEnvironment ++
    (plainCell o.record.self :: o.record.errorCell.toList.map plainCell ++ executionCells o.record.execution)

theorem Owner.withAllocations_perm (o : Owner) (allocations : List (ℕ × ℕ)) :
    (o.withAllocations allocations).cells.Perm (allocations.flatMap allocationCells ++ o.frame) := by
  refine List.perm_iff_count.mpr fun x => ?_
  simp only [Owner.withAllocations, Owner.cells, Owner.bare, Owner.frame, List.count_append, List.count_cons]
  omega

theorem apiAllocate_meets (o : Owner) (size : ℕ) :
    Meets o.cells (apiAllocate A o.record size) fun r left =>
      ∃ o' : Owner, r = o'.record ∧ left = o'.cells ∧ o'.contents = o.contents := by
  refine Meets.bind _ (Meets.take A.allocator _ Block.plain) (.refl _) fun r left h => ?_
  rcases h with ⟨rfl, rfl⟩ | ⟨pointer, rfl, -, rfl⟩
  · exact Meets.pure ⟨o, rfl, rfl, rfl⟩
  refine Meets.bind _ (Meets.take A.allocator _ Block.plain) (.refl _) fun r left h => ?_
  rcases h with ⟨rfl, rfl⟩ | ⟨allocation, rfl, -, rfl⟩
  · refine Meets.bind _ (Meets.give pointer Block.plain) (.refl _) fun _ left h => ?_
    rw [h]
    exact Meets.pure ⟨o, rfl, rfl, rfl⟩
  · let o' := o.withAllocations ((allocation, pointer) :: o.record.allocations)
    have hready : ([plainCell allocation] ++ ([plainCell pointer] ++ o.cells)).Perm o'.cells := by
      refine .trans ?_ (o.withAllocations_perm _).symm
      refine .trans (((o.withAllocations_perm o.record.allocations).append_left _).append_left _) ?_
      refine List.perm_iff_count.mpr fun x => ?_
      simp only [List.flatMap_cons, allocationCells, List.count_append, List.count_cons, List.count_nil]
      omega
    exact (Meets.pure ⟨o', rfl, rfl, rfl⟩).perm hready

/-- The blocks of one allocation, and the others. -/
theorem flatMap_erase_perm {allocations : List (ℕ × ℕ)} {allocation : ℕ × ℕ} (h : allocation ∈ allocations) :
    (allocations.flatMap allocationCells).Perm
      (allocationCells allocation ++ (allocations.erase allocation).flatMap allocationCells) :=
  (List.perm_cons_erase h).flatMap_right allocationCells

theorem dropAllocation_meets (o : Owner) {allocation : ℕ × ℕ} (h : allocation ∈ o.record.allocations) :
    Meets o.cells (dropAllocation o.record allocation) fun r left =>
      ∃ o' : Owner, r = o'.record ∧ left = o'.cells ∧ o'.contents = o.contents := by
  let o' := o.withAllocations (o.record.allocations.erase allocation)
  have hperm : o.cells.Perm (allocationCells allocation ++ o'.cells) := by
    refine (o.withAllocations_perm o.record.allocations).trans ?_
    refine .trans ?_ ((o.withAllocations_perm _).append_left _).symm
    rw [← List.append_assoc]
    exact (flatMap_erase_perm h).append_right _
  refine Meets.perm ?_ hperm
  refine Meets.bind _ (Meets.give allocation.2 Block.plain) (.refl _) fun _ left h => ?_
  rw [h]
  refine Meets.bind _ (Meets.give allocation.1 Block.plain) (.refl _) fun _ left h => ?_
  rw [h]
  exact Meets.pure ⟨o', rfl, rfl, rfl⟩

theorem mem_of_allocationOf {task : TaskRecord} {pointer : ℕ} {allocation : ℕ × ℕ}
    (h : allocationOf task pointer = some allocation) :
    allocation ∈ task.allocations ∧ allocation.2 = pointer :=
  ⟨List.mem_of_find?_eq_some h, by simpa using List.find?_some h⟩

/-- One allocation gets another pointer, the others stay. -/
theorem relink_perm {allocations : List (ℕ × ℕ)} {pointer : ℕ} {allocation : ℕ × ℕ} (resized : ℕ)
    (h : allocations.find? (fun allocation => allocation.2 = pointer) = some allocation) :
    ∃ others, allocations.Perm (allocation :: others) ∧
      (relink pointer resized allocations).Perm ((allocation.1, resized) :: others) := by
  induction allocations with
  | nil => cases h
  | cons first rest ih =>
    rw [List.find?_cons] at h
    by_cases hfirst : first.2 = pointer
    · simp only [hfirst, decide_true] at h
      obtain rfl := Option.some.inj h
      refine ⟨rest, .refl _, ?_⟩
      rw [relink, if_pos hfirst]
    · simp only [hfirst, decide_false] at h
      obtain ⟨others, hold, hnew⟩ := ih h
      refine ⟨first :: others, (hold.cons first).trans (.swap _ _ _), ?_⟩
      rw [relink, if_neg hfirst]
      exact (hnew.cons first).trans (.swap _ _ _)

theorem apiResize_meets (o : Owner) (pointer : Option ℕ) (size : ℕ) :
    Meets o.cells (apiResize A o.record pointer size) fun r left =>
      ∃ o' : Owner, r = o'.record ∧ left = o'.cells ∧ o'.contents = o.contents := by
  cases pointer with
  | none => exact apiAllocate_meets o size
  | some pointer =>
    rw [apiResize]
    cases hfind : allocationOf o.record pointer with
    | none => exact Meets.pure ⟨o, rfl, rfl, rfl⟩
    | some allocation =>
      obtain ⟨hmem, rfl⟩ := mem_of_allocationOf hfind
      dsimp only
      by_cases hzero : size = 0
      · rw [if_pos hzero]
        exact dropAllocation_meets o hmem
      rw [if_neg hzero]
      obtain ⟨others, hothers, -⟩ := relink_perm 0 hfind
      have hfront : o.cells.Perm ([plainCell allocation.2] ++
          (plainCell allocation.1 :: others.flatMap allocationCells ++ o.frame)) :=
        (o.withAllocations_perm o.record.allocations).trans
          ((hothers.flatMap_right allocationCells).append_right o.frame)
      refine Meets.bind _ (Meets.move A.allocator allocation.2 Block.plain size id) hfront fun r left h => ?_
      rcases h with ⟨rfl, rfl⟩ | ⟨resized, rfl, -, rfl⟩
      · exact (Meets.pure ⟨o, rfl, rfl, rfl⟩).perm hfront.symm
      · obtain ⟨others', hothers', hnew⟩ := relink_perm resized hfind
        let o' := o.withAllocations (relink allocation.2 resized o.record.allocations)
        have hready : ([plainCell resized] ++
            (plainCell allocation.1 :: others.flatMap allocationCells ++ o.frame)).Perm o'.cells := by
          have hsame : others.Perm others' := (hothers.symm.trans hothers').cons_inv
          refine .trans ?_ (o.withAllocations_perm _).symm
          refine .trans ?_ ((hnew.flatMap_right allocationCells).append_right o.frame).symm
          exact (((hsame.flatMap_right allocationCells).append_left
            [plainCell resized, plainCell allocation.1]).append_right o.frame)
        exact (Meets.pure ⟨o', rfl, rfl, rfl⟩).perm hready

theorem apiRelease_meets (o : Owner) (pointer : Option ℕ) :
    Meets o.cells (apiRelease o.record pointer) fun r left =>
      ∃ o' : Owner, r = o'.record ∧ left = o'.cells ∧ o'.contents = o.contents := by
  cases pointer with
  | none => exact Meets.pure ⟨o, rfl, rfl, rfl⟩
  | some pointer =>
    rw [apiRelease]
    cases hfind : allocationOf o.record pointer with
    | none => exact Meets.pure ⟨o, rfl, rfl, rfl⟩
    | some allocation => exact dropAllocation_meets o (mem_of_allocationOf hfind).1

theorem taskReleaseAllocations_meets (o : Owner) :
    Meets o.cells (taskReleaseAllocations o.record) fun r left =>
      ∃ o' : Owner, r = o'.record ∧ left = o'.cells ∧ o'.contents = o.contents := by
  let o' := o.withAllocations []
  refine Meets.bind o.frame (releaseAllocations_meets o.record.allocations)
    (o.withAllocations_perm o.record.allocations) fun _ left h => ?_
  rw [h]
  exact (Meets.pure ⟨o', rfl, rfl, rfl⟩).perm (o.withAllocations_perm []).symm

/-- What the program writes into its vector of arguments concerns nothing the kernel relies on. -/
theorem writeArgument_meets (o : Owner) (index : ℕ) (pointer : Option ℕ) :
    Meets o.cells (writeArgument o.record index pointer) fun r left =>
      ∃ o' : Owner, r = o'.record ∧ left = o'.cells ∧ o'.contents = o.contents := by
  rw [writeArgument]
  rcases o.arguments with ⟨hnone, -⟩ | ⟨v, owned, strings, pointers, own, hv, howned, hstrings, hown, hcells⟩
  · rw [hnone]
    exact Meets.pure ⟨o, rfl, rfl, rfl⟩
  · rw [hv]
    let o' : Owner := ⟨o.record, o.contents,
      { o.holdings with arguments := (v, .vector (pointers.set index pointer)) :: own },
      .inr ⟨v, owned, strings, _, own, hv, howned, hstrings, hown, rfl⟩, o.environment, o.pendingArguments,
      o.pendingEnvironment, o.present, o.paired⟩
    have hfront : o.cells.Perm ([(v, .vector pointers)] ++ (own ++ (o.holdings.environment ++
        o.holdings.pendingArguments ++ o.holdings.pendingEnvironment ++ Owner.bare o.record))) := by
      rw [Owner.cells, hcells]
      simp only [List.append_assoc, List.cons_append, List.nil_append]
      exact .refl _
    refine Meets.bind _ (loadVector_meets v pointers) hfront fun r left h => ?_
    obtain ⟨rfl, rfl⟩ := h
    refine Meets.bind _ (Meets.store v _ _) (.refl _) fun _ left h => ?_
    rw [h]
    have hready : ([(v, Block.vector (r.set index pointer))] ++ (own ++ (o.holdings.environment ++
        o.holdings.pendingArguments ++ o.holdings.pendingEnvironment ++ Owner.bare o.record))).Perm o'.cells := by
      simp only [o', Owner.cells, List.append_assoc, List.cons_append, List.nil_append]
      exact .refl _
    exact (Meets.pure ⟨o', rfl, rfl, rfl⟩).perm hready

end Records

/-! ### Runs -/

/-- The blocks and the records of the tasks, the newest first. -/
structure RecordStore where
  store : Store ℕ Block
  tasks : List TaskRecord

/-- What happens to a task, by its place on the list. -/
inductive Deed
  /-- `task_create` without a parent. -/
  | boot (argv : List Bytes) (envp : Option (List Bytes)) (applied : Bool)
  | spawn (i : ℕ) (argv : List Bytes) (envp : Option (List Bytes)) (applied : Bool)
  | exec (i : ℕ) (argv : List Bytes) (envp : Option (List Bytes)) (barred : Bool)
  | finishExec (i : ℕ)
  | setenv (i : ℕ) (name value : Bytes) (overwrite : Bool)
  | unsetenv (i : ℕ) (name : Bytes)
  | allocate (i size : ℕ)
  | resize (i : ℕ) (pointer : Option ℕ) (size : ℕ)
  | release (i : ℕ) (pointer : Option ℕ)
  | write (i index : ℕ) (pointer : Option ℕ)
  /-- `api_exit` releases the allocations; the rest waits for `task_destroy`. -/
  | exit (i : ℕ)
  | destroy (i : ℕ)

namespace RecordStore

/-- A call on one task. -/
def act (s : RecordStore) (i : ℕ) (f : TaskRecord → Work TaskRecord) : Option RecordStore :=
  match s.tasks[i]? with
  | none => some s
  | some task => (f task s.store).map fun r => ⟨r.2, s.tasks.set i r.1⟩

/-- A new task for a parent with this environment. -/
def create (s : RecordStore) (inherited : Option ℕ) (argv : List Bytes) (envp : Option (List Bytes)) (applied : Bool) :
    Option RecordStore :=
  (taskCreate A inherited argv envp applied s.store).map fun r => ⟨r.2, r.1.toList ++ s.tasks⟩

/-- One deed; `none` is a fault. A task with a pending `exec` does not run until it is finished. -/
def step (s : RecordStore) : Deed → Option RecordStore
  | .boot argv envp applied => s.create A none argv envp applied
  | .spawn i argv envp applied =>
    match s.tasks[i]? with
    | none => some s
    | some parent => s.create A parent.environment argv envp applied
  | .exec i argv envp barred =>
    s.act i fun task => if task.pendingArgv = none then apiExec A task argv envp barred else pure task
  | .finishExec i => s.act i fun task => if task.pendingArgv = none then pure task else taskFinishExec A task
  | .setenv i name value overwrite => s.act i fun task => apiSetenv A task name value overwrite
  | .unsetenv i name => s.act i fun task => apiUnsetenv task name
  | .allocate i size => s.act i fun task => apiAllocate A task size
  | .resize i pointer size => s.act i fun task => apiResize A task pointer size
  | .release i pointer => s.act i fun task => apiRelease task pointer
  | .write i index pointer => s.act i fun task => writeArgument task index pointer
  | .exit i => s.act i taskReleaseAllocations
  | .destroy i =>
    match s.tasks[i]? with
    | none => some s
    | some task => (taskDestroy task s.store).map fun r => ⟨r.2, s.tasks.eraseIdx i⟩

def start : RecordStore := ⟨⟨fun _ => none, []⟩, []⟩

def run (deeds : List Deed) : Option RecordStore := deeds.foldlM (step A) start

end RecordStore

/-- The same deeds on the strings alone; `done` says whether a call that may fail took effect. -/
def Contents.step (done : Bool) (cs : List Contents) : Deed → List Contents
  | .boot argv envp _ => if done then ⟨some argv, some (envp.getD []), none, none⟩ :: cs else cs
  | .spawn i argv envp _ =>
    match cs[i]? with
    | none => cs
    | some c => if done then ⟨some argv, some (envp.getD (c.environment.getD [])), none, none⟩ :: cs else cs
  | .exec i argv envp _ =>
    cs.modify i fun c => if done ∧ c.pendingArgv = none then c.exec argv envp else c
  | .finishExec i => cs.modify i fun c => if c.pendingArgv = none then c else c.finish
  | .setenv i name value overwrite => cs.modify i fun c => if done then c.setenv name value overwrite else c
  | .unsetenv i name => cs.modify i fun c => c.unsetenv name
  | .destroy i => cs.eraseIdx i
  | _ => cs

def Contents.run (deeds : List (Deed × Bool)) : List Contents := deeds.foldl (fun cs d => Contents.step d.2 cs d.1) []

/-- The records are those of owners, and the live blocks are what the owners have. -/
structure OwnersMatch (s : RecordStore) (owners : List Owner) : Prop where
  tasks : s.tasks = owners.map Owner.record
  blocks : Holds s.store (owners.flatMap Owner.cells)

namespace OwnersMatch

variable {A : Arena} {s : RecordStore} {owners : List Owner}

/-- The task at a place, with its owner among the others. -/
theorem exists_owner (h : OwnersMatch s owners) {i : ℕ} {task : TaskRecord} (ht : s.tasks[i]? = some task) :
    ∃ front o back, owners = front ++ o :: back ∧ front.length = i ∧ o.record = task := by
  rw [h.tasks, List.getElem?_map] at ht
  obtain ⟨o, ho, rfl⟩ := Option.map_eq_some_iff.mp ht
  obtain ⟨hi, rfl⟩ := List.getElem?_eq_some_iff.mp ho
  obtain ⟨front, x, back, hsplit, hlen⟩ := exists_split hi
  refine ⟨front, x, back, hsplit, hlen, ?_⟩
  subst hlen
  simp [hsplit]

theorem flatMap_perm (front back : List Owner) (o : Owner) :
    ((front ++ o :: back).flatMap Owner.cells).Perm (o.cells ++ (front ++ back).flatMap Owner.cells) := by
  refine List.perm_iff_count.mpr fun x => ?_
  simp only [List.flatMap_append, List.flatMap_cons, List.count_append]
  omega

theorem modify_split {α : Type} (front back : List α) (x : α) (f : α → α) :
    (front ++ x :: back).modify front.length f = front ++ f x :: back := by
  induction front with
  | nil => rfl
  | cons y front ih =>
    rw [List.cons_append, List.length_cons, List.modify_succ_cons, ih]
    rfl

/-- A call on one task that meets its specification. -/
theorem act (h : OwnersMatch s owners) {i : ℕ} {f : TaskRecord → Work TaskRecord} {g : Bool → Contents → Contents}
    (hf : ∀ o : Owner, Meets o.cells (f o.record) fun r left =>
      ∃ o' : Owner, r = o'.record ∧ left = o'.cells ∧ ∃ done, o'.contents = g done o.contents) :
    ∃ s' owners' done, s.act i f = some s' ∧ OwnersMatch s' owners' ∧
      owners'.map Owner.contents = (owners.map Owner.contents).modify i (g done) := by
  rw [RecordStore.act]
  cases ht : s.tasks[i]? with
  | none =>
    refine ⟨s, owners, true, rfl, h, ?_⟩
    have hi : (owners.map Owner.contents).length ≤ i := by
      rw [List.getElem?_eq_none_iff, h.tasks, List.length_map] at ht
      rwa [List.length_map]
    rw [List.modify_eq_self hi]
  | some task =>
    obtain ⟨front, o, back, rfl, rfl, rfl⟩ := h.exists_owner ht
    have hblocks := h.blocks.perm (flatMap_perm front back o)
    obtain ⟨r, store, left, hrun, ⟨o', rfl, rfl, done, hcontents⟩, hleft⟩ := hf o _ s.store hblocks
    refine ⟨⟨store, s.tasks.set front.length o'.record⟩, front ++ o' :: back, done, ?_, ⟨?_, ?_⟩, ?_⟩
    · simp only [hrun, Option.map_some]
    · show s.tasks.set front.length o'.record = _
      rw [h.tasks, List.map_append, List.map_append, List.map_cons, List.map_cons,
        List.set_append_right _ _ (by rw [List.length_map]), List.length_map, Nat.sub_self, List.set_cons_zero]
    · exact hleft.perm (flatMap_perm front back o').symm
    · have hmodify := modify_split (front.map Owner.contents) (back.map Owner.contents) o.contents (g done)
      rw [List.length_map] at hmodify
      rw [List.map_append, List.map_append, List.map_cons, List.map_cons, hmodify, hcontents]

/-- A call that does not change the strings. -/
theorem actSame (h : OwnersMatch s owners) {i : ℕ} {f : TaskRecord → Work TaskRecord}
    (hf : ∀ o : Owner, Meets o.cells (f o.record) fun r left =>
      ∃ o' : Owner, r = o'.record ∧ left = o'.cells ∧ o'.contents = o.contents) :
    ∃ s' owners', s.act i f = some s' ∧ OwnersMatch s' owners' ∧
      owners'.map Owner.contents = owners.map Owner.contents := by
  obtain ⟨s', owners', done, hs, hsound, hcontents⟩ := @act s owners h i f (fun _ c => c) fun o => by
    refine Meets.frame [] (hf o) (by rw [List.append_nil]) fun r left hr => ?_
    obtain ⟨o', hr, hleft, hsame⟩ := hr
    exact ⟨left, by rw [List.append_nil], o', hr, hleft, true, hsame⟩
  refine ⟨s', owners', hs, hsound, ?_⟩
  rw [hcontents]
  exact List.modify_id _ _

theorem create (h : OwnersMatch s owners) {inherited : Option ℕ} {texts : Option (List Bytes)}
    {cells rest : List (ℕ × Block)} (hinherited : OwnsOptional inherited texts cells)
    (hperm : (owners.flatMap Owner.cells).Perm (cells ++ rest)) (argv : List Bytes) (envp : Option (List Bytes))
    (applied : Bool) :
    ∃ s' owners' done, s.create A inherited argv envp applied = some s' ∧ OwnersMatch s' owners' ∧
      owners'.map Owner.contents = if done = true then
        ⟨some argv, some (envp.getD (texts.getD [])), none, none⟩ :: owners.map Owner.contents
      else owners.map Owner.contents := by
  obtain ⟨r, store, left, hrun, hr, hleft⟩ := taskCreate_meets hinherited argv envp applied rest s.store
    (h.blocks.perm hperm)
  rcases hr with ⟨rfl, rfl⟩ | ⟨o, rfl, ho, rfl⟩
  · refine ⟨⟨store, s.tasks⟩, owners, false, ?_, ⟨h.tasks, hleft.perm hperm.symm⟩, rfl⟩
    rw [RecordStore.create, hrun]
    rfl
  · refine ⟨⟨store, o.record :: s.tasks⟩, o :: owners, true, ?_, ⟨?_, ?_⟩, ?_⟩
    · rw [RecordStore.create, hrun]
      rfl
    · rw [h.tasks, List.map_cons]
    · rw [List.append_assoc] at hleft
      exact hleft.perm (hperm.symm.append_left o.cells)
    · rw [List.map_cons, ho]
      rfl

theorem pendingArgv_iff (o : Owner) : o.record.pendingArgv = none ↔ o.contents.pendingArgv = none := by
  rcases o.pendingArguments with ⟨hv, -, htexts, -⟩ | ⟨v, _, strings, _, _, hv, -, htexts, -⟩
  · simp only [hv, htexts]
  · simp [hv, htexts]

/-- A deed acts on the strings as a whole or not at all, and afterwards the blocks are owned again. -/
theorem step (h : OwnersMatch s owners) (d : Deed) :
    ∃ s' owners' done, s.step A d = some s' ∧ OwnersMatch s' owners' ∧
      owners'.map Owner.contents = Contents.step done (owners.map Owner.contents) d := by
  have hkeep : ∀ {i : ℕ} {f : TaskRecord → Work TaskRecord}, (∀ o : Owner, Meets o.cells (f o.record) fun r left =>
      ∃ o' : Owner, r = o'.record ∧ left = o'.cells ∧ o'.contents = o.contents) →
      ∃ s' owners', ∃ _ : Bool, s.act i f = some s' ∧ OwnersMatch s' owners' ∧
        owners'.map Owner.contents = owners.map Owner.contents := by
    intro i f hf
    obtain ⟨s', owners', hs, hsound, hcontents⟩ := @actSame s owners h i f hf
    exact ⟨s', owners', true, hs, hsound, hcontents⟩
  cases d with
  | boot argv envp applied =>
    exact h.create (.inl ⟨rfl, rfl, rfl⟩) (.refl _) argv envp applied
  | spawn i argv envp applied =>
    cases ht : s.tasks[i]? with
    | none =>
      have hi : (owners.map Owner.contents)[i]? = none := by
        rw [List.getElem?_eq_none_iff, h.tasks, List.length_map] at ht
        rwa [List.getElem?_eq_none_iff, List.length_map]
      exact ⟨s, owners, true, by simp only [RecordStore.step, ht], h, by simp only [Contents.step, hi]⟩
    | some task =>
      obtain ⟨front, o, back, rfl, rfl, rfl⟩ := h.exists_owner ht
      have hi : ((front ++ o :: back).map Owner.contents)[front.length]? = some o.contents := by
        simp
      have hperm := (flatMap_perm front back o).trans (o.cells_perm.append_right _)
      rw [List.append_assoc] at hperm
      obtain ⟨s', owners', done, hs, hsound, hcontents⟩ := h.create o.environment hperm argv envp applied
      refine ⟨s', owners', done, ?_, hsound, ?_⟩
      · simp only [RecordStore.step, ht]
        exact hs
      · simp only [Contents.step, hi]
        exact hcontents
  | exec i argv envp barred =>
    refine @act s owners h i _ (fun done c => if done ∧ c.pendingArgv = none then c.exec argv envp else c) fun o => ?_
    by_cases hidle : o.record.pendingArgv = none
    · rw [if_pos hidle]
      refine Meets.frame [] (apiExec_meets o hidle argv envp barred) (by rw [List.append_nil]) fun r left hr => ?_
      obtain ⟨o', hr, hleft, hcontents⟩ := hr
      refine ⟨left, by rw [List.append_nil], o', hr, hleft, ?_⟩
      rcases hcontents with hsame | hexec
      · exact ⟨false, by simpa using hsame⟩
      · exact ⟨true, by simpa [(pendingArgv_iff o).mp hidle] using hexec⟩
    · rw [if_neg hidle]
      exact Meets.pure ⟨o, rfl, rfl, false, by simp⟩
  | finishExec i =>
    refine @act s owners h i _ (fun _ c => if c.pendingArgv = none then c else c.finish) fun o => ?_
    by_cases hidle : o.record.pendingArgv = none
    · rw [if_pos hidle, if_pos ((pendingArgv_iff o).mp hidle)]
      exact Meets.pure ⟨o, rfl, rfl, true, rfl⟩
    · rw [if_neg hidle, if_neg (mt (pendingArgv_iff o).mpr hidle)]
      refine Meets.frame [] (taskFinishExec_meets o hidle) (by rw [List.append_nil]) fun r left hr => ?_
      obtain ⟨o', hr, hleft, hcontents⟩ := hr
      exact ⟨left, by rw [List.append_nil], o', hr, hleft, true, hcontents⟩
  | setenv i name value overwrite =>
    refine @act s owners h i _ (fun done c => if done then c.setenv name value overwrite else c) fun o => ?_
    refine Meets.frame [] (apiSetenv_meets o name value overwrite) (by rw [List.append_nil]) fun r left hr => ?_
    obtain ⟨o', hr, hleft, hcontents⟩ := hr
    refine ⟨left, by rw [List.append_nil], o', hr, hleft, ?_⟩
    rcases hcontents with hsame | hset
    · exact ⟨false, by simpa using hsame⟩
    · exact ⟨true, by simpa using hset⟩
  | unsetenv i name =>
    refine @act s owners h i _ (fun _ c => c.unsetenv name) fun o => ?_
    refine Meets.frame [] (apiUnsetenv_meets o name) (by rw [List.append_nil]) fun r left hr => ?_
    obtain ⟨o', hr, hleft, hcontents⟩ := hr
    exact ⟨left, by rw [List.append_nil], o', hr, hleft, true, hcontents⟩
  | allocate i size => exact hkeep fun o => apiAllocate_meets o size
  | resize i pointer size => exact hkeep fun o => apiResize_meets o pointer size
  | release i pointer => exact hkeep fun o => apiRelease_meets o pointer
  | write i index pointer => exact hkeep fun o => writeArgument_meets o index pointer
  | exit i => exact hkeep fun o => taskReleaseAllocations_meets o
  | destroy i =>
    cases ht : s.tasks[i]? with
    | none =>
      refine ⟨s, owners, true, by simp only [RecordStore.step, ht], h, ?_⟩
      rw [List.getElem?_eq_none_iff, h.tasks, List.length_map] at ht
      rw [Contents.step, List.eraseIdx_of_length_le (by rwa [List.length_map])]
    | some task =>
      obtain ⟨front, o, back, rfl, rfl, rfl⟩ := h.exists_owner ht
      obtain ⟨_, store, left, hrun, rfl, hleft⟩ := taskDestroy_meets o _ s.store
        (h.blocks.perm (flatMap_perm front back o))
      have herase : ∀ {β : Type} (f : Owner → β), ((front ++ o :: back).map f).eraseIdx front.length =
          (front ++ back).map f := by
        intro β f
        rw [List.map_append, List.map_cons, List.eraseIdx_append_of_length_le (by rw [List.length_map]),
          List.length_map, Nat.sub_self, List.eraseIdx_cons_zero, List.map_append]
      refine ⟨⟨store, s.tasks.eraseIdx front.length⟩, front ++ back, true, ?_, ⟨?_, hleft⟩, (herase _).symm⟩
      · simp only [RecordStore.step, ht, hrun, Option.map_some]
      · show s.tasks.eraseIdx front.length = _
        rw [h.tasks, herase]

end OwnersMatch

/-- Over any run, whatever the allocator grants, no block is touched that is not live and none is given back
twice. The live blocks are those the records of the tasks own, each once, so that nothing is left when the
tasks are destroyed; and the strings are those the calls would make on lists, each call as a whole or not at
all. -/
theorem task_blocks_owned (A : Arena) (deeds : List Deed) :
    ∃ (s : RecordStore) (owners : List Owner) (outcomes : List Bool), RecordStore.run A deeds = some s ∧
      s.tasks = owners.map Owner.record ∧
      Holds s.store (owners.flatMap Owner.cells) ∧ (s.tasks = [] → replay s.store.log = some []) ∧
        outcomes.length = deeds.length ∧ owners.map Owner.contents = Contents.run (deeds.zip outcomes) := by
  suffices hrun : ∃ (s : RecordStore) (owners : List Owner) (outcomes : List Bool),
      RecordStore.run A deeds = some s ∧ OwnersMatch s owners ∧
      outcomes.length = deeds.length ∧ owners.map Owner.contents = Contents.run (deeds.zip outcomes) by
    obtain ⟨s, owners, outcomes, hs, hsound, hlen, hcontents⟩ := hrun
    refine ⟨s, owners, outcomes, hs, hsound.tasks, hsound.blocks, fun hnil => ?_, hlen, hcontents⟩
    have howners : owners = [] := by
      rw [hsound.tasks] at hnil
      exact List.map_eq_nil_iff.mp hnil
    have hblocks := hsound.blocks
    rw [howners] at hblocks
    exact (Holds.nil_iff.mp hblocks).2
  -- The last deed is split off, as a run goes on at its end.
  induction deeds using List.reverseRecOn with
  | nil => exact ⟨_, [], [], rfl, ⟨rfl, Holds.nil_iff.mpr ⟨fun _ => rfl, rfl⟩⟩, rfl, rfl⟩
  | append_singleton deeds d ih =>
    obtain ⟨s, owners, outcomes, hs, hsound, hlen, hcontents⟩ := ih
    obtain ⟨s', owners', done, hstep, hsound', hcontents'⟩ := @OwnersMatch.step A s owners hsound d
    refine ⟨s', owners', outcomes ++ [done], ?_, hsound', by simp [hlen], ?_⟩
    · rw [RecordStore.run] at hs ⊢
      rw [List.foldlM_append, hs]
      exact (bind_pure _).trans hstep
    · rw [List.zip_append hlen.symm, Contents.run, List.foldl_append, hcontents', hcontents]
      rfl

theorem le_foldr_max {a : ℕ} {l : List ℕ} (h : a ∈ l) : a ≤ l.foldr max 0 := by
  induction l with
  | nil => cases h
  | cons b l ih =>
    rw [List.foldr_cons]
    rcases List.mem_cons.mp h with rfl | h
    · exact le_max_left ..
    · exact (ih h).trans (le_max_right ..)

/-- An allocator that grants nothing after so many calls, and never moves a block. -/
def frugal (calls : ℕ) : Allocator ℕ where
  limit := int64Max
  allocate log size :=
    if log.length < calls ∧ size ≤ int64Max then (replay log).map fun live => live.foldr max 0 + 1 else none
  resize _ _ _ := none
  fresh := by
    intro log live size a hlive ha
    split at ha
    · rename_i hgrant
      rw [hlive, Option.map_some, Option.some.injEq] at ha
      refine ⟨fun hmem => ?_, hgrant.2⟩
      have := le_foldr_max hmem
      omega
    · cases ha
  resized := by
    intro log live size old new _ hnew
    cases hnew

def Arena.frugal (calls : ℕ) : Arena := ⟨TaskBlocks.frugal calls, rfl, fun _ => 1, fun _ => none⟩

/-- With six blocks the copies of a task fit but not its execution, and all six are given back. -/
example : (RecordStore.run (.frugal 6) [.boot [[0x73]] none true]).map (fun s => (s.tasks.length, s.store.log)) =
    some (0, [.took 1, .took 2, .took 3, .took 4, .took 5, .took 6, .gave 5, .gave 4, .gave 3, .gave 6, .gave 2,
      .gave 1]) := by
  decide

end TaskBlocks

end CannedBsd
