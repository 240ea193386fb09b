import CannedBsd.Vfs.ByteArray
import CannedBsd.Lib.Runs

/-!
# File arithmetic

The operations of RAMFS with every signed addition and subtraction, every `size_t` sum and every copied or
cleared range watched: a result that does not fit its type, a range that leaves the storage and a doubling
that does not end are `none`. Any number of regular files and of open-file objects are driven by any
sequence of calls, and no call ever reaches `none`.

* `checkedCapacity_eq`: the doubling ends within 64 rounds.
* `FileStore.Bounded.step`: from bounded files no arithmetic of a call leaves its type.
* `arithmetic_never_wraps`: so none does along any sequence of calls, and the watched operations are those of
  the model.
-/

namespace CannedBsd

open CannedBsd.Lib

/-! ### Watched arithmetic -/

/-- The result of an operation of type `cb_off_t`, unless it overflows. -/
def offT (x : ℤ) : Option ℤ := if -(int64Max : ℤ) - 1 ≤ x ∧ x ≤ int64Max then some x else none

/-- The result of an operation of type `size_t`, unless it wraps. -/
def sizeT (x : ℤ) : Option ℕ := if 0 ≤ x ∧ x ≤ sizeMax then some x.toNat else none

/-- The `n` bytes from `start` on are in a block of `capacity` bytes. -/
def inBlock (capacity start n : ℕ) : Option Unit := if start + n ≤ capacity then some () else none

theorem offT_of_le {x : ℤ} (h₀ : -(int64Max : ℤ) - 1 ≤ x) (h₁ : x ≤ int64Max) : offT x = some x := if_pos ⟨h₀, h₁⟩

theorem sizeT_of_le {n : ℕ} {x : ℤ} (hx : x = n) (h : n ≤ sizeMax) : sizeT x = some n := by
  rw [sizeT, if_pos (by omega), hx, Int.toNat_natCast]

theorem inBlock_of_le {capacity start n : ℕ} (h : start + n ≤ capacity) : inBlock capacity start n = some () := if_pos h

/-! ### Watched operations -/

/-- The doubling loop; running out of rounds is not an end. -/
def checkedDouble (needed : ℕ) : ℕ → ℕ → Option ℕ
  | 0, capacity => if capacity < needed then none else some capacity
  | rounds + 1, capacity =>
    if capacity < needed then
      if sizeMax / 2 < capacity then some needed
      else do
        let doubled ← sizeT (capacity * 2)
        checkedDouble needed rounds doubled
    else some capacity

def checkedCapacity (capacity needed : ℕ) : Option ℕ :=
  checkedDouble needed 64 (if capacity = 0 then 64 else capacity)

/-- Clear the bytes from the end of the file up to `start`. -/
def checkedClear (node : Node) (start : ℕ) : Option Node :=
  if node.size < start then do
    let gap ← sizeT (start - node.size)
    inBlock node.capacity node.size gap
    some { node with data := Block.fill node.data node.size gap 0 }
  else some node

/-- Enough storage for `ramfs_truncate`; the inner `none` is a refusal of the host. -/
def checkedResize (h : Host) (node : Node) (needed : ℕ) : Option (Option Node) :=
  if node.capacity < needed then do
    let capacity ← checkedCapacity node.capacity needed
    if h.grants capacity = false then some none
    else some (some { node with data := resized h node.data node.capacity, capacity := capacity })
  else some (some node)

/-- Enough storage for `node_write`, which clears what it gets. -/
def checkedExpand (h : Host) (node : Node) (needed : ℕ) : Option (Option Node) :=
  if node.capacity < needed then do
    let capacity ← checkedCapacity node.capacity needed
    if h.grants capacity = false then some none
    else do
      let gap ← sizeT (capacity - node.capacity)
      inBlock capacity node.capacity gap
      some (some { node with
        data := Block.fill (resized h node.data node.capacity) node.capacity gap 0
        capacity := capacity })
  else some (some node)

def checkedTruncate (h : Host) (node : Node) (length : ℤ) : Option (Node × Except Errno Unit) :=
  if length < 0 ∨ (sizeMax : ℤ) < length then some (node, .error .einval)
  else if node.type = .executable then some (node, .error .einval)
  else if node.type ≠ .regular then
    some (node, .error (if node.type = .directory then .eisdir else .espipe))
  else do
    let needed ← sizeT length
    match ← checkedResize h node needed with
    | none => some (node, .error .enomem)
    | some grown => do
        let cleared ← checkedClear grown needed
        some ({ cleared with size := needed, mtime := h.wallClock, ctime := h.wallClock }, .ok ())

def checkedRead (h : Host) (file : OpenFile) (node : Node) (count : ℕ) : Option (OpenFile × Node × Reply) :=
  if file.flags.access = .wronly then some (file, node, .fail .ebadf)
  else if file.offset < 0 ∨ (sizeMax : ℤ) < file.offset then some (file, node, .fail .einval)
  else if node.type = .executable then some (file, node, ⟨0, [], none⟩)
  else if node.size ≤ file.offset.toNat then some (file, node, ⟨0, [], none⟩)
  else do
    let available ← sizeT (node.size - file.offset)
    let count := if available < count then available else count
    inBlock node.capacity file.offset.toNat count
    let moved ← offT count
    let offset ← offT (file.offset + moved)
    some ({ file with offset := offset }, { node with atime := h.wallClock },
      ⟨moved, Block.read node.data file.offset.toNat count, some 0⟩)

/-- The file with its offset where the write starts. -/
def checkedAim (file : OpenFile) (node : Node) : Option OpenFile :=
  if file.flags.append then (offT node.size).map fun offset => { file with offset := offset } else some file

/-- `node_write` from the copy on. -/
def checkedCopy (h : Host) (file : OpenFile) (node : Node) (start needed : ℕ) (buffer : Bytes) :
    Option (OpenFile × Node × Reply) := do
  let cleared ← checkedClear node start
  inBlock cleared.capacity start buffer.length
  let moved ← offT buffer.length
  let offset ← offT (file.offset + moved)
  some ({ file with offset := offset },
    { cleared with
      data := Block.write cleared.data start buffer
      size := if cleared.size < needed then needed else cleared.size
      mtime := h.wallClock
      ctime := h.wallClock },
    .done moved)

/-- `node_write` from the aimed offset on. -/
def checkedStore (h : Host) (file : OpenFile) (node : Node) (buffer : Bytes) : Option (OpenFile × Node × Reply) :=
  if file.offset < 0 ∨ (sizeMax : ℤ) < file.offset then some (file, node, .fail .enospc)
  else do
    let room ← sizeT (sizeMax - file.offset)
    if room < buffer.length then some (file, node, .fail .enospc)
    else do
      let start ← sizeT file.offset
      let needed ← sizeT (start + buffer.length)
      match ← checkedExpand h node needed with
      | none => some (file, node, .fail .enomem)
      | some grown => checkedCopy h file grown start needed buffer

def checkedWrite (h : Host) (file : OpenFile) (node : Node) (buffer : Bytes) : Option (OpenFile × Node × Reply) :=
  if file.flags.access = .rdonly then some (file, node, .fail .ebadf)
  else if node.type = .executable then some (file, node, .fail .eperm)
  else if buffer.length = 0 then some (file, node, .done 0)
  else do
    let file ← checkedAim file node
    checkedStore h file node buffer

/-- `node_lseek` behind its guard. -/
def checkedMove (file : OpenFile) (base offset : ℤ) : Option (OpenFile × Reply) := do
  let result ← offT (base + offset)
  if result < 0 then some (file, .fail .einval) else some ({ file with offset := result }, .done result)

/-- Where `node_lseek` counts from; the inner `none` is an unknown `whence`. -/
def checkedBase (file : OpenFile) (node : Node) : Whence → Option (Option ℤ)
  | .set => some (some 0)
  | .cur => some (some file.offset)
  | .fromEnd => (offT node.size).map some
  | .other => some none

def checkedLseek (file : OpenFile) (node : Node) (offset : ℤ) (whence : Whence) : Option (OpenFile × Reply) := do
  match ← checkedBase file node whence with
  | none => some (file, .fail .einval)
  | some base =>
    if 0 < offset then do
      let limit ← offT (int64Max - offset)
      if limit < base then some (file, .fail .einval) else checkedMove file base offset
    else if offset < 0 then do
      let limit ← offT (-(int64Max : ℤ) - 1 - offset)
      if base < limit then some (file, .fail .einval) else checkedMove file base offset
    else checkedMove file base offset

/-! ### The watched operations agree with the operations -/

/-- The bounds of a regular file. -/
structure Node.Bounded (node : Node) : Prop where
  regular : node.type = .regular
  size : node.size ≤ node.capacity
  capacity : node.capacity ≤ int64Max

/-- The bounds of an open file. -/
def OpenFile.Bounded (file : OpenFile) : Prop := 0 ≤ file.offset ∧ file.offset ≤ int64Max

section

variable {h : Host} {node : Node} {file : OpenFile}

theorem sizeMax_eq : sizeMax = 2 * int64Max + 1 := by decide

theorem checkedDouble_eq {needed : ℕ} (hn : needed ≤ sizeMax) : ∀ rounds capacity, sizeMax < capacity * 2 ^ rounds →
    checkedDouble needed rounds capacity = some (doubleUp needed rounds capacity) := by
  intro rounds
  induction rounds with
  | zero =>
    intro capacity hc
    rw [checkedDouble, doubleUp, if_neg (by omega)]
  | succ rounds ih =>
    intro capacity hc
    rw [checkedDouble, doubleUp]
    split
    · split
      · rfl
      · rw [sizeT_of_le (show (capacity : ℤ) * 2 = ((capacity * 2 : ℕ) : ℤ) by push_cast; rfl) (by omega),
          Option.bind_eq_bind, Option.bind_some]
        exact ih (capacity * 2) (by rw [Nat.mul_assoc, ← pow_succ']; exact hc)
    · rfl

/-- The loop ends within 64 rounds, with room for what was asked. -/
theorem checkedCapacity_eq (capacity : ℕ) {needed : ℕ} (hn : needed ≤ sizeMax) :
    checkedCapacity capacity needed = some (grownCapacity capacity needed) := by
  refine checkedDouble_eq hn 64 _ ?_
  have hpos : 1 ≤ (if capacity = 0 then 64 else capacity) := by split <;> omega
  calc sizeMax < 1 * 2 ^ 64 := by decide
    _ ≤ _ := Nat.mul_le_mul_right _ hpos

theorem checkedClear_eq {start : ℕ} (hs : start ≤ node.capacity) (hc : node.capacity ≤ int64Max) :
    checkedClear node start = some (if node.size < start then
      { node with data := Block.fill node.data node.size (start - node.size) 0 } else node) := by
  rw [checkedClear]
  split
  case isTrue hlt =>
    have hmax := sizeMax_eq
    rw [sizeT_of_le (show (start : ℤ) - node.size = ((start - node.size : ℕ) : ℤ) by omega) (by omega)]
    simp only [Option.bind_eq_bind, Option.bind_some]
    rw [inBlock_of_le (by omega)]
    rfl
  case isFalse => rfl

theorem checkedRead_eq (hb : node.Bounded) (hf : file.Bounded) (count : ℕ) :
    checkedRead h file node count = some (nodeRead h file node count) ∧
      (nodeRead h file node count).1.Bounded ∧ (nodeRead h file node count).2.1.Bounded := by
  obtain ⟨h₀, h₁⟩ := hf
  have hsize := hb.size
  have hcap := hb.capacity
  have hmax := sizeMax_eq
  rw [checkedRead, nodeRead]
  split
  · exact ⟨rfl, ⟨h₀, h₁⟩, hb⟩
  split
  · exact ⟨rfl, ⟨h₀, h₁⟩, hb⟩
  split
  · exact ⟨rfl, ⟨h₀, h₁⟩, hb⟩
  split
  · exact ⟨rfl, ⟨h₀, h₁⟩, hb⟩
  case isFalse hlt =>
    have hcount : (if node.size - file.offset.toNat < count then node.size - file.offset.toNat else count) =
        min count (node.size - file.offset.toNat) := by
      split <;> omega
    refine ⟨?_, ?_, hb.regular, hb.size, hb.capacity⟩
    · rw [sizeT_of_le (show (node.size : ℤ) - file.offset = ((node.size - file.offset.toNat : ℕ) : ℤ) by omega)
        (by omega)]
      simp only [Option.bind_eq_bind, Option.bind_some, hcount]
      rw [inBlock_of_le (by omega), Option.bind_some, offT_of_le (by omega) (by omega), Option.bind_some,
        offT_of_le (by omega) (by omega), Option.bind_some]
    · show 0 ≤ file.offset + _ ∧ file.offset + _ ≤ int64Max
      omega

/-- The node with the storage `node_write` asks for. -/
def expanded (h : Host) (node : Node) (needed : ℕ) : Node :=
  if node.capacity < needed then
    { node with
      data := Block.fill (resized h node.data node.capacity) node.capacity
        (grownCapacity node.capacity needed - node.capacity) 0
      capacity := grownCapacity node.capacity needed }
  else node

theorem checkedExpand_eq {needed : ℕ} (hn : needed ≤ sizeMax) (hc : node.capacity ≤ int64Max) :
    checkedExpand h node needed = some (if node.capacity < needed ∧
      h.grants (grownCapacity node.capacity needed) = false then none else some (expanded h node needed)) := by
  have hroom := le_grownCapacity node.capacity hn
  have hmax := sizeMax_eq
  rw [checkedExpand, expanded]
  by_cases hbig : node.capacity < needed
  · rw [if_pos hbig, if_pos hbig, checkedCapacity_eq _ hn, Option.bind_eq_bind, Option.bind_some]
    by_cases hgrant : h.grants (grownCapacity node.capacity needed) = false
    · rw [if_pos hgrant, if_pos ⟨hbig, hgrant⟩]
    · have hle : grownCapacity node.capacity needed ≤ int64Max := by
        have htrue : h.grants (grownCapacity node.capacity needed) = true := by simpa using hgrant
        simp only [Host.grants, Bool.and_eq_true, decide_eq_true_eq] at htrue
        exact htrue.2
      rw [if_neg hgrant, if_neg (fun hno => hgrant hno.2),
        sizeT_of_le (show (grownCapacity node.capacity needed : ℤ) - node.capacity =
          ((grownCapacity node.capacity needed - node.capacity : ℕ) : ℤ) by omega) (by omega)]
      simp only [Option.bind_eq_bind, Option.bind_some]
      rw [inBlock_of_le (by omega)]
      rfl
  · rw [if_neg hbig, if_neg (fun hno => hbig hno.1), if_neg hbig]

theorem prepared_eq (h : Host) (node : Node) (start needed : ℕ) :
    prepared h node start needed = if (expanded h node needed).size < start then
      { expanded h node needed with
        data := Block.fill (expanded h node needed).data (expanded h node needed).size
          (start - (expanded h node needed).size) 0 }
      else expanded h node needed := rfl

theorem checkedAim_eq (hb : node.Bounded) (hf : file.Bounded) :
    checkedAim file node = some (aimed file node) ∧ (aimed file node).Bounded := by
  have hle := hb.size.trans hb.capacity
  rw [checkedAim, aimed]
  split
  · rw [offT_of_le (by omega) (by omega), cbOff_of_le hle]
    exact ⟨rfl, Int.natCast_nonneg _, by simpa using hle⟩
  · exact ⟨rfl, hf⟩

theorem checkedWrite_eq (hb : node.Bounded) (hf : file.Bounded) {buffer : Bytes} (hlen : buffer.length ≤ int64Max) :
    checkedWrite h file node buffer = some (nodeWrite h file node buffer) ∧
      (nodeWrite h file node buffer).1.Bounded ∧ (nodeWrite h file node buffer).2.1.Bounded := by
  have hmax := sizeMax_eq
  rw [checkedWrite, nodeWrite]
  split
  · exact ⟨rfl, hf, hb⟩
  split
  · exact ⟨rfl, hf, hb⟩
  split
  · exact ⟨rfl, hf, hb⟩
  obtain ⟨haim, h₀, h₁⟩ := checkedAim_eq hb hf
  simp only [haim, Option.bind_eq_bind, Option.bind_some, checkedStore]
  generalize aimed file node = file at h₀ h₁
  obtain ⟨start, hstart⟩ := Int.eq_ofNat_of_zero_le h₀
  rw [hstart] at h₁ ⊢
  rw [if_neg (by omega), sizeT_of_le (show (sizeMax : ℤ) - start = ((sizeMax - start : ℕ) : ℤ) by omega) (by omega),
    if_neg (by rw [Int.toNat_natCast]; omega), Int.toNat_natCast]
  simp only [Option.bind_some]
  rw [if_neg (by omega), sizeT_of_le rfl (by omega)]
  simp only [Option.bind_some]
  rw [sizeT_of_le (show (start : ℤ) + buffer.length = ((start + buffer.length : ℕ) : ℤ) by push_cast; rfl) (by omega)]
  simp only [Option.bind_some]
  rw [checkedExpand_eq (by omega) hb.capacity]
  simp only [Option.bind_some]
  by_cases hno : node.capacity < start + buffer.length ∧
      h.grants (grownCapacity node.capacity (start + buffer.length)) = false
  · rw [if_pos hno, if_pos hno]
    refine ⟨rfl, ?_, hb⟩
    show 0 ≤ file.offset ∧ file.offset ≤ int64Max
    rw [hstart]
    omega
  · obtain ⟨hroom, hcap, hsize⟩ := prepared_room h start hb.size hb.capacity (by omega) hno
    have hpcap : (prepared h node start (start + buffer.length)).capacity =
        (expanded h node (start + buffer.length)).capacity := by
      rw [prepared_eq]
      split <;> rfl
    rw [hpcap] at hroom hcap hsize
    rw [if_neg hno, if_neg hno]
    refine ⟨?_, ?_, ?_⟩
    · simp only [checkedCopy]
      rw [checkedClear_eq (by omega) hcap, ← prepared_eq]
      simp only [Option.bind_eq_bind, Option.bind_some]
      rw [inBlock_of_le (by rw [hpcap]; omega), offT_of_le (by omega) (by omega)]
      simp only [Option.bind_some]
      rw [offT_of_le (by omega) (by omega)]
      simp only [Option.bind_some, hstart]
      congr 4
      split <;> omega
    · show 0 ≤ (start : ℤ) + _ ∧ (start : ℤ) + _ ≤ int64Max
      omega
    · have htype : (prepared h node start (start + buffer.length)).type = node.type := by
        rw [prepared_eq, expanded]
        split <;> split <;> rfl
      refine ⟨htype.trans hb.regular, ?_, ?_⟩
      · show max (start + buffer.length) _ ≤ (prepared h node start (start + buffer.length)).capacity
        rw [hpcap, prepared_size]
        omega
      · show (prepared h node start (start + buffer.length)).capacity ≤ int64Max
        rw [hpcap]
        exact hcap

theorem checkedMove_eq {base offset : ℤ} (h₀ : -(int64Max : ℤ) - 1 ≤ base + offset) (h₁ : base + offset ≤ int64Max) :
    checkedMove file base offset = some (if base + offset < 0 then (file, .fail .einval)
      else ({ file with offset := base + offset }, .done (base + offset))) := by
  rw [checkedMove, offT_of_le h₀ h₁, Option.bind_eq_bind, Option.bind_some]
  split <;> rfl

theorem checkedBase_eq (hb : node.Bounded) (hf : file.Bounded) (whence : Whence) :
    ∃ base : Option ℤ, checkedBase file node whence = some base ∧ ∀ b ∈ base, 0 ≤ b ∧ b ≤ int64Max := by
  have hle := hb.size.trans hb.capacity
  cases whence with
  | set => exact ⟨some 0, rfl, by simp⟩
  | cur => exact ⟨some file.offset, rfl, by simpa [OpenFile.Bounded] using hf⟩
  | fromEnd =>
    refine ⟨some (node.size : ℤ), ?_, by simpa using hle⟩
    rw [checkedBase, offT_of_le (by omega) (by omega)]
    rfl
  | other => exact ⟨none, rfl, by simp⟩

/-- `node_lseek` from where it counts from. -/
def seekFrom (file : OpenFile) (offset : ℤ) : Option ℤ → OpenFile × Reply
  | none => (file, .fail .einval)
  | some base =>
    if (0 < offset ∧ (int64Max : ℤ) - offset < base) ∨
        (offset < 0 ∧ base < -(int64Max : ℤ) - 1 - offset) then (file, .fail .einval)
    else if base + offset < 0 then (file, .fail .einval)
    else ({ file with offset := base + offset }, .done (base + offset))

theorem nodeLseek_eq (offset : ℤ) {whence : Whence} (hle : node.size ≤ int64Max) {base : Option ℤ}
    (h : checkedBase file node whence = some base) :
    nodeLseek file node offset whence = seekFrom file offset base := by
  cases whence with
  | set => cases h; rfl
  | cur => cases h; rfl
  | fromEnd =>
    rw [checkedBase, offT_of_le (by omega) (by omega)] at h
    cases h
    rw [← cbOff_of_le hle]
    rfl
  | other => cases h; rfl

theorem checkedLseek_eq (hb : node.Bounded) (hf : file.Bounded) {offset : ℤ} (h₀ : -(int64Max : ℤ) - 1 ≤ offset)
    (h₁ : offset ≤ int64Max) (whence : Whence) :
    checkedLseek file node offset whence = some (nodeLseek file node offset whence) ∧
      (nodeLseek file node offset whence).1.Bounded := by
  have hle := hb.size.trans hb.capacity
  obtain ⟨base, hchecked, hbound⟩ := checkedBase_eq hb hf whence
  rw [checkedLseek, nodeLseek_eq offset hle hchecked, hchecked, Option.bind_eq_bind, Option.bind_some]
  cases base with
  | none => exact ⟨rfl, hf⟩
  | some base =>
    obtain ⟨hb₀, hb₁⟩ := hbound base rfl
    simp only [seekFrom, Option.bind_eq_bind]
    rcases Int.lt_trichotomy offset 0 with hneg | hzero | hpos
    · rw [if_neg (by omega), if_pos hneg, offT_of_le (by omega) (by omega), Option.bind_some]
      by_cases hlow : base < -(int64Max : ℤ) - 1 - offset
      · rw [if_pos hlow, if_pos (.inr ⟨hneg, hlow⟩)]
        exact ⟨rfl, hf⟩
      · rw [if_neg hlow, if_neg (by omega), checkedMove_eq (by omega) (by omega)]
        refine ⟨rfl, ?_⟩
        split
        · exact hf
        · show 0 ≤ base + offset ∧ base + offset ≤ int64Max
          omega
    · rw [if_neg (by omega), if_neg (by omega), if_neg (by omega), checkedMove_eq (by omega) (by omega)]
      refine ⟨rfl, ?_⟩
      split
      · exact hf
      · show 0 ≤ base + offset ∧ base + offset ≤ int64Max
        omega
    · rw [if_pos hpos, offT_of_le (by omega) (by omega), Option.bind_some]
      by_cases hhigh : (int64Max : ℤ) - offset < base
      · rw [if_pos hhigh, if_pos (.inl ⟨hpos, hhigh⟩)]
        exact ⟨rfl, hf⟩
      · rw [if_neg hhigh, if_neg (by omega), checkedMove_eq (by omega) (by omega)]
        refine ⟨rfl, ?_⟩
        split
        · exact hf
        · show 0 ≤ base + offset ∧ base + offset ≤ int64Max
          omega

theorem checkedTruncate_eq (hb : node.Bounded) (length : ℤ) :
    checkedTruncate h node length = some (ramfsTruncate h node length) ∧ (ramfsTruncate h node length).1.Bounded := by
  have hmax := sizeMax_eq
  rw [checkedTruncate, ramfsTruncate]
  split
  · exact ⟨rfl, hb⟩
  split
  · exact ⟨rfl, hb⟩
  split
  · exact ⟨rfl, hb⟩
  case isFalse hlen _ _ =>
    have hn : length.toNat ≤ sizeMax := by omega
    have hroom := le_grownCapacity node.capacity hn
    have hcap := hb.capacity
    have hsize := hb.size
    rw [sizeT_of_le (show length = (length.toNat : ℤ) by omega) hn]
    simp only [Option.bind_eq_bind, Option.bind_some, checkedResize]
    by_cases hbig : node.capacity < length.toNat
    · simp only [if_pos hbig, checkedCapacity_eq _ hn, Option.bind_some]
      by_cases hgrant : h.grants (grownCapacity node.capacity length.toNat) = false
      · rw [if_pos hgrant, if_pos ⟨hbig, hgrant⟩]
        exact ⟨rfl, hb⟩
      · have hle : grownCapacity node.capacity length.toNat ≤ int64Max := by
          have htrue : h.grants (grownCapacity node.capacity length.toNat) = true := by simpa using hgrant
          simp only [Host.grants, Bool.and_eq_true, decide_eq_true_eq] at htrue
          exact htrue.2
        rw [if_neg hgrant, if_neg (fun hno => hgrant hno.2)]
        simp only [Option.bind_some]
        rw [checkedClear_eq hroom hle]
        refine ⟨?_, hb.regular, hroom, hle⟩
        simp only [Option.bind_some]
        split <;> rfl
    · simp only [if_neg hbig, Option.bind_some]
      rw [if_neg (fun hno => hbig hno.1), checkedClear_eq (by omega) hcap]
      refine ⟨?_, hb.regular, by show length.toNat ≤ node.capacity; omega, hcap⟩
      simp only [Option.bind_some]
      split <;> rfl

end

/-! ### Any number of files -/

/-- The operations of `node_file_ops` that compute with offsets and sizes, in a monad that may watch them. -/
structure FileOps (m : Type → Type) where
  read : Host → OpenFile → Node → ℕ → m (OpenFile × Node × Reply)
  write : Host → OpenFile → Node → Bytes → m (OpenFile × Node × Reply)
  lseek : OpenFile → Node → ℤ → Whence → m (OpenFile × Reply)
  truncate : Host → Node → ℤ → m (Node × Except Errno Unit)

def nodeFileOps : FileOps Id := ⟨nodeRead, nodeWrite, nodeLseek, ramfsTruncate⟩

def checkedFileOps : FileOps Option := ⟨checkedRead, checkedWrite, checkedLseek, checkedTruncate⟩

/-- Regular files and the objects open on them. -/
structure FileStore where
  nodes : Heap Node
  files : Heap OpenFile

/-- A call on regular files. Arguments have the types of the interface, so an offset is any 64-bit value. -/
inductive StoreCall
  | create (mode : ℕ) (flags : OpenFlags)
  | openFile (n : NodeId) (flags : OpenFlags)
  | read (f : FileId) (count : UInt64)
  | write (f : FileId) (buffer : Bytes)
  | lseek (f : FileId) (offset : Int64) (whence : Whence)
  | truncate (n : NodeId) (length : Int64)
  | ftruncate (f : FileId) (length : Int64)
  | close (f : FileId)

namespace FileStore

section

variable {m : Type → Type} [Monad m]

/-- The file and the node behind it. -/
def lookup (s : FileStore) (f : FileId) : Option (OpenFile × NodeId × Node) :=
  match s.files.get f with
  | none => none
  | some file =>
    match file.object with
    | .node n => (s.nodes.get n).map fun node => (file, n, node)
    | _ => none

/-- `ramfs_open` of a node; the node is cut before the object is allocated. -/
def openNode (h : Host) (s : FileStore) (n : NodeId) (flags : OpenFlags) : FileStore :=
  match s.nodes.get n with
  | none => s
  | some node =>
    match ramfsOpen node n flags with
    | .error _ => s
    | .ok (node, file) =>
      let s := { s with nodes := s.nodes.modify n fun _ => node }
      if h.allocate .openFile then { s with files := s.files.alloc file } else s

/-- One call, through a table of operations. -/
def perform (ops : FileOps m) (h : Host) (s : FileStore) : StoreCall → m FileStore
  | .create mode flags =>
    pure (openNode h { s with nodes := s.nodes.alloc (freshNode 0 none [] .regular mode 1 h.wallClock none) }
      s.nodes.next flags)
  | .openFile n flags => pure (openNode h s n flags)
  | .read f count =>
    match s.lookup f with
    | none => pure s
    | some (file, n, node) =>
      if int64Max < count.toNat then pure s
      else do
        let (file, node, _) ← ops.read h file node count.toNat
        pure ⟨s.nodes.modify n fun _ => node, s.files.modify f fun _ => file⟩
  | .write f buffer =>
    match s.lookup f with
    | none => pure s
    | some (file, n, node) =>
      if int64Max < buffer.length then pure s
      else do
        let (file, node, _) ← ops.write h file node buffer
        pure ⟨s.nodes.modify n fun _ => node, s.files.modify f fun _ => file⟩
  | .lseek f offset whence =>
    match s.lookup f with
    | none => pure s
    | some (file, _, node) => do
      let (file, _) ← ops.lseek file node offset.toInt whence
      pure { s with files := s.files.modify f fun _ => file }
  | .truncate n length =>
    match s.nodes.get n with
    | none => pure s
    | some node =>
      if length.toInt < 0 ∨ (sizeMax : ℤ) < length.toInt then pure s
      else do
        let (node, _) ← ops.truncate h node length.toInt
        pure { s with nodes := s.nodes.modify n fun _ => node }
  | .ftruncate f length =>
    match s.lookup f with
    | none => pure s
    | some (file, n, node) =>
      if length.toInt < 0 ∨ (sizeMax : ℤ) < length.toInt then pure s
      else if file.flags.access = .rdonly then pure s
      else do
        let (node, _) ← ops.truncate h node length.toInt
        pure { s with nodes := s.nodes.modify n fun _ => node }
  | .close f => pure { s with files := s.files.free f }

end

/-- No file and no open object yet. -/
def start : FileStore := ⟨.empty, .empty⟩

/-- The bounds of all files and of all open objects. -/
structure Bounded (s : FileStore) : Prop where
  nodes : ∀ n node, s.nodes.get n = some node → node.Bounded
  files : ∀ f file, s.files.get f = some file → file.Bounded

/-- A call as the program makes it. -/
def step (s : FileStore) (a : Host × StoreCall) : FileStore := Id.run (s.perform nodeFileOps a.1 a.2)

/-- The same call with its arithmetic watched. -/
def checkedStep (s : FileStore) (a : Host × StoreCall) : Option FileStore := s.perform checkedFileOps a.1 a.2

namespace Bounded

variable {s : FileStore}

theorem setNode (hs : s.Bounded) (n : NodeId) {node : Node} (hb : node.Bounded) :
    Bounded { s with nodes := s.nodes.modify n fun _ => node } := by
  refine ⟨?_, hs.files⟩
  intro c node' hget
  rw [Heap.get_modify] at hget
  split at hget
  · obtain ⟨old, -, rfl⟩ := Option.map_eq_some_iff.mp hget
    exact hb
  · exact hs.nodes c node' hget

theorem setFile (hs : s.Bounded) (f : FileId) {file : OpenFile} (hb : file.Bounded) :
    Bounded { s with files := s.files.modify f fun _ => file } := by
  refine ⟨hs.nodes, ?_⟩
  intro c file' hget
  rw [Heap.get_modify] at hget
  split at hget
  · obtain ⟨old, -, rfl⟩ := Option.map_eq_some_iff.mp hget
    exact hb
  · exact hs.files c file' hget

theorem lookup (hs : s.Bounded) {f : FileId} {file : OpenFile} {n : NodeId} {node : Node}
    (h : s.lookup f = some (file, n, node)) : file.Bounded ∧ node.Bounded := by
  unfold FileStore.lookup at h
  split at h
  · cases h
  case _ file' hfile =>
    split at h
    case _ n' _ =>
      obtain ⟨node', hnode, heq⟩ := Option.map_eq_some_iff.mp h
      cases heq
      exact ⟨hs.files f _ hfile, hs.nodes _ _ hnode⟩
    · cases h

/-- Opening a file keeps the bounds; an append file starts at the end. -/
theorem openNode (hs : s.Bounded) (h : Host) (n : NodeId) (flags : OpenFlags) : (s.openNode h n flags).Bounded := by
  unfold FileStore.openNode
  split
  · exact hs
  case _ node hnode =>
    split
    · exact hs
    case _ node' file hopen =>
      have hb := hs.nodes n node hnode
      have hcut : (cutAtOpen node flags).Bounded := by
        rw [cutAtOpen]
        split
        · exact ⟨hb.regular, Nat.zero_le _, hb.capacity⟩
        · exact hb
      rw [ramfsOpen, if_neg (by rw [hb.regular]; decide), if_neg (by rw [hb.regular]; simp)] at hopen
      cases hopen
      have hset := hs.setNode n hcut
      split
      · refine ⟨hset.nodes, ?_⟩
        intro f file hget
        rw [Heap.get_alloc] at hget
        split at hget
        · cases hget
          show 0 ≤ (if flags.append = true then _ else _) ∧ (if flags.append = true then _ else _) ≤ (int64Max : ℤ)
          have hle := hcut.size.trans hcut.capacity
          rw [cbOff_of_le hle]
          split <;> omega
        · exact hset.files f file hget
      · exact hset

theorem int64_range (x : Int64) : -(int64Max : ℤ) - 1 ≤ x.toInt ∧ x.toInt ≤ int64Max := by
  have h₀ := x.le_toInt
  have h₁ := x.toInt_lt
  have hmax : (int64Max : ℤ) = 2 ^ 63 - 1 := by decide
  omega

/-- **One call.**  From bounded files no arithmetic of a call leaves its type, and the files stay bounded. -/
theorem step (hs : s.Bounded) (a : Host × StoreCall) : s.checkedStep a = some (s.step a) ∧ (s.step a).Bounded := by
  obtain ⟨h, call⟩ := a
  cases call with
  | create mode flags =>
    refine ⟨rfl, openNode ?_ h _ flags⟩
    refine ⟨?_, hs.files⟩
    intro n node hget
    rw [Heap.get_alloc] at hget
    split at hget
    · cases hget
      exact ⟨rfl, le_rfl, Nat.zero_le _⟩
    · exact hs.nodes n node hget
  | openFile n flags => exact ⟨rfl, hs.openNode h n flags⟩
  | read f count =>
    simp only [checkedStep, FileStore.step, perform]
    split
    · exact ⟨rfl, hs⟩
    case _ file n node hlook =>
      obtain ⟨hf, hb⟩ := hs.lookup hlook
      obtain ⟨heq, hf', hb'⟩ := @checkedRead_eq h node file hb hf count.toNat
      split
      · exact ⟨rfl, hs⟩
      · refine ⟨?_, (hs.setNode n hb').setFile f hf'⟩
        show (checkedRead h file node count.toNat >>= _) = _
        rw [heq]
        rfl
  | write f buffer =>
    simp only [checkedStep, FileStore.step, perform]
    split
    · exact ⟨rfl, hs⟩
    case _ file n node hlook =>
      obtain ⟨hf, hb⟩ := hs.lookup hlook
      split
      · exact ⟨rfl, hs⟩
      case _ hlen =>
        obtain ⟨heq, hf', hb'⟩ := @checkedWrite_eq h node file hb hf buffer (by omega)
        refine ⟨?_, (hs.setNode n hb').setFile f hf'⟩
        show (checkedWrite h file node buffer >>= _) = _
        rw [heq]
        rfl
  | lseek f offset whence =>
    simp only [checkedStep, FileStore.step, perform]
    split
    · exact ⟨rfl, hs⟩
    case _ file n node hlook =>
      obtain ⟨hf, hb⟩ := hs.lookup hlook
      obtain ⟨h₀, h₁⟩ := int64_range offset
      obtain ⟨heq, hf'⟩ := checkedLseek_eq hb hf h₀ h₁ whence
      refine ⟨?_, hs.setFile f hf'⟩
      show (checkedLseek file node offset.toInt whence >>= _) = _
      rw [heq]
      rfl
  | truncate n length =>
    simp only [checkedStep, FileStore.step, perform]
    split
    · exact ⟨rfl, hs⟩
    case _ node hnode =>
      obtain ⟨heq, hb'⟩ := @checkedTruncate_eq h node (hs.nodes n node hnode) length.toInt
      split
      · exact ⟨rfl, hs⟩
      · refine ⟨?_, hs.setNode n hb'⟩
        show (checkedTruncate h node length.toInt >>= _) = _
        rw [heq]
        rfl
  | ftruncate f length =>
    simp only [checkedStep, FileStore.step, perform]
    split
    · exact ⟨rfl, hs⟩
    case _ file n node hlook =>
      obtain ⟨heq, hb'⟩ := @checkedTruncate_eq h node (hs.lookup hlook).2 length.toInt
      split
      · exact ⟨rfl, hs⟩
      split
      · exact ⟨rfl, hs⟩
      · refine ⟨?_, hs.setNode n hb'⟩
        show (checkedTruncate h node length.toInt >>= _) = _
        rw [heq]
        rfl
  | close f =>
    refine ⟨rfl, hs.nodes, ?_⟩
    intro c file hget
    rw [show (FileStore.step s (h, .close f)).files = s.files.free f from rfl, Heap.get_free] at hget
    split at hget
    · cases hget
    · exact hs.files c file hget

end Bounded

/-- **File arithmetic never wraps.**  Along every sequence of calls the watched system goes through, its states are
those of the program, all offsets, sizes and capacities are within their bounds, and the doubling loop ends with at
least the capacity it was asked for. -/
theorem arithmetic_never_wraps (calls : List (Host × StoreCall)) :
    run checkedStep start calls = some (calls.foldl step start) ∧ (calls.foldl step start).Bounded ∧
      ∀ capacity needed, needed ≤ sizeMax → ∃ c, checkedCapacity capacity needed = some c ∧ needed ≤ c := by
  have hrun : ∀ (calls : List (Host × StoreCall)) (s : FileStore), s.Bounded →
      run checkedStep s calls = some (calls.foldl step s) ∧ (calls.foldl step s).Bounded := by
    intro calls
    induction calls with
    | nil => exact fun s hs => ⟨rfl, hs⟩
    | cons a calls ih =>
      intro s hs
      obtain ⟨hstep, hbound⟩ := hs.step a
      rw [run, hstep, Option.bind_some, List.foldl_cons]
      exact ih _ hbound
  have hstart : start.Bounded := by
    constructor
    · intro n node hget
      rw [start, Heap.get_empty] at hget
      cases hget
    · intro f file hget
      rw [start, Heap.get_empty] at hget
      cases hget
  obtain ⟨h₁, h₂⟩ := hrun calls start hstart
  exact ⟨h₁, h₂, fun capacity needed hn => ⟨_, checkedCapacity_eq capacity hn, le_grownCapacity capacity hn⟩⟩

end FileStore

end CannedBsd
