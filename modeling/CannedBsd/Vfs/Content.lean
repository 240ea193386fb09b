import CannedBsd.Vfs.Ramfs

/-!
# File contents

The file operations of `src/ramfs.c` on one open file and the node behind it. A file keeps a
logical size and a capacity; shrinking only lowers the size, so the storage behind it still holds
old bytes, and a resized block has an arbitrary tail. `node_write` and `ramfs_truncate` clear the
ranges they expose.

* `le_grownCapacity`: the loop over the capacity ends with room for what was asked.
-/

namespace CannedBsd

open CannedBsd.Lib

abbrev FileId := ℕ
abbrev PipeId := ℕ

/-- The object behind an open file, which also decides its table of operations. -/
inductive FileObject
  | node (n : NodeId)
  | pipeRead (p : PipeId)
  | pipeWrite (p : PipeId)
  | consoleInput
  | consoleOutput (stream : ℕ)
  deriving DecidableEq, Repr

/-- `struct cb_open_file`. The `terminal` pointer is set for the console objects. -/
structure OpenFile where
  references : ℕ
  flags : OpenFlags
  offset : ℤ
  object : FileObject
  deriving DecidableEq, Repr

/-- What a call returns: its value, the bytes it copied out, and the number it stored in the
caller's error cell, if it stored one. -/
structure Reply where
  value : ℤ
  data : Bytes
  error : Option ℤ
  deriving DecidableEq, Repr

def Reply.fail (e : Errno) : Reply := ⟨-1, [], some e.code⟩

def Reply.done (value : ℤ) : Reply := ⟨value, [], some 0⟩

/-! ### Storage -/

/-- The doubling loop. The fuel exceeds the number of doublings up to `SIZE_MAX`. -/
def doubleUp (needed : ℕ) : ℕ → ℕ → ℕ
  | 0, capacity => capacity
  | fuel + 1, capacity =>
    if capacity < needed then
      if sizeMax / 2 < capacity then needed else doubleUp needed fuel (capacity * 2)
    else capacity

/-- The capacity a file is given when it has to hold `needed` bytes. -/
def grownCapacity (capacity needed : ℕ) : ℕ :=
  doubleUp needed 64 (if capacity = 0 then 64 else capacity)

/-- A block of `old` bytes after a successful `cb_resize`. -/
def resized (h : Host) (data : ℕ → UInt8) (old : ℕ) : ℕ → UInt8 :=
  fun i => if i < old then data i else h.tail i

/-! ### Operations -/

/-- The `CB_O_TRUNC` branch of `ramfs_open`: only the size is lowered. -/
def cutAtOpen (node : Node) (flags : OpenFlags) : Node :=
  if flags.trunc = true ∧ flags.access ≠ .rdonly then { node with size := 0 } else node

/-- `ramfs_open` when the open-file object can be allocated: the node, possibly cut to size zero,
and the new object. -/
def ramfsOpen (node : Node) (n : NodeId) (flags : OpenFlags) : Except Errno (Node × OpenFile) :=
  if node.type = .directory then .error .eisdir
  else if node.type = .executable ∧ flags.trunc = true then .error .einval
  else
    let node := cutAtOpen node flags
    .ok (node, ⟨1, flags, if flags.append then cbOff node.size else 0, .node n⟩)

def ramfsTruncate (h : Host) (node : Node) (length : ℤ) : Node × Except Errno Unit :=
  if length < 0 ∨ (sizeMax : ℤ) < length then (node, .error .einval)
  else if node.type = .executable then (node, .error .einval)
  else if node.type ≠ .regular then
    (node, .error (if node.type = .directory then .eisdir else .espipe))
  else
    let needed := length.toNat
    let capacity := grownCapacity node.capacity needed
    if node.capacity < needed ∧ h.grants capacity = false then (node, .error .enomem)
    else
      let node := if node.capacity < needed then
        { node with data := resized h node.data node.capacity, capacity := capacity } else node
      let data := if node.size < needed then
        Block.fill node.data node.size (needed - node.size) 0 else node.data
      ({ node with data := data, size := needed, mtime := h.wallClock, ctime := h.wallClock }, .ok ())

/-- `cb_vfs_truncate_node`. -/
def cbVfsTruncateNode (h : Host) (node : Node) (length : ℤ) : Node × Except Errno Unit :=
  if length < 0 ∨ (sizeMax : ℤ) < length then (node, .error .einval)
  else if node.type = .directory then (node, .error .eisdir)
  else if node.type = .executable then (node, .error .einval)
  else if node.type ≠ .regular then (node, .error .espipe)
  else ramfsTruncate h node length

def nodeRead (h : Host) (file : OpenFile) (node : Node) (count : ℕ) : OpenFile × Node × Reply :=
  if file.flags.access = .wronly then (file, node, .fail .ebadf)
  else if file.offset < 0 ∨ (sizeMax : ℤ) < file.offset then (file, node, .fail .einval)
  else if node.type = .executable then (file, node, ⟨0, [], none⟩)
  else if node.size ≤ file.offset.toNat then (file, node, ⟨0, [], none⟩)
  else
    let count := min count (node.size - file.offset.toNat)
    ({ file with offset := file.offset + count }, { node with atime := h.wallClock },
      ⟨count, Block.read node.data file.offset.toNat count, some 0⟩)

/-- The storage `node_write` copies into: enough capacity, and no stale byte before `start`. -/
def prepared (h : Host) (node : Node) (start needed : ℕ) : Node :=
  let capacity := grownCapacity node.capacity needed
  let node := if node.capacity < needed then
    { node with
      data := Block.fill (resized h node.data node.capacity) node.capacity
        (capacity - node.capacity) 0
      capacity := capacity } else node
  if node.size < start then
    { node with data := Block.fill node.data node.size (start - node.size) 0 } else node

/-- The file with its offset where `node_write` starts: an append write moves it to the end. -/
def aimed (file : OpenFile) (node : Node) : OpenFile :=
  if file.flags.append then { file with offset := cbOff node.size } else file

def nodeWrite (h : Host) (file : OpenFile) (node : Node) (buffer : Bytes) :
    OpenFile × Node × Reply :=
  if file.flags.access = .rdonly then (file, node, .fail .ebadf)
  else if node.type = .executable then (file, node, .fail .eperm)
  else if buffer.length = 0 then (file, node, .done 0)
  else
    -- the offset is stored before it is known that the write can succeed
    let file := aimed file node
    if file.offset < 0 ∨ (sizeMax : ℤ) < file.offset ∨
        sizeMax - file.offset.toNat < buffer.length then (file, node, .fail .enospc)
    else
      let start := file.offset.toNat
      let needed := start + buffer.length
      if node.capacity < needed ∧ h.grants (grownCapacity node.capacity needed) = false then
        (file, node, .fail .enomem)
      else
        let node := prepared h node start needed
        ({ file with offset := file.offset + buffer.length },
          { node with
            data := Block.write node.data start buffer
            size := max needed node.size
            mtime := h.wallClock
            ctime := h.wallClock },
          .done buffer.length)

def nodeLseek (file : OpenFile) (node : Node) (offset : ℤ) (whence : Whence) : OpenFile × Reply :=
  let base : Option ℤ := match whence with
    | .set => some 0
    | .cur => some file.offset
    | .fromEnd => some (cbOff node.size)
    | .other => none
  match base with
  | none => (file, .fail .einval)
  | some base =>
    if (0 < offset ∧ (int64Max : ℤ) - offset < base) ∨
        (offset < 0 ∧ base < -(int64Max : ℤ) - 1 - offset) then (file, .fail .einval)
    else if base + offset < 0 then (file, .fail .einval)
    else ({ file with offset := base + offset }, .done (base + offset))

def nodeTruncate (h : Host) (file : OpenFile) (node : Node) (length : ℤ) : Node × Reply :=
  if file.flags.access = .rdonly then (node, .fail .ebadf)
  else
    match cbVfsTruncateNode h node length with
    | (node, .ok ()) => (node, .done 0)
    | (node, .error e) => (node, .fail (if e = .enosys then .ebadf else e))

/-- The event masks of `poll`. -/
structure PollMask where
  read : Bool
  write : Bool
  hup : Bool
  err : Bool
  deriving DecidableEq, Repr

def PollMask.none : PollMask := ⟨false, false, false, false⟩

def nodePoll (file : OpenFile) (events : PollMask) : PollMask :=
  { read := events.read && decide (file.flags.access ≠ .wronly)
    write := events.write && decide (file.flags.access ≠ .rdonly)
    hup := false
    err := false }

/-! ### What the storage holds -/

/-- The bytes a reader can reach. -/
def Node.content (node : Node) : Bytes := Block.read node.data 0 node.size

theorem Node.length_content (node : Node) : node.content.length = node.size :=
  Block.length_read _ _ _

theorem le_doubleUp {needed : ℕ} (hn : needed ≤ sizeMax) :
    ∀ fuel capacity, sizeMax < capacity * 2 ^ fuel → needed ≤ doubleUp needed fuel capacity := by
  intro fuel
  induction fuel with
  | zero =>
    intro capacity hc
    rw [doubleUp]
    omega
  | succ fuel ih =>
    intro capacity hc
    rw [doubleUp]
    split
    · split
      · exact le_rfl
      · exact ih (capacity * 2) (by rw [Nat.mul_assoc, ← pow_succ']; exact hc)
    · omega

/-- The loop ends with room for what was asked. -/
theorem le_grownCapacity (capacity : ℕ) {needed : ℕ} (hn : needed ≤ sizeMax) :
    needed ≤ grownCapacity capacity needed := by
  refine le_doubleUp hn 64 _ ?_
  have hpos : 1 ≤ (if capacity = 0 then 64 else capacity) := by split <;> omega
  calc sizeMax < 1 * 2 ^ 64 := by decide
    _ ≤ _ := Nat.mul_le_mul_right _ hpos

end CannedBsd
