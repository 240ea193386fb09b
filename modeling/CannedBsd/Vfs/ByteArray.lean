import CannedBsd.Vfs.Content

/-!
# Files as plain byte arrays

The abstract file is a list of bytes and one offset for each open-file object: no capacity, no
stale storage, no allocator. The lemmas below say what `node_write` and `ramfs_truncate` do to the
bytes a reader can reach, whatever the storage behind the end of the file holds.

* `content_write`: a write overlays the contents.
* `truncate_cases`, `truncate_ok`: a refused truncation changes nothing, a successful one cuts the file or
  fills it up with zeros.
-/

namespace CannedBsd

open CannedBsd.Lib

/-! ### The abstract file -/

/-- Lay `buffer` over a byte list from `start` on; a gap before it is filled with zeros. -/
def overlay (bytes : Bytes) (start : ℕ) (buffer : Bytes) : Bytes :=
  bytes.take start ++ List.replicate (start - bytes.length) 0 ++ buffer ++
    bytes.drop (start + buffer.length)

/-- The first `n` bytes, padded with zeros. -/
def resizeTo (bytes : Bytes) (n : ℕ) : Bytes := bytes.take n ++ List.replicate (n - bytes.length) 0

/-- The abstract open-file object. -/
structure Cursor where
  flags : OpenFlags
  offset : ℕ
  deriving DecidableEq

structure ByteFile where
  bytes : Bytes
  cursors : Heap Cursor

/-- The calls on one regular file. A descriptor is represented by the open-file object it names,
so that descriptors shared by `dup` or `spawn` are the same object. -/
inductive FileCall
  | openFile (flags : OpenFlags)
  | read (f : FileId) (count : ℕ)
  | write (f : FileId) (buffer : Bytes)
  | lseek (f : FileId) (offset : ℤ) (whence : Whence)
  | truncate (length : ℤ)
  | ftruncate (f : FileId) (length : ℤ)
  | close (f : FileId)
  deriving DecidableEq

/-- Where `lseek` measures from. -/
def seekBase (a : ByteFile) (c : Cursor) : Whence → ℤ
  | .set => 0
  | .cur => c.offset
  | .fromEnd => a.bytes.length
  | .other => 0

/-- A successful call on the abstract file: its value and the bytes it hands out. -/
def ByteFile.call (a : ByteFile) : FileCall → ByteFile × ℤ × Bytes
  | .openFile flags =>
    let bytes := if flags.trunc = true ∧ flags.access ≠ .rdonly then [] else a.bytes
    (⟨bytes, a.cursors.alloc ⟨flags, if flags.append then bytes.length else 0⟩⟩, a.cursors.next, [])
  | .read f count =>
    match a.cursors.get f with
    | none => (a, 0, [])
    | some c =>
      let out := (a.bytes.drop c.offset).take count
      ({ a with cursors := a.cursors.modify f fun c => { c with offset := c.offset + out.length } },
        out.length, out)
  | .write f buffer =>
    match a.cursors.get f with
    | none => (a, 0, [])
    | some c =>
      if buffer = [] then (a, 0, [])
      else
        let start := if c.flags.append then a.bytes.length else c.offset
        (⟨overlay a.bytes start buffer,
          a.cursors.modify f fun c => { c with offset := start + buffer.length }⟩, buffer.length, [])
  | .lseek f offset whence =>
    match a.cursors.get f with
    | none => (a, 0, [])
    | some c =>
      let target := seekBase a c whence + offset
      ({ a with cursors := a.cursors.modify f fun c => { c with offset := target.toNat } }, target, [])
  | .truncate length => ({ a with bytes := resizeTo a.bytes length.toNat }, 0, [])
  | .ftruncate _ length => ({ a with bytes := resizeTo a.bytes length.toNat }, 0, [])
  | .close f => ({ a with cursors := a.cursors.free f }, 0, [])

/-- Run the abstract file along the calls that succeeded; `none` if one of them returned something
else than the abstract file does. -/
def ByteFile.replay : ByteFile → List (FileCall × Reply) → Option ByteFile
  | a, [] => some a
  | a, (c, r) :: rest =>
    if r.value < 0 then replay a rest
    else if (r.value, r.data) = (a.call c).2 then replay (a.call c).1 rest else none

/-! ### Contents after one operation -/

theorem getElem?_content (node : Node) (i : ℕ) :
    node.content[i]? = if i < node.size then some (node.data i) else none := by
  rw [Node.content, Block.getElem?_read, Nat.zero_add]

theorem getElem?_resizeTo (bytes : Bytes) (n i : ℕ) :
    (resizeTo bytes n)[i]? = if i < n then some (bytes[i]?.getD 0) else none := by
  rw [resizeTo]
  by_cases hl : i < bytes.length
  · by_cases hn : i < n
    · rw [List.getElem?_append_left (by rw [List.length_take]; omega), List.getElem?_take_of_lt hn,
        if_pos hn, List.getElem?_eq_getElem hl]
      rfl
    · rw [if_neg hn, List.getElem?_eq_none]
      simp only [List.length_append, List.length_take, List.length_replicate]
      omega
  · rw [List.getElem?_append_right (by rw [List.length_take]; omega), List.getElem?_replicate,
      List.getElem?_eq_none (Nat.le_of_not_lt hl), List.length_take]
    by_cases hn : i < n
    · rw [if_pos hn, if_pos (by omega)]
      rfl
    · rw [if_neg hn, if_neg (by omega)]

theorem getElem?_overlay (bytes : Bytes) (start : ℕ) (buffer : Bytes) (i : ℕ) :
    (overlay bytes start buffer)[i]? =
      if i < start then some (bytes[i]?.getD 0)
      else if i < start + buffer.length then buffer[i - start]? else bytes[i]? := by
  have hpad : (resizeTo bytes start).length = start := by
    simp only [resizeTo, List.length_append, List.length_take, List.length_replicate]
    omega
  have heq : overlay bytes start buffer
      = resizeTo bytes start ++ (buffer ++ bytes.drop (start + buffer.length)) := by
    simp only [overlay, resizeTo, List.append_assoc]
  rw [heq]
  by_cases h₁ : i < start
  · rw [if_pos h₁, List.getElem?_append_left (by omega), getElem?_resizeTo, if_pos h₁]
  · rw [if_neg h₁, List.getElem?_append_right (by omega), hpad]
    by_cases h₂ : i < start + buffer.length
    · rw [if_pos h₂, List.getElem?_append_left (by omega)]
    · rw [if_neg h₂, List.getElem?_append_right (by omega), List.getElem?_drop]
      congr 1
      omega

section Storage

variable (h : Host) {node : Node} {start needed : ℕ}

theorem prepared_size : (prepared h node start needed).size = node.size := by
  simp only [prepared]
  split <;> split <;> rfl

theorem prepared_type : (prepared h node start needed).type = node.type := by
  simp only [prepared]
  split <;> split <;> rfl

theorem prepared_capacity : (prepared h node start needed).capacity =
    if node.capacity < needed then grownCapacity node.capacity needed else node.capacity := by
  simp only [prepared]
  split <;> split <;> simp_all

/-- Preparing a write keeps the bytes of the file. -/
theorem prepared_data_of_lt (hs : node.size ≤ node.capacity) {i : ℕ} (hi : i < node.size) :
    (prepared h node start needed).data i = node.data i := by
  simp only [prepared]
  by_cases hc : node.capacity < needed
  · simp only [hc, if_true]
    have hold : Block.fill (resized h node.data node.capacity) node.capacity
        (grownCapacity node.capacity needed - node.capacity) 0 i = node.data i := by
      rw [Block.fill_of_lt _ _ (by omega), resized, if_pos (by omega)]
    split
    · exact (Block.fill_of_lt _ _ hi).trans hold
    · exact hold
  · simp only [hc, if_false]
    split
    · exact Block.fill_of_lt _ _ hi
    · rfl

/-- The gap in front of a write beyond the end is cleared, whatever it held. -/
theorem prepared_data_of_gap {i : ℕ} (hi : node.size ≤ i) (hlt : i < start) :
    (prepared h node start needed).data i = 0 := by
  have hsize : node.size < start := by omega
  simp only [prepared]
  by_cases hc : node.capacity < needed
  · simp only [hc, if_true, hsize]
    exact Block.fill_of_mem _ _ hi (by omega)
  · simp only [hc, if_false, hsize, if_true]
    exact Block.fill_of_mem _ _ hi (by omega)

/-- A write overlays the contents. -/
theorem content_write (needed : ℕ) (hs : node.size ≤ node.capacity) (buffer : Bytes) :
    Block.read (Block.write (prepared h node start needed).data start buffer) 0
        (max (start + buffer.length) node.size)
      = overlay node.content start buffer := by
  refine List.ext_getElem? fun i => ?_
  rw [Block.getElem?_read, getElem?_overlay, getElem?_content, Nat.zero_add]
  by_cases h₁ : i < start
  · rw [if_pos (by omega), if_pos h₁, Block.write_of_lt _ _ h₁]
    by_cases h₂ : i < node.size
    · rw [if_pos h₂, prepared_data_of_lt h hs h₂]
      rfl
    · rw [if_neg h₂, prepared_data_of_gap h (by omega) h₁]
      rfl
  · rw [if_neg h₁]
    by_cases h₂ : i < start + buffer.length
    · have hj : i - start < buffer.length := by omega
      have hat := Block.write_at (prepared h node start needed).data start buffer hj
      rw [show start + (i - start) = i by omega] at hat
      rw [if_pos (by omega), if_pos h₂, hat, List.getElem?_eq_getElem hj]
    · rw [if_neg h₂, Block.write_of_ge _ _ (by omega)]
      by_cases h₃ : i < node.size
      · rw [if_pos (by omega), if_pos h₃, prepared_data_of_lt h hs h₃]
      · rw [if_neg (by omega), if_neg h₃]

/-- A write that is not refused has room for its bytes. -/
theorem prepared_room (start : ℕ) (hs : node.size ≤ node.capacity) (hc : node.capacity ≤ int64Max)
    (hn : needed ≤ sizeMax)
    (hg : ¬ (node.capacity < needed ∧ h.grants (grownCapacity node.capacity needed) = false)) :
    needed ≤ (prepared h node start needed).capacity ∧
      (prepared h node start needed).capacity ≤ int64Max ∧
      node.size ≤ (prepared h node start needed).capacity := by
  have hroom := le_grownCapacity node.capacity hn
  rw [prepared_capacity]
  split
  · rename_i hbig
    have hgrant : h.grants (grownCapacity node.capacity needed) = true := by
      by_contra hno
      exact hg ⟨hbig, by simpa using hno⟩
    simp only [Host.grants, Bool.and_eq_true, decide_eq_true_eq] at hgrant
    exact ⟨hroom, hgrant.2, by omega⟩
  · exact ⟨by omega, hc, hs⟩

/-- `node_write` behind its early returns. -/
theorem nodeWrite_eq {file : OpenFile} {buffer : Bytes} (hacc : file.flags.access ≠ .rdonly)
    (hreg : node.type ≠ .executable) (hnil : buffer ≠ []) (hoff : (aimed file node).offset = start)
    (hspace : start + buffer.length ≤ sizeMax) :
    nodeWrite h file node buffer =
      if node.capacity < start + buffer.length ∧
          h.grants (grownCapacity node.capacity (start + buffer.length)) = false then
        (aimed file node, node, .fail .enomem)
      else
        ({ aimed file node with offset := (start : ℤ) + buffer.length },
          { prepared h node start (start + buffer.length) with
            data := Block.write (prepared h node start (start + buffer.length)).data start buffer
            size := max (start + buffer.length) node.size
            mtime := h.wallClock
            ctime := h.wallClock },
          .done buffer.length) := by
  have hlen : buffer.length ≠ 0 := by
    intro hz
    exact hnil (List.eq_nil_of_length_eq_zero hz)
  have hno : ¬ ((aimed file node).offset < 0 ∨ (sizeMax : ℤ) < (aimed file node).offset ∨
      sizeMax - (aimed file node).offset.toNat < buffer.length) := by
    rw [hoff, Int.toNat_natCast]
    omega
  simp only [nodeWrite, if_neg hacc, if_neg hreg, if_neg hlen, if_neg hno]
  simp only [hoff, Int.toNat_natCast, prepared_size]

/-- What a successful truncation leaves behind. -/
theorem truncate_ok (hs : node.size ≤ node.capacity) (hc : node.capacity ≤ int64Max) {length : ℤ}
    (hok : (cbVfsTruncateNode h node length).2 = .ok ()) :
    let node' := (cbVfsTruncateNode h node length).1
    node'.content = resizeTo node.content length.toNat ∧ node'.type = node.type ∧
      node'.size ≤ node'.capacity ∧ node'.capacity ≤ int64Max := by
  intro node'
  have hmax : (sizeMax : ℤ) = 18446744073709551615 := by decide
  obtain ⟨hneg, htype⟩ : ¬ (length < 0 ∨ (sizeMax : ℤ) < length) ∧ node.type = .regular := by
    rw [cbVfsTruncateNode] at hok
    split at hok
    · cases hok
    · rename_i hlen
      refine ⟨hlen, ?_⟩
      cases ht : node.type <;> simp [ht] at hok ⊢
  set needed := length.toNat with hneeded
  have hroom : needed ≤ sizeMax := by omega
  have hgrow := le_grownCapacity node.capacity hroom
  by_cases hbig : node.capacity < needed
  · by_cases hgrant : h.grants (grownCapacity node.capacity needed) = true
    · have hcap : grownCapacity node.capacity needed ≤ int64Max := by
        simp only [Host.grants, Bool.and_eq_true, decide_eq_true_eq] at hgrant
        exact hgrant.2
      have hn : node' = { node with
          data := Block.fill (resized h node.data node.capacity) node.size (needed - node.size) 0
          capacity := grownCapacity node.capacity needed
          size := needed
          mtime := h.wallClock
          ctime := h.wallClock } := by
        simp [node', cbVfsTruncateNode, ramfsTruncate, hneg, htype, ← hneeded, hbig, hgrant,
          show node.size < needed by omega]
      rw [hn]
      refine ⟨List.ext_getElem? fun i => ?_, rfl, hgrow, hcap⟩
      rw [getElem?_content, getElem?_resizeTo, getElem?_content]
      by_cases hi : i < needed
      · rw [if_pos hi, if_pos hi]
        by_cases hlt : i < node.size
        · rw [if_pos hlt]
          show some (Block.fill _ _ _ _ i) = _
          rw [Block.fill_of_lt _ _ hlt, resized, if_pos (by omega)]
          rfl
        · rw [if_neg hlt]
          show some (Block.fill _ _ _ _ i) = _
          rw [Block.fill_of_mem _ _ (by omega) (by omega)]
          rfl
      · rw [if_neg hi, if_neg hi]
    · simp [cbVfsTruncateNode, ramfsTruncate, hneg, htype, ← hneeded, hbig, hgrant] at hok
  · have hn : node' = { node with
        data := if node.size < needed then
          Block.fill node.data node.size (needed - node.size) 0 else node.data
        size := needed
        mtime := h.wallClock
        ctime := h.wallClock } := by
      simp [node', cbVfsTruncateNode, ramfsTruncate, hneg, htype, ← hneeded, hbig]
    rw [hn]
    refine ⟨List.ext_getElem? fun i => ?_, rfl, Nat.le_of_not_lt hbig, hc⟩
    rw [getElem?_content, getElem?_resizeTo, getElem?_content]
    by_cases hi : i < needed
    · rw [if_pos hi, if_pos hi]
      by_cases hlt : i < node.size
      · rw [if_pos hlt]
        show some ((if node.size < needed then
          Block.fill node.data node.size (needed - node.size) 0 else node.data) i) = _
        split
        · rw [Block.fill_of_lt _ _ hlt]
          rfl
        · rfl
      · rw [if_neg hlt]
        show some ((if node.size < needed then
          Block.fill node.data node.size (needed - node.size) 0 else node.data) i) = _
        rw [if_pos (by omega), Block.fill_of_mem _ _ (by omega) (by omega)]
        rfl
    · rw [if_neg hi, if_neg hi]

/-- A refused truncation changes nothing. -/
theorem truncate_cases (node : Node) (length : ℤ) :
    (cbVfsTruncateNode h node length).2 = .ok () ∨
      ∃ e, cbVfsTruncateNode h node length = (node, .error e) := by
  unfold cbVfsTruncateNode
  split
  · exact .inr ⟨_, rfl⟩
  split
  · exact .inr ⟨_, rfl⟩
  split
  · exact .inr ⟨_, rfl⟩
  split
  · exact .inr ⟨_, rfl⟩
  unfold ramfsTruncate
  split
  · exact .inr ⟨_, rfl⟩
  dsimp only
  split
  · exact .inr ⟨_, rfl⟩
  · exact .inl rfl

end Storage

end CannedBsd
