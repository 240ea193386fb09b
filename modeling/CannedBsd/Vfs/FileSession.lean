import CannedBsd.Vfs.ByteArray
import CannedBsd.Lib.Runs

/-!
# Sessions on one regular file

Any number of open-file objects on one regular file are driven by any sequence of calls, with a
host that may refuse to resize at any of them. The successful calls return what the abstract file
returns, as long as no append write that is refused moves an offset.

* `FileSession.Agrees.step`: a call fails and leaves the abstract file alone, or it returns what that returns.
* `session_refines_bytes`: so the successful calls of a session are those of a byte array, as long as no
  refused append write moves its offset.
* `refused_append_moves_offset`: such a write does move it.
-/

namespace CannedBsd

open CannedBsd.Lib

/-! ### The session -/

/-- A regular file, the objects open on it, and what the calls so far returned. -/
structure FileSession where
  node : Node
  files : Heap OpenFile
  replies : List (FileCall × Reply)

/-- One call of a task, as `api_read` and its siblings dispatch it to the operations of RAMFS. -/
def FileSession.perform (h : Host) (s : FileSession) : FileCall → FileSession × Reply
  | .openFile flags =>
    match ramfsOpen s.node 0 flags with
    | .error e => (s, .fail e)
    | .ok (node, file) =>
      ({ s with node := node, files := s.files.alloc file }, .done s.files.next)
  | .read f count =>
    match s.files.get f with
    | none => (s, .fail .ebadf)
    | some file =>
      if int64Max < count then (s, .fail .einval)
      else
        let (file, node, r) := nodeRead h file s.node count
        ({ s with node := node, files := s.files.modify f fun _ => file }, r)
  | .write f buffer =>
    match s.files.get f with
    | none => (s, .fail .ebadf)
    | some file =>
      if int64Max < buffer.length then (s, .fail .einval)
      else
        let (file, node, r) := nodeWrite h file s.node buffer
        ({ s with node := node, files := s.files.modify f fun _ => file }, r)
  | .lseek f offset whence =>
    match s.files.get f with
    | none => (s, .fail .ebadf)
    | some file =>
      let (file, r) := nodeLseek file s.node offset whence
      ({ s with files := s.files.modify f fun _ => file }, r)
  | .truncate length =>
    match cbVfsTruncateNode h s.node length with
    | (node, .ok ()) => ({ s with node := node }, .done 0)
    | (node, .error e) => ({ s with node := node }, .fail e)
  | .ftruncate f length =>
    match s.files.get f with
    | none => (s, .fail .ebadf)
    | some file =>
      if length < 0 ∨ (sizeMax : ℤ) < length then (s, .fail .einval)
      else
        let (node, r) := nodeTruncate h file s.node length
        ({ s with node := node }, r)
  | .close f =>
    match s.files.get f with
    | none => (s, .fail .ebadf)
    | some _ => ({ s with files := s.files.free f }, .done 0)

/-- Perform a call and note its reply. -/
def FileSession.step (s : FileSession) (a : Host × FileCall) : Option FileSession :=
  let (s', r) := s.perform a.1 a.2
  some { s' with replies := s.replies ++ [(a.2, r)] }

/-- A new regular file without open objects. -/
def FileSession.start : FileSession where
  node := freshNode 0 none [] .regular 0o666 1 0 none
  files := .empty
  replies := []

def ByteFile.start : ByteFile := ⟨[], .empty⟩

/-! ### One call -/

/-- The abstract view of an open-file object. -/
def cursorOf (file : OpenFile) : Cursor := ⟨file.flags, file.offset.toNat⟩

/-- The session is the abstract file `a`. -/
structure FileSession.Agrees (s : FileSession) (a : ByteFile) : Prop where
  regular : s.node.type = .regular
  size : s.node.size ≤ s.node.capacity
  capacity : s.node.capacity ≤ int64Max
  bytes : a.bytes = s.node.content
  next : a.cursors.next = s.files.next
  cursors : ∀ f, a.cursors.get f = (s.files.get f).map cursorOf
  offsets : ∀ f file, s.files.get f = some file → 0 ≤ file.offset ∧ file.offset ≤ int64Max

/-- An append write keeps its offset unless it succeeds: it is at the end of the file already, or
the host grants the storage it needs. -/
def appendKeepsOffset (s : FileSession) (a : Host × FileCall) : Prop :=
  match a.2 with
  | .write f buffer =>
    ∀ file, s.files.get f = some file → file.flags.append = true → file.flags.access ≠ .rdonly →
      buffer ≠ [] → buffer.length ≤ int64Max → file.offset ≠ s.node.size →
      s.node.capacity < s.node.size + buffer.length →
      a.1.grants (grownCapacity s.node.capacity (s.node.size + buffer.length)) = true
  | _ => True

namespace FileSession.Agrees

variable {s : FileSession} {a : ByteFile}

/-- Replacing the object `f` on both sides. -/
theorem setFile (hs : s.Agrees a) {f : FileId} {file file' : OpenFile} {c : Cursor → Cursor}
    (hf : s.files.get f = some file) (hc : c (cursorOf file) = cursorOf file')
    (ho : 0 ≤ file'.offset ∧ file'.offset ≤ int64Max) :
    Agrees { s with files := s.files.modify f fun _ => file' }
      { a with cursors := a.cursors.modify f c } where
  regular := hs.regular
  size := hs.size
  capacity := hs.capacity
  bytes := hs.bytes
  next := by simpa using hs.next
  cursors := by
    intro g
    rw [Heap.get_modify, Heap.get_modify, hs.cursors g]
    by_cases hg : g = f
    · subst hg
      simp [hf, hc]
    · simp [hg]
  offsets := by
    intro g file'' hg
    rw [Heap.get_modify] at hg
    by_cases hgf : g = f
    · subst hgf
      simp only [if_true, hf, Option.map_some, Option.some.injEq] at hg
      subst hg
      exact ho
    · rw [if_neg hgf] at hg
      exact hs.offsets g file'' hg

theorem same (hs : s.Agrees a) {f : FileId} {file : OpenFile} (hf : s.files.get f = some file) :
    Agrees { s with files := s.files.modify f fun _ => file } a := by
  have hid := hs.setFile (c := id) hf rfl (hs.offsets f file hf)
  have hmod : a.cursors.modify f id = a.cursors := by
    obtain ⟨bytes, ⟨cells⟩⟩ := a
    simp [Heap.modify]
  rwa [hmod] at hid

/-- Replacing the contents on both sides. -/
theorem setNode (hs : s.Agrees a) {node : Node} {bytes : Bytes} (ht : node.type = .regular)
    (hsize : node.size ≤ node.capacity) (hcap : node.capacity ≤ int64Max)
    (hb : bytes = node.content) :
    Agrees { s with node := node } { a with bytes := bytes } :=
  ⟨ht, hsize, hcap, hb, hs.next, hs.cursors, hs.offsets⟩

theorem open_call (hs : s.Agrees a) (h : Host) (flags : OpenFlags) :
    0 ≤ (s.perform h (.openFile flags)).2.value ∧
      ((s.perform h (.openFile flags)).2.value, (s.perform h (.openFile flags)).2.data)
        = (a.call (.openFile flags)).2 ∧
      (s.perform h (.openFile flags)).1.Agrees (a.call (.openFile flags)).1 := by
  set bytes := (if flags.trunc = true ∧ flags.access ≠ .rdonly then [] else a.bytes) with hbytes
  set node := cutAtOpen s.node flags with hnode
  have hcontent : bytes = node.content := by
    rw [hbytes, hnode, cutAtOpen]
    split
    · rfl
    · exact hs.bytes
  have hnt : node.type = .regular := by
    rw [hnode, cutAtOpen]
    split <;> exact hs.regular
  have hsize : node.size ≤ node.capacity := by
    rw [hnode, cutAtOpen]
    split
    · exact Nat.zero_le _
    · exact hs.size
  have hcap : node.capacity ≤ int64Max := by
    rw [hnode, cutAtOpen]
    split <;> exact hs.capacity
  set file : OpenFile := ⟨1, flags, if flags.append then cbOff node.size else 0, .node 0⟩ with hfile
  have hperf : s.perform h (.openFile flags)
      = ({ s with node := node, files := s.files.alloc file }, .done s.files.next) := by
    simp [FileSession.perform, ramfsOpen, hs.regular, ← hnode, hfile]
  have hoff : 0 ≤ file.offset ∧ file.offset ≤ int64Max ∧
      file.offset.toNat = if flags.append then bytes.length else 0 := by
    rw [hcontent, Node.length_content]
    simp only [hfile]
    split
    · rw [cbOff_of_le (hsize.trans hcap)]
      omega
    · exact ⟨le_rfl, by omega, rfl⟩
  have hcall : a.call (.openFile flags)
      = (⟨bytes, a.cursors.alloc (cursorOf file)⟩, (a.cursors.next : ℤ), []) := by
    have hcur : cursorOf file = ⟨flags, if flags.append then bytes.length else 0⟩ := by
      rw [cursorOf, hoff.2.2]
    rw [hcur]
    rfl
  rw [hperf, hcall]
  refine ⟨Int.natCast_nonneg _, by simp [Reply.done, hs.next], hnt, hsize, hcap, hcontent, ?_, ?_, ?_⟩
  · simpa using hs.next
  · intro g
    show (a.cursors.alloc (cursorOf file)).get g = ((s.files.alloc file).get g).map cursorOf
    rw [Heap.get_alloc, Heap.get_alloc, hs.next, hs.cursors g]
    split <;> rfl
  · intro g file' hg
    have hg' : (s.files.alloc file).get g = some file' := hg
    rw [Heap.get_alloc] at hg'
    split at hg'
    · cases hg'
      exact ⟨hoff.1, hoff.2.1⟩
    · exact hs.offsets g file' hg'

theorem read_call (hs : s.Agrees a) (h : Host) {f : FileId} {file : OpenFile} {count : ℕ}
    (hf : s.files.get f = some file) (hcount : count ≤ int64Max)
    (hacc : file.flags.access ≠ .wronly) :
    0 ≤ (s.perform h (.read f count)).2.value ∧
      ((s.perform h (.read f count)).2.value, (s.perform h (.read f count)).2.data)
        = (a.call (.read f count)).2 ∧
      (s.perform h (.read f count)).1.Agrees (a.call (.read f count)).1 := by
  obtain ⟨h0, hmax⟩ := hs.offsets f file hf
  have hlim : ¬ (file.offset < 0 ∨ (sizeMax : ℤ) < file.offset) := by
    have : (int64Max : ℤ) < sizeMax := by decide
    omega
  have hreg : s.node.type ≠ .executable := by
    rw [hs.regular]
    decide
  have hcur : a.cursors.get f = some (cursorOf file) := by rw [hs.cursors, hf]; rfl
  set off := file.offset.toNat with hoff
  have hout : (a.bytes.drop off).take count = Block.read s.node.data off (min count (s.node.size - off)) := by
    rw [hs.bytes, Node.content]
    refine List.ext_getElem? fun i => ?_
    rw [List.getElem?_take, List.getElem?_drop, Block.getElem?_read, Block.getElem?_read, Nat.zero_add]
    by_cases hi : i < count
    · by_cases hj : off + i < s.node.size
      · rw [if_pos hi, if_pos hj, if_pos (by omega)]
      · rw [if_pos hi, if_neg hj, if_neg (by omega)]
    · rw [if_neg hi, if_neg (by omega)]
  have hcall : a.call (.read f count) = ({ a with cursors := a.cursors.modify f fun c =>
      { c with offset := c.offset + min count (s.node.size - off) } },
      ((min count (s.node.size - off) : ℕ) : ℤ), Block.read s.node.data off (min count (s.node.size - off))) := by
    simp only [ByteFile.call, hcur, cursorOf, ← hoff, hout, Block.length_read]
  rw [hcall]
  by_cases hend : s.node.size ≤ off
  · -- at or behind the end nothing is read and nothing changes
    have hzero : min count (s.node.size - off) = 0 := by omega
    have hperf : s.perform h (.read f count)
        = ({ s with files := s.files.modify f fun _ => file }, ⟨0, [], none⟩) := by
      simp only [FileSession.perform, hf, if_neg (Nat.not_lt.mpr hcount), nodeRead, if_neg hacc,
        if_neg hlim, if_neg hreg, ← hoff, if_pos hend]
    rw [hperf, hzero]
    exact ⟨le_rfl, rfl, hs.setFile hf rfl ⟨h0, hmax⟩⟩
  · set n := min count (s.node.size - off) with hn
    have hperf : s.perform h (.read f count)
        = ({ s with node := { s.node with atime := h.wallClock },
                    files := s.files.modify f fun _ => { file with offset := file.offset + n } },
          ⟨n, Block.read s.node.data off n, some 0⟩) := by
      simp only [FileSession.perform, hf, if_neg (Nat.not_lt.mpr hcount), nodeRead, if_neg hacc,
        if_neg hlim, if_neg hreg, ← hoff, if_neg hend, ← hn]
    rw [hperf]
    refine ⟨Int.natCast_nonneg _, rfl, ?_⟩
    have hsize := hs.size
    have hcap := hs.capacity
    have hstep : Agrees { s with files := s.files.modify f fun _ =>
        { file with offset := file.offset + n } }
        { a with cursors := a.cursors.modify f fun c => { c with offset := c.offset + n } } := by
      refine hs.setFile hf ?_ ?_
      · simp only [cursorOf, Cursor.mk.injEq, true_and]
        omega
      · show 0 ≤ file.offset + n ∧ file.offset + n ≤ int64Max
        omega
    exact hstep.setNode hs.regular hs.size hs.capacity hs.bytes

theorem write_call (hs : s.Agrees a) (h : Host) {f : FileId} {file : OpenFile} {buffer : Bytes}
    (hf : s.files.get f = some file) (hok : appendKeepsOffset s (h, .write f buffer)) :
    ((s.perform h (.write f buffer)).2.value < 0 ∧ (s.perform h (.write f buffer)).1.Agrees a) ∨
      (0 ≤ (s.perform h (.write f buffer)).2.value ∧
      ((s.perform h (.write f buffer)).2.value, (s.perform h (.write f buffer)).2.data)
        = (a.call (.write f buffer)).2 ∧
      (s.perform h (.write f buffer)).1.Agrees (a.call (.write f buffer)).1) := by
  obtain ⟨h0, hmax⟩ := hs.offsets f file hf
  have hsize := hs.size
  have hcap := hs.capacity
  have hsame := hs.same hf
  have hcur : a.cursors.get f = some (cursorOf file) := by rw [hs.cursors, hf]; rfl
  have hreg : s.node.type ≠ .executable := by
    rw [hs.regular]
    decide
  have hlim : sizeMax = 2 * int64Max + 1 := by decide
  by_cases hlong : int64Max < buffer.length
  · left
    have hperf : s.perform h (.write f buffer) = (s, .fail .einval) := by
      simp only [FileSession.perform, hf, if_pos hlong]
    rw [hperf]
    exact ⟨neg_one_lt_zero, hs⟩
  have hperf : s.perform h (.write f buffer)
      = ({ s with
            node := (nodeWrite h file s.node buffer).2.1
            files := s.files.modify f fun _ => (nodeWrite h file s.node buffer).1 },
          (nodeWrite h file s.node buffer).2.2) := by
    simp only [FileSession.perform, hf, if_neg hlong]
  rw [hperf]
  by_cases hacc : file.flags.access = .rdonly
  · left
    rw [show nodeWrite h file s.node buffer = (file, s.node, .fail .ebadf) by
      rw [nodeWrite, if_pos hacc]]
    exact ⟨neg_one_lt_zero, hsame⟩
  by_cases hnil : buffer = []
  · right
    subst hnil
    rw [show nodeWrite h file s.node [] = (file, s.node, .done 0) by
      rw [nodeWrite, if_neg hacc, if_neg hreg, if_pos List.length_nil]]
    rw [show a.call (.write f []) = (a, 0, []) by simp only [ByteFile.call, hcur, if_true]]
    exact ⟨le_rfl, rfl, hsame⟩
  -- from here on the write starts at `start`, the end for an append write
  set start := (if file.flags.append then s.node.size else file.offset.toNat) with hstart
  have hoff : (aimed file s.node).offset = start := by
    cases happ : file.flags.append with
    | true => simp only [aimed, hstart, happ, if_true, cbOff_of_le (hsize.trans hcap)]
    | false =>
      simp only [aimed, hstart, happ, Bool.false_eq_true, if_false]
      omega
  have hflags : (aimed file s.node).flags = file.flags := by
    rw [aimed]
    split <;> rfl
  have hstartMax : start ≤ int64Max := by
    rw [hstart]
    split
    · omega
    · omega
  have hwrite := nodeWrite_eq h hacc hreg hnil hoff (by omega)
  by_cases hrefuse : s.node.capacity < start + buffer.length ∧
      h.grants (grownCapacity s.node.capacity (start + buffer.length)) = false
  · left
    rw [if_pos hrefuse] at hwrite
    rw [hwrite]
    refine ⟨neg_one_lt_zero, ?_⟩
    -- the refused write must not have moved the offset
    have hkeep : aimed file s.node = file := by
      rw [aimed]
      split
      · rename_i happ
        by_cases hend : file.offset = s.node.size
        · rw [cbOff_of_le (hsize.trans hcap), ← hend]
        · exfalso
          have hst : start = s.node.size := by rw [hstart, if_pos happ]
          have hg := hok file hf happ hacc hnil (by omega) hend (by omega)
          rw [← hst, hrefuse.2] at hg
          cases hg
      · rfl
    rw [hkeep]
    exact hsame
  · right
    rw [if_neg hrefuse] at hwrite
    have hcall : a.call (.write f buffer) = (⟨overlay a.bytes start buffer,
        a.cursors.modify f fun c => { c with offset := start + buffer.length }⟩,
        (buffer.length : ℤ), []) := by
      simp only [ByteFile.call, hcur, if_neg hnil, cursorOf]
      rw [hs.bytes, Node.length_content, ← hstart]
    obtain ⟨hroom, hcap', hsize'⟩ := prepared_room h start hsize hcap
      (show start + buffer.length ≤ sizeMax by omega) hrefuse
    rw [hwrite, hcall]
    refine ⟨Int.natCast_nonneg _, rfl, ?_⟩
    have hstep : Agrees { s with files := s.files.modify f fun _ =>
          { aimed file s.node with offset := (start : ℤ) + buffer.length } }
        { a with cursors := a.cursors.modify f fun c => { c with offset := start + buffer.length } } := by
      refine hs.setFile hf ?_ ?_
      · simp only [cursorOf, hflags, Cursor.mk.injEq, true_and]
        omega
      · show (0 : ℤ) ≤ start + buffer.length ∧ (start : ℤ) + buffer.length ≤ int64Max
        omega
    refine hstep.setNode ?_ (max_le hroom hsize') hcap' ?_
    · show (prepared h s.node start (start + buffer.length)).type = .regular
      rw [prepared_type]
      exact hs.regular
    · rw [hs.bytes, ← content_write h (start + buffer.length) hsize buffer]
      rfl

theorem lseek_call (hs : s.Agrees a) (h : Host) {f : FileId} {file : OpenFile} {offset : ℤ}
    {whence : Whence} (hf : s.files.get f = some file) :
    ((s.perform h (.lseek f offset whence)).2.value < 0 ∧
        (s.perform h (.lseek f offset whence)).1.Agrees a) ∨
      (0 ≤ (s.perform h (.lseek f offset whence)).2.value ∧
      ((s.perform h (.lseek f offset whence)).2.value, (s.perform h (.lseek f offset whence)).2.data)
        = (a.call (.lseek f offset whence)).2 ∧
      (s.perform h (.lseek f offset whence)).1.Agrees (a.call (.lseek f offset whence)).1) := by
  obtain ⟨h0, hmax⟩ := hs.offsets f file hf
  have hcur : a.cursors.get f = some (cursorOf file) := by rw [hs.cursors, hf]; rfl
  have hperf : s.perform h (.lseek f offset whence)
      = ({ s with files := s.files.modify f fun _ => (nodeLseek file s.node offset whence).1 },
          (nodeLseek file s.node offset whence).2) := by
    simp only [FileSession.perform, hf]
  rw [hperf]
  by_cases hother : whence = .other
  · left
    subst hother
    exact ⟨neg_one_lt_zero, hs.same hf⟩
  have hbase : ∃ base, base = seekBase a (cursorOf file) whence ∧ 0 ≤ base ∧ base ≤ int64Max ∧
      nodeLseek file s.node offset whence =
        if (0 < offset ∧ (int64Max : ℤ) - offset < base) ∨
            (offset < 0 ∧ base < -(int64Max : ℤ) - 1 - offset) then (file, .fail .einval)
        else if base + offset < 0 then (file, .fail .einval)
        else ({ file with offset := base + offset }, .done (base + offset)) := by
    have hsize := hs.size.trans hs.capacity
    cases whence with
    | set => exact ⟨0, rfl, le_rfl, Int.natCast_nonneg _, rfl⟩
    | cur =>
      refine ⟨file.offset, ?_, h0, hmax, rfl⟩
      simp only [seekBase, cursorOf]
      omega
    | fromEnd =>
      refine ⟨s.node.size, ?_, Int.natCast_nonneg _, by exact_mod_cast hsize, ?_⟩
      · rw [seekBase, hs.bytes, Node.length_content]
      · simp only [nodeLseek, cbOff_of_le hsize]
    | other => exact absurd rfl hother
  obtain ⟨base, hbase, hb0, hbmax, hseek⟩ := hbase
  rw [hseek]
  by_cases hrange : (0 < offset ∧ (int64Max : ℤ) - offset < base) ∨
      (offset < 0 ∧ base < -(int64Max : ℤ) - 1 - offset)
  · left
    rw [if_pos hrange]
    exact ⟨neg_one_lt_zero, hs.same hf⟩
  by_cases hneg : base + offset < 0
  · left
    rw [if_neg hrange, if_pos hneg]
    exact ⟨neg_one_lt_zero, hs.same hf⟩
  right
  rw [if_neg hrange, if_neg hneg]
  have hcall : a.call (.lseek f offset whence) = ({ a with cursors := a.cursors.modify f fun c =>
      { c with offset := (base + offset).toNat } }, base + offset, []) := by
    simp only [ByteFile.call, hcur, ← hbase]
  rw [hcall]
  refine ⟨by simpa [Reply.done] using hneg, rfl, hs.setFile hf rfl ?_⟩
  show 0 ≤ base + offset ∧ base + offset ≤ int64Max
  omega

theorem truncate_call (hs : s.Agrees a) (h : Host) (length : ℤ) :
    ((cbVfsTruncateNode h s.node length).2 = .ok () ∧
        Agrees { s with node := (cbVfsTruncateNode h s.node length).1 }
          { a with bytes := resizeTo a.bytes length.toNat }) ∨
      ∃ e, cbVfsTruncateNode h s.node length = (s.node, .error e) := by
  rcases truncate_cases h s.node length with hok | he
  · left
    obtain ⟨hc, ht, hsize, hcap⟩ := truncate_ok h hs.size hs.capacity hok
    refine ⟨hok, hs.setNode (ht.trans hs.regular) hsize hcap ?_⟩
    rw [hc, hs.bytes]
  · exact .inr he

end FileSession.Agrees

/-- **One call.**  It fails and leaves the abstract file alone, or it returns what the abstract
file returns. -/
theorem FileSession.Agrees.step {s : FileSession} {a : ByteFile} (hs : s.Agrees a) (h : Host)
    (c : FileCall) (hok : appendKeepsOffset s (h, c)) :
    ((s.perform h c).2.value < 0 ∧ (s.perform h c).1.Agrees a) ∨
      (0 ≤ (s.perform h c).2.value ∧
        ((s.perform h c).2.value, (s.perform h c).2.data) = (a.call c).2 ∧
        (s.perform h c).1.Agrees (a.call c).1) := by
  cases c with
  | openFile flags => exact .inr (hs.open_call h flags)
  | read f count =>
    cases hf : s.files.get f with
    | none =>
      left
      rw [show s.perform h (.read f count) = (s, .fail .ebadf) by simp only [FileSession.perform, hf]]
      exact ⟨neg_one_lt_zero, hs⟩
    | some file =>
      by_cases hlong : int64Max < count
      · left
        rw [show s.perform h (.read f count) = (s, .fail .einval) by
          simp only [FileSession.perform, hf, if_pos hlong]]
        exact ⟨neg_one_lt_zero, hs⟩
      by_cases hacc : file.flags.access = .wronly
      · left
        rw [show s.perform h (.read f count)
            = ({ s with files := s.files.modify f fun _ => file }, .fail .ebadf) by
          simp only [FileSession.perform, hf, if_neg hlong, nodeRead, if_pos hacc]]
        exact ⟨neg_one_lt_zero, hs.same hf⟩
      · exact .inr (hs.read_call h hf (Nat.le_of_not_lt hlong) hacc)
  | write f buffer =>
    cases hf : s.files.get f with
    | none =>
      left
      rw [show s.perform h (.write f buffer) = (s, .fail .ebadf) by simp only [FileSession.perform, hf]]
      exact ⟨neg_one_lt_zero, hs⟩
    | some file => exact hs.write_call h hf hok
  | lseek f offset whence =>
    cases hf : s.files.get f with
    | none =>
      left
      rw [show s.perform h (.lseek f offset whence) = (s, .fail .ebadf) by
        simp only [FileSession.perform, hf]]
      exact ⟨neg_one_lt_zero, hs⟩
    | some file => exact hs.lseek_call h hf
  | truncate length =>
    rcases hs.truncate_call h length with ⟨hok, ha⟩ | ⟨e, he⟩
    · right
      have heq : cbVfsTruncateNode h s.node length = ((cbVfsTruncateNode h s.node length).1, .ok ()) :=
        Prod.ext rfl hok
      rw [show s.perform h (.truncate length)
          = ({ s with node := (cbVfsTruncateNode h s.node length).1 }, .done 0) by
        simp only [FileSession.perform]
        rw [heq]]
      exact ⟨le_rfl, rfl, ha⟩
    · left
      rw [show s.perform h (.truncate length) = (s, .fail e) by simp only [FileSession.perform, he]]
      exact ⟨neg_one_lt_zero, hs⟩
  | ftruncate f length =>
    cases hf : s.files.get f with
    | none =>
      left
      rw [show s.perform h (.ftruncate f length) = (s, .fail .ebadf) by
        simp only [FileSession.perform, hf]]
      exact ⟨neg_one_lt_zero, hs⟩
    | some file =>
      by_cases hlen : length < 0 ∨ (sizeMax : ℤ) < length
      · left
        rw [show s.perform h (.ftruncate f length) = (s, .fail .einval) by
          simp only [FileSession.perform, hf, if_pos hlen]]
        exact ⟨neg_one_lt_zero, hs⟩
      by_cases hacc : file.flags.access = .rdonly
      · left
        rw [show s.perform h (.ftruncate f length) = (s, .fail .ebadf) by
          simp only [FileSession.perform, hf, if_neg hlen, nodeTruncate, if_pos hacc]]
        exact ⟨neg_one_lt_zero, hs⟩
      rcases hs.truncate_call h length with ⟨hok, ha⟩ | ⟨e, he⟩
      · right
        have heq : cbVfsTruncateNode h s.node length = ((cbVfsTruncateNode h s.node length).1, .ok ()) :=
          Prod.ext rfl hok
        rw [show s.perform h (.ftruncate f length)
            = ({ s with node := (cbVfsTruncateNode h s.node length).1 }, .done 0) by
          simp only [FileSession.perform, hf, if_neg hlen, nodeTruncate, if_neg hacc]
          rw [heq]]
        exact ⟨le_rfl, rfl, ha⟩
      · left
        rw [show s.perform h (.ftruncate f length)
            = (s, .fail (if e = .enosys then .ebadf else e)) by
          simp only [FileSession.perform, hf, if_neg hlen, nodeTruncate, if_neg hacc, he]]
        exact ⟨neg_one_lt_zero, hs⟩
  | close f =>
    cases hf : s.files.get f with
    | none =>
      left
      rw [show s.perform h (.close f) = (s, .fail .ebadf) by simp only [FileSession.perform, hf]]
      exact ⟨neg_one_lt_zero, hs⟩
    | some file =>
      right
      rw [show s.perform h (.close f) = ({ s with files := s.files.free f }, .done 0) by
        simp only [FileSession.perform, hf]]
      refine ⟨le_rfl, rfl, hs.regular, hs.size, hs.capacity, hs.bytes, ?_, ?_, ?_⟩
      · simpa [ByteFile.call] using hs.next
      · intro g
        simp only [ByteFile.call, Heap.get_free, hs.cursors g]
        split <;> rfl
      · intro g file' hg
        simp only [Heap.get_free] at hg
        split at hg
        · cases hg
        · exact hs.offsets g file' hg

/-! ### Whole runs -/

theorem ByteFile.replay_append (a : ByteFile) (l l' : List (FileCall × Reply)) :
    a.replay (l ++ l') = (a.replay l).bind fun b => b.replay l' := by
  induction l generalizing a with
  | nil => rfl
  | cons x l ih =>
    obtain ⟨c, r⟩ := x
    simp only [List.cons_append, ByteFile.replay]
    split
    · exact ih a
    split
    · exact ih _
    · rfl

theorem FileSession.agrees_start : FileSession.start.Agrees ByteFile.start where
  regular := rfl
  size := le_rfl
  capacity := Nat.zero_le _
  bytes := rfl
  next := rfl
  cursors := fun _ => by simp [ByteFile.start, FileSession.start]
  offsets := fun _ _ hf => by simp [FileSession.start] at hf

/-- **Regular files refine byte arrays.**  In every run in which no refused append write moves its
offset, the successful calls returned what the abstract file returns, and the file still is that
abstract file: no byte cut off by a truncation and no byte of uninitialised storage is in it. -/
theorem session_refines_bytes {s : FileSession}
    (hr : Reach FileSession.step appendKeepsOffset .start s) :
    ∃ a, ByteFile.start.replay s.replies = some a ∧ a.bytes = s.node.content ∧
      ∀ f, a.cursors.get f = (s.files.get f).map cursorOf := by
  have hinv : ∃ a, ByteFile.start.replay s.replies = some a ∧ s.Agrees a := by
    refine hr.invariant (P := fun s => ∃ a, ByteFile.start.replay s.replies = some a ∧ s.Agrees a)
      ⟨_, rfl, FileSession.agrees_start⟩ ?_
    rintro s ⟨h, c⟩ s' hok hstep ⟨a, hreplay, hs⟩
    simp only [FileSession.step, Option.some.injEq] at hstep
    subst hstep
    rcases hs.step h c hok with ⟨hneg, ha⟩ | ⟨hpos, hval, ha⟩
    · refine ⟨a, ?_, ha.regular, ha.size, ha.capacity, ha.bytes, ha.next, ha.cursors, ha.offsets⟩
      simp only [ByteFile.replay_append, hreplay, Option.bind_some, ByteFile.replay, if_pos hneg]
    · refine ⟨(a.call c).1, ?_, ha.regular, ha.size, ha.capacity, ha.bytes, ha.next, ha.cursors,
        ha.offsets⟩
      simp only [ByteFile.replay_append, hreplay, Option.bind_some, ByteFile.replay,
        if_neg (Int.not_lt.mpr hpos), if_pos hval]
  obtain ⟨a, hreplay, hs⟩ := hinv
  exact ⟨a, hreplay, hs.bytes, hs.cursors⟩

/-- A host that refuses to resize. -/
def Host.stingy : Host := { Host.calm with resize := false }

def appendFlags : OpenFlags := ⟨.rdwr, true, false, false⟩

/-- A refused append write with its offset at the end. -/
def appendRun : List (Host × FileCall) :=
  [(.calm, .openFile appendFlags), (.calm, .write 0 [97]), (.stingy, .write 0 (List.replicate 64 98)),
   (.calm, .lseek 0 0 .set)]

theorem session_refines_bytes_appendRun :
    ∃ s, run FileSession.step .start appendRun = some s ∧
      ∃ a, ByteFile.start.replay s.replies = some a ∧ a.bytes = s.node.content ∧
        ∀ f, a.cursors.get f = (s.files.get f).map cursorOf := by
  obtain ⟨s, hs⟩ : ∃ s, run FileSession.step .start appendRun = some s := ⟨_, rfl⟩
  refine ⟨s, hs, session_refines_bytes (reach_of_okAlong hs ?_)⟩
  refine ⟨trivial, ?_⟩
  rintro _ ⟨⟩
  refine ⟨?_, ?_⟩
  · intro file _ _ _ _ _ _ _
    decide +kernel
  rintro _ ⟨⟩
  refine ⟨?_, ?_⟩
  · intro file hf _ _ _ _ hend _
    cases hf
    exact absurd rfl hend
  rintro _ ⟨⟩
  exact ⟨trivial, fun _ _ => trivial⟩

/-- The same file, but the refused write comes when the offset is not at the end. -/
def refusedAppendRun : List (Host × FileCall) :=
  [(.calm, .openFile appendFlags), (.calm, .write 0 [97]), (.calm, .lseek 0 0 .set),
   (.stingy, .write 0 (List.replicate 64 98)), (.calm, .read 0 1)]

/-- The read behind the refused write finds the end of the file instead of its first byte. -/
theorem refused_append_moves_offset :
    ∃ s, run FileSession.step .start refusedAppendRun = some s ∧
      ByteFile.start.replay s.replies = none := by
  refine ⟨_, rfl, ?_⟩
  decide +kernel

end CannedBsd
