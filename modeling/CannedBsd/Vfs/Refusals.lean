import CannedBsd.Vfs.FileSession

/-!
# Refused changes of a file

`node_write`, `node_truncate` and `ramfs_truncate` check, grow and then change a file. A truncation
that returns an error has changed nothing. An append write stores its offset before the checks, so a
refused one leaves the object it went through at the end of the file.

* `nodeWrite_cases`: a write fails exactly at one of its checks, with only its offset moved.
* `change_keptOnError_iff`: a refused change leaves the file as it was, unless it is an append write that was
  stopped with its offset moved.
* `refused_append_strands_offset`: such a write leaves its object at the end of the file.
-/

namespace CannedBsd

open CannedBsd.Lib

/-- A regular file and the objects open on it. -/
structure SharedFile where
  node : Node
  files : Heap OpenFile

/-- A call of one of the functions that change the contents of a file. -/
inductive Change
  | nodeWrite (f : FileId) (buffer : Bytes)
  | nodeTruncate (f : FileId) (length : ℤ)
  | ramfsTruncate (length : ℤ)

namespace SharedFile

/-- The file after a call, and whether the call returned an error. -/
def change (h : Host) (s : SharedFile) : Change → Option (SharedFile × Bool)
  | .nodeWrite f buffer =>
    (s.files.get f).map fun file =>
      let (file, node, r) := nodeWrite h file s.node buffer
      (⟨node, s.files.modify f fun _ => file⟩, decide (r.value < 0))
  | .nodeTruncate f length =>
    (s.files.get f).map fun file =>
      let (node, r) := nodeTruncate h file s.node length
      (⟨node, s.files⟩, decide (r.value < 0))
  | .ramfsTruncate length =>
    match ramfsTruncate h s.node length with
    | (node, .ok ()) => some (⟨node, s.files⟩, false)
    | (node, .error _) => some (⟨node, s.files⟩, true)

/-- The size, the bytes and the offsets of all objects are the same. -/
structure Same (s s' : SharedFile) : Prop where
  size : s'.node.size = s.node.size
  content : s'.node.content = s.node.content
  offsets : ∀ g, (s'.files.get g).map OpenFile.offset = (s.files.get g).map OpenFile.offset

/-- When the call returns an error, the file is as it was. -/
def KeptOnError (h : Host) (s : SharedFile) (c : Change) : Prop :=
  ∀ s', s.change h c = some (s', true) → Same s s'

/-- A write that is refused after its offset was stored, with the offset somewhere else before. -/
def StrandsOffset (h : Host) (s : SharedFile) : Change → Prop
  | .nodeWrite f buffer =>
    ∃ file, s.files.get f = some file ∧ file.flags.append = true ∧ file.flags.access ≠ .rdonly ∧
      buffer ≠ [] ∧ file.offset ≠ cbOff s.node.size ∧
      (cbOff s.node.size < 0 ∨ sizeMax - (cbOff s.node.size).toNat < buffer.length ∨
        s.node.capacity < (cbOff s.node.size).toNat + buffer.length ∧
          h.grants (grownCapacity s.node.capacity ((cbOff s.node.size).toNat + buffer.length)) = false)
  | .nodeTruncate _ _ => False
  | .ramfsTruncate _ => False

theorem Same.refl (s : SharedFile) : Same s s := ⟨rfl, rfl, fun _ => rfl⟩

end SharedFile

/-! ### Truncation -/

theorem ramfsTruncate_of_error {h : Host} {node node' : Node} {length : ℤ} {e : Errno}
    (herr : ramfsTruncate h node length = (node', .error e)) : node' = node := by
  unfold ramfsTruncate at herr
  split at herr
  · exact (Prod.mk.inj herr).1.symm
  split at herr
  · exact (Prod.mk.inj herr).1.symm
  split at herr
  · exact (Prod.mk.inj herr).1.symm
  dsimp only at herr
  split at herr
  · exact (Prod.mk.inj herr).1.symm
  · cases (Prod.mk.inj herr).2

theorem cbVfsTruncateNode_of_error {h : Host} {node node' : Node} {length : ℤ} {e : Errno}
    (herr : cbVfsTruncateNode h node length = (node', .error e)) : node' = node := by
  unfold cbVfsTruncateNode at herr
  split at herr
  · exact (Prod.mk.inj herr).1.symm
  split at herr
  · exact (Prod.mk.inj herr).1.symm
  split at herr
  · exact (Prod.mk.inj herr).1.symm
  split at herr
  · exact (Prod.mk.inj herr).1.symm
  · exact ramfsTruncate_of_error herr

theorem nodeTruncate_of_error {h : Host} {file : OpenFile} {node node' : Node} {length : ℤ} {r : Reply}
    (hcall : nodeTruncate h file node length = (node', r)) (herr : r.value < 0) : node' = node := by
  unfold nodeTruncate at hcall
  split at hcall
  · exact (Prod.mk.inj hcall).1.symm
  split at hcall
  · rw [← (Prod.mk.inj hcall).2] at herr
    exact absurd herr (by decide)
  · rename_i node₁ e hv
    rw [← (Prod.mk.inj hcall).1]
    exact cbVfsTruncateNode_of_error hv

/-! ### Writing -/

/-- The checks `node_write` makes behind its store of the offset. -/
def refusesWrite (h : Host) (file : OpenFile) (node : Node) (buffer : Bytes) : Prop :=
  file.offset < 0 ∨ (sizeMax : ℤ) < file.offset ∨ sizeMax - file.offset.toNat < buffer.length ∨
    node.capacity < file.offset.toNat + buffer.length ∧
      h.grants (grownCapacity node.capacity (file.offset.toNat + buffer.length)) = false

/-- A write with bytes to a regular file fails exactly at one of these checks, with only its offset
moved. -/
theorem nodeWrite_cases (h : Host) {file : OpenFile} {node : Node} {buffer : Bytes}
    (hreg : node.type = .regular) (hacc : file.flags.access ≠ .rdonly) (hbuf : buffer ≠ []) :
    (refusesWrite h (aimed file node) node buffer ∧
      ∃ e, nodeWrite h file node buffer = (aimed file node, node, .fail e)) ∨
    (¬ refusesWrite h (aimed file node) node buffer ∧ 0 ≤ (nodeWrite h file node buffer).2.2.value) := by
  have hlen : buffer.length ≠ 0 := by
    intro h0
    exact hbuf (List.length_eq_zero_iff.mp h0)
  have hexe : node.type ≠ .executable := by
    rw [hreg]
    decide
  unfold nodeWrite refusesWrite
  rw [if_neg hacc, if_neg hexe, if_neg hlen]
  dsimp only
  by_cases hrange : (aimed file node).offset < 0 ∨ (sizeMax : ℤ) < (aimed file node).offset ∨
      sizeMax - (aimed file node).offset.toNat < buffer.length
  · rw [if_pos hrange]
    left
    refine ⟨?_, _, rfl⟩
    tauto
  rw [if_neg hrange]
  by_cases hroom : node.capacity < (aimed file node).offset.toNat + buffer.length ∧
      h.grants (grownCapacity node.capacity ((aimed file node).offset.toNat + buffer.length)) = false
  · rw [if_pos hroom]
    exact .inl ⟨.inr (.inr (.inr hroom)), _, rfl⟩
  · rw [if_neg hroom]
    right
    refine ⟨?_, ?_⟩
    · tauto
    · show (0 : ℤ) ≤ buffer.length
      omega

/-- The early exits of `node_write` touch nothing. -/
theorem nodeWrite_early (h : Host) {file : OpenFile} {node : Node} {buffer : Bytes}
    (hearly : file.flags.access = .rdonly ∨ buffer = []) :
    (nodeWrite h file node buffer).1 = file ∧ (nodeWrite h file node buffer).2.1 = node := by
  unfold nodeWrite
  split
  · exact ⟨rfl, rfl⟩
  rename_i hacc
  split
  · exact ⟨rfl, rfl⟩
  obtain hro | rfl := hearly
  · exact absurd hro hacc
  · exact ⟨rfl, rfl⟩

theorem aimed_of_append {file : OpenFile} {node : Node} (h : file.flags.append = true) :
    (aimed file node).offset = cbOff node.size := by
  rw [aimed, if_pos h]

theorem aimed_of_not_append {file : OpenFile} {node : Node} (h : file.flags.append = false) :
    aimed file node = file := by
  rw [aimed, if_neg (by rw [h]; decide)]

theorem cbOff_le_sizeMax (n : ℕ) : cbOff n ≤ (sizeMax : ℤ) := by
  have h : Int.bmod (n : ℤ) (2 ^ 64) < (2 ^ 64 + 1) / 2 := Int.bmod_lt (by decide)
  unfold cbOff sizeMax
  omega

/-! ### Exactly when a refused change leaves the file alone -/

open SharedFile

theorem same_modify_iff {s : SharedFile} {f : FileId} {file file' : OpenFile} (hf : s.files.get f = some file) :
    Same s ⟨s.node, s.files.modify f fun _ => file'⟩ ↔ file'.offset = file.offset := by
  refine ⟨fun h => ?_, fun h => ⟨rfl, rfl, fun g => ?_⟩⟩
  · have hoff := h.offsets f
    rw [Heap.get_modify_self, hf] at hoff
    exact Option.some.inj hoff
  · show ((s.files.modify f fun _ => file').get g).map OpenFile.offset = _
    rw [Heap.get_modify]
    split
    · rename_i hg
      rw [hg, hf]
      exact congrArg some h
    · rfl

theorem keptOnError_write (h : Host) {s : SharedFile} (f : FileId) (buffer : Bytes)
    (hreg : s.node.type = .regular) :
    KeptOnError h s (.nodeWrite f buffer) ↔ ¬ StrandsOffset h s (.nodeWrite f buffer) := by
  cases hf : s.files.get f with
  | none => simp [KeptOnError, StrandsOffset, change, hf]
  | some file =>
  have hchange : s.change h (.nodeWrite f buffer) =
      some (⟨(nodeWrite h file s.node buffer).2.1, s.files.modify f fun _ => (nodeWrite h file s.node buffer).1⟩,
        decide ((nodeWrite h file s.node buffer).2.2.value < 0)) := by
    rw [change, hf]
    rfl
  have hstrands : StrandsOffset h s (.nodeWrite f buffer) ↔
      file.flags.append = true ∧ file.flags.access ≠ .rdonly ∧ buffer ≠ [] ∧
        file.offset ≠ cbOff s.node.size ∧ refusesWrite h (aimed file s.node) s.node buffer := by
    have hmax : ¬ (sizeMax : ℤ) < cbOff s.node.size := not_lt.mpr (cbOff_le_sizeMax _)
    refine ⟨?_, ?_⟩
    · rintro ⟨file', hf', happ, hacc, hbuf, hoff, hwhy⟩
      cases hf.symm.trans hf'
      refine ⟨happ, hacc, hbuf, hoff, ?_⟩
      rw [refusesWrite, aimed_of_append happ]
      simpa only [hmax, false_or] using hwhy
    · rintro ⟨happ, hacc, hbuf, hoff, hwhy⟩
      rw [refusesWrite, aimed_of_append happ] at hwhy
      refine ⟨file, hf, happ, hacc, hbuf, hoff, ?_⟩
      simpa only [hmax, false_or] using hwhy
  rw [hstrands]
  by_cases hearly : file.flags.access = .rdonly ∨ buffer = []
  · -- nothing is touched, and the condition asks for access and for bytes
    obtain ⟨hfile, hnode⟩ := @nodeWrite_early h file s.node buffer hearly
    rw [hnode, hfile] at hchange
    refine iff_of_true ?_ (by tauto)
    intro s' hs'
    obtain ⟨rfl, -⟩ := Prod.mk.inj (Option.some.inj (hs'.symm.trans hchange))
    exact (same_modify_iff hf).mpr rfl
  have hacc : file.flags.access ≠ .rdonly := fun hro => hearly (.inl hro)
  have hbuf : buffer ≠ [] := fun hnil => hearly (.inr hnil)
  obtain ⟨hno, e, hfail⟩ | ⟨hyes, hval⟩ := nodeWrite_cases h hreg hacc hbuf
  · rw [hfail] at hchange
    have hkept : KeptOnError h s (.nodeWrite f buffer) ↔ (aimed file s.node).offset = file.offset := by
      rw [← same_modify_iff hf]
      refine ⟨fun hk => hk _ hchange, fun hk s' hs' => ?_⟩
      cases hs'.symm.trans hchange
      exact hk
    rw [hkept]
    cases happ : file.flags.append with
    | false =>
      rw [aimed_of_not_append happ]
      simp
    | true =>
      rw [aimed_of_append happ]
      simp only [hacc, hbuf, hno, ne_eq, not_false_eq_true, true_and, and_true, not_not]
      exact eq_comm
  · refine iff_of_true ?_ fun hno => hyes hno.2.2.2.2
    intro s' hs'
    have hflag := (Prod.mk.inj (Option.some.inj (hs'.symm.trans hchange))).2
    have hneg := of_decide_eq_true hflag.symm
    omega

/-- **A refused change leaves the file as it was**, unless it is an append write that was stopped with
its offset moved. -/
theorem change_keptOnError_iff (h : Host) (s : SharedFile) (hreg : s.node.type = .regular) (c : Change) :
    KeptOnError h s c ↔ ¬ StrandsOffset h s c := by
  cases c with
  | nodeWrite f buffer => exact keptOnError_write h f buffer hreg
  | nodeTruncate f length =>
    refine iff_of_true ?_ id
    intro s' hs'
    rw [change, Option.map_eq_some_iff] at hs'
    obtain ⟨file, -, hs'⟩ := hs'
    cases hcall : nodeTruncate h file s.node length with
    | mk node r =>
      rw [hcall] at hs'
      obtain ⟨rfl, hneg⟩ := Prod.mk.inj hs'
      rw [nodeTruncate_of_error hcall (of_decide_eq_true hneg)]
      exact Same.refl s
  | ramfsTruncate length =>
    refine iff_of_true ?_ id
    intro s' hs'
    rw [change] at hs'
    split at hs'
    · cases hs'
    · rename_i node e hcall
      cases hs'
      rw [ramfsTruncate_of_error hcall]
      exact Same.refl s

/-- A file with the byte `a`, and an append object on it that was moved to the start. -/
def rewoundFile : SharedFile where
  node := { freshNode 0 none [] .regular 0o666 1 0 none with
    data := fun _ => 97
    size := 1
    capacity := 64 }
  files := ⟨[some ⟨1, appendFlags, 0, .node 0⟩]⟩

theorem change_keptOnError_rewound : KeptOnError .stingy rewoundFile (.nodeTruncate 0 65) :=
  (change_keptOnError_iff .stingy rewoundFile rfl (.nodeTruncate 0 65)).mpr id

/-- The write of 64 more bytes is refused, and the object is at the end of the file. -/
theorem refused_append_strands_offset :
    rewoundFile.node.type = .regular ∧
      ¬ KeptOnError .stingy rewoundFile (.nodeWrite 0 (List.replicate 64 98)) := by
  refine ⟨rfl, fun hkept => ?_⟩
  have hoff := (hkept _ rfl).offsets 0
  revert hoff
  decide +kernel

end CannedBsd
