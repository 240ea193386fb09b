import CannedBsd.Kernel.Descriptors
import CannedBsd.Lib.Ownership

/-!
# Making a pipe, block by block

`api_pipe` allocates a pipe buffer and two open files and sets the counts of the buffer in between. On
every failure the buffer is freed by whichever end brings both counts to zero, or by hand when there is
no end yet. Here the call runs on the blocks themselves, with every call of the allocator in a log and
an access to a block that is not live as a fault.

* `apiPipe_settled`: the call answers what the table and the allocator allow, and leaves what that answer
  says.
* `apiPipe_atomic`: a refused allocation is `ENOMEM`, a table without two free slots `EMFILE`, and both give
  everything back; otherwise the two lowest descriptors are the ends of a new pipe.
* `apiPipe_refines`: the call of the kernel model is the one on the blocks.
-/

namespace CannedBsd

open CannedBsd.Lib

namespace PipeBlocks

/-- A block of the kernel that `api_pipe` or a close can reach. -/
inductive KernelBlock
  | pipe (pipe : Pipe)
  | file (file : OpenFile)

/-- The blocks, the allocator's log, and the descriptors and the error cell of the caller. -/
structure Bench where
  blocks : Heap KernelBlock
  log : List (HeapCall ℕ)
  table : Table
  errorCell : ℤ

namespace Bench

variable (s : Bench)

/-- `cb_allocate`, when the host grants it. -/
def cbAllocate (granted : Bool) (block : KernelBlock) : Bench × Option ℕ :=
  if granted then
    ({ s with blocks := s.blocks.alloc block, log := s.log ++ [.took s.blocks.next] }, some s.blocks.next)
  else (s, none)

/-- `cb_release`; releasing what is not live is a fault. -/
def cbRelease (block : ℕ) : Option Bench :=
  match s.blocks.get block with
  | none => none
  | some _ => some { s with blocks := s.blocks.free block, log := s.log ++ [.gave block] }

/-- Store into a pipe buffer. -/
def setPipe (p : ℕ) (f : Pipe → Pipe) : Option Bench :=
  match s.blocks.get p with
  | some (.pipe pipe) => some { s with blocks := s.blocks.modify p fun _ => .pipe (f pipe) }
  | _ => none

/-- The decrement of an `unsigned`. -/
def lowered (count : ℕ) : ℕ := (count + (2 ^ 32 - 1)) % 2 ^ 32

/-- `pipe_read_close` and `pipe_write_close`, which differ in the count they lower; the wake-up of the
waiting tasks reaches no block. -/
def pipeClose (p : ℕ) (lower : Pipe → Pipe) : Option Bench :=
  match s.blocks.get p with
  | some (.pipe pipe) =>
    (s.setPipe p lower).bind fun s =>
      if (lower pipe).readers = 0 ∧ (lower pipe).writers = 0 then s.cbRelease p else some s
  | _ => none

def pipeReadClose (p : ℕ) : Option Bench :=
  s.pipeClose p fun pipe => { pipe with readers := lowered pipe.readers }

def pipeWriteClose (p : ℕ) : Option Bench :=
  s.pipeClose p fun pipe => { pipe with writers := lowered pipe.writers }

/-- `ops->last_close` of the ends of a pipe; `api_pipe` closes nothing else. -/
def lastClose : FileObject → Option Bench
  | .pipeRead p => s.pipeReadClose p
  | .pipeWrite p => s.pipeWriteClose p
  | _ => none

def cbOpenFileRelease (f : ℕ) : Option Bench :=
  match s.blocks.get f with
  | some (.file file) =>
    if file.references - 1 ≠ 0 then
      some { s with blocks := s.blocks.modify f fun _ => .file { file with references := file.references - 1 } }
    else (s.lastClose file.object).bind fun s => s.cbRelease f
  | _ => none

/-- `fd_install` with the minimum `0`. -/
def fdInstall (f : ℕ) : Bench × Option (Fin cbMaxFds) :=
  match s.table.lowest with
  | some d => ({ s with table := Function.update s.table d (some ⟨f, false⟩) }, some d)
  | none => ({ s with errorCell := Errno.emfile.code }, none)

/-- `fd_close` on an occupied slot. -/
def fdClose (d : Fin cbMaxFds) : Option Bench :=
  match s.table d with
  | none => none
  | some entry => { s with table := Function.update s.table d none }.cbOpenFileRelease entry.file

def fail (e : Errno) : Bench := { s with errorCell := e.code }

/-- A zeroed pipe. -/
def zeroPipe : Pipe := ⟨fun _ => 0, 0, 0, 0, 0⟩

/-- The array of the caller after the call; `none` when it was not written. -/
abbrev Written := Option (Fin cbMaxFds × Fin cbMaxFds)

/-- The end of `api_pipe`: the ends get descriptors, the reader first. -/
def installEnds (reader writer : ℕ) : Option (Bench × ℤ × Written) :=
  match s.fdInstall reader with
  | (s, none) =>
    ((s.cbOpenFileRelease reader).bind fun s => s.cbOpenFileRelease writer).map fun s => (s, -1, none)
  | (s, some r) =>
    match s.fdInstall writer with
    | (s, none) => ((s.fdClose r).bind fun s => s.cbOpenFileRelease writer).map fun s => (s, -1, none)
    | (s, some w) => some ({ s with errorCell := 0 }, 0, some (r, w))

/-- `api_pipe` behind its reader. -/
def addWriter (granted : Bool) (p reader : ℕ) : Option (Bench × ℤ × Written) :=
  match s.cbAllocate granted (.file ⟨1, writeFlags, 0, .pipeWrite p⟩) with
  | (s, none) => (s.cbOpenFileRelease reader).map fun s => (s.fail .enomem, -1, none)
  | (s, some writer) =>
    (s.setPipe p fun pipe => { pipe with writers := 1 }).bind fun s => s.installEnds reader writer

/-- `api_pipe`: the blocks, the value and what was stored through `descriptors`. -/
def apiPipe (granted : Site → Bool) : Option (Bench × ℤ × Written) :=
  match s.cbAllocate (granted .pipe) (.pipe zeroPipe) with
  | (s, none) => some (s.fail .enomem, -1, none)
  | (s, some p) =>
    match s.cbAllocate (granted .reader) (.file ⟨1, readFlags, 0, .pipeRead p⟩) with
    | (s, none) => (s.cbRelease p).map fun s => (s.fail .enomem, -1, none)
    | (s, some reader) =>
      (s.setPipe p fun pipe => { pipe with readers := 1 }).bind fun s => s.addWriter (granted .writer) p reader

/-! ### Releasing an end -/

variable {s : Bench}

theorem cbRelease_live {a : ℕ} {b : KernelBlock} (ha : s.blocks.get a = some b) :
    s.cbRelease a = some { s with blocks := s.blocks.free a, log := s.log ++ [.gave a] } := by
  rw [cbRelease, ha]

theorem setPipe_live {p : ℕ} {pipe : Pipe} (f : Pipe → Pipe) (hp : s.blocks.get p = some (.pipe pipe)) :
    s.setPipe p f = some { s with blocks := s.blocks.modify p fun _ => .pipe (f pipe) } := by
  rw [setPipe, hp]

/-- What an end lowers when its last reference is gone. -/
def lowers : FileObject → Pipe → Pipe
  | .pipeRead _, pipe => { pipe with readers := lowered pipe.readers }
  | .pipeWrite _, pipe => { pipe with writers := lowered pipe.writers }
  | _, pipe => pipe

/-- The object is an end of this pipe. -/
def IsEnd (p : ℕ) (object : FileObject) : Prop := object = .pipeRead p ∨ object = .pipeWrite p

theorem lastClose_end {p : ℕ} {object : FileObject} (hend : IsEnd p object) :
    s.lastClose object = s.pipeClose p (lowers object) := by
  rcases hend with rfl | rfl
  · rfl
  · rfl

/-- The end that is released last frees the buffer. -/
theorem cbOpenFileRelease_last {f p : ℕ} {file : OpenFile} {pipe : Pipe}
    (hf : s.blocks.get f = some (.file file)) (hone : file.references = 1) (hend : IsEnd p file.object)
    (hp : s.blocks.get p = some (.pipe pipe))
    (hzero : (lowers file.object pipe).readers = 0 ∧ (lowers file.object pipe).writers = 0) :
    ∃ s', s.cbOpenFileRelease f = some s' ∧ s'.table = s.table ∧ s'.errorCell = s.errorCell ∧
      s'.log = s.log ++ [.gave p, .gave f] ∧
      ∀ a, s'.blocks.get a = if a = p ∨ a = f then none else s.blocks.get a := by
  have hne : f ≠ p := by
    rintro rfl
    rw [hf] at hp
    cases hp
  have hclose : s.pipeClose p (lowers file.object) =
      some { s with
        blocks := (s.blocks.modify p fun _ => .pipe (lowers file.object pipe)).free p
        log := s.log ++ [.gave p] } := by
    rw [pipeClose, hp]
    dsimp only
    rw [setPipe_live _ hp, Option.bind_some, if_pos hzero, cbRelease_live (by rw [Heap.get_modify_self, hp]; rfl)]
  rw [cbOpenFileRelease, hf]
  dsimp only
  rw [if_neg (by omega), lastClose_end hend, hclose, Option.bind_some, cbRelease_live]
  · refine ⟨_, rfl, rfl, rfl, by simp, fun a => ?_⟩
    dsimp only
    rw [Heap.get_free, Heap.get_free, Heap.get_modify]
    by_cases haf : a = f
    · simp [haf]
    · by_cases hap : a = p
      · simp [hap]
      · simp [haf, hap]
  · dsimp only
    rw [Heap.get_free, Heap.get_modify, if_neg hne, if_neg hne, hf]

/-- The other end only lowers its count. -/
theorem cbOpenFileRelease_first {f p : ℕ} {file : OpenFile} {pipe : Pipe}
    (hf : s.blocks.get f = some (.file file)) (hone : file.references = 1) (hend : IsEnd p file.object)
    (hp : s.blocks.get p = some (.pipe pipe))
    (hmore : ¬ ((lowers file.object pipe).readers = 0 ∧ (lowers file.object pipe).writers = 0)) :
    ∃ s', s.cbOpenFileRelease f = some s' ∧ s'.table = s.table ∧ s'.errorCell = s.errorCell ∧
      s'.log = s.log ++ [.gave f] ∧
      ∀ a, s'.blocks.get a =
        if a = f then none else if a = p then some (.pipe (lowers file.object pipe)) else s.blocks.get a := by
  have hne : f ≠ p := by
    rintro rfl
    rw [hf] at hp
    cases hp
  have hclose : s.pipeClose p (lowers file.object) =
      some { s with blocks := s.blocks.modify p fun _ => .pipe (lowers file.object pipe) } := by
    rw [pipeClose, hp]
    dsimp only
    rw [setPipe_live _ hp, Option.bind_some, if_neg hmore]
  rw [cbOpenFileRelease, hf]
  dsimp only
  rw [if_neg (by omega), lastClose_end hend, hclose, Option.bind_some, cbRelease_live]
  · refine ⟨_, rfl, rfl, rfl, rfl, fun a => ?_⟩
    dsimp only
    rw [Heap.get_free, Heap.get_modify]
    by_cases haf : a = f
    · simp [haf]
    · by_cases hap : a = p
      · rw [if_neg haf, if_pos hap, if_neg haf, if_pos hap, hap, hp]
        rfl
      · simp [haf, hap]
  · dsimp only
    rw [Heap.get_modify, if_neg hne, hf]

/-! ### The call -/

/-- Nothing is left of a failed call: the table and the live blocks are as they were, and each block the
call took was given back once. -/
structure Undone (s s' : Bench) : Prop where
  table : s'.table = s.table
  blocks : ∀ a, s'.blocks.get a = s.blocks.get a
  log : ∃ taken given : List ℕ, s'.log = s.log ++ taken.map .took ++ given.map .gave ∧ taken.Nodup ∧
    given.Perm taken ∧ ∀ a ∈ taken, s.blocks.get a = none

/-- The two lowest free slots hold the ends of a new empty pipe. -/
structure Made (s s' : Bench) (r w : Fin cbMaxFds) : Prop where
  readFree : s.table r = none
  readLowest : ∀ d, d < r → s.table d ≠ none
  writeFree : s.table w = none
  order : r < w
  writeLowest : ∀ d, d < w → d ≠ r → s.table d ≠ none
  ends : ∃ p reader writer, s.blocks.get p = none ∧ s.blocks.get reader = none ∧ s.blocks.get writer = none ∧
    s'.table = Function.update (Function.update s.table r (some ⟨reader, false⟩)) w (some ⟨writer, false⟩) ∧
    s'.blocks.get p = some (.pipe { zeroPipe with readers := 1, writers := 1 }) ∧
    s'.blocks.get reader = some (.file ⟨1, readFlags, 0, .pipeRead p⟩) ∧
    s'.blocks.get writer = some (.file ⟨1, writeFlags, 0, .pipeWrite p⟩) ∧
    (∀ a, a ≠ p → a ≠ reader → a ≠ writer → s'.blocks.get a = s.blocks.get a) ∧
    s'.log = s.log ++ [.took p, .took reader, .took writer]

/-- The value and the array for an answer. -/
def reply : Except Errno (Fin cbMaxFds × Fin cbMaxFds) → ℤ × Written
  | .ok ends => (0, some ends)
  | .error _ => (-1, none)

/-- What a call with this answer leaves. -/
def LeavesFor (s s' : Bench) : Except Errno (Fin cbMaxFds × Fin cbMaxFds) → Prop
  | .ok (r, w) => s'.errorCell = 0 ∧ Made s s' r w
  | .error e => s'.errorCell = e.code ∧ Undone s s'

/-- The bench with the buffer and its reader. -/
structure HasReader (s s' : Bench) : Prop where
  table : s'.table = s.table
  log : s'.log = s.log ++ [.took s.blocks.next, .took (s.blocks.next + 1)]
  next : s'.blocks.next = s.blocks.next + 2
  blocks : ∀ a, s'.blocks.get a =
    if a = s.blocks.next then some (.pipe { zeroPipe with readers := 1 })
    else if a = s.blocks.next + 1 then some (.file ⟨1, readFlags, 0, .pipeRead s.blocks.next⟩)
    else s.blocks.get a

/-- The bench with the buffer and both ends, before they get descriptors. -/
structure HasEnds (s s' : Bench) : Prop where
  table : s'.table = s.table
  log : s'.log = s.log ++ [.took s.blocks.next, .took (s.blocks.next + 1), .took (s.blocks.next + 2)]
  pipe : s'.blocks.get s.blocks.next = some (.pipe { zeroPipe with readers := 1, writers := 1 })
  reader : s'.blocks.get (s.blocks.next + 1) = some (.file ⟨1, readFlags, 0, .pipeRead s.blocks.next⟩)
  writer : s'.blocks.get (s.blocks.next + 2) = some (.file ⟨1, writeFlags, 0, .pipeWrite s.blocks.next⟩)
  others : ∀ a, a ≠ s.blocks.next → a ≠ s.blocks.next + 1 → a ≠ s.blocks.next + 2 →
    s'.blocks.get a = s.blocks.get a

theorem get_next_add (h : Heap KernelBlock) (i : ℕ) : h.get (h.next + i) = none :=
  Heap.get_of_next_le (Nat.le_add_right _ _)

theorem lowered_one : lowered 1 = 0 := rfl

/-- Without descriptors, both ends are released, and the second one frees the buffer. -/
theorem releaseEnds_undone {s s' : Bench} (h : HasEnds s s') :
    ∃ s'', (s'.cbOpenFileRelease (s.blocks.next + 1)).bind (fun s₁ => s₁.cbOpenFileRelease (s.blocks.next + 2)) =
      some s'' ∧ Undone s s'' ∧ s''.errorCell = s'.errorCell := by
  obtain ⟨s₁, heq₁, htable₁, herr₁, hlog₁, hget₁⟩ :=
    cbOpenFileRelease_first h.reader rfl (.inl rfl) h.pipe fun hzero => absurd hzero.2 one_ne_zero
  have hwriter : s₁.blocks.get (s.blocks.next + 2) = some (.file ⟨1, writeFlags, 0, .pipeWrite s.blocks.next⟩) := by
    rw [hget₁, if_neg (by omega), if_neg (by omega), h.writer]
  have hpipe : s₁.blocks.get s.blocks.next = some (.pipe { zeroPipe with readers := 0, writers := 1 }) := by
    rw [hget₁, if_neg (by omega), if_pos rfl]
    rfl
  obtain ⟨s₂, heq₂, htable₂, herr₂, hlog₂, hget₂⟩ :=
    cbOpenFileRelease_last hwriter rfl (.inr rfl) hpipe ⟨rfl, lowered_one⟩
  refine ⟨s₂, by rw [heq₁, Option.bind_some, heq₂], ⟨?_, fun a => ?_, ?_⟩, herr₂.trans herr₁⟩
  · rw [htable₂, htable₁, h.table]
  · rw [hget₂]
    split
    · rename_i hcase
      rcases hcase with rfl | rfl
      · exact (Heap.get_next _).symm
      · exact (get_next_add _ 2).symm
    · rename_i hcase
      rw [hget₁]
      split
      · rename_i har
        rw [har]
        exact (get_next_add _ 1).symm
      · rename_i har
        rw [if_neg fun hap => hcase (.inl hap), h.others a (fun hap => hcase (.inl hap)) har fun haw => hcase (.inr haw)]
  · refine ⟨[s.blocks.next, s.blocks.next + 1, s.blocks.next + 2],
      [s.blocks.next + 1, s.blocks.next, s.blocks.next + 2], ?_, by simp, .swap _ _ _, fun a ha => ?_⟩
    · rw [hlog₂, hlog₁, h.log]
      simp
    · rcases List.mem_cons.mp ha with rfl | ha
      · exact Heap.get_next _
      · rcases List.mem_pair.mp ha with rfl | rfl
        · exact get_next_add _ 1
        · exact get_next_add _ 2

/-- The ends get the two lowest free descriptors, or all three blocks are given back. -/
theorem installEnds_atomic {s s' : Bench} (h : HasEnds s s') :
    ∃ s'', s'.installEnds (s.blocks.next + 1) (s.blocks.next + 2) =
      some (s'', reply (s.table.pipeAnswer fun _ => true)) ∧ LeavesFor s s'' (s.table.pipeAnswer fun _ => true) := by
  rw [installEnds, fdInstall, Table.pipeAnswer, if_neg (by decide), ← h.table]
  cases hr : s'.table.lowest with
  | none =>
    obtain ⟨s'', heq, hundone, herr⟩ := @releaseEnds_undone s { s' with errorCell := Errno.emfile.code }
      ⟨h.table, h.log, h.pipe, h.reader, h.writer, h.others⟩
    refine ⟨s'', ?_, herr, hundone⟩
    dsimp only
    rw [heq]
    rfl
  | some r =>
    obtain ⟨hfree, hlow⟩ := Table.lowest_eq_some.mp hr
    dsimp only
    rw [fdInstall]
    dsimp only
    have hlowest : Table.lowest (Function.update s'.table r (some ⟨0, false⟩)) =
        Table.lowest (Function.update s'.table r (some ⟨s.blocks.next + 1, false⟩)) := by
      refine Table.lowest_congr fun d => ?_
      rw [Function.update_apply, Function.update_apply]
      split
      · rfl
      · rfl
    rw [hlowest]
    cases hw : Table.lowest (Function.update s'.table r (some ⟨s.blocks.next + 1, false⟩)) with
    | none =>
      -- the slot of the reader is emptied again, so that the table is the old one
      have hback : Function.update (Function.update s'.table r (some ⟨s.blocks.next + 1, false⟩)) r none = s'.table := by
        rw [Function.update_idem, ← hfree, Function.update_eq_self]
      obtain ⟨s'', heq, hundone, herr⟩ := @releaseEnds_undone s { s' with errorCell := Errno.emfile.code }
        ⟨h.table, h.log, h.pipe, h.reader, h.writer, h.others⟩
      refine ⟨s'', ?_, herr, hundone⟩
      dsimp only
      rw [fdClose]
      dsimp only
      rw [Function.update_self, hback]
      dsimp only
      rw [heq]
      rfl
    | some w =>
      obtain ⟨hfree', hlow'⟩ := Table.lowest_eq_some.mp hw
      rw [h.table] at hfree hlow hfree' hlow'
      have hne : w ≠ r := by
        rintro rfl
        rw [Function.update_self] at hfree'
        cases hfree'
      rw [Function.update_of_ne hne] at hfree'
      have horder : r < w := by
        rcases lt_trichotomy r w with hlt | heq | hgt
        · exact hlt
        · exact absurd heq.symm hne
        · exact absurd hfree' (hlow w hgt)
      refine ⟨_, rfl, rfl, hfree, hlow, hfree', horder, fun d hd hdr => ?_, ?_⟩
      · have hocc := hlow' d hd
        rwa [Function.update_of_ne hdr] at hocc
      · refine ⟨s.blocks.next, s.blocks.next + 1, s.blocks.next + 2, Heap.get_next _, get_next_add _ 1,
          get_next_add _ 2, ?_, h.pipe, h.reader, h.writer, h.others, h.log⟩
        rw [h.table]

theorem addWriter_atomic {s s' : Bench} (h : HasReader s s') (granted : Bool) :
    ∃ s'', s'.addWriter granted s.blocks.next (s.blocks.next + 1) =
        some (s'', reply (s.table.pipeAnswer fun site => site ≠ .writer || granted)) ∧
      LeavesFor s s'' (s.table.pipeAnswer fun site => site ≠ .writer || granted) := by
  have hpipe : s'.blocks.get s.blocks.next = some (.pipe { zeroPipe with readers := 1 }) := by
    rw [h.blocks, if_pos rfl]
  have hreader : s'.blocks.get (s.blocks.next + 1) = some (.file ⟨1, readFlags, 0, .pipeRead s.blocks.next⟩) := by
    rw [h.blocks, if_neg (by omega), if_pos rfl]
  rw [addWriter, cbAllocate]
  cases granted with
  | false =>
    -- the reader is the only end, so its release frees the buffer
    obtain ⟨s'', heq, htable, -, hlog, hget⟩ :=
      cbOpenFileRelease_last hreader rfl (.inl rfl) hpipe ⟨lowered_one, rfl⟩
    refine ⟨s''.fail .enomem, ?_, rfl, htable.trans h.table, fun a => ?_, ?_⟩
    · rw [if_neg Bool.false_ne_true]
      dsimp only
      rw [heq]
      rfl
    · refine (hget a).trans ?_
      rw [h.blocks]
      split
      · rename_i hcase
        rcases hcase with rfl | rfl
        · exact (Heap.get_next _).symm
        · exact (get_next_add _ 1).symm
      · rename_i hcase
        rw [if_neg fun heq => hcase (.inl heq), if_neg fun heq => hcase (.inr heq)]
    · refine ⟨[s.blocks.next, s.blocks.next + 1], [s.blocks.next, s.blocks.next + 1], ?_, by simp, .refl _, ?_⟩
      · show s''.log = _
        rw [hlog, h.log]
        rfl
      · intro a ha
        rcases List.mem_pair.mp ha with rfl | rfl
        · exact Heap.get_next _
        · exact get_next_add _ 1
  | true =>
    rw [if_pos rfl, h.next]
    dsimp only
    rw [setPipe_live _ (Heap.get_alloc_of_get hpipe), Option.bind_some]
    set s₃ : Bench :=
      { s' with
        blocks := (s'.blocks.alloc (.file ⟨1, writeFlags, 0, .pipeWrite s.blocks.next⟩)).modify s.blocks.next
          fun _ => .pipe { zeroPipe with readers := 1, writers := 1 }
        log := s'.log ++ [.took (s.blocks.next + 2)] } with hs₃
    have hends : HasEnds s s₃ := by
      refine ⟨h.table, ?_, ?_, ?_, ?_, fun a hap har haw => ?_⟩
      · show s'.log ++ [.took (s.blocks.next + 2)] = _
        rw [h.log, List.append_assoc]
        rfl
      · show ((s'.blocks.alloc _).modify s.blocks.next _).get s.blocks.next = _
        rw [Heap.get_modify_self, Heap.get_alloc_of_get hpipe]
        rfl
      · show ((s'.blocks.alloc _).modify s.blocks.next _).get (s.blocks.next + 1) = _
        rw [Heap.get_modify_of_ne _ _ (by omega), Heap.get_alloc_of_get hreader]
      · show ((s'.blocks.alloc _).modify s.blocks.next _).get (s.blocks.next + 2) = _
        rw [Heap.get_modify_of_ne _ _ (by omega), ← h.next, Heap.get_alloc_self]
      · show ((s'.blocks.alloc _).modify s.blocks.next _).get a = _
        rw [Heap.get_modify_of_ne _ _ hap, Heap.get_alloc_of_ne _ _ (by rw [h.next]; exact haw), h.blocks, if_neg hap,
          if_neg har]
    exact installEnds_atomic hends

/-- The call answers what the table and the allocator allow, and it leaves what that answer says. -/
theorem apiPipe_settled (s : Bench) (granted : Site → Bool) :
    ∃ s', s.apiPipe granted = some (s', reply (s.table.pipeAnswer granted)) ∧
      LeavesFor s s' (s.table.pipeAnswer granted) := by
  rw [apiPipe, cbAllocate, Table.pipeAnswer]
  cases granted .pipe with
  | false => exact ⟨_, rfl, rfl, rfl, fun _ => rfl, [], [], by simp [fail]⟩
  | true =>
  rw [if_pos rfl]
  dsimp only
  rw [cbAllocate]
  cases granted .reader with
  | false =>
    rw [if_neg Bool.false_ne_true]
    dsimp only
    rw [cbRelease_live (Heap.get_alloc_self _ _)]
    refine ⟨_, rfl, rfl, rfl, fun a => ?_, [s.blocks.next], [s.blocks.next], rfl, by simp, .refl _, fun a ha => ?_⟩
    · show ((s.blocks.alloc _).free s.blocks.next).get a = s.blocks.get a
      rw [Heap.get_free]
      split
      · rename_i heq
        rw [heq, Heap.get_next]
      · rename_i hne
        rw [Heap.get_alloc_of_ne _ _ hne]
    · rw [List.mem_singleton.mp ha, Heap.get_next]
  | true =>
  rw [if_pos rfl]
  dsimp only
  have hpipe : ((s.blocks.alloc (.pipe zeroPipe)).alloc (.file ⟨1, readFlags, 0, .pipeRead s.blocks.next⟩)).get
      s.blocks.next = some (.pipe zeroPipe) := Heap.get_alloc_of_get (Heap.get_alloc_self _ _)
  rw [setPipe_live _ hpipe, Option.bind_some, Heap.next_alloc]
  set s₂ : Bench :=
    { s with
      blocks := ((s.blocks.alloc (.pipe zeroPipe)).alloc (.file ⟨1, readFlags, 0, .pipeRead s.blocks.next⟩)).modify
        s.blocks.next fun _ => .pipe { zeroPipe with readers := 1 }
      log := s.log ++ [.took s.blocks.next] ++ [.took (s.blocks.next + 1)] } with hs₂
  have hreader : HasReader s s₂ := by
    refine ⟨rfl, List.append_assoc _ _ _, ?_, fun a => ?_⟩
    · rw [hs₂, Heap.next_modify, Heap.next_alloc, Heap.next_alloc]
    · rw [hs₂, Heap.get_modify, Heap.get_alloc, Heap.get_alloc, Heap.next_alloc]
      by_cases ha : a = s.blocks.next
      · simp [ha]
      · simp [ha]
  exact addWriter_atomic hreader (granted .writer)

/-- **`pipe` is atomic.**  It never touches a dead block. When one of its allocations is refused it fails with
`ENOMEM`, when two descriptors are not free with `EMFILE`, and in both cases everything is undone; otherwise it
makes a pipe on the two lowest free descriptors. -/
theorem apiPipe_atomic (s : Bench) (granted : Site → Bool) :
    ∃ s' value written, s.apiPipe granted = some (s', value, written) ∧
      ((¬ Table.PipeGranted granted ∧ value = -1 ∧ written = none ∧ s'.errorCell = Errno.enomem.code ∧ Undone s s') ∨
        (Table.PipeGranted granted ∧ ¬ s.table.TwoFree ∧ value = -1 ∧ written = none ∧
          s'.errorCell = Errno.emfile.code ∧ Undone s s') ∨
        (Table.PipeGranted granted ∧ s.table.TwoFree ∧ value = 0 ∧ s'.errorCell = 0 ∧
          ∃ r w, written = some (r, w) ∧ Made s s' r w)) := by
  obtain ⟨s', heq, hsettled⟩ := apiPipe_settled s granted
  refine ⟨s', _, _, heq, ?_⟩
  rcases s.table.pipeAnswer_cases granted with ⟨hanswer, hrefused⟩ | ⟨hanswer, hgranted, hfull⟩ |
    ⟨r, w, hanswer, hgranted, hfree⟩
  · rw [hanswer] at hsettled ⊢
    exact .inl ⟨hrefused, rfl, rfl, hsettled.1, hsettled.2⟩
  · rw [hanswer] at hsettled ⊢
    exact .inr (.inl ⟨hgranted, hfull, rfl, rfl, hsettled.1, hsettled.2⟩)
  · rw [hanswer] at hsettled ⊢
    exact .inr (.inr ⟨hgranted, hfree, rfl, hsettled.1, r, w, rfl, hsettled.2⟩)

/-- No blocks, and a table in which these slots are occupied. -/
def bare (occupied : ℕ → Bool) : Bench := ⟨.empty, [], fun d => if occupied d then some ⟨0, false⟩ else none, 0⟩

/-- With three descriptors open the new ones are 3 and 4. With one slot left the call fails with `EMFILE`, and when
the block for the writer is refused with `ENOMEM`. -/
theorem apiPipe_atomic_bare :
    (∃ s' r w, (bare (· < 3)).apiPipe (fun _ => true) = some (s', 0, some (r, w)) ∧ r.val = 3 ∧ w.val = 4 ∧
      Made (bare (· < 3)) s' r w) ∧
    (∃ s', (bare (· ≠ 5)).apiPipe (fun _ => true) = some (s', -1, none) ∧ s'.errorCell = Errno.emfile.code ∧
      Undone (bare (· ≠ 5)) s') ∧
    ∃ s', (bare (· ≠ 5)).apiPipe (· ≠ .writer) = some (s', -1, none) ∧ s'.errorCell = Errno.enomem.code ∧
      Undone (bare (· ≠ 5)) s' := by
  have hempty : ∀ {occupied : ℕ → Bool} {d : Fin cbMaxFds}, (bare occupied).table d = none ↔ occupied d = false := by
    intro occupied d
    show (if occupied d then _ else _) = none ↔ _
    cases occupied d <;> simp
  have hall : Table.PipeGranted fun _ => true := ⟨rfl, rfl, rfl⟩
  have hone : ¬ (bare (· ≠ 5)).table.TwoFree := by
    rintro ⟨r, w, hne, hr, hw⟩
    simp only [hempty, ne_eq, decide_not, Bool.not_eq_false', decide_eq_true_eq] at hr hw
    exact hne (Fin.ext (hr.trans hw.symm))
  refine ⟨?_, ?_, ?_⟩
  · have htwo : (bare (· < 3)).table.TwoFree :=
      ⟨⟨3, by decide⟩, ⟨4, by decide⟩, by decide, hempty.mpr rfl, hempty.mpr rfl⟩
    obtain ⟨s', value, written, heq, ⟨hno, -⟩ | ⟨-, hno, -⟩ | ⟨-, -, rfl, -, r, w, rfl, hmade⟩⟩ :=
      apiPipe_atomic (bare (· < 3)) fun _ => true
    · exact absurd hall hno
    · exact absurd htwo hno
    have hr := hempty.mp hmade.readFree
    have hr' : ¬ 3 < r.val := fun hlt => hmade.readLowest ⟨3, by decide⟩ hlt (hempty.mpr rfl)
    have hr₃ : r.val = 3 := by
      simp only [decide_eq_false_iff_not] at hr
      omega
    have horder : r.val < w.val := hmade.order
    have hw' : ¬ 4 < w.val := by
      intro hlt
      refine hmade.writeLowest ⟨4, by decide⟩ hlt ?_ (hempty.mpr rfl)
      intro hfour
      rw [← hfour] at hr₃
      cases hr₃
    exact ⟨s', r, w, heq, hr₃, by omega, hmade⟩
  · obtain ⟨s', value, written, heq, ⟨hno, -⟩ | ⟨-, -, rfl, rfl, herror, hundone⟩ | ⟨-, hno, -⟩⟩ :=
      apiPipe_atomic (bare (· ≠ 5)) fun _ => true
    · exact absurd hall hno
    · exact ⟨s', heq, herror, hundone⟩
    · exact absurd hno hone
  · obtain ⟨s', value, written, heq, ⟨-, rfl, rfl, herror, hundone⟩ | ⟨hno, -⟩ | ⟨hno, -⟩⟩ :=
      apiPipe_atomic (bare (· ≠ 5)) (· ≠ .writer)
    · exact ⟨s', heq, herror, hundone⟩
    · exact absurd hno.2.2 (by decide)
    · exact absurd hno.2.2 (by decide)

/-! ### The blocks and the kernel -/

/-- The bench and the task have the same free slots. -/
def SameFree (s : Bench) (k : Kernel) (t : TaskId) : Prop := ∀ d, (s.table d).isNone = (k.slot t d).isNone

/-- What the caller of the kernel sees of a reply. -/
def outcome (s : Bench) : ℤ × Written → Outcome
  | (_, some (r, w)) => .done (.done 0) (.descriptors r.val w.val)
  | (value, none) => .done ⟨value, [], some s.errorCell⟩ .none

theorem pipeAnswer_congr {T T' : Table} (h : ∀ d, (T' d).isNone = (T d).isNone) (granted : Site → Bool) :
    T'.pipeAnswer granted = T.pipeAnswer granted := by
  rw [Table.pipeAnswer, Table.pipeAnswer, Table.lowest_congr h]
  have hnext : ∀ r : Fin cbMaxFds, Table.lowest (Function.update T' r (some ⟨0, false⟩)) =
      Table.lowest (Function.update T r (some ⟨0, false⟩)) := by
    intro r
    refine Table.lowest_congr fun d => ?_
    rw [Function.update_apply, Function.update_apply]
    split
    · rfl
    · exact h d
  simp only [hnext]

/-- The call of the kernel is the call on the blocks: it answers the same and leaves the same slots free. -/
theorem apiPipe_refines {k : Kernel} {t : TaskId} (h : Host) (hu : Unparked k t) {s : Bench} (hs : SameFree s k t) :
    ∃ s' reply, s.apiPipe h.allocate = some (s', reply) ∧ (CannedBsd.apiPipe h k t).2 = outcome s' reply ∧
      SameFree s' (CannedBsd.apiPipe h k t).1 t := by
  obtain ⟨s', heq, hsettled⟩ := apiPipe_settled s h.allocate
  refine ⟨s', _, heq, ?_⟩
  have htable := apiPipe_table h hu
  rw [pipeAnswer_congr hs] at hsettled ⊢
  cases hanswer : Table.pipeAnswer (k.slot t) h.allocate with
  | error e =>
    rw [hanswer] at htable hsettled
    obtain ⟨hout, hslots⟩ := htable
    obtain ⟨herr, hundone⟩ := hsettled
    refine ⟨?_, fun d => ?_⟩
    · rw [hout, reply, outcome, herr]
      rfl
    · rw [hslots, hundone.table]
      exact hs d
  | ok ends =>
    obtain ⟨r, w⟩ := ends
    rw [hanswer] at htable hsettled
    obtain ⟨hout, hslots⟩ := htable
    obtain ⟨-, hmade⟩ := hsettled
    obtain ⟨p, reader, writer, -, -, -, htab, -⟩ := hmade.ends
    refine ⟨hout, fun d => ?_⟩
    rw [hslots, htab, Function.update_apply, Function.update_apply, Function.update_apply, Function.update_apply]
    split
    · rfl
    split
    · rfl
    · exact hs d

end Bench

end PipeBlocks

end CannedBsd
