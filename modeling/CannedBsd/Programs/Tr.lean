import CannedBsd.Kernel.Recording
import CannedBsd.Shell.Pipeline

/-!
# The program `tr`

`write_all`, `report_error`, `expand_set` and `tr_main` of `src/programs.c`, as a program that makes calls
through `struct cb_api_v1`. A read or write outside a local array is `Prog.wild`, and so is a use of bytes
of `buffer` that were never stored. `strerror` is a parameter. The main loop has no bound; with `n` rounds of
it the program that has more to do ends without a result.

Whatever the kernel does between the calls, what `tr` has written is a prefix of the translation of what it
has read.

* `substitutes_trMap`: what the translation does to a single byte.
* `trLoop_keeps`: the main loop starts every round with everything written.
* `tr_translates`: in every run what `tr` has written is a translation of what it has read, and its status
  says how it ended.
-/

namespace CannedBsd

open CannedBsd.Lib

namespace Programs

/-! ### The source -/

/-- The loop of `write_all`. Every round that goes on has written at least one byte. -/
def writeAll (descriptor : ℤ) : ℕ → Bytes → Script ℤ
  | 0, _ => .ret 0
  | n + 1, data =>
    if data = [] then .ret 0
    else do
      let a ← Prog.ask (.op (.write descriptor data))
      if a.value ≤ 0 then .ret (-1)
      else if data.length < a.value.toNat then .wild
      else writeAll descriptor n (data.drop a.value.toNat)

/-- The size of `message` in `report_error`. -/
def messageSize : ℕ := 512

/-- `report_error`. `snprintf` returns the length of the whole text and stores what fits. -/
def reportError (strerror : ℤ → Bytes) (command subject : Bytes) : Script Unit := do
  let error ← Shell.errorText strerror
  let text := command ++ Shell.ascii ": " ++ subject ++ Shell.ascii ": " ++ error ++ Shell.ascii "\n"
  if messageSize < text.length then .wild
  else do
    let message := if text.length < messageSize then text else text.take (messageSize - 1) ++ [0]
    let _ ← writeAll 2 message.length message
    .ret ()

/-- The bytes `first`, `first + 1`, and so on, appended one by one. -/
def appendRange : ℕ → ℕ → Bytes → Option Bytes
  | 0, _, values => some values
  | n + 1, value, values =>
    if values.length = 256 then none else appendRange n (value + 1) (values ++ [value.toUInt8])

/-- The loop of `expand_set`. A set is a string without its terminator. -/
def expandSet : Bytes → Bytes → Option Bytes
  | [], values => some values
  | first :: dash :: last :: rest, values =>
    if dash = 45 then
      if last < first then none
      else (appendRange (last.toNat + 1 - first.toNat) first.toNat values).bind (expandSet rest)
    else if values.length = 256 then none
    else expandSet (dash :: last :: rest) (values ++ [first])
  | first :: rest, values => if values.length = 256 then none else expandSet rest (values ++ [first])

/-- The arguments `tr` accepts, expanded. -/
def trSets : List Bytes → Option (Bytes × Bytes)
  | [_, string1, string2] =>
    match expandSet string1 [], expandSet string2 [] with
    | some source, some target => if target = [] then none else some (source, target)
    | _, _ => none
  | _ => none

/-- The array `map` after the first `n` bytes of `from`. -/
def trMapUpTo (source target : Bytes) (n : ℕ) : UInt8 → UInt8 :=
  (List.range n).foldl (fun map index => Function.update map (source.getD index 0)
    (target.getD (if index < target.length then index else target.length - 1) 0)) id

def trMap (source target : Bytes) : UInt8 → UInt8 := trMapUpTo source target source.length

/-- The size of `buffer` in `tr_main`. -/
def bufferSize : ℕ := 1024

/-- The main loop of `tr_main`, for `n` rounds. -/
def trLoop (strerror : ℤ → Bytes) (map : UInt8 → UInt8) : ℕ → Script (Option ℤ)
  | 0 => .ret none
  | n + 1 => do
    let a ← Prog.ask (.op (.read 0 bufferSize))
    if a.value < 0 then
      reportError strerror (Shell.ascii "tr") (Shell.ascii "standard input")
      .ret (some 1)
    else if a.value = 0 then .ret (some 0)
    else if bufferSize < a.value.toNat ∨ a.reply.data.length < a.value.toNat then .wild
    else
      let w ← writeAll 1 a.value.toNat ((a.reply.data.take a.value.toNat).map map)
      if w < 0 then
        reportError strerror (Shell.ascii "tr") (Shell.ascii "standard output")
        .ret (some 1)
      else trLoop strerror map n

def trMain (strerror : ℤ → Bytes) (argv : List Bytes) (n : ℕ) : Script (Option ℤ) :=
  match trSets argv with
  | none => do
    let usage := Shell.ascii "usage: tr string1 string2\n"
    let _ ← writeAll 2 usage.length usage
    .ret (some 2)
  | some (source, target) => trLoop strerror (trMap source target) n

/-! ### The translation -/

theorem trMapUpTo_succ (source target : Bytes) (n : ℕ) :
    trMapUpTo source target (n + 1) = Function.update (trMapUpTo source target n) (source.getD n 0)
      (target.getD (if n < target.length then n else target.length - 1) 0) := by
  simp [trMapUpTo, List.range_succ]

/-- What `tr` does to a single byte. -/
structure Substitutes (source target : Bytes) (f : UInt8 → UInt8) : Prop where
  /-- A byte that does not occur in the first set is left alone. -/
  others : ∀ b, b ∉ source → f b = b
  /-- A byte of the first set becomes the byte of the second at its last place, or the last byte of a second set that
  is shorter. -/
  places : ∀ i < source.length, (∀ j, i < j → j < source.length → source.getD j 0 ≠ source.getD i 0) →
    f (source.getD i 0) = target.getD (min i (target.length - 1)) 0

theorem trMap_of_notMem {source : Bytes} (target : Bytes) {b : UInt8} (hb : b ∉ source) : trMap source target b = b := by
  have hupto : ∀ n ≤ source.length, trMapUpTo source target n b = b := by
    intro n hn
    induction n with
    | zero => rfl
    | succ n ih =>
      have hne : b ≠ source.getD n 0 := by
        intro heq
        apply hb
        rw [heq, List.getD_eq_getElem?_getD, List.getElem?_eq_getElem hn, Option.getD_some]
        exact List.getElem_mem hn
      rw [trMapUpTo_succ, Function.update_of_ne hne]
      exact ih (Nat.le_of_succ_le hn)
  exact hupto source.length (le_refl _)

theorem trMap_of_last {source target : Bytes} {i : ℕ} (hi : i < source.length)
    (hlast : ∀ j, i < j → j < source.length → source.getD j 0 ≠ source.getD i 0) :
    trMap source target (source.getD i 0) = target.getD (min i (target.length - 1)) 0 := by
  have hupto : ∀ n, i < n → n ≤ source.length →
      trMapUpTo source target n (source.getD i 0) = target.getD (min i (target.length - 1)) 0 := by
    intro n hin hn
    induction n with
    | zero => exact absurd hin (Nat.not_lt_zero i)
    | succ n ih =>
      rw [trMapUpTo_succ]
      rcases Nat.lt_succ_iff_lt_or_eq.mp hin with hlt | heq
      · rw [Function.update_of_ne (hlast n hlt hn).symm]
        exact ih hlt (Nat.le_of_succ_le hn)
      · rw [heq, Function.update_self]
        congr 1
        split <;> omega
  exact hupto source.length hi (le_refl _)

theorem substitutes_trMap (source target : Bytes) : Substitutes source target (trMap source target) :=
  ⟨fun _ hb => trMap_of_notMem target hb, fun _ hi hlast => trMap_of_last hi hlast⟩

/-! ### What the program does -/

/-- The answers of the kernel. -/
def Fair (c : TableCall) (a : Answer) : Prop := Honest c a.reply

/-- The calls that do not change the table of the task. -/
def plain : TableCall → Bool
  | .op (.read _ _) => true
  | .op (.write _ _) => true
  | .getErrno => true
  | .location _ => true
  | _ => false

/-- What has been written, with what a call passes on, is a translation of what has been read, and at most one
buffer is missing. -/
structure Translates (f : UInt8 → UInt8) (log : CallLog) (passing : Bytes) : Prop where
  written : bytesWritten 1 log ++ passing <+: (bytesRead 0 log).map f
  behind : (bytesRead 0 log).length ≤ (bytesWritten 1 log).length + bufferSize

/-- Everything that was read has been written. -/
def Complete (f : UInt8 → UInt8) (log : CallLog) : Prop := bytesWritten 1 log = (bytesRead 0 log).map f

/-- A read of the standard input or a write to the standard output has failed. -/
def TransferBroken (log : CallLog) : Prop :=
  ∃ e ∈ log, (∃ count, e.1 = .op (.read 0 count) ∧ e.2.value < 0) ∨
    ∃ buffer, e.1 = .op (.write 1 buffer) ∧ e.2.value ≤ 0

/-- What holds before a call of `tr`. -/
def BeforeCall (f : UInt8 → UInt8) (log : CallLog) (c : TableCall) : Prop :=
  plain c = true ∧ Translates f log (passedTo 1 c)

/-- What holds when `tr` returns. -/
structure TrReturned (f : UInt8 → UInt8) (status : Option ℤ) (log : CallLog) : Prop where
  translates : Translates f log []
  complete : status = some 0 → Complete f log ∧ SawEnd 0 log
  failed : ∀ s, status = some s → s = 0 ∨ s = 1 ∧ TransferBroken log

variable {f : UInt8 → UInt8} {log log' : CallLog}

theorem Complete.translates (h : Complete f log) : Translates f log [] := by
  refine ⟨?_, ?_⟩
  · rw [List.append_nil, h]
  · have hlen := congrArg List.length h
    rw [List.length_map] at hlen
    omega

theorem TransferBroken.mono {e : TableCall × Answer} (h : TransferBroken log) : TransferBroken (log ++ [e]) := by
  obtain ⟨e', he', hbad⟩ := h
  exact ⟨e', List.mem_append_left _ he', hbad⟩

/-- Calls that neither read the standard input nor write the standard output. -/
def aside (c : TableCall) : Prop :=
  plain c = true ∧ passedTo 1 c = [] ∧ ∀ a, readBy 0 (c, a) = []

/-- The two streams and their failures are as they were. -/
structure SameStreams (log log' : CallLog) : Prop where
  read : bytesRead 0 log' = bytesRead 0 log
  written : bytesWritten 1 log' = bytesWritten 1 log
  broken : TransferBroken log → TransferBroken log'

theorem SameStreams.refl (log : CallLog) : SameStreams log log := ⟨rfl, rfl, id⟩

theorem SameStreams.snoc {c : TableCall} {a : Answer} (h : SameStreams log log') (hc : aside c) :
    SameStreams log (log' ++ [(c, a)]) := by
  obtain ⟨-, hpassed, hread⟩ := hc
  refine ⟨?_, ?_, fun hb => (h.broken hb).mono⟩
  · rw [bytesRead_snoc, hread, List.append_nil, h.read]
  · rw [bytesWritten_snoc, writtenBy, hpassed, List.take_nil, List.append_nil, h.written]

theorem Translates.same {passing : Bytes} (h : Translates f log passing) (hs : SameStreams log log') :
    Translates f log' passing := by
  obtain ⟨hread, hwritten, -⟩ := hs
  refine ⟨?_, ?_⟩
  · rw [hread, hwritten]
    exact h.written
  · rw [hread, hwritten]
    exact h.behind

theorem Translates.before {c : TableCall} (h : Translates f log []) (hs : SameStreams log log') (hc : aside c) :
    BeforeCall f log' c := by
  refine ⟨hc.1, ?_⟩
  rw [hc.2.1]
  exact h.same hs

section Aside

variable {inv : CallLog → TableCall → Prop} (hinv : ∀ log' c, SameStreams log log' → aside c → inv log' c)
include hinv

theorem keeps_aside {α : Type} {c : TableCall} {next : Answer → Script α} {goal : α → CallLog → Prop} (hc : aside c)
    (hs : SameStreams log log')
    (hnext : ∀ a, Fair c a → SameStreams log (log' ++ [(c, a)]) →
      (next a).keeps (Prog.Told Fair) inv goal (log' ++ [(c, a)])) :
    (Prog.call c next).keeps (Prog.Told Fair) inv goal log' := by
  refine ⟨hinv log' c hs hc, ?_⟩
  intro a log'' htold
  obtain ⟨hfair, rfl⟩ := htold
  exact hnext a hfair (hs.snoc hc)

/-- Messages go to the standard error. -/
theorem writeAll_aside (n : ℕ) : ∀ (data : Bytes) (log' : CallLog), SameStreams log log' →
    (writeAll 2 n data).keeps (Prog.Told Fair) inv (fun _ log'' => SameStreams log log'') log' := by
  induction n with
  | zero => exact fun data log' hs => hs
  | succ n ih =>
    intro data log' hs
    rw [writeAll]
    split
    · exact hs
    refine keeps_aside hinv ⟨rfl, rfl, fun _ => rfl⟩ hs fun a hfair hs' => ?_
    show Prog.keeps _ _ (if a.value ≤ 0 then _ else _) _ _
    split
    · exact hs'
    split
    · rename_i hover
      have hle : a.value ≤ data.length := hfair.2
      omega
    · exact ih _ _ hs'

/-- `report_error` has room for the error texts of the kernel. -/
theorem reportError_aside {strerror : ℤ → Bytes} {command subject : Bytes}
    (hroom : ∀ e, command.length + subject.length + (strerror e).length + 5 ≤ messageSize) :
    (reportError strerror command subject).keeps (Prog.Told Fair) inv (fun _ log' => SameStreams log log') log := by
  refine keeps_aside hinv ⟨rfl, rfl, fun _ => rfl⟩ (.refl log) fun a _ hs => ?_
  refine keeps_aside hinv ⟨rfl, rfl, fun _ => rfl⟩ hs fun _ _ hs' => ?_
  have hlen := hroom a.value
  show Prog.keeps _ _ (if messageSize < _ then _ else _) _ _
  split
  · rename_i hover
    simp only [List.length_append, Shell.ascii, List.length_map] at hover
    have hcolon : ": ".toList.length = 2 := rfl
    have hnewline : "\n".toList.length = 1 := rfl
    omega
  · exact Prog.keeps_seq (writeAll_aside hinv _ _ _ hs') fun _ log' hs'' => hs''

end Aside

/-- A buffer is on its way: what was written before it and the rest of it are the translation of what was read. -/
structure OnItsWay (f : UInt8 → UInt8) (log : CallLog) (data : Bytes) : Prop where
  whole : bytesWritten 1 log ++ data = (bytesRead 0 log).map f
  size : data.length ≤ bufferSize

theorem OnItsWay.translates {data : Bytes} (h : OnItsWay f log data) : Translates f log data := by
  have hlen := congrArg List.length h.whole
  rw [List.length_append, List.length_map] at hlen
  have hsize := h.size
  refine ⟨?_, by omega⟩
  rw [h.whole]

/-- A write that accepted a part of the buffer. -/
theorem OnItsWay.wrote {data : Bytes} {a : Answer} (h : OnItsWay f log data) :
    OnItsWay f (log ++ [(.op (.write 1 data), a)]) (data.drop a.value.toNat) := by
  refine ⟨?_, ?_⟩
  · have hwhole := h.whole
    rw [bytesWritten_snoc, bytesRead_snoc]
    simp only [writtenBy, passedTo, readBy, if_true, List.append_nil, List.append_assoc, List.take_append_drop]
    exact hwhole
  · have hsize := h.size
    rw [List.length_drop]
    omega

/-- `write_all` to the standard output writes the buffer, or it fails somewhere on the way. -/
theorem writeAll_keeps (n : ℕ) : ∀ (data : Bytes) (log : CallLog), OnItsWay f log data → data.length ≤ n →
    (writeAll 1 n data).keeps (Prog.Told Fair) (BeforeCall f)
      (fun w log' => w = 0 ∧ Complete f log' ∨ w = -1 ∧ Translates f log' [] ∧ TransferBroken log') log := by
  have hdone : ∀ {log : CallLog}, OnItsWay f log [] → Complete f log := by
    intro log hway
    have hwhole := hway.whole
    rwa [List.append_nil] at hwhole
  induction n with
  | zero =>
    intro data log hway hlen
    have hnil : data = [] := List.length_eq_zero_iff.mp (Nat.le_zero.mp hlen)
    rw [hnil] at hway
    exact .inl ⟨rfl, hdone hway⟩
  | succ n ih =>
    intro data log hway hlen
    rw [writeAll]
    split
    · rename_i hnil
      rw [hnil] at hway
      exact .inl ⟨rfl, hdone hway⟩
    rename_i hdata
    have hpos : 0 < data.length := List.length_pos_iff.mpr hdata
    refine ⟨⟨rfl, hway.translates⟩, ?_⟩
    intro a log' htold
    obtain ⟨hfair, rfl⟩ := htold
    have hwrote : OnItsWay f (log ++ [(.op (.write 1 data), a)]) (data.drop a.value.toNat) := hway.wrote
    show Prog.keeps _ _ (if a.value ≤ 0 then _ else _) _ _
    split
    · rename_i hfail
      refine .inr ⟨rfl, ?_, ?_⟩
      · -- the rest is not written any more
        obtain ⟨hpart, hbehind⟩ := hwrote.translates
        refine ⟨?_, hbehind⟩
        rw [List.append_nil]
        exact (List.prefix_append _ _).trans hpart
      · exact ⟨_, List.mem_append_right _ (List.mem_singleton.mpr rfl), .inr ⟨data, rfl, hfail⟩⟩
    · rename_i hmoved
      split
      · rename_i hover
        have hle : a.value ≤ data.length := hfair.2
        omega
      · refine ih _ _ hwrote ?_
        have hone : 1 ≤ a.value.toNat := by omega
        rw [List.length_drop]
        omega

/-- The error texts are short. -/
def Brief (strerror : ℤ → Bytes) : Prop := ∀ e, (strerror e).length ≤ 64

/-- `report_error` and the return with status 1. -/
theorem keeps_failed {strerror : ℤ → Bytes} {subject : Bytes} (hbrief : Brief strerror) (hsubject : subject.length ≤ 64)
    (h : Translates f log []) (hb : TransferBroken log) :
    (reportError strerror (Shell.ascii "tr") subject >>= fun _ => (.ret (some 1) : Script (Option ℤ))).keeps
      (Prog.Told Fair) (BeforeCall f) (TrReturned f) log := by
  have hroom : ∀ e, (Shell.ascii "tr").length + subject.length + (strerror e).length + 5 ≤ messageSize := by
    intro e
    have hlen := hbrief e
    have htr : (Shell.ascii "tr").length = 2 := rfl
    have hsize : messageSize = 512 := rfl
    omega
  refine Prog.keeps_seq (reportError_aside (fun log' c hs hc => h.before hs hc) hroom) ?_
  intro _ log' hs
  refine ⟨h.same hs, ?_, ?_⟩
  · intro hzero
    cases hzero
  · intro s hone
    cases hone
    exact .inr ⟨rfl, hs.broken hb⟩

/-- **The main loop.**  It starts every round with everything written. -/
theorem trLoop_keeps {strerror : ℤ → Bytes} (hbrief : Brief strerror) (n : ℕ) : ∀ log, Complete f log →
    (trLoop strerror f n).keeps (Prog.Told Fair) (BeforeCall f) (TrReturned f) log := by
  induction n with
  | zero =>
    intro log hc
    refine ⟨hc.translates, ?_, ?_⟩
    · intro hzero
      cases hzero
    · intro s hs
      cases hs
  | succ n ih =>
    intro log hc
    rw [trLoop]
    refine ⟨⟨rfl, hc.translates⟩, ?_⟩
    intro a log' htold
    obtain ⟨hfair, rfl⟩ := htold
    have hread : bytesRead 0 (log ++ [(.op (.read 0 bufferSize), a)]) = bytesRead 0 log ++ a.reply.data :=
      bytesRead_snoc _ _ _
    have hwritten : bytesWritten 1 (log ++ [(.op (.read 0 bufferSize), a)]) = bytesWritten 1 log := by
      rw [bytesWritten_snoc]
      simp [writtenBy, passedTo]
    have hmem : (.op (.read 0 bufferSize), a) ∈ log ++ [((.op (.read 0 bufferSize), a) : TableCall × Answer)] :=
      List.mem_append_right _ (List.mem_singleton.mpr rfl)
    -- a read without bytes leaves everything written
    have hsame : a.reply.data = [] → Complete f (log ++ [(.op (.read 0 bufferSize), a)]) := by
      intro hnil
      rw [Complete, hread, hwritten, hnil, List.append_nil]
      exact hc
    have hvalue : a.value = a.reply.value := rfl
    have hcases : a.value = a.reply.data.length ∧ a.reply.data.length ≤ bufferSize ∨ a.value = -1 ∧ a.reply.data = [] :=
      hfair
    show Prog.keeps _ _ (if a.value < 0 then _ else _) _ _
    split
    · rename_i hneg
      have hnil : a.reply.data = [] := by
        rcases hcases with ⟨hlen, -⟩ | ⟨-, hnil⟩
        · omega
        · exact hnil
      exact keeps_failed hbrief (by decide) (hsame hnil).translates ⟨_, hmem, .inl ⟨bufferSize, rfl, hneg⟩⟩
    split
    · rename_i hzero
      have hnil : a.reply.data = [] := by
        rcases hcases with ⟨hlen, -⟩ | ⟨-, hnil⟩
        · rw [hzero] at hlen
          exact List.length_eq_zero_iff.mp (by omega)
        · exact hnil
      refine ⟨(hsame hnil).translates, fun _ => ⟨hsame hnil, bufferSize, a, hmem, by decide, hzero⟩, ?_⟩
      intro s hs
      cases hs
      exact .inl rfl
    split
    · rename_i hneg hzero hover
      have hsize : bufferSize = 1024 := rfl
      rcases hcases with ⟨hlen, hle⟩ | ⟨hminus, -⟩
      · omega
      · omega
    · rename_i hneg hzero hbounds
      obtain ⟨hlen, hle⟩ : a.value = a.reply.data.length ∧ a.reply.data.length ≤ bufferSize := by
        rcases hcases with hcases | ⟨hminus, -⟩
        · exact hcases
        · omega
      have htake : a.reply.data.take a.value.toNat = a.reply.data := List.take_of_length_le (by omega)
      rw [htake]
      have hway : OnItsWay f (log ++ [(.op (.read 0 bufferSize), a)]) (a.reply.data.map f) := by
        refine ⟨?_, ?_⟩
        · rw [hread, hwritten, List.map_append, hc]
        · rw [List.length_map]
          exact hle
      have hfits : (a.reply.data.map f).length ≤ a.value.toNat := by
        rw [List.length_map]
        omega
      refine Prog.keeps_seq (writeAll_keeps _ _ _ hway hfits) ?_
      intro w log' hw
      rcases hw with ⟨rfl, hcomplete⟩ | ⟨rfl, htrans, hbroken⟩
      · exact ih log' hcomplete
      · exact keeps_failed hbrief (by decide) htrans hbroken

/-! ### In the kernel -/

/-- The texts of `api_strerror`. -/
def errorTexts : List (ℤ × String) :=
  [(0, "no error"), (1, "operation not permitted"), (2, "no such file or directory"), (8, "exec format error"),
    (4, "interrupted system call"), (5, "input/output error"), (9, "bad file descriptor"), (10, "no child processes"),
    (12, "cannot allocate memory"), (13, "permission denied"), (17, "file exists"), (20, "not a directory"),
    (21, "is a directory"), (22, "invalid argument"), (23, "too many open files in system"),
    (24, "too many open files"), (25, "inappropriate ioctl for device"), (28, "no space left"), (29, "illegal seek"),
    (32, "broken pipe"), (63, "file name too long"), (78, "function not implemented"), (66, "directory not empty"),
    (34, "result too large"), (84, "value too large to be stored in data type"), (18, "cross-device link"),
    (26, "text file busy")]

def apiStrerror (error : ℤ) : Bytes :=
  Shell.ascii (((errorTexts.find? fun entry => entry.1 = error).map Prod.snd).getD "unknown error")

theorem brief_apiStrerror : Brief apiStrerror := by
  have hall : ∀ entry ∈ errorTexts, entry.2.toList.length ≤ 64 := by decide +kernel
  intro e
  rw [apiStrerror, Shell.ascii, List.length_map]
  cases hfind : errorTexts.find? fun entry => entry.1 = e with
  | none => decide
  | some entry => exact hall entry (List.mem_of_find?_eq_some hfind)

/-- The usage message and nothing else. -/
def OnlyUsage (log : CallLog) (c : TableCall) : Prop := SameStreams [] log ∧ aside c

theorem trMain_usage (strerror : ℤ → Bytes) {argv : List Bytes} (hsets : trSets argv = none) (n : ℕ) :
    (trMain strerror argv n).keeps (Prog.Told Fair) OnlyUsage
      (fun status log => status = some 2 ∧ SameStreams [] log) [] := by
  rw [trMain, hsets]
  refine Prog.keeps_seq (writeAll_aside (fun _ _ hs hc => ⟨hs, hc⟩) _ _ _ (.refl [])) ?_
  intro _ log hs
  exact ⟨rfl, hs⟩

theorem trMain_keeps {strerror : ℤ → Bytes} (hbrief : Brief strerror) {argv : List Bytes} {source target : Bytes}
    (hsets : trSets argv = some (source, target)) (n : ℕ) :
    (trMain strerror argv n).keeps (Prog.Told Fair) (BeforeCall (trMap source target))
      (TrReturned (trMap source target)) [] := by
  rw [trMain, hsets]
  exact trLoop_keeps hbrief n [] rfl

/-- How far a task that runs `tr` has come. -/
structure HasTranslated (argv : List Bytes) (t : TaskId) (r : Recording) : Prop where
  /-- It has used no memory outside its arrays. -/
  safe : ∀ n q, Prog.After (trMain apiStrerror argv n) (r.log t) q → q ≠ .wild
  /-- Without two sets it neither reads nor writes, and its status is 2. -/
  usage : trSets argv = none → bytesRead 0 (r.log t) = [] ∧ bytesWritten 1 (r.log t) = [] ∧
    ∀ status, Ended (trMain apiStrerror argv) t r status → status = 2
  /-- With two sets it replaces the bytes of the first by those of the second. -/
  substitutes : ∀ source target, trSets argv = some (source, target) → Substitutes source target (trMap source target)
  /-- With two sets it has written a part of the translation, with at most one buffer missing; it returns 0 only at the
  end of its input and with everything written, and 1 only after a transfer has failed. -/
  translates : ∀ source target, trSets argv = some (source, target) →
    Translates (trMap source target) (r.log t) (r.passing 1 t) ∧
      ∀ status, Ended (trMain apiStrerror argv) t r status → TrReturned (trMap source target) (some status) (r.log t)

section

variable {argv : List Bytes} {t : TaskId} {r : Recording} (hfair : ∀ e ∈ r.log t, Fair e.1 e.2)
include hfair

/-- Where the usage message has come to. -/
theorem keeps_usage (hsets : trSets argv = none) {n : ℕ} {q : Script (Option ℤ)}
    (h : Prog.After (trMain apiStrerror argv n) (r.log t) q) :
    q.keeps (Prog.Told Fair) OnlyUsage (fun status log => status = some 2 ∧ SameStreams [] log) (r.log t) :=
  h.keeps hfair (trMain_usage apiStrerror hsets n)

/-- Where the main loop has come to. -/
theorem keeps_main {source target : Bytes} (hsets : trSets argv = some (source, target)) {n : ℕ}
    {q : Script (Option ℤ)} (h : Prog.After (trMain apiStrerror argv n) (r.log t) q) :
    q.keeps (Prog.Told Fair) (BeforeCall (trMap source target)) (TrReturned (trMap source target)) (r.log t) :=
  h.keeps hfair (trMain_keeps brief_apiStrerror hsets n)

/-- Without two sets nothing is moved. -/
theorem hasTranslated_usage (hsets : trSets argv = none) (hplays : Plays (trMain apiStrerror argv) t r) :
    HasTranslated argv t r := by
  obtain ⟨n, q, hafter, -, -⟩ := hplays
  refine ⟨?_, fun _ => ?_, fun source target _ => substitutes_trMap source target, ?_⟩
  · intro n' q' hq hwild
    have hk := keeps_usage hfair hsets hq
    rw [hwild] at hk
    exact hk
  · have hk := keeps_usage hfair hsets hafter
    have hsame : SameStreams [] (r.log t) := by
      cases q with
      | ret status => exact hk.2
      | call c next => exact hk.1.1
      | wild => exact hk.elim
    refine ⟨hsame.read, hsame.written, ?_⟩
    intro status hended
    obtain ⟨n', hret⟩ := hended
    exact Option.some.inj (keeps_usage hfair hsets hret).1
  · intro source target hsome
    rw [hsets] at hsome
    cases hsome

/-- The write the task is suspended in belongs to the translation. -/
theorem translates_passing {source target : Bytes} (hsets : trSets argv = some (source, target))
    (hplays : Plays (trMain apiStrerror argv) t r) :
    Translates (trMap source target) (r.log t) (r.passing 1 t) := by
  obtain ⟨n, q, hafter, hpend, -⟩ := hplays
  have hk := keeps_main hfair hsets hafter
  rw [Recording.passing]
  cases hcall : r.pending t with
  | some c =>
    obtain ⟨next, rfl⟩ := hpend c hcall
    exact hk.1.2
  | none =>
    cases q with
    | ret status => exact hk.translates
    | call c next =>
      obtain ⟨hpart, hbehind⟩ := hk.1.2
      refine ⟨?_, hbehind⟩
      show _ ++ [] <+: _
      rw [List.append_nil]
      exact (List.prefix_append _ _).trans hpart
    | wild => exact hk.elim

theorem hasTranslated_main {source target : Bytes} (hsets : trSets argv = some (source, target))
    (hplays : Plays (trMain apiStrerror argv) t r) : HasTranslated argv t r := by
  refine ⟨?_, ?_, fun source' target' _ => substitutes_trMap source' target', ?_⟩
  · intro n q hq hwild
    have hk := keeps_main hfair hsets hq
    rw [hwild] at hk
    exact hk
  · intro hnone
    rw [hsets] at hnone
    cases hnone
  · intro source' target' hsome
    rw [hsets] at hsome
    cases hsome
    refine ⟨translates_passing hfair hsets hplays, ?_⟩
    intro status hended
    obtain ⟨n, hret⟩ := hended
    exact keeps_main hfair hsets hret

end

/-- **`tr` is a filter.**  At every point of every run of the kernel, whatever other tasks do and however its reads
and writes are split or suspended, what a task that runs `tr` has written is a translation of what it has read. -/
theorem tr_translates {argv : List Bytes} {k₀ : Kernel} {t : TaskId} {r : Recording} (h₀ : Attained k₀)
    (hr : Recorded k₀ r) (hplays : Plays (trMain apiStrerror argv) t r) : HasTranslated argv t r := by
  obtain ⟨-, hsync⟩ := hr.synced h₀ t
  have hfair : ∀ e ∈ r.log t, Fair e.1 e.2 := hsync.honest
  cases hsets : trSets argv with
  | none => exact hasTranslated_usage hfair hsets hplays
  | some sets =>
    obtain ⟨source, target⟩ := sets
    exact hasTranslated_main hfair hsets hplays

/-- `tr a-z A-Z`. -/
def upperCase : List Bytes := [Shell.ascii "tr", Shell.ascii "a-z", Shell.ascii "A-Z"]

/-- The shell has a pipe with two bytes in it as its standard input, and another pipe as its standard output. -/
def trStart : Kernel :=
  stateAfter (shellStart ++ calls [.pipe, .write 4 [97, 98], .close 4, .dup2 3 0, .pipe, .dup2 5 1])

def trRun : Recording :=
  (Recording.start trStart).play
    [.call (.op (.read 0 1024)), .call (.op (.write 1 [65, 66])), .call (.op (.read 0 1024))]

theorem tr_translates_upperCase :
    Ended (trMain apiStrerror upperCase) 0 trRun 0 ∧ bytesRead 0 (trRun.log 0) = [97, 98] ∧
      bytesWritten 1 (trRun.log 0) = [65, 66] ∧ HasTranslated upperCase 0 trRun := by
  have hrun : Recorded trStart trRun := Recorded.start.play _
  have hend : Prog.After (trMain apiStrerror upperCase 3) (trRun.log 0) (.ret (some 0)) :=
    .of_result (by decide +kernel)
  have hplays : Plays (trMain apiStrerror upperCase) 0 trRun := by
    refine ⟨3, _, hend, ?_, ?_⟩
    · intro c hc
      rw [show trRun.pending 0 = none by decide +kernel] at hc
      cases hc
    · intro c hc
      rw [show trRun.last 0 = none by decide +kernel] at hc
      cases hc
  exact ⟨⟨3, hend⟩, by decide +kernel, by decide +kernel, tr_translates (.of_reachable (reachable_stateAfter _)) hrun hplays⟩

end Programs

end CannedBsd
