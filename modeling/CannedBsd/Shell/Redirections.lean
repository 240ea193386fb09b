import CannedBsd.Lib.Borrowing
import CannedBsd.Kernel.Playback
import CannedBsd.Shell.Grammar

/-!
# Redirected builtins

`run_builtin_redirected` opens the files of the redirections, puts them in the place of the standard
descriptors, runs the builtin and puts everything back. What matters of the table is which open file each
slot names.

* `runBuiltin_quiet`: a builtin leaves the table and the children alone.
* `redirected_builtin_restores_iff`: exactly when every slot names the file it named before.
* `redirected_builtin_loses_input`: with three free slots the shell keeps the redirected input.
-/

namespace CannedBsd

open CannedBsd.Lib

/-! ### Which file a slot names -/

abbrev Files := Fin cbMaxFds → Option FileId

def Table.files (T : Table) : Files := fun d => (T d).map FdEntry.file

/-- The slot of a descriptor, if it has one. -/
def slotsOf (descriptor : ℤ) : Set (Fin cbMaxFds) := {d | fdSlot descriptor = some d}

theorem mem_slotsOf {descriptor : ℤ} {d : Fin cbMaxFds} : d ∈ slotsOf descriptor ↔ fdSlot descriptor = some d := Iff.rfl

theorem fdSlot_val (d : Fin cbMaxFds) : fdSlot (d.val : ℤ) = some d := by
  have hd := d.isLt
  rw [fdSlot, dif_pos (by omega)]
  exact congrArg some (Fin.ext (Int.toNat_natCast d.val))

@[simp]
theorem slotsOf_val (d : Fin cbMaxFds) : slotsOf (d.val : ℤ) = {d} := by
  ext e
  rw [mem_slotsOf, fdSlot_val, Set.mem_singleton_iff, Option.some.injEq, eq_comm]

theorem fdSlot_neg {descriptor : ℤ} (h : descriptor < 0) : fdSlot descriptor = none := dif_neg (by omega)

theorem slotsOf_neg {descriptor : ℤ} (h : descriptor < 0) : slotsOf descriptor = ∅ := by
  ext e
  rw [mem_slotsOf, fdSlot_neg h]
  simp

@[simp]
theorem slotsOf_minus_one : slotsOf (-1) = ∅ := slotsOf_neg (by omega)

namespace Table

theorem files_eq_none {T : Table} {d : Fin cbMaxFds} : T.files d = none ↔ T d = none := Option.map_eq_none_iff

theorem files_update (T : Table) (d : Fin cbMaxFds) (f : FileId) (c : Bool) :
    Table.files (Function.update T d (some ⟨f, c⟩)) = Function.update T.files d (some f) := by
  funext e
  rw [files, Function.update_apply, Function.update_apply]
  split <;> rfl

theorem files_close (T : Table) (descriptor : ℤ) : (T.close descriptor).files = emptied T.files (slotsOf descriptor) := by
  rw [Table.close]
  split
  · rename_i hnone
    have hempty : slotsOf descriptor = ∅ := by
      ext d
      rw [mem_slotsOf, hnone]
      simp
    rw [hempty, emptied_empty]
  · rename_i d hd
    have hone : slotsOf descriptor = {d} := by
      ext e
      rw [mem_slotsOf, hd, Set.mem_singleton_iff, Option.some.injEq, eq_comm]
    rw [hone, ← update_none_eq_emptied]
    funext e
    rw [files, Function.update_apply, Function.update_apply]
    split <;> rfl

/-- The lowest empty slot, by the files. -/
theorem lowest_files {T : Table} {d : Fin cbMaxFds} (h : T.lowest = some d) :
    T.files d = none ∧ ∀ e, e < d → T.files e ≠ none := by
  obtain ⟨hd, hbelow⟩ := Table.lowest_eq_some.mp h
  exact ⟨files_eq_none.mpr hd, fun e he hnone => hbelow e he (files_eq_none.mp hnone)⟩

theorem lowest_none_files {T : Table} (h : T.lowest = none) : ∀ d, T.files d ≠ none :=
  fun d hd => Table.lowest_eq_none.mp h d (files_eq_none.mp hd)

theorem Lacks.files {T : Table} {f : FileId} (h : T.Lacks f) (d : Fin cbMaxFds) : T.files d ≠ some f := by
  intro hd
  obtain ⟨entry, hentry, hfile⟩ := Option.map_eq_some_iff.mp hd
  exact h d entry hentry hfile

theorem dup_files (T : Table) (e : Fin cbMaxFds) :
    ((T.dup e.val).1 = -1 ∧ (T.dup e.val).2.files = T.files ∧ (T.files e = none ∨ ∀ d, T.files d ≠ none)) ∨
    ∃ (d : Fin cbMaxFds) (f : FileId), T.files d = none ∧ T.files e = some f ∧ (T.dup e.val).1 = d.val ∧
      (T.dup e.val).2.files = Function.update T.files d (some f) := by
  have hentry : T.entryOf e.val = T e := by
    rw [entryOf, fdSlot_val]
    rfl
  rw [dup, hentry]
  split
  · rename_i entry d he hd
    refine .inr ⟨d, entry.file, (lowest_files hd).1, congrArg (Option.map FdEntry.file) he, rfl, ?_⟩
    exact files_update T d entry.file false
  · rename_i hno
    refine .inl ⟨rfl, rfl, ?_⟩
    by_cases he : T e = none
    · exact .inl (files_eq_none.mpr he)
    · obtain ⟨entry, he⟩ := Option.ne_none_iff_exists'.mp he
      right
      refine lowest_none_files ?_
      by_contra hlow
      obtain ⟨d, hd⟩ := Option.ne_none_iff_exists'.mp hlow
      exact hno entry d he hd

theorem dup2_files {T : Table} {d : Fin cbMaxFds} {f : FileId} (h : T.files d = some f) (e : Fin cbMaxFds) :
    (T.dup2 d.val e.val).1 = e.val ∧ (T.dup2 d.val e.val).2.files = Function.update T.files e (some f) := by
  obtain ⟨entry, hentry, hfile⟩ := Option.map_eq_some_iff.mp h
  have hopen : T.entryOf d.val = some entry := by
    rw [entryOf, fdSlot_val]
    exact hentry
  rw [dup2, hopen, fdSlot_val]
  refine ⟨rfl, ?_⟩
  dsimp only
  split
  · rename_i heq
    have hde : d = e := Fin.ext (by omega)
    rw [← hde, ← h, Function.update_eq_self]
  · rw [files_update, hfile]

end Table

/-! ### Calls and the files -/

/-- An `open` that failed. -/
def Note.refusedOpen (note : Note) : Prop :=
  (∃ path flags mode, note.call = .op (.openPath path flags mode)) ∧ note.answer.value < 0

/-- The files of the table are `F`, and an `open` has failed so far or not. -/
def Purview.Shows (v : Purview) (F : Files) (failed : Prop) : Prop :=
  v.table.files = F ∧ ((∃ note ∈ v.log, note.refusedOpen) ↔ failed)

variable {t : TaskId} {v v' : Purview} {F : Files} {failed : Prop} {call : TableCall} {a : Answer}

/-- The call is no `open`. -/
def TableCall.noOpen (call : TableCall) : Prop := ∀ path flags mode, call ≠ .op (.openPath path flags mode)

theorem Purview.Shows.other (h : v.Shows F failed) (hcall : call.noOpen) (hs : v.Step t call a v') {G : Files}
    (hG : v'.table.files = G) : v'.Shows G failed := by
  obtain ⟨new, child, -, -, hlog⟩ := hs
  refine ⟨hG, ?_⟩
  rw [← h.2, hlog]
  constructor
  · rintro ⟨note, hmem, hrefused⟩
    rcases List.mem_append.mp hmem with hmem | hmem
    · exact ⟨note, hmem, hrefused⟩
    · obtain ⟨⟨path, flags, mode, hopen⟩, -⟩ := hrefused
      rw [List.mem_singleton.mp hmem] at hopen
      exact absurd hopen (hcall path flags mode)
  · rintro ⟨note, hmem, hrefused⟩
    exact ⟨note, List.mem_append_left _ hmem, hrefused⟩

theorem Admits.quiet {T T' : Table} {old new : List Passage} {child : Option Table}
    (h : Admits t T old call a T' new child) (hq : call.quiet = true) : T' = T ∧ new = [] := by
  cases call with
  | op op =>
    cases op with
    | write | chdir | getcwd => exact h rfl
    | _ => cases hq
  | _ => exact h hq

theorem Purview.Shows.quiet (h : v.Shows F failed) (hq : call.quiet = true) (hs : v.Step t call a v') :
    v'.Shows F failed := by
  have hno : call.noOpen := by
    rintro path flags mode rfl
    cases hq
  have htable : v'.table = v.table := by
    obtain ⟨new, child, hadmits, -, -⟩ := hs
    exact (hadmits.quiet hq).1
  exact h.other hno hs (by rw [htable]; exact h.1)

theorem Purview.Shows.open {path : Bytes} {flags : OpenFlags} {mode : ℕ} (h : v.Shows F failed)
    (hs : v.Step t (.op (.openPath path flags mode)) a v') :
    (a.value = -1 ∧ v'.Shows F True) ∨
    ∃ (d : Fin cbMaxFds) (f : FileId), F d = none ∧ (∀ e, e < d → F e ≠ none) ∧ (∀ e, F e ≠ some f) ∧ a.value = d.val ∧
      v'.Shows (Function.update F d (some f)) failed := by
  obtain ⟨new, child, ⟨-, hopen⟩, -, hlog⟩ := hs
  rcases hopen with ⟨hv, htable⟩ | ⟨d, f, hlow, hlacks, hv, htable⟩
  · have hrefused : Note.refusedOpen ⟨.op (.openPath path flags mode), a, v'.table, child⟩ := by
      refine ⟨⟨path, flags, mode, rfl⟩, ?_⟩
      show a.value < 0
      omega
    refine .inl ⟨hv, by rw [htable]; exact h.1, iff_true_intro ⟨_, ?_, hrefused⟩⟩
    rw [hlog]
    exact List.mem_append_right _ (List.mem_singleton_self _)
  · obtain ⟨hfree, hbelow⟩ := Table.lowest_files hlow
    have hfiles := hlacks.files
    rw [h.1] at hfree hbelow hfiles
    refine .inr ⟨d, f, hfree, hbelow, hfiles, hv, ?_, ?_⟩
    · rw [htable, Table.files_update, h.1]
    · rw [← h.2, hlog]
      constructor
      · rintro ⟨note, hmem, hrefused⟩
        rcases List.mem_append.mp hmem with hmem | hmem
        · exact ⟨note, hmem, hrefused⟩
        · have hneg : a.value < 0 := by
            have := hrefused.2
            rw [List.mem_singleton.mp hmem] at this
            exact this
          omega
      · rintro ⟨note, hmem, hrefused⟩
        exact ⟨note, List.mem_append_left _ hmem, hrefused⟩

theorem Purview.Shows.close (h : v.Shows F failed) {descriptor : ℤ} (hs : v.Step t (.op (.close descriptor)) a v') :
    v'.Shows (emptied F (slotsOf descriptor)) failed := by
  have htable : v'.table = v.table.close descriptor := by
    obtain ⟨new, child, hadmits, -, -⟩ := hs
    exact hadmits.2
  refine h.other (fun _ _ _ heq => by cases heq) hs ?_
  rw [htable, Table.files_close, h.1]

theorem Purview.Shows.dup (h : v.Shows F failed) {e : Fin cbMaxFds} (hs : v.Step t (.op (.dup e.val)) a v') :
    (a.value = -1 ∧ v'.Shows F failed ∧ (F e = none ∨ ∀ d, F d ≠ none)) ∨
    ∃ (d : Fin cbMaxFds) (f : FileId), F d = none ∧ F e = some f ∧ a.value = d.val ∧
      v'.Shows (Function.update F d (some f)) failed := by
  have hdup : (a.value, v'.table) = v.table.dup e.val := by
    obtain ⟨new, child, hadmits, -, -⟩ := hs
    exact hadmits.2
  have hno : TableCall.noOpen (.op (.dup e.val)) := fun _ _ _ heq => by cases heq
  have hcases := v.table.dup_files e
  rw [← hdup, h.1] at hcases
  rcases hcases with ⟨hv, hfiles, hwhy⟩ | ⟨d, f, hd, he, hv, hfiles⟩
  · exact .inl ⟨hv, h.other hno hs hfiles, hwhy⟩
  · exact .inr ⟨d, f, hd, he, hv, h.other hno hs hfiles⟩

theorem Purview.Shows.dup2 (h : v.Shows F failed) {d e : Fin cbMaxFds} {f : FileId} (hd : F d = some f)
    (hs : v.Step t (.op (.dup2 d.val e.val)) a v') : a.value = e.val ∧ v'.Shows (Function.update F e (some f)) failed := by
  have hdup : (a.value, v'.table) = v.table.dup2 d.val e.val := by
    obtain ⟨new, child, hadmits, -, -⟩ := hs
    exact hadmits.2
  have hd' : v.table.files d = some f := by
    rw [h.1]
    exact hd
  have hfiles := Table.dup2_files hd' e
  rw [← hdup, h.1] at hfiles
  exact ⟨hfiles.1, h.other (fun _ _ _ heq => by cases heq) hs hfiles.2⟩

/-! ### OnlyQuiet programs -/

namespace Shell

/-- The program makes only calls that leave the table and the children alone. -/
def OnlyQuiet {α : Type} (p : Script α) : Prop := p.Makes fun call => call.quiet = true

theorem shellWrite_quiet (descriptor : ℤ) (text : Bytes) : OnlyQuiet (shellWrite descriptor text) := by
  refine (shellWrite_makes descriptor text).mono ?_
  rintro call ⟨text', rfl⟩
  rfl

theorem say_quiet (text : Bytes) : OnlyQuiet (say text) := (shellWrite_quiet 2 text).bind fun _ => trivial

theorem shellError_quiet (message : Bytes) : OnlyQuiet (shellError message) :=
  (say_quiet _).bind fun _ => (say_quiet _).bind fun _ => say_quiet _

section Builtins

variable (strerror : ℤ → Bytes)

theorem errorText_quiet : OnlyQuiet (errorText strerror) := ⟨rfl, fun _ => ⟨rfl, fun _ => trivial⟩⟩

theorem exportLoop_quiet (argv : ℕ → Option Bytes) (n : ℕ) : ∀ index, OnlyQuiet (exportLoop argv n index) := by
  induction n with
  | zero => exact fun _ => trivial
  | succ n ih =>
    intro index
    rw [exportLoop]
    split
    · trivial
    dsimp only
    split
    · exact (shellError_quiet _).bind fun _ => trivial
    · refine Prog.Makes.ask rfl fun a => ?_
      split
      · exact (shellError_quiet _).bind fun _ => trivial
      · exact ih (index + 1)

theorem unsetLoop_quiet (argv : ℕ → Option Bytes) (n : ℕ) : ∀ index, OnlyQuiet (unsetLoop argv n index) := by
  induction n with
  | zero => exact fun _ => trivial
  | succ n ih =>
    intro index
    refine Prog.Makes.ask rfl fun a => ?_
    split
    · exact (shellError_quiet _).bind fun _ => trivial
    · exact ih (index + 1)

theorem runCd_quiet (stage : Stage) : OnlyQuiet (runCd strerror stage) := by
  have hchdir : ∀ path : Option Bytes, OnlyQuiet (Prog.ask (.op (.chdir (path.getD (ascii "/")))) >>= fun a : Answer =>
      if a.value < 0 then (do
        say (ascii "sh: cd: ")
        say (← errorText strerror)
        say (ascii "\n")
        .ret 1 : Script ℤ)
      else .ret 0) := by
    intro path
    refine Prog.Makes.ask rfl fun a => ?_
    split
    · exact (say_quiet _).bind fun _ => (errorText_quiet strerror).bind fun _ => (say_quiet _).bind fun _ =>
        (say_quiet _).bind fun _ => trivial
    · trivial
  rw [runCd]
  split
  · exact (shellError_quiet _).bind fun _ => trivial
  · split
    · exact Prog.Makes.ask rfl fun a => hchdir _
    · exact hchdir _

theorem runPwd_quiet : OnlyQuiet (runPwd strerror) := by
  refine Prog.Makes.ask rfl fun a => ?_
  split
  · exact (errorText_quiet strerror).bind fun _ => (shellError_quiet _).bind fun _ => trivial
  · exact (shellWrite_quiet _ _).bind fun _ => (shellWrite_quiet _ _).bind fun _ => trivial

theorem runExit_quiet (stage : Stage) (lastStatus : ℤ) : OnlyQuiet (runExit stage lastStatus) := by
  rw [runExit]
  split
  · exact (shellError_quiet _).bind fun _ => trivial
  split
  · split
    · trivial
    · split
      · exact (shellError_quiet _).bind fun _ => trivial
      · trivial
  · trivial

/-- A builtin leaves the table and the children alone. -/
theorem runBuiltin_quiet (stage : Stage) (lastStatus : ℤ) : OnlyQuiet (runBuiltin strerror stage lastStatus) := by
  rw [runBuiltin]
  split
  · trivial
  split
  · exact (runCd_quiet strerror stage).bind fun _ => trivial
  split
  · exact (runPwd_quiet strerror).bind fun _ => trivial
  split
  · exact (exportLoop_quiet stage.argv (stage.argc - 1) 1).bind fun _ => trivial
  split
  · exact (unsetLoop_quiet stage.argv (stage.argc - 1) 1).bind fun _ => trivial
  split
  · exact runExit_quiet stage lastStatus
  · trivial

end Builtins

theorem OnlyQuiet.wp {α : Type} {p : Script α} (hp : OnlyQuiet p) (h : v.Shows F failed) :
    p.wp (Purview.Step t) (fun _ v' => v'.Shows F failed) v :=
  Prog.Makes.wp hp h fun _ _ _ _ hv hq hs => hv.quiet hq hs

/-! ### Opening and closing -/

theorem closeIf_wp (h : v.Shows F failed) (descriptor : ℤ) :
    (closeIf descriptor).wp (Purview.Step t) (fun _ v' => v'.Shows (emptied F (slotsOf descriptor)) failed) v := by
  rw [closeIf]
  split
  · exact fun a v' hs => h.close hs
  · rw [slotsOf_neg (by omega), emptied_empty]
    exact h

/-- An optional redirection took the lowest empty slot for a new file. -/
def Took (given : Prop) (F G : Files) (descriptor : ℤ) : Prop :=
  (¬ given ∧ descriptor = -1 ∧ G = F) ∨
    (given ∧ ∃ (d : Fin cbMaxFds) (f : FileId), F d = none ∧ (∀ e, e < d → F e ≠ none) ∧ (∀ e, F e ≠ some f) ∧
      descriptor = d.val ∧ G = Function.update F d (some f))

variable {given : Prop} {G H : Files} {descriptor : ℤ} {taken astray : Set (Fin cbMaxFds)}

theorem Took.borrowed (h : Took given G H descriptor) (hb : Borrowed F G taken ∅) :
    Borrowed F H (slotsOf descriptor ∪ taken) ∅ := by
  rcases h with ⟨-, rfl, rfl⟩ | ⟨-, d, f, hd, -, -, rfl, rfl⟩
  · rw [slotsOf_minus_one, Set.empty_union]
    exact hb
  · rw [slotsOf_val, ← Set.insert_eq]
    exact hb.take hd (Set.notMem_empty d) f

theorem Took.undo (h : Took given F G descriptor) : emptied G (slotsOf descriptor) = F := by
  have hb := h.borrowed (Borrowed.refl F)
  rw [Set.union_empty] at hb
  exact hb.release

theorem Took.room (h : Took given F G descriptor) (hgiven : given) : room G + 1 = room F := by
  rcases h with ⟨hno, -, -⟩ | ⟨-, d, f, hd, -, -, -, rfl⟩
  · exact absurd hgiven hno
  · exact room_take hd f

theorem Took.mono (h : Took given F G descriptor) {e : Fin cbMaxFds} (he : F e ≠ none) : G e ≠ none := by
  rcases h with ⟨-, -, rfl⟩ | ⟨-, d, f, -, -, -, -, rfl⟩
  · exact he
  · rw [Function.update_apply]
    split
    · exact Option.some_ne_none f
    · exact he

/-- Everything up to the slot that was taken is in use then. -/
theorem Took.below (h : Took given F G descriptor) (hgiven : given) {d : Fin cbMaxFds} (hd : descriptor = d.val)
    {e : Fin cbMaxFds} (he : e ≤ d) : G e ≠ none := by
  rcases h with ⟨hno, -, -⟩ | ⟨-, d', f, -, hbelow, -, hd', rfl⟩
  · exact absurd hgiven hno
  · have hdd : d' = d := Fin.ext (by omega)
    subst hdd
    rw [Function.update_apply]
    split
    · exact Option.some_ne_none f
    · rename_i hne
      exact hbelow e (lt_of_le_of_ne he hne)

theorem openOutput_wp (stage : Stage) {input : ℤ} (hv : v.Shows G failed) (hundo : emptied G (slotsOf input) = F) :
    (openOutput stage input).wp (Purview.Step t) (fun r v' => (r.1 = -1 ∧ v'.Shows F True) ∨
      (r.1 = 0 ∧ r.2.1 = input ∧ ∃ H, Took (stage.outputPath ≠ none) G H r.2.2 ∧ v'.Shows H failed)) v := by
  rw [openOutput]
  split
  · rename_i hnone
    exact .inr ⟨rfl, rfl, G, .inl ⟨fun hne => hne hnone, rfl, rfl⟩, hv⟩
  · rename_i path hpath
    intro a v' hs
    rcases hv.open hs with ⟨ha, hv'⟩ | ⟨d, f, hd, hbelow, hfresh, ha, hv'⟩
    · show Prog.wp (Purview.Step t) (if a.value < 0 then _ else _) _ v'
      rw [if_pos (by omega)]
      refine Prog.wp_seq (closeIf_wp hv' input) fun _ v'' hv'' => .inl ⟨rfl, ?_⟩
      rw [hundo] at hv''
      exact hv''
    · show Prog.wp (Purview.Step t) (if a.value < 0 then _ else _) _ v'
      rw [if_neg (by omega)]
      exact .inr ⟨rfl, rfl, _, .inr ⟨by rw [hpath]; exact Option.some_ne_none path, d, f, hd, hbelow, hfresh, ha, rfl⟩, hv'⟩

theorem openRedirections_wp (stage : Stage) (hv : v.Shows F failed) :
    (openRedirections stage).wp (Purview.Step t) (fun r v' => (r.1 = -1 ∧ v'.Shows F True) ∨
      (r.1 = 0 ∧ ∃ G H, Took (stage.inputPath ≠ none) F G r.2.1 ∧ Took (stage.outputPath ≠ none) G H r.2.2 ∧
        v'.Shows H failed)) v := by
  have hthen : ∀ {G input v'}, Took (stage.inputPath ≠ none) F G input → v'.Shows G failed →
      (openOutput stage input).wp (Purview.Step t) (fun r v' => (r.1 = -1 ∧ v'.Shows F True) ∨
        (r.1 = 0 ∧ ∃ G H, Took (stage.inputPath ≠ none) F G r.2.1 ∧ Took (stage.outputPath ≠ none) G H r.2.2 ∧
          v'.Shows H failed)) v' := by
    intro G input v' htook hv'
    refine Prog.wp_mono (openOutput_wp stage hv' htook.undo) ?_
    rintro r v'' (hfail | ⟨hr, rfl, H, htook', hv''⟩)
    · exact .inl hfail
    · exact .inr ⟨hr, G, H, htook, htook', hv''⟩
  rw [openRedirections]
  split
  · rename_i hnone
    exact hthen (.inl ⟨fun hne => hne hnone, rfl, rfl⟩) hv
  · rename_i path hpath
    intro a v' hs
    rcases hv.open hs with ⟨ha, hv'⟩ | ⟨d, f, hd, hbelow, hfresh, ha, hv'⟩
    · show Prog.wp (Purview.Step t) (if a.value < 0 then _ else _) _ v'
      rw [if_pos (by omega)]
      exact .inl ⟨rfl, hv'⟩
    · show Prog.wp (Purview.Step t) (if a.value < 0 then _ else _) _ v'
      rw [if_neg (by omega)]
      exact hthen (.inr ⟨by rw [hpath]; exact Option.some_ne_none path, d, f, hd, hbelow, hfresh, ha, rfl⟩) hv'

/-! ### Overwriting and putting back -/

def stdin : Fin cbMaxFds := ⟨0, zero_lt_cbMaxFds⟩
def stdout : Fin cbMaxFds := ⟨1, one_lt_cbMaxFds⟩

/-- A redirection in the place of the standard descriptor `e`: nothing was to be done, the old file could
not be saved, or it was saved in an empty slot and the file `f` put in its place. -/
theorem redirect_wp (hv : v.Shows G failed) (e : Fin cbMaxFds)
    (hopen : descriptor = -1 ∨ ∃ (d : Fin cbMaxFds) (f : FileId), descriptor = d.val ∧ G d = some f) :
    (redirect descriptor e.val).wp (Purview.Step t) (fun r v' =>
      (descriptor = -1 ∧ r = (-1, true) ∧ v'.Shows G failed) ∨
      (descriptor ≠ -1 ∧ r = (-1, false) ∧ v'.Shows G failed ∧ (G e = none ∨ ∀ d, G d ≠ none)) ∨
      ∃ (s d : Fin cbMaxFds) (f g : FileId), descriptor = d.val ∧ G d = some f ∧ G s = none ∧ G e = some g ∧
        r = ((s.val : ℤ), true) ∧ v'.Shows (Function.update (Function.update G s (some g)) e (some f)) failed) v := by
  rw [redirect]
  rcases hopen with rfl | ⟨d, f, rfl, hd⟩
  · exact .inl ⟨rfl, rfl, hv⟩
  · rw [if_pos (by omega)]
    intro a v' hs
    show Prog.wp (Purview.Step t) (if a.value < 0 then _ else _) _ v'
    rcases hv.dup hs with ⟨ha, hv', hwhy⟩ | ⟨s, g, hs, he, ha, hv'⟩
    · rw [if_pos (by omega), ha]
      exact .inr (.inl ⟨by omega, rfl, hv', hwhy⟩)
    · rw [if_neg (by omega), ha]
      intro b v'' hs''
      have hd' : Function.update G s (some g) d = some f := by
        rw [Function.update_of_ne fun heq => by rw [heq, hs] at hd; cases hd]
        exact hd
      obtain ⟨hb, hv''⟩ := hv'.dup2 hd' hs''
      refine .inr (.inr ⟨s, d, f, g, rfl, hd, hs, he, ?_, hv''⟩)
      rw [decide_eq_true (by omega : 0 ≤ b.value)]

/-- The descriptor has the old file of the slot `e`, if that was overwritten. -/
def Loaned (F K : Files) (taken astray : Set (Fin cbMaxFds)) (saved : ℤ) (e : Fin cbMaxFds) : Prop :=
  (saved = -1 ∧ e ∉ astray) ∨
    ∃ (s : Fin cbMaxFds) (g : FileId), saved = s.val ∧ K s = some g ∧ (e ∈ taken ∨ F e = some g)

theorem putBack_wp {K : Files} {saved : ℤ} {e : Fin cbMaxFds} (hv : v.Shows K failed)
    (hb : Borrowed F K taken astray) (hloan : Loaned F K taken astray saved e) :
    (putBack saved e.val).wp (Purview.Step t) (fun _ v' =>
      ∃ K', v'.Shows K' failed ∧ Borrowed F K' taken (astray \ {e}) ∧ ∀ d, d ≠ e → K' d = K d) v := by
  rw [putBack]
  rcases hloan with ⟨rfl, hno⟩ | ⟨s, g, rfl, hs, he⟩
  · refine ⟨K, hv, ?_, fun _ _ => rfl⟩
    rw [Set.sdiff_singleton_eq_self hno]
    exact hb
  · rw [if_pos (by omega)]
    intro a v' hstep
    obtain ⟨-, hv'⟩ := hv.dup2 hs hstep
    refine ⟨_, hv', ?_, fun d hd => Function.update_of_ne hd _ _⟩
    have hsettled := (hb.divert e g).settle (d := e) (he.imp id fun hold => by rw [Function.update_self, hold])
    rw [Set.insert_sdiff_of_mem astray (Set.mem_singleton e)] at hsettled
    exact hsettled

theorem closeFour_wp {K : Files} (hv : v.Shows K failed) (savedInput savedOutput input output : ℤ) :
    (closeFour savedInput savedOutput input output).wp (Purview.Step t) (fun _ v' =>
      v'.Shows (emptied K (slotsOf savedInput ∪ (slotsOf savedOutput ∪ (slotsOf input ∪ slotsOf output)))) failed) v := by
  refine Prog.wp_seq (closeIf_wp hv savedInput) fun _ v₁ hv₁ => ?_
  refine Prog.wp_seq (closeIf_wp hv₁ savedOutput) fun _ v₂ hv₂ => ?_
  refine Prog.wp_seq (closeIf_wp hv₂ input) fun _ v₃ hv₃ => ?_
  refine Prog.wp_mono (closeIf_wp hv₃ output) fun _ v₄ hv₄ => ?_
  rw [emptied_emptied, emptied_emptied, emptied_emptied] at hv₄
  exact hv₄

theorem descriptorError_wp {K : Files} (hv : v.Shows K failed) (savedInput savedOutput input output : ℤ) :
    (descriptorError savedInput savedOutput input output).wp (Purview.Step t) (fun _ v' =>
      v'.Shows (emptied K (slotsOf savedInput ∪ (slotsOf savedOutput ∪ (slotsOf input ∪ slotsOf output)))) failed) v := by
  refine Prog.wp_seq ((shellError_quiet _).wp hv) fun _ v₁ hv₁ => ?_
  exact Prog.wp_seq (closeFour_wp hv₁ savedInput savedOutput input output) fun _ v₂ hv₂ => hv₂

/-! ### `run_builtin_redirected` -/

/-- Both redirections are given, and behind the two files and the saved input no slot is left to save the
output in. -/
def Cornered (stage : Stage) (F : Files) : Prop :=
  stage.inputPath ≠ none ∧ stage.outputPath ≠ none ∧ F stdin ≠ none ∧ room F = 3

theorem stdin_ne_stdout : stdin ≠ stdout := by decide

/-- The part of `run_builtin_redirected` behind the input. The table `K` is the old one but for what was
taken and, if the input was redirected, the standard input. -/
theorem redirectedOutput_wp (strerror : ℤ → Bytes) (stage : Stage) (lastStatus : ℤ) {K : Files}
    {savedInput input output : ℤ} (hv : v.Shows K False) (hb : Borrowed F K taken astray)
    (htaken : taken = slotsOf savedInput ∪ (slotsOf input ∪ slotsOf output)) (hastray : astray ⊆ {stdin})
    (hloan : Loaned F K taken astray savedInput stdin)
    (hopen : output = -1 ∨ ∃ (d : Fin cbMaxFds) (f : FileId), output = d.val ∧ K d = some f)
    (hcorner : Cornered stage F ↔ output ≠ -1 ∧ stdin ∈ astray ∧ stdin ∉ taken ∧ ∀ d, K d ≠ none)
    (hstray : stdin ∈ astray → stdin ∉ taken → K stdin ≠ F stdin)
    (hzero : output ≠ -1 → K stdin ≠ none)
    (hone : output ≠ -1 → stdin ∈ astray → K stdout ≠ none)
    (hsaved : output ≠ -1 → ∀ s : Fin cbMaxFds, savedInput = s.val → s ≠ stdout) :
    (redirect output 1 >>= fun r => if r.2 = false then descriptorError savedInput r.1 input output
      else do
        let result ← runBuiltin strerror stage lastStatus
        putBack savedInput 0
        putBack r.1 1
        closeFour savedInput r.1 input output
        .ret result).wp (Purview.Step t) (fun _ v' =>
          ∃ L, v'.Shows L False ∧ (L = F ↔ ¬ Cornered stage F)) v := by
  refine Prog.wp_seq (redirect_wp hv stdout hopen) ?_
  rintro ⟨savedOutput, done⟩ v₁ (⟨rfl, hr, hv₁⟩ | ⟨hgiven, hr, hv₁, hwhy⟩ | ⟨s, d, f, g, rfl, hd, hs, hg, hr, hv₁⟩)
  · cases hr
    have hno : ¬ Cornered stage F := fun h => (hcorner.mp h).1 rfl
    refine Prog.wp_seq ((runBuiltin_quiet strerror stage lastStatus).wp hv₁) fun result v₂ hv₂ => ?_
    refine Prog.wp_seq (putBack_wp hv₂ hb hloan) ?_
    rintro _ v₃ ⟨K', hv₃, hb', -⟩
    rw [Set.sdiff_eq_empty.mpr hastray] at hb'
    refine Prog.wp_seq (putBack_wp hv₃ hb' (.inl ⟨rfl, Set.notMem_empty stdout⟩)) ?_
    rintro _ v₄ ⟨K'', hv₄, hb'', -⟩
    rw [Set.empty_sdiff] at hb''
    refine Prog.wp_seq (closeFour_wp hv₄ savedInput (-1) input (-1)) fun _ v₅ hv₅ => ?_
    refine ⟨_, hv₅, iff_of_true ?_ hno⟩
    have hall : slotsOf savedInput ∪ (slotsOf (-1) ∪ (slotsOf input ∪ slotsOf (-1))) = taken := by
      rw [htaken, slotsOf_minus_one, Set.empty_union]
    rw [hall]
    exact hb''.release
  · cases hr
    refine Prog.wp_mono (descriptorError_wp hv₁ savedInput (-1) input output) fun _ v₂ hv₂ => ⟨_, hv₂, ?_⟩
    rw [slotsOf_minus_one, Set.empty_union, ← htaken]
    by_cases hbad : stdin ∈ astray ∧ stdin ∉ taken
    · have hfull : ∀ d, K d ≠ none := hwhy.resolve_left (hone hgiven hbad.1)
      refine iff_of_false (fun heq => ?_) fun hno => hno (hcorner.mpr ⟨hgiven, hbad.1, hbad.2, hfull⟩)
      have hat := congrFun heq stdin
      rw [emptied, if_neg hbad.2] at hat
      exact hstray hbad.1 hbad.2 hat
    · refine iff_of_true (funext fun d => hb.emptied_apply ?_) fun h => hbad ⟨(hcorner.mp h).2.1, (hcorner.mp h).2.2.1⟩
      by_cases hd : d ∈ astray
      · have heq : d = stdin := hastray hd
        subst heq
        exact .inl (by_contra fun hno => hbad ⟨hd, hno⟩)
      · exact .inr hd
  · cases hr
    have hgiven : (d.val : ℤ) ≠ -1 := by omega
    have hno : ¬ Cornered stage F := fun h => (hcorner.mp h).2.2.2 s hs
    have hsout : s ≠ stdout := fun heq => by rw [heq, hg] at hs; cases hs
    have hsin : s ≠ stdin := fun heq => hzero hgiven (heq ▸ hs)
    have hout : stdout ∉ astray := fun hmem => stdin_ne_stdout (hastray hmem).symm
    have hb₁ := (hb.take hs (fun hmem => hsin (hastray hmem)) g).divert stdout f
    have hloanIn : Loaned F (Function.update (Function.update K s (some g)) stdout (some f)) (insert s taken)
        (insert stdout astray) savedInput stdin := by
      rcases hloan with ⟨hnone, hnot⟩ | ⟨s₀, g₀, hs₀, hK, hold⟩
      · exact .inl ⟨hnone, fun hmem => hmem.elim stdin_ne_stdout hnot⟩
      · refine .inr ⟨s₀, g₀, hs₀, ?_, hold.imp (Set.mem_insert_of_mem s) id⟩
        have hne : s₀ ≠ s := fun heq => by rw [heq, hs] at hK; cases hK
        rw [Function.update_of_ne (hsaved hgiven s₀ hs₀), Function.update_of_ne hne]
        exact hK
    have hloanOut : Loaned F (Function.update (Function.update K s (some g)) stdout (some f)) (insert s taken)
        ((insert stdout astray) \ {stdin}) s.val stdout := by
      refine .inr ⟨s, g, rfl, ?_, ?_⟩
      · rw [Function.update_of_ne hsout, Function.update_self]
      · by_cases hmem : stdout ∈ taken
        · exact .inl (Set.mem_insert_of_mem s hmem)
        · exact .inr (by rw [← hb.same stdout hmem hout, hg])
    refine Prog.wp_seq ((runBuiltin_quiet strerror stage lastStatus).wp hv₁) fun result v₂ hv₂ => ?_
    refine Prog.wp_seq (putBack_wp hv₂ hb₁ hloanIn) ?_
    rintro _ v₃ ⟨K₁, hv₃, hb₂, hsame⟩
    have hloanOut' : Loaned F K₁ (insert s taken) ((insert stdout astray) \ {stdin}) s.val stdout := by
      rcases hloanOut with ⟨hneg, -⟩ | ⟨s', g', hs', hK', hold⟩
      · omega
      · have hss : s' = s := Fin.ext (by omega)
        subst hss
        exact .inr ⟨s', g', rfl, by rw [hsame s' hsin]; exact hK', hold⟩
    refine Prog.wp_seq (putBack_wp hv₃ hb₂ hloanOut') ?_
    rintro _ v₄ ⟨K₂, hv₄, hb₃, -⟩
    refine Prog.wp_seq (closeFour_wp hv₄ savedInput s.val input d.val) fun _ v₅ hv₅ => ?_
    refine ⟨_, hv₅, iff_of_true ?_ hno⟩
    have hempty : (insert stdout astray \ {stdin}) \ {stdout} = ∅ := by
      ext e
      simp only [Set.mem_sdiff, Set.mem_insert_iff, Set.mem_singleton_iff, Set.mem_empty_iff_false, iff_false]
      rintro ⟨⟨rfl | he, hin⟩, hout'⟩
      · exact hout' rfl
      · exact hin (hastray he)
    have hall : slotsOf savedInput ∪ (slotsOf (s.val : ℤ) ∪ (slotsOf input ∪ slotsOf (d.val : ℤ))) = insert s taken := by
      rw [htaken, slotsOf_val s, Set.insert_eq, Set.union_left_comm]
    rw [hempty] at hb₃
    rw [hall]
    exact hb₃.release

theorem Took.opened (h : Took given F G descriptor) (hgiven : given) :
    ∃ (d : Fin cbMaxFds) (f : FileId), descriptor = d.val ∧ G d = some f ∧ (∀ e, F e ≠ some f) ∧ F d = none := by
  rcases h with ⟨hno, -, -⟩ | ⟨-, d, f, hd, -, hfresh, rfl, rfl⟩
  · exact absurd hgiven hno
  · exact ⟨d, f, rfl, Function.update_self d (some f) F, hfresh, hd⟩

theorem Took.ne_minus_one (h : Took given F G descriptor) : descriptor ≠ -1 ↔ given := by
  rcases h with ⟨hno, rfl, -⟩ | ⟨hgiven, d, f, -, -, -, rfl, -⟩
  · exact iff_of_false (fun h => h rfl) hno
  · exact iff_of_true (by omega) hgiven

theorem Took.keeps (h : Took given F G descriptor) {e : Fin cbMaxFds} {f : FileId} (he : F e = some f) : G e = some f := by
  rcases h with ⟨-, -, rfl⟩ | ⟨-, d, f', hd, -, -, -, rfl⟩
  · exact he
  · rw [Function.update_of_ne fun heq => by rw [heq, hd] at he; cases he]
    exact he

theorem Took.not_given (h : Took given F G descriptor) (hno : ¬ given) : descriptor = -1 ∧ G = F := by
  rcases h with ⟨-, hd, hG⟩ | ⟨hgiven, -⟩
  · exact ⟨hd, hG⟩
  · exact absurd hgiven hno

/-- With both redirections open, the standard output is in use. -/
theorem stdout_in_use {given' : Prop} {input output : ℤ} (hi : Took given F G input) (ho : Took given' G H output)
    (hgiven : given) (hgiven' : given') : H stdout ≠ none := by
  obtain ⟨i, f, hinput, hi', -, hfree⟩ := hi.opened hgiven
  obtain ⟨o, g, houtput, -, -, hfree'⟩ := ho.opened hgiven'
  by_cases hlow : stdout ≤ i
  · exact ho.mono (hi.below hgiven hinput hlow)
  · refine ho.below hgiven' houtput ?_
    -- the input is in slot 0, so that the output is not
    have hne : o ≠ i := fun heq => by rw [heq, hi'] at hfree'; cases hfree'
    have hzero : i.val = 0 := by
      have : i.val < stdout.val := not_le.mp hlow
      have hval : stdout.val = 1 := rfl
      omega
    have hpos : o.val ≠ 0 := fun h => hne (Fin.ext (by omega))
    show stdout.val ≤ o.val
    have hval : stdout.val = 1 := rfl
    omega

theorem runBuiltinRedirected_wp (strerror : ℤ → Bytes) (stage : Stage) (lastStatus : ℤ) (hv : v.Shows F False) :
    (runBuiltinRedirected strerror stage lastStatus).wp (Purview.Step t) (fun _ v' =>
      v'.table.files = F ↔ ¬ (Cornered stage F ∧ ¬ ∃ note ∈ v'.log, note.refusedOpen)) v := by
  have hfinish : ∀ {L : Files} {v' : Purview}, v'.Shows L False → (L = F ↔ ¬ Cornered stage F) →
      (v'.table.files = F ↔ ¬ (Cornered stage F ∧ ¬ ∃ note ∈ v'.log, note.refusedOpen)) := by
    intro L v' hv' hL
    rw [hv'.1, hv'.2, not_false_iff, and_true]
    exact hL
  refine Prog.wp_seq (openRedirections_wp stage hv) ?_
  rintro ⟨opened, input, output⟩ v₁ (⟨rfl, hv₁⟩ | ⟨rfl, G, H, hi, ho, hv₁⟩)
  · refine Prog.wp_seq ((errorText_quiet strerror).wp hv₁) fun text v₂ hv₂ => ?_
    refine Prog.wp_seq ((shellError_quiet text).wp hv₂) fun _ v₃ hv₃ => ?_
    exact iff_of_true hv₃.1 fun hbad => hbad.2 (hv₃.2.mpr trivial)
  dsimp only at hi ho
  have hb : Borrowed F H (slotsOf input ∪ slotsOf output) ∅ := by
    have := ho.borrowed (hi.borrowed (Borrowed.refl F))
    rw [Set.union_empty, Set.union_comm] at this
    exact this
  have hinput : input = -1 ∨ ∃ (d : Fin cbMaxFds) (f : FileId), input = d.val ∧ H d = some f := by
    by_cases hgiven : stage.inputPath ≠ none
    · obtain ⟨d, f, hd, hf, -⟩ := hi.opened hgiven
      exact .inr ⟨d, f, hd, ho.keeps hf⟩
    · exact .inl (hi.not_given hgiven).1
  have houtput : output = -1 ∨ ∃ (d : Fin cbMaxFds) (f : FileId), output = d.val ∧ H d = some f := by
    by_cases hgiven : stage.outputPath ≠ none
    · obtain ⟨d, f, hd, hf, -⟩ := ho.opened hgiven
      exact .inr ⟨d, f, hd, hf⟩
    · exact .inl (ho.not_given hgiven).1
  have hlow : output ≠ -1 → H stdin ≠ none := by
    intro hgiven
    obtain ⟨o, g, ho', -⟩ := ho.opened (ho.ne_minus_one.mp hgiven)
    exact ho.below (ho.ne_minus_one.mp hgiven) ho' (Nat.zero_le _)
  refine Prog.wp_seq (redirect_wp hv₁ stdin hinput) ?_
  rintro ⟨savedInput, done⟩ v₂ (⟨rfl, hr, hv₂⟩ | ⟨hgiven, hr, hv₂, hwhy⟩ | ⟨s, d, f, g, rfl, hd, hs, hg, hr, hv₂⟩)
  · cases hr
    have hno : ¬ Cornered stage F := fun h => hi.ne_minus_one.mpr h.1 rfl
    have htaken : slotsOf (-1) ∪ slotsOf output = slotsOf (-1) ∪ (slotsOf (-1) ∪ slotsOf output) := by
      rw [slotsOf_minus_one, Set.empty_union, Set.empty_union]
    refine Prog.wp_mono (redirectedOutput_wp strerror stage lastStatus hv₂ hb htaken
      (Set.empty_subset _) (.inl ⟨rfl, Set.notMem_empty _⟩) houtput (iff_of_false hno fun h => h.2.1.elim)
      (fun h => h.elim) hlow (fun _ h => h.elim) (fun _ s hs => by omega)) ?_
    exact fun _ v' ⟨L, hv', hL⟩ => hfinish hv' hL
  · cases hr
    refine Prog.wp_mono (descriptorError_wp hv₂ (-1) (-1) input output) fun _ v₃ hv₃ => hfinish hv₃ ?_
    rw [slotsOf_minus_one, Set.empty_union, Set.empty_union]
    refine iff_of_true hb.release fun hcorner => ?_
    obtain ⟨hgi, hgo, hzero, hroom⟩ := hcorner
    rcases hwhy with hnone | hfull
    · exact ho.mono (hi.mono hzero) hnone
    · have hH := room_eq_zero.mpr hfull
      have := hi.room hgi
      have := ho.room hgo
      omega
  · cases hr
    have hgi : stage.inputPath ≠ none := hi.ne_minus_one.mp (by omega)
    have hsin : s ≠ stdin := fun heq => by rw [heq, hg] at hs; cases hs
    have hfresh : ∀ e, F e ≠ some f := by
      obtain ⟨d', f', hd', hf', hfresh, -⟩ := hi.opened hgi
      have hdd : d = d' := Fin.ext (by omega)
      rw [hdd, ho.keeps hf'] at hd
      rw [← Option.some.inj hd]
      exact hfresh
    have hb' := (hb.take hs (Set.notMem_empty s) g).divert stdin f
    have hkept : ∀ e, H e ≠ none → Function.update (Function.update H s (some g)) stdin (some f) e ≠ none := by
      intro e he
      rw [Function.update_apply, Function.update_apply]
      split
      · exact Option.some_ne_none f
      · split
        · exact Option.some_ne_none g
        · exact he
    have hroom : room (Function.update (Function.update H s (some g)) stdin (some f)) + 1 = room H := by
      rw [room_divert (by rw [Function.update_of_ne hsin.symm, hg]; exact Option.some_ne_none g)]
      exact room_take hs g
    have htaken : insert s (slotsOf (d.val : ℤ) ∪ slotsOf output) =
        slotsOf (s.val : ℤ) ∪ (slotsOf (d.val : ℤ) ∪ slotsOf output) := by
      rw [slotsOf_val s, Set.insert_eq]
    have hastray : insert stdin (∅ : Set (Fin cbMaxFds)) ⊆ {stdin} := by simp
    refine Prog.wp_mono (redirectedOutput_wp strerror stage lastStatus hv₂ hb' htaken hastray ?_ ?_ ?_ ?_ ?_ ?_ ?_)
      fun _ v' ⟨L, hv', hL⟩ => hfinish hv' hL
    · refine .inr ⟨s, g, rfl, ?_, ?_⟩
      · rw [Function.update_of_ne hsin, Function.update_self]
      · by_cases hmem : stdin ∈ slotsOf (d.val : ℤ) ∪ slotsOf output
        · exact .inl (Set.mem_insert_of_mem s hmem)
        · exact .inr (by rw [← hb.same stdin hmem (Set.notMem_empty _), hg])
    · refine houtput.imp id ?_
      rintro ⟨o, fo, rfl, hfo⟩
      obtain ⟨fo', hfo'⟩ := Option.ne_none_iff_exists'.mp (hkept o (by rw [hfo]; exact Option.some_ne_none fo))
      exact ⟨o, fo', rfl, hfo'⟩
    · constructor
      · rintro ⟨-, hgo, hzero, hthree⟩
        have := hi.room hgi
        have := ho.room hgo
        exact ⟨ho.ne_minus_one.mpr hgo, Set.mem_insert _ _, fun hmem => hzero (hb'.free stdin hmem),
          room_eq_zero.mp (by omega)⟩
      · rintro ⟨hgo, -, hnot, hfull⟩
        have hgo' := ho.ne_minus_one.mp hgo
        have := hi.room hgi
        have := ho.room hgo'
        have := room_eq_zero.mpr hfull
        refine ⟨hgi, hgo', ?_, by omega⟩
        rw [← hb.same stdin (fun hmem => hnot (Set.mem_insert_of_mem s hmem)) (Set.notMem_empty _), hg]
        exact Option.some_ne_none g
    · intro _ _
      rw [Function.update_self]
      exact (hfresh stdin).symm
    · intro _
      rw [Function.update_self]
      exact Option.some_ne_none f
    · intro hgo _
      exact hkept stdout (stdout_in_use hi ho hgi (ho.ne_minus_one.mp hgo))
    · intro hgo s' hs' heq
      have hss : s = stdout := by
        rw [← heq]
        exact Fin.ext (by omega)
      exact stdout_in_use hi ho hgi (ho.ne_minus_one.mp hgo) (hss ▸ hs)

/-- **Redirected builtins.**  Every slot of the shell names the same open file as before, except when the
stage has both redirections, descriptor 0 was open, exactly three slots were free and the kernel opened both
files. -/
theorem redirected_builtin_restores_iff {k : Kernel} (hk : Attained k) (hc : k.current = some t)
    (strerror : ℤ → Bytes) (stage : Stage) (lastStatus : ℤ) {s' : Session} {result : ℤ × Bool}
    (hrun : Prog.Runs (Session.Step t) ⟨k, []⟩ (runBuiltinRedirected strerror stage lastStatus) s' result) :
    Table.files (s'.kernel.slot t) = Table.files (k.slot t) ↔
      ¬ (Cornered stage (Table.files (k.slot t)) ∧ ¬ ∃ note ∈ s'.log, note.refusedOpen) := by
  obtain ⟨l, hp⟩ := hk.poised
  obtain ⟨hrun', -, -⟩ := Session.runs_purview hp hc hrun
  have hshows : (Session.purview t ⟨k, []⟩).Shows (Table.files (k.slot t)) False := by
    refine ⟨rfl, iff_of_false ?_ id⟩
    rintro ⟨note, hmem, -⟩
    cases hmem
  exact hrun'.post (runBuiltinRedirected_wp strerror stage lastStatus hshows)

/-- The path `/e`. -/
def ePath : Bytes := [slash, 101]

/-- `pwd </d >/e`. -/
def pwdStage : Stage := ⟨fun i => if i = 0 then some (ascii "pwd") else none, 1, some dPath, some ePath, false⟩

/-- The shell has made the file `/d` and then duplicated its input so many times. -/
def crowded (n : ℕ) : Kernel :=
  stateAfter (shellStart ++ calls (.openPath dPath ⟨.wronly, false, true, false⟩ 0o666 :: List.replicate n (.dup 0)))

/-- With room in the table, `pwd </d >/e` leaves it as it was. -/
theorem redirected_builtin_restores_pwd :
    ∃ s' result, Prog.Runs (Session.Step 0) ⟨crowded 0, []⟩ (runBuiltinRedirected (fun _ => []) pwdStage 0) s' result ∧
      Table.files (s'.kernel.slot 0) = Table.files ((crowded 0).slot 0) := by
  have hplay : (Session.play 0 (runBuiltinRedirected (fun _ => []) pwdStage 0) [] ⟨crowded 0, []⟩).isSome = true := by
    decide +kernel
  obtain ⟨⟨s', result⟩, hplay⟩ := Option.isSome_iff_exists.mp hplay
  have hrun := Session.runs_of_play hplay
  have hroom : room (Table.files ((crowded 0).slot 0)) ≠ 3 := by decide +kernel
  refine ⟨s', result, hrun, ?_⟩
  exact (redirected_builtin_restores_iff (.of_reachable (reachable_stateAfter _)) (by decide +kernel) _ _ _ hrun).mpr
    fun h => hroom h.1.2.2.2

/-- With three free slots, the same command leaves `/d` as the input of the shell. -/
theorem redirected_builtin_loses_input :
    Attained (crowded 57) ∧ (crowded 57).current = some 0 ∧
      ∃ s' result, Prog.Runs (Session.Step 0) ⟨crowded 57, []⟩ (runBuiltinRedirected (fun _ => []) pwdStage 0) s' result ∧
        Table.files (s'.kernel.slot 0) ≠ Table.files ((crowded 57).slot 0) := by
  have hplay : (Session.play 0 (runBuiltinRedirected (fun _ => []) pwdStage 0) [] ⟨crowded 57, []⟩).map
      (fun r => Table.files (r.1.kernel.slot 0) stdin) = some (some 4) := by
    decide +kernel
  have hbefore : Table.files ((crowded 57).slot 0) stdin = some 0 := by decide +kernel
  obtain ⟨⟨s', result⟩, hplay, hafter⟩ := Option.map_eq_some_iff.mp hplay
  refine ⟨.of_reachable (reachable_stateAfter _), by decide +kernel, s', result, Session.runs_of_play hplay, fun heq => ?_⟩
  have hat := congrFun heq stdin
  rw [hbefore, hafter] at hat
  cases hat

end Shell

end CannedBsd
