import CannedBsd.Kernel.Programs

/-!
# Descriptor tables

What the calls on descriptors do to the table of a task, as functions on tables. `spawn` starts a child
on a copy of the table of its parent and applies the actions to it in order. Here the table of the child
is computed, and what `spawn` reports when an action is not valid is compared with it.

* `Table.pipeAnswer_cases`: what `pipe` answers, by what was allocated and which slots are empty.
* `apiPipe_table`, `taskApplyActions_table`, `apiSpawn_table`: what the calls do to the table.
* `spawn_reports_iff`: `spawn` reports what its actions deserve exactly when all of them are valid.
* `spawn_reports_enomem`: for a descriptor that is not open it says `ENOMEM`.
-/

namespace CannedBsd

open CannedBsd.Lib

/-- The slots of a task. -/
abbrev Table := Fin cbMaxFds → Option FdEntry

namespace Table

/-- The lowest empty slot. -/
def lowest (T : Table) : Option (Fin cbMaxFds) := (List.finRange cbMaxFds).find? fun d => (T d).isNone

theorem lowest_eq_none {T : Table} : T.lowest = none ↔ ∀ d, T d ≠ none := by
  rw [lowest, List.find?_eq_none]
  simp only [List.mem_finRange, true_implies, Option.isNone_iff_eq_none, ne_eq]

theorem lowest_eq_some {T : Table} {d : Fin cbMaxFds} :
    T.lowest = some d ↔ T d = none ∧ ∀ e, e < d → T e ≠ none := by
  rw [lowest, List.find?_eq_some_iff_getElem]
  simp only [Option.isNone_iff_eq_none, List.getElem_finRange, List.length_finRange]
  refine and_congr_right fun _ => ⟨?_, fun h => ?_⟩
  · rintro ⟨i, hi, rfl, hbelow⟩ e he
    simpa [Option.isSome_iff_ne_none] using hbelow e.val he
  · refine ⟨d.val, d.isLt, rfl, fun j hj => ?_⟩
    simpa [Option.isSome_iff_ne_none] using h ⟨j, by omega⟩ hj

/-- Which slots are empty decides the lowest one. -/
theorem lowest_congr {T T' : Table} (h : ∀ d, (T' d).isNone = (T d).isNone) : T'.lowest = T.lowest := by
  rw [lowest, lowest]
  congr 1
  funext d
  exact h d

/-- The descriptors of a new pipe: the two lowest empty slots. -/
def pipeAnswer (T : Table) (granted : Site → Bool) : Except Errno (Fin cbMaxFds × Fin cbMaxFds) :=
  if (granted .pipe && granted .reader && granted .writer) = false then .error .enomem
  else
    match T.lowest with
    | none => .error .emfile
    | some r =>
      match lowest (Function.update T r (some ⟨0, false⟩)) with
      | none => .error .emfile
      | some w => .ok (r, w)

theorem two_lowest {T : Table} {r w : Fin cbMaxFds} {entry : FdEntry} (hr : T.lowest = some r)
    (hw : lowest (Function.update T r (some entry)) = some w) : T r = none ∧ T w = none ∧ r ≠ w := by
  obtain ⟨hfree, -⟩ := lowest_eq_some.mp hr
  obtain ⟨hfree', -⟩ := lowest_eq_some.mp hw
  have hne : r ≠ w := by
    rintro rfl
    rw [Function.update_self] at hfree'
    cases hfree'
  rw [Function.update_of_ne hne.symm] at hfree'
  exact ⟨hfree, hfree', hne⟩

/-- Two slots are empty. -/
def TwoFree (T : Table) : Prop := ∃ r w, r ≠ w ∧ T r = none ∧ T w = none

/-- All three allocations of `api_pipe` succeed. -/
def PipeGranted (granted : Site → Bool) : Prop :=
  granted .pipe = true ∧ granted .reader = true ∧ granted .writer = true

/-- A refused allocation comes first, then a table without two empty slots. -/
theorem pipeAnswer_cases (T : Table) (granted : Site → Bool) :
    (T.pipeAnswer granted = .error .enomem ∧ ¬ PipeGranted granted) ∨
    (T.pipeAnswer granted = .error .emfile ∧ PipeGranted granted ∧ ¬ T.TwoFree) ∨
    ∃ r w, T.pipeAnswer granted = .ok (r, w) ∧ PipeGranted granted ∧ T.TwoFree := by
  have hgranted : (granted .pipe && granted .reader && granted .writer) = true ↔ PipeGranted granted := by
    rw [PipeGranted, Bool.and_eq_true, Bool.and_eq_true, and_assoc]
  rw [pipeAnswer]
  split
  · rename_i hrefused
    refine .inl ⟨rfl, fun h => ?_⟩
    rw [hgranted.mpr h] at hrefused
    cases hrefused
  rename_i hall
  have hg : PipeGranted granted := hgranted.mp (Bool.eq_true_of_not_eq_false hall)
  split
  · rename_i hfull
    refine .inr (.inl ⟨rfl, hg, ?_⟩)
    rintro ⟨r, w, -, hr, -⟩
    exact lowest_eq_none.mp hfull r hr
  rename_i r hr
  split
  · -- only the slot `r` is empty
    rename_i hfull
    refine .inr (.inl ⟨rfl, hg, ?_⟩)
    rintro ⟨r', w', hne, hr', hw'⟩
    have hone : ∀ d, T d = none → d = r := by
      intro d hd
      by_contra hdr
      apply lowest_eq_none.mp hfull d
      rw [Function.update_of_ne hdr]
      exact hd
    exact hne ((hone r' hr').trans (hone w' hw').symm)
  · rename_i w hw
    obtain ⟨hrfree, hwfree, hne⟩ := two_lowest hr hw
    exact .inr (.inr ⟨r, w, rfl, hg, r, w, hne, hrfree, hwfree⟩)

/-- A spawn action on a table: what it makes of it, or why it is not valid. -/
def act (T : Table) (action : SpawnAction) : Except Errno Table :=
  if action.versionOk = false then .error .einval
  else
    match action.type with
    | .dup2 =>
      match fdSlot action.fromFd, fdSlot action.toFd with
      | some source, some target =>
        match T source with
        | none => .error .ebadf
        | some entry => .ok (Function.update T target (some ⟨entry.file, false⟩))
      | _, _ => .error .ebadf
    | .close =>
      match fdSlot action.fromFd with
      | none => .ok T
      | some d => .ok (Function.update T d none)
    | .other => .error .einval

/-- The actions in order, up to the first that is not valid. -/
def acts (T : Table) : List SpawnAction → Except Errno Table
  | [] => .ok T
  | action :: actions =>
    match T.act action with
    | .error e => .error e
    | .ok T => acts T actions

/-- An action that is not valid is a bad argument or a bad descriptor. -/
theorem act_error {T : Table} {action : SpawnAction} {e : Errno} (h : T.act action = .error e) :
    e = .einval ∨ e = .ebadf := by
  unfold act at h
  split at h
  · cases h
    exact .inl rfl
  split at h
  · split at h
    · split at h
      · cases h
        exact .inr rfl
      · cases h
    · cases h
      exact .inr rfl
  · split at h
    · cases h
    · cases h
  · cases h
    exact .inl rfl

theorem acts_error {T : Table} {actions : List SpawnAction} {e : Errno} (h : T.acts actions = .error e) :
    e = .einval ∨ e = .ebadf := by
  induction actions generalizing T with
  | nil => cases h
  | cons action actions ih =>
    rw [acts] at h
    split at h
    · rename_i e' hact
      cases h
      exact act_error hact
    · exact ih h

end Table

variable {gone : NodeId → Prop} {k k' : Kernel} {fl : Flight} {t : TaskId}

/-! ### Slots after the calls -/

theorem slot_setSlot_table (hu : Unparked k t) (d : Fin cbMaxFds) (entry : Option FdEntry) :
    (k.setSlot t d entry).slot t = Function.update (k.slot t) d entry := by
  obtain ⟨task, ht, -⟩ := hu
  funext d'
  rw [slot_setSlot ht, Function.update_apply]

theorem slot_fdCloseSlot_table (hu : Unparked k t) (d : Fin cbMaxFds) :
    (fdCloseSlot k t d).slot t = Function.update (k.slot t) d none := by
  funext d'
  rw [slot_fdCloseSlot hu, Function.update_apply]

theorem fdInstallAt_eq (k : Kernel) (t : TaskId) (f : FileId) (d : Fin cbMaxFds) :
    fdInstallAt k t f d true = (cbOpenFileRetain (fdCloseSlot k t d) f).setSlot t d (some ⟨f, false⟩) := by
  rw [fdInstallAt, fdCloseSlot]
  cases k.slot t d <;> rfl

theorem slot_fdInstallAt_table (hu : Unparked k t) (f : FileId) (d : Fin cbMaxFds) :
    (fdInstallAt k t f d true).slot t = Function.update (k.slot t) d (some ⟨f, false⟩) := by
  have hclosed : Unparked (fdCloseSlot k t d) t := hu.steady (steady_fdCloseSlot k t d)
  have hu' : Unparked (cbOpenFileRetain (fdCloseSlot k t d) f) t := hclosed
  have hret : (cbOpenFileRetain (fdCloseSlot k t d) f).slot t = (fdCloseSlot k t d).slot t := rfl
  rw [fdInstallAt_eq, slot_setSlot_table hu', hret, slot_fdCloseSlot_table hu, Function.update_idem]

theorem fileOf_of_slot {d : Fin cbMaxFds} {entry : FdEntry} {descriptor : ℤ} (hb : Base k fl) (hu : Unparked k t)
    (hd : fdSlot descriptor = some d) (hslot : k.slot t d = some entry) :
    ∃ file, fileOf k t descriptor = some (entry.file, file) := by
  obtain ⟨task, ht, -⟩ := hu
  obtain ⟨file, hlive⟩ := hb.books.slot_live ht ((slot_eq ht).symm.trans hslot)
  refine ⟨file, ?_⟩
  unfold fileOf
  rw [hd]
  dsimp only
  rw [hslot]
  dsimp only
  rw [hlive]
  rfl

theorem fileOf_eq_none (hslot : ∀ d, fdSlot descriptor = some d → k.slot t d = none) :
    fileOf k t descriptor = none := by
  unfold fileOf
  split
  · rfl
  · rename_i d hd
    rw [hslot d hd]

theorem fdInstall_some {d : Fin cbMaxFds} {f : FileId} (hu : Unparked k t) (hd : Table.lowest (k.slot t) = some d) :
    fdInstall k t f = (k.setSlot t d (some ⟨f, false⟩), some d) := by
  obtain ⟨task, ht, -⟩ := hu
  have hfree : freeSlot task = some d := by
    rw [← hd]
    exact Table.lowest_congr fun d => by rw [slot_eq ht]
  rw [fdInstall, ht, Option.bind_some, hfree]

theorem fdInstall_none {f : FileId} (hu : Unparked k t) (hd : Table.lowest (k.slot t) = none) :
    fdInstall k t f = (k.setError t Errno.emfile.code, none) := by
  obtain ⟨task, ht, -⟩ := hu
  have hfree : freeSlot task = none := by
    rw [← hd]
    exact Table.lowest_congr fun d => by rw [slot_eq ht]
  rw [fdInstall, ht, Option.bind_some, hfree]

theorem slot_setError (k : Kernel) (t : TaskId) (e : ℤ) : (k.setError t e).slot t = k.slot t := by
  funext d
  rw [Kernel.slot, Kernel.slot, Kernel.setError]
  cases ht : k.task t with
  | none =>
    have hnone : (k.setTask t fun task => { task with errorCell := e }).task t = none := by
      rw [Kernel.task_setTask, if_pos rfl, ht]
      rfl
    rw [hnone]
  | some task =>
    rw [Kernel.task_setTask_self _ ht]
    rfl

theorem slot_cbOpenFileRelease (k : Kernel) (f : FileId) : (cbOpenFileRelease k f).slot t = k.slot t :=
  funext ((resting_cbOpenFileRelease k f).slot t)

/-! ### New pipes -/

/-- The end of `api_pipe`: the ends get descriptors. -/
def installPipe (k : Kernel) (t : TaskId) (reader writer : FileId) : Kernel × Outcome :=
  match fdInstall k t reader with
  | (k, none) => (cbOpenFileRelease (cbOpenFileRelease k reader) writer, .fail .emfile)
  | (k, some r) =>
    match fdInstall k t writer with
    | (k, none) => (cbOpenFileRelease (fdCloseSlot k t r) writer, .fail .emfile)
    | (k, some w) => (k, .done (.done 0) (.descriptors r.val w.val))

theorem installPipe_table (reader writer : FileId) (hu : Unparked k t) :
    match Table.pipeAnswer (k.slot t) fun _ => true with
    | .error e => (installPipe k t reader writer).2 = .fail e ∧ (installPipe k t reader writer).1.slot t = k.slot t
    | .ok (r, w) => (installPipe k t reader writer).2 = .done (.done 0) (.descriptors r.val w.val) ∧
      (installPipe k t reader writer).1.slot t =
        Function.update (Function.update (k.slot t) r (some ⟨reader, false⟩)) w (some ⟨writer, false⟩) := by
  rw [Table.pipeAnswer, if_neg (by decide), installPipe]
  cases hr : Table.lowest (k.slot t) with
  | none =>
    rw [fdInstall_none hu hr]
    refine ⟨rfl, ?_⟩
    dsimp only
    rw [slot_cbOpenFileRelease, slot_cbOpenFileRelease, slot_setError]
  | some r =>
    rw [fdInstall_some hu hr]
    have hu' : Unparked (k.setSlot t r (some ⟨reader, false⟩)) t := by
      obtain ⟨task, ht, hpark⟩ := hu
      exact ⟨_, Kernel.task_setTask_self _ ht, hpark⟩
    have hslot := slot_setSlot_table hu r (some ⟨reader, false⟩)
    have hlow : Table.lowest ((k.setSlot t r (some ⟨reader, false⟩)).slot t) =
        Table.lowest (Function.update (k.slot t) r (some ⟨0, false⟩)) := by
      rw [hslot]
      refine Table.lowest_congr fun d => ?_
      rw [Function.update_apply, Function.update_apply]
      split
      · rfl
      · rfl
    dsimp only
    rw [← hlow]
    cases hw : Table.lowest ((k.setSlot t r (some ⟨reader, false⟩)).slot t) with
    | none =>
      rw [fdInstall_none hu' hw]
      refine ⟨rfl, ?_⟩
      have hu'' : Unparked ((k.setSlot t r (some ⟨reader, false⟩)).setError t Errno.emfile.code) t := by
        obtain ⟨task, ht, hpark⟩ := hu'
        exact ⟨_, Kernel.task_setTask_self _ ht, hpark⟩
      obtain ⟨hfree, -⟩ := Table.lowest_eq_some.mp hr
      dsimp only
      rw [slot_cbOpenFileRelease, slot_fdCloseSlot_table hu'', slot_setError, hslot, Function.update_idem, ← hfree,
        Function.update_eq_self]
    | some w =>
      rw [fdInstall_some hu' hw]
      refine ⟨rfl, ?_⟩
      dsimp only
      rw [slot_setSlot_table hu', hslot]

/-- `pipe` fills the two lowest empty slots with a reader and a writer, or leaves the table alone. -/
theorem apiPipe_table (h : Host) (hu : Unparked k t) :
    match Table.pipeAnswer (k.slot t) h.allocate with
    | .error e => (apiPipe h k t).2 = .fail e ∧ (apiPipe h k t).1.slot t = k.slot t
    | .ok (r, w) => (apiPipe h k t).2 = .done (.done 0) (.descriptors r.val w.val) ∧
      (apiPipe h k t).1.slot t =
        Function.update (Function.update (k.slot t) r (some ⟨k.files.next, false⟩)) w
          (some ⟨k.files.next + 1, false⟩) := by
  rw [apiPipe, Table.pipeAnswer]
  cases hfirst : h.allocate .pipe && h.allocate .reader with
  | false => exact ⟨rfl, rfl⟩
  | true =>
  rw [Bool.not_true, if_neg Bool.false_ne_true, Bool.true_and]
  dsimp only [cbOpenFileCreate]
  cases h.allocate .writer with
  | false => exact ⟨rfl, (slot_cbOpenFileRelease _ _).trans rfl⟩
  | true =>
  set k₁ : Kernel :=
    { k with
      pipes := k.pipes.alloc freshPipe
      files := k.files.alloc ⟨1, readFlags, 0, .pipeRead k.pipes.next⟩ } with hk₁
  set k₂ : Kernel := { k₁ with files := k₁.files.alloc ⟨1, writeFlags, 0, .pipeWrite k.pipes.next⟩ }.setPipe
    k.pipes.next fun pipe => { pipe with writers := 1 } with hk₂
  have hslot : k₂.slot t = k.slot t := rfl
  have htail := @installPipe_table k₂ t k.files.next (k.files.next + 1) hu
  rw [Table.pipeAnswer, if_neg (by decide), hslot] at htail
  rw [Bool.not_true, if_neg Bool.false_ne_true, if_neg (by decide), Heap.next_alloc]
  exact htail

/-! ### The actions of a spawn -/

/-- One action: it is refused for the reason the table gives, or the rest goes on with the new table. -/
theorem taskApplyActions_cons (action : SpawnAction) (actions : List SpawnAction) (hb : Base k fl)
    (hu : Unparked k t) :
    (∃ e k', Table.act (k.slot t) action = .error e ∧ taskApplyActions t k (action :: actions) = (k', false)) ∨
    ∃ k', Table.act (k.slot t) action = .ok (k'.slot t) ∧
      taskApplyActions t k (action :: actions) = taskApplyActions t k' actions ∧ Path gone k fl k' fl := by
  rw [taskApplyActions]
  unfold Table.act
  cases hversion : action.versionOk with
  | false => exact .inl ⟨_, _, rfl, rfl⟩
  | true =>
  simp only [Bool.not_true, Bool.false_eq_true, if_false, Bool.true_eq_false]
  cases action.type with
  | other => exact .inl ⟨_, _, rfl, rfl⟩
  | close =>
    dsimp only
    cases hd : fdSlot action.fromFd with
    | none => exact .inr ⟨k, rfl, rfl, .refl k fl⟩
    | some d =>
      refine .inr ⟨fdCloseSlot k t d, ?_, rfl, fdCloseSlot_path hb hu⟩
      rw [slot_fdCloseSlot_table hu]
  | dup2 =>
    dsimp only
    cases hs : fdSlot action.fromFd with
    | none =>
      have hfile : fileOf k t action.fromFd = none := fileOf_eq_none fun d hd => by rw [hs] at hd; cases hd
      rw [hfile]
      exact .inl ⟨_, _, rfl, rfl⟩
    | some source =>
    cases hslot : k.slot t source with
    | none =>
      have hfile : fileOf k t action.fromFd = none := by
        refine fileOf_eq_none fun d hd => ?_
        rw [hs, Option.some.injEq] at hd
        rw [← hd, hslot]
      rw [hfile]
      refine .inl ⟨.ebadf, _, ?_, rfl⟩
      cases fdSlot action.toFd with
      | none => rfl
      | some target =>
        dsimp only
        rw [hslot]
    | some entry =>
    obtain ⟨file, hfile⟩ := fileOf_of_slot hb hu hs hslot
    rw [hfile]
    cases htarget : fdSlot action.toFd with
    | none => exact .inl ⟨_, _, rfl, rfl⟩
    | some target =>
      dsimp only
      rw [hslot]
      dsimp only
      by_cases heq : action.fromFd = action.toFd
      · -- the slot keeps its file, and its flag is cleared
        rw [if_pos heq]
        rw [heq, htarget, Option.some.injEq] at hs
        rw [← hs] at hslot
        obtain ⟨task, ht, -⟩ := id hu
        refine .inr ⟨_, ?_, rfl, setSlot_same ht hu ((slot_eq ht).symm.trans hslot) rfl⟩
        rw [slot_setSlot_table hu]
      · rw [if_neg heq]
        refine .inr ⟨_, ?_, rfl, fdInstallAt_path hb hu hslot rfl (fdSlot_ne hs htarget heq)⟩
        rw [slot_fdInstallAt_table hu]

/-- `task_apply_actions` applies the actions to the table, and fails where one is not valid. -/
theorem taskApplyActions_table (actions : List SpawnAction) (hb : Base k fl) (hu : Unparked k t) :
    (∃ k', taskApplyActions t k actions = (k', true) ∧ Table.acts (k.slot t) actions = .ok (k'.slot t)) ∨
    ∃ k' e, taskApplyActions t k actions = (k', false) ∧ Table.acts (k.slot t) actions = .error e := by
  induction actions generalizing k with
  | nil => exact .inl ⟨k, rfl, rfl⟩
  | cons action actions ih =>
    obtain ⟨e, k', hact, heq⟩ | ⟨k', hact, heq, hpath⟩ :
        _ ∨ ∃ k', _ ∧ _ ∧ Path (fun _ => False) k fl k' fl := taskApplyActions_cons action actions hb hu
    · refine .inr ⟨k', e, heq, ?_⟩
      rw [Table.acts, hact]
    · rw [heq, Table.acts, hact]
      exact ih (hpath.base hb) (hu.steady hpath.steady)

/-- A child starts with the table of its parent. -/
theorem slot_inheritDescriptors {parent : Task} (hu : Unparked k t) (hslots : ∀ d, k.slot t d = none) :
    (inheritDescriptors k t parent).slot t = parent.descriptors := by
  have hloop : ∀ (todo : List (Fin cbMaxFds)) (k : Kernel), Unparked k t → ∀ e,
      (todo.foldl (fun k d =>
        match parent.descriptors d with
        | none => k
        | some entry => (cbOpenFileRetain k entry.file).setSlot t d (some entry)) k).slot t e =
      if e ∈ todo then (parent.descriptors e).or (k.slot t e) else k.slot t e := by
    intro todo
    induction todo with
    | nil => exact fun k _ e => rfl
    | cons d todo ih =>
      intro k hu e
      rw [List.foldl_cons]
      cases hd : parent.descriptors d with
      | none =>
        rw [ih k hu e]
        by_cases hed : e = d
        · simp [hed, hd]
        · simp [hed]
      | some entry =>
        dsimp only
        have hu' : Unparked (cbOpenFileRetain k entry.file) t := hu
        have hlive : Unparked ((cbOpenFileRetain k entry.file).setSlot t d (some entry)) t := by
          obtain ⟨task, ht, hpark⟩ := hu'
          exact ⟨_, Kernel.task_setTask_self _ ht, hpark⟩
        have hret : (cbOpenFileRetain k entry.file).slot t = k.slot t := rfl
        rw [ih _ hlive e, slot_setSlot_table hu', hret, Function.update_apply]
        by_cases hed : e = d
        · simp [hed, hd]
        · simp [hed]
  funext e
  refine (hloop _ k hu e).trans ?_
  rw [if_pos (List.mem_finRange e), hslots, Option.or_none]

theorem slot_buildTask {task : Task} (hp : k.task t = some task) (program : Option ProgramId)
    (argv environment : List Bytes) :
    (buildTask k (some task) program argv environment).slot k.tasks.next = k.slot t := by
  have hself : (withTask k (some task) program argv environment).task k.tasks.next =
      some (newTask (k.nextPid + 1) (some task) program argv environment (startRoot k (some task))
        (startCwd k (some task))) := by
    rw [task_withTask, if_pos rfl]
  have hu : Unparked (withTask k (some task) program argv environment) k.tasks.next := ⟨_, hself, .inr rfl⟩
  have hempty : ∀ d, (withTask k (some task) program argv environment).slot k.tasks.next d = none := by
    intro d
    rw [slot_eq hself]
    rfl
  refine (slot_inheritDescriptors hu hempty).trans ?_
  funext d
  exact (slot_eq hp).symm

/-! ### What a spawn reports -/

/-- With the memory it needs, `task_create` makes a child exactly when the actions are valid, and the
child has the table they make. -/
theorem taskCreate_table {task : Task} (h : Host) (hall : ∀ site, h.allocate site = true) (hb : Base k fl)
    (hl : fl.limbo = none) (ht : k.task t = some task) {program : Option ProgramId} (hprogram : program ≠ none)
    {argv : List Bytes} (hargv : argv.length ≤ intMax) (envp : Option (List Bytes)) (actions : List SpawnAction) :
    (∃ k' child, taskCreate h k (some t) program argv envp actions = (k', some k.tasks.next) ∧
      k'.task k.tasks.next = some child ∧ k.tasks.next ∈ k'.order ∧
      Table.acts (k.slot t) actions = .ok child.descriptors) ∨
    ∃ k' e, taskCreate h k (some t) program argv envp actions = (k', none) ∧
      Table.acts (k.slot t) actions = .error e := by
  have hstart : taskCreate h k (some t) program argv envp actions =
      settleTask h (some t) program k.tasks.next (taskApplyActions k.tasks.next
        (buildTask k (some task) program argv (envp.getD task.environment)) actions) := by
    rw [taskCreate, if_neg (not_lt.mpr hargv), if_neg (by simp [hall])]
    dsimp only
    rw [if_neg (by simp [hall])]
    show settleTask h (some t) program k.tasks.next (taskApplyActions k.tasks.next
      (buildTask k ((some t).bind k.task) program argv
        (envp.getD ((((some t).bind k.task).map Task.environment).getD []))) actions) = _
    rw [Option.bind_some, ht]
    rfl
  have hp : ∀ task', some task = some task' → ∃ p, k.task p = some task' := by
    intro task' heq
    rw [← heq]
    exact ⟨t, ht⟩
  obtain ⟨hbuild, -, hnew, -⟩ :
      Moves (fun _ => False) k fl (buildTask k (some task) program argv (envp.getD task.environment)) _ ∧ _ :=
    buildTask_moves program argv (envp.getD task.environment) hb hl hp
  have hb' := hb.moves hbuild
  have hpath : Path (fun _ => False) _ _ _ _ := taskApplyActions_path actions hb' hnew.unparked
  obtain ⟨child, hchild, -⟩ := hnew.steady hpath.steady
  have hacts := taskApplyActions_table actions hb' hnew.unparked
  rw [slot_buildTask ht] at hacts
  rw [hstart]
  obtain ⟨k', heq, htable⟩ | ⟨k', e, heq, htable⟩ := hacts
  · rw [heq] at hchild
    rw [heq, settleTask, if_neg (by rw [hall]; simp [hprogram])]
    refine .inl ⟨_, { child with execution := child.program }, rfl, Kernel.task_setTask_self _ hchild,
      List.mem_cons_self, ?_⟩
    have hslots : k'.slot k.tasks.next = child.descriptors := funext fun d => slot_eq hchild
    rw [htable, hslots]
  · rw [heq]
    exact .inr ⟨_, e, rfl, htable⟩

theorem slot_retainNode (k : Kernel) (o : Option NodeId) : (retainNode k o).slot t = k.slot t := rfl

/-- With the memory it needs and a program, `spawn` makes a child with the table of the actions, or it
says `ENOMEM`. -/
theorem apiSpawn_table (h : Host) (hall : ∀ site, h.allocate site = true) (hb : Base k fl) (hl : fl.limbo = none)
    (hc : k.current = some t) {programName : Bytes} {n : NodeId}
    (hres : resolveExecutableNode k.vfs (k.viewOf t) programName = .ok n) {argv : List Bytes} (hne : argv ≠ [])
    (hargv : argv.length ≤ intMax) (envp : Option (List Bytes)) (actions : List SpawnAction) :
    (∃ k' task, apiSpawn h k t programName argv envp actions = (k', .done (.done 0) (.pid task.pid)) ∧
      k'.task k.tasks.next = some task ∧ k.tasks.next ∈ k'.order ∧
      Table.acts (k.slot t) actions = .ok task.descriptors) ∨
    ∃ k' e, apiSpawn h k t programName argv envp actions = (k', .fail .enomem) ∧
      Table.acts (k.slot t) actions = .error e := by
  obtain ⟨-, task, ht, -⟩ := hb.roster.current hc
  obtain ⟨node, hn, -⟩ := executableNode_rooted (hb.resolves (.of_current hb hc)) hres
  have hretain : Path (fun _ => False) k fl (retainNode k (some n)) (fl.addNode (some n)) := retainNode_path hn
  obtain ⟨p, hp⟩ := executableOf_resolved hb.stock hres
  have hprogram : executableOf k n ≠ none := by
    rw [hp]
    exact Option.some_ne_none p
  have ht' : (retainNode k (some n)).task t = some task := ht
  have hcreate := taskCreate_table h hall (hretain.base hb) hl ht' hprogram hargv envp actions
  rw [slot_retainNode] at hcreate
  rw [apiSpawn, if_neg hne, if_neg (not_lt.mpr hargv), hres]
  dsimp only
  obtain ⟨k', child, heq, hchild, hmem, htable⟩ | ⟨k', e, heq, htable⟩ := hcreate
  · have hpid : ((k'.task (retainNode k (some n)).tasks.next).map Task.pid).getD 0 = child.pid := by
      rw [hchild]
      rfl
    rw [heq]
    dsimp only
    rw [hpid]
    exact .inl ⟨_, { child with executableNode := some n }, rfl, Kernel.task_setTask_self _ hchild, hmem, htable⟩
  · rw [heq]
    exact .inr ⟨_, e, rfl, htable⟩

/-- `spawn` tells its caller why it failed. -/
def ReportsCause (h : Host) (k : Kernel) (t : TaskId) (programName : Bytes) (argv : List Bytes)
    (envp : Option (List Bytes)) (actions : List SpawnAction) : Prop :=
  match Table.acts (k.slot t) actions with
  | .ok table =>
    ∃ child task, (apiSpawn h k t programName argv envp actions).1.task child = some task ∧
      child ∈ (apiSpawn h k t programName argv envp actions).1.order ∧ child ∉ k.order ∧
      (apiSpawn h k t programName argv envp actions).2 = .done (.done 0) (.pid task.pid) ∧ task.descriptors = table
  | .error e => (apiSpawn h k t programName argv envp actions).2 = .fail e

/-- **Spawn and its actions.**  With the memory it needs and a program, `spawn` reports what the actions
deserve if and only if all of them are valid. -/
theorem spawn_reports_iff (hr : Reachable k) (hc : k.current = some t) (h : Host)
    (hall : ∀ site, h.allocate site = true) {programName : Bytes} {n : NodeId}
    (hres : resolveExecutableNode k.vfs (k.viewOf t) programName = .ok n) {argv : List Bytes} (hne : argv ≠ [])
    (hargv : argv.length ≤ intMax) (envp : Option (List Bytes)) (actions : List SpawnAction) :
    ReportsCause h k t programName argv envp actions ↔ ∃ table, Table.acts (k.slot t) actions = .ok table := by
  obtain ⟨l, hb⟩ := hr.base
  have hfresh : k.tasks.next ∉ k.order := by
    intro hmem
    obtain ⟨task, ht⟩ := hb.roster.live hmem
    rw [Kernel.task, Heap.get_next] at ht
    cases ht
  unfold ReportsCause
  obtain ⟨k', task, heq, ht, hmem, htable⟩ | ⟨k', e, heq, htable⟩ :=
    apiSpawn_table h hall hb rfl hc hres hne hargv envp actions
  · rw [htable, heq]
    exact iff_of_true ⟨k.tasks.next, task, ht, hmem, hfresh, rfl, rfl⟩ ⟨_, rfl⟩
  · -- the reason stays in the error cell of the child that is taken apart
    rw [htable, heq]
    refine iff_of_false ?_ ?_
    · intro hfail
      rcases Table.acts_error htable with rfl | rfl
      · cases hfail
      · cases hfail
    · rintro ⟨table, hok⟩
      cases hok

/-- The shell spawns itself with its output as the input. -/
theorem spawn_reports_shell :
    ReportsCause .calm (stateAfter shellStart) 0 shName [shName] none [⟨true, .close, 0, 0⟩, ⟨true, .dup2, 1, 0⟩] := by
  have hres : resolveExecutableNode (stateAfter shellStart).vfs ((stateAfter shellStart).viewOf 0) shName = .ok 5 := by
    decide +kernel
  refine (spawn_reports_iff (reachable_stateAfter _) (by decide +kernel) .calm (fun _ => rfl) hres (by decide)
    (by decide) none _).mpr ?_
  cases hacts : Table.acts ((stateAfter shellStart).slot 0) [⟨true, .close, 0, 0⟩, ⟨true, .dup2, 1, 0⟩] with
  | ok table => exact ⟨table, rfl⟩
  | error e =>
    have hok : (Table.acts ((stateAfter shellStart).slot 0) [⟨true, .close, 0, 0⟩, ⟨true, .dup2, 1, 0⟩]).isOk = true := by
      decide +kernel
    rw [hacts] at hok
    cases hok

/-- Descriptor 9 is not open, and `spawn` says `ENOMEM`. -/
theorem spawn_reports_enomem :
    Reachable (stateAfter shellStart) ∧ (stateAfter shellStart).current = some 0 ∧
      (apiSpawn .calm (stateAfter shellStart) 0 shName [shName] none [⟨true, .dup2, 9, 0⟩]).2 = .fail .enomem ∧
      ¬ ReportsCause .calm (stateAfter shellStart) 0 shName [shName] none [⟨true, .dup2, 9, 0⟩] := by
  have hout : (apiSpawn .calm (stateAfter shellStart) 0 shName [shName] none [⟨true, .dup2, 9, 0⟩]).2 =
      .fail .enomem := by decide +kernel
  refine ⟨reachable_stateAfter _, by decide +kernel, hout, fun hreports => ?_⟩
  have hwhy : (match Table.acts ((stateAfter shellStart).slot 0) [⟨true, .dup2, 9, 0⟩] with
      | .ok _ => none
      | .error e => some e) = some Errno.ebadf := by decide +kernel
  unfold ReportsCause at hreports
  split at hwhy
  · cases hwhy
  · rename_i e hacts
    rw [hacts, hout] at hreports
    cases hwhy
    cases hreports

end CannedBsd
