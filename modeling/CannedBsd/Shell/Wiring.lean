import CannedBsd.Shell.Reaping

/-!
# The wiring of a pipeline

`run_pipeline` opens all redirections and makes all pipes in the shell before it spawns the first stage.
Every child inherits them, and a list of actions puts two of them in their places and closes others. Here
the table of the shell is followed through the loops, with the descriptors that the calls returned and the
tables of the children.

* `stageActions_files`: the actions of a stage put its sources in place and close the pipes and its
  redirections.
* `runStages_tableLog`: behind the loops the table is that of a wired pipeline, or of one that broke off at a
  redirection.
-/

namespace CannedBsd

open CannedBsd.Lib

namespace Shell

/-! ### What the log says -/

/-- Whether an `open` succeeded. -/
def openOf (call : TableCall) (a : Answer) : Option Bool :=
  match call with
  | .op (.openPath _ _ _) => some (decide (0 ≤ a.value))
  | _ => none

/-- The open file that an `open` made. -/
def fileOf (call : TableCall) (a : Answer) (T : Table) : Set FileId :=
  {f | openOf call a = some true ∧ ∃ d : Fin cbMaxFds, a.value = d.val ∧ T.files d = some f}

/-- The descriptors that a call returned. -/
def issuedOf (call : TableCall) (a : Answer) : Set ℤ :=
  match call with
  | .op (.openPath _ _ _) => {x | 0 ≤ x ∧ a.value = x}
  | .op (.dup _) => {x | 0 ≤ x ∧ a.value = x}
  | .op .pipe => {x | 0 ≤ a.value ∧ ∃ r w : ℕ, a.out = .descriptors r w ∧ (x = r ∨ x = w)}
  | _ => ∅

/-- The descriptor that a call is to close. -/
def closedOf : TableCall → Set ℤ
  | .op (.close descriptor) => {descriptor}
  | _ => ∅

/-- The files of the child that a `spawn` made. -/
def childOf (call : TableCall) (a : Answer) (child : Option Table) : Option (Option Files) :=
  match call with
  | .op (.spawn _ _ _ _) => if 0 ≤ a.value then some (child.map Table.files) else none
  | _ => none

/-- The calls of `open` in order, with their success. -/
def opens (log : List Note) : List Bool := log.filterMap fun note => openOf note.call note.answer

def openedFiles (log : List Note) : Set FileId := {f | ∃ note ∈ log, f ∈ fileOf note.call note.answer note.table}

def issued (log : List Note) : Set ℤ := {x | ∃ note ∈ log, x ∈ issuedOf note.call note.answer}

def closed (log : List Note) : Set ℤ := {x | ∃ note ∈ log, x ∈ closedOf note.call}

/-- The files of the children in the order of their spawns. -/
def children (log : List Note) : List (Option Files) := log.filterMap fun note => childOf note.call note.answer note.child

theorem exists_mem_snoc {α β : Type} {f : α → Set β} {xs : List α} {x : α} :
    {b | ∃ y ∈ xs ++ [x], b ∈ f y} = {b | ∃ y ∈ xs, b ∈ f y} ∪ f x := by
  ext b
  constructor
  · rintro ⟨y, hmem, hy⟩
    rcases List.mem_append.mp hmem with hmem | hmem
    · exact .inl ⟨y, hmem, hy⟩
    · rw [List.mem_singleton.mp hmem] at hy
      exact .inr hy
  · rintro (⟨y, hmem, hy⟩ | hy)
    · exact ⟨y, List.mem_append_left _ hmem, hy⟩
    · exact ⟨x, List.mem_append_right _ (List.mem_singleton_self x), hy⟩

/-- The table of the shell and what the log says. -/
structure TableLog (v : Purview) (F : Files) (os : List Bool) (O : Set FileId) (I K : Set ℤ) (cs : List (Option Files)) :
    Prop where
  files : v.table.files = F
  opens : Shell.opens v.log = os
  opened : openedFiles v.log = O
  issued : Shell.issued v.log = I
  closed : Shell.closed v.log = K
  children : Shell.children v.log = cs

variable {t : TaskId} {v v' : Purview} {F G H : Files} {os : List Bool} {O : Set FileId} {I K : Set ℤ}
  {cs : List (Option Files)} {call : TableCall} {a : Answer}

/-- One call. -/
theorem TableLog.step (h : TableLog v F os O I K cs) (hs : v.Step t call a v') :
    ∃ new child, Admits t v.table v.deeds call a v'.table new child ∧
      TableLog v' v'.table.files (os ++ (openOf call a).toList) (O ∪ fileOf call a v'.table) (I ∪ issuedOf call a)
        (K ∪ closedOf call) (cs ++ (childOf call a child).toList) := by
  obtain ⟨new, child, hadmits, -, hlog⟩ := hs
  have hsnoc : ∀ {γ : Type} (f : Note → Option γ) (note : Note),
      (v.log ++ [note]).filterMap f = v.log.filterMap f ++ (f note).toList := by
    intro γ f note
    rw [List.filterMap_append]
    cases hf : f note <;> simp [hf]
  refine ⟨new, child, hadmits, rfl, ?_, ?_, ?_, ?_, ?_⟩
  · rw [Shell.opens, hlog, hsnoc, ← Shell.opens, h.opens]
  · rw [openedFiles, hlog, exists_mem_snoc, ← openedFiles, h.opened]
  · rw [Shell.issued, hlog, exists_mem_snoc, ← Shell.issued, h.issued]
  · rw [Shell.closed, hlog, exists_mem_snoc, ← Shell.closed, h.closed]
  · rw [Shell.children, hlog, hsnoc, ← Shell.children, h.children]

/-- A call that leaves nothing of this. -/
def TableCall.bland : TableCall → Bool
  | .op (.openPath _ _ _) => false
  | .op (.dup _) => false
  | .op .pipe => false
  | .op (.close _) => false
  | .op (.spawn _ _ _ _) => false
  | _ => true

theorem bland_nothing (h : TableCall.bland call = true) (a : Answer) (T : Table) (child : Option Table) :
    openOf call a = none ∧ fileOf call a T = ∅ ∧ issuedOf call a = ∅ ∧ closedOf call = ∅ ∧ childOf call a child = none := by
  have hopen : openOf call a = none := by
    cases call with
    | op op => cases op <;> first | rfl | cases h
    | _ => rfl
  refine ⟨hopen, ?_, ?_, ?_, ?_⟩
  · ext f
    refine ⟨fun hf => ?_, fun hf => hf.elim⟩
    rw [fileOf, hopen] at hf
    cases hf.1
  · cases call with
    | op op => cases op <;> first | rfl | cases h
    | _ => rfl
  · cases call with
    | op op => cases op <;> first | rfl | cases h
    | _ => rfl
  · cases call with
    | op op => cases op <;> first | rfl | cases h
    | _ => rfl

theorem TableLog.bland (h : TableLog v F os O I K cs) (hb : TableCall.bland call = true) (hs : v.Step t call a v')
    (hG : v'.table.files = G) : TableLog v' G os O I K cs := by
  obtain ⟨new, child, -, hnext⟩ := h.step hs
  obtain ⟨hopen, hfile, hissued, hclosed, hchild⟩ := bland_nothing hb a v'.table child
  rw [hopen, hfile, hissued, hclosed, hchild, Option.toList_none, Option.toList_none, List.append_nil, List.append_nil,
    Set.union_empty, Set.union_empty, Set.union_empty, hG] at hnext
  exact hnext

theorem TableLog.quiet (h : TableLog v F os O I K cs) (hq : call.quiet = true) (hs : v.Step t call a v') :
    TableLog v' F os O I K cs := by
  have hb : TableCall.bland call = true := by
    cases call with
    | op op => cases op <;> first | rfl | cases hq
    | _ => rfl
  refine h.bland hb hs ?_
  obtain ⟨new, child, hadmits, -, -⟩ := hs
  rw [(hadmits.quiet hq).1, h.files]

theorem TableLog.waitpid (h : TableLog v F os O I K cs) {pid : ℤ} (hs : v.Step t (.op (.waitpid pid)) a v') :
    TableLog v' F os O I K cs := by
  refine h.bland rfl hs ?_
  obtain ⟨new, child, hadmits, -, -⟩ := hs
  rw [hadmits.1, h.files]

theorem TableLog.close (h : TableLog v F os O I K cs) {descriptor : ℤ} (hs : v.Step t (.op (.close descriptor)) a v') :
    TableLog v' (emptied F (slotsOf descriptor)) os O I (insert descriptor K) cs := by
  obtain ⟨new, child, hadmits, hnext⟩ := h.step hs
  have hfile : fileOf (.op (.close descriptor)) a v'.table = ∅ := by
    ext f
    exact ⟨fun hf => (by cases hf.1), fun hf => hf.elim⟩
  have hfiles : v'.table.files = emptied F (slotsOf descriptor) := by
    rw [hadmits.2, Table.files_close, h.files]
  have hclosed : K ∪ closedOf (.op (.close descriptor)) = insert descriptor K := by
    rw [Set.union_comm]
    rfl
  rw [hfile, hfiles, hclosed] at hnext
  simpa [openOf, issuedOf, childOf] using hnext

theorem TableLog.open (h : TableLog v F os O I K cs) {path : Bytes} {flags : OpenFlags} {mode : ℕ}
    (hs : v.Step t (.op (.openPath path flags mode)) a v') :
    (a.value = -1 ∧ TableLog v' F (os ++ [false]) O I K cs) ∨
    ∃ (d : Fin cbMaxFds) (f : FileId), F d = none ∧ (∀ e, e < d → F e ≠ none) ∧ (∀ e, F e ≠ some f) ∧ a.value = d.val ∧
      TableLog v' (Function.update F d (some f)) (os ++ [true]) (insert f O) (insert (d.val : ℤ) I) K cs := by
  obtain ⟨new, child, ⟨-, hadmits⟩, hnext⟩ := h.step hs
  rcases hadmits with ⟨ha, htable⟩ | ⟨d, f, hlow, hlacks, ha, htable⟩
  · left
    refine ⟨ha, ?_⟩
    have hfile : fileOf (.op (.openPath path flags mode)) a v'.table = ∅ := by
      ext f
      refine ⟨fun hf => ?_, fun hf => hf.elim⟩
      have := hf.1
      simp [openOf, ha] at this
    have hissued : issuedOf (.op (.openPath path flags mode)) a = ∅ := by
      ext x
      refine ⟨fun hx => ?_, fun hx => hx.elim⟩
      have := hx.1
      have := hx.2
      omega
    rw [hfile, hissued, htable, h.files] at hnext
    simpa [openOf, closedOf, childOf, ha] using hnext
  · right
    have hfiles : v'.table.files = Function.update F d (some f) := by rw [htable, Table.files_update, h.files]
    have hfile : fileOf (.op (.openPath path flags mode)) a v'.table = {f} := by
      ext g
      rw [fileOf, hfiles]
      constructor
      · rintro ⟨-, e, he, hg⟩
        have hde : e = d := Fin.ext (by omega)
        rw [hde, Function.update_self] at hg
        exact (Option.some.inj hg).symm
      · rintro rfl
        refine ⟨?_, d, ha, Function.update_self ..⟩
        simp [openOf, ha]
    have hissued : issuedOf (.op (.openPath path flags mode)) a = {(d.val : ℤ)} := by
      ext x
      constructor
      · rintro ⟨-, hx⟩
        exact (ha.symm.trans hx).symm
      · rintro rfl
        exact ⟨by omega, ha⟩
    obtain ⟨hfree, hbelow⟩ := Table.lowest_files hlow
    have hfresh := hlacks.files
    rw [h.files] at hfree hbelow hfresh
    refine ⟨d, f, hfree, hbelow, hfresh, ha, ?_⟩
    rw [hfile, hissued, hfiles, Set.union_singleton, Set.union_singleton] at hnext
    simpa [openOf, closedOf, childOf, ha] using hnext

theorem TableLog.pipe (h : TableLog v F os O I K cs) (hs : v.Step t (.op .pipe) a v') :
    (a.value = -1 ∧ TableLog v' F os O I K cs) ∨
    ∃ (r w : Fin cbMaxFds) (f g : FileId), F r = none ∧ F w = none ∧ r ≠ w ∧ (∀ e, F e ≠ some f) ∧ (∀ e, F e ≠ some g) ∧
      a.value = 0 ∧ a.out = .descriptors r.val w.val ∧
      TableLog v' (Function.update (Function.update F r (some f)) w (some g)) os O (insert (r.val : ℤ) (insert (w.val : ℤ) I)) K
        cs := by
  obtain ⟨new, child, ⟨-, hadmits⟩, hnext⟩ := h.step hs
  have hfile : fileOf (.op .pipe) a v'.table = ∅ := by
    ext f
    exact ⟨fun hf => (by cases hf.1), fun hf => hf.elim⟩
  rcases hadmits with ⟨ha, htable⟩ | ⟨r, w, f, g, hr, hw, hne, hf, hg, ha, hout, htable⟩
  · left
    refine ⟨ha, ?_⟩
    have hissued : issuedOf (.op .pipe) a = ∅ := by
      ext x
      refine ⟨fun hx => ?_, fun hx => hx.elim⟩
      have := hx.1
      omega
    rw [hfile, hissued, htable, h.files] at hnext
    simpa [openOf, closedOf, childOf] using hnext
  · right
    have hissued : issuedOf (.op .pipe) a = {(r.val : ℤ), (w.val : ℤ)} := by
      ext x
      constructor
      · rintro ⟨-, r', w', hout', hx⟩
        rw [hout] at hout'
        cases hout'
        exact hx
      · intro hx
        exact ⟨by omega, r.val, w.val, hout, hx⟩
    have hfiles : v'.table.files = Function.update (Function.update F r (some f)) w (some g) := by
      rw [htable, Table.files_update, Table.files_update, h.files]
    have hf' := hf.files
    have hg' := hg.files
    rw [h.files] at hf' hg'
    refine ⟨r, w, f, g, ?_, ?_, hne, hf', hg', ha, hout, ?_⟩
    · rw [← h.files]
      exact Table.files_eq_none.mpr hr
    · rw [← h.files]
      exact Table.files_eq_none.mpr hw
    · have hI : I ∪ {(r.val : ℤ), (w.val : ℤ)} = insert (r.val : ℤ) (insert (w.val : ℤ) I) := by
        rw [Set.union_comm, Set.insert_union, Set.singleton_union]
      rw [hfile, hissued, hfiles, hI] at hnext
      simpa [openOf, closedOf, childOf] using hnext

theorem OnlyQuiet.tableLog {α : Type} {p : Script α} (hp : OnlyQuiet p) (h : TableLog v F os O I K cs) :
    p.wp (Purview.Step t) (fun _ v' => TableLog v' F os O I K cs) v :=
  Prog.Makes.wp hp h fun _ _ _ _ hv hq hs => hv.quiet hq hs

/-! ### Spawn actions -/

/-- What an action does to the files of the child. -/
noncomputable def afterAction (F : Files) (action : SpawnAction) : Files :=
  match action.type with
  | .dup2 =>
    match fdSlot action.fromFd, fdSlot action.toFd with
    | some source, some target => Function.update F target (F source)
    | _, _ => F
  | .close => emptied F (slotsOf action.fromFd)
  | .other => F

theorem act_files {T T' : Table} {action : SpawnAction} (h : T.act action = .ok T') :
    T'.files = afterAction T.files action := by
  rw [Table.act] at h
  split at h
  · cases h
  split at h
  · rename_i htype
    split at h
    · rename_i source target hsource htarget
      split at h
      · cases h
      · rename_i entry hentry
        cases h
        rw [afterAction, htype, hsource, htarget, Table.files_update]
        dsimp only
        rw [Table.files, hentry]
        rfl
    · cases h
  · rename_i htype
    split at h
    · rename_i hnone
      cases h
      rw [afterAction, htype]
      dsimp only
      rw [← Table.files_close, Table.close, hnone]
    · rename_i d hd
      cases h
      rw [afterAction, htype]
      dsimp only
      rw [← Table.files_close, Table.close, hd]
  · cases h

theorem acts_files {actions : List SpawnAction} : ∀ {T T' : Table}, T.acts actions = .ok T' →
    T'.files = actions.foldl afterAction T.files := by
  induction actions with
  | nil =>
    intro T T' h
    cases h
    rfl
  | cons action actions ih =>
    intro T T' h
    rw [Table.acts] at h
    split at h
    · cases h
    · rename_i T₁ hact
      rw [ih h, List.foldl_cons, act_files hact]

theorem TableLog.spawn (h : TableLog v F os O I K cs) {programName : Bytes} {argv : List Bytes} {actions : List SpawnAction}
    (hs : v.Step t (.op (.spawn programName argv none actions)) a v') :
    (a.value < 0 ∧ TableLog v' F os O I K cs) ∨
    (0 ≤ a.value ∧ TableLog v' F os O I K (cs ++ [some (actions.foldl afterAction F)])) := by
  obtain ⟨new, child, ⟨htable, hadmits⟩, hnext⟩ := h.step hs
  have hfile : fileOf (.op (.spawn programName argv none actions)) a v'.table = ∅ := by
    ext f
    exact ⟨fun hf => (by cases hf.1), fun hf => hf.elim⟩
  rw [hfile, htable, h.files] at hnext
  rcases hadmits with ⟨ha, -⟩ | ⟨c, n, T₁, ha, -, -, hacts, hchild, -⟩
  · left
    refine ⟨by omega, ?_⟩
    simpa [openOf, issuedOf, closedOf, childOf, ha] using hnext
  · right
    have hfiles : child.map Table.files = some (actions.foldl afterAction F) := by
      rw [hchild, Option.map_some, acts_files hacts, h.files]
    refine ⟨by omega, ?_⟩
    simpa [openOf, issuedOf, closedOf, childOf, ha, hfiles] using hnext

theorem foldl_snoc (actions : List SpawnAction) (action : SpawnAction) (F : Files) :
    (actions ++ [action]).foldl afterAction F = afterAction (actions.foldl afterAction F) action := by
  rw [List.foldl_append]
  rfl

/-- The file of a descriptor put in the place of a standard descriptor. -/
noncomputable def dupOnto (F : Files) (descriptor : ℤ) (e : Fin cbMaxFds) : Files :=
  match fdSlot descriptor with
  | some d => Function.update F e (F d)
  | none => F

theorem addAction_dup2 {actions actions' : List SpawnAction} {descriptor : ℤ} {e : Fin cbMaxFds}
    (h : addActionIf descriptor .dup2 e.val actions = some actions') (F : Files) :
    actions'.foldl afterAction F = dupOnto (actions.foldl afterAction F) descriptor e := by
  rw [addActionIf] at h
  split at h
  · rw [addAction] at h
    split at h
    · cases h
      rw [foldl_snoc, afterAction, dupOnto, fdSlot_val]
      cases fdSlot descriptor <;> rfl
    · cases h
  · cases h
    rw [dupOnto, fdSlot_neg (by omega)]

theorem addAction_close {actions actions' : List SpawnAction} {descriptor toFd : ℤ}
    (h : addAction actions .close descriptor toFd = some actions') (F : Files) :
    actions'.foldl afterAction F = emptied (actions.foldl afterAction F) (slotsOf descriptor) := by
  rw [addAction] at h
  split at h
  · cases h
    rw [foldl_snoc]
    rfl
  · cases h

theorem addActionIf_close {actions actions' : List SpawnAction} {descriptor toFd : ℤ}
    (h : addActionIf descriptor .close toFd actions = some actions') (F : Files) :
    actions'.foldl afterAction F = emptied (actions.foldl afterAction F) (slotsOf descriptor) := by
  rw [addActionIf] at h
  split at h
  · exact addAction_close h F
  · cases h
    rw [slotsOf_neg (by omega), emptied_empty]

/-- The slots of the pipes number `index` to `index + n - 1`. -/
def pipeSlots (pipes : ℕ → ℤ × ℤ) (index n : ℕ) : Set (Fin cbMaxFds) :=
  {d | ∃ j, index ≤ j ∧ j < index + n ∧ d ∈ slotsOf (pipes j).1 ∪ slotsOf (pipes j).2}

theorem pipeSlots_zero (pipes : ℕ → ℤ × ℤ) (index : ℕ) : pipeSlots pipes index 0 = ∅ := by
  ext d
  refine ⟨?_, fun h => h.elim⟩
  rintro ⟨j, hlow, hhigh, -⟩
  omega

theorem pipeSlots_succ (pipes : ℕ → ℤ × ℤ) (index n : ℕ) :
    pipeSlots pipes index (n + 1) = slotsOf (pipes index).1 ∪ (slotsOf (pipes index).2 ∪ pipeSlots pipes (index + 1) n) := by
  ext d
  rw [← Set.union_assoc]
  constructor
  · rintro ⟨j, hlow, hhigh, hd⟩
    by_cases heq : j = index
    · rw [heq] at hd
      exact .inl hd
    · exact .inr ⟨j, by omega, by omega, hd⟩
  · rintro (hd | ⟨j, hlow, hhigh, hd⟩)
    · exact ⟨index, le_rfl, by omega, hd⟩
    · exact ⟨j, by omega, by omega, hd⟩

theorem closePipeActions_files (pipes : ℕ → ℤ × ℤ) (n : ℕ) : ∀ {index : ℕ} {actions actions' : List SpawnAction},
    closePipeActions pipes n index actions = some actions' → ∀ F : Files,
      actions'.foldl afterAction F = emptied (actions.foldl afterAction F) (pipeSlots pipes index n) := by
  induction n with
  | zero =>
    intro index actions actions' h F
    cases h
    rw [pipeSlots_zero, emptied_empty]
  | succ n ih =>
    intro index actions actions' h F
    rw [closePipeActions] at h
    obtain ⟨one, hone, h⟩ := Option.bind_eq_some_iff.mp h
    obtain ⟨two, htwo, h⟩ := Option.bind_eq_some_iff.mp h
    rw [ih h F, addAction_close htwo F, addAction_close hone F, emptied_emptied, emptied_emptied, pipeSlots_succ]

/-- What a stage reads from, or `-1` for the input of the shell. -/
def sourceInput (locals : Locals) (index : ℕ) : ℤ :=
  if 0 ≤ locals.inputs index then locals.inputs index else if 0 < index then (locals.pipes (index - 1)).1 else -1

/-- What a stage writes to, or `-1` for the output of the shell. -/
def sourceOutput (locals : Locals) (stageCount index : ℕ) : ℤ :=
  if 0 ≤ locals.outputs index then locals.outputs index
  else if index + 1 < stageCount then (locals.pipes index).2 else -1

/-- The slots of the redirections of a stage. -/
def redirectionSlots (locals : Locals) (index : ℕ) : Set (Fin cbMaxFds) :=
  slotsOf (locals.inputs index) ∪ slotsOf (locals.outputs index)

/-- **The table of a stage.**  The actions put the sources in place and close the pipes and the redirections of
the stage. -/
theorem stageActions_files {locals : Locals} {stageCount index : ℕ} {actions : List SpawnAction}
    (h : stageActions locals stageCount index = some actions) (F : Files) :
    actions.foldl afterAction F =
      emptied (dupOnto (dupOnto F (sourceInput locals index) stdin) (sourceOutput locals stageCount index) stdout)
        (pipeSlots locals.pipes 0 (stageCount - 1) ∪ redirectionSlots locals index) := by
  rw [stageActions] at h
  obtain ⟨one, hone, h⟩ := Option.bind_eq_some_iff.mp h
  obtain ⟨two, htwo, h⟩ := Option.bind_eq_some_iff.mp h
  obtain ⟨three, hthree, h⟩ := Option.bind_eq_some_iff.mp h
  obtain ⟨four, hfour, h⟩ := Option.bind_eq_some_iff.mp h
  have hfour' : four.foldl afterAction F =
      emptied (dupOnto (dupOnto F (sourceInput locals index) stdin) (sourceOutput locals stageCount index) stdout)
        (pipeSlots locals.pipes 0 (stageCount - 1) ∪ slotsOf (locals.inputs index)) := by
    rw [addActionIf_close hfour F, closePipeActions_files _ _ hthree F, emptied_emptied,
      @addAction_dup2 one two _ stdout htwo F, @addAction_dup2 [] one _ stdin hone F]
    rfl
  split at h
  · rw [addActionIf_close h F, hfour', emptied_emptied, redirectionSlots, Set.union_assoc]
  · rename_i heq
    cases h
    rw [hfour', redirectionSlots, not_not.mp heq, Set.union_self]

/-! ### The loop over the redirections -/

/-- The slots `S` were taken, for files that were not in the table. -/
structure Grown (G H : Files) (O O' : Set FileId) (I I' : Set ℤ) (S : Set (Fin cbMaxFds)) : Prop where
  borrowed : Borrowed G H S ∅
  older : O ⊆ O'
  fresh : ∀ f ∈ O', f ∈ O ∨ ∀ e, G e ≠ some f
  issued : I ⊆ I'
  free : ∀ x ∈ I', x ∈ I ∨ ∀ d ∈ slotsOf x, G d = none

variable {O' O'' : Set FileId} {I' I'' : Set ℤ} {S S' : Set (Fin cbMaxFds)} {L : Files}

theorem Grown.refl (G : Files) (O : Set FileId) (I : Set ℤ) : Grown G G O O I I ∅ :=
  ⟨.refl G, subset_rfl, fun _ hf => .inl hf, subset_rfl, fun _ hx => .inl hx⟩

theorem Grown.trans (h : Grown G H O O' I I' S) (h' : Grown H L O' O'' I' I'' S') :
    Grown G L O O'' I I'' (S ∪ S') where
  borrowed := (h.borrowed.trans h'.borrowed).1
  older := h.older.trans h'.older
  fresh := by
    intro f hf
    rcases h'.fresh f hf with hf | hf
    · exact h.fresh f hf
    · exact .inr fun e he => hf e (h.borrowed.keeps he)
  issued := h.issued.trans h'.issued
  free := by
    intro x hx
    rcases h'.free x hx with hx | hx
    · exact h.free x hx
    · right
      intro d hd
      by_contra hsome
      obtain ⟨f, hf⟩ := Option.ne_none_iff_exists'.mp hsome
      have hkept := h.borrowed.keeps hf
      rw [hx d hd] at hkept
      cases hkept

/-- An `open` took a slot. -/
theorem Grown.open {d : Fin cbMaxFds} {f : FileId} (hd : G d = none) (hf : ∀ e, G e ≠ some f) (O : Set FileId) (I : Set ℤ) :
    Grown G (Function.update G d (some f)) O (insert f O) I (insert (d.val : ℤ) I) {d} where
  borrowed := by
    have hb := (Borrowed.refl G).take hd (Set.notMem_empty d) f
    rw [insert_empty_eq] at hb
    exact hb
  older := Set.subset_insert f O
  fresh := by
    rintro g (rfl | hg)
    · exact .inr hf
    · exact .inl hg
  issued := Set.subset_insert _ I
  free := by
    rintro x (rfl | hx)
    · right
      intro e he
      rw [slotsOf_val] at he
      rw [he]
      exact hd
    · exact .inl hx

/-- A redirection, if there is one, is open in the table. -/
def RedirectionOpen (path : Option Bytes) (H : Files) (O : Set FileId) (I : Set ℤ) (descriptor : ℤ) : Prop :=
  (path = none ∧ descriptor = -1) ∨
    (path ≠ none ∧ ∃ (d : Fin cbMaxFds) (f : FileId), descriptor = d.val ∧ H d = some f ∧ f ∈ O ∧ descriptor ∈ I)

theorem RedirectionOpen.mono {path : Option Bytes} {descriptor : ℤ} (h : RedirectionOpen path H O' I' descriptor)
    (hgrown : Grown H L O' O'' I' I'' S) : RedirectionOpen path L O'' I'' descriptor := by
  refine h.imp id ?_
  rintro ⟨hpath, d, f, hd, hf, hO, hI⟩
  exact ⟨hpath, d, f, hd, hgrown.borrowed.keeps hf, hgrown.older hO, hgrown.issued hI⟩

/-- The number of redirections of a stage. -/
def stageRedirections (stage : Stage) : ℕ :=
  (if stage.inputPath = none then 0 else 1) + if stage.outputPath = none then 0 else 1

/-- What `open_redirections` comes to when it succeeds. -/
structure OpenedOne (stage : Stage) (G H : Files) (O O' : Set FileId) (I I' : Set ℤ) (input output : ℤ) : Prop where
  grown : Grown G H O O' I I' (slotsOf input ∪ slotsOf output)
  input : RedirectionOpen stage.inputPath H O' I' input
  output : RedirectionOpen stage.outputPath H O' I' output
  nothing : stageRedirections stage = 0 → O' = O

/-- What `open_redirections` comes to when it fails: an input that was opened is closed again. -/
structure OpenedNone (stage : Stage) (v' : Purview) (G : Files) (os : List Bool) (O : Set FileId) (I K : Set ℤ)
    (cs : List (Option Files)) (input output : ℤ) : Prop where
  inputs : input < 0
  outputs : output < 0
  tableLog : ∃ m O' I' K', m < stageRedirections stage ∧ TableLog v' G (os ++ List.replicate m true ++ [false]) O' I' K' cs ∧
    Grown G G O O' I I' ∅ ∧ K' ⊆ K ∪ I'

theorem openRedirections_tableLog (h : TableLog v G os O I K cs) (stage : Stage) :
    (openRedirections stage).wp (Purview.Step t) (fun r v' =>
      (r.1 = -1 ∧ OpenedNone stage v' G os O I K cs r.2.1 r.2.2) ∨
      (r.1 = 0 ∧ ∃ H O' I', TableLog v' H (os ++ List.replicate (stageRedirections stage) true) O' I' K cs ∧
        OpenedOne stage G H O O' I I' r.2.1 r.2.2)) v := by
  -- the output, with the input in the slots `S`
  have hthen : ∀ {input : ℤ} {v₁ : Purview} {H₁ : Files} {m : ℕ} {O₁ : Set FileId} {I₁ : Set ℤ},
      m = (if stage.inputPath = none then 0 else 1) → TableLog v₁ H₁ (os ++ List.replicate m true) O₁ I₁ K cs →
      Grown G H₁ O O₁ I I₁ (slotsOf input) → RedirectionOpen stage.inputPath H₁ O₁ I₁ input → (stage.inputPath = none → O₁ = O) →
      (openOutput stage input).wp (Purview.Step t) (fun r v' =>
        (r.1 = -1 ∧ OpenedNone stage v' G os O I K cs r.2.1 r.2.2) ∨
        (r.1 = 0 ∧ ∃ H O' I', TableLog v' H (os ++ List.replicate (stageRedirections stage) true) O' I' K cs ∧
          OpenedOne stage G H O O' I I' r.2.1 r.2.2)) v₁ := by
    intro input v₁ H₁ m O₁ I₁ hm hv₁ hgrown hready hnothing
    rw [openOutput]
    split
    · rename_i hnone
      refine .inr ⟨rfl, H₁, O₁, I₁, ?_, ?_, hready, .inl ⟨hnone, rfl⟩, ?_⟩
      · rw [stageRedirections, if_pos hnone, Nat.add_zero, ← hm]
        exact hv₁
      · rw [slotsOf_minus_one, Set.union_empty]
        exact hgrown
      · intro hzero
        refine hnothing (by_contra fun hsome => ?_)
        rw [stageRedirections, if_neg hsome] at hzero
        omega
    · rename_i path hpath
      have hcount : stageRedirections stage = m + 1 := by
        rw [stageRedirections, hpath, if_neg (Option.some_ne_none path), ← hm]
      intro a v₂ hs
      show Prog.wp (Purview.Step t) (if a.value < 0 then _ else _) _ v₂
      rcases hv₁.open hs with ⟨ha, hv₂⟩ | ⟨d, f, hd, -, hf, ha, hv₂⟩
      · rw [if_pos (by omega)]
        have hclose : (closeIf input).wp (Purview.Step t) (fun _ v' => ∃ K', K' ⊆ K ∪ I₁ ∧
            TableLog v' G (os ++ List.replicate m true ++ [false]) O₁ I₁ K' cs) v₂ := by
          have hundo : emptied H₁ (slotsOf input) = G := hgrown.borrowed.release
          rw [closeIf]
          split
          · rename_i hpos
            intro b v₃ hs₃
            have hv₃ := hv₂.close hs₃
            rw [hundo] at hv₃
            refine ⟨_, ?_, hv₃⟩
            rcases hready with ⟨-, hneg⟩ | ⟨-, d, f, -, -, -, hI⟩
            · omega
            · exact Set.insert_subset (.inr hI) Set.subset_union_left
          · refine ⟨K, Set.subset_union_left, ?_⟩
            rw [slotsOf_neg (by omega), emptied_empty] at hundo
            rw [← hundo]
            exact hv₂
        refine Prog.wp_seq hclose ?_
        rintro _ v₃ ⟨K', hK', hv₃⟩
        refine .inl ⟨rfl, by show (-1 : ℤ) < 0; omega, by show a.value < 0; omega, m, O₁, I₁, K', by omega, hv₃, ?_, hK'⟩
        exact ⟨.refl G, hgrown.older, hgrown.fresh, hgrown.issued, hgrown.free⟩
      · rw [if_neg (by omega)]
        have hgrown₂ := Grown.open hd hf O₁ I₁
        refine .inr ⟨rfl, _, _, _, ?_, ?_, hready.mono hgrown₂, ?_, ?_⟩
        · rw [hcount, List.replicate_succ', ← List.append_assoc]
          exact hv₂
        · show Grown G _ O _ I _ (slotsOf input ∪ slotsOf a.value)
          rw [ha, slotsOf_val]
          exact hgrown.trans hgrown₂
        · refine .inr ⟨by rw [hpath]; exact Option.some_ne_none path, d, f, ha, Function.update_self .., Set.mem_insert f O₁, ?_⟩
          show a.value ∈ _
          rw [ha]
          exact Set.mem_insert _ I₁
        · intro hzero
          omega
  rw [openRedirections]
  split
  · rename_i hnone
    have hlog : TableLog v G (os ++ List.replicate 0 true) O I K cs := by
      rw [List.replicate_zero, List.append_nil]
      exact h
    have hgrown : Grown G G O O I I (slotsOf (-1)) := by
      rw [slotsOf_minus_one]
      exact .refl G O I
    exact hthen (if_pos hnone).symm hlog hgrown (.inl ⟨hnone, rfl⟩) fun _ => rfl
  · rename_i path hpath
    have hsome : stage.inputPath ≠ none := by
      rw [hpath]
      exact Option.some_ne_none path
    intro a v₁ hs
    show Prog.wp (Purview.Step t) (if a.value < 0 then _ else _) _ v₁
    rcases h.open hs with ⟨ha, hv₁⟩ | ⟨d, f, hd, -, hf, ha, hv₁⟩
    · rw [if_pos (by omega)]
      refine .inl ⟨rfl, by show a.value < 0; omega, by show (-1 : ℤ) < 0; omega, 0, O, I, K, ?_, ?_, .refl G O I,
        Set.subset_union_left⟩
      · rw [stageRedirections, if_neg hsome]
        omega
      · rw [List.replicate_zero, List.append_nil]
        exact hv₁
    · rw [if_neg (by omega)]
      have hgrown := Grown.open hd hf O I
      refine hthen (if_neg hsome).symm (m := 1) hv₁ ?_ ?_ fun hnone => absurd hnone hsome
      · rw [ha, slotsOf_val]
        exact hgrown
      · refine .inr ⟨hsome, d, f, ha, Function.update_self .., Set.mem_insert f O, ?_⟩
        rw [ha]
        exact Set.mem_insert _ I

/-- The number of redirections of the stages from `index` on. -/
def redirectionCount (stages : ℕ → Stage) : ℕ → ℕ → ℕ
  | _, 0 => 0
  | index, n + 1 => stageRedirections (stages index) + redirectionCount stages (index + 1) n

/-- The slots of the redirections of the stages number `index` to `index + n - 1`. -/
def stageSlots (locals : Locals) (index n : ℕ) : Set (Fin cbMaxFds) :=
  {d | ∃ i, index ≤ i ∧ i < index + n ∧ d ∈ redirectionSlots locals i}

theorem stageSlots_zero (locals : Locals) (index : ℕ) : stageSlots locals index 0 = ∅ := by
  ext d
  refine ⟨?_, fun h => h.elim⟩
  rintro ⟨j, hlow, hhigh, -⟩
  omega

theorem stageSlots_succ (locals : Locals) (index n : ℕ) :
    stageSlots locals index (n + 1) = redirectionSlots locals index ∪ stageSlots locals (index + 1) n := by
  ext d
  constructor
  · rintro ⟨j, hlow, hhigh, hd⟩
    by_cases heq : j = index
    · rw [heq] at hd
      exact .inl hd
    · exact .inr ⟨j, by omega, by omega, hd⟩
  · rintro (hd | ⟨j, hlow, hhigh, hd⟩)
    · exact ⟨index, le_rfl, by omega, hd⟩
    · exact ⟨j, by omega, by omega, hd⟩

/-- The redirections of the stages number `index` to `index + n - 1` are open. -/
structure LaidOut (stages : ℕ → Stage) (G H : Files) (O O' : Set FileId) (I I' : Set ℤ) (locals locals' : Locals)
    (index n : ℕ) : Prop where
  grown : Grown G H O O' I I' (stageSlots locals' index n)
  inputs : ∀ i, index ≤ i → i < index + n → RedirectionOpen (stages i).inputPath H O' I' (locals'.inputs i)
  outputs : ∀ i, index ≤ i → i < index + n → RedirectionOpen (stages i).outputPath H O' I' (locals'.outputs i)
  apart : ∀ i j, index ≤ i → i < index + n → index ≤ j → j < index + n → i ≠ j →
    ∀ d ∈ redirectionSlots locals' i, d ∉ redirectionSlots locals' j
  pipes : locals'.pipes = locals.pipes
  earlier : ∀ i, i < index → locals'.inputs i = locals.inputs i ∧ locals'.outputs i = locals.outputs i

theorem LaidOut.zero (stages : ℕ → Stage) (G : Files) (O : Set FileId) (I : Set ℤ) (locals locals' : Locals) (index : ℕ)
    (hpipes : locals'.pipes = locals.pipes)
    (hearlier : ∀ i, i < index → locals'.inputs i = locals.inputs i ∧ locals'.outputs i = locals.outputs i) :
    LaidOut stages G G O O I I locals locals' index 0 where
  grown := by
    rw [stageSlots_zero]
    exact .refl G O I
  inputs := fun i hlow hhigh => by omega
  outputs := fun i hlow hhigh => by omega
  apart := fun i j hlow hhigh => by omega
  pipes := hpipes
  earlier := hearlier

/-- The local arrays behind `open_redirections`. -/
def Locals.setRedirections (locals : Locals) (index : ℕ) (input output : ℤ) : Locals :=
  { locals with
    inputs := Function.update locals.inputs index input
    outputs := Function.update locals.outputs index output }

theorem LaidOut.succ {stages : ℕ → Stage} {locals locals' : Locals} {index n : ℕ} {input output : ℤ} {L : Files}
    (hone : OpenedOne (stages index) G H O O' I I' input output)
    (hrest : LaidOut stages H L O' O'' I' I'' (locals.setRedirections index input output) locals' (index + 1) n) :
    LaidOut stages G L O O'' I I'' locals locals' index (n + 1) := by
  obtain ⟨hin, hout⟩ := hrest.earlier index (Nat.lt_succ_self index)
  have hinput : locals'.inputs index = input := hin.trans (Function.update_self ..)
  have houtput : locals'.outputs index = output := hout.trans (Function.update_self ..)
  have hslots : redirectionSlots locals' index = slotsOf input ∪ slotsOf output := by
    rw [redirectionSlots, hinput, houtput]
  have hgrown : Grown G L O O'' I I'' (redirectionSlots locals' index ∪ stageSlots locals' (index + 1) n) := by
    rw [hslots]
    exact hone.grown.trans hrest.grown
  -- what a later stage took was free behind this one
  have hlater : ∀ j, index + 1 ≤ j → j < index + 1 + n → ∀ d ∈ redirectionSlots locals' index, d ∉ redirectionSlots locals' j := by
    intro j hlow hhigh d hd hd'
    rw [hslots] at hd
    exact (hone.grown.borrowed.trans hrest.grown.borrowed).2 d hd ⟨j, hlow, hhigh, hd'⟩
  refine ⟨?_, ?_, ?_, ?_, hrest.pipes, ?_⟩
  · rw [stageSlots_succ]
    exact hgrown
  · intro i hlow hhigh
    by_cases heq : i = index
    · rw [heq, hinput]
      exact hone.input.mono hrest.grown
    · exact hrest.inputs i (by omega) (by omega)
  · intro i hlow hhigh
    by_cases heq : i = index
    · rw [heq, houtput]
      exact hone.output.mono hrest.grown
    · exact hrest.outputs i (by omega) (by omega)
  · intro i j hi hi' hj hj' hne d hd hd'
    by_cases hieq : i = index
    · rw [hieq] at hd
      exact hlater j (by omega) (by omega) d hd hd'
    · by_cases hjeq : j = index
      · rw [hjeq] at hd'
        exact hlater i (by omega) (by omega) d hd' hd
      · exact hrest.apart i j (by omega) (by omega) (by omega) (by omega) hne d hd hd'
  · intro i hi
    obtain ⟨hin', hout'⟩ := hrest.earlier i (by omega)
    exact ⟨hin'.trans (Function.update_of_ne (by omega) _ _), hout'.trans (Function.update_of_ne (by omega) _ _)⟩

/-- The loop over the redirections stopped at stage `k`, where `m` of all redirections had been opened; the
arrays hold what they held behind it. -/
structure Stopped (stages : ℕ → Stage) (v' : Purview) (G : Files) (os : List Bool) (O : Set FileId) (I K : Set ℤ)
    (cs : List (Option Files)) (locals locals' : Locals) (index k m : ℕ) : Prop where
  count : redirectionCount stages index (k - index) ≤ m ∧ m < redirectionCount stages index (k - index + 1)
  tableLog : ∃ H O' I' K', TableLog v' H (os ++ List.replicate m true ++ [false]) O' I' K' cs ∧
    LaidOut stages G H O O' I I' locals locals' index (k - index) ∧ K' ⊆ K ∪ I'
  inputs : locals'.inputs k < 0
  outputs : locals'.outputs k < 0
  later : ∀ i, k < i → locals'.inputs i = locals.inputs i ∧ locals'.outputs i = locals.outputs i

theorem openStages_tableLog (strerror : ℤ → Bytes) (stages : ℕ → Stage) (n : ℕ) :
    ∀ {index : ℕ} {locals : Locals} {v : Purview} {G : Files} {os : List Bool} {O : Set FileId} {I : Set ℤ},
      TableLog v G os O I K cs →
      (openStages strerror stages n index locals).wp (Purview.Step t) (fun r v' =>
        (r.2 = true ∧ ∃ H O' I', TableLog v' H (os ++ List.replicate (redirectionCount stages index n) true) O' I' K cs ∧
          LaidOut stages G H O O' I I' locals r.1 index n ∧ (redirectionCount stages index n = 0 → O' = O)) ∨
        (r.2 = false ∧ ∃ k m, index ≤ k ∧ k < index + n ∧ Stopped stages v' G os O I K cs locals r.1 index k m)) v := by
  induction n with
  | zero =>
    intro index locals v G os O I h
    refine .inl ⟨rfl, G, O, I, ?_, .zero stages G O I locals locals index rfl fun _ _ => ⟨rfl, rfl⟩, fun _ => rfl⟩
    rw [redirectionCount, List.replicate_zero, List.append_nil]
    exact h
  | succ n ih =>
    intro index locals v G os O I h
    rw [openStages]
    split
    · trivial
    refine Prog.wp_seq (openRedirections_tableLog h (stages index)) ?_
    rintro ⟨opened, input, output⟩ v₁ (⟨rfl, hin, hout, m, O', I', K', hm, hv₁, hgrown, hK⟩ | ⟨rfl, H, O', I', hv₁, hone⟩)
    · refine Prog.wp_seq ((errorText_quiet strerror).tableLog hv₁) fun text v₂ hv₂ => ?_
      refine Prog.wp_seq ((shellError_quiet text).tableLog hv₂) fun _ v₃ hv₃ => .inr ⟨rfl, index, m, le_rfl, by omega, ?_⟩
      refine ⟨?_, ⟨G, O', I', K', hv₃, ?_, hK⟩, ?_, ?_, ?_⟩
      · rw [Nat.sub_self, redirectionCount, redirectionCount, redirectionCount]
        omega
      · rw [Nat.sub_self]
        refine ⟨?_, fun i hlow hhigh => by omega, fun i hlow hhigh => by omega, fun i j hlow hhigh => by omega, rfl, ?_⟩
        · rw [stageSlots_zero]
          exact hgrown
        · intro i hi
          exact ⟨Function.update_of_ne (by omega) _ _, Function.update_of_ne (by omega) _ _⟩
      · show Function.update locals.inputs index input index < 0
        rw [Function.update_self]
        exact hin
      · show Function.update locals.outputs index output index < 0
        rw [Function.update_self]
        exact hout
      · intro i hi
        exact ⟨Function.update_of_ne (by omega) _ _, Function.update_of_ne (by omega) _ _⟩
    · refine Prog.wp_mono (@ih (index + 1) (locals.setRedirections index input output) v₁ H _ O' I' hv₁) ?_
      rintro ⟨locals', done⟩ v₂ (⟨rfl, L, O'', I'', hv₂, hrest, hnothing⟩ | ⟨rfl, k, m, hlow, hhigh, hstop⟩)
      · refine .inl ⟨rfl, L, O'', I'', ?_, hrest.succ hone, fun hzero => ?_⟩
        · rw [redirectionCount, List.replicate_add, ← List.append_assoc]
          exact hv₂
        · rw [redirectionCount] at hzero
          rw [hnothing (by omega), hone.nothing (by omega)]
      · obtain ⟨hcount, ⟨L, O'', I'', K', hv₂, hrest, hK⟩, hin, hout, hlater⟩ := hstop
        have hk : k - index = k - (index + 1) + 1 := by omega
        refine .inr ⟨rfl, k, stageRedirections (stages index) + m, by omega, by omega, ?_, ⟨L, O'', I'', K', ?_, ?_, hK⟩, hin,
          hout, ?_⟩
        · rw [hk, redirectionCount, redirectionCount]
          omega
        · rw [List.replicate_add, ← List.append_assoc]
          exact hv₂
        · rw [hk]
          exact hrest.succ hone
        · intro i hi
          obtain ⟨hin', hout'⟩ := hlater i hi
          exact ⟨hin'.trans (Function.update_of_ne (by omega) _ _), hout'.trans (Function.update_of_ne (by omega) _ _)⟩

/-! ### The loop over the pipes -/

/-- The pipes number `index` to `index + n - 1` were made. -/
structure Piped (G H : Files) (O : Set FileId) (I I' : Set ℤ) (locals locals' : Locals) (index n : ℕ) : Prop where
  grown : Grown G H O O I I' (pipeSlots locals'.pipes index n)
  ends : ∀ j, index ≤ j → j < index + n → ∃ (r w : Fin cbMaxFds) (f g : FileId), locals'.pipes j = ((r.val : ℤ), (w.val : ℤ)) ∧
    H r = some f ∧ H w = some g ∧ (r.val : ℤ) ∈ I' ∧ (w.val : ℤ) ∈ I'
  inputs : locals'.inputs = locals.inputs
  outputs : locals'.outputs = locals.outputs
  earlier : ∀ j, j < index → locals'.pipes j = locals.pipes j

theorem Piped.zero (G : Files) (O : Set FileId) (I : Set ℤ) (locals : Locals) (index : ℕ) :
    Piped G G O I I locals locals index 0 where
  grown := by
    rw [pipeSlots_zero]
    exact .refl G O I
  ends := fun j hlow hhigh => by omega
  inputs := rfl
  outputs := rfl
  earlier := fun _ _ => rfl

/-- A `pipe` took two slots. -/
theorem Grown.pipe {r w : Fin cbMaxFds} (hr : G r = none) (hw : G w = none) (hne : r ≠ w) (f g : FileId) (O : Set FileId)
    (I : Set ℤ) :
    Grown G (Function.update (Function.update G r (some f)) w (some g)) O O I
      (insert (r.val : ℤ) (insert (w.val : ℤ) I)) ({r} ∪ {w}) where
  borrowed := by
    have hw' : Function.update G r (some f) w = none := by
      rw [Function.update_of_ne hne.symm]
      exact hw
    have hb := ((Borrowed.refl G).take hr (Set.notMem_empty r) f).take hw' (Set.notMem_empty w) g
    rw [insert_empty_eq, Set.insert_eq, Set.union_comm] at hb
    exact hb
  older := subset_rfl
  fresh := fun _ hf => .inl hf
  issued := (Set.subset_insert _ I).trans (Set.subset_insert _ _)
  free := by
    rintro x (rfl | rfl | hx)
    · right
      intro e he
      rw [slotsOf_val] at he
      rw [he]
      exact hr
    · right
      intro e he
      rw [slotsOf_val] at he
      rw [he]
      exact hw
    · exact .inl hx

theorem Piped.succ {locals locals' : Locals} {index n : ℕ} {r w : Fin cbMaxFds} {f g : FileId} (hr : G r = none)
    (hw : G w = none) (hne : r ≠ w)
    (hrest : Piped (Function.update (Function.update G r (some f)) w (some g)) L O
      (insert (r.val : ℤ) (insert (w.val : ℤ) I)) I'
      { locals with pipes := Function.update locals.pipes index ((r.val : ℤ), (w.val : ℤ)) } locals' (index + 1) n) :
    Piped G L O I I' locals locals' index (n + 1) := by
  have hpipe : locals'.pipes index = ((r.val : ℤ), (w.val : ℤ)) :=
    (hrest.earlier index (Nat.lt_succ_self index)).trans (Function.update_self ..)
  have hone := Grown.pipe hr hw hne f g O I
  refine ⟨?_, ?_, hrest.inputs, hrest.outputs, ?_⟩
  · rw [pipeSlots_succ, hpipe, slotsOf_val, slotsOf_val, ← Set.union_assoc]
    exact hone.trans hrest.grown
  · intro j hlow hhigh
    by_cases heq : j = index
    · refine ⟨r, w, f, g, by rw [heq, hpipe], ?_, ?_, ?_, ?_⟩
      · refine hrest.grown.borrowed.keeps ?_
        rw [Function.update_of_ne hne, Function.update_self]
      · exact hrest.grown.borrowed.keeps (Function.update_self ..)
      · exact hrest.grown.issued (Set.mem_insert ..)
      · exact hrest.grown.issued (Set.mem_insert_of_mem _ (Set.mem_insert ..))
    · exact hrest.ends j (by omega) (by omega)
  · intro j hj
    exact (hrest.earlier j (by omega)).trans (Function.update_of_ne (by omega) _ _)

theorem createPipes_tableLog (n : ℕ) :
    ∀ {index : ℕ} {locals : Locals} {v : Purview} {G : Files} {I : Set ℤ}, TableLog v G os O I K cs →
      (createPipes n index locals).wp (Purview.Step t) (fun r v' => ∃ m H I', m ≤ n ∧ r.2.1 = index + m ∧
        (r.2.2 = true → m = n) ∧ TableLog v' H os O I' K cs ∧ Piped G H O I I' locals r.1 index m) v := by
  induction n with
  | zero =>
    intro index locals v G I h
    exact ⟨0, G, I, le_rfl, rfl, fun _ => rfl, h, .zero G O I locals index⟩
  | succ n ih =>
    intro index locals v G I h
    rw [createPipes]
    split
    · trivial
    intro a v₁ hs
    show Prog.wp (Purview.Step t) (if a.value < 0 then _ else _) _ v₁
    rcases h.pipe hs with ⟨ha, hv₁⟩ | ⟨r, w, f, g, hr, hw, hne, -, -, ha, hout, hv₁⟩
    · rw [if_pos (by omega)]
      refine Prog.wp_seq ((shellError_quiet _).tableLog hv₁) fun _ v₂ hv₂ => ?_
      exact ⟨0, G, I, Nat.zero_le _, rfl, fun hfalse => (by cases hfalse), hv₂, .zero G O I locals index⟩
    · rw [if_neg (by omega), hout]
      dsimp only
      refine Prog.wp_mono (ih hv₁) ?_
      rintro ⟨locals', created, done⟩ v₂ ⟨m, H, I', hm, hcreated, hdone, hv₂, hrest⟩
      refine ⟨m + 1, H, I', by omega, ?_, fun h => ?_, hv₂, hrest.succ hr hw hne⟩
      · show created = index + (m + 1)
        have : created = index + 1 + m := hcreated
        omega
      · have := hdone h
        omega

/-! ### The loop over the children -/

/-- The files of the child for a stage. -/
noncomputable def stageFiles (H : Files) (locals : Locals) (stageCount index : ℕ) : Files :=
  emptied (dupOnto (dupOnto H (sourceInput locals index) stdin) (sourceOutput locals stageCount index) stdout)
    (pipeSlots locals.pipes 0 (stageCount - 1) ∪ redirectionSlots locals index)

theorem spawnStages_tableLog (strerror : ℤ → Bytes) (stages : ℕ → Stage) (stageCount : ℕ) (lastStatus : ℤ) (n : ℕ) :
    ∀ {index : ℕ} {locals : Locals} {v : Purview} {cs : List (Option Files)}, TableLog v H os O I K cs →
      (spawnStages strerror stages stageCount lastStatus n index locals).wp (Purview.Step t) (fun r v' =>
        ∃ m, m ≤ n ∧ r.2.1 = index + m ∧ (r.2.2 = true → m = n) ∧
          TableLog v' H os O I K (cs ++ (List.range m).map fun j => some (stageFiles H locals stageCount (index + j))) ∧
          r.1.inputs = locals.inputs ∧ r.1.outputs = locals.outputs ∧ r.1.pipes = locals.pipes) v := by
  induction n with
  | zero =>
    intro index locals v cs h
    refine ⟨0, le_rfl, rfl, fun _ => rfl, ?_, rfl, rfl, rfl⟩
    rw [List.range_zero, List.map_nil, List.append_nil]
    exact h
  | succ n ih =>
    intro index locals v cs h
    rw [spawnStages]
    split
    · rename_i name actions hname hactions
      split
      · trivial
      · split
        · trivial
        intro a v₁ hs
        show Prog.wp (Purview.Step t) (if a.value < 0 then _ else _) _ v₁
        rcases h.spawn hs with ⟨ha, hv₁⟩ | ⟨ha, hv₁⟩
        · rw [if_pos ha]
          refine Prog.wp_seq ((say_quiet _).tableLog hv₁) fun _ v₂ hv₂ => ?_
          refine Prog.wp_seq ((say_quiet _).tableLog hv₂) fun _ v₃ hv₃ => ?_
          refine Prog.wp_seq ((say_quiet _).tableLog hv₃) fun _ v₄ hv₄ => ?_
          refine Prog.wp_seq ((errorText_quiet strerror).tableLog hv₄) fun text v₅ hv₅ => ?_
          refine Prog.wp_seq ((say_quiet _).tableLog hv₅) fun _ v₆ hv₆ => ?_
          refine Prog.wp_seq ((say_quiet _).tableLog hv₆) fun _ v₇ hv₇ => ?_
          refine ⟨0, Nat.zero_le _, rfl, fun hfalse => (by cases hfalse), ?_, rfl, rfl, rfl⟩
          rw [List.range_zero, List.map_nil, List.append_nil]
          exact hv₇
        · rw [if_neg (not_lt.mpr ha)]
          rw [stageActions_files hactions] at hv₁
          -- whatever the answer is, the next round has the same redirections and pipes
          have hthen : ∀ {locals' : Locals}, locals'.inputs = locals.inputs → locals'.outputs = locals.outputs →
              locals'.pipes = locals.pipes →
              (spawnStages strerror stages stageCount lastStatus n (index + 1) locals').wp (Purview.Step t) (fun r v' =>
                ∃ m, m ≤ n + 1 ∧ r.2.1 = index + m ∧ (r.2.2 = true → m = n + 1) ∧
                  TableLog v' H os O I K (cs ++ (List.range m).map fun j => some (stageFiles H locals stageCount (index + j))) ∧
                  r.1.inputs = locals.inputs ∧ r.1.outputs = locals.outputs ∧ r.1.pipes = locals.pipes) v₁ := by
            intro locals' hin hout hpipes
            have hfiles : ∀ i, stageFiles H locals' stageCount i = stageFiles H locals stageCount i := by
              intro i
              rw [stageFiles, stageFiles, sourceInput, sourceInput, sourceOutput, sourceOutput, redirectionSlots,
                redirectionSlots, hin, hout, hpipes]
            refine Prog.wp_mono (ih hv₁) ?_
            rintro ⟨locals'', spawned, done⟩ v₂ ⟨m, hm, hspawned, hdone, hv₂, hin', hout', hpipes'⟩
            refine ⟨m + 1, by omega, ?_, fun h => ?_, ?_, hin'.trans hin, hout'.trans hout, hpipes'.trans hpipes⟩
            · show spawned = index + (m + 1)
              have : spawned = index + 1 + m := hspawned
              omega
            · have := hdone h
              omega
            · rw [List.range_succ_eq_map, List.map_cons, List.map_map, List.append_cons]
              have hmap : (List.range m).map (fun j => some (stageFiles H locals' stageCount (index + 1 + j))) =
                  (List.range m).map ((fun j => some (stageFiles H locals stageCount (index + j))) ∘ Nat.succ) := by
                refine List.map_congr_left fun j _ => ?_
                rw [hfiles, Function.comp_apply, show index + j.succ = index + 1 + j by omega]
              rw [hmap] at hv₂
              exact hv₂
          split
          · exact hthen rfl rfl rfl
          · exact hthen rfl rfl rfl
    · trivial

/-! ### Cleaning up -/

/-- The descriptors of the pipes number `index` to `index + n - 1`. -/
def pipeEnds (pipes : ℕ → ℤ × ℤ) (index n : ℕ) : Set ℤ :=
  {x | ∃ j, index ≤ j ∧ j < index + n ∧ (x = (pipes j).1 ∨ x = (pipes j).2)}

/-- The descriptors of the redirections number `index` to `index + n - 1`. -/
def redirectionEnds (locals : Locals) (index n : ℕ) : Set ℤ :=
  {x | 0 ≤ x ∧ ∃ i, index ≤ i ∧ i < index + n ∧ (x = locals.inputs i ∨ x = locals.outputs i)}

theorem closePipes_tableLog (pipes : ℕ → ℤ × ℤ) (n : ℕ) :
    ∀ {index : ℕ} {v : Purview} {F : Files} {K : Set ℤ}, TableLog v F os O I K cs →
      (closePipes pipes n index).wp (Purview.Step t) (fun _ v' =>
        TableLog v' (emptied F (pipeSlots pipes index n)) os O I (pipeEnds pipes index n ∪ K) cs) v := by
  induction n with
  | zero =>
    intro index v F K h
    have hends : pipeEnds pipes index 0 = ∅ := by
      ext x
      refine ⟨?_, fun hx => hx.elim⟩
      rintro ⟨j, hlow, hhigh, -⟩
      omega
    show TableLog v _ os O I _ cs
    rw [pipeSlots_zero, emptied_empty, hends, Set.empty_union]
    exact h
  | succ n ih =>
    intro index v F K h a v₁ hs₁ b v₂ hs₂
    have hends : pipeEnds pipes index (n + 1) ∪ K =
        pipeEnds pipes (index + 1) n ∪ insert (pipes index).2 (insert (pipes index).1 K) := by
      ext x
      constructor
      · rintro (⟨j, hlow, hhigh, hx⟩ | hx)
        · by_cases heq : j = index
          · rw [heq] at hx
            exact .inr (hx.elim (fun hx => .inr (.inl hx)) .inl)
          · exact .inl ⟨j, by omega, by omega, hx⟩
        · exact .inr (.inr (.inr hx))
      · rintro (⟨j, hlow, hhigh, hx⟩ | rfl | rfl | hx)
        · exact .inl ⟨j, by omega, by omega, hx⟩
        · exact .inl ⟨index, le_rfl, by omega, .inr rfl⟩
        · exact .inl ⟨index, le_rfl, by omega, .inl rfl⟩
        · exact .inr hx
    refine Prog.wp_mono (ih ((h.close hs₁).close hs₂)) fun _ v₃ hv₃ => ?_
    rw [emptied_emptied, emptied_emptied] at hv₃
    rw [pipeSlots_succ, hends]
    exact hv₃

theorem closeIf_tableLog (h : TableLog v F os O I K cs) (descriptor : ℤ) :
    (closeIf descriptor).wp (Purview.Step t) (fun _ v' =>
      TableLog v' (emptied F (slotsOf descriptor)) os O I ({x | 0 ≤ x ∧ x = descriptor} ∪ K) cs) v := by
  rw [closeIf]
  split
  · rename_i hpos
    intro a v₁ hs
    have hset : {x | 0 ≤ x ∧ x = descriptor} ∪ K = insert descriptor K := by
      ext x
      constructor
      · rintro (⟨-, rfl⟩ | hx)
        · exact .inl rfl
        · exact .inr hx
      · rintro (rfl | hx)
        · exact .inl ⟨hpos, rfl⟩
        · exact .inr hx
    show TableLog v₁ _ os O I _ cs
    rw [hset]
    exact h.close hs
  · rename_i hneg
    have hset : {x | 0 ≤ x ∧ x = descriptor} ∪ K = K := by
      refine Set.union_eq_right.mpr ?_
      rintro x ⟨hpos, rfl⟩
      exact absurd hpos hneg
    show TableLog v _ os O I _ cs
    rw [slotsOf_neg (by omega), emptied_empty, hset]
    exact h

theorem closeRedirections_tableLog (locals : Locals) (n : ℕ) :
    ∀ {index : ℕ} {v : Purview} {F : Files} {K : Set ℤ}, TableLog v F os O I K cs →
      (closeRedirections locals n index).wp (Purview.Step t) (fun _ v' =>
        TableLog v' (emptied F (stageSlots locals index n)) os O I (redirectionEnds locals index n ∪ K) cs) v := by
  induction n with
  | zero =>
    intro index v F K h
    have hends : redirectionEnds locals index 0 = ∅ := by
      ext x
      refine ⟨?_, fun hx => hx.elim⟩
      rintro ⟨-, j, hlow, hhigh, -⟩
      omega
    show TableLog v _ os O I _ cs
    rw [stageSlots_zero, emptied_empty, hends, Set.empty_union]
    exact h
  | succ n ih =>
    intro index v F K h
    have hends : redirectionEnds locals index (n + 1) ∪ K = redirectionEnds locals (index + 1) n ∪
        ({x | 0 ≤ x ∧ x = locals.outputs index} ∪ ({x | 0 ≤ x ∧ x = locals.inputs index} ∪ K)) := by
      ext x
      constructor
      · rintro (⟨hpos, j, hlow, hhigh, hx⟩ | hx)
        · by_cases heq : j = index
          · rw [heq] at hx
            exact .inr (hx.elim (fun hx => .inr (.inl ⟨hpos, hx⟩)) fun hx => .inl ⟨hpos, hx⟩)
          · exact .inl ⟨hpos, j, by omega, by omega, hx⟩
        · exact .inr (.inr (.inr hx))
      · rintro (⟨hpos, j, hlow, hhigh, hx⟩ | ⟨hpos, hx⟩ | ⟨hpos, hx⟩ | hx)
        · exact .inl ⟨hpos, j, by omega, by omega, hx⟩
        · exact .inl ⟨hpos, index, le_rfl, by omega, .inr hx⟩
        · exact .inl ⟨hpos, index, le_rfl, by omega, .inl hx⟩
        · exact .inr hx
    refine Prog.wp_seq (closeIf_tableLog h _) fun _ v₁ hv₁ => ?_
    refine Prog.wp_seq (closeIf_tableLog hv₁ _) fun _ v₂ hv₂ => ?_
    refine Prog.wp_mono (ih hv₂) fun _ v₃ hv₃ => ?_
    rw [emptied_emptied, emptied_emptied] at hv₃
    rw [stageSlots_succ, hends, redirectionSlots, Set.union_assoc (slotsOf _)]
    exact hv₃

theorem waitStages_tableLog (pids : ℕ → ℤ) (stageCount n : ℕ) :
    ∀ {index : ℕ} {status : ℤ} {v : Purview}, TableLog v F os O I K cs →
      (waitStages pids stageCount n index status).wp (Purview.Step t) (fun _ v' => TableLog v' F os O I K cs) v := by
  induction n with
  | zero => exact fun h => h
  | succ n ih => exact fun h a v₁ hs => ih (h.waitpid hs)

theorem cleanup_tableLog (h : TableLog v F os O I K cs) (locals : Locals) (stageCount createdPipes spawned : ℕ) (status : ℤ) :
    (cleanup locals stageCount createdPipes spawned status).wp (Purview.Step t) (fun _ v' =>
      TableLog v' (emptied F (pipeSlots locals.pipes 0 createdPipes ∪ stageSlots locals 0 stageCount)) os O I
        (redirectionEnds locals 0 stageCount ∪ (pipeEnds locals.pipes 0 createdPipes ∪ K)) cs) v := by
  refine Prog.wp_seq (closePipes_tableLog locals.pipes createdPipes h) fun _ v₁ hv₁ => ?_
  refine Prog.wp_seq (closeRedirections_tableLog locals stageCount hv₁) fun _ v₂ hv₂ => ?_
  rw [emptied_emptied] at hv₂
  refine Prog.wp_seq (waitStages_tableLog locals.pids stageCount spawned hv₂) fun status' v₃ hv₃ => ?_
  split
  · exact hv₃
  · exact hv₃

/-! ### The whole pipeline -/

/-- The redirections, the pipes and the first `m` children of a pipeline; the table is as it was. -/
structure Wired (stages : ℕ → Stage) (stageCount : ℕ) (F : Files) (garbage : Locals) (v' : Purview) (m : ℕ) : Prop where
  opened : Shell.opens v'.log = List.replicate (redirectionCount stages 0 stageCount) true
  restored : v'.table.files = F
  own : Shell.closed v'.log ⊆ Shell.issued v'.log
  wires : ∃ G H I I' locals locals', LaidOut stages F G ∅ (openedFiles v'.log) ∅ I garbage locals 0 stageCount ∧
    (redirectionCount stages 0 stageCount = 0 → openedFiles v'.log = ∅) ∧
    (m ≠ 0 → Piped G H (openedFiles v'.log) I I' locals locals' 0 (stageCount - 1)) ∧
    children v'.log = (List.range m).map fun j => some (stageFiles H locals' stageCount j)

/-- The pipeline stopped at the redirections of stage `k`, and cleaned up with what the arrays held behind it. -/
structure BrokenOff (stages : ℕ → Stage) (stageCount : ℕ) (F : Files) (garbage : Locals) (v' : Purview) (k m : ℕ) : Prop where
  stage : k < stageCount
  count : redirectionCount stages 0 k ≤ m ∧ m < redirectionCount stages 0 (k + 1)
  opened : Shell.opens v'.log = List.replicate m true ++ [false]
  table : v'.table.files = emptied F (stageSlots garbage (k + 1) (stageCount - (k + 1)))
  closed : Shell.closed v'.log ⊆ Shell.issued v'.log ∪ redirectionEnds garbage (k + 1) (stageCount - (k + 1))
  stray : redirectionEnds garbage (k + 1) (stageCount - (k + 1)) ⊆ Shell.closed v'.log
  free : ∀ x ∈ Shell.issued v'.log, ∀ d ∈ slotsOf x, F d = none
  children : Shell.children v'.log = []

/-- What an open redirection is closed with was issued. -/
theorem RedirectionOpen.issued {path : Option Bytes} {descriptor : ℤ} (h : RedirectionOpen path H O I descriptor)
    (hpos : 0 ≤ descriptor) :
    descriptor ∈ I := by
  rcases h with ⟨-, rfl⟩ | ⟨-, d, f, -, -, -, hI⟩
  · omega
  · exact hI

theorem LaidOut.ends {stages : ℕ → Stage} {locals locals' : Locals} {index n : ℕ}
    (h : LaidOut stages G H O O' I I' locals locals' index n) : redirectionEnds locals' index n ⊆ I' := by
  rintro x ⟨hpos, i, hlow, hhigh, rfl | rfl⟩
  · exact (h.inputs i hlow hhigh).issued hpos
  · exact (h.outputs i hlow hhigh).issued hpos

theorem Piped.pipeEnds {locals locals' : Locals} {index n : ℕ} (h : Piped G H O I I' locals locals' index n) :
    Shell.pipeEnds locals'.pipes index n ⊆ I' := by
  rintro x ⟨j, hlow, hhigh, hx⟩
  obtain ⟨r, w, f, g, hpipe, -, -, hr, hw⟩ := h.ends j hlow hhigh
  rw [hpipe] at hx
  rcases hx with rfl | rfl
  · exact hr
  · exact hw

theorem stageSlots_congr {locals locals' : Locals} {index n : ℕ}
    (h : ∀ i, index ≤ i → i < index + n → locals'.inputs i = locals.inputs i ∧ locals'.outputs i = locals.outputs i) :
    stageSlots locals' index n = stageSlots locals index n := by
  ext d
  constructor
  · rintro ⟨i, hlow, hhigh, hd⟩
    rw [redirectionSlots, (h i hlow hhigh).1, (h i hlow hhigh).2] at hd
    exact ⟨i, hlow, hhigh, hd⟩
  · rintro ⟨i, hlow, hhigh, hd⟩
    rw [redirectionSlots, ← (h i hlow hhigh).1, ← (h i hlow hhigh).2] at hd
    exact ⟨i, hlow, hhigh, hd⟩

theorem redirectionEnds_congr {locals locals' : Locals} {index n : ℕ}
    (h : ∀ i, index ≤ i → i < index + n → locals'.inputs i = locals.inputs i ∧ locals'.outputs i = locals.outputs i) :
    redirectionEnds locals' index n = redirectionEnds locals index n := by
  ext x
  constructor
  · rintro ⟨hpos, i, hlow, hhigh, hx⟩
    rw [(h i hlow hhigh).1, (h i hlow hhigh).2] at hx
    exact ⟨hpos, i, hlow, hhigh, hx⟩
  · rintro ⟨hpos, i, hlow, hhigh, hx⟩
    rw [← (h i hlow hhigh).1, ← (h i hlow hhigh).2] at hx
    exact ⟨hpos, i, hlow, hhigh, hx⟩

theorem runStages_tableLog (strerror : ℤ → Bytes) (garbage : Locals) (stages : ℕ → Stage) (stageCount : ℕ) (lastStatus : ℤ)
    (h : TableLog v F [] ∅ ∅ ∅ []) :
    (runStages strerror garbage stages stageCount lastStatus).wp (Purview.Step t) (fun _ v' =>
      (∃ m, Wired stages stageCount F garbage v' m) ∨ ∃ k m, BrokenOff stages stageCount F garbage v' k m) v := by
  refine Prog.wp_seq (openStages_tableLog strerror stages stageCount h) ?_
  rintro ⟨locals, done⟩ v₁ (⟨rfl, G, O, I, hv₁, hlaid, hnothing⟩ | ⟨rfl, k, m, -, hk, hstop⟩)
  · rw [List.nil_append] at hv₁
    refine Prog.wp_seq (createPipes_tableLog (stageCount - 1) hv₁) ?_
    rintro ⟨locals', created, done⟩ v₂ ⟨m, H, I', hm, hcreated, hdone, hv₂, hpiped⟩
    dsimp only at hlaid hcreated hpiped
    have hcreated' : created = m := by omega
    subst hcreated'
    -- the redirections and the pipes made so far are all that was taken
    have hslots : stageSlots locals' 0 stageCount = stageSlots locals 0 stageCount :=
      stageSlots_congr fun i _ _ => ⟨congrFun hpiped.inputs i, congrFun hpiped.outputs i⟩
    have hends : redirectionEnds locals' 0 stageCount ⊆ I' := by
      rw [redirectionEnds_congr fun i _ _ => ⟨congrFun hpiped.inputs i, congrFun hpiped.outputs i⟩]
      exact hlaid.ends.trans hpiped.grown.issued
    have hrelease : emptied H (pipeSlots locals'.pipes 0 created ∪ stageSlots locals' 0 stageCount) = F := by
      rw [hslots, Set.union_comm]
      exact (hlaid.grown.trans hpiped.grown).borrowed.release
    have hown : redirectionEnds locals' 0 stageCount ∪ (Shell.pipeEnds locals'.pipes 0 created ∪ ∅) ⊆ I' := by
      rw [Set.union_empty]
      exact Set.union_subset hends hpiped.pipeEnds
    cases done with
    | false =>
      refine Prog.wp_mono (cleanup_tableLog hv₂ locals' stageCount created 0 1) fun _ v₃ hv₃ => .inl ⟨0, ?_⟩
      rw [hrelease] at hv₃
      refine ⟨hv₃.opens, hv₃.files, ?_, G, H, I, I', locals, locals', ?_, ?_, fun hne => absurd rfl hne, hv₃.children⟩
      · rw [hv₃.closed, hv₃.issued]
        exact hown
      · rw [hv₃.opened]
        exact hlaid
      · rw [hv₃.opened]
        exact hnothing
    | true =>
      have hall : created = stageCount - 1 := hdone rfl
      refine Prog.wp_seq (spawnStages_tableLog strerror stages stageCount lastStatus stageCount hv₂) ?_
      rintro ⟨locals'', spawned, done⟩ v₃ ⟨m, hm', -, -, hv₃, hin, hout, hpipes⟩
      dsimp only at hin hout hpipes
      refine Prog.wp_mono (cleanup_tableLog hv₃ locals'' stageCount created spawned _) fun _ v₄ hv₄ => .inl ⟨m, ?_⟩
      have hsame : ∀ i, 0 ≤ i → i < 0 + stageCount → locals''.inputs i = locals'.inputs i ∧ locals''.outputs i = locals'.outputs i :=
        fun i _ _ => ⟨congrFun hin i, congrFun hout i⟩
      rw [stageSlots_congr hsame, redirectionEnds_congr hsame, hpipes, hrelease] at hv₄
      refine ⟨hv₄.opens, hv₄.files, ?_, G, H, I, I', locals, locals', ?_, ?_, fun _ => ?_, ?_⟩
      · rw [hv₄.closed, hv₄.issued]
        exact hown
      · rw [hv₄.opened]
        exact hlaid
      · rw [hv₄.opened]
        exact hnothing
      · rw [hv₄.opened, ← hall]
        exact hpiped
      · rw [hv₄.children, List.nil_append]
        exact List.map_congr_left fun j _ => by rw [Nat.zero_add]
  · obtain ⟨hcount, ⟨H, O', I', K', hv₁, hlaid, hK⟩, hin, hout, hlater⟩ := hstop
    dsimp only at hlaid hin hout hlater
    rw [Nat.sub_zero] at hcount hlaid
    rw [List.nil_append] at hv₁
    have hlater' : ∀ i, k + 1 ≤ i → i < k + 1 + (stageCount - (k + 1)) →
        locals.inputs i = garbage.inputs i ∧ locals.outputs i = garbage.outputs i := fun i hi _ => hlater i hi
    have hsplit : stageSlots locals 0 stageCount = stageSlots locals 0 k ∪ stageSlots garbage (k + 1) (stageCount - (k + 1)) := by
      rw [← stageSlots_congr hlater']
      ext d
      constructor
      · rintro ⟨i, -, hi, hd⟩
        rcases Nat.lt_trichotomy i k with hlt | heq | hgt
        · exact .inl ⟨i, Nat.zero_le _, by omega, hd⟩
        · rw [heq, redirectionSlots, slotsOf_neg hin, slotsOf_neg hout, Set.union_empty] at hd
          exact hd.elim
        · exact .inr ⟨i, hgt, by omega, hd⟩
      · rintro (⟨i, -, hi, hd⟩ | ⟨i, -, hi, hd⟩)
        · exact ⟨i, Nat.zero_le _, by omega, hd⟩
        · exact ⟨i, Nat.zero_le _, by omega, hd⟩
    have hendsplit : redirectionEnds locals 0 stageCount ⊆
        redirectionEnds locals 0 k ∪ redirectionEnds garbage (k + 1) (stageCount - (k + 1)) := by
      rw [← redirectionEnds_congr hlater']
      rintro x ⟨hpos, i, -, hi, hx⟩
      rcases Nat.lt_trichotomy i k with hlt | heq | hgt
      · exact .inl ⟨hpos, i, Nat.zero_le _, by omega, hx⟩
      · rw [heq] at hx
        rcases hx with rfl | rfl
        · exact absurd hpos (not_le.mpr hin)
        · exact absurd hpos (not_le.mpr hout)
      · exact .inr ⟨hpos, i, hgt, by omega, hx⟩
    refine Prog.wp_mono (cleanup_tableLog hv₁ locals stageCount 0 0 1) fun _ v₂ hv₂ => .inr ⟨k, m, by omega, hcount, hv₂.opens, ?_, ?_,
      ?_, ?_, hv₂.children⟩
    · rw [hv₂.files, pipeSlots_zero, Set.empty_union, hsplit, ← emptied_emptied, hlaid.grown.borrowed.release]
    · rw [hv₂.closed, hv₂.issued]
      rintro x (hx | ⟨j, -, hj, -⟩ | hx)
      · rcases hendsplit hx with hx | hx
        · exact .inl (hlaid.ends hx)
        · exact .inr hx
      · omega
      · exact .inl ((hK hx).resolve_left fun h => h)
    · rw [hv₂.closed]
      rintro x ⟨hpos, i, hlow, hhigh, hx⟩
      rw [← (hlater i (by omega)).1, ← (hlater i (by omega)).2] at hx
      exact .inl ⟨hpos, i, Nat.zero_le _, by omega, hx⟩
    · intro x hx
      rw [hv₂.issued] at hx
      exact (hlaid.grown.free x hx).resolve_left fun h => h

end Shell

end CannedBsd
