import CannedBsd.Shell.Wiring

/-!
# Which files a stage inherits

The redirections of all stages are open in the shell when the first stage is spawned, and every child inherits
them. The actions of a stage close its own redirections and all pipes, but not the redirections of the other
stages.

* `Rigged.isolated_iff`: the children are isolated exactly when there is one stage or no redirection.
* `redirections_isolated_iff`: the same for every run in which all stages were spawned.
* `redirection_reaches_next_stage`: the input of the first stage is open in the second.
-/

namespace CannedBsd

open CannedBsd.Lib

namespace Shell

variable {t : TaskId} {v v' : Purview} {F G H : Files} {stages : ℕ → Stage} {stageCount : ℕ} {garbage : Locals}

/-! ### The slots of a stage -/

/-- The slots where a stage has a redirection or a pipe. -/
def Attached (stages : ℕ → Stage) (stageCount index : ℕ) (d : Fin cbMaxFds) : Prop :=
  (d = stdin ∧ ((stages index).inputPath ≠ none ∨ 0 < index)) ∨
    (d = stdout ∧ ((stages index).outputPath ≠ none ∨ index + 1 < stageCount))

/-- The files `O` of the redirections are in the child of a stage only where the stage has a redirection, and
its other slots are as in the shell or empty. -/
structure Isolated (stages : ℕ → Stage) (stageCount : ℕ) (F : Files) (O : Set FileId) (index : ℕ) (C : Files) : Prop where
  redirected : ∀ d f, C d = some f → f ∈ O →
    (d = stdin ∧ (stages index).inputPath ≠ none) ∨ (d = stdout ∧ (stages index).outputPath ≠ none)
  others : ∀ d, ¬ Attached stages stageCount index d → C d = F d ∨ C d = none

theorem dupOnto_of_ne (F : Files) (descriptor : ℤ) {d e : Fin cbMaxFds} (h : d ≠ e) : dupOnto F descriptor e d = F d := by
  rw [dupOnto]
  cases fdSlot descriptor with
  | none => rfl
  | some s => exact Function.update_of_ne h _ _

theorem dupOnto_minus_one (F : Files) (e : Fin cbMaxFds) : dupOnto F (-1) e = F := by
  rw [dupOnto, fdSlot_neg (by omega)]

/-- A stage without a redirection and a pipe in front of it reads what the shell reads. -/
theorem sourceInput_none {O : Set FileId} {I : Set ℤ} {locals : Locals} {index : ℕ}
    (h : RedirectionOpen (stages index).inputPath G O I (locals.inputs index)) (hpath : (stages index).inputPath = none)
    (hindex : index = 0) : sourceInput locals index = -1 := by
  rcases h with ⟨-, hminus⟩ | ⟨hsome, -⟩
  · rw [sourceInput, if_neg (by omega), if_neg (by omega)]
  · exact absurd hpath hsome

theorem sourceOutput_none {O : Set FileId} {I : Set ℤ} {locals : Locals} {index : ℕ}
    (h : RedirectionOpen (stages index).outputPath G O I (locals.outputs index)) (hpath : (stages index).outputPath = none)
    (hindex : ¬ index + 1 < stageCount) : sourceOutput locals stageCount index = -1 := by
  rcases h with ⟨-, hminus⟩ | ⟨hsome, -⟩
  · rw [sourceOutput, if_neg (by omega), if_neg hindex]
  · exact absurd hpath hsome

/-! ### The table of a pipeline -/

/-- The shell's table with all redirections and pipes of a pipeline. -/
structure Rigged (stages : ℕ → Stage) (stageCount : ℕ) (F H : Files) (O : Set FileId) (locals : Locals) : Prop where
  standard : F stdin ≠ none ∧ F stdout ≠ none
  borrowed : Borrowed F H (stageSlots locals 0 stageCount ∪ pipeSlots locals.pipes 0 (stageCount - 1)) ∅
  fresh : ∀ f ∈ O, ∀ e, F e ≠ some f
  inputs : ∀ i, i < stageCount → ∃ I, RedirectionOpen (stages i).inputPath H O I (locals.inputs i)
  outputs : ∀ i, i < stageCount → ∃ I, RedirectionOpen (stages i).outputPath H O I (locals.outputs i)
  apart : ∀ i j, i < stageCount → j < stageCount → i ≠ j → ∀ d ∈ redirectionSlots locals i, d ∉ redirectionSlots locals j
  pipeless : ∀ d ∈ stageSlots locals 0 stageCount, d ∉ pipeSlots locals.pipes 0 (stageCount - 1)
  nothing : redirectionCount stages 0 stageCount = 0 → O = ∅

variable {O : Set FileId} {locals : Locals}

/-- The slots that were taken are not those of the standard descriptors. -/
theorem Rigged.not_standard (h : Rigged stages stageCount F H O locals) {d : Fin cbMaxFds}
    (hd : d ∈ stageSlots locals 0 stageCount ∪ pipeSlots locals.pipes 0 (stageCount - 1)) : d ≠ stdin ∧ d ≠ stdout := by
  have hfree := h.borrowed.free d hd
  constructor
  · rintro rfl
    exact h.standard.1 hfree
  · rintro rfl
    exact h.standard.2 hfree

/-- Where nothing is attached and no other stage has a redirection, the child has what the shell had, or
nothing. -/
theorem Rigged.others (h : Rigged stages stageCount F H O locals) {i : ℕ} (hi : i < stageCount) {d : Fin cbMaxFds}
    (hd : ¬ Attached stages stageCount i d) (hown : d ∈ stageSlots locals 0 stageCount → d ∈ redirectionSlots locals i) :
    stageFiles H locals stageCount i d = F d ∨ stageFiles H locals stageCount i d = none := by
  rw [stageFiles, emptied]
  split
  · exact .inr rfl
  rename_i hclosed
  left
  have hfree : d ∉ stageSlots locals 0 stageCount ∪ pipeSlots locals.pipes 0 (stageCount - 1) := by
    rintro (hmem | hmem)
    · exact hclosed (.inr (hown hmem))
    · exact hclosed (.inl hmem)
  have hsame : H d = F d := h.borrowed.same d hfree (Set.notMem_empty d)
  obtain ⟨I, hin⟩ := h.inputs i hi
  obtain ⟨J, hout⟩ := h.outputs i hi
  by_cases hdin : d = stdin
  · subst hdin
    rw [dupOnto_of_ne _ _ stdin_ne_stdout]
    have hpath : (stages i).inputPath = none := by_contra fun hsome => hd (.inl ⟨rfl, .inl hsome⟩)
    have hzero : i = 0 := by_contra fun hne => hd (.inl ⟨rfl, .inr (Nat.pos_of_ne_zero hne)⟩)
    rw [sourceInput_none hin hpath hzero, dupOnto_minus_one]
    exact hsame
  by_cases hdout : d = stdout
  · subst hdout
    have hpath : (stages i).outputPath = none := by_contra fun hsome => hd (.inr ⟨rfl, .inl hsome⟩)
    have hlast : ¬ i + 1 < stageCount := fun hlt => hd (.inr ⟨rfl, .inr hlt⟩)
    rw [sourceOutput_none hout hpath hlast, dupOnto_minus_one, dupOnto_of_ne _ _ hdin]
    exact hsame
  · rw [dupOnto_of_ne _ _ hdout, dupOnto_of_ne _ _ hdin]
    exact hsame

/-- The redirection of another stage is open in the child. -/
theorem Rigged.leaks (h : Rigged stages stageCount F H O locals) {i j : ℕ} (hi : i < stageCount) (hj : j < stageCount)
    (hne : j ≠ i) (hpath : (stages j).inputPath ≠ none ∨ (stages j).outputPath ≠ none) :
    ∃ d f, stageFiles H locals stageCount i d = some f ∧ f ∈ O ∧ d ≠ stdin ∧ d ≠ stdout := by
  obtain ⟨d, f, hd, hf, hO⟩ : ∃ d f, d ∈ redirectionSlots locals j ∧ H d = some f ∧ f ∈ O := by
    rcases hpath with hpath | hpath
    · obtain ⟨I, hin⟩ := h.inputs j hj
      rcases hin with ⟨hnone, -⟩ | ⟨-, d, f, hd, hf, hO, -⟩
      · exact absurd hnone hpath
      · refine ⟨d, f, .inl ?_, hf, hO⟩
        rw [hd, slotsOf_val]
        rfl
    · obtain ⟨I, hout⟩ := h.outputs j hj
      rcases hout with ⟨hnone, -⟩ | ⟨-, d, f, hd, hf, hO, -⟩
      · exact absurd hnone hpath
      · refine ⟨d, f, .inr ?_, hf, hO⟩
        rw [hd, slotsOf_val]
        rfl
  have hstage : d ∈ stageSlots locals 0 stageCount := ⟨j, Nat.zero_le _, by omega, hd⟩
  obtain ⟨hin, hout⟩ := h.not_standard (.inl hstage)
  refine ⟨d, f, ?_, hO, hin, hout⟩
  have hopen : d ∉ pipeSlots locals.pipes 0 (stageCount - 1) ∪ redirectionSlots locals i := by
    rintro (hmem | hmem)
    · exact h.pipeless d hstage hmem
    · exact h.apart j i hj hi hne d hd hmem
  rw [stageFiles, emptied, if_neg hopen, dupOnto_of_ne _ _ hout, dupOnto_of_ne _ _ hin]
  exact hf

theorem redirectionCount_eq_zero (n : ℕ) : ∀ index, redirectionCount stages index n = 0 ↔
    ∀ i, index ≤ i → i < index + n → (stages i).inputPath = none ∧ (stages i).outputPath = none := by
  have hstage : ∀ stage : Stage, stageRedirections stage = 0 ↔ stage.inputPath = none ∧ stage.outputPath = none := by
    intro stage
    rw [stageRedirections]
    constructor
    · intro hzero
      by_cases hin : stage.inputPath = none
      · by_cases hout : stage.outputPath = none
        · exact ⟨hin, hout⟩
        · rw [if_neg hout] at hzero
          omega
      · rw [if_neg hin] at hzero
        omega
    · rintro ⟨hin, hout⟩
      rw [if_pos hin, if_pos hout]
  induction n with
  | zero => exact fun index => iff_of_true rfl fun i hlow hhigh => by omega
  | succ n ih =>
    intro index
    rw [redirectionCount, Nat.add_eq_zero_iff, hstage, ih]
    constructor
    · rintro ⟨hfirst, hrest⟩ i hlow hhigh
      by_cases heq : i = index
      · rw [heq]
        exact hfirst
      · exact hrest i (by omega) (by omega)
    · intro hall
      exact ⟨hall index le_rfl (by omega), fun i hlow hhigh => hall i (by omega) (by omega)⟩

/-- The children are isolated if and only if there is one stage or no redirection. -/
theorem Rigged.isolated_iff (h : Rigged stages stageCount F H O locals) (hcount : 1 ≤ stageCount) :
    (∀ i, i < stageCount → Isolated stages stageCount F O i (stageFiles H locals stageCount i)) ↔
      stageCount = 1 ∨ ∀ i, i < stageCount → (stages i).inputPath = none ∧ (stages i).outputPath = none := by
  constructor
  · intro hall
    by_contra hno
    rw [not_or] at hno
    obtain ⟨hmany, hsome⟩ := hno
    push Not at hsome
    obtain ⟨j, hj, hpath⟩ := hsome
    obtain ⟨i, hi, hne⟩ : ∃ i, i < stageCount ∧ j ≠ i := by
      by_cases hzero : j = 0
      · exact ⟨1, by omega, by omega⟩
      · exact ⟨0, by omega, hzero⟩
    have hpath' : (stages j).inputPath ≠ none ∨ (stages j).outputPath ≠ none := by
      by_cases hin : (stages j).inputPath = none
      · exact .inr (hpath hin)
      · exact .inl hin
    obtain ⟨d, f, hf, hO, hin, hout⟩ := h.leaks hi hj hne hpath'
    rcases (hall i hi).redirected d f hf hO with ⟨heq, -⟩ | ⟨heq, -⟩
    · exact hin heq
    · exact hout heq
  · intro hcond i hi
    have hown : ∀ d, d ∈ stageSlots locals 0 stageCount → d ∈ redirectionSlots locals i := by
      rintro d ⟨j, -, hj, hd⟩
      rcases hcond with hone | hnone
      · have hij : j = i := by omega
        rw [← hij]
        exact hd
      · obtain ⟨I, hin⟩ := h.inputs j (by omega)
        obtain ⟨J, hout⟩ := h.outputs j (by omega)
        have hin' : locals.inputs j = -1 := hin.elim And.right fun h => absurd (hnone j (by omega)).1 h.1
        have hout' : locals.outputs j = -1 := hout.elim And.right fun h => absurd (hnone j (by omega)).2 h.1
        rw [redirectionSlots, hin', hout', slotsOf_minus_one, Set.union_empty] at hd
        exact hd.elim
    refine ⟨fun d f hf hO => ?_, fun d hd => h.others hi hd (hown d)⟩
    rcases hcond with hone | hnone
    · by_contra hno
      have hnot : ¬ Attached stages stageCount i d := by
        rintro (⟨hd, hin | hpos⟩ | ⟨hd, hout | hlt⟩)
        · exact hno (.inl ⟨hd, hin⟩)
        · omega
        · exact hno (.inr ⟨hd, hout⟩)
        · omega
      rcases h.others hi hnot (hown d) with hsame | hempty
      · exact h.fresh f hO d (hsame.symm.trans hf)
      · rw [hempty] at hf
        cases hf
    · have hempty := h.nothing ((redirectionCount_eq_zero stageCount 0).mpr fun i _ hi => hnone i (by omega))
      rw [hempty] at hO
      exact hO.elim

/-! ### Runs -/

/-- A redirected builtin spawns nothing. -/
theorem runBuiltinRedirected_makes (strerror : ℤ → Bytes) (stage : Stage) (lastStatus : ℤ) :
    (runBuiltinRedirected strerror stage lastStatus).Makes fun call => spawnOf call = none := by
  have hquiet : ∀ {α : Type} {p : Script α}, OnlyQuiet p → p.Makes fun call => spawnOf call = none := by
    intro α p hp
    refine Prog.Makes.mono hp fun call hq => ?_
    cases call with
    | op op =>
      cases op with
      | spawn => cases hq
      | _ => rfl
    | _ => rfl
  have hclose : ∀ descriptor : ℤ, (closeIf descriptor).Makes fun call => spawnOf call = none := by
    intro descriptor
    rw [closeIf]
    split
    · exact ⟨rfl, fun _ => trivial⟩
    · trivial
  have hfour : ∀ a b c d : ℤ, (closeFour a b c d).Makes fun call => spawnOf call = none := fun a b c d =>
    (hclose a).bind fun _ => (hclose b).bind fun _ => (hclose c).bind fun _ => hclose d
  have herror : ∀ a b c d : ℤ, (descriptorError a b c d).Makes fun call => spawnOf call = none := fun a b c d =>
    (hquiet (shellError_quiet _)).bind fun _ => (hfour a b c d).bind fun _ => trivial
  have hopen : (openRedirections stage).Makes fun call => spawnOf call = none := by
    have houtput : ∀ input : ℤ, (openOutput stage input).Makes fun call => spawnOf call = none := by
      intro input
      rw [openOutput]
      split
      · trivial
      · refine Prog.Makes.ask rfl fun a => ?_
        split
        · exact (hclose input).bind fun _ => trivial
        · trivial
    rw [openRedirections]
    split
    · exact houtput (-1)
    · refine Prog.Makes.ask rfl fun a => ?_
      split
      · trivial
      · exact houtput a.value
  have hredirect : ∀ descriptor standard : ℤ, (redirect descriptor standard).Makes fun call => spawnOf call = none := by
    intro descriptor standard
    rw [redirect]
    split
    · refine Prog.Makes.ask rfl fun saved => ?_
      split
      · trivial
      · exact ⟨rfl, fun _ => trivial⟩
    · trivial
  have hback : ∀ saved standard : ℤ, (putBack saved standard).Makes fun call => spawnOf call = none := by
    intro saved standard
    rw [putBack]
    split
    · exact ⟨rfl, fun _ => trivial⟩
    · trivial
  refine hopen.bind fun r => ?_
  obtain ⟨opened, input, output⟩ := r
  dsimp only
  split
  · exact (hquiet (errorText_quiet strerror)).bind fun _ => (hquiet (shellError_quiet _)).bind fun _ => trivial
  refine (hredirect input 0).bind fun r => ?_
  obtain ⟨savedInput, done⟩ := r
  dsimp only
  split
  · exact herror _ _ _ _
  refine (hredirect output 1).bind fun r => ?_
  obtain ⟨savedOutput, done⟩ := r
  dsimp only
  split
  · exact herror _ _ _ _
  · exact (hquiet (runBuiltin_quiet strerror stage lastStatus)).bind fun _ => (hback _ _).bind fun _ =>
      (hback _ _).bind fun _ => (hfour _ _ _ _).bind fun _ => trivial

theorem children_of_no_spawn {α : Type} {p : Script α} (hp : p.Makes fun call => spawnOf call = none)
    (h : children v.log = []) : p.wp (Purview.Step t) (fun _ v' => children v'.log = []) v := by
  refine Prog.Makes.wp hp h fun v call a v' hv hcall hs => ?_
  obtain ⟨new, child, -, -, hlog⟩ := hs
  have hno : childOf call a child = none := by
    cases call with
    | op op =>
      cases op with
      | spawn => cases hcall
      | _ => rfl
    | _ => rfl
  rw [hlog, children, List.filterMap_append, ← children, hv]
  simp [hno]

theorem tableLog_start (k : Kernel) (t : TaskId) :
    TableLog (Session.purview t ⟨k, []⟩) (Table.files (k.slot t)) [] ∅ ∅ ∅ [] := by
  have hempty : ∀ {β : Type} (f : Note → Set β), {b | ∃ note ∈ ([] : List Note), b ∈ f note} = ∅ := by
    intro β f
    ext b
    refine ⟨?_, fun h => h.elim⟩
    rintro ⟨note, hmem, -⟩
    cases hmem
  exact ⟨rfl, rfl, hempty _, hempty _, hempty _, rfl⟩

/-- What a wired pipeline has in the table when the first child is spawned. -/
theorem Wired.rigged {m : ℕ} (h : Wired stages stageCount F garbage v' m) (hm : m ≠ 0)
    (hstandard : F stdin ≠ none ∧ F stdout ≠ none) :
    ∃ H locals, Rigged stages stageCount F H (openedFiles v'.log) locals ∧
      children v'.log = (List.range m).map fun j => some (stageFiles H locals stageCount j) := by
  obtain ⟨G, H, I, I', locals, locals', hlaid, hnothing, hpiped, hchildren⟩ := h.wires
  have hpiped := hpiped hm
  have hsame : ∀ i, 0 ≤ i → i < 0 + stageCount → locals'.inputs i = locals.inputs i ∧ locals'.outputs i = locals.outputs i :=
    fun i _ _ => ⟨congrFun hpiped.inputs i, congrFun hpiped.outputs i⟩
  have hslots : ∀ i, redirectionSlots locals' i = redirectionSlots locals i := by
    intro i
    rw [redirectionSlots, redirectionSlots, hpiped.inputs, hpiped.outputs]
  refine ⟨H, locals', ⟨hstandard, ?_, ?_, ?_, ?_, ?_, ?_, hnothing⟩, hchildren⟩
  · rw [stageSlots_congr hsame]
    exact (hlaid.grown.trans hpiped.grown).borrowed
  · intro f hf
    exact (hlaid.grown.fresh f hf).resolve_left fun hmem => hmem
  · intro i hi
    rw [hpiped.inputs]
    exact ⟨I', (hlaid.inputs i (Nat.zero_le _) (by omega)).mono hpiped.grown⟩
  · intro i hi
    rw [hpiped.outputs]
    exact ⟨I', (hlaid.outputs i (Nat.zero_le _) (by omega)).mono hpiped.grown⟩
  · intro i j hi hj hne d hd
    rw [hslots] at hd ⊢
    exact hlaid.apart i j (Nat.zero_le _) (by omega) (Nat.zero_le _) (by omega) hne d hd
  · intro d hd
    rw [stageSlots_congr hsame] at hd
    exact (hlaid.grown.borrowed.trans hpiped.grown.borrowed).2 d hd

/-- **Isolation of the redirections.**  In a run in which every stage was spawned, the files of the
redirections are only in the stages they belong to if and only if the pipeline has one stage or no
redirection. -/
theorem redirections_isolated_iff {k : Kernel} (hk : Attained k) (hc : k.current = some t)
    (hstandard : (k.slot t stdin).isSome ∧ (k.slot t stdout).isSome) (strerror : ℤ → Bytes) (garbage : Locals)
    (hcount : 1 ≤ stageCount) (lastStatus : ℤ) {s' : Session} {result : ℤ × Bool}
    (hrun : Prog.Runs (Session.Step t) ⟨k, []⟩ (runPipeline strerror garbage stages stageCount lastStatus) s' result)
    (hall : (children s'.log).length = stageCount) :
    (∀ i C, (children s'.log)[i]? = some (some C) →
        Isolated stages stageCount (Table.files (k.slot t)) (openedFiles s'.log) i C) ↔
      stageCount = 1 ∨ ∀ i, i < stageCount → (stages i).inputPath = none ∧ (stages i).outputPath = none := by
  obtain ⟨l, hp⟩ := hk.poised
  obtain ⟨hrun', -, -⟩ := Session.runs_purview hp hc hrun
  have hne : ∀ {d}, (k.slot t d).isSome → Table.files (k.slot t) d ≠ none := by
    intro d hd hnone
    rw [Table.files_eq_none] at hnone
    rw [hnone] at hd
    cases hd
  have hwp : (runPipeline strerror garbage stages stageCount lastStatus).wp (Purview.Step t) (fun _ v' =>
      children v'.log = [] ∨ ∃ m, m ≠ 0 ∧ Wired stages stageCount (Table.files (k.slot t)) garbage v' m)
      (Session.purview t ⟨k, []⟩) := by
    have hstages : (runStages strerror garbage stages stageCount lastStatus).wp (Purview.Step t) (fun _ v' =>
        children v'.log = [] ∨ ∃ m, m ≠ 0 ∧ Wired stages stageCount (Table.files (k.slot t)) garbage v' m)
        (Session.purview t ⟨k, []⟩) := by
      refine Prog.wp_mono (runStages_tableLog strerror garbage stages stageCount lastStatus (tableLog_start k t)) ?_
      rintro _ v' (⟨m, hwired⟩ | ⟨i, m, hbroken⟩)
      · by_cases hm : m = 0
        · obtain ⟨G, H, I, I', locals, locals', -, -, -, hchildren⟩ := hwired.wires
          rw [hm] at hchildren
          exact .inl hchildren
        · exact .inr ⟨m, hm, hwired⟩
      · exact .inl hbroken.children
    rw [runPipeline]
    split
    · split
      · trivial
      · split
        · exact Prog.wp_mono (children_of_no_spawn (runBuiltinRedirected_makes strerror _ lastStatus) rfl) fun _ _ h => .inl h
        · exact hstages
    · exact hstages
  rcases hrun'.post hwp with hnone | ⟨m, hm, hwired⟩
  · have : (children s'.log).length = 0 := congrArg List.length hnone
    omega
  · obtain ⟨H, locals, hrigged, hchildren⟩ := hwired.rigged hm ⟨hne hstandard.1, hne hstandard.2⟩
    have hchildren' : children s'.log = (List.range m).map fun j => some (stageFiles H locals stageCount j) := hchildren
    have hm' : m = stageCount := by
      rw [hchildren', List.length_map, List.length_range] at hall
      exact hall
    subst hm'
    rw [← hrigged.isolated_iff hcount, hchildren']
    refine forall_congr' fun i => ?_
    constructor
    · intro h hi
      refine h _ ?_
      rw [List.getElem?_map, List.getElem?_range hi]
      rfl
    · intro h C hC
      rw [List.getElem?_map] at hC
      obtain ⟨j, hj, hjC⟩ := Option.map_eq_some_iff.mp hC
      obtain ⟨hi, hji⟩ := List.getElem?_eq_some_iff.mp hj
      rw [List.getElem_range] at hji
      subst hji
      cases hjC
      rw [List.length_range] at hi
      exact h hi

/-- `sh </d`, and `sh` in the other stages. -/
def inputStages : ℕ → Stage := fun i => if i = 0 then { shStages 0 with inputPath := some dPath } else shStages i

/-- The child of `sh </d` has `/d` as its input and nowhere else. -/
theorem redirections_isolated_one :
    ∃ s' result, Prog.Runs (Session.Step 0) ⟨crowded 0, []⟩ (runPipeline (fun _ => []) noLocals inputStages 1 0) s' result ∧
      ∀ i C, (children s'.log)[i]? = some (some C) →
        Isolated inputStages 1 (Table.files ((crowded 0).slot 0)) (openedFiles s'.log) i C := by
  have hplay : (Session.play 0 (runPipeline (fun _ => []) noLocals inputStages 1 0)
      [[.schedule .calm, .call .calm (.exit 5)]] ⟨crowded 0, []⟩).map (fun r => (children r.1.log).length) = some 1 := by
    decide +kernel
  obtain ⟨⟨s', result⟩, hplay, hall⟩ := Option.map_eq_some_iff.mp hplay
  have hrun := Session.runs_of_play hplay
  refine ⟨s', result, hrun, ?_⟩
  exact (redirections_isolated_iff (.of_reachable (reachable_stateAfter _)) (by decide +kernel) (by decide +kernel) _ _ le_rfl _
    hrun hall).mpr (.inl rfl)

/-- In `sh </d | sh`, the second child has the input of the first as its descriptor 4. -/
theorem redirection_reaches_next_stage :
    Attained (crowded 0) ∧ (crowded 0).current = some 0 ∧ (∀ d : Fin cbMaxFds, d.val < 3 → ((crowded 0).slot 0 d).isSome) ∧
      ∃ s' result, Prog.Runs (Session.Step 0) ⟨crowded 0, []⟩ (runPipeline (fun _ => []) noLocals inputStages 2 0) s' result ∧
        (children s'.log).length = 2 ∧
        ∃ C, (children s'.log)[1]? = some (some C) ∧
          ¬ Isolated inputStages 2 (Table.files ((crowded 0).slot 0)) (openedFiles s'.log) 1 C := by
  have hplay : (Session.play 0 (runPipeline (fun _ => []) noLocals inputStages 2 0)
      [[.schedule .calm, .call .calm (.exit 5), .schedule .calm, .call .calm (.exit 7)]] ⟨crowded 0, []⟩).map
      (fun r => ((children r.1.log).length, (children r.1.log)[1]?.map (Option.map fun C => C ⟨4, by decide⟩),
        r.1.log.any fun note => decide (openOf note.call note.answer = some true) && decide (note.answer.value = 4) &&
          decide (note.table.files ⟨4, by decide⟩ = some 4))) = some (2, some (some (some 4)), true) := by
    decide +kernel
  obtain ⟨⟨s', result⟩, hplay, hlog⟩ := Option.map_eq_some_iff.mp hplay
  simp only [Prod.mk.injEq] at hlog
  obtain ⟨hall, hchild, hopened⟩ := hlog
  obtain ⟨child, hchild, hfile⟩ := Option.map_eq_some_iff.mp hchild
  obtain ⟨C, rfl, hleak⟩ := Option.map_eq_some_iff.mp hfile
  obtain ⟨note, hmem, hnote⟩ := List.any_eq_true.mp hopened
  simp only [Bool.and_eq_true, decide_eq_true_eq] at hnote
  refine ⟨.of_reachable (reachable_stateAfter _), by decide +kernel, by decide +kernel, s', result, Session.runs_of_play hplay,
    hall, C, hchild, fun hisolated => ?_⟩
  have hmine : (4 : FileId) ∈ openedFiles s'.log := ⟨note, hmem, hnote.1.1, ⟨4, by decide⟩, hnote.1.2, hnote.2⟩
  rcases hisolated.redirected _ _ hleak hmine with ⟨heq, -⟩ | ⟨heq, -⟩
  · exact absurd heq (by decide)
  · exact absurd heq (by decide)

end Shell

end CannedBsd
