import CannedBsd.Shell.Redirections

/-!
# The children of a pipeline

`run_pipeline` opens the redirections, makes the pipes, spawns the stages in order and waits for what it
spawned, one by one. Whatever call fails, it reaps all its children, and its status says how far it came.

* `runPipeline_phase`: what `run_pipeline` has done to other tasks when it returns.
* `pipeline_reaps_and_reports`: it has spawned a child for each stage it came to, in order, and reaped all of
  them, and its status is that of the last stage or of what failed.
-/

namespace CannedBsd

open CannedBsd.Lib

namespace Shell

/-! ### What the calls came to -/

/-- The call was an `open` or a `pipe`, and it failed. -/
def setupFails (call : TableCall) (a : Answer) : Prop :=
  ((∃ path flags mode, call = .op (.openPath path flags mode)) ∨ call = .op .pipe) ∧ a.value < 0

/-- The program and the arguments of a `spawn`. -/
def spawnOf : TableCall → Option (Bytes × List Bytes)
  | .op (.spawn programName argv _ _) => some (programName, argv)
  | _ => none

/-- A spawn that succeeded: its program and arguments, and the pid it returned. -/
abbrev Start := (Bytes × List Bytes) × Out

/-- The spawns that succeeded, in order. -/
def started (log : List Note) : List Start :=
  log.filterMap fun note =>
    if 0 ≤ note.answer.value then (spawnOf note.call).map fun arguments => (arguments, note.answer.out) else none

/-- The spawns that failed, in order. -/
def refused (log : List Note) : List (Bytes × List Bytes) :=
  log.filterMap fun note => if 0 ≤ note.answer.value then none else spawnOf note.call

/-- Some redirection was not opened or some pipe not made. -/
def SetupFailed (log : List Note) : Prop := ∃ note ∈ log, setupFails note.call note.answer

/-- How far the pipeline has come. -/
structure PipelinePhase (v : Purview) (failed : Prop) (ups : List Start) (downs : List (Bytes × List Bytes))
    (D : List Passage) : Prop where
  setup : SetupFailed v.log ↔ failed
  ups : started v.log = ups
  downs : refused v.log = downs
  deeds : v.deeds = D

variable {t : TaskId} {v v' : Purview} {failed : Prop} {ups : List Start} {downs : List (Bytes × List Bytes)}
  {D : List Passage} {call : TableCall} {a : Answer}

theorem setupFailed_append (log : List Note) (note : Note) :
    SetupFailed (log ++ [note]) ↔ SetupFailed log ∨ setupFails note.call note.answer := by
  constructor
  · rintro ⟨x, hmem, hx⟩
    rcases List.mem_append.mp hmem with hmem | hmem
    · exact .inl ⟨x, hmem, hx⟩
    · rw [List.mem_singleton.mp hmem] at hx
      exact .inr hx
  · rintro (⟨x, hmem, hx⟩ | hx)
    · exact ⟨x, List.mem_append_left _ hmem, hx⟩
    · exact ⟨note, List.mem_append_right _ (List.mem_singleton_self note), hx⟩

/-- A call that spawns nothing. -/
theorem PipelinePhase.other (h : PipelinePhase v failed ups downs D) (hs : v.Step t call a v') (hcall : spawnOf call = none)
    {D' : List Passage} (hdeeds : v'.deeds = D') : PipelinePhase v' (failed ∨ setupFails call a) ups downs D' := by
  obtain ⟨new, child, -, -, hlog⟩ := hs
  refine ⟨?_, ?_, ?_, hdeeds⟩
  · rw [hlog, setupFailed_append, h.setup]
  · rw [hlog, started, List.filterMap_append, ← started, h.ups]
    simp [hcall]
  · rw [hlog, refused, List.filterMap_append, ← refused, h.downs]
    simp [hcall]

theorem PipelinePhase.congr {failed' : Prop} (h : PipelinePhase v failed ups downs D) (hiff : failed ↔ failed') :
    PipelinePhase v failed' ups downs D :=
  ⟨h.setup.trans hiff, h.ups, h.downs, h.deeds⟩

/-- A call that neither spawns nor belongs to the setup. -/
theorem PipelinePhase.plain (h : PipelinePhase v failed ups downs D) (hs : v.Step t call a v') (hcall : spawnOf call = none)
    (hno : call.noOpen) (hpipe : call ≠ .op .pipe) {D' : List Passage} (hdeeds : v'.deeds = D') :
    PipelinePhase v' failed ups downs D' := by
  refine (h.other hs hcall hdeeds).congr (or_iff_left ?_)
  rintro ⟨⟨path, flags, mode, heq⟩ | heq, -⟩
  · exact hno path flags mode heq
  · exact hpipe heq

theorem PipelinePhase.quiet (h : PipelinePhase v failed ups downs D) (hq : call.quiet = true) (hs : v.Step t call a v') :
    PipelinePhase v' failed ups downs D := by
  have hdeeds : v'.deeds = D := by
    obtain ⟨new, child, hadmits, hdeeds, -⟩ := hs
    rw [hdeeds, (hadmits.quiet hq).2, List.append_nil, h.deeds]
  have hspawn : spawnOf call = none := by
    cases call with
    | op op =>
      cases op with
      | spawn => cases hq
      | _ => rfl
    | _ => rfl
  refine h.plain hs hspawn ?_ ?_ hdeeds
  · rintro path flags mode rfl
    cases hq
  · rintro rfl
    cases hq

theorem OnlyQuiet.phase {α : Type} {p : Script α} (hp : OnlyQuiet p) (h : PipelinePhase v failed ups downs D) :
    p.wp (Purview.Step t) (fun _ v' => PipelinePhase v' failed ups downs D) v :=
  Prog.Makes.wp hp h fun _ _ _ _ hv hq hs => hv.quiet hq hs

theorem PipelinePhase.close (h : PipelinePhase v failed ups downs D) {descriptor : ℤ}
    (hs : v.Step t (.op (.close descriptor)) a v') :
    PipelinePhase v' failed ups downs D := by
  have hdeeds : v'.deeds = D := by
    obtain ⟨new, child, hadmits, hdeeds, -⟩ := hs
    rw [hdeeds, hadmits.1, List.append_nil, h.deeds]
  refine h.plain hs rfl ?_ ?_ hdeeds
  · rintro path flags mode heq
    cases heq
  · intro heq
    cases heq

theorem closeIf_phase (h : PipelinePhase v failed ups downs D) (descriptor : ℤ) :
    (closeIf descriptor).wp (Purview.Step t) (fun _ v' => PipelinePhase v' failed ups downs D) v := by
  rw [closeIf]
  split
  · exact fun a v' hs => h.close hs
  · exact h

/-! ### The setup -/

theorem PipelinePhase.open (h : PipelinePhase v failed ups downs D) {path : Bytes} {flags : OpenFlags} {mode : ℕ}
    (hs : v.Step t (.op (.openPath path flags mode)) a v') :
    (a.value < 0 ∧ PipelinePhase v' True ups downs D) ∨ (0 ≤ a.value ∧ PipelinePhase v' failed ups downs D) := by
  have hdeeds : v'.deeds = D := by
    obtain ⟨new, child, hadmits, hdeeds, -⟩ := hs
    rw [hdeeds, hadmits.1, List.append_nil, h.deeds]
  have hnext := h.other hs rfl hdeeds
  rcases lt_or_ge a.value 0 with hneg | hpos
  · exact .inl ⟨hneg, hnext.congr (iff_true_intro (.inr ⟨.inl ⟨path, flags, mode, rfl⟩, hneg⟩))⟩
  · exact .inr ⟨hpos, hnext.congr (or_iff_left fun hfail => not_lt.mpr hpos hfail.2)⟩

theorem PipelinePhase.pipe (h : PipelinePhase v failed ups downs D) (hs : v.Step t (.op .pipe) a v') :
    (a.value < 0 ∧ PipelinePhase v' True ups downs D) ∨ (0 ≤ a.value ∧ PipelinePhase v' failed ups downs D) := by
  have hdeeds : v'.deeds = D := by
    obtain ⟨new, child, hadmits, hdeeds, -⟩ := hs
    rw [hdeeds, hadmits.1, List.append_nil, h.deeds]
  have hnext := h.other hs rfl hdeeds
  rcases lt_or_ge a.value 0 with hneg | hpos
  · exact .inl ⟨hneg, hnext.congr (iff_true_intro (.inr ⟨.inr rfl, hneg⟩))⟩
  · exact .inr ⟨hpos, hnext.congr (or_iff_left fun hfail => not_lt.mpr hpos hfail.2)⟩

theorem openRedirections_phase (h : PipelinePhase v failed ups downs D) (stage : Stage) :
    (openRedirections stage).wp (Purview.Step t) (fun r v' =>
      (r.1 = -1 ∧ PipelinePhase v' True ups downs D) ∨ (r.1 = 0 ∧ PipelinePhase v' failed ups downs D)) v := by
  have hthen : ∀ {input : ℤ} {v' : Purview}, PipelinePhase v' failed ups downs D →
      (openOutput stage input).wp (Purview.Step t) (fun r v' =>
        (r.1 = -1 ∧ PipelinePhase v' True ups downs D) ∨ (r.1 = 0 ∧ PipelinePhase v' failed ups downs D)) v' := by
    intro input v' hv'
    rw [openOutput]
    split
    · exact .inr ⟨rfl, hv'⟩
    · intro a v'' hs
      show Prog.wp (Purview.Step t) (if a.value < 0 then _ else _) _ v''
      rcases hv'.open hs with ⟨ha, hv''⟩ | ⟨ha, hv''⟩
      · rw [if_pos ha]
        exact Prog.wp_seq (closeIf_phase hv'' input) fun _ v₃ hv₃ => .inl ⟨rfl, hv₃⟩
      · rw [if_neg (not_lt.mpr ha)]
        exact .inr ⟨rfl, hv''⟩
  rw [openRedirections]
  split
  · exact hthen h
  · intro a v' hs
    show Prog.wp (Purview.Step t) (if a.value < 0 then _ else _) _ v'
    rcases h.open hs with ⟨ha, hv'⟩ | ⟨ha, hv'⟩
    · rw [if_pos ha]
      exact .inl ⟨rfl, hv'⟩
    · rw [if_neg (not_lt.mpr ha)]
      exact hthen hv'

theorem openStages_phase (strerror : ℤ → Bytes) (stages : ℕ → Stage) (n : ℕ) :
    ∀ {index : ℕ} {locals : Locals} {v : Purview}, PipelinePhase v False ups downs D →
      (openStages strerror stages n index locals).wp (Purview.Step t) (fun r v' =>
        PipelinePhase v' (r.2 = false) ups downs D) v := by
  induction n with
  | zero => exact fun h => h.congr (by simp)
  | succ n ih =>
    intro index locals v h
    rw [openStages]
    split
    · trivial
    refine Prog.wp_seq (openRedirections_phase h (stages index)) ?_
    rintro ⟨opened, input, output⟩ v₁ (⟨rfl, hv₁⟩ | ⟨rfl, hv₁⟩)
    · refine Prog.wp_seq ((errorText_quiet strerror).phase hv₁) fun text v₂ hv₂ => ?_
      exact Prog.wp_seq ((shellError_quiet text).phase hv₂) fun _ v₃ hv₃ => hv₃.congr (by simp)
    · exact ih hv₁

theorem createPipes_phase (n : ℕ) :
    ∀ {index : ℕ} {locals : Locals} {v : Purview}, PipelinePhase v False ups downs D →
      (createPipes n index locals).wp (Purview.Step t) (fun r v' => PipelinePhase v' (r.2.2 = false) ups downs D) v := by
  induction n with
  | zero => exact fun h => h.congr (by simp)
  | succ n ih =>
    intro index locals v h
    rw [createPipes]
    split
    · trivial
    intro a v₁ hs
    show Prog.wp (Purview.Step t) (if a.value < 0 then _ else _) _ v₁
    rcases h.pipe hs with ⟨ha, hv₁⟩ | ⟨ha, hv₁⟩
    · rw [if_pos ha]
      exact Prog.wp_seq ((shellError_quiet _).phase hv₁) fun _ v₂ hv₂ => hv₂.congr (by simp)
    · rw [if_neg (not_lt.mpr ha)]
      split
      · exact ih hv₁
      · exact ih hv₁

/-! ### Spawning -/

/-- A child and its pid. -/
abbrev Child := TaskId × ℕ

def spawnedBy (t : TaskId) (child : Child) : Passage := .spawned (some t) child.1 child.2

def reapedBy (t : TaskId) (child : Child) (status : ℤ) : Passage := .reaped t child.1 child.2 status

/-- A pid is given to one task, and only what was spawned is reaped. -/
structure PidsKept (E : List Passage) : Prop where
  unique : ∀ {p q : Option TaskId} {b c : TaskId} {n : ℕ}, .spawned p b n ∈ E → .spawned q c n ∈ E → b = c
  born : ∀ {c : TaskId}, Buried E c → ∃ p n, .spawned p c n ∈ E

/-- Neither the task nor its pid has been there before. -/
def NeverSeen (E : List Passage) (child : Child) : Prop := ∀ p b m, .spawned p b m ∈ E → b ≠ child.1 ∧ m ≠ child.2

variable {E : List Passage} {child : Child}

theorem spawned_mem_snoc {p : Option TaskId} {b : TaskId} {m : ℕ} (h : .spawned p b m ∈ E ++ [spawnedBy t child]) :
    .spawned p b m ∈ E ∨ b = child.1 ∧ m = child.2 := by
  rcases List.mem_append.mp h with h | h
  · exact .inl h
  · cases List.mem_singleton.mp h
    exact .inr ⟨rfl, rfl⟩

theorem buried_spawned {c : TaskId} : Buried (E ++ [spawnedBy t child]) c ↔ Buried E c := by
  constructor
  · rintro ⟨p, n, status, hmem⟩
    rcases List.mem_append.mp hmem with hmem | hmem
    · exact ⟨p, n, status, hmem⟩
    · cases List.mem_singleton.mp hmem
  · rintro ⟨p, n, status, hmem⟩
    exact ⟨p, n, status, List.mem_append_left _ hmem⟩

theorem PidsKept.spawned (h : PidsKept E) (hfresh : NeverSeen E child) : PidsKept (E ++ [spawnedBy t child]) where
  unique := by
    intro p q b c n hb hc
    rcases spawned_mem_snoc hb with hb | ⟨rfl, rfl⟩
    · rcases spawned_mem_snoc hc with hc | ⟨-, hn⟩
      · exact h.unique hb hc
      · exact absurd hn (hfresh p b n hb).2
    · rcases spawned_mem_snoc hc with hc | ⟨rfl, -⟩
      · exact absurd rfl (hfresh q c _ hc).2
      · rfl
  born := by
    intro c hb
    obtain ⟨p, n, hmem⟩ := h.born (buried_spawned.mp hb)
    exact ⟨p, n, List.mem_append_left _ hmem⟩

theorem PipelinePhase.spawn (h : PipelinePhase v failed ups downs D) {programName : Bytes} {argv : List Bytes}
    {actions : List SpawnAction} (hs : v.Step t (.op (.spawn programName argv none actions)) a v') :
    (a.value < 0 ∧ PipelinePhase v' failed ups (downs ++ [(programName, argv)]) D) ∨
    ∃ child, a.value = 0 ∧ a.out = .pid child.2 ∧ NeverSeen D child ∧
      PipelinePhase v' failed (ups ++ [((programName, argv), .pid child.2)]) downs (D ++ [spawnedBy t child]) := by
  obtain ⟨new, child, ⟨-, hspawn⟩, hdeeds, hlog⟩ := hs
  have hsetup : ∀ c, SetupFailed (v.log ++ [⟨.op (.spawn programName argv none actions), a, v'.table, c⟩]) ↔ failed := by
    intro c
    rw [setupFailed_append, h.setup]
    refine or_iff_left ?_
    rintro ⟨⟨path, flags, mode, heq⟩ | heq, -⟩ <;> cases heq
  rcases hspawn with ⟨ha, hnew⟩ | ⟨c, n, T₁, ha, hout, hnew, -, -, hfresh⟩
  · refine .inl ⟨by omega, ?_, ?_, ?_, ?_⟩
    · rw [hlog]
      exact hsetup child
    · rw [hlog, started, List.filterMap_append, ← started, h.ups]
      simp [ha]
    · rw [hlog, refused, List.filterMap_append, ← refused, h.downs]
      simp [ha, spawnOf]
    · rw [hdeeds, hnew, List.append_nil, h.deeds]
  · rw [h.deeds] at hfresh hdeeds
    refine .inr ⟨(c, n), ha, hout, hfresh, ?_, ?_, ?_, ?_⟩
    · rw [hlog]
      exact hsetup child
    · rw [hlog, started, List.filterMap_append, ← started, h.ups]
      simp [ha, hout, spawnOf]
    · rw [hlog, refused, List.filterMap_append, ← refused, h.downs]
      simp [ha]
    · rw [hdeeds, hnew]
      rfl

/-- What a stage is spawned with. -/
def stageArguments (stages : ℕ → Stage) (lastStatus : ℤ) (index : ℕ) : Option (Bytes × List Bytes) :=
  ((stages index).argv 0).bind fun name => spawnArguments (stages index) name lastStatus

/-- The spawns of the children `cs` for the stages from `index` on: the `j`-th was that of the stage `index + j`. -/
def stageStarts (stages : ℕ → Stage) (lastStatus : ℤ) (index : ℕ) (cs : List Child) :
    List (Option (Bytes × List Bytes) × Out) :=
  cs.mapIdx fun j child => (stageArguments stages lastStatus (index + j), .pid child.2)

theorem stageStarts_cons (stages : ℕ → Stage) (lastStatus : ℤ) (index : ℕ) (child : Child) (cs : List Child) :
    stageStarts stages lastStatus index (child :: cs) =
      (stageArguments stages lastStatus index, .pid child.2) :: stageStarts stages lastStatus (index + 1) cs := by
  rw [stageStarts, List.mapIdx_cons, stageStarts, Nat.add_zero]
  congr 1
  apply List.ext_getElem?
  intro j
  rw [List.getElem?_mapIdx, List.getElem?_mapIdx, show index + (j + 1) = index + 1 + j by omega]

/-- The children `cs` were spawned for the stages from `index` on, and wait to be reaped. -/
structure Brood (t : TaskId) (E : List Passage) (pids : ℕ → ℤ) (index : ℕ) (cs : List Child) : Prop where
  pidsKept : PidsKept (E ++ cs.map (spawnedBy t))
  fresh : ∀ child ∈ cs, NeverSeen E child
  unburied : ∀ child ∈ cs, ¬ Buried (E ++ cs.map (spawnedBy t)) child.1
  nodup : (cs.map Prod.fst).Nodup
  pids : ∀ j child, cs[j]? = some child → pids (index + j) = child.2

theorem Brood.nil (h : PidsKept E) (pids : ℕ → ℤ) (index : ℕ) : Brood t E pids index [] where
  pidsKept := by
    rw [List.map_nil, List.append_nil]
    exact h
  fresh := List.forall_mem_nil _
  unburied := List.forall_mem_nil _
  nodup := List.nodup_nil
  pids := by
    intro j child hj
    cases hj

theorem Brood.cons {pids : ℕ → ℤ} {index : ℕ} {cs : List Child} (h : PidsKept E) (hfresh : NeverSeen E child)
    (hrest : Brood t (E ++ [spawnedBy t child]) pids (index + 1) cs) (hpid : pids index = child.2) :
    Brood t E pids index (child :: cs) := by
  have happend : E ++ (child :: cs).map (spawnedBy t) = (E ++ [spawnedBy t child]) ++ cs.map (spawnedBy t) := by simp
  have hnew : ∀ child' ∈ cs, NeverSeen E child' ∧ child'.1 ≠ child.1 := by
    intro child' hmem
    have hf := hrest.fresh child' hmem
    refine ⟨fun p b m hb => hf p b m (List.mem_append_left _ hb), ?_⟩
    exact (hf (some t) child.1 child.2 (List.mem_append_right _ (List.mem_singleton_self _))).1.symm
  -- only spawns were added, so that what is buried was buried before
  have hburied : ∀ (cs : List Child) {E : List Passage} {c : TaskId}, Buried (E ++ cs.map (spawnedBy t)) c → Buried E c := by
    intro cs
    induction cs with
    | nil =>
      intro E c hb
      rw [List.map_nil, List.append_nil] at hb
      exact hb
    | cons x cs ih =>
      intro E c hb
      rw [List.map_cons, List.append_cons] at hb
      exact buried_spawned.mp (ih hb)
  refine ⟨?_, ?_, ?_, ?_, ?_⟩
  · rw [happend]
    exact hrest.pidsKept
  · intro child' hmem
    rcases List.mem_cons.mp hmem with rfl | hmem
    · exact hfresh
    · exact (hnew child' hmem).1
  · intro child' hmem
    rw [happend]
    rcases List.mem_cons.mp hmem with rfl | hmem
    · intro hb
      obtain ⟨p, n, hborn⟩ := h.born (buried_spawned.mp (hburied cs hb))
      exact (hfresh p _ n hborn).1 rfl
    · exact hrest.unburied child' hmem
  · rw [List.map_cons, List.nodup_cons]
    refine ⟨fun hmem => ?_, hrest.nodup⟩
    obtain ⟨child', hmem', heq⟩ := List.mem_map.mp hmem
    exact (hnew child' hmem').2 heq
  · intro j child' hj
    cases j with
    | zero =>
      cases hj
      exact hpid
    | succ j =>
      rw [show index + (j + 1) = index + 1 + j by omega]
      exact hrest.pids j child' hj

/-- What the loop over `spawn` comes to: the stages from `index` on were spawned in order, all of them or
up to the one that failed. -/
structure Spawned (t : TaskId) (stages : ℕ → Stage) (lastStatus : ℤ) (ups : List Start) (E : List Passage)
    (n index : ℕ) (locals locals' : Locals) (spawned : ℕ) (done : Bool) (v' : Purview) (cs : List Child) : Prop where
  count : spawned = index + cs.length
  brood : Brood t E locals'.pids index cs
  earlier : ∀ i, i < index → locals'.pids i = locals.pids i
  outcome : ∃ starts stops, PipelinePhase v' False (ups ++ starts) stops (E ++ cs.map (spawnedBy t)) ∧
    starts.map (Prod.map some id) = stageStarts stages lastStatus index cs ∧
    (done = true ∧ cs.length = n ∧ stops = [] ∨
      done = false ∧ cs.length < n ∧ stops.map some = [stageArguments stages lastStatus (index + cs.length)])

theorem spawnStages_phase (strerror : ℤ → Bytes) (stages : ℕ → Stage) (stageCount : ℕ) (lastStatus : ℤ) (n : ℕ) :
    ∀ {index : ℕ} {locals : Locals} {v : Purview} {ups : List Start} {E : List Passage}, PidsKept E →
      PipelinePhase v False ups [] E →
      (spawnStages strerror stages stageCount lastStatus n index locals).wp (Purview.Step t) (fun r v' =>
        ∃ cs, Spawned t stages lastStatus ups E n index locals r.1 r.2.1 r.2.2 v' cs) v := by
  induction n with
  | zero =>
    intro index locals v ups E horder h
    refine ⟨[], rfl, .nil horder _ _, fun _ _ => rfl, [], [], ?_, rfl, .inl ⟨rfl, rfl, rfl⟩⟩
    rw [List.append_nil, List.map_nil, List.append_nil]
    exact h
  | succ n ih =>
    intro index locals v ups E horder h
    rw [spawnStages]
    split
    · rename_i name actions hname hactions
      split
      · trivial
      · rename_i programName argv harguments
        have hstage : stageArguments stages lastStatus index = some (programName, argv) := by
          rw [stageArguments, hname]
          exact harguments
        split
        · trivial
        intro a v₁ hs
        show Prog.wp (Purview.Step t) (if a.value < 0 then _ else _) _ v₁
        rcases h.spawn hs with ⟨ha, hv₁⟩ | ⟨child, ha, hout, hfresh, hv₁⟩
        · rw [if_pos ha]
          refine Prog.wp_seq ((say_quiet _).phase hv₁) fun _ v₂ hv₂ => ?_
          refine Prog.wp_seq ((say_quiet _).phase hv₂) fun _ v₃ hv₃ => ?_
          refine Prog.wp_seq ((say_quiet _).phase hv₃) fun _ v₄ hv₄ => ?_
          refine Prog.wp_seq ((errorText_quiet strerror).phase hv₄) fun text v₅ hv₅ => ?_
          refine Prog.wp_seq ((say_quiet _).phase hv₅) fun _ v₆ hv₆ => ?_
          refine Prog.wp_seq ((say_quiet _).phase hv₆) fun _ v₇ hv₇ => ?_
          refine ⟨[], rfl, .nil horder _ _, fun _ _ => rfl, [], [(programName, argv)], ?_, rfl,
            .inr ⟨rfl, Nat.succ_pos n, ?_⟩⟩
          · rw [List.append_nil, List.map_nil, List.append_nil]
            exact hv₇
          · rw [List.map_singleton, List.length_nil, Nat.add_zero, hstage]
        · rw [if_neg (by omega), hout]
          dsimp only
          refine Prog.wp_mono (ih (horder.spawned hfresh) hv₁) ?_
          rintro ⟨locals', spawned, done⟩ v₂ ⟨cs, hcount, hbrood, hearlier, starts, stops, hphase, hstarts, hend⟩
          dsimp only at hcount
          have hpid : locals'.pids index = child.2 := by
            rw [hearlier index (Nat.lt_succ_self index)]
            exact Function.update_self ..
          refine ⟨child :: cs, ?_, .cons horder hfresh hbrood hpid, ?_, ((programName, argv), .pid child.2) :: starts, stops,
            ?_, ?_, ?_⟩
          · show spawned = index + (cs.length + 1)
            omega
          · intro i hi
            rw [hearlier i (by omega)]
            exact Function.update_of_ne (by omega) _ _
          · rw [List.map_cons, List.append_cons E, List.append_cons ups]
            exact hphase
          · rw [List.map_cons, hstarts, stageStarts_cons, hstage]
            rfl
          · rw [List.length_cons, show index + (cs.length + 1) = index + 1 + cs.length by omega]
            refine hend.imp (fun h => ⟨h.1, by omega, h.2.2⟩) fun h => ⟨h.1, by omega, h.2.2⟩
    · trivial

/-! ### Waiting -/

theorem buried_reaped {b c : TaskId} {n : ℕ} {status : ℤ} :
    Buried (E ++ [.reaped t c n status]) b ↔ Buried E b ∨ b = c := by
  constructor
  · rintro ⟨p, m, s, hmem⟩
    rcases List.mem_append.mp hmem with hmem | hmem
    · exact .inl ⟨p, m, s, hmem⟩
    · cases List.mem_singleton.mp hmem
      exact .inr rfl
  · rintro (⟨p, m, s, hmem⟩ | rfl)
    · exact ⟨p, m, s, List.mem_append_left _ hmem⟩
    · exact ⟨t, n, status, List.mem_append_right _ (List.mem_singleton_self _)⟩

theorem spawned_mem_reaped {p : Option TaskId} {b c : TaskId} {m n : ℕ} {status : ℤ} :
    .spawned p b m ∈ E ++ [.reaped t c n status] ↔ .spawned p b m ∈ E := by
  rw [List.mem_append, List.mem_singleton]
  exact or_iff_left fun h => by cases h

/-- The children that are still to be reaped. -/
structure Pending (t : TaskId) (E : List Passage) (pids : ℕ → ℤ) (index : ℕ) (cs : List Child) : Prop where
  unique : ∀ {p q : Option TaskId} {b c : TaskId} {n : ℕ}, .spawned p b n ∈ E → .spawned q c n ∈ E → b = c
  spawned : ∀ child ∈ cs, spawnedBy t child ∈ E
  unburied : ∀ child ∈ cs, ¬ Buried E child.1
  nodup : (cs.map Prod.fst).Nodup
  pids : ∀ j child, cs[j]? = some child → pids (index + j) = child.2

theorem Brood.pending {pids : ℕ → ℤ} {index : ℕ} {cs : List Child} (h : Brood t E pids index cs) :
    Pending t (E ++ cs.map (spawnedBy t)) pids index cs where
  unique := h.pidsKept.unique
  spawned := fun _ hmem => List.mem_append_right _ (List.mem_map_of_mem hmem)
  unburied := h.unburied
  nodup := h.nodup
  pids := h.pids

theorem Pending.reaped {pids : ℕ → ℤ} {index : ℕ} {cs : List Child} (h : Pending t E pids index (child :: cs))
    (status : ℤ) : Pending t (E ++ [reapedBy t child status]) pids (index + 1) cs where
  unique := fun hb hc => h.unique (spawned_mem_reaped.mp hb) (spawned_mem_reaped.mp hc)
  spawned := fun c hmem => spawned_mem_reaped.mpr (h.spawned c (List.mem_cons_of_mem _ hmem))
  unburied := by
    intro c hmem hb
    rcases buried_reaped.mp hb with hb | heq
    · exact h.unburied c (List.mem_cons_of_mem _ hmem) hb
    · have hnodup := h.nodup
      rw [List.map_cons, List.nodup_cons] at hnodup
      exact hnodup.1 (heq ▸ List.mem_map_of_mem hmem)
  nodup := by
    have hnodup := h.nodup
    rw [List.map_cons, List.nodup_cons] at hnodup
    exact hnodup.2
  pids := by
    intro j c hj
    rw [show index + 1 + j = index + (j + 1) by omega]
    exact h.pids (j + 1) c hj

/-- A `waitpid` for a child that waits to be reaped reaps it. -/
theorem PipelinePhase.waitpid {pids : ℕ → ℤ} {index : ℕ} {cs : List Child} (h : PipelinePhase v failed ups downs E)
    (hp : Pending t E pids index (child :: cs)) (hs : v.Step t (.op (.waitpid (pids index))) a v') :
    ∃ status, a.value = child.2 ∧ a.out = .status status ∧
      PipelinePhase v' failed ups downs (E ++ [reapedBy t child status]) := by
  have hpid : pids index = child.2 := hp.pids 0 child rfl
  have hspawned : .spawned (some t) child.1 child.2 ∈ E := hp.spawned child (List.mem_cons_self ..)
  have hfresh := hp.unburied child (List.mem_cons_self ..)
  rw [hpid] at hs
  have hstep := hs
  obtain ⟨new, c, ⟨-, hwait⟩, hdeeds, -⟩ := hs
  rw [h.deeds] at hwait hdeeds
  rcases hwait with ⟨-, -, hall⟩ | ⟨b, n, status, ha, hn, hout, hnew, hb, -⟩
  · exact absurd (hall child.1 child.2 hspawned (.inr rfl)) hfresh
  · have hn' : n = child.2 := by
      rcases hn with hn | hn
      · omega
      · omega
    subst hn'
    have hbc : b = child.1 := hp.unique hb hspawned
    subst hbc
    rw [hnew] at hdeeds
    refine ⟨status, ha, hout, h.plain hstep rfl ?_ ?_ hdeeds⟩
    · intro path flags mode heq
      cases heq
    · intro heq
      cases heq

theorem waitStages_phase (pids : ℕ → ℤ) (stageCount : ℕ) (cs : List Child) :
    ∀ {index : ℕ} {status : ℤ} {v : Purview} {E : List Passage}, PipelinePhase v failed ups downs E →
      Pending t E pids index cs → index + cs.length ≤ stageCount →
      (waitStages pids stageCount cs.length index status).wp (Purview.Step t) (fun r v' =>
        ∃ statuses : List ℤ, statuses.length = cs.length ∧
          PipelinePhase v' failed ups downs (E ++ List.zipWith (reapedBy t) cs statuses) ∧
          r = if index + cs.length = stageCount then statuses.getLast?.getD status else status) v := by
  induction cs with
  | nil =>
    intro index status v E h _ _
    refine ⟨[], rfl, ?_, ?_⟩
    · rw [List.zipWith_nil_left, List.append_nil]
      exact h
    · show status = if _ then status else status
      rw [ite_self]
  | cons child cs ih =>
    intro index status v E h hp hle
    rw [List.length_cons] at hle
    intro a v₁ hs
    obtain ⟨s, ha, hout, hv₁⟩ := h.waitpid hp hs
    show Prog.wp (Purview.Step t) (waitStages pids stageCount cs.length (index + 1) _) _ v₁
    rw [hout]
    dsimp only
    refine Prog.wp_mono (ih hv₁ (hp.reaped s) (by omega)) ?_
    rintro r v₂ ⟨statuses, hlen, hphase, rfl⟩
    refine ⟨s :: statuses, ?_, ?_, ?_⟩
    · rw [List.length_cons, List.length_cons, hlen]
    · rw [List.zipWith_cons_cons, List.append_cons]
      exact hphase
    · rw [List.length_cons, show index + (cs.length + 1) = index + 1 + cs.length by omega]
      split
      · rename_i hend
        cases statuses with
        | nil =>
          rw [List.length_nil] at hlen
          rw [if_pos ⟨by omega, by omega⟩]
          rfl
        | cons x xs =>
          rw [List.length_cons] at hlen
          rw [if_neg (fun hno => by omega), List.getLast?_cons_cons]
      · exact if_neg fun hno => by omega

/-! ### The whole pipeline -/

theorem closePipes_phase (pipes : ℕ → ℤ × ℤ) (n : ℕ) : ∀ {index : ℕ} {v : Purview}, PipelinePhase v failed ups downs D →
    (closePipes pipes n index).wp (Purview.Step t) (fun _ v' => PipelinePhase v' failed ups downs D) v := by
  induction n with
  | zero => exact fun h => h
  | succ n ih => exact fun h _ v₁ hs₁ _ v₂ hs₂ => ih ((h.close hs₁).close hs₂)

theorem closeRedirections_phase (locals : Locals) (n : ℕ) : ∀ {index : ℕ} {v : Purview}, PipelinePhase v failed ups downs D →
    (closeRedirections locals n index).wp (Purview.Step t) (fun _ v' => PipelinePhase v' failed ups downs D) v := by
  induction n with
  | zero => exact fun h => h
  | succ n ih =>
    intro index v h
    refine Prog.wp_seq (closeIf_phase h _) fun _ v₁ hv₁ => ?_
    exact Prog.wp_seq (closeIf_phase hv₁ _) fun _ v₂ hv₂ => ih hv₂

theorem cleanup_phase {locals : Locals} {cs : List Child} {stageCount createdPipes : ℕ} {status : ℤ}
    (h : PipelinePhase v failed ups downs E) (hp : Pending t E locals.pids 0 cs) (hle : cs.length ≤ stageCount) :
    (cleanup locals stageCount createdPipes cs.length status).wp (Purview.Step t) (fun r v' =>
      ∃ statuses : List ℤ, statuses.length = cs.length ∧
        PipelinePhase v' failed ups downs (E ++ List.zipWith (reapedBy t) cs statuses) ∧
        r.1 = if cs.length = stageCount then statuses.getLast?.getD status
          else if status = 0 then 127 else status) v := by
  refine Prog.wp_seq (closePipes_phase locals.pipes createdPipes h) fun _ v₁ hv₁ => ?_
  refine Prog.wp_seq (closeRedirections_phase locals stageCount hv₁) fun _ v₂ hv₂ => ?_
  refine Prog.wp_seq (waitStages_phase locals.pids stageCount cs hv₂ hp (by omega)) ?_
  rintro r v₃ ⟨statuses, hlen, hphase, rfl⟩
  rw [Nat.zero_add]
  by_cases hall : cs.length = stageCount
  · rw [if_neg (not_not.mpr hall), if_pos hall]
    exact ⟨statuses, hlen, hphase, (if_pos hall).symm⟩
  · rw [if_pos hall, if_neg hall]
    exact ⟨statuses, hlen, hphase, (if_neg hall).symm⟩

/-- How a pipeline ends: the children `cs` were spawned for its first stages and reaped with `statuses`. -/
structure Finished (t : TaskId) (stages : ℕ → Stage) (stageCount : ℕ) (lastStatus : ℤ) (E : List Passage) (status : ℤ)
    (v' : Purview) (cs : List Child) (statuses : List ℤ) : Prop where
  deeds : v'.deeds = E ++ cs.map (spawnedBy t) ++ List.zipWith (reapedBy t) cs statuses
  reaped : statuses.length = cs.length
  inOrder : (started v'.log).map (Prod.map some id) = stageStarts stages lastStatus 0 cs
  outcome : (SetupFailed v'.log ∧ cs = [] ∧ refused v'.log = [] ∧ status = 1) ∨
    (¬ SetupFailed v'.log ∧ cs.length < stageCount ∧
      (refused v'.log).map some = [stageArguments stages lastStatus cs.length] ∧ status = 127) ∨
    (¬ SetupFailed v'.log ∧ cs.length = stageCount ∧ refused v'.log = [] ∧ statuses.getLast? = some status)

theorem runStages_phase (strerror : ℤ → Bytes) (garbage : Locals) (stages : ℕ → Stage) {stageCount : ℕ}
    (hcount : 1 ≤ stageCount) (lastStatus : ℤ) (horder : PidsKept E) (h : PipelinePhase v False [] [] E) :
    (runStages strerror garbage stages stageCount lastStatus).wp (Purview.Step t) (fun r v' =>
      ∃ cs statuses, Finished t stages stageCount lastStatus E r.1 v' cs statuses) v := by
  -- a failure of the setup, before any child
  have hsetup : ∀ {locals : Locals} {createdPipes : ℕ} {v' : Purview}, PipelinePhase v' True [] [] E →
      (cleanup locals stageCount createdPipes 0 1).wp (Purview.Step t) (fun r v' =>
        ∃ cs statuses, Finished t stages stageCount lastStatus E r.1 v' cs statuses) v' := by
    intro locals createdPipes v' hv'
    have hpending := (Brood.nil horder locals.pids 0).pending (t := t)
    rw [List.map_nil, List.append_nil] at hpending
    refine Prog.wp_mono (cleanup_phase hv' hpending (Nat.zero_le _)) ?_
    rintro r v'' ⟨statuses, hlen, hphase, hr⟩
    rw [List.length_nil] at hr
    rw [if_neg (by omega), if_neg (by decide)] at hr
    rw [List.zipWith_nil_left, List.append_nil] at hphase
    refine ⟨[], statuses, ?_, hlen, ?_, .inl ⟨hphase.setup.mpr trivial, rfl, hphase.downs, hr⟩⟩
    · rw [List.map_nil, List.append_nil, List.zipWith_nil_left, List.append_nil]
      exact hphase.deeds
    · rw [hphase.ups]
      rfl
  refine Prog.wp_seq (openStages_phase strerror stages stageCount h) ?_
  rintro ⟨locals, done⟩ v₁ hv₁
  cases done with
  | false => exact hsetup (hv₁.congr (iff_true_intro rfl))
  | true =>
    refine Prog.wp_seq (createPipes_phase (stageCount - 1) (hv₁.congr (by simp))) ?_
    rintro ⟨locals, createdPipes, done⟩ v₂ hv₂
    cases done with
    | false => exact hsetup (hv₂.congr (iff_true_intro rfl))
    | true =>
      refine Prog.wp_seq (spawnStages_phase strerror stages stageCount lastStatus stageCount horder
        (hv₂.congr (by simp))) ?_
      rintro ⟨locals', spawned, done⟩ v₃ ⟨cs, hspawned, hbrood, -, starts, stops, hphase, hstarts, hend⟩
      have hlen : spawned = cs.length := by
        rw [← Nat.zero_add cs.length]
        exact hspawned
      subst hlen
      rw [List.nil_append] at hphase
      have hle : cs.length ≤ stageCount := by
        rcases hend with ⟨-, hall, -⟩ | ⟨-, hless, -⟩ <;> omega
      refine Prog.wp_mono (cleanup_phase hphase hbrood.pending hle) ?_
      rintro r v₄ ⟨statuses, hstatuses, hphase', hr⟩
      refine ⟨cs, statuses, hphase'.deeds, hstatuses, by rw [hphase'.ups]; exact hstarts, ?_⟩
      right
      have hnot : ¬ SetupFailed v₄.log := fun hfail => hphase'.setup.mp hfail
      rw [hphase'.downs]
      rcases hend with ⟨hdone, hall, rfl⟩ | ⟨hdone, hless, hstops⟩
      · right
        refine ⟨hnot, hall, rfl, ?_⟩
        have hne : statuses ≠ [] := List.ne_nil_of_length_pos (by omega)
        obtain ⟨y, hy⟩ := Option.isSome_iff_exists.mp (List.getLast?_isSome.mpr hne)
        rw [hr, if_pos hall, hy]
        rfl
      · left
        refine ⟨hnot, hless, ?_, ?_⟩
        · rw [hstops, Nat.zero_add]
        · dsimp only at hdone
          rw [hr, if_neg (by omega), if_pos hdone, if_neg (by decide)]

theorem pidsKept_deeds {k : Kernel} (h : Chronicle k.history) : PidsKept (deeds t k) where
  unique := by
    intro p q b c n hb hc
    exact ((h.spawned_unique (mem_deeds.mp hb).1 (mem_deeds.mp hc).1).1).mpr rfl
  born := by
    rintro c ⟨p, n, status, hmem⟩
    obtain ⟨hmem, hactor⟩ := mem_deeds.mp hmem
    obtain ⟨pre, post, heq⟩ := List.append_of_mem hmem
    refine ⟨some p, n, mem_deeds.mpr ⟨?_, hactor⟩⟩
    rw [heq]
    exact List.mem_append_left _ (h.possible heq).1

theorem runPipeline_phase (strerror : ℤ → Bytes) (garbage : Locals) (stages : ℕ → Stage) {stageCount : ℕ}
    (hcount : 1 ≤ stageCount) (lastStatus : ℤ)
    (hpipeline : ¬ (stageCount = 1 ∧ ∃ name, (stages 0).argv 0 = some name ∧ isBuiltin name = true))
    (horder : PidsKept E) (h : PipelinePhase v False [] [] E) :
    (runPipeline strerror garbage stages stageCount lastStatus).wp (Purview.Step t) (fun r v' =>
      ∃ cs statuses, Finished t stages stageCount lastStatus E r.1 v' cs statuses) v := by
  have hstages := runStages_phase (t := t) strerror garbage stages hcount lastStatus horder h
  rw [runPipeline]
  split
  · rename_i hone
    split
    · trivial
    · rename_i name hname
      rw [if_neg fun hbuiltin => hpipeline ⟨hone, name, hname, hbuiltin⟩]
      exact hstages
  · exact hstages

section

variable {k k' : Kernel} {cs : List Child} {statuses : List ℤ}
  (hdeeds : deeds t k' = deeds t k ++ cs.map (spawnedBy t) ++ List.zipWith (reapedBy t) cs statuses)
include hdeeds

/-- The tasks the shell has spawned are those from before and the children of the pipeline. -/
theorem spawned_iff_of_deeds (c : TaskId) (n : ℕ) :
    .spawned (some t) c n ∈ k'.history ↔ .spawned (some t) c n ∈ k.history ∨ (c, n) ∈ cs := by
  have hmem : .spawned (some t) c n ∈ deeds t k' ↔ .spawned (some t) c n ∈ deeds t k ∨ (c, n) ∈ cs := by
    rw [hdeeds, List.mem_append, List.mem_append, List.mem_map]
    constructor
    · rintro ((h | ⟨child, hchild, heq⟩) | h)
      · exact .inl h
      · cases heq
        exact .inr hchild
      · obtain ⟨i, hi, heq⟩ := List.getElem_of_mem h
        rw [List.getElem_zipWith] at heq
        cases heq
    · rintro (h | h)
      · exact .inl (.inl h)
      · exact .inl (.inr ⟨(c, n), h, rfl⟩)
  rw [mem_deeds, mem_deeds] at hmem
  simpa [Passage.actor] using hmem

theorem reaped_of_deeds {i : ℕ} {child : Child} {status : ℤ} (hchild : cs[i]? = some child)
    (hstatus : statuses[i]? = some status) : reapedBy t child status ∈ k'.history := by
  have hmem : reapedBy t child status ∈ deeds t k' := by
    rw [hdeeds]
    refine List.mem_append_right _ (List.mem_of_getElem? (i := i) ?_)
    rw [List.getElem?_zipWith, hchild, hstatus]
  exact (mem_deeds.mp hmem).1

end

/-- **Children of a pipeline.**  What `run_pipeline` did to other tasks is to spawn the children `cs` and then to
reap each of them, so that none is on the list of the kernel any more. The children are those of the first
stages: the `i`-th spawn that succeeded was that of the `i`-th stage and returned the pid of `cs[i]`. There is
none when the setup failed, with status 1; there are those before the stage that could not be spawned, with
status 127; otherwise there is one for each stage, and the status is the exit status of the last. -/
theorem pipeline_reaps_and_reports {k : Kernel} (hk : Attained k) (hc : k.current = some t) (strerror : ℤ → Bytes)
    (garbage : Locals) (stages : ℕ → Stage) {stageCount : ℕ} (hcount : 1 ≤ stageCount) (lastStatus : ℤ)
    (hpipeline : ¬ (stageCount = 1 ∧ ∃ name, (stages 0).argv 0 = some name ∧ isBuiltin name = true)) {s' : Session}
    {status : ℤ} {shouldExit : Bool}
    (hrun : Prog.Runs (Session.Step t) ⟨k, []⟩ (runPipeline strerror garbage stages stageCount lastStatus) s'
      (status, shouldExit)) :
    ∃ cs : List Child,
      (∃ statuses : List ℤ, statuses.length = cs.length ∧
        deeds t s'.kernel = deeds t k ++ cs.map (spawnedBy t) ++ List.zipWith (reapedBy t) cs statuses) ∧
      (∀ c n, .spawned (some t) c n ∈ s'.kernel.history ↔ .spawned (some t) c n ∈ k.history ∨ (c, n) ∈ cs) ∧
      (∀ child ∈ cs, child.1 ∉ s'.kernel.order) ∧
      (started s'.log).map (Prod.map some id) = stageStarts stages lastStatus 0 cs ∧
      ((SetupFailed s'.log ∧ cs = [] ∧ refused s'.log = [] ∧ status = 1) ∨
        (¬ SetupFailed s'.log ∧ cs.length < stageCount ∧
          (refused s'.log).map some = [stageArguments stages lastStatus cs.length] ∧ status = 127) ∨
        (¬ SetupFailed s'.log ∧ cs.length = stageCount ∧ refused s'.log = [] ∧
          ∃ child argument, cs[stageCount - 1]? = some child ∧ .exited child.1 argument ∈ s'.kernel.history ∧
            status = argument % 256)) := by
  obtain ⟨l, hp⟩ := hk.poised
  obtain ⟨hrun', ⟨l', hp'⟩, -⟩ := Session.runs_purview hp hc hrun
  have hphase : PipelinePhase (Session.purview t ⟨k, []⟩) False [] [] (deeds t k) := by
    refine ⟨iff_of_false ?_ id, rfl, rfl, rfl⟩
    rintro ⟨note, hmem, -⟩
    cases hmem
  obtain ⟨cs, statuses, hdeeds, hreaped, hstarted, houtcome⟩ := hrun'.post
    (runPipeline_phase strerror garbage stages hcount lastStatus hpipeline
      (pidsKept_deeds hp.base.lineage.chronicle) hphase)
  have hdeeds' : deeds t s'.kernel = deeds t k ++ cs.map (spawnedBy t) ++
      List.zipWith (reapedBy t) cs statuses := hdeeds
  refine ⟨cs, ⟨statuses, hreaped, hdeeds'⟩, spawned_iff_of_deeds hdeeds', ?_, hstarted, ?_⟩
  · intro child hmem
    obtain ⟨i, hi, hchild⟩ := List.getElem_of_mem hmem
    have hs := List.getElem?_eq_getElem (l := statuses) (i := i) (by omega)
    exact hp'.base.lineage.buried
      ⟨t, child.2, _, reaped_of_deeds hdeeds' (List.getElem?_eq_some_iff.mpr ⟨hi, hchild⟩) hs⟩
  · refine houtcome.imp id (Or.imp id ?_)
    rintro ⟨hsetup, hall, hrefused, hlast⟩
    rw [List.getLast?_eq_getElem?, hreaped, hall] at hlast
    obtain ⟨child, hchild⟩ : ∃ child, cs[stageCount - 1]? = some child := ⟨_, List.getElem?_eq_getElem (by omega)⟩
    obtain ⟨pre, post, heq⟩ := List.append_of_mem (reaped_of_deeds hdeeds' hchild hlast)
    obtain ⟨-, ⟨argument, hexited, hstatus⟩, -⟩ := hp'.base.lineage.chronicle.possible heq
    refine ⟨hsetup, hall, hrefused, child, argument, hchild, ?_, hstatus⟩
    rw [heq]
    exact List.mem_append_left _ hexited

/-- Stages that all run `sh`. -/
def shStages : ℕ → Stage := fun _ => ⟨fun i => if i = 0 then some shName else none, 1, none, none, false⟩

/-- Local arrays with nothing in them. -/
def noLocals : Locals := ⟨fun _ => (-1, -1), fun _ => -1, fun _ => -1, fun _ => 0⟩

/-- In `sh | sh` the second shell exits with 5 and then the first with 7. The first stage is the task 1 with the
pid 2, the second one is the task 2 with the pid 3, and the pipeline returns the 5 of the second. -/
theorem pipeline_reaps_and_reports_two :
    ∃ s', Prog.Runs (Session.Step 0) ⟨stateAfter shellStart, []⟩ (runPipeline (fun _ => []) noLocals shStages 2 0) s'
        (5, false) ∧
      ∃ cs : List Child, cs = [(1, 2), (2, 3)] ∧
        (started s'.log).map (Prod.map some id) = stageStarts shStages 0 0 cs ∧
        (∀ child ∈ cs, child.1 ∉ s'.kernel.order) ∧
        ∃ argument, .exited 2 argument ∈ s'.kernel.history ∧ (5 : ℤ) = argument % 256 := by
  have hplay : (Session.play 0 (runPipeline (fun _ => []) noLocals shStages 2 0)
      [[.schedule .calm, .call .calm (.exit 5), .schedule .calm, .call .calm (.exit 7)]]
      ⟨stateAfter shellStart, []⟩).map (fun r => (r.2, deeds 0 r.1.kernel)) =
      some ((5, false), deeds 0 (stateAfter shellStart) ++ [(1, 2), (2, 3)].map (spawnedBy 0) ++
        List.zipWith (reapedBy 0) [(1, 2), (2, 3)] [7, 5]) := by
    decide +kernel
  obtain ⟨⟨s', result⟩, hplay, heq⟩ := Option.map_eq_some_iff.mp hplay
  obtain ⟨rfl, hdeeds⟩ := Prod.mk.inj heq
  have hrun := Session.runs_of_play hplay
  obtain ⟨cs, ⟨statuses, hlength, hchildren⟩, -, hreaped, hstarted, houtcome⟩ :=
    pipeline_reaps_and_reports (.of_reachable (reachable_stateAfter _)) (by decide +kernel) _ _ _ (by decide) _
      (fun h => absurd h.1 (by decide)) hrun
  rcases houtcome with ⟨-, -, -, hone⟩ | ⟨-, -, -, hspawn⟩ | ⟨-, hall, -, child, argument, hlast, hexited, hstatus⟩
  · exact absurd hone (by decide)
  · exact absurd hspawn (by decide)
  -- the history of the run says which tasks they are
  rw [hdeeds, List.append_assoc, List.append_assoc] at hchildren
  obtain ⟨hspawned, -⟩ := List.append_inj (List.append_cancel_left hchildren) (by simp [hall])
  have hcs : cs = [(1, 2), (2, 3)] := by
    refine List.map_injective_iff.mpr ?_ hspawned.symm
    intro child child' h
    obtain ⟨-, htask, hpid⟩ := Passage.spawned.inj h
    exact Prod.ext htask hpid
  rw [hcs] at hlast
  cases hlast
  exact ⟨s', hrun, cs, hcs, hstarted, hreaped, argument, hexited, hstatus⟩

end Shell

end CannedBsd
