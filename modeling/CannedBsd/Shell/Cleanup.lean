import CannedBsd.Shell.Isolation

/-!
# The table behind a pipeline

`run_pipeline` closes at `cleanup` whatever its arrays of redirections hold, for every stage. When the
redirections of a stage cannot be opened, the elements of the later stages were never written. Here this is
weighed against the descriptors that the calls returned: which of them that are, the table at the start
decides.

* `runStages_issued`: when an `open` was refused, the calls returned the descriptors of the lowest empty
  slots.
* `pipeline_restores_table_iff`: exactly when the table behind a pipeline is the one before it.
* `pipeline_closes_shell_input`: with `0` in the arrays a refused `open` closes descriptor 0 of the shell.
-/

namespace CannedBsd

open CannedBsd.Lib

namespace Shell

variable {t : TaskId} {v v' : Purview} {F : Files} {n : ℕ}

/-! ### The descriptors of the redirections -/

/-- The descriptors of the `n` lowest empty slots. -/
def lowestDescriptors (F : Files) (n : ℕ) : Set ℤ := {x | ∃ d ∈ lowestEmpty F n, x = (d.val : ℤ)}

/-- The calls of `open` have filled the `n` lowest empty slots. -/
structure Filled (F : Files) (v : Purview) (n : ℕ) : Prop where
  opens : Shell.opens v.log = List.replicate n true
  issued : Shell.issued v.log = lowestDescriptors F n
  gaps : ∀ d, v.table.files d = none ↔ F d = none ∧ d ∉ lowestEmpty F n

/-- The calls of `open` have filled the `n` lowest empty slots, and one more was refused. -/
structure OpenRefused (F : Files) (v : Purview) (n : ℕ) : Prop where
  opens : Shell.opens v.log = List.replicate n true ++ [false]
  issued : Shell.issued v.log = lowestDescriptors F n

/-- What the log says of itself. -/
theorem TableLog.self (v : Purview) : TableLog v v.table.files (Shell.opens v.log) (openedFiles v.log) (Shell.issued v.log)
    (Shell.closed v.log) (Shell.children v.log) := ⟨rfl, rfl, rfl, rfl, rfl, rfl⟩

theorem Filled.open {path : Bytes} {flags : OpenFlags} {mode : ℕ} {a : Answer} (h : Filled F v n)
    (hs : v.Step t (.op (.openPath path flags mode)) a v') :
    (a.value = -1 ∧ OpenRefused F v' n) ∨ (0 ≤ a.value ∧ Filled F v' (n + 1)) := by
  rcases (TableLog.self v).open hs with ⟨ha, hv'⟩ | ⟨d, f, hd, hbelow, -, ha, hv'⟩
  · refine .inl ⟨ha, ?_, hv'.issued.trans h.issued⟩
    rw [hv'.opens, h.opens]
  · right
    obtain ⟨hfree, hnot⟩ := (h.gaps d).mp hd
    have hlow : ∀ e, e < d → F e = none → e ∈ lowestEmpty F n := by
      intro e he hnone
      by_contra hout
      exact hbelow e he ((h.gaps e).mpr ⟨hnone, hout⟩)
    have hsucc := lowestEmpty_succ hfree hnot hlow
    refine ⟨by omega, ?_, ?_, ?_⟩
    · rw [hv'.opens, h.opens, List.replicate_succ']
    · rw [hv'.issued, h.issued]
      ext x
      rw [lowestDescriptors, lowestDescriptors, hsucc]
      constructor
      · rintro (rfl | ⟨e, he, rfl⟩)
        · exact ⟨d, .inl rfl, rfl⟩
        · exact ⟨e, .inr he, rfl⟩
      · rintro ⟨e, rfl | he, rfl⟩
        · exact .inl rfl
        · exact .inr ⟨e, he, rfl⟩
    · intro e
      rw [hv'.files, Function.update_apply, hsucc]
      by_cases heq : e = d
      · rw [if_pos heq]
        exact iff_of_false (Option.some_ne_none f) fun hmem => hmem.2 (.inl heq)
      · rw [if_neg heq, h.gaps e]
        exact and_congr_right fun _ => ⟨fun hout hmem => hout (hmem.resolve_left heq), fun hout hmem => hout (.inr hmem)⟩

theorem OpenRefused.tableLog {G : Files} {O : Set FileId} {K : Set ℤ} {cs : List (Option Files)}
    (h : OpenRefused F v n) (hv' : TableLog v' G (Shell.opens v.log) O (Shell.issued v.log) K cs) : OpenRefused F v' n :=
  ⟨hv'.opens.trans h.opens, hv'.issued.trans h.issued⟩

theorem OpenRefused.quiet {α : Type} {p : Script α} (hp : OnlyQuiet p) (h : OpenRefused F v n) :
    p.wp (Purview.Step t) (fun _ v' => OpenRefused F v' n) v :=
  Prog.wp_mono (hp.tableLog (TableLog.self v)) fun _ _ hv' => h.tableLog hv'

/-- `open_redirections` fills further slots, or one call of `open` was refused. -/
theorem openRedirections_filled (h : Filled F v n) (stage : Stage) :
    (openRedirections stage).wp (Purview.Step t) (fun r v' =>
      (r.1 = -1 ∧ ∃ n, OpenRefused F v' n) ∨ (r.1 = 0 ∧ ∃ n, Filled F v' n)) v := by
  have hthen : ∀ {input : ℤ} {n : ℕ} {v : Purview}, Filled F v n →
      (openOutput stage input).wp (Purview.Step t) (fun r v' =>
        (r.1 = -1 ∧ ∃ n, OpenRefused F v' n) ∨ (r.1 = 0 ∧ ∃ n, Filled F v' n)) v := by
    intro input n v hv
    rw [openOutput]
    split
    · exact .inr ⟨rfl, n, hv⟩
    · intro a v₁ hs
      show Prog.wp (Purview.Step t) (if a.value < 0 then _ else _) _ v₁
      rcases hv.open hs with ⟨ha, hv₁⟩ | ⟨ha, hv₁⟩
      · rw [if_pos (by omega)]
        refine Prog.wp_seq (closeIf_tableLog (TableLog.self v₁) input) fun _ v₂ hv₂ => ?_
        exact .inl ⟨rfl, n, hv₁.tableLog hv₂⟩
      · rw [if_neg (by omega)]
        exact .inr ⟨rfl, n + 1, hv₁⟩
  rw [openRedirections]
  split
  · exact hthen h
  · intro a v₁ hs
    show Prog.wp (Purview.Step t) (if a.value < 0 then _ else _) _ v₁
    rcases h.open hs with ⟨ha, hv₁⟩ | ⟨ha, hv₁⟩
    · rw [if_pos (by omega)]
      exact .inl ⟨rfl, n, hv₁⟩
    · rw [if_neg (by omega)]
      exact hthen hv₁

theorem openStages_filled (strerror : ℤ → Bytes) (stages : ℕ → Stage) (m : ℕ) :
    ∀ {index n : ℕ} {locals : Locals} {v : Purview}, Filled F v n →
      (openStages strerror stages m index locals).wp (Purview.Step t) (fun r v' =>
        (r.2 = true ∧ ∃ n, Filled F v' n) ∨ (r.2 = false ∧ ∃ n, OpenRefused F v' n)) v := by
  induction m with
  | zero => exact fun h => .inl ⟨rfl, _, h⟩
  | succ m ih =>
    intro index n locals v h
    rw [openStages]
    split
    · trivial
    refine Prog.wp_seq (openRedirections_filled h (stages index)) ?_
    rintro ⟨opened, input, output⟩ v₁ (⟨rfl, n₁, hv₁⟩ | ⟨rfl, n₁, hv₁⟩)
    · refine Prog.wp_seq (OpenRefused.quiet (errorText_quiet strerror) hv₁) fun text v₂ hv₂ => ?_
      refine Prog.wp_seq (OpenRefused.quiet (shellError_quiet text) hv₂) fun _ v₃ hv₃ => ?_
      exact .inr ⟨rfl, n₁, hv₃⟩
    · exact ih hv₁

/-- A list of successes does not end with a failure. -/
theorem replicate_ne_snoc (n m : ℕ) : List.replicate n true ≠ List.replicate m true ++ [false] := by
  intro heq
  have hmem : false ∈ List.replicate n true := by
    rw [heq]
    exact List.mem_append_right _ (List.mem_singleton_self false)
  exact absurd (List.eq_of_mem_replicate hmem) (by decide)

theorem replicate_snoc_inj {n m : ℕ} (h : List.replicate n true ++ [false] = List.replicate m true ++ [false]) : n = m := by
  have := congrArg List.length h
  simpa using this

/-- When an `open` was refused, the descriptors that the calls returned are those of the lowest empty slots. -/
theorem runStages_issued (strerror : ℤ → Bytes) (garbage : Locals) (stages : ℕ → Stage) (stageCount : ℕ) (lastStatus : ℤ)
    (h : Filled F v 0) :
    (runStages strerror garbage stages stageCount lastStatus).wp (Purview.Step t) (fun _ v' =>
      ∀ n, opens v'.log = List.replicate n true ++ [false] → issued v'.log = lowestDescriptors F n) v := by
  refine Prog.wp_seq (openStages_filled strerror stages stageCount h) ?_
  rintro ⟨locals, done⟩ v₁ (⟨rfl, n, hv₁⟩ | ⟨rfl, n, hv₁⟩)
  · -- later calls add nothing to what `open` returned
    have hnever : ∀ {v' : Purview}, opens v'.log = opens v₁.log →
        ∀ n, opens v'.log = List.replicate n true ++ [false] → issued v'.log = lowestDescriptors F n := by
      intro v' hsame n hend
      rw [hsame, hv₁.opens] at hend
      exact absurd hend (replicate_ne_snoc _ _)
    refine Prog.wp_seq (createPipes_tableLog (stageCount - 1) (TableLog.self v₁)) ?_
    rintro ⟨locals', created, done⟩ v₂ ⟨-, H, I, -, -, -, hv₂, -⟩
    cases done with
    | false => exact Prog.wp_mono (cleanup_tableLog hv₂ locals' stageCount created 0 1) fun _ v₃ hv₃ => hnever hv₃.opens
    | true =>
      refine Prog.wp_seq (spawnStages_tableLog strerror stages stageCount lastStatus stageCount hv₂) ?_
      rintro ⟨locals'', spawned, done⟩ v₃ ⟨m, -, -, -, hv₃, -⟩
      exact Prog.wp_mono (cleanup_tableLog hv₃ locals'' stageCount created spawned _) fun _ v₄ hv₄ => hnever hv₄.opens
  · refine Prog.wp_mono (cleanup_tableLog (TableLog.self v₁) locals stageCount 0 0 1) fun _ v₂ hv₂ n' hend => ?_
    have hrefused := hv₁.tableLog hv₂
    rw [hrefused.opens] at hend
    rw [hrefused.issued, replicate_snoc_inj hend]

/-! ### What a redirected builtin closes -/

/-- Every descriptor closed so far was returned by a call, and so were those in `X` that are no `-1`. -/
structure Owning (v : Purview) (X : Set ℤ) : Prop where
  closed : Shell.closed v.log ⊆ Shell.issued v.log
  held : ∀ x ∈ X, 0 ≤ x → x ∈ Shell.issued v.log

variable {X Y : Set ℤ} {call : TableCall} {a : Answer}

theorem Owning.subset (h : Owning v X) (hY : Y ⊆ X) : Owning v Y := ⟨h.closed, fun x hx => h.held x (hY hx)⟩

/-- A call that closes nothing, or a descriptor that a call returned. -/
theorem Owning.step (h : Owning v X) (hs : v.Step t call a v') (hclose : closedOf call ⊆ issued v.log) :
    Owning v' (X ∪ issuedOf call a) := by
  obtain ⟨new, child, -, hv'⟩ := (TableLog.self v).step hs
  constructor
  · rw [hv'.closed, hv'.issued]
    exact (Set.union_subset h.closed hclose).trans Set.subset_union_left
  · intro x hx hpos
    rw [hv'.issued]
    exact hx.imp (fun hx => h.held x hx hpos) id

theorem Owning.quiet {α : Type} {p : Script α} (hp : OnlyQuiet p) (h : Owning v X) :
    p.wp (Purview.Step t) (fun _ v' => Owning v' X) v := by
  refine Prog.Makes.wp hp h fun v call a v' hv hq hs => ?_
  have hlog := (TableLog.self v).quiet hq hs
  constructor
  · rw [hlog.closed, hlog.issued]
    exact hv.closed
  · rw [hlog.issued]
    exact hv.held

theorem Owning.closeIf (h : Owning v X) {descriptor : ℤ} (hmem : descriptor ∈ X) :
    (closeIf descriptor).wp (Purview.Step t) (fun _ v' => Owning v' X) v := by
  rw [Shell.closeIf]
  split
  · rename_i hpos
    intro a v' hs
    refine (h.step hs ?_).subset Set.subset_union_left
    intro x hx
    rw [Set.mem_singleton_iff.mp hx]
    exact h.held descriptor hmem hpos
  · exact h

theorem Owning.openRedirections (h : Owning v ∅) (stage : Stage) :
    (openRedirections stage).wp (Purview.Step t) (fun r v' => Owning v' {r.2.1, r.2.2}) v := by
  have hopen : ∀ {X : Set ℤ} {path : Bytes} {flags : OpenFlags} {mode : ℕ} {a : Answer} {v v' : Purview}, Owning v X →
      v.Step t (.op (.openPath path flags mode)) a v' → Owning v' (insert a.value X) := by
    intro X path flags mode a v v' hv hs
    have hnext := hv.step hs fun x hx => hx.elim
    refine ⟨hnext.closed, ?_⟩
    rintro x (rfl | hx) hpos
    · exact hnext.held _ (.inr ⟨hpos, rfl⟩) hpos
    · exact hnext.held x (.inl hx) hpos
  have hnone : ∀ {X : Set ℤ} {v : Purview}, Owning v X → Owning v (insert (-1) X) := by
    intro X v hv
    refine ⟨hv.closed, ?_⟩
    rintro x (rfl | hx) hpos
    · omega
    · exact hv.held x hx hpos
  have hthen : ∀ {input : ℤ} {v : Purview}, Owning v {input} →
      (openOutput stage input).wp (Purview.Step t) (fun r v' => Owning v' {r.2.1, r.2.2}) v := by
    intro input v hv
    rw [openOutput]
    split
    · show Owning v {input, -1}
      rw [Set.pair_comm]
      exact hnone hv
    · intro a v₁ hs
      have hv₁ := hopen hv hs
      show Prog.wp (Purview.Step t) (if a.value < 0 then _ else _) _ v₁
      split
      · refine Prog.wp_seq (hv₁.closeIf (.inr rfl)) fun _ v₂ hv₂ => ?_
        exact hnone (hv₂.subset (Set.singleton_subset_iff.mpr (.inl rfl)))
      · show Owning v₁ {input, a.value}
        rw [Set.pair_comm]
        exact hv₁
  rw [Shell.openRedirections]
  split
  · refine hthen ?_
    rw [← insert_empty_eq]
    exact hnone h
  · intro a v₁ hs
    have hv₁ := hopen h hs
    rw [insert_empty_eq] at hv₁
    show Prog.wp (Purview.Step t) (if a.value < 0 then _ else _) _ v₁
    split
    · show Owning v₁ {a.value, -1}
      rw [Set.pair_comm]
      exact hnone hv₁
    · exact hthen hv₁

theorem Owning.redirect (h : Owning v X) (descriptor standard : ℤ) :
    (redirect descriptor standard).wp (Purview.Step t) (fun r v' => Owning v' (insert r.1 X)) v := by
  rw [Shell.redirect]
  split
  · intro a v₁ hs
    have hnext := h.step hs fun x hx => hx.elim
    have hv₁ : Owning v₁ (insert a.value X) := by
      refine ⟨hnext.closed, ?_⟩
      rintro x (rfl | hx) hpos
      · exact hnext.held _ (.inr ⟨hpos, rfl⟩) hpos
      · exact hnext.held x (.inl hx) hpos
    show Prog.wp (Purview.Step t) (if a.value < 0 then _ else _) _ v₁
    split
    · exact hv₁
    · exact fun b v₂ hs₂ => (hv₁.step hs₂ fun x hx => hx.elim).subset Set.subset_union_left
  · refine ⟨h.closed, ?_⟩
    rintro x (rfl | hx) hpos
    · omega
    · exact h.held x hx hpos

theorem Owning.putBack (h : Owning v X) (saved standard : ℤ) :
    (putBack saved standard).wp (Purview.Step t) (fun _ v' => Owning v' X) v := by
  rw [Shell.putBack]
  split
  · exact fun a v₁ hs => (h.step hs fun x hx => hx.elim).subset Set.subset_union_left
  · exact h

theorem Owning.closeFour {savedInput savedOutput input output : ℤ} (h : Owning v {savedOutput, savedInput, input, output}) :
    (closeFour savedInput savedOutput input output).wp (Purview.Step t) (fun _ v' =>
      Shell.closed v'.log ⊆ Shell.issued v'.log) v := by
  refine Prog.wp_seq (h.closeIf (.inr (.inl rfl))) fun _ v₁ hv₁ => ?_
  refine Prog.wp_seq (hv₁.closeIf (.inl rfl)) fun _ v₂ hv₂ => ?_
  refine Prog.wp_seq (hv₂.closeIf (.inr (.inr (.inl rfl)))) fun _ v₃ hv₃ => ?_
  exact Prog.wp_mono (hv₃.closeIf (.inr (.inr (.inr rfl)))) fun _ v₄ hv₄ => hv₄.closed

/-- A redirected builtin closes only what it opened. -/
theorem runBuiltinRedirected_owning (strerror : ℤ → Bytes) (stage : Stage) (lastStatus : ℤ) (h : Owning v ∅) :
    (runBuiltinRedirected strerror stage lastStatus).wp (Purview.Step t)
      (fun _ v' => closed v'.log ⊆ issued v'.log) v := by
  have herror : ∀ {savedInput savedOutput input output : ℤ} {v : Purview},
      Owning v {savedOutput, savedInput, input, output} →
      (descriptorError savedInput savedOutput input output).wp (Purview.Step t)
        (fun _ v' => closed v'.log ⊆ issued v'.log) v := by
    intro savedInput savedOutput input output v hv
    refine Prog.wp_seq (hv.quiet (shellError_quiet _)) fun _ v₁ hv₁ => ?_
    exact Prog.wp_seq hv₁.closeFour fun _ v₂ hv₂ => hv₂
  refine Prog.wp_seq (h.openRedirections stage) fun r v₁ hv₁ => ?_
  obtain ⟨opened, input, output⟩ := r
  dsimp only at hv₁ ⊢
  split
  · refine Prog.wp_seq (hv₁.quiet (errorText_quiet strerror)) fun text v₂ hv₂ => ?_
    exact Prog.wp_seq (hv₂.quiet (shellError_quiet text)) fun _ v₃ hv₃ => hv₃.closed
  refine Prog.wp_seq (hv₁.redirect input 0) fun r v₂ hv₂ => ?_
  obtain ⟨savedInput, done⟩ := r
  dsimp only at hv₂ ⊢
  split
  · refine herror ⟨hv₂.closed, ?_⟩
    rintro x (rfl | hx) hpos
    · omega
    · exact hv₂.held x hx hpos
  refine Prog.wp_seq (hv₂.redirect output 1) fun r v₃ hv₃ => ?_
  obtain ⟨savedOutput, done⟩ := r
  dsimp only at hv₃ ⊢
  split
  · exact herror hv₃
  refine Prog.wp_seq (hv₃.quiet (runBuiltin_quiet strerror stage lastStatus)) fun result v₄ hv₄ => ?_
  refine Prog.wp_seq (hv₄.putBack savedInput 0) fun _ v₅ hv₅ => ?_
  refine Prog.wp_seq (hv₅.putBack savedOutput 1) fun _ v₆ hv₆ => ?_
  exact Prog.wp_seq hv₆.closeFour fun _ v₇ hv₇ => hv₇

/-! ### Which pipelines leave the table as it was -/

/-- An `open` was refused at the redirections of some stage, and the arrays held for a later stage a number
that is no descriptor of the redirections opened before. -/
def Strays (stages : ℕ → Stage) (stageCount : ℕ) (garbage : Locals) (F : Files) (answers : List Bool) : Prop :=
  ∃ k m, k < stageCount ∧ redirectionCount stages 0 k ≤ m ∧ m < redirectionCount stages 0 (k + 1) ∧
    answers = List.replicate m true ++ [false] ∧
    ∃ x ∈ redirectionEnds garbage (k + 1) (stageCount - (k + 1)), x ∉ lowestDescriptors F m

/-- A pipeline of one stage that the shell runs itself. -/
def SingleBuiltin (stages : ℕ → Stage) (stageCount : ℕ) : Prop :=
  stageCount = 1 ∧ ∃ name, (stages 0).argv 0 = some name ∧ isBuiltin name = true

variable {stages : ℕ → Stage} {stageCount : ℕ} {garbage : Locals}

theorem redirectionCount_mono (stages : ℕ → Stage) {n m : ℕ} (h : n ≤ m) :
    ∀ index, redirectionCount stages index n ≤ redirectionCount stages index m := by
  induction n generalizing m with
  | zero => exact fun _ => Nat.zero_le _
  | succ n ih =>
    intro index
    obtain ⟨m, rfl⟩ := Nat.exists_eq_add_of_le' h
    show stageRedirections _ + _ ≤ stageRedirections _ + redirectionCount stages (index + 1) (m + n)
    exact Nat.add_le_add_left (ih (by omega) (index + 1)) _

theorem emptied_of_free {S : Set (Fin cbMaxFds)} (h : ∀ d ∈ S, F d = none) : emptied F S = F := by
  funext d
  rw [emptied]
  split
  · rename_i hd
    exact (h d hd).symm
  · rfl

theorem refusedOpen_iff (log : List Note) : (∃ note ∈ log, note.refusedOpen) ↔ false ∈ opens log := by
  rw [opens, List.mem_filterMap]
  refine exists_congr fun note => and_congr_right fun _ => ?_
  constructor
  · rintro ⟨⟨path, flags, mode, hcall⟩, hneg⟩
    rw [hcall]
    exact congrArg some (decide_eq_false (not_le.mpr hneg))
  · intro hopen
    obtain ⟨call, answer, table, child⟩ := note
    cases call with
    | op op =>
      cases op with
      | openPath path flags mode =>
        exact ⟨⟨path, flags, mode, rfl⟩, not_le.mp (of_decide_eq_false (Option.some.inj hopen))⟩
      | _ => cases hopen
    | _ => cases hopen

/-- A pipeline all whose redirections were opened. -/
theorem Wired.restores {m : ℕ} (h : Wired stages stageCount F garbage v' m) :
    (v'.table.files = F ∧ Shell.closed v'.log ⊆ Shell.issued v'.log) ↔
      ¬ Strays stages stageCount garbage F (Shell.opens v'.log) := by
  refine iff_of_true ⟨h.restored, h.own⟩ ?_
  rintro ⟨k, n, -, -, -, hopens, -⟩
  rw [h.opened] at hopens
  exact replicate_ne_snoc _ _ hopens

/-- A pipeline that stopped at its redirections. -/
theorem BrokenOff.restores {k m : ℕ} (h : BrokenOff stages stageCount F garbage v' k m)
    (hissued : issued v'.log = lowestDescriptors F m) :
    (v'.table.files = F ∧ Shell.closed v'.log ⊆ Shell.issued v'.log) ↔
      ¬ Strays stages stageCount garbage F (Shell.opens v'.log) := by
  have hstrays : ¬ Strays stages stageCount garbage F (opens v'.log) ↔
      redirectionEnds garbage (k + 1) (stageCount - (k + 1)) ⊆ issued v'.log := by
    constructor
    · intro hno x hx
      by_contra hout
      rw [hissued] at hout
      exact hno ⟨k, m, h.stage, h.count.1, h.count.2, h.opened, x, hx, hout⟩
    · rintro hsub ⟨k', m', -, hlow, hhigh, hopens, x, hx, hout⟩
      -- the refused call is of one stage only
      have hm : m' = m := replicate_snoc_inj (hopens.symm.trans h.opened)
      subst hm
      have hk : k' = k := by
        rcases Nat.lt_trichotomy k' k with hlt | heq | hgt
        · have := redirectionCount_mono stages (show k' + 1 ≤ k from hlt) 0
          have := h.count.1
          omega
        · exact heq
        · have := redirectionCount_mono stages (show k + 1 ≤ k' from hgt) 0
          have := h.count.2
          omega
      subst hk
      rw [hissued] at hsub
      exact hout (hsub hx)
  rw [hstrays]
  constructor
  · exact fun hgood => h.stray.trans hgood.2
  · intro hsub
    refine ⟨?_, h.closed.trans (Set.union_subset subset_rfl hsub)⟩
    rw [h.table]
    apply emptied_of_free
    have hend : ∀ {x : ℤ} {d : Fin cbMaxFds} {i : ℕ}, k + 1 ≤ i → i < k + 1 + (stageCount - (k + 1)) →
        (x = garbage.inputs i ∨ x = garbage.outputs i) → d ∈ slotsOf x → F d = none := by
      intro x d i hlow hhigh hx hd
      have hpos : 0 ≤ x := by
        by_contra hneg
        rw [slotsOf_neg (by omega)] at hd
        exact hd.elim
      exact h.free x (hsub ⟨hpos, i, hlow, hhigh, hx⟩) d hd
    rintro d ⟨i, hlow, hhigh, hd | hd⟩
    · exact hend hlow hhigh (.inl rfl) hd
    · exact hend hlow hhigh (.inr rfl) hd

/-- **The table behind a pipeline.**  In every session of the shell, the table names the same files as before
`run_pipeline`, and only descriptors that the calls returned were closed, except in two cases: the
redirections of a stage could not be opened and the uninitialised arrays held some other descriptor for a
later stage, or a single builtin had no slot left to save its output in. -/
theorem pipeline_restores_table_iff {k : Kernel} (hk : Attained k) (hc : k.current = some t) (strerror : ℤ → Bytes)
    (garbage : Locals) (stages : ℕ → Stage) (stageCount : ℕ) (lastStatus : ℤ) {s' : Session} {result : ℤ × Bool}
    (hrun : Prog.Runs (Session.Step t) ⟨k, []⟩ (runPipeline strerror garbage stages stageCount lastStatus) s' result) :
    (Table.files (s'.kernel.slot t) = Table.files (k.slot t) ∧ closed s'.log ⊆ issued s'.log) ↔
      ¬ Strays stages stageCount garbage (Table.files (k.slot t)) (opens s'.log) ∧
        ¬ (SingleBuiltin stages stageCount ∧ Cornered (stages 0) (Table.files (k.slot t)) ∧ false ∉ opens s'.log) := by
  obtain ⟨l, hp⟩ := hk.poised
  obtain ⟨hrun', -, -⟩ := Session.runs_purview hp hc hrun
  have hlog := tableLog_start k t
  have hstart : Filled (Table.files (k.slot t)) (Session.purview t ⟨k, []⟩) 0 := by
    refine ⟨hlog.opens, ?_, fun d => ?_⟩
    · rw [hlog.issued, lowestDescriptors, lowestEmpty_zero]
      ext x
      refine ⟨fun hx => hx.elim, ?_⟩
      rintro ⟨d, hd, -⟩
      exact hd.elim
    · rw [hlog.files, lowestEmpty_zero]
      exact ⟨fun hnone => ⟨hnone, Set.notMem_empty d⟩, And.left⟩
  have hstages : ¬ SingleBuiltin stages stageCount →
      Prog.Runs (Purview.Step t) (Session.purview t ⟨k, []⟩) (runStages strerror garbage stages stageCount lastStatus)
        (Session.purview t s') result →
      ((Table.files (s'.kernel.slot t) = Table.files (k.slot t) ∧ closed s'.log ⊆ issued s'.log) ↔
        ¬ Strays stages stageCount garbage (Table.files (k.slot t)) (opens s'.log) ∧
          ¬ (SingleBuiltin stages stageCount ∧ Cornered (stages 0) (Table.files (k.slot t)) ∧ false ∉ opens s'.log)) := by
    intro hnot hrun'
    have hissued := hrun'.post (runStages_issued strerror garbage stages stageCount lastStatus hstart)
    rw [and_iff_left fun h => hnot h.1]
    rcases hrun'.post (runStages_tableLog strerror garbage stages stageCount lastStatus hlog) with ⟨m, hwired⟩ | ⟨i, m, hbroken⟩
    · exact hwired.restores
    · exact hbroken.restores (hissued m hbroken.opened)
  rw [runPipeline] at hrun'
  split at hrun'
  · rename_i hone
    split at hrun'
    · cases hrun'
    · rename_i name hname
      split at hrun'
      · rename_i hbuiltin
        have hno : ¬ Strays stages stageCount garbage (Table.files (k.slot t)) (opens s'.log) := by
          rintro ⟨i, m, hi, -, -, -, x, ⟨-, j, hlow, hhigh, -⟩, -⟩
          omega
        have hshows : (Session.purview t ⟨k, []⟩).Shows (Table.files (k.slot t)) False := by
          refine ⟨rfl, iff_of_false ?_ id⟩
          rintro ⟨note, hmem, -⟩
          cases hmem
        have hown : closed s'.log ⊆ issued s'.log := hrun'.post (runBuiltinRedirected_owning strerror (stages 0) lastStatus
          ⟨by rw [hlog.closed]; exact Set.empty_subset _, fun x hx => hx.elim⟩)
        have hfiles := hrun'.post (runBuiltinRedirected_wp strerror (stages 0) lastStatus hshows)
        rw [refusedOpen_iff] at hfiles
        rw [and_iff_left hown, and_iff_right hno, and_iff_right ⟨hone, name, hname, hbuiltin⟩]
        exact hfiles
      · rename_i hbuiltin
        refine hstages ?_ hrun'
        rintro ⟨-, name', hname', hbuiltin'⟩
        rw [hname] at hname'
        cases hname'
        exact hbuiltin hbuiltin'
  · rename_i hone
    exact hstages (fun h => hone h.1) hrun'

/-- The tokens of `sh </e|sh`. -/
def strayTokens : List Token :=
  [⟨.word, some [.literal 115, .literal 104]⟩, ⟨.input, none⟩, ⟨.word, some [.literal 47, .literal 101]⟩, ⟨.pipe, none⟩,
    ⟨.word, some [.literal 115, .literal 104]⟩]

/-- The stages that the parser makes of them. -/
def strayStages : ℕ → Stage :=
  match parseTokens strayTokens (fun _ => Stage.zero) 1 true with
  | .pipeline stages _ _ => stages
  | _ => fun _ => Stage.zero

/-- With `-1` in the arrays, `sh </e|sh` without a file `/e` leaves the table as it was. -/
theorem pipeline_restores_table_refused :
    ∃ s' result, Prog.Runs (Session.Step 0) ⟨crowded 0, []⟩ (runPipeline (fun _ => []) noLocals strayStages 2 0) s' result ∧
      opens s'.log = [false] ∧ Table.files (s'.kernel.slot 0) = Table.files ((crowded 0).slot 0) ∧
      closed s'.log ⊆ issued s'.log := by
  have hplay : (Session.play 0 (runPipeline (fun _ => []) noLocals strayStages 2 0) [] ⟨crowded 0, []⟩).map
      (fun r => opens r.1.log) = some [false] := by
    decide +kernel
  obtain ⟨⟨s', result⟩, hplay, hopens⟩ := Option.map_eq_some_iff.mp hplay
  have hrun := Session.runs_of_play hplay
  refine ⟨s', result, hrun, hopens, ?_⟩
  refine (pipeline_restores_table_iff (.of_reachable (reachable_stateAfter _)) (by decide +kernel) _ _ _ _ _ hrun).mpr ⟨?_, ?_⟩
  · rintro ⟨k, m, -, -, -, -, x, ⟨hpos, i, -, -, hx | hx⟩, -⟩
    · have hnone : noLocals.inputs i = -1 := rfl
      omega
    · have hnone : noLocals.outputs i = -1 := rfl
      omega
  · rintro ⟨⟨htwo, -⟩, -⟩
    omega

/-- With `0` in the arrays, the same line closes descriptor 0 of the shell. -/
theorem pipeline_closes_shell_input :
    Attained (crowded 0) ∧ (crowded 0).current = some 0 ∧ (∀ d : Fin cbMaxFds, d.val < 3 → ((crowded 0).slot 0 d).isSome) ∧
      lexLine ⟨fun _ => none, 0⟩ (ascii "sh </e|sh") = some strayTokens ∧
      parseTokens strayTokens (fun _ => Stage.zero) 1 true = .pipeline strayStages 2 [] ∧
      ∃ s' result, Prog.Runs (Session.Step 0) ⟨crowded 0, []⟩
          (runPipeline (fun _ => []) { noLocals with inputs := fun _ => 0 } strayStages 2 0) s' result ∧
        0 ∈ closed s'.log ∧ Table.files (s'.kernel.slot 0) ≠ Table.files ((crowded 0).slot 0) := by
  have hplay : (Session.play 0 (runPipeline (fun _ => []) { noLocals with inputs := fun _ => 0 } strayStages 2 0) []
      ⟨crowded 0, []⟩).map (fun r => (Table.files (r.1.kernel.slot 0) stdin, r.1.log.any fun note =>
        decide (note.call = .op (.close 0)))) = some (none, true) := by
    decide +kernel
  have hbefore : Table.files ((crowded 0).slot 0) stdin = some 0 := by decide +kernel
  obtain ⟨⟨s', result⟩, hplay, hafter⟩ := Option.map_eq_some_iff.mp hplay
  simp only [Prod.mk.injEq] at hafter
  obtain ⟨note, hmem, hnote⟩ := List.any_eq_true.mp hafter.2
  refine ⟨.of_reachable (reachable_stateAfter _), by decide +kernel, by decide +kernel, by decide +kernel, rfl, s', result,
    Session.runs_of_play hplay, ⟨note, hmem, ?_⟩, fun heq => ?_⟩
  · rw [of_decide_eq_true hnote]
    rfl
  · have hat := congrFun heq stdin
    rw [hbefore, hafter.1] at hat
    cases hat

end Shell

end CannedBsd
