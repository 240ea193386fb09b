import CannedBsd.Shell.Pipeline

/-!
# The grammar of pipelines

A pipeline is a list of stages between bars, and a stage is a list of words and redirections. The token
loop of `execute_segment` accepts exactly the token lists of this form that keep its limits, and it hands
`run_pipeline` the stages they describe. Everything else it refuses with a message. On what it accepts,
`run_pipeline` stays inside its arrays.

* `parseTokens_grammar`: the loop goes over the tokens of a pipeline.
* `parseTokens_refuses`: it refuses what it does not accept.
* `runPipeline_safe`: `run_pipeline` stays inside its arrays.
* `parser_accepts_grammar`: the three together, for every list of tokens.
-/

namespace CannedBsd

open CannedBsd.Lib

namespace Shell

/-! ### The grammar -/

/-- A word, or a redirection with its path. -/
inductive Item
  | word (text : Bytes)
  | redirection (type : TokenType) (path : Bytes)
  deriving DecidableEq

/-- The operators of redirections. -/
def TokenType.redirects : TokenType → Bool
  | .input => true
  | .output => true
  | .append => true
  | _ => false

/-- The tokens of a stage. -/
inductive Spells : List Item → List Token → Prop
  | nil : Spells [] []
  | word {token : Token} {text : Bytes} {items : List Item} {tokens : List Token} : token.type = .word →
      token.bytes = some text → Spells items tokens → Spells (.word text :: items) (token :: tokens)
  | redirection {operator path : Token} {text : Bytes} {items : List Item} {tokens : List Token} :
      operator.type.redirects = true → path.type = .word → path.bytes = some text → Spells items tokens →
      Spells (.redirection operator.type text :: items) (operator :: path :: tokens)

/-- The tokens of a pipeline. -/
inductive Grammar : List Token → List (List Item) → Prop
  | last {items : List Item} {tokens : List Token} : Spells items tokens → Grammar tokens [items]
  | bar {items : List Item} {tokens rest : List Token} {token : Token} {stages : List (List Item)} :
      Spells items tokens → token.type = .pipe → Grammar rest stages →
      Grammar (tokens ++ token :: rest) (items :: stages)

def Item.word? : Item → Option Bytes
  | .word text => some text
  | _ => none

def Item.input? : Item → Option Bytes
  | .redirection .input path => some path
  | _ => none

/-- The path of an output redirection, and whether it appends. -/
def Item.output? : Item → Option (Bytes × Bool)
  | .redirection .output path => some (path, false)
  | .redirection .append path => some (path, true)
  | _ => none

def wordsOf (items : List Item) : List Bytes := items.filterMap Item.word?

/-- The path of the last input redirection. -/
def lastInput (items : List Item) : Option Bytes := (items.filterMap Item.input?).getLast?

/-- The path of the last output redirection, and whether it appends. -/
def lastOutput (items : List Item) : Option (Bytes × Bool) := (items.filterMap Item.output?).getLast?

/-- The limits: at most 16 stages with 1 to 32 words. -/
def WithinLimits (stages : List (List Item)) : Prop :=
  stages.length ≤ shellMaxStages ∧ ∀ items ∈ stages, 1 ≤ (wordsOf items).length ∧ (wordsOf items).length ≤ shellMaxArgs

/-- The stage is made of the items: `argv` is its words in order up to `NULL`, and the paths are those of
its last redirections. -/
structure Stage.MadeOf (stage : Stage) (items : List Item) : Prop where
  argc : stage.argc = (wordsOf items).length
  argv : ∀ i, i < stage.argc → stage.argv i = (wordsOf items)[i]?
  null : stage.argv stage.argc = none
  input : stage.inputPath = lastInput items
  output : stage.outputPath = (lastOutput items).map Prod.fst
  append : stage.append = ((lastOutput items).map Prod.snd).getD false

/-- The array holds the stages. -/
def HoldsStages (array : ℕ → Stage) (stages : List (List Item)) : Prop :=
  ∀ i items, stages[i]? = some items → (array i).MadeOf items

/-! ### One item -/

/-- What the token loop does with an item. -/
def Stage.feed (stage : Stage) : Item → Stage
  | .word text => stage.pushWord (some text)
  | .redirection type path => stage.setPath type (some path)

theorem Stage.madeOf_zero : Stage.zero.MadeOf [] :=
  ⟨rfl, fun i hi => absurd hi (Nat.not_lt_zero i), rfl, rfl, rfl, rfl⟩

theorem lastInput_snoc (items : List Item) (item : Item) :
    lastInput (items ++ [item]) = item.input?.or (lastInput items) := by
  rw [lastInput, List.filterMap_append, List.getLast?_append]
  cases h : item.input? <;> simp [h, lastInput]

theorem lastOutput_snoc (items : List Item) (item : Item) :
    lastOutput (items ++ [item]) = item.output?.or (lastOutput items) := by
  rw [lastOutput, List.filterMap_append, List.getLast?_append]
  cases h : item.output? <;> simp [h, lastOutput]

theorem wordsOf_append (items items' : List Item) : wordsOf (items ++ items') = wordsOf items ++ wordsOf items' :=
  List.filterMap_append

theorem Stage.MadeOf.word {stage : Stage} {items : List Item} (h : stage.MadeOf items) (text : Bytes) :
    (stage.feed (.word text)).MadeOf (items ++ [.word text]) := by
  have hwords : wordsOf (items ++ [.word text]) = wordsOf items ++ [text] := wordsOf_append items [.word text]
  refine ⟨?_, ?_, ?_, ?_, ?_, ?_⟩
  · show stage.argc + 1 = _
    rw [hwords, List.length_append, h.argc]
    rfl
  · intro i hi
    have hi' : i < stage.argc + 1 := hi
    show Function.update (Function.update stage.argv stage.argc (some text)) (stage.argc + 1) none i = _
    rw [hwords, Function.update_of_ne (by omega)]
    by_cases hlast : i = stage.argc
    · rw [hlast, Function.update_self, h.argc, List.getElem?_concat_length]
    · rw [Function.update_of_ne hlast, h.argv i (by omega), List.getElem?_append_left (by rw [← h.argc]; omega)]
  · show Function.update (Function.update stage.argv stage.argc (some text)) (stage.argc + 1) none (stage.argc + 1) = none
    rw [Function.update_self]
  · rw [lastInput_snoc]
    exact h.input
  · rw [lastOutput_snoc]
    exact h.output
  · rw [lastOutput_snoc]
    exact h.append

theorem Stage.MadeOf.redirection {stage : Stage} {items : List Item} (h : stage.MadeOf items) {type : TokenType}
    (htype : type.redirects = true) (path : Bytes) :
    (stage.feed (.redirection type path)).MadeOf (items ++ [.redirection type path]) := by
  have hwords : wordsOf (items ++ [.redirection type path]) = wordsOf items := by
    rw [wordsOf_append]
    exact List.append_nil _
  have hargs : stage.argc = (wordsOf (items ++ [.redirection type path])).length ∧
      ∀ i, i < stage.argc → stage.argv i = (wordsOf (items ++ [.redirection type path]))[i]? := by
    rw [hwords]
    exact ⟨h.argc, h.argv⟩
  cases type with
  | word | pipe | semicolon => cases htype
  | input =>
    refine ⟨hargs.1, hargs.2, h.null, ?_, ?_, ?_⟩
    · rw [lastInput_snoc]
      rfl
    · rw [lastOutput_snoc]
      exact h.output
    · rw [lastOutput_snoc]
      exact h.append
  | output | append =>
    refine ⟨hargs.1, hargs.2, h.null, ?_, ?_, ?_⟩
    · rw [lastInput_snoc]
      exact h.input
    · rw [lastOutput_snoc]
      rfl
    · rw [lastOutput_snoc]
      rfl

/-! ### The token loop accepts the grammar -/

theorem argc_feed_redirection (stage : Stage) (type : TokenType) (path : Bytes) :
    (stage.feed (.redirection type path)).argc = stage.argc := by
  rw [Stage.feed, Stage.setPath]
  split <;> rfl

/-- An operator of a redirection and a path. -/
theorem parseTokens_operator {operator path : Token} (h : operator.type.redirects = true) {rest : List Token}
    {array : ℕ → Stage} {count : ℕ} (hcount : count ≤ shellMaxStages) (expecting : Bool) :
    parseTokens (operator :: path :: rest) array count expecting =
      if path.type = .word then
        parseTokens rest (Function.update array (count - 1) ((array (count - 1)).setPath operator.type path.bytes))
          count expecting
      else .refused (ascii "redirection requires a path") := by
  rw [parseTokens, if_neg (by omega)]
  dsimp only
  cases hop : operator.type with
  | word | pipe | semicolon =>
    rw [hop] at h
    cases h
  | input | output | append => rfl

/-- The loop goes over the items of a stage. -/
theorem parseTokens_spells {items : List Item} {tokens : List Token} (hs : Spells items tokens) (rest : List Token) :
    ∀ {array : ℕ → Stage} {count : ℕ} {held : List Item}, count ≤ shellMaxStages →
      (array (count - 1)).MadeOf held → (wordsOf (held ++ items)).length ≤ shellMaxArgs →
      ∃ stage, stage.MadeOf (held ++ items) ∧
        parseTokens (tokens ++ rest) array count (wordsOf held).isEmpty =
          parseTokens rest (Function.update array (count - 1) stage) count (wordsOf (held ++ items)).isEmpty := by
  induction hs with
  | nil =>
    intro array count held _ hh _
    refine ⟨array (count - 1), ?_, ?_⟩
    · rw [List.append_nil]
      exact hh
    · rw [Function.update_eq_self, List.append_nil, List.nil_append]
  | @word token text items tokens htype hbytes _ ih =>
    intro array count held hcount hh hwords
    have hassoc : held ++ .word text :: items = (held ++ [.word text]) ++ items := by simp
    rw [hassoc] at hwords ⊢
    have hheld : Stage.MadeOf (Function.update array (count - 1) ((array (count - 1)).feed (.word text)) (count - 1))
        (held ++ [.word text]) := by
      rw [Function.update_self]
      exact hh.word text
    obtain ⟨stage, hstage, hparse⟩ := ih hcount hheld hwords
    have hroom : (array (count - 1)).argc < shellMaxArgs := by
      rw [wordsOf_append, wordsOf_append, List.length_append, List.length_append, ← hh.argc] at hwords
      have hone : (wordsOf [.word text]).length = 1 := rfl
      omega
    have hnone : (wordsOf (held ++ [.word text])).isEmpty = false := by
      rw [wordsOf_append]
      simp [wordsOf, Item.word?]
    refine ⟨stage, hstage, ?_⟩
    rw [hnone, Function.update_idem] at hparse
    rw [List.cons_append, parseTokens, if_neg (by omega), htype]
    dsimp only
    rw [if_neg (by omega), if_neg (by omega), hbytes]
    exact hparse
  | @redirection operator path text items tokens hredirects hpath hbytes _ ih =>
    intro array count held hcount hh hwords
    have hassoc : held ++ .redirection operator.type text :: items = (held ++ [.redirection operator.type text]) ++ items := by
      simp
    rw [hassoc] at hwords ⊢
    have hheld : Stage.MadeOf
        (Function.update array (count - 1) ((array (count - 1)).feed (.redirection operator.type text)) (count - 1))
        (held ++ [.redirection operator.type text]) := by
      rw [Function.update_self]
      exact hh.redirection hredirects text
    obtain ⟨stage, hstage, hparse⟩ := ih hcount hheld hwords
    have hsame : wordsOf (held ++ [.redirection operator.type text]) = wordsOf held := by
      rw [wordsOf_append]
      exact List.append_nil _
    refine ⟨stage, hstage, ?_⟩
    rw [hsame, Function.update_idem] at hparse
    rw [List.cons_append, List.cons_append, parseTokens_operator hredirects hcount, if_pos hpath, hbytes]
    exact hparse

/-- The loop goes over the tokens of a pipeline. -/
theorem parseTokens_grammar {tokens : List Token} {stages : List (List Item)} (hg : Grammar tokens stages) :
    ∀ {array : ℕ → Stage} {base : ℕ}, base + stages.length ≤ shellMaxStages →
      (∀ items ∈ stages, 1 ≤ (wordsOf items).length ∧ (wordsOf items).length ≤ shellMaxArgs) →
      (∀ i, base ≤ i → array i = Stage.zero) →
      ∃ array', (∀ i, i < base → array' i = array i) ∧
        (∀ i items, stages[i]? = some items → (array' (base + i)).MadeOf items) ∧
        parseTokens tokens array (base + 1) true = .pipeline array' (base + stages.length) [] := by
  induction hg with
  | @last items tokens hs =>
    intro array base hbase hwords hzero
    have hfits := hwords items (List.mem_singleton_self items)
    have hheld : (array (base + 1 - 1)).MadeOf [] := by
      rw [hzero _ (by omega)]
      exact Stage.madeOf_zero
    obtain ⟨stage, hstage, hparse⟩ := parseTokens_spells hs [] (show base + 1 ≤ shellMaxStages from hbase) hheld hfits.2
    have hsome : (wordsOf items).isEmpty = false := List.isEmpty_eq_false_iff.mpr (List.ne_nil_of_length_pos hfits.1)
    have hargc : ¬ (Function.update array (base + 1 - 1) stage (base + 1 - 1)).argc = 0 := by
      rw [Function.update_self, hstage.argc, List.nil_append]
      omega
    refine ⟨Function.update array base stage, fun i hi => Function.update_of_ne (by omega) _ _, ?_, ?_⟩
    · intro i items' hi
      rw [List.getElem?_singleton] at hi
      split at hi
      · rename_i hz
        cases hi
        rw [hz, Nat.add_zero, Function.update_self]
        exact hstage
      · cases hi
    · rw [List.append_nil, List.nil_append, hsome] at hparse
      rw [show true = (wordsOf []).isEmpty from rfl, hparse, parseTokens, parseEnd, if_neg (by simpa using hargc)]
      rfl
  | @bar items tokens rest token stages hs htoken _ ih =>
    intro array base hbase hwords hzero
    rw [List.length_cons] at hbase
    have hfits := hwords items (List.mem_cons_self ..)
    have hheld : (array (base + 1 - 1)).MadeOf [] := by
      rw [hzero _ (by omega)]
      exact Stage.madeOf_zero
    obtain ⟨stage, hstage, hparse⟩ := parseTokens_spells hs (token :: rest) (by omega) hheld hfits.2
    have hzero' : ∀ i, base + 1 ≤ i → Function.update array (base + 1 - 1) stage i = Stage.zero := by
      intro i hi
      rw [Function.update_of_ne (by omega)]
      exact hzero i (by omega)
    obtain ⟨array', hbelow, hholds, hrest⟩ :=
      ih (by omega) (fun items' hitems => hwords items' (List.mem_cons_of_mem _ hitems)) hzero'
    have hsome : (wordsOf items).isEmpty = false := List.isEmpty_eq_false_iff.mpr (List.ne_nil_of_length_pos hfits.1)
    have hargc : (Function.update array (base + 1 - 1) stage (base + 1 - 1)).argc ≠ 0 := by
      rw [Function.update_self, hstage.argc, List.nil_append]
      omega
    have hpipe : ¬ (false || decide ((Function.update array (base + 1 - 1) stage (base + 1 - 1)).argc = 0) ||
        decide (base + 1 = shellMaxStages)) = true := by
      have hlen : 0 < stages.length := by
        cases ‹Grammar rest stages› <;> exact Nat.succ_pos _
      simp only [Bool.false_or, Bool.or_eq_true, decide_eq_true_eq, not_or]
      exact ⟨hargc, by omega⟩
    refine ⟨array', fun i hi => ?_, ?_, ?_⟩
    · rw [hbelow i (by omega), Function.update_of_ne (by omega)]
    · intro i items' hi
      cases i with
      | zero =>
        cases hi
        rw [Nat.add_zero, hbelow base (by omega)]
        rw [Nat.add_sub_cancel, Function.update_self]
        exact hstage
      | succ i =>
        rw [show base + (i + 1) = base + 1 + i by omega]
        exact hholds i items' hi
    · rw [List.nil_append, hsome] at hparse
      rw [show true = (wordsOf []).isEmpty from rfl, hparse, parseTokens, if_neg (by omega), htoken]
      dsimp only
      rw [if_neg hpipe, hrest, List.length_cons]
      congr 1
      omega

/-! ### The token loop accepts nothing else -/

/-- What `lex_line` makes tokens of: words have a text. -/
def Texted (tokens : List Token) : Prop := ∀ token ∈ tokens, token.type = .word → ∃ text, token.bytes = some text

theorem lexToken_texted {ctx : Context} {c : UInt8} {rest next : Bytes} {token : Token}
    (h : lexToken ctx c rest = some (token, next)) : token.type = .word → ∃ text, token.bytes = some text := by
  rw [lexToken] at h
  intro htype
  split at h
  · cases h
    cases htype
  split at h
  · cases h
    cases htype
  split at h
  · cases h
    cases htype
  split at h
  · split at h <;> cases h <;> cases htype
  · obtain ⟨word, _, heq⟩ := Option.map_eq_some_iff.mp h
    cases heq
    exact ⟨_, rfl⟩

theorem lexFrom_texted {ctx : Context} {count : ℕ} {cursor : Bytes} :
    ∀ {tokens : List Token}, lexFrom ctx count cursor = some tokens → Texted tokens := by
  induction count, cursor using lexFrom.induct ctx with
  | case1 count cursor hspace =>
    intro tokens h
    rw [lexFrom.eq_def, hspace] at h
    cases h
    exact List.forall_mem_nil _
  | case2 cursor c rest hspace =>
    intro tokens h
    rw [lexFrom.eq_def, hspace] at h
    dsimp only at h
    rw [if_pos rfl] at h
    cases h
  | case3 count cursor c rest hspace hcount htoken =>
    intro tokens h
    rw [lexFrom.eq_def, hspace] at h
    dsimp only at h
    rw [if_neg hcount, htoken] at h
    cases h
  | case4 count cursor c rest hspace hcount token next htoken ih =>
    intro tokens h
    rw [lexFrom.eq_def, hspace] at h
    dsimp only at h
    rw [if_neg hcount, htoken] at h
    obtain ⟨tokens', hnext, rfl⟩ := Option.map_eq_some_iff.mp h
    intro t ht
    rcases List.mem_cons.mp ht with rfl | ht
    · exact lexToken_texted htoken
    · exact ih hnext t ht

theorem Grammar.word {token : Token} {text : Bytes} {tokens : List Token} {items : List Item} {more : List (List Item)}
    (htype : token.type = .word) (hbytes : token.bytes = some text) (h : Grammar tokens (items :: more)) :
    Grammar (token :: tokens) ((.word text :: items) :: more) := by
  cases h with
  | last hs => exact .last (.word htype hbytes hs)
  | bar hs hbar hrest => exact .bar (.word htype hbytes hs) hbar hrest

theorem Grammar.redirection {operator path : Token} {text : Bytes} {tokens : List Token} {items : List Item}
    {more : List (List Item)} (hredirects : operator.type.redirects = true) (hpath : path.type = .word)
    (hbytes : path.bytes = some text) (h : Grammar tokens (items :: more)) :
    Grammar (operator :: path :: tokens) ((.redirection operator.type text :: items) :: more) := by
  cases h with
  | last hs => exact .last (.redirection hredirects hpath hbytes hs)
  | bar hs hbar hrest => exact .bar (.redirection hredirects hpath hbytes hs) hbar hrest

/-- The rest of a pipeline behind the items `held` of its stage number `base`. -/
def Acceptable (tokens : List Token) (base : ℕ) (held : List Item) : Prop :=
  ∃ items more, Grammar tokens (items :: more) ∧ base + 1 + more.length ≤ shellMaxStages ∧
    ∀ items' ∈ (held ++ items) :: more, 1 ≤ (wordsOf items').length ∧ (wordsOf items').length ≤ shellMaxArgs

theorem Acceptable.word {token : Token} {text : Bytes} {tokens : List Token} {base : ℕ} {held : List Item}
    (htype : token.type = .word) (hbytes : token.bytes = some text)
    (h : Acceptable tokens base (held ++ [.word text])) : Acceptable (token :: tokens) base held := by
  obtain ⟨items, more, hg, hcount, hwords⟩ := h
  refine ⟨.word text :: items, more, hg.word htype hbytes, hcount, ?_⟩
  rw [List.append_cons]
  exact hwords

theorem Acceptable.redirection {operator path : Token} {text : Bytes} {tokens : List Token} {base : ℕ}
    {held : List Item} (hredirects : operator.type.redirects = true) (hpath : path.type = .word)
    (hbytes : path.bytes = some text) (h : Acceptable tokens base (held ++ [.redirection operator.type text])) :
    Acceptable (operator :: path :: tokens) base held := by
  obtain ⟨items, more, hg, hcount, hwords⟩ := h
  refine ⟨.redirection operator.type text :: items, more, hg.redirection hredirects hpath hbytes, hcount, ?_⟩
  rw [List.append_cons]
  exact hwords

theorem Acceptable.bar {token : Token} {tokens : List Token} {base : ℕ} {held : List Item} (htype : token.type = .pipe)
    (hsome : 1 ≤ (wordsOf held).length) (hfew : (wordsOf held).length ≤ shellMaxArgs)
    (h : Acceptable tokens (base + 1) []) : Acceptable (token :: tokens) base held := by
  obtain ⟨items, more, hg, hcount, hwords⟩ := h
  refine ⟨[], items :: more, @Grammar.bar [] [] _ _ _ .nil htype hg, ?_, ?_⟩
  · rw [List.length_cons]
    omega
  · rw [List.append_nil]
    intro items' hitems
    rcases List.mem_cons.mp hitems with rfl | hitems
    · exact ⟨hsome, hfew⟩
    · exact hwords items' hitems

/-- The loop refuses what it does not accept. The stage in hand has the words of `held`, and those behind it
are empty. -/
theorem parseTokens_refuses (tokens : List Token) (array : ℕ → Stage) (count : ℕ) (expecting : Bool) :
    ∀ {base : ℕ} {held : List Item}, (∀ token ∈ tokens, token.type ≠ .semicolon) → Texted tokens →
      count = base + 1 → base < shellMaxStages → expecting = (wordsOf held).isEmpty →
      (array base).argc = (wordsOf held).length → (wordsOf held).length ≤ shellMaxArgs →
      (∀ i, base < i → (array i).argc = 0) →
      Acceptable tokens base held ∨ ∃ message, parseTokens tokens array count expecting = .refused message := by
  induction tokens, array, count, expecting using parseTokens.induct with
  | case1 array count expecting =>
    intro base held _ _ hcount hbase hexpecting hargc hfew _
    subst hcount
    rw [parseTokens, parseEnd]
    by_cases hnone : wordsOf held = []
    · right
      refine ⟨ascii "missing command", if_pos ?_⟩
      rw [hexpecting, hnone]
      rfl
    · left
      refine ⟨[], [], .last .nil, hbase, ?_⟩
      rw [List.append_nil]
      intro items hitems
      rw [List.mem_singleton.mp hitems]
      exact ⟨List.length_pos_of_ne_nil hnone, hfew⟩
  | case2 token rest array count expecting hover =>
    intro base held _ _ hcount hbase
    omega
  | case3 token rest array count expecting _ htype =>
    intro base held hplain
    exact absurd htype (hplain token (List.mem_cons_self ..))
  | case4 token rest array count expecting hover stage htype =>
    rename_i hfull
    intro base held _ _ _ _ _ _ _ _
    right
    rw [parseTokens, if_neg hover, htype]
    exact ⟨_, if_pos hfull⟩
  | case5 token rest array count expecting hover stage htype hroom =>
    rename_i hover'
    intro base held _ _ hcount _ _ hargc hfew _
    subst hcount
    have hstage : stage = array base := rfl
    rw [hstage] at hroom hover'
    omega
  | case6 token rest array count expecting hover stage htype hroom hroom' =>
    rename_i ih
    intro base held hplain htexted hcount hbase hexpecting hargc hfew hempty
    subst hcount
    have hstage : stage = array base := rfl
    rw [hstage] at hroom hroom'
    obtain ⟨text, hbytes⟩ := htexted token (List.mem_cons_self ..) htype
    have hwords : wordsOf (held ++ [.word text]) = wordsOf held ++ [text] := wordsOf_append held [.word text]
    have hlen : (wordsOf (held ++ [.word text])).length = (wordsOf held).length + 1 := by
      rw [hwords, List.length_append, List.length_singleton]
    have hargc' : (Function.update array base ((array base).pushWord token.bytes) base).argc =
        (wordsOf (held ++ [.word text])).length := by
      rw [Function.update_self, hlen, ← hargc]
      rfl
    have hempty' : ∀ i, base < i → (Function.update array base ((array base).pushWord token.bytes) i).argc = 0 := by
      intro i hi
      rw [Function.update_of_ne (by omega)]
      exact hempty i hi
    have hflag : false = (wordsOf (held ++ [.word text])).isEmpty := by
      rw [hwords]
      simp
    rcases ih (fun t ht => hplain t (List.mem_cons_of_mem _ ht)) (fun t ht => htexted t (List.mem_cons_of_mem _ ht))
      rfl hbase hflag hargc' (by omega) hempty' with h | ⟨message, h⟩
    · exact .inl (h.word htype hbytes)
    · right
      refine ⟨message, ?_⟩
      rw [parseTokens, if_neg hover, htype]
      dsimp only
      rw [Nat.add_sub_cancel, if_neg hroom, if_neg hroom']
      exact h
  | case7 token rest array count expecting hover stage htype =>
    rename_i hbad
    intro base held _ _ _ _ _ _ _ _
    right
    rw [parseTokens, if_neg hover, htype]
    exact ⟨_, if_pos hbad⟩
  | case8 token rest array count expecting hover stage htype hgood =>
    rename_i ih
    intro base held hplain htexted hcount hbase hexpecting hargc hfew hempty
    subst hcount
    have hstage : stage = array base := rfl
    have hgood' := hgood
    rw [hstage, Bool.or_eq_true, Bool.or_eq_true, decide_eq_true_eq, decide_eq_true_eq, not_or, not_or] at hgood
    rcases ih (fun t ht => hplain t (List.mem_cons_of_mem _ ht)) (fun t ht => htexted t (List.mem_cons_of_mem _ ht))
      rfl (by omega) (@rfl _ (wordsOf []).isEmpty) (hempty (base + 1) (by omega)) (Nat.zero_le _)
      (fun i hi => hempty i (by omega)) with h | ⟨message, h⟩
    · exact .inl (h.bar htype (by omega) hfew)
    · right
      refine ⟨message, ?_⟩
      rw [parseTokens, if_neg hover, htype]
      exact (if_neg hgood').trans h
  | case9 token array count expecting hover stage path rest hpath hsemi hword hbar =>
    rename_i ih
    intro base held hplain htexted hcount hbase hexpecting hargc hfew hempty
    subst hcount
    obtain ⟨text, hbytes⟩ := htexted path (List.mem_cons_of_mem _ (List.mem_cons_self ..)) hpath
    have hredirects : token.type.redirects = true := by
      cases htype : token.type with
      | semicolon => exact absurd htype hsemi
      | word => exact absurd htype hword
      | pipe => exact absurd htype hbar
      | input | output | append => rfl
    have hwords : wordsOf (held ++ [.redirection token.type text]) = wordsOf held := by
      rw [wordsOf_append]
      exact List.append_nil _
    have hargc' : (Function.update array base ((array base).setPath token.type path.bytes) base).argc =
        (wordsOf (held ++ [.redirection token.type text])).length := by
      rw [Function.update_self, hwords, ← hargc, hbytes]
      exact argc_feed_redirection (array base) token.type text
    have hempty' : ∀ i, base < i → (Function.update array base ((array base).setPath token.type path.bytes) i).argc = 0 := by
      intro i hi
      rw [Function.update_of_ne (by omega)]
      exact hempty i hi
    rcases ih (fun t ht => hplain t (List.mem_cons_of_mem _ (List.mem_cons_of_mem _ ht)))
      (fun t ht => htexted t (List.mem_cons_of_mem _ (List.mem_cons_of_mem _ ht)))
      rfl hbase (by rw [hwords]; exact hexpecting) hargc' (by rw [hwords]; exact hfew) hempty' with h | ⟨message, h⟩
    · exact .inl (h.redirection hredirects hpath hbytes)
    · right
      refine ⟨message, ?_⟩
      rw [parseTokens_operator hredirects (by omega), if_pos hpath]
      exact h
  | case10 token array count expecting hover path rest hpath hsemi hword hbar =>
    intro base held _ _ _ _ _ _ _ _
    right
    rw [parseTokens, if_neg hover]
    dsimp only
    split
    · exact absurd ‹_› hsemi
    · exact absurd ‹_› hword
    · exact absurd ‹_› hbar
    · exact ⟨_, if_neg hpath⟩
  | case11 token array count expecting hover hsemi hword hbar =>
    intro base held _ _ _ _ _ _ _ _
    right
    rw [parseTokens, if_neg hover]
    dsimp only
    split
    · exact absurd ‹_› hsemi
    · exact absurd ‹_› hword
    · exact absurd ‹_› hbar
    · exact ⟨_, rfl⟩

/-! ### The arrays -/

/-- What `run_pipeline` relies on: one to 32 arguments, and `NULL` behind them. -/
structure Stage.Ready (stage : Stage) : Prop where
  some_word : 1 ≤ stage.argc
  few_words : stage.argc ≤ shellMaxArgs
  words : ∀ i, i < stage.argc → ∃ word, stage.argv i = some word
  null : stage.argv stage.argc = none

theorem Stage.MadeOf.ready {stage : Stage} {items : List Item} (h : stage.MadeOf items)
    (hwords : 1 ≤ (wordsOf items).length ∧ (wordsOf items).length ≤ shellMaxArgs) : stage.Ready where
  some_word := by
    rw [h.argc]
    exact hwords.1
  few_words := by
    rw [h.argc]
    exact hwords.2
  words := by
    intro i hi
    have hi' := hi
    rw [h.argc] at hi'
    exact ⟨_, (h.argv i hi).trans (List.getElem?_eq_getElem hi')⟩
  null := h.null

theorem writeLoop_safe (descriptor : ℤ) (n : ℕ) : ∀ text : Bytes, (writeLoop descriptor n text).Safe := by
  induction n with
  | zero => exact fun _ => trivial
  | succ n ih =>
    intro text
    rw [writeLoop]
    split
    · trivial
    · refine Prog.Safe.ask fun a => ?_
      split
      · trivial
      · exact ih _

theorem shellWrite_safe (descriptor : ℤ) (text : Bytes) : (shellWrite descriptor text).Safe :=
  writeLoop_safe descriptor text.length text

theorem say_safe (text : Bytes) : (say text).Safe := (shellWrite_safe 2 text).bind fun _ => trivial

theorem shellError_safe (message : Bytes) : (shellError message).Safe :=
  (say_safe _).bind fun _ => (say_safe _).bind fun _ => say_safe _

theorem closeIf_safe (descriptor : ℤ) : (closeIf descriptor).Safe := by
  rw [closeIf]
  split
  · exact fun _ => trivial
  · trivial

theorem openOutput_safe (stage : Stage) (input : ℤ) : (openOutput stage input).Safe := by
  rw [openOutput]
  split
  · trivial
  · refine Prog.Safe.ask fun a => ?_
    split
    · exact (closeIf_safe input).bind fun _ => trivial
    · trivial

theorem openRedirections_safe (stage : Stage) : (openRedirections stage).Safe := by
  rw [openRedirections]
  split
  · exact openOutput_safe stage (-1)
  · refine Prog.Safe.ask fun a => ?_
    split
    · trivial
    · exact openOutput_safe stage a.value

theorem redirect_safe (descriptor standard : ℤ) : (redirect descriptor standard).Safe := by
  rw [redirect]
  split
  · refine Prog.Safe.ask fun saved => ?_
    split
    · trivial
    · exact fun _ => trivial
  · trivial

theorem putBack_safe (saved standard : ℤ) : (putBack saved standard).Safe := by
  rw [putBack]
  split
  · exact fun _ => trivial
  · trivial

theorem closeFour_safe (savedInput savedOutput input output : ℤ) : (closeFour savedInput savedOutput input output).Safe :=
  (closeIf_safe _).bind fun _ => (closeIf_safe _).bind fun _ => (closeIf_safe _).bind fun _ => closeIf_safe _

theorem descriptorError_safe (savedInput savedOutput input output : ℤ) :
    (descriptorError savedInput savedOutput input output).Safe :=
  (shellError_safe _).bind fun _ => (closeFour_safe _ _ _ _).bind fun _ => trivial

section Arrays

variable (strerror : ℤ → Bytes)

theorem errorText_safe : (errorText strerror).Safe := fun _ _ => trivial

theorem exportLoop_safe {stage : Stage} (h : stage.Ready) (n : ℕ) :
    ∀ index, index + n ≤ stage.argc → (exportLoop stage.argv n index).Safe := by
  induction n with
  | zero => exact fun _ _ => trivial
  | succ n ih =>
    intro index hindex
    obtain ⟨argument, hargument⟩ := h.words index (by omega)
    rw [exportLoop, hargument]
    dsimp only
    split
    · exact (shellError_safe _).bind fun _ => trivial
    · refine Prog.Safe.ask fun a => ?_
      split
      · exact (shellError_safe _).bind fun _ => trivial
      · exact ih (index + 1) (by omega)

theorem unsetLoop_safe (argv : ℕ → Option Bytes) (n : ℕ) : ∀ index, (unsetLoop argv n index).Safe := by
  induction n with
  | zero => exact fun _ => trivial
  | succ n ih =>
    intro index
    refine Prog.Safe.ask fun a => ?_
    split
    · exact (shellError_safe _).bind fun _ => trivial
    · exact ih (index + 1)

theorem runCd_safe (stage : Stage) : (runCd strerror stage).Safe := by
  have hchdir : ∀ path : Option Bytes, (Prog.ask (.op (.chdir (path.getD (ascii "/")))) >>= fun a : Answer =>
      if a.value < 0 then (do
        say (ascii "sh: cd: ")
        say (← errorText strerror)
        say (ascii "\n")
        .ret 1 : Script ℤ)
      else .ret 0).Safe := by
    intro path
    refine Prog.Safe.ask fun a => ?_
    split
    · exact (say_safe _).bind fun _ => (errorText_safe strerror).bind fun _ => (say_safe _).bind fun _ =>
        (say_safe _).bind fun _ => trivial
    · trivial
  rw [runCd]
  split
  · exact (shellError_safe _).bind fun _ => trivial
  · split
    · exact fun a => hchdir _
    · exact hchdir _

theorem runPwd_safe : (runPwd strerror).Safe := by
  refine Prog.Safe.ask fun a => ?_
  split
  · exact (errorText_safe strerror).bind fun _ => (shellError_safe _).bind fun _ => trivial
  · exact (shellWrite_safe _ _).bind fun _ => (shellWrite_safe _ _).bind fun _ => trivial

theorem runExit_safe {stage : Stage} (h : stage.Ready) (lastStatus : ℤ) : (runExit stage lastStatus).Safe := by
  rw [runExit]
  split
  · exact (shellError_safe _).bind fun _ => trivial
  · split
    · obtain ⟨text, htext⟩ := h.words 1 (by omega)
      rw [htext]
      dsimp only
      split
      · exact (shellError_safe _).bind fun _ => trivial
      · trivial
    · trivial

theorem runBuiltin_safe {stage : Stage} (h : stage.Ready) (lastStatus : ℤ) :
    (runBuiltin strerror stage lastStatus).Safe := by
  obtain ⟨name, hname⟩ := h.words 0 h.some_word
  rw [runBuiltin, hname]
  dsimp only
  split
  · exact (runCd_safe strerror stage).bind fun _ => trivial
  split
  · exact (runPwd_safe strerror).bind fun _ => trivial
  split
  · exact (exportLoop_safe h (stage.argc - 1) 1 (by have := h.some_word; omega)).bind fun _ => trivial
  split
  · exact (unsetLoop_safe stage.argv (stage.argc - 1) 1).bind fun _ => trivial
  split
  · exact runExit_safe h lastStatus
  · trivial

theorem runBuiltinRedirected_safe {stage : Stage} (h : stage.Ready) (lastStatus : ℤ) :
    (runBuiltinRedirected strerror stage lastStatus).Safe := by
  refine (openRedirections_safe stage).bind fun (opened, input, output) => ?_
  dsimp only
  split
  · exact (errorText_safe strerror).bind fun _ => (shellError_safe _).bind fun _ => trivial
  refine (redirect_safe input 0).bind fun (savedInput, done) => ?_
  dsimp only
  split
  · exact descriptorError_safe _ _ _ _
  refine (redirect_safe output 1).bind fun (savedOutput, done) => ?_
  dsimp only
  split
  · exact descriptorError_safe _ _ _ _
  · exact (runBuiltin_safe strerror h lastStatus).bind fun _ => (putBack_safe _ _).bind fun _ =>
      (putBack_safe _ _).bind fun _ => (closeFour_safe _ _ _ _).bind fun _ => trivial

/-! ### The arrays of `run_pipeline` -/

theorem addAction_room {actions : List SpawnAction} (h : actions.length < 34) (type : SpawnKind) (fromFd toFd : ℤ) :
    ∃ actions', addAction actions type fromFd toFd = some actions' ∧ actions'.length = actions.length + 1 := by
  refine ⟨_, if_pos h, ?_⟩
  rw [List.length_append, List.length_singleton]

theorem addActionIf_room {actions : List SpawnAction} (h : actions.length < 34) (descriptor : ℤ) (type : SpawnKind)
    (toFd : ℤ) :
    ∃ actions', addActionIf descriptor type toFd actions = some actions' ∧ actions'.length ≤ actions.length + 1 := by
  rw [addActionIf]
  split
  · obtain ⟨actions', hadd, hlen⟩ := addAction_room h type descriptor toFd
    exact ⟨actions', hadd, hlen.le⟩
  · exact ⟨actions, rfl, Nat.le_succ _⟩

theorem closePipeActions_room (pipes : ℕ → ℤ × ℤ) (n : ℕ) :
    ∀ {index : ℕ} {actions : List SpawnAction}, actions.length + 2 * n ≤ 34 →
      ∃ actions', closePipeActions pipes n index actions = some actions' ∧
        actions'.length = actions.length + 2 * n := by
  induction n with
  | zero => exact fun _ => ⟨_, rfl, rfl⟩
  | succ n ih =>
    intro index actions h
    obtain ⟨one, hone, hlen⟩ := addAction_room (show actions.length < 34 by omega) .close (pipes index).1 (-1)
    obtain ⟨two, htwo, hlen'⟩ := addAction_room (show one.length < 34 by omega) .close (pipes index).2 (-1)
    obtain ⟨actions', hrest, hlen''⟩ := @ih (index + 1) two (by omega)
    refine ⟨actions', ?_, by omega⟩
    rw [closePipeActions, hone, Option.bind_eq_bind, Option.bind_some, htwo, Option.bind_some, hrest]

/-- Two actions of `dup2`, two closes for each of 15 pipes and two for the redirections fill the array. -/
theorem stageActions_room (locals : Locals) {stageCount : ℕ} (h : stageCount ≤ shellMaxStages) (index : ℕ) :
    ∃ actions, stageActions locals stageCount index = some actions := by
  have hmax : shellMaxStages = 16 := rfl
  unfold stageActions
  dsimp only
  obtain ⟨one, hone, hlen⟩ := addActionIf_room (show ([] : List SpawnAction).length < 34 by simp)
    (if 0 ≤ locals.inputs index then locals.inputs index else if 0 < index then (locals.pipes (index - 1)).1 else -1)
    .dup2 0
  rw [List.length_nil] at hlen
  obtain ⟨two, htwo, hlen'⟩ := addActionIf_room (show one.length < 34 by omega)
    (if 0 ≤ locals.outputs index then locals.outputs index
      else if index + 1 < stageCount then (locals.pipes index).2 else -1) .dup2 1
  obtain ⟨three, hthree, hlen''⟩ := @closePipeActions_room locals.pipes (stageCount - 1) 0 two (by omega)
  obtain ⟨four, hfour, hlen₄⟩ := addActionIf_room (show three.length < 34 by omega) (locals.inputs index) .close (-1)
  rw [hone, Option.bind_eq_bind, Option.bind_some, htwo, Option.bind_some, hthree, Option.bind_some, hfour,
    Option.bind_some]
  split
  · obtain ⟨five, hfive, _⟩ := addActionIf_room (show four.length < 34 by omega) (locals.outputs index) .close (-1)
    exact ⟨five, hfive⟩
  · exact ⟨four, rfl⟩

/-- A vector with `NULL` among its pointers. -/
theorem readVector_some {size i : ℕ} {vector : ℕ → Option Bytes} (hi : i < size) (hnull : vector i = none) :
    ∃ strings, readVector size vector = some strings := by
  refine ⟨_, if_pos ?_⟩
  by_contra hlong
  have hall := (List.takeWhile_prefix (l := (List.range size).map vector) Option.isSome).eq_of_length_le (by simpa using hlong)
  have hmem : vector i ∈ ((List.range size).map vector).takeWhile Option.isSome := by
    rw [hall]
    exact List.mem_map_of_mem (List.mem_range.mpr hi)
  have hsome := List.mem_takeWhile_imp hmem
  rw [hnull] at hsome
  cases hsome

theorem spawnArguments_some {stage : Stage} (h : stage.Ready) (name : Bytes) (lastStatus : ℤ) :
    ∃ arguments, spawnArguments stage name lastStatus = some arguments := by
  have hmax := h.few_words
  rw [spawnArguments]
  split
  · rw [if_pos (by omega)]
    have hnull : builtinArgv stage lastStatus (stage.argc + 2) = none := if_neg (Nat.lt_irrefl _)
    obtain ⟨argv, hargv⟩ := readVector_some (show stage.argc + 2 < shellMaxArgs + 3 by omega) hnull
    exact ⟨_, congrArg (Option.map _) hargv⟩
  · obtain ⟨argv, hargv⟩ := readVector_some (show stage.argc < shellMaxArgs + 1 by omega) h.null
    exact ⟨_, congrArg (Option.map _) hargv⟩

theorem openStages_safe (stages : ℕ → Stage) (n : ℕ) :
    ∀ (index : ℕ) (locals : Locals), index + n ≤ shellMaxStages → (openStages strerror stages n index locals).Safe := by
  induction n with
  | zero => exact fun _ _ _ => trivial
  | succ n ih =>
    intro index locals hindex
    rw [openStages, if_neg (by omega)]
    refine (openRedirections_safe _).bind fun (opened, input, output) => ?_
    dsimp only
    split
    · exact (errorText_safe strerror).bind fun _ => (shellError_safe _).bind fun _ => trivial
    · exact ih (index + 1) _ (by omega)

theorem createPipes_safe (n : ℕ) :
    ∀ (index : ℕ) (locals : Locals), index + n ≤ shellMaxStages - 1 → (createPipes n index locals).Safe := by
  induction n with
  | zero => exact fun _ _ _ => trivial
  | succ n ih =>
    intro index locals hindex
    rw [createPipes, if_neg (by omega)]
    refine Prog.Safe.ask fun a => ?_
    split
    · exact (shellError_safe _).bind fun _ => trivial
    · split
      · exact ih (index + 1) _ (by omega)
      · exact ih (index + 1) _ (by omega)

theorem spawnStages_safe {stages : ℕ → Stage} {stageCount : ℕ} (hcount : stageCount ≤ shellMaxStages)
    (hready : ∀ i, i < stageCount → (stages i).Ready) (lastStatus : ℤ) (n : ℕ) :
    ∀ (index : ℕ) (locals : Locals), index + n ≤ stageCount →
      (spawnStages strerror stages stageCount lastStatus n index locals).Safe := by
  induction n with
  | zero => exact fun _ _ _ => trivial
  | succ n ih =>
    intro index locals hindex
    have hstage := hready index (by omega)
    obtain ⟨name, hname⟩ := hstage.words 0 hstage.some_word
    obtain ⟨actions, hactions⟩ := stageActions_room locals hcount index
    obtain ⟨⟨program, argv⟩, harguments⟩ := spawnArguments_some hstage name lastStatus
    rw [spawnStages, hname, hactions]
    dsimp only
    rw [harguments]
    dsimp only
    rw [if_neg (by omega)]
    refine Prog.Safe.ask fun a => ?_
    split
    · exact (say_safe _).bind fun _ => (say_safe _).bind fun _ => (say_safe _).bind fun _ =>
        (errorText_safe strerror).bind fun _ => (say_safe _).bind fun _ => (say_safe _).bind fun _ => trivial
    · split
      · exact ih (index + 1) _ (by omega)
      · exact ih (index + 1) _ (by omega)

theorem closePipes_safe (pipes : ℕ → ℤ × ℤ) (n : ℕ) : ∀ index, (closePipes pipes n index).Safe := by
  induction n with
  | zero => exact fun _ => trivial
  | succ n ih => exact fun index _ _ => ih (index + 1)

theorem closeRedirections_safe (locals : Locals) (n : ℕ) : ∀ index, (closeRedirections locals n index).Safe := by
  induction n with
  | zero => exact fun _ => trivial
  | succ n ih => exact fun index => (closeIf_safe _).bind fun _ => (closeIf_safe _).bind fun _ => ih (index + 1)

theorem waitStages_safe (pids : ℕ → ℤ) (stageCount n : ℕ) :
    ∀ (index : ℕ) (status : ℤ), (waitStages pids stageCount n index status).Safe := by
  induction n with
  | zero => exact fun _ _ => trivial
  | succ n ih => exact fun index status _ => ih (index + 1) _

theorem cleanup_safe (locals : Locals) (stageCount createdPipes spawned : ℕ) (status : ℤ) :
    (cleanup locals stageCount createdPipes spawned status).Safe := by
  refine (closePipes_safe _ _ _).bind fun _ => (closeRedirections_safe _ _ _).bind fun _ =>
    (waitStages_safe _ _ _ _ _).bind fun status' => ?_
  split
  · trivial
  · trivial

theorem runStages_safe (garbage : Locals) {stages : ℕ → Stage} {stageCount : ℕ} (hcount : stageCount ≤ shellMaxStages)
    (hready : ∀ i, i < stageCount → (stages i).Ready) (lastStatus : ℤ) :
    (runStages strerror garbage stages stageCount lastStatus).Safe := by
  refine (openStages_safe strerror stages stageCount 0 garbage (by omega)).bind fun (locals, done) => ?_
  dsimp only
  split
  · exact cleanup_safe _ _ _ _ _
  refine (createPipes_safe (stageCount - 1) 0 locals (by omega)).bind fun (locals, createdPipes, done) => ?_
  dsimp only
  split
  · exact cleanup_safe _ _ _ _ _
  refine (spawnStages_safe strerror hcount hready lastStatus stageCount 0 locals (by omega)).bind
    fun (locals, spawned, done) => ?_
  exact cleanup_safe _ _ _ _ _

/-- `run_pipeline` stays inside its arrays. -/
theorem runPipeline_safe (garbage : Locals) {stages : ℕ → Stage} {stageCount : ℕ} (hcount : stageCount ≤ shellMaxStages)
    (hready : ∀ i, i < stageCount → (stages i).Ready) (lastStatus : ℤ) :
    (runPipeline strerror garbage stages stageCount lastStatus).Safe := by
  rw [runPipeline]
  split
  · have hstage := hready 0 (by omega)
    obtain ⟨name, hname⟩ := hstage.words 0 hstage.some_word
    rw [hname]
    dsimp only
    split
    · exact runBuiltinRedirected_safe strerror hstage lastStatus
    · exact runStages_safe strerror garbage hcount hready lastStatus
  · exact runStages_safe strerror garbage hcount hready lastStatus

end Arrays

/-! ### The parser -/

theorem shellWrite_makes (descriptor : ℤ) (text : Bytes) :
    (shellWrite descriptor text).Makes fun call => ∃ text', call = .op (.write descriptor text') := by
  have hloop : ∀ n text, (writeLoop descriptor n text).Makes fun call => ∃ text', call = .op (.write descriptor text') := by
    intro n
    induction n with
    | zero => exact fun _ => trivial
    | succ n ih =>
      intro text
      rw [writeLoop]
      split
      · trivial
      · refine Prog.Makes.ask ⟨text, rfl⟩ fun a => ?_
        split
        · trivial
        · exact ih _
  exact hloop text.length text

theorem say_makes (text : Bytes) : (say text).Makes fun call => ∃ text', call = .op (.write 2 text') :=
  (shellWrite_makes 2 text).bind fun _ => trivial

theorem shellError_makes (message : Bytes) : (shellError message).Makes fun call => ∃ text, call = .op (.write 2 text) :=
  (say_makes _).bind fun _ => (say_makes _).bind fun _ => say_makes _

/-- One pipeline without a semicolon. -/
theorem executeTokens_pipeline (runPipeline : (ℕ → Stage) → ℕ → ℤ → Script (ℤ × Bool)) {tokens : List Token}
    {array : ℕ → Stage} {stageCount : ℕ} (h : parseTokens tokens (fun _ => Stage.zero) 1 true = .pipeline array stageCount [])
    (hne : tokens ≠ []) (status : ℤ) :
    executeTokens runPipeline tokens.length tokens status = runPipeline array stageCount status := by
  obtain ⟨n, hn⟩ := Nat.exists_eq_succ_of_ne_zero (mt List.length_eq_zero_iff.mp hne)
  have hrest : ∀ result : ℤ × Bool, (if result.2 = true then (Prog.ret (result.1, true) : Script (ℤ × Bool))
      else executeTokens runPipeline n [].tail result.1) = Prog.ret result := by
    rintro ⟨status, shouldExit⟩
    cases shouldExit
    · cases n <;> rfl
    · rfl
  rw [hn, executeTokens, if_neg hne, h]
  exact (congrArg (Prog.bind _) (funext hrest)).trans (Prog.bind_ret _)

theorem executeTokens_refused (runPipeline : (ℕ → Stage) → ℕ → ℤ → Script (ℤ × Bool)) {tokens : List Token}
    {message : Bytes} (h : parseTokens tokens (fun _ => Stage.zero) 1 true = .refused message) (hne : tokens ≠ [])
    (status : ℤ) :
    executeTokens runPipeline tokens.length tokens status = (shellError message >>= fun _ => .ret (2, false)) := by
  obtain ⟨n, hn⟩ := Nat.exists_eq_succ_of_ne_zero (mt List.length_eq_zero_iff.mp hne)
  rw [hn, executeTokens, if_neg hne, h]

/-- `execute_segment` accepts exactly the grammar within its limits. It then calls `run_pipeline` once with
the stages of the line and does nothing else, and `run_pipeline` stays inside its arrays. Otherwise it
returns 2 and only writes a message. -/
theorem parser_accepts_grammar {ctx : Context} {line : Bytes} {tokens : List Token}
    (hlex : lexLine ctx line = some tokens) (hne : tokens ≠ []) (hplain : ∀ token ∈ tokens, token.type ≠ .semicolon) :
    (∀ stages, Grammar tokens stages → WithinLimits stages →
      ∃ array, HoldsStages array stages ∧
        (∀ run : (ℕ → Stage) → ℕ → ℤ → Script (ℤ × Bool),
          executeSegment run ctx line = run array stages.length ctx.lastStatus) ∧
        ∀ strerror garbage, (runPipeline strerror garbage array stages.length ctx.lastStatus).Safe) ∧
    ((¬ ∃ stages, Grammar tokens stages ∧ WithinLimits stages) →
      ∃ message, (∀ run : (ℕ → Stage) → ℕ → ℤ → Script (ℤ × Bool),
          executeSegment run ctx line = (shellError message >>= fun _ => .ret (2, false))) ∧
        (shellError message).Makes fun call => ∃ text, call = .op (.write 2 text)) := by
  have hexecute : ∀ run : (ℕ → Stage) → ℕ → ℤ → Script (ℤ × Bool),
      executeSegment run ctx line = executeTokens run tokens.length tokens ctx.lastStatus := by
    intro run
    rw [executeSegment, hlex]
  constructor
  · intro stages hg hfits
    obtain ⟨array, -, hholds, hparse⟩ := @parseTokens_grammar tokens stages hg (fun _ => Stage.zero) 0
      (by rw [Nat.zero_add]; exact hfits.1) hfits.2 fun _ _ => rfl
    simp only [Nat.zero_add] at hholds hparse
    refine ⟨array, hholds, fun run => ?_, fun strerror garbage => ?_⟩
    · rw [hexecute]
      exact executeTokens_pipeline run hparse hne ctx.lastStatus
    · refine runPipeline_safe strerror garbage hfits.1 (fun i hi => ?_) ctx.lastStatus
      exact (hholds i _ (List.getElem?_eq_getElem hi)).ready (hfits.2 _ (List.getElem_mem hi))
  · intro hnone
    have htexted : Texted tokens := lexFrom_texted hlex
    rcases @parseTokens_refuses tokens (fun _ => Stage.zero) 1 true 0 [] hplain htexted rfl (by decide) rfl rfl (by decide)
      (fun _ _ => rfl) with ⟨items, more, hg, hcount, hwords⟩ | ⟨message, hparse⟩
    · refine absurd ⟨items :: more, hg, ?_, hwords⟩ hnone
      rw [List.length_cons]
      omega
    · refine ⟨message, fun run => ?_, shellError_makes message⟩
      rw [hexecute]
      exact executeTokens_refused run hparse hne ctx.lastStatus

/-- The line `a<i|b` makes two stages, the first with an input redirection. -/
theorem parser_accepts_grammar_two :
    ∃ array, HoldsStages array [[.word [97], .redirection .input [105]], [.word [98]]] ∧
      (∀ run : (ℕ → Stage) → ℕ → ℤ → Script (ℤ × Bool),
        executeSegment run ⟨fun _ => none, 0⟩ (ascii "a<i|b") = run array 2 0) ∧
      ∀ strerror garbage, (runPipeline strerror garbage array 2 0).Safe := by
  have hlex : lexLine ⟨fun _ => none, 0⟩ (ascii "a<i|b") = some [⟨.word, some [.literal 97]⟩, ⟨.input, none⟩,
      ⟨.word, some [.literal 105]⟩, ⟨.pipe, none⟩, ⟨.word, some [.literal 98]⟩] := by
    decide +kernel
  refine (parser_accepts_grammar hlex (List.cons_ne_nil _ _) (by decide)).1 _ ?_ ?_
  · exact @Grammar.bar _ _ _ _ _ (.word rfl rfl (.redirection rfl rfl rfl .nil)) rfl (.last (.word rfl rfl .nil))
  · refine ⟨by decide, ?_⟩
    decide

end Shell

end CannedBsd
