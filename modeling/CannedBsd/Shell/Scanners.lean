import CannedBsd.Shell.Lexer
import Mathlib.Data.List.TakeWhile

/-!
# The two scanners agree

The scanner of `execute_line` knows nothing of expansions, but every text that `lex_line` accepts as
an expansion is inert for it. So both are in the same state at every token boundary: the segments
that are cut out lex to the tokens between the semicolons of the whole line.

* `lexFrom_segments`: the tokens of a line are those of its segments with a semicolon for each cut.
* `scanners_agree`: so no segment that is passed on lexes to a semicolon.
* `words_independent_of_values`: the types of the tokens do not depend on the values of variables.
-/

namespace CannedBsd

namespace Shell

/-! ### Tokens -/

/-- The scanner outside of quotes. -/
def Scanner.start : Scanner := ⟨.off, false⟩

/-- What a token that is no semicolon takes from the line. -/
structure TakesToken (ctx : Context) (c : UInt8) (rest : Bytes) (token : Token) (next p : Bytes) : Prop where
  split : rest = p ++ next
  scanned : Scanner.start.passes (c :: p) = some Scanner.start
  plain : token.type ≠ .semicolon
  again : ∀ next', next'.head? = next.head? ∨ next'.head? = none ∨ next'.head? = some semicolon →
    lexToken ctx c (p ++ next') = some (token, next')

theorem lexToken_takes {ctx : Context} {c : UInt8} {rest next : Bytes} {token : Token}
    (h : lexToken ctx c rest = some (token, next)) :
    (c = semicolon ∧ token = ⟨.semicolon, none⟩ ∧ next = rest) ∨ ∃ p, TakesToken ctx c rest token next p := by
  by_cases hpipe : c = pipeSign
  · subst hpipe
    cases h
    exact .inr ⟨[], rfl, rfl, by decide, fun next' _ => rfl⟩
  by_cases hsemi : c = semicolon
  · subst hsemi
    cases h
    exact .inl ⟨rfl, rfl, rfl⟩
  by_cases hless : c = less
  · subst hless
    cases h
    exact .inr ⟨[], rfl, rfl, by decide, fun next' _ => rfl⟩
  right
  by_cases hgreater : c = greater
  · subst hgreater
    rw [lexToken, if_neg (by decide), if_neg (by decide), if_neg (by decide), if_pos rfl] at h
    split at h
    · rename_i htwo
      cases h
      exact ⟨[greater], (List.cons_head?_tail htwo).symm, rfl, by decide, fun next' _ => rfl⟩
    · rename_i hone
      cases h
      refine ⟨[], rfl, rfl, by decide, fun next' hnext' => ?_⟩
      have hhead : next'.head? ≠ some greater := by
        rcases hnext' with hsame | hnil | hcut
        · rw [hsame]
          exact hone
        · rw [hnil]
          exact fun hc => by cases hc
        · rw [hcut]
          decide
      rw [List.nil_append, lexToken, if_neg (by decide), if_neg (by decide), if_neg (by decide), if_pos rfl,
        if_neg hhead]
  · have hopen : ∀ rest', lexToken ctx c rest' =
        (lexWord ctx .off false [] (c :: rest')).map fun word => (⟨.word, some word.1⟩, word.2) := by
      intro rest'
      rw [lexToken, if_neg hpipe, if_neg hsemi, if_neg hless, if_neg hgreater]
    rw [hopen] at h
    obtain ⟨⟨parts, after⟩, hword, heq⟩ := Option.map_eq_some_iff.mp h
    cases heq
    obtain ⟨p, hp⟩ := lexWord_takes hword
    obtain ⟨d, p, rfl⟩ := List.exists_cons_of_ne_nil (hp.moved rfl)
    obtain ⟨hd, hsplit⟩ := List.cons.inj hp.split
    subst hd
    refine ⟨p, hsplit, hp.scanned, TokenType.noConfusion, fun next' hnext' => ?_⟩
    have hends : EndsWord next' := by
      rcases hnext' with hsame | hnil | hcut
      · intro b hb
        exact hp.ends b (hsame ▸ hb)
      · intro b hb
        rw [hnil] at hb
        cases hb
      · intro b hb
        rw [hcut] at hb
        cases hb
        decide
    rw [hopen, show c :: (p ++ next') = (c :: p) ++ next' from rfl, hp.again next' hends]
    rfl

/-! ### Lines -/

theorem isSpace_inert {c : UInt8} (h : isSpace c) : inert c := by
  refine ⟨?_, ?_, ?_, ?_⟩ <;> (intro hc; subst hc; revert h; decide)

/-- White space, and the character behind it. -/
theorem dropWhile_split {text rest : Bytes} {c : UInt8} (h : text.dropWhile isSpace = c :: rest) :
    ∃ space, text = space ++ c :: rest ∧ (∀ b ∈ space, isSpace b) ∧ isSpace c = false := by
  refine ⟨text.takeWhile isSpace, ?_, fun b hb => List.mem_takeWhile_imp hb, ?_⟩
  · rw [← h, List.takeWhile_append_dropWhile]
  · have hhead := List.head?_dropWhile_not isSpace text
    rw [h] at hhead
    simpa using hhead

theorem lexFrom_space (ctx : Context) (count : ℕ) {space : Bytes} (h : ∀ b ∈ space, isSpace b) :
    lexFrom ctx count space = some [] := by
  have hdrop : space.dropWhile isSpace = [] := List.dropWhile_eq_nil_iff.mpr h
  rw [lexFrom]
  split
  · rfl
  · rename_i heq
    rw [hdrop] at heq
    cases heq

theorem lexFrom_token (ctx : Context) (count : ℕ) {space rest : Bytes} {c : UInt8} (h : ∀ b ∈ space, isSpace b)
    (hc : isSpace c = false) :
    lexFrom ctx count (space ++ c :: rest) =
      if count = shellMaxTokens then none
      else (lexToken ctx c rest).bind fun t => (lexFrom ctx (count + 1) t.2).map (t.1 :: ·) := by
  have hdrop : (space ++ c :: rest).dropWhile isSpace = c :: rest := by
    rw [List.dropWhile_append_of_pos h, List.dropWhile_cons, if_neg (by rw [hc]; decide)]
  rw [lexFrom]
  split
  · rename_i heq
    rw [hdrop] at heq
    cases heq
  · rename_i d rest' heq
    rw [hdrop] at heq
    cases heq
    split
    · rfl
    · split
      · rename_i hnone
        rw [hnone]
        rfl
      · rename_i token next hsome
        rw [hsome]
        rfl

/-- The text in front of the first cut lexes on its own, and so does the text behind it. -/
theorem lexFrom_cut {ctx : Context} {count : ℕ} {text : Bytes} {ts : List Token}
    (h : lexFrom ctx count text = some ts) :
    (Scanner.start.passes text = some Scanner.start ∧ ∀ t ∈ ts, t.type ≠ .semicolon) ∨
    ∃ p rest ts₁ ts₂, text = p ++ semicolon :: rest ∧ Scanner.start.passes p = some Scanner.start ∧
      ts = ts₁ ++ ⟨.semicolon, none⟩ :: ts₂ ∧ lexFrom ctx count p = some ts₁ ∧
      lexFrom ctx (count + ts₁.length + 1) rest = some ts₂ := by
  -- on the text: every token is taken from its front
  generalize hn : text.length = n
  induction n using Nat.strong_induction_on generalizing text count ts with
  | _ n ih =>
    cases hdrop : text.dropWhile isSpace with
    | nil =>
      have hspace := List.dropWhile_eq_nil_iff.mp hdrop
      rw [lexFrom_space ctx count hspace] at h
      cases h
      exact .inl ⟨Scanner.passes_inert (fun b hb => isSpace_inert (hspace b hb)) .off, List.forall_mem_nil _⟩
    | cons c rest =>
      obtain ⟨space, rfl, hspace, hc⟩ := dropWhile_split hdrop
      have hpass : Scanner.start.passes space = some Scanner.start :=
        Scanner.passes_inert (fun b hb => isSpace_inert (hspace b hb)) .off
      rw [lexFrom_token ctx count hspace hc] at h
      split at h
      · cases h
      rename_i hroom
      obtain ⟨⟨token, next⟩, htoken, h⟩ := Option.bind_eq_some_iff.mp h
      obtain ⟨ts', hrest, rfl⟩ := Option.map_eq_some_iff.mp h
      rcases lexToken_takes htoken with ⟨rfl, rfl, rfl⟩ | ⟨q, hq⟩
      · exact .inr ⟨space, _, [], ts', rfl, hpass, rfl, lexFrom_space ctx count hspace, hrest⟩
      · obtain rfl := hq.split
        have hshort : next.length < n := by
          rw [← hn]
          simp only [List.length_append, List.length_cons]
          omega
        rcases ih next.length hshort hrest rfl with ⟨hscan, hplain⟩ | ⟨p, after, ts₁, ts₂, rfl, hscan, rfl, hp, hafter⟩
        · refine .inl ⟨?_, List.forall_mem_cons.mpr ⟨hq.plain, hplain⟩⟩
          rw [Scanner.passes_append, hpass, ← List.cons_append, Option.bind_some, Scanner.passes_append, hq.scanned]
          exact hscan
        · refine .inr ⟨space ++ (c :: q ++ p), after, token :: ts₁, ts₂, by simp, ?_, rfl, ?_, ?_⟩
          · rw [Scanner.passes_append, hpass, Option.bind_some, Scanner.passes_append, hq.scanned]
            exact hscan
          · rw [List.cons_append, lexFrom_token ctx count hspace hc, if_neg hroom, hq.again p, Option.bind_some, hp]
            · rfl
            · cases p with
              | nil => exact .inr (.inl rfl)
              | cons b p => exact .inl rfl
          · rw [List.length_cons, show count + (ts₁.length + 1) + 1 = count + 1 + ts₁.length + 1 by omega]
            exact hafter

/-- Fewer stored tokens leave more room. -/
theorem lexFrom_fewer {ctx : Context} {count count' : ℕ} {text : Bytes} {ts : List Token}
    (h : lexFrom ctx count text = some ts) (hle : count' ≤ count) (hmax : count ≤ shellMaxTokens) :
    lexFrom ctx count' text = some ts := by
  generalize hn : text.length = n
  induction n using Nat.strong_induction_on generalizing text count count' ts with
  | _ n ih =>
    cases hdrop : text.dropWhile isSpace with
    | nil =>
      have hspace := List.dropWhile_eq_nil_iff.mp hdrop
      rw [lexFrom_space ctx count hspace] at h
      rw [lexFrom_space ctx count' hspace, h]
    | cons c rest =>
      obtain ⟨space, rfl, hspace, hc⟩ := dropWhile_split hdrop
      rw [lexFrom_token ctx count hspace hc] at h
      rw [lexFrom_token ctx count' hspace hc]
      split at h
      · cases h
      rw [if_neg (by omega)]
      obtain ⟨⟨token, next⟩, htoken, h⟩ := Option.bind_eq_some_iff.mp h
      obtain ⟨ts', hrest, rfl⟩ := Option.map_eq_some_iff.mp h
      have hshort := lexToken_length htoken
      have hlen : next.length < n := by
        rw [← hn]
        simp only [List.length_append, List.length_cons]
        omega
      rw [htoken, Option.bind_some, ih next.length hlen hrest (by omega) (by omega) rfl]
      rfl

/-- No more tokens are stored than the array holds. -/
theorem lexFrom_bound {ctx : Context} {count : ℕ} {text : Bytes} {ts : List Token}
    (h : lexFrom ctx count text = some ts) (hmax : count ≤ shellMaxTokens) : count + ts.length ≤ shellMaxTokens := by
  generalize hn : text.length = n
  induction n using Nat.strong_induction_on generalizing text count ts with
  | _ n ih =>
    cases hdrop : text.dropWhile isSpace with
    | nil =>
      rw [lexFrom_space ctx count (List.dropWhile_eq_nil_iff.mp hdrop)] at h
      cases h
      exact hmax
    | cons c rest =>
      obtain ⟨space, rfl, hspace, hc⟩ := dropWhile_split hdrop
      rw [lexFrom_token ctx count hspace hc] at h
      split at h
      · cases h
      obtain ⟨⟨token, next⟩, htoken, h⟩ := Option.bind_eq_some_iff.mp h
      obtain ⟨ts', hrest, rfl⟩ := Option.map_eq_some_iff.mp h
      have hshort := lexToken_length htoken
      have hlen : next.length < n := by
        rw [← hn]
        simp only [List.length_append, List.length_cons]
        omega
      have hmore := ih next.length hlen hrest (by omega) rfl
      rw [List.length_cons]
      omega

/-! ### Segments -/

theorem cutFrom_passes (p : Bytes) :
    ∀ {scanner scanner' : Scanner} (segment text : Bytes), scanner.passes p = some scanner' →
      cutFrom segment scanner (p ++ text) = cutFrom (segment ++ p) scanner' text := by
  induction p with
  | nil =>
    intro scanner scanner' segment text h
    cases h
    rw [List.nil_append, List.append_nil]
  | cons c p ih =>
    intro scanner scanner' segment text h
    rw [Scanner.passes] at h
    split at h
    · cases h
    · rename_i hsep
      rw [List.cons_append, cutFrom, if_neg hsep, ih _ _ h]
      simp

theorem cutFrom_ne_nil (text : Bytes) : ∀ (segment : Bytes) (scanner : Scanner), cutFrom segment scanner text ≠ [] := by
  induction text with
  | nil => exact fun segment scanner => List.cons_ne_nil _ _
  | cons c text ih =>
    intro segment scanner
    rw [cutFrom]
    split
    · exact List.cons_ne_nil _ _
    · exact ih _ _

/-- A segment holds no cut. -/
theorem cutFrom_mem {text : Bytes} : ∀ {segment : Bytes} {scanner : Scanner},
    Scanner.start.passes segment = some scanner → ∀ s ∈ cutFrom segment scanner text,
      (Scanner.start.passes s).isSome := by
  induction text with
  | nil =>
    intro segment scanner h s hs
    rw [cutFrom, List.mem_singleton] at hs
    rw [hs, h]
    rfl
  | cons c text ih =>
    intro segment scanner h s hs
    rw [cutFrom] at hs
    split at hs
    · rcases List.mem_cons.mp hs with rfl | hs
      · rw [h]
        rfl
      · exact ih rfl s hs
    · rename_i hsep
      refine ih ?_ s hs
      rw [Scanner.passes_append, h, Option.bind_some, Scanner.passes, if_neg hsep]
      rfl

/-- A segment does not lex to a semicolon. -/
theorem segment_plain {line segment : Bytes} (hseg : segment ∈ cutLine line) {ctx : Context} {ts : List Token}
    (h : lexLine ctx segment = some ts) : ∀ t ∈ ts, t.type ≠ .semicolon := by
  rcases lexFrom_cut h with ⟨-, hplain⟩ | ⟨p, rest, ts₁, ts₂, rfl, hscan, -⟩
  · exact hplain
  · have hpass := cutFrom_mem rfl _ hseg
    rw [Scanner.passes_append, hscan, Option.bind_some, Scanner.passes, if_pos ⟨rfl, rfl, rfl⟩] at hpass
    cases hpass

/-- The tokens of a line are those of its segments with a semicolon for each cut. -/
theorem lexFrom_segments {ctx : Context} {count : ℕ} {text : Bytes} {ts : List Token}
    (h : lexFrom ctx count text = some ts) (hmax : count ≤ shellMaxTokens) :
    ∃ lists, List.Forall₂ (fun segment tokens => lexLine ctx segment = some tokens) (cutLine text) lists ∧
      ts = [⟨.semicolon, none⟩].intercalate lists := by
  generalize hn : text.length = n
  induction n using Nat.strong_induction_on generalizing text count ts with
  | _ n ih =>
    rcases lexFrom_cut h with ⟨hscan, -⟩ | ⟨p, rest, ts₁, ts₂, rfl, hscan, rfl, hfront, hrest⟩
    · have hcut := cutFrom_passes text [] [] hscan
      rw [List.append_nil, List.nil_append] at hcut
      refine ⟨[ts], ?_, by simp⟩
      rw [cutLine, ← Scanner.start, hcut]
      exact .cons (lexFrom_fewer h (Nat.zero_le _) hmax) .nil
    · have hcut := cutFrom_passes p [] (semicolon :: rest) hscan
      rw [List.nil_append, cutFrom, if_pos ⟨rfl, rfl, rfl⟩] at hcut
      have hshort : rest.length < n := by
        rw [← hn]
        simp only [List.length_append, List.length_cons]
        omega
      have hbound := lexFrom_bound h hmax
      simp only [List.length_append, List.length_cons] at hbound
      obtain ⟨lists, hlists, rfl⟩ := ih rest.length hshort hrest (by omega) rfl
      refine ⟨ts₁ :: lists, ?_, ?_⟩
      · rw [cutLine, ← Scanner.start, hcut]
        exact .cons (lexFrom_fewer hfront (Nat.zero_le _) hmax) hlists
      · have hne : lists ≠ [] := by
          rintro rfl
          exact cutFrom_ne_nil rest [] ⟨.off, false⟩ (List.forall₂_nil_right_iff.mp hlists)
        obtain ⟨ts₂, lists, rfl⟩ := List.exists_cons_of_ne_nil hne
        rw [List.intercalate_cons_cons]
        simp

/-! ### What is executed -/

section

variable {σ : Type} (executeSegment : σ → Bytes → ℤ → σ × ℤ × Bool)

/-- The same execution with a record of the segments that are passed on. -/
def recorded (state : σ × List Bytes) (segment : Bytes) (status : ℤ) : (σ × List Bytes) × ℤ × Bool :=
  let result := executeSegment state.1 segment status
  ((result.1, state.2 ++ [segment]), result.2)

/-- The segments that `execute_line` passes to `execute_segment`. -/
def passedOn (state : σ) (status : ℤ) (line : Bytes) : List Bytes :=
  (executeLine (recorded executeSegment) (state, []) status line).1.2

theorem executeCut_record (state : σ × List Bytes) (segment : Bytes) (status : ℤ) :
    (executeCut (recorded executeSegment) state segment status).1.2 =
      state.2 ++ [segment].filter fun s => !isBlank s := by
  rw [executeCut]
  cases hblank : isBlank segment with
  | true => simp [hblank]
  | false => simp [hblank, recorded]

/-- What is passed on is a prefix of the segments that are not blank, and all of them when no segment
asks the shell to exit. -/
theorem executeFrom_record (text : Bytes) : ∀ (state : σ × List Bytes) (status : ℤ) (segment : Bytes) (scanner : Scanner),
    ∃ front back, (cutFrom segment scanner text).filter (fun s => !isBlank s) = front ++ back ∧
      (executeFrom (recorded executeSegment) state status segment scanner text).1.2 = state.2 ++ front ∧
      ((∀ k s n, (executeSegment k s n).2.2 = false) → back = []) := by
  induction text with
  | nil =>
    intro state status segment scanner
    refine ⟨[segment].filter fun s => !isBlank s, [], (List.append_nil _).symm, ?_, fun _ => rfl⟩
    exact executeCut_record executeSegment state segment status
  | cons c text ih =>
    intro state status segment scanner
    rw [cutFrom, executeFrom]
    by_cases hsep : scanner.separator c
    · rw [if_pos hsep, if_pos hsep]
      have hrecord := executeCut_record executeSegment state segment status
      have hexit : (∀ k s n, (executeSegment k s n).2.2 = false) →
          (executeCut (recorded executeSegment) state segment status).2.2 = false := by
        intro hnone
        rw [executeCut]
        split
        · rfl
        · exact hnone _ _ _
      generalize executeCut (recorded executeSegment) state segment status = result at hrecord hexit
      obtain ⟨state', status', stop⟩ := result
      have hfirst : (segment :: cutFrom [] ⟨.off, false⟩ text).filter (fun s => !isBlank s) =
          [segment].filter (fun s => !isBlank s) ++ (cutFrom [] ⟨.off, false⟩ text).filter (fun s => !isBlank s) := by
        rw [← List.filter_append, List.singleton_append]
      cases stop with
      | true => exact ⟨_, _, hfirst, hrecord, fun hnone => (Bool.false_ne_true (hexit hnone).symm).elim⟩
      | false =>
        obtain ⟨front, back, hsplit, hout, hall⟩ := ih state' status' [] ⟨.off, false⟩
        refine ⟨[segment].filter (fun s => !isBlank s) ++ front, back, ?_, ?_, hall⟩
        · rw [hfirst, hsplit, List.append_assoc]
        · dsimp only at hrecord ⊢
          rw [hout, hrecord, List.append_assoc]
    · rw [if_neg hsep, if_neg hsep]
      exact ih state status (segment ++ [c]) (scanner.next c)

end

/-- **The two scanners agree.**  No segment passed on by `execute_line` lexes to a semicolon, whatever
the earlier segments did, and the tokens of a line are those of its segments, in order, with one
semicolon for each cut. -/
theorem scanners_agree (line : Bytes) :
    (∀ {σ : Type} (executeSegment : σ → Bytes → ℤ → σ × ℤ × Bool) (state : σ) (status : ℤ),
      passedOn executeSegment state status line <+: (cutLine line).filter (fun s => !isBlank s) ∧
      ((∀ k s n, (executeSegment k s n).2.2 = false) →
        passedOn executeSegment state status line = (cutLine line).filter fun s => !isBlank s) ∧
      ∀ segment ∈ passedOn executeSegment state status line, ∀ ctx ts, lexLine ctx segment = some ts →
        ∀ t ∈ ts, t.type ≠ .semicolon) ∧
    ∀ ctx ts, lexLine ctx line = some ts →
      ∃ lists, List.Forall₂ (fun segment tokens => lexLine ctx segment = some tokens) (cutLine line) lists ∧
        ts = [⟨.semicolon, none⟩].intercalate lists := by
  refine ⟨fun {σ} executeSegment state status => ?_, fun ctx ts h => lexFrom_segments h (by decide)⟩
  obtain ⟨front, back, hsplit, hout, hall⟩ :=
    executeFrom_record executeSegment line (state, []) status [] ⟨.off, false⟩
  have hpassed : passedOn executeSegment state status line = front := hout
  rw [hpassed, cutLine, hsplit]
  refine ⟨List.prefix_append front back, fun hnone => ?_, fun segment hsegment ctx ts h => ?_⟩
  · rw [hall hnone, List.append_nil]
  · have hmem : segment ∈ (cutLine line).filter (fun s => !isBlank s) := by
      rw [cutLine, hsplit]
      exact List.mem_append_left back hsegment
    exact segment_plain (List.mem_of_mem_filter hmem) h

/-- `';';$A`, cut once. -/
theorem scanners_agree_quoted :
    cutLine [apostrophe, semicolon, apostrophe, semicolon, dollar, 65] =
      [[apostrophe, semicolon, apostrophe], [dollar, 65]] ∧
    ∃ lists, List.Forall₂ (fun segment tokens => lexLine ⟨fun _ => some [semicolon], 0⟩ segment = some tokens)
      (cutLine [apostrophe, semicolon, apostrophe, semicolon, dollar, 65]) lists ∧
      [⟨.word, some [.literal semicolon]⟩, ⟨.semicolon, none⟩, ⟨.word, some [.value [semicolon]]⟩] =
        [⟨.semicolon, none⟩].intercalate lists :=
  ⟨by decide, (scanners_agree [apostrophe, semicolon, apostrophe, semicolon, dollar, 65]).2
    ⟨fun _ => some [semicolon], 0⟩ _ (by decide +kernel)⟩

/-! ### Values do not shape the line -/

/-- What a part of a word is apart from the value of an expansion. -/
def Part.shape : Part → Option UInt8
  | .literal c => some c
  | .value _ => none

def Token.shape (t : Token) : TokenType × Option (List (Option UInt8)) :=
  (t.type, t.text.map fun parts => parts.map Part.shape)

/-- A word without an expansion. -/
def Token.plain (t : Token) : Prop := ∀ parts, t.text = some parts → ∀ part ∈ parts, part.shape ≠ none

theorem Expands.shape {ctx : Context} {cursor rest : Bytes} {part : Part} (h : Expands ctx cursor part rest)
    (ctx' : Context) : ∃ part', Expands ctx' cursor part' rest ∧ part'.shape = part.shape := by
  cases h with
  | question => exact ⟨_, .question _, rfl⟩
  | braced name _ hvalid => exact ⟨_, .braced name _ hvalid, rfl⟩
  | bare name _ hvalid hstop => exact ⟨_, .bare name _ hvalid hstop, rfl⟩
  | dollar _ hplain => exact ⟨_, .dollar _ hplain, rfl⟩

theorem appendExpansion_shape (ctx ctx' : Context) (cursor : Bytes) :
    (appendExpansion ctx cursor).map (fun r => (r.1.shape, r.2)) =
      (appendExpansion ctx' cursor).map fun r => (r.1.shape, r.2) := by
  have hsome : ∀ {ctx ctx' : Context} {part : Part} {rest : Bytes}, appendExpansion ctx cursor = some (part, rest) →
      ∃ part', appendExpansion ctx' cursor = some (part', rest) ∧ part'.shape = part.shape := by
    intro ctx ctx' part rest h
    obtain ⟨part', hexpands, hshape⟩ := (expands_of_appendExpansion h).shape ctx'
    exact ⟨part', appendExpansion_of_expands hexpands, hshape⟩
  cases h : appendExpansion ctx cursor with
  | some r =>
    obtain ⟨part', h', hshape⟩ := @hsome ctx ctx' _ _ h
    rw [h', Option.map_some, Option.map_some, hshape]
  | none =>
    cases h' : appendExpansion ctx' cursor with
    | none => rfl
    | some r =>
      obtain ⟨part', hpart, -⟩ := @hsome ctx' ctx _ _ h'
      rw [h] at hpart
      cases hpart

/-- The word loop takes the same branches for all values. -/
theorem lexWord_shape (ctx ctx' : Context) {quote : Quote} {sawPart : Bool} {word word' : List Part} {cursor : Bytes}
    (hword : word.map Part.shape = word'.map Part.shape) :
    (lexWord ctx quote sawPart word cursor).map (fun r => (r.1.map Part.shape, r.2)) =
      (lexWord ctx' quote sawPart word' cursor).map fun r => (r.1.map Part.shape, r.2) := by
  have hsnoc : ∀ {word word' : List Part} {part part' : Part}, word.map Part.shape = word'.map Part.shape →
      part.shape = part'.shape → (word ++ [part]).map Part.shape = (word' ++ [part']).map Part.shape := by
    intro word word' part part' hword hpart
    rw [List.map_append, List.map_append, hword, List.map_singleton, List.map_singleton, hpart]
  fun_induction lexWord ctx quote sawPart word cursor generalizing word' with
  | case1 quote sawPart word hend => rw [lexWord, if_pos hend]
  | case2 quote sawPart word hend =>
    rw [lexWord, if_neg hend, Option.map_some, Option.map_some, hword]
  | case3 quote sawPart word c next hbreak hsaw =>
    rw [lexWord.eq_def]
    dsimp only
    rw [if_pos hbreak, if_pos hsaw]
  | case4 quote sawPart word c next hbreak hsaw =>
    rw [lexWord.eq_def]
    dsimp only
    rw [if_pos hbreak, if_neg hsaw, Option.map_some, Option.map_some, hword]
  | case5 quote sawPart word c next hbreak hmark ih =>
    rw [ih hword, lexWord.eq_def ctx' quote]
    dsimp only
    rw [if_neg hbreak, if_pos hmark]
  | case6 quote sawPart word c next hbreak happ hmark ih =>
    rw [ih hword, lexWord.eq_def ctx' quote]
    dsimp only
    rw [if_neg hbreak, if_neg happ, if_pos hmark]
  | case7 quote sawPart word c hbreak happ hquot hback =>
    rw [lexWord.eq_def]
    dsimp only
    rw [if_neg hbreak, if_neg happ, if_neg hquot, if_pos hback]
  | case8 quote sawPart word c hbreak happ hquot hback d next ih =>
    rw [ih (hsnoc hword rfl), lexWord.eq_def ctx' quote sawPart word' (c :: d :: next)]
    dsimp only
    rw [if_neg hbreak, if_neg happ, if_neg hquot, if_pos hback]
  | case9 quote sawPart word c next hbreak happ hquot hback hdollar hexpand =>
    have hnone := appendExpansion_shape ctx ctx' next
    rw [hexpand] at hnone
    rw [lexWord.eq_def]
    dsimp only
    rw [if_neg hbreak, if_neg happ, if_neg hquot, if_neg hback, if_pos hdollar,
      Option.map_eq_none_iff.mp hnone.symm]
  | case10 quote sawPart word c next hbreak happ hquot hback hdollar part after hexpand ih =>
    obtain ⟨part', hexpands, hpart⟩ := (expands_of_appendExpansion hexpand).shape ctx'
    rw [ih (hsnoc hword hpart.symm), lexWord.eq_def ctx' quote sawPart word' (c :: next)]
    dsimp only
    rw [if_neg hbreak, if_neg happ, if_neg hquot, if_neg hback, if_pos hdollar,
      appendExpansion_of_expands hexpands]
  | case11 quote sawPart word c next hbreak happ hquot hback hdollar ih =>
    rw [ih (hsnoc hword rfl), lexWord.eq_def ctx' quote sawPart word' (c :: next)]
    dsimp only
    rw [if_neg hbreak, if_neg happ, if_neg hquot, if_neg hback, if_neg hdollar]

theorem lexToken_shape (ctx ctx' : Context) (c : UInt8) (rest : Bytes) :
    (lexToken ctx c rest).map (fun r => (r.1.shape, r.2)) =
      (lexToken ctx' c rest).map fun r => (r.1.shape, r.2) := by
  rw [lexToken, lexToken]
  split
  · rfl
  split
  · rfl
  split
  · rfl
  split
  · rfl
  · have hword := @lexWord_shape ctx ctx' .off false [] [] (c :: rest) rfl
    have htoken := congrArg (Option.map fun r => ((TokenType.word, some r.1), r.2)) hword
    rw [Option.map_map, Option.map_map] at htoken
    rw [Option.map_map, Option.map_map]
    exact htoken

theorem lexFrom_shape (ctx ctx' : Context) (count : ℕ) (text : Bytes) :
    (lexFrom ctx count text).map (·.map Token.shape) = (lexFrom ctx' count text).map (·.map Token.shape) := by
  generalize hn : text.length = n
  induction n using Nat.strong_induction_on generalizing text count with
  | _ n ih =>
    cases hdrop : text.dropWhile isSpace with
    | nil =>
      have hspace := List.dropWhile_eq_nil_iff.mp hdrop
      rw [lexFrom_space ctx count hspace, lexFrom_space ctx' count hspace]
    | cons c rest =>
      obtain ⟨space, rfl, hspace, hc⟩ := dropWhile_split hdrop
      rw [lexFrom_token ctx count hspace hc, lexFrom_token ctx' count hspace hc]
      split
      · rfl
      have htoken := lexToken_shape ctx ctx' c rest
      cases h : lexToken ctx c rest with
      | none =>
        rw [h] at htoken
        rw [Option.map_eq_none_iff.mp htoken.symm]
        rfl
      | some r =>
        obtain ⟨token, next⟩ := r
        rw [h] at htoken
        obtain ⟨⟨token', next'⟩, h', heq⟩ := Option.map_eq_some_iff.mp htoken.symm
        obtain ⟨hshape, hnext⟩ := Prod.mk.inj heq
        dsimp only at hnext
        subst hnext
        have hshort := lexToken_length h
        have hlen : next'.length < n := by
          rw [← hn]
          simp only [List.length_append, List.length_cons]
          omega
        have hrest := ih next'.length hlen (count + 1) next' rfl
        have hcons := congrArg (Option.map (token.shape :: ·)) hrest
        rw [h', Option.bind_some, Option.bind_some]
        rw [Option.map_map, Option.map_map] at hcons ⊢
        show _ = Option.map ((token'.shape :: ·) ∘ fun ts => ts.map Token.shape) (lexFrom ctx' (count + 1) next')
        rw [show token'.shape = token.shape from hshape]
        exact hcons

/-- A word without an expansion is its shape. -/
theorem Token.bytes_of_shape {t t' : Token} (h : t.shape = t'.shape) (hplain : t.plain) : t.bytes = t'.bytes := by
  have hparts : ∀ parts parts' : List Part, (∀ part ∈ parts, part.shape ≠ none) →
      parts.map Part.shape = parts'.map Part.shape → parts = parts' := by
    intro parts
    induction parts with
    | nil =>
      intro parts' _ hmap
      exact (List.map_eq_nil_iff.mp hmap.symm).symm
    | cons part parts ih =>
      intro parts' hne hmap
      obtain ⟨part', parts', rfl, hpart, hrest⟩ := List.map_eq_cons_iff.mp hmap.symm
      have hsame : part = part' := by
        have hpartne := hne part (by simp)
        cases part with
        | value bytes => exact absurd rfl hpartne
        | literal c =>
          cases part' with
          | value bytes => cases hpart
          | literal c' => exact congrArg Part.literal (Option.some.inj hpart).symm
      rw [hsame, ih parts' (fun x hx => hne x (by simp [hx])) hrest.symm]
  obtain ⟨-, htext⟩ := Prod.mk.inj h
  rw [Token.bytes, Token.bytes]
  cases hword : t.text with
  | none =>
    rw [hword] at htext
    rw [Option.map_eq_none_iff.mp htext.symm]
  | some parts =>
    rw [hword] at htext
    obtain ⟨parts', hword', hmap⟩ := Option.map_eq_some_iff.mp htext.symm
    rw [hword', hparts parts parts' (hplain parts hword) hmap.symm]

/-- **Word structure does not depend on values.**  For any two environments and last statuses a line
fails in both or lexes to the same types of tokens, and a word without an expansion is the same. -/
theorem words_independent_of_values (line : Bytes) (ctx ctx' : Context) :
    (lexLine ctx line = none ↔ lexLine ctx' line = none) ∧
    ∀ ts ts', lexLine ctx line = some ts → lexLine ctx' line = some ts' →
      ts.length = ts'.length ∧
      ∀ i (h : i < ts.length) (h' : i < ts'.length), ts[i].type = ts'[i].type ∧
        (ts[i].plain → ts[i].bytes = ts'[i].bytes) := by
  have hshape := lexFrom_shape ctx ctx' 0 line
  refine ⟨?_, fun ts ts' h h' => ?_⟩
  · rw [← Option.map_eq_none_iff (f := fun ts : List Token => ts.map Token.shape), lexLine, hshape,
      Option.map_eq_none_iff, lexLine]
  · rw [← lexLine, ← lexLine, h, h', Option.map_some, Option.map_some] at hshape
    have hmap := Option.some.inj hshape
    refine ⟨by simpa using congrArg List.length hmap, fun i hi hi' => ?_⟩
    have hget : ts[i].shape = ts'[i].shape := by
      have hat := List.getElem_of_eq hmap (i := i) (by simpa using hi)
      rwa [List.getElem_map, List.getElem_map] at hat
    exact ⟨(Prod.mk.inj hget).1, Token.bytes_of_shape hget⟩

/-- `a$A` with a separator in the variable and without the variable. -/
theorem words_independent_of_values_separator :
    lexLine ⟨fun _ => some [semicolon], 0⟩ [97, dollar, 65] = some [⟨.word, some [.literal 97, .value [semicolon]]⟩] ∧
    lexLine ⟨fun _ => none, 0⟩ [97, dollar, 65] = some [⟨.word, some [.literal 97, .value []]⟩] ∧
    (lexLine ⟨fun _ => some [semicolon], 0⟩ [97, dollar, 65] = none ↔
      lexLine ⟨fun _ => none, 0⟩ [97, dollar, 65] = none) :=
  ⟨by decide +kernel, by decide +kernel,
    (words_independent_of_values [97, dollar, 65] ⟨fun _ => some [semicolon], 0⟩ ⟨fun _ => none, 0⟩).1⟩

end Shell

end CannedBsd
