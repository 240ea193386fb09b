import CannedBsd.Shell.Scanners

/-!
# Quoting

A word in single quotes, with each single quote in it written as quote, backslash, quote, quote, stands
for itself whatever bytes it has. Both scanners of the shell go through all of their states on such a
word: it is closed, an escaped quote is read outside of quotes, and it is opened again.

* `lexWord_quoted`: a quoted word in front of a break is lexed to itself.
* `quoting_roundtrip`: a line of at most 128 quoted words is lexed to these words, and passed on as one
  segment.
-/

namespace CannedBsd

namespace Shell

/-- A byte of a word between single quotes. -/
def quotedByte (c : UInt8) : Bytes :=
  if c = apostrophe then [apostrophe, backslash, apostrophe, apostrophe] else [c]

def quoted (word : Bytes) : Bytes := apostrophe :: (word.flatMap quotedByte ++ [apostrophe])

/-- A line with these words, each in quotes, and white space between them. -/
inductive QuotedLine : List Bytes → Bytes → Prop
  | empty : QuotedLine [] []
  | word (w : Bytes) : QuotedLine [w] (quoted w)
  | more {w next : Bytes} {ws : List Bytes} {line space : Bytes} : space ≠ [] → (∀ c ∈ space, isSpace c = true) →
      QuotedLine (next :: ws) line → QuotedLine (w :: next :: ws) (quoted w ++ space ++ line)

/-! ### One word in `lex_line` -/

section Lexing

variable (ctx : Context) (word : List Part) (rest : Bytes)

theorem lexWord_open (sawPart : Bool) :
    lexWord ctx .off sawPart word (apostrophe :: rest) = lexWord ctx .single true word rest := by
  rw [lexWord.eq_def]
  dsimp only
  rw [if_neg (by decide), if_pos (by decide)]
  rfl

theorem lexWord_close : lexWord ctx .single true word (apostrophe :: rest) = lexWord ctx .off true word rest := by
  rw [lexWord.eq_def]
  dsimp only
  rw [if_neg (by decide), if_pos (by decide)]
  rfl

theorem lexWord_escape (d : UInt8) :
    lexWord ctx .off true word (backslash :: d :: rest) = lexWord ctx .off true (word ++ [.literal d]) rest := by
  rw [lexWord, if_neg (by decide), if_neg (by decide), if_neg (by decide), if_pos (by decide)]

theorem lexWord_inside {c : UInt8} (hc : c ≠ apostrophe) :
    lexWord ctx .single true word (c :: rest) = lexWord ctx .single true (word ++ [.literal c]) rest := by
  rw [lexWord.eq_def]
  dsimp only
  rw [if_neg fun h => absurd h.1 (by decide), if_neg fun h => hc h.1, if_neg fun h => h.2 rfl,
    if_neg fun h => h.2 rfl, if_neg fun h => h.2 rfl]

/-- The quoted bytes are taken as they are. -/
theorem lexWord_body (w : Bytes) : ∀ word : List Part,
    lexWord ctx .single true word (w.flatMap quotedByte ++ rest) =
      lexWord ctx .single true (word ++ w.map Part.literal) rest := by
  induction w with
  | nil =>
    intro word
    rw [List.flatMap_nil, List.nil_append, List.map_nil, List.append_nil]
  | cons c w ih =>
    intro word
    rw [List.flatMap_cons, List.append_assoc, quotedByte, List.map_cons]
    split
    · rename_i hc
      rw [hc]
      -- the quotes are closed for the escaped one and opened again
      show lexWord ctx .single true word
        (apostrophe :: backslash :: apostrophe :: apostrophe :: (w.flatMap quotedByte ++ rest)) = _
      rw [lexWord_close, lexWord_escape, lexWord_open, ih, List.append_assoc]
      rfl
    · rename_i hc
      rw [List.singleton_append, lexWord_inside ctx word _ hc, ih, List.append_assoc]
      rfl

/-- A quoted word in front of a break is lexed to itself. -/
theorem lexWord_quoted (w : Bytes) (hrest : EndsWord rest) :
    lexWord ctx .off false [] (quoted w ++ rest) = some (w.map Part.literal, rest) := by
  rw [quoted, List.cons_append, lexWord_open, List.append_assoc, lexWord_body, List.singleton_append, lexWord_close,
    List.nil_append]
  cases rest with
  | nil => rw [lexWord, if_neg (by decide)]
  | cons c rest =>
    have hbreak := hrest c rfl
    rw [lexWord.eq_def]
    dsimp only
    rw [if_pos ⟨rfl, hbreak⟩, if_neg (by decide)]

end Lexing

theorem bytes_literals (w : Bytes) : (w.map Part.literal).flatMap Part.bytes = w := by
  induction w with
  | nil => rfl
  | cons c w ih => simp [Part.bytes, ih]

/-! ### One word in `execute_line` -/

theorem Scanner.passes_body (w : Bytes) :
    Scanner.passes ⟨.single, false⟩ (w.flatMap quotedByte) = some ⟨.single, false⟩ := by
  induction w with
  | nil => rfl
  | cons c w ih =>
    rw [List.flatMap_cons, passes_append, quotedByte]
    split
    · exact ih
    · rename_i hc
      have hnext : Scanner.next ⟨.single, false⟩ c = ⟨.single, false⟩ := by
        rw [next, if_neg (by decide), if_neg fun h => h.2 rfl, if_neg fun h => hc h.1, if_neg fun h => h.2 rfl]
      rw [passes, if_neg fun h => absurd h.2.1 (by decide), hnext, passes, Option.bind_some]
      exact ih

theorem Scanner.passes_quoted (w : Bytes) : Scanner.start.passes (quoted w) = some Scanner.start := by
  have hopen : Scanner.start.next apostrophe = ⟨.single, false⟩ := by decide
  rw [quoted, passes, if_neg (by decide), hopen, passes_append, passes_body]
  rfl

/-- A text without a cut is one segment. -/
theorem executeFrom_passes {σ : Type} (executeSegment : σ → Bytes → ℤ → σ × ℤ × Bool) (state : σ) (status : ℤ)
    (text : Bytes) : ∀ {scanner scanner' : Scanner} (segment : Bytes), scanner.passes text = some scanner' →
      executeFrom executeSegment state status segment scanner text =
        executeCut executeSegment state (segment ++ text) status := by
  induction text with
  | nil =>
    intro scanner scanner' segment _
    rw [executeFrom, List.append_nil]
  | cons c text ih =>
    intro scanner scanner' segment h
    rw [Scanner.passes] at h
    split at h
    · cases h
    · rename_i hsep
      rw [executeFrom, if_neg hsep, ih (segment ++ [c]) h, List.append_assoc]
      rfl

/-! ### Lines of quoted words -/

/-- The first byte of a line of quoted words is a quote. -/
theorem QuotedLine.head {w : Bytes} {ws : List Bytes} {line : Bytes} (h : QuotedLine (w :: ws) line) :
    ∃ rest, line = apostrophe :: rest := by
  cases h with
  | word => exact ⟨_, rfl⟩
  | more => exact ⟨_, rfl⟩

theorem QuotedLine.passes {words : List Bytes} {line : Bytes} (h : QuotedLine words line) :
    Scanner.start.passes line = some Scanner.start := by
  induction h with
  | empty => rfl
  | word w => exact Scanner.passes_quoted w
  | more hne hspace hline ih =>
    have hinert := Scanner.passes_inert (fun c hc => isSpace_inert (hspace c hc)) .off
    rw [Scanner.passes_append, Scanner.passes_append, Scanner.passes_quoted, Option.bind_some]
    refine (congrArg (fun o : Option Scanner => o.bind _) hinert).trans ?_
    exact ih

/-- What the words of a line are lexed to. -/
def wordToken (w : Bytes) : Token := ⟨.word, some (w.map Part.literal)⟩

theorem lexToken_quoted (ctx : Context) (w : Bytes) {rest : Bytes} (hrest : EndsWord rest) :
    lexToken ctx apostrophe (w.flatMap quotedByte ++ [apostrophe] ++ rest) = some (wordToken w, rest) := by
  have hword := lexWord_quoted ctx rest w hrest
  rw [quoted, List.cons_append] at hword
  rw [lexToken, if_neg (by decide), if_neg (by decide), if_neg (by decide), if_neg (by decide), hword]
  rfl

theorem QuotedLine.lexFrom {words : List Bytes} {line : Bytes} (h : QuotedLine words line) (ctx : Context) :
    ∀ {count : ℕ} (space : Bytes), (∀ c ∈ space, isSpace c = true) → count + words.length ≤ shellMaxTokens →
      lexFrom ctx count (space ++ line) = some (words.map wordToken) := by
  induction h with
  | empty =>
    intro count space hspace _
    rw [List.append_nil]
    exact lexFrom_space ctx count hspace
  | word w =>
    intro count space hspace hcount
    rw [List.length_singleton] at hcount
    have htoken := @lexToken_quoted ctx w [] fun c hc => by cases hc
    rw [List.append_nil] at htoken
    rw [quoted, lexFrom_token ctx count hspace (by decide), if_neg (by omega), htoken, Option.bind_some,
      @lexFrom_space ctx (count + 1) [] fun c hc => by cases hc]
    rfl
  | @more w next ws line between hne hbetween hline ih =>
    intro count space hspace hcount
    rw [List.length_cons] at hcount
    have hends : EndsWord (between ++ line) := by
      obtain ⟨b, between', rfl⟩ := List.exists_cons_of_ne_nil hne
      intro c hc
      cases hc
      rw [isBreak, hbetween b List.mem_cons_self]
      rfl
    have htoken := lexToken_quoted ctx w hends
    rw [List.append_assoc, quoted, List.cons_append, lexFrom_token ctx count hspace (by decide), if_neg (by omega),
      htoken, Option.bind_some]
    dsimp only
    rw [ih between hbetween (by omega)]
    rfl

/-- **Quoting round trip.**  A line of at most 128 quoted words is lexed to these words, whatever the
environment and the last status are, and `execute_line` passes it on as one segment. -/
theorem quoting_roundtrip {words : List Bytes} {line : Bytes} (h : QuotedLine words line)
    (hcount : words.length ≤ shellMaxTokens) :
    (∀ ctx, ∃ tokens, lexLine ctx line = some tokens ∧
      tokens.map (fun t => (t.type, t.bytes)) = words.map fun w => (TokenType.word, some w)) ∧
    cutLine line = [line] ∧
    ∀ {σ : Type} (executeSegment : σ → Bytes → ℤ → σ × ℤ × Bool) (state : σ) (status : ℤ),
      executeLine executeSegment state status line =
        if words = [] then (state, status, false) else executeSegment state line status := by
  refine ⟨fun ctx => ⟨words.map wordToken, ?_, ?_⟩, ?_, fun {σ} executeSegment state status => ?_⟩
  · exact h.lexFrom ctx [] (fun c hc => by cases hc) (by omega)
  · rw [List.map_map]
    refine List.map_congr_left fun w _ => ?_
    show (TokenType.word, some ((w.map Part.literal).flatMap Part.bytes)) = _
    rw [bytes_literals]
  · have hcut := cutFrom_passes line [] [] h.passes
    rw [List.append_nil, List.nil_append] at hcut
    exact hcut
  · refine (executeFrom_passes executeSegment state status line [] h.passes).trans ?_
    rw [List.nil_append, executeCut]
    cases words with
    | nil =>
      cases h
      rfl
    | cons w ws =>
      obtain ⟨rest, rfl⟩ := h.head
      rw [if_neg (by simp [isBlank, apostrophe]), if_neg (List.cons_ne_nil w ws)]

/-- The words `it's`, the empty word and `;|$`, with a newline and blanks between them. -/
theorem quoting_roundtrip_three :
    ∃ line, QuotedLine [[105, 116, 39, 115], [], [59, 124, 36]] line ∧
      ∃ tokens, lexLine ⟨fun _ => some [59], 7⟩ line = some tokens ∧
        tokens.map (fun t => (t.type, t.bytes)) =
          [(.word, some [105, 116, 39, 115]), (.word, some []), (.word, some [59, 124, 36])] := by
  have hline : QuotedLine [[105, 116, 39, 115], [], [59, 124, 36]]
      (quoted [105, 116, 39, 115] ++ [10, 32] ++ (quoted [] ++ [9] ++ quoted [59, 124, 36])) :=
    .more (by decide) (by simp [isSpace]) (.more (by decide) (by simp [isSpace]) (.word _))
  exact ⟨_, hline, (quoting_roundtrip hline (by decide)).1 ⟨fun _ => some [59], 7⟩⟩

end Shell

end CannedBsd
