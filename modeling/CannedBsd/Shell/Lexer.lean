import CannedBsd.Abi

/-!
# The shell's scanners

`lex_line` cuts a line into tokens and expands variables on the way; `execute_line` cuts a line at
its unquoted semicolons with a scanner of its own. A word is kept as the list of its parts, so that
what a variable contributed can be told from what the line says.

* `Expands.consumed`: an expansion means the same in front of every rest that begins in the same way.
* `lexWord_takes`: the word loop takes the pieces of a word.
-/

namespace CannedBsd

namespace Shell

/-! ### Characters -/

def pipeSign : UInt8 := 124
def semicolon : UInt8 := 59
def less : UInt8 := 60
def greater : UInt8 := 62
def apostrophe : UInt8 := 39
def quotation : UInt8 := 34
def backslash : UInt8 := 92
def dollar : UInt8 := 36
def question : UInt8 := 63
def openBrace : UInt8 := 123
def closeBrace : UInt8 := 125

/-- The operators that end a word, as white space does. -/
def isOperator (c : UInt8) : Bool := c = pipeSign || c = semicolon || c = less || c = greater

/-- What ends a word outside of quotes. -/
def isBreak (c : UInt8) : Bool := isSpace c || isOperator c

/-! ### Expansion -/

/-- What the shell reads besides the line. -/
structure Context where
  getenv : Bytes → Option Bytes
  lastStatus : ℤ

/-- A part of a word: a character of the line or the value of an expansion. -/
inductive Part
  | literal (c : UInt8)
  | value (bytes : Bytes)
  deriving DecidableEq

def Part.bytes : Part → Bytes
  | .literal c => [c]
  | .value bytes => bytes

/-- The text of `%d`. -/
def decimal (n : ℤ) : Bytes := (toString n).toList.map fun c => c.toNat.toUInt8

def nameSize : ℕ := 128

/-- The checks on a variable name. -/
def validName (name : Bytes) : Bool :=
  match name with
  | [] => false
  | c :: rest =>
    name.length < nameSize && (isAlpha c || c = underscore) && rest.all fun c => isAlnum c || c = underscore

/-- Behind a `$`: the part that is appended and the rest of the line. -/
def appendExpansion (ctx : Context) (cursor : Bytes) : Option (Part × Bytes) :=
  if cursor.head? = some question then some (.value (decimal ctx.lastStatus), cursor.tail)
  else if cursor.head? = some openBrace then
    let start := cursor.tail
    let name := start.takeWhile (· ≠ closeBrace)
    if start.length = name.length then none
    else if validName name then some (.value ((ctx.getenv name).getD []), start.drop (name.length + 1))
    else none
  else
    let name := cursor.takeWhile fun c => isAlnum c || c = underscore
    if name = [] then some (.literal dollar, cursor)
    else if validName name then some (.value ((ctx.getenv name).getD []), cursor.drop name.length)
    else none

theorem appendExpansion_length {ctx : Context} {cursor rest : Bytes} {part : Part}
    (h : appendExpansion ctx cursor = some (part, rest)) : rest.length ≤ cursor.length := by
  have htail : cursor.tail.length ≤ cursor.length := by simp
  rw [appendExpansion] at h
  split at h
  · cases h
    exact htail
  split at h
  · dsimp only at h
    split at h
    · cases h
    split at h
    · cases h
      rw [List.length_drop]
      omega
    · cases h
  · dsimp only at h
    split at h
    · cases h
      exact le_rfl
    split at h
    · cases h
      simp
    · cases h

/-! ### `lex_line` -/

inductive TokenType
  | word
  | pipe
  | semicolon
  | input
  | output
  | append
  deriving DecidableEq

structure Token where
  type : TokenType
  text : Option (List Part)
  deriving DecidableEq

/-- The bytes of `token->text`. -/
def Token.bytes (t : Token) : Option Bytes := t.text.map fun parts => parts.flatMap Part.bytes

inductive Quote
  | off
  | single
  | double
  deriving DecidableEq

/-- A quotation mark outside of the other kind of quotes. -/
def Quote.toggle (quote mark : Quote) : Quote := if quote = mark then .off else mark

/-- The word loop of `lex_line`: the parts of the word and the rest of the line. -/
def lexWord (ctx : Context) (quote : Quote) (sawPart : Bool) (word : List Part) (cursor : Bytes) :
    Option (List Part × Bytes) :=
  match cursor with
  | [] => if quote ≠ .off ∨ ¬ sawPart then none else some (word, [])
  | c :: rest =>
    if quote = .off ∧ isBreak c then if ¬ sawPart then none else some (word, c :: rest)
    else if c = apostrophe ∧ quote ≠ .double then
      lexWord ctx (quote.toggle .single) true word rest
    else if c = quotation ∧ quote ≠ .single then
      lexWord ctx (quote.toggle .double) true word rest
    else if c = backslash ∧ quote ≠ .single then
      match rest with
      | [] => none
      | d :: rest => lexWord ctx quote true (word ++ [.literal d]) rest
    else if c = dollar ∧ quote ≠ .single then
      match _h : appendExpansion ctx rest with
      | none => none
      | some (part, next) => lexWord ctx quote true (word ++ [part]) next
    else lexWord ctx quote true (word ++ [.literal c]) rest
termination_by cursor.length
decreasing_by
  all_goals simp only [List.length_cons]
  · omega
  · omega
  · omega
  · have := appendExpansion_length _h
    omega
  · omega

/-! ### `execute_line` -/

/-- The two variables of the scanner of `execute_line`. -/
structure Scanner where
  quote : Quote
  escaped : Bool
  deriving DecidableEq

/-- Whether the scanner cuts here. -/
def Scanner.separator (s : Scanner) (c : UInt8) : Prop :=
  s.escaped = false ∧ s.quote = .off ∧ c = semicolon

instance (s : Scanner) (c : UInt8) : Decidable (s.separator c) := instDecidableAnd

def Scanner.next (s : Scanner) (c : UInt8) : Scanner :=
  if s.escaped then ⟨s.quote, false⟩
  else if c = backslash ∧ s.quote ≠ .single then ⟨s.quote, true⟩
  else if c = apostrophe ∧ s.quote ≠ .double then ⟨s.quote.toggle .single, false⟩
  else if c = quotation ∧ s.quote ≠ .single then ⟨s.quote.toggle .double, false⟩
  else s

/-- The scanner runs over a text without a cut. -/
def Scanner.passes : Scanner → Bytes → Option Scanner
  | s, [] => some s
  | s, c :: text => if s.separator c then none else (s.next c).passes text

theorem Scanner.passes_append (p q : Bytes) : ∀ s : Scanner, s.passes (p ++ q) = (s.passes p).bind fun t => t.passes q := by
  induction p with
  | nil => exact fun s => rfl
  | cons c p ih =>
    intro s
    rw [List.cons_append, passes, passes]
    split
    · rfl
    · exact ih (s.next c)

/-- A byte that no scanner reacts to. -/
def inert (c : UInt8) : Prop := c ≠ semicolon ∧ c ≠ backslash ∧ c ≠ apostrophe ∧ c ≠ quotation

instance (c : UInt8) : Decidable (inert c) := instDecidableAnd

theorem Scanner.passes_inert {p : Bytes} (hp : ∀ c ∈ p, inert c) (quote : Quote) :
    Scanner.passes ⟨quote, false⟩ p = some ⟨quote, false⟩ := by
  induction p with
  | nil => rfl
  | cons c p ih =>
    obtain ⟨hsemi, hback, happ, hquot⟩ := hp c (by simp)
    rw [passes, if_neg fun h => hsemi h.2.2, next, if_neg (by simp), if_neg fun h => hback h.1,
      if_neg fun h => happ h.1, if_neg fun h => hquot h.1]
    exact ih fun d hd => hp d (by simp [hd])

/-! ### What a word takes from the line -/

/-- A text in front of which a word ends. -/
def EndsWord (text : Bytes) : Prop := ∀ c, text.head? = some c → isBreak c

theorem inert_of_name {c : UInt8} (h : (isAlnum c || c = underscore) = true) : inert c := by
  refine ⟨?_, ?_, ?_, ?_⟩ <;> (intro hc; subst hc; revert h; decide)

theorem not_name_of_break {c : UInt8} (h : isBreak c) : (isAlnum c || c = underscore) = false := by
  have hall : ∀ i : Fin 256, isBreak (.ofFin i) = true →
      (isAlnum (.ofFin i) || decide (UInt8.ofFin i = underscore)) = false := by
    decide +kernel
  exact hall c.toFin h

theorem validName_bytes {name : Bytes} (h : validName name) : ∀ c ∈ name, (isAlnum c || c = underscore) = true := by
  cases name with
  | nil => exact List.forall_mem_nil _
  | cons c rest =>
    simp only [validName, Bool.and_eq_true] at h
    obtain ⟨⟨-, hfirst⟩, hrest⟩ := h
    intro d hd
    rcases List.mem_cons.mp hd with rfl | hd
    · simp only [isAlnum, Bool.or_eq_true] at hfirst ⊢
      tauto
    · exact List.all_eq_true.mp hrest d hd

theorem validName_inert {name : Bytes} (h : validName name) : ∀ c ∈ name, inert c :=
  fun c hc => inert_of_name (validName_bytes h c hc)

theorem takeWhile_append_of_head {p : UInt8 → Bool} {name rest : Bytes} (hname : ∀ c ∈ name, p c = true)
    (hrest : ∀ c, rest.head? = some c → p c = false) : (name ++ rest).takeWhile p = name := by
  rw [List.takeWhile_append_of_pos hname]
  cases rest with
  | nil => simp
  | cons c rest =>
    rw [List.takeWhile_cons, if_neg (by rw [hrest c rfl]; decide), List.append_nil]

theorem head_drop_takeWhile {p : UInt8 → Bool} (text : Bytes) :
    ∀ c, (text.drop (text.takeWhile p).length).head? = some c → p c = false := by
  induction text with
  | nil =>
    intro c hc
    cases hc
  | cons b text ih =>
    intro c hc
    by_cases hb : p b = true
    · rw [List.takeWhile_cons, if_pos hb, List.length_cons, List.drop_succ_cons] at hc
      exact ih c hc
    · rw [List.takeWhile_cons, if_neg hb] at hc
      cases hc
      exact Bool.eq_false_iff.mpr hb

theorem takeWhile_split (p : UInt8 → Bool) (text : Bytes) :
    text = text.takeWhile p ++ text.drop (text.takeWhile p).length :=
  (List.prefix_iff_eq_append.mp (List.takeWhile_prefix p)).symm

/-- A byte that an expansion cannot begin with. -/
def plainBehindDollar (text : Bytes) : Prop :=
  ∀ c, text.head? = some c → c ≠ question ∧ c ≠ openBrace ∧ (isAlnum c || c = underscore) = false

theorem appendExpansion_question (ctx : Context) (rest : Bytes) :
    appendExpansion ctx (question :: rest) = some (.value (decimal ctx.lastStatus), rest) := rfl

theorem appendExpansion_braced (ctx : Context) {name : Bytes} (h : validName name) (rest : Bytes) :
    appendExpansion ctx (openBrace :: (name ++ closeBrace :: rest)) =
      some (.value ((ctx.getenv name).getD []), rest) := by
  have hname : (name ++ closeBrace :: rest).takeWhile (· ≠ closeBrace) = name := by
    refine takeWhile_append_of_head (fun c hc => ?_) fun c hc => ?_
    · have hbyte := validName_bytes h c hc
      refine decide_eq_true fun heq => ?_
      subst heq
      revert hbyte
      decide
    · cases hc
      decide
  have hlong : (name ++ closeBrace :: rest).length ≠ name.length := by
    simp only [List.length_append, List.length_cons]
    omega
  have hdrop : (name ++ closeBrace :: rest).drop (name.length + 1) = rest := by
    rw [← List.drop_drop, List.drop_left, List.drop_one, List.tail_cons]
  rw [appendExpansion, if_neg (by simp [question, openBrace]), if_pos List.head?_cons]
  simp only [List.tail_cons, hname, if_neg hlong, if_pos h, hdrop]

theorem appendExpansion_bare (ctx : Context) {name : Bytes} (h : validName name) {rest : Bytes}
    (hrest : ∀ c, rest.head? = some c → (isAlnum c || c = underscore) = false) :
    appendExpansion ctx (name ++ rest) = some (.value ((ctx.getenv name).getD []), rest) := by
  have hname : (name ++ rest).takeWhile (fun c => isAlnum c || decide (c = underscore)) = name :=
    takeWhile_append_of_head (validName_bytes h) hrest
  have hne : name ≠ [] := by
    rintro rfl
    cases h
  obtain ⟨c, name', rfl⟩ := List.exists_cons_of_ne_nil hne
  have hc := validName_bytes h c (by simp)
  have hquestion : ¬ (c :: name' ++ rest).head? = some question := by
    rintro heq
    cases heq
    revert hc
    decide
  have hbrace : ¬ (c :: name' ++ rest).head? = some openBrace := by
    rintro heq
    cases heq
    revert hc
    decide
  rw [appendExpansion, if_neg hquestion, if_neg hbrace]
  simp only [hname, if_neg hne, if_pos h, List.drop_left]

theorem appendExpansion_dollar (ctx : Context) {cursor : Bytes} (h : plainBehindDollar cursor) :
    appendExpansion ctx cursor = some (.literal dollar, cursor) := by
  have hname : cursor.takeWhile (fun c => isAlnum c || decide (c = underscore)) = [] :=
    @takeWhile_append_of_head _ [] cursor (List.forall_mem_nil _) fun c hc => (h c hc).2.2
  rw [appendExpansion, if_neg fun hc => (h _ hc).1 rfl, if_neg fun hc => (h _ hc).2.1 rfl]
  simp only [hname, if_pos]

/-- Everything an expansion can be, in the text behind the `$`. -/
inductive Expands (ctx : Context) : Bytes → Part → Bytes → Prop
  | question (rest : Bytes) : Expands ctx (question :: rest) (.value (decimal ctx.lastStatus)) rest
  | braced (name rest : Bytes) : validName name →
      Expands ctx (openBrace :: (name ++ closeBrace :: rest)) (.value ((ctx.getenv name).getD [])) rest
  | bare (name rest : Bytes) : validName name →
      (∀ c, rest.head? = some c → (isAlnum c || c = underscore) = false) →
      Expands ctx (name ++ rest) (.value ((ctx.getenv name).getD [])) rest
  | dollar (rest : Bytes) : plainBehindDollar rest → Expands ctx rest (.literal dollar) rest

theorem expands_of_appendExpansion {ctx : Context} {cursor rest : Bytes} {part : Part}
    (h : appendExpansion ctx cursor = some (part, rest)) : Expands ctx cursor part rest := by
  rw [appendExpansion] at h
  by_cases hquestion : cursor.head? = some question
  · rw [if_pos hquestion] at h
    cases h
    have hcursor := List.cons_head?_tail hquestion
    nth_rewrite 1 [← hcursor]
    exact .question _
  rw [if_neg hquestion] at h
  by_cases hbrace : cursor.head? = some openBrace
  · rw [if_pos hbrace] at h
    dsimp only at h
    have htake := takeWhile_split (· ≠ closeBrace) cursor.tail
    have hstop := @head_drop_takeWhile (· ≠ closeBrace) cursor.tail
    generalize cursor.tail.takeWhile (· ≠ closeBrace) = name at h htake hstop
    split at h
    · cases h
    rename_i hclosed
    split at h
    · rename_i hvalid
      cases h
      cases hdrop : cursor.tail.drop name.length with
      | nil =>
        rw [hdrop, List.append_nil] at htake
        exact absurd (congrArg List.length htake) hclosed
      | cons b after =>
        rw [hdrop] at htake hstop
        have hb : b = closeBrace := by simpa using hstop b rfl
        have hafter : cursor.tail.drop (name.length + 1) = after := by
          rw [← List.drop_drop, hdrop, List.drop_one, List.tail_cons]
        have hcursor := List.cons_head?_tail hbrace
        rw [hafter, ← hcursor, htake, hb]
        exact .braced name after hvalid
    · cases h
  rw [if_neg hbrace] at h
  dsimp only at h
  have htake := takeWhile_split (fun c => isAlnum c || decide (c = underscore)) cursor
  have hstop := @head_drop_takeWhile (fun c => isAlnum c || decide (c = underscore)) cursor
  generalize cursor.takeWhile (fun c => isAlnum c || decide (c = underscore)) = name at h htake hstop
  split at h
  · rename_i hempty
    cases h
    rw [hempty, List.length_nil, List.drop_zero] at hstop
    refine .dollar cursor fun c hc => ⟨?_, ?_, hstop c hc⟩
    · rintro rfl
      exact hquestion hc
    · rintro rfl
      exact hbrace hc
  split at h
  · rename_i hvalid
    cases h
    nth_rewrite 1 [htake]
    exact .bare name _ hvalid hstop
  · cases h

theorem appendExpansion_of_expands {ctx : Context} {cursor rest : Bytes} {part : Part}
    (h : Expands ctx cursor part rest) : appendExpansion ctx cursor = some (part, rest) := by
  cases h with
  | question => exact appendExpansion_question ctx rest
  | braced name _ hvalid => exact appendExpansion_braced ctx hvalid rest
  | bare name _ hvalid hstop => exact appendExpansion_bare ctx hvalid hstop
  | dollar _ hplain => exact appendExpansion_dollar ctx hplain

/-- The text of an expansion, which no scanner reacts to, means the same in front of every rest that
begins in the same way or ends the word. -/
theorem Expands.consumed {ctx : Context} {cursor rest : Bytes} {part : Part} (h : Expands ctx cursor part rest) :
    ∃ p, cursor = p ++ rest ∧ (∀ c ∈ p, inert c) ∧
      ∀ rest', rest'.head? = rest.head? ∨ EndsWord rest' → Expands ctx (p ++ rest') part rest' := by
  cases h with
  | question =>
    refine ⟨[Shell.question], rfl, ?_, fun rest' _ => .question rest'⟩
    simp only [List.mem_singleton, forall_eq]
    decide
  | braced name _ hvalid =>
    refine ⟨openBrace :: (name ++ [closeBrace]), by simp, ?_, fun rest' _ => ?_⟩
    · intro c hc
      rcases List.mem_cons.mp hc with rfl | hc
      · decide
      rcases List.mem_append.mp hc with hc | hc
      · exact validName_inert hvalid c hc
      · rw [List.mem_singleton] at hc
        subst hc
        decide
    · rw [List.cons_append, List.append_assoc]
      exact .braced name rest' hvalid
  | bare name _ hvalid hstop =>
    refine ⟨name, rfl, validName_inert hvalid, fun rest' hrest' => .bare name rest' hvalid fun c hc => ?_⟩
    rcases hrest' with hsame | hends
    · exact hstop c (hsame ▸ hc)
    · exact not_name_of_break (hends c hc)
  | dollar _ hplain =>
    refine ⟨[], rfl, List.forall_mem_nil _, fun rest' hrest' => .dollar rest' fun c hc => ?_⟩
    rcases hrest' with hsame | hends
    · exact hplain c (hsame ▸ hc)
    · have hbreak := hends c hc
      refine ⟨?_, ?_, not_name_of_break hbreak⟩
      · rintro rfl
        revert hbreak
        decide
      · rintro rfl
        revert hbreak
        decide

/-- What a word took from the line: the scanner passes it from the state of the word to a state outside
of quotes, and the word is the same in front of every text that ends it. -/
structure Takes (ctx : Context) (quote : Quote) (sawPart : Bool) (word : List Part) (cursor : Bytes)
    (parts : List Part) (rest p : Bytes) : Prop where
  split : cursor = p ++ rest
  scanned : Scanner.passes ⟨quote, false⟩ p = some ⟨.off, false⟩
  ends : EndsWord rest
  moved : sawPart = false → p ≠ []
  again : ∀ rest', EndsWord rest' → lexWord ctx quote sawPart word (p ++ rest') = some (parts, rest')

/-- A first piece of the word and what the rest of it takes. -/
theorem Takes.piece {ctx : Context} {quote quote' : Quote} {sawPart : Bool} {word word' parts : List Part}
    {next rest p : Bytes} (front : Bytes) (hne : front ≠ [])
    (hscan : Scanner.passes ⟨quote, false⟩ front = some ⟨quote', false⟩)
    (hstep : ∀ t, t.head? = next.head? ∨ EndsWord t →
      lexWord ctx quote sawPart word (front ++ t) = lexWord ctx quote' true word' t)
    (h : Takes ctx quote' true word' next parts rest p) :
    Takes ctx quote sawPart word (front ++ next) parts rest (front ++ p) := by
  refine ⟨?_, ?_, h.ends, fun _ hnil => hne (List.append_eq_nil_iff.mp hnil).1, fun rest' hends => ?_⟩
  · rw [h.split, List.append_assoc]
  · rw [Scanner.passes_append, hscan]
    exact h.scanned
  · rw [List.append_assoc, hstep, h.again rest' hends]
    cases p with
    | nil => exact .inr hends
    | cons c p =>
      left
      rw [h.split]
      rfl

theorem lexWord_takes {ctx : Context} {quote : Quote} {sawPart : Bool} {word parts : List Part} {cursor rest : Bytes}
    (h : lexWord ctx quote sawPart word cursor = some (parts, rest)) :
    ∃ p, Takes ctx quote sawPart word cursor parts rest p := by
  -- the end of the word is also its end in front of every other text that ends it
  have hstop : ∀ {quote sawPart word}, quote = Quote.off → sawPart = true → ∀ {cursor}, EndsWord cursor →
      Takes ctx quote sawPart word cursor word cursor [] := by
    rintro quote sawPart word rfl rfl cursor hends
    refine ⟨rfl, rfl, hends, fun hsaw => absurd hsaw (by decide), fun rest' hends' => ?_⟩
    cases rest' with
    | nil => rw [List.append_nil, lexWord, if_neg (by simp)]
    | cons c rest' =>
      rw [List.nil_append, lexWord.eq_def]
      dsimp only
      rw [if_pos ⟨rfl, hends' c rfl⟩, if_neg (by simp)]
  fun_induction lexWord ctx quote sawPart word cursor with
  | case1 => cases h
  | case2 quote sawPart word hend =>
    cases h
    simp only [ne_eq, not_or, not_not] at hend
    refine ⟨[], hstop hend.1 hend.2 fun c hc => ?_⟩
    cases hc
  | case3 => cases h
  | case4 quote sawPart word c next hbreak hsaw =>
    cases h
    refine ⟨[], hstop hbreak.1 (not_not.mp hsaw) fun d hd => ?_⟩
    cases hd
    exact hbreak.2
  | case5 quote sawPart word c next hbreak hmark ih =>
    obtain ⟨p, hp⟩ := ih h
    refine ⟨[c] ++ p, hp.piece [c] (List.cons_ne_nil _ _) ?_ fun t _ => ?_⟩
    · obtain ⟨rfl, hdouble⟩ := hmark
      rw [Scanner.passes, if_neg fun hsep => absurd hsep.2.2 (by decide), Scanner.next, if_neg Bool.false_ne_true,
        if_neg fun hc => absurd hc.1 (by decide), if_pos ⟨rfl, hdouble⟩]
      rfl
    · rw [List.singleton_append, lexWord.eq_def]
      dsimp only
      rw [if_neg hbreak, if_pos hmark]
  | case6 quote sawPart word c next hbreak happ hmark ih =>
    obtain ⟨p, hp⟩ := ih h
    refine ⟨[c] ++ p, hp.piece [c] (List.cons_ne_nil _ _) ?_ fun t _ => ?_⟩
    · obtain ⟨rfl, hsingle⟩ := hmark
      rw [Scanner.passes, if_neg fun hsep => absurd hsep.2.2 (by decide), Scanner.next, if_neg Bool.false_ne_true,
        if_neg fun hc => absurd hc.1 (by decide), if_neg fun hc => absurd hc.1 (by decide), if_pos ⟨rfl, hsingle⟩]
      rfl
    · rw [List.singleton_append, lexWord.eq_def]
      dsimp only
      rw [if_neg hbreak, if_neg happ, if_pos hmark]
  | case7 => cases h
  | case8 quote sawPart word c hbreak happ hquot hback d next ih =>
    obtain ⟨p, hp⟩ := ih h
    refine ⟨[c, d] ++ p, hp.piece [c, d] (List.cons_ne_nil _ _) ?_ fun t _ => ?_⟩
    · obtain ⟨rfl, hsingle⟩ := hback
      rw [Scanner.passes, if_neg fun hsep => absurd hsep.2.2 (by decide), Scanner.next, if_neg Bool.false_ne_true,
        if_pos ⟨rfl, hsingle⟩, Scanner.passes, if_neg fun hsep => Bool.false_ne_true hsep.1.symm]
      rfl
    · rw [List.cons_append, List.cons_append, lexWord.eq_def]
      dsimp only
      rw [if_neg hbreak, if_neg happ, if_neg hquot, if_pos hback]
      rfl
  | case9 => cases h
  | case10 quote sawPart word c next hbreak happ hquot hback hdollar part after hexpand ih =>
    obtain ⟨p, hp⟩ := ih h
    obtain ⟨front, rfl, hinert, hagain⟩ := (expands_of_appendExpansion hexpand).consumed
    refine ⟨(c :: front) ++ p, hp.piece (c :: front) (List.cons_ne_nil _ _) ?_ fun t ht => ?_⟩
    · refine Scanner.passes_inert (fun d hd => ?_) quote
      rcases List.mem_cons.mp hd with rfl | hd
      · rw [hdollar.1]
        decide
      · exact hinert d hd
    · rw [List.cons_append, lexWord.eq_def]
      dsimp only
      rw [if_neg hbreak, if_neg happ, if_neg hquot, if_neg hback, if_pos hdollar]
      rw [appendExpansion_of_expands (hagain t ht)]
  | case11 quote sawPart word c next hbreak happ hquot hback hdollar ih =>
    obtain ⟨p, hp⟩ := ih h
    refine ⟨[c] ++ p, hp.piece [c] (List.cons_ne_nil _ _) ?_ fun t _ => ?_⟩
    · have hsep : ¬ Scanner.separator ⟨quote, false⟩ c := by
        rintro ⟨-, hoff, rfl⟩
        exact hbreak ⟨hoff, by decide⟩
      rw [Scanner.passes, if_neg hsep, Scanner.next, if_neg Bool.false_ne_true, if_neg hback, if_neg happ, if_neg hquot]
      rfl
    · rw [List.singleton_append, lexWord.eq_def]
      dsimp only
      rw [if_neg hbreak, if_neg happ, if_neg hquot, if_neg hback, if_neg hdollar]

/-! ### Whole lines -/

def shellMaxTokens : ℕ := 128

/-- One token of `lex_line`, at a character that is no white space. -/
def lexToken (ctx : Context) (c : UInt8) (rest : Bytes) : Option (Token × Bytes) :=
  if c = pipeSign then some (⟨.pipe, none⟩, rest)
  else if c = semicolon then some (⟨.semicolon, none⟩, rest)
  else if c = less then some (⟨.input, none⟩, rest)
  else if c = greater then
    if rest.head? = some greater then some (⟨.append, none⟩, rest.tail) else some (⟨.output, none⟩, rest)
  else (lexWord ctx .off false [] (c :: rest)).map fun word => (⟨.word, some word.1⟩, word.2)

theorem lexToken_length {ctx : Context} {c : UInt8} {rest next : Bytes} {token : Token}
    (h : lexToken ctx c rest = some (token, next)) : next.length ≤ rest.length := by
  have htail : rest.tail.length ≤ rest.length := by simp
  rw [lexToken] at h
  split at h
  · cases h
    exact le_rfl
  split at h
  · cases h
    exact le_rfl
  split at h
  · cases h
    exact le_rfl
  split at h
  · split at h
    · cases h
      exact htail
    · cases h
      exact le_rfl
  · obtain ⟨⟨parts, after⟩, hword, heq⟩ := Option.map_eq_some_iff.mp h
    cases heq
    obtain ⟨p, hp⟩ := lexWord_takes hword
    have hlen := congrArg List.length hp.split
    have hpos := List.length_pos_of_ne_nil (hp.moved rfl)
    rw [List.length_append, List.length_cons] at hlen
    show after.length ≤ rest.length
    omega

theorem dropWhile_length (text : Bytes) : (text.dropWhile isSpace).length ≤ text.length :=
  (List.dropWhile_suffix isSpace).length_le

/-- The token loop of `lex_line`, with `count` tokens stored. -/
def lexFrom (ctx : Context) (count : ℕ) (cursor : Bytes) : Option (List Token) :=
  match _h : cursor.dropWhile isSpace with
  | [] => some []
  | c :: rest =>
    if count = shellMaxTokens then none
    else
      match _ht : lexToken ctx c rest with
      | none => none
      | some (token, next) => (lexFrom ctx (count + 1) next).map (token :: ·)
termination_by cursor.length
decreasing_by
  have hnext := lexToken_length _ht
  have hdrop := dropWhile_length cursor
  rw [_h, List.length_cons] at hdrop
  omega

def lexLine (ctx : Context) (line : Bytes) : Option (List Token) := lexFrom ctx 0 line

/-- The characters of the `strspn` of `execute_line`. -/
def isBlank (segment : Bytes) : Bool := segment.all fun c => c = 32 || c = 9 || c = 13 || c = 10

section

variable {σ : Type} (executeSegment : σ → Bytes → ℤ → σ × ℤ × Bool)

/-- A segment is executed unless it is blank. -/
def executeCut (state : σ) (segment : Bytes) (status : ℤ) : σ × ℤ × Bool :=
  if isBlank segment then (state, status, false) else executeSegment state segment status

/-- The loop of `execute_line`: `segment` is the text from `start` to `cursor`. -/
def executeFrom (state : σ) (status : ℤ) (segment : Bytes) (scanner : Scanner) : Bytes → σ × ℤ × Bool
  | [] => executeCut executeSegment state segment status
  | c :: rest =>
    if scanner.separator c then
      match executeCut executeSegment state segment status with
      | (state, status, true) => (state, status, true)
      | (state, status, false) => executeFrom state status [] ⟨.off, false⟩ rest
    else executeFrom state status (segment ++ [c]) (scanner.next c) rest

def executeLine (state : σ) (status : ℤ) (line : Bytes) : σ × ℤ × Bool :=
  executeFrom executeSegment state status [] ⟨.off, false⟩ line

end

/-- The segments between the cuts. -/
def cutFrom (segment : Bytes) (scanner : Scanner) : Bytes → List Bytes
  | [] => [segment]
  | c :: rest =>
    if scanner.separator c then segment :: cutFrom [] ⟨.off, false⟩ rest
    else cutFrom (segment ++ [c]) (scanner.next c) rest

def cutLine (line : Bytes) : List Bytes := cutFrom [] ⟨.off, false⟩ line

end Shell

end CannedBsd
