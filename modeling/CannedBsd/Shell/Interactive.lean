import CannedBsd.Shell.Lexer

/-!
# The interactive loop

`shell_main` reads a line into a buffer of fixed size and passes it to `execute_line`. The reader stops at
a newline, at the end of the input and when the buffer is full, and it does not say which. The commands of a
line have the descriptor 0 of the shell, so they may read a part of the input behind it, and the next line
starts where they stop. `execute_line` is a parameter here: it is given the input that is left and says how
much of it was read.

* `readInteractiveLine_eq`: what one call of the reader takes from the input and what it leaves.
* `interactive_line_by_line_iff`: one line of the input is one line of the shell exactly when every line the
  shell comes to fits into the buffer together with its newline.
* `long_line_executed_in_pieces`: the end of a long line is executed as a command of its own.
-/

namespace CannedBsd

namespace Shell

def newline : UInt8 := 10

def shellLineMax : ℕ := 4096

/-! ### The loop -/

/-- The loop of `read_interactive_line` with the bytes stored so far: the line and what is left of the input;
nothing at the end of the input. -/
def readFrom (size : ℕ) (line : Bytes) : Bytes → Option (Bytes × Bytes)
  | [] => if line.length + 1 < size ∧ line = [] then none else some (line, [])
  | c :: rest =>
    if line.length + 1 < size then
      if c = newline then some (line, rest) else readFrom size (line ++ [c]) rest
    else some (line, c :: rest)

def readInteractiveLine (input : Bytes) : Option (Bytes × Bytes) := readFrom shellLineMax [] input

/-- A round of the loop of `shell_main`. -/
structure Round where
  /-- The input in front of the reader. -/
  before : Bytes
  /-- The line that is passed to `execute_line`. -/
  line : Bytes
  /-- The input behind the reader. -/
  left : Bytes
  /-- Does the line ask the shell to exit? -/
  exits : Bool
  /-- How many bytes of `left` the commands of the line read. -/
  shared : ℕ

/-- The first line of an input, without its newline. -/
def firstLine (input : Bytes) : Bytes := input.takeWhile (· ≠ newline)

/-- The input behind its first line, or behind a full buffer if that comes first. -/
def behindLine (input : Bytes) : Bytes := input.drop (min ((firstLine input).length + 1) (shellLineMax - 1))

theorem firstLine_cons (c : UInt8) (rest : Bytes) :
    firstLine (c :: rest) = if c = newline then [] else c :: firstLine rest := by
  rw [firstLine, List.takeWhile_cons]
  by_cases hc : c = newline
  · simp [hc]
  · simp [hc, firstLine]

theorem readFrom_eq {size : ℕ} (input : Bytes) : ∀ {line : Bytes}, line ≠ [] ∨ input ≠ [] → line.length < size →
    readFrom size line input = some (line ++ (firstLine input).take (size - 1 - line.length),
      input.drop (min ((firstLine input).length + 1) (size - 1 - line.length))) := by
  induction input with
  | nil =>
    intro line hne _
    have hline : line ≠ [] := hne.resolve_right fun h => h rfl
    rw [readFrom, if_neg fun h => hline h.2]
    simp [firstLine]
  | cons c rest ih =>
    intro line _ hsize
    rw [readFrom, firstLine_cons]
    by_cases hroom : line.length + 1 < size
    · rw [if_pos hroom]
      obtain ⟨room, hsize'⟩ : ∃ room, size - 1 - line.length = room + 1 := ⟨size - 2 - line.length, by omega⟩
      by_cases hc : c = newline
      · rw [if_pos hc, if_pos hc, hsize']
        simp
      · have hless : (line ++ [c]).length < size := by
          rw [List.length_append]
          exact hroom
        have hrest : size - 1 - (line ++ [c]).length = room := by
          rw [List.length_append, List.length_singleton]
          omega
        rw [if_neg hc, if_neg hc, ih (.inl (by simp)) hless, hrest, hsize', List.take_succ_cons, List.length_cons,
          Nat.succ_min_succ, List.drop_succ_cons, List.append_assoc]
        rfl
    · rw [if_neg hroom, show size - 1 - line.length = 0 by omega]
      simp

/-- The reader takes the first line as far as it fits. -/
theorem readInteractiveLine_eq {input : Bytes} (hne : input ≠ []) :
    readInteractiveLine input = some ((firstLine input).take (shellLineMax - 1), behindLine input) :=
  readFrom_eq input (.inr hne) (by decide)

theorem length_behindLine {input : Bytes} (hne : input ≠ []) : (behindLine input).length < input.length := by
  have hpos := List.length_pos_of_ne_nil hne
  rw [behindLine, List.length_drop, shellLineMax]
  omega

theorem readInteractiveLine_length {input line left : Bytes} (h : readInteractiveLine input = some (line, left)) :
    left.length < input.length := by
  have hne : input ≠ [] := by
    rintro rfl
    cases h
  rw [readInteractiveLine_eq hne] at h
  cases h
  exact length_behindLine hne

section

variable {σ : Type} (executeLine : σ → ℤ → Bytes → Bytes → σ × ℤ × Bool × ℕ)

/-- The loop of `shell_main`: the state and the status at its end, and its rounds. -/
def interactive (state : σ) (status : ℤ) (input : Bytes) : σ × ℤ × List Round :=
  match _h : readInteractiveLine input with
  | none => (state, status, [])
  | some (line, left) =>
    match executeLine state status line left with
    | (state, status, true, shared) => (state, status, [⟨input, line, left, true, shared⟩])
    | (state, status, false, shared) =>
      let (state, status, rounds) := interactive state status (left.drop shared)
      (state, status, ⟨input, line, left, false, shared⟩ :: rounds)
termination_by input.length
decreasing_by
  rw [List.length_drop]
  exact lt_of_le_of_lt (Nat.sub_le _ _) (readInteractiveLine_length _h)

/-- The lines the shell comes to when each of them is read whole and each command takes its part of the input. -/
def comesTo (state : σ) (status : ℤ) (input : Bytes) : List Round :=
  if _h : input = [] then []
  else
    match executeLine state status (firstLine input) (behindLine input) with
    | (_, _, true, shared) => [⟨input, firstLine input, behindLine input, true, shared⟩]
    | (state, status, false, shared) =>
      ⟨input, firstLine input, behindLine input, false, shared⟩ ::
        comesTo state status ((behindLine input).drop shared)
termination_by input.length
decreasing_by
  rw [List.length_drop]
  exact lt_of_le_of_lt (Nat.sub_le _ _) (length_behindLine _h)

end

/-! ### One line of the input, one line of the shell -/

/-- A line that does not fit into the buffer with a newline. -/
def TooLong (line : Bytes) : Prop := newline ∉ line ∧ shellLineMax ≤ line.length + 1

/-- Lines that are left out as a whole, because they do not fit. -/
def LeftOut (skipped : Bytes) : Prop :=
  ∃ lines : List Bytes, (∀ line ∈ lines, TooLong line) ∧ skipped = lines.flatMap (· ++ [newline])

/-- The line passed on is a whole line of the input, and what is behind it is not taken for a line by the next
round: its newline is taken with it, or there is none, or the shell exits before it reads on, or a command has
read the newline. -/
structure Round.Whole (round : Round) : Prop where
  complete : newline ∉ round.line
  taken : ∃ skipped, LeftOut skipped ∧
    (round.before = skipped ++ round.line ++ newline :: round.left ∨
      round.before = skipped ++ round.line ++ round.left ∧
        (round.left = [] ∨ round.left.head? = some newline ∧ (round.exits = true ∨ 0 < round.shared)))

/-- **One console line is one command line.**  Up to the exit, the rounds take the input line by line: each round
starts where the commands of the one before stopped and passes on the whole of the next line that is not left
out. Without an exit they go on to the end of the input. -/
def LineByLine : Bytes → List Round → Prop
  | input, [] => ∃ skipped last, LeftOut skipped ∧ (last = [] ∨ TooLong last) ∧ input = skipped ++ last
  | input, round :: rounds =>
    round.before = input ∧ round.Whole ∧
      if round.exits then rounds = [] else LineByLine (round.left.drop round.shared) rounds

/-- The line fits into the buffer with its newline. One that leaves no room for the newline does so at the end of
the input, before an exit, and in front of a command that reads the newline. -/
def Round.Fits (round : Round) : Prop :=
  round.line.length + 1 < shellLineMax ∨
    round.line.length + 1 = shellLineMax ∧ (round.left = [] ∨ round.exits = true ∨ 0 < round.shared)

theorem newline_notMem_firstLine (input : Bytes) : newline ∉ firstLine input := by
  induction input with
  | nil => exact List.not_mem_nil
  | cons c rest ih =>
    rw [firstLine_cons]
    split
    · exact List.not_mem_nil
    · rename_i hc
      rw [List.mem_cons, not_or]
      exact ⟨fun heq => hc heq.symm, ih⟩

/-- Behind the first line there is its newline or nothing. -/
theorem firstLine_append (input : Bytes) :
    ∃ tail, input = firstLine input ++ tail ∧ (tail = [] ∨ ∃ rest, tail = newline :: rest) := by
  induction input with
  | nil => exact ⟨[], rfl, .inl rfl⟩
  | cons c rest ih =>
    rw [firstLine_cons]
    by_cases hc : c = newline
    · rw [if_pos hc, hc]
      exact ⟨newline :: rest, rfl, .inr ⟨rest, rfl⟩⟩
    · rw [if_neg hc]
      obtain ⟨tail, hrest, htail⟩ := ih
      exact ⟨tail, congrArg (c :: ·) hrest, htail⟩

theorem leftOut_nil : LeftOut [] := ⟨[], List.forall_mem_nil _, rfl⟩

/-- A reader that takes as many bytes as the line is long has not taken a newline with it. -/
theorem Round.Whole.of_length {round : Round} (h : round.Whole)
    (hlen : round.before.length = round.line.length + round.left.length) :
    round.left = [] ∨ round.left.head? = some newline ∧ (round.exits = true ∨ 0 < round.shared) := by
  obtain ⟨skipped, -, hbefore | ⟨-, hend⟩⟩ := h.taken
  · rw [hbefore, List.length_append, List.length_append, List.length_cons] at hlen
    omega
  · exact hend

/-- A line with room for its newline is taken whole. -/
theorem whole_of_room {input : Bytes} (exits : Bool) (shared : ℕ) (hroom : (firstLine input).length + 1 < shellLineMax) :
    Round.Whole ⟨input, firstLine input, behindLine input, exits, shared⟩ := by
  refine ⟨newline_notMem_firstLine input, [], leftOut_nil, ?_⟩
  obtain ⟨tail, hinput, htail⟩ := firstLine_append input
  have hbehind : behindLine input = tail.drop 1 := by
    have hdrop := congrArg (List.drop ((firstLine input).length + 1)) hinput
    rw [List.drop_length_add_append] at hdrop
    rw [behindLine, min_eq_left (by omega)]
    exact hdrop
  show input = [] ++ firstLine input ++ newline :: behindLine input ∨
    input = [] ++ firstLine input ++ behindLine input ∧ (behindLine input = [] ∨ _)
  rw [hbehind, List.nil_append]
  rcases htail with rfl | ⟨rest, rfl⟩
  · exact .inr ⟨hinput, .inl rfl⟩
  · exact .inl hinput

/-- A line that just fills the buffer leaves its newline behind. -/
theorem whole_iff_of_full {input : Bytes} (exits : Bool) (shared : ℕ)
    (hfull : (firstLine input).length + 1 = shellLineMax) :
    Round.Whole ⟨input, firstLine input, behindLine input, exits, shared⟩ ↔
      behindLine input = [] ∨ exits = true ∨ 0 < shared := by
  obtain ⟨tail, hinput, htail⟩ := firstLine_append input
  have hbehind : behindLine input = tail := by
    have hdrop := congrArg (List.drop (firstLine input).length) hinput
    rw [List.drop_left] at hdrop
    rw [behindLine, min_eq_right (by omega), show shellLineMax - 1 = (firstLine input).length by omega]
    exact hdrop
  constructor
  · intro hwhole
    have hcount := congrArg List.length hinput
    rw [List.length_append, ← hbehind] at hcount
    exact (hwhole.of_length hcount).imp id And.right
  · intro hend
    refine ⟨newline_notMem_firstLine input, [], leftOut_nil, .inr ?_⟩
    show input = [] ++ firstLine input ++ behindLine input ∧
      (behindLine input = [] ∨ (behindLine input).head? = some newline ∧ (exits = true ∨ 0 < shared))
    rw [hbehind] at hend ⊢
    refine ⟨hinput, ?_⟩
    rcases htail with rfl | ⟨rest, rfl⟩
    · exact .inl rfl
    · exact .inr ⟨rfl, hend.resolve_left (List.cons_ne_nil _ _)⟩

/-- A line that does not fit is not taken whole: the byte behind the full buffer belongs to it. -/
theorem not_whole_of_long {input : Bytes} (exits : Bool) (shared : ℕ) (hlong : shellLineMax < (firstLine input).length + 1) :
    ¬ Round.Whole ⟨input, (firstLine input).take (shellLineMax - 1), behindLine input, exits, shared⟩ := by
  intro hwhole
  obtain ⟨tail, hinput, -⟩ := firstLine_append input
  have hbehind : behindLine input = (firstLine input).drop (shellLineMax - 1) ++ tail := by
    have hdrop := congrArg (List.drop (shellLineMax - 1)) hinput
    rw [List.drop_append_of_le_length (by omega)] at hdrop
    rw [behindLine, min_eq_right (by omega)]
    exact hdrop
  have hcount : input.length = ((firstLine input).take (shellLineMax - 1)).length + (behindLine input).length := by
    have hlen := congrArg List.length hinput
    rw [List.length_append] at hlen
    rw [hbehind, List.length_append, List.length_take, List.length_drop]
    omega
  obtain ⟨c, more, hc⟩ : ∃ c more, (firstLine input).drop (shellLineMax - 1) = c :: more := by
    apply List.exists_cons_of_length_pos
    have hmax : 0 < shellLineMax := by decide
    rw [List.length_drop]
    omega
  have hnewline : c ≠ newline := by
    intro heq
    apply newline_notMem_firstLine input
    apply List.mem_of_mem_drop (i := shellLineMax - 1)
    rw [hc, heq]
    exact List.mem_cons_self
  rw [hc, List.cons_append] at hbehind
  have hend := hwhole.of_length hcount
  dsimp only at hend
  rw [hbehind] at hend
  rcases hend with hnil | ⟨hhead, -⟩
  · exact absurd hnil (List.cons_ne_nil _ _)
  · exact hnewline (Option.some.inj hhead)

/-! ### The rounds -/

section

variable {σ : Type} (executeLine : σ → ℤ → Bytes → Bytes → σ × ℤ × Bool × ℕ)

/-- How a list of rounds goes on behind a line with this result. -/
def goesOn (rounds : σ → ℤ → Bytes → List Round) (input line : Bytes) : σ × ℤ × Bool × ℕ → List Round
  | (_, _, true, shared) => [⟨input, line, behindLine input, true, shared⟩]
  | (state, status, false, shared) =>
    ⟨input, line, behindLine input, false, shared⟩ :: rounds state status ((behindLine input).drop shared)

theorem interactive_nil (state : σ) (status : ℤ) : (interactive executeLine state status []).2.2 = [] := by
  rw [interactive]
  rfl

theorem interactive_round (state : σ) (status : ℤ) {input : Bytes} (hne : input ≠ []) :
    (interactive executeLine state status input).2.2 =
      goesOn (fun state status input => (interactive executeLine state status input).2.2) input
        ((firstLine input).take (shellLineMax - 1))
        (executeLine state status ((firstLine input).take (shellLineMax - 1)) (behindLine input)) := by
  rw [interactive]
  split
  · rename_i hread
    rw [readInteractiveLine_eq hne] at hread
    cases hread
  · rename_i line left hread
    rw [readInteractiveLine_eq hne] at hread
    cases hread
    split
    · rename_i heq
      rw [heq]
      rfl
    · rename_i heq
      rw [heq]
      rfl

theorem comesTo_round (state : σ) (status : ℤ) {input : Bytes} (hne : input ≠ []) :
    comesTo executeLine state status input =
      goesOn (comesTo executeLine) input (firstLine input)
        (executeLine state status (firstLine input) (behindLine input)) := by
  rw [comesTo, dif_neg hne]
  split
  · rename_i heq
    rw [heq]
    rfl
  · rename_i heq
    rw [heq]
    rfl

/-- A first line that does not fit. -/
theorem not_lineByLine_of_long (state : σ) (status : ℤ) {input : Bytes} (hne : input ≠ [])
    (hlong : shellLineMax < (firstLine input).length + 1) :
    ¬ LineByLine input (interactive executeLine state status input).2.2 := by
  rw [interactive_round executeLine state status hne]
  generalize executeLine state status ((firstLine input).take (shellLineMax - 1)) (behindLine input) = result
  obtain ⟨state', status', exits, shared⟩ := result
  cases exits with
  | true => exact fun h => not_whole_of_long true shared hlong h.2.1
  | false => exact fun h => not_whole_of_long false shared hlong h.2.1

theorem not_fits_of_long (state : σ) (status : ℤ) {input : Bytes} (hne : input ≠ [])
    (hlong : shellLineMax < (firstLine input).length + 1) :
    ¬ ∀ round ∈ comesTo executeLine state status input, round.Fits := by
  rw [comesTo_round executeLine state status hne]
  generalize executeLine state status (firstLine input) (behindLine input) = result
  obtain ⟨state', status', exits, shared⟩ := result
  have hnot : ∀ exits, ¬ Round.Fits ⟨input, firstLine input, behindLine input, exits, shared⟩ := by
    intro exits hfits
    rcases hfits with hless | ⟨hfull, -⟩
    · exact absurd hless (Nat.not_lt.mpr (Nat.le_of_lt hlong))
    · exact absurd hfull (Nat.ne_of_gt hlong)
  cases exits with
  | true => exact fun h => hnot true (h _ List.mem_cons_self)
  | false => exact fun h => hnot false (h _ List.mem_cons_self)

theorem whole_iff_fits {input : Bytes} (exits : Bool) (shared : ℕ) (hlen : (firstLine input).length + 1 ≤ shellLineMax) :
    Round.Whole ⟨input, firstLine input, behindLine input, exits, shared⟩ ↔
      Round.Fits ⟨input, firstLine input, behindLine input, exits, shared⟩ := by
  rcases lt_or_eq_of_le hlen with hroom | hfull
  · exact iff_of_true (whole_of_room exits shared hroom) (.inl hroom)
  · rw [whole_iff_of_full exits shared hfull]
    constructor
    · exact fun hend => .inr ⟨hfull, hend⟩
    · rintro (hless | ⟨-, hend⟩)
      · exact absurd hfull (Nat.ne_of_lt hless)
      · exact hend

/-- **One console line is one command line** if and only if every line the shell comes to, up to the exit, takes up
less than `SHELL_LINE_MAX` bytes together with its newline. -/
theorem interactive_line_by_line_iff (state : σ) (status : ℤ) (input : Bytes) :
    LineByLine input (interactive executeLine state status input).2.2 ↔
      ∀ round ∈ comesTo executeLine state status input, round.Fits := by
  -- by induction on the length of what is left of the input
  induction hsize : input.length using Nat.strongRecOn generalizing state status input with
  | ind size ih =>
    by_cases hne : input = []
    · rw [hne, interactive_nil, comesTo, dif_pos rfl]
      exact iff_of_true ⟨[], [], leftOut_nil, .inl rfl, rfl⟩ (List.forall_mem_nil _)
    by_cases hlong : shellLineMax < (firstLine input).length + 1
    · exact iff_of_false (not_lineByLine_of_long executeLine state status hne hlong)
        (not_fits_of_long executeLine state status hne hlong)
    have hlen : (firstLine input).length + 1 ≤ shellLineMax := Nat.not_lt.mp hlong
    have hwhole : (firstLine input).take (shellLineMax - 1) = firstLine input := List.take_of_length_le (by omega)
    rw [interactive_round executeLine state status hne, comesTo_round executeLine state status hne, hwhole]
    generalize executeLine state status (firstLine input) (behindLine input) = result
    obtain ⟨state', status', exits, shared⟩ := result
    cases exits with
    | true =>
      show input = input ∧ _ ∧ [] = [] ↔ _
      rw [goesOn, List.forall_mem_singleton, whole_iff_fits true shared hlen]
      simp
    | false =>
      show input = input ∧ _ ∧ LineByLine ((behindLine input).drop shared) _ ↔ _
      have hless : ((behindLine input).drop shared).length < size := by
        rw [List.length_drop, ← hsize]
        exact lt_of_le_of_lt (Nat.sub_le _ _) (length_behindLine hne)
      rw [goesOn, List.forall_mem_cons, whole_iff_fits false shared hlen, ih _ hless _ _ _ rfl]
      simp

end

/-! ### A line in pieces -/

theorem firstLine_of_newline {front : Bytes} (rest : Bytes) (hfront : newline ∉ front) :
    firstLine (front ++ newline :: rest) = front := by
  induction front with
  | nil => rw [List.nil_append, firstLine_cons, if_pos rfl]
  | cons c front ih =>
    rw [List.mem_cons, not_or] at hfront
    rw [List.cons_append, firstLine_cons, if_neg fun hc => hfront.1 hc.symm, ih hfront.2]

def letters : Bytes := List.replicate 4095 97

def exitWord : Bytes := [101, 120, 105, 116]

/-- A line of 4095 letters and the word `exit`. -/
def longLine : Bytes := letters ++ exitWord ++ [newline]

/-- What the shell does with the two pieces: the first is no command, and the second is `exit`. -/
def executePiece (_ : Unit) (status : ℤ) (line _ : Bytes) : Unit × ℤ × Bool × ℕ :=
  if line = exitWord then ((), status, true, 0) else ((), 127, false, 0)

theorem length_letters : letters.length = shellLineMax - 1 := List.length_replicate

theorem firstLine_longLine : firstLine longLine = letters ++ exitWord := by
  apply firstLine_of_newline
  rw [List.mem_append, not_or, letters, List.mem_replicate]
  exact ⟨fun h => absurd h.2 (by decide), by decide⟩

theorem behindLine_longLine : behindLine longLine = exitWord ++ [newline] := by
  have hlen : min ((firstLine longLine).length + 1) (shellLineMax - 1) = letters.length := by
    rw [firstLine_longLine, List.length_append, ← length_letters]
    omega
  rw [behindLine, hlen, longLine, List.append_assoc, List.drop_left]

/-- The end of the line is executed as a command of its own. -/
theorem long_line_executed_in_pieces :
    (interactive executePiece () 0 longLine).2.2.map Round.line = [letters, exitWord] ∧
      ¬ LineByLine longLine (interactive executePiece () 0 longLine).2.2 := by
  have hne : longLine ≠ [] := List.append_ne_nil_of_right_ne_nil _ (List.cons_ne_nil _ _)
  refine ⟨?_, not_lineByLine_of_long executePiece () 0 hne ?_⟩
  · have hword : letters ≠ exitWord := by
      intro heq
      have hlen := congrArg List.length heq
      rw [length_letters] at hlen
      exact absurd hlen (by decide)
    have hpiece : (firstLine longLine).take (shellLineMax - 1) = letters := by
      rw [firstLine_longLine, ← length_letters, List.take_left]
    have hmore : exitWord ++ [newline] ≠ [] := List.append_ne_nil_of_left_ne_nil (List.cons_ne_nil _ _) _
    have hsecond : (firstLine (exitWord ++ [newline])).take (shellLineMax - 1) = exitWord := by decide
    rw [interactive_round executePiece () 0 hne, hpiece, behindLine_longLine, executePiece, if_neg hword, goesOn,
      behindLine_longLine, List.drop_zero, interactive_round executePiece () 127 hmore, hsecond, executePiece, if_pos rfl]
    rfl
  · rw [firstLine_longLine, List.length_append, length_letters]
    decide

end Shell

end CannedBsd
