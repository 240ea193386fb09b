import CannedBsd.Abi
import Mathlib.Data.List.TakeWhile

/-!
# Command lines

`cb_libc_getopt` of `libc/cb_libc.c`. The scan is kept between the calls in two cursors of the task's
state, `optind` and `place`, and a pointer is an argument with an offset into it. Reading behind the end
of a string or of the vector is `none`. Whether `char` is signed is a parameter.

* `kindOf_eq`: the kind of an option as the code finds it.
* `getopt_parses`: from the state of a new task the calls go through every command line, and they end with
  `-1`.
-/

namespace CannedBsd

namespace Libc

/-! ### Memory -/

/-- A `char *` of the state: into the static string `""` or into an argument. -/
inductive Place
  | literal
  | argument (index offset : ℕ)
  deriving DecidableEq, Repr

/-- The byte of a string, with its terminator. -/
def stringAt (s : Bytes) (offset : ℕ) : Option UInt8 := (s ++ [0])[offset]?

/-- The byte a pointer points to. -/
def Place.fetch (argv : List Bytes) : Place → Option UInt8
  | .literal => some 0
  | .argument index offset => (argv[index]?).bind fun s => stringAt s offset

/-- The string a pointer points to. -/
def Place.text (argv : List Bytes) : Place → Bytes
  | .literal => []
  | .argument index offset => (argv[index]?.getD []).drop offset

def Place.next : Place → Place
  | .literal => .literal
  | .argument index offset => .argument index (offset + 1)

/-- `struct cb_getopt_state_v1`. -/
structure GetoptState where
  optind : ℕ
  opterr : Bool
  optopt : ℤ
  optarg : Option Place
  place : Place
  deriving DecidableEq, Repr

/-- The state of a new task. -/
def GetoptState.fresh : GetoptState := ⟨1, true, 0, none, .literal⟩

/-! ### The function -/

def dash : UInt8 := 45
def colon : UInt8 := 58
def questionMark : ℤ := 63

section

variable (signed : Bool)

/-- `(int)` of a `char`. -/
def intOfChar (c : UInt8) : ℤ := if signed = true ∧ 128 ≤ c.toNat then (c.toNat : ℤ) - 256 else c.toNat

/-- `strchr` for a byte that is not zero: the string from its first occurrence on. -/
def strchr (text : Bytes) (c : UInt8) : Option Bytes :=
  match text.dropWhile (· ≠ c) with
  | [] => none
  | found => some found

def illegalOption : Bytes := [58, 32, 105, 108, 108, 101, 103, 97, 108, 32, 111, 112, 116, 105, 111, 110, 32, 45, 45, 32]

def missingArgument : Bytes :=
  [58, 32, 111, 112, 116, 105, 111, 110, 32, 114, 101, 113, 117, 105, 114, 101, 115, 32, 97, 110, 32, 97, 114, 103, 117, 109,
    101, 110, 116, 32, 45, 45, 32]

/-- `optopt = *place++`, and `++optind` when that was the last character of the argument. -/
def GetoptState.advance (state : GetoptState) (optopt : ℤ) (behind : UInt8) : GetoptState :=
  let state := { state with optopt := optopt, place := state.place.next }
  if behind = 0 then { state with optind := state.optind + 1 } else state

variable (argv : List Bytes) (optstring : Bytes)

/-- What is written to descriptor 2, unless the messages are off. -/
def getoptDiagnostic (state : GetoptState) (c : UInt8) (message : Bytes) : Option (List Bytes) :=
  if state.opterr = true ∧ optstring.head? ≠ some colon then (argv[0]?).map fun program => [program, message, [c], [10]]
  else some []

/-- The part of `cb_libc_getopt` behind the search for a cluster: the state, the result, and the writes. -/
def takeOption (state : GetoptState) : Option (GetoptState × ℤ × List Bytes) := do
  let c ← state.place.fetch argv
  let behind ← state.place.next.fetch argv
  let state := state.advance (intOfChar signed c) behind
  if c = colon ∨ strchr optstring c = none then
    let writes ← getoptDiagnostic argv optstring state c illegalOption
    some (state, questionMark, writes)
  else if ((strchr optstring c).getD [])[1]? = some colon then
    if behind ≠ 0 then
      some ({ state with optarg := some state.place, optind := state.optind + 1, place := .literal }, state.optopt, [])
    else if state.optind < argv.length then
      some ({ state with
        optarg := some (.argument state.optind 0), optind := state.optind + 1, place := .literal }, state.optopt, [])
    else
      let writes ← getoptDiagnostic argv optstring state c missingArgument
      some (state, if optstring.head? = some colon then colon.toNat else questionMark, writes)
  else some (state, state.optopt, [])

/-- Whether an argument that starts with `-` and then this byte is `--`. -/
def endsOptions (index : ℕ) (second : UInt8) : Option Bool :=
  if second = dash then ((Place.argument index 2).fetch argv).map (· == 0) else some false

/-- `cb_libc_getopt`; `argc` is the length of the vector. -/
def cbLibcGetopt (state : GetoptState) : Option (GetoptState × ℤ × List Bytes) := do
  let state := { state with optarg := none }
  if (← state.place.fetch argv) = 0 then
    if argv.length ≤ state.optind then some (state, -1, [])
    else if (← (Place.argument state.optind 0).fetch argv) ≠ dash then some (state, -1, [])
    else
      let second ← (Place.argument state.optind 1).fetch argv
      if second = 0 then some (state, -1, [])
      else
        if ← endsOptions argv state.optind second then some ({ state with optind := state.optind + 1 }, -1, [])
        else takeOption signed argv optstring { state with place := .argument state.optind 1 }
  else takeOption signed argv optstring state

/-- The calls up to the first `-1`, each with its result and the state behind it; `none` when a call reads
outside a string or there are more calls than the number. -/
def getoptCalls : ℕ → GetoptState → Option (List (ℤ × GetoptState))
  | 0, _ => none
  | n + 1, state => do
    let (state, result, _) ← cbLibcGetopt signed argv optstring state
    if result = -1 then some [(result, state)]
    else
      let later ← getoptCalls n state
      some ((result, state) :: later)

end

/-! ### The reference parse -/

inductive OptionKind
  | unknown
  | flag
  | argument
  deriving DecidableEq, Repr

/-- What the option string says about a character, by its first occurrence. -/
def kindOf (optstring : Bytes) (c : UInt8) : OptionKind :=
  if c = colon then .unknown
  else
    match optstring.dropWhile (· ≠ c) with
    | [] => .unknown
    | _ :: next :: _ => if next = colon then .argument else .flag
    | [_] => .flag

/-- What a missing argument is reported as. -/
def missing (optstring : Bytes) : ℤ := if optstring.head? = some colon then 58 else 63

/-- The options of a cluster in front of the argument `next`, and whether that argument is taken by the last
of them. -/
def referenceCluster (optstring : Bytes) (next : Option Bytes) : Bytes → List (ℤ × Option Bytes) × Bool
  | [] => ([], false)
  | c :: rest =>
    match kindOf optstring c with
    | .unknown => ((63, none) :: (referenceCluster optstring next rest).1, (referenceCluster optstring next rest).2)
    | .flag => ((c.toNat, none) :: (referenceCluster optstring next rest).1, (referenceCluster optstring next rest).2)
    | .argument =>
      if rest ≠ [] then ([(c.toNat, some rest)], false)
      else
        match next with
        | some argument => ([(c.toNat, some argument)], true)
        | none => ([(missing optstring, none)], false)

/-- The options of a list of arguments, and how many of the arguments are not operands; the first argument
may have been taken already. -/
def referenceParse (optstring : Bytes) : Bool → List Bytes → List (ℤ × Option Bytes) × ℕ
  | _, [] => ([], 0)
  | true, _ :: rest => ((referenceParse optstring false rest).1, (referenceParse optstring false rest).2 + 1)
  | false, argument :: rest =>
    if argument.head? ≠ some dash ∨ argument = [dash] then ([], 0)
    else if argument = [dash, dash] then ([], 1)
    else
      let cluster := referenceCluster optstring rest.head? argument.tail
      (cluster.1 ++ (referenceParse optstring cluster.2 rest).1, (referenceParse optstring cluster.2 rest).2 + 1)

/-! ### Pointers -/

section

variable {argv : List Bytes} {optstring : Bytes} {signed : Bool}

theorem stringAt_eq {s : Bytes} {offset : ℕ} (h : offset ≤ s.length) : stringAt s offset = some ((s.drop offset).headD 0) := by
  rw [stringAt, List.headD_eq_head?_getD, List.head?_drop]
  rcases Nat.lt_or_eq_of_le h with hlt | heq
  · rw [List.getElem?_append_left hlt, List.getElem?_eq_getElem hlt]
    rfl
  · rw [heq, List.getElem?_append_right le_rfl, Nat.sub_self, List.getElem?_eq_none (le_refl _)]
    rfl

/-- A pointer to a byte of an argument or behind its last one. -/
def Place.Valid (argv : List Bytes) (p : Place) : Prop :=
  ∃ index offset s, p = .argument index offset ∧ argv[index]? = some s ∧ offset ≤ s.length

theorem Place.fetch_eq {index offset : ℕ} {s : Bytes} (hs : argv[index]? = some s) (h : offset ≤ s.length) :
    (Place.argument index offset).fetch argv = some ((s.drop offset).headD 0) := by
  rw [fetch, hs]
  exact stringAt_eq h

theorem Place.text_eq {index offset : ℕ} {s : Bytes} (hs : argv[index]? = some s) :
    (Place.argument index offset).text argv = s.drop offset := by
  rw [text, hs]
  rfl

/-- The bytes of some arguments. -/
def byteCount (arguments : List Bytes) : ℕ := (arguments.map List.length).sum

/-- The state stands for the rest of a parse: the pairs still to be returned, the last `optind`, and the number of
bytes to be scanned. `place` is at the end of a string, or inside the argument that `optind` is the index of. -/
inductive StandsFor (argv : List Bytes) (optstring : Bytes) (state : GetoptState) : List (ℤ × Option Bytes) → ℕ → ℕ → Prop
  | between : state.place.fetch argv = some 0 → state.optind ≤ argv.length →
      StandsFor argv optstring state (referenceParse optstring false (argv.drop state.optind)).1
        (state.optind + (referenceParse optstring false (argv.drop state.optind)).2) (byteCount (argv.drop state.optind))
  | inside {offset : ℕ} {s : Bytes} : state.place = .argument state.optind offset → argv[state.optind]? = some s →
      offset < s.length →
      StandsFor argv optstring state
        ((referenceCluster optstring argv[state.optind + 1]? (s.drop offset)).1 ++
          (referenceParse optstring (referenceCluster optstring argv[state.optind + 1]? (s.drop offset)).2
            (argv.drop (state.optind + 1))).1)
        (state.optind + 1 + (referenceParse optstring (referenceCluster optstring argv[state.optind + 1]? (s.drop offset)).2
          (argv.drop (state.optind + 1))).2)
        ((s.drop offset).length + byteCount (argv.drop (state.optind + 1)))

theorem StandsFor.optind_le {state : GetoptState} {pairs : List (ℤ × Option Bytes)} {final bytes : ℕ}
    (h : StandsFor argv optstring state pairs final bytes) : state.optind ≤ argv.length := by
  cases h with
  | between _ hle => exact hle
  | inside _ hs _ => exact le_of_lt (List.getElem?_eq_some_iff.mp hs).1

theorem StandsFor.resting {state : GetoptState} {n : ℕ} (hfetch : state.place.fetch argv = some 0) (hoptind : state.optind = n)
    (hle : n ≤ argv.length) :
    StandsFor argv optstring state (referenceParse optstring false (argv.drop n)).1
      (n + (referenceParse optstring false (argv.drop n)).2) (byteCount (argv.drop n)) := by
  subst hoptind
  exact .between hfetch hle

/-- What a call that returns an option does: it returns the first pair, and the state stands for the others. -/
structure ReturnsFirst (argv : List Bytes) (optstring : Bytes) (state' : GetoptState) (result : ℤ)
    (pairs : List (ℤ × Option Bytes)) (final bytes : ℕ) : Prop where
  found : result ≠ -1
  stands : ∃ pairs' bytes', pairs = (result, state'.optarg.map (Place.text argv)) :: pairs' ∧
    StandsFor argv optstring state' pairs' final bytes' ∧ bytes' < bytes
  valid : ∀ p, state'.optarg = some p → p.Valid argv

/-! ### One option -/

/-- The kind of an option as the code finds it. -/
theorem kindOf_eq (c : UInt8) : kindOf optstring c =
    if c = colon ∨ strchr optstring c = none then .unknown
    else if ((strchr optstring c).getD [])[1]? = some colon then .argument else .flag := by
  rw [kindOf, strchr]
  by_cases hc : c = colon
  · rw [if_pos hc, if_pos (Or.inl hc)]
  rw [if_neg hc]
  cases hfound : optstring.dropWhile (· ≠ c) with
  | nil => simp
  | cons x rest =>
    cases rest with
    | nil => simp [hc]
    | cons next rest => simp [hc]

section Cluster

variable {next : Option Bytes} {c : UInt8} {rest : Bytes}

theorem referenceCluster_unknown (h : kindOf optstring c = .unknown) : referenceCluster optstring next (c :: rest) =
    ((63, none) :: (referenceCluster optstring next rest).1, (referenceCluster optstring next rest).2) := by
  simp only [referenceCluster, h]

theorem referenceCluster_flag (h : kindOf optstring c = .flag) : referenceCluster optstring next (c :: rest) =
    (((c.toNat : ℤ), none) :: (referenceCluster optstring next rest).1, (referenceCluster optstring next rest).2) := by
  simp only [referenceCluster, h]

theorem referenceCluster_attached (h : kindOf optstring c = .argument) (hrest : rest ≠ []) :
    referenceCluster optstring next (c :: rest) = ([((c.toNat : ℤ), some rest)], false) := by
  simp only [referenceCluster, h, if_pos hrest]

theorem referenceCluster_next {argument : Bytes} (h : kindOf optstring c = .argument) :
    referenceCluster optstring (some argument) [c] = ([((c.toNat : ℤ), some argument)], true) := by
  simp only [referenceCluster, h, if_neg (not_not.mpr rfl)]

theorem referenceCluster_missing (h : kindOf optstring c = .argument) :
    referenceCluster optstring none [c] = ([(missing optstring, none)], false) := by
  simp only [referenceCluster, h, if_neg (not_not.mpr rfl)]

end Cluster

/-- An option of the option string is its own result. -/
theorem intOfChar_known {c : UInt8} (hopt : ∀ c ∈ optstring, 1 ≤ c.toNat ∧ c.toNat ≤ 127) (h : strchr optstring c ≠ none) :
    intOfChar signed c = c.toNat := by
  have hmem : c ∈ optstring := by
    by_contra hno
    apply h
    rw [strchr, List.dropWhile_eq_nil_iff.mpr]
    intro x hx
    exact decide_eq_true fun heq => hno (heq ▸ hx)
  have hle := (hopt c hmem).2
  rw [intOfChar, if_neg fun hbig => by omega]

theorem headD_eq_zero {rest : Bytes} (h : (0 : UInt8) ∉ rest) : rest.headD 0 = 0 ↔ rest = [] := by
  cases rest with
  | nil => exact iff_of_true rfl rfl
  | cons c rest => exact iff_of_false (fun heq => h (heq ▸ List.mem_cons_self ..)) (List.cons_ne_nil c rest)

/-- Stepping over a character leaves the rest of the cluster. -/
theorem advance_standsFor {state : GetoptState} {offset : ℕ} {s rest : Bytes} {c : UInt8}
    (hplace : state.place = .argument state.optind offset) (hs : argv[state.optind]? = some s)
    (hdrop : s.drop offset = c :: rest) (hzero : (0 : UInt8) ∉ rest) (optopt : ℤ) :
    StandsFor argv optstring (state.advance optopt (rest.headD 0))
      ((referenceCluster optstring argv[state.optind + 1]? rest).1 ++
        (referenceParse optstring (referenceCluster optstring argv[state.optind + 1]? rest).2 (argv.drop (state.optind + 1))).1)
      (state.optind + 1 + (referenceParse optstring (referenceCluster optstring argv[state.optind + 1]? rest).2
        (argv.drop (state.optind + 1))).2)
      (rest.length + byteCount (argv.drop (state.optind + 1))) := by
  have hindex : state.optind < argv.length := (List.getElem?_eq_some_iff.mp hs).1
  have hrest : s.drop (offset + 1) = rest := by
    rw [← List.drop_drop, hdrop]
    rfl
  have hlength : (s.drop offset).length = rest.length + 1 := by rw [hdrop, List.length_cons]
  rw [List.length_drop] at hlength
  have hnext : state.place.next = .argument state.optind (offset + 1) := by
    rw [hplace]
    rfl
  by_cases hend : rest = []
  · subst hend
    have hstands := @StandsFor.between argv optstring (state.advance optopt 0) ?_ hindex
    · simpa [referenceCluster, GetoptState.advance] using hstands
    · show state.place.next.fetch argv = some 0
      rw [hnext, Place.fetch_eq hs (by omega), hrest]
      rfl
  · have hstate : state.advance optopt (rest.headD 0) = { state with optopt := optopt, place := state.place.next } :=
      if_neg fun heq => hend ((headD_eq_zero hzero).mp heq)
    have hpos := List.length_pos_iff.mpr hend
    rw [hstate, ← hrest]
    exact .inside hnext hs (by omega)

theorem takeOption_returns (hargv : ∀ s ∈ argv, (0 : UInt8) ∉ s) (hopt : ∀ c ∈ optstring, 1 ≤ c.toNat ∧ c.toNat ≤ 127)
    {state : GetoptState} {offset : ℕ} {s : Bytes} (hplace : state.place = .argument state.optind offset)
    (hs : argv[state.optind]? = some s) (hoffset : offset < s.length) (hnone : state.optarg = none) :
    ∃ state' result writes, takeOption signed argv optstring state = some (state', result, writes) ∧
      ReturnsFirst argv optstring state' result
        ((referenceCluster optstring argv[state.optind + 1]? (s.drop offset)).1 ++
          (referenceParse optstring (referenceCluster optstring argv[state.optind + 1]? (s.drop offset)).2
            (argv.drop (state.optind + 1))).1)
        (state.optind + 1 + (referenceParse optstring (referenceCluster optstring argv[state.optind + 1]? (s.drop offset)).2
          (argv.drop (state.optind + 1))).2)
        ((s.drop offset).length + byteCount (argv.drop (state.optind + 1))) := by
  have hindex : state.optind < argv.length := (List.getElem?_eq_some_iff.mp hs).1
  obtain ⟨program, hprogram⟩ : ∃ program, argv[0]? = some program := ⟨_, List.getElem?_eq_getElem (by omega)⟩
  -- the messages can be written
  have hwrites : ∀ (u : GetoptState) (c : UInt8) (message : Bytes), ∃ writes,
      getoptDiagnostic argv optstring u c message = some writes := by
    intro u c message
    rw [getoptDiagnostic, hprogram]
    split
    · exact ⟨_, rfl⟩
    · exact ⟨_, rfl⟩
  obtain ⟨c, rest, hdrop⟩ : ∃ c rest, s.drop offset = c :: rest :=
    List.exists_cons_of_ne_nil fun hnil => by
      have := List.drop_eq_nil_iff.mp hnil
      omega
  have hzero : (0 : UInt8) ∉ rest := by
    intro hmem
    have hin : (0 : UInt8) ∈ s.drop offset := by
      rw [hdrop]
      exact List.mem_cons_of_mem c hmem
    exact hargv s (List.mem_of_getElem? hs) (List.mem_of_mem_drop hin)
  have hfetch : state.place.fetch argv = some c := by
    rw [hplace, Place.fetch_eq hs (le_of_lt hoffset), hdrop]
    rfl
  have hrest : s.drop (offset + 1) = rest := by
    rw [← List.drop_drop, hdrop]
    rfl
  have hbehind : state.place.next.fetch argv = some (rest.headD 0) := by
    rw [hplace]
    show (Place.argument state.optind (offset + 1)).fetch argv = _
    rw [Place.fetch_eq hs hoffset, hrest]
  have hadvance := @advance_standsFor argv optstring state offset s rest c hplace hs hdrop hzero (intOfChar signed c)
  have hkind := @kindOf_eq optstring c
  -- a character that takes no argument: the state stands for the rest of the cluster
  have hplain : ∀ {result : ℤ}, result ≠ -1 →
      referenceCluster optstring argv[state.optind + 1]? (c :: rest) =
        ((result, none) :: (referenceCluster optstring argv[state.optind + 1]? rest).1,
          (referenceCluster optstring argv[state.optind + 1]? rest).2) →
      ReturnsFirst argv optstring (state.advance (intOfChar signed c) (rest.headD 0)) result
        ((referenceCluster optstring argv[state.optind + 1]? (c :: rest)).1 ++
          (referenceParse optstring (referenceCluster optstring argv[state.optind + 1]? (c :: rest)).2
            (argv.drop (state.optind + 1))).1)
        (state.optind + 1 + (referenceParse optstring (referenceCluster optstring argv[state.optind + 1]? (c :: rest)).2
          (argv.drop (state.optind + 1))).2)
        ((c :: rest).length + byteCount (argv.drop (state.optind + 1))) := by
    intro result hfound hcluster
    have hoptarg : (state.advance (intOfChar signed c) (rest.headD 0)).optarg = none := by
      rw [GetoptState.advance]
      dsimp only
      split
      · exact hnone
      · exact hnone
    rw [hcluster]
    refine ⟨hfound, ⟨_, _, ?_, hadvance, ?_⟩, ?_⟩
    · rw [hoptarg]
      rfl
    · rw [List.length_cons]
      omega
    · intro p hp
      rw [hoptarg] at hp
      cases hp
  rw [takeOption, hfetch, Option.bind_eq_bind, Option.bind_some, hbehind, Option.bind_eq_bind, Option.bind_some, hdrop]
  dsimp only
  by_cases hunknown : c = colon ∨ strchr optstring c = none
  · -- an unknown character
    rw [if_pos hunknown] at hkind ⊢
    obtain ⟨writes, hw⟩ := hwrites (state.advance (intOfChar signed c) (rest.headD 0)) c illegalOption
    rw [hw]
    exact ⟨_, _, _, rfl, hplain (by decide) (referenceCluster_unknown hkind)⟩
  rw [if_neg hunknown] at hkind ⊢
  have hresult : intOfChar signed c = c.toNat := intOfChar_known hopt (not_or.mp hunknown).2
  have hoptopt : (state.advance (intOfChar signed c) (rest.headD 0)).optopt = c.toNat := by
    rw [← hresult, GetoptState.advance]
    dsimp only
    split <;> rfl
  have hfound : (c.toNat : ℤ) ≠ -1 := by omega
  by_cases hargument : ((strchr optstring c).getD [])[1]? = some colon
  · rw [if_pos hargument] at hkind ⊢
    rw [hoptopt]
    by_cases hend : rest = []
    · have hbare : ¬ rest.headD 0 ≠ 0 := not_not.mpr ((headD_eq_zero hzero).mpr hend)
      have hoptind : (state.advance (intOfChar signed c) (rest.headD 0)).optind = state.optind + 1 := by
        rw [hend]
        rfl
      rw [if_neg hbare, hoptind, hend]
      by_cases hmore : state.optind + 1 < argv.length
      · -- the next argument
        obtain ⟨argument, hnext⟩ : ∃ argument, argv[state.optind + 1]? = some argument :=
          ⟨_, List.getElem?_eq_getElem hmore⟩
        have hlist : argv.drop (state.optind + 1) = argument :: argv.drop (state.optind + 2) := by
          rw [List.drop_eq_getElem_cons hmore, (List.getElem?_eq_some_iff.mp hnext).2]
        have hparse : referenceParse optstring true (argument :: argv.drop (state.optind + 2)) =
            ((referenceParse optstring false (argv.drop (state.optind + 2))).1,
              (referenceParse optstring false (argv.drop (state.optind + 2))).2 + 1) := rfl
        have hfinal : state.optind + 1 + ((referenceParse optstring false (argv.drop (state.optind + 2))).2 + 1) =
            state.optind + 2 + (referenceParse optstring false (argv.drop (state.optind + 2))).2 := by omega
        rw [if_pos hmore, hnext, referenceCluster_next hkind, hlist, hparse]
        dsimp only
        rw [hfinal]
        refine ⟨_, _, _, rfl, hfound, ⟨_, _, ?_, .resting (n := state.optind + 2) rfl rfl hmore, ?_⟩, ?_⟩
        · rw [Option.map_some, Place.text_eq hnext]
          rfl
        · simp only [byteCount, List.map_cons, List.sum_cons, List.length_singleton]
          omega
        · intro p hp
          cases hp
          exact ⟨_, _, _, rfl, hnext, Nat.zero_le _⟩
      · -- the argument is missing
        have hnext : argv[state.optind + 1]? = none := List.getElem?_eq_none (not_lt.mp hmore)
        obtain ⟨writes, hw⟩ := hwrites (state.advance (intOfChar signed c) (List.headD [] 0)) c missingArgument
        have hreported : (if optstring.head? = some colon then (colon.toNat : ℤ) else questionMark) = missing optstring := rfl
        have hmissing : missing optstring ≠ -1 := by
          rw [missing]
          split <;> decide
        rw [if_neg hmore, hw, hreported, ← hend]
        refine ⟨_, _, _, rfl, hplain hmissing ?_⟩
        rw [hend, hnext, referenceCluster_missing hkind]
        rfl
    · -- the rest of the cluster
      have hkept : state.advance (intOfChar signed c) (rest.headD 0) =
          { state with optopt := intOfChar signed c, place := state.place.next } :=
        if_neg fun heq => hend ((headD_eq_zero hzero).mp heq)
      rw [if_pos fun heq => hend ((headD_eq_zero hzero).mp heq), referenceCluster_attached hkind hend, hkept]
      refine ⟨_, _, _, rfl, hfound, ⟨_, _, ?_, .resting (n := state.optind + 1) rfl rfl hindex, ?_⟩, ?_⟩
      · rw [Option.map_some, hplace]
        show _ = (_, some ((Place.argument state.optind (offset + 1)).text argv)) :: _
        rw [Place.text_eq hs, hrest]
        rfl
      · rw [List.length_cons]
        omega
      · intro p hp
        cases hp
        refine ⟨state.optind, offset + 1, s, ?_, hs, hoffset⟩
        rw [hplace]
        rfl
  · -- a flag
    rw [if_neg hargument] at hkind ⊢
    rw [hoptopt]
    exact ⟨_, _, _, rfl, hplain hfound (referenceCluster_flag hkind)⟩

/-! ### One call -/

theorem ReturnsFirst.mono {state' : GetoptState} {result : ℤ} {pairs : List (ℤ × Option Bytes)} {final bytes bytes' : ℕ}
    (h : ReturnsFirst argv optstring state' result pairs final bytes) (hle : bytes ≤ bytes') :
    ReturnsFirst argv optstring state' result pairs final bytes' := by
  obtain ⟨hfound, ⟨pairs', left, hpairs, hstands, hlt⟩, hvalid⟩ := h
  exact ⟨hfound, ⟨pairs', left, hpairs, hstands, by omega⟩, hvalid⟩

/-- The last call: it returns `-1` and leaves `optind` at the first operand. -/
structure Finishes (argv : List Bytes) (state' : GetoptState) (pairs : List (ℤ × Option Bytes)) (final : ℕ) : Prop where
  nothing : pairs = []
  optind : state'.optind = final
  optarg : state'.optarg = none
  within : final ≤ argv.length

theorem headD_eq_dash {s : Bytes} : s.headD 0 = dash ↔ s.head? = some dash := by
  cases s with
  | nil => exact iff_of_false (by decide) (by decide)
  | cons c rest =>
    rw [List.headD_cons, List.head?_cons, Option.some.injEq]

theorem cbLibcGetopt_standsFor (hargv : ∀ s ∈ argv, (0 : UInt8) ∉ s) (hopt : ∀ c ∈ optstring, 1 ≤ c.toNat ∧ c.toNat ≤ 127)
    {state : GetoptState} {pairs : List (ℤ × Option Bytes)} {final bytes : ℕ}
    (h : StandsFor argv optstring state pairs final bytes) :
    ∃ state' result writes, cbLibcGetopt signed argv optstring state = some (state', result, writes) ∧
      ((result = -1 ∧ Finishes argv state' pairs final) ∨ ReturnsFirst argv optstring state' result pairs final bytes) := by
  rw [cbLibcGetopt]
  dsimp only
  cases h with
  | between hfetch hle =>
    rw [hfetch, Option.bind_eq_bind, Option.bind_some, if_pos rfl]
    by_cases hmore : argv.length ≤ state.optind
    · -- no argument is left
      have hnil : argv.drop state.optind = [] := List.drop_eq_nil_iff.mpr hmore
      rw [if_pos hmore, hnil]
      exact ⟨_, _, _, rfl, .inl ⟨rfl, rfl, rfl, rfl, hle⟩⟩
    have hindex : state.optind < argv.length := not_le.mp hmore
    obtain ⟨s, hs⟩ : ∃ s, argv[state.optind]? = some s := ⟨_, List.getElem?_eq_getElem hindex⟩
    have hlist : argv.drop state.optind = s :: argv.drop (state.optind + 1) := by
      rw [List.drop_eq_getElem_cons hindex, (List.getElem?_eq_some_iff.mp hs).2]
    have hzero : (0 : UInt8) ∉ s := hargv s (List.mem_of_getElem? hs)
    rw [if_neg hmore, Place.fetch_eq hs (Nat.zero_le _), List.drop_zero, Option.bind_some, hlist, referenceParse]
    by_cases hdash : s.headD 0 = dash
    · rw [if_neg (not_not.mpr hdash)]
      obtain ⟨cluster, hcluster⟩ : ∃ cluster, s = dash :: cluster := List.head?_eq_some_iff.mp (headD_eq_dash.mp hdash)
      have hzero' : (0 : UInt8) ∉ cluster := fun hmem => hzero (hcluster ▸ List.mem_cons_of_mem dash hmem)
      have hlength : s.length = cluster.length + 1 := by rw [hcluster, List.length_cons]
      have hsecond : s.drop 1 = cluster := by
        rw [hcluster]
        rfl
      rw [Place.fetch_eq hs (by omega), hsecond, Option.bind_some]
      by_cases halone : cluster = []
      · -- `-` alone is an operand
        have hoperand : s.head? ≠ some dash ∨ s = [dash] := .inr (by rw [hcluster, halone])
        rw [if_pos ((headD_eq_zero hzero').mpr halone), if_pos hoperand]
        exact ⟨_, _, _, rfl, .inl ⟨rfl, rfl, rfl, rfl, hle⟩⟩
      have hcluster' : ¬ (s.head? ≠ some dash ∨ s = [dash]) := by
        rintro (hno | hno)
        · exact hno (headD_eq_dash.mp hdash)
        · exact halone (List.cons.inj (hcluster.symm.trans hno)).2
      rw [if_neg fun heq => halone ((headD_eq_zero hzero').mp heq), if_neg hcluster']
      -- whether the argument is `--`
      have hends : endsOptions argv state.optind (cluster.headD 0) = some (decide (s = [dash, dash])) := by
        rw [endsOptions]
        by_cases hdash' : cluster.headD 0 = dash
        · obtain ⟨rest, hrest⟩ := List.head?_eq_some_iff.mp (headD_eq_dash.mp hdash')
          have hzero'' : (0 : UInt8) ∉ rest := fun hmem => hzero' (hrest ▸ List.mem_cons_of_mem dash hmem)
          have hthird : s.drop 2 = rest := by
            rw [hcluster, hrest]
            rfl
          have hlong : 2 ≤ s.length := by
            rw [hcluster, hrest, List.length_cons, List.length_cons]
            omega
          rw [if_pos hdash', Place.fetch_eq hs hlong, hthird, Option.map_some, hcluster, hrest]
          congr 1
          rw [beq_eq_decide]
          refine decide_eq_decide.mpr ?_
          rw [headD_eq_zero hzero'', List.cons.injEq, List.cons.injEq]
          exact ⟨fun h => ⟨rfl, rfl, h⟩, fun h => h.2.2⟩
        · rw [if_neg hdash']
          congr 1
          refine (decide_eq_false fun heq => hdash' ?_).symm
          rw [hcluster, List.cons.injEq] at heq
          rw [heq.2]
          rfl
      rw [hends, Option.bind_eq_bind, Option.bind_some]
      by_cases hdouble : s = [dash, dash]
      · rw [if_pos (decide_eq_true hdouble), if_pos hdouble]
        exact ⟨_, _, _, rfl, .inl ⟨rfl, rfl, rfl, rfl, hindex⟩⟩
      · rw [if_neg (by rw [decide_eq_true_eq]; exact hdouble), if_neg hdouble]
        have hpositive : 1 < s.length := by
          have := List.length_pos_iff.mpr halone
          omega
        obtain ⟨state', result, writes, hcall, hreturns⟩ := @takeOption_returns argv optstring signed hargv hopt
          { state with optarg := none, place := .argument state.optind 1 } 1 s rfl hs hpositive rfl
        have htail : s.tail = s.drop 1 := List.drop_one.symm
        refine ⟨state', result, writes, hcall, .inr ?_⟩
        dsimp only
        rw [List.head?_drop, htail, ← Nat.add_assoc, Nat.add_right_comm]
        refine hreturns.mono ?_
        simp only [byteCount, List.map_cons, List.sum_cons, List.length_drop]
        omega
    · -- an operand
      have hoperand : s.head? ≠ some dash ∨ s = [dash] := .inl fun heq => hdash (headD_eq_dash.mpr heq)
      rw [if_pos hdash, if_pos hoperand]
      exact ⟨_, _, _, rfl, .inl ⟨rfl, rfl, rfl, rfl, hle⟩⟩
  | @inside offset s hplace hs hoffset =>
    have hfetch : state.place.fetch argv = some ((s.drop offset).headD 0) := by
      rw [hplace]
      exact Place.fetch_eq hs (le_of_lt hoffset)
    have hchar : (s.drop offset).headD 0 ≠ 0 := by
      intro heq
      have hzero : (0 : UInt8) ∉ s.drop offset := fun hmem =>
        hargv s (List.mem_of_getElem? hs) (List.mem_of_mem_drop hmem)
      have hnil := List.drop_eq_nil_iff.mp ((headD_eq_zero hzero).mp heq)
      omega
    rw [hfetch, Option.bind_eq_bind, Option.bind_some, if_neg hchar]
    obtain ⟨state', result, writes, hcall, hreturns⟩ :=
      @takeOption_returns argv optstring signed hargv hopt { state with optarg := none } offset s hplace hs hoffset rfl
    exact ⟨state', result, writes, hcall, .inr hreturns⟩

/-! ### The whole command line -/

theorem getoptCalls_standsFor (hargv : ∀ s ∈ argv, (0 : UInt8) ∉ s) (hopt : ∀ c ∈ optstring, 1 ≤ c.toNat ∧ c.toNat ≤ 127) :
    ∀ (n : ℕ) {state : GetoptState} {pairs : List (ℤ × Option Bytes)} {final bytes : ℕ},
      StandsFor argv optstring state pairs final bytes → bytes < n →
      ∃ calls last, getoptCalls signed argv optstring n state = some (calls ++ [(-1, last)]) ∧ calls.length ≤ bytes ∧
        (∀ call ∈ calls, call.1 ≠ -1) ∧ calls.map (fun call => (call.1, call.2.optarg.map (Place.text argv))) = pairs ∧
        last.optind = final ∧ ∀ call ∈ calls ++ [(-1, last)], call.2.optind ≤ argv.length ∧
          ∀ p, call.2.optarg = some p → p.Valid argv := by
  intro n
  induction n with
  | zero =>
    intro state pairs final bytes h hlt
    exact absurd hlt (Nat.not_lt_zero _)
  | succ n ih =>
    intro state pairs final bytes h hlt
    obtain ⟨state', result, writes, hcall, ⟨rfl, hfinish⟩ | hreturns⟩ := @cbLibcGetopt_standsFor argv optstring signed hargv hopt
      state pairs final bytes h
    · refine ⟨[], state', ?_, Nat.zero_le _, fun call hmem => absurd hmem List.not_mem_nil, hfinish.nothing.symm,
        hfinish.optind, fun call hmem => ?_⟩
      · rw [getoptCalls, hcall]
        rfl
      · rw [List.mem_singleton.mp hmem]
        refine ⟨?_, fun p hp => ?_⟩
        · show state'.optind ≤ _
          rw [hfinish.optind]
          exact hfinish.within
        · have hp' : state'.optarg = some p := hp
          rw [hfinish.optarg] at hp'
          cases hp'
    · obtain ⟨hfound, ⟨pairs', bytes', rfl, hstands, hless⟩, hvalid⟩ := hreturns
      obtain ⟨calls, last, hcalls, hlength, hnone, hpairs, hlast, hall⟩ := ih hstands (by omega)
      refine ⟨(result, state') :: calls, last, ?_, ?_, ?_, ?_, hlast, ?_⟩
      · rw [getoptCalls, hcall, Option.bind_eq_bind, Option.bind_some]
        dsimp only
        rw [if_neg hfound, hcalls]
        rfl
      · rw [List.length_cons]
        omega
      · exact List.forall_mem_cons.mpr ⟨hfound, hnone⟩
      · rw [List.map_cons, hpairs]
      · exact List.forall_mem_cons.mpr ⟨⟨hstands.optind_le, hvalid⟩, hall⟩

/-- **`getopt` parses every command line.**  From the state of a new task the calls end with `-1` after at
most as many options as the arguments have bytes; the results and the arguments of the options, and the last
`optind`, are those of the reference parse, and on the way `optind` never exceeds `argc` and `optarg` points
into an argument. -/
theorem getopt_parses (hargc : 1 ≤ argv.length) (hargv : ∀ s ∈ argv, (0 : UInt8) ∉ s)
    (hopt : ∀ c ∈ optstring, 1 ≤ c.toNat ∧ c.toNat ≤ 127) (signed : Bool) :
    ∃ calls last, getoptCalls signed argv optstring (byteCount argv + 1) .fresh = some (calls ++ [(-1, last)]) ∧
      calls.length ≤ byteCount argv ∧ (∀ call ∈ calls, call.1 ≠ -1) ∧
      calls.map (fun call => (call.1, call.2.optarg.map (Place.text argv))) = (referenceParse optstring false argv.tail).1 ∧
      last.optind = 1 + (referenceParse optstring false argv.tail).2 ∧
      ∀ call ∈ calls ++ [(-1, last)], call.2.optind ≤ argv.length ∧ ∀ p, call.2.optarg = some p → p.Valid argv := by
  have hstands := @StandsFor.between argv optstring .fresh rfl hargc
  have hdrop : argv.drop GetoptState.fresh.optind = argv.tail := List.drop_one
  rw [hdrop] at hstands
  have hcount : byteCount argv.tail ≤ byteCount argv := by
    cases argv with
    | nil => exact le_rfl
    | cons s rest =>
      simp only [byteCount, List.tail_cons, List.map_cons, List.sum_cons]
      omega
  obtain ⟨calls, last, hcalls, hlength, hrest⟩ := @getoptCalls_standsFor argv optstring signed hargv hopt (byteCount argv + 1)
    _ _ _ _ hstands (by omega)
  exact ⟨calls, last, hcalls, hlength.trans hcount, hrest⟩

/-- `ls -lo f x` with the option string `lo:`. -/
theorem getopt_parses_list :
    ∃ calls last, getoptCalls true [[108, 115], [45, 108, 111], [102], [120]] [108, 111, 58] 8 .fresh =
        some (calls ++ [(-1, last)]) ∧
      calls.map (fun call => (call.1, call.2.optarg.map (Place.text [[108, 115], [45, 108, 111], [102], [120]]))) =
        [(108, none), (111, some [102])] ∧ last.optind = 3 := by
  obtain ⟨calls, last, hcalls, -, -, hpairs, hlast, -⟩ := @getopt_parses [[108, 115], [45, 108, 111], [102], [120]]
    [108, 111, 58] (by decide) (by simp) (by simp) true
  exact ⟨calls, last, hcalls, hpairs, hlast⟩

end

end Libc

end CannedBsd
