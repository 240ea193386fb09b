import CannedBsd.Libc.Traversal

/-!
# Whole walks

A program walks a tree with `fts_read`, may tell it after any directory not to descend, and may close the
walk at any point. What it is told is nested, the open directories are those it has entered and not left,
and at the end everything is given back.

* `turn_bracketed`: a turn keeps what the walk owns, and its report stays nested.
* `cbLibcFtsClose_desk`: `fts_close` gives back everything.
* `fts_walk_bracketed`: both for every list of roots and every sequence of turns, with a host that refuses
  memory at any point.
-/

namespace CannedBsd

open CannedBsd.Lib

variable {hosts : Machine → Host} {t : TaskId} {base : Kernel} {m : Machine} {fts : Fts} {roots : List Bytes}

/-! ### Closing -/

theorem Desk.closeFrames {blocks : List ℕ} (frames : List FtsFrame) : ∀ {m : Machine} {dirs : List OpenDir},
    Desk t base m (frames.flatMap FtsFrame.blocks ++ blocks) dirs → List.Forall₂ (Serves t base) frames dirs →
    Desk t base (closeFrames hosts t frames m) blocks [] := by
  induction frames with
  | nil =>
    intro m dirs h hserve
    cases hserve
    exact h
  | cons f frames ih =>
    intro m dirs h hserve
    obtain ⟨o, dirs, hs, hrest, rfl⟩ := List.forall₂_cons_left_iff.mp hserve
    rw [List.flatMap_cons, List.append_assoc] at h
    rw [CannedBsd.closeFrames]
    exact ih (h.closeFrame hs) hrest

/-- `fts_close` gives back everything. -/
theorem cbLibcFtsClose_desk (h : Owns t base m fts) : Desk t base (cbLibcFtsClose hosts t fts m) [] [] := by
  obtain ⟨dirs, hdesk, hserve⟩ := h
  have hrev : Desk t base m
      (fts.stack.reverse.flatMap FtsFrame.blocks ++ (pendingBlocks fts.pendingFree ++ [fts.pointer])) dirs.reverse := by
    refine hdesk.perm ?_ (List.reverse_perm dirs).symm
    rw [Fts.blocks]
    have hblocks : (fts.stack.flatMap FtsFrame.blocks).Perm (fts.stack.reverse.flatMap FtsFrame.blocks) :=
      (List.reverse_perm fts.stack).symm.flatMap_right _
    calc
      pendingBlocks fts.pendingFree ++ fts.stack.flatMap FtsFrame.blocks ++ [fts.pointer]
      _ |>.Perm (fts.stack.flatMap FtsFrame.blocks ++ pendingBlocks fts.pendingFree ++ [fts.pointer]) :=
        List.perm_append_comm.append_right _
      _ |>.Perm (fts.stack.reverse.flatMap FtsFrame.blocks ++ (pendingBlocks fts.pendingFree ++ [fts.pointer])) := by
        rw [List.append_assoc]
        exact hblocks.append_right _
  have hclosed : Desk t base (closeFrames hosts t fts.stack.reverse m) (pendingBlocks fts.pendingFree ++ [fts.pointer]) [] :=
    hrev.closeFrames _ (List.rel_reverse hserve)
  exact hclosed.freePending.free

/-! ### Skipping -/

theorem Desk.nodup {blocks : List ℕ} {dirs : List OpenDir} (h : Desk t base m blocks dirs) : blocks.Nodup := by
  have hledger := h.work.books.owned.once t
  exact (List.nodup_append.mp (h.ledger.nodup_iff.mp hledger)).1

/-- The entry of the innermost frame is that of no other frame. -/
theorem skipFrame_top {f : FtsFrame} {frames : List FtsFrame} (h : Owns t base m fts) (hstack : fts.stack = f :: frames) :
    skipFrame f.entry.pointer fts.stack = { f with skip := true } :: frames := by
  obtain ⟨dirs, hdesk, -⟩ := h
  have hnodup := hdesk.nodup
  rw [Fts.blocks, hstack, List.flatMap_cons, List.append_assoc] at hnodup
  have hframes := (List.nodup_append.mp (List.nodup_append.mp (List.nodup_append.mp hnodup).2.1).1).2.2
  rw [hstack, skipFrame, if_neg, if_pos rfl]
  rw [List.any_eq_true]
  rintro ⟨g, hg, heq⟩
  have hmem : g.entry.pointer ∈ frames.flatMap FtsFrame.blocks :=
    List.mem_flatMap.mpr ⟨g, hg, by simp [FtsFrame.blocks, FtsEnt.blocks]⟩
  refine hframes f.entry.pointer (by simp [FtsFrame.blocks, FtsEnt.blocks]) g.entry.pointer hmem ?_
  exact (of_decide_eq_true heq).symm

/-! ### Turns -/

/-- What an entry reports. -/
def FtsEnt.visit (e : FtsEnt) : Visit (Bytes × ℕ) :=
  match e.info with
  | .d => .enter e.place
  | .dp => .leave e.place
  | _ => .leaf e.place

/-- The program reads an entry and, if it wants to pass over it and it is a directory that was entered,
calls `fts_set`. -/
def turn (hosts : Machine → Host) (t : TaskId) (sizes : Sizes) (skip : Bool) (fts : Fts) (m : Machine) :
    Machine × Fts × Option (Visit (Bytes × ℕ)) :=
  match cbLibcFtsRead hosts t sizes fts m with
  | (m, fts, none) => (m, fts, none)
  | (m, fts, some e) =>
    if skip = true ∧ e.info = .d then
      let (m, fts, _) := cbLibcFtsSet hosts t fts e ftsSkip m
      (m, fts, some (.skipped e.place))
    else (m, fts, some e.visit)

def takeTurns (hosts : Machine → Host) (t : TaskId) (sizes : Sizes) : List Bool → Fts → Machine →
    Machine × Fts × List (Option (Visit (Bytes × ℕ)))
  | [], fts, m => (m, fts, [])
  | skip :: rest, fts, m =>
    let (m, fts, v) := turn hosts t sizes skip fts m
    let (m, fts, vs) := takeTurns hosts t sizes rest fts m
    (m, fts, v :: vs)

/-- The report of a walk, without the calls that returned nothing. -/
def report (trace : List (Option (Visit (Bytes × ℕ)))) : List (Visit (Bytes × ℕ)) := trace.filterMap id

/-- One if the last entry is a directory that is to be passed over: its handle is open until the next
call. -/
def passing (trace : List (Option (Visit (Bytes × ℕ)))) : ℕ :=
  match trace.getLast? with
  | some (some (.skipped _)) => 1
  | _ => 0

/-- The frames are those of the places the walk is in, behind one that is to be passed over. -/
structure Bracketed (t : TaskId) (base : Kernel) (roots : List Bytes) (fts : Fts)
    (trace : List (Option (Visit (Bytes × ℕ)))) : Prop where
  argv : fts.pathArgv = roots
  stack : ∃ passed frames, fts.stack = passed ++ frames ∧ (∀ f ∈ passed, f.skip = true) ∧
    passed.length = passing trace ∧ (∀ f ∈ frames, f.skip = false) ∧
    Inside (Below t base roots) (frames.map FtsFrame.place) (report trace)

theorem report_snoc (trace : List (Option (Visit (Bytes × ℕ)))) (v : Option (Visit (Bytes × ℕ))) :
    report (trace ++ [v]) = report trace ++ v.toList := by
  rw [report, report, List.filterMap_append]
  cases v <;> rfl

theorem passing_snoc (trace : List (Option (Visit (Bytes × ℕ)))) {v : Option (Visit (Bytes × ℕ))}
    (hv : ∀ x, v ≠ some (.skipped x)) : passing (trace ++ [v]) = 0 := by
  rw [passing, List.getLast?_concat]
  split
  · rename_i x heq
    exact absurd (Option.some.inj heq) (hv x)
  · rfl

/-- All frames that are not to be passed over are read from again. -/
theorem dropWhile_passed {passed frames : List FtsFrame} (hpassed : ∀ f ∈ passed, f.skip = true)
    (hframes : ∀ f ∈ frames, f.skip = false) : (passed ++ frames).dropWhile FtsFrame.skip = frames := by
  rw [List.dropWhile_append_of_pos hpassed]
  cases frames with
  | nil => rfl
  | cons f frames =>
    refine List.dropWhile_cons_of_neg ?_
    rw [hframes f (List.mem_cons_self ..)]
    exact Bool.false_ne_true

/-- **Turn.**  A turn keeps what the walk owns, and the report stays nested. -/
theorem turn_bracketed {trace : List (Option (Visit (Bytes × ℕ)))} (sizes : Sizes) (hf : FreshHosts hosts) (skip : Bool)
    (h : Owns t base m fts) (hb : Bracketed t base roots fts trace) :
    Owns t base (turn hosts t sizes skip fts m).1 (turn hosts t sizes skip fts m).2.1 ∧
      Bracketed t base roots (turn hosts t sizes skip fts m).2.1 (trace ++ [(turn hosts t sizes skip fts m).2.2]) := by
  obtain ⟨passed, frames, hstack, hpassed, -, hframes, hinside⟩ := hb.stack
  obtain ⟨hround, howns⟩ := cbLibcFtsRead_round sizes hf h hb.argv
  rw [hstack, dropWhile_passed hpassed hframes] at hround
  rw [turn]
  generalize cbLibcFtsRead hosts t sizes fts m = result at hround howns ⊢
  obtain ⟨m', fts', e⟩ := result
  dsimp only at hround howns ⊢
  have hhead : (frames.map FtsFrame.place).head? = frames.head?.map FtsFrame.place := List.head?_map
  cases hround with
  | nothing hstack' hargv =>
    refine ⟨howns, hargv, [], frames, hstack', List.forall_mem_nil _, ?_, hframes, ?_⟩
    · rw [passing_snoc trace (by simp)]
      rfl
    · rw [report_snoc]
      simpa using hinside
  | @leaf e hstack' hargv hd hdp hbelow =>
    have hvisit : e.visit = .leaf e.place := by
      rw [FtsEnt.visit]
      split
      · exact absurd ‹_› hd
      · exact absurd ‹_› hdp
      · rfl
    dsimp only
    rw [if_neg fun hskip => hd hskip.2, hvisit]
    refine ⟨howns, hargv, [], frames, hstack', List.forall_mem_nil _, ?_, hframes, ?_⟩
    · rw [passing_snoc trace (by simp)]
      rfl
    · rw [report_snoc]
      refine hinside.leaf ?_
      rw [hhead]
      exact hbelow
  | @entered f hstack' hargv hinfo hskip hbelow =>
    dsimp only
    by_cases hwant : skip = true
    · rw [if_pos ⟨hwant, hinfo⟩, cbLibcFtsSet, if_neg (not_not.mpr rfl), if_neg (not_not.mpr hinfo)]
      dsimp only
      rw [skipFrame_top howns hstack']
      refine ⟨?_, hargv, [{ f with skip := true }], frames, rfl, ?_, ?_, hframes, ?_⟩
      · obtain ⟨dirs, hdesk, hserve⟩ := howns
        rw [Fts.blocks, hstack', List.flatMap_cons] at hdesk
        rw [hstack'] at hserve
        refine ⟨dirs, hdesk, ?_⟩
        cases hserve with
        | cons hs hrest => exact .cons ⟨hs.descriptor, hs.found, hs.unread⟩ hrest
      · intro g hg
        rw [List.mem_singleton.mp hg]
      · rw [passing, List.getLast?_concat]
        rfl
      · rw [report_snoc]
        refine hinside.skipped ?_
        rw [hhead]
        exact hbelow
    · have hvisit : f.entry.visit = .enter f.place := by
        rw [FtsEnt.visit, hinfo]
        rfl
      rw [if_neg fun hboth => hwant hboth.1, hvisit]
      refine ⟨howns, hargv, [], f :: frames, hstack', List.forall_mem_nil _, ?_, ?_, ?_⟩
      · rw [passing_snoc trace (by simp)]
        rfl
      · exact List.forall_mem_cons.mpr ⟨hskip, hframes⟩
      · rw [report_snoc, List.map_cons]
        refine hinside.enter ?_
        rw [hhead]
        exact hbelow
  | @left f e hframes' hargv hinfo hplace =>
    have hvisit : e.visit = .leave f.place := by
      rw [FtsEnt.visit, hinfo, ← hplace]
    dsimp only
    have hnot : ¬ (skip = true ∧ e.info = .d) := by
      rw [hinfo]
      exact fun hboth => absurd hboth.2 (by decide)
    rw [if_neg hnot, hvisit]
    subst hframes'
    refine ⟨howns, hargv, [], fts'.stack, rfl, List.forall_mem_nil _, ?_, ?_, ?_⟩
    · rw [passing_snoc trace (by simp)]
      rfl
    · exact fun g hg => hframes g (List.mem_cons_of_mem _ hg)
    · rw [report_snoc]
      exact hinside.leave

/-- **Walks.**  Any sequence of turns keeps both. -/
theorem takeTurns_bracketed (sizes : Sizes) (hf : FreshHosts hosts) (turns : List Bool) :
    ∀ {fts : Fts} {m : Machine} {trace : List (Option (Visit (Bytes × ℕ)))}, Owns t base m fts →
      Bracketed t base roots fts trace →
      Owns t base (takeTurns hosts t sizes turns fts m).1 (takeTurns hosts t sizes turns fts m).2.1 ∧
        Bracketed t base roots (takeTurns hosts t sizes turns fts m).2.1
          (trace ++ (takeTurns hosts t sizes turns fts m).2.2) := by
  induction turns with
  | nil =>
    intro fts m trace h hb
    rw [takeTurns, List.append_nil]
    exact ⟨h, hb⟩
  | cons skip rest ih =>
    intro fts m trace h hb
    obtain ⟨h', hb'⟩ := turn_bracketed sizes hf skip h hb
    rw [takeTurns]
    generalize turn hosts t sizes skip fts m = result at h' hb' ⊢
    obtain ⟨m', fts', v⟩ := result
    dsimp only at h' hb' ⊢
    rw [List.append_cons]
    exact ih h' hb'

/-! ### From `fts_open` to `fts_close` -/

/-- What the library took since the kernel was `base`, it has given back, each block and each directory
once. -/
structure Cleared (t : TaskId) (base : Kernel) (m : Machine) : Prop where
  blocks : replay m.blockCalls = some []
  handles : replay m.handleCalls = some []
  ledger : (ledgerOf m.kernel t).Perm (ledgerOf base t)
  dirs : ∀ d, handleOf t d m.kernel = handleOf t d base ∨ Idle t d m.kernel ∧ Idle t d base

theorem Desk.cleared (h : Desk t base m [] []) : Cleared t base m := by
  obtain ⟨live, hreplay, hperm⟩ := h.taken
  obtain ⟨live', hreplay', hperm'⟩ := h.opened
  refine ⟨?_, ?_, h.ledger, fun d => h.others d List.not_mem_nil⟩
  · rw [hreplay, hperm.eq_nil]
  · rw [hreplay', hperm'.eq_nil]

/-- A running task of a reachable kernel starts with nothing. -/
theorem desk_start {k : Kernel} (hr : ReachBy FreshBlock k) (hc : k.current = some t) (hfatal : k.fatal = none) :
    Desk t k ⟨k, []⟩ [] [] := by
  obtain ⟨hp, hbooks⟩ := hr.heapBooks
  refine ⟨⟨hp, hbooks, hc, hfatal⟩, .refl k, ⟨[], rfl, .nil⟩, .refl _, ?_, ⟨[], rfl, .nil⟩, List.nodup_nil, ?_, ?_, ?_⟩
  · exact List.forall_mem_nil _
  · exact List.forall_mem_nil _
  · exact List.forall_mem_nil _
  · exact fun d _ => .inl rfl

theorem cbLibcFtsOpen_round (sizes : Sizes) (hf : FreshHosts hosts) (options : ℕ) (h : Desk t base m [] []) :
    (cbLibcFtsOpen hosts t sizes roots options m).2 = none ∧
        Desk t base (cbLibcFtsOpen hosts t sizes roots options m).1 [] [] ∨
      ∃ pointer, (cbLibcFtsOpen hosts t sizes roots options m).2 = some ⟨pointer, roots, 0, [], none⟩ ∧
        Desk t base (cbLibcFtsOpen hosts t sizes roots options m).1 [pointer] [] := by
  rw [cbLibcFtsOpen]
  split
  · exact .inl ⟨rfl, h.setErrno _⟩
  split
  · exact .inl ⟨rfl, h.setErrno _⟩
  rw [cbLibcCalloc_one sizes.fts_le]
  have halloc := h.allocate hf sizes.fts
  generalize cbLibcMalloc hosts t sizes.fts m = result at halloc ⊢
  obtain ⟨m₁, pointer⟩ := result
  dsimp only at halloc ⊢
  rcases halloc with ⟨hnull, -, hdesk⟩ | ⟨hnull, hdesk⟩
  · rw [if_pos hnull]
    exact .inl ⟨rfl, hdesk⟩
  · rw [if_neg hnull]
    exact .inr ⟨pointer, rfl, hdesk⟩

/-- **Bracketing.**  In every state a program can be in, for all roots, with a host that refuses memory at
any point: a walk with any turns reports the beginning of a nested walk, and a whole one when no directory
is open. The handles it has open are those of the directories it has entered and not left, and of one it
is passing over. Whenever it is closed, everything it took has been given back once. -/
theorem fts_walk_bracketed {k : Kernel} (sizes : Sizes) (hr : ReachBy FreshBlock k) (hc : k.current = some t)
    (hfatal : k.fatal = none) (hf : FreshHosts hosts) (roots : List Bytes) (options : ℕ) :
    ((cbLibcFtsOpen hosts t sizes roots options ⟨k, []⟩).2 = none →
      Cleared t k (cbLibcFtsOpen hosts t sizes roots options ⟨k, []⟩).1) ∧
    ∀ fts, (cbLibcFtsOpen hosts t sizes roots options ⟨k, []⟩).2 = some fts → ∀ turns m fts' trace,
      takeTurns hosts t sizes turns fts (cbLibcFtsOpen hosts t sizes roots options ⟨k, []⟩).1 = (m, fts', trace) →
      (∃ rest, Nested (Below t k roots) none (report trace ++ rest)) ∧
      (fts'.stack = [] → Nested (Below t k roots) none (report trace)) ∧
      handlesInUse t m.kernel + (report trace).countP Visit.isLeave =
        handlesInUse t k + (report trace).countP Visit.isEnter + passing trace ∧
      Cleared t k (cbLibcFtsClose hosts t fts' m) := by
  have hround := @cbLibcFtsOpen_round hosts t k ⟨k, []⟩ roots sizes hf options (desk_start hr hc hfatal)
  generalize cbLibcFtsOpen hosts t sizes roots options ⟨k, []⟩ = opened at hround ⊢
  obtain ⟨m₀, result⟩ := opened
  dsimp only at hround ⊢
  refine ⟨fun hnone => ?_, fun fts hsome turns m fts' trace hturns => ?_⟩
  · rcases hround with ⟨-, hdesk⟩ | ⟨pointer, heq, -⟩
    · exact hdesk.cleared
    · rw [hnone] at heq
      cases heq
  rcases hround with ⟨hnone, -⟩ | ⟨pointer, heq, hdesk⟩
  · rw [hsome] at hnone
    cases hnone
  rw [hsome, Option.some.injEq] at heq
  subst heq
  have hstart : Bracketed t k roots ⟨pointer, roots, 0, [], none⟩ [] :=
    ⟨rfl, [], [], rfl, List.forall_mem_nil _, rfl, List.forall_mem_nil _, .outside .nil⟩
  have hopened : Owns t k m₀ ⟨pointer, roots, 0, [], none⟩ := ⟨[], hdesk, .nil⟩
  obtain ⟨howns, hb⟩ := takeTurns_bracketed sizes hf turns hopened hstart
  rw [hturns, List.nil_append] at hb
  rw [hturns] at howns
  dsimp only at hb howns
  obtain ⟨passed, frames, hstack, hpassed, hpassing, -, hinside⟩ := hb.stack
  refine ⟨⟨_, hinside.complete⟩, fun hempty => ?_, ?_, (cbLibcFtsClose_desk howns).cleared⟩
  · rw [hstack, List.append_eq_nil_iff] at hempty
    rw [hempty.2] at hinside
    cases hinside with
    | outside hvs => exact hvs
  · obtain ⟨dirs, hdesk', hserve⟩ := howns
    have hcount := hinside.count
    have hlength := hserve.length_eq
    rw [hstack, List.length_append] at hlength
    rw [List.length_map] at hcount
    rw [hdesk'.inUse]
    omega

/-! ### A host with memory -/

/-- The block a call of an allocator names last. -/
def lastBlock : HeapCall ℕ → ℕ
  | .took b => b
  | .moved _ b => b
  | .gave b => b

/-- The first number behind all blocks that were handed out. -/
def bump (log : List (HeapCall ℕ)) : ℕ := log.foldl (fun n c => max n (lastBlock c)) 0 + 1

theorem lt_bump (log : List (HeapCall ℕ)) : ∀ {live : List ℕ}, replay log = some live → ∀ b ∈ live, b < bump log := by
  induction log using List.reverseRecOn with
  | nil =>
    intro live h b hb
    cases h
    cases hb
  | append_singleton log c ih =>
    intro live h b hb
    rw [replay_append] at h
    obtain ⟨before, hbefore, hrun⟩ := Option.bind_eq_some_iff.mp h
    have hbump : bump (log ++ [c]) = max (bump log) (lastBlock c + 1) := by
      rw [bump, bump, List.foldl_append]
      exact (Nat.succ_max_succ _ _).symm
    have hold : ∀ x ∈ before, x < bump (log ++ [c]) := by
      intro x hx
      rw [hbump]
      exact lt_max_of_lt_left (ih hbefore x hx)
    have hnew : lastBlock c < bump (log ++ [c]) := by
      rw [hbump]
      exact lt_max_of_lt_right (Nat.lt_succ_self _)
    cases c with
    | took x =>
      rw [HeapCall.run] at hrun
      split at hrun
      · cases hrun
      cases hrun
      rcases List.mem_cons.mp hb with rfl | hb
      · exact hnew
      · exact hold b hb
    | moved old new =>
      rw [HeapCall.run] at hrun
      split at hrun
      · cases hrun
        rcases List.mem_cons.mp hb with rfl | hb
        · exact hnew
        · exact hold b (List.mem_of_mem_erase hb)
      · cases hrun
    | gave x =>
      rw [HeapCall.run] at hrun
      split at hrun
      · cases hrun
        exact hold b (List.mem_of_mem_erase hb)
      · cases hrun

/-- A host that never runs out of memory. -/
def ampleHosts (m : Machine) : Host := { Host.calm with block := bump m.kernel.heap }

theorem freshHosts_ample : FreshHosts ampleHosts := by
  intro m _
  refine ⟨Nat.succ_ne_zero _, fun live hlive hmem => ?_⟩
  exact absurd (lt_bump m.kernel.heap hlive _ hmem) (Nat.lt_irrefl _)

/-- The shell has made `/d`, `/d/e` and `/d/f`. -/
def walkedTree : Kernel :=
  stateAfter (shellStart ++ calls [.mkdir dPath 0, .mkdir (dPath ++ [slash, 101]) 0, .mkdir (dPath ++ [slash, 102]) 0])

def someSizes : Sizes := ⟨120, 144, 600, 1048, by decide, by decide, by decide⟩

/-- The walk of `/d` as `fts_open` returns it. -/
def walkedFts : Fts := ⟨1, [dPath], 0, [], none⟩

/-- `/d` is entered, `/d/f` is passed over, `/d/e` is entered and left, and `/d` is left. -/
theorem fts_walk_bracketed_tree : ∃ m fts' trace,
    takeTurns ampleHosts 0 someSizes [false, true, false, false, false] walkedFts
      (cbLibcFtsOpen ampleHosts 0 someSizes [dPath] 0 ⟨walkedTree, []⟩).1 = (m, fts', trace) ∧
    report trace = [.enter (dPath, 0), .skipped (dPath ++ [slash, 102], 1), .enter (dPath ++ [slash, 101], 1),
      .leave (dPath ++ [slash, 101], 1), .leave (dPath, 0)] ∧
    Nested (Below 0 walkedTree [dPath]) none (report trace) ∧ Cleared 0 walkedTree (cbLibcFtsClose ampleHosts 0 fts' m) := by
  have hr : ReachBy FreshBlock walkedTree := reachBy_stateAfter (by decide +kernel)
  obtain ⟨-, hwalk⟩ := @fts_walk_bracketed ampleHosts 0 walkedTree someSizes hr (by decide +kernel) (by decide +kernel)
    freshHosts_ample [dPath] 0
  obtain ⟨-, hnested, -, hcleared⟩ := hwalk walkedFts (by decide +kernel) [false, true, false, false, false] _ _ _ rfl
  exact ⟨_, _, _, rfl, by decide +kernel, hnested (by decide +kernel), hcleared⟩

end CannedBsd
