import CannedBsd.Terminal.LineDiscipline

/-!
# The engine never wedges

A completed line waits in the line buffer while one of the rings is full, and is moved only as a side effect
of a read. It can wait only while a record is queued, so that a reader always finds something to read; every
read takes a byte or a record out of the rings, and after finitely many of them the line has been moved.

* `EngineSettled.waits`: a pending record waits behind a queued one.
* `session_drains`: what the calls of a reader do to the rings.
* `cbTerminalFeed_accepts`: a byte is consumed exactly when `cb_terminal_can_accept` says so.
* `engine_never_wedges`: after as many reads as the rings hold bytes and records, and with its echo taken, the
  engine accepts input again.
-/

namespace CannedBsd.Terminal

open CannedBsd.Lib

/-! ### The echo buffer -/

/-- The echo lies in its buffer, and starts at the front when there is none. -/
structure EchoSound (t : Engine) : Prop where
  within : t.echoOffset + t.echoUsed ≤ 3
  front : t.echoUsed = 0 → t.echoOffset = 0

/-- Nothing was done to the echo. -/
structure SameEcho (t u : Engine) : Prop where
  echo : u.echo = t.echo
  offset : u.echoOffset = t.echoOffset
  used : u.echoUsed = t.echoUsed

theorem SameEcho.trans {t u w : Engine} (h : SameEcho t u) (h' : SameEcho u w) : SameEcho t w :=
  ⟨h'.echo.trans h.echo, h'.offset.trans h.offset, h'.used.trans h.used⟩

theorem SameEcho.bytes {t u : Engine} (h : SameEcho t u) : cbTerminalEcho u = cbTerminalEcho t := by
  rw [cbTerminalEcho, cbTerminalEcho, h.echo, h.offset, h.used]

theorem SameEcho.sound {t u : Engine} (h : SameEcho t u) (ht : EchoSound t) : EchoSound u where
  within := by
    rw [h.offset, h.used]
    exact ht.within
  front := by
    rw [h.offset, h.used]
    exact ht.front

theorem commitPending_echo (t : Engine) : SameEcho t (commitPending t) := by
  unfold commitPending
  split
  · exact ⟨rfl, rfl, rfl⟩
  · exact ⟨rfl, rfl, rfl⟩

theorem takeFront_echo (t : Engine) (n : ℕ) : SameEcho t (takeFront t n) := by
  unfold takeFront
  dsimp only
  split
  · exact ⟨rfl, rfl, rfl⟩
  · exact ⟨rfl, rfl, rfl⟩

/-- A read does one of two things to the engine. -/
theorem cbTerminalRead_cases (t : Engine) (hasCount hasBuffer : Bool) (capacity : ℕ) :
    (cbTerminalRead t hasCount hasBuffer capacity).1 = t ∨
      (capacity ≠ 0 ∧ ∃ bytes, cbTerminalRead t hasCount hasBuffer capacity =
        (commitPending (takeFront t (min (t.records t.recordHead) capacity)), .done bytes)) := by
  rw [cbTerminalRead]
  by_cases hcount : hasCount = false
  · exact .inl (by rw [hcount]; rfl)
  by_cases hcap : capacity = 0
  · exact .inl (by simp [hcount, hcap])
  by_cases hbuf : hasBuffer = false
  · exact .inl (by simp [hcount, hcap, hbuf])
  by_cases hnone : t.recordCount = 0
  · exact .inl (by simp [hcount, hcap, hbuf, hnone])
  · refine .inr ⟨hcap, Ring.contents cbTermBytes t.fifo t.fifoHead (min (t.records t.recordHead) capacity), ?_⟩
    simp [hcount, hcap, hbuf, hnone]

theorem cbTerminalRead_echo (t : Engine) (hasCount hasBuffer : Bool) (capacity : ℕ) :
    SameEcho t (cbTerminalRead t hasCount hasBuffer capacity).1 := by
  rcases cbTerminalRead_cases t hasCount hasBuffer capacity with heq | ⟨-, bytes, heq⟩
  · rw [heq]
    exact ⟨rfl, rfl, rfl⟩
  · rw [heq]
    exact (takeFront_echo t _).trans (commitPending_echo _)

theorem cbTerminalSourceEof_echo (t : Engine) : SameEcho t (cbTerminalSourceEof t) := by
  rw [cbTerminalSourceEof]
  split
  · exact ⟨rfl, rfl, rfl⟩
  · dsimp only
    apply SameEcho.trans _ (commitPending_echo _)
    split
    · exact ⟨rfl, rfl, rfl⟩
    · exact ⟨rfl, rfl, rfl⟩

theorem EchoSound.echoAck {t : Engine} (h : EchoSound t) (count : ℕ) : EchoSound (cbTerminalEchoAck t count).1 := by
  rw [cbTerminalEchoAck]
  split
  · exact h
  · rename_i hle
    have hwithin := h.within
    refine ⟨?_, fun hzero => if_pos hzero⟩
    dsimp only
    split <;> omega

/-- Whatever a fed byte does, its echo starts at the front. -/
theorem EchoSound.feed {t : Engine} (h : EchoSound t) (input : UInt8) : EchoSound (cbTerminalFeed t input).1 := by
  by_cases hcan : cbTerminalCanAccept t = true
  · have hzero : t.echoUsed = 0 := by
      rw [cbTerminalCanAccept, Bool.and_eq_true, beq_iff_eq] at hcan
      exact hcan.2
    have hfront := h.front hzero
    rw [cbTerminalFeed, hcan]
    have hcommit : ∀ u : Engine, u.echoOffset = 0 → u.echoUsed ≤ 3 → EchoSound (commitPending u) := by
      intro u hoffset hused
      apply (commitPending_echo u).sound
      exact ⟨by omega, fun _ => hoffset⟩
    dsimp only
    split
    · exact h
    · split
      · split
        · refine ⟨?_, fun _ => hfront⟩
          show t.echoOffset + 3 ≤ 3
          omega
        · exact h
      · split
        · exact hcommit _ hfront (by show t.echoUsed ≤ 3; omega)
        · split
          · split
            · exact hcommit _ hfront (by show 1 ≤ 3; omega)
            · refine ⟨?_, fun _ => hfront⟩
              show t.echoOffset + 1 ≤ 3
              omega
          · exact h
  · rw [Bool.not_eq_true] at hcan
    rw [cbTerminalFeed, hcan]
    exact h

theorem session_echoSound (calls : List Call) : EchoSound (session calls).1 := by
  induction calls using List.reverseRecOn with
  | nil => exact ⟨by decide, fun _ => rfl⟩
  | append_singleton calls call ih =>
    rw [session_snoc]
    cases call with
    | feed byte => exact ih.feed byte
    | sourceEof => exact (cbTerminalSourceEof_echo _).sound ih
    | read hasCount hasBuffer capacity => exact (cbTerminalRead_echo _ hasCount hasBuffer capacity).sound ih
    | echoAck count => exact ih.echoAck count

/-! ### Draining -/

/-- A record that is still pending was not moved. -/
theorem commitPending_of_pending {t : Engine} (h : (commitPending t).pending = true) : commitPending t = t := by
  unfold commitPending at h ⊢
  split
  · rfl
  · rename_i hmove
    rw [if_neg hmove] at h
    cases h

/-- A pending record waits behind a queued one. -/
theorem EngineSettled.waits {t : Engine} (h : EngineSettled t) (hb : EngineBounded t) (hp : t.pending = true) :
    0 < t.recordCount := by
  rw [Nat.pos_iff_ne_zero]
  intro hzero
  have hempty : t.fifoUsed = 0 := by
    rw [← hb.lengths, recordLengths, hzero]
    rfl
  have hedit := hb.edit
  rcases h hp with hfull | hlong
  · rw [hzero] at hfull
    cases hfull
  · omega

/-- What the rings hold, counted in bytes and records. -/
def load (t : Engine) : ℕ := t.fifoUsed + t.recordCount

/-- Taking from the first record makes the rings lighter. -/
theorem takeFront_load {t : Engine} (hb : EngineBounded t) (hc : t.recordCount ≠ 0) {capacity : ℕ} (hcap : capacity ≠ 0) :
    load (takeFront t (min (t.records t.recordHead) capacity)) + 1 ≤ load t := by
  have hsum := hb.lengths
  rw [recordLengths_of_pos hc hb.head, List.sum_cons] at hsum
  unfold takeFront load
  dsimp only
  split
  · dsimp only
    omega
  · dsimp only
    omega

/-- The calls of a reader: a read with room for a byte, and acknowledgements. -/
def ReaderCall : Call → Prop
  | .read hasCount hasBuffer capacity => hasCount = true ∧ hasBuffer = true ∧ capacity ≠ 0
  | .echoAck _ => True
  | _ => False

def isRead : Call → Bool
  | .read _ _ _ => true
  | _ => false

theorem cbTerminalEchoAck_fields (t : Engine) (count : ℕ) :
    (cbTerminalEchoAck t count).1.pending = t.pending ∧ (cbTerminalEchoAck t count).1.sourceEof = t.sourceEof ∧
      load (cbTerminalEchoAck t count).1 = load t := by
  rw [cbTerminalEchoAck]
  split
  · exact ⟨rfl, rfl, rfl⟩
  · exact ⟨rfl, rfl, rfl⟩

/-- One call of a reader: a record that is still pending behind it was pending before, and if the call was a
read the rings have become lighter. -/
theorem perform_drains {t : Engine} (hb : EngineBounded t) (hs : EngineSettled t) {call : Call} (hcall : ReaderCall call)
    (hp : (perform t call).1.pending = true) :
    t.pending = true ∧ load (perform t call).1 + (if isRead call then 1 else 0) ≤ load t := by
  cases call with
  | feed byte => exact hcall.elim
  | sourceEof => exact hcall.elim
  | echoAck count =>
    obtain ⟨hpending, -, hload⟩ := cbTerminalEchoAck_fields t count
    exact ⟨hpending.symm.trans hp, le_of_eq hload⟩
  | read hasCount hasBuffer capacity =>
    obtain ⟨rfl, rfl, hcap⟩ := hcall
    have hp' : (cbTerminalRead t true true capacity).1.pending = true := hp
    show t.pending = true ∧ load (cbTerminalRead t true true capacity).1 + 1 ≤ load t
    by_cases hnone : t.recordCount = 0
    · -- without a queued record nothing is pending
      have hsame : (cbTerminalRead t true true capacity).1 = t := by simp [cbTerminalRead, hcap, hnone]
      rw [hsame] at hp'
      exact absurd hnone (Nat.pos_iff_ne_zero.mp (hs.waits hb hp'))
    · have hread : (cbTerminalRead t true true capacity).1 =
          commitPending (takeFront t (min (t.records t.recordHead) capacity)) := by
        simp [cbTerminalRead, hcap, hnone]
      rw [hread] at hp' ⊢
      have hkept := commitPending_of_pending hp'
      rw [hkept] at hp' ⊢
      have hpending : (takeFront t (min (t.records t.recordHead) capacity)).pending = t.pending := by
        unfold takeFront
        dsimp only
        split <;> rfl
      exact ⟨hpending.symm.trans hp', takeFront_load hb hnone hcap⟩

theorem perform_drains_sourceEof {t : Engine} {call : Call} (hcall : ReaderCall call) :
    (perform t call).1.sourceEof = t.sourceEof := by
  cases call with
  | feed byte => exact hcall.elim
  | sourceEof => exact hcall.elim
  | echoAck count => exact (cbTerminalEchoAck_fields t count).2.1
  | read hasCount hasBuffer capacity =>
    show (cbTerminalRead t hasCount hasBuffer capacity).1.sourceEof = t.sourceEof
    rcases cbTerminalRead_cases t hasCount hasBuffer capacity with heq | ⟨-, bytes, heq⟩
    · rw [heq]
    · rw [heq, commitPending, takeFront]
      dsimp only
      split <;> split <;> rfl

/-- A list of calls of a reader. -/
theorem session_drains (calls more : List Call) (hmore : ∀ call ∈ more, ReaderCall call) :
    (session (calls ++ more)).1.sourceEof = (session calls).1.sourceEof ∧
      ((session (calls ++ more)).1.pending = true →
        load (session (calls ++ more)).1 + more.countP isRead ≤ load (session calls).1) := by
  induction more using List.reverseRecOn with
  | nil =>
    rw [List.append_nil]
    exact ⟨rfl, fun _ => le_rfl⟩
  | append_singleton more call ih =>
    have hbefore : ∀ c ∈ more, ReaderCall c := fun c hc => hmore c (List.mem_append_left _ hc)
    have hcall : ReaderCall call := hmore call (List.mem_append_right _ (List.mem_singleton_self call))
    obtain ⟨heof, hload⟩ := ih hbefore
    have hagrees := session_agrees (calls ++ more)
    rw [← List.append_assoc, session_snoc]
    refine ⟨(perform_drains_sourceEof hcall).trans heof, fun hp => ?_⟩
    obtain ⟨hpending, hstep⟩ := perform_drains hagrees.bounded hagrees.settled hcall hp
    have hsofar := hload hpending
    rw [List.countP_append, List.countP_singleton]
    dsimp only at hstep ⊢
    omega

/-- The bounds of the buffers of an engine, and what holds of a pending record. -/
structure Healthy (t : Engine) : Prop where
  edit : t.editUsed ≤ cbTermBytes
  fifo : t.fifoUsed ≤ cbTermBytes
  records : t.recordCount ≤ cbTermRecords
  lengths : ((List.range t.recordCount).map fun i => t.records ((t.recordHead + i) % cbTermRecords)).sum = t.fifoUsed
  echo : t.echoOffset + t.echoUsed ≤ 3
  waits : t.pending = true → t.recordCount = cbTermRecords ∨ cbTermBytes - t.fifoUsed < t.editUsed
  ready : t.pending = true → 0 < t.recordCount ∧ cbTerminalReady t = true

theorem session_healthy (calls : List Call) : Healthy (session calls).1 := by
  have h := session_agrees calls
  refine ⟨h.bounded.edit, h.bounded.fifo, h.bounded.count, h.bounded.lengths, (session_echoSound calls).within, h.settled,
    fun hp => ?_⟩
  have hqueued := h.settled.waits h.bounded hp
  refine ⟨hqueued, ?_⟩
  rw [cbTerminalReady, Bool.or_eq_true, bne_iff_ne]
  exact .inl (Nat.pos_iff_ne_zero.mp hqueued)

/-- The calls that change nothing: a byte that was deferred, a read that was refused or had no room, and an
acknowledgement that was refused. -/
structure Inert (t : Engine) : Prop where
  feed : ∀ byte, (cbTerminalFeed t byte).2 = false → (cbTerminalFeed t byte).1 = t
  read : ∀ hasCount hasBuffer capacity, capacity = 0 ∨ (cbTerminalRead t hasCount hasBuffer capacity).2 = .invalid →
    (cbTerminalRead t hasCount hasBuffer capacity).1 = t
  echoAck : ∀ count, (cbTerminalEchoAck t count).2 = -1 → (cbTerminalEchoAck t count).1 = t

theorem inert (t : Engine) : Inert t where
  feed := by
    intro byte hdeferred
    by_cases hcan : cbTerminalCanAccept t = true
    · -- an engine that can accept consumes the byte
      rw [cbTerminalFeed, hcan] at hdeferred
      dsimp only at hdeferred
      split at hdeferred
      · rename_i hno
        cases hno
      split at hdeferred
      · split at hdeferred <;> cases hdeferred
      split at hdeferred
      · cases hdeferred
      split at hdeferred
      · split at hdeferred <;> cases hdeferred
      · cases hdeferred
    · rw [Bool.not_eq_true] at hcan
      rw [cbTerminalFeed, hcan]
      rfl
  read := by
    intro hasCount hasBuffer capacity hwhy
    rcases cbTerminalRead_cases t hasCount hasBuffer capacity with heq | ⟨hcap, bytes, heq⟩
    · exact heq
    · rw [heq] at hwhy
      rcases hwhy with hzero | hinvalid
      · exact absurd hzero hcap
      · cases hinvalid
  echoAck := by
    intro count hrefused
    rw [cbTerminalEchoAck] at hrefused ⊢
    split
    · rfl
    · rename_i hle
      rw [if_neg hle] at hrefused
      cases hrefused

/-- A byte is consumed exactly when the engine says it can accept one. -/
theorem cbTerminalFeed_accepts (t : Engine) (input : UInt8) : (cbTerminalFeed t input).2 = cbTerminalCanAccept t := by
  rw [cbTerminalFeed]
  cases cbTerminalCanAccept t with
  | false => rfl
  | true =>
    rw [if_neg (by decide)]
    dsimp only
    split
    · split <;> rfl
    split
    · rfl
    split
    · split <;> rfl
    · rfl

/-- **The engine never wedges.**  After any calls its buffers are within bounds and a pending record waits only
behind a queued one; after so many reads as the rings hold bytes and records, in any order with
acknowledgements, and a full acknowledgement, it accepts input again unless the source has ended. -/
theorem engine_never_wedges (calls : List Call) :
    Healthy (session calls).1 ∧ Inert (session calls).1 ∧
      ∀ more : List Call, (∀ call ∈ more, ReaderCall call) →
        (session calls).1.fifoUsed + (session calls).1.recordCount ≤ more.countP isRead →
        eofSeen (session calls).2 = false →
        cbTerminalCanAccept (cbTerminalEchoAck (session (calls ++ more)).1 (session (calls ++ more)).1.echoUsed).1 = true := by
  refine ⟨session_healthy calls, inert _, fun more hmore hmany hopen => ?_⟩
  obtain ⟨heof, hload⟩ := session_drains calls more hmore
  have hagrees := session_agrees (calls ++ more)
  have hpending : (session (calls ++ more)).1.pending = false := by
    rw [← Bool.not_eq_true]
    intro hp
    have hqueued := hagrees.settled.waits hagrees.bounded hp
    have hlight := hload hp
    unfold load at hlight
    omega
  have hsource : (session (calls ++ more)).1.sourceEof = false := by
    rw [heof, (session_agrees calls).source, hopen]
  obtain ⟨hp, hs, -⟩ := cbTerminalEchoAck_fields (session (calls ++ more)).1 (session (calls ++ more)).1.echoUsed
  have hecho : (cbTerminalEchoAck (session (calls ++ more)).1 (session (calls ++ more)).1.echoUsed).1.echoUsed = 0 := by
    rw [cbTerminalEchoAck, if_neg (lt_irrefl _)]
    exact Nat.sub_self _
  rw [cbTerminalCanAccept, hp, hs, hecho, hpending, hsource]
  rfl

end CannedBsd.Terminal
