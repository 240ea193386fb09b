import CannedBsd.Kernel.Roster

/-!
# Why tasks wait

Every suspended task is parked for a reason that still holds. A step that changes a pipe wakes all
tasks on the list that wait for pipes, a task that exits wakes its waiting parent, and no other step
touches what a parked task has seen.

* `Waiting.woken`: after `cb_wake_pipe_tasks` nobody on the list waits for a pipe.
* `Waiting.micro`: every elementary step leaves all tasks on the list parked rightly.
-/

namespace CannedBsd

open CannedBsd.Lib

/-- All tasks on the list are parked rightly. -/
def Waiting (k : Kernel) : Prop := ∀ t ∈ k.order, ∀ task, k.task t = some task → Parked k task

variable {k k' : Kernel} {fl fl' : Flight} {task task' : Task}

/-! ### Single tasks -/

theorem suspended_of_blocked {state : TaskState} (h : blocked state = true) : suspended state = true := by
  rw [suspended, h]
  rfl

/-- A task that is not suspended waits for nothing. -/
theorem Parked.of_not_suspended (h : suspended task.state = false) : Parked k task := by
  refine ⟨?_, ?_, ?_, ?_⟩
  · intro hs
    rw [hs] at h
    cases h
  · intro hs
    rw [hs] at h
    cases h
  · intro hs
    rw [hs] at h
    cases h
  · intro hs
    rw [hs] at h
    cases h

/-- A runnable task at the entry of its program waits for nothing either. -/
theorem Parked.of_entry (hs : task.state = .runnable) (hf : task.frame = .entry) : Parked k task := by
  refine ⟨?_, ?_, ?_, ?_⟩
  · intro h
    rw [hs] at h
    cases h
  · intro h
    rw [hs] at h
    cases h
  · intro h
    rw [hs] at h
    cases h
  · intro _
    rw [hf]
    constructor
    · intro p count h
      cases h
    · intro p call buffer total h
      cases h

/-- Nobody who waits for the pipe notices the change: the bytes and the readers are the same, and a
first writer may come. -/
structure PipeGrows (pipe pipe' : Pipe) : Prop where
  used : pipe'.used = pipe.used
  readers : pipe'.readers = pipe.readers
  writers : pipe'.writers = pipe.writers ∨ pipe.writers = 0

/-- The part of an open file that decides what it is ready for. -/
def OpenFile.face (file : OpenFile) : FileObject × OpenFlags := (file.object, file.flags)

theorem pipeReadPoll_grows {pipe pipe' : Pipe} {events : PollMask} (h : PipeGrows pipe pipe')
    (hn : pipeReadPoll pipe events = .none) : pipeReadPoll pipe' events = .none := by
  have hw : pipe.writers ≠ 0 := by
    intro hz
    simp [pipeReadPoll, hz, PollMask.none] at hn
  have heq := h.writers.resolve_right hw
  rw [pipeReadPoll, h.used, heq]
  exact hn

theorem pipeWritePoll_grows {pipe pipe' : Pipe} {events : PollMask} (h : PipeGrows pipe pipe')
    (hn : pipeWritePoll pipe events = .none) : pipeWritePoll pipe' events = .none := by
  rw [pipeWritePoll, h.used, h.readers]
  exact hn

/-- What a parked task knows about files and pipes is still true when they only change in ways it
does not notice. -/
theorem Parked.transfer (hp : Parked k task)
    (hstate : task'.state = task.state ∨ blocked task.state = true ∧ task'.state = .runnable)
    (hframe : task'.frame = task.frame) (hdesc : task'.descriptors = task.descriptors)
    (hfiles : ∀ {d entry}, task.descriptors d = some entry →
      (k'.files.get entry.file).map OpenFile.face = (k.files.get entry.file).map OpenFile.face)
    (hlive : ∀ {d entry file p}, task.descriptors d = some entry → k.files.get entry.file = some file →
      file.object = .pipeRead p ∨ file.object = .pipeWrite p → ∃ pipe, k.pipes.get p = some pipe)
    (hpipes : task'.state = .blockedPipe ∨ task'.state = .blockedPoll → ∀ p pipe,
      k.pipes.get p = some pipe → ∃ pipe', k'.pipes.get p = some pipe' ∧ PipeGrows pipe pipe')
    (hwait : task'.state = .blockedWait → AwaitsChild k' task') : Parked k' task' := by
  have hsame : ∀ {s}, s ≠ .runnable → task'.state = s → task.state = s := by
    intro s hs hst
    rcases hstate with heq | ⟨-, hr⟩
    · rw [← heq, hst]
    · exact absurd (hst.symm.trans hr) hs
  have hrefers : ∀ {object}, Refers k task object → Refers k' task' object := by
    rintro object ⟨d, entry, file, hd, hf, hobj⟩
    have hface := hfiles hd
    rw [hf, Option.map_some, Option.map_eq_some_iff] at hface
    obtain ⟨file', hf', heq⟩ := hface
    exact ⟨d, entry, file', by rw [hdesc, hd], hf', (congrArg Prod.fst heq).trans hobj⟩
  refine ⟨?_, hwait, ?_, ?_⟩
  · intro hst
    have hgrow := hpipes (.inl hst)
    rw [hframe]
    rcases hp.pipe (hsame (by simp) hst) with ⟨p, count, pipe, hf, hget, hu, hw⟩ |
      ⟨p, call, buffer, total, pipe, hf, hget, hu, hr⟩
    · obtain ⟨pipe', hget', hg⟩ := hgrow _ _ hget
      have hw' := hg.writers.resolve_right (Nat.ne_of_gt hw)
      exact .inl ⟨p, count, pipe', hf, hget', by rw [hg.used, hu], by rwa [hw']⟩
    · obtain ⟨pipe', hget', hg⟩ := hgrow _ _ hget
      exact .inr ⟨p, call, buffer, total, pipe', hf, hget', by rw [hg.used, hu], by rwa [hg.readers]⟩
  · intro hst
    have hgrow := hpipes (.inr hst)
    obtain ⟨fds, hf, hall⟩ := hp.poll (hsame (by simp) hst)
    refine ⟨fds, by rw [hframe, hf], fun entry hentry => ?_⟩
    intro d slot file' hd hslot hf' hint
    rw [hdesc] at hslot
    have hface := hfiles hslot
    rw [hf', Option.map_some, eq_comm, Option.map_eq_some_iff] at hface
    obtain ⟨file, hfile, heq⟩ := hface
    have hobj : file'.object = file.object := (congrArg Prod.fst heq).symm
    have hflags : file'.flags = file.flags := (congrArg Prod.snd heq).symm
    have hold := hall entry hentry d slot file hd hslot hfile (by rwa [← hobj])
    rw [filePoll] at hold ⊢
    rw [hobj]
    cases ho : file.object with
    | node n =>
      rw [ho] at hold
      dsimp only at hold ⊢
      rw [nodePoll, hflags]
      exact hold
    | pipeRead p =>
      rw [ho] at hold
      obtain ⟨pipe, hget⟩ := hlive hslot hfile (.inl ho)
      obtain ⟨pipe', hget', hg⟩ := hgrow _ _ hget
      simp only [hget, hget', Option.map_some, Option.getD_some] at hold ⊢
      exact pipeReadPoll_grows hg hold
    | pipeWrite p =>
      rw [ho] at hold
      obtain ⟨pipe, hget⟩ := hlive hslot hfile (.inr ho)
      obtain ⟨pipe', hget', hg⟩ := hgrow _ _ hget
      simp only [hget, hget', Option.map_some, Option.getD_some] at hold ⊢
      exact pipeWritePoll_grows hg hold
    | consoleInput =>
      rw [hobj, ho] at hint
      cases hint
    | consoleOutput s =>
      rw [hobj, ho] at hint
      cases hint
  · intro hst
    have hsus : suspended task.state = true := by
      rcases hstate with heq | ⟨hb, -⟩
      · rwa [← heq]
      · exact suspended_of_blocked hb
    obtain ⟨hr, hw⟩ := hp.ends hsus
    rw [hframe]
    exact ⟨fun p count hf => hrefers (hr p count hf), fun p call buffer total hf =>
      hrefers (hw p call buffer total hf)⟩

/-- Files and pipes are the same; the children are left to show. -/
theorem Parked.frame (hp : Parked k task) (hfiles : k'.files = k.files) (hpipes : k'.pipes = k.pipes)
    (hwait : task.state = .blockedWait → AwaitsChild k' task) : Parked k' task := by
  refine ⟨?_, hwait, ?_, ?_⟩
  · rw [hpipes]
    exact hp.pipe
  · intro hst
    obtain ⟨fds, hf, hall⟩ := hp.poll hst
    refine ⟨fds, hf, fun entry hentry => ?_⟩
    intro d slot file hd hslot hfile hint
    rw [hfiles] at hfile
    have hold := hall entry hentry d slot file hd hslot hfile hint
    simp only [filePoll, hpipes] at hold ⊢
    exact hold
  · intro hst
    have hrefers : ∀ {object}, Refers k task object → Refers k' task object := by
      rintro object ⟨d, entry, file, hd, hf, hobj⟩
      exact ⟨d, entry, file, hd, by rw [hfiles, hf], hobj⟩
    obtain ⟨hr, hw⟩ := hp.ends hst
    exact ⟨fun p count hf => hrefers (hr p count hf), fun p call buffer total hf =>
      hrefers (hw p call buffer total hf)⟩

theorem isChild_congr {parent parent' child child' : Task} {pid : ℤ} (hp : parent'.pid = parent.pid)
    (hc : child'.pid = child.pid) (hcp : child'.ppid = child.ppid) :
    isChild parent' pid child' = isChild parent pid child := by
  rw [isChild, isChild, hp, hc, hcp]

/-- The children of a waiting task keep their numbers, and none of them becomes a zombie. -/
theorem AwaitsChild.transfer (h : AwaitsChild k task) (hpid : task'.pid = task.pid)
    (hw : task'.waitingFor = task.waitingFor)
    (hkeep : ∀ c ∈ k.order, ∀ child, k.task c = some child → child.state ≠ .zombie →
      c ∈ k'.order ∧ ∃ child', k'.task c = some child' ∧ child'.pid = child.pid ∧ child'.ppid = child.ppid)
    (hback : ∀ c ∈ k'.order, ∀ child', k'.task c = some child' → child'.state = .zombie →
      isChild task' task'.waitingFor child' = true → c ∈ k.order ∧ ∃ child, k.task c = some child ∧
        child'.pid = child.pid ∧ child'.ppid = child.ppid ∧ child.state = .zombie) :
    AwaitsChild k' task' := by
  obtain ⟨⟨c, hc, child, hchild, his⟩, hno⟩ := h
  constructor
  · obtain ⟨hc', child', hchild', hp, hpp⟩ := hkeep c hc child hchild (hno c hc child hchild his)
    exact ⟨c, hc', child', hchild', by rw [hw, isChild_congr hpid hp hpp, his]⟩
  · intro c' hc' child' hchild' his' hz
    obtain ⟨hmem, old, hold, hp, hpp, hzo⟩ := hback c' hc' child' hchild' hz his'
    refine hno c' hmem old hold ?_ hzo
    rw [hw, isChild_congr hpid hp hpp] at his'
    exact his'

/-! ### Steps in which all tasks rest -/

theorem slots_pos {t : TaskId} {d : Fin cbMaxFds} {entry : FdEntry} (ht : k.task t = some task)
    (hd : task.descriptors d = some entry) : 0 < k.slots entry.file := by
  have hone : pointsTo ((task.descriptors d).map FdEntry.file) entry.file = 1 := by
    rw [hd]
    exact pointsTo_self _
  have hsum : 1 ≤ slotHold entry.file task := by
    rw [← hone]
    exact Finset.single_le_sum (f := fun d => pointsTo ((task.descriptors d).map FdEntry.file) entry.file)
      (fun _ _ => Nat.zero_le _) (Finset.mem_univ d)
  exact lt_of_lt_of_le hsum (Heap.le_total (slotHold entry.file) ht)

/-- A descriptor slot never dangles. -/
theorem Books.slot_live (hb : Books k fl) {t : TaskId} {d : Fin cbMaxFds} {entry : FdEntry}
    (ht : k.task t = some task) (hd : task.descriptors d = some entry) :
    ∃ file, k.files.get entry.file = some file := by
  cases hf : k.files.get entry.file with
  | some file => exact ⟨file, rfl⟩
  | none =>
    have hz := hb.freedFiles hf
    have hpos := slots_pos ht hd
    omega

/-- The pipe behind an open file is live. -/
theorem Books.pipe_live (hb : Books k fl) {f : FileId} {file : OpenFile} {p : PipeId}
    (hf : k.files.get f = some file) (ho : file.object = .pipeRead p ∨ file.object = .pipeWrite p) :
    ∃ pipe, k.pipes.get p = some pipe := by
  cases hp : k.pipes.get p with
  | some pipe => exact ⟨pipe, rfl⟩
  | none =>
    have hz := hb.freedPipes hp
    rcases ho with ho | ho
    · have hle := Heap.le_total (endHold (.pipeRead p)) hf
      rw [endHold, if_pos ho] at hle
      rw [Kernel.ends] at hz
      omega
    · have hle := Heap.le_total (endHold (.pipeWrite p)) hf
      rw [endHold, if_pos ho] at hle
      have hz2 := hz.2
      rw [Kernel.ends] at hz2
      omega

namespace Waiting

theorem resting (h : Waiting k) (hb : Books k fl) (hr : Resting k k')
    (hfiles : ∀ {t task d entry}, k.task t = some task → task.descriptors d = some entry →
      (k'.files.get entry.file).map OpenFile.face = (k.files.get entry.file).map OpenFile.face)
    (hpipes : (∀ p pipe, k.pipes.get p = some pipe →
        ∃ pipe', k'.pipes.get p = some pipe' ∧ PipeGrows pipe pipe') ∨
      ∀ t ∈ k'.order, ∀ task', k'.task t = some task' →
        task'.state ≠ .blockedPipe ∧ task'.state ≠ .blockedPoll) : Waiting k' := by
  intro t ht' task' htask'
  have ht : t ∈ k.order := by rwa [hr.order] at ht'
  obtain ⟨task, htask, hrest⟩ := hr.tasks htask'
  have hp := h t ht task htask
  cases hsus : suspended task.state with
  | false =>
    refine .of_not_suspended ?_
    rcases hrest.state with heq | ⟨hbl, -⟩
    · rwa [heq]
    · rw [suspended_of_blocked hbl] at hsus
      cases hsus
  | true =>
    have hnr : task.state ≠ .running := by
      intro hrun
      rw [hrun] at hsus
      cases hsus
    have hframe := hrest.frame.resolve_right (fun hx => hnr hx.1)
    have hwf := hrest.waitingFor.resolve_right hnr
    have hdesc : task'.descriptors = task.descriptors := congrArg Holdings.descriptors hrest.holdings
    refine hp.transfer hrest.state hframe hdesc (hfiles htask) ?_ ?_ ?_
    · intro d entry file p hd hf ho
      exact hb.pipe_live hf ho
    · intro hst
      rcases hpipes with hpipes | hwoken
      · exact hpipes
      · have hne := hwoken t ht' task' htask'
        exact absurd hst (not_or.mpr hne)
    · intro hst
      have hold : task.state = .blockedWait := by
        rcases hrest.state with heq | ⟨-, hrun⟩
        · rw [← heq, hst]
        · rw [hst] at hrun
          cases hrun
      refine (hp.wait hold).transfer hrest.pid hwf ?_ ?_
      · intro c hc child hchild _
        obtain ⟨child', hchild'⟩ := hr.live hchild
        obtain ⟨x, hx, hxr⟩ := hr.tasks hchild'
        rw [hchild, Option.some.injEq] at hx
        subst hx
        exact ⟨by rwa [hr.order], child', hchild', hxr.pid, hxr.ppid⟩
      · intro c hc child' hchild' hz _
        obtain ⟨child, hchild, hxr⟩ := hr.tasks hchild'
        exact ⟨by rwa [hr.order] at hc, child, hchild, hxr.pid, hxr.ppid, hxr.zombie_iff.mp hz⟩

/-- One task changes, and neither files nor pipes. -/
theorem setTask (h : Waiting k) {t : TaskId} (ht : k.task t = some task)
    {f : Task → Task} (hfiles : k'.files = k.files) (hpipes : k'.pipes = k.pipes)
    (ho : k'.order = k.order) (hk : k'.task = (k.setTask t f).task) (hpid : (f task).pid = task.pid)
    (hppid : (f task).ppid = task.ppid) (hz : (f task).state = .zombie → task.state = .zombie)
    (hself : t ∈ k.order → Parked k (f task)) : Waiting k' := by
  have hget : ∀ c, k'.task c = if c = t then some (f task) else k.task c := by
    intro c
    rw [hk, Kernel.task_setTask]
    split
    · rename_i heq
      rw [heq, ht, Option.map_some]
    · rfl
  have hwait : ∀ {x}, AwaitsChild k x → AwaitsChild k' x := by
    intro x hx
    refine hx.transfer rfl rfl ?_ ?_
    · intro c hc child hchild _
      refine ⟨by rwa [ho], ?_⟩
      rw [hget]
      split
      · rename_i heq
        subst heq
        rw [ht, Option.some.injEq] at hchild
        subst hchild
        exact ⟨f task, rfl, hpid, hppid⟩
      · exact ⟨child, hchild, rfl, rfl⟩
    · intro c hc child' hchild' hzc _
      refine ⟨by rwa [ho] at hc, ?_⟩
      rw [hget] at hchild'
      split at hchild'
      · rename_i heq
        subst heq
        rw [Option.some.injEq] at hchild'
        subst hchild'
        exact ⟨task, ht, hpid, hppid, hz hzc⟩
      · exact ⟨child', hchild', rfl, rfl, hzc⟩
  have hkeep : ∀ {x}, Parked k x → Parked k' x := fun hp => hp.frame hfiles hpipes fun hst => hwait (hp.wait hst)
  intro c hc x hx
  rw [ho] at hc
  by_cases hct : c = t
  · subst hct
    rw [hget, if_pos rfl, Option.some.injEq] at hx
    subst hx
    exact hkeep (hself hc)
  · rw [hget, if_neg hct] at hx
    exact hkeep (h c hc x hx)

/-! ### The scheduler -/

/-- The parent of a task that has just become a zombie does not go on waiting for it. -/
theorem parent_woken {c : TaskId} {parent child : Task}
    (hpids : ∀ {t t' x x'}, k.task t = some x → k.task t' = some x' → x.pid = x'.pid → t = t')
    (hc : c ∈ k.order) (hparent : k.task c = some parent) (hst : parent.state = .blockedWait)
    (his : isChild parent parent.waitingFor child = true) :
    ∃ x, (wakeWaitingParent k child).task c = some x ∧ x.state = .runnable := by
  have hwaits : waitsFor child parent = true := by
    simp only [isChild, Bool.and_eq_true, Bool.or_eq_true, decide_eq_true_eq] at his
    simp only [waitsFor, Bool.and_eq_true, Bool.or_eq_true, decide_eq_true_eq]
    refine ⟨⟨his.1.symm, hst⟩, ?_⟩
    rcases his.2 with hany | hpid
    · exact .inr hany
    · exact .inl hpid.symm
  rw [wakeWaitingParent]
  cases hfind : k.order.find? fun t => (k.task t).any (waitsFor child) with
  | none =>
    have hno := List.find?_eq_none.mp hfind c hc
    rw [hparent, Option.any_some, hwaits] at hno
    exact absurd rfl hno
  | some t₀ =>
    -- the first task found is the parent, since its number is unique
    have hw₀ := List.find?_some hfind
    cases ht₀ : k.task t₀ with
    | none =>
      rw [ht₀] at hw₀
      cases hw₀
    | some first =>
      rw [ht₀, Option.any_some] at hw₀
      simp only [waitsFor, Bool.and_eq_true, Bool.or_eq_true, decide_eq_true_eq] at hw₀ hwaits
      have heq : c = t₀ := hpids hparent ht₀ (by rw [hwaits.1.1, hw₀.1.1])
      subst heq
      dsimp only
      refine ⟨_, Kernel.task_setTask_self _ hparent, rfl⟩

theorem leave {t : TaskId} {status : ℤ} (h : Waiting k) (hb : Books k fl) (hr : Roster k fl) (hcur : k.current = some t)
    (ht : k.task t = some task) : Waiting (CannedBsd.leave k t task status) := by
  obtain ⟨hmem, hst⟩ := hr.current_task hcur ht
  set K := retire k t task status with hK
  obtain ⟨finished, bootStatus, heq⟩ := retire_eq k t task status
  have hKtask : ∀ c, K.task c =
      if c = t then some { task with exitStatus := status % 256, state := .zombie } else k.task c := by
    intro c
    have hsame : K.task c = (k.setTask t fun task =>
        { task with exitStatus := status % 256, state := .zombie }).task c := by
      rw [hK, heq]
      rfl
    rw [hsame, Kernel.task_setTask]
    split
    · rename_i hct
      rw [hct, ht, Option.map_some]
    · rfl
  have hKorder : K.order = k.order := by
    rw [hK, heq]
    rfl
  have hKfiles : K.files = k.files := by
    rw [hK, heq]
    rfl
  have hKpipes : K.pipes = k.pipes := by
    rw [hK, heq]
    rfl
  have hKpid : ∀ {c x}, K.task c = some x → ∃ y, k.task c = some y ∧ x.pid = y.pid ∧ x.ppid = y.ppid := by
    intro c x hx
    rw [hKtask] at hx
    split at hx
    · rename_i hct
      cases hx
      exact ⟨task, hct ▸ ht, rfl, rfl⟩
    · exact ⟨x, hx, rfl, rfl⟩
  have hwake := Roster.resting_wakeWaitingParent K task
  have hptr := pointers_wakeWaitingParent K task
  intro c hc x hx
  have hc' : c ∈ k.order := by
    have hcK : c ∈ (wakeWaitingParent K task).order := hc
    rwa [hwake.order, hKorder] at hcK
  obtain ⟨y, hy, hrest⟩ := hwake.tasks hx
  by_cases hct : c = t
  · rw [hKtask, if_pos hct, Option.some.injEq] at hy
    subst hy
    refine .of_not_suspended ?_
    rw [hrest.zombie_iff.mpr rfl]
    rfl
  have hyk : k.task c = some y := by rwa [hKtask, if_neg hct] at hy
  have hp := h c hc' y hyk
  have hnr : y.state ≠ .running := by
    intro hrun
    have hcc := hr.running hc' hyk hrun
    rw [hcur, Option.some.injEq] at hcc
    exact hct hcc.symm
  refine hp.transfer hrest.state (hrest.frame.resolve_right fun hx => hnr hx.1)
    (congrArg Holdings.descriptors hrest.holdings) ?_ ?_ ?_ ?_
  · intro d entry _
    have hfiles : (CannedBsd.leave k t task status).files = k.files := hptr.files.trans hKfiles
    rw [hfiles]
  · intro d entry file p _ hf ho
    exact hb.pipe_live hf ho
  · intro _ p pipe hp
    have hpipes : (CannedBsd.leave k t task status).pipes = k.pipes := hptr.pipes.trans hKpipes
    exact ⟨pipe, by rw [hpipes, hp], rfl, rfl, .inl rfl⟩
  · intro hxst
    have hyst : y.state = .blockedWait := by
      rcases hrest.state with hs | ⟨-, hs⟩
      · rw [← hs, hxst]
      · rw [hxst] at hs
        cases hs
    have hwf := hrest.waitingFor.resolve_right hnr
    refine (hp.wait hyst).transfer hrest.pid hwf ?_ ?_
    · intro c₁ hc₁ child hchild _
      have hK₁ : ∃ child₁, K.task c₁ = some child₁ ∧ child₁.pid = child.pid ∧ child₁.ppid = child.ppid := by
        rw [hKtask]
        split
        · rename_i heq₁
          subst heq₁
          rw [ht, Option.some.injEq] at hchild
          subst hchild
          exact ⟨_, rfl, rfl, rfl⟩
        · exact ⟨child, hchild, rfl, rfl⟩
      obtain ⟨child₁, hchild₁, hpid₁, hppid₁⟩ := hK₁
      obtain ⟨child₂, hchild₂⟩ := hwake.live hchild₁
      obtain ⟨z, hz, hzr⟩ := hwake.tasks hchild₂
      rw [hchild₁, Option.some.injEq] at hz
      subst hz
      refine ⟨?_, child₂, hchild₂, hzr.pid.trans hpid₁, hzr.ppid.trans hppid₁⟩
      have horder : (CannedBsd.leave k t task status).order = k.order := hwake.order.trans hKorder
      rwa [horder]
    · intro c₁ hc₁ child hchild hz his
      have hc₁' : c₁ ∈ k.order := by
        have horder : (CannedBsd.leave k t task status).order = k.order := hwake.order.trans hKorder
        rwa [horder] at hc₁
      obtain ⟨child₁, hchild₁, hrest₁⟩ := hwake.tasks hchild
      have hz₁ := hrest₁.zombie_iff.mp hz
      by_cases hc₁t : c₁ = t
      · -- a parent that waits for the new zombie was woken up
        exfalso
        rw [hKtask, if_pos hc₁t, Option.some.injEq] at hchild₁
        have hcy : c ∈ K.order := by rwa [hKorder]
        rw [hwf, isChild_congr hrest.pid hrest₁.pid hrest₁.ppid] at his
        have his' : isChild y y.waitingFor task = true := by
          rw [← hchild₁] at his
          exact his
        obtain ⟨x', hx', hrun⟩ := parent_woken
          (fun {_ _ _ _} hx hx' hpid => by
            obtain ⟨u, hu, hup, -⟩ := hKpid hx
            obtain ⟨u', hu', hup', -⟩ := hKpid hx'
            exact hr.pids hu hu' (by rw [← hup, ← hup', hpid])) hcy hy hyst his'
        have hsame : x = x' := by
          have hxx : (wakeWaitingParent K task).task c = some x := hx
          rw [hxx, Option.some.injEq] at hx'
          exact hx'
        rw [← hsame, hxst] at hrun
        cases hrun
      · rw [hKtask, if_neg hc₁t] at hchild₁
        exact ⟨hc₁', child₁, hchild₁, hrest₁.pid, hrest₁.ppid, hz₁⟩

theorem sched (h : Waiting k) (hb : Books k fl) (hr : Roster k fl) (hs : Sched k fl k' fl') :
    Waiting k' := by
  cases hs with
  | calm hc =>
    refine h.resting hb hc.rest (fun _ _ => by rw [hc.files]) (.inl fun p pipe hp => ?_)
    exact ⟨pipe, by rw [hc.pipes, hp], rfl, rfl, .inl rfl⟩
  | @dispatch _ t task hcur hfin hmem ht hst hw =>
    refine h.setTask ht (f := fun task => { task with state := .running }) rfl rfl rfl rfl rfl rfl ?_ ?_
    · intro hz
      cases hz
    · intro _
      exact .of_not_suspended rfl
  | @yield _ t task state frame hcur ht hs hp hw hf =>
    refine h.setTask ht
      (f := fun task => { task with wakeReason := .none, state := state, frame := frame }) rfl rfl rfl rfl rfl
      rfl ?_ (fun _ => hp)
    rintro rfl
    cases hs
  | @exec _ t task hcur ht hw =>
    refine h.setTask ht
      (f := fun task => { task with wakeReason := .none, state := .execPending, frame := .entry }) rfl rfl rfl
      rfl rfl rfl ?_ ?_
    · intro hz
      cases hz
    · intro _
      exact .of_not_suspended rfl
  | @restart _ t task f fatal hfin ht hh hpid hppid hpend hst hfr hfit hexit =>
    refine h.setTask ht (f := f) rfl rfl rfl rfl hpid hppid ?_ (fun _ => .of_entry hst hfr)
    intro hz
    rw [hst] at hz
    cases hz
  | leave hcur ht _ => exact h.leave hb hr hcur ht
  | @list _ t task parent hl ht hmem hst hfr hfit hfath =>
    intro c hc x hx
    have hx' : k.task c = some x := hx
    rcases List.mem_cons.mp hc with rfl | hc
    · rw [ht, Option.some.injEq] at hx'
      subst hx'
      exact .of_entry hst hfr
    · have hp := h c hc x hx'
      refine hp.frame rfl rfl fun hxst => (hp.wait hxst).transfer rfl rfl ?_ ?_
      · intro c₁ hc₁ child hchild _
        exact ⟨List.mem_cons_of_mem _ hc₁, child, hchild, rfl, rfl⟩
      · intro c₁ hc₁ child hchild hz _
        rcases List.mem_cons.mp hc₁ with rfl | hc₁
        · have hchild' : k.task c₁ = some child := hchild
          rw [ht, Option.some.injEq] at hchild'
          subst hchild'
          rw [hst] at hz
          cases hz
        · exact ⟨hc₁, child, hchild, rfl, rfl, hz⟩
  | @unlist _ p c parent child hl hcur hp hppid hmem ht hst =>
    have hget : ∀ x, x ≠ c → (CannedBsd.unlist (k.record (.reaped p c child.pid child.exitStatus)) c).task x = k.task x := by
      intro x hx
      rw [CannedBsd.unlist, Kernel.task_setTask_of_ne _ _ hx]
      rfl
    intro x hx task hx'
    obtain ⟨hne, hmemx⟩ := (List.Nodup.mem_erase_iff hr.nodup).mp hx
    rw [hget x hne] at hx'
    have hp := h x hmemx task hx'
    refine hp.frame rfl rfl fun hxst => (hp.wait hxst).transfer rfl rfl ?_ ?_
    · intro c₁ hc₁ y hy hnz
      have hne₁ : c₁ ≠ c := by
        rintro rfl
        rw [ht, Option.some.injEq] at hy
        subst hy
        exact hnz hst
      exact ⟨(List.Nodup.mem_erase_iff hr.nodup).mpr ⟨hne₁, hc₁⟩, y, by rw [hget c₁ hne₁, hy], rfl, rfl⟩
    · intro c₁ hc₁ y hy hz _
      obtain ⟨hne₁, hmem₁⟩ := (List.Nodup.mem_erase_iff hr.nodup).mp hc₁
      rw [hget c₁ hne₁] at hy
      exact ⟨hmem₁, y, hy, rfl, rfl, hz⟩

/-! ### Pointers -/

theorem hold {gone : NodeId → Prop} {t : TaskId} {f : Task → Task} (h : Waiting k)
    (ht : k.task t = some task) (hx : Exchange gone k.vfs fl fl' task (f task)) :
    Waiting (k.setTask t f) := by
  refine h.setTask ht rfl rfl rfl rfl hx.pid hx.ppid (fun hz => by rw [← hx.state, hz]) fun hmem => ?_
  have hp := h t hmem task ht
  have hwait : (f task).state = .blockedWait → AwaitsChild k (f task) := by
    intro hst
    refine (hp.wait (by rw [← hx.state, hst])).transfer hx.pid hx.waitingFor ?_ ?_
    · intro c hc child hchild _
      exact ⟨hc, child, hchild, rfl, rfl⟩
    · intro c hc child hchild hz _
      exact ⟨hc, child, hchild, rfl, rfl, hz⟩
  rcases hx.descriptors with hd | hns | hentry
  · refine ⟨?_, hwait, ?_, ?_⟩
    · rw [hx.state, hx.frame]
      exact hp.pipe
    · rw [hx.state, hx.frame]
      intro hst
      obtain ⟨fds, hf, hall⟩ := hp.poll hst
      refine ⟨fds, hf, fun entry hentry => ?_⟩
      intro d slot file hd' hslot
      rw [hd] at hslot
      exact hall entry hentry d slot file hd' hslot
    · rw [hx.state, hx.frame]
      intro hst
      have hrefers : ∀ {object}, Refers k task object → Refers k (f task) object := by
        rintro object ⟨d, entry, file, hslot, hfile⟩
        exact ⟨d, entry, file, by rw [hd, hslot], hfile⟩
      obtain ⟨hr, hw⟩ := hp.ends hst
      exact ⟨fun p count hf => hrefers (hr p count hf), fun p call buffer total hf =>
        hrefers (hw p call buffer total hf)⟩
  · exact .of_not_suspended (by rwa [hx.state])
  · -- at its entry the task is in no call
    refine ⟨?_, hwait, ?_, ?_⟩
    · rw [hx.state]
      intro hst
      rcases hp.pipe hst with ⟨p, count, pipe, hf, -⟩ | ⟨p, call, buffer, total, pipe, hf, -⟩
      · rw [hentry] at hf
        cases hf
      · rw [hentry] at hf
        cases hf
    · rw [hx.state]
      intro hst
      obtain ⟨fds, hf, -⟩ := hp.poll hst
      rw [hentry] at hf
      cases hf
    · intro _
      rw [hx.frame, hentry]
      constructor
      · intro p count hf
        cases hf
      · intro p call buffer total hf
        cases hf

/-- The tasks on the list are the same tasks. -/
theorem sameListed (h : Waiting k) (hfiles : k'.files = k.files) (hpipes : k'.pipes = k.pipes)
    (ho : k'.order = k.order) (hk : ∀ t ∈ k.order, k'.task t = k.task t) : Waiting k' := by
  intro c hc x hx
  rw [ho] at hc
  rw [hk c hc] at hx
  have hp := h c hc x hx
  refine hp.frame hfiles hpipes fun hst => (hp.wait hst).transfer rfl rfl ?_ ?_
  · intro c₁ hc₁ child hchild _
    exact ⟨by rwa [ho], child, by rw [hk c₁ hc₁, hchild], rfl, rfl⟩
  · intro c₁ hc₁ child hchild hz _
    rw [ho] at hc₁
    rw [hk c₁ hc₁] at hchild
    exact ⟨hc₁, child, hchild, rfl, rfl, hz⟩

/-- After `cb_wake_pipe_tasks` nobody on the list waits for a pipe. -/
theorem woken (k : Kernel) : ∀ t ∈ (cbWakePipeTasks k).order, ∀ task', (cbWakePipeTasks k).task t = some task' →
    task'.state ≠ .blockedPipe ∧ task'.state ≠ .blockedPoll := by
  intro t ht task' htask
  have ht' : t ∈ k.order := ht
  rw [cbWakePipeTasks, forTasks, Kernel.task, Heap.get_map, Option.map_eq_some_iff] at htask
  obtain ⟨task, -, rfl⟩ := htask
  rw [if_pos ht', wakePipeTask]
  split
  · simp
  split
  · simp
  · rename_i h₁ h₂
    exact ⟨h₁, h₂⟩

theorem woken_pipeClose {p : PipeId} {pipe : Pipe} (hp : k.pipes.get p = some pipe) (lower : Pipe → Pipe) :
    ∀ t ∈ (pipeClose k p lower).order, ∀ task', (pipeClose k p lower).task t = some task' →
      task'.state ≠ .blockedPipe ∧ task'.state ≠ .blockedPoll := by
  rw [pipeClose, hp]
  dsimp only
  split
  · exact woken (k.setPipe p lower)
  · exact woken (k.setPipe p lower)

theorem files_pipeClose (k : Kernel) (p : PipeId) (lower : Pipe → Pipe) :
    (pipeClose k p lower).files = k.files := by
  rw [pipeClose]
  split
  · rfl
  · dsimp only
    split <;> rfl

theorem vfs_pipeClose (k : Kernel) (p : PipeId) (lower : Pipe → Pipe) :
    (pipeClose k p lower).vfs = k.vfs := by
  rw [pipeClose]
  split
  · rfl
  · dsimp only
    split <;> rfl

/-- No descriptor slot points to an open file whose last reference is in the hands of the call. -/
theorem slot_ne_last (hb : Books k fl) {f : FileId} {file : OpenFile} {b : FileId → ℕ}
    (hf : k.files.get f = some file) (hlast : file.references - 1 = 0)
    (hbal : ∀ x, fl.files x = b x + pointsTo (some f) x) {t : TaskId} {d : Fin cbMaxFds} {entry : FdEntry}
    (ht : k.task t = some task) (hd : task.descriptors d = some entry) : entry.file ≠ f := by
  rintro rfl
  have hpos := slots_pos ht hd
  have hself := hbal entry.file
  rw [pointsTo_self] at hself
  have hcount := hb.files hf
  omega

/-- **Waiting.**  Every elementary step leaves all tasks on the list parked rightly. -/
theorem micro {gone : NodeId → Prop} (h : Waiting k) (hb : Books k fl) (hr : Roster k fl)
    (hm : Micro gone k fl k' fl') : Waiting k' := by
  have hsame : ∀ {K : Kernel}, K.pipes = k.pipes → ∀ p pipe, k.pipes.get p = some pipe →
      ∃ pipe', K.pipes.get p = some pipe' ∧ PipeGrows pipe pipe' := by
    intro K hK p pipe hp
    exact ⟨pipe, by rw [hK, hp], rfl, rfl, .inl rfl⟩
  cases hm with
  | vfs hv => exact h.sameListed rfl rfl rfl fun _ _ => rfl
  | sched hs => exact h.sched hb hr hs
  | hold ht hx => exact h.hold ht hx
  | create hl _ _ _ _ _ _ =>
    refine h.sameListed rfl rfl rfl fun t ht => ?_
    obtain ⟨x, hx⟩ := hr.live ht
    exact Heap.get_alloc_of_ne _ _ (Nat.ne_of_lt (Heap.lt_next_of_get hx))
  | destroy hl hmem _ _ _ =>
    refine h.sameListed rfl rfl rfl fun t ht => ?_
    refine Heap.get_free_of_ne _ ?_
    rintro rfl
    exact hmem ht
  | leak ha => exact h
  | @file _ f file g b hf hobj hflags _ _ _ =>
    refine h.resting hb (.of_tasks rfl rfl rfl rfl rfl) ?_ (.inl (hsame rfl))
    intro t task d entry _ _
    rw [Kernel.setFile, Heap.get_modify]
    split
    · rename_i heq
      rw [heq, hf, Option.map_some, Option.map_some, Option.map_some, OpenFile.face, OpenFile.face, hobj, hflags]
    · rfl
  | openFile =>
    refine h.resting hb (.of_tasks rfl rfl rfl rfl rfl) ?_ (.inl (hsame rfl))
    intro t task d entry ht hd
    obtain ⟨file, hfile⟩ := hb.slot_live ht hd
    exact congrArg (Option.map OpenFile.face) ((Heap.get_alloc_of_get hfile).trans hfile.symm)
  | closeFile hf hlast hobj ha hbal =>
    refine h.resting hb (.of_tasks rfl rfl rfl rfl rfl) ?_ (.inl (hsame rfl))
    intro t task d entry ht hd
    exact congrArg (Option.map OpenFile.face) (Heap.get_free_of_ne _ (slot_ne_last hb hf hlast hbal ht hd))
  | openPipe hbal =>
    refine h.resting hb (.of_tasks rfl rfl rfl rfl rfl) ?_ (.inl ?_)
    · intro t task d entry ht hd
      obtain ⟨file, hfile⟩ := hb.slot_live ht hd
      exact congrArg (Option.map OpenFile.face) ((Heap.get_alloc_of_get hfile).trans hfile.symm)
    · intro p pipe hp
      exact ⟨pipe, Heap.get_alloc_of_get hp, rfl, rfl, .inl rfl⟩
  | @openWriter _ p pipe b hp hw hbal =>
    refine h.resting hb (.of_tasks rfl rfl rfl rfl rfl) ?_ (.inl ?_)
    · intro t task d entry ht hd
      obtain ⟨file, hfile⟩ := hb.slot_live ht hd
      exact congrArg (Option.map OpenFile.face) ((Heap.get_alloc_of_get hfile).trans hfile.symm)
    · intro q pipe' hq
      rw [Kernel.setPipe, Heap.get_modify]
      split
      · rename_i heq
        subst heq
        rw [hp, Option.some.injEq] at hq
        subst hq
        exact ⟨{ pipe with writers := 1 }, by rw [hp]; rfl, rfl, rfl, .inr hw⟩
      · exact ⟨pipe', hq, rfl, rfl, .inl rfl⟩
  | @closeReader _ f file p b hf hlast hobj hbal =>
    obtain ⟨pipe, hp⟩ := hb.pipe_live hf (.inl hobj)
    refine h.resting hb ((resting_pipeClose _ _ _).after rfl rfl rfl rfl rfl) ?_
      (.inr (woken_pipeClose (by exact hp) _))
    intro t task d entry ht hd
    rw [pipeReadClose, files_pipeClose]
    exact congrArg (Option.map OpenFile.face) (Heap.get_free_of_ne _ (slot_ne_last hb hf hlast hbal ht hd))
  | @closeWriter _ f file p b hf hlast hobj hbal =>
    obtain ⟨pipe, hp⟩ := hb.pipe_live hf (.inr hobj)
    refine h.resting hb ((resting_pipeClose _ _ _).after rfl rfl rfl rfl rfl) ?_
      (.inr (woken_pipeClose (by exact hp) _))
    intro t task d entry ht hd
    rw [pipeWriteClose, files_pipeClose]
    exact congrArg (Option.map OpenFile.face) (Heap.get_free_of_ne _ (slot_ne_last hb hf hlast hbal ht hd))
  | fetch =>
    exact h.resting hb ((Books.calm_cbWakePipeTasks _).rest.after rfl rfl rfl rfl rfl) (fun _ _ => rfl)
      (.inr (woken _))
  | beginWrite => exact h.sameListed rfl rfl rfl fun _ _ => rfl
  | store =>
    exact h.resting hb ((Books.calm_cbWakePipeTasks _).rest.after rfl rfl rfl rfl rfl) (fun _ _ => rfl)
      (.inr (woken _))
  | endWrite => exact h.sameListed rfl rfl rfl fun _ _ => rfl

end Waiting

end CannedBsd
