import CannedBsd.Kernel.Reachable

/-!
# Deadlock reports

`cb_kernel_run` reports a deadlock when it finds no runnable task twice in a row and no task that
waits for the console or for a timeout. A blocked task waits for something that has not happened, so
after the report every task that has not exited waits for a pipe or for a child, and in vain.

* `stuck_of_report`: a round that reports a deadlock has found every task stuck.
* `reachable_waiting`: in every reachable state a blocked task waits for something that has not happened, and
  a deadlock is only reported when no task can go on.
-/

namespace CannedBsd

open CannedBsd.Lib

variable {k k' : Kernel} {t : TaskId}

/-! ### Only the scheduler reports -/

@[simp] theorem fatal_fdCloseWhere (p : FdEntry → Bool) (k : Kernel) (t : TaskId) :
    (fdCloseWhere p k t).fatal = k.fatal := aloof_fatal.fdCloseWhere (fun _ _ _ => rfl) p k

@[simp] theorem fatal_dirCloseAll (k : Kernel) (t : TaskId) : (dirCloseAll k t).fatal = k.fatal :=
  aloof_fatal.dirCloseAll (fun _ _ _ => rfl) k

@[simp] theorem fatal_taskRelease (k : Kernel) (t : TaskId) : (taskRelease k t).fatal = k.fatal :=
  aloof_fatal.taskRelease (fun _ => rfl) k

@[simp] theorem fatal_wakeWaitingParent (k : Kernel) (child : Task) :
    (wakeWaitingParent k child).fatal = k.fatal := by
  rw [wakeWaitingParent]
  split
  · rfl
  · rfl

theorem fatal_leave (k : Kernel) (t : TaskId) (task : Task) (status : ℤ) :
    (leave k t task status).fatal = k.fatal := by
  rw [leave, fatal_wakeWaitingParent, retire]
  split
  · rfl
  · rfl

theorem fatal_apiExit (k : Kernel) (t : TaskId) (status : ℤ) : (apiExit k t status).fatal = k.fatal := by
  have hclose : (dirCloseAll (fdCloseAll (taskReleaseAllocations k t) t) t).fatal = k.fatal := by
    rw [fatal_dirCloseAll, fdCloseAll, fatal_fdCloseWhere]
    rfl
  rw [apiExit_eq]
  split
  · rw [hclose]
  · rw [fatal_leave, hclose]

theorem fatal_pipeRead (k : Kernel) (p : PipeId) (count : ℕ) : (pipeRead k p count).1.fatal = k.fatal := by
  rw [pipeRead]
  split
  · rfl
  split
  · rfl
  split
  · split
    · rfl
    · rfl
  · rfl

theorem fatal_pipeWriteLoop (p : PipeId) (call : ℕ) (buffer : Bytes) (fuel : ℕ) (k : Kernel) (total : ℕ) :
    (pipeWriteLoop p call buffer fuel k total).1.fatal = k.fatal := by
  induction fuel generalizing k total with
  | zero => rfl
  | succ fuel ih =>
    rw [pipeWriteLoop]
    split
    · rfl
    split
    · rfl
    split
    · rfl
    split
    · rfl
    · rw [ih]
      rfl

theorem fatal_consoleRead (h : Host) (k : Kernel) (count : ℕ) :
    (consoleRead h k count).1.fatal = k.fatal := by
  rw [consoleRead]
  split
  · rfl
  split
  · rfl
  split
  · rfl
  · rfl

theorem fatal_reap (k : Kernel) (c : TaskId) : (reap k c).fatal = k.fatal := by
  rw [reap, taskDestroy, fatal_taskRelease, fatal_dirCloseAll, fdCloseAll, fatal_fdCloseWhere]
  rfl

theorem fatal_apiWaitpid (k : Kernel) (t : TaskId) (pid : ℤ) : (apiWaitpid k t pid).1.fatal = k.fatal := by
  rw [apiWaitpid]
  split
  · rfl
  split
  · split
    · rfl
    · dsimp only
      rw [fatal_reap]
      rfl
  · split
    · rfl
    · rfl

theorem fatal_pollLoop (h : Host) (k : Kernel) (t : TaskId) (fds : List PollFd) :
    (pollLoop h k t fds).1.fatal = k.fatal := by
  rw [pollLoop]
  split
  · rfl
  dsimp only
  split
  · rfl
  split
  · rfl
  split
  · rfl
  · rfl

theorem fatal_deliver (r : Kernel × Outcome) : (deliver t r).fatal = r.1.fatal := by
  obtain ⟨k, outcome⟩ := r
  cases outcome with
  | done reply out =>
    rw [deliver]
    cases reply.error with
    | none => rfl
    | some e => rfl
  | block state frame => rfl
  | gone => rfl

/-- A task that is switched to reports nothing. -/
theorem fatal_resume (h : Host) (k : Kernel) (t : TaskId) : (resume h k t).fatal = k.fatal := by
  rw [resume]
  split
  · rfl
  split
  · rw [fatal_apiExit]
    rfl
  split
  · rfl
  · rfl
  · rw [fatal_deliver, fatal_pipeRead]
  · rw [fatal_deliver, pipeWrite, fatal_pipeWriteLoop]
  · rw [fatal_deliver, fatal_consoleRead]
  · rw [fatal_deliver, fatal_apiWaitpid]
  · rw [fatal_deliver, fatal_pollLoop]

/-! ### What a report means -/

/-- `pick_runnable` looks at every task of the list. -/
theorem mem_scanOrder (h : t ∈ k.order) : t ∈ scanOrder k := by
  rw [scanOrder]
  split
  · exact h
  rename_i c _
  split
  · exact h
  rename_i hafter
  rw [← List.takeWhile_append_dropWhile (p := fun x => decide (x ≠ c)) (l := k.order)] at h
  cases hdrop : k.order.dropWhile fun x => decide (x ≠ c) with
  | nil =>
    rw [hdrop] at hafter
    exact absurd rfl hafter
  | cons x rest =>
    have hx : x = c := by
      have hhead := List.head?_dropWhile_not (fun x => decide (x ≠ c)) k.order
      rw [hdrop] at hhead
      simpa using hhead
    rw [hdrop, hx] at h
    simp only [List.mem_append, List.mem_cons, List.tail_cons, List.not_mem_nil, or_false] at h ⊢
    rcases h with h | h | h
    · exact .inl (.inr h)
    · exact .inr h
    · exact .inl (.inl h)

theorem not_runnable_of_pick {task : Task} (h : pickRunnable k = none) (hmem : t ∈ k.order)
    (ht : k.task t = some task) : task.state ≠ .runnable := by
  intro hs
  have hnone := List.find?_eq_none.mp h t (mem_scanOrder hmem)
  rw [ht, Option.any_some, hs] at hnone
  exact hnone rfl

/-- Every task that has not exited waits for a pipe or for a child, and its condition is false. -/
def AllStuck (k : Kernel) : Prop :=
  ∀ t ∈ k.order, ∀ task, k.task t = some task → task.state ≠ .zombie →
    (task.state = .blockedPipe ∨ task.state = .blockedWait) ∧ Parked k task

theorem stuck_of_idle {l : NodeId → ℕ} (hb : Base k (.rest l)) (hcur : k.current = none)
    (hfin : k.finishing = none) (hpick : pickRunnable k = none) (hwait : hasConsoleWaiter k = false) :
    AllStuck k := by
  intro t hmem task ht hz
  refine ⟨?_, hb.waiting t hmem task ht⟩
  have hno := List.any_eq_false.mp hwait t hmem
  rw [ht, Option.any_some, Bool.or_eq_true, decide_eq_true_eq, decide_eq_true_eq] at hno
  cases hs : task.state with
  | runnable => exact absurd hs (not_runnable_of_pick hpick hmem ht)
  | running =>
    have hrun := hb.roster.running hmem ht hs
    rw [hcur] at hrun
    cases hrun
  | blockedPipe => exact .inl rfl
  | blockedConsole => exact absurd (.inl hs) hno
  | blockedWait => exact .inr rfl
  | blockedPoll => exact absurd (.inr hs) hno
  | execPending =>
    have hpend := hb.roster.pending hmem ht hs
    rw [hfin] at hpend
    cases hpend
  | zombie => exact absurd hs hz
  | dead => exact absurd hs (hb.roster.alive hmem ht)

/-- A round that ends with the report found every task stuck. -/
theorem stuck_of_report {l : NodeId → ℕ} (h : Host) (hb : Base k (.rest l)) (hcur : k.current = none)
    (hfin : k.finishing = none) (hfatal : k.fatal = none)
    (hreport : (scheduleRound h k).fatal = some .deadlock) : AllStuck (scheduleRound h k) := by
  have hwake : Path noNode k (.rest l) (roused h k) (.rest l) := roused_path h k
  have hkeep : (roused h k).fatal = none := by
    rw [← hfatal, roused]
    split
    · rfl
    · rfl
  rw [scheduleRound_eq] at hreport ⊢
  cases hpick : pickRunnable (roused h k) with
  | some t =>
    rw [hpick] at hreport
    dsimp only at hreport
    rw [fatal_resume] at hreport
    exact absurd (hkeep.symm.trans hreport) (by simp)
  | none =>
    rw [hpick] at hreport
    dsimp only at hreport ⊢
    rw [idleRound] at hreport ⊢
    split at hreport
    · split at hreport <;> exact absurd (hkeep.symm.trans hreport) (by simp)
    rename_i hnone
    have hstuck : AllStuck (roused h k) :=
      stuck_of_idle (hwake.base hb) (hwake.steady.current.trans hcur) (hwake.steady.finishing.trans hfin) hpick
        (Bool.eq_false_iff.mpr fun hw => hnone (.inl hw))
    rw [if_neg hnone]
    split
    · intro t hmem task ht hz
      obtain ⟨hs, hp⟩ := hstuck t hmem task ht hz
      exact ⟨hs, hp.pipe, hp.wait, hp.poll, hp.ends⟩
    · intro t hmem task ht hz
      obtain ⟨hs, hp⟩ := hstuck t hmem task ht hz
      exact ⟨hs, hp.pipe, hp.wait, hp.poll, hp.ends⟩

/-- **No lost wake-up.**  In every reachable state a blocked task waits for something that has not
happened, and a deadlock is only reported when no task can ever go on. -/
theorem reachable_waiting (hr : Reachable k) :
    Waiting k ∧ ∀ h k', step k (.schedule h) = some k' → k'.fatal = some .deadlock → AllStuck k' := by
  obtain ⟨l, hb⟩ := hr.base
  refine ⟨hb.waiting, fun h k' hs hreport => ?_⟩
  rw [step] at hs
  split at hs
  · cases hs
  rename_i hfatal
  split at hs
  · rename_i hready
    cases hs
    exact stuck_of_report h hb hready.1 hready.2.1 (not_not.mp hfatal) hreport
  · cases hs

/-- The shell reads from a pipe whose only writer it is itself, and one round has found nothing. -/
def selfRead : Kernel := stateAfter (shellStart ++ calls [.pipe, .read 3 1] ++ [.schedule .calm])

/-- The second round reports the deadlock. -/
theorem reachable_waiting_selfRead :
    Waiting selfRead ∧ ∃ k', step selfRead (.schedule .calm) = some k' ∧ k'.fatal = some .deadlock ∧
      AllStuck k' := by
  obtain ⟨hwait, hstuck⟩ := reachable_waiting (reachable_stateAfter _ : Reachable selfRead)
  have hround : (step selfRead (.schedule .calm)).map Kernel.fatal = some (some .deadlock) := by
    decide +kernel
  obtain ⟨k', hs, hf⟩ := Option.map_eq_some_iff.mp hround
  exact ⟨hwait, k', hs, hf, hstuck .calm k' hs hf⟩

end CannedBsd
