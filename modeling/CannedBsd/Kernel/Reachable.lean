import CannedBsd.Kernel.Lifetimes
import Mathlib.Data.List.TakeWhile

/-!
# Reachable states

Every step of the kernel is a path of elementary steps with empty hands before and after, so the
invariants of the elementary steps hold in every reachable state.

* `perform_ends`: every call of the running task ends with empty hands.
* `scheduleRound_moves`: so does a round of the scheduler.
* `step_moves`: every step is a path of elementary steps.
* `Reachable.poised`: in every reachable state the invariants hold with empty hands.
-/

namespace CannedBsd

open CannedBsd.Lib

variable {k k' : Kernel} {l : NodeId → ℕ} {t : TaskId}

/-! ### Calls -/

/-- The nodes a call takes out of their directory. -/
def removes (h : Host) (k : Kernel) (t : TaskId) : Op → NodeId → Prop
  | .unlink path => unlinks k.vfs (k.viewOf t) path
  | .rmdir path => rmdirs k.vfs (k.viewOf t) path
  | .rename oldPath newPath => renamesAway h k.vfs (k.viewOf t) oldPath newPath
  | _ => noNode

/-- The nodes a call takes out of their place in a directory. -/
def stirs (h : Host) (k : Kernel) (t : TaskId) : Op → NodeId → Prop
  | .unlink path => unlinks k.vfs (k.viewOf t) path
  | .rmdir path => rmdirs k.vfs (k.viewOf t) path
  | .rename oldPath newPath => renameStirs h k.vfs (k.viewOf t) oldPath newPath
  | _ => noNode

/-- The task whose directory handles a call closes. -/
def leaves (k : Kernel) : Op → Option TaskId
  | .exit _ => k.current
  | _ => none

/-- The calls that return at once and leave the other tasks alone. -/
def Op.plain : Op → Bool
  | .spawn _ _ _ _ => false
  | .exec _ _ _ => false
  | .exit _ => false
  | .waitpid _ => false
  | .yield => false
  | .read _ _ => false
  | .write _ _ => false
  | .poll _ _ => false
  | _ => true

theorem perform_returns (h : Host) (op : Op) (hb : Base k (.rest l)) (hc : k.current = some t)
    (hplain : op.plain = true) : Returns (stirs h k t op) k (.rest l) (perform h k t op) := by
  have hu : Unparked k t := .of_current hb hc
  cases op with
  | getpid => exact .same k _ _ _
  | getppid => exact .same k _ _ _
  | openPath path flags mode => exact apiOpen_returns h path flags mode hb hu
  | close descriptor => exact apiClose_returns descriptor hb hu
  | lseek descriptor offset whence => exact apiLseek_returns descriptor offset whence hb
  | dup descriptor => exact apiDup_returns descriptor hb hu
  | dup2 oldDescriptor newDescriptor => exact apiDup2_returns oldDescriptor newDescriptor hb hu
  | setCloexec descriptor enabled => exact apiSetCloexec_returns descriptor enabled hu
  | pipe => exact apiPipe_returns h hb hu
  | fstat descriptor => exact apiFstat_returns descriptor
  | stat path => exact apiStat_returns path
  | mkdir path mode => exact apiMkdir_returns h path mode hb hu
  | unlink path => exact apiUnlink_returns path hb
  | rmdir path => exact apiRmdir_returns path hb
  | rename oldPath newPath => exact apiRename_returns h oldPath newPath hb hu
  | chdir path => exact apiChdir_returns path hb hu
  | getcwd size => exact apiGetcwd_returns size
  | truncate path length => exact apiTruncate_returns h path length
  | ftruncate descriptor length => exact apiFtruncate_returns h descriptor length
  | isatty descriptor => exact apiIsatty_returns descriptor
  | opendir path => exact apiOpendir_returns path hb hc
  | readdir descriptor nameSize => exact apiReaddir_returns descriptor nameSize hb hu
  | closedir descriptor => exact apiClosedir_returns descriptor hu
  | setErrno error => exact (setError_path k t error).returns _ _
  | allocate size => exact apiAllocate_returns h size
  | resize pointer size => exact apiResize_returns h pointer size
  | release pointer => exact apiRelease_returns pointer
  | scribble argv environment libc => exact (note_path k t fun _ => rfl).returns _ _
  | _ => cases hplain

/-- **Calls.**  Every call of the running task ends with empty hands. -/
theorem perform_ends (h : Host) (op : Op) (hb : Base k (.rest l)) (hc : k.current = some t) :
    ∃ l', Ends (stirs h k t op) k (.rest l) t (.rest l') (perform h k t op) ∧
      ((∀ c, leaves k op = some c → Tidy k c) → l' = l) := by
  cases op with
  | exit status =>
    obtain ⟨l', hm, htidy, hfin⟩ := apiExit_moves status hb hc
    exact ⟨l', ⟨hm, pledged_of_not_finishing hfin⟩, fun ht => htidy (ht t hc)⟩
  | spawn programName argv envp actions =>
    exact ⟨l, apiSpawn_ends h programName argv envp actions hb rfl hc, fun _ => rfl⟩
  | exec programName argv envp => exact ⟨l, apiExec_ends h programName argv envp hb rfl hc, fun _ => rfl⟩
  | waitpid pid => exact ⟨l, apiWaitpid_ends pid hb rfl rfl hc, fun _ => rfl⟩
  | yield =>
    refine ⟨l, block_ends hc rfl rfl rfl (by simp) fun _ _ => ?_, fun _ => rfl⟩
    exact parked_other (by decide) (by decide) (by decide) (by simp) (by simp)
  | read descriptor count => exact ⟨l, apiRead_ends h descriptor count hb hc rfl, fun _ => rfl⟩
  | write descriptor buffer => exact ⟨l, apiWrite_ends h descriptor buffer hb hc rfl, fun _ => rfl⟩
  | poll fds timeout => exact ⟨l, apiPoll_ends h fds timeout hc rfl, fun _ => rfl⟩
  | _ => exact ⟨l, (perform_returns h _ hb hc rfl).ends hc, fun _ => rfl⟩

theorem vfs_deliver (r : Kernel × Outcome) : (deliver t r).vfs = r.1.vfs := by
  obtain ⟨k, outcome⟩ := r
  cases outcome with
  | done reply out =>
    rw [deliver]
    cases reply.error with
    | none => rfl
    | some e => rfl
  | block state frame => rfl
  | gone => rfl

/-- The return from a call changes the errno cell and the scheduling of the task. -/
theorem field_deliver {β : Type} (field : Task → β) (r : Kernel × Outcome) (c : TaskId)
    (herror : ∀ task e, field { task with errorCell := e } = field task)
    (hframe : ∀ task frame, field { task with frame := frame } = field task)
    (hyield : ∀ task reason state frame,
      field { task with wakeReason := reason, state := state, frame := frame } = field task) :
    ((deliver t r).task c).map field = (r.1.task c).map field := by
  obtain ⟨k, outcome⟩ := r
  cases outcome with
  | done reply out =>
    rw [deliver]
    refine (field_setTask field _ t c fun task => hframe task _).trans ?_
    cases reply.error with
    | none => rfl
    | some e => exact field_setTask field k t c fun task => herror task _
  | block state frame => exact field_setTask field k t c fun task => hyield task _ _ _
  | gone => rfl

/-! ### Scheduling -/

/-- The flight of a task that has just been switched to. -/
def Flight.resumed (l : NodeId → ℕ) (frame : Frame) : Flight := { Flight.rest l with writing := frame.writing }

theorem Flight.resumed_none {frame : Frame} (h : frame.writing = none) : Flight.resumed l frame = .rest l := by
  rw [resumed, h]
  rfl

/-- A pending interrupt the task does not ignore. -/
def Task.interrupted (task : Task) : Bool := task.interruptPending && !task.interruptIgnored

/-- **Resumption.**  A task goes on where its frame says. -/
theorem resume_moves {task : Task} (h : Host) (ht : k.task t = some task) (hb : Base k (.resumed l task.frame))
    (hc : k.current = some t)
    (hr : ∀ p count, task.frame = .pipeRead p count → HasDescriptor k t (.pipeRead p))
    (hw : ∀ p call buffer total, task.frame = .pipeWrite p call buffer total → HasDescriptor k t (.pipeWrite p)) :
    ∃ l', Moves noNode k (.resumed l task.frame) (resume h k t) (.rest l') ∧ Pledged (resume h k t) ∧
      ((task.interrupted = true → Tidy k t) → l' = l) := by
  have hidle := hb.not_finishing hc
  rw [resume, ht]
  dsimp only
  split
  · rename_i hint
    have hnote : Moves noNode k (.resumed l task.frame)
        (k.setTask t fun task => { task with interruptPending := false }) (.resumed l task.frame) := by
      refine .single (.hold ht ⟨fun _ => rfl, fun _ => rfl, rfl, rfl, rfl, rfl, rfl, rfl, rfl, rfl, rfl, .inl rfl,
        fun _ => .inl rfl, fun _ => .inl, .inl rfl, fun hfit => ?_, rfl⟩)
      exact ⟨hfit.program, hfit.pending, hfit.target, hfit.execution, hfit.waits, fun hp => (by cases hp)⟩
    obtain ⟨l', hm, htidy, hfin⟩ : ∃ l', Moves noNode _ _ _ _ ∧ _ := apiExit_moves 130 (hb.moves hnote) hc
    refine ⟨l', hnote.trans hm, pledged_of_not_finishing hfin, fun hx => htidy fun d => ?_⟩
    have hdir : (k.setTask t fun task => { task with interruptPending := false }).dir t d = k.dir t d := by
      rw [dir_eq (Kernel.task_setTask_self _ ht), dir_eq ht]
    rw [hdir]
    exact hx (by simp [Task.interrupted, hint.1, hint.2]) d
  refine ⟨l, ?_⟩
  rw [← and_assoc]
  refine ⟨?_, fun _ => rfl⟩
  have hgo : ∀ {r : Kernel × Outcome}, Ends noNode k (.resumed l task.frame) t (.rest l) r →
      Moves noNode k (.resumed l task.frame) (deliver t r) (.rest l) ∧ Pledged (deliver t r) :=
    fun hend => ⟨deliver_moves hb hend rfl, deliver_pledged hb hend⟩
  split
  · rename_i hf
    rw [hf, Flight.resumed_none rfl] at hb ⊢
    refine ⟨.single (.sched (.calm (calm_setTask k t fun task' ht' => ?_))), pledged_of_not_finishing hidle⟩
    exact ⟨rfl, rfl, rfl, .inl rfl, .inr ⟨(hb.roster.current_task hc ht').2, rfl⟩, .inl rfl, rfl, rfl⟩
  · rename_i hf
    rw [hf, Flight.resumed_none rfl]
    exact ⟨.refl, pledged_of_not_finishing hidle⟩
  · rename_i p count hf
    rw [hf, Flight.resumed_none rfl] at hb hgo ⊢
    exact hgo (pipeRead_ends count hb hc rfl (hr p count hf))
  · rename_i p call buffer total hf
    rw [hf] at hb hgo ⊢
    exact hgo (pipeWrite_ends hb hc rfl (hw p call buffer total hf))
  · rename_i count hf
    rw [hf, Flight.resumed_none rfl] at hb hgo ⊢
    exact hgo (consoleRead_ends h count hc rfl)
  · rename_i pid hf
    rw [hf, Flight.resumed_none rfl] at hb hgo ⊢
    exact hgo (apiWaitpid_ends pid hb rfl rfl hc)
  · rename_i fds hf
    rw [hf, Flight.resumed_none rfl] at hb hgo ⊢
    exact hgo (pollLoop_ends h fds hc rfl)

theorem rests_wakeConsoleTask (task : Task) : Rests task (wakeConsoleTask task) := by
  rw [wakeConsoleTask]
  split
  · rename_i hs
    exact ⟨rfl, rfl, rfl, .inr ⟨by rw [hs]; rfl, rfl⟩, .inl rfl, .inl rfl, rfl, rfl⟩
  split
  · rename_i hs
    exact ⟨rfl, rfl, rfl, .inr ⟨by rw [hs]; rfl, rfl⟩, .inl rfl, .inl rfl, rfl, rfl⟩
  · exact .refl task

theorem rests_wakeExpired (current : ℕ) (task : Task) : Rests task (wakeExpired current task) := by
  rw [wakeExpired]
  split
  · rename_i hs
    exact ⟨rfl, rfl, rfl, .inr ⟨by rw [hs.1]; rfl, rfl⟩, .inl rfl, .inl rfl, rfl, rfl⟩
  · exact .refl task

theorem rests_wakePollTask (task : Task) : Rests task (wakePollTask task) := by
  rw [wakePollTask]
  split
  · rename_i hs
    exact ⟨rfl, rfl, rfl, .inr ⟨by rw [hs]; rfl, rfl⟩, .inl rfl, .inl rfl, rfl, rfl⟩
  · exact .refl task

/-- The wake-ups at the start of a round. -/
def roused (h : Host) (k : Kernel) : Kernel :=
  forTasks (if 0 < h.consolePoll 0 then wakeConsoleWaiters k else k) (wakeExpired (h.monotonic 0))

theorem roused_path {gone : NodeId → Prop} {fl : Flight} (h : Host) (k : Kernel) :
    Path gone k fl (roused h k) fl := by
  have hexpire : ∀ k : Kernel, Path gone k fl (forTasks k (wakeExpired (h.monotonic 0))) fl :=
    fun k => .calm (Books.calm_forTasks k (rests_wakeExpired _))
  rw [roused]
  split
  · exact (Path.calm (Books.calm_forTasks k rests_wakeConsoleTask)).trans (hexpire _)
  · exact hexpire k

/-- Only tasks of the list are looked at; a cursor that has something behind it is on the list. -/
theorem mem_of_scanOrder (hmem : t ∈ scanOrder k) : t ∈ k.order := by
  rw [scanOrder] at hmem
  split at hmem
  · exact hmem
  rename_i c hcursor
  split at hmem
  · exact hmem
  rename_i hafter
  have hc : c ∈ k.order := by
    by_contra hno
    refine hafter ?_
    have hnil : k.order.dropWhile (fun x => decide (x ≠ c)) = [] := by
      refine List.dropWhile_eq_nil_iff.mpr ?_
      intro x hx
      refine decide_eq_true fun hxc => hno ?_
      rwa [← hxc]
    rw [hnil, List.tail_nil]
  rcases List.mem_append.mp hmem with hmem | hmem
  · rcases List.mem_append.mp hmem with hmem | hmem
    · exact (List.dropWhile_sublist _).mem (List.mem_of_mem_tail hmem)
    · exact (List.takeWhile_sublist _).mem hmem
  · rw [List.mem_singleton] at hmem
    rwa [hmem]

theorem pickRunnable_eq_some (h : pickRunnable k = some t) :
    t ∈ k.order ∧ ∃ task, k.task t = some task ∧ task.state = .runnable := by
  refine ⟨mem_of_scanOrder (List.mem_of_find?_eq_some h), ?_⟩
  have hany := List.find?_some h
  rw [Option.any_eq_true] at hany
  obtain ⟨task, ht, hst⟩ := hany
  exact ⟨task, ht, of_decide_eq_true hst⟩

/-- What a round does when no task is runnable. -/
def idleRound (h : Host) (k : Kernel) : Kernel :=
  if hasConsoleWaiter k = true ∨ getPollTimeout k (h.monotonic 1) ≠ -1 ∨ 0 < h.consolePoll 1 then
    forTasks (if 0 ≤ h.consolePoll 2 then wakeConsoleWaiters k else k) wakePollTask
  else if 1 < k.idleRounds + 1 then { k with idleRounds := k.idleRounds + 1, fatal := some .deadlock }
  else { k with idleRounds := k.idleRounds + 1 }

theorem scheduleRound_eq (h : Host) (k : Kernel) :
    scheduleRound h k =
      match pickRunnable (roused h k) with
      | none => idleRound h (roused h k)
      | some t => resume h (dispatch (roused h k) t) t := rfl

theorem idleRound_moves {gone : NodeId → Prop} {fl : Flight} (h : Host) (k : Kernel) :
    Moves gone k fl (idleRound h k) fl ∧ (idleRound h k).finishing = k.finishing := by
  rw [idleRound]
  split
  · have hpoll : ∀ k : Kernel, Moves gone k fl (forTasks k wakePollTask) fl := by
      intro k
      exact .single (.sched (.calm (Books.calm_forTasks k rests_wakePollTask)))
    split
    · have hcons : Moves gone k fl (wakeConsoleWaiters k) fl :=
        .single (.sched (.calm (Books.calm_forTasks _ rests_wakeConsoleTask)))
      exact ⟨hcons.trans (hpoll _), rfl⟩
    · exact ⟨hpoll k, rfl⟩
  split
  · exact ⟨.single (.sched (.calm ⟨rfl, rfl, rfl, rfl, rfl, rfl, rfl, .of_tasks rfl rfl rfl rfl rfl⟩)), rfl⟩
  · exact ⟨.single (.sched (.calm ⟨rfl, rfl, rfl, rfl, rfl, rfl, rfl, .of_tasks rfl rfl rfl rfl rfl⟩)), rfl⟩

/-- **Rounds.**  A round of the scheduler loop ends with empty hands. -/
theorem scheduleRound_moves (h : Host) (hb : Base k (.rest l)) (hcur : k.current = none)
    (hfin : k.finishing = none) :
    ∃ l', Moves noNode k (.rest l) (scheduleRound h k) (.rest l') ∧ Pledged (scheduleRound h k) ∧
      ((∀ t task, pickRunnable (roused h k) = some t → (roused h k).task t = some task →
        task.interrupted = true → Tidy (roused h k) t) → l' = l) := by
  have hwake : Path noNode k (.rest l) (roused h k) (.rest l) := roused_path h k
  have hb₁ := hwake.base hb
  rw [scheduleRound_eq]
  cases hpick : pickRunnable (roused h k) with
  | none =>
    obtain ⟨hidle, hsame⟩ : Moves noNode (roused h k) (.rest l) _ _ ∧ _ := idleRound_moves h (roused h k)
    refine ⟨l, hwake.moves.trans hidle, pledged_of_not_finishing ?_, fun _ => rfl⟩
    exact hsame.trans (hwake.steady.finishing.trans hfin)
  | some t =>
    obtain ⟨hmem, task, ht, hst⟩ := pickRunnable_eq_some hpick
    have hgo : Moves noNode (roused h k) (.rest l) (dispatch (roused h k) t) (.resumed l task.frame) :=
      .single (.sched (.dispatch (hwake.steady.current.trans hcur) (hwake.steady.finishing.trans hfin) hmem ht
        hst rfl))
    have ht' : (dispatch (roused h k) t).task t = some { task with state := .running } :=
      Kernel.task_setTask_self _ ht
    have hends := (hb₁.waiting t hmem task ht).ends (by rw [hst]; rfl)
    obtain ⟨l', hm, hpledge, htidy⟩ := resume_moves (l := l) h ht' (hb₁.moves hgo) rfl
      (fun p count hf => ⟨_, ht', (hends.1 p count hf).resting rfl rfl⟩)
      (fun p call buffer total hf => ⟨_, ht', (hends.2 p call buffer total hf).resting rfl rfl⟩)
    refine ⟨l', hwake.moves.trans (hgo.trans hm), hpledge, fun hx => htidy fun hint d => ?_⟩
    have hdir : (dispatch (roused h k) t).dir t d = (roused h k).dir t d := by
      rw [dir_eq ht', dir_eq ht]
    rw [hdir]
    exact hx t task rfl ht hint d

/-! ### The embedding program -/

section Embedding

variable {gone : NodeId → Prop} {fl : Flight}

/-- A task on the list changes its interrupt state. -/
theorem setInterrupt_moves {task : Task} {f : Task → Task} (ht : k.task t = some task)
    (hf : ∀ task, f task = { task with
      interruptIgnored := (f task).interruptIgnored, interruptPending := (f task).interruptPending })
    (hfit : Fit k.vfs task.badge task.state → Fit k.vfs (f task).badge task.state) :
    Moves gone k fl (k.setTask t f) fl := by
  have heq := hf task
  refine .single (.hold ht ⟨fun n => ?_, fun x => ?_, rfl, rfl, rfl, ?_, ?_, ?_, ?_, ?_, ?_, .inl ?_, fun d => .inl ?_,
    fun d => ?_, .inl ?_, hfit, ?_⟩)
  all_goals rw [heq]
  · rfl
  · rfl
  · exact .inl

theorem cbTaskSetInterrupt_moves (k : Kernel) (t : TaskId) (disposition : Disposition) :
    Moves gone k fl (cbTaskSetInterrupt k t disposition).1 fl := by
  rw [cbTaskSetInterrupt]
  split
  · exact .refl
  rename_i task ht
  split
  · exact .refl
  split
  · exact .refl
  refine setInterrupt_moves ht (fun _ => rfl) fun hfit => ?_
  refine ⟨hfit.program, hfit.pending, hfit.target, hfit.execution, hfit.waits, fun hint hx => ?_⟩
  have hint' : (if disposition = .ignore then false else task.interruptPending) = true := hint
  split at hint'
  · cases hint'
  · rename_i hdefault
    exact ⟨decide_eq_false hdefault, (hfit.interrupt hint' hx).2⟩

/-- A task that only changes its interrupt state or wakes up stays pledged. -/
theorem Pledged.setTask {f : Task → Task} (hp : Pledged k)
    (hf : ∀ task, (f task).pendingExecutableNode = task.pendingExecutableNode) : Pledged (k.setTask t f) := by
  intro c task' hfin hc
  rw [Kernel.task_setTask] at hc
  split at hc
  · obtain ⟨task, ht, rfl⟩ := Option.map_eq_some_iff.mp hc
    rw [hf]
    exact hp c task hfin ht
  · exact hp c task' hfin hc

theorem pledged_cbTaskSetInterrupt {disposition : Disposition} (hp : Pledged k) :
    Pledged (cbTaskSetInterrupt k t disposition).1 := by
  rw [cbTaskSetInterrupt]
  split
  · exact hp
  split
  · exact hp
  split
  · exact hp
  · apply hp.setTask
    intro task
    rfl

/-- A request that gets through finds executors that take interrupts. -/
theorem fit_interrupted {task : Task} (h : Fit k.vfs task.badge task.state)
    (hs : taskInterruptSupported k task = true) (hign : task.interruptIgnored = false) :
    Fit k.vfs { task with interruptPending := true }.badge task.state := by
  rw [taskInterruptSupported, Bool.and_eq_true, Bool.or_eq_true, Bool.or_eq_true, decide_eq_true_eq,
    decide_eq_true_eq] at hs
  refine ⟨h.program, h.pending, h.target, h.execution, h.waits, fun _ _ => ⟨hign, hs.1, fun hne => ?_⟩⟩
  rcases hs.2 with (hst | hnone) | hsup
  · exact absurd (h.waits hst) hne
  · exact absurd hnone hne
  · exact hsup

theorem cbKernelRequestInterrupt_moves (k : Kernel) (pid : ℤ) :
    Moves gone k fl (cbKernelRequestInterrupt k pid).1 fl := by
  rw [cbKernelRequestInterrupt]
  split
  · exact .refl
  rename_i t hfind
  split
  · exact .refl
  rename_i task ht
  split
  · exact .refl
  split
  · exact .refl
  rename_i hsup
  split
  · exact .refl
  rename_i hign
  have hmark : Moves gone k fl (k.setTask t fun task => { task with interruptPending := true }) fl := by
    refine setInterrupt_moves ht (fun _ => rfl) fun hfit => ?_
    exact fit_interrupted hfit (by simpa using hsup) (by simpa using hign)
  have hwake : Moves gone (k.setTask t fun task => { task with interruptPending := true }) fl
      ((k.setTask t fun task => { task with interruptPending := true }).setTask t fun task =>
        { task with state := if blocked task.state then .runnable else task.state }) fl := by
    refine .single (.sched (.calm (calm_setTask _ t fun task _ => ⟨rfl, rfl, rfl, ?_, .inl rfl, .inl rfl, rfl, rfl⟩)))
    dsimp only
    split
    · rename_i hb
      exact .inr ⟨hb, rfl⟩
    · exact .inl rfl
  have heq : (k.setTask t fun task => { task with interruptPending := true, state := if blocked task.state then .runnable else task.state }) =
      (k.setTask t fun task => { task with interruptPending := true }).setTask t fun task =>
        { task with state := if blocked task.state then .runnable else task.state } := by
    simp only [Kernel.setTask, Heap.modify_modify]
    rfl
  dsimp only
  rw [heq]
  exact hmark.trans hwake

theorem pledged_cbKernelRequestInterrupt {pid : ℤ} (hp : Pledged k) : Pledged (cbKernelRequestInterrupt k pid).1 := by
  rw [cbKernelRequestInterrupt]
  split
  · exact hp
  split
  · exact hp
  split
  · exact hp
  split
  · exact hp
  split
  · exact hp
  · apply hp.setTask
    intro task
    rfl

theorem cbVfsCreateExecutable_error {h : Host} {v v' : Vfs} {path : Bytes} {p : ProgramId} {e : Errno}
    (heq : cbVfsCreateExecutable h v path p = (v', .error e)) : v' = v := by
  rw [cbVfsCreateExecutable] at heq
  split at heq
  · cases heq
    rfl
  split at heq
  · cases heq
    rfl
  · split at heq
    · cases heq
      rfl
    · cases heq
  · cases heq
    rfl

theorem cbKernelRegister_path (h : Host) (program : Program) (hb : Base k fl) :
    Path gone k fl (cbKernelRegister h k program) fl := by
  rw [cbKernelRegister]
  split
  · exact .refl k fl
  split
  · exact .refl k fl
  dsimp only
  set p := k.vfs.programs.next with hp
  set v : Vfs := { k.vfs with
    programs := k.vfs.programs.alloc program
    programCount := k.vfs.programCount + 1 }
  have hadd : Path gone k fl { k with vfs := v } fl := .vfs (.single .prepare)
  have hlive : v.programs.get p = some program := by
    show (k.vfs.programs.alloc program).get k.vfs.programs.next = some program
    rw [Heap.get_alloc, if_pos rfl]
  have hunused : ∀ {c x}, v.node c = some x → x.executable ≠ some p := by
    intro c x hx hp
    obtain ⟨old, hold⟩ := hb.stock.live (n := c) hx hp
    exact absurd (Heap.lt_next_of_get hold) (lt_irrefl _)
  have hdrop : Path gone { k with vfs := v } fl { k with vfs := programDestroy v (some p) } fl :=
    .vfs (.single (.discard hlive hunused))
  have hb₁ := hadd.base hb
  have hcreate : Path gone { k with vfs := v } fl
      { k with vfs := (cbVfsCreateExecutable h v (binDirectory ++ program.name) p).1 } fl :=
    .vfs (cbVfsCreateExecutable_moves h p hb₁.books.vfs hb₁.books.root hlive hunused)
  split
  · exact hadd.trans hdrop
  split
  · exact hadd.trans hdrop
  split
  · rename_i v' e heq
    rw [cbVfsCreateExecutable_error heq]
    exact hadd.trans hdrop
  · rename_i v' heq
    rw [heq] at hcreate
    exact hadd.trans hcreate

/-- Installing an open file the call holds, in a given slot. -/
theorem fdInstallAt_held {f : FileId} {d : Fin cbMaxFds} (hb : Base k (fl.addFile (some f))) (hu : Unparked k t) :
    Path gone k (fl.addFile (some f)) (fdInstallAt k t f d false) fl := by
  have hclose : Path gone k (fl.addFile (some f)) (fdCloseSlot k t d) (fl.addFile (some f)) :=
    fdCloseSlot_path hb hu
  have hu₁ := hu.steady hclose.steady
  obtain ⟨task, ht, -⟩ := id hu₁
  have hempty : task.descriptors d = none := by
    rw [← slot_eq ht, slot_fdCloseSlot hu, if_pos rfl]
  have heq : fdInstallAt k t f d false = (fdCloseSlot k t d).setSlot t d (some ⟨f, false⟩) := by
    rw [fdInstallAt, fdCloseSlot]
    cases k.slot t d <;> rfl
  rw [heq]
  exact hclose.trans (setSlot_path fl (some ⟨f, false⟩) ht hu₁ hempty)

/-- A new open file of the console, in the hands of the call. -/
theorem openConsole_path (k : Kernel) (fl : Flight) {file : OpenFile} (href : file.references = 1)
    (hobj : file.object.internal = false) :
    Path gone k fl { k with files := k.files.alloc file } (fl.addFile (some k.files.next)) := by
  refine .single (.openFile (a := fl.nodes) href (fun p => ?_) (fun n => ?_) fun _ => rfl)
    (.of_tasks rfl rfl rfl rfl rfl)
  · refine ⟨fun ho => ?_, fun ho => ?_⟩ <;>
    · rw [ho] at hobj
      cases hobj
  · have hne : file.object ≠ .node n := by
      intro ho
      rw [ho] at hobj
      cases hobj
    rw [endHold, if_neg hne, Nat.add_zero]

/-- `cb_kernel_boot` from the task on. -/
def bootConsole (h : Host) (k : Kernel) (t : TaskId) : Kernel :=
  if !(h.allocate .consoleInput && h.allocate .consoleOutput && h.allocate .consoleError) then k
  else
    let (k, input) := cbOpenFileCreate k ⟨1, readFlags, 0, .consoleInput⟩
    let (k, output) := cbOpenFileCreate k ⟨1, writeFlags, 0, .consoleOutput 1⟩
    let (k, error) := cbOpenFileCreate k ⟨1, writeFlags, 0, .consoleOutput 2⟩
    let k := fdInstallAt k t input ⟨0, zero_lt_cbMaxFds⟩ false
    let k := fdInstallAt k t output ⟨1, one_lt_cbMaxFds⟩ false
    let k := fdInstallAt k t error ⟨2, two_lt_cbMaxFds⟩ false
    { k with bootPid := ((k.task t).map Task.pid).getD 0 }

theorem bootConsole_path (h : Host) (hb : Base k fl) (hu : Unparked k t) :
    Path gone k fl (bootConsole h k t) fl := by
  rw [bootConsole]
  split
  · exact .refl k fl
  dsimp only [cbOpenFileCreate]
  set input := k.files.next
  set k₁ : Kernel := { k with files := k.files.alloc ⟨1, readFlags, 0, .consoleInput⟩ }
  set output := k₁.files.next
  set k₂ : Kernel := { k₁ with files := k₁.files.alloc ⟨1, writeFlags, 0, .consoleOutput 1⟩ }
  set error := k₂.files.next
  set k₃ : Kernel := { k₂ with files := k₂.files.alloc ⟨1, writeFlags, 0, .consoleOutput 2⟩ }
  have h₁ : Path gone k fl k₁ (fl.addFile (some input)) := openConsole_path k fl rfl rfl
  have h₂ : Path gone k₁ (fl.addFile (some input)) k₂ ((fl.addFile (some input)).addFile (some output)) :=
    openConsole_path k₁ _ rfl rfl
  have h₃ : Path gone k₂ ((fl.addFile (some input)).addFile (some output)) k₃
      (((fl.addFile (some input)).addFile (some output)).addFile (some error)) := openConsole_path k₂ _ rfl rfl
  have hall := h₁.trans (h₂.trans h₃)
  have hswap : ((fl.addFile (some input)).addFile (some output)).addFile (some error) =
      ((fl.addFile (some error)).addFile (some output)).addFile (some input) := by
    simp only [Flight.addFile]
    congr 1
    funext x
    omega
  rw [hswap] at hall
  have hu₃ := hu.steady hall.steady
  have h₄ : Path gone k₃ _ (fdInstallAt k₃ t input ⟨0, by decide⟩ false)
      ((fl.addFile (some error)).addFile (some output)) := fdInstallAt_held (hall.base hb) hu₃
  have h₅ := hall.trans h₄
  have h₆ : Path gone (fdInstallAt k₃ t input ⟨0, by decide⟩ false) _ _ (fl.addFile (some error)) :=
    fdInstallAt_held (d := ⟨1, by decide⟩) (h₅.base hb) (hu.steady h₅.steady)
  have h₇ := h₅.trans h₆
  have h₈ : Path gone (fdInstallAt (fdInstallAt k₃ t input ⟨0, by decide⟩ false) t output ⟨1, by decide⟩ false)
      _ _ fl := fdInstallAt_held (d := ⟨2, by decide⟩) (h₇.base hb) (hu.steady h₇.steady)
  exact (h₇.trans h₈).trans (.calm ⟨rfl, rfl, rfl, rfl, rfl, rfl, rfl, .of_tasks rfl rfl rfl rfl rfl⟩)

/-- The new task on the list, with its program file. -/
theorem bystanders_enlist {c : TaskId} (parent : Option TaskId) (n : NodeId) (h : Bystanders k k')
    (hc : k.task c = none) :
    Bystanders k ((enlist k' parent c).setTask c fun task => { task with executableNode := some n }) := by
  refine ⟨h.current, h.finishing, fun {t task} ht => ?_⟩
  have hne : t ≠ c := by
    rintro rfl
    rw [hc] at ht
    cases ht
  rw [Kernel.task_setTask_of_ne _ _ hne]
  have hsame : (enlist k' parent c).task t = k'.task t := Kernel.task_setTask_of_ne k' _ hne
  rw [hsame]
  exact h.tasks ht

/-- `cb_kernel_boot` with the executable it found. -/
def bootWith (h : Host) (k : Kernel) (n : NodeId) (argv : List Bytes) : Kernel :=
  match taskCreate h (retainNode k (some n)) none (executableOf k n) argv (some [homeSetting, pathSetting]) [] with
  | (k, none) => releaseNode k (some n)
  | (k, some t) => bootConsole h (k.setTask t fun task => { task with executableNode := some n }) t

theorem bootWith_moves {n : NodeId} {node : Node} (h : Host) (argv : List Bytes) (hb : Base k fl)
    (hl : fl.limbo = none) (hn : k.vfs.node n = some node) :
    Moves gone k fl (bootWith h k n argv) fl ∧ Bystanders k (bootWith h k n argv) := by
  have hretain : Path gone k fl (retainNode k (some n)) (fl.addNode (some n)) := retainNode_path hn
  have hcreate : Creates gone (retainNode k (some n)) (fl.addNode (some n)) none (executableOf k n)
      (taskCreate h (retainNode k (some n)) none (executableOf k n) argv (some [homeSetting, pathSetting]) []) :=
    taskCreate_creates h none (executableOf k n) argv (some [homeSetting, pathSetting]) [] (hretain.base hb) hl
  rw [bootWith]
  generalize taskCreate h (retainNode k (some n)) none (executableOf k n) argv (some [homeSetting, pathSetting]) [] =
    r at hcreate ⊢
  cases hcreate with
  | @refused k' hmoves hstand =>
    have hrelease : Path gone k' (fl.addNode (some n)) (releaseNode k' (some n)) fl := releaseNode_path k' fl (some n)
    exact ⟨hretain.moves.trans (hmoves.trans hrelease.moves),
      hretain.steady.bystanders.trans (hstand.trans hrelease.steady.bystanders)⟩
  | @ready k' t hmoves hstand ho hfresh hnew hprogram =>
    have hready := hretain.moves.trans hmoves
    obtain ⟨p, hp⟩ := Option.ne_none_iff_exists'.mp hprogram
    rw [hp] at hnew
    have hhouse : Houses k'.vfs n p := by
      refine hb.houses hready ?_ (houses_of_executableOf hp)
      rw [Flight.addNode_nodes, pointsTo_self]
      omega
    have hlist : Moves gone k' _ ((enlist k' none t).setTask t fun task => { task with executableNode := some n }) fl :=
      enlist_moves hl hnew ho hhouse fun task hppid => hppid
    have hchild := hready.trans hlist
    have hu : Unparked ((enlist k' none t).setTask t fun task => { task with executableNode := some n }) t := by
      obtain ⟨task, ht, hinfant⟩ := hnew
      refine ⟨_, Kernel.task_setTask_self (k := enlist k' none t) _ (Kernel.task_setTask_self (k := k') _ ht), .inr ?_⟩
      exact hinfant.frame
    have hconsole : Path gone _ fl (bootConsole h _ t) fl := bootConsole_path h (hb.moves hchild) hu
    exact ⟨hchild.trans hconsole.moves, hretain.steady.bystanders.trans
      ((bystanders_enlist none n hstand hfresh).trans hconsole.steady.bystanders)⟩

theorem cbKernelBoot_moves (h : Host) (command : Option Bytes) (hb : Base k fl) (hl : fl.limbo = none) :
    Moves gone k fl (cbKernelBoot h k command) fl ∧ Bystanders k (cbKernelBoot h k command) := by
  unfold cbKernelBoot
  split
  · exact ⟨.refl, .refl k⟩
  split
  · exact ⟨.refl, .refl k⟩
  rename_i n hexec
  obtain ⟨node, hn, -⟩ := executableNode_rooted ⟨hb.books.vfs, hb.books.root, rfl⟩ hexec
  exact bootWith_moves h _ hb hl hn

end Embedding

/-! ### Steps and runs -/

/-- The nodes a step takes out of their directory. -/
def stepRemoves (k : Kernel) : Action → NodeId → Prop
  | .call h op =>
    match k.current with
    | none => noNode
    | some t => removes h k t op
  | _ => noNode

/-- The nodes a step takes out of their place in a directory. -/
def stepStirs (k : Kernel) : Action → NodeId → Prop
  | .call h op =>
    match k.current with
    | none => noNode
    | some t => stirs h k t op
  | _ => noNode

/-- The task whose directory handles a step closes because the task ends or is replaced. -/
def closesHandles (k : Kernel) : Action → Option TaskId
  | .call _ op => leaves k op
  | .schedule h => (pickRunnable (roused h k)).filter fun t => ((roused h k).task t).any Task.interrupted
  | .finishExec _ => k.finishing
  | _ => none

/-- The step ends or replaces no task that has a look-ahead entry. -/
def TidyStep (k : Kernel) (a : Action) : Prop := ∀ t, closesHandles k a = some t → Tidy k t

theorem dir_roused (h : Host) (k : Kernel) (t : TaskId) (d : Fin cbMaxDirs) :
    (roused h k).dir t d = k.dir t d := by
  have hexpire : ∀ k : Kernel, (forTasks k (wakeExpired (h.monotonic 0))).dir t d = k.dir t d :=
    fun k => (Books.calm_forTasks k (rests_wakeExpired _)).rest.dir t d
  rw [roused]
  split
  · rw [hexpire]
    exact (Books.calm_forTasks k rests_wakeConsoleTask).rest.dir t d
  · exact hexpire k

/-- **Steps.**  Every step is a path of elementary steps with empty hands before and after; it loses
references only when it ends or replaces a task that has a look-ahead entry. -/
theorem step_moves {a : Action} (hb : Base k (.rest l)) (hp : Pledged k) (hs : step k a = some k') :
    ∃ l', Moves (stepStirs k a) k (.rest l) k' (.rest l') ∧ Pledged k' ∧ (TidyStep k a → l' = l) := by
  unfold step at hs
  split at hs
  · cases hs
  cases a with
  | call h op =>
    cases hc : k.current with
    | none => simp [hc] at hs
    | some t =>
      simp only [hc, Option.some.injEq] at hs
      subst hs
      obtain ⟨l', hend, htidy⟩ := perform_ends h op hb hc
      have hgone : stepStirs k (.call h op) = stirs h k t op := by
        rw [stepStirs]
        simp only [hc]
      rw [hgone]
      exact ⟨l', deliver_moves hb hend rfl, deliver_pledged hb hend, htidy⟩
  | schedule h =>
    dsimp only at hs
    split at hs
    · rename_i hready
      rw [Option.some.injEq] at hs
      subst hs
      obtain ⟨l', hm, hpledge, htidy⟩ := scheduleRound_moves h hb hready.1 hready.2.1
      refine ⟨l', hm, hpledge, fun hx => htidy fun t task hpick ht hint d => ?_⟩
      rw [dir_roused]
      refine hx t ?_ d
      rw [closesHandles, hpick, Option.filter_some, ht, Option.any_some, hint, if_pos rfl]
    · cases hs
  | finishExec h =>
    obtain ⟨t, hfin, rfl⟩ := Option.map_eq_some_iff.mp hs
    obtain ⟨l', hm, hfin', htidy⟩ : ∃ l', Moves noNode k (.rest l) _ _ ∧ _ := taskFinishExec_moves h hb hp hfin
    exact ⟨l', hm, pledged_of_not_finishing hfin', fun hx => htidy (hx t hfin)⟩
  | requestInterrupt pid =>
    cases hs
    exact ⟨l, cbKernelRequestInterrupt_moves k pid, pledged_cbKernelRequestInterrupt hp, fun _ => rfl⟩
  | setInterrupt t disposition =>
    dsimp only at hs
    split at hs
    · cases hs
      exact ⟨l, cbTaskSetInterrupt_moves k t disposition, pledged_cbTaskSetInterrupt hp, fun _ => rfl⟩
    · cases hs
  | mountCreate h =>
    cases hs
    exact ⟨l, .vfs (cbRamfsMountCreate_moves h hb.books.vfs), hp, fun _ => rfl⟩
  | mountPath t path m =>
    dsimp only at hs
    split at hs
    · rename_i hmem
      cases hs
      obtain ⟨task, ht⟩ := hb.roster.live hmem
      refine ⟨l, .vfs (cbVfsMountPath_moves m ⟨hb.books.vfs, hb.books.root, ?_⟩), hp, fun _ => rfl⟩
      rw [viewOf_eq ht]
      exact hb.books.roots ht
    · cases hs
  | register h program =>
    cases hs
    have hpath : Path noNode k (.rest l) (cbKernelRegister h k program) (.rest l) := cbKernelRegister_path h program hb
    exact ⟨l, hpath.moves, hpath.steady.bystanders.pledged hb hp, fun _ => rfl⟩
  | boot h command =>
    cases hs
    obtain ⟨hm, hstand⟩ : Moves noNode k (.rest l) (cbKernelBoot h k command) (.rest l) ∧ _ :=
      cbKernelBoot_moves h command hb rfl
    exact ⟨l, hm, hstand.pledged hb hp, fun _ => rfl⟩

/-! ### The first state -/

theorem sound_blankVfs : Sound blankVfs fun _ => 0 := by
  have hnone : ∀ n, blankVfs.node n = none := fun n => Heap.get_empty n
  have hroot : ∀ m, blankVfs.rootOf m = none := by
    intro m
    rw [Vfs.rootOf, show blankVfs.mounts = .empty from rfl, Heap.get_empty]
    rfl
  have hpar : ∀ n, blankVfs.parentOf n = none := by
    intro n
    rw [Vfs.parentOf, hnone]
    rfl
  refine ⟨⟨⟨?_, ?_, ?_, ?_, ?_, ?_⟩, ?_, ?_, ?_, ?_⟩, ⟨?_, fun _ => rfl⟩⟩
  · intro d dir hd
    rw [hnone] at hd
    cases hd
  · intro c d hp
    rw [hpar] at hp
    cases hp
  · intro c node d dir hc
    rw [hnone] at hc
    cases hc
  · intro c node d hc
    rw [hnone] at hc
    cases hc
  · intro c c' node node' d hc
    rw [hnone] at hc
    cases hc
  · intro c node hc
    rw [hnone] at hc
    cases hc
  · intro n node d hn
    rw [hnone] at hn
    cases hn
  · intro n node hn
    rw [hnone] at hn
    cases hn
  · intro m r hr
    rw [hroot] at hr
    cases hr
  · intro i e he
    cases he
  · intro n node hn
    rw [hnone] at hn
    cases hn

/-- Choosing the root mount of a file system without mount points. -/
theorem Sound.setRoot {v : Vfs} {ext : NodeId → ℕ} (hs : Sound v ext) (ht : v.table = []) (m : MountId)
    (r : NodeId) : Sound { v with rootMount := m, vfsRoot := r } ext := by
  refine ⟨⟨?_, hs.tree.climbs, hs.tree.childless, hs.tree.roots, ?_⟩, hs.refs.count, hs.refs.freed⟩
  · exact ⟨hs.tree.links.children, hs.tree.links.parent, hs.tree.links.mount, hs.tree.links.name,
      hs.tree.links.unique, hs.tree.links.loose⟩
  · intro i e he
    have hnil : ([] : List MountEntry)[i]? = some e := ht ▸ he
    cases hnil

theorem stocked_blankVfs : Stocked blankVfs := by
  have hnone : ∀ n, blankVfs.node n = none := fun n => Heap.get_empty n
  refine ⟨fun hn => ?_, fun hn => ?_, fun hn => ?_, List.nodup_nil, fun hp => by cases hp⟩ <;>
  · rw [hnone] at hn
    cases hn

theorem lineage_cbKernelCreate (h : Host) : Lineage (cbKernelCreate h) (.rest fun _ => 0) := by
  refine ⟨.nil, fun hs => (by cases hs), fun hm => (by cases hm), fun hm => (by cases hm), fun hs => (by cases hs), ?_,
    ?_, fun hl => (by cases hl), fun hl => (by cases hl), fun hc => (by cases hc)⟩
  · rintro t ⟨p, pid, hs⟩
    cases hs
  · rintro t ⟨p, pid, status, hs⟩
    cases hs

theorem base_cbKernelCreate (h : Host) : Base (cbKernelCreate h) (.rest fun _ => 0) := by
  have hblank : Sound blankVfs fun n => (fun _ => 0) n + (fun _ => 0) n := sound_blankVfs
  obtain ⟨hmoves, htable, hroot⟩ : VMoves noNode blankVfs (fun _ => 0) _ (fun _ => 0) ∧ _ :=
    ramfsMountTree_moves h hblank
  have htask : ∀ t, (cbKernelCreate h).task t = none := fun t => Heap.get_empty t
  refine ⟨⟨?_, ?_, ?_, ?_, ?_, ?_, ?_, ?_⟩, ⟨⟨List.nodup_nil, ?_, ?_, ?_, ?_⟩, ?_, ?_, ?_, ?_, ?_, ?_⟩, ?_, ?_, ?_,
    ?_, ?_, ?_⟩
  · refine ((hmoves.sound hblank).setRoot htable _ _).congr fun n => ?_
    rfl
  · show (ramfsMountTree h blankVfs).1.rootOf (ramfsMountTree h blankVfs).2 =
      some (((ramfsMountTree h blankVfs).1.rootOf (ramfsMountTree h blankVfs).2).getD 0)
    rw [hroot]
    rfl
  · intro f file hf
    rw [show (cbKernelCreate h).files = .empty from rfl, Heap.get_empty] at hf
    cases hf
  · intro f _
    rfl
  · intro p pipe hp
    rw [show (cbKernelCreate h).pipes = .empty from rfl, Heap.get_empty] at hp
    cases hp
  · intro p _
    exact ⟨rfl, rfl⟩
  · intro f
    rfl
  · intro t task ht
    rw [htask] at ht
    cases ht
  · intro t ht
    cases ht
  · intro t task ht
    rw [htask] at ht
    cases ht
  · intro t t' task task' ht
    rw [htask] at ht
    cases ht
  · intro t task ht
    rw [htask] at ht
    cases ht
  · intro t ht
    cases ht
  · intro t task hm
    cases hm
  · intro t ht
    cases ht
  · intro t task hm
    cases hm
  · intro t ht
    cases ht
  · intro t task hm
    cases hm
  · intro t ht
    cases ht
  · intro t task ht
    rw [htask] at ht
    cases ht
  · intro p pipe hp
    rw [show (cbKernelCreate h).pipes = .empty from rfl, Heap.get_empty] at hp
    cases hp
  · obtain ⟨hstock, -⟩ := hmoves.stock hblank stocked_blankVfs
    exact ⟨hstock.typed, hstock.live, hstock.single, hstock.once, hstock.gone⟩
  · intro t ht
    cases ht
  · exact lineage_cbKernelCreate h

/-- The invariants between two steps. -/
structure Poised (k : Kernel) (l : NodeId → ℕ) : Prop where
  base : Base k (.rest l)
  pledged : Pledged k

theorem poised_cbKernelCreate (h : Host) : Poised (cbKernelCreate h) fun _ => 0 :=
  ⟨base_cbKernelCreate h, pledged_of_not_finishing rfl⟩

/-- A step is a path that leads from poise to poise. -/
theorem Poised.step {a : Action} (h : Poised k l) (hs : step k a = some k') :
    ∃ l', Moves (stepStirs k a) k (.rest l) k' (.rest l') ∧ Poised k' l' ∧ (TidyStep k a → l' = l) := by
  obtain ⟨l', hm, hp, htidy⟩ := step_moves h.base h.pledged hs
  exact ⟨l', hm, ⟨h.base.moves hm, hp⟩, htidy⟩

/-- **Invariants of a run.**  In every reachable state the invariants hold with empty hands. -/
theorem Reachable.poised (hr : Reachable k) : ∃ l, Poised k l := by
  obtain ⟨h, hr⟩ := hr
  refine hr.invariant (P := fun k => ∃ l, Poised k l) ⟨fun _ => 0, poised_cbKernelCreate h⟩ ?_
  rintro k a k' - hs ⟨l, hp⟩
  obtain ⟨l', -, hp', -⟩ := hp.step hs
  exact ⟨l', hp'⟩

theorem Reachable.base (hr : Reachable k) : ∃ l, Base k (.rest l) := by
  obtain ⟨l, hp⟩ := hr.poised
  exact ⟨l, hp.base⟩

/-- In a run that ends or replaces no task with a look-ahead entry, no reference is lost. -/
theorem ReachBy.tidy_base (hr : ReachBy TidyStep k) : Base k (.rest fun _ => 0) := by
  obtain ⟨h, hr⟩ := hr
  have hpoised : Poised k fun _ => 0 := by
    refine hr.invariant (P := fun k => Poised k fun _ => 0) (poised_cbKernelCreate h) ?_
    intro k a k' hok hs hp
    obtain ⟨l', hm, hp', htidy⟩ := hp.step hs
    rw [htidy hok] at hp'
    exact hp'
  exact hpoised.base

/-! ### Concrete runs -/

/-- The state after a list of actions on a calm host; the first state when one of them is not
possible. -/
def stateAfter (as : List Action) : Kernel := (run step (cbKernelCreate .calm) as).getD (cbKernelCreate .calm)

theorem reachBy_stateAfter {ok : Kernel → Action → Prop} {as : List Action}
    (h : okAlong step ok (cbKernelCreate .calm) as) : ReachBy ok (stateAfter as) := by
  refine ⟨.calm, ?_⟩
  rw [stateAfter]
  cases hr : run step (cbKernelCreate .calm) as with
  | none => exact .init
  | some k => exact reach_of_okAlong hr h

theorem reachable_stateAfter (as : List Action) : Reachable (stateAfter as) := by
  refine ⟨.calm, ?_⟩
  rw [stateAfter]
  cases hr : run step (cbKernelCreate .calm) as with
  | none => exact .init
  | some k => exact reach_of_run hr

/-- The shell is registered, booted and running. -/
def shellStart : List Action := [.register .calm ⟨shName, true⟩, .boot .calm none, .schedule .calm]

/-- A call of the running task. -/
def calls (ops : List Op) : List Action := ops.map fun op => .call .calm op

/-- The path `/d`. -/
def dPath : Bytes := [slash, 100]

end CannedBsd
