import CannedBsd.Kernel.Privacy

/-!
# What belongs to a task

The directory handles and the heap blocks of a task change by its own calls on them, and when the task
exits, is replaced or is reaped. No other step reaches them.

* `remains_step`: a step keeps the handles and the blocks of a task that neither calls for them nor ends nor
  is replaced.
-/

namespace CannedBsd

open CannedBsd.Lib

variable {k k' : Kernel} {t : TaskId}

/-- The handles and the heap blocks of a task in a state. -/
def ownOf (t : TaskId) (k : Kernel) : Option ((Fin cbMaxDirs → DirHandle) × List Allocation) :=
  (k.task t).map Task.possessions

theorem possessions_wakePipeTask (task : Task) : (wakePipeTask task).possessions = task.possessions := by
  rw [wakePipeTask]
  split
  · rfl
  split <;> rfl

theorem ownOf_wakeWaitingParent (t : TaskId) (k : Kernel) (child : Task) :
    ownOf t (wakeWaitingParent k child) = ownOf t k := by
  rw [wakeWaitingParent]
  split
  · rfl
  · exact field_setTask Task.possessions k _ t fun _ => rfl

/-- What belongs to a task is out of reach of most calls, also of its own. -/
theorem reserved_ownOf (t c : TaskId) : Reserved c (ownOf t) where
  toAloof := aloof_field Task.possessions possessions_wakePipeTask t
  setSpare k _ hf := field_setTask Task.possessions k c t hf
  parent := ownOf_wakeWaitingParent t
  current _ _ := rfl
  finishing _ _ _ := rfl
  calls _ _ := rfl

/-- What belongs to a task is out of reach of all calls of another one. -/
theorem beyond_ownOf {t c : TaskId} (hne : t ≠ c) : Beyond c (ownOf t) where
  toReserved := reserved_ownOf t c
  setTask k f := congrArg (Option.map Task.possessions) (Kernel.task_setTask_of_ne k f hne)
  alloc k task hnext := by
    have hfresh : t ≠ k.tasks.next := hnext ▸ hne
    exact congrArg (Option.map Task.possessions) (Heap.get_alloc_of_ne k.tasks task hfresh)
  free k := by
    refine congrArg (Option.map Task.possessions) ?_
    rw [Kernel.task, Heap.get_free, if_neg hne]
    rfl
  nextPid _ _ := rfl
  heap _ _ := rfl
  boot _ _ _ _ := rfl

/-! ### Calls -/

/-- The calls of a task on what belongs to it. -/
def Op.handles : Op → Bool
  | .opendir _ => true
  | .readdir _ _ => true
  | .closedir _ => true
  | .allocate _ => true
  | .resize _ _ => true
  | .release _ => true
  | _ => false

/-- The calls that create a task. -/
def Op.creates : Op → Bool
  | .spawn _ _ _ _ => true
  | _ => false

/-- What belongs to a task stays, or the task was a zombie and is gone. -/
def Remains (t : TaskId) (k k' : Kernel) : Prop :=
  ownOf t k' = ownOf t k ∨ (∃ task, k.task t = some task ∧ task.state = .zombie) ∧ k'.task t = none

theorem remains_apiWaitpid (k : Kernel) (t c : TaskId) (pid : ℤ) : Remains t k (apiWaitpid k c pid).1 := by
  have hround := apiWaitpid_round k c pid
  generalize apiWaitpid k c pid = r at hround
  cases hround with
  | kept o => exact .inl rfl
  | noted o => exact .inl ((reserved_ownOf t c).setSpare k _ fun _ => rfl)
  | @reaped parent child b hparent hmem hchild hppid hzombie =>
    have hgone := task_reap_self (k.record (.reaped c b child.pid child.exitStatus)) b
    have hothers : t ≠ b → ownOf t (reap (k.record (.reaped c b child.pid child.exitStatus)) b) = ownOf t k :=
      fun hne => (beyond_ownOf hne).reap (fun _ _ _ => rfl) (k.record (.reaped c b child.pid child.exitStatus))
    dsimp only
    generalize reap (k.record (.reaped c b child.pid child.exitStatus)) b = k' at hgone hothers ⊢
    by_cases htb : t = b
    · subst htb
      exact .inr ⟨⟨child, hchild, hzombie⟩, hgone⟩
    · exact .inl (hothers htb)

/-- A call keeps what belongs to a task, unless the task calls for it or exits. -/
theorem remains_perform {c : TaskId} {op : Op} (h : Host) (hnew : op.creates = true → t ≠ k.tasks.next)
    (hown : c = t → op.handles = false ∧ ∀ status, op ≠ .exit status) : Remains t k (perform h k c op).1 := by
  by_cases hdis : op.discreet = true
  · exact .inl ((reserved_ownOf t c).perform h k hdis)
  have hother : op.handles = true → t ≠ c := by
    rintro hop rfl
    rw [(hown rfl).1] at hop
    cases hop
  cases op with
  | spawn programName argv envp actions =>
    exact .inl ((beyond_ownOf (hnew rfl)).apiSpawn (fun _ _ _ _ _ => rfl) h c programName argv envp actions)
  | exec programName argv envp => exact .inl ((reserved_ownOf t c).apiExec h k programName argv envp)
  | exit status =>
    have hne : t ≠ c := by
      rintro rfl
      exact (hown rfl).2 status rfl
    have hexit := (beyond_ownOf hne).apiExit k status
    dsimp only [perform]
    generalize apiExit k c status = k' at hexit ⊢
    exact .inl hexit
  | waitpid pid => exact remains_apiWaitpid k t c pid
  | opendir | readdir | closedir | allocate | resize | release =>
    exact .inl ((beyond_ownOf (hother rfl)).perform h k rfl)
  | _ => exact absurd rfl hdis

theorem Remains.deliver {c : TaskId} {r : Kernel × Outcome} (h : Remains t k r.1) : Remains t k (deliver c r) := by
  have hdeliver := (reserved_ownOf t c).deliver r
  rcases h with heq | ⟨hzombie, hgone⟩
  · exact .inl (hdeliver.trans heq)
  · refine .inr ⟨hzombie, ?_⟩
    rw [ownOf, ownOf, hgone, Option.map_none] at hdeliver
    exact Option.map_eq_none_iff.mp hdeliver

/-! ### Steps -/

theorem ownOf_of_settled {k k' : Kernel} (h : (k'.task t).map Task.settled = (k.task t).map Task.settled) :
    ownOf t k' = ownOf t k := by
  have hmap := congrArg (Option.map fun s : Task × Bool => s.1.possessions) h
  rw [Option.map_map, Option.map_map] at hmap
  exact hmap

/-- A task that goes on keeps what belongs to every task, but for its own when it is interrupted. -/
theorem remains_resume (h : Host) (k : Kernel) (c : TaskId) (hown : c = t → ((k.task c).any Task.interrupted) = false) :
    Remains t k (resume h k c) := by
  have hv := reserved_ownOf t c
  rw [resume]
  split
  · exact .inl rfl
  rename_i runner hrunner
  split
  · rename_i hint
    have hne : t ≠ c := by
      rintro rfl
      have hno := hown rfl
      rw [hrunner] at hno
      simp [Task.interrupted, hint] at hno
    refine .inl ?_
    rw [(beyond_ownOf hne).apiExit, (beyond_ownOf hne).setTask]
  split
  · exact .inl (hv.setSpare k _ fun _ => rfl)
  · exact .inl rfl
  · exact .inl ((hv.deliver _).trans (hv.pipeRead k _ _))
  · exact .inl ((hv.deliver _).trans (hv.pipeWriteLoop _ _ _ _ _ _))
  · refine .inl ((hv.deliver _).trans ?_)
    rw [consoleRead_kernel]
  · exact (remains_apiWaitpid k t c _).deliver
  · refine .inl ((hv.deliver _).trans ?_)
    rw [pollLoop_kernel]

theorem remains_scheduleRound {h : Host} (hclose : closesHandles k (.schedule h) ≠ some t) :
    Remains t k (scheduleRound h k) := by
  have hroused : ownOf t (roused h k) = ownOf t k := ownOf_of_settled (settled_roused h t k)
  have hzombie : (∃ task, (roused h k).task t = some task ∧ task.state = .zombie) →
      ∃ task, k.task t = some task ∧ task.state = .zombie := by
    rintro ⟨task, ht, hstate⟩
    have hset := settled_roused h t k
    rw [ht, Option.map_some] at hset
    obtain ⟨old, hold, heq⟩ := Option.map_eq_some_iff.mp hset.symm
    have hflag : decide (old.state = .zombie) = decide (task.state = .zombie) := congrArg Prod.snd heq
    rw [decide_eq_true hstate] at hflag
    exact ⟨old, hold, of_decide_eq_true hflag⟩
  rw [scheduleRound_eq]
  cases hpick : pickRunnable (roused h k) with
  | none => exact .inl ((ownOf_of_settled (settled_idleRound h t (roused h k))).trans hroused)
  | some c =>
    dsimp only
    have hown : c = t → ((dispatch (roused h k) c).task c).any Task.interrupted = false := by
      rintro rfl
      rw [closesHandles, hpick] at hclose
      have hself : (dispatch (roused h k) c).task c = ((roused h k).task c).map fun y => { y with state := .running } :=
        Heap.get_modify_self _ _ _
      rw [hself, Option.any_map]
      cases hany : ((roused h k).task c).any Task.interrupted with
      | false => exact hany
      | true =>
        rw [Option.filter_some, if_pos hany] at hclose
        exact absurd rfl hclose
    have hgo := remains_resume h (dispatch (roused h k) c) c hown
    have hdispatch : ownOf t (dispatch (roused h k) c) = ownOf t (roused h k) :=
      (reserved_ownOf t c).setSpare (roused h k) (fun task => { task with state := .running }) fun _ => rfl
    generalize resume h (dispatch (roused h k) c) c = k' at hgo ⊢
    rcases hgo with heq | ⟨⟨task, ht, hstate⟩, hgone⟩
    · exact .inl (heq.trans (hdispatch.trans hroused))
    · refine .inr ⟨hzombie ?_, hgone⟩
      by_cases htc : t = c
      · subst htc
        rw [dispatch] at ht
        obtain ⟨old, -, rfl⟩ := Option.map_eq_some_iff.mp ((Heap.get_modify_self _ _ _).symm.trans ht)
        cases hstate
      · exact ⟨task, (Kernel.task_setTask_of_ne _ _ htc).symm.trans ht, hstate⟩

theorem ownOf_cbKernelBoot (h : Host) (k : Kernel) (command : Option Bytes) (hne : t ≠ k.tasks.next) :
    ownOf t (cbKernelBoot h k command) = ownOf t k := by
  have hv : Beyond k.tasks.next (ownOf t) := beyond_ownOf hne
  have hwith : ∀ n argv, ownOf t (bootWith h k n argv) = ownOf t k := by
    intro n argv
    have hretain := hv.retainNode k (some n)
    rw [bootWith]
    rcases @Outside.taskCreate _ _ (retainNode k (some n)) hv.toOutside h none (executableOf k n) argv
        (some [homeSetting, pathSetting]) [] with ⟨k', heq, hview⟩ | ⟨k', e, heq, hview⟩
    · rw [heq]
      exact (hv.releaseNode _ _).trans (hview.trans hretain)
    rw [heq]
    dsimp only [bootConsole]
    split
    · exact (hv.setTask _ _).trans (hview.trans hretain)
    · dsimp only [cbOpenFileCreate]
      refine (hv.fdInstallAt _ _ _ _).trans ((hv.fdInstallAt _ _ _ _).trans ((hv.fdInstallAt _ _ _ _).trans ?_))
      exact (hv.setTask _ _).trans (hview.trans hretain)
  unfold cbKernelBoot
  split
  · rfl
  split
  · rfl
  · exact hwith _ _

/-- The step is a call of the task on what belongs to it. -/
def handlesOwn (k : Kernel) (t : TaskId) : Action → Bool
  | .call _ op => decide (k.current = some t) && op.handles
  | _ => false

/-- The step creates a task. -/
def creates : Action → Bool
  | .call _ op => op.creates
  | .boot _ _ => true
  | _ => false

/-- **Possessions.**  A step keeps the directory handles and the heap blocks of a task that neither calls
for them nor ends nor is replaced nor is created; a zombie may go. -/
theorem remains_step {a : Action} (hs : step k a = some k') (hnew : creates a = true → t ≠ k.tasks.next)
    (hown : handlesOwn k t a = false) (hclose : closesHandles k a ≠ some t) : Remains t k k' := by
  unfold step at hs
  split at hs
  · cases hs
  cases a with
  | call h op =>
    cases hc : k.current with
    | none => simp [hc] at hs
    | some c =>
      simp only [hc, Option.some.injEq] at hs
      subst hs
      refine (remains_perform h hnew fun hct => ⟨?_, ?_⟩).deliver
      · simpa [handlesOwn, hc, hct] using hown
      · rintro status rfl
        refine hclose ?_
        rw [closesHandles, leaves, hc, hct]
  | schedule h =>
    dsimp only at hs
    split at hs
    · rw [Option.some.injEq] at hs
      subst hs
      exact remains_scheduleRound hclose
    · cases hs
  | finishExec h =>
    obtain ⟨c, hc, rfl⟩ := Option.map_eq_some_iff.mp hs
    have hne : t ≠ c := by
      rintro rfl
      exact hclose hc
    have hfinish := (beyond_ownOf hne).taskFinishExec h k
    generalize taskFinishExec h k c = k' at hfinish ⊢
    exact .inl hfinish
  | requestInterrupt pid =>
    cases hs
    refine .inl ?_
    rw [cbKernelRequestInterrupt]
    split
    · rfl
    split
    · rfl
    split
    · rfl
    split
    · rfl
    split
    · rfl
    · exact field_setTask Task.possessions k _ t fun _ => rfl
  | setInterrupt c disposition =>
    dsimp only at hs
    split at hs
    · cases hs
      refine .inl ?_
      rw [cbTaskSetInterrupt]
      split
      · rfl
      split
      · rfl
      split
      · rfl
      · exact field_setTask Task.possessions k _ t fun _ => rfl
    · cases hs
  | mountCreate h =>
    cases hs
    exact .inl rfl
  | mountPath c path m =>
    dsimp only at hs
    split at hs
    · cases hs
      exact .inl rfl
    · cases hs
  | register h program =>
    rw [Option.some.injEq] at hs
    subst hs
    obtain ⟨v, heq⟩ := cbKernelRegister_vfs h k program
    rw [heq]
    exact .inl rfl
  | boot h command =>
    rw [Option.some.injEq] at hs
    subst hs
    exact .inl (ownOf_cbKernelBoot h k command (hnew rfl))

end CannedBsd
