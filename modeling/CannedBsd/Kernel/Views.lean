import CannedBsd.Kernel.Programs

/-!
# What a call cannot reach

What a call can reach of the kernel besides nodes, open files and pipes is the calling task, and tasks
that it wakes up. A view of the kernel that depends on none of these is the same before and after the
call. Most calls leave the directory handles and the heap of the calling task alone, too.

* `Reserved.perform`: most calls leave alone what depends on nothing of the calling task but its handles and
  blocks.
* `Beyond.perform`: no call that returns to its task reaches what does not depend on the task.
* `Outside.apiSpawn`, `Beyond.reap`: the calls that change the list of tasks.
-/

namespace CannedBsd

open CannedBsd.Lib

/-! ### Views that most calls of a task cannot reach -/

/-- The handles and the heap blocks of a task. -/
def Task.possessions (task : Task) : (Fin cbMaxDirs → DirHandle) × List Allocation := (task.directories, task.allocations)

/-- A view of the kernel that depends on nothing of a task but its possessions, and not on nodes, open
files, pipes and wake-ups. -/
structure Reserved {β : Type} (t : TaskId) (view : Kernel → β) : Prop extends Aloof view where
  setSpare : ∀ k f, (∀ task, Task.possessions (f task) = task.possessions) → view (k.setTask t f) = view k
  parent : ∀ k child, view (wakeWaitingParent k child) = view k
  current : ∀ k current, view { k with current := current } = view k
  finishing : ∀ k finishing fatal, view { k with finishing := finishing, fatal := fatal } = view k
  calls : ∀ k n, view { k with calls := n } = view k

/-- The calls that return to the same task and leave its possessions alone. -/
def Op.discreet : Op → Bool
  | .spawn _ _ _ _ => false
  | .exec _ _ _ => false
  | .exit _ => false
  | .waitpid _ => false
  | .opendir _ => false
  | .readdir _ _ => false
  | .closedir _ => false
  | .allocate _ => false
  | .resize _ _ => false
  | .release _ => false
  | _ => true

theorem consoleRead_kernel (h : Host) (k : Kernel) (count : ℕ) : (consoleRead h k count).1 = k := by
  rw [consoleRead]
  split
  · rfl
  split
  · rfl
  split <;> rfl

theorem pollLoop_kernel (h : Host) (k : Kernel) (t : TaskId) (fds : List PollFd) : (pollLoop h k t fds).1 = k := by
  rw [pollLoop]
  split
  · rfl
  dsimp only
  split
  · rfl
  split
  · rfl
  split <;> rfl

/-- Registering a program reaches the file system only. -/
theorem cbKernelRegister_vfs (h : Host) (k : Kernel) (program : Program) :
    ∃ v, cbKernelRegister h k program = { k with vfs := v } := by
  unfold cbKernelRegister
  split
  · exact ⟨k.vfs, rfl⟩
  split
  · exact ⟨k.vfs, rfl⟩
  dsimp only
  split
  · exact ⟨_, rfl⟩
  split
  · exact ⟨_, rfl⟩
  split
  · exact ⟨_, rfl⟩
  · exact ⟨_, rfl⟩

namespace Aloof

variable {β : Type} {view : Kernel → β} {t : TaskId}

variable (hv : Aloof view)
include hv

theorem pipeRead (k : Kernel) (p : PipeId) (count : ℕ) : view (pipeRead k p count).1 = view k := by
  rw [CannedBsd.pipeRead]
  split
  · rfl
  split
  · rfl
  split
  · split <;> rfl
  · exact (hv.wake _).trans ((hv.trace _ _).trans (hv.pipes k _))

theorem pipeWriteLoop (p : PipeId) (call : ℕ) (buffer : Bytes) (fuel : ℕ) :
    ∀ (k : Kernel) (total : ℕ), view (pipeWriteLoop p call buffer fuel k total).1 = view k := by
  induction fuel with
  | zero => exact fun k total => rfl
  | succ fuel ih =>
    intro k total
    rw [CannedBsd.pipeWriteLoop]
    split
    · exact hv.trace k _
    split
    · rfl
    split
    · exact hv.trace k _
    split
    · rfl
    · dsimp only
      rw [ih]
      exact (hv.wake _).trans ((hv.trace _ _).trans (hv.pipes k _))

theorem apiRead (h : Host) (k : Kernel) (descriptor : ℤ) (count : ℕ) :
    view (apiRead h k t descriptor count).1 = view k := by
  rw [CannedBsd.apiRead]
  split
  · rfl
  dsimp only
  split
  · rfl
  · rfl
  · split
    · rfl
    split
    · rfl
    · exact (hv.vfs _ _).trans (hv.files k _)
  · split
    · rfl
    · exact hv.pipeRead k _ _
  · split
    · rfl
    · rw [consoleRead_kernel]

theorem apiWrite (hcalls : ∀ k n, view { k with calls := n } = view k) (h : Host) (k : Kernel) (descriptor : ℤ)
    (buffer : Bytes) : view (apiWrite h k t descriptor buffer).1 = view k := by
  rw [CannedBsd.apiWrite]
  split
  · rfl
  dsimp only
  split
  · rfl
  · rfl
  · split
    · rfl
    split
    · rfl
    · exact (hv.vfs _ _).trans (hv.files k _)
  · split
    · rfl
    · exact (hv.pipeWriteLoop _ _ _ _ _ _).trans (hcalls k _)
  · split <;> rfl

end Aloof

namespace Reserved

variable {β : Type} {view : Kernel → β} {t : TaskId}

variable (hv : Reserved t view)
include hv

theorem fdCloseSlot (k : Kernel) (d : Fin cbMaxFds) : view (fdCloseSlot k t d) = view k :=
  hv.toAloof.fdCloseSlot (fun k d entry => hv.setSpare k (fun task =>
    { task with descriptors := Function.update task.descriptors d entry }) fun _ => rfl) k d

theorem fdCloseWhere (p : FdEntry → Bool) (k : Kernel) : view (fdCloseWhere p k t) = view k :=
  hv.toAloof.fdCloseWhere (fun k d entry => hv.setSpare k (fun task =>
    { task with descriptors := Function.update task.descriptors d entry }) fun _ => rfl) p k

theorem fdInstall {k k' : Kernel} {f : FileId} {o : Option (Fin cbMaxFds)} (h : fdInstall k t f = (k', o)) :
    view k' = view k := by
  rw [CannedBsd.fdInstall] at h
  split at h
  · cases h
    exact hv.setSpare k _ fun _ => rfl
  · cases h
    exact hv.setSpare k _ fun _ => rfl

theorem fdInstallAt (k : Kernel) (f : FileId) (d : Fin cbMaxFds) (retain : Bool) :
    view (fdInstallAt k t f d retain) = view k :=
  hv.toAloof.fdInstallAt (fun k d entry => hv.setSpare k (fun task =>
    { task with descriptors := Function.update task.descriptors d entry }) fun _ => rfl) k f d retain

theorem apiClose (k : Kernel) (descriptor : ℤ) : view (apiClose k t descriptor).1 = view k := by
  rw [CannedBsd.apiClose]
  split
  · rfl
  · exact hv.fdCloseSlot k _

theorem apiWrite (h : Host) (k : Kernel) (descriptor : ℤ) (buffer : Bytes) :
    view (apiWrite h k t descriptor buffer).1 = view k :=
  hv.toAloof.apiWrite hv.calls h k descriptor buffer

theorem apiLseek (k : Kernel) (descriptor offset : ℤ) (whence : Whence) :
    view (apiLseek k t descriptor offset whence).1 = view k := by
  rw [CannedBsd.apiLseek]
  split
  · rfl
  dsimp only
  split
  · split
    · rfl
    · exact hv.files k _
  · rfl

theorem apiFtruncate (h : Host) (k : Kernel) (descriptor length : ℤ) :
    view (apiFtruncate h k t descriptor length).1 = view k := by
  rw [CannedBsd.apiFtruncate]
  split
  · rfl
  split
  · rfl
  split
  · split
    · rfl
    · exact hv.vfs k _
  · rfl

theorem apiDup (k : Kernel) (descriptor : ℤ) : view (apiDup k t descriptor).1 = view k := by
  rw [CannedBsd.apiDup]
  split
  · rfl
  rename_i f file hfile
  have hretain : view (cbOpenFileRetain k f) = view k := hv.files k _
  split
  · rename_i heq
    exact (hv.cbOpenFileRelease _ f).trans ((hv.fdInstall heq).trans hretain)
  · rename_i heq
    exact (hv.fdInstall heq).trans hretain

theorem apiDup2 (k : Kernel) (oldDescriptor newDescriptor : ℤ) :
    view (apiDup2 k t oldDescriptor newDescriptor).1 = view k := by
  rw [CannedBsd.apiDup2]
  split
  · split
    · rfl
    · exact hv.fdInstallAt k _ _ _
  · rfl

theorem apiSetCloexec (k : Kernel) (descriptor : ℤ) (enabled : Bool) :
    view (apiSetCloexec k t descriptor enabled).1 = view k := by
  rw [CannedBsd.apiSetCloexec]
  split
  · rfl
  · exact hv.setSpare k _ fun _ => rfl

theorem apiPipe (h : Host) (k : Kernel) : view (apiPipe h k t).1 = view k := by
  rw [CannedBsd.apiPipe]
  split
  · rfl
  dsimp only [cbOpenFileCreate]
  have hread : ∀ files, view { k with pipes := k.pipes.alloc freshPipe, files := files } = view k :=
    fun files => (hv.files { k with pipes := k.pipes.alloc freshPipe } files).trans (hv.pipes k _)
  split
  · exact (hv.cbOpenFileRelease _ _).trans (hread _)
  generalize hk₂ : Kernel.setPipe _ _ _ = k₂
  have hwrite : view k₂ = view k := by
    rw [← hk₂]
    exact (hv.pipes _ _).trans (hread _)
  clear hk₂
  split
  · rename_i heq
    exact (hv.cbOpenFileRelease _ _).trans ((hv.cbOpenFileRelease _ _).trans ((hv.fdInstall heq).trans hwrite))
  rename_i k₃ r heq
  have hreader := (hv.fdInstall heq).trans hwrite
  split
  · rename_i heq'
    exact (hv.cbOpenFileRelease _ _).trans ((hv.fdCloseSlot _ r).trans ((hv.fdInstall heq').trans hreader))
  · rename_i heq'
    exact (hv.fdInstall heq').trans hreader

theorem apiPoll (h : Host) (k : Kernel) (fds : List PollFd) (timeout : ℤ) :
    view (apiPoll h k t fds timeout).1 = view k := by
  rw [CannedBsd.apiPoll]
  split
  · rfl
  split
  · dsimp only
    split
    · exact hv.setSpare k _ fun _ => rfl
    · rw [pollLoop_kernel]
      refine (hv.setSpare _ _ ?_).trans (hv.setSpare k _ ?_)
      · exact fun _ => rfl
      · exact fun _ => rfl
  · rw [pollLoop_kernel]
    exact hv.setSpare k _ fun _ => rfl

theorem openNode {h : Host} {k k' : Kernel} {n : NodeId} {flags : OpenFlags} {r : Except Errno FileId}
    (heq : openNode h k n flags = (k', r)) : view k' = view k := by
  rw [CannedBsd.openNode] at heq
  split at heq
  · cases heq
    rfl
  split at heq
  · cases heq
    rfl
  dsimp only [cbOpenFileCreate] at heq
  split at heq
  · cases heq
    exact hv.vfs k _
  · cases heq
    exact (hv.files _ _).trans ((hv.retainNode _ _).trans (hv.vfs k _))

theorem apiOpen (h : Host) (k : Kernel) (path : Bytes) (flags : OpenFlags) (mode : ℕ) :
    view (apiOpen h k t path flags mode).1 = view k := by
  have hopen : ∀ {k' r}, cbVfsOpen h k (k.viewOf t) path flags mode = (k', r) → view k' = view k := by
    intro k' r heq
    rw [cbVfsOpen] at heq
    split at heq
    · cases heq
      rfl
    split at heq
    · exact hv.openNode heq
    split at heq
    · split at heq
      · cases heq
        rfl
      · exact (hv.openNode heq).trans (hv.vfs k _)
    · cases heq
      rfl
  rw [CannedBsd.apiOpen]
  split
  · rename_i heq
    exact hopen heq
  rename_i k₁ f heq
  split
  · rename_i heq'
    exact (hv.cbOpenFileRelease _ f).trans ((hv.fdInstall heq').trans (hopen heq))
  · rename_i heq'
    exact (hv.fdInstall heq').trans (hopen heq)

theorem vfsOutcome (k : Kernel) (r : Vfs × Except Errno Unit) : view (vfsOutcome k r).1 = view k := by
  obtain ⟨v, r⟩ := r
  cases r with
  | error e => exact hv.vfs k v
  | ok => exact hv.vfs k v

theorem apiChdir (k : Kernel) (path : Bytes) : view (apiChdir k t path).1 = view k := by
  rw [CannedBsd.apiChdir]
  split
  · rfl
  · refine (hv.releaseNode _ _).trans ((hv.setSpare _ _ ?_).trans (hv.retainNode k _))
    exact fun _ => rfl

theorem cbTaskYieldAs (k : Kernel) (state : TaskState) (frame : Frame) :
    view (cbTaskYieldAs k t state frame) = view k :=
  (hv.current _ _).trans (hv.setSpare k _ fun _ => rfl)

theorem deliver (r : Kernel × Outcome) : view (deliver t r) = view r.1 := by
  obtain ⟨k, o⟩ := r
  cases o with
  | done reply out =>
    rw [CannedBsd.deliver]
    refine (hv.setSpare _ _ ?_).trans ?_
    · exact fun _ => rfl
    split
    · rfl
    · exact hv.setSpare k _ fun _ => rfl
  | block state frame => exact hv.cbTaskYieldAs k state frame
  | gone => rfl

theorem apiExec (h : Host) (k : Kernel) (programName : Bytes) (argv : List Bytes) (envp : Option (List Bytes)) :
    view (apiExec h k t programName argv envp).1 = view k := by
  rw [CannedBsd.apiExec]
  split
  · rfl
  rename_i n _
  have hretain := hv.retainNode k (some n)
  dsimp only
  split
  · exact (hv.releaseNode _ _).trans hretain
  · refine (hv.finishing _ _ _).trans ((hv.cbTaskYieldAs _ _ _).trans ((hv.setSpare _ _ ?_).trans hretain))
    exact fun _ => rfl

theorem taskApplyActions (actions : List SpawnAction) : ∀ k, view (taskApplyActions t k actions).1 = view k := by
  induction actions with
  | nil => exact fun k => rfl
  | cons action actions ih =>
    intro k
    rw [CannedBsd.taskApplyActions]
    split
    · exact hv.setSpare k _ fun _ => rfl
    split
    · split
      · split
        · refine (ih _).trans (hv.setSpare k _ ?_)
          exact fun _ => rfl
        · exact (ih _).trans (hv.fdInstallAt k _ _ _)
      · exact hv.setSpare k _ fun _ => rfl
    · split
      · exact ih k
      · exact (ih _).trans (hv.fdCloseSlot k _)
    · exact hv.setSpare k _ fun _ => rfl

theorem inheritDescriptors (k : Kernel) (parent : Task) : view (inheritDescriptors k t parent) = view k := by
  rw [CannedBsd.inheritDescriptors]
  apply foldl_keep
  intro k d
  split
  · rfl
  · refine (hv.setSpare _ _ ?_).trans (hv.files k _)
    exact fun _ => rfl

theorem perform (h : Host) (k : Kernel) {op : Op} (hop : op.discreet = true) : view (perform h k t op).1 = view k := by
  cases op with
  | spawn | exec | exit | waitpid | opendir | readdir | closedir | allocate | resize | release => cases hop
  | getpid | getppid | yield | fstat | stat | getcwd | isatty => rfl
  | openPath path flags mode => exact hv.apiOpen h k path flags mode
  | close descriptor => exact hv.apiClose k descriptor
  | read descriptor count => exact hv.apiRead h k descriptor count
  | write descriptor buffer => exact hv.apiWrite h k descriptor buffer
  | lseek descriptor offset whence => exact hv.apiLseek k descriptor offset whence
  | dup descriptor => exact hv.apiDup k descriptor
  | dup2 oldDescriptor newDescriptor => exact hv.apiDup2 k oldDescriptor newDescriptor
  | setCloexec descriptor enabled => exact hv.apiSetCloexec k descriptor enabled
  | pipe => exact hv.apiPipe h k
  | mkdir path mode => exact hv.vfsOutcome k _
  | unlink path => exact hv.vfsOutcome k _
  | rmdir path => exact hv.vfsOutcome k _
  | rename oldPath newPath => exact hv.vfsOutcome k _
  | chdir path => exact hv.apiChdir k path
  | truncate path length => exact hv.vfsOutcome k _
  | ftruncate descriptor length => exact hv.apiFtruncate h k descriptor length
  | poll fds timeout => exact hv.apiPoll h k fds timeout
  | setErrno error => exact hv.setSpare k _ fun _ => rfl
  | scribble argv environment libc => exact hv.setSpare k _ fun _ => rfl

end Reserved

/-! ### Views that a task cannot reach -/

/-- A view of the kernel that does not depend on a task, and on nodes, open files, pipes and
wake-ups. -/
structure Apart {β : Type} (t : TaskId) (view : Kernel → β) : Prop extends Reserved t view where
  setTask : ∀ k f, view (k.setTask t f) = view k

/-- The calls that neither create nor end nor replace a task nor wait for one. -/
def Op.solitary : Op → Bool
  | .spawn _ _ _ _ => false
  | .exec _ _ _ => false
  | .exit _ => false
  | .waitpid _ => false
  | _ => true

namespace Apart

variable {β : Type} {view : Kernel → β} {t : TaskId}

variable (hv : Apart t view)
include hv

theorem dirCloseAll (k : Kernel) : view (dirCloseAll k t) = view k :=
  hv.toAloof.dirCloseAll (fun k _ _ => hv.setTask k _) k

theorem apiOpendir (k : Kernel) (path : Bytes) : view (apiOpendir k t path).1 = view k := by
  rw [CannedBsd.apiOpendir]
  split
  · rfl
  rename_i n _
  have hretain := hv.retainNode k (some n)
  dsimp only
  split
  · exact (hv.releaseNode _ _).trans hretain
  rename_i first _
  have hfirst := (hv.retainNode _ first).trans hretain
  split
  · exact (hv.setTask _ _).trans hfirst
  · exact (hv.releaseNode _ _).trans ((hv.releaseNode _ _).trans hfirst)

theorem apiReaddir (k : Kernel) (descriptor : ℤ) (nameSize : ℕ) :
    view (apiReaddir k t descriptor nameSize).1 = view k := by
  rw [CannedBsd.apiReaddir]
  split
  · rfl
  split
  · rfl
  split
  · rfl
  split
  · rfl
  split
  · rfl
  · exact (hv.releaseNode _ _).trans ((hv.setTask _ _).trans (hv.retainNode k _))

theorem apiClosedir (k : Kernel) (descriptor : ℤ) : view (apiClosedir k t descriptor).1 = view k := by
  rw [CannedBsd.apiClosedir]
  split
  · rfl
  · exact (hv.releaseNode _ _).trans ((hv.releaseNode _ _).trans (hv.setTask k _))

end Apart

/-! ### Creation -/

/-- A view that the creation of task `c` does not reach. -/
structure Outside {β : Type} (c : TaskId) (view : Kernel → β) : Prop extends Apart c view where
  alloc : ∀ k task, k.tasks.next = c → view { k with tasks := k.tasks.alloc task } = view k
  free : ∀ k, view { k with tasks := k.tasks.free c } = view k
  nextPid : ∀ k n, view { k with nextPid := n } = view k

/-- `task_create` gives up before it has a task, or builds one and settles it. -/
theorem taskCreate_stages (h : Host) (k : Kernel) (parent : Option TaskId) (program : Option ProgramId)
    (argv : List Bytes) (envp : Option (List Bytes)) (actions : List SpawnAction) :
    taskCreate h k parent program argv envp actions = (k, none) ∨
    taskCreate h k parent program argv envp actions = ({ k with nextPid := k.nextPid + 1 }, none) ∨
    ∃ environment, taskCreate h k parent program argv envp actions =
      settleTask h parent program k.tasks.next (taskApplyActions k.tasks.next
        (buildTask k (parent.bind k.task) program argv environment) actions) := by
  rw [taskCreate]
  split
  · exact .inl rfl
  split
  · exact .inl rfl
  dsimp only
  split
  · exact .inr (.inl rfl)
  · exact .inr (.inr ⟨envp.getD (((parent.bind k.task).map Task.environment).getD []), rfl⟩)

section Creation

variable {β : Type} {view : Kernel → β} {k : Kernel} (hv : Outside k.tasks.next view)
include hv

theorem Outside.buildTask (parent : Option Task) (program : Option ProgramId) (argv environment : List Bytes) :
    view (buildTask k parent program argv environment) = view k := by
  have hretain : view (retainNode (retainNode { k with nextPid := k.nextPid + 1 } (startRoot k parent))
      (startCwd k parent)) = view k :=
    (hv.retainNode _ _).trans ((hv.retainNode _ _).trans (hv.nextPid k _))
  have hwith : view (withTask k parent program argv environment) = view k := by
    rw [← hretain, withTask]
    generalize newTask _ _ _ _ _ _ _ = task
    exact hv.alloc (retainNode (retainNode { k with nextPid := k.nextPid + 1 } (startRoot k parent))
      (startCwd k parent)) task rfl
  cases parent with
  | none => exact hwith
  | some task => exact (hv.inheritDescriptors _ task).trans hwith

/-- `task_create` fails, or the new task is put in front of the list. -/
theorem Outside.taskCreate (h : Host) (parent : Option TaskId) (program : Option ProgramId) (argv : List Bytes)
    (envp : Option (List Bytes)) (actions : List SpawnAction) :
    (∃ k', taskCreate h k parent program argv envp actions = (k', none) ∧ view k' = view k) ∨
    ∃ k' pid, taskCreate h k parent program argv envp actions =
      ({ k' with order := k.tasks.next :: k'.order }.record (.spawned parent k.tasks.next pid), some k.tasks.next) ∧
        view k' = view k := by
  rcases taskCreate_stages h k parent program argv envp actions with heq | heq | ⟨environment, heq⟩
  · exact .inl ⟨k, heq, rfl⟩
  · exact .inl ⟨_, heq, hv.nextPid k _⟩
  rw [heq]
  have hacted := (hv.taskApplyActions actions (CannedBsd.buildTask k (parent.bind k.task) program argv environment)).trans
    (hv.buildTask (parent.bind k.task) program argv environment)
  generalize CannedBsd.taskApplyActions k.tasks.next (CannedBsd.buildTask k (parent.bind k.task) program argv environment)
    actions = acted at hacted
  obtain ⟨k', accepted⟩ := acted
  have hfail : view (taskRelease (fdCloseAll k' k.tasks.next) k.tasks.next) = view k := by
    rw [hv.taskRelease hv.free, fdCloseAll, hv.fdCloseWhere]
    exact hacted
  cases accepted with
  | false => exact .inl ⟨_, rfl, hfail⟩
  | true =>
    rw [settleTask]
    split
    · exact .inl ⟨_, rfl, hfail⟩
    · exact .inr ⟨_, _, rfl, (hv.setTask k' _).trans hacted⟩

/-- `api_spawn`, seen by what does not depend on the list of tasks. -/
theorem Outside.apiSpawn
    (hlist : ∀ k order p c pid, view ({ k with order := order }.record (.spawned p c pid)) = view k) (h : Host)
    (t : TaskId) (programName : Bytes) (argv : List Bytes) (envp : Option (List Bytes)) (actions : List SpawnAction) :
    view (apiSpawn h k t programName argv envp actions).1 = view k := by
  rw [CannedBsd.apiSpawn]
  split
  · rfl
  split
  · rfl
  split
  · rfl
  rename_i n _
  have hcreate := @Outside.taskCreate _ _ (CannedBsd.retainNode k (some n)) hv h (some t) (executableOf k n) argv envp actions
  have hretain := hv.retainNode k (some n)
  rcases hcreate with ⟨k', heq, hview⟩ | ⟨k', pid, heq, hview⟩
  · rw [heq]
    exact (hv.releaseNode _ _).trans (hview.trans hretain)
  · rw [heq]
    exact (hv.setTask _ _).trans ((hlist k' _ _ _ pid).trans (hview.trans hretain))

end Creation

/-! ### Views that the heaps cannot reach -/

/-- A view that does not depend on the calls of the host's allocator either. -/
structure Beyond {β : Type} (c : TaskId) (view : Kernel → β) : Prop extends Outside c view where
  heap : ∀ k heap, view { k with heap := heap } = view k
  boot : ∀ k finished status history,
    view { k with bootFinished := finished, bootStatus := status, history := history } = view k

namespace Beyond

variable {β : Type} {view : Kernel → β} {t : TaskId}

variable (hv : Beyond t view)
include hv

theorem apiAllocate (h : Host) (k : Kernel) (size : ℕ) : view (apiAllocate h k t size).1 = view k := by
  rw [CannedBsd.apiAllocate]
  split
  · rfl
  dsimp only
  split
  · exact (hv.heap _ _).trans (hv.heap k _)
  · exact (hv.setTask _ _).trans (hv.heap k _)

theorem unbook (k : Kernel) (pointer : ℕ) : view (unbook k t pointer) = view k := (hv.setTask _ _).trans (hv.heap k _)

theorem apiResize (h : Host) (k : Kernel) (pointer size : ℕ) : view (apiResize h k t pointer size).1 = view k := by
  rw [CannedBsd.apiResize]
  split
  · exact hv.apiAllocate h k size
  split
  · rfl
  split
  · exact hv.unbook k pointer
  split
  · rfl
  · exact (hv.setTask _ _).trans (hv.heap k _)

theorem apiRelease (k : Kernel) (pointer : ℕ) : view (apiRelease k t pointer).1 = view k := by
  rw [CannedBsd.apiRelease]
  split
  · rfl
  split
  · rfl
  · exact hv.unbook k pointer

theorem perform (h : Host) (k : Kernel) {op : Op} (hop : op.solitary = true) : view (perform h k t op).1 = view k := by
  cases hdis : op.discreet with
  | true => exact hv.toReserved.perform h k hdis
  | false =>
    cases op with
    | opendir path => exact hv.apiOpendir k path
    | readdir descriptor nameSize => exact hv.apiReaddir k descriptor nameSize
    | closedir descriptor => exact hv.apiClosedir k descriptor
    | allocate size => exact hv.apiAllocate h k size
    | resize pointer size => exact hv.apiResize h k pointer size
    | release pointer => exact hv.apiRelease k pointer
    | spawn | exec | exit | waitpid => cases hop
    | _ => cases hdis

theorem taskReleaseAllocations (k : Kernel) : view (taskReleaseAllocations k t) = view k := by
  rw [CannedBsd.taskReleaseAllocations, hv.setTask, hv.heap]

theorem apiExit (k : Kernel) (status : ℤ) : view (apiExit k t status) = view k := by
  have hclosed : view (CannedBsd.dirCloseAll (fdCloseAll (CannedBsd.taskReleaseAllocations k t) t) t) = view k := by
    rw [hv.dirCloseAll, fdCloseAll, hv.fdCloseWhere, hv.taskReleaseAllocations]
  rw [apiExit_eq]
  generalize CannedBsd.dirCloseAll (fdCloseAll (CannedBsd.taskReleaseAllocations k t) t) t = k₁ at hclosed ⊢
  cases ht : k₁.task t with
  | none => exact hclosed
  | some task =>
    have hretire : view (retire k₁ t task status) = view k₁ := by
      obtain ⟨finished, bootStatus, heq⟩ := retire_eq k₁ t task status
      rw [heq]
      exact (hv.boot _ _ _ _).trans (hv.setTask k₁ _)
    exact (hv.current _ _).trans ((hv.parent _ _).trans (hretire.trans hclosed))

theorem taskFinishExec (h : Host) (k : Kernel) : view (taskFinishExec h k t) = view k := by
  have hinstall : ∀ k, view (installProgram k t) = view k := by
    intro k
    rw [installProgram]
    split
    · rfl
    · exact (hv.releaseNode _ _).trans (hv.setTask k _)
  have hstart : ∀ k, view (startInstance h k t) = view k := by
    intro k
    rw [startInstance]
    split
    · rfl
    · exact (hv.finishing _ _ _).trans (hv.setTask k _)
  rw [CannedBsd.taskFinishExec, hstart, hinstall, hv.dirCloseAll, hv.fdCloseWhere, hv.taskReleaseAllocations]
  exact hv.setTask k _

/-- Reaping a task, seen by what does not depend on the list of tasks. -/
theorem reap (hlist : ∀ k order cursor, view { k with order := order, scheduleCursor := cursor } = view k) (k : Kernel) :
    view (reap k t) = view k := by
  rw [CannedBsd.reap, taskDestroy, hv.taskRelease hv.free, hv.dirCloseAll, fdCloseAll, hv.fdCloseWhere,
    hv.taskReleaseAllocations, hv.setTask]
  exact hlist k _ _

end Beyond

end CannedBsd
