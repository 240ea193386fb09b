import CannedBsd.Kernel.Calls

/-!
# Tasks and the scheduler

Creation, replacement, termination and waiting of `src/core.c`, interrupts, and `cb_kernel_run`.
A running task makes calls until one of them suspends or ends it; then the scheduler picks the next
runnable task and resumes it where its frame says.

A step of the kernel is one call of the running task, one round of the scheduler loop, the end of an
`exec`, or an operation of the embedding program between them.
-/

namespace CannedBsd

open CannedBsd.Lib

/-! ### Creation -/

/-- `task_apply_actions`; the flag is false when an action is refused. -/
def taskApplyActions (t : TaskId) : Kernel → List SpawnAction → Kernel × Bool
  | k, [] => (k, true)
  | k, action :: actions =>
    if !action.versionOk then (k.setError t Errno.einval.code, false)
    else
      match action.type with
      | .dup2 =>
        match fileOf k t action.fromFd, fdSlot action.toFd with
        | some (f, _), some d =>
          if action.fromFd = action.toFd then
            taskApplyActions t (k.setSlot t d (some ⟨f, false⟩)) actions
          else taskApplyActions t (fdInstallAt k t f d true) actions
        | _, _ => (k.setError t Errno.ebadf.code, false)
      | .close =>
        match fdSlot action.fromFd with
        | none => taskApplyActions t k actions
        | some d => taskApplyActions t (fdCloseSlot k t d) actions
      | .other => (k.setError t Errno.einval.code, false)

/-- The fields of a new task; its descriptors are inherited afterwards. -/
def newTask (pid : ℕ) (parent : Option Task) (program : Option ProgramId)
    (argv environment : List Bytes) (root cwd : Option NodeId) : Task where
  pid := pid
  ppid := (parent.map Task.pid).getD 0
  state := .runnable
  frame := .entry
  interruptIgnored := (parent.map Task.interruptIgnored).getD false
  interruptPending := false
  execution := none
  program := program
  argv := argv
  environment := environment
  executableNode := none
  pendingExecutableNode := none
  pendingProgram := none
  pendingArgv := []
  pendingEnvironment := []
  descriptors := fun _ => none
  directories := fun _ => ⟨none, none, false⟩
  root := root
  cwd := cwd
  errorCell := 0
  exitStatus := 0
  waitingFor := 0
  wakeReason := .none
  wakeStart := 0
  wakeTimeout := 0
  allocations := []
  libc := .start

/-- Copy the descriptors of the parent, with a reference for each. -/
def inheritDescriptors (k : Kernel) (t : TaskId) (parent : Task) : Kernel :=
  (List.finRange cbMaxFds).foldl
    (fun k d =>
      match parent.descriptors d with
      | none => k
      | some entry => (cbOpenFileRetain k entry.file).setSlot t d (some entry)) k

/-- Free a task and release the nodes it holds. -/
def taskRelease (k : Kernel) (t : TaskId) : Kernel :=
  match k.task t with
  | none => k
  | some task =>
    let k := { k with tasks := k.tasks.free t }
    let k := releaseNode k task.executableNode
    let k := releaseNode k task.pendingExecutableNode
    let k := releaseNode k task.cwd
    releaseNode k task.root

/-- `task_create`. -/
def taskCreate (h : Host) (k : Kernel) (parent : Option TaskId) (program : Option ProgramId)
    (argv : List Bytes) (envp : Option (List Bytes)) (actions : List SpawnAction) :
    Kernel × Option TaskId :=
  if intMax < argv.length then (k, none)
  else if !(h.allocate .task && h.allocate .errorCell) then (k, none)
  else
    let parentTask := parent.bind k.task
    let k := { k with nextPid := k.nextPid + 1 }
    if !(h.allocate .argv && h.allocate .environment) then (k, none)
    else
      let environment := envp.getD ((parentTask.map Task.environment).getD [])
      let root := (parentTask.map Task.root).getD (some k.vfs.vfsRoot)
      let cwd := (parentTask.map Task.cwd).getD (some k.vfs.vfsRoot)
      let k := retainNode (retainNode k root) cwd
      let t := k.tasks.next
      let k := { k with
        tasks := k.tasks.alloc (newTask k.nextPid parentTask program argv environment root cwd) }
      let k := match parentTask with
        | none => k
        | some task => inheritDescriptors k t task
      match taskApplyActions t k actions with
      | (k, false) => (taskRelease (fdCloseAll k t) t, none)
      | (k, true) =>
        if program = none ∨ h.allocate .execution = false then (taskRelease (fdCloseAll k t) t, none)
        else
          let k := k.setTask t fun task => { task with execution := task.program }
          ({ k with order := t :: k.order }.record
            (.spawned parent t (((k.task t).map Task.pid).getD 0)), some t)

/-- `task_release_allocations`. -/
def taskReleaseAllocations (k : Kernel) (t : TaskId) : Kernel :=
  let given := (((k.task t).map Task.allocations).getD []).map fun a => HeapCall.gave a.pointer
  { k with heap := k.heap ++ given }.setTask t fun task =>
    { task with allocations := [], libc := { task.libc with inputStreams := none } }

/-- `task_destroy`. -/
def taskDestroy (k : Kernel) (t : TaskId) : Kernel :=
  taskRelease (dirCloseAll (fdCloseAll (taskReleaseAllocations k t) t) t) t

/-- The program of an executable node. -/
def executableOf (k : Kernel) (n : NodeId) : Option ProgramId := (k.vfs.node n).bind Node.executable

def apiSpawn (h : Host) (k : Kernel) (t : TaskId) (programName : Bytes) (argv : List Bytes)
    (envp : Option (List Bytes)) (actions : List SpawnAction) : Kernel × Outcome :=
  if argv = [] then (k, .fail .einval)
  else if intMax < argv.length then (k, .fail .einval)
  else
    match resolveExecutableNode k.vfs (k.viewOf t) programName with
    | .error e => (k, .fail e)
    | .ok n =>
      match taskCreate h (retainNode k (some n)) (some t) (executableOf k n) argv envp actions with
      | (k, none) => (releaseNode k (some n), .fail .enomem)
      | (k, some child) =>
        (k.setTask child fun task => { task with executableNode := some n },
          .done (.done 0) (.pid (((k.task child).map Task.pid).getD 0)))

/-! ### Replacement -/

/-- `cb_executor_supports_interrupt` of the executor of a program. -/
def supportsInterrupt (v : Vfs) (program : Option ProgramId) : Bool :=
  (program.bind v.programs.get).any Program.interrupt

/-- May a task with this interrupt state go on with a program of that executor? -/
def execBarred (k : Kernel) (task : Task) (program : Option ProgramId) : Bool :=
  (task.interruptPending || task.interruptIgnored) && !supportsInterrupt k.vfs program

/-- `api_exec` up to `cb_vfs_node_retain`: the node of the new program. -/
def execTarget (k : Kernel) (t : TaskId) (programName : Bytes) (argv : List Bytes) :
    Except Errno NodeId :=
  match k.task t with
  | none => .error .eio
  | some task =>
    if argv = [] then .error .einval
    else if intMax < argv.length then .error .einval
    else
      match resolveExecutableNode k.vfs (k.viewOf t) programName with
      | .error e => .error e
      | .ok n => if execBarred k task (executableOf k n) then .error .enosys else .ok n

/-- The checks of `api_exec` behind the copies of its vectors. Interrupts that arrived during the
allocations are seen by the second look at the executor. -/
def execRefusal (h : Host) (k : Kernel) (t : TaskId) (n : NodeId) : Option Errno :=
  if !(h.allocate .argv && h.allocate .environment) then some .enomem
  else if (k.task t).any fun task => execBarred k task (executableOf k n) then some .enosys
  else none

/-- The end of `api_exec`: publish the replacement and suspend the task. -/
def execPublish (k : Kernel) (t : TaskId) (n : NodeId) (argv : List Bytes) (envp : Option (List Bytes)) :
    Kernel :=
  let k := k.setTask t fun task =>
    { task with
      pendingExecutableNode := some n
      pendingProgram := executableOf k n
      pendingArgv := argv
      pendingEnvironment := envp.getD task.environment }
  { cbTaskYieldAs k t .execPending .entry with finishing := some t }

def apiExec (h : Host) (k : Kernel) (t : TaskId) (programName : Bytes) (argv : List Bytes)
    (envp : Option (List Bytes)) : Kernel × Outcome :=
  match execTarget k t programName argv with
  | .error e => (k, .fail e)
  | .ok n =>
    let k := retainNode k (some n)
    match execRefusal h k t n with
    | some e => (releaseNode k (some n), .fail e)
    | none => (execPublish k t n argv envp, .gone)

/-- `task_finish_exec` destroys the instance of the old program. -/
def destroyInstance (k : Kernel) (t : TaskId) : Kernel :=
  k.setTask t fun task => { task with execution := none }

/-- `task_finish_exec` installs the new program and releases the node of the old one. -/
def installProgram (k : Kernel) (t : TaskId) : Kernel :=
  match k.task t with
  | none => k
  | some task =>
    let k := k.setTask t fun task =>
      { task with
        program := task.pendingProgram
        argv := task.pendingArgv
        environment := task.pendingEnvironment
        executableNode := task.pendingExecutableNode
        pendingExecutableNode := none }
    releaseNode k task.executableNode

/-- `task_finish_exec` clears what belonged to the old program and creates the instance of the new
one; without an instance it ends in `host->fatal`. -/
def startInstance (h : Host) (k : Kernel) (t : TaskId) : Kernel :=
  match k.task t with
  | none => k
  | some task =>
    let k := k.setTask t fun task =>
      { task with
        libc := { LibcState.start with inputStreams := task.libc.inputStreams }
        pendingProgram := none
        pendingArgv := []
        pendingEnvironment := []
        errorCell := 0
        execution := if h.allocate .execution then task.program else none
        state := .runnable
        frame := .entry }
    { k with
      finishing := none
      fatal := if task.program = none ∨ h.allocate .execution = false then some .execution
        else k.fatal }

/-- `task_finish_exec`. -/
def taskFinishExec (h : Host) (k : Kernel) (t : TaskId) : Kernel :=
  let k := taskReleaseAllocations (destroyInstance k t) t
  let k := fdCloseWhere FdEntry.closeOnExec k t
  let k := dirCloseAll k t
  startInstance h (installProgram k t) t

/-! ### Termination and waiting -/

/-- Does the task wait for this child? -/
def waitsFor (child : Task) (task : Task) : Bool :=
  decide (task.pid = child.ppid) && decide (task.state = .blockedWait) &&
    (decide (task.waitingFor = child.pid) || decide (task.waitingFor = -1))

def wakeWaitingParent (k : Kernel) (child : Task) : Kernel :=
  match k.order.find? fun t => (k.task t).any (waitsFor child) with
  | none => k
  | some t => k.setTask t fun task => { task with wakeReason := .childExited, state := .runnable }

/-- `api_exit`. -/
def apiExit (k : Kernel) (t : TaskId) (status : ℤ) : Kernel :=
  let k := dirCloseAll (fdCloseAll (taskReleaseAllocations k t) t) t
  match k.task t with
  | none => k
  | some task =>
    let k := k.setTask t fun task => { task with exitStatus := status % 256, state := .zombie }
    let k := if task.pid = k.bootPid then
      { k with bootFinished := true, bootStatus := status % 256 } else k
    { wakeWaitingParent (k.record (.exited t status)) task with current := none }

/-- Is the task an unreaped child of `parent` that `waitpid(pid)` asks for? -/
def isChild (parent : Task) (pid : ℤ) (task : Task) : Bool :=
  decide (task.ppid = parent.pid) && (decide (pid = -1) || decide ((task.pid : ℤ) = pid))

/-- The children `find_waitable_child` looks at. -/
def childrenOf (k : Kernel) (parent : Task) (pid : ℤ) : List TaskId :=
  k.order.filter fun t => (k.task t).any (isChild parent pid)

/-- Take a zombie out of the list and destroy it. -/
def reap (k : Kernel) (child : TaskId) : Kernel :=
  let k := { k with
    order := k.order.erase child
    scheduleCursor := if k.scheduleCursor = some child then none else k.scheduleCursor }
  taskDestroy (k.setTask child fun task => { task with state := .dead }) child

/-- One round of the loop of `api_waitpid`. -/
def apiWaitpid (k : Kernel) (t : TaskId) (pid : ℤ) : Kernel × Outcome :=
  match k.task t with
  | none => (k, .fail .eio)
  | some parent =>
    match (childrenOf k parent pid).find? fun c => (k.task c).any fun task => task.state = .zombie with
    | some c =>
      match k.task c with
      | none => (k, .fail .eio)
      | some child =>
        (reap (k.record (.reaped t c child.pid child.exitStatus)) c,
          .done (.done child.pid) (.status child.exitStatus))
    | none =>
      if childrenOf k parent pid = [] then (k, .fail .echild)
      else
        (k.setTask t fun task => { task with waitingFor := pid }, .block .blockedWait (.waitpid pid))

/-! ### Interrupts -/

/-- `task_interrupt_supported`. -/
def taskInterruptSupported (k : Kernel) (task : Task) : Bool :=
  supportsInterrupt k.vfs task.program &&
    (decide (task.state ≠ .execPending) || decide (task.pendingProgram = none) ||
      supportsInterrupt k.vfs task.pendingProgram)

/-- The `disposition` argument of `cb_task_set_interrupt`; `other` is any value the source does not
know. -/
inductive Disposition
  | default | ignore | other
  deriving DecidableEq, Repr

/-- `cb_task_set_interrupt`; on success it stores whether the task ignored interrupts before. -/
def cbTaskSetInterrupt (k : Kernel) (t : TaskId) (disposition : Disposition) : Kernel × Except Errno Bool :=
  match k.task t with
  | none => (k, .error .einval)
  | some task =>
    if disposition = .other then (k, .error .einval)
    else if !taskInterruptSupported k task then (k, .error .enosys)
    else
      (k.setTask t fun task =>
        { task with
          interruptIgnored := decide (disposition = .ignore)
          interruptPending := if disposition = .ignore then false else task.interruptPending },
        .ok task.interruptIgnored)

def blocked (state : TaskState) : Bool :=
  decide (state = .blockedPipe ∨ state = .blockedConsole ∨ state = .blockedWait ∨ state = .blockedPoll)

def cbKernelRequestInterrupt (k : Kernel) (pid : ℤ) : Kernel × Except Errno Unit :=
  match k.order.find? fun t => (k.task t).any fun task => (task.pid : ℤ) = pid with
  | none => (k, .error .enoent)
  | some t =>
    match k.task t with
    | none => (k, .error .enoent)
    | some task =>
      if task.state = .zombie ∨ task.state = .dead then (k, .error .enoent)
      else if !taskInterruptSupported k task then (k, .error .enosys)
      else if task.interruptIgnored then (k, .ok ())
      else
        (k.setTask t fun task =>
          { task with
            interruptPending := true
            state := if blocked task.state then .runnable else task.state }, .ok ())

/-! ### Calls of the running task -/

/-- The calls of `struct cb_api_v1` that the model covers. -/
inductive Op
  | getpid
  | getppid
  | spawn (programName : Bytes) (argv : List Bytes) (envp : Option (List Bytes))
      (actions : List SpawnAction)
  | exec (programName : Bytes) (argv : List Bytes) (envp : Option (List Bytes))
  | exit (status : ℤ)
  | waitpid (pid : ℤ)
  | yield
  | openPath (path : Bytes) (flags : OpenFlags) (mode : ℕ)
  | close (descriptor : ℤ)
  | read (descriptor : ℤ) (count : ℕ)
  | write (descriptor : ℤ) (buffer : Bytes)
  | lseek (descriptor : ℤ) (offset : ℤ) (whence : Whence)
  | dup (descriptor : ℤ)
  | dup2 (oldDescriptor newDescriptor : ℤ)
  | setCloexec (descriptor : ℤ) (enabled : Bool)
  | pipe
  | fstat (descriptor : ℤ)
  | stat (path : Bytes)
  | mkdir (path : Bytes) (mode : ℕ)
  | unlink (path : Bytes)
  | rmdir (path : Bytes)
  | rename (oldPath newPath : Bytes)
  | chdir (path : Bytes)
  | getcwd (size : ℕ)
  | truncate (path : Bytes) (length : ℤ)
  | ftruncate (descriptor : ℤ) (length : ℤ)
  | poll (fds : List PollFd) (timeout : ℤ)
  | isatty (descriptor : ℤ)
  | opendir (path : Bytes)
  | readdir (descriptor : ℤ) (nameSize : ℕ)
  | closedir (descriptor : ℤ)
  | setErrno (error : ℤ)
  | allocate (size : ℕ)
  | resize (pointer size : ℕ)
  | release (pointer : ℕ)
  /-- The program writes to its vectors and to the state libc keeps for it, or through `setenv` and
  `unsetenv`. -/
  | scribble (argv environment : List Bytes) (libc : LibcState)
  deriving DecidableEq

/-- Run a call of task `t`. -/
def perform (h : Host) (k : Kernel) (t : TaskId) : Op → Kernel × Outcome
  | .getpid => (k, .done ⟨((k.task t).map Task.pid).getD 0, [], none⟩ .none)
  | .getppid => (k, .done ⟨((k.task t).map Task.ppid).getD 0, [], none⟩ .none)
  | .spawn programName argv envp actions => apiSpawn h k t programName argv envp actions
  | .exec programName argv envp => apiExec h k t programName argv envp
  | .exit status => (apiExit k t status, .gone)
  | .waitpid pid => apiWaitpid k t pid
  | .yield => (k, .block .runnable .program)
  | .openPath path flags mode => apiOpen h k t path flags mode
  | .close descriptor => apiClose k t descriptor
  | .read descriptor count => apiRead h k t descriptor count
  | .write descriptor buffer => apiWrite h k t descriptor buffer
  | .lseek descriptor offset whence => apiLseek k t descriptor offset whence
  | .dup descriptor => apiDup k t descriptor
  | .dup2 oldDescriptor newDescriptor => apiDup2 k t oldDescriptor newDescriptor
  | .setCloexec descriptor enabled => apiSetCloexec k t descriptor enabled
  | .pipe => apiPipe h k t
  | .fstat descriptor => (k, apiFstat k t descriptor)
  | .stat path => (k, apiStat k t path)
  | .mkdir path mode => apiMkdir h k t path mode
  | .unlink path => apiUnlink k t path
  | .rmdir path => apiRmdir k t path
  | .rename oldPath newPath => apiRename h k t oldPath newPath
  | .chdir path => apiChdir k t path
  | .getcwd size => (k, apiGetcwd k t size)
  | .truncate path length => apiTruncate h k t path length
  | .ftruncate descriptor length => apiFtruncate h k t descriptor length
  | .poll fds timeout => apiPoll h k t fds timeout
  | .isatty descriptor => (k, apiIsatty k t descriptor)
  | .opendir path => apiOpendir k t path
  | .readdir descriptor nameSize => apiReaddir k t descriptor nameSize
  | .closedir descriptor => apiClosedir k t descriptor
  | .setErrno error => (k.setError t error, .done ⟨0, [], none⟩ .none)
  | .allocate size => apiAllocate h k t size
  | .resize pointer size => apiResize h k t pointer size
  | .release pointer => apiRelease k t pointer
  | .scribble argv environment libc =>
    (k.setTask t fun task => { task with argv := argv, environment := environment, libc := libc },
      .done ⟨0, [], none⟩ .none)

/-- Return to the program, or suspend the task. -/
def deliver (t : TaskId) : Kernel × Outcome → Kernel
  | (k, .done r _) =>
    let k := match r.error with
      | none => k
      | some e => k.setError t e
    k.setTask t fun task => { task with frame := .program }
  | (k, .block state frame) => cbTaskYieldAs k t state frame
  | (k, .gone) => k

/-- A task that has just been switched to: it first delivers a pending interrupt, then goes on with
the call it was suspended in. -/
def resume (h : Host) (k : Kernel) (t : TaskId) : Kernel :=
  match k.task t with
  | none => k
  | some task =>
    if task.interruptPending = true ∧ task.interruptIgnored = false then
      apiExit (k.setTask t fun task => { task with interruptPending := false }) t 130
    else
      match task.frame with
      | .entry => k.setTask t fun task => { task with frame := .program }
      | .program => k
      | .pipeRead p count => deliver t (pipeRead k p count)
      | .pipeWrite p call buffer total => deliver t (pipeWrite k p call buffer total)
      | .consoleRead count => deliver t (consoleRead h k count)
      | .waitpid pid => deliver t (apiWaitpid k t pid)
      | .poll fds => deliver t (pollLoop h k t fds)

/-! ### The scheduler -/

def wakeConsoleTask (task : Task) : Task :=
  if task.state = .blockedConsole then { task with state := .runnable, wakeReason := .consoleReady }
  else if task.state = .blockedPoll then { task with state := .runnable }
  else task

def wakeConsoleWaiters (k : Kernel) : Kernel := forTasks k wakeConsoleTask

/-- Make a task runnable whose poll timeout has passed. -/
def wakeExpired (current : ℕ) (task : Task) : Task :=
  if task.state = .blockedPoll ∧ 0 < task.wakeTimeout ∧
      (current = 0 ∨ task.wakeTimeout ≤ elapsed current task.wakeStart) then
    { task with state := .runnable }
  else task

def wakePollTask (task : Task) : Task :=
  if task.state = .blockedPoll then { task with state := .runnable } else task

/-- The order in which `pick_runnable` looks at the tasks. -/
def scanOrder (k : Kernel) : List TaskId :=
  match k.scheduleCursor with
  | none => k.order
  | some c =>
    match (k.order.dropWhile (· ≠ c)).tail with
    | [] => k.order
    | after => after ++ k.order.takeWhile (· ≠ c) ++ [c]

def pickRunnable (k : Kernel) : Option TaskId :=
  (scanOrder k).find? fun t => (k.task t).any fun task => task.state = .runnable

def hasConsoleWaiter (k : Kernel) : Bool :=
  k.order.any fun t => (k.task t).any fun task =>
    task.state = .blockedConsole || task.state = .blockedPoll

/-- `get_poll_timeout`, folded over the tasks of the list. -/
def pollTimeout (current : ℕ) : ℤ → List Task → ℤ
  | best, [] => best
  | best, task :: tasks =>
    if task.state = .blockedPoll ∧ 0 < task.wakeTimeout then
      if current = 0 then 0
      else if task.wakeTimeout ≤ elapsed current task.wakeStart then 0
      else
        let remaining := task.wakeTimeout - elapsed current task.wakeStart
        pollTimeout current (if best < 0 ∨ remaining < best then remaining else best) tasks
    else pollTimeout current best tasks

def getPollTimeout (k : Kernel) (current : ℕ) : ℤ := pollTimeout current (-1) (k.order.filterMap k.task)

/-- One round of the loop of `cb_kernel_run`. -/
def scheduleRound (h : Host) (k : Kernel) : Kernel :=
  let k := if 0 < h.consolePoll 0 then wakeConsoleWaiters k else k
  let k := forTasks k (wakeExpired (h.monotonic 0))
  match pickRunnable k with
  | none =>
    if hasConsoleWaiter k = true ∨ getPollTimeout k (h.monotonic 1) ≠ -1 ∨ 0 < h.consolePoll 1 then
      let k := if 0 ≤ h.consolePoll 2 then wakeConsoleWaiters k else k
      forTasks k wakePollTask
    else if 1 < k.idleRounds + 1 then
      { k with idleRounds := k.idleRounds + 1, fatal := some .deadlock }
    else { k with idleRounds := k.idleRounds + 1 }
  | some t =>
    let k := k.setTask t fun task => { task with state := .running }
    resume h { k with idleRounds := 0, scheduleCursor := some t, current := some t } t

/-! ### The embedding program -/

/-- `cb_kernel_register_executor` with a source the executor accepts. -/
def cbKernelRegister (h : Host) (k : Kernel) (program : Program) : Kernel :=
  if cbMaxPrograms ≤ k.vfs.programCount then k
  else if !h.allocate .program ∨ program.name = [] then k
  else
    let p := k.vfs.programs.next
    let v := { k.vfs with
      programs := k.vfs.programs.alloc program
      programCount := k.vfs.programCount + 1 }
    if slash ∈ program.name then { k with vfs := programDestroy v (some p) }
    else if cbPathMax ≤ (binDirectory ++ program.name).length then
      { k with vfs := programDestroy v (some p) }
    else
      match cbVfsCreateExecutable h v (binDirectory ++ program.name) p with
      | (v, .error _) => { k with vfs := programDestroy v (some p) }
      | (v, .ok ()) => { k with vfs := v }

/-- The names `sh`, `-c`, `HOME=/home/user` and `PATH=/bin`. -/
def shName : Bytes := [115, 104]
def commandFlag : Bytes := [45, 99]
def homeSetting : Bytes := [72, 79, 77, 69, 61] ++ slash :: homeName ++ slash :: userName
def pathSetting : Bytes := [80, 65, 84, 72, 61] ++ slash :: binName

/-- `cb_kernel_boot`. -/
def cbKernelBoot (h : Host) (k : Kernel) (command : Option Bytes) : Kernel :=
  if k.bootPid ≠ 0 then k
  else
    match resolveExecutableNode k.vfs ⟨some k.vfs.vfsRoot, some k.vfs.vfsRoot⟩ shName with
    | .error _ => k
    | .ok n =>
      let argv := match command with
        | none => [shName]
        | some c => [shName, commandFlag, c]
      match taskCreate h (retainNode k (some n)) none (executableOf k n) argv
          (some [homeSetting, pathSetting]) [] with
      | (k, none) => releaseNode k (some n)
      | (k, some t) =>
        let k := k.setTask t fun task => { task with executableNode := some n }
        -- a boot that cannot allocate its three console files leaves the task behind
        if !(h.allocate .consoleInput && h.allocate .consoleOutput && h.allocate .consoleError) then k
        else
          let (k, input) := cbOpenFileCreate k ⟨1, readFlags, 0, .consoleInput⟩
          let (k, output) := cbOpenFileCreate k ⟨1, writeFlags, 0, .consoleOutput 1⟩
          let (k, error) := cbOpenFileCreate k ⟨1, writeFlags, 0, .consoleOutput 2⟩
          let k := fdInstallAt k t input ⟨0, by decide⟩ false
          let k := fdInstallAt k t output ⟨1, by decide⟩ false
          let k := fdInstallAt k t error ⟨2, by decide⟩ false
          { k with bootPid := ((k.task t).map Task.pid).getD 0 }

/-! ### Steps -/

inductive Action
  | call (h : Host) (op : Op)
  | schedule (h : Host)
  | finishExec (h : Host)
  | requestInterrupt (pid : ℤ)
  | setInterrupt (t : TaskId) (disposition : Disposition)
  | mountCreate (h : Host)
  | mountPath (t : TaskId) (path : Bytes) (m : MountId)
  | register (h : Host) (program : Program)
  | boot (h : Host) (command : Option Bytes)

/-- One step; `none` when the action is not possible now. After `host->fatal` nothing is. -/
def step (k : Kernel) (a : Action) : Option Kernel :=
  if k.fatal ≠ none then none
  else
    match a with
    | .call h op =>
      match k.current with
      | none => none
      | some t => some (deliver t (perform h k t op))
    | .schedule h =>
      if k.current = none ∧ k.finishing = none ∧ k.bootPid ≠ 0 ∧ k.bootFinished = false then
        some (scheduleRound h k)
      else none
    | .finishExec h => k.finishing.map (taskFinishExec h k)
    | .requestInterrupt pid => some (cbKernelRequestInterrupt k pid).1
    | .setInterrupt t disposition =>
      if t ∈ k.order then some (cbTaskSetInterrupt k t disposition).1 else none
    | .mountCreate h => some { k with vfs := (cbRamfsMountCreate h k.vfs).1 }
    | .mountPath t path m =>
      if t ∈ k.order then some { k with vfs := (cbVfsMountPath k.vfs (k.viewOf t) path m).1 } else none
    | .register h program => some (cbKernelRegister h k program)
    | .boot h command => some (cbKernelBoot h k command)

/-- `cb_kernel_create`, on a host that can allocate the root file system. -/
def cbKernelCreate (h : Host) : Kernel where
  vfs := cbVfsInitialize h
  files := .empty
  pipes := .empty
  tasks := .empty
  order := []
  current := none
  scheduleCursor := none
  nextPid := 0
  bootPid := 0
  bootStatus := 0
  bootFinished := false
  idleRounds := 0
  finishing := none
  fatal := none
  trace := []
  calls := 0
  history := []
  heap := []

/-- The states of the runs from `cb_kernel_create` whose steps all satisfy `ok`. -/
def ReachBy (ok : Kernel → Action → Prop) (k : Kernel) : Prop :=
  ∃ h, Reach step ok (cbKernelCreate h) k

/-- The reachable states. -/
def Reachable : Kernel → Prop := ReachBy anyStep

end CannedBsd
