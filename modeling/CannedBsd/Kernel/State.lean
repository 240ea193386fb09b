import CannedBsd.Vfs.Path
import CannedBsd.Lib.Ownership
import CannedBsd.Lib.Runs

/-!
# The kernel state

`struct cb_kernel` and what hangs off it: open files, pipes and tasks. A task that is suspended
inside a blocking call keeps, as its frame, the local variables the call needs to go on; the C code
keeps them on the stack of the task's context.

`trace`, `calls` and `history` are not in the source. They record what has happened to open files,
pipes and tasks, so that statements about whole runs can refer to it.
-/

namespace CannedBsd

open CannedBsd.Lib

abbrev TaskId := ℕ

/-- `struct cb_pipe`. -/
structure Pipe where
  data : ℕ → UInt8
  readPosition : ℕ
  used : ℕ
  readers : ℕ
  writers : ℕ

/-- An occupied `struct cb_fd_entry`. -/
structure FdEntry where
  file : FileId
  closeOnExec : Bool
  deriving DecidableEq, Repr

/-- `struct cb_dir_handle`. -/
structure DirHandle where
  node : Option NodeId
  next : Option NodeId
  inUse : Bool
  deriving DecidableEq, Repr

/-- `enum cb_task_state`. -/
inductive TaskState
  | runnable | running | blockedPipe | blockedConsole | blockedWait | blockedPoll | execPending
  | zombie | dead
  deriving DecidableEq, Repr

/-- `enum cb_wake_reason`. -/
inductive WakeReason
  | none | pipeChanged | consoleReady | childExited
  deriving DecidableEq, Repr

/-- `struct cb_pollfd` without its result: the descriptor and the two events the kernel knows. -/
structure PollFd where
  fd : ℤ
  pollIn : Bool
  pollOut : Bool
  deriving DecidableEq, Repr

/-- Where a task goes on when it is resumed. -/
inductive Frame
  /-- At the entry of its program. -/
  | entry
  /-- In the program, outside any blocking call. -/
  | program
  | pipeRead (p : PipeId) (count : ℕ)
  | pipeWrite (p : PipeId) (call : ℕ) (buffer : Bytes) (total : ℕ)
  | consoleRead (count : ℕ)
  | waitpid (pid : ℤ)
  | poll (fds : List PollFd)
  deriving DecidableEq, Repr

/-- `struct cb_task_allocation`. -/
structure Allocation where
  pointer : ℕ
  size : ℕ
  deriving DecidableEq, Repr

/-- `struct cb_getopt_state_v1`, `struct cb_stdio_state_v1` and `struct cb_input_state_v1` without
their version fields: what libc keeps in the task. -/
structure LibcState where
  optind : ℤ
  opterr : ℤ
  optopt : ℤ
  optarg : Option ℕ
  place : Bytes
  stdoutError : ℤ
  stderrError : ℤ
  stdoutClosed : ℤ
  stderrClosed : ℤ
  stdinEof : ℤ
  stdinError : ℤ
  stdinClosed : ℤ
  inputStreams : Option ℕ
  deriving DecidableEq, Repr

/-- The values `task_create` gives them. -/
def LibcState.start : LibcState where
  optind := 1
  opterr := 1
  optopt := 0
  optarg := none
  place := []
  stdoutError := 0
  stderrError := 0
  stdoutClosed := 0
  stderrClosed := 0
  stdinEof := 0
  stdinError := 0
  stdinClosed := 0
  inputStreams := none

/-- `struct cb_task`: the fields the modelled calls read or write. `execution` is the program of the
task's `struct cb_execution`. -/
structure Task where
  pid : ℕ
  ppid : ℕ
  state : TaskState
  frame : Frame
  interruptIgnored : Bool
  interruptPending : Bool
  execution : Option ProgramId
  program : Option ProgramId
  argv : List Bytes
  environment : List Bytes
  executableNode : Option NodeId
  pendingExecutableNode : Option NodeId
  pendingProgram : Option ProgramId
  pendingArgv : List Bytes
  pendingEnvironment : List Bytes
  descriptors : Fin cbMaxFds → Option FdEntry
  directories : Fin cbMaxDirs → DirHandle
  root : Option NodeId
  cwd : Option NodeId
  errorCell : ℤ
  exitStatus : ℤ
  waitingFor : ℤ
  wakeReason : WakeReason
  wakeStart : ℕ
  wakeTimeout : ℤ
  allocations : List Allocation
  libc : LibcState

def Task.view (task : Task) : View := ⟨task.root, task.cwd⟩

/-- The messages of `host->fatal` that a kernel can reach. -/
inductive Fatal
  | deadlock
  | execution
  deriving DecidableEq, Repr

/-- What happened to an open file or a pipe. -/
inductive Event
  /-- The last reference to the open file was given back. -/
  | lastClose (f : FileId)
  /-- A write call appended these bytes to the pipe. -/
  | stored (p : PipeId) (call : ℕ) (bytes : Bytes)
  /-- A read call took these bytes out of the pipe. -/
  | fetched (p : PipeId) (bytes : Bytes)
  /-- A write call on the pipe returned. -/
  | wrote (p : PipeId) (call : ℕ) (buffer : Bytes) (value : ℤ)
  deriving DecidableEq, Repr

/-- What happened to a task. -/
inductive Passage
  /-- It was put on the list, for its parent or, at boot, for nobody. -/
  | spawned (parent : Option TaskId) (child : TaskId) (pid : ℕ)
  /-- It exited with this argument. -/
  | exited (t : TaskId) (status : ℤ)
  /-- A `waitpid` of the parent returned this pid and this status for it. -/
  | reaped (parent child : TaskId) (pid : ℕ) (status : ℤ)
  deriving DecidableEq, Repr

/-- `struct cb_kernel` and the local variables of `cb_kernel_run`. -/
structure Kernel where
  vfs : Vfs
  files : Heap OpenFile
  pipes : Heap Pipe
  tasks : Heap Task
  /-- The list `kernel->tasks`. -/
  order : List TaskId
  current : Option TaskId
  scheduleCursor : Option TaskId
  nextPid : ℕ
  bootPid : ℕ
  bootStatus : ℤ
  bootFinished : Bool
  idleRounds : ℕ
  /-- The task whose `exec` the scheduler has to finish. -/
  finishing : Option TaskId
  fatal : Option Fatal
  trace : List Event
  calls : ℕ
  history : List Passage
  /-- Not in the source: what the host's allocator was asked for the programs' heaps, in order. -/
  heap : List (HeapCall ℕ)

namespace Kernel

variable (k : Kernel)

def task (t : TaskId) : Option Task := k.tasks.get t

def setTask (t : TaskId) (f : Task → Task) : Kernel := { k with tasks := k.tasks.modify t f }

def setFile (f : FileId) (g : OpenFile → OpenFile) : Kernel := { k with files := k.files.modify f g }

def setPipe (p : PipeId) (g : Pipe → Pipe) : Kernel := { k with pipes := k.pipes.modify p g }

def log (e : Event) : Kernel := { k with trace := k.trace ++ [e] }

def record (e : Passage) : Kernel := { k with history := k.history ++ [e] }

def heapCall (c : HeapCall ℕ) : Kernel := { k with heap := k.heap ++ [c] }

def setError (t : TaskId) (e : ℤ) : Kernel := k.setTask t fun task => { task with errorCell := e }

def setSlot (t : TaskId) (d : Fin cbMaxFds) (entry : Option FdEntry) : Kernel :=
  k.setTask t fun task => { task with descriptors := Function.update task.descriptors d entry }

def setDir (t : TaskId) (d : Fin cbMaxDirs) (handle : DirHandle) : Kernel :=
  k.setTask t fun task => { task with directories := Function.update task.directories d handle }

/-- What descriptor slot `d` of a task holds. -/
def slot (t : TaskId) (d : Fin cbMaxFds) : Option FdEntry :=
  (k.task t).bind fun task => task.descriptors d

/-- The directory handle `d` of a task. -/
def dir (t : TaskId) (d : Fin cbMaxDirs) : DirHandle :=
  ((k.task t).map fun task => task.directories d).getD ⟨none, none, false⟩

/-- The view path resolution has of a task. -/
def viewOf (t : TaskId) : View := ((k.task t).map Task.view).getD ⟨none, none⟩

end Kernel

/-- The slot a descriptor number denotes. -/
def fdSlot (descriptor : ℤ) : Option (Fin cbMaxFds) :=
  if h : 0 ≤ descriptor ∧ descriptor < cbMaxFds then some ⟨descriptor.toNat, by omega⟩ else none

def dirSlot (descriptor : ℤ) : Option (Fin cbMaxDirs) :=
  if h : 0 ≤ descriptor ∧ descriptor < cbMaxDirs then some ⟨descriptor.toNat, by omega⟩ else none

/-- The `revents` of one `struct cb_pollfd`. -/
structure PollResult where
  mask : PollMask
  invalid : Bool
  deriving DecidableEq, Repr

/-- What a call stores through its result pointers, apart from the bytes of its reply. -/
inductive Out
  | none
  | stat (status : Stat)
  | entry (name : Bytes) (inode : ℕ) (type : NodeType)
  | descriptors (reader writer : ℕ)
  | pid (pid : ℕ)
  | status (status : ℤ)
  | revents (results : List PollResult)
  deriving DecidableEq, Repr

/-- What one run of a call ends with: a reply, suspension in a blocked state, or no return at
all. -/
inductive Outcome
  | done (r : Reply) (out : Out)
  | block (state : TaskState) (frame : Frame)
  | gone
  deriving DecidableEq, Repr

def Outcome.fail (e : Errno) : Outcome := .done (.fail e) .none

def Outcome.value (value : ℤ) : Outcome := .done (.done value) .none

/-! ### Nodes and open files -/

def retainNode (k : Kernel) (n : Option NodeId) : Kernel := { k with vfs := cbVfsNodeRetain k.vfs n }

def releaseNode (k : Kernel) (n : Option NodeId) : Kernel := { k with vfs := cbVfsNodeRelease k.vfs n }

/-- `cb_wake_pipe_tasks` on one task of the list. -/
def wakePipeTask (task : Task) : Task :=
  if task.state = .blockedPipe then { task with state := .runnable, wakeReason := .pipeChanged }
  else if task.state = .blockedPoll then { task with state := .runnable }
  else task

/-- A loop over the task list that changes each task by itself. -/
def forTasks (k : Kernel) (f : Task → Task) : Kernel :=
  { k with tasks := k.tasks.map fun t task => if t ∈ k.order then f task else task }

def cbWakePipeTasks (k : Kernel) : Kernel := forTasks k wakePipeTask

def cbOpenFileCreate (k : Kernel) (file : OpenFile) : Kernel × FileId :=
  ({ k with files := k.files.alloc file }, k.files.next)

def cbOpenFileRetain (k : Kernel) (f : FileId) : Kernel :=
  k.setFile f fun file => { file with references := file.references + 1 }

/-- `pipe_read_close` and `pipe_write_close`, which differ in the count they lower. -/
def pipeClose (k : Kernel) (p : PipeId) (lower : Pipe → Pipe) : Kernel :=
  match k.pipes.get p with
  | none => k
  | some pipe =>
    let k := cbWakePipeTasks (k.setPipe p lower)
    if (lower pipe).readers = 0 ∧ (lower pipe).writers = 0 then { k with pipes := k.pipes.free p }
    else k

def pipeReadClose (k : Kernel) (p : PipeId) : Kernel :=
  pipeClose k p fun pipe => { pipe with readers := pipe.readers - 1 }

def pipeWriteClose (k : Kernel) (p : PipeId) : Kernel :=
  pipeClose k p fun pipe => { pipe with writers := pipe.writers - 1 }

/-- `ops->last_close`; the console objects have none. -/
def lastClose (k : Kernel) : FileObject → Kernel
  | .node n => releaseNode k (some n)
  | .pipeRead p => pipeReadClose k p
  | .pipeWrite p => pipeWriteClose k p
  | .consoleInput => k
  | .consoleOutput _ => k

def cbOpenFileRelease (k : Kernel) (f : FileId) : Kernel :=
  match k.files.get f with
  | none => k
  | some file =>
    if file.references - 1 ≠ 0 then
      k.setFile f fun file => { file with references := file.references - 1 }
    else lastClose ({ k with files := k.files.free f }.log (.lastClose f)) file.object

/-! ### Descriptors -/

/-- `fd_install_at`, for a slot number in range. -/
def fdInstallAt (k : Kernel) (t : TaskId) (f : FileId) (d : Fin cbMaxFds) (retain : Bool) : Kernel :=
  let k := match k.slot t d with
    | none => k
    | some entry => cbOpenFileRelease (k.setSlot t d none) entry.file
  let k := if retain then cbOpenFileRetain k f else k
  k.setSlot t d (some ⟨f, false⟩)

/-- The lowest empty slot. -/
def freeSlot (task : Task) : Option (Fin cbMaxFds) :=
  (List.finRange cbMaxFds).find? fun d => (task.descriptors d).isNone

/-- `fd_install` with the minimum `0`, which all callers pass. -/
def fdInstall (k : Kernel) (t : TaskId) (f : FileId) : Kernel × Option (Fin cbMaxFds) :=
  match (k.task t).bind freeSlot with
  | some d => (k.setSlot t d (some ⟨f, false⟩), some d)
  | none => (k.setError t Errno.emfile.code, none)

/-- `fd_close` on an occupied slot. -/
def fdCloseSlot (k : Kernel) (t : TaskId) (d : Fin cbMaxFds) : Kernel :=
  match k.slot t d with
  | none => k
  | some entry => cbOpenFileRelease (k.setSlot t d none) entry.file

/-- The loop of `fd_close_all`, over the slots that satisfy `p`. -/
def fdCloseWhere (p : FdEntry → Bool) (k : Kernel) (t : TaskId) : Kernel :=
  (List.finRange cbMaxFds).foldl
    (fun k d => if (k.slot t d).any p then fdCloseSlot k t d else k) k

def fdCloseAll : Kernel → TaskId → Kernel := fdCloseWhere fun _ => true

/-- `dir_close_all`: it releases the directory of a handle but not its look-ahead entry, and
leaves the `next` field as it is. -/
def dirCloseAll (k : Kernel) (t : TaskId) : Kernel :=
  (List.finRange cbMaxDirs).foldl
    (fun k d =>
      let handle := k.dir t d
      if handle.inUse then
        releaseNode (k.setDir t d { handle with node := none, inUse := false }) handle.node
      else k) k

/-! ### Yielding -/

/-- `cb_task_yield_as`, up to the switch to the scheduler. -/
def cbTaskYieldAs (k : Kernel) (t : TaskId) (state : TaskState) (frame : Frame) : Kernel :=
  { k.setTask t fun task => { task with wakeReason := .none, state := state, frame := frame } with
    current := none }

end CannedBsd
