import CannedBsd.Kernel.Frames
import CannedBsd.Vfs.Resolve

/-!
# Elementary steps of the kernel

A call changes the kernel in small steps, and between two of them it may hold references in its
local variables only: a node that is looked up but not yet stored, an open file that has no
descriptor yet, a task that is not yet on the list. `Flight` is what a call holds so, and `Micro`
lists the steps with what they do to it. Every call is a path of such steps that starts and ends
with empty hands, so an invariant is proved once for each kind of step.

* `Moves.vfs`: changes of the file system are steps of the kernel.
-/

namespace CannedBsd

open CannedBsd.Lib

/-! ### Pointers -/

/-- The references of a directory handle to a node. -/
def dirHold (n : NodeId) (handle : DirHandle) : ℕ :=
  if handle.inUse then pointsTo handle.node n + pointsTo handle.next n else 0

/-- The references of a task to a node. -/
def taskHold (n : NodeId) (task : Task) : ℕ :=
  pointsTo task.cwd n + pointsTo task.root n + pointsTo task.executableNode n +
    pointsTo task.pendingExecutableNode n + ∑ d, dirHold n (task.directories d)

/-- The number of descriptor slots of a task that hold an open file. -/
def slotHold (f : FileId) (task : Task) : ℕ := ∑ d, pointsTo ((task.descriptors d).map FdEntry.file) f

/-- Is this an open file of the object? -/
def endHold (object : FileObject) (file : OpenFile) : ℕ := if file.object = object then 1 else 0

namespace Kernel

variable (k : Kernel)

/-- The number of open files of an object. -/
def ends (object : FileObject) : ℕ := k.files.total (endHold object)

/-- The number of descriptor slots of all tasks that hold an open file. -/
def slots (f : FileId) : ℕ := k.tasks.total (slotHold f)

/-- The references of open files and tasks to a node. -/
def holders (n : NodeId) : ℕ := k.ends (.node n) + k.tasks.total (taskHold n)

end Kernel

/-! ### What a call holds -/

/-- A pipe write that has stored the first `total` bytes of its buffer. -/
structure Writing where
  pipe : PipeId
  call : ℕ
  buffer : Bytes
  total : ℕ
  deriving DecidableEq

/-- The references in the local variables of the running call, the references that were lost, the
task that is alive but not on the list, and the pipe write in progress. -/
structure Flight where
  nodes : NodeId → ℕ
  files : FileId → ℕ
  leaked : NodeId → ℕ
  limbo : Option TaskId
  writing : Option Writing

/-- Between two calls nothing is held. -/
def Flight.rest (leaked : NodeId → ℕ) : Flight := ⟨fun _ => 0, fun _ => 0, leaked, none, none⟩

/-- The write a suspended task will go on with. -/
def Frame.writing : Frame → Option Writing
  | .pipeWrite p call buffer total => some ⟨p, call, buffer, total⟩
  | _ => none

/-- The task is suspended; it is neither running nor gone. -/
def suspended (state : TaskState) : Bool := blocked state || decide (state = .runnable)

/-! ### Why a task is suspended -/

/-- The task has a descriptor for the object. -/
def Refers (k : Kernel) (task : Task) (object : FileObject) : Prop :=
  ∃ d entry file, task.descriptors d = some entry ∧ k.files.get entry.file = some file ∧
    file.object = object

/-- Is the object a pipe end or a file of the file system? -/
def FileObject.internal : FileObject → Bool
  | .node _ => true
  | .pipeRead _ => true
  | .pipeWrite _ => true
  | .consoleInput => false
  | .consoleOutput _ => false

/-- The requested descriptor is not ready because of a pipe or a file. -/
def Unready (k : Kernel) (task : Task) (entry : PollFd) : Prop :=
  ∀ d slot file, fdSlot entry.fd = some d → task.descriptors d = some slot →
    k.files.get slot.file = some file → file.object.internal = true →
    filePoll k false file ⟨entry.pollIn, entry.pollOut, false, false⟩ = .none

/-- The task has a child it can wait for, and none that it could reap at once. -/
def AwaitsChild (k : Kernel) (task : Task) : Prop :=
  (∃ c ∈ k.order, ∃ child, k.task c = some child ∧ isChild task task.waitingFor child = true) ∧
  ∀ c ∈ k.order, ∀ child, k.task c = some child → isChild task task.waitingFor child = true →
    child.state ≠ .zombie

/-- A blocked task waits for something that has not happened, and a task that is to go on with a
pipe call still has its end of the pipe. -/
structure Parked (k : Kernel) (task : Task) : Prop where
  pipe : task.state = .blockedPipe →
    (∃ p count pipe, task.frame = .pipeRead p count ∧ k.pipes.get p = some pipe ∧ pipe.used = 0 ∧
      0 < pipe.writers) ∨
    ∃ p call buffer total pipe, task.frame = .pipeWrite p call buffer total ∧
      k.pipes.get p = some pipe ∧ pipe.used = cbPipeBytes ∧ 0 < pipe.readers
  wait : task.state = .blockedWait → AwaitsChild k task
  poll : task.state = .blockedPoll → ∃ fds, task.frame = .poll fds ∧ ∀ entry ∈ fds, Unready k task entry
  ends : suspended task.state = true →
    (∀ p count, task.frame = .pipeRead p count → Refers k task (.pipeRead p)) ∧
    ∀ p call buffer total, task.frame = .pipeWrite p call buffer total → Refers k task (.pipeWrite p)

/-! ### What a task runs -/

/-- The task has exited. -/
def exited (state : TaskState) : Bool := decide (state = .zombie ∨ state = .dead)

/-- The programs of a task with the nodes that hold them, and its interrupt state. -/
structure Badge where
  executableNode : Option NodeId
  pendingExecutableNode : Option NodeId
  execution : Option ProgramId
  program : Option ProgramId
  pendingProgram : Option ProgramId
  interruptIgnored : Bool
  interruptPending : Bool

def Task.badge (task : Task) : Badge :=
  ⟨task.executableNode, task.pendingExecutableNode, task.execution, task.program, task.pendingProgram,
    task.interruptIgnored, task.interruptPending⟩

/-- The task holds the nodes of its programs, and an interrupt is pending only where the task and its
executors take interrupts. -/
structure Fit (v : Vfs) (b : Badge) (state : TaskState) : Prop where
  program : ∃ p n, b.program = some p ∧ b.executableNode = some n ∧ Houses v n p
  pending : ∀ p, b.pendingProgram = some p → (∃ n, b.pendingExecutableNode = some n ∧ Houses v n p) ∨
    b.pendingExecutableNode = none ∧ b.program = some p
  target : b.pendingProgram = none → b.pendingExecutableNode = none
  execution : b.execution = none ∨ b.execution = b.program
  waits : state ≠ .execPending → b.pendingProgram = none
  interrupt : b.interruptPending = true → exited state = false →
    b.interruptIgnored = false ∧ supportsInterrupt v b.program = true ∧
      (b.pendingProgram ≠ none → supportsInterrupt v b.pendingProgram = true)

/-! ### Steps of the scheduler -/

/-- The pointers of a task. -/
structure Holdings where
  executableNode : Option NodeId
  pendingExecutableNode : Option NodeId
  descriptors : Fin cbMaxFds → Option FdEntry
  directories : Fin cbMaxDirs → DirHandle
  root : Option NodeId
  cwd : Option NodeId

def Task.holdings (task : Task) : Holdings :=
  ⟨task.executableNode, task.pendingExecutableNode, task.descriptors, task.directories, task.root,
    task.cwd⟩

/-- A task that at most wakes up or, while it runs, notes something down. -/
structure Rests (task task' : Task) : Prop where
  holdings : task'.holdings = task.holdings
  pid : task'.pid = task.pid
  ppid : task'.ppid = task.ppid
  state : task'.state = task.state ∨ blocked task.state = true ∧ task'.state = .runnable
  frame : task'.frame = task.frame ∨ task.state = .running ∧ task'.frame = .program
  waitingFor : task'.waitingFor = task.waitingFor ∨ task.state = .running
  badge : task'.badge = task.badge
  exitStatus : task'.exitStatus = task.exitStatus

theorem Rests.refl (task : Task) : Rests task task := ⟨rfl, rfl, rfl, .inl rfl, .inl rfl, .inl rfl, rfl, rfl⟩

/-- All tasks rest or wake up. -/
structure Resting (k k' : Kernel) : Prop where
  order : k'.order = k.order
  current : k'.current = k.current
  finishing : k'.finishing = k.finishing
  nextPid : k.nextPid ≤ k'.nextPid
  next : k'.tasks.next = k.tasks.next
  tasks : ∀ {t task'}, k'.task t = some task' → ∃ task, k.task t = some task ∧ Rests task task'
  live : ∀ {t task}, k.task t = some task → ∃ task', k'.task t = some task'

/-- Nothing happens but that tasks rest or wake up and counters of the scheduler change. -/
structure Calm (k k' : Kernel) : Prop where
  vfs : k'.vfs = k.vfs
  files : k'.files = k.files
  pipes : k'.pipes = k.pipes
  trace : k'.trace = k.trace
  calls : k'.calls = k.calls
  cursor : k'.scheduleCursor = k.scheduleCursor
  history : k'.history = k.history
  rest : Resting k k'

/-- The task becomes a zombie. -/
def retire (k : Kernel) (t : TaskId) (task : Task) (status : ℤ) : Kernel :=
  let k := k.setTask t fun task => { task with exitStatus := status % 256, state := .zombie }
  let k := if task.pid = k.bootPid then { k with bootFinished := true, bootStatus := status % 256 } else k
  k.record (.exited t status)

/-- `api_exit` when all descriptors and handles are closed. -/
def leave (k : Kernel) (t : TaskId) (task : Task) (status : ℤ) : Kernel :=
  { wakeWaitingParent (retire k t task status) task with current := none }

/-- `retire` is a change of the task and of what the kernel knows about the boot task. -/
theorem retire_eq (k : Kernel) (t : TaskId) (task : Task) (status : ℤ) :
    ∃ finished bootStatus, retire k t task status =
      { k.setTask t fun task => { task with exitStatus := status % 256, state := .zombie } with
        bootFinished := finished, bootStatus := bootStatus, history := k.history ++ [.exited t status] } := by
  by_cases hp : task.pid = k.bootPid
  · exact ⟨true, status % 256, congrArg (Kernel.record · _) (if_pos hp)⟩
  · exact ⟨k.bootFinished, k.bootStatus, congrArg (Kernel.record · _) (if_neg hp)⟩

/-- `api_waitpid` takes a zombie out of the list. -/
def unlist (k : Kernel) (child : TaskId) : Kernel :=
  ({ k with
    order := k.order.erase child
    scheduleCursor := if k.scheduleCursor = some child then none else k.scheduleCursor }).setTask child
    fun task => { task with state := .dead }

/-- The scheduler switches to a runnable task. -/
def dispatch (k : Kernel) (t : TaskId) : Kernel :=
  { k.setTask t fun task => { task with state := .running } with
    idleRounds := 0
    scheduleCursor := some t
    current := some t }

/-- `task_finish_exec` makes the task runnable again. -/
def restart (k : Kernel) (t : TaskId) (f : Task → Task) (fatal : Option Fatal) : Kernel :=
  { k.setTask t f with finishing := none, fatal := fatal }

/-- The task is a child of the task on the list, or of nobody. -/
def Fathers (k : Kernel) : Option TaskId → Task → Prop
  | none, task => task.ppid = 0
  | some p, task => p ∈ k.order ∧ ∃ parent, k.task p = some parent ∧ task.ppid = parent.pid

/-- The steps that change who runs; no pointer changes. -/
inductive Sched : Kernel → Flight → Kernel → Flight → Prop
  | calm {k k' : Kernel} {fl : Flight} : Calm k k' → Sched k fl k' fl
  | dispatch {k : Kernel} {fl : Flight} {t : TaskId} {task : Task} : k.current = none →
      k.finishing = none → t ∈ k.order → k.task t = some task → task.state = .runnable →
      fl.writing = none → Sched k fl (dispatch k t) { fl with writing := task.frame.writing }
  | yield {k : Kernel} {fl : Flight} {t : TaskId} {task : Task} {state : TaskState} {frame : Frame} :
      k.current = some t → k.task t = some task → suspended state = true →
      Parked k { task with wakeReason := .none, state := state, frame := frame } →
      frame.writing = fl.writing → (frame ≠ .entry) →
      Sched k fl (cbTaskYieldAs k t state frame) { fl with writing := none }
  | exec {k : Kernel} {fl : Flight} {t : TaskId} {task : Task} : k.current = some t →
      k.task t = some task → fl.writing = none →
      Sched k fl { cbTaskYieldAs k t .execPending .entry with finishing := some t } fl
  | restart {k : Kernel} {fl : Flight} {t : TaskId} {task : Task} {f : Task → Task}
      {fatal : Option Fatal} : k.finishing = some t → k.task t = some task →
      (f task).holdings = task.holdings → (f task).pid = task.pid → (f task).ppid = task.ppid →
      task.pendingExecutableNode = none → (f task).state = .runnable → (f task).frame = .entry →
      (Fit k.vfs task.badge task.state → Fit k.vfs (f task).badge (f task).state) →
      (f task).exitStatus = task.exitStatus → Sched k fl (restart k t f fatal) fl
  | leave {k : Kernel} {fl : Flight} {t : TaskId} {task : Task} {status : ℤ} : k.current = some t →
      k.task t = some task → (∀ d, (task.directories d).inUse = false) →
      Sched k fl (leave k t task status) { fl with writing := none }
  | list {k : Kernel} {fl : Flight} {t : TaskId} {task : Task} {parent : Option TaskId} : fl.limbo = some t →
      k.task t = some task → t ∉ k.order → task.state = .runnable → task.frame = .entry →
      Fit k.vfs task.badge task.state → Fathers k parent task →
      Sched k fl ({ k with order := t :: k.order }.record (.spawned parent t task.pid))
        { fl with limbo := none }
  | unlist {k : Kernel} {fl : Flight} {p c : TaskId} {parent child : Task} : fl.limbo = none →
      k.current = some p → k.task p = some parent → child.ppid = parent.pid → c ∈ k.order →
      k.task c = some child → child.state = .zombie →
      Sched k fl (unlist (k.record (.reaped p c child.pid child.exitStatus)) c) { fl with limbo := some c }

/-! ### Steps with pointers -/

/-- The look-ahead entry of a handle is a child of the handle's directory. -/
def FreshHandle (v : Vfs) (handle : DirHandle) : Prop :=
  ∀ c, handle.inUse = true → handle.next = some c → ∃ d, handle.node = some d ∧ v.parentOf c = some d

/-- A task changes its pointers, and the call's hands take what the task gives up. -/
structure Exchange (gone : NodeId → Prop) (v : Vfs) (fl fl' : Flight) (task task' : Task) : Prop where
  nodes : ∀ n, taskHold n task' + fl'.nodes n = taskHold n task + fl.nodes n
  files : ∀ f, slotHold f task' + fl'.files f = slotHold f task + fl.files f
  leaked : fl'.leaked = fl.leaked
  limbo : fl'.limbo = fl.limbo
  writing : fl'.writing = fl.writing
  root : task'.root = task.root
  pid : task'.pid = task.pid
  ppid : task'.ppid = task.ppid
  state : task'.state = task.state
  frame : task'.frame = task.frame
  waitingFor : task'.waitingFor = task.waitingFor
  descriptors : task'.descriptors = task.descriptors ∨ suspended task.state = false ∨ task.frame = .entry
  directories : ∀ d, task'.directories d = task.directories d ∨
    (FreshHandle v (task.directories d) → FreshHandle v (task'.directories d)) ∧
      ∀ c, (task'.directories d).inUse = true → (task'.directories d).next = some c → ¬ gone c
  inUse : ∀ d, (task'.directories d).inUse = true →
    (task.directories d).inUse = true ∨ task.state = .running
  pending : task'.pendingExecutableNode = task.pendingExecutableNode ∨ task.state = .execPending
  fit : Fit v task.badge task.state → Fit v task'.badge task.state
  exitStatus : task'.exitStatus = task.exitStatus

/-- One elementary step. A node leaves its directory only if `gone` allows it. -/
inductive Micro (gone : NodeId → Prop) : Kernel → Flight → Kernel → Flight → Prop
  | vfs {k : Kernel} {fl : Flight} {v : Vfs} {a : NodeId → ℕ} : VMove gone k.vfs fl.nodes v a →
      Micro gone k fl { k with vfs := v } { fl with nodes := a }
  | sched {k k' : Kernel} {fl fl' : Flight} : Sched k fl k' fl' → Micro gone k fl k' fl'
  | hold {k : Kernel} {fl fl' : Flight} {t : TaskId} {task : Task} {f : Task → Task} :
      k.task t = some task → Exchange gone k.vfs fl fl' task (f task) →
      Micro gone k fl (k.setTask t f) fl'
  /-- A new task, which takes over its nodes from the call. -/
  | create {k : Kernel} {fl : Flight} {task : Task} {a : NodeId → ℕ} : fl.limbo = none →
      (∀ n, fl.nodes n = a n + taskHold n task) → (∀ f, slotHold f task = 0) →
      task.root = some k.vfs.vfsRoot → task.pid = k.nextPid + 1 → task.state = .runnable →
      task.frame = .entry → (∀ d, (task.directories d).inUse = false) →
      task.pendingExecutableNode = none →
      Micro gone k fl { k with nextPid := k.nextPid + 1, tasks := k.tasks.alloc task }
        { fl with nodes := a, limbo := some k.tasks.next }
  /-- A task that is not on the list is freed. -/
  | destroy {k : Kernel} {fl : Flight} {t : TaskId} {task : Task} {a : NodeId → ℕ} :
      fl.limbo = some t → t ∉ k.order → k.task t = some task →
      (∀ n, a n = fl.nodes n + taskHold n task) → (∀ f, slotHold f task = 0) →
      Micro gone k fl { k with tasks := k.tasks.free t } { fl with nodes := a, limbo := none }
  /-- A reference is forgotten. -/
  | leak {k : Kernel} {fl : Flight} {n : NodeId} {a : NodeId → ℕ} :
      (∀ c, fl.nodes c = a c + pointsTo (some n) c) →
      Micro gone k fl k { fl with nodes := a, leaked := fun c => fl.leaked c + pointsTo (some n) c }
  /-- An open file keeps its object; its count changes with the call's references. -/
  | file {k : Kernel} {fl : Flight} {f : FileId} {file : OpenFile} {g : OpenFile → OpenFile}
      {b : FileId → ℕ} : k.files.get f = some file → (g file).object = file.object →
      (g file).flags = file.flags → 0 < (g file).references →
      (g file).references + fl.files f = file.references + b f → (∀ x, x ≠ f → b x = fl.files x) →
      Micro gone k fl (k.setFile f g) { fl with files := b }
  /-- A new open file of a node or of the console. -/
  | openFile {k : Kernel} {fl : Flight} {file : OpenFile} {a : NodeId → ℕ} {b : FileId → ℕ} :
      file.references = 1 → (∀ p, file.object ≠ .pipeRead p ∧ file.object ≠ .pipeWrite p) →
      (∀ n, fl.nodes n = a n + endHold (.node n) file) →
      (∀ x, b x = fl.files x + pointsTo (some k.files.next) x) →
      Micro gone k fl { k with files := k.files.alloc file } { fl with nodes := a, files := b }
  /-- The last reference to such a file is given back. -/
  | closeFile {k : Kernel} {fl : Flight} {f : FileId} {file : OpenFile} {a : NodeId → ℕ}
      {b : FileId → ℕ} : k.files.get f = some file → file.references - 1 = 0 →
      (∀ p, file.object ≠ .pipeRead p ∧ file.object ≠ .pipeWrite p) →
      (∀ n, a n = fl.nodes n + endHold (.node n) file) →
      (∀ x, fl.files x = b x + pointsTo (some f) x) →
      Micro gone k fl ({ k with files := k.files.free f }.log (.lastClose f))
        { fl with nodes := a, files := b }
  /-- A new pipe with its read end. -/
  | openPipe {k : Kernel} {fl : Flight} {b : FileId → ℕ} :
      (∀ x, b x = fl.files x + pointsTo (some k.files.next) x) →
      Micro gone k fl
        { k with
          pipes := k.pipes.alloc freshPipe
          files := k.files.alloc ⟨1, readFlags, 0, .pipeRead k.pipes.next⟩ }
        { fl with files := b }
  /-- The write end of a pipe that has none. -/
  | openWriter {k : Kernel} {fl : Flight} {p : PipeId} {pipe : Pipe} {b : FileId → ℕ} :
      k.pipes.get p = some pipe → pipe.writers = 0 →
      (∀ x, b x = fl.files x + pointsTo (some k.files.next) x) →
      Micro gone k fl
        ({ k with files := k.files.alloc ⟨1, writeFlags, 0, .pipeWrite p⟩ }.setPipe p
          fun pipe => { pipe with writers := 1 })
        { fl with files := b }
  /-- The last reference to a pipe end is given back. -/
  | closeReader {k : Kernel} {fl : Flight} {f : FileId} {file : OpenFile} {p : PipeId}
      {b : FileId → ℕ} : k.files.get f = some file → file.references - 1 = 0 →
      file.object = .pipeRead p → (∀ x, fl.files x = b x + pointsTo (some f) x) →
      Micro gone k fl (pipeReadClose ({ k with files := k.files.free f }.log (.lastClose f)) p)
        { fl with files := b }
  | closeWriter {k : Kernel} {fl : Flight} {f : FileId} {file : OpenFile} {p : PipeId}
      {b : FileId → ℕ} : k.files.get f = some file → file.references - 1 = 0 →
      file.object = .pipeWrite p → (∀ x, fl.files x = b x + pointsTo (some f) x) →
      Micro gone k fl (pipeWriteClose ({ k with files := k.files.free f }.log (.lastClose f)) p)
        { fl with files := b }
  /-- A read takes bytes out of a pipe. -/
  | fetch {k : Kernel} {fl : Flight} {p : PipeId} {pipe : Pipe} {amount : ℕ} :
      k.pipes.get p = some pipe → amount ≤ pipe.used →
      Micro gone k fl
        (cbWakePipeTasks ((k.setPipe p fun pipe =>
          { pipe with
            readPosition := (pipe.readPosition + amount) % cbPipeBytes
            used := pipe.used - amount }).log (.fetched p (pipeTake pipe amount)))) fl
  /-- A pipe write begins. -/
  | beginWrite {k : Kernel} {fl : Flight} {p : PipeId} {buffer : Bytes} : fl.writing = none →
      Micro gone k fl { k with calls := k.calls + 1 } { fl with writing := some ⟨p, k.calls, buffer, 0⟩ }
  /-- It stores bytes. -/
  | store {k : Kernel} {fl : Flight} {w : Writing} {pipe : Pipe} {bytes : Bytes} :
      fl.writing = some w → k.pipes.get w.pipe = some pipe → bytes ≠ [] →
      bytes = (w.buffer.drop w.total).take (cbPipeBytes - pipe.used) →
      Micro gone k fl
        (cbWakePipeTasks ((k.setPipe w.pipe fun pipe =>
          { pipe with data := pipePut pipe bytes, used := pipe.used + bytes.length }).log
            (.stored w.pipe w.call bytes)))
        { fl with writing := some { w with total := w.total + bytes.length } }
  /-- It returns. -/
  | endWrite {k : Kernel} {fl : Flight} {w : Writing} {value : ℤ} : fl.writing = some w →
      value = w.total ∨ value = -1 ∧ w.total = 0 →
      Micro gone k fl (k.log (.wrote w.pipe w.call w.buffer value)) { fl with writing := none }

/-- A path of elementary steps. -/
inductive Moves (gone : NodeId → Prop) (k : Kernel) (fl : Flight) : Kernel → Flight → Prop
  | refl : Moves gone k fl k fl
  | step {k' k'' : Kernel} {fl' fl'' : Flight} : Moves gone k fl k' fl' → Micro gone k' fl' k'' fl'' →
      Moves gone k fl k'' fl''

namespace Moves

variable {gone : NodeId → Prop} {k k' k'' : Kernel} {fl fl' fl'' : Flight}

theorem single (h : Micro gone k fl k' fl') : Moves gone k fl k' fl' := .step .refl h

theorem trans (h : Moves gone k fl k' fl') (h' : Moves gone k' fl' k'' fl'') :
    Moves gone k fl k'' fl'' := by
  induction h' with
  | refl => exact h
  | step _ hm ih => exact .step ih hm

/-- Changes of the file system are steps of the kernel. -/
theorem vfs {v : Vfs} {a : NodeId → ℕ} (h : VMoves gone k.vfs fl.nodes v a) :
    Moves gone k fl { k with vfs := v } { fl with nodes := a } := by
  induction h with
  | refl => exact .refl
  | step _ hm ih => exact .step ih (.vfs hm)

end Moves

end CannedBsd
