import CannedBsd.Kernel.State

/-!
# File calls

The calls of `src/core.c` on descriptors, pipes, paths and directory handles. Each takes the host,
the kernel and the calling task, and returns the kernel with what the call ends with. The error
cell is written when the outcome is delivered.
-/

namespace CannedBsd

open CannedBsd.Lib

variable (h : Host) (k : Kernel) (t : TaskId)

/-! ### Pipes -/

/-- The bytes `pipe_read` copies out, in two pieces around the end of the buffer. -/
def pipeTake (pipe : Pipe) (amount : ℕ) : Bytes :=
  let first := min (cbPipeBytes - pipe.readPosition) amount
  Block.read pipe.data pipe.readPosition first ++ Block.read pipe.data 0 (amount - first)

/-- The buffer after `pipe_write` copied `bytes` into it, in two pieces. -/
def pipePut (pipe : Pipe) (bytes : Bytes) : ℕ → UInt8 :=
  let position := (pipe.readPosition + pipe.used) % cbPipeBytes
  let first := min (cbPipeBytes - position) bytes.length
  Block.write (Block.write pipe.data position (bytes.take first)) 0 (bytes.drop first)

/-- `pipe_read` from its loop on. -/
def pipeRead (p : PipeId) (count : ℕ) : Kernel × Outcome :=
  match k.pipes.get p with
  | none => (k, .fail .eio)
  | some pipe =>
    if count = 0 then (k, .value 0)
    else if pipe.used = 0 then
      if pipe.writers = 0 then (k, .done ⟨0, [], none⟩ .none)
      else (k, .block .blockedPipe (.pipeRead p count))
    else
      let amount := min count pipe.used
      let bytes := pipeTake pipe amount
      let k := k.setPipe p fun pipe =>
        { pipe with
          readPosition := (pipe.readPosition + amount) % cbPipeBytes
          used := pipe.used - amount }
      (cbWakePipeTasks (k.log (.fetched p bytes)), .done ⟨amount, bytes, some 0⟩ .none)

/-- The return of `pipe_write`, noted in the trace. -/
def pipeWriteReturn (p : PipeId) (call : ℕ) (buffer : Bytes) (r : Reply) : Kernel × Outcome :=
  (k.log (.wrote p call buffer r.value), .done r .none)

/-- The loop of `pipe_write`, which has stored `total` bytes so far. A round that does not end the
call stores at least one byte. -/
def pipeWriteLoop (p : PipeId) (call : ℕ) (buffer : Bytes) : ℕ → Kernel → ℕ → Kernel × Outcome
  | 0, k, total => (k, .block .blockedPipe (.pipeWrite p call buffer total))
  | fuel + 1, k, total =>
    if buffer.length ≤ total then pipeWriteReturn k p call buffer (.done total)
    else
      match k.pipes.get p with
      | none => (k, .fail .eio)
      | some pipe =>
        if pipe.readers = 0 then
          pipeWriteReturn k p call buffer ⟨if total = 0 then -1 else total, [], some Errno.epipe.code⟩
        else if cbPipeBytes - pipe.used = 0 then
          (k, .block .blockedPipe (.pipeWrite p call buffer total))
        else
          let bytes := (buffer.drop total).take (cbPipeBytes - pipe.used)
          let k := k.setPipe p fun pipe =>
            { pipe with data := pipePut pipe bytes, used := pipe.used + bytes.length }
          pipeWriteLoop p call buffer fuel (cbWakePipeTasks (k.log (.stored p call bytes)))
            (total + bytes.length)

def pipeWrite (p : PipeId) (call : ℕ) (buffer : Bytes) (total : ℕ) : Kernel × Outcome :=
  pipeWriteLoop p call buffer (buffer.length - total + 1) k total

/-! ### The console -/

-- the round that resumes a call has polled the console once before
def consoleRead (count : ℕ) : Kernel × Outcome :=
  if count = 0 then (k, .value 0)
  else if h.consolePoll 1 = 0 then (k, .block .blockedConsole (.consoleRead count))
  else
    match h.consoleRead with
    | .error e => (k, .done ⟨-1, [], some e⟩ .none)
    | .ok bytes => (k, .done ⟨(bytes.take count).length, bytes.take count, some 0⟩ .none)

def consoleWrite (count : ℕ) : Outcome :=
  if count = 0 then .done ⟨0, [], none⟩ .none
  else if h.consoleWrite < 0 then
    .done ⟨-1, [], some (if h.consoleWrite < -(intMax : ℤ) then Errno.eio.code else -h.consoleWrite)⟩
      .none
  else if h.consoleWrite = 0 ∨ (count : ℤ) < h.consoleWrite then .fail .eio
  else .done ⟨h.consoleWrite, [], none⟩ .none

/-! ### Descriptors -/

/-- The open file behind a descriptor of the task. -/
def fileOf (descriptor : ℤ) : Option (FileId × OpenFile) :=
  match fdSlot descriptor with
  | none => none
  | some d =>
    match k.slot t d with
    | none => none
    | some entry => (k.files.get entry.file).map fun file => (entry.file, file)

def apiClose (descriptor : ℤ) : Kernel × Outcome :=
  match (fdSlot descriptor).bind fun d => (k.slot t d).map fun _ => d with
  | none => (k, .fail .ebadf)
  | some d => (fdCloseSlot k t d, .value 0)

def apiRead (descriptor : ℤ) (count : ℕ) : Kernel × Outcome :=
  match fileOf k t descriptor with
  | none => (k, .fail .ebadf)
  | some (f, file) =>
    match file.object with
    | .pipeWrite _ => (k, .fail .ebadf)
    | .consoleOutput _ => (k, .fail .ebadf)
    | .node n =>
      if int64Max < count then (k, .fail .einval)
      else
        match k.vfs.node n with
        | none => (k, .fail .eio)
        | some node =>
          let (file, node, r) := nodeRead h file node count
          ({ k.setFile f fun _ => file with vfs := k.vfs.setNode n fun _ => node }, .done r .none)
    | .pipeRead p => if int64Max < count then (k, .fail .einval) else pipeRead k p count
    | .consoleInput => if int64Max < count then (k, .fail .einval) else consoleRead h k count

def apiWrite (descriptor : ℤ) (buffer : Bytes) : Kernel × Outcome :=
  match fileOf k t descriptor with
  | none => (k, .fail .ebadf)
  | some (f, file) =>
    match file.object with
    | .pipeRead _ => (k, .fail .ebadf)
    | .consoleInput => (k, .fail .ebadf)
    | .node n =>
      if int64Max < buffer.length then (k, .fail .einval)
      else
        match k.vfs.node n with
        | none => (k, .fail .eio)
        | some node =>
          let (file, node, r) := nodeWrite h file node buffer
          ({ k.setFile f fun _ => file with vfs := k.vfs.setNode n fun _ => node }, .done r .none)
    | .pipeWrite p =>
      if int64Max < buffer.length then (k, .fail .einval)
      else pipeWrite { k with calls := k.calls + 1 } p k.calls buffer 0
    | .consoleOutput _ =>
      if int64Max < buffer.length then (k, .fail .einval) else (k, consoleWrite h buffer.length)

def apiLseek (descriptor : ℤ) (offset : ℤ) (whence : Whence) : Kernel × Outcome :=
  match fileOf k t descriptor with
  | none => (k, .fail .ebadf)
  | some (f, file) =>
    match file.object with
    | .node n =>
      match k.vfs.node n with
      | none => (k, .fail .eio)
      | some node =>
        let (file, r) := nodeLseek file node offset whence
        (k.setFile f fun _ => file, .done r .none)
    | _ => (k, .fail .espipe)

def apiFtruncate (descriptor : ℤ) (length : ℤ) : Kernel × Outcome :=
  match fileOf k t descriptor with
  | none => (k, .fail .ebadf)
  | some (_, file) =>
    if length < 0 ∨ (sizeMax : ℤ) < length then (k, .fail .einval)
    else
      match file.object with
      | .node n =>
        match k.vfs.node n with
        | none => (k, .fail .eio)
        | some node =>
          let (node, r) := nodeTruncate h file node length
          ({ k with vfs := k.vfs.setNode n fun _ => node }, .done r .none)
      | _ => (k, .fail .espipe)

/-- `terminal_for_descriptor` and `api_isatty`. -/
def apiIsatty (descriptor : ℤ) : Outcome :=
  match fileOf k t descriptor with
  | none => .done ⟨0, [], some Errno.ebadf.code⟩ .none
  | some (_, file) =>
    match file.object with
    | .consoleInput => .done ⟨1, [], none⟩ .none
    | .consoleOutput _ => .done ⟨1, [], none⟩ .none
    | _ => .done ⟨0, [], some Errno.enotty.code⟩ .none

def apiDup (descriptor : ℤ) : Kernel × Outcome :=
  match fileOf k t descriptor with
  | none => (k, .fail .ebadf)
  | some (f, _) =>
    match fdInstall (cbOpenFileRetain k f) t f with
    | (k, none) => (cbOpenFileRelease k f, .fail .emfile)
    | (k, some d) => (k, .value d.val)

def apiDup2 (oldDescriptor newDescriptor : ℤ) : Kernel × Outcome :=
  match fileOf k t oldDescriptor, fdSlot newDescriptor with
  | some (f, _), some d =>
    if oldDescriptor = newDescriptor then (k, .value newDescriptor)
    else (fdInstallAt k t f d true, .value newDescriptor)
  | _, _ => (k, .fail .ebadf)

def apiSetCloexec (descriptor : ℤ) (enabled : Bool) : Kernel × Outcome :=
  match (fdSlot descriptor).bind fun d => (k.slot t d).map fun entry => (d, entry) with
  | none => (k, .fail .ebadf)
  | some (d, entry) => (k.setSlot t d (some { entry with closeOnExec := enabled }), .value 0)

def readFlags : OpenFlags := ⟨.rdonly, false, false, false⟩

def writeFlags : OpenFlags := ⟨.wronly, false, false, false⟩

/-- A new pipe with its read end. -/
def freshPipe : Pipe := ⟨fun _ => 0, 0, 0, 1, 0⟩

def apiPipe : Kernel × Outcome :=
  if !(h.allocate .pipe && h.allocate .reader) then (k, .fail .enomem)
  else
    let p := k.pipes.next
    let k := { k with pipes := k.pipes.alloc freshPipe }
    let (k, reader) := cbOpenFileCreate k ⟨1, readFlags, 0, .pipeRead p⟩
    if !h.allocate .writer then (cbOpenFileRelease k reader, .fail .enomem)
    else
      let (k, writer) := cbOpenFileCreate k ⟨1, writeFlags, 0, .pipeWrite p⟩
      let k := k.setPipe p fun pipe => { pipe with writers := 1 }
      match fdInstall k t reader with
      | (k, none) => (cbOpenFileRelease (cbOpenFileRelease k reader) writer, .fail .emfile)
      | (k, some r) =>
        match fdInstall k t writer with
        | (k, none) => (cbOpenFileRelease (fdCloseSlot k t r) writer, .fail .emfile)
        | (k, some w) => (k, .done (.done 0) (.descriptors r.val w.val))

/-- `ops->stat` of an open file. -/
def fileStat (file : OpenFile) : Except Errno Stat :=
  match file.object with
  | .node n => ramfsStat k.vfs n
  | .pipeRead p => .ok ⟨0, ((k.pipes.get p).map Pipe.used).getD 0, 0o600, .pipe, 0, 0, 0, 0, 0⟩
  | .pipeWrite p => .ok ⟨0, ((k.pipes.get p).map Pipe.used).getD 0, 0o600, .pipe, 0, 0, 0, 0, 0⟩
  | .consoleInput => .ok ⟨0, 0, 0o600, .terminal, 0, 0, 0, 0, 0⟩
  | .consoleOutput _ => .ok ⟨0, 0, 0o600, .terminal, 0, 0, 0, 0, 0⟩

def apiFstat (descriptor : ℤ) : Outcome :=
  match fileOf k t descriptor with
  | none => .fail .ebadf
  | some (_, file) =>
    match fileStat k file with
    | .error e => .fail e
    | .ok status => .done (.done 0) (.stat status)

/-! ### Poll -/

def pipeReadPoll (pipe : Pipe) (events : PollMask) : PollMask :=
  { read := events.read && (decide (pipe.used ≠ 0) || decide (pipe.writers = 0))
    write := false
    hup := decide (pipe.writers = 0)
    err := false }

def pipeWritePoll (pipe : Pipe) (events : PollMask) : PollMask :=
  { read := false
    write := events.write && (decide (pipe.used < cbPipeBytes) || decide (pipe.readers = 0))
    hup := false
    err := decide (pipe.readers = 0) }

/-- `ops->poll` of an open file; `ready` is whether `console_poll` reports input. -/
def filePoll (ready : Bool) (file : OpenFile) (events : PollMask) : PollMask :=
  match file.object with
  | .node _ => nodePoll file events
  | .pipeRead p => ((k.pipes.get p).map fun pipe => pipeReadPoll pipe events).getD .none
  | .pipeWrite p => ((k.pipes.get p).map fun pipe => pipeWritePoll pipe events).getD .none
  | .consoleInput => { PollMask.none with read := events.read && ready }
  | .consoleOutput _ => { PollMask.none with write := events.write }

/-- The result of one entry of the array. -/
def pollEntry (ready : Bool) (entry : PollFd) : PollResult :=
  if entry.fd < 0 then ⟨.none, false⟩
  else
    match fileOf k t entry.fd with
    | none => ⟨.none, true⟩
    | some (_, file) => ⟨filePoll k ready file ⟨entry.pollIn, entry.pollOut, false, false⟩, false⟩

def PollResult.ready (r : PollResult) : Bool := r.invalid || decide (r.mask ≠ .none)

/-- The scan of the array. -/
def pollScan (fds : List PollFd) : List PollResult :=
  fds.mapIdx fun i entry => pollEntry k t (decide (0 < h.consolePoll (i + 1))) entry

/-- `current_time - wake_start` in 64 bits. -/
def elapsed (current start : ℕ) : ℕ := (current + 2 ^ 64 - start) % 2 ^ 64

/-- The loop of `api_poll`. -/
def pollLoop (fds : List PollFd) : Kernel × Outcome :=
  match k.task t with
  | none => (k, .fail .eio)
  | some task =>
    let results := pollScan h k t fds
    let count := results.countP PollResult.ready
    if 0 < count ∨ task.wakeTimeout = 0 then (k, .done (.done count) (.revents results))
    else if 0 < task.wakeTimeout ∧ h.monotonic 1 = 0 then (k, .fail .enosys)
    else if 0 < task.wakeTimeout ∧ task.wakeTimeout ≤ elapsed (h.monotonic 1) task.wakeStart then
      (k, .done (.done 0) (.revents results))
    else (k, .block .blockedPoll (.poll fds))

def apiPoll (fds : List PollFd) (timeout : ℤ) : Kernel × Outcome :=
  if cbMaxFds < fds.length then (k, .fail .einval)
  else if 0 < timeout then
    let k := k.setTask t fun task => { task with wakeStart := h.monotonic 0 }
    if h.monotonic 0 = 0 then (k, .fail .enosys)
    else pollLoop h (k.setTask t fun task => { task with wakeTimeout := timeout }) t fds
  else pollLoop h (k.setTask t fun task => { task with wakeTimeout := timeout }) t fds

/-! ### Paths -/

/-- The node operation behind `cb_vfs_open`. -/
def openNode (n : NodeId) (flags : OpenFlags) : Kernel × Except Errno FileId :=
  match k.vfs.node n with
  | none => (k, .error .eio)
  | some node =>
    match ramfsOpen node n flags with
    | .error e => (k, .error e)
    | .ok (node, file) =>
      let k := { k with vfs := k.vfs.setNode n fun _ => node }
      if !h.allocate .openFile then (k, .error .enomem)
      else
        let (k, f) := cbOpenFileCreate (retainNode k (some n)) file
        (k, .ok f)

def cbVfsOpen (view : View) (path : Bytes) (flags : OpenFlags) (mode : ℕ) :
    Kernel × Except Errno FileId :=
  match normalizeForTask k.vfs view path with
  | .error e => (k, .error e)
  | .ok normalized =>
    match resolveNormalized k.vfs view normalized with
    | .ok n => openNode h k n flags
    | .error e =>
      if e = .enoent ∧ flags.creat = true then
        match createAt h k.vfs view normalized .regular (if mode = 0 then 0o666 else mode) with
        | .error e => (k, .error e)
        | .ok (v, n) => openNode h { k with vfs := v } n flags
      else (k, .error e)

def apiOpen (path : Bytes) (flags : OpenFlags) (mode : ℕ) : Kernel × Outcome :=
  match cbVfsOpen h k (k.viewOf t) path flags mode with
  | (k, .error e) => (k, .fail e)
  | (k, .ok f) =>
    match fdInstall k t f with
    | (k, none) => (cbOpenFileRelease k f, .fail .emfile)
    | (k, some d) => (k, .done ⟨d.val, [], some 0⟩ .none)

/-- Deliver the result of a file-system call without a result value. -/
def vfsOutcome (r : Vfs × Except Errno Unit) : Kernel × Outcome :=
  match r with
  | (v, .error e) => ({ k with vfs := v }, .fail e)
  | (v, .ok ()) => ({ k with vfs := v }, .value 0)

def apiMkdir (path : Bytes) (mode : ℕ) : Kernel × Outcome :=
  vfsOutcome k (cbVfsMkdirPath h k.vfs (k.viewOf t) path mode)

def apiUnlink (path : Bytes) : Kernel × Outcome := vfsOutcome k (cbVfsUnlinkPath k.vfs (k.viewOf t) path)

def apiRmdir (path : Bytes) : Kernel × Outcome := vfsOutcome k (cbVfsRmdirPath k.vfs (k.viewOf t) path)

def apiRename (oldPath newPath : Bytes) : Kernel × Outcome :=
  vfsOutcome k (cbVfsRenamePaths h k.vfs (k.viewOf t) oldPath newPath)

def apiTruncate (path : Bytes) (length : ℤ) : Kernel × Outcome :=
  vfsOutcome k (cbVfsTruncatePath h k.vfs (k.viewOf t) path length)

def apiStat (path : Bytes) : Outcome :=
  match cbVfsStatPath k.vfs (k.viewOf t) path with
  | .error e => .fail e
  | .ok status => .done (.done 0) (.stat status)

/-- `cb_vfs_chdir_path`. -/
def apiChdir (path : Bytes) : Kernel × Outcome :=
  match lookupDirectory k.vfs (k.viewOf t) path with
  | .error e => (k, .fail e)
  | .ok n =>
    let old := (k.viewOf t).cwd
    let k := retainNode k (some n)
    (releaseNode (k.setTask t fun task => { task with cwd := some n }) old, .value 0)

def apiGetcwd (size : ℕ) : Outcome :=
  if size = 0 then .done ⟨0, [], some Errno.einval.code⟩ .none
  else
    match cwdString k.vfs (k.viewOf t) size with
    | .error e => .done ⟨0, [], some e.code⟩ .none
    | .ok text => .done ⟨1, text, some 0⟩ .none

/-! ### Directory handles -/

/-- The lowest unused handle. -/
def freeDir (task : Task) : Option (Fin cbMaxDirs) :=
  (List.finRange cbMaxDirs).find? fun d => !(task.directories d).inUse

def apiOpendir (path : Bytes) : Kernel × Outcome :=
  match lookupDirectory k.vfs (k.viewOf t) path with
  | .error e => (k, .fail e)
  | .ok n =>
    let k := retainNode k (some n)
    match ramfsChildAt k.vfs n 0 with
    | .error e => (releaseNode k (some n), .fail e)
    | .ok first =>
      let k := retainNode k first
      match (k.task t).bind freeDir with
      | some d => (k.setDir t d ⟨some n, first, true⟩, .value d.val)
      | none => (releaseNode (releaseNode k first) (some n), .fail .emfile)

def apiReaddir (descriptor : ℤ) (nameSize : ℕ) : Kernel × Outcome :=
  match (dirSlot descriptor).filter fun d => (k.dir t d).inUse with
  | none => (k, .fail .ebadf)
  | some d =>
    if nameSize = 0 then (k, .fail .einval)
    else
      match (k.dir t d).next with
      | none => (k, .done ⟨0, [], none⟩ (.entry [] 0 .regular))
      | some child =>
        match k.vfs.node child with
        | none => (k, .fail .eio)
        | some node =>
          if nameSize ≤ node.name.length then (k, .fail .enametoolong)
          else
            let lookahead := ramfsNextSibling k.vfs child
            let k := retainNode k lookahead
            let k := k.setDir t d { k.dir t d with next := lookahead }
            (releaseNode k (some child), .done (.done 0) (.entry node.name node.inode node.type))

def apiClosedir (descriptor : ℤ) : Kernel × Outcome :=
  match (dirSlot descriptor).filter fun d => (k.dir t d).inUse with
  | none => (k, .fail .ebadf)
  | some d =>
    let handle := k.dir t d
    let k := k.setDir t d ⟨none, none, false⟩
    (releaseNode (releaseNode k handle.next) handle.node, .value 0)

/-! ### The heap of a task -/

/-- `allocate`, `resize` and `release` return a pointer or nothing; `NULL` is `0`. -/
def pointerReply (pointer : ℕ) (error : ℤ) : Outcome := .done ⟨pointer, [], some error⟩ .none

def apiAllocate (size : ℕ) : Kernel × Outcome :=
  if !h.allocate .block then (k, pointerReply 0 Errno.enomem.code)
  else
    let k := k.heapCall (.took h.block)
    if !h.allocate .ledger then (k.heapCall (.gave h.block), pointerReply 0 Errno.enomem.code)
    else
      (k.setTask t fun task =>
        { task with allocations := ⟨h.block, if size = 0 then 1 else size⟩ :: task.allocations },
        pointerReply h.block 0)

/-- Overwrite the entry of a pointer in the ledger. -/
def rebook (pointer : ℕ) (new : Allocation) : List Allocation → List Allocation
  | [] => []
  | a :: rest => if a.pointer = pointer then new :: rest else a :: rebook pointer new rest

/-- Take the entry of a pointer out of the ledger and release the block. -/
def unbook (k : Kernel) (t : TaskId) (pointer : ℕ) : Kernel :=
  (k.heapCall (.gave pointer)).setTask t fun task =>
    { task with allocations := task.allocations.eraseP (·.pointer = pointer) }

/-- Is the pointer in the ledger of the task? -/
def booked (k : Kernel) (t : TaskId) (pointer : ℕ) : Bool :=
  (k.task t).any fun task => task.allocations.any (·.pointer = pointer)

def apiResize (pointer size : ℕ) : Kernel × Outcome :=
  if pointer = 0 then apiAllocate h k t size
  else if booked k t pointer = false then (k, pointerReply 0 Errno.einval.code)
  else if size = 0 then (unbook k t pointer, pointerReply 0 0)
  else if h.grants size = false then (k, pointerReply 0 Errno.enomem.code)
  else
    ((k.heapCall (.moved pointer h.block)).setTask t fun task =>
      { task with allocations := rebook pointer ⟨h.block, size⟩ task.allocations }, pointerReply h.block 0)

def apiRelease (pointer : ℕ) : Kernel × Outcome :=
  if pointer = 0 then (k, .done ⟨0, [], none⟩ .none)
  else if booked k t pointer = false then (k, pointerReply 0 Errno.einval.code)
  else (unbook k t pointer, pointerReply 0 0)

end CannedBsd
