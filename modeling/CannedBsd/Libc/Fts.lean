import CannedBsd.Libc.Machine

/-!
# Walking a tree

`libc/cb_fts.c`. The stack of open directories is a list with the innermost one first; `path_argv` is the
list of its strings. Pointers are what `cb_libc_malloc` returned, and an entry is the same as another if
its pointer is.
-/

namespace CannedBsd

open CannedBsd.Lib

/-- `fts_info`; `unset` is what `calloc` leaves there. -/
inductive FtsInfo
  | unset | d | dp | dnr | ns | dc | default
  deriving DecidableEq, Repr

/-- `FTSENT`. The three pointers are those of the entry, of `fts_path` and of `fts_statp`. -/
structure FtsEnt where
  pointer : ℕ
  pathPointer : ℕ
  statPointer : ℕ
  path : Bytes
  accpath : Bytes
  name : Bytes
  level : ℕ
  info : FtsInfo
  errno : ℤ
  statp : Option Stat
  deriving DecidableEq, Repr

/-- `struct cb_fts_frame`. -/
structure FtsFrame where
  dir : CbLibcDir
  inode : ℕ
  entry : FtsEnt
  skip : Bool
  deriving DecidableEq, Repr

/-- `struct cb_fts`, without the comparison function and the options, which are not used after
`fts_open`. -/
structure Fts where
  pointer : ℕ
  pathArgv : List Bytes
  rootIndex : ℕ
  stack : List FtsFrame
  pendingFree : Option FtsEnt
  deriving DecidableEq, Repr

def cbFtsMaxDepth : ℕ := cbPathMax / 2

/-- `FTS_XDEV`. -/
def ftsXdev : ℕ := 0x0010

/-- `FTS_SKIP`. -/
def ftsSkip : ℤ := 1

/-- What stands behind the last slash of a path. -/
def lastName (path : Bytes) : Bytes := (path.reverse.takeWhile (· ≠ slash)).reverse

/-- What `entry_create` copies to `fts_path`. -/
def entryPath (parentPath : Option Bytes) (name : Bytes) : Bytes :=
  match parentPath with
  | none => name
  | some parent => parent ++ slash :: name

section Functions

variable (hosts : Machine → Host) (t : TaskId) (sizes : Sizes)

def entryCreate (parentPath : Option Bytes) (name : Bytes) (level : ℕ) (m : Machine) : Machine × Option FtsEnt :=
  let (m, entry) := cbLibcCalloc hosts t 1 sizes.ftsent m
  if entry = 0 then (m, none)
  else
    let path := entryPath parentPath name
    let (m, ftsPath) := cbLibcMalloc hosts t (path.length + 1) m
    if ftsPath = 0 then (cbLibcFree hosts t entry m, none)
    else
      let (m, statp) := cbLibcCalloc hosts t 1 sizes.stat m
      if statp = 0 then (cbLibcFree hosts t entry (cbLibcFree hosts t ftsPath m), none)
      else
        (m, some {
          pointer := entry
          pathPointer := ftsPath
          statPointer := statp
          path := path
          accpath := path
          name := lastName path
          level := level
          info := .unset
          errno := 0
          statp := none })

def entryDestroy (entry : FtsEnt) (m : Machine) : Machine :=
  let m := cbLibcFree hosts t entry.statPointer m
  let m := cbLibcFree hosts t entry.pathPointer m
  cbLibcFree hosts t entry.pointer m

/-- `entry_destroy` of `pending_free`, if there is one. -/
def freePending (pending : Option FtsEnt) (m : Machine) : Machine :=
  match pending with
  | none => m
  | some entry => entryDestroy hosts t entry m

def cycleDetected (fts : Fts) (inode : ℕ) : Bool := fts.stack.any fun frame => frame.inode = inode

def classify (fts : Fts) (entry : FtsEnt) (m : Machine) : Machine × Fts × FtsEnt :=
  match cbLibcStat hosts t entry.path m with
  | (m, none) => (m, fts, { entry with info := .ns, errno := m.errno t })
  | (m, some status) =>
    let entry := { entry with statp := some status }
    if status.type ≠ .directory then (m, fts, { entry with info := .default })
    else if cycleDetected fts status.inode then (m, fts, { entry with info := .dc })
    else if cbFtsMaxDepth ≤ fts.stack.length then
      (m, fts, { entry with info := .dnr, errno := Errno.enametoolong.code })
    else
      match cbLibcOpendir hosts t sizes entry.accpath m with
      | (m, none) => (m, fts, { entry with info := .dnr, errno := m.errno t })
      | (m, some dir) =>
        let entry := { entry with info := .d }
        (m, { fts with stack := ⟨dir, status.inode, entry, false⟩ :: fts.stack }, entry)

def cbLibcFtsOpen (pathArgv : List Bytes) (options : ℕ) (m : Machine) : Machine × Option Fts :=
  if pathArgv = [] then (setErrno hosts t Errno.einval.code m, none)
  else if options &&& ftsXdev ≠ 0 then (setErrno hosts t Errno.enosys.code m, none)
  else
    let (m, fts) := cbLibcCalloc hosts t 1 sizes.fts m
    if fts = 0 then (m, none)
    else (m, some ⟨fts, pathArgv, 0, [], none⟩)

/-- The end of both branches of `fts_read` that find a new entry. -/
def handOut (r : Machine × Fts × FtsEnt) : Machine × Fts × Option FtsEnt :=
  let (m, fts, entry) := r
  if entry.info ≠ .d then (m, { fts with pendingFree := some entry }, some entry) else (m, fts, some entry)

/-- The loop of `fts_read`, on the frames that are left. -/
def ftsReadLoop (fts : Fts) : List FtsFrame → Machine → Machine × Fts × Option FtsEnt
  | [], m =>
    let fts := { fts with stack := [] }
    match fts.pathArgv[fts.rootIndex]? with
    | none => (setErrno hosts t 0 m, fts, none)
    | some path =>
      let (m, root) := entryCreate hosts t sizes none path 0 m
      let fts := { fts with rootIndex := fts.rootIndex + 1 }
      match root with
      | none => (m, fts, none)
      | some root => handOut (classify hosts t sizes fts root m)
  | top :: rest, m =>
    if top.skip then
      let m := cbLibcClosedir hosts t top.dir m
      ftsReadLoop fts rest (entryDestroy hosts t top.entry m)
    else
      match cbLibcReaddir hosts t top.dir m with
      | (m, some name) =>
        let fts := { fts with stack := top :: rest }
        match entryCreate hosts t sizes (some top.entry.path) name (top.entry.level + 1) m with
        | (m, none) => (m, fts, none)
        | (m, some child) => handOut (classify hosts t sizes fts child m)
      | (m, none) =>
        let m := cbLibcClosedir hosts t top.dir m
        let entry := { top.entry with info := .dp }
        (m, { fts with stack := rest, pendingFree := some entry }, some entry)

def cbLibcFtsRead (fts : Fts) (m : Machine) : Machine × Fts × Option FtsEnt :=
  let m := freePending hosts t fts.pendingFree m
  ftsReadLoop hosts t sizes { fts with pendingFree := none } fts.stack m

/-- The loop of `fts_close`, from the outermost frame on. -/
def closeFrames : List FtsFrame → Machine → Machine
  | [], m => m
  | frame :: frames, m =>
    let m := cbLibcClosedir hosts t frame.dir m
    closeFrames frames (entryDestroy hosts t frame.entry m)

def cbLibcFtsClose (fts : Fts) (m : Machine) : Machine :=
  let m := closeFrames hosts t fts.stack.reverse m
  let m := freePending hosts t fts.pendingFree m
  cbLibcFree hosts t fts.pointer m

/-- Mark the outermost frame with this entry. -/
def skipFrame (pointer : ℕ) : List FtsFrame → List FtsFrame
  | [] => []
  | frame :: frames =>
    if frames.any fun f => f.entry.pointer = pointer then frame :: skipFrame pointer frames
    else if frame.entry.pointer = pointer then { frame with skip := true } :: frames
    else frame :: frames

def cbLibcFtsSet (fts : Fts) (entry : FtsEnt) (instr : ℤ) (m : Machine) : Machine × Fts × ℤ :=
  if instr ≠ ftsSkip then (setErrno hosts t Errno.einval.code m, fts, -1)
  else if entry.info ≠ .d then (m, fts, 0)
  else (m, { fts with stack := skipFrame entry.pointer fts.stack }, 0)

end Functions

end CannedBsd
