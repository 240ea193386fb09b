import CannedBsd.Vfs.Content

/-!
# Paths and the calls on them

`src/vfs.c`: a path is made absolute with the rendered working directory, normalized as a text,
and then looked up component by component from the task's root, crossing into mounted file systems
on the way down and out of them on the way up.

A text is the list of its bytes without the final `NUL`. The loops over a text visit its non-empty
components, which are computed here once.
-/

namespace CannedBsd

open CannedBsd.Lib

/-- The two nodes of a task that path resolution reads. -/
structure View where
  root : Option NodeId
  cwd : Option NodeId
  deriving DecidableEq

/-! ### Texts -/

/-- The non-empty pieces between slashes; `current` is the piece being read. -/
def componentsFrom : Bytes → Bytes → List Bytes
  | current, [] => if current = [] then [] else [current]
  | current, b :: rest =>
    if b = slash then
      if current = [] then componentsFrom [] rest else current :: componentsFrom [] rest
    else componentsFrom (current ++ [b]) rest

def components (text : Bytes) : List Bytes := componentsFrom [] text

/-- The output of `cb_test_path_normalize` under construction: the starts of the kept components,
last one first, and the bytes written so far. -/
structure Normal where
  starts : List ℕ
  output : Bytes
  deriving DecidableEq

/-- One round of the loop of `cb_test_path_normalize`. -/
def addComponent (outputSize : ℕ) (s : Normal) (component : Bytes) : Except Errno Normal :=
  if component = [dot] then .ok s
  else if component = [dot, dot] then
    match s.starts with
    | [] => .ok s
    | start :: starts => .ok ⟨starts, s.output.take start⟩
  else if s.starts.length = cbPathMax / 2 then .error .enametoolong
  else if 1 < s.output.length ∧ outputSize ≤ s.output.length + 1 then .error .enametoolong
  else
    let output := if 1 < s.output.length then s.output ++ [slash] else s.output
    if outputSize ≤ output.length + component.length then .error .enametoolong
    else .ok ⟨s.output.length :: s.starts, output ++ component⟩

def addComponents (outputSize : ℕ) : Normal → List Bytes → Except Errno Normal
  | s, [] => .ok s
  | s, c :: cs =>
    match addComponent outputSize s c with
    | .error e => .error e
    | .ok s => addComponents outputSize s cs

/-- The text that is normalized: the path itself or the path behind the working directory. -/
def absoluteInput (cwd path : Bytes) : Bytes :=
  if path.head? = some slash then path
  else cwd ++ (if cwd = [slash] then [] else [slash]) ++ path

def cbTestPathNormalize (cwd path : Bytes) (outputSize : ℕ) : Except Errno Bytes :=
  if outputSize < 2 ∨ cwd.head? ≠ some slash then .error .einval
  else if cbPathMax * 2 ≤ (absoluteInput cwd path).length then .error .enametoolong
  else
    match addComponents outputSize ⟨[], [slash]⟩ (components (absoluteInput cwd path)) with
    | .error e => .error e
    | .ok s => .ok s.output

/-- Cut a text at its last slash. -/
def splitLast (text : Bytes) : Option (Bytes × Bytes) :=
  match text.reverse.dropWhile (· ≠ slash) with
  | [] => none
  | _ :: front => some (front.reverse, (text.reverse.takeWhile (· ≠ slash)).reverse)

/-! ### Crossing mounts -/

/-- From the root of a mounted file system to the node it is mounted on. -/
def crossUp (v : Vfs) (n : NodeId) : NodeId :=
  match v.table.find? fun e => v.rootOf e.mount = some n with
  | some e => e.mountPoint
  | none => n

/-- From a mount point to the root of what is mounted there. -/
def crossDown (v : Vfs) (n : NodeId) : Option NodeId :=
  match v.table.find? fun e => e.mountPoint = n with
  | some e => v.rootOf e.mount
  | none => some n

/-- Is the node a mount point or the root of a mounted file system? -/
def isMountNode (v : Vfs) (n : NodeId) : Bool :=
  v.table.any fun e => e.mountPoint = n || v.rootOf e.mount = some n

/-! ### The working directory -/

/-- The upward walk of `cwd_string`. The parts come out in the order they are printed. -/
def cwdParts (v : Vfs) (root : Option NodeId) : ℕ → Option NodeId → List NodeId →
    Except Errno (List NodeId)
  | 0, node, parts => if node = root then .ok parts else .error .eio
  | room + 1, node, parts =>
    if node = root then .ok parts
    else
      match node with
      | none => .error .eio
      | some n =>
        let n := crossUp v n
        if some n = root then .ok parts else cwdParts v root room (v.parentOf n) (n :: parts)

/-- The printing loop of `cwd_string`. -/
def renderParts (v : Vfs) (size : ℕ) : Bytes → List NodeId → Except Errno Bytes
  | buffer, [] => .ok buffer
  | buffer, p :: rest =>
    match v.node p with
    | none => .error .eio
    | some node =>
      let separator := if rest = [] then [] else [slash]
      if size < buffer.length + node.name.length + separator.length + 1 then .error .enametoolong
      else renderParts v size (buffer ++ node.name ++ separator) rest

def cwdString (v : Vfs) (view : View) (size : ℕ) : Except Errno Bytes :=
  match cwdParts v view.root (cbPathMax / 2) view.cwd [] with
  | .error e => .error e
  | .ok parts =>
    if size < 2 then .error .enametoolong else renderParts v size [slash] parts

def normalizeForTask (v : Vfs) (view : View) (path : Bytes) : Except Errno Bytes :=
  match cwdString v view cbPathMax with
  | .error e => .error e
  | .ok cwd => cbTestPathNormalize cwd path cbPathMax

/-! ### Resolution -/

/-- The lookup loop of `resolve_normalized`. -/
def resolveFrom (v : Vfs) : NodeId → List Bytes → Except Errno NodeId
  | n, [] => .ok n
  | n, c :: cs =>
    match ramfsLookup v n c with
    | .error e => .error e
    | .ok next =>
      match crossDown v next with
      | none => .error .eio
      | some next => resolveFrom v next cs

def resolveNormalized (v : Vfs) (view : View) (normalized : Bytes) : Except Errno NodeId :=
  match view.root with
  | none => .error .eio
  | some root => resolveFrom v root (components normalized)

def resolveParent (v : Vfs) (view : View) (normalized : Bytes) : Except Errno (NodeId × Bytes) :=
  match splitLast normalized with
  | none => .error .einval
  | some (front, name) =>
    if name = [] then .error .einval
    else
      match resolveNormalized v view (if front = [] then [slash] else front) with
      | .error e => .error e
      | .ok parent => .ok (parent, name)

def cbVfsLookupNode (v : Vfs) (view : View) (path : Bytes) : Except Errno NodeId :=
  match normalizeForTask v view path with
  | .error e => .error e
  | .ok normalized => resolveNormalized v view normalized

/-! ### Calls that only look -/

def cbVfsStatPath (v : Vfs) (view : View) (path : Bytes) : Except Errno Stat :=
  match cbVfsLookupNode v view path with
  | .error e => .error e
  | .ok n => ramfsStat v n

/-- The directory `cb_vfs_opendir_path` and `cb_vfs_chdir_path` find. -/
def lookupDirectory (v : Vfs) (view : View) (path : Bytes) : Except Errno NodeId :=
  match cbVfsLookupNode v view path with
  | .error e => .error e
  | .ok n =>
    match ramfsStat v n with
    | .error e => .error e
    | .ok status => if status.type ≠ .directory then .error .enotdir else .ok n

/-- `/bin/`. -/
def binDirectory : Bytes := slash :: binName ++ [slash]

/-- `resolve_executable_node` of `src/core.c`. -/
def resolveExecutableNode (v : Vfs) (view : View) (programName : Bytes) : Except Errno NodeId :=
  let path := if slash ∈ programName then programName else binDirectory ++ programName
  if cbPathMax ≤ path.length then .error .enametoolong
  else
    match cbVfsLookupNode v view path with
    | .error e => .error e
    | .ok n =>
      match ramfsStat v n with
      | .error e => .error e
      | .ok status =>
        if status.type = .directory ∨ status.type = .terminal then .error .eacces
        else if status.type ≠ .executable then .error .enoexec
        else .ok n

/-! ### Calls that change the tree -/

def cbVfsTruncatePath (h : Host) (v : Vfs) (view : View) (path : Bytes) (length : ℤ) :
    Vfs × Except Errno Unit :=
  if length < 0 ∨ (sizeMax : ℤ) < length then (v, .error .einval)
  else
    match cbVfsLookupNode v view path with
    | .error e => (v, .error e)
    | .ok n =>
      match v.node n with
      | none => (v, .error .eio)
      | some node =>
        let (node', result) := cbVfsTruncateNode h node length
        (v.setNode n fun _ => node', result)

/-- The common part of `cb_vfs_mkdir_path` and of creation in `cb_vfs_open`: make a node where the
normalized path ends. -/
def createAt (h : Host) (v : Vfs) (view : View) (normalized : Bytes) (type : NodeType) (mode : ℕ) :
    Except Errno (Vfs × NodeId) :=
  match resolveParent v view normalized with
  | .error e => .error e
  | .ok (parent, name) => ramfsCreate h v parent name type mode

def cbVfsMkdirPath (h : Host) (v : Vfs) (view : View) (path : Bytes) (mode : ℕ) :
    Vfs × Except Errno Unit :=
  match normalizeForTask v view path with
  | .error e => (v, .error e)
  | .ok normalized =>
    match resolveNormalized v view normalized with
    | .ok _ => (v, .error .eexist)
    | .error .enoent =>
      match createAt h v view normalized .directory (if mode = 0 then 0o777 else mode) with
      | .error e => (v, .error e)
      | .ok (v', _) => (v', .ok ())
    | .error e => (v, .error e)

/-- `cb_vfs_unlink_path` and `cb_vfs_rmdir_path` differ in the node operation they call. -/
def removePath (remove : Vfs → NodeId → Vfs × Except Errno Unit) (v : Vfs) (view : View)
    (path : Bytes) : Vfs × Except Errno Unit :=
  match cbVfsLookupNode v view path with
  | .error e => (v, .error e)
  | .ok n => if isMountNode v n then (v, .error .eperm) else remove v n

def cbVfsUnlinkPath : Vfs → View → Bytes → Vfs × Except Errno Unit := removePath ramfsUnlink

def cbVfsRmdirPath : Vfs → View → Bytes → Vfs × Except Errno Unit := removePath ramfsRmdir

/-- What the checks of `cb_vfs_rename_paths` decide about a node and its new place. -/
inductive RenamePlan
  /-- The new name already is the node's own name. -/
  | same
  /-- Move the node, after unlinking the node that has the new name. -/
  | move (existing : Option NodeId)
  deriving DecidableEq

/-- The checks behind the lookup of both paths; nothing has been changed so far. -/
def renameChecks (h : Host) (v : Vfs) (oldNode newParent : NodeId) (newName : Bytes) :
    Except Errno RenamePlan :=
  if (v.node oldNode).map Node.mount ≠ (v.node newParent).map Node.mount then .error .exdev
  else if isMountNode v oldNode then .error .eperm
  else
    match walkUp v.parentOf oldNode (cbPathMax / 2) (some newParent) with
    | .hit => .error .einval
    | .tooLong => .error .enametoolong
    | .clear =>
      match ramfsStat v oldNode with
      | .error e => .error e
      | .ok oldStatus =>
        match ramfsLookup v newParent newName with
        | .ok existing =>
          if existing = oldNode then .ok .same
          else
            match ramfsStat v existing with
            | .error e => .error e
            | .ok existingStatus =>
              if oldStatus.type = .directory then
                .error (if existingStatus.type = .directory then .enotempty else .enotdir)
              else if existingStatus.type = .directory then .error .eisdir
              else if !h.allocate .newName then .error .enomem
              else .ok (.move (some existing))
        | .error .enoent =>
          if !h.allocate .newName then .error .enomem else .ok (.move none)
        | .error e => .error e

/-- The node a rename moves, and the directory and name it goes to. -/
def renameTargets (v : Vfs) (view : View) (oldPath newPath : Bytes) :
    Except Errno (NodeId × NodeId × Bytes) :=
  match cbVfsLookupNode v view oldPath with
  | .error e => .error e
  | .ok oldNode =>
    match normalizeForTask v view newPath with
    | .error e => .error e
    | .ok normalized =>
      match resolveParent v view normalized with
      | .error e => .error e
      | .ok (newParent, newName) => .ok (oldNode, newParent, newName)

def cbVfsRenamePaths (h : Host) (v : Vfs) (view : View) (oldPath newPath : Bytes) :
    Vfs × Except Errno Unit :=
  match renameTargets v view oldPath newPath with
  | .error e => (v, .error e)
  | .ok (oldNode, newParent, newName) =>
    match renameChecks h v oldNode newParent newName with
    | .error e => (v, .error e)
    | .ok .same => (v, .ok ())
    | .ok (.move none) => ramfsRename h v oldNode newParent newName
    | .ok (.move (some existing)) =>
      match ramfsUnlink v existing with
      | (v, .error e) => (v, .error e)
      | (v, .ok ()) => ramfsRename h v oldNode newParent newName

/-- `cb_vfs_mount_path`; the mount is one that `cb_ramfs_mount_create` made. -/
def cbVfsMountPath (v : Vfs) (view : View) (path : Bytes) (m : MountId) : Vfs × Except Errno Unit :=
  match v.rootOf m with
  | none => (v, .error .einval)
  | some _ =>
    if m = v.rootMount then (v, .error .einval)
    else if v.table.any fun e => e.mount = m then (v, .error .einval)
    else if cbMaxMounts ≤ v.table.length then (v, .error .enomem)
    else
      match cbVfsLookupNode v view path with
      | .error e => (v, .error e)
      | .ok n =>
        if n = v.vfsRoot then (v, .error .einval)
        else
          match ramfsStat v n with
          | .error _ => (v, .error .enotdir)
          | .ok status =>
            if status.type ≠ .directory then (v, .error .enotdir)
            else if isMountNode v n then (v, .error .eexist)
            else ({ ramfsNodeRetain v n with table := v.table ++ [⟨n, m⟩] }, .ok ())

/-- `cb_vfs_create_executable`, which resolves with a task that stands at the root. -/
def cbVfsCreateExecutable (h : Host) (v : Vfs) (path : Bytes) (program : ProgramId) :
    Vfs × Except Errno Unit :=
  let view : View := ⟨some v.vfsRoot, some v.vfsRoot⟩
  match normalizeForTask v view path with
  | .error e => (v, .error e)
  | .ok normalized =>
    match resolveNormalized v view normalized with
    | .ok _ => (v, .error .eexist)
    | .error .enoent =>
      match createAt h v view normalized .executable 0o555 with
      | .error e => (v, .error e)
      | .ok (v', n) => (v'.setNode n fun node => { node with executable := some program }, .ok ())
    | .error e => (v, .error e)

end CannedBsd
