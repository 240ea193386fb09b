import CannedBsd.Abi
import CannedBsd.Lib.Chain
import CannedBsd.Lib.Ring

/-!
# RAMFS nodes and their links

`src/ramfs.c` up to the file operations: nodes with an intrusive list of children, reference
counts, and the operations that splice these lists. A node that loses its last reference is
destroyed together with the references its children list holds.

Pointers are addresses in a heap, `NULL` is `none`. The walks over a children list are bounded by
the number of addresses in use, which no list without repetitions exceeds.
-/

namespace CannedBsd

open CannedBsd.Lib

abbrev NodeId := ℕ
abbrev MountId := ℕ
abbrev ProgramId := ℕ

/-- `struct cb_ramfs_node`, with the fields of its `common` part first. -/
structure Node where
  mount : MountId
  executable : Option ProgramId
  type : NodeType
  inode : ℕ
  mode : ℕ
  name : Bytes
  parent : Option NodeId
  children : Option NodeId
  nextSibling : Option NodeId
  data : ℕ → UInt8
  size : ℕ
  capacity : ℕ
  references : ℕ
  atime : ℕ
  mtime : ℕ
  ctime : ℕ

/-- `struct cb_ramfs_mount`. -/
structure Mount where
  root : NodeId
  device : ℕ
  deriving DecidableEq, Repr

/-- `struct cb_vfs_mount_entry`. -/
structure MountEntry where
  mountPoint : NodeId
  mount : MountId
  deriving DecidableEq, Repr

/-- `struct cb_program`: `interrupt` is `cb_executor_supports_interrupt` of its executor. -/
structure Program where
  name : Bytes
  interrupt : Bool
  deriving DecidableEq, Repr

/-- The part of `struct cb_kernel` the file system works on. -/
structure Vfs where
  nodes : Heap Node
  mounts : Heap Mount
  table : List MountEntry
  rootMount : MountId
  vfsRoot : NodeId
  nextInode : ℕ
  nextDevice : ℕ
  programs : Heap Program
  programCount : ℕ
  /-- Not in the source: the programs that have been destroyed, last one first. -/
  destroyed : List ProgramId

namespace Vfs

variable (v : Vfs)

def node (n : NodeId) : Option Node := v.nodes.get n

def parentOf (n : NodeId) : Option NodeId := (v.node n).bind Node.parent

def nextOf (n : NodeId) : Option NodeId := (v.node n).bind Node.nextSibling

def childrenOf (n : NodeId) : Option NodeId := (v.node n).bind Node.children

def setNode (n : NodeId) (f : Node → Node) : Vfs := { v with nodes := v.nodes.modify n f }

/-- `ops->root` of a mount. -/
def rootOf (m : MountId) : Option NodeId := (v.mounts.get m).map Mount.root

end Vfs

/-! ### Creation -/

/-- The fields `node_create` gives a node, before it is linked. -/
def freshNode (mount : MountId) (parent : Option NodeId) (name : Bytes) (type : NodeType)
    (mode inode now : ℕ) (sibling : Option NodeId) : Node where
  mount := mount
  executable := none
  type := type
  inode := inode
  mode := mode
  name := name
  parent := parent
  children := none
  nextSibling := sibling
  data := fun _ => 0
  size := 0
  capacity := 0
  references := 1
  atime := now
  mtime := now
  ctime := now

/-- `node_create` when both allocations succeed. The new node is at the head of the children
of `parent`. -/
def nodeCreate (h : Host) (v : Vfs) (mount : MountId) (parent : Option NodeId) (name : Bytes)
    (type : NodeType) (mode : ℕ) : Vfs × NodeId :=
  let n := v.nodes.next
  let sibling := parent.bind v.childrenOf
  let nodes := v.nodes.alloc
    (freshNode mount parent name type mode (v.nextInode + 1) h.wallClock sibling)
  let v' := { v with nodes := nodes, nextInode := v.nextInode + 1 }
  match parent with
  | none => (v', n)
  | some d => (v'.setNode d fun node => { node with children := some n }, n)

/-! ### References -/

/-- `cb_executor_program_destroy`. -/
def programDestroy (v : Vfs) : Option ProgramId → Vfs
  | none => v
  | some p => { v with
      programs := v.programs.free p
      programCount := v.programCount - 1
      destroyed := p :: v.destroyed }

def ramfsNodeRetain (v : Vfs) (n : NodeId) : Vfs :=
  v.setNode n fun node => { node with references := node.references + 1 }

/-- The loop of `node_destroy` over the children, with `release` for `ramfs_node_release`. -/
def releaseChildren (release : Vfs → NodeId → Vfs) : ℕ → Vfs → Option NodeId → Vfs
  | 0, v, _ => v
  | _ + 1, v, none => v
  | fuel + 1, v, some child =>
    let next := v.nextOf child
    let v := v.setNode child fun node => { node with parent := none, nextSibling := none }
    releaseChildren release fuel (release v child) next

/-- `ramfs_node_release` and `node_destroy`. The fuel bounds the depth of the tree that is
destroyed. -/
def nodeRelease : ℕ → Vfs → NodeId → Vfs
  | 0, v, _ => v
  | fuel + 1, v, n =>
    match v.node n with
    | none => v
    | some node =>
      let v := v.setNode n fun node => { node with references := node.references - 1 }
      if node.references - 1 = 0 then
        let v := releaseChildren (nodeRelease fuel) v.nodes.next v node.children
        let v := programDestroy v node.executable
        { v with nodes := v.nodes.free n }
      else v

def ramfsNodeRelease (v : Vfs) (n : NodeId) : Vfs := nodeRelease (v.nodes.next + 1) v n

/-- `cb_vfs_node_retain`. -/
def cbVfsNodeRetain (v : Vfs) : Option NodeId → Vfs
  | none => v
  | some n => ramfsNodeRetain v n

/-- `cb_vfs_node_release`. -/
def cbVfsNodeRelease (v : Vfs) : Option NodeId → Vfs
  | none => v
  | some n => ramfsNodeRelease v n

/-! ### Lookup -/

def hasName (v : Vfs) (name : Bytes) (n : NodeId) : Bool :=
  match v.node n with
  | none => false
  | some node => node.name == name

def findChild (v : Vfs) (d : NodeId) (name : Bytes) : Option NodeId :=
  findFrom v.nextOf (hasName v name) v.nodes.next (v.childrenOf d)

def ramfsLookup (v : Vfs) (d : NodeId) (name : Bytes) : Except Errno NodeId :=
  match v.node d with
  | none => .error .eio
  | some directory =>
    if directory.type ≠ .directory then .error .enotdir
    else
      match findChild v d name with
      | none => .error .enoent
      | some child => .ok child

/-- `ramfs_create`; `type` is one of the three types the source accepts. -/
def ramfsCreate (h : Host) (v : Vfs) (d : NodeId) (name : Bytes) (type : NodeType) (mode : ℕ) :
    Except Errno (Vfs × NodeId) :=
  match v.node d with
  | none => .error .eio
  | some directory =>
    if directory.type ≠ .directory then .error .enotdir
    else if type ≠ .regular ∧ type ≠ .directory ∧ type ≠ .executable then .error .einval
    else if name = [] ∨ slash ∈ name then .error .einval
    else if (findChild v d name).isSome then .error .eexist
    else if !(h.allocate .node && h.allocate .nodeName) then .error .enomem
    else .ok (nodeCreate h v directory.mount (some d) name type mode)

def ramfsChildAt (v : Vfs) (d : NodeId) (index : ℕ) : Except Errno (Option NodeId) :=
  match v.node d with
  | none => .error .eio
  | some directory =>
    if directory.type ≠ .directory then .error .enotdir
    else .ok (collect v.nextOf v.nodes.next directory.children)[index]?

def ramfsNextSibling (v : Vfs) (n : NodeId) : Option NodeId := v.nextOf n

/-! ### Unlinking and moving -/

/-- The assignment `*link = next`, for a link into the children list of `d`. -/
def setLink (v : Vfs) (d : NodeId) (next : Option NodeId) : Link NodeId → Vfs
  | .head => v.setNode d fun node => { node with children := next }
  | .after p => v.setNode p fun node => { node with nextSibling := next }

/-- The search for the link to `n` among the children of `d`. -/
def linkTo (v : Vfs) (d n : NodeId) : Option (Link NodeId) :=
  findLink v.nextOf n v.nodes.next .head (v.childrenOf d)

/-- The end of `ramfs_unlink` and `ramfs_rmdir`: cut the node out of its list. -/
def detachNode (v : Vfs) (d n : NodeId) (link : Link NodeId) : Vfs :=
  (setLink v d (v.nextOf n) link).setNode n fun node =>
    { node with parent := none, nextSibling := none }

/-- The common part of `ramfs_unlink` and `ramfs_rmdir` behind their type checks. -/
def unlinkNode (v : Vfs) (n : NodeId) : Vfs × Except Errno Unit :=
  match v.parentOf n with
  | none => (v, .error .eperm)
  | some d =>
    match linkTo v d n with
    | none => (v, .error .eio)
    | some link => (ramfsNodeRelease (detachNode v d n link) n, .ok ())

def ramfsUnlink (v : Vfs) (n : NodeId) : Vfs × Except Errno Unit :=
  match v.node n with
  | none => (v, .error .eio)
  | some node =>
    if node.type = .directory then
      (v, .error (if node.children = none then .eisdir else .enotempty))
    else unlinkNode v n

def ramfsRmdir (v : Vfs) (n : NodeId) : Vfs × Except Errno Unit :=
  match v.node n with
  | none => (v, .error .eio)
  | some node =>
    if node.type ≠ .directory then (v, .error .enotdir)
    else if node.children ≠ none then (v, .error .enotempty)
    else unlinkNode v n

/-- `ramfs_rename`; it owns `newName` and installs it. -/
def ramfsRename (h : Host) (v : Vfs) (n newParent : NodeId) (newName : Bytes) :
    Vfs × Except Errno Unit :=
  match v.parentOf n with
  | none => (v, .error .eperm)
  | some d =>
    match linkTo v d n with
    | none => (v, .error .eio)
    | some link =>
      let v := setLink v d (v.nextOf n) link
      let sibling := v.childrenOf newParent
      let v := v.setNode n fun node => { node with nextSibling := sibling }
      let v := v.setNode newParent fun node => { node with children := some n }
      (v.setNode n fun node =>
        { node with parent := some newParent, name := newName, ctime := h.wallClock }, .ok ())

/-! ### Status -/

def ramfsLinkCount (v : Vfs) (node : Node) : ℕ :=
  if node.type ≠ .directory then 1
  else 2 + (collect v.nextOf v.nodes.next node.children).countP fun c =>
    (v.node c).any fun child => child.type = .directory

def ramfsStat (v : Vfs) (n : NodeId) : Except Errno Stat :=
  match v.node n with
  | none => .error .eio
  | some node => .ok {
      inode := node.inode
      size := node.size
      mode := if node.type = .executable then 0o555 else node.mode
      type := node.type
      device := ((v.mounts.get node.mount).map Mount.device).getD 0
      nlink := ramfsLinkCount v node
      atime := node.atime
      mtime := node.mtime
      ctime := node.ctime }

/-! ### Mounts -/

/-- The bytes of the names a new mount starts with. -/
def binName : Bytes := [98, 105, 110]
def tmpName : Bytes := [116, 109, 112]
def homeName : Bytes := [104, 111, 109, 101]
def userName : Bytes := [117, 115, 101, 114]

/-- The tree of a new mount. -/
def ramfsMountTree (h : Host) (v : Vfs) : Vfs × MountId :=
  let m := v.mounts.next
  let (v, root) := nodeCreate h { v with nextDevice := v.nextDevice + 1 } m none [] .directory 0o755
  let v := { v with mounts := v.mounts.alloc ⟨root, v.nextDevice⟩ }
  let (v, _) := nodeCreate h v m (some root) binName .directory 0o755
  let (v, _) := nodeCreate h v m (some root) tmpName .directory 0o777
  let (v, home) := nodeCreate h v m (some root) homeName .directory 0o755
  let (v, _) := nodeCreate h v m (some home) userName .directory 0o755
  (v, m)

/-- `cb_ramfs_mount_create`. When a node cannot be allocated everything built so far is released
again; the counters keep the values they reached. -/
def cbRamfsMountCreate (h : Host) (v : Vfs) : Vfs × Option MountId :=
  if !h.allocate .mount then (v, none)
  else if h.mountNodes < 5 then
    ({ v with nextDevice := v.nextDevice + 1, nextInode := v.nextInode + h.mountNodes }, none)
  else
    let (v, m) := ramfsMountTree h v
    (v, some m)

/-- The file system before its first mount. -/
def blankVfs : Vfs where
  nodes := .empty
  mounts := .empty
  table := []
  rootMount := 0
  vfsRoot := 0
  nextInode := 0
  nextDevice := 0
  programs := .empty
  programCount := 0
  destroyed := []

/-- `cb_vfs_initialize`, on a host that can allocate the root mount. -/
def cbVfsInitialize (h : Host) : Vfs :=
  let (v, m) := ramfsMountTree h blankVfs
  { v with rootMount := m, vfsRoot := (v.rootOf m).getD 0 }

end CannedBsd
