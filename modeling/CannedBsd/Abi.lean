import CannedBsd.Lib.Heap

/-!
# The kernel interface

The constants, error codes and argument types of `include/cannedbsd/abi.h`, and the host
services the kernel calls. A host answer is an input of the call that asks for it: every
operation of the model takes the answers its source function can receive, so a statement
about all of them covers a host that fails at any point.

Sizes and counters are natural numbers and offsets integers. Where the source compares
with the limits of its types, the limits are written out.
-/

namespace CannedBsd

open CannedBsd.Lib

/-- Texts, file contents and buffers. -/
abbrev Bytes := List UInt8

def slash : UInt8 := 47
def dot : UInt8 := 46
def underscore : UInt8 := 95
def equalsSign : UInt8 := 61

/-- `isspace`, `isalpha` and `isalnum` in the C locale. -/
def isSpace (c : UInt8) : Bool := c = 32 || 9 ≤ c && c ≤ 13

def isAlpha (c : UInt8) : Bool := 65 ≤ c && c ≤ 90 || 97 ≤ c && c ≤ 122

def isAlnum (c : UInt8) : Bool := isAlpha c || 48 ≤ c && c ≤ 57

def cbPathMax : ℕ := 1024
def cbMaxFds : ℕ := 64

theorem zero_lt_cbMaxFds : 0 < cbMaxFds := by decide

theorem one_lt_cbMaxFds : 1 < cbMaxFds := by decide

theorem two_lt_cbMaxFds : 2 < cbMaxFds := by decide
def cbMaxDirs : ℕ := 16
def cbMaxPrograms : ℕ := 72
def cbMaxMounts : ℕ := 4
def cbPipeBytes : ℕ := 4096

def sizeMax : ℕ := 2 ^ 64 - 1
def int64Max : ℕ := 2 ^ 63 - 1
def intMax : ℕ := 2 ^ 31 - 1

/-- The cast `(cb_off_t)n` of a `size_t`. -/
def cbOff (n : ℕ) : ℤ := Int.bmod n (2 ^ 64)

theorem cbOff_of_le {n : ℕ} (h : n ≤ int64Max) : cbOff n = n := by
  simp only [int64Max] at h
  exact Int.bmod_eq_of_le (by omega) (by omega)

/-- `enum cb_error`, the part the kernel reports. -/
inductive Errno
  | eperm | enoent | eio | enoexec | ebadf | echild | enomem | eacces | efault | eexist | exdev
  | enotdir | eisdir | einval | emfile | enotty | enospc | espipe | epipe | enametoolong
  | enotempty | enosys
  deriving DecidableEq, Repr

def Errno.code : Errno → ℤ
  | .eperm => 1
  | .enoent => 2
  | .eio => 5
  | .enoexec => 8
  | .ebadf => 9
  | .echild => 10
  | .enomem => 12
  | .eacces => 13
  | .efault => 14
  | .eexist => 17
  | .exdev => 18
  | .enotdir => 20
  | .eisdir => 21
  | .einval => 22
  | .emfile => 24
  | .enotty => 25
  | .enospc => 28
  | .espipe => 29
  | .epipe => 32
  | .enametoolong => 63
  | .enotempty => 66
  | .enosys => 78

/-- `flags & CB_O_ACCMODE`; the last value has both bits set. -/
inductive Access
  | rdonly | wronly | rdwr | accmode
  deriving DecidableEq, Repr

/-- The flag argument of `open`. -/
structure OpenFlags where
  access : Access
  append : Bool
  creat : Bool
  trunc : Bool
  deriving DecidableEq, Repr

/-- The `whence` argument of `lseek`; `other` is any value the source does not know. -/
inductive Whence
  | set | cur | fromEnd | other
  deriving DecidableEq, Repr

/-- `enum cb_node_type`. -/
inductive NodeType
  | regular | directory | terminal | pipe | executable
  deriving DecidableEq, Repr

/-- `struct cb_stat_v1` without its version fields. -/
structure Stat where
  inode : ℕ
  size : ℕ
  mode : ℕ
  type : NodeType
  device : ℕ
  nlink : ℕ
  atime : ℕ
  mtime : ℕ
  ctime : ℕ
  deriving DecidableEq, Repr

/-- `struct cb_spawn_action_v1`: `versionOk` is the check of its version fields, and an
unknown `type` is `other`. -/
inductive SpawnKind
  | dup2 | close | other
  deriving DecidableEq, Repr

structure SpawnAction where
  versionOk : Bool
  type : SpawnKind
  fromFd : ℤ
  toFd : ℤ
  deriving DecidableEq, Repr

/-- The places where the kernel asks the host for memory or a context. -/
inductive Site
  | mount | node | nodeName | newName | openFile | pipe | reader | writer
  | task | errorCell | argv | environment | execution | program
  | consoleInput | consoleOutput | consoleError
  | block | ledger
  deriving DecidableEq, Repr

/-- The answers of `struct cb_host_ops_v1` during one kernel call. -/
structure Host where
  /-- Does the allocation at this place succeed? -/
  allocate : Site → Bool
  /-- Does `resize` succeed? -/
  resize : Bool
  /-- What the part of a resized block behind the old one happens to hold. -/
  tail : ℕ → UInt8
  /-- How many of the nodes of a new RAMFS mount can be allocated. -/
  mountNodes : ℕ
  /-- `console_poll`, by the order of the calls. -/
  consolePoll : ℕ → ℤ
  /-- `console_read`: the bytes, or an error number. -/
  consoleRead : Except ℕ Bytes
  /-- `console_write`. -/
  consoleWrite : ℤ
  /-- `monotonic_millis`, by the order of the calls. -/
  monotonic : ℕ → ℕ
  wallClock : ℕ
  /-- The address of a block for the program. -/
  block : ℕ

/-- A host that grants everything and has no console input. -/
def Host.calm : Host where
  allocate := fun _ => true
  resize := true
  tail := fun _ => 0
  mountNodes := 5
  consolePoll := fun _ => 0
  consoleRead := .ok []
  consoleWrite := 1
  monotonic := fun _ => 1
  wallClock := 0
  block := 1

/-- `cb_resize`: no host object is larger than `PTRDIFF_MAX` bytes. -/
def Host.grants (h : Host) (size : ℕ) : Bool := h.resize && decide (size ≤ int64Max)

end CannedBsd
