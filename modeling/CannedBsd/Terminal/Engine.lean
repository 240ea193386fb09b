import CannedBsd.Lib.Ring

/-!
# The canonical terminal engine

`src/terminal.c`: bytes are edited in a line buffer; a completed record moves as a whole
into a byte ring, and its length into a ring of record lengths. When one of the rings has
no room the record stays pending in the line buffer, input is deferred, and every read
retries the move.

The arrays are functions from indices; the C code uses the indices below `CB_TERM_BYTES`
and `CB_TERM_RECORDS` only. Sizes are `size_t` values that stay far below the word size.
-/

namespace CannedBsd.Terminal

open CannedBsd.Lib

/-- `CB_TERM_BYTES`, which is `CB_PATH_MAX`. -/
def cbTermBytes : ℕ := 1024

/-- `CB_TERM_RECORDS`. -/
def cbTermRecords : ℕ := 16

/-- `struct cb_terminal_engine`. -/
structure Engine where
  edit : ℕ → UInt8
  fifo : ℕ → UInt8
  editUsed : ℕ
  fifoHead : ℕ
  fifoUsed : ℕ
  records : ℕ → ℕ
  recordHead : ℕ
  recordCount : ℕ
  echo : ℕ → UInt8
  echoOffset : ℕ
  echoUsed : ℕ
  pending : Bool
  sourceEof : Bool

/-- Move one whole pending record, only when both fixed queues have room. -/
def commitPending (t : Engine) : Engine :=
  if t.pending = false ∨ t.recordCount = cbTermRecords ∨
      cbTermBytes - t.fifoUsed < t.editUsed then t
  else
    let tail := (t.fifoHead + t.fifoUsed) % cbTermBytes
    { t with
      fifo := Ring.put cbTermBytes t.fifo tail (Block.read t.edit 0 t.editUsed)
      records := Ring.put cbTermRecords t.records
        ((t.recordHead + t.recordCount) % cbTermRecords) [t.editUsed]
      recordCount := t.recordCount + 1
      fifoUsed := t.fifoUsed + t.editUsed
      editUsed := 0
      pending := false }

/-- `memset` of the whole structure. -/
def cbTerminalInit : Engine where
  edit := fun _ => 0
  fifo := fun _ => 0
  editUsed := 0
  fifoHead := 0
  fifoUsed := 0
  records := fun _ => 0
  recordHead := 0
  recordCount := 0
  echo := fun _ => 0
  echoOffset := 0
  echoUsed := 0
  pending := false
  sourceEof := false

def cbTerminalCanAccept (t : Engine) : Bool :=
  !t.pending && !t.sourceEof && t.echoUsed == 0

/-- Carriage return is read as newline. -/
def translate (byte : UInt8) : UInt8 := if byte = 13 then 10 else byte

/-- The erase branch of `cb_terminal_feed` on a non-empty line. -/
def eraseLast (t : Engine) : Engine :=
  { t with
    editUsed := t.editUsed - 1
    echo := Block.write t.echo 0 [8, 32, 8]
    echoUsed := 3 }

/-- Append a byte to the line and echo it. -/
def appendByte (t : Engine) (byte : UInt8) : Engine :=
  { t with
    edit := Block.write t.edit t.editUsed [byte]
    editUsed := t.editUsed + 1
    echo := Block.write t.echo 0 [byte]
    echoUsed := 1 }

/-- The second component is the return value: the byte was consumed (`1`) or deferred (`0`). -/
def cbTerminalFeed (t : Engine) (input : UInt8) : Engine × Bool :=
  if !cbTerminalCanAccept t then (t, false)
  else
    let byte := translate input
    if byte = 8 then
      if t.editUsed ≠ 0 then (eraseLast t, true) else (t, true)
    else if byte = 4 then
      (commitPending { t with pending := true }, true)
    else if byte = 10 ∨ t.editUsed < cbTermBytes - 1 then
      let t' := appendByte t byte
      if byte = 10 then (commitPending { t' with pending := true }, true) else (t', true)
    else (t, true)

def cbTerminalSourceEof (t : Engine) : Engine :=
  if t.sourceEof then t
  else
    let t' := { t with sourceEof := true }
    commitPending (if t'.editUsed ≠ 0 then { t' with pending := true } else t')

def cbTerminalReady (t : Engine) : Bool := t.recordCount != 0 || t.sourceEof

/-- What `cb_terminal_read` reports: `-1`, `0`, or `1` with the bytes copied out. -/
inductive ReadReport
  | invalid
  | notReady
  | done (bytes : List UInt8)
  deriving DecidableEq, Repr

/-- Copy `n` bytes out of the first record and drop it once it is exhausted. -/
def takeFront (t : Engine) (n : ℕ) : Engine :=
  let left := t.records t.recordHead - n
  let t' := { t with
    fifoHead := (t.fifoHead + n) % cbTermBytes
    fifoUsed := t.fifoUsed - n
    records := Function.update t.records t.recordHead left }
  if left = 0 then
    { t' with recordHead := (t.recordHead + 1) % cbTermRecords, recordCount := t.recordCount - 1 }
  else t'

/-- `hasCount` and `hasBuffer` say that the two pointer arguments are not `NULL`. -/
def cbTerminalRead (t : Engine) (hasCount hasBuffer : Bool) (capacity : ℕ) :
    Engine × ReadReport :=
  if !hasCount then (t, .invalid)
  else if capacity = 0 then (t, .done [])
  else if !hasBuffer then (t, .invalid)
  else if t.recordCount = 0 then (t, if t.sourceEof then .done [] else .notReady)
  else
    let n := min (t.records t.recordHead) capacity
    (commitPending (takeFront t n), .done (Ring.contents cbTermBytes t.fifo t.fifoHead n))

/-- The echo bytes not yet acknowledged. -/
def cbTerminalEcho (t : Engine) : List UInt8 := Block.read t.echo t.echoOffset t.echoUsed

def cbTerminalEchoAck (t : Engine) (count : ℕ) : Engine × Int :=
  if t.echoUsed < count then (t, -1)
  else
    let used := t.echoUsed - count
    ({ t with
       echoOffset := if used = 0 then 0 else t.echoOffset + count
       echoUsed := used }, 0)

/-! ### Runs -/

/-- One call on the engine. -/
inductive Call
  | feed (byte : UInt8)
  | sourceEof
  | read (hasCount hasBuffer : Bool) (capacity : ℕ)
  | echoAck (count : ℕ)
  deriving DecidableEq, Repr

/-- What the caller sees of a call. -/
inductive CallEvent
  | accepted (byte : UInt8)
  | deferred
  | sourceEof
  | read (capacity : ℕ) (reply : ReadReport)
  | echoAck (result : Int)
  deriving DecidableEq, Repr

def perform (t : Engine) : Call → Engine × CallEvent
  | .feed byte =>
    let r := cbTerminalFeed t byte
    (r.1, if r.2 then .accepted byte else .deferred)
  | .sourceEof => (cbTerminalSourceEof t, .sourceEof)
  | .read hasCount hasBuffer capacity =>
    let r := cbTerminalRead t hasCount hasBuffer capacity
    (r.1, .read capacity r.2)
  | .echoAck count =>
    let r := cbTerminalEchoAck t count
    (r.1, .echoAck r.2)

/-- The engine and the events after a list of calls, from `cb_terminal_init`. -/
def session (calls : List Call) : Engine × List CallEvent :=
  calls.foldl (fun s call =>
    let r := perform s.1 call
    (r.1, s.2 ++ [r.2])) (cbTerminalInit, [])

theorem session_snoc (calls : List Call) (call : Call) :
    session (calls ++ [call]) =
      ((perform (session calls).1 call).1, (session calls).2 ++ [(perform (session calls).1 call).2]) := by
  simp [session]

end CannedBsd.Terminal
