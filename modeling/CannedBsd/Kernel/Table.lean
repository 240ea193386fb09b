import CannedBsd.Kernel.Process

/-!
# The rest of the call table

The entries of `struct cb_api_v1` besides the calls of `perform`: the environment, the error cell, the
locations of what libc keeps in the task, and what is unavailable or constant. An entry that returns
a location changes nothing itself; what a program writes there is a `scribble`.
-/

namespace CannedBsd

open CannedBsd.Lib

variable (h : Host) (k : Kernel) (t : TaskId)

/-! ### The environment -/

def validEnvironmentName : Bytes → Bool
  | [] => false
  | c :: rest => (isAlpha c || c = underscore) && rest.all fun c => isAlnum c || c = underscore

/-- Does the string set this name? -/
def setsName (name entry : Bytes) : Bool := (name ++ [equalsSign]).isPrefixOf entry

def environmentOf : List Bytes := ((k.task t).map Task.environment).getD []

def setEnvironment (environment : List Bytes) : Kernel :=
  k.setTask t fun task => { task with environment := environment }

/-- `string_vector_count`; `none` stands for `SIZE_MAX`. -/
def stringVectorCount (vector : List Bytes) : Option ℕ :=
  if sizeMax / 8 - 1 < vector.length then none else some vector.length

/-- `api_getenv`: a pointer into the environment, or `NULL`. -/
def apiGetenv (name : Option Bytes) : Outcome :=
  match name.filter validEnvironmentName with
  | none => .done ⟨0, [], some Errno.einval.code⟩ .none
  | some name =>
    match (environmentOf k t).find? (setsName name) with
    | none => .done ⟨0, [], none⟩ .none
    | some entry => .done ⟨1, entry.drop (name.length + 1), none⟩ .none

def apiSetenv (name value : Option Bytes) (overwrite : Bool) : Kernel × Outcome :=
  match name.filter validEnvironmentName, value with
  | some name, some value =>
    if sizeMax - 2 < value.length ∨ sizeMax - value.length - 2 < name.length then (k, .fail .enomem)
    else
      match stringVectorCount (environmentOf k t) with
      | none => (k, .fail .enomem)
      | some count =>
        let index := (environmentOf k t).findIdx (setsName name)
        if index < count ∧ overwrite = false then (k, .done ⟨0, [], none⟩ .none)
        else if h.allocate .environment = false then (k, .fail .enomem)
        else
          let entry := name ++ [equalsSign] ++ value
          if index < count then (setEnvironment k t ((environmentOf k t).set index entry), .value 0)
          else if h.grants ((count + 2) * 8) = false then (k, .fail .enomem)
          else (setEnvironment k t (environmentOf k t ++ [entry]), .value 0)
  | _, _ => (k, .fail .einval)

def apiUnsetenv (name : Option Bytes) : Kernel × Outcome :=
  match name.filter validEnvironmentName with
  | none => (k, .fail .einval)
  | some name => (setEnvironment k t ((environmentOf k t).eraseP (setsName name)), .value 0)

/-! ### Terminals -/

/-- `terminal_attributes_unavailable`; `attributes` is whether the pointer is not `NULL`. -/
def terminalAttributesUnavailable (descriptor : ℤ) (attributes : Bool) : Outcome :=
  match fileOf k t descriptor with
  | none => .fail .ebadf
  | some (_, file) =>
    match file.object with
    | .consoleInput => .fail (if attributes then .enosys else .einval)
    | .consoleOutput _ => .fail (if attributes then .enosys else .einval)
    | _ => .fail .enotty

/-! ### The whole table -/

/-- What a location entry of the table points at. -/
inductive Location
  | errorCell | environ | getoptState | stdioState | inputState | progname | dirnameBuffer | basenameBuffer
  | capabilities | errorText
  deriving DecidableEq

/-- An entry of the call table with its arguments. -/
inductive TableCall
  | op (op : Op)
  | getenv (name : Option Bytes)
  | setenv (name value : Option Bytes) (overwrite : Bool)
  | unsetenv (name : Option Bytes)
  | getErrno
  | tcgetattr (descriptor : ℤ) (attributes : Bool)
  | tcsetattr (descriptor action : ℤ) (attributes : Bool)
  /-- An entry that returns a pointer and does nothing else. -/
  | location (what : Location)
  deriving DecidableEq

def performTable : TableCall → Kernel × Outcome
  | .op op => perform h k t op
  | .getenv name => (k, apiGetenv k t name)
  | .setenv name value overwrite => apiSetenv h k t name value overwrite
  | .unsetenv name => apiUnsetenv k t name
  | .getErrno => (k, .done ⟨((k.task t).map Task.errorCell).getD 0, [], none⟩ .none)
  | .tcgetattr descriptor attributes => (k, terminalAttributesUnavailable k t descriptor attributes)
  | .tcsetattr descriptor _ attributes => (k, terminalAttributesUnavailable k t descriptor attributes)
  | .location _ => (k, .done ⟨1, [], none⟩ .none)

end CannedBsd
