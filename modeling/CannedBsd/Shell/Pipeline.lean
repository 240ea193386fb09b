import CannedBsd.Kernel.Purview
import CannedBsd.Shell.Lexer

/-!
# Pipelines

`open_redirections`, the builtins, `run_pipeline` and `execute_segment` of `src/shell.c`, as programs that
make calls through `struct cb_api_v1`. The arrays have the sizes of the source, and a write behind the
end of one is `Prog.wild`; local arrays start with whatever `Locals` holds. `strerror` is a parameter, and
so are the values `lex_line` gets from `getenv`.
-/

namespace CannedBsd

open CannedBsd.Lib

namespace Shell

def shellMaxStages : ℕ := 16
def shellMaxArgs : ℕ := 32

/-- The bytes of a string literal of the source. -/
def ascii (s : String) : Bytes := s.toList.map fun c => c.toNat.toUInt8

/-- `struct stage`; `argv` is an array of `SHELL_MAX_ARGS + 1` pointers. -/
structure Stage where
  argv : ℕ → Option Bytes
  argc : ℕ
  inputPath : Option Bytes
  outputPath : Option Bytes
  append : Bool

/-- What `memset` makes of a stage. -/
def Stage.zero : Stage := ⟨fun _ => none, 0, none, none, false⟩

/-! ### Messages -/

/-- The loop of `shell_write`. Every round writes at least one byte, so it makes at most as many rounds
as there are bytes. -/
def writeLoop (descriptor : ℤ) : ℕ → Bytes → Script ℤ
  | 0, _ => .ret 0
  | n + 1, text =>
    if text = [] then .ret 0
    else do
      let a ← Prog.ask (.op (.write descriptor text))
      if a.value ≤ 0 then .ret (-1) else writeLoop descriptor n (text.drop a.value.toNat)

def shellWrite (descriptor : ℤ) (text : Bytes) : Script ℤ := writeLoop descriptor text.length text

/-- `shell_write` where the result is not looked at. -/
def say (text : Bytes) : Script Unit := do
  let _ ← shellWrite 2 text
  .ret ()

def shellError (message : Bytes) : Script Unit := do
  say (ascii "sh: ")
  say message
  say (ascii "\n")

section Errors

variable (strerror : ℤ → Bytes)

/-- `api->strerror(api->get_errno())`. -/
def errorText : Script Bytes := do
  let a ← Prog.ask .getErrno
  let _ ← Prog.ask (.location .errorText)
  .ret (strerror a.value)

/-! ### Builtins -/

def isBuiltin (name : Bytes) : Bool :=
  name = ascii "cd" || name = ascii "pwd" || name = ascii "export" || name = ascii "unset" || name = ascii "exit"

def isDigit (c : UInt8) : Bool := 48 ≤ c && c ≤ 57

/-- The digits of `parse_exit_status`. -/
def parseDigits (status : ℕ) : Bytes → Option ℕ
  | [] => some status
  | c :: rest => if isDigit c then parseDigits ((status * 10 + (c.toNat - 48)) % 256) rest else none

def parseExitStatus (text : Bytes) : Option ℤ :=
  let sign := text.head?.filter fun c => c = 43 || c = 45
  let cursor := if sign = none then text else text.tail
  if cursor.head?.any isDigit then
    (parseDigits 0 cursor).map fun status => if sign = some 45 then ((256 - status) % 256 : ℕ) else (status : ℤ)
  else none

/-- The loop of `export`, with `n` arguments to go. -/
def exportLoop (argv : ℕ → Option Bytes) : ℕ → ℕ → Script ℤ
  | 0, _ => .ret 0
  | n + 1, index =>
    match argv index with
    | none => .wild
    | some argument =>
      let name := argument.takeWhile (· ≠ equalsSign)
      if name.length = argument.length ∨ name = [] then do
        shellError (ascii "export: expected NAME=value")
        .ret 2
      else do
        let a ← Prog.ask (.setenv (some name) (some (argument.drop (name.length + 1))) true)
        if a.value < 0 then
          shellError (ascii "export: invalid name")
          .ret 2
        else exportLoop argv n (index + 1)

/-- The loop of `unset`, with `n` arguments to go. -/
def unsetLoop (argv : ℕ → Option Bytes) : ℕ → ℕ → Script ℤ
  | 0, _ => .ret 0
  | n + 1, index => do
    let a ← Prog.ask (.unsetenv (argv index))
    if a.value < 0 then
      shellError (ascii "unset: invalid name")
      .ret 2
    else unsetLoop argv n (index + 1)

def runCd (stage : Stage) : Script ℤ :=
  if 2 < stage.argc then do
    shellError (ascii "cd: too many arguments")
    .ret 2
  else do
    let path ← if stage.argc = 1 then do
        let a ← Prog.ask (.getenv (some (ascii "HOME")))
        .ret (if a.value = 0 then none else some a.reply.data)
      else .ret (stage.argv 1)
    let a ← Prog.ask (.op (.chdir (path.getD (ascii "/"))))
    if a.value < 0 then
      say (ascii "sh: cd: ")
      say (← errorText strerror)
      say (ascii "\n")
      .ret 1
    else .ret 0

def runPwd : Script ℤ := do
  let a ← Prog.ask (.op (.getcwd cbPathMax))
  if a.value = 0 then
    shellError (← errorText strerror)
    .ret 1
  else
    let _ ← shellWrite 1 a.reply.data
    let _ ← shellWrite 1 (ascii "\n")
    .ret 0

/-- `exit`; the flag is `*should_exit`. -/
def runExit (stage : Stage) (lastStatus : ℤ) : Script (ℤ × Bool) :=
  if 2 < stage.argc then do
    shellError (ascii "exit: too many arguments")
    .ret (2, false)
  else if stage.argc = 2 then
    match stage.argv 1 with
    | none => .wild
    | some text =>
      match parseExitStatus text with
      | none => do
        shellError (ascii "exit: numeric argument required")
        .ret (2, true)
      | some status => .ret (status, true)
  else .ret (lastStatus, true)

/-- `run_builtin`. -/
def runBuiltin (stage : Stage) (lastStatus : ℤ) : Script (ℤ × Bool) :=
  match stage.argv 0 with
  | none => .wild
  | some name =>
    if name = ascii "cd" then do .ret (← runCd strerror stage, false)
    else if name = ascii "pwd" then do .ret (← runPwd strerror, false)
    else if name = ascii "export" then do .ret (← exportLoop stage.argv (stage.argc - 1) 1, false)
    else if name = ascii "unset" then do .ret (← unsetLoop stage.argv (stage.argc - 1) 1, false)
    else if name = ascii "exit" then runExit stage lastStatus
    else .ret (127, false)

/-! ### Redirections -/

def inputFlags : OpenFlags := ⟨.rdonly, false, false, false⟩

def outputFlags (append : Bool) : OpenFlags := ⟨.wronly, append, true, !append⟩

/-- Close a descriptor that is not `-1`. -/
def closeIf (descriptor : ℤ) : Script Unit :=
  if 0 ≤ descriptor then do
    let _ ← Prog.ask (.op (.close descriptor))
    .ret ()
  else .ret ()

/-- `open_redirections` behind the input: the result, `*input_fd` and `*output_fd`. -/
def openOutput (stage : Stage) (input : ℤ) : Script (ℤ × ℤ × ℤ) :=
  match stage.outputPath with
  | none => .ret (0, input, -1)
  | some path => do
    let a ← Prog.ask (.op (.openPath path (outputFlags stage.append) 0o666))
    if a.value < 0 then
      closeIf input
      .ret (-1, -1, a.value)
    else .ret (0, input, a.value)

/-- `open_redirections`: the result, `*input_fd` and `*output_fd`. -/
def openRedirections (stage : Stage) : Script (ℤ × ℤ × ℤ) :=
  match stage.inputPath with
  | none => openOutput stage (-1)
  | some path => do
    let a ← Prog.ask (.op (.openPath path inputFlags 0))
    if a.value < 0 then .ret (-1, a.value, -1) else openOutput stage a.value

/-- Put a redirection in the place of a standard descriptor: the saved descriptor, and whether both calls
succeeded. -/
def redirect (descriptor standard : ℤ) : Script (ℤ × Bool) :=
  if 0 ≤ descriptor then do
    let saved ← Prog.ask (.op (.dup standard))
    if saved.value < 0 then .ret (saved.value, false)
    else
      let a ← Prog.ask (.op (.dup2 descriptor standard))
      .ret (saved.value, decide (0 ≤ a.value))
  else .ret (-1, true)

/-- Put a saved descriptor back in its place. -/
def putBack (saved standard : ℤ) : Script Unit :=
  if 0 ≤ saved then do
    let _ ← Prog.ask (.op (.dup2 saved standard))
    .ret ()
  else .ret ()

/-- The four calls of `close` at the ends of `run_builtin_redirected`. -/
def closeFour (savedInput savedOutput input output : ℤ) : Script Unit := do
  closeIf savedInput
  closeIf savedOutput
  closeIf input
  closeIf output

/-- `descriptor_error`. -/
def descriptorError (savedInput savedOutput input output : ℤ) : Script (ℤ × Bool) := do
  shellError (ascii "redirection failed")
  closeFour savedInput savedOutput input output
  .ret (1, false)

/-- `run_builtin_redirected`; the flag is `*should_exit`. -/
def runBuiltinRedirected (stage : Stage) (lastStatus : ℤ) : Script (ℤ × Bool) := do
  let (opened, input, output) ← openRedirections stage
  if opened < 0 then
    shellError (← errorText strerror)
    .ret (1, false)
  else
    let (savedInput, done) ← redirect input 0
    if done = false then descriptorError savedInput (-1) input output
    else
      let (savedOutput, done) ← redirect output 1
      if done = false then descriptorError savedInput savedOutput input output
      else
        let result ← runBuiltin strerror stage lastStatus
        putBack savedInput 0
        putBack savedOutput 1
        closeFour savedInput savedOutput input output
        .ret result

/-! ### Pipelines -/

/-- The local arrays of `run_pipeline`. -/
structure Locals where
  pipes : ℕ → ℤ × ℤ
  inputs : ℕ → ℤ
  outputs : ℕ → ℤ
  pids : ℕ → ℤ

/-- `add_action` on an array of `2 + 2 * (SHELL_MAX_STAGES - 1) + 2` actions; `none` is a write behind its
end. -/
def addAction (actions : List SpawnAction) (type : SpawnKind) (fromFd toFd : ℤ) : Option (List SpawnAction) :=
  if actions.length < 2 + 2 * (shellMaxStages - 1) + 2 then some (actions ++ [⟨true, type, fromFd, toFd⟩]) else none

/-- `add_action` for a descriptor that is not `-1`. -/
def addActionIf (descriptor : ℤ) (type : SpawnKind) (toFd : ℤ) (actions : List SpawnAction) :
    Option (List SpawnAction) :=
  if 0 ≤ descriptor then addAction actions type descriptor toFd else some actions

/-- The actions that close the ends of the pipes, with `n` pipes to go. -/
def closePipeActions (pipes : ℕ → ℤ × ℤ) : ℕ → ℕ → List SpawnAction → Option (List SpawnAction)
  | 0, _, actions => some actions
  | n + 1, index, actions => do
    let actions ← addAction actions .close (pipes index).1 (-1)
    let actions ← addAction actions .close (pipes index).2 (-1)
    closePipeActions pipes n (index + 1) actions

/-- The spawn actions of a stage. -/
def stageActions (locals : Locals) (stageCount index : ℕ) : Option (List SpawnAction) := do
  let input := locals.inputs index
  let output := locals.outputs index
  let sourceInput := if 0 ≤ input then input else if 0 < index then (locals.pipes (index - 1)).1 else -1
  let sourceOutput := if 0 ≤ output then output else if index + 1 < stageCount then (locals.pipes index).2 else -1
  let actions ← addActionIf sourceInput .dup2 0 []
  let actions ← addActionIf sourceOutput .dup2 1 actions
  let actions ← closePipeActions locals.pipes (stageCount - 1) 0 actions
  let actions ← addActionIf input .close (-1) actions
  if output ≠ input then addActionIf output .close (-1) actions else some actions

/-- The strings of a vector up to `NULL`; `none` when there is none among its first `size` pointers. -/
def readVector (size : ℕ) (vector : ℕ → Option Bytes) : Option (List Bytes) :=
  let strings := ((List.range size).map vector).takeWhile Option.isSome
  if strings.length < size then some strings.reduceOption else none

/-- `pipeline_argv[index]`, an array of `SHELL_MAX_ARGS + 3` pointers. -/
def builtinArgv (stage : Stage) (lastStatus : ℤ) (index : ℕ) : Option Bytes :=
  match index with
  | 0 => some (ascii "__cannedbsd_shell_builtin")
  | 1 => some (decimal lastStatus)
  | argument + 2 => if argument < stage.argc then stage.argv argument else none

/-- The name and the arguments a stage is spawned with; `none` is an access outside an array. -/
def spawnArguments (stage : Stage) (name : Bytes) (lastStatus : ℤ) : Option (Bytes × List Bytes) :=
  if isBuiltin name then
    if stage.argc + 2 < shellMaxArgs + 3 then
      (readVector (shellMaxArgs + 3) (builtinArgv stage lastStatus)).map fun argv =>
        (ascii "__cannedbsd_shell_builtin", argv)
    else none
  else (readVector (shellMaxArgs + 1) stage.argv).map fun argv => (name, argv)

/-- The loop over `open_redirections`, with `n` stages to go; the flag is false when one fails. -/
def openStages (stages : ℕ → Stage) : ℕ → ℕ → Locals → Script (Locals × Bool)
  | 0, _, locals => .ret (locals, true)
  | n + 1, index, locals =>
    if shellMaxStages ≤ index then .wild
    else do
      let (opened, input, output) ← openRedirections (stages index)
      let locals := { locals with
        inputs := Function.update locals.inputs index input
        outputs := Function.update locals.outputs index output }
      if opened < 0 then
        shellError (← errorText strerror)
        .ret (locals, false)
      else openStages stages n (index + 1) locals

/-- The loop over `pipe`, with `n` pipes to go: also `created_pipes`. -/
def createPipes : ℕ → ℕ → Locals → Script (Locals × ℕ × Bool)
  | 0, index, locals => .ret (locals, index, true)
  | n + 1, index, locals =>
    if shellMaxStages - 1 ≤ index then .wild
    else do
      let a ← Prog.ask (.op .pipe)
      if a.value < 0 then
        shellError (ascii "cannot create pipe")
        .ret (locals, index, false)
      else
        match a.out with
        | .descriptors reader writer =>
          createPipes n (index + 1) { locals with pipes := Function.update locals.pipes index (reader, writer) }
        | _ => createPipes n (index + 1) locals

/-- The loop over `spawn`, with `n` stages to go: also `spawned`. -/
def spawnStages (stages : ℕ → Stage) (stageCount : ℕ) (lastStatus : ℤ) :
    ℕ → ℕ → Locals → Script (Locals × ℕ × Bool)
  | 0, index, locals => .ret (locals, index, true)
  | n + 1, index, locals =>
    match (stages index).argv 0, stageActions locals stageCount index with
    | some name, some actions =>
      match spawnArguments (stages index) name lastStatus with
      | none => .wild
      | some (programName, argv) =>
        if shellMaxStages ≤ index then .wild
        else do
          let a ← Prog.ask (.op (.spawn programName argv none actions))
          if a.value < 0 then
            say (ascii "sh: ")
            say name
            say (ascii ": ")
            say (← errorText strerror)
            say (ascii "\n")
            .ret (locals, index, false)
          else
            match a.out with
            | .pid pid =>
              spawnStages stages stageCount lastStatus n (index + 1)
                { locals with pids := Function.update locals.pids index pid }
            | _ => spawnStages stages stageCount lastStatus n (index + 1) locals
    | _, _ => .wild

/-- The loop of `cleanup` over the pipes, with `n` to go. -/
def closePipes (pipes : ℕ → ℤ × ℤ) : ℕ → ℕ → Script Unit
  | 0, _ => .ret ()
  | n + 1, index => do
    let _ ← Prog.ask (.op (.close (pipes index).1))
    let _ ← Prog.ask (.op (.close (pipes index).2))
    closePipes pipes n (index + 1)

/-- The loop of `cleanup` over the redirections, with `n` stages to go. -/
def closeRedirections (locals : Locals) : ℕ → ℕ → Script Unit
  | 0, _ => .ret ()
  | n + 1, index => do
    closeIf (locals.inputs index)
    closeIf (locals.outputs index)
    closeRedirections locals n (index + 1)

/-- The loop of `cleanup` over the children, with `n` to go. -/
def waitStages (pids : ℕ → ℤ) (stageCount : ℕ) : ℕ → ℕ → ℤ → Script ℤ
  | 0, _, status => .ret status
  | n + 1, index, status => do
    let a ← Prog.ask (.op (.waitpid (pids index)))
    let childStatus := match a.out with
      | .status s => s
      | _ => 0
    waitStages pids stageCount n (index + 1)
      (if 0 ≤ a.value ∧ index + 1 = stageCount then childStatus else status)

/-- `cleanup`. -/
def cleanup (locals : Locals) (stageCount createdPipes spawned : ℕ) (status : ℤ) : Script (ℤ × Bool) := do
  closePipes locals.pipes createdPipes 0
  closeRedirections locals stageCount 0
  let status ← waitStages locals.pids stageCount spawned 0 status
  if spawned ≠ stageCount then .ret (if status = 0 then 127 else status, false) else .ret (status, false)

/-- `run_pipeline` behind the check for a single builtin. -/
def runStages (garbage : Locals) (stages : ℕ → Stage) (stageCount : ℕ) (lastStatus : ℤ) : Script (ℤ × Bool) := do
  let (locals, done) ← openStages strerror stages stageCount 0 garbage
  if done = false then cleanup locals stageCount 0 0 1
  else
    let (locals, createdPipes, done) ← createPipes (stageCount - 1) 0 locals
    if done = false then cleanup locals stageCount createdPipes 0 1
    else
      let (locals, spawned, done) ← spawnStages strerror stages stageCount lastStatus stageCount 0 locals
      cleanup locals stageCount createdPipes spawned (if done = false then 127 else 0)

/-- `run_pipeline`, with what is in its uninitialised arrays; the flag is `*should_exit`. -/
def runPipeline (garbage : Locals) (stages : ℕ → Stage) (stageCount : ℕ) (lastStatus : ℤ) : Script (ℤ × Bool) :=
  if stageCount = 1 then
    match (stages 0).argv 0 with
    | none => .wild
    | some name =>
      if isBuiltin name then runBuiltinRedirected strerror (stages 0) lastStatus
      else runStages strerror garbage stages stageCount lastStatus
  else runStages strerror garbage stages stageCount lastStatus

end Errors

/-! ### `execute_segment` -/

/-- What the token loop of `execute_segment` comes to: a pipeline with its number of stages and the tokens
behind it, a message, or a write outside an array. -/
inductive Parsed
  | pipeline (stages : ℕ → Stage) (stageCount : ℕ) (rest : List Token)
  | refused (message : Bytes)
  | wild

/-- The check behind the token loop. -/
def parseEnd (stages : ℕ → Stage) (stageCount : ℕ) (expectingCommand : Bool) (rest : List Token) : Parsed :=
  if expectingCommand || (stages (stageCount - 1)).argc = 0 then .refused (ascii "missing command")
  else .pipeline stages stageCount rest

/-- `stage->argv[stage->argc++] = text; stage->argv[stage->argc] = NULL`. -/
def Stage.pushWord (stage : Stage) (text : Option Bytes) : Stage :=
  { stage with
    argv := Function.update (Function.update stage.argv stage.argc text) (stage.argc + 1) none
    argc := stage.argc + 1 }

/-- The path of a redirection. -/
def Stage.setPath (stage : Stage) (type : TokenType) (text : Option Bytes) : Stage :=
  if type = .input then { stage with inputPath := text }
  else { stage with outputPath := text, append := decide (type = .append) }

/-- The token loop of `execute_segment`, up to a semicolon. -/
def parseTokens : List Token → (ℕ → Stage) → ℕ → Bool → Parsed
  | [], stages, stageCount, expectingCommand => parseEnd stages stageCount expectingCommand []
  | token :: rest, stages, stageCount, expectingCommand =>
    if shellMaxStages < stageCount then .wild
    else
      let stage := stages (stageCount - 1)
      match token.type with
      | .semicolon => parseEnd stages stageCount expectingCommand (token :: rest)
      | .word =>
        if stage.argc = shellMaxArgs then .refused (ascii "too many arguments")
        else if shellMaxArgs < stage.argc + 1 then .wild
        else parseTokens rest (Function.update stages (stageCount - 1) (stage.pushWord token.bytes)) stageCount false
      | .pipe =>
        if expectingCommand || stage.argc = 0 || stageCount = shellMaxStages then
          .refused (ascii "invalid pipeline")
        else parseTokens rest stages (stageCount + 1) true
      | type =>
        match rest with
        | path :: rest =>
          if path.type = .word then
            parseTokens rest (Function.update stages (stageCount - 1) (stage.setPath type path.bytes)) stageCount
              expectingCommand
          else .refused (ascii "redirection requires a path")
        | [] => .refused (ascii "redirection requires a path")

section Segments

variable (runPipeline : (ℕ → Stage) → ℕ → ℤ → Script (ℤ × Bool))

/-- The loop of `execute_segment` over the pipelines between semicolons, with at most `n` to go; each takes
at least one token. -/
def executeTokens : ℕ → List Token → ℤ → Script (ℤ × Bool)
  | 0, _, status => .ret (status, false)
  | n + 1, tokens, status =>
    if tokens = [] then .ret (status, false)
    else
      match parseTokens tokens (fun _ => Stage.zero) 1 true with
      | .wild => .wild
      | .refused message => do
        shellError message
        .ret (2, false)
      | .pipeline stages stageCount rest => do
        let (status, shouldExit) ← runPipeline stages stageCount status
        if shouldExit then .ret (status, true) else executeTokens n rest.tail status

/-- `execute_segment`, with the values of the variables in the line; a line that cannot be split into tokens
is a syntax error. -/
def executeSegment (ctx : Context) (line : Bytes) : Script (ℤ × Bool) :=
  match lexLine ctx line with
  | none => do
    shellError (ascii "syntax error")
    .ret (2, false)
  | some tokens => executeTokens runPipeline tokens.length tokens ctx.lastStatus

end Segments

end Shell

end CannedBsd
