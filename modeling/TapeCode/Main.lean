import TapeCode.Command

/-!
The program. It reads and writes the files that a command names and joins the machine to the standard input
and output; everything else is decided by the definitions it calls.
-/

namespace TapeCode.Shell

/-- The reason for which the system refused an operation. -/
def reason (e : IO.Error) : FileError :=
  match e with
  | .noFileOrDirectory .. => .notFound
  | .alreadyExists .. => .alreadyExists
  | .invalidArgument .. => .invalidName
  | .inappropriateType _ code _ => if code = 21 then .isDirectory else .notDirectory
  | .permissionDenied _ _ details => .device details
  | e => .device (toString e)

/-- The bytes of the file at a path. -/
def readFile (path : String) : IO (Except Failure (List UInt8)) := do
  try
    return .ok (← IO.FS.readBinFile path).data.toList
  catch e =>
    let action := if reason e = .isDirectory then "read" else "open"
    return .error (.reading path (FileFailure.on action path (reason e)).message)

/-- The program in the file at a path. -/
def readProgram (path : String) : IO (Except Failure Program) := do
  match ← readFile path with
  | .error f => return .error f
  | .ok bytes => return (Artifact.read (Source.ofBytes bytes)).1.mapError fun e => .reading path e.message

/-- A file that is open for writing. -/
structure OpenFile where
  path : String
  handle : IO.FS.Handle

/-- Why an operation was refused, if it was. -/
def refusal (action : IO Unit) : IO (Option FileError) := do
  try
    action
    return none
  catch e => return some (reason e)

/-- The owner of an artifact may change it, and everyone may read it. -/
def artifactRights : IO.FileRight where
  user := { read := true, write := true }
  group := { read := true }
  other := { read := true }

/-- The files of the system as a device. A handle is closed when it is dropped, so that closing it by itself
does nothing, and to flush it is all that can be done to bring the bytes to the disk. -/
def device : Device IO OpenFile where
  create path := do
    try
      return .ok ⟨path, ← IO.FS.Handle.mk path .writeNew⟩
    catch e => return .error (reason e)
  write file bytes := refusal (file.handle.write ⟨bytes.toArray⟩)
  permit file := refusal (IO.setAccessRights file.path artifactRights)
  sync file := refusal file.handle.flush
  close _ := return none
  rename file goal := do
    let refused ← refusal (IO.FS.rename file.path goal)
    -- A directory in the place of the goal counts as a file that exists.
    return refused.map fun e => if e = .isDirectory then .alreadyExists else e
  remove file := do
    let _ ← refusal (IO.FS.removeFile file.path)

/-- Saves a program as an artifact. -/
def saveProgram (path : String) (p : Program) : IO (Option Failure) := do
  let token ← IO.rand 1000000000 4294967295
  let failure ← device.save (Text.decimal token) path (Artifact.encode p)
  return failure.map (.writing path)

/-- Writes bytes to the standard output at once. -/
def printBytes (bytes : List UInt8) : IO Unit := do
  let stdout ← IO.getStdout
  stdout.write ⟨bytes.toArray⟩
  stdout.flush

/-- Writes what left a machine, and forgets it. -/
def drain (m : Machine) : IO Machine := do
  for event in m.output.log do
    match event with
    | .output bytes => printBytes bytes
    | .prompt => IO.eprint Output.promptText
  return { m with output := { m.output with log := #[] } }

/-- Whether the next instruction reads from an input that is open. -/
def isReading (m : Machine) : Bool :=
  match Instr.decodeAt m.code m.pc, m.words with
  | .ok .getc, some words => words.ended.isNone
  | _, _ => false

/-- Whether no complete word has come in yet. -/
def isStarved (m : Machine) : Bool :=
  match m.words with
  | some words => (Text.cutWord (words.held ++ m.source.bytes)).isNone
  | none => false

/-- Takes bytes from the input until a word is complete or the input ends. -/
partial def feed (input : IO.FS.Stream) (m : Machine) : IO Machine := do
  if isStarved m then
    let bytes ← input.read 4096
    if bytes.isEmpty then return m
    feed input { m with source := { m.source with chunks := m.source.chunks ++ [bytes.data.toList] } }
  else return m

/-- Gets a machine ready for a read: output goes out, a terminal shows a prompt, and a word is awaited. -/
def await (input : IO.FS.Stream) (terminal : Bool) (m : Machine) : IO Machine := do
  let (output, _) := m.output.flush
  let m ← drain { m with output := if terminal then output.prompt else output }
  feed input m

/-- Runs a machine on the standard input and output until it stops. -/
partial def play (input : IO.FS.Stream) (terminal : Bool) (m : Machine) : IO Outcome := do
  let m ← if isReading m then await input terminal m else pure m
  match m.step with
  | .next m => play input terminal (← drain m)
  | .stop m why =>
    let (m, outcome) := m.finish why
    let _ ← drain m
    return outcome

/-- Does what the command line asks for. -/
def perform : Invocation → IO (Option Failure)
  | .help command => do
    IO.print command.manual
    return none
  | .misuse command m => return some (.usage command m)
  | .compile path => do
    match (← readFile path) >>= Command.buildSource path with
    | .error f => return some f
    | .ok p =>
      match ← saveProgram Command.artifactName p with
      | some f => return some f
      | none =>
        IO.print (Command.compiled p)
        return none
  | .run path => do
    match ← readProgram path with
    | .error f => return some f
    | .ok p =>
      let input ← IO.getStdin
      return Command.failureOf (← play input (← input.isTty) { code := p.code })
  | .list path => do
    match ← readProgram path with
    | .error f => return some f
    | .ok p =>
      let (bytes, failure) := Command.listProgram path p
      printBytes bytes
      return failure

end TapeCode.Shell

/-- Reads the command line, does what it asks for and reports a failure. -/
def main (args : List String) : IO UInt32 := do
  match ← TapeCode.Shell.perform (TapeCode.Invocation.ofArgs args) with
  | none => return 0
  | some f =>
    IO.eprint f.report
    return f.exitCode.toUInt32
