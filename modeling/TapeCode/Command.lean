import TapeCode.Build
import TapeCode.Command.Manual
import TapeCode.Listing
import TapeCode.Machine
import TapeCode.Tree.Save

/-!
The commands. Each works on a directory tree and on the standard input, and gives back what it wrote, how it
ended and the tree it leaves behind.
-/

namespace TapeCode

/-- Why a command fails. -/
inductive Failure where
  | usage (command : Command) (m : Misuse)
  /-- A file cannot be read. -/
  | reading (path : String) (reason : String)
  /-- The artifact cannot be written. -/
  | writing (path : String) (f : FileFailure)
  /-- The source is no program. -/
  | building (path : String) (e : BuildError)
  /-- The code cannot be listed to its end. -/
  | listing (path : String) (e : ListingError)
  | fault (f : Fault)
  | device (e : DeviceError)
  deriving DecidableEq, Repr

namespace Failure

/-- The text of the failure. -/
def message : Failure → String
  | usage _ m => m.message
  | reading path reason => "reading " ++ path ++ ": " ++ reason
  | writing path f => "writing " ++ path ++ ": " ++ f.message
  | building path e => path ++ ": " ++ e.message
  | listing path e => path ++ ": " ++ e.message
  | fault f => f.message
  | device e => e.message

/-- The exit code of the program. -/
def exitCode : Failure → UInt8
  | usage _ _ => 64
  | building _ (.compile e) => if e.isUnmatched then 65 else 1
  | building _ (.assemble _) => 1
  | reading _ _ => 66
  | writing _ _ => 73
  | fault _ => 70
  | listing _ _ => 1
  | device _ => 1

/-- What the failure writes to the standard error. Wrong usage shows the right one first. -/
def report (f : Failure) : String :=
  let line := "bfc: " ++ f.message ++ "\n"
  match f with
  | usage command _ => command.usage ++ "\n" ++ line
  | _ => line

end Failure

namespace Command

/-- The standard input: where its bytes come from, and whether someone types them at a terminal. -/
structure Stdin where
  source : Source
  terminal : Bool := false

/-- Bytes that are all there from the start, as in a file. -/
instance : Coe (List UInt8) Stdin :=
  ⟨fun bytes => { source := Source.ofBytes bytes }⟩

/-- What a command leaves behind. -/
structure Result where
  tree : Tree
  stdout : List UInt8 := []
  /-- The number of prompts that were shown. -/
  prompts : Nat := 0
  failure : Option Failure := none

namespace Result

/-- The exit code of the program. -/
def exitCode (r : Result) : UInt8 :=
  (r.failure.map Failure.exitCode).getD 0

/-- What is written to the standard error. -/
def stderr (r : Result) : String :=
  String.join (List.replicate r.prompts Output.promptText) ++ (r.failure.map Failure.report).getD ""

end Result

/-- The content of the file at a path. -/
def readFile (t : Tree) (path : String) : Except Failure (List UInt8) :=
  match t.openFile path with
  | .error f => .error (.reading path f.message)
  | .ok source => source.readAll.mapError fun e => .reading path e.message

/-- Reads an artifact. -/
def readProgram (t : Tree) (path : String) : Except Failure Program :=
  (t.loadProgram path).mapError fun e => .reading path e.message

/-- What the compiler says when it is done. -/
def compiled (p : Program) : String :=
  "Wrote " ++ Text.decimal p.code.size ++ " bytes of code to " ++ artifactName ++ "\n"

/-- The program of a source text that was read from a path. -/
def buildSource (path : String) (source : List UInt8) : Except Failure Program :=
  (build source).mapError (.building path)

/-- Compiles a source file. Nothing is written unless it compiles. -/
def compileFile (t : Tree) (trouble : Trouble) (token path : String) : Result :=
  match readFile t path >>= buildSource path with
  | .error f => { tree := t, failure := some f }
  | .ok p =>
    match t.saveProgram trouble token artifactName p with
    | (t, some f) => { tree := t, failure := some (.writing artifactName f) }
    | (t, none) => { tree := t, stdout := Text.utf8 (compiled p) }

/-- What a run that ended reports. -/
def failureOf : Outcome → Option Failure
  | .halted => none
  | .fault f => some (.fault f)
  | .flushFailed e => some (.device e)

/-- Runs the artifact at a path for at most `fuel` instructions. There is no result if it would go on. Only
someone at a terminal sees prompts. -/
def runFile (t : Tree) (fuel : Nat) (path : String) (stdin : Stdin) : Option Result :=
  match readProgram t path with
  | .error f => some { tree := t, failure := some f }
  | .ok p =>
    let (m, outcome) := Machine.run fuel { code := p.code, source := stdin.source, prompting := stdin.terminal }
    outcome.map fun o =>
      { tree := t
        stdout := m.output.sink.taken.toList
        prompts := m.output.log.toList.count .prompt
        failure := failureOf o }

/-- The first line of a listing. -/
def heading (path : String) (p : Program) : String :=
  path ++ ": version " ++ Text.decimal p.version.toNat ++ ", " ++ Text.decimal p.code.size ++ " bytes of code\n"

/-- The listing of a program that was read from a path, as far as it goes. -/
def listProgram (path : String) (p : Program) : List UInt8 × Option Failure :=
  let (sink, error) := Listing.write p.code (({} : Sink).put (Text.utf8 (heading path p)))
  (sink.taken.toList, error.map (.listing path))

/-- Lists the artifact at a path. -/
def listFile (t : Tree) (path : String) : Result :=
  match readProgram t path with
  | .error f => { tree := t, failure := some f }
  | .ok p =>
    let (stdout, failure) := listProgram path p
    { tree := t, stdout, failure }

end Command

/-- Does what the command line asks for. `fuel` bounds the instructions of a run, and there is no result if
that is not enough. -/
def Invocation.perform (t : Tree) (trouble : Trouble) (token : String) (fuel : Nat) (stdin : Command.Stdin) :
    Invocation → Option Command.Result
  | .help command => some { tree := t, stdout := Text.utf8 command.manual }
  | .misuse command m => some { tree := t, failure := some (.usage command m) }
  | .compile path => some (Command.compileFile t trouble token path)
  | .run path => Command.runFile t fuel path stdin
  | .list path => some (Command.listFile t path)

end TapeCode
