import TapeCode.Artifact
import TapeCode.Tree

/-!
Whole files in a tree. A file is read at once. It is saved as a unit: the bytes go to a staging file in the
same directory, which takes the place of the file only when all is written, and which is removed if any step
fails. The same steps save a file on any device.
-/

namespace TapeCode

/-- A file operation that failed: what was done to which path, or between which two. -/
inductive FileFailure where
  | on (action path : String) (cause : FileError)
  | onRename (path goal : String) (cause : FileError)
  deriving DecidableEq, Repr

/-- The text of the failure. -/
def FileFailure.message : FileFailure → String
  | on action path cause => action ++ " " ++ path ++ ": " ++ cause.message
  | onRename path goal cause => "rename " ++ path ++ " " ++ goal ++ ": " ++ cause.message

/-- The steps of saving a file. -/
inductive SaveStep where
  | create
  | write
  | permit
  | sync
  | close
  | rename
  deriving DecidableEq, Repr

/-- What the device refuses: the steps that fail although the tree would allow them. -/
abbrev Trouble := SaveStep → Option FileError

/-- The path of the staging file for a path. The token is what makes its name new. -/
def Tree.stagingPath (token path : String) : String :=
  Path.child (Path.directory path) ("." ++ Path.base path ++ "." ++ token)

/-- What a device does for saving a file. A step tells why it failed, if it did. -/
structure Device (m : Type → Type) (file : Type) where
  /-- Makes an empty file under a name that is free. -/
  create : String → m (Except FileError file)
  write : file → List UInt8 → m (Option FileError)
  permit : file → m (Option FileError)
  sync : file → m (Option FileError)
  close : file → m (Option FileError)
  rename : file → String → m (Option FileError)
  remove : file → m Unit

namespace Device
variable {m : Type → Type} [Monad m] {file : Type}

/-- Takes steps until one fails. -/
def attempt : List (m (Option FileFailure)) → m (Option FileFailure)
  | [] => pure none
  | step :: steps => do
    match ← step with
    | some f => pure (some f)
    | none => attempt steps

/-- Fills the staging file and gives it its final name. -/
def publish (d : Device m file) (staged : file) (staging path : String) (bytes : List UInt8) :
    m (Option FileFailure) :=
  attempt [
    Option.map (.on "write" staging) <$> d.write staged bytes,
    Option.map (.on "chmod" staging) <$> d.permit staged,
    Option.map (.on "sync" staging) <$> d.sync staged,
    Option.map (.on "close" staging) <$> d.close staged,
    Option.map (.onRename staging path) <$> d.rename staged path]

/-- Saves a file under a path. If a step fails the staging file is removed. -/
def save (d : Device m file) (token path : String) (bytes : List UInt8) : m (Option FileFailure) := do
  if (Path.base path).toList.contains '/' then
    return some (.on "createtemp" ("." ++ Path.base path ++ ".*") .slashInName)
  else
    let staging := Tree.stagingPath token path
    match ← d.create staging with
    | .error e => return some (.on "open" staging e)
    | .ok staged =>
      match ← d.publish staged staging path bytes with
      | none => return none
      | some f =>
        d.remove staged
        return some f

end Device

namespace Tree

/-- The content of the file at a path as a byte source. A directory can be opened, but reading it fails. -/
def openFile (t : Tree) (path : String) : Except FileFailure Source :=
  match t.look path with
  | .error e => .error (.on "open" path e)
  | .ok .directory => .ok ⟨[], some ⟨(FileFailure.on "read" path .isDirectory).message⟩⟩
  | .ok (.file bytes) => .ok (Source.ofBytes bytes)

/-- The tree as a device. A file that is open is known by its place. -/
def device (trouble : Trouble) : Device (StateM Tree) Location where
  create path t :=
    match trouble .create, t.create path with
    | some e, _ | none, .error e => (.error e, t)
    | none, .ok (t, l) => (.ok l, t)
  write l bytes t :=
    match trouble .write with
    | some e => (some e, t)
    | none => (none, t.put l (.file bytes))
  permit _ := pure (trouble .permit)
  sync _ := pure (trouble .sync)
  close _ := pure (trouble .close)
  rename l path t :=
    match trouble .rename, t.rename l path with
    | some e, _ | none, .error e => (some e, t)
    | none, .ok t => (none, t)
  remove l t := ((), t.erase l)

/-- Saves a file under a path. -/
def save (t : Tree) (trouble : Trouble) (token path : String) (bytes : List UInt8) :
    Tree × Option FileFailure :=
  let (failure, t) := (device trouble).save token path bytes t
  (t, failure)

/-- Saves a program as an artifact. -/
def saveProgram (t : Tree) (trouble : Trouble) (token path : String) (p : Program) :
    Tree × Option FileFailure :=
  t.save trouble token path (Artifact.encode p)

end Tree

/-- Why there is no program at a path. -/
inductive LoadError where
  | file (f : FileFailure)
  | artifact (e : ReadError)
  deriving DecidableEq, Repr

/-- The text of the error. -/
def LoadError.message : LoadError → String
  | file f => f.message
  | artifact e => e.message

/-- Reads the program at a path. -/
def Tree.loadProgram (t : Tree) (path : String) : Except LoadError Program :=
  match t.openFile path with
  | .error f => .error (.file f)
  | .ok source => (Artifact.read source).1.mapError .artifact

end TapeCode
