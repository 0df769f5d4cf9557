import TapeCode.Tree.Path

/-!
Directory trees of files, as a program in a working directory sees them, and the basic operations on them:
following a path, looking at an entry, making a file and renaming it.
-/

namespace TapeCode

/-- What stands in a directory. -/
inductive Entry where
  | directory
  | file (bytes : List UInt8)
  deriving DecidableEq, Repr

/-- A place in the tree: the names that lead to it from the working directory. Names `..` in front lead to
directories above it, and a name `/` in front starts at the root. -/
abbrev Location := List String

/-- The files and directories that are known, each with its place. -/
structure Tree where
  entries : List (Location × Entry)
  deriving DecidableEq, Repr

/-- Why a path does not lead to what is asked for. -/
inductive FileError where
  | notFound
  | notDirectory
  | isDirectory
  | alreadyExists
  | nameTooLong
  | invalidName
  | slashInName
  | device (message : String)
  deriving DecidableEq, Repr

/-- The text of the error. -/
def FileError.message : FileError → String
  | notFound => "no such file or directory"
  | notDirectory => "not a directory"
  | isDirectory => "is a directory"
  | alreadyExists => "file exists"
  | nameTooLong => "file name too long"
  | invalidName => "invalid argument"
  | slashInName => "pattern contains path separator"
  | device message => message

namespace Location

/-- Whether a place is the working directory, a directory above it or the root: these are always there. -/
def isAncestor (l : Location) : Bool :=
  l.all (· = "..") || l = ["/"]

/-- The directory that a place is in. -/
def parent (l : Location) : Location :=
  if l = ["/"] then l
  else if l.all (· = "..") then l ++ [".."]
  else l.dropLast

end Location

namespace Tree

/-- The longest name, in bytes. -/
def maxName : Nat := 255

/-- The longest path, in bytes. -/
def maxPath : Nat := 4095

/-- What stands at a place. -/
def get? (t : Tree) (l : Location) : Option Entry :=
  if l.isAncestor then some .directory else t.entries.lookup l

/-- Takes away what stands at a place. -/
def erase (t : Tree) (l : Location) : Tree :=
  ⟨t.entries.filter (·.1 ≠ l)⟩

/-- Puts an entry at a place, over what stands there. -/
def put (t : Tree) (l : Location) (e : Entry) : Tree :=
  if t.entries.any (·.1 = l) then ⟨t.entries.map fun x => if x.1 = l then (l, e) else x⟩
  else ⟨t.entries ++ [(l, e)]⟩

/-- Follows names from a place. Everything on the way has to be a directory, also before a last empty
name. -/
def walk (t : Tree) (l : Location) : List String → Except FileError Location
  | [] => .ok l
  | name :: rest =>
    match t.get? l with
    | none => .error .notFound
    | some (.file _) => .error .notDirectory
    | some .directory =>
      if name = "" ∨ name = "." then t.walk l rest
      else if name = ".." then t.walk (Location.parent l) rest
      else if maxName < name.utf8ByteSize then .error .nameTooLong
      else if (t.get? (l ++ [name])).isNone then .error .notFound
      else t.walk (l ++ [name]) rest

/-- What is wrong with a path by itself. -/
def checkPath (path : String) : Except FileError Unit :=
  if path.toList.contains (Char.ofNat 0) then .error .invalidName
  else if path = "" then .error .notFound
  else if maxPath < path.utf8ByteSize then .error .nameTooLong
  else .ok ()

/-- Where a path starts. -/
def origin (path : String) : Location :=
  if Path.isAbsolute path then ["/"] else []

/-- The place of an existing file or directory. -/
def find (t : Tree) (path : String) : Except FileError Location := do
  checkPath path
  t.walk (origin path) (Path.names path)

/-- What a path leads to. -/
def look (t : Tree) (path : String) : Except FileError Entry := do
  let l ← t.find path
  match t.get? l with
  | some e => .ok e
  | none => .error .notFound

/-- The place that a path names, whether something is there or not. Its directory has to be there. A slash
at the end of the path is for directories only. -/
def target (t : Tree) (path : String) : Except FileError Location := do
  checkPath path
  match (Path.names path).reverse.dropWhile (· = "") with
  | [] => .ok (origin path)
  | name :: before =>
    let l ← t.walk (origin path) (before.reverse ++ [""])
    if maxName < name.utf8ByteSize then .error .nameTooLong
    else if path.toList.getLast? == some '/' then .error .notDirectory
    else .ok (l ++ [name])

/-- Makes an empty file under a name that is free. -/
def create (t : Tree) (path : String) : Except FileError (Tree × Location) := do
  let l ← t.target path
  if (t.get? l).isSome then .error .alreadyExists
  else .ok (t.put l (.file []), l)

/-- Whether a path leads to a directory. -/
def isDirectory (t : Tree) (path : String) : Bool :=
  match t.look path with
  | .ok .directory => true
  | _ => false

/-- Moves the file at a place to a path, over a file that stands there. A directory is not replaced. -/
def rename (t : Tree) (l : Location) (path : String) : Except FileError Tree := do
  if t.isDirectory path then .error .alreadyExists
  else
    let goal ← t.target path
    match t.get? l with
    | some e => .ok ((t.erase l).put goal e)
    | none => .error .notFound

end Tree

end TapeCode
