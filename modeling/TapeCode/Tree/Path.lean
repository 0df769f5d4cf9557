/-!
Paths as text. A path is cut into the names between its slashes. What can be said of a path without looking
at any file is said here: the directory and the last name it mentions.
-/

namespace TapeCode.Path

/-- Cuts characters at the slashes. -/
def splitSlashes : List Char → List (List Char)
  | [] => [[]]
  | c :: rest =>
    if c = '/' then [] :: splitSlashes rest
    else
      match splitSlashes rest with
      | [] => [[c]]
      | name :: names => (c :: name) :: names

/-- The names of a path, empty ones included: `a//b/` has `a`, an empty name, `b` and an empty name. -/
def names (path : String) : List String :=
  (splitSlashes path.toList).map String.ofList

/-- Whether a path starts at the root. -/
def isAbsolute (path : String) : Bool :=
  path.toList.head? == some '/'

/-- Names behind one another, a slash between two of them. -/
def join (names : List String) : String :=
  String.intercalate "/" names

/-- Shortens a list of names without looking at files: empty names and `.` go, and `..` goes together with
the name before it. At the root `..` leads nowhere else. Names are pushed on a stack, the last one first. -/
def simplify (absolute : Bool) : List String → List String → List String
  | stack, [] => stack.reverse
  | stack, name :: rest =>
    if name = "" ∨ name = "." then simplify absolute stack rest
    else if name = ".." then
      match stack with
      | [] => simplify absolute (if absolute then [] else [".."]) rest
      | top :: below =>
        if top = ".." then simplify absolute (".." :: stack) rest else simplify absolute below rest
    else simplify absolute (name :: stack) rest

/-- The directory of a path: all before its last slash, in the shortest form. -/
def directory (path : String) : String :=
  let absolute := isAbsolute path
  match simplify absolute [] (names path).dropLast with
  | [] => if absolute then "/" else "."
  | kept => (if absolute then "/" else "") ++ join kept

/-- The last name of a path, slashes at its end not counted. The empty path has `.`, and a path of slashes
only has a slash. -/
def base (path : String) : String :=
  match (names path).reverse.dropWhile (· = "") with
  | name :: _ => name
  | [] => if isAbsolute path then "/" else "."

/-- A name in a directory. -/
def child (directory name : String) : String :=
  if directory.toList.getLast? == some '/' then directory ++ name else directory ++ "/" ++ name

end TapeCode.Path
