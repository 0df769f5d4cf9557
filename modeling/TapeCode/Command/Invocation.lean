import TapeCode.Text.Numeral
import TapeCode.Text.Quoted

/-!
Reading the command line. Two passes look at the arguments: the first finds the command, and the second
separates flags from the files that the command works on. The only flag is the one that asks for help.
-/

namespace TapeCode

/-- The commands: compiling, which has no name of its own, and those that are named. -/
inductive Command where
  | compile
  | run
  | list
  /-- Stands in the place of a command for help, so that a file named `help` is one like any other. It has
  nothing to tell and does nothing. -/
  | noHelp
  deriving DecidableEq, Repr

namespace Command

/-- The name of a command on the command line. -/
def name? : Command → Option String
  | compile => none
  | run => some "run"
  | list => some "dis"
  | noHelp => some "no-help"

/-- The command of a name. -/
def ofName? (name : String) : Option Command :=
  [run, list, noHelp].find? (·.name? == some name)

/-- Where the compiler leaves its result. -/
def artifactName : String := "bf.bin"

/-- The artifact that is run or listed: the one that is named, or else the one that the compiler left. -/
def binFile : List String → String
  | [path] => path
  | _ => "./" ++ artifactName

end Command

/-- Wrong usage of a command. -/
inductive Misuse where
  | unknownFlag (name : String)
  | unknownLetter (letter : UInt8) (letters : String)
  | badFlag (argument : String)
  | badValue (value : String)
  | wantsOne (given : Nat)
  | wantsAtMostOne (given : Nat)
  deriving DecidableEq, Repr

/-- The text of the error. -/
def Misuse.message : Misuse → String
  | unknownFlag name => "unknown flag: --" ++ name
  | unknownLetter letter letters => "unknown shorthand flag: " ++ Text.quoted letter ++ " in -" ++ letters
  | badFlag argument => "bad flag syntax: " ++ argument
  | badValue value =>
    "invalid argument " ++ Text.quotedText value ++ " for \"-h, --help\" flag: strconv.ParseBool: parsing " ++
      Text.quotedText value ++ ": invalid syntax"
  | wantsOne given => "accepts 1 arg(s), received " ++ Text.decimal given
  | wantsAtMostOne given => "accepts at most 1 arg(s), received " ++ Text.decimal given

/-- What the command line asks for. -/
inductive Invocation where
  | help (command : Command)
  | misuse (command : Command) (m : Misuse)
  | compile (path : String)
  | run (path : String)
  | list (path : String)
  deriving DecidableEq, Repr

namespace Invocation

/-! ### The command -/

/-- Whether an argument looks like a flag with its value in the next argument. -/
def takesValue (arg : String) : Bool :=
  match arg.toList with
  | '-' :: '-' :: rest => !rest.contains '='
  | ['-', c] => c != '=' && c.utf8Size == 1
  | _ => false

/-- The first argument that could name a command. A flag that may have a value hides the argument after it,
and nothing is looked for behind the last argument that may be such a value. -/
def candidate? : List String → Option String
  | [] => none
  | arg :: rest =>
    if arg = "--" then none
    else if takesValue arg then
      match rest with
      | _ :: next :: more => candidate? (next :: more)
      | _ => none
    else if arg ≠ "" ∧ arg.toList.head? ≠ some '-' then some arg
    else candidate? rest

/-- The command, and the arguments without its name. -/
def findCommand (args : List String) : Command × List String :=
  match candidate? args with
  | none => (.compile, args)
  | some name =>
    match Command.ofName? name with
    | none => (.compile, args)
    | some command => (command, args.erase name)

/-! ### Flags and files -/

/-- Whether help is asked for, and the files. -/
structure Request where
  help : Bool
  files : List String

/-- The first byte of a character. -/
def firstByte (c : Char) : UInt8 :=
  ((String.singleton c).toUTF8.data[0]?).getD 0

/-- What the value of a flag says. -/
def truth? (value : String) : Option Bool :=
  if ["1", "t", "T", "true", "TRUE", "True"].contains value then some true
  else if ["0", "f", "F", "false", "FALSE", "False"].contains value then some false
  else none

/-- Reads the value of the flag for help. -/
def readValue (value : List Char) : Except Misuse Bool :=
  match truth? (String.ofList value) with
  | some asked => .ok asked
  | none => .error (.badValue (String.ofList value))

/-- Reads flags of one letter, written behind one dash, and tells whether help is asked for. Behind an equals
sign stands a value, and what starts with `test.` is for a test runner and passed over. -/
def readLetters (help : Bool) : List Char → Except Misuse Bool
  | [] => .ok help
  | 't' :: 'e' :: 's' :: 't' :: '.' :: _ => .ok help
  | 'h' :: '=' :: c :: value => readValue (c :: value)
  | 'h' :: rest => readLetters true rest
  | c :: rest => .error (.unknownLetter (firstByte c) (String.ofList (c :: rest)))

/-- Reads a flag with a name, written behind two dashes, and tells whether it asks for help. Behind an equals
sign stands a value. -/
def readName (name : List Char) : Except Misuse Bool :=
  match name with
  | [] | '-' :: _ | '=' :: _ => .error (.badFlag (String.ofList ('-' :: '-' :: name)))
  | _ =>
    let flag := String.ofList (name.takeWhile (· ≠ '='))
    if flag ≠ "help" then .error (.unknownFlag flag)
    else
      match name.dropWhile (· ≠ '=') with
      | [] => .ok true
      | _ :: value => readValue value

/-- Separates flags from files. Behind `--` there are only files, and the last flag decides about help. -/
def readArgs (help : Bool) (files : List String) : List String → Except Misuse Request
  | [] => .ok ⟨help, files⟩
  | arg :: rest =>
    match arg.toList with
    | ['-', '-'] => .ok ⟨help, files ++ rest⟩
    | '-' :: '-' :: name =>
      match readName name with
      | .error e => .error e
      | .ok help => readArgs help files rest
    | '-' :: c :: letters =>
      match readLetters help (c :: letters) with
      | .error e => .error e
      | .ok help => readArgs help files rest
    | _ => readArgs help (files ++ [arg]) rest

/-- What a command does with the files it is given. -/
def ofFiles (command : Command) (files : List String) : Invocation :=
  match command with
  | .compile =>
    match files with
    | [path] => compile path
    | _ => misuse command (.wantsOne files.length)
  | .run => if files.length ≤ 1 then run (Command.binFile files) else misuse command (.wantsAtMostOne files.length)
  | .list => if files.length ≤ 1 then list (Command.binFile files) else misuse command (.wantsAtMostOne files.length)
  | .noHelp => help command

/-- Reads the arguments. A wrong flag counts before a request for help, and that before wrong files. -/
def ofArgs (args : List String) : Invocation :=
  let (command, args) := findCommand args
  match readArgs false [] args with
  | .error m => misuse command m
  | .ok ⟨true, _⟩ => help command
  | .ok ⟨false, files⟩ => ofFiles command files

end Invocation

end TapeCode
