import TapeCode.Command.Invocation

/-!
What the program tells about its own usage.
-/

namespace TapeCode.Command

/-- What a command is for. -/
def about : Command → String
  | compile =>
    "Bfc compiles a program written in the eight-character tape\n" ++
    "language (+ - > < . , [ ]) to a byte code file named bf.bin in the\n" ++
    "current directory. Every other character in the source is a comment.\n" ++
    "\n" ++
    "Exactly one source file must be given. Nothing is written unless the\n" ++
    "whole program compiles. The result is run with \"bfc run\" and can be\n" ++
    "listed with \"bfc dis\". A source file named run or dis must be given\n" ++
    "as ./run or ./dis. The program takes no flags other than --help.\n"
  | run =>
    "Run loads a byte code file (\"./bf.bin\" unless another is\n" ++
    "named) and executes it. Each input operation reads one whitespace\n" ++
    "delimited word from standard input and keeps its first character.\n" ++
    "Each output operation writes one byte to standard output. When\n" ++
    "standard input is a terminal, a \"? \" prompt is written to standard\n" ++
    "error before each read.\n"
  | list =>
    "Dis prints the instructions in a byte code file (\"./bf.bin\"\n" ++
    "unless another is named), one per line, with their code addresses.\n"
  | noHelp => ""

/-- The flags of a command, which goes by a name. -/
def flags (name : String) : String :=
  "Flags:\n" ++
  "  -h, --help   help for " ++ name ++ "\n"

/-- How a command is used that works on an artifact. -/
def usageOf (name : String) : String :=
  "Usage:\n" ++
  "  bfc " ++ name ++ " [binFile] [flags]\n" ++
  "\n" ++
  flags name

/-- How a command is used. -/
def usage : Command → String
  | compile =>
    "Usage:\n" ++
    "  bfc sourceFile [flags]\n" ++
    "  bfc [command]\n" ++
    "\n" ++
    "Available Commands:\n" ++
    "  dis         List the byte code in a compiled program\n" ++
    "  run         Run a compiled program\n" ++
    "\n" ++
    flags "bfc" ++
    "\n" ++
    "Use \"bfc [command] --help\" for more information about a command.\n"
  | run => usageOf "run"
  | list => usageOf "dis"
  | noHelp =>
    "Usage:\n" ++
    "\n" ++
    flags "no-help"

/-- The help of a command. There is none for one that does nothing. -/
def manual (command : Command) : String :=
  if command = noHelp then "" else command.about ++ "\n" ++ command.usage

end TapeCode.Command
