import TapeCode.Text.Numeral

/-!
Tokens of the tape language: the eight commands, and a mark at the end of the program. A token keeps
the character it was read from and the line it stands on.
-/

namespace TapeCode

/-- What a token means. Token lists may come from elsewhere than the scanner, so a kind may also be a
number that means nothing. -/
inductive Kind where
  | endMark
  | increment
  | decrement
  | moveForward
  | moveBackward
  | output
  | input
  | loopBegin
  | loopEnd
  | unknown (code : Int)
  deriving DecidableEq, Repr

namespace Kind

/-- The kind with a number. -/
def ofCode (code : Int) : Kind :=
  match code with
  | 0 => endMark
  | 1 => increment
  | 2 => decrement
  | 3 => moveForward
  | 4 => moveBackward
  | 5 => output
  | 6 => input
  | 7 => loopBegin
  | 8 => loopEnd
  | n => unknown n

/-- The number of a kind. -/
def code : Kind → Int
  | endMark => 0
  | increment => 1
  | decrement => 2
  | moveForward => 3
  | moveBackward => 4
  | output => 5
  | input => 6
  | loopBegin => 7
  | loopEnd => 8
  | unknown n => n

/-- The name of a kind in messages. -/
def name : Kind → String
  | endMark => "End"
  | increment => "Increment"
  | decrement => "Decrement"
  | moveForward => "MoveForward"
  | moveBackward => "MoveBackward"
  | output => "Output"
  | input => "Input"
  | loopBegin => "LoopBegin"
  | loopEnd => "LoopEnd"
  | unknown n => "Kind(" ++ Text.signedDecimal n ++ ")"

/-- The command a byte stands for. Every byte but `+ - > < . , [ ]` is a comment. -/
def ofByte? (b : UInt8) : Option Kind :=
  if b = 0x2B then some increment
  else if b = 0x2D then some decrement
  else if b = 0x3E then some moveForward
  else if b = 0x3C then some moveBackward
  else if b = 0x2E then some output
  else if b = 0x2C then some input
  else if b = 0x5B then some loopBegin
  else if b = 0x5D then some loopEnd
  else none

end Kind

/-- A command of a program, or its end mark, which has no character. -/
structure Token where
  kind : Kind
  char : UInt8
  line : Int
  deriving DecidableEq, Repr

namespace Token

/-- Whether a token is of a kind. -/
def isA (kind : Kind) (t : Token) : Bool :=
  t.kind = kind

/-- A token in messages. The character is shown as the code point of its number. -/
def text (t : Token) : String :=
  let line := " line " ++ Text.signedDecimal t.line ++ "\x7d"
  match t.kind with
  | .endMark => "\x7b" ++ t.kind.name ++ line
  | _ => "\x7b" ++ t.kind.name ++ " '" ++ String.singleton (Char.ofNat t.char.toNat) ++ "'" ++ line

end Token

end TapeCode
