/-!
The operations a program is compiled into. They name what the program does with the tape, the accumulator
and the input and output, and say nothing about how code is laid out: a jump goes to a label, and a label
is whatever number the receiver hands out when it is asked for a new one.
-/

namespace TapeCode

/-- One operation of the target of a compilation. -/
inductive Op where
  /-- Provides a number of zeroed cells. -/
  | alloc (cells : Int)
  /-- Sets the pointer to the first cell. -/
  | reset
  /-- Opens the input. -/
  | openInput
  /-- Brings the cell under the pointer into the accumulator. -/
  | load
  /-- Writes the accumulator to the cell under the pointer. -/
  | store
  /-- Adds to the accumulator. -/
  | add (n : Int)
  /-- Subtracts from the accumulator. -/
  | sub (n : Int)
  /-- Moves the pointer by one cell, forward or back. -/
  | step (delta : Int)
  /-- Moves the pointer by any number of cells. -/
  | move (delta : Int)
  /-- Asks for a new label. -/
  | newLabel
  /-- Puts a label here. -/
  | mark (label : Int)
  /-- Goes to a label. -/
  | jump (label : Int)
  /-- Goes to a label if the accumulator is zero. -/
  | jumpIfZero (label : Int)
  /-- Reads a character into the accumulator. -/
  | getc
  /-- Writes the accumulator as a character. -/
  | putc
  /-- Stops. -/
  | halt
  deriving DecidableEq, Repr

end TapeCode
