import TapeCode.Instr
import TapeCode.Stream.Source
import TapeCode.Text.Numeral

/-!
Faults: why and where a machine cannot go on.
-/

namespace TapeCode

/-- Why a machine cannot execute an instruction. -/
inductive Cause where
  /-- There is no word left to read. -/
  | noInput
  /-- Input is read before it is opened. -/
  | inputClosed
  /-- The pointer is outside the cells. -/
  | pointerRange (pointer : Int) (cells : Nat)
  /-- There are no cells, or too many are asked for. -/
  | noMemory
  | badOpcode
  /-- The address or the operand of the instruction is outside the code. -/
  | truncated
  /-- A word is longer than the input can hold. -/
  | wordTooLong
  | device (e : DeviceError)
  deriving DecidableEq, Repr

namespace Cause

/-- The cause without the values involved. -/
def summary : Cause → String
  | noInput => "no input token available"
  | inputClosed => "input read before it was opened"
  | pointerRange _ _ => "pointer outside cell memory"
  | noMemory => "cell memory not allocated or too large"
  | badOpcode => "illegal opcode"
  | truncated => "pc or operand outside code"
  | wordTooLong => "bufio.Scanner: token too long"
  | device e => e.message

/-- The text of the cause. -/
def message (c : Cause) : String :=
  match c with
  | pointerRange pointer cells =>
    c.summary ++ ": " ++ Text.signedDecimal pointer ++ " not in [0, " ++ Text.decimal cells ++ ")"
  | _ => c.summary

end Cause

/-- A machine that stopped at an instruction it could not execute. -/
structure Fault where
  pc : Nat
  /-- The opcode byte at that address, or `Fault.noOpcode`. -/
  opcode : UInt8
  cause : Cause
  deriving DecidableEq, Repr

namespace Fault

/-- Stands for the opcode if there is none because the address is outside the code. -/
def noOpcode : UInt8 := 0xFF

/-- A report about an instruction: its address, its name (or its byte, if that is no opcode) and the
reason. -/
def report (pc : Int) (opcode : UInt8) (reason : String) : String :=
  let name := ((Opcode.ofByte? opcode).map Opcode.mnemonic).getD (Text.byte opcode)
  "pc 0x" ++ Text.signedHex 4 pc ++ " (" ++ name ++ "): " ++ reason

/-- The text of the fault. -/
def message (f : Fault) : String :=
  report f.pc f.opcode f.cause.message

end Fault

end TapeCode
