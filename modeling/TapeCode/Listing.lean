import TapeCode.Instr
import TapeCode.Stream.Sink
import TapeCode.Text.Numeral

/-!
Listings of byte code: one line per instruction, with its address, its name and its operand. A listing stops
at the first thing that is no instruction, or when its sink takes no more.
-/

namespace TapeCode

/-- Why a listing stops early. -/
inductive ListingError where
  | unknownOpcode (pc : Nat) (byte : UInt8)
  | truncatedOperand (pc : Nat) (opcode : Opcode)
  | device (e : DeviceError)
  deriving DecidableEq, Repr

/-- The text of the error. -/
def ListingError.message : ListingError → String
  | unknownOpcode pc byte => Text.address pc ++ ": unknown opcode " ++ Text.byte byte
  | truncatedOperand pc opcode => Text.address pc ++ ": " ++ opcode.mnemonic ++ ": truncated operand"
  | device e => e.message

namespace Listing

/-- The operand of an instruction in a listing: a jump shows an address, a move a signed number. -/
def operandText : Instr → Option String
  | .jump target | .jumpIfZero target => some (Text.address target.toNat)
  | .move delta => some (Text.signedDecimal (Word.toSigned delta))
  | .alloc n | .add n | .sub n => some (Text.decimal n.toNat)
  | .halt | .reset | .openInput | .load | .store | .forward | .back | .getc | .putc => none

/-- The line of an instruction. -/
def line (pc : Nat) (i : Instr) : String :=
  match operandText i with
  | none => Text.address pc ++ "  " ++ i.opcode.mnemonic ++ "\n"
  | some operand => Text.address pc ++ "  " ++ i.opcode.mnemonic ++ " " ++ operand ++ "\n"

/-- Lists the code from an address on, each line in one write. -/
def writeFrom (code : Array UInt8) (pc : Nat) (sink : Sink) : Sink × Option ListingError :=
  match _h : Instr.decodeAt code pc with
  | .error .outside => (sink, none)
  | .error (.unknown byte) => (sink, some (.unknownOpcode pc byte))
  | .error (.truncated opcode) => (sink, some (.truncatedOperand pc opcode))
  | .ok i =>
    match sink.write (Text.utf8 (line pc i)) with
    | (sink, some e) => (sink, some (.device e))
    | (sink, none) => writeFrom code (pc + i.length) sink
termination_by code.size - pc
decreasing_by
  have := Instr.lt_size_of_decodeAt _h
  have := i.length_pos
  omega

/-- Lists byte code. -/
def write (code : Array UInt8) (sink : Sink) : Sink × Option ListingError :=
  writeFrom code 0 sink

end Listing

end TapeCode
