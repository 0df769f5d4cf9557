import TapeCode.Word

/-!
The instructions of the byte code: an opcode byte, followed by a 32-bit operand for some of them. One
decoder serves everything that reads code.
-/

namespace TapeCode

/-- The operation codes. -/
inductive Opcode where
  | halt
  | alloc
  | reset
  | openInput
  | load
  | store
  | add
  | sub
  | forward
  | back
  | move
  | jump
  | jumpIfZero
  | getc
  | putc
  deriving DecidableEq, Repr

namespace Opcode

/-- The byte of an opcode. -/
def toByte : Opcode → UInt8
  | halt => 0x00
  | alloc => 0x01
  | reset => 0x02
  | openInput => 0x03
  | load => 0x04
  | store => 0x05
  | add => 0x06
  | sub => 0x07
  | forward => 0x08
  | back => 0x09
  | move => 0x0A
  | jump => 0x0B
  | jumpIfZero => 0x0C
  | getc => 0x0D
  | putc => 0x0E

/-- The opcode of a byte. -/
def ofByte? (b : UInt8) : Option Opcode :=
  match b.toNat with
  | 0x00 => some halt
  | 0x01 => some alloc
  | 0x02 => some reset
  | 0x03 => some openInput
  | 0x04 => some load
  | 0x05 => some store
  | 0x06 => some add
  | 0x07 => some sub
  | 0x08 => some forward
  | 0x09 => some back
  | 0x0A => some move
  | 0x0B => some jump
  | 0x0C => some jumpIfZero
  | 0x0D => some getc
  | 0x0E => some putc
  | _ => none

@[simp] theorem ofByte?_toByte (op : Opcode) : ofByte? op.toByte = some op := by
  cases op <;> rfl

/-- The name of an opcode in listings and messages. -/
def mnemonic : Opcode → String
  | halt => "HALT"
  | alloc => "ALLOC"
  | reset => "RESET"
  | openInput => "OPEN"
  | load => "LOAD"
  | store => "STORE"
  | add => "ADD"
  | sub => "SUB"
  | forward => "FWD"
  | back => "BACK"
  | move => "MOVE"
  | jump => "JMP"
  | jumpIfZero => "JZ"
  | getc => "GETC"
  | putc => "PUTC"

/-- Whether an operand follows the opcode. -/
def hasOperand : Opcode → Bool
  | alloc | add | sub | move | jump | jumpIfZero => true
  | halt | reset | openInput | load | store | forward | back | getc | putc => false

/-- The length of an instruction in bytes. -/
def length (op : Opcode) : Nat :=
  if op.hasOperand then 5 else 1

/-- The name of a byte read as an opcode; a byte that is none has no name. -/
def mnemonicOf (b : UInt8) : String :=
  ((ofByte? b).map mnemonic).getD ""

/-- The length of the instruction that a byte starts; zero if it starts none. -/
def lengthOf (b : UInt8) : Nat :=
  ((ofByte? b).map length).getD 0

end Opcode

/-- An instruction with its operand. -/
inductive Instr where
  | halt
  | alloc (cells : UInt32)
  | reset
  | openInput
  | load
  | store
  | add (n : UInt32)
  | sub (n : UInt32)
  | forward
  | back
  | move (delta : UInt32)
  | jump (target : UInt32)
  | jumpIfZero (target : UInt32)
  | getc
  | putc
  deriving DecidableEq, Repr

/-- Why no instruction starts at an address. -/
inductive DecodeError where
  /-- The address is not in the code. -/
  | outside
  /-- The byte there is no opcode. -/
  | unknown (byte : UInt8)
  /-- The code ends before the operand does. -/
  | truncated (opcode : Opcode)
  deriving DecidableEq, Repr

namespace Instr

/-- The opcode of an instruction. -/
def opcode : Instr → Opcode
  | halt => .halt
  | alloc _ => .alloc
  | reset => .reset
  | openInput => .openInput
  | load => .load
  | store => .store
  | add _ => .add
  | sub _ => .sub
  | forward => .forward
  | back => .back
  | move _ => .move
  | jump _ => .jump
  | jumpIfZero _ => .jumpIfZero
  | getc => .getc
  | putc => .putc

/-- The operand of an instruction that has one. -/
def operand? : Instr → Option UInt32
  | alloc w | add w | sub w | move w | jump w | jumpIfZero w => some w
  | halt | reset | openInput | load | store | forward | back | getc | putc => none

/-- The instruction of an opcode, with an operand where the opcode takes one. -/
def ofParts (op : Opcode) (operand : UInt32) : Instr :=
  match op with
  | .halt => halt
  | .alloc => alloc operand
  | .reset => reset
  | .openInput => openInput
  | .load => load
  | .store => store
  | .add => add operand
  | .sub => sub operand
  | .forward => forward
  | .back => back
  | .move => move operand
  | .jump => jump operand
  | .jumpIfZero => jumpIfZero operand
  | .getc => getc
  | .putc => putc

/-- The length of an instruction in bytes. -/
def length (i : Instr) : Nat :=
  i.opcode.length

/-- The bytes of an instruction. -/
def encode (i : Instr) : List UInt8 :=
  i.opcode.toByte :: (i.operand?.map Word.bytes32).getD []

/-- The instruction that starts at an address. -/
def decodeAt (code : Array UInt8) (pc : Nat) : Except DecodeError Instr :=
  if _ : pc < code.size then
    match Opcode.ofByte? code[pc] with
    | none => .error (.unknown code[pc])
    | some op =>
      if op.hasOperand then
        if _ : pc + 4 < code.size then
          .ok (ofParts op (Word.ofBytes32 code[pc + 1] code[pc + 2] code[pc + 3] code[pc + 4]))
        else .error (.truncated op)
      else .ok (ofParts op 0)
  else .error .outside

@[simp] theorem length_encode (i : Instr) : i.encode.length = i.length := by
  cases i <;> rfl

theorem length_pos (i : Instr) : 0 < i.length := by
  simp only [length, Opcode.length]
  split <;> omega

/-- Only an address in the code has an instruction. -/
theorem lt_size_of_decodeAt {code : Array UInt8} {pc : Nat} {i : Instr} (h : decodeAt code pc = .ok i) :
    pc < code.size := by
  unfold decodeAt at h
  split at h
  · assumption
  · contradiction

end Instr

end TapeCode
