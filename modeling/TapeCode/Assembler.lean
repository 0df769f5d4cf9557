import TapeCode.Compile
import TapeCode.Instr
import TapeCode.Program

/-!
The assembler turns operations into byte code. A jump is emitted with an empty operand, which linking fills
in from the address of its label. The first failure is final: nothing is emitted after it, and linking
reports it.
-/

namespace TapeCode

/-- Why operations have no byte code. -/
inductive AsmError where
  | allocRange (cells : Int)
  | stepDelta (delta : Int)
  | moveRange (delta : Int)
  | unknownLabel (label : Int)
  | markedTwice (label : Int)
  | unmarkedTarget (label : Int)
  deriving DecidableEq, Repr

/-- The text of the error. -/
def AsmError.message : AsmError → String
  | allocRange cells => "alloc: " ++ Text.signedDecimal cells ++ " cells out of range"
  | stepDelta delta => "step: delta must be 1 or -1, got " ++ Text.signedDecimal delta
  | moveRange delta => "move: delta " ++ Text.signedDecimal delta ++ " out of range"
  | unknownLabel label => "label " ++ Text.signedDecimal label ++ ": not created by this assembler"
  | markedTwice label => "label " ++ Text.signedDecimal label ++ " marked twice"
  | unmarkedTarget label => "label " ++ Text.signedDecimal label ++ ": jump to unmarked label"

/-- A jump whose operand is not filled in yet. -/
structure Fixup where
  /-- The address of the operand. -/
  location : Nat
  label : Nat
  deriving DecidableEq, Repr

/-- Code under construction. -/
structure Assembler where
  code : Array UInt8 := #[]
  /-- The address of every label, once it is marked. -/
  labels : Array (Option Nat) := #[]
  /-- The jumps to fill in, in the order of their emission. -/
  pending : Array Fixup := #[]
  /-- The first failure. -/
  failure : Option AsmError := none
  deriving DecidableEq, Repr

namespace Assembler

/-- The number of the label that the next request returns. -/
def nextLabel (a : Assembler) : Nat :=
  a.labels.size

/-- Keeps a failure. -/
def fail (a : Assembler) (e : AsmError) : Assembler :=
  { a with failure := some e }

/-- Appends an instruction. -/
def emit (a : Assembler) (i : Instr) : Assembler :=
  { a with code := a.code ++ i.encode }

/-- The label of a number, if there is one. -/
def label? (a : Assembler) (label : Int) : Option Nat :=
  if 0 ≤ label ∧ label < a.labels.size then some label.toNat else none

/-- Puts a label at the end of the code. -/
def mark (a : Assembler) (label : Int) : Assembler :=
  match a.label? label with
  | none => a.fail (.unknownLabel label)
  | some l =>
    match (a.labels[l]?).join with
    | some _ => a.fail (.markedTwice label)
    | none => { a with labels := a.labels.setIfInBounds l (some a.code.size) }

/-- Emits a jump to a label, to be filled in later. -/
def emitJump (a : Assembler) (jump : UInt32 → Instr) (label : Int) : Assembler :=
  match a.label? label with
  | none => a.fail (.unknownLabel label)
  | some l => { a with pending := a.pending.push ⟨a.code.size + 1, l⟩ }.emit (jump 0)

/-- An operation on an assembler that has not failed. -/
def assemble (a : Assembler) : Op → Assembler
  | .alloc cells =>
    if 0 ≤ cells ∧ cells < 4294967296 then a.emit (.alloc (Word.ofInt cells))
    else a.fail (.allocRange cells)
  | .reset => a.emit .reset
  | .openInput => a.emit .openInput
  | .load => a.emit .load
  | .store => a.emit .store
  | .add n => a.emit (.add (Word.ofInt n))
  | .sub n => a.emit (.sub (Word.ofInt n))
  | .step delta =>
    if delta = 1 then a.emit .forward
    else if delta = -1 then a.emit .back
    else a.fail (.stepDelta delta)
  | .move delta =>
    if -2147483648 ≤ delta ∧ delta < 2147483648 then a.emit (.move (Word.ofInt delta))
    else a.fail (.moveRange delta)
  | .newLabel => { a with labels := a.labels.push none }
  | .mark label => a.mark label
  | .jump label => a.emitJump .jump label
  | .jumpIfZero label => a.emitJump .jumpIfZero label
  | .getc => a.emit .getc
  | .putc => a.emit .putc
  | .halt => a.emit .halt

/-- One operation. After a failure only the numbering of labels goes on. -/
def apply (a : Assembler) (op : Op) : Assembler :=
  match a.failure, op with
  | none, op => a.assemble op
  | some _, .newLabel => a.assemble .newLabel
  | some _, _ => a

/-- Some operations in a row. -/
def applyAll (a : Assembler) (ops : Array Op) : Assembler :=
  ops.foldl apply a

/-- Overwrites code with bytes from an address on. -/
def overwrite (code : Array UInt8) (location : Nat) : List UInt8 → Array UInt8
  | [] => code
  | b :: rest => overwrite (code.setIfInBounds location b) (location + 1) rest

/-- Fills in jumps in order, up to the first whose label is not marked. -/
def fillIn (labels : Array (Option Nat)) : List Fixup → Array UInt8 → Array UInt8 × Option AsmError
  | [], code => (code, none)
  | fixup :: rest, code =>
    match (labels[fixup.label]?).join with
    | none => (code, some (.unmarkedTarget fixup.label))
    | some target =>
      fillIn labels rest (overwrite code fixup.location (Word.bytes32 (UInt32.ofNat target)))

/-- Fills in the pending jumps and hands out the program. The assembler can be used further: jumps that
could be filled in are done with, and those of a failed attempt stay pending. -/
def link (a : Assembler) : Assembler × Except AsmError Program :=
  match a.failure with
  | some e => (a, .error e)
  | none =>
    match fillIn a.labels a.pending.toList a.code with
    | (code, some e) => ({ a with code }, .error e)
    | (code, none) => ({ a with code, pending := #[] }, .ok ⟨Program.currentVersion, code⟩)

/-- Compiles a program into an assembler, behind what it holds already. -/
def compile (a : Assembler) (tokens : List Token) : Assembler × Option CompileError :=
  let c := TapeCode.compile (fun k => a.nextLabel + k) tokens
  (a.applyAll c.ops, c.error)

end Assembler

end TapeCode
