import TapeCode.Machine
import TapeCode.Op
import TapeCode.Proofs.Iteration

/-!
The machine that operations are meant for. It executes them by their index and knows nothing of code: a label is the
index of the operation that marks it. Where it stops, its faults name the index of the operation.
-/

namespace TapeCode

/-- The state of a machine over operations. It is that of a machine over code, with the index of an operation for the
program counter. -/
structure Target where
  index : Nat := 0
  cells : Option (Array UInt8) := none
  pointer : Int64 := 0
  acc : UInt8 := 0
  source : Source := ⟨[], none⟩
  words : Option WordReader := none
  output : Output := {}
  prompting : Bool := false

namespace Target

/-- Goes on with the next operation. -/
def advance (t : Target) : Progress Target Stop :=
  .next { t with index := t.index + 1 }

/-- Goes on at the mark of a label; a label without a mark is at the end. -/
def goto (ops : List Op) (label : Int) (t : Target) : Progress Target Stop :=
  .next { t with index := ops.idxOf (.mark label) }

/-- Stops on the current operation with a fault. -/
def fault (t : Target) (opcode : Opcode) (cause : Cause) : Progress Target Stop :=
  .stop t (.fault ⟨t.index, opcode.toByte, cause⟩)

/-- Uses the cell under the pointer, if there is one. -/
def touch (t : Target) (opcode : Opcode) (use : (cells : Array UInt8) → Fin cells.size → Target) :
    Progress Target Stop :=
  match t.cells with
  | none => t.fault opcode .noMemory
  | some cells =>
    match Machine.locate t.pointer cells with
    | .error cause => t.fault opcode cause
    | .ok i => (use cells i).advance

/-- Reads a word and keeps its first character. Output goes out before the prompt does. -/
def readChar (t : Target) : Progress Target Stop :=
  match t.words with
  | none => t.fault .getc .inputClosed
  | some words =>
    match t.output.flush with
    | (output, some e) => { t with output }.fault .getc (.device e)
    | (output, none) =>
      let output := if t.prompting then output.prompt else output
      match words.next t.source with
      | (.ok word, words, source) =>
        { t with output, source, words := some words, acc := Text.initial word }.advance
      | (.error ended, words, source) =>
        { t with output, source, words := some words }.fault .getc (Machine.causeOf ended)

/-- Puts the accumulator out. -/
def writeChar (t : Target) : Progress Target Stop :=
  match t.output.put t.acc with
  | (output, some e) => { t with output }.fault .putc (.device e)
  | (output, none) => { t with output }.advance

/-- Executes an operation of some operations. -/
def perform (ops : List Op) (t : Target) : Op → Progress Target Stop
  | .alloc cells =>
    if Machine.maxCells < cells.toNat then t.fault .alloc .noMemory
    else { t with cells := some (Array.replicate cells.toNat 0) }.advance
  | .reset => { t with pointer := 0 }.advance
  | .openInput => { t with words := some {} }.advance
  | .load => t.touch .load fun cells ⟨i, _⟩ => { t with acc := cells[i] }
  | .store => t.touch .store fun cells ⟨i, _⟩ => { t with cells := some (cells.set i t.acc) }
  | .add n => { t with acc := t.acc + UInt8.ofInt n }.advance
  | .sub n => { t with acc := t.acc - UInt8.ofInt n }.advance
  | .step delta => { t with pointer := t.pointer + Int64.ofInt delta }.advance
  | .move delta => { t with pointer := t.pointer + Int64.ofInt delta }.advance
  | .newLabel => t.advance
  | .mark _ => t.advance
  | .jump label => t.goto ops label
  | .jumpIfZero label => if t.acc = 0 then t.goto ops label else t.advance
  | .getc => t.readChar
  | .putc => t.writeChar
  | .halt => .stop t .halted

/-- Executes the operation at the index. There is none at the end. -/
def step (ops : List Op) (t : Target) : Progress Target Stop :=
  match ops[t.index]? with
  | none => .stop t (.fault ⟨t.index, Fault.noOpcode, .truncated⟩)
  | some op => t.perform ops op

/-- Writes what is left of the output of a machine that stopped. Only a machine that halted reports that this
failed. -/
def finish (t : Target) (why : Stop) : Target × Outcome :=
  let (output, error) := t.output.flush
  let outcome :=
    match why, error with
    | .fault f, _ => .fault f
    | .halted, some e => .flushFailed e
    | .halted, none => .halted
  ({ t with output }, outcome)

/-- Runs a machine for at most `fuel` operations. There is no outcome if it would go on. -/
def run (ops : List Op) (fuel : Nat) (t : Target) : Target × Option Outcome :=
  match Progress.iterate (step ops) fuel t with
  | (t, none) => (t, none)
  | (t, some why) =>
    let (t, outcome) := t.finish why
    (t, some outcome)

section Step
variable {ops : List Op} {t : Target}

theorem step_of_op {op : Op} (h : ops[t.index]? = some op) : t.step ops = t.perform ops op := by
  rw [step, h]

theorem step_of_end (h : ops[t.index]? = none) :
    t.step ops = .stop t (.fault ⟨t.index, Fault.noOpcode, .truncated⟩) := by
  rw [step, h]

end Step

end Target

end TapeCode
