import TapeCode.Machine.Fault
import TapeCode.Machine.Output
import TapeCode.Machine.WordReader

/-!
The machine that executes byte code: code, cells, a pointer, an accumulator of one byte, input read word by
word and buffered output. One function executes one instruction; running iterates it a number of times. A
machine that stopped stays on the instruction it stopped at and can be run again.
-/

namespace TapeCode

/-- The state of a machine. There are no cells before the program allocates them, and no words before it
opens the input. -/
structure Machine where
  code : Array UInt8
  cells : Option (Array UInt8) := none
  pc : Nat := 0
  pointer : Int64 := 0
  acc : UInt8 := 0
  source : Source := ⟨[], none⟩
  words : Option WordReader := none
  output : Output := {}
  /-- Whether a prompt is shown before each read. -/
  prompting : Bool := false

/-- Why a machine stops by itself. -/
inductive Stop where
  | halted
  | fault (f : Fault)
  deriving DecidableEq, Repr

/-- How a run ends: as the machine stopped, unless output is left that cannot be written. -/
inductive Outcome where
  | halted
  | fault (f : Fault)
  | flushFailed (e : DeviceError)
  deriving DecidableEq, Repr

namespace Machine

/-- The largest number of cells. -/
def maxCells : Nat := 16777216

/-- What an instruction does to a machine. -/
inductive Step where
  | next (m : Machine)
  | stop (m : Machine) (why : Stop)

/-- The cell under the pointer. -/
def locate (pointer : Int64) (cells : Array UInt8) : Except Cause (Fin cells.size) :=
  if h : 0 ≤ pointer.toInt ∧ pointer.toInt.toNat < cells.size then .ok ⟨pointer.toInt.toNat, h.2⟩
  else .error (.pointerRange pointer.toInt cells.size)

/-- Why there is no word to read. -/
def causeOf : Ended → Cause
  | .endOfData => .noInput
  | .device e => .device e
  | .wordTooLong => .wordTooLong

/-- Reads a word and keeps its first character. Output goes out before the prompt does. -/
def readChar (m : Machine) : Machine × Option Cause :=
  match m.words with
  | none => (m, some .inputClosed)
  | some words =>
    match m.output.flush with
    | (output, some e) => ({ m with output }, some (.device e))
    | (output, none) =>
      let output := if m.prompting then output.prompt else output
      match words.next m.source with
      | (.ok word, words, source) =>
        ({ m with output, source, words := some words, acc := Text.initial word }, none)
      | (.error ended, words, source) => ({ m with output, source, words := some words }, some (causeOf ended))

/-- Goes on at an address. -/
def goto (m : Machine) (pc : Nat) : Step :=
  .next { m with pc }

/-- Stops on the current instruction with a fault. -/
def fault (m : Machine) (opcode : UInt8) (cause : Cause) : Step :=
  .stop m (.fault ⟨m.pc, opcode, cause⟩)

/-- Executes an instruction that stands at the program counter. -/
def execute (m : Machine) (i : Instr) : Step :=
  let opcode := i.opcode.toByte
  let next := m.pc + i.length
  match i with
  | .halt => .stop m .halted
  | .alloc n =>
    if maxCells < n.toNat then m.fault opcode .noMemory
    else { m with cells := some (Array.replicate n.toNat 0) }.goto next
  | .reset => { m with pointer := 0 }.goto next
  | .openInput => { m with words := some {} }.goto next
  | .load =>
    match m.cells with
    | none => m.fault opcode .noMemory
    | some cells =>
      match locate m.pointer cells with
      | .error cause => m.fault opcode cause
      | .ok i => { m with acc := cells[i] }.goto next
  | .store =>
    match m.cells with
    | none => m.fault opcode .noMemory
    | some cells =>
      match locate m.pointer cells with
      | .error cause => m.fault opcode cause
      | .ok i => { m with cells := some (cells.set i m.acc) }.goto next
  | .add n => { m with acc := m.acc + n.toUInt8 }.goto next
  | .sub n => { m with acc := m.acc - n.toUInt8 }.goto next
  | .forward => { m with pointer := m.pointer + 1 }.goto next
  | .back => { m with pointer := m.pointer - 1 }.goto next
  | .move delta => { m with pointer := m.pointer + Int64.ofInt (Word.toSigned delta) }.goto next
  | .jump target => m.goto target.toNat
  | .jumpIfZero target => m.goto (if m.acc = 0 then target.toNat else next)
  | .getc =>
    match m.readChar with
    | (m, some cause) => m.fault opcode cause
    | (m, none) => m.goto next
  | .putc =>
    match m.output.put m.acc with
    | (output, some e) => { m with output }.fault opcode (.device e)
    | (output, none) => { m with output }.goto next

/-- Executes the instruction at the program counter. -/
def step (m : Machine) : Step :=
  match Instr.decodeAt m.code m.pc with
  | .error .outside => m.fault Fault.noOpcode .truncated
  | .error (.unknown byte) => m.fault byte .badOpcode
  | .error (.truncated opcode) => m.fault opcode.toByte .truncated
  | .ok i => m.execute i

/-- Executes up to a number of instructions. Nothing is said about a stop if there was none. -/
def exec : Nat → Machine → Machine × Option Stop
  | 0, m => (m, none)
  | n + 1, m =>
    match m.step with
    | .next m => exec n m
    | .stop m why => (m, some why)

/-- Writes what is left of the output of a machine that stopped. Only a machine that halted reports that
this failed. -/
def finish (m : Machine) (why : Stop) : Machine × Outcome :=
  let (output, error) := m.output.flush
  let outcome :=
    match why, error with
    | .fault f, _ => .fault f
    | .halted, some e => .flushFailed e
    | .halted, none => .halted
  ({ m with output }, outcome)

/-- Runs a machine for at most `fuel` instructions. There is no outcome if it would go on. -/
def run (fuel : Nat) (m : Machine) : Machine × Option Outcome :=
  match m.exec fuel with
  | (m, none) => (m, none)
  | (m, some why) =>
    let (m, outcome) := m.finish why
    (m, some outcome)

end Machine

end TapeCode
