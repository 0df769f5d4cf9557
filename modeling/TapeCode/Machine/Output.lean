import TapeCode.Stream.Sink

/-!
Buffered output. Bytes are collected and written in blocks, and a write that failed once makes everything
after it fail. Prompts go out beside the output, and the log keeps both in the order in which they left.
-/

namespace TapeCode

/-- What leaves a machine: the bytes its sink took in one write, or a prompt. -/
inductive Event where
  | output (bytes : List UInt8)
  | prompt
  deriving DecidableEq, Repr

/-- An output device with a buffer in front of it. -/
structure Output where
  sink : Sink := {}
  buffer : Array UInt8 := #[]
  /-- Set by the first write that fails. -/
  broken : Bool := false
  log : Array Event := #[]

namespace Output

/-- The size of the buffer. -/
def capacity : Nat := 4096

/-- The text of a prompt. -/
def promptText : String := "? "

/-- Writes the buffer in one write. What a failing write has taken leaves the buffer, the rest stays. -/
def flush (o : Output) : Output × Option DeviceError :=
  if o.broken then (o, some o.sink.refusal)
  else if o.buffer.isEmpty then (o, none)
  else
    let bytes := o.buffer.toList
    let taken := o.sink.fitting bytes
    let log := o.log.push (.output taken)
    match o.sink.write bytes with
    | (sink, some e) => (⟨sink, o.buffer.extract taken.length o.buffer.size, true, log⟩, some e)
    | (sink, none) => (⟨sink, #[], false, log⟩, none)

/-- Appends a byte to the buffer. -/
def append (o : Output) (b : UInt8) : Output :=
  { o with buffer := o.buffer.push b }

/-- Takes a byte, and makes room for it first if the buffer is full. -/
def put (o : Output) (b : UInt8) : Output × Option DeviceError :=
  if o.broken then (o, some o.sink.refusal)
  else if o.buffer.size < capacity then (o.append b, none)
  else
    match o.flush with
    | (o, some e) => (o, some e)
    | (o, none) => (o.append b, none)

/-- Shows a prompt. -/
def prompt (o : Output) : Output :=
  { o with log := o.log.push .prompt }

end Output

end TapeCode
