import TapeCode.Stream.Source
import TapeCode.Text.Words

/-!
Reading a source word by word through a buffer. The buffer starts small and is doubled while a word does not
fit, up to a limit: a longer word is an error. The buffer shows only in how much of the source has been read
and in which words are too long.
-/

namespace TapeCode

/-- Why a word reader reads no further. -/
inductive Ended where
  /-- The data is over. -/
  | endOfData
  | device (e : DeviceError)
  /-- A word does not fit into the largest buffer. -/
  | wordTooLong
  deriving DecidableEq, Repr

/-- A buffer on a source. The data held ends at `finish` and is preceded by what was used up. -/
structure WordReader where
  capacity : Nat := 0
  finish : Nat := 0
  held : List UInt8 := []
  ended : Option Ended := none
  deriving DecidableEq, Repr

namespace WordReader

/-- The first size of a buffer. -/
def initialCapacity : Nat := 4096

/-- The largest size of a buffer. -/
def maxCapacity : Nat := 65536

/-- Where the data held starts. -/
def start (r : WordReader) : Nat :=
  r.finish - r.held.length

/-- Moves the data to the front, if the buffer is full behind it or mostly empty before it. -/
def compact (r : WordReader) : WordReader :=
  if 0 < r.start ∧ (r.finish = r.capacity ∨ r.capacity / 2 < r.start) then
    { r with finish := r.held.length }
  else r

/-- Moves the data to the front of a larger buffer. -/
def grow (r : WordReader) : WordReader :=
  { r with
    capacity := if r.capacity = 0 then initialCapacity else 2 * r.capacity
    finish := r.held.length }

/-- A buffer with room behind the data; `none` if it is full and as large as it gets. -/
def makeRoom (r : WordReader) : Option WordReader :=
  let r := r.compact
  if r.finish < r.capacity then some r
  else if r.capacity < maxCapacity then some r.grow
  else none

/-- How many bytes the next read asks for: as many as there is room for behind the data, and always one. -/
def room (r : WordReader) : Nat :=
  max 1 (r.capacity - r.finish)

/-- Adds bytes behind the data. -/
def fill (r : WordReader) (bytes : List UInt8) : WordReader :=
  { r with held := r.held ++ bytes, finish := r.finish + bytes.length }

/-- A word out of the data that is left when nothing more comes. Without a word the data is dropped. -/
def lastWord (r : WordReader) (ended : Ended) : Except Ended (List UInt8) × WordReader :=
  let r := { r with ended := some ended }
  match Text.cutWord r.held with
  | some (word, rest) => (.ok word, { r with held := rest })
  | none =>
    match Text.dropBlanks r.held with
    | [] => (.error ended, { r with held := [], finish := 0 })
    | b :: word => (.ok (b :: word), { r with held := [] })

/-- Why the source has no more bytes. -/
def endOf (source : Source) : Ended :=
  match source.failure with
  | none => .endOfData
  | some e => .device e

/-- Looks for a word in the data, and reads more as long as there is none. -/
def seek (r : WordReader) (source : Source) : Except Ended (List UInt8) × WordReader × Source :=
  match Text.cutWord r.held with
  | some (word, rest) => (.ok word, { r with held := rest }, source)
  | none =>
    let trimmed := { r with held := Text.dropBlanks r.held }
    match trimmed.makeRoom with
    | none => (.error .wordTooLong, { trimmed with ended := some .wordTooLong }, source)
    | some r =>
      match _h : source.read r.room with
      | some (bytes, source) => seek (r.fill bytes) source
      | none =>
        let (word, r) := r.lastWord (endOf source)
        (word, r, source)
termination_by source.remaining
decreasing_by exact Source.remaining_read (Nat.le_max_left 1 _) _h

/-- The next word of the source. -/
def next (r : WordReader) (source : Source) : Except Ended (List UInt8) × WordReader × Source :=
  match r.ended with
  | none => r.seek source
  | some ended =>
    let (word, r) := r.lastWord ended
    (word, r, source)

end WordReader

end TapeCode
