/-!
Byte sources. A source hands out its bytes in chunks of its own choosing and then ends, either because
the data is over or because the device fails. What a caller asks for and what it gets are kept apart, so
that "the division into chunks does not matter" is a statement about a caller.
-/

namespace TapeCode

/-- A failing device, with the text it reports. -/
structure DeviceError where
  message : String
  deriving DecidableEq, Repr

/-- The bytes still to come, and the failure that follows them, if any. -/
structure Source where
  chunks : List (List UInt8)
  failure : Option DeviceError := none

namespace Source

/-- A source of all the bytes at once. -/
def ofBytes (bytes : List UInt8) (failure : Option DeviceError := none) : Source :=
  ⟨[bytes], failure⟩

/-- All bytes still to come. -/
def bytes (s : Source) : List UInt8 :=
  s.chunks.flatten

/-- The number of bytes still to come. -/
def remaining (s : Source) : Nat :=
  s.bytes.length

/-- At most `limit` bytes of the first chunk that has any. -/
def readChunk (limit : Nat) : List (List UInt8) → Option (List UInt8 × List (List UInt8))
  | [] => none
  | [] :: chunks => readChunk limit chunks
  | chunk :: chunks => some (chunk.take limit, chunk.drop limit :: chunks)

/-- One read: at most `limit` bytes, never more than what is left of the current chunk; `none` at the
end of the source. -/
def read (s : Source) (limit : Nat) : Option (List UInt8 × Source) :=
  (readChunk limit s.chunks).map fun (bytes, chunks) => (bytes, { s with chunks })

/-- The first `n` bytes of some chunks, or all bytes if there are fewer, and the chunks after them. -/
def gatherChunks (n : Nat) : List (List UInt8) → List UInt8 × List (List UInt8)
  | [] => ([], [])
  | chunk :: chunks =>
    if n ≤ chunk.length then (chunk.take n, chunk.drop n :: chunks)
    else
      let (more, rest) := gatherChunks (n - chunk.length) chunks
      (chunk ++ more, rest)

/-- Reads until there are `n` bytes or the source ends. -/
def gather (s : Source) (n : Nat) : List UInt8 × Source :=
  let (bytes, chunks) := gatherChunks n s.chunks
  (bytes, { s with chunks })

/-- Reads to the end. -/
def readAll (s : Source) : Except DeviceError (List UInt8) :=
  match s.failure with
  | none => .ok s.bytes
  | some e => .error e

theorem length_flatten_readChunk {limit : Nat} {chunks rest : List (List UInt8)} {bytes : List UInt8}
    (pos : 0 < limit) (h : readChunk limit chunks = some (bytes, rest)) :
    rest.flatten.length < chunks.flatten.length := by
  fun_induction readChunk limit chunks with
  | case1 => contradiction
  | case2 chunks ih => simpa using ih h
  | case3 chunk chunks nonempty =>
    obtain ⟨-, rfl⟩ := Prod.mk.inj (Option.some.inj h)
    have : 0 < chunk.length := List.length_pos_iff.mpr nonempty
    simp only [List.flatten_cons, List.length_append, List.length_drop]
    omega

/-- A read of at least one byte leaves fewer bytes to come. -/
theorem remaining_read {s rest : Source} {limit : Nat} {bytes : List UInt8}
    (pos : 0 < limit) (h : s.read limit = some (bytes, rest)) : rest.remaining < s.remaining := by
  obtain ⟨⟨taken, chunks⟩, hread, heq⟩ := Option.map_eq_some_iff.mp h
  obtain ⟨-, rfl⟩ := Prod.mk.inj heq
  exact length_flatten_readChunk pos hread

end Source

end TapeCode
