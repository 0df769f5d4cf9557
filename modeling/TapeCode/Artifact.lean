import TapeCode.Program
import TapeCode.Word
import TapeCode.Stream.Sink
import TapeCode.Text.Numeral

/-!
The artifact: a program as a file. Twelve bytes of header (four of magic, the version, two reserved bytes,
the length of the code, all little-endian) and the code. Reading takes exactly the bytes of the artifact
from its source and no byte behind it.
-/

namespace TapeCode

/-- Why a byte source holds no artifact. -/
inductive ReadError where
  /-- The magic is missing. -/
  | badMagic
  /-- The data ends inside the header. -/
  | cutHeader
  | unsupportedVersion (version : UInt16)
  | tooLarge (length : Nat)
  /-- The data ends behind the header, and the header announces code. -/
  | noCode
  /-- The data ends inside the code. -/
  | cutCode
  /-- The device fails in the header. -/
  | header (e : DeviceError)
  /-- The device fails in the code. -/
  | code (e : DeviceError)
  deriving DecidableEq, Repr

/-- The text of the error. -/
def ReadError.message : ReadError → String
  | badMagic => "not a bf.bin file"
  | cutHeader => "unexpected EOF"
  | unsupportedVersion version => "unsupported version " ++ Text.decimal version.toNat
  | tooLarge length => "code section too large: " ++ Text.decimal length ++ " bytes"
  | noCode => "reading code section: EOF"
  | cutCode => "reading code section: unexpected EOF"
  | header e => e.message
  | code e => "reading code section: " ++ e.message

namespace Artifact

/-- The first four bytes, `BFX1`. -/
def magic : List UInt8 := [0x42, 0x46, 0x58, 0x31]

/-- The length of the header. -/
def headerSize : Nat := 12

/-- The longest code that is read back. -/
def maxCodeSize : Nat := 1073741824

/-- The header of a program. The length of the code is kept modulo 2^32. -/
def header (p : Program) : List UInt8 :=
  magic ++ Word.bytes16 p.version ++ [0, 0] ++ Word.bytes32 (UInt32.ofNat p.code.size)

/-- The bytes of a program. -/
def encode (p : Program) : List UInt8 :=
  header p ++ p.code.toList

/-- How a write of an artifact went: the count of bytes it reports, and its failure. -/
structure Written where
  count : Nat
  error : Option DeviceError

/-- Writes a program in two writes, header and code. A header that fails counts for nothing, even if a part
of it was taken. -/
def write (p : Program) (sink : Sink) : Written × Sink :=
  match sink.write (header p) with
  | (sink, some e) => (⟨0, some e⟩, sink)
  | (sink, none) =>
    let code := p.code.toList
    let taken := (sink.fitting code).length
    let (sink, error) := sink.write code
    (⟨headerSize + taken, error⟩, sink)

/-- Judges a complete header: the length of the code that follows. The two reserved bytes are not looked
at. -/
def checkHeader : List UInt8 → Except ReadError Nat
  | [m0, m1, m2, m3, v0, v1, _, _, l0, l1, l2, l3] =>
    let version := Word.ofBytes16 v0 v1
    let length := (Word.ofBytes32 l0 l1 l2 l3).toNat
    if [m0, m1, m2, m3] ≠ magic then .error .badMagic
    else if version ≠ Program.currentVersion then .error (.unsupportedVersion version)
    else if maxCodeSize < length then .error (.tooLarge length)
    else .ok length
  | _ => .error .cutHeader

/-- Reads the code behind a header. -/
def readCode (length : Nat) (source : Source) : Except ReadError Program × Source :=
  let (code, rest) := source.gather length
  if code.length < length then
    match rest.failure, code with
    | some e, _ => (.error (.code e), rest)
    | none, [] => (.error .noCode, rest)
    | none, _ :: _ => (.error .cutCode, rest)
  else (.ok ⟨Program.currentVersion, code.toArray⟩, rest)

/-- Reads a program, and gives back what follows it in the source. -/
def read (source : Source) : Except ReadError Program × Source :=
  let (bytes, rest) := source.gather headerSize
  if bytes.length < headerSize then
    match rest.failure, bytes with
    | some e, _ => (.error (.header e), rest)
    | none, [] => (.error .badMagic, rest)
    | none, _ :: _ => (.error .cutHeader, rest)
  else
    match checkHeader bytes with
    | .error e => (.error e, rest)
    | .ok length => readCode length rest

end Artifact

end TapeCode
