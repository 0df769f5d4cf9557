import TapeCode.Token
import TapeCode.Stream.Source

/-!
Scanning: from the bytes of a source to its tokens. Lines are counted from one, and a newline belongs to
the line it ends.
-/

namespace TapeCode.Token

/-- The tokens of the bytes that follow, after those already found. -/
def scanFrom (line : Int) (found : Array Token) : List UInt8 → Array Token
  | [] => found.push ⟨.endMark, 0, line⟩
  | b :: rest =>
    if b = 0x0A then scanFrom (line + 1) found rest
    else
      match Kind.ofByte? b with
      | some kind => scanFrom line (found.push ⟨kind, b, line⟩) rest
      | none => scanFrom line found rest

/-- The tokens of a source text, closed by one end mark on the last line. -/
def scan (source : List UInt8) : List Token :=
  (scanFrom 1 #[] source).toList

/-- Scans all that a source delivers. Only a failing device stops it. -/
def scanSource (source : Source) : Except DeviceError (List Token) :=
  source.readAll.map scan

end TapeCode.Token
