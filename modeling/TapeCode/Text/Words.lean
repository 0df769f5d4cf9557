import TapeCode.Text.Blank
import TapeCode.Text.Utf8

/-!
Words: runs of characters that are not white space, in bytes read as UTF-8.
-/

namespace TapeCode.Text

/-- The bytes from the first character on that is not white space. -/
def dropBlanks : List UInt8 → List UInt8
  | [] => []
  | b :: rest =>
    let c := firstChar b rest
    if isBlank c.code then dropBlanks (rest.drop (c.width - 1)) else b :: rest
termination_by bytes => bytes.length
decreasing_by
  simp only [List.length_cons, List.length_drop]
  omega

/-- The bytes before the first white space, behind those already collected, and the bytes behind it; `none`
if there is no white space. -/
def cutAtBlank (word : Array UInt8) : List UInt8 → Option (List UInt8 × List UInt8)
  | [] => none
  | b :: rest =>
    let c := firstChar b rest
    let after := rest.drop (c.width - 1)
    if isBlank c.code then some (word.toList, after)
    else cutAtBlank (word.push b ++ rest.take (c.width - 1)) after
termination_by bytes => bytes.length
decreasing_by
  simp only [List.length_cons, List.length_drop]
  omega

/-- The first word that white space ends, and the bytes behind that white space. -/
def cutWord (bytes : List UInt8) : Option (List UInt8 × List UInt8) :=
  cutAtBlank #[] (dropBlanks bytes)

/-- The low eight bits of the first character of a word. -/
def initial : List UInt8 → UInt8
  | [] => UInt8.ofNat replacement.code
  | b :: rest => UInt8.ofNat (firstChar b rest).code

end TapeCode.Text
