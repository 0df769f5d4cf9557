/-!
The first character of a byte sequence in UTF-8. A byte that does not start a well-formed character, or
whose character is cut off, counts as a replacement character of its own.
-/

namespace TapeCode.Text

/-- A character and the number of bytes it takes. -/
structure Decoded where
  code : Nat
  width : Nat
  deriving DecidableEq, Repr

/-- The replacement character, for one byte that is not UTF-8. -/
def replacement : Decoded := ⟨0xFFFD, 1⟩

/-- Whether a byte lies in a range. -/
def within (low high : Nat) (b : UInt8) : Bool :=
  low ≤ b.toNat && b.toNat ≤ high

/-- Whether a byte may continue a character. -/
def continues (b : UInt8) : Bool :=
  within 0x80 0xBF b

/-- The low six bits of a byte that continues a character. -/
def payload (b : UInt8) : Nat :=
  b.toNat % 64

/-- A character of two bytes. -/
def decode2 (a : UInt8) : List UInt8 → Decoded
  | b :: _ => if continues b then ⟨a.toNat % 32 * 64 + payload b, 2⟩ else replacement
  | _ => replacement

/-- A character of three bytes, the second one in a range. -/
def decode3 (low high : Nat) (a : UInt8) : List UInt8 → Decoded
  | b :: c :: _ =>
    if within low high b && continues c then
      ⟨a.toNat % 16 * 4096 + payload b * 64 + payload c, 3⟩
    else replacement
  | _ => replacement

/-- A character of four bytes, the second one in a range. -/
def decode4 (low high : Nat) (a : UInt8) : List UInt8 → Decoded
  | b :: c :: d :: _ =>
    if within low high b && continues c && continues d then
      ⟨a.toNat % 8 * 262144 + payload b * 4096 + payload c * 64 + payload d, 4⟩
    else replacement
  | _ => replacement

/-- The character that starts with a byte `a`, followed by `rest`. The ranges of the second byte leave out
overlong forms, surrogates and what lies beyond the last code point. -/
def firstChar (a : UInt8) (rest : List UInt8) : Decoded :=
  if a.toNat < 0x80 then ⟨a.toNat, 1⟩
  else if within 0xC2 0xDF a then decode2 a rest
  else if a = 0xE0 then decode3 0xA0 0xBF a rest
  else if a = 0xED then decode3 0x80 0x9F a rest
  else if within 0xE1 0xEF a then decode3 0x80 0xBF a rest
  else if a = 0xF0 then decode4 0x90 0xBF a rest
  else if within 0xF1 0xF3 a then decode4 0x80 0xBF a rest
  else if a = 0xF4 then decode4 0x80 0x8F a rest
  else replacement

end TapeCode.Text
