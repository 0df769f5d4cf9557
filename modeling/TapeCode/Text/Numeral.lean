/-!
Numbers as text: digits in a base, decimal numbers with a sign, and the hexadecimal addresses that
listings and fault reports show.
-/

namespace TapeCode.Text

/-- The character of a digit below sixteen; letters are upper case. -/
def digit (n : Nat) : Char :=
  if n < 10 then Char.ofNat (48 + n) else Char.ofNat (55 + n)

/-- The digits of `n` in a base, the most significant one first. Zero has one digit. -/
def digits (base n : Nat) : List Char :=
  if base < 2 ∨ n < base then [digit n]
  else digits base (n / base) ++ [digit (n % base)]
termination_by n
decreasing_by exact Nat.div_lt_self (by omega) (by omega)

/-- Zeros in front bring a numeral to a width; a longer one stays as it is. -/
def zeroPadded (width : Nat) (numeral : List Char) : List Char :=
  List.replicate (width - numeral.length) '0' ++ numeral

/-- A number in decimal. -/
def decimal (n : Nat) : String :=
  String.ofList (digits 10 n)

/-- A signed number in decimal; only a negative one shows its sign. -/
def signedDecimal : Int → String
  | .ofNat n => decimal n
  | .negSucc n => "-" ++ decimal (n + 1)

/-- A number in hexadecimal, of at least the given width. -/
def hex (width n : Nat) : String :=
  String.ofList (zeroPadded width (digits 16 n))

/-- A signed number in hexadecimal. The sign counts towards the width. -/
def signedHex (width : Nat) : Int → String
  | .ofNat n => hex width n
  | .negSucc n => "-" ++ hex (width - 1) (n + 1)

/-- A code address: `0x` and at least four digits. -/
def address (pc : Nat) : String :=
  "0x" ++ hex 4 pc

/-- A byte: `0x` and two digits. -/
def byte (b : UInt8) : String :=
  "0x" ++ hex 2 b.toNat

/-- The bytes of a text in UTF-8. -/
def utf8 (text : String) : List UInt8 :=
  text.toUTF8.data.toList

end TapeCode.Text
