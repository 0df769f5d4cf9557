import TapeCode.Text.Blank

/-!
Characters and texts in quotes, as messages show them.
-/

namespace TapeCode.Text

/-- A lower-case hexadecimal digit. -/
def lowerDigit (n : Nat) : Char :=
  if n < 10 then Char.ofNat (48 + n) else Char.ofNat (87 + n)

/-- The last hexadecimal digits of a number, as many as asked for. -/
def lastDigits : Nat → Nat → List Char
  | 0, _ => []
  | count + 1, n => lastDigits count (n / 16) ++ [lowerDigit (n % 16)]

/-- The signs that only steer the text around them, from the first to the last of each range. -/
def steering : List (Nat × Nat) :=
  [(0xAD, 0xAD), (0x600, 0x605), (0x61C, 0x61C), (0x6DD, 0x6DD), (0x70F, 0x70F), (0x890, 0x891), (0x8E2, 0x8E2),
    (0x180E, 0x180E), (0x200B, 0x200F), (0x202A, 0x202E), (0x2060, 0x206F), (0xFEFF, 0xFEFF), (0xFFF0, 0xFFFB),
    (0x110BD, 0x110BD), (0x110CD, 0x110CD), (0x13430, 0x1343F), (0x1BCA0, 0x1BCA3), (0x1D173, 0x1D17A),
    (0xE0000, 0xE007F)]

/-- Whether a character stands for private use. -/
def isPrivate (n : Nat) : Bool :=
  (0xE000 ≤ n && n ≤ 0xF8FF) || 0xF0000 ≤ n

/-- Whether a character can be shown as it is: it is no control character, no white space but the space, and
neither a sign that only steers nor private. -/
def isShown (n : Nat) : Bool :=
  n == 0x20 || !(n < 0x20 || (0x7F ≤ n && n ≤ 0x9F) || isBlank n || isPrivate n ||
    steering.any fun (first, last) => first ≤ n && n ≤ last)

/-- A character inside quotes: the quote and the backslash stand behind a backslash, some have a letter there,
and what cannot be shown is written by its number. -/
def escaped (quote c : Char) : String :=
  if c = quote ∨ c = '\\' then String.ofList ['\\', c]
  else
    match c.toNat with
    | 0x07 => "\\a"
    | 0x08 => "\\b"
    | 0x0C => "\\f"
    | 0x0A => "\\n"
    | 0x0D => "\\r"
    | 0x09 => "\\t"
    | 0x0B => "\\v"
    | n =>
      if isShown n then String.singleton c
      else if n < 0x80 then "\\x" ++ String.ofList (lastDigits 2 n)
      else if n < 0x10000 then "\\u" ++ String.ofList (lastDigits 4 n)
      else "\\U" ++ String.ofList (lastDigits 8 n)

/-- The single quote. -/
def singleQuote : Char := Char.ofNat 0x27

/-- The double quote. -/
def doubleQuote : Char := Char.ofNat 0x22

/-- A character below 256 in single quotes. -/
def quoted (b : UInt8) : String :=
  "'" ++ escaped singleQuote (Char.ofNat b.toNat) ++ "'"

/-- A text in double quotes. -/
def quotedText (text : String) : String :=
  "\"" ++ String.join (text.toList.map (escaped doubleQuote)) ++ "\""

end TapeCode.Text
