/-!
Words as bytes, the least significant byte first. Values go through natural numbers, so that the round trip
is a fact of linear arithmetic.
-/

namespace TapeCode.Word

/-- The two bytes of a 16-bit word. -/
def bytes16 (w : UInt16) : List UInt8 :=
  [UInt8.ofNat w.toNat, UInt8.ofNat (w.toNat / 256)]

/-- The 16-bit word of two bytes. -/
def ofBytes16 (a b : UInt8) : UInt16 :=
  UInt16.ofNat (a.toNat + 256 * b.toNat)

/-- The four bytes of a 32-bit word. -/
def bytes32 (w : UInt32) : List UInt8 :=
  [UInt8.ofNat w.toNat, UInt8.ofNat (w.toNat / 256), UInt8.ofNat (w.toNat / 65536),
    UInt8.ofNat (w.toNat / 16777216)]

/-- The 32-bit word of four bytes. -/
def ofBytes32 (a b c d : UInt8) : UInt32 :=
  UInt32.ofNat (a.toNat + 256 * b.toNat + 65536 * c.toNat + 16777216 * d.toNat)

theorem ofBytes32_bytes32 (w : UInt32) :
    ofBytes32 (UInt8.ofNat w.toNat) (UInt8.ofNat (w.toNat / 256)) (UInt8.ofNat (w.toNat / 65536))
      (UInt8.ofNat (w.toNat / 16777216)) = w := by
  have := w.toNat_lt
  apply UInt32.toNat_inj.mp
  simp only [ofBytes32, UInt8.toNat_ofNat', UInt32.toNat_ofNat']
  omega

theorem toNat_ofBytes16 (a b : UInt8) : (ofBytes16 a b).toNat = a.toNat + 256 * b.toNat := by
  have := a.toNat_lt
  have := b.toNat_lt
  rw [ofBytes16, UInt16.toNat_ofNat']
  omega

theorem toNat_ofBytes32 (a b c d : UInt8) :
    (ofBytes32 a b c d).toNat = a.toNat + 256 * b.toNat + 65536 * c.toNat + 16777216 * d.toNat := by
  have := a.toNat_lt
  have := b.toNat_lt
  have := c.toNat_lt
  have := d.toNat_lt
  rw [ofBytes32, UInt32.toNat_ofNat']
  omega

theorem bytes32_ofBytes32 (a b c d : UInt8) : bytes32 (ofBytes32 a b c d) = [a, b, c, d] := by
  have ha := a.toNat_lt
  have hb := b.toNat_lt
  have hc := c.toNat_lt
  have hd := d.toNat_lt
  rw [bytes32, toNat_ofBytes32]
  simp only [List.cons.injEq, ← UInt8.toNat_inj, UInt8.toNat_ofNat']
  refine ⟨?_, ?_, ?_, ?_, trivial⟩ <;> omega

/-- A number modulo 2^32, negative ones included. -/
def ofInt (n : Int) : UInt32 :=
  UInt32.ofNat (n % 4294967296).toNat

/-- A word read as a signed number. -/
def toSigned (w : UInt32) : Int :=
  if w.toNat < 2147483648 then w.toNat else w.toNat - 4294967296

/-- A word has room for every signed number of 32 bits. -/
theorem toSigned_ofInt {n : Int} (low : -2147483648 ≤ n) (high : n < 2147483648) :
    toSigned (ofInt n) = n := by
  simp only [toSigned, ofInt, UInt32.toNat_ofNat']
  split <;> omega

end TapeCode.Word
