import TapeCode.Instr

/-!
Decoding undoes encoding: wherever the bytes of an instruction stand in some code, the instruction that starts at
their address is that instruction. Encoding undoes decoding, too (`Instr.encode_of_decodeAt`). What any other address
has to do with the code is said by `Instr.Reads`.
-/

namespace TapeCode

theorem Opcode.toByte_of_ofByte? {b : UInt8} {op : Opcode} (h : ofByte? b = some op) : op.toByte = b := by
  apply UInt8.toNat_inj.mp
  unfold ofByte? at h
  split at h <;> cases h <;> symm <;> assumption

namespace Instr

/-- The address that an instruction may jump to. -/
def target? : Instr → Option UInt32
  | jump target | jumpIfZero target => some target
  | halt | alloc _ | reset | openInput | load | store | add _ | sub _ | forward | back | move _ | getc | putc => none

section Decode
variable {code : Array UInt8} {pc : Nat} {op : Opcode} {a b c d : UInt8}

theorem decodeAt_outside (h : code.size ≤ pc) : decodeAt code pc = .error .outside := by
  rw [decodeAt, dif_neg (Nat.not_lt.mpr h)]

theorem decodeAt_plain (hop : op.hasOperand = false) (h : code[pc]? = some op.toByte) :
    decodeAt code pc = .ok (ofParts op 0) := by
  obtain ⟨hlt, hbyte⟩ := Array.getElem?_eq_some_iff.mp h
  simp [decodeAt, hlt, hbyte, hop]

theorem decodeAt_operand (hop : op.hasOperand = true) (h : code[pc]? = some op.toByte)
    (ha : code[pc + 1]? = some a) (hb : code[pc + 2]? = some b) (hc : code[pc + 3]? = some c)
    (hd : code[pc + 4]? = some d) : decodeAt code pc = .ok (ofParts op (Word.ofBytes32 a b c d)) := by
  obtain ⟨hlt, hbyte⟩ := Array.getElem?_eq_some_iff.mp h
  obtain ⟨_, ha⟩ := Array.getElem?_eq_some_iff.mp ha
  obtain ⟨_, hb⟩ := Array.getElem?_eq_some_iff.mp hb
  obtain ⟨_, hc⟩ := Array.getElem?_eq_some_iff.mp hc
  obtain ⟨hlt', hd⟩ := Array.getElem?_eq_some_iff.mp hd
  simp [decodeAt, hlt, hlt', hbyte, hop, ha, hb, hc, hd]

end Decode

theorem hasOperand_opcode (i : Instr) : i.opcode.hasOperand = i.operand?.isSome := by
  cases i <;> rfl

theorem opcode_ofParts (op : Opcode) (w : UInt32) : (ofParts op w).opcode = op := by
  cases op <;> rfl

theorem ofParts_opcode {i : Instr} {w : UInt32} (h : i.operand? = some w) : ofParts i.opcode w = i := by
  cases i <;> cases h <;> rfl

theorem ofParts_opcode_of_none {i : Instr} (h : i.operand? = none) (w : UInt32) : ofParts i.opcode w = i := by
  cases i <;> cases h <;> rfl

theorem getElem?_of_toList {code : Array UInt8} {pre tail : List UInt8} (h : code.toList = pre ++ tail) (k : Nat) :
    code[pre.length + k]? = tail[k]? := by
  rw [← Array.getElem?_toList, h, List.getElem?_append_right (Nat.le_add_right _ _), Nat.add_sub_cancel_left]

/-- An instruction is read back from the place where it was written. -/
theorem decodeAt_encode {code : Array UInt8} {i : Instr} {pre post : List UInt8}
    (h : code.toList = pre ++ (i.encode ++ post)) : decodeAt code pre.length = .ok i := by
  have hbyte := getElem?_of_toList h
  cases hw : i.operand? with
  | none =>
    have hop : i.opcode.hasOperand = false := by rw [hasOperand_opcode, hw, Option.isSome_none]
    have h0 : code[pre.length]? = some i.opcode.toByte := by simpa [encode] using hbyte 0
    rw [decodeAt_plain hop h0, ofParts_opcode_of_none hw]
  | some w =>
    have hop : i.opcode.hasOperand = true := by rw [hasOperand_opcode, hw, Option.isSome_some]
    have h0 : code[pre.length]? = some i.opcode.toByte := by simpa [encode] using hbyte 0
    have h1 := hbyte 1
    have h2 := hbyte 2
    have h3 := hbyte 3
    have h4 := hbyte 4
    simp only [encode, hw, Option.map_some, Option.getD_some, Word.bytes32, List.cons_append, List.nil_append,
      List.getElem?_cons_succ, List.getElem?_cons_zero] at h1 h2 h3 h4
    rw [decodeAt_operand hop h0 h1 h2 h3 h4, Word.ofBytes32_bytes32, ofParts_opcode hw]

theorem encode_ofParts_operand {op : Opcode} (h : op.hasOperand = true) (w : UInt32) :
    (ofParts op w).encode = op.toByte :: Word.bytes32 w := by
  cases op <;> first | rfl | cases h

theorem encode_ofParts_plain {op : Opcode} (h : op.hasOperand = false) (w : UInt32) :
    (ofParts op w).encode = [op.toByte] := by
  cases op <;> first | rfl | cases h

/-- What is read as an instruction are the bytes of that instruction. -/
theorem encode_of_decodeAt {code : Array UInt8} {pc : Nat} {i : Instr} (h : decodeAt code pc = .ok i) :
    code.toList.drop pc = i.encode ++ code.toList.drop (pc + i.length) := by
  have hdrop {k : Nat} (hk : k < code.size) : code.toList.drop k = code[k] :: code.toList.drop (k + 1) := by
    rw [List.drop_eq_getElem_cons (by rwa [Array.length_toList]), Array.getElem_toList]
  rw [← length_encode]
  unfold decodeAt at h
  split at h
  · next hlt =>
    split at h
    · cases h
    · next op hop =>
      have hbyte := Opcode.toByte_of_ofByte? hop
      split at h
      · next hoperand =>
        split at h
        · next hfits =>
          cases h
          rw [encode_ofParts_operand hoperand, Word.bytes32_ofBytes32, hbyte, hdrop hlt, hdrop (by omega),
            hdrop (by omega), hdrop (by omega), hdrop hfits]
          rfl
        · cases h
      · next hplain =>
        cases h
        rw [encode_ofParts_plain (Bool.eq_false_iff.mpr hplain), hbyte, hdrop hlt]
        rfl
  · cases h

/-- How an address stands to the code, by what is read there. -/
def Reads (code : Array UInt8) (pc : Nat) : Except DecodeError Instr → Prop
  | .ok i => code[pc]? = some i.opcode.toByte ∧ pc + i.length ≤ code.size
  | .error .outside => code[pc]? = none
  | .error (.unknown byte) => code[pc]? = some byte ∧ Opcode.ofByte? byte = none
  | .error (.truncated op) => code[pc]? = some op.toByte ∧ code.size < pc + op.length

theorem reads_decodeAt (code : Array UInt8) (pc : Nat) : Reads code pc (decodeAt code pc) := by
  unfold decodeAt
  split
  · next hlt =>
    have hbyte := Array.getElem?_eq_getElem hlt
    split
    · next hunknown => exact ⟨hbyte, hunknown⟩
    · next op hop =>
      rw [← Opcode.toByte_of_ofByte? hop] at hbyte
      split
      · next hoperand =>
        have hlength : op.length = 5 := if_pos hoperand
        split
        · next hfits => exact ⟨by rw [hbyte, opcode_ofParts], by rw [length, opcode_ofParts, hlength]; exact hfits⟩
        · next hshort => exact ⟨hbyte, by rw [hlength]; exact Nat.lt_succ_of_le (Nat.not_lt.mp hshort)⟩
      · next hplain =>
        have hlength : op.length = 1 := if_neg hplain
        exact ⟨by rw [hbyte, opcode_ofParts], by rw [length, opcode_ofParts, hlength]; exact hlt⟩
  · next hge => exact Array.getElem?_eq_none (Nat.not_lt.mp hge)

end Instr

end TapeCode
