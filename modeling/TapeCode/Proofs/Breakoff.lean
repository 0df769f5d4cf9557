import TapeCode.Proofs.Stream

/-!
Where a listing breaks off. Code starts with complete instructions one behind the other, as many as there are
(`Listing.exists_stop`). A listing shows these and no more: in many writes it leaves in its sink what one write of the whole
text would leave, and only if all of it was taken the bytes behind it are complained of (`Listing.writeFrom_stream`).
-/

namespace TapeCode

open Instr

/-! ### Complete instructions -/

namespace Instr

/-- The opcodes that an operand follows: `ALLOC`, `ADD`, `SUB`, `MOVE`, `JMP` and `JZ`. -/
def operandBytes : List UInt8 := [0x01, 0x06, 0x07, 0x0A, 0x0B, 0x0C]

/-- Bytes are a complete instruction: an opcode, and four bytes behind it just if it is one that an operand follows. -/
def Complete (part : List UInt8) : Prop :=
  ∃ b operand, part = b :: operand ∧ b ≤ 0x0E ∧ operand.length = if b ∈ operandBytes then 4 else 0

/-- Bytes are complete instructions in a row. -/
def Sequence (bytes : List UInt8) : Prop :=
  ∃ parts : List (List UInt8), (∀ part ∈ parts, Complete part) ∧ bytes = parts.flatten

end Instr

namespace Opcode

theorem toByte_le (op : Opcode) : op.toByte ≤ 0x0E := by
  cases op <;> decide

theorem ofByte?_eq_none {b : UInt8} : ofByte? b = none ↔ 0x0E < b := by
  rw [UInt8.lt_iff_toNat_lt]
  unfold ofByte?
  split <;> simp_all
  omega

theorem hasOperand_iff (op : Opcode) : op.hasOperand = true ↔ op.toByte ∈ operandBytes := by
  cases op <;> decide

end Opcode

namespace Instr

theorem complete_encode (i : Instr) : Complete i.encode := by
  refine ⟨i.opcode.toByte, _, rfl, i.opcode.toByte_le, ?_⟩
  simp only [← Opcode.hasOperand_iff, hasOperand_opcode]
  cases i.operand? <;> rfl

theorem exists_of_complete {part : List UInt8} (h : Complete part) : ∃ i : Instr, i.encode = part := by
  obtain ⟨b, operand, rfl, hb, hlength⟩ := h
  obtain ⟨op, hop⟩ : ∃ op, Opcode.ofByte? b = some op := by
    rw [← Option.ne_none_iff_exists', Ne, Opcode.ofByte?_eq_none]
    exact UInt8.not_lt.mpr hb
  obtain rfl := Opcode.toByte_of_ofByte? hop
  simp only [← Opcode.hasOperand_iff] at hlength
  cases hoperand : op.hasOperand with
  | true =>
    rw [hoperand, if_pos rfl] at hlength
    match operand, hlength with
    | [a, b, c, d], _ =>
      refine ⟨ofParts op (Word.ofBytes32 a b c d), ?_⟩
      rw [encode_ofParts_operand hoperand, Word.bytes32_ofBytes32]
  | false =>
    rw [hoperand, if_neg Bool.false_ne_true, List.length_eq_zero_iff] at hlength
    subst hlength
    exact ⟨ofParts op 0, encode_ofParts_plain hoperand 0⟩

/-- Bytes are complete instructions in a row just if some instructions are encoded to them. -/
theorem sequence_iff {bytes : List UInt8} : Sequence bytes ↔ ∃ is, bytes = stream is := by
  constructor
  · rintro ⟨parts, hparts, rfl⟩
    induction parts with
    | nil => exact ⟨[], rfl⟩
    | cons part parts ih =>
      obtain ⟨is, his⟩ := ih fun p hp => hparts p (List.mem_cons_of_mem part hp)
      obtain ⟨i, rfl⟩ := exists_of_complete (hparts part List.mem_cons_self)
      exact ⟨i :: is, by rw [List.flatten_cons, his, stream_cons]⟩
  · rintro ⟨is, rfl⟩
    refine ⟨is.map encode, ?_, List.flatMap_def⟩
    intro part hpart
    obtain ⟨i, -, rfl⟩ := List.mem_map.mp hpart
    exact complete_encode i

end Instr

/-! ### The listing of what is complete -/

namespace Listing

/-- What a listing complains of at an address where it finds no instruction. At the end of the code that is nothing. -/
def problem (pc : Nat) : DecodeError → Option ListingError
  | .outside => none
  | .unknown byte => some (.unknownOpcode pc byte)
  | .truncated opcode => some (.truncatedOperand pc opcode)

/-- What is complained of at an address, by the bytes from there on. -/
inductive Complains (pc : Nat) : List UInt8 → Option ListingError → Prop where
  | nothing : Complains pc [] none
  | unknown {b : UInt8} {tail : List UInt8} (hb : 0x0E < b) : Complains pc (b :: tail) (some (.unknownOpcode pc b))
  | truncated {op : Opcode} {tail : List UInt8} : Complains pc (op.toByte :: tail) (some (.truncatedOperand pc op))

/-- Code starts with instructions in a row, and behind them there is none. -/
structure Stop (code : Array UInt8) (is : List Instr) (rest : List UInt8) (e : DecodeError) : Prop where
  split : code.toList = stream is ++ rest
  stop : decodeAt code (stream is).length = .error e

section Stop
variable {code : Array UInt8} {is : List Instr} {rest : List UInt8} {e : DecodeError}

theorem exists_stop_from (code : Array UInt8) (pc : Nat) :
    ∃ is rest e, code.toList.drop pc = stream is ++ rest ∧ decodeAt code (pc + (stream is).length) = .error e := by
  fun_induction entriesFrom code pc with
  | case1 pc e hdecode => exact ⟨[], _, e, rfl, hdecode⟩
  | case2 pc i hdecode ih =>
    obtain ⟨is, rest, e, hrest, hstop⟩ := ih
    refine ⟨i :: is, rest, e, ?_, ?_⟩
    · rw [encode_of_decodeAt hdecode, hrest, stream_cons, List.append_assoc]
    · rw [stream_cons, List.length_append, length_encode, ← Nat.add_assoc]
      exact hstop

theorem exists_stop (code : Array UInt8) : ∃ is rest e, Stop code is rest e := by
  obtain ⟨is, rest, e, hsplit, hstop⟩ := exists_stop_from code 0
  rw [Nat.zero_add] at hstop
  exact ⟨is, rest, e, hsplit, hstop⟩

/-- Code that is nothing but instructions stops at its end. -/
theorem stop_stream (h : code.toList = stream is) : Stop code is [] .outside := by
  have hlength : code.size = (stream is).length := by rw [← h, Array.length_toList]
  exact ⟨by rw [h, List.append_nil], decodeAt_outside (Nat.le_of_eq hlength)⟩

/-- Instructions that start with the same bytes up to a place where there is none: no others go further. -/
theorem isPrefix_of_stop (pre : List UInt8) (hsplit : code.toList = pre ++ (stream is ++ rest))
    (hstop : decodeAt code (pre ++ stream is).length = .error e) {js : List Instr} {more : List UInt8}
    (hjs : code.toList = pre ++ (stream js ++ more)) : js <+: is := by
  induction js generalizing is pre with
  | nil => exact List.nil_prefix
  | cons j js ih =>
    rw [stream_cons, List.append_assoc] at hjs
    have hj := decodeAt_encode hjs
    cases is with
    | nil =>
      rw [stream_nil, List.append_nil, hj] at hstop
      cases hstop
    | cons i is =>
      rw [stream_cons, List.append_assoc] at hsplit
      obtain rfl := Except.ok.inj (hj.symm.trans (decodeAt_encode hsplit))
      rw [← List.append_assoc] at hsplit hjs
      rw [stream_cons, ← List.append_assoc] at hstop
      exact List.cons_prefix_cons.mpr ⟨rfl, ih _ hsplit hstop hjs⟩

/-- The instructions up to the stop are the longest sequence that the code starts with. -/
theorem Stop.longest (h : Stop code is rest e) {other : List UInt8} (hother : Sequence other)
    (hstarts : other <+: code.toList) : other <+: stream is := by
  obtain ⟨js, rfl⟩ := sequence_iff.mp hother
  obtain ⟨more, hmore⟩ := hstarts
  obtain ⟨ks, rfl⟩ := isPrefix_of_stop [] h.split h.stop hmore.symm
  rw [stream_append]
  exact List.prefix_append _ _

theorem Stop.complains (h : Stop code is rest e) : Complains (stream is).length rest (problem (stream is).length e) := by
  have hreads := reads_decodeAt code (stream is).length
  have hbyte : code[(stream is).length]? = rest.head? := by
    rw [← Nat.add_zero (stream is).length, getElem?_of_toList h.split, List.head?_eq_getElem?]
  rw [h.stop] at hreads
  cases e with
  | outside =>
    obtain rfl := List.head?_eq_none_iff.mp (hbyte.symm.trans hreads)
    exact .nothing
  | unknown byte =>
    obtain ⟨tail, rfl⟩ := List.head?_eq_some_iff.mp (hbyte.symm.trans hreads.1)
    exact .unknown (Opcode.ofByte?_eq_none.mp hreads.2)
  | truncated opcode =>
    obtain ⟨tail, rfl⟩ := List.head?_eq_some_iff.mp (hbyte.symm.trans hreads.1)
    exact .truncated

end Stop

/-! ### Writing -/

section Write
variable {code : Array UInt8} {pc : Nat} {i : Instr} {is : List Instr} {rest : List UInt8} {e : DecodeError}

theorem writeFrom_error (h : decodeAt code pc = .error e) (sink : Sink) :
    writeFrom code pc sink = (sink, problem pc e) := by
  rw [writeFrom]
  split
  all_goals
    next heq =>
    rw [h] at heq
    cases heq <;> rfl

theorem writeFrom_refused (h : decodeAt code pc = .ok i) {sink : Sink}
    (hrefuses : sink.refuses (Text.utf8 (line pc i)) = true) :
    writeFrom code pc sink = (sink.put (Text.utf8 (line pc i)), some (.device sink.refusal)) := by
  rw [writeFrom]
  split <;> simp_all [Sink.write]

theorem writeFrom_accepted (h : decodeAt code pc = .ok i) {sink : Sink}
    (haccepts : sink.refuses (Text.utf8 (line pc i)) = false) :
    writeFrom code pc sink = writeFrom code (pc + i.length) (sink.put (Text.utf8 (line pc i))) := by
  rw [writeFrom]
  split <;> simp_all [Sink.write]

/-- The lines of some instructions are written as if they were one text. The sink fails first, if it does, and what is
behind the instructions comes up after that. -/
theorem writeFrom_stream (pre : List UInt8) (hsplit : code.toList = pre ++ (stream is ++ rest))
    (hstop : decodeAt code (pre ++ stream is).length = .error e) (sink : Sink) :
    writeFrom code pre.length sink = (sink.put (text (placed pre.length is)),
      if sink.refuses (text (placed pre.length is)) = true then some (.device sink.refusal)
      else problem (pre ++ stream is).length e) := by
  -- `pre` is what was listed before. An instruction that is listed goes over to it.
  induction is generalizing pre sink with
  | nil =>
    rw [stream_nil, List.append_nil] at hstop ⊢
    have htext : text (placed pre.length []) = [] := rfl
    rw [writeFrom_error hstop, htext, Sink.put_nil, Sink.refuses_nil, if_neg Bool.false_ne_true]
  | cons i is ih =>
    rw [stream_cons, List.append_assoc] at hsplit
    have hi := decodeAt_encode hsplit
    have htext : text (placed pre.length (i :: is)) =
        Text.utf8 (line pre.length i) ++ text (placed (pre ++ i.encode).length is) := by
      rw [placed, text, List.flatMap_cons, ← text, List.length_append, length_encode]
    rw [stream_cons, ← List.append_assoc] at hstop ⊢
    rw [htext, Sink.put_append, Sink.refuses_append]
    cases hrefuses : sink.refuses (Text.utf8 (line pre.length i)) with
    | true =>
      rw [writeFrom_refused hi hrefuses, Sink.put_of_refused hrefuses, Bool.true_or, if_pos rfl]
    | false =>
      rw [← List.append_assoc] at hsplit
      have hrest := ih _ hsplit hstop (sink.put (Text.utf8 (line pre.length i)))
      rw [writeFrom_accepted hi hrefuses, ← length_encode, ← List.length_append, hrest, Bool.false_or, Sink.refusal_put]

theorem Stop.write_eq (h : Stop code is rest e) (sink : Sink) :
    write code sink = (sink.put (text (placed 0 is)),
      if sink.refuses (text (placed 0 is)) = true then some (.device sink.refusal)
      else problem (stream is).length e) :=
  writeFrom_stream [] h.split h.stop sink

theorem problem_ne_device (pc : Nat) (e : DecodeError) (device : DeviceError) : problem pc e ≠ some (.device device) := by
  cases e <;> simp [problem]

/-- A sink that takes everything gets the whole listing. -/
theorem Stop.write_unlimited (h : Stop code is rest e) {sink : Sink} (unlimited : sink.room = none) :
    write code sink = (sink.put (text (placed 0 is)), problem (stream is).length e) := by
  have haccepts : ¬sink.refuses (text (placed 0 is)) = true := by simp [Sink.refuses_iff, unlimited]
  rw [h.write_eq, if_neg haccepts]

/-- Code is listed without an error just if it is complete instructions in a row. -/
theorem listed_iff (code : Array UInt8) {sink : Sink} (unlimited : sink.room = none) :
    (write code sink).2 = none ↔ Sequence code.toList := by
  constructor
  · intro h
    exact sequence_iff.mpr ⟨_, stream_of_listed h⟩
  · intro h
    obtain ⟨is, his⟩ := sequence_iff.mp h
    rw [(stop_stream his).write_unlimited unlimited]
    rfl

end Write

end Listing

/-- A listing stops cleanly at the first problem. Let `whole` be the longest sequence of complete instructions that some
code starts with, and `listing` what is listed of it. Whatever the room of a sink, the sink takes the first bytes of
`listing`, as many as there is room for. If there is too little room the failure is that of the sink. Otherwise there is
none just if nothing follows `whole`, and else the byte behind it is named with its address, as an unknown opcode or as
one whose operand is cut off. -/
theorem listing_stops_at_first_problem (code : Array UInt8) (sink : Sink) :
    ∃ whole rest listing : List UInt8,
      code.toList = whole ++ rest ∧ Sequence whole ∧
      (∀ other, Sequence other → other <+: code.toList → other.length ≤ whole.length) ∧
      Listing.write whole.toArray {} = ({ taken := listing.toArray }, none) ∧
      (Listing.write code sink).1.taken.toList =
        sink.taken.toList ++ listing.take (sink.room.getD listing.length) ∧
      ((Listing.write code sink).2 = some (.device sink.refusal) ↔ ∃ n, sink.room = some n ∧ n < listing.length) ∧
      ((¬∃ n, sink.room = some n ∧ n < listing.length) →
        ((Listing.write code sink).2 = none ↔ rest = []) ∧
        ∀ b tail, rest = b :: tail → ∃ e, (Listing.write code sink).2 = some e ∧
          (0x0E < b → e = .unknownOpcode whole.length b ∧
            e.message = Text.address whole.length ++ ": unknown opcode " ++ Text.byte b) ∧
          (b ≤ 0x0E → ∃ op : Opcode, op.toByte = b ∧ e = .truncatedOperand whole.length op ∧
            e.message = Text.address whole.length ++ ": " ++ op.mnemonic ++ ": truncated operand")) := by
  obtain ⟨is, rest, e, h⟩ := Listing.exists_stop code
  have hwhole : Listing.Stop (stream is).toArray is [] .outside := Listing.stop_stream rfl
  refine ⟨stream is, rest, Listing.text (Listing.placed 0 is), h.split, sequence_iff.mpr ⟨is, rfl⟩,
    fun other hother hstarts => (h.longest hother hstarts).length_le, ?_, ?_, ?_, ?_⟩
  · rw [hwhole.write_unlimited rfl]
    simp [Sink.put, Sink.fitting, Listing.problem]
  · rw [h.write_eq, Sink.taken_put]
  · rw [h.write_eq, ← Sink.refuses_iff]
    by_cases hrefuses : sink.refuses (Listing.text (Listing.placed 0 is)) = true
    · simp [hrefuses]
    · simp [hrefuses, Listing.problem_ne_device]
  · intro haccepts
    have hcomplains := h.complains
    rw [h.write_eq, if_neg (mt Sink.refuses_iff.mp haccepts)]
    generalize Listing.problem (stream is).length e = complaint at hcomplains
    cases hcomplains with
    | nothing =>
      refine ⟨by simp, fun b tail hrest => ?_⟩
      cases hrest
    | @unknown byte _ hb =>
      refine ⟨by simp, fun b tail hrest => ?_⟩
      obtain ⟨rfl, rfl⟩ := List.cons.inj hrest
      exact ⟨_, rfl, fun _ => ⟨rfl, rfl⟩, fun hle => absurd hb (UInt8.not_lt.mpr hle)⟩
    | @truncated op _ =>
      refine ⟨by simp, fun b tail hrest => ?_⟩
      obtain ⟨rfl, rfl⟩ := List.cons.inj hrest
      exact ⟨_, rfl, fun hlt => absurd op.toByte_le (UInt8.not_le.mpr hlt), fun _ => ⟨op, rfl, rfl, rfl⟩⟩

-- There is room for the line of the first byte, and one byte less than that.
example : (Listing.write #[0x04, 0xFF] { room := some 13 }).2 = some (.unknownOpcode 1 0xFF) ∧
    (Listing.write #[0x04, 0xFF] { room := some 12 }).2 = some (.device ⟨"no room"⟩) := by
  decide +kernel

end TapeCode
