import TapeCode.Proofs.Linking
import TapeCode.Proofs.Lockstep
import TapeCode.Proofs.Stream

/-!
Listings of assembled operations. What a listing of linked code shows can be read off the operations: their names,
their operands as they were given, and for a jump the address of what is emitted behind the mark of its label
(`Layout.lines`). The code itself does not come into this.
-/

namespace TapeCode

open Layout Assembler

/-! ### Lines of operations -/

namespace Op

/-- The name of an operation in a listing. Creating and marking labels has none. -/
def mnemonic : Op → String
  | alloc _ => "ALLOC"
  | reset => "RESET"
  | openInput => "OPEN"
  | load => "LOAD"
  | store => "STORE"
  | add _ => "ADD"
  | sub _ => "SUB"
  | step delta => if delta = 1 then "FWD" else "BACK"
  | move _ => "MOVE"
  | newLabel | mark _ => ""
  | jump _ => "JMP"
  | jumpIfZero _ => "JZ"
  | getc => "GETC"
  | putc => "PUTC"
  | halt => "HALT"

/-- The operand of an operation in a listing, given the addresses of labels. -/
def operandText (address : Int → Nat) : Op → Option String
  | alloc cells => some (Text.signedDecimal cells)
  | add n | sub n => some (Text.signedDecimal (n % 4294967296))
  | move delta => some (Text.signedDecimal delta)
  | jump label | jumpIfZero label => some (Text.address (address label))
  | reset | openInput | load | store | step _ | newLabel | mark _ | getc | putc | halt => none

/-- The line of an operation at an address. -/
def line (address : Int → Nat) (pc : Nat) (op : Op) : String :=
  Text.address pc ++ "  " ++ op.mnemonic ++ ((op.operandText address).map (" " ++ ·)).getD "" ++ "\n"

end Op

namespace Layout

/-- The operations that have a place in the code: all but those that create or mark a label. -/
def emitted (ops : List Op) : List Op :=
  ops.filter fun op => 0 < op.size

/-- The address of an operation, by its number among those that are emitted: what the ones before it take up. The
number behind the last one gives the length of the code. -/
def place (ops : List Op) (k : Nat) : Nat :=
  extent ((emitted ops).take k)

/-- Where a label leads: to the first operation that is emitted behind its mark. As many are emitted before it as
before the mark. -/
def landing (ops : List Op) (label : Int) : Nat :=
  place ops (emitted (ops.take (ops.idxOf (.mark label)))).length

/-- A line for each operation that is emitted. -/
def lines (ops : List Op) : List String :=
  (emitted ops).mapIdx fun k op => op.line (landing ops) (place ops k)

section Emitted
variable {ops : List Op} {op : Op}

theorem emitted_append (ops more : List Op) : emitted (ops ++ more) = emitted ops ++ emitted more :=
  List.filter_append _ _

theorem emitted_cons_label (h : op.size = 0) : emitted (op :: ops) = emitted ops :=
  List.filter_cons_of_neg (by simp [h])

theorem emitted_cons_instr (h : 0 < op.size) : emitted (op :: ops) = op :: emitted ops :=
  List.filter_cons_of_pos (by simp [h])

theorem extent_emitted (ops : List Op) : extent (emitted ops) = extent ops := by
  induction ops with
  | nil => rfl
  | cons op ops ih =>
    rcases Nat.eq_zero_or_pos op.size with hzero | hpos
    · rw [emitted_cons_label hzero, ih, extent, hzero, Nat.zero_add]
    · rw [emitted_cons_instr hpos, extent, ih, extent]

theorem landing_eq (ops : List Op) (label : Int) : landing ops label = labelAddress ops label := by
  have hsplit := emitted_append (ops.take (ops.idxOf (.mark label))) (ops.drop (ops.idxOf (.mark label)))
  rw [List.take_append_drop] at hsplit
  rw [landing, place, hsplit, List.take_left, extent_emitted, labelAddress]

end Emitted

end Layout

/-! ### Lines of instructions -/

section Lines
variable {op : Op} {i : Instr} {address : Int → UInt32} {places : Int → Nat}

theorem Text.decimal_ofInt (n : Int) : Text.decimal (Word.ofInt n).toNat = Text.signedDecimal (n % 4294967296) := by
  have hvalue : n % 4294967296 = ((Word.ofInt n).toNat : Int) := by
    rw [Word.ofInt, UInt32.toNat_ofNat']
    omega
  rw [hvalue]
  rfl

theorem Op.mnemonic_instr (h : op.instr? address = some i) : i.opcode.mnemonic = op.mnemonic := by
  cases op with
  | step delta =>
    obtain rfl := Option.some.inj h
    rw [Op.mnemonic]
    split <;> rfl
  | newLabel | mark l => cases h
  | _ =>
    obtain rfl := Option.some.inj h
    rfl

theorem Op.operandText_instr (h : op.instr? address = some i) (henc : op.Encodable)
    (hplaces : ∀ l, op.destination? = some l → (address l).toNat = places l) :
    Listing.operandText i = op.operandText places := by
  cases op with
  | alloc cells =>
    obtain rfl := Option.some.inj h
    rw [Listing.operandText, Text.decimal_ofInt, Int.emod_eq_of_lt henc.1 henc.2]
    rfl
  | add n | sub n =>
    obtain rfl := Option.some.inj h
    rw [Listing.operandText, Text.decimal_ofInt]
    rfl
  | move delta =>
    obtain rfl := Option.some.inj h
    rw [Listing.operandText, Word.toSigned_ofInt henc.1 henc.2]
    rfl
  | jump l | jumpIfZero l =>
    obtain rfl := Option.some.inj h
    rw [Listing.operandText, hplaces l rfl]
    rfl
  | step delta =>
    obtain rfl := Option.some.inj h
    split <;> rfl
  | newLabel | mark l => cases h
  | reset | openInput | load | store | getc | putc | halt =>
    obtain rfl := Option.some.inj h
    rfl

theorem Op.line_instr (h : op.instr? address = some i) (henc : op.Encodable)
    (hplaces : ∀ l, op.destination? = some l → (address l).toNat = places l) (pc : Nat) :
    Listing.line pc i = op.line places pc := by
  rw [Listing.line, Op.line, Op.mnemonic_instr h, Op.operandText_instr h henc hplaces]
  cases op.operandText places with
  | none => rw [Option.map_none, Option.getD_none, String.append_empty]
  | some operand => rw [Option.map_some, Option.getD_some, ← String.append_assoc]

/-- The instructions of operations are listed with the lines of those that are emitted. -/
theorem Listing.text_placed {ops : List Op} (henc : ∀ op ∈ ops, op.Encodable)
    (hplaces : ∀ op ∈ ops, ∀ l, op.destination? = some l → (address l).toNat = places l) (pc : Nat) :
    text (placed pc (ops.filterMap (Op.instr? address))) =
      ((emitted ops).mapIdx fun k op => op.line places (pc + extent ((emitted ops).take k))).flatMap Text.utf8 := by
  induction ops generalizing pc with
  | nil => rfl
  | cons op ops ih =>
    have hrest := ih (fun op' hop' => henc op' (List.mem_cons_of_mem op hop'))
      fun op' hop' => hplaces op' (List.mem_cons_of_mem op hop')
    cases hi : op.instr? address with
    | none => rw [List.filterMap_cons_none hi, emitted_cons_label (Op.size_label hi), hrest]
    | some i =>
      have hlength := Op.length_instr hi
      have hline := Op.line_instr hi (henc op List.mem_cons_self) (hplaces op List.mem_cons_self) pc
      rw [List.filterMap_cons_some hi, placed, text, List.flatMap_cons, ← text, hrest, hline, hlength,
        emitted_cons_instr (hlength ▸ i.length_pos), List.mapIdx_cons, List.flatMap_cons]
      simp only [List.take_succ_cons, extent, List.take_zero, Nat.add_zero, Nat.add_assoc]

end Lines

/-- Listing undoes assembling. Whatever an assembler is asked for, with any links in between: if it can be linked in the
end, and the code is short enough to be addressed, then the code is listed without an error. There is one line for each
operation that was emitted, in the order of the operations. It shows the address of the operation, which is what the
operations before it take up, its name, and its operand: a count of cells, an amount modulo 2^32, a signed distance, or the
address of what is emitted behind the mark of a label. -/
theorem listing_inverts_assembly {requests : List Request} {p : Program}
    (h : (({} : Assembler).serveAll requests).1.link.2 = .ok p) (short : p.code.size < 4294967296) {sink : Sink}
    (unlimited : sink.room = none) :
    (Listing.write p.code sink).2 = none ∧
    (Listing.write p.code sink).1.taken.toList =
      sink.taken.toList ++ (lines (Request.ops requests)).flatMap Text.utf8 ∧
    place (Request.ops requests) (emitted (Request.ops requests)).length = p.code.size := by
  have linked : Linked (Request.ops requests) p.code := (Took.empty.serveAll requests).linked h
  have hplaces (l : Int) : (UInt32.ofNat (labelAddress (Request.ops requests) l)).toNat =
      landing (Request.ops requests) l := by
    rw [labelAddress_toNat linked short, landing_eq]
  refine ⟨Listing.writeFrom_linked linked 0 unlimited, ?_, ?_⟩
  · rw [Listing.write, Listing.taken_writeFrom _ _ _ unlimited, Array.toList_appendList, ← Listing.entries,
      Listing.entries_stream (stream_of_linked linked), instructions,
      Listing.text_placed linked.encodable fun _ _ l _ => hplaces l]
    simp only [lines, place, Nat.zero_add]
  · rw [place, List.take_length, extent_emitted, linked.size_code]

/-- A loop that is linked before its end is marked, and again when it is. Nothing is emitted behind that mark. -/
theorem listing_of_loop_to_end :
    let requests : List Request :=
      [.emit .newLabel, .emit .newLabel, .emit (.alloc 30000), .emit (.mark 0), .emit (.add (-1)), .emit (.jumpIfZero 1),
        .link, .emit (.move (-2)), .emit (.step (-1)), .emit (.jump 0), .emit (.mark 1)]
    let code : Array UInt8 := #[0x01, 0x30, 0x75, 0, 0, 0x06, 0xFF, 0xFF, 0xFF, 0xFF, 0x0C, 26, 0, 0, 0,
      0x0A, 0xFE, 0xFF, 0xFF, 0xFF, 0x09, 0x0B, 5, 0, 0, 0]
    let listing := ["0x0000  ALLOC 30000\n", "0x0005  ADD 4294967295\n", "0x000A  JZ 0x001A\n", "0x000F  MOVE -2\n",
      "0x0014  BACK\n", "0x0015  JMP 0x0005\n"]
    (({} : Assembler).serveAll requests).1.link.2 = .ok ⟨1, code⟩ ∧ code.size < 4294967296 ∧
      (Listing.write code {}).2 = none ∧ (Listing.write code {}).1.taken.toList = listing.flatMap Text.utf8 := by
  intro requests code listing
  have hlink : (({} : Assembler).serveAll requests).1.link.2 = .ok ⟨1, code⟩ := by decide +kernel
  have short : code.size < 4294967296 := by decide
  have hlines : lines (Request.ops requests) = listing := by decide +kernel
  obtain ⟨hnone, htaken, -⟩ := listing_inverts_assembly hlink short (show ({} : Sink).room = none from rfl)
  rw [hlines] at htaken
  exact ⟨hlink, short, hnone, htaken⟩

end TapeCode
