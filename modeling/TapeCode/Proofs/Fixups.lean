import TapeCode.Proofs.Access
import TapeCode.Proofs.Linking

/-!
The assembler over raw memory. Code and labels are accessed by index here, addresses are plain numbers, and a label that is
not marked has the address -1 (`RawAssembler`). Marks and jumps are noted even after a failure, when the operand that a jump
notes was never emitted. No access is out of bounds all the same: where jumps are filled in there was no failure, and then
every jump that waits stands in the code (`Anchored`). What is noted after a failure never shows (`Represents`).
-/

namespace TapeCode

/-! ### Raw memory -/

/-- A jump that waits for the address of its label: where its operand stands, and which label it is. -/
structure RawFixup where
  location : Int
  label : Int
  deriving DecidableEq, Repr

/-- Code under construction, over raw memory. -/
structure RawAssembler where
  code : Array UInt8 := #[]
  labels : Array Int := #[]
  fixups : Array RawFixup := #[]
  failure : Option AsmError := none
  deriving DecidableEq, Repr

namespace RawAssembler

/-- The address of a label that is not marked. -/
def unmarked : Int := -1

/-- Keeps the first failure. -/
def fail (r : RawAssembler) (e : AsmError) : RawAssembler :=
  { r with failure := r.failure.or (some e) }

/-- Appends an instruction without an operand. -/
def emit (r : RawAssembler) (opcode : Opcode) : RawAssembler :=
  if r.failure.isSome then r else { r with code := r.code.push opcode.toByte }

/-- Writes bytes over code, one by one. -/
def overwrite (code : Array UInt8) (location : Int) : List UInt8 → Except OutOfBounds (Array UInt8)
  | [] => return code
  | b :: rest => do
    let code ← Access.write code location b
    overwrite code (location + 1) rest

/-- Appends an instruction with an empty operand, and writes the operand over it. -/
def emitWord (r : RawAssembler) (opcode : Opcode) (operand : UInt32) : Except OutOfBounds RawAssembler :=
  if r.failure.isSome then return r
  else do
    let code := r.code ++ #[opcode.toByte, 0, 0, 0, 0]
    let code ← overwrite code (code.size - 4) (Word.bytes32 operand)
    return { r with code }

/-- Gives a label the address at the end of the code. -/
def mark (r : RawAssembler) (label : Int) : Except OutOfBounds RawAssembler :=
  if label < 0 ∨ r.labels.size ≤ label then return r.fail (.unknownLabel label)
  else do
    let address ← Access.read r.labels label
    if address ≠ unmarked then return r.fail (.markedTwice label)
    else
      let labels ← Access.write r.labels label r.code.size
      return { r with labels }

/-- Emits a jump, and notes its label and the last four bytes of the code as its operand. -/
def jump (r : RawAssembler) (opcode : Opcode) (label : Int) : Except OutOfBounds RawAssembler :=
  if label < 0 ∨ r.labels.size ≤ label then return r.fail (.unknownLabel label)
  else do
    let r ← r.emitWord opcode 0
    return { r with fixups := r.fixups.push ⟨r.code.size - 4, label⟩ }

/-- Does what an operation asks for. -/
def apply (r : RawAssembler) : Op → Except OutOfBounds RawAssembler
  | .alloc cells =>
    if cells < 0 ∨ 4294967295 < cells then return r.fail (.allocRange cells)
    else r.emitWord .alloc (Word.ofInt cells)
  | .reset => return r.emit .reset
  | .openInput => return r.emit .openInput
  | .load => return r.emit .load
  | .store => return r.emit .store
  | .add n => r.emitWord .add (Word.ofInt n)
  | .sub n => r.emitWord .sub (Word.ofInt n)
  | .step delta =>
    if delta = 1 then return r.emit .forward
    else if delta = -1 then return r.emit .back
    else return r.fail (.stepDelta delta)
  | .move delta =>
    if delta < -2147483648 ∨ 2147483647 < delta then return r.fail (.moveRange delta)
    else r.emitWord .move (Word.ofInt delta)
  | .newLabel => return { r with labels := r.labels.push unmarked }
  | .mark label => r.mark label
  | .jump label => r.jump .jump label
  | .jumpIfZero label => r.jump .jumpIfZero label
  | .getc => return r.emit .getc
  | .putc => return r.emit .putc
  | .halt => return r.emit .halt

/-- Fills in the addresses of jumps, one by one, up to a label that is not marked. -/
def fillIn (labels : Array Int) : List RawFixup → Array UInt8 → Except OutOfBounds (Array UInt8 × Option AsmError)
  | [], code => return (code, none)
  | fixup :: rest, code => do
    let address ← Access.read labels fixup.label
    if address = unmarked then return (code, some (.unmarkedTarget fixup.label))
    else
      let code ← overwrite code fixup.location (Word.bytes32 (Word.ofInt address))
      fillIn labels rest code

/-- Fills in all jumps that wait, and hands out the program. If a label is not marked they all stay. -/
def link (r : RawAssembler) : Except OutOfBounds (RawAssembler × Except AsmError Program) :=
  match r.failure with
  | some e => return (r, .error e)
  | none => do
    match ← fillIn r.labels r.fixups.toList r.code with
    | (code, some e) => return ({ r with code }, .error e)
    | (code, none) => return ({ r with code, fixups := #[] }, .ok ⟨Program.currentVersion, code⟩)

/-- Does what a request asks for. -/
def serve (r : RawAssembler) : Assembler.Request → Except OutOfBounds (RawAssembler × Assembler.Reply)
  | .emit op => do
    let r ← r.apply op
    return (r, if op = .newLabel then .label (r.labels.size - 1) else .done)
  | .link => do
    let (r, result) ← r.link
    return (r, .linked result)

/-- Does what requests ask for, one after the other. -/
def serveAll (r : RawAssembler) :
    List Assembler.Request → Except OutOfBounds (RawAssembler × List Assembler.Reply)
  | [] => return (r, [])
  | request :: requests => do
    let (r, reply) ← r.serve request
    let (r, replies) ← r.serveAll requests
    return (r, reply :: replies)

section Raw
variable {r : RawAssembler} {code : Array UInt8} {bytes : List UInt8} {label : Int} {k : Nat}

theorem overwrite_eq {location : Int} (hlocation : location = k) (h : k + bytes.length ≤ code.size) :
    overwrite code location bytes = .ok (Assembler.overwrite code k bytes) := by
  induction bytes generalizing code location k with
  | nil => rfl
  | cons b bytes ih =>
    rw [List.length_cons] at h
    have hlt : k < code.size := by omega
    have hset : code.setIfInBounds k b = code.set k b hlt := dif_pos hlt
    have hnext : location + 1 = (k + 1 : Nat) := by rw [hlocation, Int.natCast_add, Int.natCast_one]
    rw [overwrite, Access.write_of_eq b hlocation hlt, Assembler.overwrite, hset]
    exact ih hnext (by rw [Array.size_set]; omega)

theorem emitWord_failed (h : r.failure.isSome = true) (opcode : Opcode) (operand : UInt32) :
    r.emitWord opcode operand = .ok r := by
  rw [emitWord, if_pos h]
  rfl

theorem emitWord_eq (h : r.failure = none) (opcode : Opcode) (operand : UInt32) :
    r.emitWord opcode operand = .ok { r with code := r.code ++ (opcode.toByte :: Word.bytes32 operand).toArray } := by
  have hcode : r.code ++ #[opcode.toByte, 0, 0, 0, 0] = r.code.push opcode.toByte ++ [0, 0, 0, 0].toArray :=
    Array.ext' (by simp)
  have hend : r.code.push opcode.toByte ++ (Word.bytes32 operand).toArray =
      r.code ++ (opcode.toByte :: Word.bytes32 operand).toArray := Array.ext' (by simp)
  have hsize : (r.code.push opcode.toByte ++ [0, 0, 0, 0].toArray).size = (r.code.push opcode.toByte).size + 4 :=
    Array.size_append
  have hlocation : ((r.code.push opcode.toByte ++ [0, 0, 0, 0].toArray).size : Int) - 4 =
      (r.code.push opcode.toByte).size := by
    rw [hsize, Int.natCast_add]
    exact Int.add_sub_cancel _ _
  have hwrite : overwrite (r.code.push opcode.toByte ++ [0, 0, 0, 0].toArray) _ (Word.bytes32 operand) = _ :=
    overwrite_eq hlocation (Nat.le_of_eq hsize.symm)
  rw [Assembler.overwrite_end _ (by rfl), hend] at hwrite
  simp only [emitWord, h, Option.isSome_none, Bool.false_eq_true, ↓reduceIte, hcode, hwrite]
  rfl

theorem emit_failed (h : r.failure.isSome = true) (opcode : Opcode) : r.emit opcode = r :=
  if_pos h

theorem emit_eq (h : r.failure = none) (opcode : Opcode) :
    r.emit opcode = { r with code := r.code ++ #[opcode.toByte] } := by
  rw [emit, h, if_neg (by simp), Array.push_eq_append]

theorem fail_eq (h : r.failure = none) (e : AsmError) : r.fail e = { r with failure := some e } := by
  rw [fail, h, Option.none_or]

theorem fail_failed {e : AsmError} (h : r.failure = some e) (e' : AsmError) : r.fail e' = r := by
  obtain ⟨code, labels, fixups, failure⟩ := r
  subst h
  rfl

theorem mark_unknown (h : label < 0 ∨ r.labels.size ≤ label) : r.mark label = .ok (r.fail (.unknownLabel label)) := by
  rw [mark, if_pos h]
  rfl

theorem mark_known {address : Int} (hlabel : label = k) (h : r.labels[k]? = some address) :
    r.mark label = .ok (if address ≠ unmarked then r.fail (.markedTwice label)
      else { r with labels := r.labels.setIfInBounds k r.code.size }) := by
  obtain ⟨hlt, -⟩ := Array.getElem?_eq_some_iff.mp h
  have hknown : ¬(label < 0 ∨ r.labels.size ≤ label) := by omega
  have hset : r.labels.setIfInBounds k r.code.size = r.labels.set k r.code.size hlt := dif_pos hlt
  rw [mark, if_neg hknown, Access.read_of_eq hlabel h, Access.write_of_eq _ hlabel hlt, hset]
  split
  · next hmarked =>
    simp only [bind, Except.bind, if_pos hmarked]
    rfl
  · next hfree =>
    simp only [bind, Except.bind, if_neg hfree]
    rfl

end Raw

/-! ### What raw memory stands for -/

/-- The address of a mark as a plain number. -/
def address : Option Nat → Int
  | none => unmarked
  | some n => n

/-- A jump that waits, over raw memory. -/
def fixup (f : Fixup) : RawFixup :=
  ⟨f.location, f.label⟩

/-- A raw assembler stands for an assembler. After a failure only the code and the number of labels count. -/
structure Represents (r : RawAssembler) (a : Assembler) : Prop where
  code : r.code = a.code
  failure : r.failure = a.failure
  size : r.labels.size = a.labels.size
  labels : a.failure = none → r.labels = a.labels.map address
  fixups : a.failure = none → r.fixups = a.pending.map fixup

theorem represents_empty : Represents {} {} :=
  ⟨rfl, rfl, rfl, fun _ => Array.map_empty.symm, fun _ => Array.map_empty.symm⟩

theorem address_eq_unmarked {m : Option Nat} : address m = unmarked ↔ m = none := by
  cases m with
  | none => exact ⟨fun _ => rfl, fun _ => rfl⟩
  | some n =>
    constructor
    · intro h
      have hneg : (n : Int) = -1 := h
      omega
    · intro h
      cases h

namespace Represents
variable {r : RawAssembler} {a : Assembler} {op : Op} {label : Int} {e : AsmError}

/-- An assembler that has failed hands out labels and is otherwise left as it is. -/
theorem of_failed (h : Represents r a) (hf : a.failure = some e) {r' : RawAssembler} {a' : Assembler}
    (hcode : r'.code = r.code) (hfailure : r'.failure = r.failure) (hcode' : a'.code = a.code)
    (hfailure' : a'.failure = a.failure) (hsize : r'.labels.size = a'.labels.size) : Represents r' a' := by
  refine ⟨?_, ?_, hsize, ?_, ?_⟩
  · rw [hcode, h.code, hcode']
  · rw [hfailure, h.failure, hfailure']
  · intro hsound
    rw [hfailure', hf] at hsound
    cases hsound
  · intro hsound
    rw [hfailure', hf] at hsound
    cases hsound

theorem emitted (h : Represents r a) {i : Instr} {code : List UInt8} (hcode : code = i.encode) :
    Represents { r with code := r.code ++ code.toArray } (a.emit i) := by
  refine ⟨?_, h.failure, h.size, h.labels, h.fixups⟩
  rw [h.code, hcode, Assembler.Assembled.code_emit]

theorem failed (h : Represents r a) (hs : a.failure = none) (e : AsmError) : Represents (r.fail e) (a.fail e) := by
  rw [fail_eq (h.failure.trans hs)]
  refine ⟨h.code, rfl, h.size, ?_, ?_⟩
  · intro hsound
    cases hsound
  · intro hsound
    cases hsound

theorem emit (h : Represents r a) (hs : a.failure = none) {i : Instr} (hi : i.encode = [i.opcode.toByte]) :
    Represents (r.emit i.opcode) (a.emit i) := by
  rw [emit_eq (h.failure.trans hs)]
  exact h.emitted hi.symm

theorem emitWord (h : Represents r a) (hs : a.failure = none) {i : Instr} {w : UInt32}
    (hi : i.encode = i.opcode.toByte :: Word.bytes32 w) :
    ∃ r', r.emitWord i.opcode w = .ok r' ∧ Represents r' (a.emit i) :=
  ⟨_, emitWord_eq (h.failure.trans hs) _ _, h.emitted hi.symm⟩

theorem newLabel (h : Represents r a) :
    Represents { r with labels := r.labels.push unmarked } { a with labels := a.labels.push none } := by
  refine ⟨h.code, h.failure, ?_, ?_, h.fixups⟩
  · rw [Array.size_push, Array.size_push, h.size]
  · intro hs
    rw [Array.map_push, ← h.labels hs]
    rfl

theorem label?_eq (h : Represents r a) (label : Int) :
    (label < 0 ∨ r.labels.size ≤ label) ∧ a.label? label = none ∨
      ∃ k : Nat, label = k ∧ k < a.labels.size ∧ ¬(label < 0 ∨ r.labels.size ≤ label) ∧ a.label? label = some k := by
  unfold Assembler.label?
  rw [h.size]
  by_cases hknown : 0 ≤ label ∧ label < a.labels.size
  · exact Or.inr ⟨label.toNat, (Int.toNat_of_nonneg hknown.1).symm, (Int.toNat_lt hknown.1).mpr hknown.2, by omega,
      if_pos hknown⟩
  · exact Or.inl ⟨by omega, if_neg hknown⟩

theorem mark (h : Represents r a) (hs : a.failure = none) (label : Int) :
    ∃ r', r.mark label = .ok r' ∧ Represents r' (a.mark label) := by
  rcases h.label?_eq label with ⟨hout, hnone⟩ | ⟨k, rfl, hlt, -, hsome⟩
  · refine ⟨_, mark_unknown hout, ?_⟩
    rw [Assembler.mark, hnone]
    exact h.failed hs _
  · obtain ⟨m, hm⟩ : ∃ m, a.labels[k]? = some m := ⟨_, Array.getElem?_eq_getElem hlt⟩
    have hraw : r.labels[k]? = some (address m) := by rw [h.labels hs, Array.getElem?_map, hm, Option.map_some]
    refine ⟨_, mark_known rfl hraw, ?_⟩
    simp only [Assembler.mark, hsome, hm, Option.join_some]
    cases m with
    | none =>
      rw [if_neg (fun hne => hne rfl)]
      refine ⟨h.code, h.failure, ?_, ?_, h.fixups⟩
      · rw [Array.size_setIfInBounds, Array.size_setIfInBounds, h.size]
      · intro _
        rw [h.labels hs, h.code, Array.map_setIfInBounds]
        rfl
    | some n =>
      rw [if_pos (fun heq => absurd (address_eq_unmarked.mp heq) (by simp))]
      exact h.failed hs _

theorem jump (h : Represents r a) (hs : a.failure = none) {i : UInt32 → Instr} (label : Int)
    (hi : (i 0).encode = (i 0).opcode.toByte :: Word.bytes32 0) :
    ∃ r', r.jump (i 0).opcode label = .ok r' ∧ Represents r' (a.emitJump i label) := by
  rcases h.label?_eq label with ⟨hout, hnone⟩ | ⟨k, rfl, hlt, hin, hsome⟩
  · refine ⟨_, if_pos hout, ?_⟩
    rw [Assembler.emitJump, hnone]
    exact h.failed hs _
  · have hcode : r.code ++ ((i 0).opcode.toByte :: Word.bytes32 0).toArray = a.code ++ (i 0).encode.toArray := by
      rw [h.code, hi]
    have hsize : (a.code ++ (i 0).encode.toArray).size = a.code.size + 5 := by
      rw [Array.size_append, hi]
      rfl
    have hlocation : ((a.code ++ (i 0).encode.toArray).size : Int) - 4 = (a.code.size + 1 : Nat) := by omega
    rw [RawAssembler.jump, if_neg hin, emitWord_eq (h.failure.trans hs), hcode, Assembler.emitJump, hsome]
    refine ⟨_, rfl, ?_, h.failure, h.size, h.labels, ?_⟩
    · exact (Assembler.Assembled.code_emit _ _).symm
    · intro _
      simp only [Assembler.emit, Array.map_push, ← h.fixups hs, hlocation, fixup]

theorem apply_sound (h : Represents r a) (hs : a.failure = none) (op : Op) :
    ∃ r', r.apply op = .ok r' ∧ Represents r' (a.assemble op) := by
  cases op with
  | alloc cells =>
    rw [RawAssembler.apply, Assembler.assemble]
    by_cases hrange : 0 ≤ cells ∧ cells < 4294967296
    · rw [if_neg (by omega), if_pos hrange]
      exact h.emitWord hs (i := .alloc (Word.ofInt cells)) rfl
    · rw [if_pos (by omega), if_neg hrange]
      exact ⟨_, rfl, h.failed hs _⟩
  | move delta =>
    rw [RawAssembler.apply, Assembler.assemble]
    by_cases hrange : -2147483648 ≤ delta ∧ delta < 2147483648
    · rw [if_neg (by omega), if_pos hrange]
      exact h.emitWord hs (i := .move (Word.ofInt delta)) rfl
    · rw [if_pos (by omega), if_neg hrange]
      exact ⟨_, rfl, h.failed hs _⟩
  | step delta =>
    rw [RawAssembler.apply, Assembler.assemble]
    by_cases hone : delta = 1
    · rw [if_pos hone, if_pos hone]
      exact ⟨_, rfl, h.emit hs (i := .forward) rfl⟩
    · rw [if_neg hone, if_neg hone]
      by_cases hback : delta = -1
      · rw [if_pos hback, if_pos hback]
        exact ⟨_, rfl, h.emit hs (i := .back) rfl⟩
      · rw [if_neg hback, if_neg hback]
        exact ⟨_, rfl, h.failed hs _⟩
  | newLabel => exact ⟨_, rfl, h.newLabel⟩
  | mark label => exact h.mark hs label
  | jump label => exact h.jump hs (i := .jump) label rfl
  | jumpIfZero label => exact h.jump hs (i := .jumpIfZero) label rfl
  | add n => exact h.emitWord hs (i := .add (Word.ofInt n)) rfl
  | sub n => exact h.emitWord hs (i := .sub (Word.ofInt n)) rfl
  | reset => exact ⟨_, rfl, h.emit hs (i := .reset) rfl⟩
  | openInput => exact ⟨_, rfl, h.emit hs (i := .openInput) rfl⟩
  | load => exact ⟨_, rfl, h.emit hs (i := .load) rfl⟩
  | store => exact ⟨_, rfl, h.emit hs (i := .store) rfl⟩
  | getc => exact ⟨_, rfl, h.emit hs (i := .getc) rfl⟩
  | putc => exact ⟨_, rfl, h.emit hs (i := .putc) rfl⟩
  | halt => exact ⟨_, rfl, h.emit hs (i := .halt) rfl⟩

end Represents

/-! ### After a failure -/

/-- An operation on an assembler that has failed. Labels may be created and marked, and jumps may be noted. -/
structure Ignores (r : RawAssembler) (op : Op) (r' : RawAssembler) : Prop where
  code : r'.code = r.code
  failure : r'.failure = r.failure
  labels : r'.labels.size = r.labels.size + [op].count .newLabel

section Failed
variable {r : RawAssembler} {op : Op} {e : AsmError}

theorem ignores_refl (hop : op ≠ .newLabel) : Ignores r op r :=
  ⟨rfl, rfl, by rw [List.count_singleton, if_neg (by simpa using hop)]; rfl⟩

theorem mark_failed (h : r.failure = some e) (label : Int) :
    ∃ r', r.mark label = .ok r' ∧ Ignores r (.mark label) r' := by
  by_cases hout : label < 0 ∨ r.labels.size ≤ label
  · refine ⟨_, mark_unknown hout, ?_⟩
    rw [fail_failed h]
    exact ignores_refl Op.noConfusion
  · obtain ⟨k, rfl⟩ : ∃ k : Nat, label = k := ⟨label.toNat, by omega⟩
    have hlt : k < r.labels.size := by omega
    refine ⟨_, mark_known rfl (Array.getElem?_eq_getElem hlt), ?_⟩
    split
    · rw [fail_failed h]
      exact ignores_refl Op.noConfusion
    · exact ⟨rfl, rfl, Array.size_setIfInBounds⟩

theorem jump_failed (h : r.failure = some e) (opcode : Opcode) (label : Int) (hop : op ≠ .newLabel) :
    ∃ r', r.jump opcode label = .ok r' ∧ Ignores r op r' := by
  by_cases hout : label < 0 ∨ r.labels.size ≤ label
  · refine ⟨_, if_pos hout, ?_⟩
    rw [fail_failed h]
    exact ignores_refl hop
  · rw [jump, if_neg hout, emitWord_failed (by rw [h, Option.isSome_some])]
    exact ⟨_, rfl, rfl, rfl, (ignores_refl (r := r) hop).labels⟩

theorem apply_failed (h : r.failure = some e) (op : Op) : ∃ r', r.apply op = .ok r' ∧ Ignores r op r' := by
  have hsome : r.failure.isSome = true := by rw [h, Option.isSome_some]
  have hemit (opcode : Opcode) : r.emit opcode = r := emit_failed hsome opcode
  have hword (opcode : Opcode) (w : UInt32) : r.emitWord opcode w = .ok r := emitWord_failed hsome opcode w
  cases op with
  | newLabel => exact ⟨_, rfl, rfl, rfl, Array.size_push _⟩
  | mark label => exact mark_failed h label
  | jump label | jumpIfZero label => exact jump_failed h _ label Op.noConfusion
  | alloc cells | move delta =>
    rw [apply, fail_failed h, hword]
    split <;> exact ⟨r, rfl, ignores_refl Op.noConfusion⟩
  | step delta =>
    rw [apply, fail_failed h, hemit, hemit]
    split
    · exact ⟨r, rfl, ignores_refl Op.noConfusion⟩
    · split <;> exact ⟨r, rfl, ignores_refl Op.noConfusion⟩
  | add n | sub n =>
    rw [apply, hword]
    exact ⟨r, rfl, ignores_refl Op.noConfusion⟩
  | reset | openInput | load | store | getc | putc | halt =>
    rw [apply, hemit]
    exact ⟨r, rfl, ignores_refl Op.noConfusion⟩

end Failed

end RawAssembler

/-! ### Jumps that wait -/

namespace Assembler

open Layout

/-- A jump that waits is one of the operations, and its operand stands in the code right behind its opcode. -/
def Anchored (ops : List Op) (code : Array UInt8) (fixup : Fixup) : Prop :=
  ∃ before op after, ops = before ++ op :: after ∧ fixup.location = extent before + 1 ∧
    (op = .jump fixup.label ∧ code[extent before]? = some 0x0B ∨
      op = .jumpIfZero fixup.label ∧ code[extent before]? = some 0x0C)

/-- All jumps that wait stand in the code, and their labels exist. -/
structure Anchors (a : Assembler) (ops : List Op) : Prop where
  took : Took a ops
  anchored : a.failure = none → ∀ fixup ∈ a.pending.toList, Anchored ops a.code fixup
  known : a.failure = none → ∀ fixup ∈ a.pending.toList, fixup.label < a.labels.size

section Anchored
variable {a : Assembler} {ops : List Op} {op : Op} {code : Array UInt8} {fixup : Fixup}

theorem Anchored.append (h : Anchored ops code fixup) (more : List Op) (tail : Array UInt8) :
    Anchored (ops ++ more) (code ++ tail) fixup := by
  have hkeep {i : Nat} {b : UInt8} (hi : code[i]? = some b) : (code ++ tail)[i]? = some b := by
    rw [Array.getElem?_append_left (Array.getElem?_eq_some_iff.mp hi).1, hi]
  obtain ⟨before, op, after, rfl, hlocation, hop⟩ := h
  refine ⟨before, op, after ++ more, by rw [List.append_assoc, List.cons_append], hlocation, ?_⟩
  rcases hop with ⟨hjump, hbyte⟩ | ⟨hjump, hbyte⟩
  · exact Or.inl ⟨hjump, hkeep hbyte⟩
  · exact Or.inr ⟨hjump, hkeep hbyte⟩

/-- The operand of a jump covers no address at which an operation starts. -/
theorem extent_not_within {before after before' after' : List Op} {op op' : Op}
    (h : before ++ op :: after = before' ++ op' :: after') (hsize : op'.size = 5) :
    ¬(extent before' + 1 ≤ extent before ∧ extent before < extent before' + 5) := by
  rintro ⟨hle, hlt⟩
  rcases List.append_eq_append_iff.mp h with ⟨rest, rfl, -⟩ | ⟨rest, rfl, hrest⟩
  · rw [extent_append] at hle
    omega
  · cases rest with
    | nil =>
      rw [List.append_nil] at hle
      omega
    | cons first rest =>
      obtain ⟨rfl, -⟩ := List.cons.inj hrest
      rw [extent_append, extent, hsize] at hlt
      omega

theorem Anchored.not_covered {fixups : List Fixup} (h : ∀ fixup ∈ fixups, Anchored ops code fixup)
    {before after : List Op} (hops : ops = before ++ op :: after) : ¬Covers fixups (extent before) := by
  rintro ⟨fixup, hmem, hle, hlt⟩
  obtain ⟨before', op', after', hops', hlocation, hop⟩ := h fixup hmem
  have hsize : op'.size = 5 := by
    rcases hop with ⟨rfl, -⟩ | ⟨rfl, -⟩
    · rfl
    · rfl
  rw [hlocation] at hle hlt
  exact extent_not_within (hops.symm.trans hops') hsize ⟨hle, Nat.lt_of_lt_of_eq hlt (Nat.add_assoc _ _ _)⟩

theorem Anchors.empty : Anchors {} [] :=
  ⟨Took.empty, fun _ _ hmem => absurd hmem List.not_mem_nil, fun _ _ hmem => absurd hmem List.not_mem_nil⟩

theorem anchored_new (h : Assembled a ops) {l : Int} (hl : op.destination? = some l) (hpos : 0 ≤ l) :
    Anchored (ops ++ [op]) (a.code ++ (op.bytes fun _ => 0).toArray) ⟨a.code.size + 1, l.toNat⟩ := by
  have hfirst (b : UInt8) (bytes : List UInt8) : (a.code ++ (b :: bytes).toArray)[extent ops]? = some b := by
    rw [← h.size, Array.getElem?_append_right (Nat.le_refl _), Nat.sub_self]
    rfl
  refine ⟨ops, op, [], rfl, by rw [h.size], ?_⟩
  rw [Int.toNat_of_nonneg hpos]
  cases op <;> cases hl
  · exact Or.inl ⟨rfl, hfirst _ _⟩
  · exact Or.inr ⟨rfl, hfirst _ _⟩

theorem Anchors.apply (h : Anchors a ops) (op : Op) : Anchors (a.apply op) (ops ++ [op]) := by
  have hpending (hs : (a.apply op).failure = none) {P : Fixup → Prop} (hold : ∀ fixup ∈ a.pending.toList, P fixup)
      (hnew : ∀ l, op.destination? = some l → P ⟨a.code.size + 1, l.toNat⟩) :
      ∀ fixup ∈ (a.apply op).pending.toList, P fixup := by
    intro fixup hmem
    rw [(grown_apply hs).pending, List.mem_append, Option.mem_toList, Option.map_eq_some_iff] at hmem
    rcases hmem with hmem | ⟨l, hl, rfl⟩
    · exact hold fixup hmem
    · exact hnew l hl
  refine ⟨h.took.apply op, fun hs => ?_, fun hs => ?_⟩
  · have hsound := failure_of_apply hs
    have hgrown := grown_apply hs
    refine hpending hs (fun fixup hmem => ?_) (fun l hl => ?_)
    · rw [hgrown.code]
      exact (h.anchored hsound fixup hmem).append _ _
    · rw [hgrown.code]
      exact anchored_new (h.took.awaits hsound).assembled hl (hgrown.known l hl).1
  · have hsound := failure_of_apply hs
    have hle : a.labels.size ≤ (a.apply op).labels.size := by
      rw [size_labels_apply]
      exact Nat.le_add_right _ _
    refine hpending hs (fun fixup hmem => ?_) (fun l hl => ?_)
    · exact Nat.lt_of_lt_of_le (h.known hsound fixup hmem) hle
    · obtain ⟨hpos, hlt⟩ := (grown_apply hs).known l hl
      exact Nat.lt_of_lt_of_le ((Int.toNat_lt hpos).mpr hlt) hle

/-- Filling in leaves the opcodes as they are. -/
theorem Anchors.link (h : Anchors a ops) : Anchors a.link.1 ops := by
  cases hf : a.failure with
  | some e =>
    rw [link_of_failure hf]
    exact h
  | none =>
    have hanchored := h.anchored hf
    have hcode : ∀ fixup ∈ a.pending.toList, Anchored ops (fillIn a.labels a.pending.toList a.code).1 fixup := by
      intro fixup hmem
      obtain ⟨before, op, after, hops, hlocation, hop⟩ := hanchored fixup hmem
      refine ⟨before, op, after, hops, hlocation, ?_⟩
      rwa [fillIn_outside (Anchored.not_covered hanchored hops)]
    have htook := h.took.link
    rcases hfill : fillIn a.labels a.pending.toList a.code with ⟨code, _ | e⟩
    · rw [link_filled hf hfill] at htook ⊢
      exact ⟨htook, fun _ _ hmem => absurd hmem List.not_mem_nil, fun _ _ hmem => absurd hmem List.not_mem_nil⟩
    · rw [link_stuck hf hfill] at htook ⊢
      rw [hfill] at hcode
      exact ⟨htook, fun _ => hcode, fun _ => h.known hf⟩

theorem Anchors.serve (h : Anchors a ops) (request : Request) :
    Anchors (a.serve request).1 (ops ++ Request.ops [request]) :=
  serve_keeps Anchors.apply Anchors.link h request

theorem Anchors.serveAll (h : Anchors a ops) (requests : List Request) :
    Anchors (a.serveAll requests).1 (ops ++ Request.ops requests) :=
  serveAll_keeps Anchors.apply Anchors.link h requests

end Anchored

/-! ### Answers after a failure -/

section Failed
variable {a : Assembler} {e : AsmError}

theorem code_of_failed (h : a.failure = some e) (op : Op) : (a.apply op).code = a.code := by
  unfold Assembler.apply
  rw [h]
  cases op <;> rfl

theorem serve_failed (h : a.failure = some e) (request : Request) :
    (a.serve request).1.failure = some e ∧ (a.serve request).1.code = a.code ∧
      ∀ result, (a.serve request).2 = .linked result → result = .error e := by
  cases request with
  | emit op =>
    refine ⟨failure_apply h, code_of_failed h op, ?_⟩
    intro result hresult
    simp only [serve] at hresult
    split at hresult <;> cases hresult
  | link =>
    have hlink : a.serve .link = (a, .linked (.error e)) := by simp only [serve, link_of_failure h]
    rw [hlink]
    refine ⟨h, rfl, ?_⟩
    rintro result ⟨⟩
    rfl

theorem serveAll_failed (h : a.failure = some e) (requests : List Request) :
    (a.serveAll requests).1.failure = some e ∧ (a.serveAll requests).1.code = a.code ∧
      ∀ result, .linked result ∈ (a.serveAll requests).2 → result = .error e := by
  induction requests generalizing a with
  | nil => exact ⟨h, rfl, fun _ hmem => absurd hmem List.not_mem_nil⟩
  | cons request requests ih =>
    obtain ⟨hfailure, hcode, hreply⟩ := serve_failed h request
    obtain ⟨hfailures, hcodes, hreplies⟩ := ih hfailure
    refine ⟨hfailures, hcodes.trans hcode, ?_⟩
    intro result hmem
    rcases List.mem_cons.mp hmem with heq | hmem
    · exact hreply result heq.symm
    · exact hreplies result hmem

theorem serveAll_append (a : Assembler) (requests more : List Request) :
    a.serveAll (requests ++ more) =
      (((a.serveAll requests).1.serveAll more).1, (a.serveAll requests).2 ++ ((a.serveAll requests).1.serveAll more).2) := by
  induction requests generalizing a with
  | nil => rfl
  | cons request requests ih => simp only [List.cons_append, serveAll, ih]

end Failed

end Assembler

/-! ### Agreement -/

namespace RawAssembler

open Assembler

variable {r : RawAssembler} {a : Assembler} {ops : List Op}

theorem ofInt_natCast (n : Nat) : Word.ofInt n = UInt32.ofNat n := by
  apply UInt32.toNat_inj.mp
  rw [Word.ofInt, UInt32.toNat_ofNat', UInt32.toNat_ofNat']
  omega

theorem fillIn_eq {labels : Array (Option Nat)} {fixups : List Fixup} {code : Array UInt8}
    (hknown : ∀ f ∈ fixups, f.label < labels.size) (hwithin : ∀ f ∈ fixups, f.location + 4 ≤ code.size) :
    fillIn (labels.map address) (fixups.map fixup) code = .ok (Assembler.fillIn labels fixups code) := by
  induction fixups generalizing code with
  | nil => rfl
  | cons f fixups ih =>
    obtain ⟨m, hm⟩ : ∃ m, labels[f.label]? = some m :=
      ⟨_, Array.getElem?_eq_getElem (hknown f List.mem_cons_self)⟩
    have hread : Access.read (labels.map address) (fixup f).label = .ok (address m) :=
      Access.read_of_eq rfl (by rw [Array.getElem?_map, hm, Option.map_some])
    rw [List.map_cons, fillIn, hread, Assembler.fillIn, hm, Option.join_some]
    cases m with
    | none => rfl
    | some n =>
      have hmarked : address (some n) ≠ unmarked := fun heq => absurd (address_eq_unmarked.mp heq) (by simp)
      have hwrite : overwrite code (fixup f).location (Word.bytes32 (Word.ofInt (address (some n)))) =
          .ok (Assembler.overwrite code f.location (Word.bytes32 (UInt32.ofNat n))) := by
        rw [show Word.ofInt (address (some n)) = UInt32.ofNat n from ofInt_natCast n]
        exact overwrite_eq rfl (hwithin f List.mem_cons_self)
      simp only [bind, Except.bind, if_neg hmarked, hwrite]
      apply ih
      · intro f' hmem
        exact hknown f' (List.mem_cons_of_mem f hmem)
      · intro f' hmem
        rw [size_overwrite]
        exact hwithin f' (List.mem_cons_of_mem f hmem)

namespace Represents

theorem apply (h : Represents r a) (op : Op) : ∃ r', r.apply op = .ok r' ∧ Represents r' (a.apply op) := by
  cases hf : a.failure with
  | none =>
    rw [apply_of_sound hf]
    exact h.apply_sound hf op
  | some e =>
    -- What is marked or noted now differs, but no link will look at it.
    obtain ⟨r', happly, hignores⟩ := apply_failed (h.failure.trans hf) op
    refine ⟨r', happly, ?_⟩
    refine h.of_failed hf hignores.code hignores.failure (code_of_failed hf op) ((failure_apply hf).trans hf.symm) ?_
    rw [hignores.labels, size_labels_apply, h.size]

theorem link (h : Represents r a) (hanchors : Anchors a ops) :
    ∃ r', r.link = .ok (r', a.link.2) ∧ Represents r' a.link.1 := by
  cases hf : a.failure with
  | some e =>
    rw [link_of_failure hf]
    refine ⟨r, ?_, h⟩
    simp only [RawAssembler.link, h.failure, hf]
    rfl
  | none =>
    have hfill := fillIn_eq (hanchors.known hf) (hanchors.took.awaits hf).assembled.within
    -- Without a failure the raw jumps are those that wait, and all of them are anchored.
    have hpending : r.fixups.toList = a.pending.toList.map fixup := by rw [h.fixups hf, Array.toList_map]
    rw [← hpending, ← h.labels hf] at hfill
    rcases hcode : Assembler.fillIn a.labels a.pending.toList a.code with ⟨code, _ | e⟩
    · rw [link_filled hf hcode]
      refine ⟨{ r with code, fixups := #[] }, ?_, rfl, h.failure, h.size, h.labels, fun _ => Array.map_empty.symm⟩
      simp only [RawAssembler.link, h.failure, hf, h.code, hfill, hcode]
      rfl
    · rw [link_stuck hf hcode]
      refine ⟨{ r with code }, ?_, rfl, h.failure, h.size, h.labels, h.fixups⟩
      simp only [RawAssembler.link, h.failure, hf, h.code, hfill, hcode]
      rfl

theorem serve (h : Represents r a) (hanchors : Anchors a ops) (request : Request) :
    ∃ r', r.serve request = .ok (r', (a.serve request).2) ∧ Represents r' (a.serve request).1 := by
  cases request with
  | emit op =>
    obtain ⟨r', happly, hrep⟩ := h.apply op
    refine ⟨r', ?_, hrep⟩
    simp only [RawAssembler.serve, happly, Assembler.serve]
    by_cases hop : op = .newLabel
    · subst hop
      have hlabel : r'.labels.size - 1 = a.nextLabel := by
        rw [hrep.size, size_labels_apply, List.count_singleton_self, Nat.add_sub_cancel]
        rfl
      rw [← hlabel]
      rfl
    · simp only [if_neg hop]
      rfl
  | link =>
    obtain ⟨r', hlink, hrep⟩ := h.link hanchors
    refine ⟨r', ?_, hrep⟩
    simp only [RawAssembler.serve, hlink]
    rfl

/-- No access is out of bounds, and the answers are those of the assembler that is stood for. -/
theorem serveAll (h : Represents r a) (hanchors : Anchors a ops) (requests : List Request) :
    ∃ r', r.serveAll requests = .ok (r', (a.serveAll requests).2) ∧ Represents r' (a.serveAll requests).1 := by
  induction requests generalizing r a ops with
  | nil => exact ⟨r, rfl, h⟩
  | cons request requests ih =>
    obtain ⟨r₁, hserve, h₁⟩ := h.serve hanchors request
    obtain ⟨r₂, hrest, h₂⟩ := ih h₁ (hanchors.serve request)
    refine ⟨r₂, ?_, h₂⟩
    simp only [RawAssembler.serveAll, hserve, bind, Except.bind, hrest]
    rfl

end Represents

end RawAssembler

open Assembler

/-- An assembler never goes astray, and its first failure is final, whatever it is asked for. Over raw memory it answers as
it does anyway, so no access is out of bounds. Without a failure every jump that waits is one of the operations, its operand
follows its opcode in the code, and its label exists. The failure is the first complaint about an operation; from then on
the code stays as it is, and every link gives that failure. -/
theorem assembler_keeps_first_failure (requests : List Request) :
    ∃ r, RawAssembler.serveAll {} requests = .ok (r, (({} : Assembler).serveAll requests).2) ∧
      r.code = (({} : Assembler).serveAll requests).1.code ∧
      r.failure = Op.firstComplaint [] (Request.ops requests) ∧
      (r.failure = none → ∀ fixup ∈ r.fixups, 1 ≤ fixup.location ∧ fixup.location + 4 ≤ r.code.size ∧
        0 ≤ fixup.label ∧ fixup.label < r.labels.size ∧
        ∃ before op after, Request.ops requests = before ++ op :: after ∧ fixup.location = Layout.extent before + 1 ∧
          (op = .jump fixup.label ∧ r.code[Layout.extent before]? = some 0x0B ∨
            op = .jumpIfZero fixup.label ∧ r.code[Layout.extent before]? = some 0x0C)) ∧
      ∀ e, r.failure = some e → ∀ more, ∃ r' replies,
        RawAssembler.serveAll {} (requests ++ more) = .ok (r', (({} : Assembler).serveAll requests).2 ++ replies) ∧
        r'.failure = some e ∧ r'.code = r.code ∧ ∀ result, .linked result ∈ replies → result = .error e := by
  have hanchors := Anchors.empty.serveAll requests
  obtain ⟨r, hserve, hrep⟩ := RawAssembler.represents_empty.serveAll Anchors.empty requests
  refine ⟨r, hserve, hrep.code, hrep.failure.trans hanchors.took.failure, ?_, ?_⟩
  · intro hs fixup hmem
    have hsound := hrep.failure.symm.trans hs
    rw [hrep.fixups hsound, Array.mem_map] at hmem
    obtain ⟨f, hf, rfl⟩ := hmem
    have hf := Array.mem_toList_iff.mpr hf
    obtain ⟨before, op, after, hops, hlocation, hop⟩ := hanchors.anchored hsound f hf
    have hwithin := (hanchors.took.awaits hsound).assembled.within f hf
    have hknown := hanchors.known hsound f hf
    refine ⟨?_, ?_, Int.natCast_nonneg _, ?_, before, op, after, hops, ?_, ?_⟩
    · show (1 : Int) ≤ f.location
      rw [hlocation]
      exact Int.ofNat_le.mpr (Nat.le_add_left 1 _)
    · rw [hrep.code]
      exact Int.ofNat_le.mpr hwithin
    · rw [hrep.size]
      exact Int.ofNat_lt.mpr hknown
    · exact congrArg Int.ofNat hlocation
    · rw [hrep.code]
      exact hop
  · intro e he more
    have hfailed := hrep.failure.symm.trans he
    obtain ⟨hfailure, hcode, hreplies⟩ := serveAll_failed hfailed more
    obtain ⟨r', hserve', hrep'⟩ := RawAssembler.represents_empty.serveAll Anchors.empty (requests ++ more)
    rw [serveAll_append] at hserve' hrep'
    exact ⟨r', _, hserve', hrep'.failure.trans hfailure, hrep'.code.trans (hcode.trans hrep.code.symm), hreplies⟩

/-- A jump that waits is found behind its opcode. One that is noted after a failure has an operand before the start of the
code, and it is never filled in. -/
theorem negative_operand_never_filled_in :
    (∃ r replies, RawAssembler.serveAll {} [.emit .newLabel, .emit .load, .emit (.jumpIfZero 0)] = .ok (r, replies) ∧
      r.fixups = #[⟨2, 0⟩] ∧ r.code.size = 6 ∧
      ∃ before op after, [.newLabel, .load, .jumpIfZero 0] = before ++ op :: after ∧ (2 : Int) = Layout.extent before + 1 ∧
        (op = .jump 0 ∧ r.code[Layout.extent before]? = some 0x0B ∨
          op = .jumpIfZero 0 ∧ r.code[Layout.extent before]? = some 0x0C)) ∧
    ∃ r replies, RawAssembler.serveAll {} ([.emit .newLabel, .emit (.step 2)] ++
        [.emit (.jump 0), .emit (.mark 0), .link, .emit (.alloc (-1)), .link]) =
          .ok (r, [.label 0, .done] ++ replies) ∧
      r.fixups = #[⟨-4, 0⟩] ∧ r.failure = some (.stepDelta 2) ∧ r.code = #[] ∧
      ∀ result, .linked result ∈ replies → result = .error (.stepDelta 2) := by
  constructor
  · obtain ⟨r, hserve, -, hfailure, hpending, -⟩ :=
      assembler_keeps_first_failure [.emit .newLabel, .emit .load, .emit (.jumpIfZero 0)]
    have hr : r = ⟨#[0x04, 0x0C, 0, 0, 0, 0], #[-1], #[⟨2, 0⟩], none⟩ :=
      (Prod.mk.inj (Except.ok.inj (hserve.symm.trans rfl))).1
    subst hr
    obtain ⟨-, -, -, -, hanchored⟩ := hpending hfailure ⟨2, 0⟩ (Array.mem_singleton.mpr rfl)
    exact ⟨_, _, hserve, rfl, rfl, hanchored⟩
  · obtain ⟨r, -, hcode, hfailure, -, hfinal⟩ := assembler_keeps_first_failure [.emit .newLabel, .emit (.step 2)]
    obtain ⟨r', replies, hserve, hfailure', hcode', hreplies⟩ := hfinal (.stepDelta 2) hfailure _
    refine ⟨r', replies, hserve, ?_, hfailure', hcode'.trans hcode, hreplies⟩
    have hr : r' = ⟨#[], #[0], #[⟨-4, 0⟩], some (.stepDelta 2)⟩ :=
      (Prod.mk.inj (Except.ok.inj (hserve.symm.trans rfl))).1
    rw [hr]

end TapeCode
