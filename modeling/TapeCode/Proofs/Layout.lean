import TapeCode.Assembler
import TapeCode.Proofs.Encoding

/-!
Where operations stand in the code. Assembling places the instructions of the operations one behind the other;
labels take no room, and a jump gets the address of the operation that marks its label. `Assembled` says what holds
of an assembler while operations are added, and `Assembled.link` what the code is in the end.
-/

namespace TapeCode

namespace Op

/-- The instruction of an operation, given the addresses of labels. Creating and marking labels is none. -/
def instr? (address : Int → UInt32) : Op → Option Instr
  | alloc cells => some (.alloc (Word.ofInt cells))
  | reset => some .reset
  | openInput => some .openInput
  | load => some .load
  | store => some .store
  | add n => some (.add (Word.ofInt n))
  | sub n => some (.sub (Word.ofInt n))
  | step delta => some (if delta = 1 then .forward else .back)
  | move delta => some (.move (Word.ofInt delta))
  | newLabel => none
  | mark _ => none
  | jump label => some (.jump (address label))
  | jumpIfZero label => some (.jumpIfZero (address label))
  | getc => some .getc
  | putc => some .putc
  | halt => some .halt

/-- The label that an operation jumps to. -/
def destination? : Op → Option Int
  | jump label | jumpIfZero label => some label
  | alloc _ | reset | openInput | load | store | add _ | sub _ | step _ | move _ | newLabel | mark _ | getc | putc
  | halt => none

/-- The arguments have an encoding. -/
def Encodable : Op → Prop
  | alloc cells => 0 ≤ cells ∧ cells < 4294967296
  | step delta => delta = 1 ∨ delta = -1
  | move delta => -2147483648 ≤ delta ∧ delta < 2147483648
  | reset | openInput | load | store | add _ | sub _ | newLabel | mark _ | jump _ | jumpIfZero _ | getc | putc
  | halt => True

/-- The code of an operation, given the addresses of labels. -/
def bytes (address : Int → UInt32) (op : Op) : List UInt8 :=
  ((op.instr? address).map Instr.encode).getD []

/-- The number of bytes that the code of an operation takes. -/
def size : Op → Nat
  | newLabel | mark _ => 0
  | alloc _ | add _ | sub _ | move _ | jump _ | jumpIfZero _ => 5
  | reset | openInput | load | store | step _ | getc | putc | halt => 1

theorem length_bytes (address : Int → UInt32) (op : Op) : (op.bytes address).length = op.size := by
  cases op with
  | step delta =>
    by_cases hd : delta = 1
    · simp only [bytes, instr?, hd, ↓reduceIte]
      rfl
    · simp only [bytes, instr?, hd, ↓reduceIte]
      rfl
  | _ => rfl

theorem length_instr {address : Int → UInt32} {op : Op} {i : Instr} (h : op.instr? address = some i) :
    i.length = op.size := by
  rw [← length_bytes address, bytes, h, Option.map_some, Option.getD_some, Instr.length_encode]

theorem size_label {address : Int → UInt32} {op : Op} (h : op.instr? address = none) : op.size = 0 := by
  rw [← length_bytes address, bytes, h]
  rfl

theorem instr?_congr {f g : Int → UInt32} {op : Op} (h : ∀ l, op.destination? = some l → f l = g l) :
    op.instr? f = op.instr? g := by
  cases op with
  | jump l => rw [instr?, instr?, h l rfl]
  | jumpIfZero l => rw [instr?, instr?, h l rfl]
  | _ => rfl

end Op

namespace Layout

/-! ### Extents and images -/

/-- The number of bytes that the code of some operations takes. -/
def extent : List Op → Nat
  | [] => 0
  | op :: ops => op.size + extent ops

/-- The code of some operations, given the addresses of labels. -/
def image (address : Int → UInt32) (ops : List Op) : List UInt8 :=
  ops.flatMap (Op.bytes address)

/-- The address of a label: that of the operation which marks it. -/
def labelAddress (ops : List Op) (label : Int) : Nat :=
  extent (ops.take (ops.idxOf (.mark label)))

section Image
variable {address : Int → UInt32} {ops more : List Op} {op : Op} {k : Nat}

theorem extent_append (ops more : List Op) : extent (ops ++ more) = extent ops + extent more := by
  induction ops with
  | nil => simp [extent]
  | cons op ops ih => simp only [List.cons_append, extent, ih, Nat.add_assoc]

theorem extent_singleton (op : Op) : extent [op] = op.size := Nat.add_zero _

theorem extent_take_le (ops : List Op) (k : Nat) : extent (ops.take k) ≤ extent ops := by
  have h := extent_append (ops.take k) (ops.drop k)
  rw [List.take_append_drop] at h
  omega

theorem image_append : image address (ops ++ more) = image address ops ++ image address more :=
  List.flatMap_append

theorem image_singleton : image address [op] = op.bytes address := by
  simp [image]

theorem length_image (address : Int → UInt32) (ops : List Op) : (image address ops).length = extent ops := by
  induction ops with
  | nil => rfl
  | cons op ops ih =>
    rw [image, List.flatMap_cons, List.length_append, Op.length_bytes, extent]
    exact congrArg (op.size + ·) ih

theorem image_congr {f g : Int → UInt32} (h : ∀ op ∈ ops, ∀ l, op.destination? = some l → f l = g l) :
    image f ops = image g ops := by
  induction ops with
  | nil => rfl
  | cons op ops ih =>
    rw [image, image, List.flatMap_cons, List.flatMap_cons, Op.bytes, Op.bytes,
      Op.instr?_congr (h op List.mem_cons_self)]
    exact congrArg (_ ++ ·) (ih fun op' hop' => h op' (List.mem_cons_of_mem op hop'))

theorem take_succ (h : ops[k]? = some op) : ops.take (k + 1) = ops.take k ++ [op] := by
  rw [List.take_add_one, h, Option.toList_some]

theorem extent_take_succ (h : ops[k]? = some op) : extent (ops.take (k + 1)) = extent (ops.take k) + op.size := by
  rw [take_succ h, extent_append, extent_singleton]

theorem image_split (h : ops[k]? = some op) :
    image address ops = image address (ops.take k) ++ (op.bytes address ++ image address (ops.drop (k + 1))) := by
  rw [← image_singleton, ← List.append_assoc, ← image_append, ← take_succ h, ← image_append, List.take_append_drop]

/-- The instruction of an operation is found at the extent of what stands before it. -/
theorem decodeAt_image {code : Array UInt8} {i : Instr} (hcode : code.toList = image address ops)
    (hop : ops[k]? = some op) (hi : op.instr? address = some i) :
    Instr.decodeAt code (extent (ops.take k)) = .ok i := by
  rw [image_split hop, Op.bytes, hi, Option.map_some, Option.getD_some] at hcode
  rw [← length_image address]
  exact Instr.decodeAt_encode hcode

theorem decodeAt_image_end {code : Array UInt8} (hcode : code.toList = image address ops) :
    Instr.decodeAt code (extent ops) = .error .outside := by
  apply Instr.decodeAt_outside
  exact Nat.le_of_eq (by rw [← Array.length_toList, hcode, length_image])

end Image

end Layout

namespace Assembler

open Layout

/-! ### Filling in -/

section FillIn
variable {code : Array UInt8} {location : Nat} {bytes : List UInt8} {labels : Array (Option Nat)}
  {fixups : List Fixup}

theorem size_overwrite : (overwrite code location bytes).size = code.size := by
  induction bytes generalizing code location with
  | nil => rfl
  | cons b bytes ih => rw [overwrite, ih, Array.size_setIfInBounds]

theorem overwrite_append (h : location + bytes.length ≤ code.size) (tail : Array UInt8) :
    overwrite (code ++ tail) location bytes = overwrite code location bytes ++ tail := by
  induction bytes generalizing code location with
  | nil => rfl
  | cons b bytes ih =>
    rw [List.length_cons] at h
    rw [overwrite, overwrite, Array.setIfInBounds_append_left (by omega), ih]
    rw [Array.size_setIfInBounds]
    omega

theorem overwrite_end (code : Array UInt8) {old bytes : List UInt8} (h : old.length = bytes.length) :
    overwrite (code ++ old.toArray) code.size bytes = code ++ bytes.toArray := by
  induction bytes generalizing code old with
  | nil => rw [overwrite, List.length_eq_zero_iff.mp h]
  | cons b bytes ih =>
    cases old with
    | nil => cases h
    | cons o old =>
      have hset : (code ++ (o :: old).toArray).setIfInBounds code.size b = code.push b ++ old.toArray := by
        rw [Array.setIfInBounds_append_right (Nat.le_refl _), Nat.sub_self]
        simp
      rw [overwrite, hset, ← Array.size_push (v := b), ih _ (Nat.succ.inj h)]
      simp

theorem fillIn_append (labels : Array (Option Nat)) (xs ys : List Fixup) {code code' : Array UInt8}
    (h : fillIn labels xs code = (code', none)) : fillIn labels (xs ++ ys) code = fillIn labels ys code' := by
  induction xs generalizing code with
  | nil =>
    cases h
    rfl
  | cons fixup xs ih =>
    rw [List.cons_append]
    cases hmark : (labels[fixup.label]?).join with
    | none =>
      simp only [fillIn, hmark] at h
      cases h
    | some target =>
      simp only [fillIn, hmark] at h ⊢
      exact ih h

theorem fillIn_code_append (h : ∀ fixup ∈ fixups, fixup.location + 4 ≤ code.size) (tail : Array UInt8) :
    fillIn labels fixups (code ++ tail) =
      ((fillIn labels fixups code).1 ++ tail, (fillIn labels fixups code).2) := by
  induction fixups generalizing code with
  | nil => rfl
  | cons fixup fixups ih =>
    have hhead : fixup.location + 4 ≤ code.size := h fixup List.mem_cons_self
    unfold fillIn
    cases (labels[fixup.label]?).join with
    | none => rfl
    | some target =>
      dsimp only
      rw [overwrite_append hhead, ih]
      intro fixup' hmem
      rw [size_overwrite]
      exact h fixup' (List.mem_cons_of_mem fixup hmem)

theorem marked_of_fillIn {code' : Array UInt8} (h : fillIn labels fixups code = (code', none)) :
    ∀ fixup ∈ fixups, ((labels[fixup.label]?).join).isSome := by
  induction fixups generalizing code with
  | nil => exact fun _ hmem => absurd hmem List.not_mem_nil
  | cons fixup fixups ih =>
    unfold fillIn at h
    cases hmark : (labels[fixup.label]?).join with
    | none =>
      rw [hmark] at h
      cases h
    | some target =>
      rw [hmark] at h
      intro fixup' hmem
      rcases List.mem_cons.mp hmem with rfl | hmem
      · rw [hmark, Option.isSome_some]
      · exact ih h fixup' hmem

end FillIn

/-! ### Adding operations -/

/-- The mark of a label in a table of marks. -/
def markIn (table : Array (Option Nat)) (label : Nat) : Option Nat :=
  (table[label]?).join

/-- The address of a label by a table of marks. -/
def addressIn (table : Array (Option Nat)) (label : Int) : UInt32 :=
  UInt32.ofNat ((markIn table label.toNat).getD 0)

/-- A table with all marks of another one, and with marks for all jumps. -/
structure Completes (table labels : Array (Option Nat)) (ops : List Op) : Prop where
  keeps : ∀ {l n : Nat}, markIn labels l = some n → markIn table l = some n
  reaches : ∀ op ∈ ops, ∀ l, op.destination? = some l → (markIn table l.toNat).isSome

/-- What holds of an assembler that has taken some operations without a failure. -/
structure Assembled (a : Assembler) (ops : List Op) : Prop where
  sound : a.failure = none
  size : a.code.size = extent ops
  marked : ∀ l : Nat, markIn a.labels l = if Op.mark l ∈ ops then some (labelAddress ops l) else none
  /-- A jump waits for its label, or its label is marked. -/
  destinations : ∀ op ∈ ops, ∀ l, op.destination? = some l →
    0 ≤ l ∧ ((∃ fixup ∈ a.pending.toList, fixup.label = l.toNat) ∨ Op.mark l ∈ ops)
  once : ∀ {k : Nat} {l : Int}, ops[k]? = some (.mark l) → ops.idxOf (.mark l) = k
  encodable : ∀ op ∈ ops, op.Encodable
  within : ∀ fixup ∈ a.pending.toList, fixup.location + 4 ≤ a.code.size
  /-- Whatever marks are added later, filling in the pending jumps gives the image of the operations. -/
  filled : ∀ table, Completes table a.labels ops →
    fillIn table a.pending.toList a.code = ((image (addressIn table) ops).toArray, none)

theorem Completes.shorten {table labels labels' : Array (Option Nat)} {ops more : List Op}
    (h : Completes table labels' (ops ++ more))
    (hl : ∀ {l n : Nat}, markIn labels l = some n → markIn labels' l = some n) : Completes table labels ops where
  keeps hn := h.keeps (hl hn)
  reaches op hop := h.reaches op (List.mem_append_left more hop)

theorem assembled_empty : Assembled {} [] where
  sound := rfl
  size := rfl
  marked l := by simp [markIn]
  destinations op hop := absurd hop List.not_mem_nil
  once h := by cases h
  encodable op hop := absurd hop List.not_mem_nil
  within fixup hmem := absurd hmem List.not_mem_nil
  filled table _ := rfl

section Labels
variable {ops more : List Op} {op : Op} {label : Int}

theorem labelAddress_append (h : Op.mark label ∈ ops) : labelAddress (ops ++ more) label = labelAddress ops label := by
  rw [labelAddress, labelAddress, List.idxOf_append, if_pos h,
    List.take_append_of_le_length (Nat.le_of_lt (List.idxOf_lt_length_of_mem h))]

theorem labelAddress_end (h : Op.mark label ∉ ops) : labelAddress (ops ++ [.mark label]) label = extent ops := by
  rw [labelAddress, List.idxOf_append, if_neg h, List.idxOf_cons_self, Nat.zero_add, List.take_left]

theorem once_snoc (h : ∀ {k : Nat} {l : Int}, ops[k]? = some (.mark l) → ops.idxOf (.mark l) = k)
    (hnew : ∀ l, op = .mark l → Op.mark l ∉ ops) {k : Nat} {l : Int} (hk : (ops ++ [op])[k]? = some (.mark l)) :
    (ops ++ [op]).idxOf (.mark l) = k := by
  rw [List.getElem?_append] at hk
  split at hk
  · rw [List.idxOf_append, if_pos (List.mem_of_getElem? hk)]
    exact h hk
  · obtain ⟨hlen, hop⟩ := List.getElem?_eq_some_iff.mp hk
    rw [List.length_singleton] at hlen
    rw [List.getElem_singleton] at hop
    rw [List.idxOf_append, if_neg (hnew l hop), hop, List.idxOf_cons_self]
    omega

theorem forall_snoc {P : Op → Prop} (h : ∀ op ∈ ops, P op) (hop : P op) : ∀ op' ∈ ops ++ [op], P op' := by
  intro op' hmem
  rcases List.mem_append.mp hmem with hmem | hmem
  · exact h op' hmem
  · rw [List.mem_singleton.mp hmem]
    exact hop

theorem marked_snoc {labels : Array (Option Nat)}
    (h : ∀ l : Nat, markIn labels l = if Op.mark l ∈ ops then some (labelAddress ops l) else none)
    (hop : ∀ l, op ≠ .mark l) (l : Nat) :
    markIn labels l = if Op.mark l ∈ ops ++ [op] then some (labelAddress (ops ++ [op]) l) else none := by
  rw [h]
  by_cases hmem : Op.mark l ∈ ops
  · rw [if_pos hmem, if_pos (List.mem_append_left _ hmem), labelAddress_append hmem]
  · rw [if_neg hmem, if_neg]
    simpa [hmem] using (hop l).symm

end Labels

namespace Assembled
variable {a : Assembler} {ops : List Op} {op : Op} {i : Instr}

theorem code_emit (a : Assembler) (i : Instr) : (a.emit i).code = a.code ++ i.encode.toArray :=
  Array.ext' (by simp [Assembler.emit])

theorem size_emit (i : Instr) : (a.emit i).code.size = a.code.size + i.length := by
  simp [code_emit]

theorem destinations_snoc (h : Assembled a ops) (hd : op.destination? = none) :
    ∀ op' ∈ ops ++ [op], ∀ l, op'.destination? = some l →
      0 ≤ l ∧ ((∃ fixup ∈ a.pending.toList, fixup.label = l.toNat) ∨ Op.mark l ∈ ops ++ [op]) := by
  refine forall_snoc (fun op' hop' l hl => ?_) (fun l hl => ?_)
  · obtain ⟨hpos, hwait⟩ := h.destinations op' hop' l hl
    exact ⟨hpos, hwait.imp_right (List.mem_append_left _)⟩
  · rw [hd] at hl
    cases hl

theorem emit (h : Assembled a ops) (hi : ∀ address, op.instr? address = some i) (hd : op.destination? = none)
    (henc : op.Encodable) : Assembled (a.emit i) (ops ++ [op]) where
  sound := h.sound
  size := by rw [size_emit, h.size, extent_append, extent_singleton, Op.length_instr (hi fun _ => 0)]
  marked := marked_snoc h.marked fun l hl => by
    have := hi fun _ => 0
    rw [hl] at this
    cases this
  destinations := h.destinations_snoc hd
  once := once_snoc h.once fun l hl => by
    have := hi fun _ => 0
    rw [hl] at this
    cases this
  encodable := forall_snoc h.encodable henc
  within fixup hmem := by
    rw [size_emit]
    exact Nat.le_trans (h.within fixup hmem) (Nat.le_add_right _ _)
  filled table htable := by
    show fillIn table a.pending.toList (a.emit i).code = _
    rw [code_emit, fillIn_code_append h.within, h.filled table (htable.shorten id), image_append, image_singleton,
      Op.bytes, hi, Option.map_some, Option.getD_some, List.append_toArray]

theorem newLabel (h : Assembled a ops) :
    Assembled { a with labels := a.labels.push none } (ops ++ [.newLabel]) := by
  have hmark : ∀ l, markIn (a.labels.push none) l = markIn a.labels l := by
    intro l
    rw [markIn, markIn, Array.getElem?_push]
    split
    · rename_i hl
      rw [hl, Array.getElem?_eq_none (Nat.le_refl _)]
      rfl
    · rfl
  exact
    { sound := h.sound
      size := by rw [extent_append]; exact h.size
      marked := fun l => (hmark l).trans (marked_snoc h.marked (fun _ => Op.noConfusion) l)
      destinations := h.destinations_snoc rfl
      once := once_snoc h.once fun _ => Op.noConfusion
      encodable := forall_snoc h.encodable trivial
      within := h.within
      filled := fun table htable => by
        rw [image_append, h.filled table (htable.shorten fun hn => (hmark _).trans hn)]
        simp [image, Op.bytes, Op.instr?] }

theorem mark (h : Assembled a ops) {n : Nat} (hn : n < a.labels.size) (hunmarked : markIn a.labels n = none) :
    Assembled { a with labels := a.labels.setIfInBounds n (some a.code.size) } (ops ++ [.mark n]) := by
  have hnew : Op.mark n ∉ ops := by
    intro hmem
    have := h.marked n
    rw [if_pos hmem, hunmarked] at this
    cases this
  have hmark : ∀ l, markIn (a.labels.setIfInBounds n (some a.code.size)) l =
      if n = l then some a.code.size else markIn a.labels l := by
    intro l
    rw [markIn, Array.getElem?_setIfInBounds]
    split
    · rfl
    · rfl
  exact
    { sound := h.sound
      size := by rw [extent_append]; exact h.size
      marked := fun l => by
        rw [hmark]
        by_cases hnl : n = l
        · subst hnl
          rw [if_pos rfl, if_pos (by simp), labelAddress_end hnew, h.size]
        · rw [if_neg hnl, h.marked]
          have hiff : Op.mark (l : Int) ∈ ops ++ [.mark (n : Int)] ↔ Op.mark (l : Int) ∈ ops := by
            simp [show (l : Int) ≠ n by omega]
          by_cases hmem : Op.mark (l : Int) ∈ ops
          · rw [if_pos hmem, if_pos (hiff.mpr hmem), labelAddress_append hmem]
          · rw [if_neg hmem, if_neg (mt hiff.mp hmem)]
      destinations := h.destinations_snoc rfl
      once := once_snoc h.once fun l hl => by
        cases hl
        exact hnew
      encodable := forall_snoc h.encodable trivial
      within := h.within
      filled := fun table htable => by
        rw [image_append, h.filled table (htable.shorten fun hl => ?_)]
        · simp [image, Op.bytes, Op.instr?]
        · rw [hmark, if_neg]
          · exact hl
          · rintro rfl
            rw [hunmarked] at hl
            cases hl }

theorem fillIn_jump {table : Array (Option Nat)} {done : List UInt8} {n target : Nat} {jump : UInt32 → Instr}
    (h : Assembled a ops) (hw : ∀ w, (jump w).encode = (jump 0).opcode.toByte :: Word.bytes32 w)
    (hdone : fillIn table a.pending.toList a.code = (done.toArray, none)) (hsize : done.length = a.code.size)
    (htarget : markIn table n = some target) :
    fillIn table (a.pending.toList ++ [⟨a.code.size + 1, n⟩]) (a.code ++ (jump 0).encode.toArray) =
      ((done ++ (jump (UInt32.ofNat target)).encode).toArray, none) := by
  have hold : fillIn table a.pending.toList (a.code ++ (jump 0).encode.toArray) =
      (done.toArray ++ (jump 0).encode.toArray, none) := by
    rw [fillIn_code_append h.within, hdone]
  -- The operand of the jump starts behind what is filled in already and the opcode.
  have hstart : a.code.size + 1 = (done.toArray ++ #[(jump 0).opcode.toByte]).size := by
    simp [hsize]
  rw [fillIn_append _ _ _ hold, fillIn, show (table[n]?).join = some target from htarget]
  dsimp only
  rw [hw 0, ← List.singleton_append, ← List.append_toArray, ← Array.append_assoc, hstart,
    overwrite_end _ (show (Word.bytes32 0).length = (Word.bytes32 (UInt32.ofNat target)).length from rfl), fillIn, hw]
  simp

/-- A jump is emitted with an empty operand, and its label is noted. -/
theorem emitJump (h : Assembled a ops) {n : Nat} {jump : UInt32 → Instr} {op : Op}
    (hop : ∀ address, op.instr? address = some (jump (address n))) (hd : op.destination? = some (n : Int))
    (henc : op.Encodable) (hw : ∀ w, (jump w).encode = (jump 0).opcode.toByte :: Word.bytes32 w) :
    Assembled ({ a with pending := a.pending.push ⟨a.code.size + 1, n⟩ }.emit (jump 0)) (ops ++ [op]) where
  sound := h.sound
  size := by
    rw [size_emit, extent_append, extent_singleton, Op.length_instr (hop fun _ => 0)]
    exact congrArg (· + op.size) h.size
  marked := marked_snoc h.marked fun l hl => by
    rw [hl] at hd
    cases hd
  destinations := forall_snoc
    (fun op' hop' l hl => by
      obtain ⟨hpos, hwait⟩ := h.destinations op' hop' l hl
      refine ⟨hpos, hwait.imp (fun ⟨fixup, hmem, hlabel⟩ => ⟨fixup, ?_, hlabel⟩) (List.mem_append_left _)⟩
      simp only [Assembler.emit, Array.toList_push]
      exact List.mem_append_left _ hmem)
    (fun l hl => by
      rw [hd] at hl
      cases hl
      exact ⟨Int.natCast_nonneg n, Or.inl ⟨⟨a.code.size + 1, n⟩, by simp [Assembler.emit], rfl⟩⟩)
  once := once_snoc h.once fun l hl => by
    rw [hl] at hd
    cases hd
  encodable := forall_snoc h.encodable henc
  within fixup hmem := by
    have hlen : (jump 0).length = 5 := by
      rw [← Instr.length_encode, hw]
      rfl
    rw [size_emit, hlen]
    simp only [Assembler.emit, Array.toList_push, List.mem_append, List.mem_singleton] at hmem
    rcases hmem with hmem | rfl
    · exact Nat.le_trans (h.within fixup hmem) (Nat.le_add_right _ _)
    · exact Nat.le_of_eq (Nat.add_assoc _ _ _)
  filled table htable := by
    have hsome := htable.reaches op (by simp) n hd
    rw [Int.toNat_natCast] at hsome
    obtain ⟨target, htarget⟩ := Option.isSome_iff_exists.mp hsome
    have hlast : addressIn table n = UInt32.ofNat target := by
      rw [addressIn, Int.toNat_natCast, htarget, Option.getD_some]
    have hsize : (image (addressIn table) ops).length = a.code.size := by rw [length_image, h.size]
    rw [code_emit]
    simp only [Assembler.emit, Array.toList_push]
    rw [h.fillIn_jump hw (h.filled table (htable.shorten id)) hsize htarget, image_append, image_singleton, Op.bytes,
      hop, Option.map_some, Option.getD_some, hlast]

end Assembled

section Apply
variable {a : Assembler} {ops : List Op} {op : Op} {label : Int}

theorem label?_eq_some {n : Nat} (h : a.label? label = some n) : label = n ∧ n < a.labels.size := by
  unfold label? at h
  split at h
  · rename_i hrange
    obtain rfl := Option.some.inj h
    omega
  · cases h

theorem failure_apply {e : AsmError} (h : a.failure = some e) : (a.apply op).failure = some e := by
  unfold apply
  rw [h]
  cases op <;> exact h

theorem failure_foldl {e : AsmError} (h : a.failure = some e) : (ops.foldl apply a).failure = some e := by
  induction ops generalizing a with
  | nil => exact h
  | cons op ops ih => exact ih (failure_apply h)

theorem emitJump_inv {jump : UInt32 → Instr} (hs : (a.emitJump jump label).failure = none) : ∃ n : Nat, label = n ∧
    a.emitJump jump label = { a with pending := a.pending.push ⟨a.code.size + 1, n⟩ }.emit (jump 0) := by
  unfold Assembler.emitJump at hs ⊢
  cases hl : a.label? label with
  | none =>
    rw [hl] at hs
    cases hs
  | some n => exact ⟨n, (label?_eq_some hl).1, rfl⟩

theorem mark_inv (hs : (a.mark label).failure = none) : ∃ n : Nat, label = n ∧ n < a.labels.size ∧
    markIn a.labels n = none ∧ a.mark label = { a with labels := a.labels.setIfInBounds n (some a.code.size) } := by
  unfold Assembler.mark at hs ⊢
  cases hl : a.label? label with
  | none =>
    rw [hl] at hs
    cases hs
  | some n =>
    obtain ⟨hlabel, hlt⟩ := label?_eq_some hl
    rw [hl] at hs
    dsimp only at hs ⊢
    cases hm : (a.labels[n]?).join with
    | none => exact ⟨n, hlabel, hlt, hm, rfl⟩
    | some target =>
      rw [hm] at hs
      cases hs

theorem Assembled.apply (h : Assembled a ops) (hs : (a.apply op).failure = none) :
    Assembled (a.apply op) (ops ++ [op]) := by
  have happly : a.apply op = a.assemble op := by simp only [Assembler.apply, h.sound]
  rw [happly] at hs ⊢
  cases op with
  | alloc cells =>
    by_cases hrange : 0 ≤ cells ∧ cells < 4294967296
    · rw [assemble, if_pos hrange]
      exact h.emit (fun _ => rfl) rfl hrange
    · rw [assemble, if_neg hrange] at hs
      cases hs
  | reset => exact h.emit (fun _ => rfl) rfl trivial
  | openInput => exact h.emit (fun _ => rfl) rfl trivial
  | load => exact h.emit (fun _ => rfl) rfl trivial
  | store => exact h.emit (fun _ => rfl) rfl trivial
  | add n => exact h.emit (fun _ => rfl) rfl trivial
  | sub n => exact h.emit (fun _ => rfl) rfl trivial
  | step delta =>
    by_cases hone : delta = 1
    · rw [assemble, if_pos hone]
      exact h.emit (fun _ => by rw [Op.instr?, if_pos hone]) rfl (Or.inl hone)
    · rw [assemble, if_neg hone] at hs ⊢
      by_cases hback : delta = -1
      · rw [if_pos hback]
        exact h.emit (fun _ => by rw [Op.instr?, if_neg hone]) rfl (Or.inr hback)
      · rw [if_neg hback] at hs
        cases hs
  | move delta =>
    by_cases hrange : -2147483648 ≤ delta ∧ delta < 2147483648
    · rw [assemble, if_pos hrange]
      exact h.emit (fun _ => rfl) rfl hrange
    · rw [assemble, if_neg hrange] at hs
      cases hs
  | newLabel => exact h.newLabel
  | mark label =>
    obtain ⟨n, rfl, hn, hunmarked, heq⟩ := mark_inv hs
    rw [assemble, heq]
    exact h.mark hn hunmarked
  | jump label =>
    obtain ⟨n, rfl, heq⟩ := emitJump_inv hs
    rw [assemble, heq]
    exact h.emitJump (fun _ => rfl) rfl trivial fun _ => rfl
  | jumpIfZero label =>
    obtain ⟨n, rfl, heq⟩ := emitJump_inv hs
    rw [assemble, heq]
    exact h.emitJump (fun _ => rfl) rfl trivial fun _ => rfl
  | getc => exact h.emit (fun _ => rfl) rfl trivial
  | putc => exact h.emit (fun _ => rfl) rfl trivial
  | halt => exact h.emit (fun _ => rfl) rfl trivial

theorem Assembled.foldl {more : List Op} (h : Assembled a ops) (hs : (more.foldl Assembler.apply a).failure = none) :
    Assembled (more.foldl Assembler.apply a) (ops ++ more) := by
  induction more generalizing a ops with
  | nil =>
    rw [List.append_nil]
    exact h
  | cons op more ih =>
    have hop : (a.apply op).failure = none := by
      cases hf : (a.apply op).failure with
      | none => rfl
      | some e =>
        rw [List.foldl_cons, failure_foldl hf] at hs
        cases hs
    rw [← List.singleton_append, ← List.append_assoc]
    exact ih (h.apply hop) hs

end Apply

/-! ### Linking -/

/-- The code of some operations, with their jumps going to the places of their labels. -/
structure Linked (ops : List Op) (code : Array UInt8) : Prop where
  code : code.toList = image (fun l => UInt32.ofNat (labelAddress ops l)) ops
  marks : ∀ op ∈ ops, ∀ l, op.destination? = some l → Op.mark l ∈ ops
  once : ∀ {k : Nat} {l : Int}, ops[k]? = some (.mark l) → ops.idxOf (.mark l) = k
  encodable : ∀ op ∈ ops, op.Encodable

theorem Linked.size_code {ops : List Op} {code : Array UInt8} (h : Linked ops code) : code.size = extent ops := by
  rw [← Array.length_toList, h.code, length_image]

theorem Assembled.link {a : Assembler} {ops : List Op} {p : Program} (h : Assembled a ops)
    (hl : a.link.2 = .ok p) : Linked ops p.code := by
  have hmarked : ∀ l : Nat, (markIn a.labels l).isSome → Op.mark l ∈ ops := by
    intro l hl
    rw [h.marked] at hl
    split at hl
    · assumption
    · cases hl
  rw [Assembler.link, h.sound] at hl
  dsimp only at hl
  split at hl
  · cases hl
  · rename_i code hfill
    obtain rfl : ⟨Program.currentVersion, code⟩ = p := Except.ok.inj hl
    have hmarks : ∀ op ∈ ops, ∀ l, op.destination? = some l → Op.mark l ∈ ops := by
      intro op hop l hd
      obtain ⟨hpos, ⟨fixup, hmem, hlabel⟩ | hmem⟩ := h.destinations op hop l hd
      · have := hmarked fixup.label (marked_of_fillIn hfill fixup hmem)
        rwa [hlabel, Int.toNat_of_nonneg hpos] at this
      · exact hmem
    have hmarkIn : ∀ op ∈ ops, ∀ l, op.destination? = some l →
        markIn a.labels l.toNat = some (labelAddress ops l) := by
      intro op hop l hd
      have hl := Int.toNat_of_nonneg (h.destinations op hop l hd).1
      rw [h.marked, hl, if_pos (hmarks op hop l hd)]
    refine ⟨?_, hmarks, h.once, h.encodable⟩
    have hfilled := h.filled a.labels ⟨id, fun op hop l hd => by rw [hmarkIn op hop l hd, Option.isSome_some]⟩
    obtain rfl : code = _ := (Prod.mk.inj (hfill.symm.trans hfilled)).1
    refine image_congr fun op hop l hd => ?_
    rw [addressIn, hmarkIn op hop l hd, Option.getD_some]

theorem failure_of_link {a : Assembler} {p : Program} (h : a.link.2 = .ok p) : a.failure = none := by
  cases hf : a.failure with
  | none => rfl
  | some e =>
    rw [link, hf] at h
    cases h

/-- What a new assembler makes of some operations. -/
theorem linked_of_link {ops : Array Op} {p : Program} (h : (({} : Assembler).applyAll ops).link.2 = .ok p) :
    Linked ops.toList p.code := by
  rw [applyAll, ← Array.foldl_toList] at h
  exact (assembled_empty.foldl (failure_of_link h)).link h

end Assembler

end TapeCode
