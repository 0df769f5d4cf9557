import TapeCode.Proofs.Layout

/-!
Linking at any time. Whether an operation is taken, and what linking says in the end, depends on the operations alone
(`Op.complaint?`, `Layout.linking`). A link overwrites code and forgets jumps, but only in operands that a later link
would fill in alike (`fillIn_congr`), so links in between make no difference to anything that is asked later.
-/

namespace TapeCode

/-! ### What is wrong with operations -/

namespace Op

/-- A label that was handed out. -/
def Known (before : List Op) (label : Int) : Prop :=
  0 ≤ label ∧ label < before.count .newLabel

instance (before : List Op) (label : Int) : Decidable (Known before label) :=
  inferInstanceAs (Decidable (_ ∧ _))

/-- What is wrong with an operation behind other ones. -/
def complaint? (before : List Op) : Op → Option AsmError
  | alloc cells => if 0 ≤ cells ∧ cells < 4294967296 then none else some (.allocRange cells)
  | step delta => if delta = 1 ∨ delta = -1 then none else some (.stepDelta delta)
  | move delta => if -2147483648 ≤ delta ∧ delta < 2147483648 then none else some (.moveRange delta)
  | mark label =>
    if Known before label then if mark label ∈ before then some (.markedTwice label) else none
    else some (.unknownLabel label)
  | jump label | jumpIfZero label => if Known before label then none else some (.unknownLabel label)
  | reset | openInput | load | store | add _ | sub _ | newLabel | getc | putc | halt => none

/-- The first complaint about some operations behind other ones. -/
def firstComplaint : List Op → List Op → Option AsmError
  | _, [] => none
  | before, op :: ops => (op.complaint? before).or (firstComplaint (before ++ [op]) ops)

theorem firstComplaint_append (before ops more : List Op) :
    firstComplaint before (ops ++ more) =
      (firstComplaint before ops).or (firstComplaint (before ++ ops) more) := by
  induction ops generalizing before with
  | nil => rw [List.nil_append, List.append_nil, firstComplaint, Option.none_or]
  | cons op ops ih =>
    rw [List.cons_append, firstComplaint, firstComplaint, ih, Option.or_assoc, List.append_assoc, List.singleton_append]

theorem firstComplaint_singleton (before : List Op) (op : Op) : firstComplaint before [op] = op.complaint? before := by
  rw [firstComplaint, firstComplaint, Option.or_none]

end Op

namespace Layout

/-- The first jump to a label that no operation marks. -/
def dangling? (ops : List Op) : Option Int :=
  (ops.filterMap Op.destination?).find? fun l => Op.mark l ∉ ops

/-- The program of some operations. -/
def binary (ops : List Op) : Program :=
  ⟨Program.currentVersion, (image (fun l => UInt32.ofNat (labelAddress ops l)) ops).toArray⟩

/-- What linking says about some operations. -/
def linking (ops : List Op) : Except AsmError Program :=
  match Op.firstComplaint [] ops, dangling? ops with
  | some e, _ => .error e
  | none, some l => .error (.unmarkedTarget l)
  | none, none => .ok (binary ops)

section Linking
variable {ops more : List Op} {p q : Program} {e : AsmError} {l : Int}

theorem linking_complaint (h : Op.firstComplaint [] ops = some e) : linking ops = .error e := by
  simp only [linking, h]

theorem linking_dangling (h : Op.firstComplaint [] ops = none) (hl : dangling? ops = some l) :
    linking ops = .error (.unmarkedTarget l) := by
  simp only [linking, h, hl]

theorem linking_fine (h : Op.firstComplaint [] ops = none) (hl : dangling? ops = none) :
    linking ops = .ok (binary ops) := by
  simp only [linking, h, hl]

theorem dangling?_eq_none : dangling? ops = none ↔ ∀ op ∈ ops, ∀ l, op.destination? = some l → Op.mark l ∈ ops := by
  simp only [dangling?, List.find?_eq_none, List.mem_filterMap, decide_eq_true_eq, Decidable.not_not]
  constructor
  · intro h op hop l hl
    exact h l ⟨op, hop, hl⟩
  · rintro h l ⟨op, hop, hl⟩
    exact h op hop l hl

theorem linking_eq_ok (h : linking ops = .ok p) : dangling? ops = none ∧ p = binary ops := by
  unfold linking at h
  split at h
  · cases h
  · cases h
  · next hl =>
    cases h
    exact ⟨hl, rfl⟩

/-- More operations make the program longer and change nothing in it. -/
theorem isPrefix_binary_append (h : dangling? ops = none) (more : List Op) :
    (binary ops).code.toList <+: (binary (ops ++ more)).code.toList := by
  have hsame : image (fun l => UInt32.ofNat (labelAddress (ops ++ more) l)) ops =
      image (fun l => UInt32.ofNat (labelAddress ops l)) ops := by
    apply image_congr
    intro op hop l hl
    rw [Assembler.labelAddress_append (dangling?_eq_none.mp h op hop l hl)]
  simp only [binary, image_append, hsame]
  exact List.prefix_append _ _

end Linking

end Layout

namespace Assembler

open Layout

/-! ### Filling in twice -/

/-- A byte of an operand that is to be filled in. -/
def Covers (fixups : List Fixup) (i : Nat) : Prop :=
  ∃ fixup ∈ fixups, fixup.location ≤ i ∧ i < fixup.location + 4

section FillIn
variable {labels : Array (Option Nat)} {fixups : List Fixup} {code code' : Array UInt8}

theorem getElem?_overwrite (code : Array UInt8) (location : Nat) (bytes : List UInt8) (i : Nat) :
    (overwrite code location bytes)[i]? =
      if location ≤ i ∧ i < location + bytes.length ∧ i < code.size then bytes[i - location]? else code[i]? := by
  induction bytes generalizing code location with
  | nil => rw [overwrite, if_neg (by simp only [List.length_nil]; omega)]
  | cons b bytes ih =>
    rw [overwrite, ih, Array.size_setIfInBounds, Array.getElem?_setIfInBounds, List.length_cons]
    rcases Nat.lt_trichotomy i location with hlt | rfl | hgt
    · rw [if_neg (by omega), if_neg (by omega), if_neg (by omega)]
    · rw [if_neg (by omega), if_pos rfl, Nat.sub_self, List.getElem?_cons_zero]
      by_cases hi : i < code.size
      · rw [if_pos hi, if_pos ⟨Nat.le_refl _, by omega, hi⟩]
      · rw [if_neg hi, if_neg fun h => hi h.2.2, Array.getElem?_eq_none (Nat.not_lt.mp hi)]
    · have hsucc : i - location = (i - (location + 1)) + 1 := by omega
      rw [hsucc, List.getElem?_cons_succ, if_neg (Nat.ne_of_lt hgt)]
      by_cases hin : location + 1 ≤ i ∧ i < location + 1 + bytes.length ∧ i < code.size
      · rw [if_pos hin, if_pos (by omega)]
      · rw [if_neg hin, if_neg (by omega)]

theorem size_fillIn (labels : Array (Option Nat)) (fixups : List Fixup) (code : Array UInt8) :
    (fillIn labels fixups code).1.size = code.size := by
  induction fixups generalizing code with
  | nil => rfl
  | cons fixup fixups ih =>
    unfold fillIn
    split
    · rfl
    · rw [ih, size_overwrite]

/-- Only operands that are to be filled in are written. -/
theorem fillIn_outside {i : Nat} (h : ¬Covers fixups i) (labels : Array (Option Nat)) (code : Array UInt8) :
    (fillIn labels fixups code).1[i]? = code[i]? := by
  induction fixups generalizing code with
  | nil => rfl
  | cons fixup fixups ih =>
    have hrest : ¬Covers fixups i := by
      rintro ⟨fixup', hmem, hin⟩
      exact h ⟨fixup', List.mem_cons_of_mem fixup hmem, hin⟩
    unfold fillIn
    split
    · rfl
    · rw [ih hrest, getElem?_overwrite, if_neg]
      rintro ⟨hle, hlt, -⟩
      exact h ⟨fixup, List.mem_cons_self, hle, hlt⟩

/-- What an operand holds before it is filled in makes no difference. -/
theorem fillIn_congr (hsize : code.size = code'.size) (hsame : ∀ i, ¬Covers fixups i → code[i]? = code'[i]?)
    (hmarked : ∀ fixup ∈ fixups, ((labels[fixup.label]?).join).isSome) :
    fillIn labels fixups code = fillIn labels fixups code' := by
  induction fixups generalizing code code' with
  | nil =>
    have heq : code = code' := by
      apply Array.ext_getElem?
      intro i
      apply hsame
      rintro ⟨fixup, hmem, -⟩
      exact absurd hmem List.not_mem_nil
    rw [heq]
  | cons fixup fixups ih =>
    obtain ⟨target, htarget⟩ := Option.isSome_iff_exists.mp (hmarked fixup List.mem_cons_self)
    rw [fillIn, fillIn, htarget]
    -- The first operand is the same in both codes now, so they differ in those that are left at most.
    apply ih
    · rw [size_overwrite, size_overwrite, hsize]
    · intro i hi
      rw [getElem?_overwrite, getElem?_overwrite, hsize]
      split
      · rfl
      · next hout =>
        by_cases hlt : i < code'.size
        · apply hsame
          rintro ⟨fixup', hmem, hle, hend⟩
          rcases List.mem_cons.mp hmem with rfl | hmem
          · exact hout ⟨hle, hend, hlt⟩
          · exact hi ⟨fixup', hmem, hle, hend⟩
        · rw [Array.getElem?_eq_none (Nat.not_lt.mp hlt), Array.getElem?_eq_none (hsize ▸ Nat.not_lt.mp hlt)]
    · intro fixup' hmem
      exact hmarked fixup' (List.mem_cons_of_mem fixup hmem)

/-- Filling in fails at the first jump whose label is not marked. -/
theorem error_fillIn (labels : Array (Option Nat)) (fixups : List Fixup) (code : Array UInt8) :
    (fillIn labels fixups code).2 =
      (fixups.find? fun fixup => markIn labels fixup.label = none).map fun fixup => .unmarkedTarget fixup.label := by
  induction fixups generalizing code with
  | nil => rfl
  | cons fixup fixups ih =>
    unfold fillIn
    rw [List.find?_cons]
    rcases hmark : (labels[fixup.label]?).join with _ | target
    · simp only [markIn, hmark, decide_true, Option.map_some]
    · simp only [markIn, hmark, reduceCtorEq, decide_false]
      exact ih _

end FillIn

section Link
variable {a : Assembler} {code : Array UInt8} {e : AsmError}

theorem link_of_failure (h : a.failure = some e) : a.link = (a, .error e) := by
  simp only [link, h]

theorem link_filled (hs : a.failure = none) (hfill : fillIn a.labels a.pending.toList a.code = (code, none)) :
    a.link = ({ a with code, pending := #[] }, .ok ⟨Program.currentVersion, code⟩) := by
  simp only [link, hs, hfill]

theorem link_stuck (hs : a.failure = none) (hfill : fillIn a.labels a.pending.toList a.code = (code, some e)) :
    a.link = ({ a with code }, .error e) := by
  simp only [link, hs, hfill]

end Link

/-! ### Taking an operation -/

/-- What an operation adds to an assembler that takes it. -/
structure Grown (a : Assembler) (op : Op) (a' : Assembler) : Prop where
  code : a'.code = a.code ++ (op.bytes fun _ => 0).toArray
  pending : a'.pending.toList =
    a.pending.toList ++ (op.destination?.map fun l => (⟨a.code.size + 1, l.toNat⟩ : Fixup)).toList
  known : ∀ l, op.destination? = some l → 0 ≤ l ∧ l < a.labels.size

section Apply
variable {a : Assembler} {ops : List Op} {op : Op} {label : Int} {e : AsmError}

theorem failure_of_apply (hs : (a.apply op).failure = none) : a.failure = none := by
  cases hf : a.failure with
  | none => rfl
  | some e =>
    rw [failure_apply hf] at hs
    cases hs

theorem apply_of_sound (h : a.failure = none) (op : Op) : a.apply op = a.assemble op := by
  simp only [apply, h]

theorem grown_emit {i : Instr} (hi : op.instr? (fun _ => 0) = some i) (hd : op.destination? = none) :
    Grown a op (a.emit i) where
  code := by rw [Assembled.code_emit, Op.bytes, hi, Option.map_some, Option.getD_some]
  pending := by
    rw [hd, Option.map_none, Option.toList_none, List.append_nil]
    rfl
  known l hl := by
    rw [hd] at hl
    cases hl

theorem grown_label {labels : Array (Option Nat)} (hi : op.instr? (fun _ => 0) = none)
    (hd : op.destination? = none) : Grown a op { a with labels } where
  code := by
    rw [Op.bytes, hi]
    exact Array.append_empty.symm
  pending := by rw [hd, Option.map_none, Option.toList_none, List.append_nil]
  known l hl := by
    rw [hd] at hl
    cases hl

theorem grown_emitJump {jump : UInt32 → Instr} (hi : op.instr? (fun _ => 0) = some (jump 0))
    (hd : op.destination? = some label) (hs : (a.emitJump jump label).failure = none) :
    Grown a op (a.emitJump jump label) := by
  unfold Assembler.emitJump at hs ⊢
  cases hl : a.label? label with
  | none =>
    rw [hl] at hs
    cases hs
  | some n =>
    obtain ⟨rfl, hlt⟩ := label?_eq_some hl
    refine ⟨?_, ?_, ?_⟩
    · rw [Op.bytes, hi, Option.map_some, Option.getD_some]
      exact Assembled.code_emit _ _
    · rw [hd, Option.map_some, Option.toList_some, Int.toNat_natCast]
      simp only [Assembler.emit, Array.toList_push]
    · intro l hl
      obtain rfl := Option.some.inj (hd.symm.trans hl)
      exact ⟨Int.natCast_nonneg n, Int.ofNat_lt.mpr hlt⟩

theorem grown_apply (hs : (a.apply op).failure = none) : Grown a op (a.apply op) := by
  have hsound := failure_of_apply hs
  rw [apply_of_sound hsound] at hs ⊢
  cases op with
  | alloc cells | move delta =>
    rw [assemble] at hs ⊢
    split at hs
    · next hrange =>
      rw [if_pos hrange]
      exact grown_emit rfl rfl
    · cases hs
  | step delta =>
    rw [assemble] at hs ⊢
    split at hs
    · next hone =>
      rw [if_pos hone]
      exact grown_emit (by rw [Op.instr?, if_pos hone]) rfl
    · next hone =>
      rw [if_neg hone]
      split at hs
      · next hback =>
        rw [if_pos hback]
        exact grown_emit (by rw [Op.instr?, if_neg hone]) rfl
      · cases hs
  | newLabel => exact grown_label rfl rfl
  | mark label =>
    obtain ⟨n, -, -, -, heq⟩ := mark_inv hs
    rw [assemble, heq]
    exact grown_label rfl rfl
  | jump label | jumpIfZero label => exact grown_emitJump rfl rfl hs
  | reset | openInput | load | store | add n | sub n | getc | putc | halt => exact grown_emit rfl rfl

theorem size_labels_mark (a : Assembler) (label : Int) : (a.mark label).labels.size = a.labels.size := by
  unfold mark
  split
  · rfl
  · split
    · rfl
    · exact Array.size_setIfInBounds

theorem size_labels_emitJump (a : Assembler) (jump : UInt32 → Instr) (label : Int) :
    (a.emitJump jump label).labels.size = a.labels.size := by
  unfold emitJump
  split <;> rfl

/-- Labels are handed out by an assembler that has failed, too. -/
theorem size_labels_apply (a : Assembler) (op : Op) :
    (a.apply op).labels.size = a.labels.size + [op].count .newLabel := by
  have hassemble : (a.assemble op).labels.size = a.labels.size + [op].count .newLabel := by
    cases op with
    | newLabel => exact Array.size_push _
    | mark label => exact size_labels_mark a label
    | jump label | jumpIfZero label => exact size_labels_emitJump a _ label
    | alloc cells | move delta =>
      rw [assemble]
      split <;> rfl
    | step delta =>
      rw [assemble]
      split
      · rfl
      · split <;> rfl
    | reset | openInput | load | store | add n | sub n | getc | putc | halt => rfl
  cases hf : a.failure with
  | none => rw [apply_of_sound hf, hassemble]
  | some e =>
    unfold Assembler.apply
    rw [hf]
    cases op with
    | newLabel => exact hassemble
    | _ => rfl

theorem label?_known (hsize : a.labels.size = ops.count .newLabel) (label : Int) :
    a.label? label = if Op.Known ops label then some label.toNat else none := by
  rw [label?, hsize]
  rfl

theorem failure_emitJump (hsound : a.failure = none) (hsize : a.labels.size = ops.count .newLabel)
    (jump : UInt32 → Instr) (label : Int) :
    (a.emitJump jump label).failure = if Op.Known ops label then none else some (.unknownLabel label) := by
  rw [emitJump, label?_known hsize]
  by_cases hknown : Op.Known ops label
  · rw [if_pos hknown, if_pos hknown]
    exact hsound
  · rw [if_neg hknown, if_neg hknown]
    rfl

theorem failure_mark (h : Assembled a ops) (hsize : a.labels.size = ops.count .newLabel) (label : Int) :
    (a.mark label).failure = Op.complaint? ops (.mark label) := by
  rw [mark, label?_known hsize, Op.complaint?]
  by_cases hknown : Op.Known ops label
  · have hmarked := h.marked label.toNat
    rw [Int.toNat_of_nonneg hknown.1, markIn] at hmarked
    rw [if_pos hknown, if_pos hknown]
    by_cases hmem : Op.mark label ∈ ops
    · simp only [hmarked, if_pos hmem]
      rfl
    · simp only [hmarked, if_neg hmem]
      exact h.sound
  · rw [if_neg hknown, if_neg hknown]
    rfl

/-- An operation fails just if there is a complaint about it. -/
theorem failure_assemble (h : Assembled a ops) (hsize : a.labels.size = ops.count .newLabel) (op : Op) :
    (a.assemble op).failure = op.complaint? ops := by
  cases op with
  | alloc cells | move delta =>
    rw [assemble, Op.complaint?]
    split
    · exact h.sound
    · rfl
  | step delta =>
    rw [assemble, Op.complaint?]
    by_cases hone : delta = 1
    · rw [if_pos hone, if_pos (Or.inl hone)]
      exact h.sound
    · by_cases hback : delta = -1
      · rw [if_neg hone, if_pos hback, if_pos (Or.inr hback)]
        exact h.sound
      · rw [if_neg hone, if_neg hback, if_neg (not_or.mpr ⟨hone, hback⟩)]
        rfl
  | mark label => exact failure_mark h hsize label
  | jump label | jumpIfZero label => exact failure_emitJump h.sound hsize _ label
  | reset | openInput | load | store | add n | sub n | newLabel | getc | putc | halt => exact h.sound

end Apply

/-! ### Assemblers in use -/

/-- The jumps that an assembler waits for are the last ones, and the labels of all others are marked. -/
structure Awaits (a : Assembler) (ops : List Op) : Prop where
  assembled : Assembled a ops
  last : ∃ settled, ops.filterMap Op.destination? = settled ++ a.pending.toList.map (fun fixup => (fixup.label : Int)) ∧
    ∀ l ∈ settled, Op.mark l ∈ ops

/-- What an assembler has become that took some operations and was linked any number of times in between. -/
structure Took (a : Assembler) (ops : List Op) : Prop where
  created : a.labels.size = ops.count .newLabel
  failure : a.failure = Op.firstComplaint [] ops
  awaits : a.failure = none → Awaits a ops

namespace Awaits
variable {a : Assembler} {ops : List Op} {op : Op}

theorem apply (h : Awaits a ops) (hs : (a.apply op).failure = none) : Awaits (a.apply op) (ops ++ [op]) := by
  refine ⟨h.assembled.apply hs, ?_⟩
  obtain ⟨settled, hsplit, hmarked⟩ := h.last
  have hgrown := grown_apply hs
  refine ⟨settled, ?_, fun l hl => List.mem_append_left _ (hmarked l hl)⟩
  rw [List.filterMap_append, hsplit, hgrown.pending, List.map_append, List.append_assoc]
  cases hd : op.destination? with
  | none => simp [hd]
  | some l =>
    have hlabel : (l.toNat : Int) = l := Int.toNat_of_nonneg (hgrown.known l hd).1
    rw [List.filterMap_cons_some hd, Option.map_some, Option.toList_some, List.map_singleton, hlabel]
    rfl

theorem find?_pending (h : Awaits a ops) :
    (a.pending.toList.find? fun fixup => markIn a.labels fixup.label = none).map (fun fixup => (fixup.label : Int)) =
      dangling? ops := by
  obtain ⟨settled, hsplit, hmarked⟩ := h.last
  have hsettled : (settled.find? fun l => Op.mark l ∉ ops) = none := by
    rw [List.find?_eq_none]
    intro l hl
    simp [hmarked l hl]
  have hsame : ((fun l => decide (Op.mark l ∉ ops)) ∘ fun fixup : Fixup => (fixup.label : Int)) =
      fun fixup => decide (markIn a.labels fixup.label = none) := by
    funext fixup
    by_cases hmem : Op.mark (fixup.label : Int) ∈ ops <;> simp [h.assembled.marked, hmem]
  rw [dangling?, hsplit, List.find?_append, hsettled, Option.none_or, List.find?_map, hsame]

theorem link_eq (h : Awaits a ops) (hfine : Op.firstComplaint [] ops = none) : a.link.2 = linking ops := by
  have hfind := h.find?_pending
  have herror := error_fillIn a.labels a.pending.toList a.code
  rcases hfill : fillIn a.labels a.pending.toList a.code with ⟨code, _ | e⟩
  · have hlink : a.link.2 = .ok ⟨Program.currentVersion, code⟩ := by rw [link_filled h.assembled.sound hfill]
    have hlinked := h.assembled.link hlink
    rw [hlink, linking_fine hfine (dangling?_eq_none.mpr hlinked.marks), binary, ← hlinked.code, Array.toArray_toList]
  · rw [hfill] at herror
    obtain ⟨fixup, hfirst, rfl⟩ := Option.map_eq_some_iff.mp herror.symm
    rw [hfirst] at hfind
    rw [link_stuck h.assembled.sound hfill, linking_dangling hfine hfind.symm]

theorem filled_in (h : Awaits a ops) {code : Array UInt8}
    (hfill : fillIn a.labels a.pending.toList a.code = (code, none)) :
    Awaits { a with code, pending := #[] } ops := by
  have hlink : a.link.2 = .ok ⟨Program.currentVersion, code⟩ := by rw [link_filled h.assembled.sound hfill]
  have hlinked := h.assembled.link hlink
  have hmarks := hlinked.marks
  constructor
  · exact
      { sound := h.assembled.sound
        size := hlinked.size_code
        marked := h.assembled.marked
        destinations := fun op hop l hl => ⟨(h.assembled.destinations op hop l hl).1, Or.inr (hmarks op hop l hl)⟩
        once := h.assembled.once
        encodable := h.assembled.encodable
        within := fun fixup hmem => absurd hmem List.not_mem_nil
        -- Nothing waits any more, and a table that keeps the marks has the address of every jump.
        filled := fun table htable => by
          have hcode : code = (image (addressIn table) ops).toArray := by
            apply Array.ext'
            rw [hlinked.code]
            apply image_congr
            intro op hop l hl
            have hpos := (h.assembled.destinations op hop l hl).1
            have hmark : markIn a.labels l.toNat = some (labelAddress ops l) := by
              rw [h.assembled.marked, Int.toNat_of_nonneg hpos, if_pos (hmarks op hop l hl)]
            rw [addressIn, htable.keeps hmark, Option.getD_some]
          rw [hcode]
          rfl }
  · refine ⟨ops.filterMap Op.destination?, (List.append_nil _).symm, ?_⟩
    intro l hl
    obtain ⟨op, hop, hd⟩ := List.mem_filterMap.mp hl
    exact hmarks op hop l hd

theorem overwritten (h : Awaits a ops) {code : Array UInt8} (hsize : code.size = a.code.size)
    (hsame : ∀ i, ¬Covers a.pending.toList i → code[i]? = a.code[i]?) : Awaits { a with code } ops where
  assembled :=
    { sound := h.assembled.sound
      size := hsize.trans h.assembled.size
      marked := h.assembled.marked
      destinations := h.assembled.destinations
      once := h.assembled.once
      encodable := h.assembled.encodable
      within := fun fixup hmem => hsize ▸ h.assembled.within fixup hmem
      filled := fun table htable => by
        have hfilled := h.assembled.filled table htable
        rw [← hfilled]
        exact fillIn_congr hsize hsame (marked_of_fillIn hfilled) }
  last := h.last

/-- A link that fails leaves its jumps to wait, and some of their operands are filled in already. -/
theorem link (h : Awaits a ops) : Awaits a.link.1 ops := by
  rcases hfill : fillIn a.labels a.pending.toList a.code with ⟨code, _ | e⟩
  · rw [link_filled h.assembled.sound hfill]
    exact h.filled_in hfill
  · have hcode : code = (fillIn a.labels a.pending.toList a.code).1 := by rw [hfill]
    rw [link_stuck h.assembled.sound hfill, hcode]
    exact h.overwritten (size_fillIn _ _ _) fun i hi => fillIn_outside hi _ _

end Awaits

namespace Took
variable {a : Assembler} {ops : List Op}

theorem empty : Took {} [] where
  created := rfl
  failure := rfl
  awaits _ := ⟨assembled_empty, [], rfl, fun _ hl => absurd hl List.not_mem_nil⟩

theorem apply (h : Took a ops) (op : Op) : Took (a.apply op) (ops ++ [op]) := by
  have hcomplaint : (a.apply op).failure = Op.firstComplaint [] (ops ++ [op]) := by
    rw [Op.firstComplaint_append, ← h.failure, List.nil_append, Op.firstComplaint_singleton]
    cases hf : a.failure with
    | none => rw [apply_of_sound hf, failure_assemble (h.awaits hf).assembled h.created, Option.none_or]
    | some e => rw [failure_apply hf, Option.some_or]
  refine ⟨?_, hcomplaint, fun hs => (h.awaits (failure_of_apply hs)).apply hs⟩
  rw [size_labels_apply, h.created, List.count_append]

theorem link (h : Took a ops) : Took a.link.1 ops := by
  cases hf : a.failure with
  | none =>
    have hawaits := (h.awaits hf).link
    have hlabels : a.link.1.labels = a.labels := by
      simp only [Assembler.link, hf]
      split <;> rfl
    refine ⟨hlabels ▸ h.created, ?_, fun _ => hawaits⟩
    rw [hawaits.assembled.sound, ← h.failure, hf]
  | some e =>
    rw [link_of_failure hf]
    exact h

/-- The answer to a link depends on the operations alone. -/
theorem link_eq (h : Took a ops) : a.link.2 = linking ops := by
  cases hf : a.failure with
  | none => exact (h.awaits hf).link_eq (h.failure.symm.trans hf)
  | some e => rw [link_of_failure hf, linking_complaint (h.failure.symm.trans hf)]

theorem linked {p : Program} (h : Took a ops) (hlink : a.link.2 = .ok p) : Linked ops p.code :=
  (h.awaits (failure_of_link hlink)).assembled.link hlink

theorem foldl (h : Took a ops) (more : List Op) : Took (more.foldl Assembler.apply a) (ops ++ more) := by
  induction more generalizing a ops with
  | nil =>
    rw [List.append_nil]
    exact h
  | cons op more ih =>
    rw [← List.singleton_append, ← List.append_assoc]
    exact ih (h.apply op)

theorem applyAll (ops : Array Op) : Took (({} : Assembler).applyAll ops) ops.toList := by
  rw [Assembler.applyAll, ← Array.foldl_toList]
  exact empty.foldl ops.toList

end Took

/-! ### Requests -/

/-- What an assembler can be asked for. -/
inductive Request where
  | emit (op : Op)
  | link

/-- The answer to a request. -/
inductive Reply where
  | done
  | label (number : Nat)
  | linked (result : Except AsmError Program)

/-- The operation that a request brings. -/
def Request.op? : Request → Option Op
  | emit op => some op
  | link => none

/-- The operations among some requests. -/
def Request.ops (requests : List Request) : List Op :=
  requests.filterMap Request.op?

/-- Does what a request asks for. -/
def serve (a : Assembler) : Request → Assembler × Reply
  | .emit op => (a.apply op, if op = .newLabel then .label a.nextLabel else .done)
  | .link => (a.link.1, .linked a.link.2)

/-- Does what requests ask for, one after the other. -/
def serveAll (a : Assembler) : List Request → Assembler × List Reply
  | [] => (a, [])
  | request :: requests =>
    let (a, reply) := a.serve request
    let (a, replies) := a.serveAll requests
    (a, reply :: replies)

section Serve
variable {a b : Assembler} {ops : List Op} {k : Nat} {request : Request}

theorem Request.ops_append (requests more : List Request) :
    Request.ops (requests ++ more) = Request.ops requests ++ Request.ops more :=
  List.filterMap_append

section Keeps
variable {R : Assembler → List Op → Prop} (happly : ∀ {a ops}, R a ops → ∀ op, R (a.apply op) (ops ++ [op]))
  (hlink : ∀ {a ops}, R a ops → R a.link.1 ops)
include happly hlink

theorem serve_keeps (h : R a ops) (request : Request) : R (a.serve request).1 (ops ++ Request.ops [request]) := by
  cases request with
  | emit op => exact happly h op
  | link =>
    rw [show Request.ops [.link] = [] from rfl, List.append_nil]
    exact hlink h

/-- What every operation and every link keeps is kept whatever is asked for. -/
theorem serveAll_keeps (h : R a ops) (requests : List Request) :
    R (a.serveAll requests).1 (ops ++ Request.ops requests) := by
  induction requests generalizing a ops with
  | nil =>
    rw [show Request.ops [] = [] from rfl, List.append_nil]
    exact h
  | cons request requests ih =>
    rw [← List.singleton_append, Request.ops_append, ← List.append_assoc]
    exact ih (serve_keeps happly hlink h request)

end Keeps

theorem Took.serveAll (h : Took a ops) (requests : List Request) :
    Took (a.serveAll requests).1 (ops ++ Request.ops requests) :=
  serveAll_keeps Took.apply Took.link h requests

/-- Two assemblers that took the same operations give the same answers. -/
theorem Took.reply_eq (ha : Took a ops) (hb : Took b ops) (request : Request) :
    (a.serve request).2 = (b.serve request).2 := by
  cases request with
  | emit op => simp only [Assembler.serve, nextLabel, ha.created, hb.created]
  | link => simp only [Assembler.serve, ha.link_eq, hb.link_eq]

theorem getElem?_serveAll (a : Assembler) {requests : List Request} (h : requests[k]? = some request) :
    (a.serveAll requests).2[k]? = some ((a.serveAll (requests.take k)).1.serve request).2 := by
  induction requests generalizing a k with
  | nil => cases h
  | cons first requests ih =>
    cases k with
    | zero =>
      obtain rfl := Option.some.inj h
      rfl
    | succ k => exact ih _ h

theorem length_serveAll (a : Assembler) (requests : List Request) :
    (a.serveAll requests).2.length = requests.length := by
  induction requests generalizing a with
  | nil => rfl
  | cons request requests ih => exact congrArg (· + 1) (ih _)

/-- A program that was handed out is what linking says about the operations before. -/
theorem linking_of_reply {requests : List Request} {p : Program}
    (h : (({} : Assembler).serveAll requests).2[k]? = some (.linked (.ok p))) :
    linking (Request.ops (requests.take k)) = .ok p := by
  have hk : k < requests.length := by
    rw [← length_serveAll {} requests]
    exact (List.getElem?_eq_some_iff.mp h).1
  have htook := Took.empty.serveAll (requests.take k)
  rw [getElem?_serveAll {} (List.getElem?_eq_getElem hk)] at h
  cases hrequest : requests[k] with
  | emit op =>
    rw [hrequest] at h
    simp only [serve] at h
    split at h <;> cases h
  | link =>
    rw [hrequest] at h
    simp only [serve, Option.some.injEq, Reply.linked.injEq] at h
    rw [← h, htook.link_eq]
    rfl

end Serve

end Assembler

open Assembler

/-- Links in between cannot be noticed. Whatever an assembler is asked for, it answers as one that took the operations before
and was never linked. A program that it hands out starts with every program that it handed out before. -/
theorem early_links_unnoticed (requests : List Request) :
    (∀ k request, requests[k]? = some request →
      (({} : Assembler).serveAll requests).2[k]? =
        some ((({} : Assembler).applyAll (Request.ops (requests.take k)).toArray).serve request).2) ∧
    ∀ (j k : Nat) (p q : Program), j ≤ k → (({} : Assembler).serveAll requests).2[j]? = some (.linked (.ok p)) →
      (({} : Assembler).serveAll requests).2[k]? = some (.linked (.ok q)) → p.code.toList <+: q.code.toList := by
  constructor
  · intro k request hrequest
    have hserved := Took.empty.serveAll (requests.take k)
    have happlied := Took.applyAll (Request.ops (requests.take k)).toArray
    rw [getElem?_serveAll {} hrequest, hserved.reply_eq happlied]
  · intro j k p q hjk hp hq
    obtain ⟨hmarks, rfl⟩ := Layout.linking_eq_ok (linking_of_reply hp)
    obtain ⟨-, rfl⟩ := Layout.linking_eq_ok (linking_of_reply hq)
    have hsplit := (List.take_append_drop j (requests.take k)).symm
    rw [List.take_take, Nat.min_eq_left hjk] at hsplit
    rw [hsplit, Request.ops_append]
    exact Layout.isPrefix_binary_append hmarks _

/-- Two jumps are linked before the second one has its label, and again when it has it, before a third jump follows. The
first attempt fails and leaves the first jump filled in. -/
theorem early_links_of_three_jumps :
    let requests : List Request :=
      [.emit .newLabel, .emit .newLabel, .emit (.jump 0), .emit (.jumpIfZero 1), .emit (.mark 0), .link, .emit (.mark 1),
        .link, .emit (.jump 1), .link]
    let replies := (({} : Assembler).serveAll requests).2
    let first : Array UInt8 := #[0x0B, 10, 0, 0, 0, 0x0C, 10, 0, 0, 0]
    let second : Array UInt8 := #[0x0B, 10, 0, 0, 0, 0x0C, 10, 0, 0, 0, 0x0B, 10, 0, 0, 0]
    replies[5]? = some (.linked (.error (.unmarkedTarget 1))) ∧
    replies[5]? = some ((({} : Assembler).applyAll (Request.ops (requests.take 5)).toArray).serve .link).2 ∧
    replies[9]? = some (.linked (.ok ⟨1, second⟩)) ∧
    replies[9]? = some ((({} : Assembler).applyAll (Request.ops (requests.take 9)).toArray).serve .link).2 ∧
    first.toList <+: second.toList := by
  intro requests replies first second
  obtain ⟨hreplies, hprograms⟩ := early_links_unnoticed requests
  have hfirst : replies[7]? = some (.linked (.ok ⟨1, first⟩)) := rfl
  have hsecond : replies[9]? = some (.linked (.ok ⟨1, second⟩)) := rfl
  exact ⟨rfl, hreplies 5 .link rfl, hsecond, hreplies 9 .link rfl, hprograms 7 9 _ _ (by decide) hfirst hsecond⟩

end TapeCode
