import TapeCode.Proofs.CodeSize
import TapeCode.Proofs.Stream

/-!
Compiling behind other operations. The labels of a program are numbered from what the assembler handed out before
(`Op.relabel`), and its code stands behind the code before, so that its jumps go that much further (`Instr.shift`). Nothing
else depends on the place, and whether a program is assembled does not depend on it either.
-/

namespace TapeCode

open Brackets Layout Assembler Translation

/-! ### Labels from another number on -/

/-- The instruction for code that stands further behind: a jump goes as much further. -/
def Instr.shift (distance : Nat) : Instr → Instr
  | jump target => jump (UInt32.ofNat (target.toNat + distance))
  | jumpIfZero target => jumpIfZero (UInt32.ofNat (target.toNat + distance))
  | i => i

namespace Op

/-- The operation for an assembler that handed out `base` labels before. -/
def relabel (base : Nat) : Op → Op
  | mark label => mark (base + label)
  | jump label => jump (base + label)
  | jumpIfZero label => jumpIfZero (base + label)
  | op => op

section Relabel
variable {base distance : Nat} {op : Op} {ops : List Op} {f g : Int → UInt32}

theorem size_relabel (base : Nat) (op : Op) : (op.relabel base).size = op.size := by
  cases op <;> rfl

theorem relabel_eq_mark {label : Int} : op.relabel base = mark (base + label) ↔ op = mark label := by
  cases op <;> simp [relabel]

theorem instr?_relabel (h : ∀ l, op.destination? = some l → g (base + l) = UInt32.ofNat ((f l).toNat + distance)) :
    (op.relabel base).instr? g = (op.instr? f).map (Instr.shift distance) := by
  cases op with
  | jump l | jumpIfZero l =>
    rw [relabel, instr?, h l rfl]
    rfl
  | step delta => by_cases hone : delta = 1 <;> simp [relabel, instr?, hone, Instr.shift]
  | _ => rfl

theorem filterMap_relabel
    (h : ∀ op ∈ ops, ∀ l, op.destination? = some l → g (base + l) = UInt32.ofNat ((f l).toNat + distance)) :
    (ops.map (relabel base)).filterMap (instr? g) = (ops.filterMap (instr? f)).map (Instr.shift distance) := by
  rw [List.filterMap_map, List.map_filterMap]
  exact List.filterMap_congr fun op hop => instr?_relabel (h op hop)

end Relabel

end Op

namespace Layout
variable {ops more : List Op} {label : Int} {base : Nat}

theorem stream_binary (ops : List Op) : (binary ops).code.toList = Instr.stream (instructions ops) :=
  image_eq_stream _ ops

theorem size_binary (ops : List Op) : (binary ops).code.size = extent ops := by
  rw [← Array.length_toList]
  exact length_image _ ops

theorem entries_binary (ops : List Op) : (Listing.entries (binary ops).code).map Prod.snd = instructions ops := by
  rw [Listing.entries_stream (stream_binary ops), Listing.map_placed]

/-- Jumps go to places in the code, or to its end. -/
theorem target_le {i : Instr} {target : UInt32} (hi : i ∈ instructions ops) (ht : i.target? = some target) :
    target.toNat ≤ extent ops := by
  have hlabel (l : Int) : (UInt32.ofNat (labelAddress ops l)).toNat ≤ extent ops := by
    rw [UInt32.toNat_ofNat']
    exact Nat.le_trans (Nat.mod_le _ _) (extent_take_le _ _)
  obtain ⟨op, -, hop⟩ := List.mem_filterMap.mp hi
  cases op with
  | jump l | jumpIfZero l =>
    obtain rfl := Option.some.inj hop
    obtain rfl := Option.some.inj ht
    exact hlabel l
  | step delta =>
    obtain rfl := Option.some.inj hop
    split at ht <;> cases ht
  | newLabel | mark l => cases hop
  | alloc _ | reset | openInput | load | store | add _ | sub _ | move _ | getc | putc | halt =>
    obtain rfl := Option.some.inj hop
    cases ht

theorem extent_relabel (base : Nat) (ops : List Op) : extent (ops.map (Op.relabel base)) = extent ops := by
  induction ops with
  | nil => rfl
  | cons op ops ih => rw [List.map_cons, extent, Op.size_relabel, ih, extent]

theorem labelAddress_relabel (base : Nat) (ops : List Op) (label : Int) :
    labelAddress (ops.map (Op.relabel base)) (base + label) = labelAddress ops label := by
  have hindex : (ops.map (Op.relabel base)).idxOf (.mark (base + label)) = ops.idxOf (.mark label) := by
    rw [List.idxOf, List.findIdx_map, List.idxOf]
    congr 1
    funext op
    rw [Function.comp_apply, Bool.eq_iff_iff, beq_iff_eq, beq_iff_eq, Op.relabel_eq_mark]
  rw [labelAddress, hindex, ← List.map_take, extent_relabel, labelAddress]

theorem labelAddress_behind (h : Op.mark label ∉ ops) :
    labelAddress (ops ++ more) label = extent ops + labelAddress more label := by
  rw [labelAddress, List.idxOf_append, if_neg h, Nat.add_comm, List.take_length_add_append, extent_append, labelAddress]

end Layout

namespace Translation
variable {before : List Op} {base : Nat} {gs : List Group}

/-- The operations of a program for an assembler that took others before. -/
def behind (before : List Op) (gs : List Group) : List Op :=
  operations (labelFrom (before.count .newLabel)) gs

theorem labelFrom_eq (base k : Nat) : labelFrom base k = base + newLabel k := by
  simp [labelFrom, newLabel, nextLabel]

theorem blockOf_relabel (base : Nat) (gs : List Group) (k : Nat) (g : Group) :
    blockOf (labelFrom base) gs k g = (blockOf newLabel gs k g).map (Op.relabel base) := by
  cases hk : g.kind with
  | moveForward | moveBackward =>
    simp only [blockOf, hk, Compilation.moveOp]
    split <;> rfl
  | loopBegin => simp only [blockOf, hk, startLabel, finishLabel, labelFrom_eq, List.map_cons, List.map_nil, Op.relabel]
  | loopEnd =>
    simp only [blockOf, hk, startLabel, finishLabel, labelFrom_eq]
    split <;> rfl
  | _ => simp only [blockOf, hk, List.map_cons, List.map_nil, Op.relabel]

/-- The operations of a program depend on the labels handed out before only through the numbers of its own. -/
theorem operations_relabel (base : Nat) (gs : List Group) :
    operations (labelFrom base) gs = (operations newLabel gs).map (Op.relabel base) := by
  have hblocks : block (labelFrom base) gs = fun k => (block newLabel gs k).map (Op.relabel base) := by
    funext k
    rw [block, block]
    cases gs[k]? with
    | none => rfl
    | some g => exact blockOf_relabel base gs k g
  rw [operations, operations, List.map_append, body, body, List.map_flatMap, hblocks]
  rfl

/-- Programs jump to labels of their own. -/
theorem destination_mem_operations {fresh : Nat → Int} {op : Op} {l : Int} (hbal : Balanced Group.kind? gs)
    (hop : op ∈ operations fresh gs) (hl : op.destination? = some l) : ∃ k, l = fresh k := by
  rcases List.mem_append.mp hop with hop | hop
  · have hopening : ∀ op ∈ Compilation.opening.toList, op.destination? = none := by decide
    rw [hopening op hop] at hl
    cases hl
  · obtain ⟨k, -, g, hg, hop⟩ := mem_body.mp hop
    rcases destination_mem_blockOf hbal hg hop hl with ⟨-, rfl⟩ | ⟨i, -, rfl⟩
    · exact ⟨_, rfl⟩
    · exact ⟨_, rfl⟩

/-- Operations about which there is no complaint mark only labels that they created. -/
theorem reserves_of_fine (h : Op.firstComplaint [] before = none) : Reserves before (before.count .newLabel) := by
  refine ⟨rfl, fun l hmem => ?_⟩
  obtain ⟨pre, post, rfl⟩ := List.append_of_mem hmem
  rw [← List.singleton_append, ← List.append_assoc, Op.firstComplaint_append, Op.firstComplaint_append,
    Op.firstComplaint_singleton, List.nil_append, Option.or_eq_none_iff, Option.or_eq_none_iff] at h
  obtain ⟨⟨-, hmark⟩, -⟩ := h
  have hknown : Op.Known pre l := by
    by_contra hunknown
    rw [Op.complaint?, if_neg hunknown] at hmark
    cases hmark
  have hcount : pre.count .newLabel ≤ (pre ++ .mark l :: post).count .newLabel := by
    rw [List.count_append]
    exact Nat.le_add_right _ _
  exact Int.lt_of_lt_of_le hknown.2 (Int.ofNat_le.mpr hcount)

/-- Behind other operations a program has the same instructions, but its jumps go further. -/
theorem instructions_behind (hmarked : dangling? before = none) (hreserves : Reserves before (before.count .newLabel))
    (hbal : Balanced Group.kind? gs) :
    instructions (before ++ behind before gs) =
      instructions before ++ (instructions (operations newLabel gs)).map (Instr.shift (extent before)) := by
  rw [instructions, List.filterMap_append]
  congr 1
  · apply List.filterMap_congr
    intro op hop
    apply Op.instr?_congr
    intro l hl
    rw [labelAddress_append (dangling?_eq_none.mp hmarked op hop l hl)]
  · rw [behind, operations_relabel]
    apply Op.filterMap_relabel
    intro op hop l hl
    obtain ⟨k, rfl⟩ := destination_mem_operations hbal hop hl
    -- The labels of the program follow those that were marked before.
    have hnew : Op.mark (before.count .newLabel + newLabel k) ∉ before := by
      intro hmem
      have hlt := hreserves.marks _ hmem
      rw [← labelFrom_eq, labelFrom] at hlt
      omega
    rw [labelAddress_behind hnew, labelAddress_relabel, Nat.add_comm]
    apply UInt32.toNat_inj.mp
    simp only [UInt32.toNat_ofNat', Nat.mod_add_mod]

theorem extent_behind (before : List Op) (gs : List Group) : extent (behind before gs) = extent (operations newLabel gs) := by
  rw [behind, operations_relabel, extent_relabel]

end Translation

/-! ### Compiling behind other operations -/

section Compiling
variable {a : Assembler} {before : List Op} {source : List UInt8} {p q : Program}

/-- A program is compiled and linked behind other operations just if it is balanced and its moves are not too long. -/
theorem compiled_behind_iff (h : Took a before) (hfine : Op.firstComplaint [] before = none)
    (hmarked : dangling? before = none) :
    (a.compile (Token.scan source)).2 = none ∧ (a.compile (Token.scan source)).1.link.2 = .ok p ↔
      Balanced Kind.ofByte? source ∧ (∀ g ∈ runs source, g.Fits) ∧ p = binary (before ++ behind before (runs source)) := by
  have haccepted : (a.compile (Token.scan source)).2 = none ↔ Balanced Kind.ofByte? source :=
    compile_accepted_iff (labelFrom a.nextLabel)
  have hreserves := reserves_of_fine hfine
  rw [haccepted]
  refine and_congr_right fun hbal => ?_
  obtain ⟨hruns, hlink⟩ := h.link_compile (haccepted.mpr hbal)
  rw [Token.scan_kinds, ← runs] at hruns hlink
  rw [hlink, show a.nextLabel = before.count .newLabel from h.created, ← behind]
  cases hfirst : (runs source).findSome? Group.complaint? with
  | none =>
    have hfits := Group.findSome?_complaint?_eq_none.mp hfirst
    rw [behind, linking_behind_fit hfine hmarked hreserves hruns hfits]
    exact ⟨fun hp => ⟨hfits, (Except.ok.inj hp).symm⟩, fun hp => congrArg Except.ok hp.2.symm⟩
  | some e =>
    rw [behind, linking_behind_unfit hfine hreserves hruns hfirst]
    refine ⟨fun hp => (by cases hp), fun hp => ?_⟩
    rw [Group.findSome?_complaint?_eq_none.mpr hp.1] at hfirst
    cases hfirst

theorem build_eq_ok_iff : build source = .ok q ↔
    Balanced Kind.ofByte? source ∧ (∀ g ∈ runs source, g.Fits) ∧ q = binary (program source) := by
  constructor
  · intro h
    exact (compiled_behind_iff Took.empty rfl rfl).mp (build_ok h)
  · rintro ⟨hbal, hfits, rfl⟩
    exact build_fit hbal hfits

end Compiling

/-- Compiled code can be moved. Whatever an assembler was asked for, if it can be linked then a source is compiled into it
and linked just if the source can be built alone. The code is then that of the assembler before, followed by the code of the
source alone, instruction by instruction, with every jump going further by the length of the code before. -/
theorem compiled_code_relocates {requests : List Request} {c : Program}
    (h : (({} : Assembler).serveAll requests).1.link.2 = .ok c) (source : List UInt8) :
    let compiled := (({} : Assembler).serveAll requests).1.compile (Token.scan source)
    ((compiled.2 = none ∧ ∃ p, compiled.1.link.2 = .ok p) ↔ ∃ q, build source = .ok q) ∧
    ∀ p q, compiled.1.link.2 = .ok p → build source = .ok q → p.code.size < 4294967296 →
      let found := (Listing.entries q.code).map Prod.snd
      q.code.toList = Instr.stream found ∧
      p.code.toList = c.code.toList ++ Instr.stream (found.map (Instr.shift c.code.size)) ∧
      ∀ i ∈ found, ∀ target, i.target? = some target → target.toNat + c.code.size < 4294967296 := by
  intro compiled
  have htook : Took (({} : Assembler).serveAll requests).1 (Request.ops requests) := Took.empty.serveAll requests
  have hfine := htook.failure.symm.trans (failure_of_link h)
  obtain ⟨hmarked, rfl⟩ := linking_eq_ok (htook.link_eq.symm.trans h)
  have hcompiled {p : Program} : compiled.2 = none ∧ compiled.1.link.2 = .ok p ↔ _ :=
    compiled_behind_iff htook hfine hmarked
  constructor
  · constructor
    · rintro ⟨hnone, p, hp⟩
      obtain ⟨hbal, hfits, -⟩ := hcompiled.mp ⟨hnone, hp⟩
      exact ⟨_, build_eq_ok_iff.mpr ⟨hbal, hfits, rfl⟩⟩
    · rintro ⟨q, hq⟩
      obtain ⟨hbal, hfits, -⟩ := build_eq_ok_iff.mp hq
      obtain ⟨hnone, hp⟩ := hcompiled.mpr ⟨hbal, hfits, rfl⟩
      exact ⟨hnone, _, hp⟩
  · intro p q hp hq short found
    obtain ⟨hbal, hfits, rfl⟩ := build_eq_ok_iff.mp hq
    obtain ⟨-, hlink⟩ := hcompiled.mpr ⟨hbal, hfits, rfl⟩
    obtain rfl := Except.ok.inj (hp.symm.trans hlink)
    have hfound : found = instructions (program source) := entries_binary _
    rw [hfound, size_binary]
    refine ⟨stream_binary _, ?_, fun i hi target ht => ?_⟩
    · rw [stream_binary, instructions_behind hmarked (reserves_of_fine hfine) (build_linked hq).1, Instr.stream_append,
        ← stream_binary, program]
    · have hle := target_le hi ht
      rw [size_binary, extent_append, extent_behind, ← program] at short
      omega

/-- A loop behind a jump to the end, with a label that was created before and never marked. The jumps of the loop, which go
to `0x19` and `0x07` in its own code, go five bytes further. -/
theorem loop_compiled_behind_jump :
    let a := (({} : Assembler).serveAll [.emit .newLabel, .emit .newLabel, .emit (.jump 1), .emit (.mark 1)]).1
    let before : Array UInt8 := #[0x0B, 0x05, 0, 0, 0]
    let alone : Array UInt8 := #[0x01, 0x30, 0x75, 0, 0, 0x02, 0x03, 0x04, 0x0C, 0x19, 0, 0, 0, 0x04, 0x07, 1, 0, 0, 0,
      0x05, 0x0B, 0x07, 0, 0, 0, 0x00]
    let moved : Array UInt8 := #[0x0B, 0x05, 0, 0, 0, 0x01, 0x30, 0x75, 0, 0, 0x02, 0x03, 0x04, 0x0C, 0x1E, 0, 0, 0, 0x04,
      0x07, 1, 0, 0, 0, 0x05, 0x0B, 0x0C, 0, 0, 0, 0x00]
    a.link.2 = .ok ⟨1, before⟩ ∧ build [0x5B, 0x2D, 0x5D] = .ok ⟨1, alone⟩ ∧
      (a.compile (Token.scan [0x5B, 0x2D, 0x5D])).1.link.2 = .ok ⟨1, moved⟩ ∧
      moved.toList =
        before.toList ++ Instr.stream (((Listing.entries alone).map Prod.snd).map (Instr.shift before.size)) := by
  intro a before alone moved
  have hbefore : a.link.2 = .ok ⟨1, before⟩ := by decide +kernel
  have halone : build [0x5B, 0x2D, 0x5D] = .ok ⟨1, alone⟩ := by decide +kernel
  have hmoved : (a.compile (Token.scan [0x5B, 0x2D, 0x5D])).1.link.2 = .ok ⟨1, moved⟩ := by decide +kernel
  have short : moved.size < 4294967296 := by decide
  obtain ⟨-, hcode⟩ := compiled_code_relocates hbefore [0x5B, 0x2D, 0x5D]
  exact ⟨hbefore, halone, hmoved, (hcode _ _ hmoved halone short).2.1⟩

end TapeCode
