import Mathlib.Algebra.Group.Nat.Defs
import Mathlib.Algebra.GroupWithZero.Nat
import TapeCode.Proofs.Assembling
import TapeCode.Proofs.Containment
import TapeCode.Proofs.Correctness
import TapeCode.Proofs.Input

/-!
How far the pointer of a compiled program gets from the cells. Moves are not checked, but every jump back goes to a load
(`Guarded`), which only a pointer on a cell gets past. So the pointer is no further from the cells than the moves before the
current operation take it, unless a load comes next (`Leash`). All moves together are too few for a pointer of 64 bits to
wrap around.
-/

namespace TapeCode

open Brackets Layout Assembler Translation

/-! ### Moves of a pointer without a limit -/

/-- Where an instruction takes a pointer that can be any integer. -/
def Instr.repoint (i : Instr) (pointer : Int) : Int :=
  match i with
  | .reset => 0
  | .forward => pointer + 1
  | .back => pointer - 1
  | .move delta => pointer + Word.toSigned delta
  | _ => pointer

/-- A pointer on a cell, or no further than a distance from the first or the last one. -/
def Near (distance : Nat) (pointer : Int) : Prop :=
  -(distance : Int) ≤ pointer ∧ pointer ≤ 29999 + distance

theorem Near.mono {d e : Nat} {pointer : Int} (h : Near d pointer) (hle : d ≤ e) : Near e pointer := by
  obtain ⟨hlow, hhigh⟩ := h
  exact ⟨by omega, by omega⟩

namespace Op
variable {ops : List Op} {op : Op} {k j : Nat}

/-- Where an operation moves the pointer to. Only three operations move it. -/
def repoint (op : Op) (pointer : Int) : Int :=
  match op with
  | reset => 0
  | step delta | move delta => pointer + delta
  | _ => pointer

/-- How many cells an operation moves the pointer by. -/
def reach : Op → Nat
  | step delta | move delta => delta.natAbs
  | _ => 0

/-- How far operations move the pointer if all go the same way. -/
def travel (ops : List Op) : Nat :=
  (ops.map reach).sum

theorem travel_append (ops more : List Op) : travel (ops ++ more) = travel ops + travel more := by
  rw [travel, List.map_append, List.sum_append, travel, travel]

theorem travel_take_succ (h : ops[k]? = some op) : travel (ops.take (k + 1)) = travel (ops.take k) + op.reach := by
  rw [take_succ h, travel_append]
  rfl

theorem travel_take_mono (ops : List Op) (h : k ≤ j) : travel (ops.take k) ≤ travel (ops.take j) := by
  obtain ⟨n, rfl⟩ := Nat.exists_eq_add_of_le h
  rw [List.take_add, travel_append]
  exact Nat.le_add_right _ _

theorem travel_take_le (ops : List Op) (k : Nat) : travel (ops.take k) ≤ travel ops := by
  have h := travel_append (ops.take k) (ops.drop k)
  rw [List.take_append_drop] at h
  omega

theorem near_repoint {d : Nat} {pointer : Int} (h : Near d pointer) (op : Op) :
    Near (d + op.reach) (op.repoint pointer) := by
  obtain ⟨hlow, hhigh⟩ := h
  cases op with
  | reset | step delta | move delta =>
    simp only [Near, repoint, reach]
    omega
  | _ => exact ⟨hlow, hhigh⟩

theorem repoint_of_destination {l : Int} (h : op.destination? = some l) (pointer : Int) : op.repoint pointer = pointer := by
  cases op with
  | jump | jumpIfZero => rfl
  | _ => cases h

theorem repoint_instr {address : Int → UInt32} {i : Instr} (hi : op.instr? address = some i) (henc : op.Encodable)
    (pointer : Int) : i.repoint pointer = op.repoint pointer := by
  cases op with
  | step delta =>
    obtain rfl := Option.some.inj hi
    rcases henc with rfl | rfl
    · rfl
    · rfl
  | move delta =>
    obtain rfl := Option.some.inj hi
    rw [Instr.repoint, Word.toSigned_ofInt henc.1 henc.2]
    rfl
  | newLabel | mark l => cases hi
  | _ =>
    obtain rfl := Option.some.inj hi
    rfl

end Op

/-! ### Operations that keep the pointer near -/

/-- From an index on, a load comes before all else but labels. -/
inductive LoadsFirst (ops : List Op) : Nat → Prop where
  | load {k : Nat} (h : ops[k]? = some .load) : LoadsFirst ops k
  | mark {k : Nat} {l : Int} (h : ops[k]? = some (.mark l)) (hnext : LoadsFirst ops (k + 1)) : LoadsFirst ops k

/-- Operations with as many cells as a program has, whose jumps back go to loads, and with few enough moves for a pointer
of 64 bits. -/
structure Guarded (ops : List Op) : Prop where
  cells : ∀ {k : Nat} {n : Int}, ops[k]? = some (.alloc n) → n = 30000
  jumps : ∀ {k : Nat} {op : Op} {l : Int}, ops[k]? = some op → op.destination? = some l →
    k ≤ ops.idxOf (.mark l) ∨ LoadsFirst ops (ops.idxOf (.mark l))
  fits : 30000 + Op.travel ops < 9223372036854775808

/-- The pointer at an index is no further from the cells than the moves before the index take it. Where a load comes next
it may be as far as all moves take it. -/
def Leash (ops : List Op) (index : Nat) (pointer : Int) : Prop :=
  Near (Op.travel (ops.take index)) pointer ∨ LoadsFirst ops index ∧ Near (Op.travel ops) pointer

namespace Leash
variable {ops : List Op} {op : Op} {k : Nat} {l pointer : Int}

theorem near (h : Leash ops k pointer) : Near (Op.travel ops) pointer := by
  rcases h with hnear | ⟨-, hnear⟩
  · exact hnear.mono (Op.travel_take_le ops k)
  · exact hnear

/-- A jump ahead has more moves before it, and a jump back comes to a load. -/
theorem jump (h : Leash ops k pointer) (guarded : Guarded ops) (hop : ops[k]? = some op)
    (hl : op.destination? = some l) : Leash ops (ops.idxOf (.mark l)) pointer := by
  rcases guarded.jumps hop hl with hahead | hback
  · rcases h with hnear | ⟨hload | ⟨hmark, -⟩, -⟩
    · exact Or.inl (hnear.mono (Op.travel_take_mono ops hahead))
    · rw [hload] at hop
      cases hop
      cases hl
    · rw [hmark] at hop
      cases hop
      cases hl
  · exact Or.inr ⟨hback, h.near⟩

end Leash

namespace Target
variable {ops : List Op} {t t' : Target} {op : Op}

/-- A machine goes on behind an operation: what becomes of its pointer and its cells. Only a pointer on a cell gets past a
load. -/
structure Passes (t : Target) (op : Op) (t' : Target) : Prop where
  pointer : t'.pointer = Int64.ofInt (op.repoint t.pointer.toInt)
  cells : t'.cells.map Array.size = t.cells.map Array.size ∨
    ∃ n, op = .alloc n ∧ t'.cells.map Array.size = some n.toNat
  onCell : op = .load → ∃ cells, t.cells = some cells ∧ 0 ≤ t.pointer.toInt ∧ t.pointer.toInt < cells.size

theorem touch_next {opcode : Opcode} {use : (cells : Array UInt8) → Fin cells.size → Target}
    (h : t.touch opcode use = .next t') : ∃ cells i, t.cells = some cells ∧
      (0 ≤ t.pointer.toInt ∧ t.pointer.toInt < cells.size) ∧ (use cells i).advance = .next t' := by
  unfold touch at h
  split at h
  · cases h
  · next cells hcells =>
    rcases Machine.locate_cases t.pointer cells with ⟨hin, i, hi, -⟩ | ⟨-, hout⟩
    · rw [hi] at h
      exact ⟨cells, i, hcells, hin, h⟩
    · rw [hout] at h
      cases h

theorem passes_plain (hpointer : t'.pointer = t.pointer) (hcells : t'.cells = t.cells) (hload : op ≠ .load)
    (hmoved : op.repoint t.pointer.toInt = t.pointer.toInt) : t.Passes op t' := by
  refine ⟨?_, Or.inl (by rw [hcells]), fun h => absurd h hload⟩
  rw [hmoved, Int64.ofInt_toInt, hpointer]

theorem passes_of_perform (h : t.perform ops op = .next t') : t.Passes op t' := by
  cases op with
  | alloc n =>
    simp only [perform] at h
    split at h
    · cases h
    · cases h
      exact ⟨(Int64.ofInt_toInt _).symm, Or.inr ⟨n, rfl, by simp⟩, Op.noConfusion⟩
  | reset =>
    cases h
    exact ⟨rfl, Or.inl rfl, Op.noConfusion⟩
  | step delta | move delta =>
    cases h
    refine ⟨?_, Or.inl rfl, Op.noConfusion⟩
    rw [Op.repoint, Int64.ofInt_add, Int64.ofInt_toInt]
  | load =>
    obtain ⟨cells, i, hcells, hin, hnext⟩ := touch_next h
    cases hnext
    exact ⟨(Int64.ofInt_toInt _).symm, Or.inl rfl, fun _ => ⟨cells, hcells, hin⟩⟩
  | store =>
    obtain ⟨cells, i, hcells, -, hnext⟩ := touch_next h
    cases hnext
    refine ⟨(Int64.ofInt_toInt _).symm, Or.inl ?_, Op.noConfusion⟩
    simp [hcells]
  | openInput | add n | sub n | newLabel | mark l | jump l =>
    cases h
    exact passes_plain rfl rfl Op.noConfusion rfl
  | jumpIfZero l =>
    simp only [perform] at h
    split at h
    · cases h
      exact passes_plain rfl rfl Op.noConfusion rfl
    · cases h
      exact passes_plain rfl rfl Op.noConfusion rfl
  | getc =>
    simp only [perform, readChar] at h
    split at h
    · cases h
    · split at h
      · cases h
      · split at h
        · cases h
          exact passes_plain rfl rfl Op.noConfusion rfl
        · cases h
  | putc =>
    simp only [perform, writeChar] at h
    split at h
    · cases h
    · cases h
      exact passes_plain rfl rfl Op.noConfusion rfl
  | halt => cases h

/-- A machine with the cells of a program whose pointer is held near to them. -/
structure Leashed (ops : List Op) (t : Target) : Prop where
  cells : ∀ n, t.cells.map Array.size = some n → n = 30000
  leash : Leash ops t.index t.pointer.toInt

namespace Leashed

theorem repoint (h : t.Leashed ops) (hop : ops[t.index]? = some op) (hpass : t.Passes op t') :
    Leash ops (t.index + 1) (op.repoint t.pointer.toInt) := by
  rcases h.leash with hnear | ⟨hload | ⟨hmark, hnext⟩, hnear⟩
  · refine Or.inl ?_
    rw [Op.travel_take_succ hop]
    exact Op.near_repoint hnear op
  · obtain rfl : op = .load := Option.some.inj (hop.symm.trans hload)
    obtain ⟨cells, hcells, hlow, hhigh⟩ := hpass.onCell rfl
    have hsize : cells.size = 30000 := h.cells _ (by rw [hcells, Option.map_some])
    have hcell : Near 0 t.pointer.toInt := ⟨by omega, by omega⟩
    exact Or.inl (hcell.mono (Nat.zero_le _))
  · obtain rfl := Option.some.inj (hop.symm.trans hmark)
    exact Or.inr ⟨hnext, hnear⟩

/-- An operation keeps the pointer near the cells, and moves it as if it had no limit. -/
theorem next (h : t.Leashed ops) (guarded : Guarded ops) (hop : ops[t.index]? = some op) (hs : t.step ops = .next t') :
    t'.Leashed ops ∧ t'.pointer.toInt = op.repoint t.pointer.toInt := by
  have hpass := passes_of_perform (step_of_op hop ▸ hs)
  have hmoved := h.repoint hop hpass
  have hexact : t'.pointer.toInt = op.repoint t.pointer.toInt := by
    have hfits := guarded.fits
    obtain ⟨hlow, hhigh⟩ := hmoved.near
    rw [hpass.pointer]
    exact Int64.toInt_ofInt_of_le (by omega) (by omega)
  refine ⟨⟨fun n hn => ?_, ?_⟩, hexact⟩
  · rcases hpass.cells with hsame | ⟨k, rfl, hnew⟩
    · exact h.cells n (hsame ▸ hn)
    · obtain rfl := guarded.cells hop
      rw [hnew] at hn
      exact (Option.some.inj hn).symm
  · rw [hexact]
    rcases index_next hop hs with hnext | ⟨l, hl, hjump⟩
    · rw [hnext]
      exact hmoved
    · rw [hjump, Op.repoint_of_destination hl]
      exact h.leash.jump guarded hop hl

end Leashed

end Target

/-! ### Compiled programs -/

namespace Translation
variable {fresh : Nat → Int} {gs : List Group} {g : Group} {op : Op} {i j k n : Nat}

theorem exists_block (h : (body fresh gs n)[k]? = some op) :
    ∃ i g o, gs[i]? = some g ∧ (blockOf fresh gs i g)[o]? = some op ∧ k = (body fresh gs i).length + o := by
  induction n with
  | zero => cases h
  | succ n ih =>
    rw [body_succ] at h
    rcases Nat.lt_or_ge k (body fresh gs n).length with hlt | hge
    · rw [List.getElem?_append_left hlt] at h
      exact ih h
    · rw [List.getElem?_append_right hge] at h
      rcases hg : gs[n]? with _ | g
      · rw [block, hg] at h
        cases h
      · rw [block_eq fresh hg] at h
        exact ⟨n, g, _, hg, h, (Nat.add_sub_cancel' hge).symm⟩

/-- Every operation behind the opening stands in the block of a run. -/
theorem exists_entry (h : (operations fresh gs)[k]? = some op) (hk : 3 ≤ k) :
    ∃ i g o, gs[i]? = some g ∧ (blockOf fresh gs i g)[o]? = some op ∧ k = entry fresh gs i + o := by
  rw [operations, List.getElem?_append_right hk] at h
  obtain ⟨i, g, o, hg, ho, hindex⟩ := exists_block h
  refine ⟨i, g, o, hg, ho, ?_⟩
  rw [entry, List.length_append, Nat.add_assoc, ← hindex]
  exact (Nat.add_sub_cancel' hk).symm

theorem entry_behind (fresh : Nat → Int) (hg : gs[i]? = some g) (h : i < j) :
    entry fresh gs i + (blockOf fresh gs i g).length ≤ entry fresh gs j := by
  obtain ⟨rest, hrest⟩ := body_split fresh gs h
  rw [entry, entry, hrest, block_eq fresh hg]
  simp only [List.length_append]
  omega

theorem reach_moveOp {direction : Int} (h : direction = 1 ∨ direction = -1) (count : Nat) :
    (Compilation.moveOp direction count).reach = count := by
  unfold Compilation.moveOp
  split
  · simp only [Op.reach]
    omega
  · simp only [Op.reach]
    rcases h with rfl | rfl <;> omega

/-- A run of moves takes the pointer as far as it has commands. -/
theorem travel_blockOf (fresh : Nat → Int) (gs : List Group) (k : Nat) (g : Group) :
    Op.travel (blockOf fresh gs k g) = if g.kind.isMove then g.count else 0 := by
  obtain ⟨kind, count⟩ := g
  cases kind with
  | moveForward => exact reach_moveOp (Or.inl rfl) count
  | moveBackward => exact reach_moveOp (Or.inr rfl) count
  | loopEnd =>
    simp only [blockOf]
    split <;> rfl
  | _ => rfl

theorem travel_body (fresh : Nat → Int) (gs : List Group) (hn : n ≤ gs.length) :
    Op.travel (body fresh gs n) = Group.moves gs n := by
  induction n with
  | zero => rfl
  | succ n ih =>
    obtain ⟨g, hg⟩ : ∃ g, gs[n]? = some g := ⟨_, List.getElem?_eq_getElem hn⟩
    rw [body_succ, Op.travel_append, ih (Nat.le_of_succ_le hn), block_eq fresh hg, travel_blockOf, Group.moves_succ hg]

theorem travel_operations (fresh : Nat → Int) (gs : List Group) :
    Op.travel (operations fresh gs) = Group.moves gs gs.length := by
  rw [operations, Op.travel_append, travel_body fresh gs (Nat.le_refl _)]
  exact Nat.zero_add _

end Translation

theorem Kind.isMove_ofByte? (b : UInt8) : ((ofByte? b).map isMove).getD false = (b == 0x3E || b == 0x3C) := by
  unfold ofByte?
  grind [isMove]

theorem countP_isMove (text : List UInt8) :
    (text.filterMap Kind.ofByte?).countP Kind.isMove = text.count 0x3E + text.count 0x3C := by
  rw [List.countP_filterMap]
  induction text with
  | nil => rfl
  | cons b text ih =>
    rw [List.countP_cons, List.count_cons, List.count_cons, ih, Kind.isMove_ofByte?]
    grind

/-- The moves of a program are its characters `>` and `<`. -/
theorem moves_runs (text : List UInt8) :
    Group.moves (runs text) (runs text).length = text.count 0x3E + text.count 0x3C := by
  rw [Group.moves, List.take_length, flatMap_runs, Interpreter.commands, List.countP_append, countP_isMove]
  rfl

theorem Compiled.guarded {text : List UInt8} (c : Compiled text) : Guarded (program text) where
  cells := by
    intro k n hop
    rcases opening_cases rfl hop with ⟨-, heq⟩ | ⟨-, heq⟩ | ⟨-, heq⟩ | hk
    · exact Op.alloc.inj heq
    · cases heq
    · cases heq
    · cases prepares_program hop hk
  jumps := by
    intro k op l hop hl
    have hk : 3 ≤ k := by
      rcases opening_cases rfl hop with ⟨-, rfl⟩ | ⟨-, rfl⟩ | ⟨-, rfl⟩ | hk
      · cases hl
      · cases hl
      · cases hl
      · exact hk
    obtain ⟨i, g, o, hg, ho, rfl⟩ := exists_entry hop hk
    rcases destination_mem_blockOf c.matched hg (List.mem_of_getElem? ho) hl with ⟨hkind, rfl⟩ | ⟨j, hm, rfl⟩
    · obtain ⟨j, hm⟩ := c.matched.exists_closer (by rw [kind?_bind hg, hkind])
      have hbehind := entry_behind newLabel hg hm.1
      have hinside := (List.getElem?_eq_some_iff.mp ho).1
      rw [c.idxOf_finish hm]
      exact Or.inl (by omega)
    · have hbegin := bracket_eq hm.2.1 rfl
      rw [c.idxOf_start hm]
      exact Or.inr (.mark (getElem?_entry (o := 2) hbegin rfl) (.load (getElem?_entry (o := 3) hbegin rfl)))
  fits := by
    rw [program, travel_operations]
    exact c.moves

/-! ### Runs -/

namespace Machine

/-- Where the instructions executed in some states take a pointer that can be any integer and starts on the first cell. -/
def reckoned (past : List Machine) : Int :=
  past.foldl (fun pointer m => (m.instr?.map (Instr.repoint · pointer)).getD pointer) 0

theorem reckoned_snoc {m : Machine} {i : Instr} (past : List Machine) (hi : m.instr? = some i) :
    reckoned (past ++ [m]) = i.repoint (reckoned past) := by
  rw [reckoned, List.foldl_concat, hi]
  rfl

/-- A machine with the code of some operations has its pointer near the cells, where exact arithmetic takes it. -/
def Leashed (ops : List Op) (code : Array UInt8) (past : List Machine) (m : Machine) : Prop :=
  ∃ t : Target, t.Leashed ops ∧ m = t.onCode ops code ∧ m.pointer.toInt = reckoned past

section Leashed
variable {ops : List Op} {code : Array UInt8} {m m' : Machine} {past : List Machine} {why : Stop}

theorem Leashed.next (h : Leashed ops code past m) (guarded : Guarded ops) (linked : Linked ops code)
    (short : code.size < 4294967296) (hs : m.step = .next m') : Leashed ops code (past ++ [m]) m' := by
  obtain ⟨t, ht, rfl, hpointer⟩ := h
  obtain ⟨u, u', op, i, hu, hsame, hop, hi, hstep, rfl⟩ := exists_instruction linked short
    (fun _ _ _ h hop _ hstep _ => (Target.Leashed.next h guarded hop hstep).1) ht hs
  obtain ⟨hleashed, hexact⟩ := hu.next guarded hop hstep
  rw [← hsame] at hpointer ⊢
  refine ⟨u', hleashed, rfl, ?_⟩
  rw [reckoned_snoc past (Target.instr?_onCode linked hop hi), ← hpointer,
    Op.repoint_instr hi (linked.encodable op (List.mem_of_getElem? hop))]
  exact hexact

theorem Leashed.stop (h : Leashed ops code past m) (hs : m.step = .stop m' why) : Leashed ops code past m' := by
  obtain ⟨t, ht, rfl, hpointer⟩ := h
  rcases step_stop_cases hs with rfl | ⟨i, -, hexecute⟩
  · exact ⟨t, ht, rfl, hpointer⟩
  · cases stopsOn_of_execute hexecute with
    | halt | refused => exact ⟨t, ht, rfl, hpointer⟩
    | @unflushed _ output => exact ⟨{ t with output }, ⟨ht.cells, ht.leash⟩, rfl, hpointer⟩
    | @wordless _ words output _ source =>
      exact ⟨{ t with output := _, source, words := some words }, ⟨ht.cells, ht.leash⟩, rfl, hpointer⟩
    | @unwritten output => exact ⟨{ t with output }, ⟨ht.cells, ht.leash⟩, rfl, hpointer⟩

theorem Leashed.finish (h : Leashed ops code past m) (why : Stop) : Leashed ops code past (m.finish why).1 := by
  obtain ⟨t, ht, rfl, hpointer⟩ := h
  exact ⟨{ t with output := t.output.flush.1 }, ⟨ht.cells, ht.leash⟩, rfl, hpointer⟩

theorem Leashed.run (h : Leashed ops code past m) (guarded : Guarded ops) (linked : Linked ops code)
    (short : code.size < 4294967296) (fuel : Nat) : Leashed ops code (past ++ m.trail fuel) (m.run fuel).1 := by
  rcases run_trail (fun _ _ _ h hs => Leashed.next h guarded linked short hs) past h fuel with
    ⟨m', hrun, hm'⟩ | ⟨u, v, why, hrun, hstop, hu⟩
  · rw [hrun]
    exact hm'
  · rw [hrun]
    exact (hu.stop hstop).finish why

theorem Traced.leashed {source : Source} {sink : Sink} {prompting : Bool} (guarded : Guarded ops)
    (linked : Linked ops code) (short : code.size < 4294967296) (h : (fresh code source sink prompting).Traced m past) :
    Leashed ops code past m := by
  induction h with
  | start =>
    refine ⟨Target.fresh source sink prompting, ⟨?_, Or.inl ⟨?_, ?_⟩⟩, rfl, rfl⟩
    · rintro n ⟨⟩
    · exact Int.neg_nonpos_of_nonneg (Int.natCast_nonneg _)
    · exact Int.add_nonneg (by decide) (Int.natCast_nonneg _)
  | run _ fuel ih => exact ih.run guarded linked short fuel

end Leashed

end Machine

/-- The pointer of a program that is built stays near the cells. Whatever its input is and however its devices fail, after
any number of instructions and runs it is no further from the first cell on one side and the last cell on the other than
the program has characters `>` and `<`. It never wraps around: it is where the executed instructions take a pointer that can
be any integer, and so is what the next instruction makes of it. -/
theorem pointer_stays_near_cells {text : List UInt8} {p : Program} (hbuild : build text = .ok p)
    (short : p.code.size < 4294967296) (source : Source) (sink : Sink) (prompting : Bool) {m : Machine}
    {past : List Machine} (h : (Machine.fresh p.code source sink prompting).Traced m past) :
    let moves : Nat := text.count 0x3E + text.count 0x3C
    (-(moves : Int) ≤ m.pointer.toInt ∧ m.pointer.toInt ≤ 29999 + moves) ∧ 29999 + moves < 2 ^ 63 ∧
    m.pointer.toInt = Machine.reckoned past ∧
    ∀ i m', m.instr? = some i → m.step = .next m' → m'.pointer.toInt = i.repoint m.pointer.toInt := by
  intro moves
  have c := compiled_of_build hbuild short
  have linked := (build_linked hbuild).2
  have htravel : Op.travel (program text) = moves := by rw [program, travel_operations, moves_runs]
  have hfits := c.guarded.fits
  rw [htravel] at hfits
  obtain ⟨t, ht, rfl, hpointer⟩ := h.leashed c.guarded linked short
  refine ⟨htravel ▸ ht.leash.near, by omega, hpointer, fun i m' hi hs => ?_⟩
  obtain ⟨-, -, -, hnext⟩ := Machine.Leashed.next ⟨t, ht, rfl, hpointer⟩ c.guarded linked short hs
  rw [hnext, Machine.reckoned_snoc past hi, hpointer]

/-- A loop that moves off the cells and comes back to its load, which stops the machine there, and again when it is run
once more. -/
theorem pointer_off_cells_at_loop :
    let text : List UInt8 := [0x2B, 0x5B, 0x3C, 0x5D]
    let code : Array UInt8 := #[0x01, 0x30, 0x75, 0, 0, 0x02, 0x03, 0x04, 0x06, 0x01, 0, 0, 0, 0x05, 0x04, 0x0C, 0x1A, 0, 0,
      0, 0x09, 0x0B, 0x0E, 0, 0, 0, 0x00]
    let start := Machine.fresh code ⟨[], none⟩ {} false
    let stopped := (start.run 20).1
    build text = .ok ⟨1, code⟩ ∧ code.size < 4294967296 ∧ text.count 0x3E + text.count 0x3C = 1 ∧
      (stopped.pc, stopped.pointer.toInt) = (14, -1) ∧ -1 ≤ (stopped.run 20).1.pointer.toInt ∧
      Machine.reckoned (start.trail 20 ++ stopped.trail 20) = (stopped.run 20).1.pointer.toInt := by
  intro text code start stopped
  have hbuild : build text = .ok ⟨1, code⟩ := by decide +kernel
  have short : code.size < 4294967296 := by decide
  have hmoves : text.count 0x3E + text.count 0x3C = 1 := by decide
  have hfirst : start.Traced stopped ([] ++ start.trail 20) := Machine.Traced.start.run 20
  have htraced := hfirst.run 20
  rw [List.nil_append] at htraced
  obtain ⟨⟨hlow, -⟩, -, hreckoned, -⟩ := pointer_stays_near_cells hbuild short ⟨[], none⟩ {} false htraced
  rw [hmoves] at hlow
  refine ⟨hbuild, short, hmoves, ?_, hlow, hreckoned.symm⟩
  decide +kernel

end TapeCode
