import TapeCode.Proofs.Interpreter
import TapeCode.Proofs.Lockstep
import TapeCode.Proofs.Translation

/-!
Compiled programs do what the interpreter does. Where the interpreter is before a run of commands and the machine over
operations at the block of that run, both have the same cells, pointer, input and output (`At`). From there both come
to another run, or they stop alike.
-/

namespace TapeCode

open Brackets Translation

/-! ### Output without a limit -/

namespace Output

/-- Output that a device without a limit takes. -/
structure Free (o : Output) : Prop where
  room : o.sink.room = none
  sound : o.broken = false

/-- The bytes that are written and those that wait. -/
def bytes (o : Output) : Array UInt8 :=
  o.sink.taken ++ o.buffer

theorem Free.flush {o : Output} (h : o.Free) :
    ∃ o', o.flush = (o', none) ∧ o'.Free ∧ o'.bytes = o.bytes ∧ o'.buffer = #[] := by
  rcases hempty : o.buffer.isEmpty with _ | _
  · refine ⟨⟨o.sink.put o.buffer.toList, #[], false, o.log.push (.output o.buffer.toList)⟩, ?_, ⟨?_, rfl⟩, ?_, rfl⟩
    · simp [Output.flush, h.sound, hempty, Sink.write, Sink.refuses, Sink.fitting, h.room]
    · simp [Sink.put, h.room]
    · exact Array.ext' (by simp [bytes, Sink.put, Sink.fitting, h.room])
  · refine ⟨o, ?_, h, rfl, Array.isEmpty_iff.mp hempty⟩
    simp [Output.flush, h.sound, hempty]

theorem Free.put {o : Output} (h : o.Free) (b : UInt8) :
    ∃ o', o.put b = (o', none) ∧ o'.Free ∧ o'.bytes = o.bytes.push b := by
  have happend : ∀ o : Output, (o.append b).bytes = o.bytes.push b := fun o => Array.append_push
  by_cases hroom : o.buffer.size < capacity
  · refine ⟨o.append b, ?_, ⟨h.room, h.sound⟩, happend o⟩
    simp [Output.put, h.sound, hroom]
  · obtain ⟨o', hflush, hfree, hbytes, -⟩ := h.flush
    refine ⟨o'.append b, ?_, ⟨hfree.room, hfree.sound⟩, by rw [happend, hbytes]⟩
    simp [Output.put, h.sound, hroom, hflush]

end Output

/-! ### Agreement -/

theorem toInt_add_ofInt (p : Int64) (d : Int) (low : -9223372036854775808 ≤ p.toInt + d)
    (high : p.toInt + d < 9223372036854775808) : (p + Int64.ofInt d).toInt = p.toInt + d := by
  have hsize : Int64.size = 18446744073709551616 := rfl
  rw [Int64.toInt_add, Int64.toInt_ofInt, Int.add_bmod_bmod]
  exact Int.bmod_eq_of_le (by omega) (by omega)

/-- The interpreter and the machine over operations have the same cells, pointer, input and output, wherever they are
in the program. What had been `written` before is no output of the program. -/
structure Agree (written : Array UInt8) (s : Interpreter) (t : Target) : Prop where
  cells : t.cells = some s.cells.toArray
  pointer : t.pointer.toInt = s.pointer
  source : t.source = s.source
  words : t.words = some s.words
  free : t.output.Free
  output : t.output.bytes = written ++ s.output

/-- An interpreter and a machine that stop for the same reason. Only the fault of the machine has a place in the code. -/
inductive Ending.Alike : Ending → Stop → Prop where
  | halted : Alike .halted .halted
  | fault {f : Fault} {cause : Cause} (h : f.cause = cause) : Alike (.fault cause) (.fault f)

namespace Agree
variable {written : Array UInt8} {s : Interpreter} {t : Target} {ops : List Op}

theorem moved (h : Agree written s t) (p i : Nat) (acc : UInt8) :
    Agree written (s.placed p) { t with index := i, acc } :=
  ⟨h.cells, h.pointer, h.source, h.words, h.free, h.output⟩

theorem locate (h : Agree written s t) (hr : s.InRange) :
    Machine.locate t.pointer s.cells.toArray = .ok ⟨s.pointer.toNat, s.cells.size_toArray.symm ▸ hr.2⟩ := by
  have hin : 0 ≤ t.pointer.toInt ∧ t.pointer.toInt.toNat < s.cells.toArray.size := by
    rw [h.pointer, Vector.size_toArray]
    exact hr
  rw [Machine.locate, dif_pos hin]
  simp only [h.pointer]

theorem locate_fault (h : Agree written s t) (hr : ¬s.InRange) :
    Machine.locate t.pointer s.cells.toArray = .error (.pointerRange s.pointer 30000) := by
  have hout : ¬(0 ≤ t.pointer.toInt ∧ t.pointer.toInt.toNat < s.cells.toArray.size) := by
    rw [h.pointer, Vector.size_toArray]
    exact hr
  rw [Machine.locate, dif_neg hout, h.pointer, Vector.size_toArray]

theorem touch_fault (h : Agree written s t) (hr : ¬s.InRange) (opcode : Opcode)
    (use : (cells : Array UInt8) → Fin cells.size → Target) :
    t.touch opcode use = .stop t (.fault ⟨t.index, opcode.toByte, .pointerRange s.pointer 30000⟩) := by
  simp only [Target.touch, h.cells, h.locate_fault hr]
  rfl

theorem step_load (h : Agree written s t) (hr : s.InRange) (hop : ops[t.index]? = some .load) :
    t.step ops = .next { t with acc := s.cell (s.here hr), index := t.index + 1 } := by
  simp only [Target.step_of_op hop, Target.perform, Target.touch, h.cells, h.locate hr]
  rfl

theorem step_store (h : Agree written s t) (hr : s.InRange) (hop : ops[t.index]? = some .store) :
    t.step ops =
      .next { t with cells := some (s.put (s.here hr) t.acc).cells.toArray, index := t.index + 1 } := by
  simp only [Target.step_of_op hop, Target.perform, Target.touch, h.cells, h.locate hr]
  rfl

end Agree

/-! ### Runs of commands and blocks of operations -/

/-- What is known of a text that has been compiled. -/
structure Compiled (text : List UInt8) : Prop where
  balanced : Balanced Kind.ofByte? text
  matched : Balanced Group.kind? (runs text)
  once : ∀ {k : Nat} {l : Int}, (program text)[k]? = some (.mark l) → (program text).idxOf (.mark l) = k
  moves : 30000 + Group.moves (runs text) (runs text).length < 9223372036854775808

/-- The interpreter is before the run with number `k`, and the machine over operations at its block. The pointer is no
further from the cells than the moves before that run take it. -/
structure At (text : List UInt8) (written : Array UInt8) (k : Nat) (s : Interpreter) (t : Target) : Prop where
  place : Interpreter.before text s.position = Group.offset (runs text) k
  index : t.index = entry newLabel (runs text) k
  low : -(Group.moves (runs text) k : Int) ≤ s.pointer
  high : s.pointer < 30000 + (Group.moves (runs text) k : Int)
  agree : Agree written s t

/-- Both systems stop alike, or come to a run again. -/
def Proceeds (text : List UInt8) (written : Array UInt8) (s : Interpreter) (t : Target) : Prop :=
  Progress.Meet (Interpreter.step text) (Target.step (program text)) (fun s t => ∃ k, At text written k s t)
    (fun s ending t stop => Agree written s t ∧ ending.Alike stop) s t

section Blocks
variable {text : List UInt8} {written : Array UInt8} {k n o : Nat} {g : Group} {op : Op} {s : Interpreter} {t : Target}

theorem flatMap_runs (text : List UInt8) : (runs text).flatMap Group.commands = Interpreter.commands text :=
  Group.flatMap_fold _

theorem At.commands (h : At text written k s t) (hg : (runs text)[k]? = some g) {i : Nat} (hi : i < g.count) :
    (Interpreter.commands text)[Interpreter.before text s.position + i]? = some g.kind := by
  rw [← flatMap_runs, h.place]
  exact Group.getElem?_offset hg hi

theorem At.operation (h : At text written k s t) (hg : (runs text)[k]? = some g)
    (ho : (blockOf newLabel (runs text) k g)[o]? = some op) : (program text)[t.index + o]? = some op := by
  rw [h.index]
  exact getElem?_entry hg ho

theorem At.count_pos (hg : (runs text)[k]? = some g) : 0 < g.count :=
  (Group.proper_fold _ g (List.mem_of_getElem? hg)).pos

theorem Kind.ne_endMark_of_touches {kind : Kind} (h : kind.touches = true) : kind ≠ .endMark := by
  rintro rfl
  cases h

/-- Both stop where there is no cell to use: the interpreter at its command, the operations at a load. -/
theorem At.proceeds_fault {t' : Target} {m : Nat} (h : At text written k s t) (hg : (runs text)[k]? = some g)
    (hkind : g.kind.touches = true) (hr : ¬s.InRange)
    (hload : Progress.iterate (Target.step (program text)) m t = (t', none))
    (hop : (program text)[t'.index]? = some .load) (hagree : Agree written s t') : Proceeds text written s t := by
  obtain ⟨n, p, hskip, -, hcommand, -⟩ := Interpreter.exists_command s (h.commands hg (At.count_pos hg))
  have hs := Interpreter.step_command (s := s.placed p) (hcommand (Kind.ne_endMark_of_touches hkind))
  rw [Interpreter.perform_outside (s := s.placed p) hkind hr] at hs
  have ht : Target.step (program text) t' =
      .stop t' (.fault ⟨t'.index, Opcode.load.toByte, .pointerRange s.pointer 30000⟩) := by
    rw [Target.step_of_op hop]
    exact hagree.touch_fault hr .load _
  exact Progress.Meet.stop hskip hs hload ht ⟨hagree.moved p _ _, .fault rfl⟩

theorem At.of_inRange (place : Interpreter.before text s.position = Group.offset (runs text) k)
    (index : t.index = entry newLabel (runs text) k) (hr : s.InRange) (agree : Agree written s t) :
    At text written k s t := by
  obtain ⟨hlow, hhigh⟩ := hr
  exact ⟨place, index, by omega, by omega, agree⟩

theorem At.iterate_commands (h : At text written k s t) (hg : (runs text)[k]? = some g) (hend : g.kind ≠ .endMark)
    (after : Nat → Interpreter) (hstart : (after 0).placed s.position = s)
    (hperform : ∀ i < g.count, ∀ p, ((after i).placed p).perform text g.kind = ((after (i + 1)).placed p).advance) :
    ∃ m q, 0 < m ∧ Progress.iterate (Interpreter.step text) m s = ((after g.count).placed q, none) ∧
      Interpreter.before text q = Group.offset (runs text) (k + 1) := by
  obtain ⟨m, q, hm, hiter, hq⟩ := Interpreter.iterate_run after rfl (fun i hi => h.commands hg hi) hend hperform
  rw [hstart] at hiter
  refine ⟨m, q, Nat.lt_of_lt_of_le (At.count_pos hg) hm, hiter, ?_⟩
  rw [hq, Group.offset_succ hg, ← h.place]

/-- A run of commands that change a cell is one change by their number. -/
theorem At.proceeds_change (change : Nat → UInt8 → UInt8) (h : At text written k s t) (hg : (runs text)[k]? = some g)
    (hkind : g.kind.touches = true) (hblock : blockOf newLabel (runs text) k g = [.load, op, .store])
    (hzero : ∀ x, change 0 x = x) (hsucc : ∀ n x, change 1 (change n x) = change (n + 1) x)
    (hperform : ∀ s : Interpreter, s.perform text g.kind =
      s.touch fun i => (s.put i (change 1 (s.cell i))).advance)
    (hop : ∀ t : Target, t.perform (program text) op = { t with acc := change g.count t.acc }.advance) :
    Proceeds text written s t := by
  have hload : (program text)[t.index]? = some .load := h.operation hg (o := 0) (by rw [hblock]; rfl)
  by_cases hr : s.InRange
  · let value := s.cell (s.here hr)
    let after (n : Nat) : Interpreter := s.put (s.here hr) (change n value)
    have hstart : (after 0).placed s.position = s := by
      rw [show after 0 = s by simp only [after, value, hzero, Interpreter.put_cell]]
      rfl
    have hafter : ∀ i < g.count, ∀ p,
        ((after i).placed p).perform text g.kind = ((after (i + 1)).placed p).advance := by
      intro i _ p
      rw [hperform, Interpreter.touch_inRange (s := (after i).placed p) hr]
      show (((after i).placed p).put (s.here hr) (change 1 (((after i).placed p).cell (s.here hr)))).advance = _
      simp only [after, Interpreter.placed_put, Interpreter.cell_put, Interpreter.put_put, hsucc]
    obtain ⟨m, q, hm, hiter, hplace⟩ :=
      h.iterate_commands hg (Kind.ne_endMark_of_touches hkind) after hstart hafter
    have hstep₁ := h.agree.step_load hr hload
    have hstep₂ := Target.step_of_op (t := { t with acc := value, index := t.index + 1 })
      (h.operation hg (o := 1) (by rw [hblock]; rfl))
    rw [hop] at hstep₂
    have hstep₃ := (h.agree.moved s.position (t.index + 2) (change g.count value)).step_store hr
      (h.operation hg (o := 2) (by rw [hblock]; rfl))
    have hrun : Progress.iterate (Target.step (program text)) 3 t = _ :=
      (Progress.iterate_next hstep₁ 2).trans ((Progress.iterate_next hstep₂ 1).trans (Progress.iterate_one hstep₃))
    refine Progress.Meet.next hm (Nat.succ_pos 2) hiter hrun ⟨k + 1, At.of_inRange hplace ?_ hr
      ⟨rfl, h.agree.pointer, h.agree.source, h.agree.words, h.agree.free, h.agree.output⟩⟩
    rw [entry_succ newLabel hg, ← h.index, hblock]
    rfl
  · exact h.proceeds_fault hg hkind hr (m := 0) rfl hload h.agree

theorem ofInt_natCast (n : Nat) : UInt8.ofInt n = UInt8.ofNat n := by
  apply UInt8.toNat_inj.mp
  rw [UInt8.ofInt, UInt8.toNat_ofNat', UInt8.toNat_ofNat']
  omega

theorem At.proceeds_increment (h : At text written k s t) (hg : (runs text)[k]? = some g)
    (hkind : g.kind = .increment) : Proceeds text written s t := by
  obtain ⟨kind, count⟩ := g
  obtain rfl : kind = .increment := hkind
  refine h.proceeds_change (fun n x => x + UInt8.ofNat n) hg rfl rfl UInt8.add_zero ?_ (fun _ => rfl) ?_
  · intro n x
    rw [UInt8.add_assoc, ← UInt8.ofNat_add]
  · intro t
    rw [Target.perform, ofInt_natCast]

theorem At.proceeds_decrement (h : At text written k s t) (hg : (runs text)[k]? = some g)
    (hkind : g.kind = .decrement) : Proceeds text written s t := by
  obtain ⟨kind, count⟩ := g
  obtain rfl : kind = .decrement := hkind
  refine h.proceeds_change (fun n x => x - UInt8.ofNat n) hg rfl rfl UInt8.sub_zero ?_ (fun _ => rfl) ?_
  · intro n x
    rw [UInt8.ofNat_add]
    grind
  · intro t
    rw [Target.perform, ofInt_natCast]

theorem perform_moveOp (ops : List Op) (t : Target) (direction count : Int) :
    t.perform ops (Compilation.moveOp direction count) =
      { t with pointer := t.pointer + Int64.ofInt (direction * count) }.advance := by
  unfold Compilation.moveOp
  split
  · next hone =>
    rw [hone, Int.mul_one]
    rfl
  · rfl

theorem At.proceeds_move {direction : Int} (c : Compiled text) (h : At text written k s t)
    (hg : (runs text)[k]? = some g) (hkind : g.kind.isMove = true) (hdirection : direction = 1 ∨ direction = -1)
    (hblock : blockOf newLabel (runs text) k g = [Compilation.moveOp direction g.count])
    (hperform : ∀ s : Interpreter, s.perform text g.kind = { s with pointer := s.pointer + direction }.advance) :
    Proceeds text written s t := by
  let after (n : Nat) : Interpreter := { s with pointer := s.pointer + direction * n }
  have hstart : (after 0).placed s.position = s := by simp [after, Interpreter.placed]
  have hend : g.kind ≠ .endMark := fun he => by simp [he, Kind.isMove] at hkind
  have hafter : ∀ i < g.count, ∀ p,
      ((after i).placed p).perform text g.kind = ((after (i + 1)).placed p).advance := by
    intro i _ p
    rw [hperform]
    simp [after, Interpreter.placed, Int.mul_add, Int.add_assoc]
  obtain ⟨m, q, hm, hiter, hplace⟩ := h.iterate_commands hg hend after hstart hafter
  have hstep := Target.step_of_op (h.operation hg (o := 0) (by rw [hblock]; rfl))
  rw [perform_moveOp] at hstep
  -- The moves of all runs together are too few for the pointer to overflow.
  have hmoves := Group.moves_succ hg
  rw [if_pos hkind] at hmoves
  have hall := Group.moves_le (runs text) (k + 1)
  have hlow := h.low
  have hhigh := h.high
  have hfit := c.moves
  have hpointer : (t.pointer + Int64.ofInt (direction * g.count)).toInt = s.pointer + direction * g.count := by
    rw [toInt_add_ofInt, h.agree.pointer]
    · rcases hdirection with rfl | rfl <;> rw [h.agree.pointer] <;> omega
    · rcases hdirection with rfl | rfl <;> rw [h.agree.pointer] <;> omega
  refine Progress.Meet.next hm Nat.one_pos hiter (Progress.iterate_one hstep) ⟨k + 1, hplace, ?_, ?_, ?_,
    h.agree.cells, hpointer, h.agree.source, h.agree.words, h.agree.free, h.agree.output⟩
  · rw [entry_succ newLabel hg, ← h.index, hblock]
    rfl
  · show _ ≤ s.pointer + direction * g.count
    rcases hdirection with rfl | rfl <;> omega
  · show s.pointer + direction * g.count < _
    rcases hdirection with rfl | rfl <;> omega

theorem At.proceeds_forward (c : Compiled text) (h : At text written k s t) (hg : (runs text)[k]? = some g)
    (hkind : g.kind = .moveForward) : Proceeds text written s t := by
  obtain ⟨kind, count⟩ := g
  obtain rfl : kind = .moveForward := hkind
  exact h.proceeds_move c hg rfl (Or.inl rfl) rfl fun _ => rfl

theorem At.proceeds_back (c : Compiled text) (h : At text written k s t) (hg : (runs text)[k]? = some g)
    (hkind : g.kind = .moveBackward) : Proceeds text written s t := by
  obtain ⟨kind, count⟩ := g
  obtain rfl : kind = .moveBackward := hkind
  exact h.proceeds_move c hg rfl (Or.inr rfl) rfl fun _ => rfl

theorem At.exists_command (h : At text written k s t) (hg : (runs text)[k]? = some g)
    (hsingle : g.kind.foldable = false) (hend : g.kind ≠ .endMark) :
    ∃ n p, Progress.iterate (Interpreter.step text) n s = (s.placed p, none) ∧
      Interpreter.step text (s.placed p) = (s.placed p).perform text g.kind ∧
      text[p]?.bind Kind.ofByte? = some g.kind ∧ Interpreter.before text p = Group.offset (runs text) k ∧
      Interpreter.before text (p + 1) = Group.offset (runs text) (k + 1) := by
  obtain ⟨n, p, hskip, hp, hcommand, -⟩ := Interpreter.exists_command s (h.commands hg (At.count_pos hg))
  have hone := (Group.proper_fold _ g (List.mem_of_getElem? hg)).single hsingle
  refine ⟨n, p, hskip, Interpreter.step_command (hcommand hend), hcommand hend, hp.trans h.place, ?_⟩
  rw [Interpreter.before_command (hcommand hend), hp, h.place, Group.offset_succ hg, hone]

theorem At.proceeds_output (h : At text written k s t) (hg : (runs text)[k]? = some g) (hkind : g.kind = .output) :
    Proceeds text written s t := by
  obtain ⟨kind, count⟩ := g
  obtain rfl : kind = .output := hkind
  have hload : (program text)[t.index]? = some .load := h.operation hg (o := 0) rfl
  by_cases hr : s.InRange
  · obtain ⟨n, p, hskip, hstep, -, -, hplace⟩ := h.exists_command hg rfl Kind.noConfusion
    rw [Interpreter.perform, Interpreter.touch_inRange (s := s.placed p) hr] at hstep
    have hstep₁ := h.agree.step_load hr hload
    have hstep₂ := Target.step_of_op (t := { t with acc := s.cell (s.here hr), index := t.index + 1 })
      (h.operation hg (o := 1) rfl)
    obtain ⟨output, hput, hfree, hbytes⟩ := h.agree.free.put (s.cell (s.here hr))
    simp only [Target.perform, Target.writeChar, hput] at hstep₂
    refine Progress.Meet.next (Nat.succ_pos n) Nat.two_pos
      ((Progress.iterate_add hskip 1).trans (Progress.iterate_one hstep))
      ((Progress.iterate_next hstep₁ 1).trans (Progress.iterate_one hstep₂)) ⟨k + 1, At.of_inRange hplace ?_ hr ?_⟩
    · rw [entry_succ newLabel hg, ← h.index]
      rfl
    · refine ⟨h.agree.cells, h.agree.pointer, h.agree.source, h.agree.words, hfree, ?_⟩
      rw [hbytes, h.agree.output]
      exact Array.append_push.symm
  · exact h.proceeds_fault hg rfl hr (m := 0) rfl hload h.agree

theorem Agree.exists_prompted (h : Agree written s t) :
    ∃ output, t.output.flush = (output, none) ∧ (if t.prompting then output.prompt else output).Free ∧
      (if t.prompting then output.prompt else output).bytes = written ++ s.output := by
  obtain ⟨output, hflush, hfree, hbytes, -⟩ := h.free.flush
  refine ⟨output, hflush, ?_⟩
  rw [← h.output, ← hbytes]
  split
  · exact ⟨⟨hfree.room, hfree.sound⟩, rfl⟩
  · exact ⟨hfree, rfl⟩

theorem At.proceeds_input (h : At text written k s t) (hg : (runs text)[k]? = some g) (hkind : g.kind = .input) :
    Proceeds text written s t := by
  obtain ⟨kind, count⟩ := g
  obtain rfl : kind = .input := hkind
  obtain ⟨n, p, hskip, hs, -, -, hplace⟩ := h.exists_command hg rfl Kind.noConfusion
  obtain ⟨output, hflush, hfree, hbytes⟩ := h.agree.exists_prompted
  have ht := Target.step_of_op (h.operation hg (o := 0) rfl)
  simp only [Target.perform, Target.readChar, h.agree.words, h.agree.source, hflush] at ht
  simp only [Interpreter.perform, Interpreter.placed] at hs
  rcases hnext : s.words.next s.source with ⟨ended | word, words, source⟩
  · simp only [hnext] at hs ht
    exact Progress.Meet.stop hskip hs (m := 0) rfl ht
      ⟨⟨h.agree.cells, h.agree.pointer, rfl, rfl, hfree, hbytes⟩, .fault rfl⟩
  · simp only [hnext] at hs ht
    let s₁ : Interpreter := { s.placed p with words, source }
    let t₁ : Target :=
      { t with
        index := t.index + 1
        acc := Text.initial word
        source
        words := some words
        output := if t.prompting then output.prompt else output }
    have hagree : Agree written s₁ t₁ := ⟨h.agree.cells, h.agree.pointer, rfl, rfl, hfree, hbytes⟩
    have hstore : (program text)[t₁.index]? = some .store := h.operation hg (o := 1) rfl
    have hread : Progress.iterate (Target.step (program text)) 1 t = (t₁, none) := Progress.iterate_one ht
    by_cases hr : s₁.InRange
    · have hs := hs.trans (Interpreter.touch_inRange hr _)
      refine Progress.Meet.next (Nat.succ_pos n) Nat.two_pos
        ((Progress.iterate_add hskip 1).trans (Progress.iterate_one hs))
        ((Progress.iterate_add hread 1).trans (Progress.iterate_one (hagree.step_store hr hstore)))
        ⟨k + 1, At.of_inRange hplace ?_ hr ⟨rfl, h.agree.pointer, rfl, rfl, hfree, hbytes⟩⟩
      rw [entry_succ newLabel hg, ← h.index]
      rfl
    · have hs := hs.trans (Interpreter.touch_outside hr _)
      have ht : t₁.step (program text) =
          .stop t₁ (.fault ⟨t₁.index, Opcode.store.toByte, .pointerRange s₁.pointer 30000⟩) := by
        rw [Target.step_of_op hstore]
        exact hagree.touch_fault hr .store _
      exact Progress.Meet.stop hskip hs hread ht ⟨hagree, .fault rfl⟩

end Blocks

/-! ### Loops -/

section Loops
variable {text : List UInt8} {written : Array UInt8} {i j p q : Nat} {s : Interpreter} {t : Target}

theorem bracket_eq {kind : Kind} (h : (runs text)[i]?.bind Group.kind? = some kind) (hk : kind.foldable = false) :
    (runs text)[i]? = some ⟨kind, 1⟩ := by
  obtain ⟨⟨kind', count⟩, hg, hkind⟩ := Option.bind_eq_some_iff.mp h
  obtain rfl : kind' = kind := Option.some.inj hkind
  obtain rfl : count = 1 := (Group.proper_fold _ _ (List.mem_of_getElem? hg)).single hk
  exact hg

theorem Compiled.idxOf_start (c : Compiled text) (hm : Matches Group.kind? (runs text) i j) :
    (program text).idxOf (.mark (startLabel newLabel (runs text) i)) = entry newLabel (runs text) i + 2 :=
  c.once (getElem?_entry (bracket_eq hm.2.1 rfl) rfl)

theorem Compiled.idxOf_finish (c : Compiled text) (hm : Matches Group.kind? (runs text) i j) :
    (program text).idxOf (.mark (finishLabel newLabel (runs text) i)) = entry newLabel (runs text) j + 1 :=
  c.once (getElem?_entry (bracket_eq hm.2.2.1 rfl) (by rw [blockOf_loopEnd hm rfl]; rfl))

theorem matches_iff_runs (hp : Matches Kind.ofByte? text p q) (hm : Matches Group.kind? (runs text) i j) :
    Interpreter.before text p = Group.offset (runs text) i ↔
      Interpreter.before text q = Group.offset (runs text) j := by
  have hcommands := Interpreter.matches_commands hp
  have hruns := hm.flatMap (Group.spells (Group.proper_fold _))
  rw [flatMap_runs] at hruns
  refine ⟨fun hplace => ?_, fun hplace => ?_⟩
  · rw [hplace] at hcommands
    exact hcommands.closer_unique hruns
  · rw [hplace] at hcommands
    exact hcommands.opener_unique hruns

theorem iterate_mark (hm : Matches Group.kind? (runs text) i j) (hindex : t.index = entry newLabel (runs text) i + 2) :
    Progress.iterate (Target.step (program text)) 1 t = ({ t with index := t.index + 1 }, none) ∧
      (program text)[t.index + 1]? = some .load := by
  have hbegin := bracket_eq hm.2.1 rfl
  rw [hindex]
  refine ⟨Progress.iterate_one ?_, getElem?_entry (o := 3) hbegin rfl⟩
  rw [Target.step_of_op (hindex ▸ getElem?_entry (o := 2) hbegin rfl), ← hindex]
  rfl

theorem Compiled.iterate_test (c : Compiled text) (hm : Matches Group.kind? (runs text) i j)
    (hindex : t.index = entry newLabel (runs text) i + 2) (hagree : Agree written s t) (hr : s.InRange) :
    ∃ n, 0 < n ∧ Progress.iterate (Target.step (program text)) n t =
      ({ t with index := entry newLabel (runs text) ((if s.cell (s.here hr) = 0 then j else i) + 1),
                acc := s.cell (s.here hr) }, none) := by
  have hbegin := bracket_eq hm.2.1 rfl
  have hend := bracket_eq hm.2.2.1 rfl
  obtain ⟨hmark, hload⟩ := iterate_mark hm hindex
  have hstep := (hagree.moved s.position (t.index + 1) t.acc).step_load hr hload
  have hjump : (program text)[t.index + 2]? = some (.jumpIfZero (finishLabel newLabel (runs text) i)) := by
    rw [hindex]
    exact getElem?_entry (o := 4) hbegin rfl
  have htest := Target.step_of_op (t := { t with index := t.index + 2, acc := s.cell (s.here hr) }) hjump
  have hiter : Progress.iterate (Target.step (program text)) 2 t =
      ({ t with index := t.index + 2, acc := s.cell (s.here hr) }, none) :=
    (Progress.iterate_add hmark 1).trans (Progress.iterate_one hstep)
  rw [Target.perform] at htest
  by_cases hzero : s.cell (s.here hr) = 0
  · rw [if_pos hzero, Target.goto, c.idxOf_finish hm] at htest
    have hfinish := Target.step_of_op
      (t := { t with index := entry newLabel (runs text) j + 1, acc := s.cell (s.here hr) })
      (getElem?_entry (o := 1) hend (by rw [blockOf_loopEnd hm rfl]; rfl))
    refine ⟨4, by omega, ?_⟩
    rw [if_pos hzero, entry_succ newLabel hend, blockOf_loopEnd hm rfl]
    exact (Progress.iterate_add hiter 2).trans ((Progress.iterate_next htest 1).trans (Progress.iterate_one hfinish))
  · rw [if_neg hzero] at htest
    refine ⟨3, by omega, ?_⟩
    rw [if_neg hzero, entry_succ newLabel hbegin]
    refine (Progress.iterate_add hiter 1).trans ((Progress.iterate_one htest).trans ?_)
    simp only [hindex]
    rfl

/-- At either bracket both look at the cell, and go into the loop or behind it. -/
theorem Compiled.proceeds_test {k m : Nat} {g : Group} (c : Compiled text) (h : At text written k s t)
    (hg : (runs text)[k]? = some g) (hkind : g.kind.touches = true) (hm : Matches Group.kind? (runs text) i j)
    (harrive : Progress.iterate (Target.step (program text)) m t =
      ({ t with index := entry newLabel (runs text) i + 2 }, none))
    (hbranch : ∀ hr : s.InRange, ∃ n q, 0 < n ∧ Progress.iterate (Interpreter.step text) n s = (s.placed q, none) ∧
      Interpreter.before text q = Group.offset (runs text) ((if s.cell (s.here hr) = 0 then j else i) + 1)) :
    Proceeds text written s t := by
  by_cases hr : s.InRange
  · obtain ⟨n, q, hn, hs, hplace⟩ := hbranch hr
    obtain ⟨n', hn', ht⟩ := c.iterate_test hm rfl (h.agree.moved s.position _ t.acc) hr
    exact Progress.Meet.next hn (by omega) hs ((Progress.iterate_add harrive n').trans ht)
      ⟨_, At.of_inRange hplace rfl hr (h.agree.moved q _ _)⟩
  · obtain ⟨hmark, hload⟩ := iterate_mark (t := { t with index := entry newLabel (runs text) i + 2 }) hm rfl
    exact h.proceeds_fault hg hkind hr ((Progress.iterate_add harrive 1).trans hmark) hload
      (h.agree.moved s.position _ t.acc)

theorem Compiled.proceeds_begin {g : Group} (c : Compiled text) (h : At text written i s t)
    (hg : (runs text)[i]? = some g) (hkind : g.kind = .loopBegin) : Proceeds text written s t := by
  obtain ⟨kind, count⟩ := g
  obtain rfl : kind = .loopBegin := hkind
  obtain ⟨j, hm⟩ := c.matched.exists_closer (by rw [hg]; rfl)
  have hstep₁ := Target.step_of_op (h.operation hg (o := 0) rfl)
  have hstep₂ := Target.step_of_op (t := { t with index := t.index + 1 }) (h.operation hg (o := 1) rfl)
  have harrive := (Progress.iterate_next hstep₁ 1).trans (Progress.iterate_one hstep₂)
  refine c.proceeds_test h hg rfl hm (h.index ▸ harrive) fun hr => ?_
  obtain ⟨n, p, hskip, hs, hp, hplace, hnext⟩ := h.exists_command hg rfl Kind.noConfusion
  obtain ⟨q, hq⟩ := c.balanced.exists_closer hp
  replace hs : Interpreter.step text (s.placed p) =
      if s.cell (s.here hr) = 0 then s.behind ((closer Kind.ofByte? text p).getD p) else s.behind p := by
    rw [hs, Interpreter.perform, Interpreter.touch_inRange (s := s.placed p) hr]
    rfl
  by_cases hzero : s.cell (s.here hr) = 0
  · rw [if_pos hzero, hq.closer_eq] at hs
    refine ⟨n + 1, q + 1, Nat.succ_pos n, (Progress.iterate_add hskip 1).trans (Progress.iterate_one hs), ?_⟩
    rw [if_pos hzero, Interpreter.before_command hq.2.2.1, (matches_iff_runs hq hm).mp hplace,
      Group.offset_succ (bracket_eq hm.2.2.1 rfl)]
  · rw [if_neg hzero] at hs
    refine ⟨n + 1, p + 1, Nat.succ_pos n, (Progress.iterate_add hskip 1).trans (Progress.iterate_one hs), ?_⟩
    rw [if_neg hzero, hnext]

theorem Compiled.proceeds_end {g : Group} (c : Compiled text) (h : At text written j s t)
    (hg : (runs text)[j]? = some g) (hkind : g.kind = .loopEnd) : Proceeds text written s t := by
  obtain ⟨kind, count⟩ := g
  obtain rfl : kind = .loopEnd := hkind
  obtain ⟨i, hm⟩ := c.matched.exists_opener (by rw [hg]; rfl)
  have hjump : (program text)[t.index]? = some (.jump (startLabel newLabel (runs text) i)) :=
    h.operation (o := 0) (bracket_eq hm.2.2.1 rfl) (by rw [blockOf_loopEnd hm rfl]; rfl)
  have hstep := Target.step_of_op hjump
  rw [Target.perform, Target.goto, c.idxOf_start hm] at hstep
  refine c.proceeds_test h hg rfl hm (Progress.iterate_one hstep) fun hr => ?_
  obtain ⟨n, q, hskip, hs, hq, hplace, hnext⟩ := h.exists_command hg rfl Kind.noConfusion
  obtain ⟨p, hp⟩ := c.balanced.exists_opener hq
  replace hs : Interpreter.step text (s.placed q) =
      if s.cell (s.here hr) = 0 then s.behind q else s.behind ((opener Kind.ofByte? text q).getD q) := by
    rw [hs, Interpreter.perform, Interpreter.touch_inRange (s := s.placed q) hr]
    rfl
  by_cases hzero : s.cell (s.here hr) = 0
  · rw [if_pos hzero] at hs
    refine ⟨n + 1, q + 1, Nat.succ_pos n, (Progress.iterate_add hskip 1).trans (Progress.iterate_one hs), ?_⟩
    rw [if_pos hzero, hnext]
  · rw [if_neg hzero, hp.opener_eq] at hs
    refine ⟨n + 1, p + 1, Nat.succ_pos n, (Progress.iterate_add hskip 1).trans (Progress.iterate_one hs), ?_⟩
    rw [if_neg hzero, Interpreter.before_command hp.2.1, (matches_iff_runs hp hm).mpr hplace,
      Group.offset_succ (bracket_eq hm.2.1 rfl)]

end Loops

/-! ### Whole programs -/

section Programs
variable {text : List UInt8} {written : Array UInt8} {k : Nat} {g : Group} {s : Interpreter} {t : Target}

theorem At.proceeds_halt (h : At text written k s t) (hg : (runs text)[k]? = some g) (hkind : g.kind = .endMark) :
    Proceeds text written s t := by
  obtain ⟨n, p, hskip, -, -, hend⟩ := Interpreter.exists_command s (h.commands hg (At.count_pos hg))
  obtain ⟨kind, count⟩ := g
  obtain rfl : kind = .endMark := hkind
  have ht := Target.step_of_op (h.operation hg (o := 0) rfl)
  exact Progress.Meet.stop hskip (Interpreter.step_end (hend rfl)) (m := 0) rfl ht
    ⟨h.agree.moved p t.index t.acc, .halted⟩

theorem At.exists_group (h : At text written k s t) : ∃ g, (runs text)[k]? = some g := by
  rcases hg : (runs text)[k]? with _ | g
  · have hall : Group.offset (runs text) k = (Interpreter.commands text).length := by
      rw [Group.offset, List.take_of_length_le (List.getElem?_eq_none_iff.mp hg), flatMap_runs]
    have hfewer : Interpreter.before text s.position < (Interpreter.commands text).length := by
      rw [Interpreter.before, Interpreter.commands, List.length_append, List.length_singleton]
      exact Nat.lt_succ_of_le ((List.take_sublist _ _).filterMap _).length_le
    rw [h.place, hall] at hfewer
    exact absurd hfewer (Nat.lt_irrefl _)
  · exact ⟨g, rfl⟩

theorem runs_known (hg : (runs text)[k]? = some g) (code : Int) : g.kind ≠ .unknown code := by
  have hmem : g.kind ∈ Interpreter.commands text := by
    rw [← flatMap_runs]
    have hself : g.kind ∈ g.commands := List.mem_replicate.mpr ⟨Nat.ne_of_gt (At.count_pos hg), rfl⟩
    exact List.mem_flatMap.mpr ⟨g, List.mem_of_getElem? hg, hself⟩
  rcases List.mem_append.mp hmem with hcommand | hend
  · obtain ⟨b, -, hb⟩ := List.mem_filterMap.mp hcommand
    exact (Kind.ofByte?_command hb).2 code
  · rw [List.mem_singleton.mp hend]
    exact Kind.noConfusion

/-- The interpreter and the operations of a program go on together. -/
theorem Compiled.simulation (c : Compiled text) (written : Array UInt8) :
    Progress.Simulation (Interpreter.step text) (Target.step (program text)) (fun s t => ∃ k, At text written k s t)
      (fun s ending t stop => Agree written s t ∧ ending.Alike stop) := by
  rintro s t ⟨k, h⟩
  obtain ⟨g, hg⟩ := h.exists_group
  show Proceeds text written s t
  rcases hkind : g.kind with _ | _ | _ | _ | _ | _ | _ | _ | _ | code
  · exact h.proceeds_halt hg hkind
  · exact h.proceeds_increment hg hkind
  · exact h.proceeds_decrement hg hkind
  · exact h.proceeds_forward c hg hkind
  · exact h.proceeds_back c hg hkind
  · exact h.proceeds_output hg hkind
  · exact h.proceeds_input hg hkind
  · exact c.proceeds_begin h hg hkind
  · exact c.proceeds_end h hg hkind
  · exact absurd hkind (runs_known hg code)

theorem compiled_of_build {p : Program} (h : build text = .ok p) (short : p.code.size < 4294967296) :
    Compiled text := by
  obtain ⟨matched, linked⟩ := build_linked h
  exact ⟨build_balanced h, matched, linked.once, moves_lt linked short⟩

theorem exists_start (text : List UInt8) (source : Source) {sink : Sink} (unlimited : sink.room = none)
    (prompting : Bool) :
    ∃ t, Progress.iterate (Target.step (program text)) 3 (Target.fresh source sink prompting) = (t, none) ∧
      At text sink.taken 0 { source } t := by
  have hstep : ∀ (t : Target) (op : Op), Compilation.opening.toList[t.index]? = some op →
      t.step (program text) = t.perform (program text) op := by
    intro t op hop
    refine Target.step_of_op ?_
    rw [program, operations, List.getElem?_append_left (List.getElem?_eq_some_iff.mp hop).1, hop]
  refine ⟨_, (Progress.iterate_next (hstep _ (.alloc 30000) rfl) 2).trans
    ((Progress.iterate_next (hstep _ .reset rfl) 1).trans (Progress.iterate_one (hstep _ .openInput rfl))), ?_⟩
  have hr : ({ source } : Interpreter).InRange := ⟨Int.le_refl 0, (by decide : (0 : Int).toNat < 30000)⟩
  refine At.of_inRange rfl rfl hr ⟨?_, rfl, rfl, rfl, ⟨unlimited, rfl⟩, rfl⟩
  show some (Array.replicate 30000 0) = some (Vector.replicate 30000 0).toArray
  rw [Vector.toArray_replicate]

end Programs

/-! ### Runs -/

/-- The outcome of a run tells how the interpreter ended. -/
def Ending.Reported (outcome : Outcome) : Ending → Prop
  | .halted => outcome = .halted
  | .fault cause => ∃ f, outcome = .fault f ∧ f.cause = cause

/-- A machine that has run and an interpreter that has stopped have the same output, cells and pointer, have taken the
same words from the input and ended alike. What had been `written` before is no output of the program. -/
structure Interpreter.EndsAs (written : Array UInt8) (s : Interpreter) (ending : Ending) (m : Machine)
    (outcome : Outcome) : Prop where
  output : m.output.sink.taken = written ++ s.output
  cells : m.cells = some s.cells.toArray
  pointer : m.pointer.toInt = s.pointer
  words : m.words = some s.words
  source : m.source = s.source
  outcome : ending.Reported outcome

theorem Agree.endsAs {written : Array UInt8} {s : Interpreter} {t : Target} {ending : Ending} {stop : Stop}
    (h : Agree written s t) (halike : ending.Alike stop) (ops : List Op) (code : Array UInt8) :
    s.EndsAs written ending ((t.finish stop).1.onCode ops code) ((t.finish stop).2.onCode ops) := by
  obtain ⟨output, hflush, -, hbytes, hbuffer⟩ := h.free.flush
  have houtput : output.sink.taken = written ++ s.output := by
    rw [← h.output, ← hbytes, Output.bytes, hbuffer, Array.append_empty]
  simp only [Target.finish, hflush]
  refine ⟨houtput, h.cells, h.pointer, h.words, h.source, ?_⟩
  cases halike with
  | halted => rfl
  | fault hcause => exact ⟨_, rfl, hcause⟩

section Built
variable {text : List UInt8} {p : Program} {source : Source} {sink : Sink} {prompting : Bool}

theorem run_of_interpreted (hbuild : build text = .ok p) (short : p.code.size < 4294967296)
    (unlimited : sink.room = none) {n : Nat} {s : Interpreter} {ending : Ending}
    (hrun : ({ source } : Interpreter).run text n = (s, some ending)) :
    ∃ k m outcome, (Machine.fresh p.code source sink prompting).run k = (m, some outcome) ∧
      s.EndsAs sink.taken ending m outcome := by
  have sim := (compiled_of_build hbuild short).simulation sink.taken
  obtain ⟨t₀, hopening, hstart⟩ := exists_start text source unlimited prompting
  obtain ⟨m, t, stop, ht, hagree, halike⟩ := sim.stops ⟨0, hstart⟩ hrun
  obtain ⟨k, -, hexec⟩ := exec_onCode (build_linked hbuild).2 short (3 + m) (Target.fresh source sink prompting)
  refine ⟨k, _, _, ?_, hagree.endsAs halike (program text) p.code⟩
  rw [← Target.runOnCode_stop ((Progress.iterate_add hopening m).trans ht) p.code]
  exact run_eq_of_exec hexec

theorem interpreted_of_run (hbuild : build text = .ok p) (short : p.code.size < 4294967296)
    (unlimited : sink.room = none) {k : Nat} {m : Machine} {outcome : Outcome}
    (hrun : (Machine.fresh p.code source sink prompting).run k = (m, some outcome)) :
    ∃ n s ending, ({ source } : Interpreter).run text n = (s, some ending) ∧
      s.EndsAs sink.taken ending m outcome := by
  have sim := (compiled_of_build hbuild short).simulation sink.taken
  obtain ⟨t₀, hopening, hstart⟩ := exists_start text source unlimited prompting
  obtain ⟨n, -, hexec⟩ := exec_of_onCode (build_linked hbuild).2 short k (Target.fresh source sink prompting)
  have hsame := hrun.symm.trans (run_eq_of_exec hexec)
  rcases hiter : Progress.iterate (Target.step (program text)) n (Target.fresh source sink prompting)
    with ⟨t, _ | stop⟩
  · rw [Target.runOnCode_next hiter] at hsame
    cases hsame
  · rw [Target.runOnCode_stop hiter] at hsame
    cases hsame
    obtain ⟨-, ht⟩ := Progress.iterate_cut hopening hiter
    obtain ⟨n', s, ending, hs, hagree, halike⟩ := sim.symm.stops ⟨0, hstart⟩ ht
    exact ⟨n', s, ending, hs, hagree.endsAs halike (program text) p.code⟩

end Built

/-- A program that is built does what the interpreter does. The machine stops if and only if the interpreter does, and
then both have the same output, cells and pointer, have taken the same words from the input and ended alike. -/
theorem built_program_runs_as_interpreted {text : List UInt8} {p : Program} (hbuild : build text = .ok p)
    (short : p.code.size < 4294967296) (source : Source) (sink : Sink) (unlimited : sink.room = none)
    (prompting : Bool) :
    (∀ n s ending, ({ source } : Interpreter).run text n = (s, some ending) →
      ∃ k m outcome, (Machine.fresh p.code source sink prompting).run k = (m, some outcome) ∧
        s.EndsAs sink.taken ending m outcome) ∧
    (∀ k m outcome, (Machine.fresh p.code source sink prompting).run k = (m, some outcome) →
      ∃ n s ending, ({ source } : Interpreter).run text n = (s, some ending) ∧
        s.EndsAs sink.taken ending m outcome) ∧
    ((∀ n, (({ source } : Interpreter).run text n).2 = none) →
      ∀ k, ((Machine.fresh p.code source sink prompting).run k).2 = none) := by
  refine ⟨fun n s ending => run_of_interpreted hbuild short unlimited,
    fun k m outcome => interpreted_of_run hbuild short unlimited, fun hforever k => ?_⟩
  rcases hrun : (Machine.fresh p.code source sink prompting).run k with ⟨m, _ | outcome⟩
  · rfl
  · obtain ⟨n, s, ending, hs, -⟩ := interpreted_of_run hbuild short unlimited hrun
    have hnone := hforever n
    rw [hs] at hnone
    cases hnone

/-- A program that writes a byte, leaves the cells and then looks for one. -/
theorem run_before_first_cell :
    let text : List UInt8 := [0x2B, 0x2E, 0x3C, 0x2E]
    let code : Array UInt8 := #[0x01, 0x30, 0x75, 0, 0, 0x02, 0x03, 0x04, 0x06, 0x01, 0, 0, 0, 0x05, 0x04, 0x0E, 0x09,
      0x04, 0x0E, 0x00]
    build text = .ok ⟨1, code⟩ ∧ code.size < 4294967296 ∧ ({} : Sink).room = none ∧
      ∃ k m f, (Machine.fresh code ⟨[], none⟩ {} false).run k = (m, some (.fault f)) ∧
        f.cause = .pointerRange (-1) 30000 ∧ m.output.sink.taken = #[1] ∧ m.pointer.toInt = -1 := by
  intro text code
  have hbuild : build text = .ok ⟨1, code⟩ := by decide +kernel
  have short : code.size < 4294967296 := by decide
  refine ⟨hbuild, short, rfl, ?_⟩
  obtain ⟨k, m, outcome, hrun, hend⟩ := (built_program_runs_as_interpreted hbuild short ⟨[], none⟩ {} rfl false).1
    4 _ (.fault (.pointerRange (-1) 30000)) rfl
  obtain ⟨f, rfl, hcause⟩ := hend.outcome
  exact ⟨k, m, f, hrun, hcause, hend.output.trans rfl, hend.pointer⟩

end TapeCode
