import Mathlib.Control.Monad.Basic
import TapeCode.Proofs.Execution
import TapeCode.Proofs.Layout
import TapeCode.Proofs.Target

/-!
Byte code does what its operations mean. A state of the machine over operations stands for a state of the machine
over the code (`Target.onCode`): the index becomes the address of the operation, and all else is the same. Every
operation is one instruction of the code, but creating and marking labels is none.
-/

namespace TapeCode

open Layout Assembler

namespace Target

/-- The state over the code that a state over operations stands for. -/
def onCode (ops : List Op) (code : Array UInt8) (t : Target) : Machine where
  code := code
  cells := t.cells
  pc := extent (ops.take t.index)
  pointer := t.pointer
  acc := t.acc
  source := t.source
  words := t.words
  output := t.output
  prompting := t.prompting

end Target

/-- The same fault, at the address of the operation. -/
def Fault.onCode (ops : List Op) (f : Fault) : Fault :=
  { f with pc := extent (ops.take f.pc) }

/-- The same reason to stop, at the address of the operation. -/
def Stop.onCode (ops : List Op) : Stop → Stop
  | .halted => .halted
  | .fault f => .fault (f.onCode ops)

/-- The same outcome, at the address of the operation. -/
def Outcome.onCode (ops : List Op) : Outcome → Outcome
  | .halted => .halted
  | .fault f => .fault (f.onCode ops)
  | .flushFailed e => .flushFailed e

/-- A step over the code that a step over operations stands for. -/
def Progress.onCode (ops : List Op) (code : Array UInt8) : Progress Target Stop → Machine.Step
  | .next t => .next (t.onCode ops code)
  | .stop t why => .stop (t.onCode ops code) (why.onCode ops)

/-! ### Operands -/

theorem Word.toUInt8_ofInt (n : Int) : (Word.ofInt n).toUInt8 = UInt8.ofInt n := by
  apply UInt8.toNat_inj.mp
  rw [Word.ofInt, UInt32.toNat_toUInt8, UInt32.toNat_ofNat', UInt8.ofInt, UInt8.toNat_ofNat']
  omega

theorem Word.toNat_ofInt {n : Int} (low : 0 ≤ n) (high : n < 4294967296) : (Word.ofInt n).toNat = n.toNat := by
  rw [Word.ofInt, UInt32.toNat_ofNat']
  omega

/-! ### One step -/

theorem Machine.step_of_decode {m : Machine} {i : Instr} (h : Instr.decodeAt m.code m.pc = .ok i) :
    m.step = m.execute i := by
  rw [Machine.step, h]

theorem Machine.step_of_outside {m : Machine} (h : Instr.decodeAt m.code m.pc = .error .outside) :
    m.step = m.fault Fault.noOpcode .truncated := by
  rw [Machine.step, h]

section Step
variable {ops : List Op} {code : Array UInt8} {t : Target} {op : Op} {i : Instr}

theorem labelAddress_toNat (linked : Linked ops code) (short : code.size < 4294967296) (l : Int) :
    (UInt32.ofNat (labelAddress ops l)).toNat = labelAddress ops l := by
  have hsize := linked.size_code
  have hle := extent_take_le ops (ops.idxOf (.mark l))
  rw [UInt32.toNat_ofNat', labelAddress]
  omega

theorem onCode_label (code : Array UInt8) {address : Int → UInt32} (hop : ops[t.index]? = some op)
    (hi : op.instr? address = none) :
    ∃ t', t.step ops = .next t' ∧ t'.index = t.index + 1 ∧ t'.onCode ops code = t.onCode ops code := by
  have hpc : extent (ops.take (t.index + 1)) = extent (ops.take t.index) := by
    rw [extent_take_succ hop, Op.size_label hi, Nat.add_zero]
  refine ⟨{ t with index := t.index + 1 }, ?_, rfl, ?_⟩
  · rw [Target.step_of_op hop]
    cases op <;> first | rfl | cases hi
  · simp only [Target.onCode, hpc]

/-- An operation that is an instruction does what the instruction does. -/
theorem step_onCode (linked : Linked ops code) (short : code.size < 4294967296) (hop : ops[t.index]? = some op)
    (hi : op.instr? (fun l => UInt32.ofNat (labelAddress ops l)) = some i) :
    (t.onCode ops code).step = (t.step ops).onCode ops code := by
  have hnext : extent (ops.take t.index) + i.length = extent (ops.take (t.index + 1)) := by
    rw [extent_take_succ hop, Op.length_instr hi]
  have henc := linked.encodable op (List.mem_of_getElem? hop)
  have hdecode : Instr.decodeAt (t.onCode ops code).code (t.onCode ops code).pc = .ok i :=
    decodeAt_image linked.code hop hi
  have hpc : (t.onCode ops code).pc + i.length = extent (ops.take (t.index + 1)) := hnext
  rw [Machine.step_of_decode hdecode, Target.step_of_op hop]
  cases op with
  | alloc cells =>
    obtain rfl := Option.some.inj hi
    simp only [Machine.execute, Target.perform, Word.toNat_ofInt henc.1 henc.2, hpc]
    split
    · rfl
    · rfl
  | reset =>
    obtain rfl := Option.some.inj hi
    simp only [Machine.execute, hpc]
    rfl
  | openInput =>
    obtain rfl := Option.some.inj hi
    simp only [Machine.execute, hpc]
    rfl
  | load =>
    obtain rfl := Option.some.inj hi
    obtain ⟨index, _ | cells, pointer, acc, source, words, output, prompting⟩ := t
    · rfl
    · simp only [Machine.execute, Target.perform, Target.touch, Target.onCode, hnext]
      rcases Machine.locate pointer cells with cause | i
      · rfl
      · rfl
  | store =>
    obtain rfl := Option.some.inj hi
    obtain ⟨index, _ | cells, pointer, acc, source, words, output, prompting⟩ := t
    · rfl
    · simp only [Machine.execute, Target.perform, Target.touch, Target.onCode, hnext]
      rcases Machine.locate pointer cells with cause | i
      · rfl
      · rfl
  | add n =>
    obtain rfl := Option.some.inj hi
    simp only [Machine.execute, Word.toUInt8_ofInt, hpc]
    rfl
  | sub n =>
    obtain rfl := Option.some.inj hi
    simp only [Machine.execute, Word.toUInt8_ofInt, hpc]
    rfl
  | step delta =>
    rcases henc with rfl | rfl
    · obtain rfl : Instr.forward = i := Option.some.inj hi
      simp only [Machine.execute, hpc]
      rfl
    · obtain rfl : Instr.back = i := Option.some.inj hi
      simp only [Machine.execute, hpc, Int64.sub_eq_add_neg]
      rfl
  | move delta =>
    obtain rfl := Option.some.inj hi
    simp only [Machine.execute, Word.toSigned_ofInt henc.1 henc.2, hpc]
    rfl
  | newLabel => cases hi
  | mark label => cases hi
  | jump label =>
    obtain rfl := Option.some.inj hi
    simp only [Machine.execute, labelAddress_toNat linked short]
    rfl
  | jumpIfZero label =>
    obtain rfl := Option.some.inj hi
    simp only [Machine.execute, Target.perform, labelAddress_toNat linked short, hpc]
    show (t.onCode ops code).goto (if t.acc = 0 then _ else _) = _
    split
    · rfl
    · rfl
  | getc =>
    obtain rfl := Option.some.inj hi
    obtain ⟨index, cells, pointer, acc, source, _ | words, output, prompting⟩ := t
    · rfl
    · simp only [Machine.execute, Machine.readChar, Target.perform, Target.readChar, Target.onCode, hnext]
      rcases output.flush with ⟨output, _ | e⟩
      · simp only
        rcases words.next source with ⟨_ | word, words, source⟩
        · rfl
        · rfl
      · rfl
  | putc =>
    obtain rfl := Option.some.inj hi
    simp only [Machine.execute, Target.perform, Target.writeChar, Target.onCode, hnext]
    rcases t.output.put t.acc with ⟨output, _ | e⟩
    · rfl
    · rfl
  | halt =>
    obtain rfl := Option.some.inj hi
    rfl

theorem step_onCode_end (linked : Linked ops code) (h : ops[t.index]? = none) :
    (t.onCode ops code).step = (t.step ops).onCode ops code := by
  have hdecode : Instr.decodeAt (t.onCode ops code).code (t.onCode ops code).pc = .error .outside := by
    rw [Target.onCode, List.take_of_length_le (List.getElem?_eq_none_iff.mp h)]
    exact decodeAt_image_end linked.code
  rw [Machine.step_of_outside hdecode, Target.step_of_end h]
  rfl

theorem step_onCode_cases (linked : Linked ops code) (short : code.size < 4294967296) (t : Target) :
    (t.onCode ops code).step = (t.step ops).onCode ops code ∨
      ∃ t', t.step ops = .next t' ∧ t.index < ops.length ∧ t'.index = t.index + 1 ∧
        t'.onCode ops code = t.onCode ops code := by
  rcases hop : ops[t.index]? with _ | op
  · exact Or.inl (step_onCode_end linked hop)
  · rcases hi : op.instr? (fun l => UInt32.ofNat (labelAddress ops l)) with _ | i
    · obtain ⟨t', hstep, hindex, hsame⟩ := onCode_label code hop hi
      exact Or.inr ⟨t', hstep, (List.getElem?_eq_some_iff.mp hop).1, hindex, hsame⟩
    · exact Or.inl (step_onCode linked short hop hi)

end Step

/-! ### Runs -/

/-- What an execution over operations comes to over the code. -/
def Target.resultOnCode (ops : List Op) (code : Array UInt8) (r : Target × Option Stop) :
    Machine × Option Stop :=
  (r.1.onCode ops code, r.2.map (Stop.onCode ops))

section Run
variable {ops : List Op} {code : Array UInt8}

/-- Every state over operations shows over the code. -/
theorem exec_onCode (linked : Linked ops code) (short : code.size < 4294967296) (n : Nat) (t : Target) :
    ∃ k ≤ n, Machine.exec k (t.onCode ops code) =
      Target.resultOnCode ops code (Progress.iterate (Target.step ops) n t) := by
  induction n generalizing t with
  | zero => exact ⟨0, Nat.le_refl 0, rfl⟩
  | succ n ih =>
    rcases step_onCode_cases linked short t with hsame | ⟨t', hstep, -, -, hsame⟩
    · rcases hstep : t.step ops with t' | ⟨t', why⟩
      · obtain ⟨k, hk, hexec⟩ := ih t'
        refine ⟨k + 1, Nat.succ_le_succ hk, ?_⟩
        rw [Progress.iterate_next hstep, ← hexec, Machine.exec, hsame, hstep]
        rfl
      · refine ⟨1, Nat.succ_le_succ (Nat.zero_le n), ?_⟩
        rw [Progress.iterate_stop hstep, Machine.exec, hsame, hstep]
        rfl
    · obtain ⟨k, hk, hexec⟩ := ih t'
      exact ⟨k, Nat.le_succ_of_le hk, by rw [Progress.iterate_next hstep, ← hsame, hexec]⟩

theorem exists_settled (linked : Linked ops code) (short : code.size < 4294967296) (t : Target) :
    ∃ n t', Progress.iterate (Target.step ops) n t = (t', none) ∧
      (t.onCode ops code).step = (t'.step ops).onCode ops code := by
  -- Labels are passed one by one, so an instruction comes, or the end of the operations.
  induction hd : ops.length - t.index generalizing t with
  | zero => exact ⟨0, t, rfl, step_onCode_end linked (List.getElem?_eq_none_iff.mpr (by omega))⟩
  | succ d ih =>
    rcases step_onCode_cases linked short t with hsame | ⟨t', hstep, hlt, hindex, hsame⟩
    · exact ⟨0, t, rfl, hsame⟩
    · obtain ⟨n, u, hiter, hsettled⟩ := ih t' (by omega)
      exact ⟨n + 1, u, (Progress.iterate_next hstep n).trans hiter, hsame ▸ hsettled⟩

/-- A machine that goes on executes the instruction of an operation. Only labels lead there, so what they keep holds. -/
theorem exists_instruction {P : Target → Prop} {t : Target} {m : Machine} (linked : Linked ops code)
    (short : code.size < 4294967296)
    (hlabel : ∀ (t u : Target) (op : Op), P t → ops[t.index]? = some op →
      op.instr? (fun l => UInt32.ofNat (labelAddress ops l)) = none → t.step ops = .next u → u.index = t.index + 1 → P u)
    (h : P t) (hs : (t.onCode ops code).step = .next m) :
    ∃ (u u' : Target) (op : Op) (i : Instr), P u ∧ u.onCode ops code = t.onCode ops code ∧ ops[u.index]? = some op ∧
      op.instr? (fun l => UInt32.ofNat (labelAddress ops l)) = some i ∧ u.step ops = .next u' ∧ m = u'.onCode ops code := by
  induction hd : ops.length - t.index generalizing t with
  | zero =>
    have hend : ops[t.index]? = none := List.getElem?_eq_none_iff.mpr (by omega)
    rw [step_onCode_end linked hend, Target.step_of_end hend] at hs
    cases hs
  | succ d ih =>
    obtain ⟨op, hop⟩ : ∃ op, ops[t.index]? = some op := ⟨_, List.getElem?_eq_getElem (by omega)⟩
    rcases hi : op.instr? (fun l => UInt32.ofNat (labelAddress ops l)) with _ | i
    · obtain ⟨u, hstep, hindex, hsame⟩ := onCode_label code hop hi
      rw [← hsame] at hs ⊢
      exact ih (hlabel t u op h hop hi hstep hindex) hs (by omega)
    · rw [step_onCode linked short hop hi] at hs
      rcases hstep : t.step ops with u | ⟨u, why⟩
      · rw [hstep] at hs
        cases hs
        exact ⟨t, u, op, i, h, rfl, hop, hi, hstep, rfl⟩
      · rw [hstep] at hs
        cases hs

/-- Every state over the code is one over operations. -/
theorem exec_of_onCode (linked : Linked ops code) (short : code.size < 4294967296) (k : Nat) (t : Target) :
    ∃ n ≥ k, Machine.exec k (t.onCode ops code) =
      Target.resultOnCode ops code (Progress.iterate (Target.step ops) n t) := by
  induction k generalizing t with
  | zero => exact ⟨0, Nat.le_refl 0, rfl⟩
  | succ k ih =>
    obtain ⟨n, u, hiter, hsettled⟩ := exists_settled linked short t
    rcases hstep : u.step ops with t' | ⟨t', why⟩
    · obtain ⟨n', hn', hexec⟩ := ih t'
      refine ⟨n + (n' + 1), by omega, ?_⟩
      rw [Progress.iterate_add hiter, Progress.iterate_next hstep, ← hexec, Machine.exec, hsettled, hstep]
      rfl
    · refine ⟨n + (k + 1), by omega, ?_⟩
      rw [Progress.iterate_add hiter, Progress.iterate_stop hstep, Machine.exec, hsettled, hstep]
      rfl

theorem finish_onCode (t : Target) (why : Stop) :
    (t.onCode ops code).finish (why.onCode ops) =
      ((t.finish why).1.onCode ops code, (t.finish why).2.onCode ops) := by
  rcases why with _ | f
  · simp only [Machine.finish, Target.finish, Target.onCode, Stop.onCode]
    rcases t.output.flush with ⟨output, _ | e⟩
    · rfl
    · rfl
  · rfl

end Run

/-- A machine over operations that has not run yet. -/
def Target.fresh (source : Source) (sink : Sink) (prompting : Bool) : Target :=
  { source, output := { sink }, prompting }

/-- What a run over operations comes to over the code. -/
def Target.runOnCode (ops : List Op) (code : Array UInt8) (n : Nat) (t : Target) : Machine × Option Outcome :=
  ((t.run ops n).1.onCode ops code, (t.run ops n).2.map (Outcome.onCode ops))

theorem run_eq_of_exec {ops : List Op} {code : Array UInt8} {t : Target} {m : Machine} {n k : Nat}
    (h : m.exec k = Target.resultOnCode ops code (Progress.iterate (Target.step ops) n t)) :
    m.run k = t.runOnCode ops code n := by
  rw [Machine.run, h, Target.runOnCode, Target.run]
  rcases Progress.iterate (Target.step ops) n t with ⟨u, _ | why⟩
  · rfl
  · show (((u.onCode ops code).finish (why.onCode ops)).1, some ((u.onCode ops code).finish (why.onCode ops)).2) = _
    rw [finish_onCode]
    rfl

theorem Target.runOnCode_stop {ops : List Op} {t t' : Target} {stop : Stop} {n : Nat}
    (h : Progress.iterate (Target.step ops) n t = (t', some stop)) (code : Array UInt8) :
    t.runOnCode ops code n = ((t'.finish stop).1.onCode ops code, some ((t'.finish stop).2.onCode ops)) := by
  simp only [Target.runOnCode, Target.run, h, Option.map_some]

theorem Target.runOnCode_next {ops : List Op} {t t' : Target} {n : Nat}
    (h : Progress.iterate (Target.step ops) n t = (t', none)) (code : Array UInt8) :
    t.runOnCode ops code n = (t'.onCode ops code, none) := by
  simp only [Target.runOnCode, Target.run, h, Option.map_none]

/-- Code that operations are linked to runs in lockstep with the operations themselves, whatever they are. A run over
operations and a run over the code come to the same at every point: the same output, cells, pointer and accumulator,
the same input left, and the same reason to stop, at the address of the operation where it is a fault. -/
theorem linked_code_lockstep {ops : Array Op} {p : Program} (hlink : (({} : Assembler).applyAll ops).link.2 = .ok p)
    (short : p.code.size < 4294967296) (source : Source) (sink : Sink) (prompting : Bool) :
    (∀ n, ∃ k ≤ n, (Machine.fresh p.code source sink prompting).run k =
        (Target.fresh source sink prompting).runOnCode ops.toList p.code n) ∧
      ∀ k, ∃ n ≥ k, (Machine.fresh p.code source sink prompting).run k =
        (Target.fresh source sink prompting).runOnCode ops.toList p.code n := by
  have linked := linked_of_link hlink
  refine ⟨fun n => ?_, fun k => ?_⟩
  · obtain ⟨k, hk, hexec⟩ := exec_onCode linked short n (Target.fresh source sink prompting)
    exact ⟨k, hk, run_eq_of_exec hexec⟩
  · obtain ⟨n, hn, hexec⟩ := exec_of_onCode linked short k (Target.fresh source sink prompting)
    exact ⟨n, hn, run_eq_of_exec hexec⟩

/-- A loop that counts up from a negative operand, with a jump back and a jump to a label behind the last
instruction. -/
theorem lockstep_counting_loop :
    let ops : Array Op := #[.newLabel, .newLabel, .mark 1, .add (-255), .jumpIfZero 0, .jump 1, .mark 0]
    let code : Array UInt8 := #[0x06, 0x01, 0xFF, 0xFF, 0xFF, 0x0C, 0x0F, 0, 0, 0, 0x0B, 0, 0, 0, 0]
    (({} : Assembler).applyAll ops).link.2 = .ok ⟨1, code⟩ ∧ code.size < 4294967296 ∧
      (∀ n, ∃ k ≤ n, (Machine.fresh code ⟨[], none⟩ {} false).run k =
        (Target.fresh ⟨[], none⟩ {} false).runOnCode ops.toList code n) ∧
      ∀ k, ∃ n ≥ k, (Machine.fresh code ⟨[], none⟩ {} false).run k =
        (Target.fresh ⟨[], none⟩ {} false).runOnCode ops.toList code n := by
  intro ops code
  have hlink : (({} : Assembler).applyAll ops).link.2 = .ok ⟨1, code⟩ := by decide +kernel
  have short : code.size < 4294967296 := by decide
  exact ⟨hlink, short, linked_code_lockstep hlink short ⟨[], none⟩ {} false⟩

end TapeCode
