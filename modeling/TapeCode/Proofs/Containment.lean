import Mathlib.Algebra.Group.Nat.Defs
import TapeCode.Proofs.Access
import TapeCode.Proofs.Delivery
import TapeCode.Proofs.Encoding

/-!
The machine is safe on every code. The accesses that it makes to its code and to its cells are written out as accesses
by index (`Machine.rawStep`), and none of them goes astray. What an instruction can do to the code, the program counter
and the cells is said once (`Machine.Advances`), and the invariant of all runs follows from that (`Machine.Contained`).
-/

namespace TapeCode

/-! ### Raw memory -/

namespace Machine

/-- The operand at an address, read byte by byte. -/
def rawOperand (code : Array UInt8) (address : Int) : Except OutOfBounds UInt32 := do
  let a ← Access.read code address
  let b ← Access.read code (address + 1)
  let c ← Access.read code (address + 2)
  let d ← Access.read code (address + 3)
  return Word.ofBytes32 a b c d

/-- The instruction that starts at an address. Only addresses that were compared with the size of the code are read. -/
def rawDecode (code : Array UInt8) (pc : Nat) : Except OutOfBounds (Except DecodeError Instr) :=
  if code.size ≤ pc then return .error .outside
  else do
    let byte ← Access.read code pc
    match Opcode.ofByte? byte with
    | none => return .error (.unknown byte)
    | some op =>
      if code.size < pc + op.length then return .error (.truncated op)
      else if op.hasOperand then
        let operand ← rawOperand code (pc + 1)
        return .ok (Instr.ofParts op operand)
      else return .ok (Instr.ofParts op 0)

/-- Executes an instruction, with the cell under the pointer accessed by index. -/
def rawExecute (m : Machine) (i : Instr) : Except OutOfBounds Step :=
  match i, m.cells with
  | .load, some cells =>
    if 0 ≤ m.pointer.toInt ∧ m.pointer.toInt < cells.size then do
      let b ← Access.read cells m.pointer.toInt
      return { m with acc := b }.goto (m.pc + 1)
    else return m.fault Opcode.load.toByte (.pointerRange m.pointer.toInt cells.size)
  | .store, some cells =>
    if 0 ≤ m.pointer.toInt ∧ m.pointer.toInt < cells.size then do
      let cells ← Access.write cells m.pointer.toInt m.acc
      return { m with cells := some cells }.goto (m.pc + 1)
    else return m.fault Opcode.store.toByte (.pointerRange m.pointer.toInt cells.size)
  | i, _ => return m.execute i

/-- Executes the instruction at the program counter, over raw memory. -/
def rawStep (m : Machine) : Except OutOfBounds Step := do
  match ← rawDecode m.code m.pc with
  | .error .outside => return m.fault Fault.noOpcode .truncated
  | .error (.unknown byte) => return m.fault byte .badOpcode
  | .error (.truncated opcode) => return m.fault opcode.toByte .truncated
  | .ok i => m.rawExecute i

/-- Executes up to a number of instructions over raw memory. -/
def rawExec : Nat → Machine → Except OutOfBounds (Machine × Option Stop)
  | 0, m => return (m, none)
  | n + 1, m => do
    match ← m.rawStep with
    | .next m => rawExec n m
    | .stop m why => return (m, some why)

/-- Runs a machine over raw memory for at most `fuel` instructions. -/
def rawRun (fuel : Nat) (m : Machine) : Except OutOfBounds (Machine × Option Outcome) := do
  match ← m.rawExec fuel with
  | (m, none) => return (m, none)
  | (m, some why) => return ((m.finish why).1, some (m.finish why).2)

section Raw
variable {code cells : Array UInt8} {pc : Nat} {m : Machine}

theorem rawOperand_eq {a b c d : UInt8} (ha : code[pc + 1]? = some a) (hb : code[pc + 2]? = some b)
    (hc : code[pc + 3]? = some c) (hd : code[pc + 4]? = some d) :
    rawOperand code (pc + 1) = .ok (Word.ofBytes32 a b c d) := by
  have h₁ : Access.read code (pc + 1) = .ok a := Access.read_of_eq (by omega) ha
  have h₂ : Access.read code (pc + 1 + 1) = .ok b := Access.read_of_eq (by omega) hb
  have h₃ : Access.read code (pc + 1 + 2) = .ok c := Access.read_of_eq (by omega) hc
  have h₄ : Access.read code (pc + 1 + 3) = .ok d := Access.read_of_eq (by omega) hd
  rw [rawOperand, h₁, h₂, h₃, h₄]
  rfl

theorem rawDecode_eq (code : Array UInt8) (pc : Nat) : rawDecode code pc = .ok (Instr.decodeAt code pc) := by
  unfold rawDecode Instr.decodeAt
  by_cases hlt : pc < code.size
  · have hread : Access.read code pc = .ok code[pc] := Access.read_of_eq rfl (Array.getElem?_eq_getElem hlt)
    rw [if_neg (Nat.not_le.mpr hlt), dif_pos hlt, hread]
    simp only [bind, Except.bind]
    rcases Opcode.ofByte? code[pc] with _ | op
    · rfl
    · by_cases hop : op.hasOperand = true
      · have hlength : op.length = 5 := if_pos hop
        by_cases hfits : pc + 4 < code.size
        · have hinside : ¬code.size < pc + 5 := Nat.not_lt.mpr hfits
          have hoperand := rawOperand_eq (Array.getElem?_eq_getElem (by omega)) (Array.getElem?_eq_getElem (by omega))
            (Array.getElem?_eq_getElem (by omega)) (Array.getElem?_eq_getElem hfits)
          simp only [hlength, if_neg hinside, if_pos hop, dif_pos hfits, hoperand]
          rfl
        · have hcut : code.size < pc + 5 := Nat.lt_succ_of_le (Nat.not_lt.mp hfits)
          simp only [hlength, if_pos hcut, if_pos hop, dif_neg hfits]
          rfl
      · have hlength : op.length = 1 := if_neg hop
        have hinside : ¬code.size < pc + 1 := Nat.not_lt.mpr hlt
        simp only [hlength, if_neg hinside, if_neg hop]
        rfl
  · rw [if_pos (Nat.not_lt.mp hlt), dif_neg hlt]
    rfl

/-- The cell under the pointer has an index just if the pointer is in the range of the cells. -/
theorem locate_cases (pointer : Int64) (cells : Array UInt8) :
    ((0 ≤ pointer.toInt ∧ pointer.toInt < cells.size) ∧ ∃ i, locate pointer cells = .ok i ∧ pointer.toInt = i.val) ∨
      (¬(0 ≤ pointer.toInt ∧ pointer.toInt < cells.size) ∧
        locate pointer cells = .error (.pointerRange pointer.toInt cells.size)) := by
  by_cases hin : 0 ≤ pointer.toInt ∧ pointer.toInt < cells.size
  · have hlt : pointer.toInt.toNat < cells.size := (Int.toNat_lt hin.1).mpr hin.2
    exact Or.inl ⟨hin, ⟨_, hlt⟩, dif_pos ⟨hin.1, hlt⟩, (Int.toNat_of_nonneg hin.1).symm⟩
  · refine Or.inr ⟨hin, dif_neg ?_⟩
    intro h
    exact hin ⟨h.1, (Int.toNat_lt h.1).mp h.2⟩

theorem rawExecute_load (hcells : m.cells = some cells) : m.rawExecute .load = .ok (m.execute .load) := by
  simp only [rawExecute, execute, hcells]
  rcases locate_cases m.pointer cells with ⟨hin, i, hi, hindex⟩ | ⟨hout, hi⟩
  · rw [if_pos hin, hi, Access.read_of_eq hindex (Array.getElem?_eq_getElem i.isLt)]
    rfl
  · rw [if_neg hout, hi]
    rfl

theorem rawExecute_store (hcells : m.cells = some cells) : m.rawExecute .store = .ok (m.execute .store) := by
  simp only [rawExecute, execute, hcells]
  rcases locate_cases m.pointer cells with ⟨hin, i, hi, hindex⟩ | ⟨hout, hi⟩
  · rw [if_pos hin, hi, Access.write_of_eq m.acc hindex i.isLt]
    rfl
  · rw [if_neg hout, hi]
    rfl

theorem rawExecute_eq (m : Machine) (i : Instr) : m.rawExecute i = .ok (m.execute i) := by
  rcases hcells : m.cells with _ | cells
  · simp only [rawExecute, hcells]
    cases i <;> rfl
  · cases i with
    | load => exact rawExecute_load hcells
    | store => exact rawExecute_store hcells
    | _ => rfl

theorem rawStep_eq (m : Machine) : m.rawStep = .ok m.step := by
  unfold rawStep step
  rw [rawDecode_eq]
  rcases Instr.decodeAt m.code m.pc with (_ | byte | opcode) | i
  · rfl
  · rfl
  · rfl
  · exact m.rawExecute_eq i

theorem rawExec_eq (n : Nat) (m : Machine) : m.rawExec n = .ok (m.exec n) := by
  induction n generalizing m with
  | zero => rfl
  | succ n ih =>
    rw [rawExec, rawStep_eq]
    rcases hstep : m.step with m' | ⟨m', why⟩
    · rw [exec_next hstep]
      exact ih m'
    · rw [exec_stop hstep]
      rfl

/-- Over raw memory a machine runs as it does anyway: no access is out of bounds. -/
theorem rawRun_eq (fuel : Nat) (m : Machine) : m.rawRun fuel = .ok (m.run fuel) := by
  rw [rawRun, rawExec_eq]
  rcases hexec : m.exec fuel with ⟨m', _ | why⟩
  · rw [run_of_exec_none hexec]
    rfl
  · rw [run_of_exec_stop hexec]
    rfl

end Raw

/-! ### What an instruction does to code, counter and cells -/

end Machine

/-- The number of cells that an instruction asks for, if it does. -/
def Instr.allocated? : Instr → Option UInt32
  | .alloc n => some n
  | _ => none

/-- The code and the counter that belong to a stop: a halt stands on a `HALT`, and a fault names the counter and the
byte there. -/
def Stop.At (code : Array UInt8) (pc : Nat) : Stop → Prop
  | .halted => code[pc]? = some Opcode.halt.toByte
  | .fault f => f.pc = pc ∧ f.opcode = (code[pc]?).getD Fault.noOpcode

namespace Machine

/-- A machine goes on behind an instruction. -/
structure Advances (m : Machine) (i : Instr) (m' : Machine) : Prop where
  code : m'.code = m.code
  pc : m'.pc = m.pc + i.length ∨ ∃ target, i.target? = some target ∧ m'.pc = target.toNat
  cells : m'.cells.map Array.size = (i.allocated?.map UInt32.toNat).or (m.cells.map Array.size)
  limit : ∀ n, i.allocated? = some n → n.toNat ≤ maxCells

/-- Two machines have the same code, counter and cells. -/
structure Stays (m m' : Machine) : Prop where
  code : m'.code = m.code
  pc : m'.pc = m.pc
  cells : m'.cells = m.cells

section Step
variable {m m' : Machine} {i : Instr} {why : Stop} {code : Array UInt8} {past : List Machine}

theorem stays_readChar (m : Machine) : m.Stays m.readChar.1 := by
  unfold readChar
  split
  · exact ⟨rfl, rfl, rfl⟩
  · split
    · exact ⟨rfl, rfl, rfl⟩
    · simp only
      split <;> exact ⟨rfl, rfl, rfl⟩

theorem advances_of_execute (h : m.execute i = .next m') : m.Advances i m' := by
  cases i with
  | halt => cases h
  | alloc n =>
    simp only [execute] at h
    split at h
    · cases h
    · next hlimit =>
      cases h
      refine ⟨rfl, Or.inl rfl, by simp [Instr.allocated?], ?_⟩
      rintro _ ⟨⟩
      exact Nat.not_lt.mp hlimit
  | load =>
    simp only [execute] at h
    split at h
    · cases h
    · split at h
      · cases h
      · cases h
        exact ⟨rfl, Or.inl rfl, rfl, by rintro _ ⟨⟩⟩
  | store =>
    simp only [execute] at h
    split at h
    · cases h
    · next cells hcells =>
      split at h
      · cases h
      · cases h
        refine ⟨rfl, Or.inl rfl, ?_, by rintro _ ⟨⟩⟩
        simp [hcells, Instr.allocated?]
  | reset | openInput | add n | sub n | forward | back | move delta =>
    cases h
    exact ⟨rfl, Or.inl rfl, rfl, by rintro _ ⟨⟩⟩
  | jump target =>
    cases h
    exact ⟨rfl, Or.inr ⟨target, rfl, rfl⟩, rfl, by rintro _ ⟨⟩⟩
  | jumpIfZero target =>
    cases h
    refine ⟨rfl, ?_, rfl, by rintro _ ⟨⟩⟩
    by_cases hzero : m.acc = 0
    · exact Or.inr ⟨target, rfl, if_pos hzero⟩
    · exact Or.inl (if_neg hzero)
  | getc =>
    simp only [execute] at h
    have hstays := m.stays_readChar
    rcases hread : m.readChar with ⟨m₁, _ | cause⟩
    · simp only [hread] at h hstays
      cases h
      exact ⟨hstays.code, Or.inl rfl, congrArg (Option.map _) hstays.cells, by rintro _ ⟨⟩⟩
    · simp only [hread] at h
      cases h
  | putc =>
    simp only [execute] at h
    split at h
    · cases h
    · cases h
      exact ⟨rfl, Or.inl rfl, rfl, by rintro _ ⟨⟩⟩

theorem stays_of_execute (h : m.execute i = .stop m' why) :
    m.Stays m' ∧ (why = .halted ∧ i = .halt ∨ ∃ cause, why = .fault ⟨m.pc, i.opcode.toByte, cause⟩) := by
  cases stopsOn_of_execute h with
  | halt => exact ⟨⟨rfl, rfl, rfl⟩, Or.inl ⟨rfl, rfl⟩⟩
  | refused | unflushed | wordless | unwritten => exact ⟨⟨rfl, rfl, rfl⟩, Or.inr ⟨_, rfl⟩⟩

/-- A machine that stops is left as it was, on the byte that its stop names. -/
theorem step_stop (h : m.step = .stop m' why) : m.Stays m' ∧ why.At m.code m.pc := by
  have hreads := Instr.reads_decodeAt m.code m.pc
  unfold step at h
  split at h
  · next hdecode =>
    cases h
    rw [hdecode] at hreads
    exact ⟨⟨rfl, rfl, rfl⟩, rfl, by rw [hreads]; rfl⟩
  · next byte hdecode =>
    cases h
    rw [hdecode] at hreads
    exact ⟨⟨rfl, rfl, rfl⟩, rfl, by rw [hreads.1]; rfl⟩
  · next opcode hdecode =>
    cases h
    rw [hdecode] at hreads
    exact ⟨⟨rfl, rfl, rfl⟩, rfl, by rw [hreads.1]; rfl⟩
  · next i hdecode =>
    rw [hdecode] at hreads
    obtain ⟨hstays, ⟨rfl, rfl⟩ | ⟨cause, rfl⟩⟩ := stays_of_execute h
    · exact ⟨hstays, hreads.1⟩
    · exact ⟨hstays, rfl, by rw [hreads.1]; rfl⟩

/-! ### Runs -/

/-- What every instruction keeps, and what depends on code, counter and cells only, holds behind a run. -/
theorem run_keeps {I : List Machine → Machine → Prop}
    (hnext : ∀ past m m', I past m → m.step = .next m' → I (past ++ [m]) m')
    (hstays : ∀ past m m', I past m → m.Stays m' → I past m') (past : List Machine) (h : I past m) (fuel : Nat) :
    I (past ++ m.trail fuel) (m.run fuel).1 := by
  rcases run_trail hnext past h fuel with ⟨m', hrun, hm'⟩ | ⟨u, v, why, hrun, hstop, hu⟩
  · rw [hrun]
    exact hm'
  · rw [hrun]
    have hv := hstays _ u v hu (step_stop hstop).1
    exact hstays _ v _ hv ⟨rfl, rfl, rfl⟩

/-- The operand of the last `ALLOC` among the instructions executed in some states. -/
def lastAlloc (past : List Machine) : Option UInt32 :=
  (past.filterMap fun m => m.instr?.bind Instr.allocated?).getLast?

/-- The code is as it was, the counter is in it, right behind it or at a jump target, and the cells are those of the
last `ALLOC`. -/
structure Contained (code : Array UInt8) (past : List Machine) (m : Machine) : Prop where
  same : m.code = code
  pc : m.pc ≤ code.size ∨ m.pc < 2 ^ 32
  cells : m.cells.map Array.size = (lastAlloc past).map UInt32.toNat
  limit : ∀ n, lastAlloc past = some n → n.toNat ≤ maxCells

theorem lastAlloc_snoc (hi : m.instr? = some i) : lastAlloc (past ++ [m]) = i.allocated?.or (lastAlloc past) := by
  rw [lastAlloc, List.filterMap_append, List.getLast?_append, lastAlloc]
  cases halloc : i.allocated? <;> simp [hi, halloc]

theorem Contained.stays (h : Contained code past m) (hstays : m.Stays m') : Contained code past m' :=
  ⟨hstays.code.trans h.same, hstays.pc ▸ h.pc, hstays.cells ▸ h.cells, h.limit⟩

theorem Contained.next (h : Contained code past m) (hstep : m.step = .next m') : Contained code (past ++ [m]) m' := by
  obtain ⟨i, hi, hexecute⟩ := exists_instr?_of_next hstep
  have hadvances := advances_of_execute hexecute
  have hreads := Instr.reads_decodeAt m.code m.pc
  rw [decodeAt_of_instr? hi] at hreads
  refine ⟨hadvances.code.trans h.same, ?_, ?_, ?_⟩
  · rcases hadvances.pc with hpc | ⟨target, -, hpc⟩
    · rw [hpc, ← h.same]
      exact Or.inl hreads.2
    · rw [hpc]
      exact Or.inr target.toNat_lt
  · rw [hadvances.cells, h.cells, lastAlloc_snoc hi, Option.map_or]
  · intro n hn
    rw [lastAlloc_snoc hi, Option.or_eq_some_iff] at hn
    rcases hn with hn | ⟨-, hn⟩
    · exact hadvances.limit n hn
    · exact h.limit n hn

theorem Contained.run (h : Contained code past m) (fuel : Nat) : Contained code (past ++ m.trail fuel) (m.run fuel).1 :=
  run_keeps (fun _ _ _ h hstep => h.next hstep) (fun _ _ _ h hstays => h.stays hstays) past h fuel

theorem Traced.contained {source : Source} {sink : Sink} {prompting : Bool}
    (h : (fresh code source sink prompting).Traced m past) : Contained code past m := by
  induction h with
  | start =>
    refine ⟨rfl, Or.inl (Nat.zero_le _), rfl, ?_⟩
    rintro _ ⟨⟩
  | run _ fuel ih => exact ih.run fuel

theorem Contained.run_stop {fuel : Nat} {outcome : Outcome} (h : Contained code past m)
    (hrun : m.run fuel = (m', some outcome)) :
    ∃ (u : Machine) (why : Stop), why.At code u.pc ∧ m' = (u.finish why).1 ∧ outcome = (u.finish why).2 := by
  obtain ⟨v, u, why, hfinish, hstop, hv⟩ := run_returned (fun _ _ _ h hstep => Contained.next h hstep) past h hrun
  obtain ⟨hstays, hat⟩ := step_stop hstop
  rw [hv.same, ← hstays.pc] at hat
  exact ⟨u, why, hat, by rw [hfinish], by rw [hfinish]⟩

end Step

end Machine

/-- The machine is safe on every code, whatever its devices do, in every state that any number of runs brings it to. The
code is unchanged, and a counter of 64 bits is never negative. There are as many cells as the last executed `ALLOC` asked
for, and at most 2^24. No access to the code or to the cells is out of bounds: a run over raw memory gives what the run
gives. A run that returns has halted on a `HALT`, failed to write its output there, or stopped with a fault that names the
counter and the byte at the counter, or 255 if there is none. -/
theorem machine_stays_in_bounds {code : Array UInt8} {source : Source} {sink : Sink} {prompting : Bool} {m : Machine}
    {past : List Machine} (h : (Machine.fresh code source sink prompting).Traced m past) :
    m.code = code ∧
    (m.pc ≤ code.size ∨ m.pc < 2 ^ 32) ∧ (code.size < 2 ^ 63 → (Int64.ofNat m.pc).toInt = m.pc) ∧
    m.cells.map Array.size = (Machine.lastAlloc past).map UInt32.toNat ∧
    (∀ cells, m.cells = some cells → cells.size ≤ 2 ^ 24) ∧
    ∀ fuel, m.rawRun fuel = .ok (m.run fuel) ∧
      ∀ m' outcome, m.run fuel = (m', some outcome) →
        (outcome = .halted → code[m'.pc]? = some 0x00) ∧
        (∀ e, outcome = .flushFailed e → code[m'.pc]? = some 0x00 ∧ m'.output.broken = true) ∧
        (∀ f, outcome = .fault f → f.pc = m'.pc ∧ f.opcode = (code[m'.pc]?).getD 0xFF) := by
  have hcontained := h.contained
  refine ⟨hcontained.same, hcontained.pc, ?_, hcontained.cells, ?_, ?_⟩
  · intro hsize
    apply Int64.toInt_ofNat_of_lt
    rcases hcontained.pc with hpc | hpc
    · exact Nat.lt_of_le_of_lt hpc hsize
    · exact Nat.lt_trans hpc (by decide)
  · intro cells hcells
    have hsize := hcontained.cells
    rw [hcells, Option.map_some] at hsize
    obtain ⟨n, hn, heq⟩ := Option.map_eq_some_iff.mp hsize.symm
    rw [← heq]
    exact hcontained.limit n hn
  · intro fuel
    refine ⟨m.rawRun_eq fuel, ?_⟩
    intro m' outcome hrun
    obtain ⟨u, why, hat, rfl, rfl⟩ := hcontained.run_stop hrun
    rcases u.finish_cases why with ⟨f, rfl, houtcome⟩ | ⟨rfl, houtcome⟩ | ⟨rfl, ⟨e, houtcome⟩, hbroken⟩
    · rw [houtcome]
      refine ⟨Outcome.noConfusion, fun _ => Outcome.noConfusion, ?_⟩
      rintro _ ⟨⟩
      exact hat
    · rw [houtcome]
      exact ⟨fun _ => hat, fun _ => Outcome.noConfusion, fun _ => Outcome.noConfusion⟩
    · rw [houtcome]
      exact ⟨Outcome.noConfusion, fun _ _ => ⟨hat, hbroken⟩, fun _ => Outcome.noConfusion⟩

/-- A program that moves into its second cell and then allocates a single one. It stops on the load, after four
instructions. -/
theorem cells_shrunk_under_pointer :
    let code : Array UInt8 := #[0x01, 2, 0, 0, 0, 0x08, 0x05, 0x01, 1, 0, 0, 0, 0x04]
    let start := Machine.fresh code ⟨[], none⟩ {} false
    (start.run 9).1.cells.map Array.size = some 1 ∧
      start.rawRun 9 = .ok (start.run 9) ∧
      ∃ f, (start.run 9).2 = some (.fault f) ∧ f.cause = .pointerRange 1 1 ∧ f.pc = (start.run 9).1.pc ∧
        f.opcode = 0x04 := by
  intro code start
  have hfault : (start.run 9).2 = some (.fault ⟨12, 0x04, .pointerRange 1 1⟩) := by decide +kernel
  have hlast : Machine.lastAlloc ([] ++ start.trail 9) = some 1 := by decide +kernel
  have hrun : start.run 9 = ((start.run 9).1, some (.fault ⟨12, 0x04, .pointerRange 1 1⟩)) := by rw [← hfault]
  obtain ⟨-, -, -, -, -, hruns⟩ := machine_stays_in_bounds (Machine.Traced.start : start.Traced start [])
  obtain ⟨-, -, -, hcells, -, -⟩ := machine_stays_in_bounds (Machine.Traced.start.run 9 : start.Traced (start.run 9).1 _)
  rw [hlast] at hcells
  obtain ⟨hraw, hstop⟩ := hruns 9
  obtain ⟨-, -, hnames⟩ := hstop _ _ hrun
  exact ⟨hcells, hraw, _, hfault, rfl, (hnames _ rfl).1, rfl⟩

end TapeCode
