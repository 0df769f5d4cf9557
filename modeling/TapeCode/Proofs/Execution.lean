import TapeCode.Machine

/-!
Executions of the machine. An execution leaves a trail: the states in which it executed an instruction and went on. What
holds of a trail and of the state behind it is proved instruction by instruction (`exec_trail`). Where any number of runs
bring a machine to is said together with their trails (`Traced`). Only few instructions use the devices, and what these do
to a machine is said here once.
-/

namespace TapeCode.Machine

/-- A machine that has not run yet. -/
def fresh (code : Array UInt8) (source : Source) (sink : Sink) (prompting : Bool) : Machine :=
  { code, source, output := { sink }, prompting }

/-- The instruction at the program counter. -/
def instr? (m : Machine) : Option Instr :=
  match Instr.decodeAt m.code m.pc with
  | .ok i => some i
  | .error _ => none

/-- The states in which up to a number of instructions are executed, as long as the machine goes on. -/
def trail : Nat → Machine → List Machine
  | 0, _ => []
  | n + 1, m =>
    match m.step with
    | .next m' => m :: trail n m'
    | .stop _ _ => []

/-- The states that runs bring a machine to, with the states in which instructions were executed on the way. A run may
be cut short anywhere, and a machine that stopped may be run again. -/
inductive Traced (start : Machine) : Machine → List Machine → Prop where
  | start : Traced start start []
  | run {m : Machine} {past : List Machine} (h : Traced start m past) (fuel : Nat) :
      Traced start (m.run fuel).1 (past ++ m.trail fuel)

/-- The states that runs bring a machine to, whatever was executed on the way. -/
def Reachable (start m : Machine) : Prop :=
  ∃ past, start.Traced m past

section Step
variable {m m' start : Machine} {i : Instr} {why : Stop} {n : Nat}

theorem decodeAt_of_instr? (h : m.instr? = some i) : Instr.decodeAt m.code m.pc = .ok i := by
  unfold instr? at h
  split at h
  · next hdecode => rw [hdecode, Option.some.inj h]
  · cases h

theorem step_of_instr? (h : m.instr? = some i) : m.step = m.execute i := by
  rw [step, decodeAt_of_instr? h]

theorem exists_instr?_of_next (h : m.step = .next m') : ∃ i, m.instr? = some i ∧ m.execute i = .next m' := by
  unfold step at h
  split at h
  · cases h
  · cases h
  · cases h
  · next i hdecode => exact ⟨i, by rw [instr?, hdecode], h⟩

/-- Without an instruction the output does not matter. -/
theorem step_of_instr?_none (h : m.instr? = none) :
    ∃ why, ∀ output, { m with output }.step = .stop { m with output } why := by
  rcases hdecode : Instr.decodeAt m.code m.pc with (_ | byte | opcode) | i
  · exact ⟨.fault ⟨m.pc, Fault.noOpcode, .truncated⟩, fun output => by simp only [step, hdecode]; rfl⟩
  · exact ⟨.fault ⟨m.pc, byte, .badOpcode⟩, fun output => by simp only [step, hdecode]; rfl⟩
  · exact ⟨.fault ⟨m.pc, opcode.toByte, .truncated⟩, fun output => by simp only [step, hdecode]; rfl⟩
  · rw [instr?, hdecode] at h
    cases h

/-- A machine that stops on no instruction stops as it is. -/
theorem step_stop_cases (h : m.step = .stop m' why) :
    m' = m ∨ ∃ i, m.instr? = some i ∧ m.execute i = .stop m' why := by
  unfold step at h
  split at h
  · cases h
    exact Or.inl rfl
  · cases h
    exact Or.inl rfl
  · cases h
    exact Or.inl rfl
  · next i hdecode => exact Or.inr ⟨i, by rw [instr?, hdecode], h⟩

theorem exec_next (h : m.step = .next m') (n : Nat) : m.exec (n + 1) = m'.exec n := by
  simp only [exec, h]

theorem exec_stop (h : m.step = .stop m' why) (n : Nat) : m.exec (n + 1) = (m', some why) := by
  simp only [exec, h]

theorem trail_next (h : m.step = .next m') (n : Nat) : m.trail (n + 1) = m :: m'.trail n := by
  simp only [trail, h]

theorem trail_stop (h : m.step = .stop m' why) (n : Nat) : m.trail (n + 1) = [] := by
  simp only [trail, h]

theorem exec_succ (h : start.exec n = (m, none)) : start.exec (n + 1) = m.exec 1 := by
  induction n generalizing start with
  | zero =>
    cases h
    rfl
  | succ n ih =>
    rcases hstep : start.step with s | ⟨s, why⟩
    · rw [exec_next hstep] at h ⊢
      exact ih h
    · rw [exec_stop hstep] at h
      cases h

/-- What every instruction keeps holds behind a trail. An execution that stopped did so from the state behind its
trail. -/
theorem exec_trail {I : List Machine → Machine → Prop}
    (hstep : ∀ past m m', I past m → m.step = .next m' → I (past ++ [m]) m') (past : List Machine) (h : I past start)
    (n : Nat) :
    (∃ m, start.exec n = (m, none) ∧ I (past ++ start.trail n) m) ∨
      ∃ u m why, start.exec n = (m, some why) ∧ u.step = .stop m why ∧ I (past ++ start.trail n) u := by
  induction n generalizing start past with
  | zero => exact Or.inl ⟨start, rfl, by rwa [trail, List.append_nil]⟩
  | succ n ih =>
    rcases hs : start.step with s | ⟨s, why⟩
    · rw [exec_next hs, trail_next hs, List.append_cons]
      exact ih (past ++ [start]) (hstep past start s h hs)
    · rw [exec_stop hs, trail_stop hs, List.append_nil]
      exact Or.inr ⟨start, s, why, rfl, hs, h⟩

theorem exec_behind {I : List Machine → Machine → Prop}
    (hstep : ∀ past m m', I past m → m.step = .next m' → I (past ++ [m]) m') (h : I [] start)
    (hexec : start.exec n = (m, none)) : I (start.trail n) m := by
  rcases exec_trail hstep [] h n with ⟨m', hm', hI⟩ | ⟨u, m', why, hm', -⟩
  · rw [hexec] at hm'
    cases hm'
    exact hI
  · rw [hexec] at hm'
    cases hm'

/-! ### Runs -/

theorem run_of_exec_none (h : m.exec n = (m', none)) : m.run n = (m', none) := by
  rw [run, h]

theorem run_of_exec_stop (h : m.exec n = (m', some why)) : m.run n = ((m'.finish why).1, some (m'.finish why).2) := by
  rw [run, h]

/-- A run that returned did so from a state behind its trail. -/
theorem run_trail {I : List Machine → Machine → Prop}
    (hstep : ∀ past m m', I past m → m.step = .next m' → I (past ++ [m]) m') (past : List Machine) (h : I past start)
    (n : Nat) :
    (∃ m, start.run n = (m, none) ∧ I (past ++ start.trail n) m) ∨
      ∃ u v why, start.run n = ((v.finish why).1, some (v.finish why).2) ∧ u.step = .stop v why ∧
        I (past ++ start.trail n) u := by
  rcases exec_trail hstep past h n with ⟨m, hexec, hm⟩ | ⟨u, v, why, hexec, hstop, hu⟩
  · exact Or.inl ⟨m, run_of_exec_none hexec, hm⟩
  · exact Or.inr ⟨u, v, why, run_of_exec_stop hexec, hstop, hu⟩
theorem run_returned {I : List Machine → Machine → Prop} {outcome : Outcome}
    (hstep : ∀ past m m', I past m → m.step = .next m' → I (past ++ [m]) m') (past : List Machine) (h : I past start)
    (hrun : start.run n = (m, some outcome)) :
    ∃ u v why, v.finish why = (m, outcome) ∧ u.step = .stop v why ∧ I (past ++ start.trail n) u := by
  rcases run_trail hstep past h n with ⟨m', hm', -⟩ | ⟨u, v, why, hfinish, hstop, hu⟩
  · rw [hrun] at hm'
    cases hm'
  · rw [hrun] at hfinish
    cases hfinish
    exact ⟨u, v, why, rfl, hstop, hu⟩

theorem exec_none_of_run (h : start.run n = (m, none)) : start.exec n = (m, none) := by
  rcases hexec : start.exec n with ⟨m', _ | why⟩
  · rw [run_of_exec_none hexec] at h
    cases h
    rfl
  · rw [run_of_exec_stop hexec] at h
    cases h

theorem run_succ (h : start.exec n = (m, none)) : start.run (n + 1) = m.run 1 := by
  rw [run, exec_succ h, run]

/-- What every run keeps holds in every state that can be reached. -/
@[elab_as_elim]
theorem Reachable.keeps {P : Machine → Prop} (h : start.Reachable m) (hstart : P start)
    (hrun : ∀ m, P m → ∀ fuel, P (m.run fuel).1) : P m := by
  obtain ⟨past, htraced⟩ := h
  induction htraced with
  | start => exact hstart
  | run _ fuel ih => exact hrun _ ih fuel

/-! ### Devices -/

/-- The output when a word is asked for: with a prompt, if prompts are shown. -/
def prompted (m : Machine) (output : Output) : Output :=
  if m.prompting then output.prompt else output

/-- Instructions other than `OPEN`, `GETC` and `PUTC` leave the devices alone. -/
theorem execute_plain (hopen : i ≠ .openInput) (hgetc : i ≠ .getc) (hputc : i ≠ .putc)
    (h : m.execute i = .next m') : m'.source = m.source ∧ m'.words = m.words ∧ m'.output = m.output := by
  cases i with
  | halt => cases h
  | alloc n =>
    simp only [execute] at h
    split at h
    · cases h
    · cases h
      exact ⟨rfl, rfl, rfl⟩
  | load | store =>
    simp only [execute] at h
    split at h
    · cases h
    · split at h
      · cases h
      · cases h
        exact ⟨rfl, rfl, rfl⟩
  | reset | add n | sub n | forward | back | move delta | jump target | jumpIfZero target =>
    cases h
    exact ⟨rfl, rfl, rfl⟩
  | openInput => exact absurd rfl hopen
  | getc => exact absurd rfl hgetc
  | putc => exact absurd rfl hputc

theorem execute_getc_next (h : m.execute .getc = .next m') :
    ∃ words output word words' source, m.words = some words ∧ m.output.flush = (output, none) ∧
      words.next m.source = (.ok word, words', source) ∧ m'.output = m.prompted output ∧
      m'.words = some words' ∧ m'.source = source := by
  simp only [execute, readChar] at h
  rcases hwords : m.words with _ | words
  · simp only [hwords] at h
    cases h
  · rcases hflush : m.output.flush with ⟨output, _ | e⟩
    · rcases hnext : words.next m.source with ⟨ended | word, words', source⟩
      · simp only [hwords, hflush, hnext] at h
        cases h
      · simp only [hwords, hflush, hnext] at h
        cases h
        exact ⟨words, output, word, words', source, rfl, rfl, hnext, rfl, rfl, rfl⟩
    · simp only [hwords, hflush] at h
      cases h

theorem execute_putc_next (h : m.execute .putc = .next m') :
    m.output.put m.acc = (m'.output, none) ∧ m'.words = m.words ∧ m'.source = m.source := by
  simp only [execute] at h
  rcases hput : m.output.put m.acc with ⟨output, _ | e⟩
  · simp only [hput] at h
    cases h
    exact ⟨rfl, rfl, rfl⟩
  · simp only [hput] at h
    cases h

theorem locate_error {pointer : Int64} {cells : Array UInt8} {cause : Cause} (h : locate pointer cells = .error cause) :
    cause = .pointerRange pointer.toInt cells.size := by
  unfold locate at h
  split at h
  · cases h
  · exact (Except.error.inj h).symm

/-- How a machine stops on an instruction. -/
inductive StopsOn (m : Machine) : Instr → Machine → Stop → Prop where
  | halt : StopsOn m .halt m .halted
  /-- The instruction is refused as it is, and would be with any other output. -/
  | refused {i : Instr} {cause : Cause}
      (hexecute : ∀ output, { m with output }.execute i = { m with output }.fault i.opcode.toByte cause)
      (hcause : cause = .noMemory ∨ cause = .inputClosed ∨ ∃ cells, cause = .pointerRange m.pointer.toInt cells) :
      StopsOn m i m (.fault ⟨m.pc, i.opcode.toByte, cause⟩)
  /-- The output does not go out before a word is read. -/
  | unflushed {words : WordReader} {output : Output} {e : DeviceError} (hwords : m.words = some words)
      (hflush : m.output.flush = (output, some e)) :
      StopsOn m .getc { m with output } (.fault ⟨m.pc, Opcode.getc.toByte, .device e⟩)
  | wordless {words words' : WordReader} {output : Output} {ended : Ended} {source : Source}
      (hwords : m.words = some words) (hflush : m.output.flush = (output, none))
      (hnext : words.next m.source = (.error ended, words', source)) :
      StopsOn m .getc { m with output := m.prompted output, source, words := some words' }
        (.fault ⟨m.pc, Opcode.getc.toByte, causeOf ended⟩)
  | unwritten {output : Output} {e : DeviceError} (hput : m.output.put m.acc = (output, some e)) :
      StopsOn m .putc { m with output } (.fault ⟨m.pc, Opcode.putc.toByte, .device e⟩)

theorem stopsOn_of_execute (h : m.execute i = .stop m' why) : m.StopsOn i m' why := by
  cases i with
  | halt =>
    cases h
    exact .halt
  | alloc n =>
    simp only [execute] at h
    split at h
    · next hlimit =>
      cases h
      exact .refused (fun output => if_pos hlimit) (Or.inl rfl)
    · cases h
  | load | store =>
    rcases hcells : m.cells with _ | cells
    · simp only [execute, hcells] at h
      cases h
      exact .refused (fun output => by simp only [execute, hcells]) (Or.inl rfl)
    · rcases hlocate : locate m.pointer cells with cause | i
      · simp only [execute, hcells, hlocate] at h
        cases h
        exact .refused (fun output => by simp only [execute, hcells, hlocate]) (Or.inr (Or.inr ⟨_, locate_error hlocate⟩))
      · simp only [execute, hcells, hlocate] at h
        cases h
  | reset | openInput | add n | sub n | forward | back | move delta | jump target | jumpIfZero target => cases h
  | getc =>
    simp only [execute, readChar] at h
    rcases hwords : m.words with _ | words
    · simp only [hwords] at h
      cases h
      exact .refused (fun output => by simp only [execute, readChar, hwords]) (Or.inr (Or.inl rfl))
    · rcases hflush : m.output.flush with ⟨output, _ | e⟩
      · rcases hnext : words.next m.source with ⟨ended | word, words', source⟩
        · simp only [hwords, hflush, hnext] at h
          cases h
          exact .wordless hwords hflush hnext
        · simp only [hwords, hflush, hnext] at h
          cases h
      · simp only [hwords, hflush] at h
        cases h
        rw [← hwords]
        exact .unflushed hwords hflush
  | putc =>
    simp only [execute] at h
    rcases hput : m.output.put m.acc with ⟨output, _ | e⟩
    · simp only [hput] at h
      cases h
    · simp only [hput] at h
      cases h
      exact .unwritten hput

theorem StopsOn.execute (h : m.StopsOn i m' why) : m.execute i = .stop m' why := by
  cases h with
  | halt => rfl
  | refused hexecute => exact hexecute m.output
  | unflushed hwords hflush =>
    simp only [Machine.execute, readChar, hwords, hflush]
    rfl
  | wordless hwords hflush hnext =>
    simp only [Machine.execute, readChar, hwords, hflush, hnext]
    rfl
  | unwritten hput =>
    simp only [Machine.execute, hput]
    rfl

/-- What the output of a machine is that stops on an instruction. -/
theorem execute_stop_output (h : m.execute i = .stop m' why) :
    m'.output = m.output ∨ (∃ e, m.output.put m.acc = (m'.output, some e)) ∨
      (∃ e, m.output.flush = (m'.output, some e)) ∨
      ∃ output, m.output.flush = (output, none) ∧ m'.output = m.prompted output := by
  cases stopsOn_of_execute h with
  | halt => exact Or.inl rfl
  | refused => exact Or.inl rfl
  | unflushed _ hflush => exact Or.inr (Or.inr (Or.inl ⟨_, hflush⟩))
  | wordless _ hflush => exact Or.inr (Or.inr (Or.inr ⟨_, hflush, rfl⟩))
  | unwritten hput => exact Or.inr (Or.inl ⟨_, hput⟩)

end Step

end TapeCode.Machine
