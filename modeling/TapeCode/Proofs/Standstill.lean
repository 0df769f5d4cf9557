import TapeCode.Proofs.Delivery
import TapeCode.Proofs.Safety
import TapeCode.Proofs.Words

/-!
A machine that stopped stays stopped. It stands on the instruction on which it stopped, in the state in which that
instruction stops it again: nothing waits in the output or its device has failed for good (`Output.Still`), and a reader at
the end of its source finds the end again. Only a prompt may be shown once more.
-/

namespace TapeCode

/-! ### Devices at their end -/

namespace Output
variable {o o' : Output} {b : UInt8} {e : DeviceError}

/-- Nothing leaves the output any more: its device has failed, or nothing waits. -/
def Still (o : Output) : Prop :=
  o.broken = true ∨ o.buffer = #[]

theorem Still.flush (h : o.Still) : o.flush = (o, if o.broken then some o.sink.refusal else none) := by
  rcases hbroken : o.broken with _ | _
  · rw [Still, hbroken] at h
    simp [Output.flush, hbroken, h.resolve_left Bool.false_ne_true]
  · simp [Output.flush, hbroken]

/-- What was logged does not matter. -/
theorem Still.flush_log (h : o.Still) (log : Array Event) : { o with log }.flush = ({ o with log }, o.flush.2) := by
  have hlog : Still { o with log } := h
  rw [hlog.flush, h.flush]

theorem still_flush (o : Output) : o.flush.1.Still := by
  rcases o.flush_empties with ⟨-, hempty, -⟩ | ⟨-, -, hbroken⟩
  · exact Or.inr hempty
  · exact Or.inl hbroken

theorem flush_flush (o : Output) : o.flush.1.flush = o.flush := by
  rw [(still_flush o).flush]
  refine Prod.ext rfl ?_
  obtain ⟨hsink, herror⟩ := o.flush_refusal
  rcases o.flush_empties with ⟨hnone, -, hsound⟩ | ⟨e, he, hbroken⟩
  · rw [hnone, hsound]
    rfl
  · rw [he, hbroken, hsink, herror e he]
    rfl

theorem flush_again {error : Option DeviceError} (h : o.flush = (o', error)) : o'.Still ∧ o'.flush = (o', error) := by
  have hstill := o.still_flush
  have hflush := o.flush_flush
  rw [h] at hstill hflush
  exact ⟨hstill, hflush⟩

theorem put_broken (h : o.broken = true) (b : UInt8) : o.put b = (o, some o.sink.refusal) := by
  rw [put, if_pos h]

theorem broken_of_put (h : o.put b = (o', some e)) : o'.broken = true ∧ o'.sink.refusal = e := by
  have hrefusal := o.put_refusal b
  rw [h] at hrefusal
  refine ⟨?_, hrefusal.1.trans (hrefusal.2 e rfl).symm⟩
  unfold put at h
  split at h
  · next hbroken =>
    cases h
    exact hbroken
  · split at h
    · cases h
    · rcases hflush : o.flush with ⟨o₁, _ | e₁⟩
      · rw [hflush] at h
        cases h
      · have hempties := o.flush_empties
        rw [hflush] at h hempties
        cases h
        simpa using hempties

end Output

namespace WordReader
variable {r r' : WordReader} {source source' : Source} {ended e : Ended}

/-- The end of the data is found again by a reader that has found it. -/
theorem lastWord_again (h : r.lastWord ended = (.error e, r')) : r'.ended = some e ∧ r'.lastWord e = (.error e, r') := by
  simp only [lastWord] at h
  split at h
  · cases h
  · split at h
    · cases h
      exact ⟨rfl, by simp only [lastWord, Text.cutWord_nil, Text.dropBlanks_nil]⟩
    · cases h

theorem seek_again (h : r.seek source = (.error e, r', source')) (hlong : e ≠ .wordTooLong) :
    r'.ended = some e ∧ r'.lastWord e = (.error e, r') := by
  fun_induction seek r source with
  | case1 => cases h
  | case2 =>
    cases h
    exact absurd rfl hlong
  | case3 _ _ _ _ _ _ _ _ _ ih => exact ih h
  | case4 _ _ _ _ _ _ _ _ _ hlast =>
    cases h
    exact lastWord_again hlast

/-- A reader that says why there is no word says it again and reads nothing, unless it was a word that did not fit. -/
theorem next_again (h : r.next source = (.error e, r', source')) (hlong : e ≠ .wordTooLong) :
    r'.next source' = (.error e, r', source') := by
  suffices hagain : r'.ended = some e ∧ r'.lastWord e = (.error e, r') by
    simp only [next, hagain.1, hagain.2]
  unfold next at h
  split at h
  · exact seek_again h hlong
  · obtain ⟨hword, hrest⟩ := Prod.mk.inj h
    obtain ⟨hreader, -⟩ := Prod.mk.inj hrest
    exact lastWord_again (Prod.ext hword hreader)

end WordReader

/-! ### Running again -/

namespace Machine

/-- The machine with some more prompts shown. -/
def reprompted (m : Machine) (n : Nat) : Machine :=
  { m with output := { m.output with log := m.output.log ++ Array.replicate n .prompt } }

/-- A machine with nothing left to write that stops where it is, however many prompts were shown. It shows one before, if
it asks for a word, or none. -/
structure Settled (why : Stop) (prompts : Nat) (m : Machine) : Prop where
  still : m.output.Still
  step : ∀ n, (m.reprompted n).step = .stop (m.reprompted (n + prompts)) why
  asks : prompts = 0 ∨ prompts = 1 ∧ m.prompting = true ∧ m.instr? = some .getc

section Again
variable {m u v : Machine} {i : Instr} {why : Stop} {prompts : Nat}

theorem reprompted_zero (m : Machine) : m.reprompted 0 = m := by
  simp [reprompted]

theorem reprompted_reprompted (m : Machine) (n k : Nat) : (m.reprompted n).reprompted k = m.reprompted (n + k) := by
  simp [reprompted, Array.append_assoc]

theorem prompted_output (m : Machine) :
    m.prompted m.output = (m.reprompted (if m.prompting then 1 else 0)).output := by
  rcases hprompting : m.prompting with _ | _
  · simp [prompted, hprompting, reprompted_zero]
  · simp [prompted, hprompting, reprompted, Output.prompt]

theorem settled_of_stopsOn (hi : m.instr? = some i) (hstill : m.output.Still)
    (h : ∀ n, (m.reprompted n).StopsOn i (m.reprompted (n + prompts)) why)
    (hasks : prompts = 0 ∨ prompts = 1 ∧ m.prompting = true ∧ m.instr? = some .getc) : Settled why prompts m := by
  refine ⟨hstill, fun n => ?_, hasks⟩
  rw [step_of_instr? (show (m.reprompted n).instr? = some i from hi)]
  exact (h n).execute

theorem finish_finish (m : Machine) (why : Stop) : (m.finish why).1.finish why = m.finish why := by
  simp only [finish, Output.flush_flush]

theorem finish_still (h : m.output.Still) (why : Stop) : (m.finish why).1 = m := by
  show { m with output := m.output.flush.1 } = m
  rw [h.flush]

theorem flush_reprompted (h : m.output.Still) (n : Nat) :
    (m.reprompted n).output.flush = ((m.reprompted n).output, m.output.flush.2) :=
  h.flush_log _

theorem flush_prompted {o : Output} (m : Machine) (h : o.Still) :
    (m.prompted o).Still ∧ (m.prompted o).flush.2 = o.flush.2 := by
  unfold prompted
  split
  · exact ⟨h, by rw [Output.prompt, h.flush_log]⟩
  · exact ⟨h, rfl⟩

/-- A machine that stopped on an instruction is settled on it. -/
theorem StopsOn.settled (h : u.StopsOn i v why) (hi : u.instr? = some i)
    (hlong : ∀ pc, why ≠ .fault ⟨pc, Opcode.getc.toByte, .wordTooLong⟩) :
    ∃ prompts, Settled why prompts (v.finish why).1 := by
  cases h with
  | halt => exact ⟨0, settled_of_stopsOn hi (Output.still_flush _) (fun n => .halt) (Or.inl rfl)⟩
  | refused hexecute hcause =>
    exact ⟨0, settled_of_stopsOn hi (Output.still_flush _) (fun n => .refused (fun o => hexecute o) hcause) (Or.inl rfl)⟩
  | @unflushed words output e hwords hflush =>
    obtain ⟨hstill, hflushed⟩ := Output.flush_again hflush
    rw [finish_still hstill]
    refine ⟨0, settled_of_stopsOn hi hstill (fun n => ?_) (Or.inl rfl)⟩
    have hagain := flush_reprompted (m := { u with output }) hstill n
    rw [hflushed] at hagain
    exact .unflushed hwords hagain
  | @wordless words words' output ended source hwords hflush hnext =>
    have hended : ended ≠ .wordTooLong := by
      rintro rfl
      exact hlong u.pc rfl
    obtain ⟨hstill, hflushed⟩ := u.flush_prompted (Output.flush_again hflush).1
    rw [(Output.flush_again hflush).2] at hflushed
    rw [finish_still hstill]
    refine ⟨if u.prompting then 1 else 0, settled_of_stopsOn hi hstill (fun n => ?_) ?_⟩
    · have hagain := flush_reprompted (m := { u with output := u.prompted output, source, words := some words' }) hstill n
      rw [hflushed] at hagain
      have hstops := StopsOn.wordless rfl hagain (WordReader.next_again hnext hended)
      rw [prompted_output, reprompted_reprompted] at hstops
      exact hstops
    · split
      · next hprompting => exact Or.inr ⟨rfl, hprompting, hi⟩
      · exact Or.inl rfl
  | @unwritten output e hput =>
    obtain ⟨hbroken, rfl⟩ := Output.broken_of_put hput
    rw [finish_still (Or.inl hbroken)]
    refine ⟨0, settled_of_stopsOn hi (Or.inl hbroken) (fun n => ?_) (Or.inl rfl)⟩
    have hagain : ({ u with output }.reprompted n).output.broken = true := hbroken
    exact .unwritten (Output.put_broken hagain _)

theorem settled_of_step (h : u.step = .stop v why)
    (hlong : ∀ pc, why ≠ .fault ⟨pc, Opcode.getc.toByte, .wordTooLong⟩) :
    ∃ prompts, Settled why prompts (v.finish why).1 := by
  rcases hi : u.instr? with _ | i
  · obtain ⟨why', hstep⟩ := step_of_instr?_none hi
    have hsame : u.step = .stop u why' := hstep u.output
    rw [h] at hsame
    cases hsame
    exact ⟨0, Output.still_flush _, fun n => hstep _, Or.inl rfl⟩
  · rw [step_of_instr? hi] at h
    exact (stopsOn_of_execute h).settled hi hlong

theorem Settled.run (h : Settled why prompts m) (n fuel : Nat) :
    (m.reprompted n).run (fuel + 1) = (m.reprompted (n + prompts), some (m.finish why).2) := by
  have hfinish : (m.reprompted (n + prompts)).finish why = (m.reprompted (n + prompts), (m.finish why).2) := by
    simp only [finish, flush_reprompted h.still]
  rw [run_of_exec_stop (exec_stop (h.step n) fuel), hfinish]

/-- Runs of a settled machine show prompts, and nothing else. -/
theorem Settled.reachable (h : Settled why prompts m) (hreach : m.Reachable u) : ∃ n, u = m.reprompted n := by
  refine hreach.keeps ?_ ?_
  · exact ⟨0, m.reprompted_zero.symm⟩
  · rintro _ ⟨n, rfl⟩ fuel
    cases fuel with
    | zero => exact ⟨n, rfl⟩
    | succ fuel => exact ⟨n + prompts, by rw [h.run n fuel]⟩

end Again

end Machine

/-- A machine that stopped stays stopped, unless it stopped on a word that is too long. However often it is run again, cut
short or not, it differs from the machine that stopped only by the prompts that its log ends with, so that nothing is
written, nothing is read, and counter, pointer, accumulator and cells are the same. Each run comes to the same outcome and
shows at most one more prompt, which only a `GETC` does. -/
theorem stopped_machine_stays_stopped {m m' : Machine} {fuel : Nat} {outcome : Outcome}
    (h : m.run fuel = (m', some outcome)) (hlong : ∀ pc, outcome ≠ .fault ⟨pc, Opcode.getc.toByte, .wordTooLong⟩) :
    ∃ prompts, (prompts = 0 ∨ prompts = 1 ∧ m'.prompting = true ∧ m'.instr? = some .getc) ∧
      ∀ m'', m'.Reachable m'' → (∃ n, m'' = m'.reprompted n) ∧
        ∀ fuel, m''.run (fuel + 1) = (m''.reprompted prompts, some outcome) := by
  obtain ⟨u, v, why, hfinish, hstop, -⟩ :=
    Machine.run_returned (I := fun _ _ => True) (fun _ _ _ _ _ => trivial) [] trivial h
  have hwhy : ∀ pc, why ≠ .fault ⟨pc, Opcode.getc.toByte, .wordTooLong⟩ := by
    rintro pc rfl
    exact hlong pc (congrArg Prod.snd hfinish).symm
  obtain ⟨prompts, hsettled⟩ := Machine.settled_of_step hstop hwhy
  have houtcome := v.finish_finish why
  rw [hfinish] at hsettled houtcome
  refine ⟨prompts, hsettled.asks, fun m'' hreach => ?_⟩
  obtain ⟨n, rfl⟩ := hsettled.reachable hreach
  refine ⟨⟨n, rfl⟩, fun fuel => ?_⟩
  rw [hsettled.run n fuel, houtcome, Machine.reprompted_reprompted]

/-- A program that writes a byte and reads two words, from a source that breaks behind the first. Each of its runs asks for
the second word again. -/
theorem stopped_at_broken_source :
    let start := Machine.fresh #[0x03, 0x0E, 0x0D, 0x0D] ⟨[[0x61]], some ⟨"broken"⟩⟩ {} true
    let m := (start.run 9).1
    let outcome : Outcome := .fault ⟨3, 0x0D, .device ⟨"broken"⟩⟩
    (start.run 9).2 = some outcome ∧ m.output.log = #[.output [0], .prompt, .prompt] ∧
      ∀ m', m.Reachable m' →
        (m'.run 9).2 = some outcome ∧ m'.pc = 3 ∧ m'.acc = 0x61 ∧ m'.output.sink.taken = #[0] := by
  intro start m outcome
  have hstop : (start.run 9).2 = some outcome := by decide +kernel
  have hrun : start.run 9 = (m, some outcome) := by rw [← hstop]
  have hlog : m.output.log = #[.output [0], .prompt, .prompt] := by decide +kernel
  have hstate : m.pc = 3 ∧ m.acc = 0x61 ∧ m.output.sink.taken = #[0] := by decide +kernel
  obtain ⟨prompts, -, hagain⟩ := stopped_machine_stays_stopped hrun (by simp [outcome])
  clear_value m
  refine ⟨hstop, hlog, fun m' hreach => ?_⟩
  obtain ⟨⟨n, rfl⟩, hruns⟩ := hagain m' hreach
  exact ⟨by rw [hruns 8], hstate⟩

end TapeCode
