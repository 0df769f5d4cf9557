import TapeCode.Proofs.Execution

/-!
Output is delivered. The bytes that a program puts out reach the device in their order, none twice, and all of them as
long as the device has room; a prompt is shown only when none of them waits any more. The invariant is that the bytes
taken and the bytes in the buffer are together what was put out (`Output.Holds`).
-/

namespace TapeCode

/-- The bytes of output in an event. -/
def Event.bytes : Event → List UInt8
  | .output bytes => bytes
  | .prompt => []

/-- The bytes that a log says were taken. -/
def Event.written (log : List Event) : List UInt8 :=
  log.flatMap Event.bytes

/-! ### The buffer -/

@[simp]
theorem Sink.toList_taken_put (s : Sink) (bytes : List UInt8) :
    (s.put bytes).taken.toList = s.taken.toList ++ s.fitting bytes := by
  simp [Sink.put]

@[simp]
theorem Sink.size_taken_put (s : Sink) (bytes : List UInt8) :
    (s.put bytes).taken.size = s.taken.size + (s.fitting bytes).length := by
  rw [← Array.length_toList, toList_taken_put, List.length_append, Array.length_toList]

theorem Event.written_push (log : Array Event) (e : Event) :
    written (log.push e).toList = written log.toList ++ e.bytes := by
  simp [written]

namespace Output

/-- An output with `sent` put into it, on a device that takes `limit` bytes in all. A device that failed is full, and
bytes are left behind in the buffer. -/
structure Holds (limit : Option Nat) (sent : List UInt8) (o : Output) : Prop where
  bytes : o.sink.taken.toList ++ o.buffer.toList = sent
  room : o.sink.room = limit.map (· - o.sink.taken.size)
  within : ∀ n, limit = some n → o.sink.taken.size ≤ n
  broken : o.broken = true → limit = some o.sink.taken.size ∧ o.buffer ≠ #[]
  log : Event.written o.log.toList = o.sink.taken.toList

/-- What a flush does: nothing on a broken device or with an empty buffer, else one write. -/
theorem flush_cases (o : Output) :
    (o.broken = true ∧ o.flush = (o, some o.sink.refusal)) ∨
    (o.broken = false ∧ o.buffer = #[] ∧ o.flush = (o, none)) ∨
    (o.broken = false ∧ o.buffer ≠ #[] ∧ o.sink.refuses o.buffer.toList = true ∧
      o.flush = (⟨o.sink.put o.buffer.toList,
        o.buffer.extract (o.sink.fitting o.buffer.toList).length o.buffer.size, true,
        o.log.push (.output (o.sink.fitting o.buffer.toList))⟩, some o.sink.refusal)) ∨
    (o.broken = false ∧ o.sink.refuses o.buffer.toList = false ∧
      o.flush = (⟨o.sink.put o.buffer.toList, #[], false,
        o.log.push (.output (o.sink.fitting o.buffer.toList))⟩, none)) := by
  rcases hbroken : o.broken with _ | _
  · by_cases hempty : o.buffer = #[]
    · simp [flush, hbroken, hempty]
    · rcases hrefuses : o.sink.refuses o.buffer.toList with _ | _
      · simp [flush, hbroken, hempty, hrefuses, Sink.write]
      · simp [flush, hbroken, hempty, hrefuses, Sink.write]
  · simp [flush, hbroken]

section Flush
variable {limit : Option Nat} {sent : List UInt8} {o : Output}

theorem Holds.refused (h : o.Holds limit sent) (hrefuses : o.sink.refuses o.buffer.toList = true) :
    ∃ n, limit = some n ∧ n - o.sink.taken.size < o.buffer.size ∧
      o.sink.fitting o.buffer.toList = o.buffer.toList.take (n - o.sink.taken.size) := by
  rcases limit with _ | n
  · simp [Sink.refuses, h.room] at hrefuses
  · have hroom := h.room
    simp only [Option.map_some] at hroom
    simp only [Sink.refuses, hroom, decide_eq_true_eq, Array.length_toList] at hrefuses
    exact ⟨n, rfl, hrefuses, by simp only [Sink.fitting, hroom]⟩

theorem Holds.accepted (h : o.Holds limit sent) (haccepts : o.sink.refuses o.buffer.toList = false) :
    o.sink.fitting o.buffer.toList = o.buffer.toList ∧ ∀ n, limit = some n → o.sink.taken.size + o.buffer.size ≤ n := by
  refine ⟨Sink.fitting_of_accepted haccepts, ?_⟩
  rintro n rfl
  have hroom := h.room
  have hwithin := h.within n rfl
  simp only [Option.map_some] at hroom
  simp only [Sink.refuses, hroom, decide_eq_false_iff_not, Array.length_toList, Nat.not_lt] at haccepts
  omega

theorem Holds.flush (h : o.Holds limit sent) : o.flush.1.Holds limit sent := by
  rcases o.flush_cases with ⟨-, hflush⟩ | ⟨-, -, hflush⟩ | ⟨-, -, hrefuses, hflush⟩ | ⟨-, haccepts, hflush⟩
  · rwa [hflush]
  · rwa [hflush]
  · obtain ⟨n, rfl, hshort, hfits⟩ := h.refused hrefuses
    have hwithin := h.within n rfl
    have hlength : (o.buffer.toList.take (n - o.sink.taken.size)).length = n - o.sink.taken.size := by
      rw [List.length_take, Array.length_toList]
      omega
    have hfull : (o.sink.put o.buffer.toList).taken.size = n := by
      rw [Sink.size_taken_put, hfits, hlength]
      omega
    rw [hflush]
    refine ⟨?_, ?_, ?_, fun _ => ⟨congrArg some hfull.symm, ?_⟩, ?_⟩
    · have hrest : (o.buffer.extract (n - o.sink.taken.size) o.buffer.size).toList =
          o.buffer.toList.drop (n - o.sink.taken.size) := by
        rw [Array.toList_extract, List.extract_eq_take_drop, List.take_of_length_le (by simp)]
      rw [Sink.toList_taken_put, hfits, hlength, hrest, List.append_assoc, List.take_append_drop, h.bytes]
    · rw [hfull, Option.map_some, Nat.sub_self]
      simp only [Sink.put, h.room, Option.map_some, Array.length_toList]
      exact congrArg some (by omega)
    · rintro _ ⟨⟩
      exact Nat.le_of_eq hfull
    · rw [hfits, hlength]
      intro hempty
      have := congrArg Array.size hempty
      simp at this
      omega
    · rw [Event.written_push, h.log, Sink.toList_taken_put]
      rfl
  · obtain ⟨hfits, hwithin⟩ := h.accepted haccepts
    have hfull : (o.sink.put o.buffer.toList).taken.size = o.sink.taken.size + o.buffer.size := by
      rw [Sink.size_taken_put, hfits, Array.length_toList]
    rw [hflush]
    refine ⟨?_, ?_, ?_, ?_, ?_⟩
    · simp [hfits, ← h.bytes]
    · rw [hfull]
      simp only [Sink.put, h.room, Option.map_map, Array.length_toList]
      congr 1
      funext n
      exact Nat.sub_sub n _ _
    · intro n hn
      rw [hfull]
      exact hwithin n hn
    · intro hbroken
      cases hbroken
    · rw [Event.written_push, h.log, Sink.toList_taken_put]
      rfl

/-- After a flush either nothing waits, or the device has failed. -/
theorem flush_empties (o : Output) :
    (o.flush.2 = none ∧ o.flush.1.buffer = #[] ∧ o.flush.1.broken = false) ∨
      ∃ e, o.flush.2 = some e ∧ o.flush.1.broken = true := by
  rcases o.flush_cases with ⟨hbroken, hflush⟩ | ⟨hsound, hempty, hflush⟩ | ⟨-, -, -, hflush⟩ | ⟨-, -, hflush⟩
  · rw [hflush]
    exact Or.inr ⟨_, rfl, hbroken⟩
  · rw [hflush]
    exact Or.inl ⟨rfl, hempty, hsound⟩
  · rw [hflush]
    exact Or.inr ⟨_, rfl, rfl⟩
  · rw [hflush]
    exact Or.inl ⟨rfl, rfl, rfl⟩

theorem flush_log (o : Output) : ∃ new, o.flush.1.log.toList = o.log.toList ++ new ∧ Event.prompt ∉ new := by
  rcases o.flush_cases with ⟨-, hflush⟩ | ⟨-, -, hflush⟩ | ⟨-, -, -, hflush⟩ | ⟨-, -, hflush⟩
  · exact ⟨[], by simp [hflush]⟩
  · exact ⟨[], by simp [hflush]⟩
  · exact ⟨_, by rw [hflush]; exact Array.toList_push, by simp⟩
  · exact ⟨_, by rw [hflush]; exact Array.toList_push, by simp⟩

theorem Holds.taken_of_empty (h : o.Holds limit sent) (hempty : o.buffer = #[]) : o.sink.taken.toList = sent := by
  rw [← h.bytes, hempty, List.append_nil]

/-- Behind a flush the device has taken as much as it takes. -/
theorem Holds.taken_flush (h : o.Holds limit sent) :
    o.flush.1.sink.taken.toList = sent.take (limit.getD sent.length) := by
  have hflushed := h.flush
  rcases o.flush_empties with ⟨-, hempty, -⟩ | ⟨e, -, hbroken⟩
  · have htaken := hflushed.taken_of_empty hempty
    rw [htaken, List.take_of_length_le]
    rcases limit with _ | n
    · exact Nat.le_refl _
    · have hwithin := hflushed.within n rfl
      rwa [← Array.length_toList, htaken] at hwithin
  · obtain ⟨hlimit, -⟩ := hflushed.broken hbroken
    rw [hlimit, Option.getD_some, ← hflushed.bytes, ← Array.length_toList, List.take_left]

end Flush

section Put
variable {limit : Option Nat} {sent : List UInt8} {o o' : Output} {b : UInt8} {e : DeviceError}

theorem Holds.append (h : o.Holds limit sent) (hsound : o.broken = false) (b : UInt8) :
    (o.append b).Holds limit (sent ++ [b]) := by
  refine ⟨?_, h.room, h.within, fun hbroken => ?_, h.log⟩
  · rw [Output.append, Array.toList_push, ← List.append_assoc, h.bytes]
  · rw [Output.append, hsound] at hbroken
    cases hbroken

theorem Holds.put (h : o.Holds limit sent) (hput : o.put b = (o', none)) : o'.Holds limit (sent ++ [b]) := by
  unfold Output.put at hput
  split at hput
  · cases hput
  · next hsound =>
    split at hput
    · cases hput
      exact h.append (by simpa using hsound) b
    · rcases o.flush_empties with ⟨-, -, hsound⟩ | ⟨e, herror, -⟩
      · split at hput
        · cases hput
        · next o₁ hflush =>
          cases hput
          rw [hflush] at hsound
          exact (hflush ▸ h.flush).append hsound b
      · split at hput
        · cases hput
        · next hflush =>
          rw [hflush] at herror
          cases herror

theorem Holds.put_refused (h : o.Holds limit sent) (hput : o.put b = (o', some e)) : o'.Holds limit sent := by
  unfold Output.put at hput
  split at hput
  · cases hput
    exact h
  · split at hput
    · cases hput
    · have hflushed := h.flush
      split at hput
      · next hflush =>
        cases hput
        rwa [hflush] at hflushed
      · cases hput

theorem put_log (o : Output) (b : UInt8) :
    ∃ new, (o.put b).1.log.toList = o.log.toList ++ new ∧ Event.prompt ∉ new := by
  unfold Output.put
  split
  · exact ⟨[], by simp⟩
  · split
    · exact ⟨[], by simp [Output.append]⟩
    · obtain ⟨new, hlog, hnew⟩ := o.flush_log
      rcases hflush : o.flush with ⟨o', _ | e⟩
      · rw [hflush] at hlog
        exact ⟨new, hlog, hnew⟩
      · rw [hflush] at hlog
        exact ⟨new, hlog, hnew⟩

end Put

/-! ### What an instruction does to the output -/

/-- A change of the output, with the bytes it puts out. -/
inductive Change : Output → List UInt8 → Output → Prop where
  | keep (o : Output) : Change o [] o
  | put {o o' : Output} {b : UInt8} (h : o.put b = (o', none)) : Change o [b] o'
  | refuse {o o' : Output} {b : UInt8} {e : DeviceError} (h : o.put b = (o', some e)) : Change o [] o'
  | flush (o : Output) : Change o [] o.flush.1
  | prompt {o o' : Output} (h : o.flush = (o', none)) : Change o [] o'.prompt

section Change
variable {limit : Option Nat} {sent new : List UInt8} {o o' : Output}

theorem Change.holds (hc : Change o new o') (h : o.Holds limit sent) : o'.Holds limit (sent ++ new) := by
  cases hc with
  | keep => rwa [List.append_nil]
  | put hput => exact h.put hput
  | refuse hput =>
    rw [List.append_nil]
    exact h.put_refused hput
  | flush =>
    rw [List.append_nil]
    exact h.flush
  | prompt hflush =>
    have hflushed := h.flush
    rw [hflush] at hflushed
    rw [List.append_nil]
    refine ⟨hflushed.bytes, hflushed.room, hflushed.within, hflushed.broken, ?_⟩
    rw [Output.prompt, Event.written_push, hflushed.log]
    exact List.append_nil _

/-- A prompt that a change adds to the log stands behind all bytes that were put out. -/
theorem Change.prompt_last (hc : Change o new o') (h : o.Holds limit sent) :
    ∃ events, o'.log.toList = o.log.toList ++ events ∧
      ∀ i, events[i]? = some .prompt → Event.written (o.log.toList ++ events.take i) = sent := by
  have hsilent : ∀ {events : List Event} {P : Nat → Prop}, Event.prompt ∉ events → ∀ i, events[i]? = some .prompt → P i :=
    fun hnew i hi => absurd (List.mem_of_getElem? hi) hnew
  cases hc with
  | keep => exact ⟨[], by simp⟩
  | put hput =>
    obtain ⟨events, hlog, hnew⟩ := o.put_log _
    rw [hput] at hlog
    exact ⟨events, hlog, hsilent hnew⟩
  | refuse hput =>
    obtain ⟨events, hlog, hnew⟩ := o.put_log _
    rw [hput] at hlog
    exact ⟨events, hlog, hsilent hnew⟩
  | flush =>
    obtain ⟨events, hlog, hnew⟩ := o.flush_log
    exact ⟨events, hlog, hsilent hnew⟩
  | prompt hflush =>
    obtain ⟨events, hlog, hnew⟩ := o.flush_log
    have hflushed := h.flush
    have hempties := o.flush_empties
    rw [hflush] at hlog hflushed hempties
    refine ⟨events ++ [.prompt], by rw [Output.prompt, Array.toList_push, hlog, List.append_assoc], fun i hi => ?_⟩
    -- The prompt is the last of the new events, since a flush shows none.
    have hlast : i = events.length := by
      rcases Nat.lt_trichotomy i events.length with hlt | heq | hgt
      · rw [List.getElem?_append_left hlt] at hi
        exact absurd (List.mem_of_getElem? hi) hnew
      · exact heq
      · rw [List.getElem?_eq_none (by simp; omega)] at hi
        cases hi
    rw [hlast, List.take_left, ← hlog, hflushed.log]
    rcases hempties with ⟨-, hempty, -⟩ | ⟨e, herror, -⟩
    · exact hflushed.taken_of_empty hempty
    · cases herror

end Change

end Output

/-! ### Runs -/

namespace Machine

/-- The byte that the instruction at the program counter puts out, if it is executed. -/
def putHere (m : Machine) : List UInt8 :=
  if m.instr? = some .putc then [m.acc] else []

/-- The bytes that up to `n` instructions put out: the accumulator at each `PUTC` that is executed. -/
def putOut (n : Nat) (m : Machine) : List UInt8 :=
  (m.trail n).flatMap putHere

/-- The states that runs bring a machine to, with the bytes put out so far. -/
def Session (start m : Machine) (sent : List UInt8) : Prop :=
  ∃ past, start.Traced m past ∧ sent = past.flatMap putHere

section Runs
variable {m m' u start : Machine} {limit : Option Nat} {sent : List UInt8} {why : Stop}

theorem change_prompted {o : Output} (h : m.output.flush = (o, none)) : m.output.Change [] (m.prompted o) := by
  unfold prompted
  split
  · exact .prompt h
  · have := Output.Change.flush m.output
    rwa [h] at this

theorem change_next (h : m.step = .next m') : m.output.Change m.putHere m'.output := by
  obtain ⟨i, hi, hexecute⟩ := exists_instr?_of_next h
  unfold putHere
  by_cases hputc : i = .putc
  · subst hputc
    rw [if_pos hi]
    exact .put (execute_putc_next hexecute).1
  · rw [if_neg (by rw [hi]; exact fun heq => hputc (Option.some.inj heq))]
    by_cases hgetc : i = .getc
    · subst hgetc
      obtain ⟨_, output, _, _, _, -, hflush, -, houtput, -⟩ := execute_getc_next hexecute
      rw [houtput]
      exact change_prompted hflush
    · by_cases hopen : i = .openInput
      · subst hopen
        cases hexecute
        exact .keep _
      · rw [(execute_plain hopen hgetc hputc hexecute).2.2]
        exact .keep _

theorem change_stop (h : m.step = .stop m' why) : m.output.Change [] m'.output := by
  rcases step_stop_cases h with rfl | ⟨i, -, hexecute⟩
  · exact .keep _
  · rcases execute_stop_output hexecute with hsame | ⟨e, hput⟩ | ⟨e, hflush⟩ | ⟨output, hflush, houtput⟩
    · rw [hsame]
      exact .keep _
    · exact .refuse hput
    · have := Output.Change.flush m.output
      rwa [hflush] at this
    · rw [houtput]
      exact change_prompted hflush

theorem exec_holds (h : m.output.Holds limit sent) (n : Nat) :
    (m.exec n).1.output.Holds limit (sent ++ m.putOut n) := by
  have hstep : ∀ (past : List Machine) (u u' : Machine), u.output.Holds limit (sent ++ past.flatMap putHere) →
      u.step = .next u' → u'.output.Holds limit (sent ++ (past ++ [u]).flatMap putHere) := by
    intro past u u' hu hs
    rw [List.flatMap_append, List.flatMap_singleton, ← List.append_assoc]
    exact (change_next hs).holds hu
  rcases exec_trail hstep [] (by simpa using h) n with ⟨m', hexec, hm⟩ | ⟨u, m', why, hexec, hs, hu⟩
  · rw [hexec]
    exact hm
  · rw [hexec]
    have := (change_stop hs).holds hu
    rwa [List.append_nil] at this

theorem finish_output (m : Machine) (why : Stop) : (m.finish why).1.output = m.output.flush.1 :=
  rfl

theorem finish_ne_halted (h : m.output.flush.2 ≠ none) (why : Stop) : (m.finish why).2 ≠ .halted := by
  obtain ⟨e, he⟩ := Option.ne_none_iff_exists'.mp h
  cases why <;> simp [finish, he]

theorem finish_cases (m : Machine) (why : Stop) :
    (∃ f, why = .fault f ∧ (m.finish why).2 = .fault f) ∨
    (why = .halted ∧ (m.finish why).2 = .halted) ∨
    (why = .halted ∧ (∃ e, (m.finish why).2 = .flushFailed e) ∧ (m.finish why).1.output.broken = true) := by
  cases why with
  | fault f => exact Or.inl ⟨f, rfl, rfl⟩
  | halted =>
    rcases m.output.flush_empties with ⟨hok, -, -⟩ | ⟨e, he, hbroken⟩
    · exact Or.inr (Or.inl ⟨rfl, by simp only [finish, hok]⟩)
    · exact Or.inr (Or.inr ⟨rfl, ⟨e, by simp only [finish, he]⟩, hbroken⟩)

theorem fault_of_finish {f : Fault} {why : Stop} (h : m.finish why = (m', .fault f)) : why = .fault f := by
  rcases m.finish_cases why with ⟨f', rfl, houtcome⟩ | ⟨-, houtcome⟩ | ⟨-, ⟨e, houtcome⟩, -⟩
  · rw [h] at houtcome
    cases houtcome
    rfl
  · rw [h] at houtcome
    cases houtcome
  · rw [h] at houtcome
    cases houtcome

theorem run_holds (h : m.output.Holds limit sent) (n : Nat) : (m.run n).1.output.Holds limit (sent ++ m.putOut n) := by
  have hexec := exec_holds h n
  rcases hn : m.exec n with ⟨m', _ | why⟩
  · rw [hn] at hexec
    rwa [run_of_exec_none hn]
  · rw [hn] at hexec
    rw [run_of_exec_stop hn, finish_output]
    exact hexec.flush

theorem Session.holds (hstart : start.output.Holds limit []) (h : Session start m sent) : m.output.Holds limit sent := by
  obtain ⟨past, htraced, rfl⟩ := h
  induction htraced with
  | start => exact hstart
  | run _ fuel ih =>
    rw [List.flatMap_append]
    exact run_holds ih fuel

/-- Behind a run that returns, the device has taken as much as it takes, and a halt means that this is everything. -/
theorem run_returns {n : Nat} {outcome : Outcome} (h : m.output.Holds limit sent) (hrun : m.run n = (m', some outcome)) :
    m'.output.sink.taken.toList = (sent ++ m.putOut n).take (limit.getD (sent ++ m.putOut n).length) ∧
      (outcome = .halted → m'.output.sink.taken.toList = sent ++ m.putOut n) := by
  have hexec := exec_holds h n
  rcases hn : m.exec n with ⟨u, _ | why⟩
  · rw [run_of_exec_none hn] at hrun
    cases hrun
  · rw [run_of_exec_stop hn] at hrun
    rw [hn] at hexec
    cases hrun
    refine ⟨hexec.taken_flush, fun hhalted => ?_⟩
    rcases u.output.flush_empties with ⟨-, hempty, -⟩ | ⟨e, herror, -⟩
    · exact hexec.flush.taken_of_empty hempty
    · exact absurd hhalted (finish_ne_halted (by simp [herror]) why)

theorem run_one_prompt (h : m.output.Holds limit sent) {i : Nat} (hold : m.output.log.size ≤ i)
    (hi : (m.run 1).1.output.log.toList[i]? = some .prompt) :
    Event.written ((m.run 1).1.output.log.toList.take i) = sent := by
  obtain ⟨k, rfl⟩ : ∃ k, i = m.output.log.toList.length + k := ⟨i - m.output.log.size, by simp; omega⟩
  rcases hs : m.step with m' | ⟨m', why⟩
  · obtain ⟨events, hlog, hprompt⟩ := (change_next hs).prompt_last h
    rw [run_of_exec_none (exec_next hs 0), hlog] at hi ⊢
    rw [List.getElem?_append_right (Nat.le_add_right _ _), Nat.add_sub_cancel_left] at hi
    rw [List.take_length_add_append]
    exact hprompt k hi
  · obtain ⟨events, hlog, hprompt⟩ := (change_stop hs).prompt_last h
    obtain ⟨last, hlast, hnew⟩ := m'.output.flush_log
    rw [run_of_exec_stop (exec_stop hs 0), finish_output, hlast, hlog, List.append_assoc] at hi ⊢
    rw [List.getElem?_append_right (Nat.le_add_right _ _), Nat.add_sub_cancel_left] at hi
    rw [List.take_length_add_append]
    -- The last flush shows no prompt, so it is one of the instruction.
    rcases Nat.lt_or_ge k events.length with hk | hk
    · rw [List.getElem?_append_left hk] at hi
      rw [List.take_append_of_le_length (Nat.le_of_lt hk)]
      exact hprompt k hi
    · rw [List.getElem?_append_right hk] at hi
      exact absurd (List.mem_of_getElem? hi) hnew

end Runs

end Machine

/-- Output is neither lost, duplicated nor reordered, and a loss is never silent. Whatever runs a machine has behind it,
when a run returns the device has taken the bytes put out up to its limit, as the log says, and if these are not all the
run does not report a halt. Whenever an instruction shows a prompt, all bytes put out before have been taken. -/
theorem output_delivered {code : Array UInt8} {source : Source} {limit : Option Nat} {refusal : DeviceError}
    {prompting : Bool} {m : Machine} {sent : List UInt8}
    (h : (Machine.fresh code source { room := limit, refusal } prompting).Session m sent) :
    (∀ fuel m' outcome, m.run fuel = (m', some outcome) →
      m'.output.sink.taken.toList = (sent ++ m.putOut fuel).take (limit.getD (sent ++ m.putOut fuel).length) ∧
      Event.written m'.output.log.toList = m'.output.sink.taken.toList ∧
      (m'.output.sink.taken.size < (sent ++ m.putOut fuel).length → outcome ≠ .halted)) ∧
    ∀ i, m.output.log.size ≤ i → (m.run 1).1.output.log.toList[i]? = some .prompt →
      Event.written ((m.run 1).1.output.log.toList.take i) = sent := by
  have hfresh : (Machine.fresh code source { room := limit, refusal } prompting).output.Holds limit [] := by
    refine ⟨rfl, ?_, fun n _ => Nat.zero_le n, fun hbroken => (by cases hbroken), rfl⟩
    cases limit <;> rfl
  have hholds := h.holds hfresh
  refine ⟨fun fuel m' outcome hrun => ?_, fun i hold hi => Machine.run_one_prompt hholds hold hi⟩
  obtain ⟨htaken, hhalted⟩ := Machine.run_returns hholds hrun
  have hlog := (Machine.run_holds hholds fuel).log
  rw [hrun] at hlog
  refine ⟨htaken, hlog, fun hfewer heq => ?_⟩
  rw [← Array.length_toList, hhalted heq] at hfewer
  exact absurd hfewer (Nat.lt_irrefl _)

/-- A program that puts out a letter, reads a word behind a prompt and puts out its first letter, on a device that takes
one byte. -/
theorem second_letter_refused :
    let code : Array UInt8 := #[0x03, 0x06, 0x41, 0, 0, 0, 0x0E, 0x0D, 0x0E, 0x00]
    let start := Machine.fresh code ⟨[[0x62, 0x20]], none⟩ { room := some 1 } true
    start.putOut 6 = [0x41, 0x62] ∧ (start.run 6).2 = some (.flushFailed ⟨"no room"⟩) ∧
      (start.run 6).1.output.sink.taken.toList = [0x41] ∧
      ((start.run 3).1.run 1).1.output.log.toList[1]? = some .prompt ∧
      Event.written (((start.run 3).1.run 1).1.output.log.toList.take 1) = [0x41] := by
  intro code start
  have hput : start.putOut 6 = [0x41, 0x62] := by decide +kernel
  have hreturned : (start.run 6).2 = some (.flushFailed ⟨"no room"⟩) := by decide +kernel
  have hprompt : ((start.run 3).1.run 1).1.output.log.toList[1]? = some .prompt := by decide +kernel
  have hsent : start.putOut 3 = [0x41] := by decide +kernel
  have hold : (start.run 3).1.output.log.size ≤ 1 := by decide +kernel
  have hrun : start.run 6 = ((start.run 6).1, some (.flushFailed ⟨"no room"⟩)) := by rw [← hreturned]
  have hbegun : start.Session start [] := ⟨[], .start, rfl⟩
  have hletter : start.Session (start.run 3).1 (start.putOut 3) := ⟨_, Machine.Traced.start.run 3, rfl⟩
  obtain ⟨hreturns, -⟩ := output_delivered hbegun
  obtain ⟨-, hprompts⟩ := output_delivered hletter
  obtain ⟨htaken, -, -⟩ := hreturns 6 _ _ hrun
  have hwritten := hprompts 1 hold hprompt
  rw [hput] at htaken
  rw [hsent] at hwritten
  exact ⟨hput, hreturned, htaken, hprompt, hwritten⟩

end TapeCode
