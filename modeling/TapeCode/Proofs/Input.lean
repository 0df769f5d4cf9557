import TapeCode.Proofs.Delivery
import TapeCode.Proofs.Reading

/-!
What programs read. Behind an `OPEN` the `GETC` instructions of an execution take the words of the whole source one
after the other. Compiled programs open the input once, before they read.
-/

namespace TapeCode

open Layout Assembler Translation

/-- The words of everything still to come. -/
def Source.words (s : Source) : List Text.Word :=
  Text.words (Text.characters s.bytes)

namespace Machine

/-- How often an instruction was executed on a trail. -/
def executed (i : Instr) (past : List Machine) : Nat :=
  past.countP (·.instr? = some i)

section Input
variable {m m' : Machine} {i j : Instr} {past : List Machine} {source : Source}

theorem executed_snoc (hm : m.instr? = some i) (j : Instr) (past : List Machine) :
    executed j (past ++ [m]) = executed j past + if i = j then 1 else 0 := by
  rw [executed, List.countP_append, List.countP_singleton, hm]
  simp [executed]

theorem executed_other (hm : m.instr? = some i) (hne : i ≠ j) (past : List Machine) :
    executed j (past ++ [m]) = executed j past := by
  rw [executed_snoc hm, if_neg hne, Nat.add_zero]

theorem executed_same (hm : m.instr? = some i) (past : List Machine) :
    executed i (past ++ [m]) = executed i past + 1 := by
  rw [executed_snoc hm, if_pos rfl]

/-- An open input from which some words were taken. They fitted, and the others are still to come. -/
structure Taken (source : Source) (count : Nat) (m : Machine) : Prop where
  words : ∃ r, m.words = some r ∧ r.Unread m.source (source.words.drop count)
  failure : m.source.failure = source.failure
  enough : count ≤ source.words.length
  fits : ∀ w ∈ source.words.take count, w.need ≤ WordReader.maxCapacity

/-- A machine that opened its input at most once has taken a word for every `GETC`. -/
structure Follows (source : Source) (past : List Machine) (m : Machine) : Prop where
  closed : executed .openInput past = 0 → m.words = none ∧ m.source = source ∧ executed .getc past = 0
  opened : executed .openInput past = 1 → m.Taken source (executed .getc past)

theorem Follows.keep (h : Follows source past m) (hm : m.instr? = some i) (hopen : i ≠ .openInput) (hgetc : i ≠ .getc)
    (hwords : m'.words = m.words) (hsource : m'.source = m.source) : Follows source (past ++ [m]) m' := by
  refine ⟨fun hzero => ?_, fun hone => ?_⟩
  · rw [executed_other hm hopen] at hzero
    rw [executed_other hm hgetc, hwords, hsource]
    exact h.closed hzero
  · rw [executed_other hm hopen] at hone
    rw [executed_other hm hgetc]
    obtain ⟨hunread, hfailure, henough, hfits⟩ := h.opened hone
    exact ⟨by rwa [hwords, hsource], by rwa [hsource], henough, hfits⟩

theorem Follows.open (h : Follows source past m) (hm : m.instr? = some .openInput) (hwords : m'.words = some {})
    (hsource : m'.source = m.source) : Follows source (past ++ [m]) m' := by
  have hopen := executed_same hm past
  refine ⟨fun hzero => by omega, fun hone => ?_⟩
  obtain ⟨-, hsame, hnone⟩ := h.closed (by omega)
  rw [executed_other hm Instr.noConfusion, hnone]
  refine ⟨⟨{}, hwords, ?_⟩, by rw [hsource, hsame], Nat.zero_le _, by simp⟩
  rw [hsource, hsame]
  exact WordReader.unread_fresh source

theorem Taken.succ {count : Nat} (h : m.Taken source count) {r r' : WordReader} {word : List UInt8} {s : Source}
    (hr : m.words = some r) (hnext : r.next m.source = (.ok word, r', s)) (hwords : m'.words = some r')
    (hsource : m'.source = s) : m'.Taken source (count + 1) := by
  obtain ⟨⟨r₀, hr₀, hunread⟩, hfailure, henough, hfits⟩ := h
  obtain rfl := Option.some.inj (hr₀.symm.trans hr)
  have hanswer := hunread.next
  rw [hnext] at hanswer
  rcases hdrop : source.words.drop count with _ | ⟨w, ws⟩
  · rw [hdrop] at hanswer
    cases hanswer
  · rw [hdrop] at hanswer
    have hlt : count < source.words.length := by
      have := congrArg List.length hdrop
      rw [List.length_drop, List.length_cons] at this
      omega
    have hw := List.drop_eq_getElem_cons hlt
    rw [hdrop] at hw
    obtain ⟨rfl, rfl⟩ := List.cons.inj hw
    cases hanswer with
    | word hneed hinitial hrest hsame =>
      refine ⟨⟨r', hwords, hsource ▸ hrest⟩, by rw [hsource, hsame, hfailure], hlt, fun w hw => ?_⟩
      rw [List.take_succ_eq_append_getElem hlt] at hw
      rcases List.mem_append.mp hw with hold | hnew
      · exact hfits w hold
      · rw [List.mem_singleton.mp hnew]
        exact hneed

theorem Follows.next (h : Follows source past m) (hs : m.step = .next m') : Follows source (past ++ [m]) m' := by
  obtain ⟨i, hi, hexecute⟩ := exists_instr?_of_next hs
  by_cases hopen : i = .openInput
  · subst hopen
    cases hexecute
    exact h.open hi rfl rfl
  · by_cases hgetc : i = .getc
    · subst hgetc
      obtain ⟨r, output, word, r', s, hr, -, hnext, -, hwords, hsource⟩ := execute_getc_next hexecute
      refine ⟨fun hzero => ?_, fun hone => ?_⟩
      · rw [executed_other hi hopen] at hzero
        rw [(h.closed hzero).1] at hr
        cases hr
      · rw [executed_other hi hopen] at hone
        rw [executed_same hi]
        exact (h.opened hone).succ hr hnext hwords hsource
    · by_cases hputc : i = .putc
      · subst hputc
        obtain ⟨-, hwords, hsource⟩ := execute_putc_next hexecute
        exact h.keep hi hopen hgetc hwords hsource
      · obtain ⟨hsource, hwords, -⟩ := execute_plain hopen hgetc hputc hexecute
        exact h.keep hi hopen hgetc hwords hsource

theorem exec_follows {code : Array UInt8} {sink : Sink} {prompting : Bool} {n : Nat}
    (hexec : (fresh code source sink prompting).exec n = (m, none)) :
    Follows source ((fresh code source sink prompting).trail n) m :=
  exec_behind (fun _ _ _ h hs => h.next hs) ⟨fun _ => ⟨rfl, rfl, rfl⟩, fun hone => by cases hone⟩ hexec

end Input

/-! ### One `GETC` -/

section Getc
variable {m m' : Machine} {source : Source} {r r' : WordReader} {s : Source} {output : Output}

theorem execute_getc_ok {word : List UInt8} (hwords : m.words = some r) (hflush : m.output.flush = (output, none))
    (hnext : r.next m.source = (.ok word, r', s)) :
    ∃ m', m.execute .getc = .next m' ∧ m'.acc = Text.initial word := by
  simp only [execute, readChar, hwords, hflush, hnext]
  exact ⟨_, rfl, rfl⟩

theorem execute_getc_error {ended : Ended} (hwords : m.words = some r) (hflush : m.output.flush = (output, none))
    (hnext : r.next m.source = (.error ended, r', s)) :
    ∃ m', m.execute .getc = .stop m' (.fault ⟨m.pc, Opcode.getc.toByte, causeOf ended⟩) := by
  simp only [execute, readChar, hwords, hflush, hnext]
  exact ⟨_, rfl⟩

/-- A `GETC` that cannot write what waits leaves a broken output. -/
theorem flush_of_getc (hm : m.instr? = some .getc) (hwords : m.words = some r)
    (hwrites : (m.run 1).1.output.broken = false) : m.output.flush.2 = none := by
  rcases m.output.flush_empties with ⟨hnone, -⟩ | ⟨e, herror, hbroken⟩
  · exact hnone
  · have hflush : m.output.flush = (m.output.flush.1, some e) := by rw [← herror]
    have hstep : m.step = .stop { m with output := m.output.flush.1 } (.fault ⟨m.pc, Opcode.getc.toByte, .device e⟩) := by
      rw [step_of_instr? hm]
      simp only [execute, readChar, hwords]
      rw [hflush]
      rfl
    rw [run_of_exec_stop (exec_stop hstep 0), finish_output] at hwrites
    -- A broken output stays as it is.
    have hsame : m.output.flush.1.flush.1 = m.output.flush.1 := by
      rw [Output.flush, if_pos hbroken]
    rw [hsame, hbroken] at hwrites
    cases hwrites

theorem causeOf_endOf (h : s.failure = source.failure) :
    causeOf (WordReader.endOf s) = source.failure.elim .noInput .device := by
  rw [WordReader.endOf, h]
  cases source.failure <;> rfl

/-- A `GETC` on an open input takes the next word, or it stops. -/
theorem Taken.getc {count : Nat} (h : m.Taken source count) (hm : m.instr? = some .getc)
    (hwrites : (m.run 1).1.output.broken = false) :
    (∀ w, source.words[count]? = some w → w.need ≤ WordReader.maxCapacity →
      ∃ m', m.run 1 = (m', none) ∧ m'.acc = w.initial) ∧
    (∀ w, source.words[count]? = some w → WordReader.maxCapacity < w.need →
      (m.run 1).2 = some (.fault ⟨m.pc, Opcode.getc.toByte, .wordTooLong⟩)) ∧
    (source.words[count]? = none →
      (m.run 1).2 = some (.fault ⟨m.pc, Opcode.getc.toByte, source.failure.elim .noInput .device⟩)) := by
  obtain ⟨r, hr, hunread⟩ := h.words
  have hflush : m.output.flush = (m.output.flush.1, none) := by rw [← flush_of_getc hm hr hwrites]
  have hstop : ∀ {ended r' s}, r.next m.source = (.error ended, r', s) →
      (m.run 1).2 = some (.fault ⟨m.pc, Opcode.getc.toByte, causeOf ended⟩) := by
    intro ended r' s hnext
    obtain ⟨m', hexecute⟩ := execute_getc_error hr hflush hnext
    rw [run_of_exec_stop (exec_stop ((step_of_instr? hm).trans hexecute) 0)]
    rfl
  have hanswer := hunread.next
  rcases hnext : r.next m.source with ⟨answer, r', s⟩
  rw [hnext] at hanswer
  rw [← List.head?_drop]
  generalize source.words.drop count = ws at hanswer
  cases hanswer with
  | word hneed hinitial hrest hsame =>
    obtain ⟨m', hexecute, hacc⟩ := execute_getc_ok hr hflush hnext
    refine ⟨?_, ?_, fun hnone => by cases hnone⟩
    · rintro _ ⟨⟩ -
      exact ⟨m', run_of_exec_none (exec_next ((step_of_instr? hm).trans hexecute) 0), hacc.trans hinitial⟩
    · rintro _ ⟨⟩ hlong
      omega
  | tooLong hneed =>
    refine ⟨?_, ?_, fun hnone => by cases hnone⟩
    · rintro _ ⟨⟩ hfits
      omega
    · rintro _ ⟨⟩ -
      exact hstop hnext
  | exhausted =>
    refine ⟨fun w hw => (by cases hw), fun w hw => (by cases hw), fun _ => ?_⟩
    rw [← causeOf_endOf h.failure]
    exact hstop hnext

end Getc

end Machine

/-! ### Opening the input -/

section Opening
open Machine
variable {ops : List Op} {code : Array UInt8} {t t' : Target} {op : Op}

theorem Target.index_touch {opcode : Opcode} {use : (cells : Array UInt8) → Fin cells.size → Target}
    (h : t.touch opcode use = .next t') (huse : ∀ cells i, (use cells i).index = t.index) : t'.index = t.index + 1 := by
  unfold Target.touch at h
  split at h
  · cases h
  · split at h
    · cases h
    · cases h
      exact congrArg (· + 1) (huse _ _)

/-- A machine goes on behind an operation, or at a mark. -/
theorem Target.index_next (hop : ops[t.index]? = some op) (h : t.step ops = .next t') :
    t'.index = t.index + 1 ∨ ∃ l, op.destination? = some l ∧ t'.index = ops.idxOf (.mark l) := by
  rw [Target.step_of_op hop] at h
  cases op with
  | alloc cells =>
    simp only [Target.perform] at h
    split at h
    · cases h
    · cases h
      exact Or.inl rfl
  | reset | openInput | add n | sub n | step d | move d | newLabel | mark l =>
    cases h
    exact Or.inl rfl
  | load | store => exact Or.inl (Target.index_touch h fun _ _ => rfl)
  | jump l =>
    cases h
    exact Or.inr ⟨l, rfl, rfl⟩
  | jumpIfZero l =>
    simp only [Target.perform] at h
    split at h
    · cases h
      exact Or.inr ⟨l, rfl, rfl⟩
    · cases h
      exact Or.inl rfl
  | getc =>
    simp only [Target.perform, Target.readChar] at h
    split at h
    · cases h
    · split at h
      · cases h
      · split at h
        · cases h
          exact Or.inl rfl
        · cases h
  | putc =>
    simp only [Target.perform, Target.writeChar] at h
    split at h
    · cases h
    · cases h
      exact Or.inl rfl
  | halt => cases h

/-- A machine with the code of some operations has opened its input once it is behind the opening, and not before. -/
def Machine.Begun (ops : List Op) (code : Array UInt8) (past : List Machine) (m : Machine) : Prop :=
  ∃ t : Target, m = t.onCode ops code ∧ executed .openInput past = if t.index < 3 then 0 else 1

theorem Target.instr?_onCode {i : Instr} (linked : Linked ops code) (hop : ops[t.index]? = some op)
    (hi : op.instr? (fun l => UInt32.ofNat (labelAddress ops l)) = some i) : (t.onCode ops code).instr? = some i := by
  have hdecode : Instr.decodeAt (t.onCode ops code).code (t.onCode ops code).pc = .ok i :=
    decodeAt_image linked.code hop hi
  rw [instr?, hdecode]

theorem prepares_of_openInput {address : Int → UInt32} (hi : op.instr? address = some .openInput) : op.prepares = true := by
  cases op with
  | openInput => rfl
  | step d =>
    simp only [Op.instr?] at hi
    split at hi <;> cases hi
  | _ => cases hi

/-- Marks stand behind the opening. -/
theorem le_idxOf_mark (text : List UInt8) (l : Int) : 3 ≤ (program text).idxOf (.mark l) := by
  have hopening : Op.mark l ∉ Compilation.opening.toList := by simp [Compilation.opening]
  rw [program, operations, List.idxOf_append, if_neg hopening]
  exact Nat.le_add_left _ _

/-- A step that executes an instruction counts the `OPEN` of the opening, and no other. -/
theorem begun_instruction {i : Instr} {past : List Machine} {text : List UInt8} (linked : Linked (program text) code)
    (hop : (program text)[t.index]? = some op)
    (hi : op.instr? (fun l => UInt32.ofNat (labelAddress (program text) l)) = some i)
    (hcount : executed .openInput past = if t.index < 3 then 0 else 1) (hs : t.step (program text) = .next t') :
    executed .openInput (past ++ [t.onCode (program text) code]) = if t'.index < 3 then 0 else 1 := by
  have hm := Target.instr?_onCode linked hop hi
  have hindex := Target.index_next hop hs
  have hnext (hnone : op.destination? = none) : t'.index = t.index + 1 := by
    simpa [hnone] using hindex
  rw [executed_snoc hm, hcount]
  rcases opening_cases rfl hop with ⟨hk, rfl⟩ | ⟨hk, rfl⟩ | ⟨hk, rfl⟩ | hk
  · obtain rfl := Option.some.inj hi
    rw [hnext rfl, hk]
    rfl
  · obtain rfl := Option.some.inj hi
    rw [hnext rfl, hk]
    rfl
  · obtain rfl := Option.some.inj hi
    rw [hnext rfl, hk]
    rfl
  · have hother : i ≠ .openInput := by
      rintro rfl
      cases (prepares_of_openInput hi).symm.trans (prepares_program hop hk)
    have hlate : 3 ≤ t'.index := by
      rcases hindex with hnext | ⟨l, -, hjump⟩
      · omega
      · rw [hjump]
        exact le_idxOf_mark text l
    rw [if_neg (by omega), if_neg hother, if_neg (by omega)]

theorem Machine.Begun.next {m m' : Machine} {past : List Machine} {text : List UInt8} (linked : Linked (program text) code)
    (short : code.size < 4294967296) (h : Begun (program text) code past m) (hs : m.step = .next m') :
    Begun (program text) code (past ++ [m]) m' := by
  obtain ⟨t, rfl, hcount⟩ := h
  have hlabel : ∀ (t u : Target) (op : Op), (executed .openInput past = if t.index < 3 then 0 else 1) →
      (program text)[t.index]? = some op → op.instr? (fun l => UInt32.ofNat (labelAddress (program text) l)) = none →
      t.step (program text) = .next u → u.index = t.index + 1 →
      executed .openInput past = if u.index < 3 then 0 else 1 := by
    -- Labels stand behind the opening.
    intro t u op hcount hop hi _ hindex
    have hlate : 3 ≤ t.index := by
      rcases opening_cases rfl hop with ⟨-, rfl⟩ | ⟨-, rfl⟩ | ⟨-, rfl⟩ | hk
      · cases hi
      · cases hi
      · cases hi
      · exact hk
    rw [hcount, if_neg (by omega), if_neg (by omega)]
  obtain ⟨u, u', op, i, hu, hsame, hop, hi, hstep, rfl⟩ := exists_instruction linked short hlabel hcount hs
  rw [← hsame]
  exact ⟨u', rfl, begun_instruction linked hop hi hu hstep⟩

/-- A program that is built executes `OPEN` once before it comes to a `GETC`. -/
theorem Machine.opened_of_build {text : List UInt8} {p : Program} (hbuild : build text = .ok p)
    (short : p.code.size < 4294967296) {source : Source} {sink : Sink} {prompting : Bool} {n : Nat} {m : Machine}
    (hexec : (fresh p.code source sink prompting).exec n = (m, none)) (hm : m.instr? = some .getc) :
    executed .openInput ((fresh p.code source sink prompting).trail n) = 1 := by
  have linked := (build_linked hbuild).2
  obtain ⟨t, rfl, hcount⟩ := exec_behind (fun _ _ _ h hs => Begun.next linked short h hs)
    ⟨Target.fresh source sink prompting, rfl, rfl⟩ hexec
  have hlate : ¬t.index < 3 := by
    intro hlt
    obtain ⟨op, hop⟩ : ∃ op, (program text)[t.index]? = some op := by
      refine ⟨_, List.getElem?_eq_getElem ?_⟩
      rw [program, operations, List.length_append]
      exact Nat.lt_of_lt_of_le hlt (Nat.le_add_right 3 _)
    rcases opening_cases rfl hop with ⟨-, rfl⟩ | ⟨-, rfl⟩ | ⟨-, rfl⟩ | hk
    · rw [Target.instr?_onCode linked hop rfl] at hm
      cases hm
    · rw [Target.instr?_onCode linked hop rfl] at hm
      cases hm
    · rw [Target.instr?_onCode linked hop rfl] at hm
      cases hm
    · omega
  exact hcount.trans (if_neg hlate)

end Opening

/-- A device without a limit never refuses a write. -/
theorem Machine.run_not_broken (code : Array UInt8) (source : Source) (refusal : DeviceError) (prompting : Bool) (n : Nat) :
    ((fresh code source { refusal } prompting).run n).1.output.broken = false := by
  have hfresh : (fresh code source { refusal } prompting).output.Holds none [] :=
    ⟨rfl, rfl, fun n hn => (by cases hn), fun hbroken => (by cases hbroken), rfl⟩
  refine Bool.eq_false_iff.mpr fun hbroken => ?_
  cases ((run_holds hfresh n).broken hbroken).1

/-- Input is read word by word, whatever the chunks of the source and the buffers are. An execution that has opened its
input once (as every program that is built does) comes to a `GETC`, and no write fails. The source is read as UTF-8, and
its words are the maximal runs of characters that are not white space. Every `GETC` before has taken one word, which
fitted into the buffer with the white space behind it. This one takes the next word and keeps the low eight bits of its
first character. If the word does not fit, or there is none, the machine stops with a fault. -/
theorem getc_reads_next_word {code : Array UInt8} {source : Source} {sink : Sink} {prompting : Bool} {n : Nat} {m : Machine}
    (hrun : (Machine.fresh code source sink prompting).run n = (m, none)) (hgetc : m.instr? = some .getc)
    (hopen : Machine.executed .openInput ((Machine.fresh code source sink prompting).trail n) = 1 ∨
      ∃ text p, build text = .ok p ∧ p.code.size < 4294967296 ∧ code = p.code)
    (hwrites : ((Machine.fresh code source sink prompting).run (n + 1)).1.output.broken = false) :
    let start := Machine.fresh code source sink prompting
    let count := Machine.executed .getc (start.trail n)
    Text.Reads source.bytes (Text.characters source.bytes) ∧
    count ≤ source.words.length ∧ (∀ w ∈ source.words.take count, w.need ≤ 65536) ∧
    (∀ w, source.words[count]? = some w → w.need ≤ 65536 →
      ∃ m', start.run (n + 1) = (m', none) ∧ m'.acc = w.initial) ∧
    (∀ w, source.words[count]? = some w → 65536 < w.need →
      (start.run (n + 1)).2 = some (.fault ⟨m.pc, Opcode.getc.toByte, .wordTooLong⟩) ∧
      Cause.wordTooLong.message = "bufio.Scanner: token too long") ∧
    (source.words[count]? = none →
      (start.run (n + 1)).2 = some (.fault ⟨m.pc, Opcode.getc.toByte, source.failure.elim .noInput .device⟩)) := by
  intro start count
  have hexec : start.exec n = (m, none) := Machine.exec_none_of_run hrun
  have hopened : Machine.executed .openInput (start.trail n) = 1 := by
    rcases hopen with hone | ⟨text, p, hbuild, short, rfl⟩
    · exact hone
    · exact Machine.opened_of_build hbuild short hexec hgetc
  have htaken := (Machine.exec_follows hexec).opened hopened
  have hnext : start.run (n + 1) = m.run 1 := Machine.run_succ hexec
  rw [hnext] at hwrites ⊢
  obtain ⟨hword, hlong, hover⟩ := htaken.getc hgetc hwrites
  exact ⟨Text.reads_characters source.bytes, htaken.enough, htaken.fits, hword,
    fun w hw hneed => ⟨hlong w hw hneed, rfl⟩, hover⟩

/-- A program that reads two words. The chunks divide the white space before both and the first letter of the second. -/
theorem second_word_across_chunks :
    let source : Source := ⟨[[0xE2, 0x80], [0x83, 0x61, 0xE2], [0x80, 0x83, 0xC5], [0x81, 0x7A]], none⟩
    let start := Machine.fresh #[0x03, 0x0D, 0x0D] source {} false
    (start.run 2).2 = none ∧ Machine.executed .getc (start.trail 2) = 1 ∧
      ∃ m', start.run 3 = (m', none) ∧ m'.acc = 0x41 := by
  intro source start
  have hgoes : (start.run 2).2 = none := by decide +kernel
  have hrun : start.run 2 = ((start.run 2).1, none) := by rw [← hgoes]
  have hgetc : (start.run 2).1.instr? = some .getc := by decide +kernel
  have hopen : Machine.executed .openInput (start.trail 2) = 1 := by decide +kernel
  have hcount : Machine.executed .getc (start.trail 2) = 1 := by decide +kernel
  have hwords : source.words[Machine.executed .getc (start.trail 2)]? = some ⟨⟨0x141, 2⟩, [⟨0x7A, 1⟩], none⟩ := by
    rw [hcount]
    decide +kernel
  have hwrites := Machine.run_not_broken #[0x03, 0x0D, 0x0D] source ⟨"no room"⟩ false 3
  obtain ⟨-, -, -, hword, -⟩ := getc_reads_next_word hrun hgetc (Or.inl hopen) hwrites
  obtain ⟨m', hm', hacc⟩ := hword _ hwords (by decide)
  exact ⟨hgoes, hcount, m', hm', hacc⟩

end TapeCode
