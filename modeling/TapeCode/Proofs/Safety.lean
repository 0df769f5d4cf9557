import TapeCode.Proofs.Lockstep
import TapeCode.Proofs.Sweep
import TapeCode.Proofs.Translation

/-!
Compiled programs never break the machine. Every state that a machine comes to with the code of a program stands on an
instruction of that code, whatever its devices do and however often it is run. Faults come from the pointer, the input
and the output only.
-/

namespace TapeCode

open Layout Assembler Translation

/-! ### Devices -/

namespace Output

theorem flush_refusal (o : Output) :
    o.flush.1.sink.refusal = o.sink.refusal ∧ ∀ e, o.flush.2 = some e → e = o.sink.refusal := by
  unfold flush
  split
  · exact ⟨rfl, fun e he => (Option.some.inj he).symm⟩
  · split
    · exact ⟨rfl, fun e he => by cases he⟩
    · by_cases hrefuses : o.sink.refuses o.buffer.toList
      · simp only [Sink.write, hrefuses, ↓reduceIte]
        exact ⟨rfl, fun e he => (Option.some.inj he).symm⟩
      · simp only [Sink.write, hrefuses, Bool.false_eq_true, ↓reduceIte]
        exact ⟨rfl, fun e he => by cases he⟩

theorem put_refusal (o : Output) (b : UInt8) :
    (o.put b).1.sink.refusal = o.sink.refusal ∧ ∀ e, (o.put b).2 = some e → e = o.sink.refusal := by
  obtain ⟨hsink, herror⟩ := o.flush_refusal
  unfold put
  split
  · exact ⟨rfl, fun e he => (Option.some.inj he).symm⟩
  · split
    · exact ⟨rfl, fun e he => by cases he⟩
    · rcases hflush : o.flush with ⟨o', _ | e⟩
      · rw [hflush] at hsink
        exact ⟨hsink, fun e he => by cases he⟩
      · rw [hflush] at hsink herror
        exact ⟨hsink, fun e' he => herror e' he⟩

end Output

namespace WordReader

/-- Words end with a failing device only where the source fails. -/
def Blames (failure : Option DeviceError) (ended : Option Ended) : Prop :=
  ∀ e, ended = some (.device e) → failure = some e

theorem blames_endOf (source : Source) : Blames source.failure (some (endOf source)) := by
  intro e he
  unfold endOf at he
  split at he
  · cases he
  · next hfailure =>
    rw [hfailure]
    cases he
    rfl

theorem makeRoom_ended {r r' : WordReader} (h : r.makeRoom = some r') : r'.ended = r.ended := by
  have hcompact : r.compact.ended = r.ended := by
    unfold compact
    split <;> rfl
  simp only [makeRoom] at h
  split at h
  · cases h
    exact hcompact
  · split at h
    · cases h
      exact hcompact
    · cases h

theorem lastWord_ended (r : WordReader) (ended : Ended) :
    (r.lastWord ended).2.ended = some ended ∧ ∀ e, (r.lastWord ended).1 = .error e → e = ended := by
  simp only [lastWord]
  split
  · exact ⟨rfl, fun e he => by cases he⟩
  · split
    · exact ⟨rfl, fun e he => (Except.error.inj he).symm⟩
    · exact ⟨rfl, fun e he => by cases he⟩

theorem read_failure {source rest : Source} {limit : Nat} {bytes : List UInt8}
    (h : source.read limit = some (bytes, rest)) : rest.failure = source.failure := by
  obtain ⟨⟨taken, chunks⟩, -, heq⟩ := Option.map_eq_some_iff.mp h
  obtain ⟨-, rfl⟩ := Prod.mk.inj heq
  rfl

/-- Looking for a word keeps the source as it fails, and ends with its failure if with that of a device. -/
structure Faithful (failure : Option DeviceError) (found : Except Ended (List UInt8) × WordReader × Source) : Prop where
  source : found.2.2.failure = failure
  reader : Blames failure found.2.1.ended
  word : ∀ ended, found.1 = .error ended → Blames failure (some ended)

theorem lastWord_faithful {r : WordReader} {ended : Ended} {source : Source}
    (h : Blames source.failure (some ended)) :
    Faithful source.failure ((r.lastWord ended).1, (r.lastWord ended).2, source) := by
  obtain ⟨hreader, hword⟩ := r.lastWord_ended ended
  exact ⟨rfl, hreader ▸ h, fun e he => hword e he ▸ h⟩

theorem seek_faithful (r : WordReader) (source : Source) (h : Blames source.failure r.ended) :
    Faithful source.failure (r.seek source) := by
  fun_induction seek r source with
  | case1 r source word rest hcut => exact ⟨rfl, h, fun ended he => by cases he⟩
  | case2 r source hcut trimmed hroom =>
    have htoo : Blames source.failure (some .wordTooLong) := fun e he => by cases he
    exact ⟨rfl, htoo, fun ended he => Except.error.inj he ▸ htoo⟩
  | case3 r source hcut trimmed r' hroom bytes rest hread ih =>
    rw [← read_failure hread] at h ⊢
    exact ih (makeRoom_ended hroom ▸ h)
  | case4 r source hcut trimmed r' hroom hread word last hlast =>
    have := lastWord_faithful (r := r') (blames_endOf source)
    rwa [hlast] at this

theorem next_faithful (r : WordReader) (source : Source) (h : Blames source.failure r.ended) :
    Faithful source.failure (r.next source) := by
  unfold next
  split
  · exact r.seek_faithful source h
  · next ended hended => exact lastWord_faithful (hended ▸ h)

end WordReader

/-! ### The shape of programs -/

/-- The operations that prepare a machine. -/
def Op.prepares : Op → Bool
  | alloc _ | reset | openInput => true
  | _ => false

theorem prepares_block (fresh : Nat → Int) (gs : List Group) (k : Nat) (g : Group) :
    ∀ op ∈ blockOf fresh gs k g, op.prepares = false := by
  obtain ⟨kind, count⟩ := g
  cases kind with
  | moveForward | moveBackward =>
    simp only [blockOf, Compilation.moveOp]
    split <;> simp [Op.prepares]
  | loopEnd =>
    simp only [blockOf]
    split <;> simp [Op.prepares]
  | _ => simp [blockOf, Op.prepares]

theorem prepares_body (fresh : Nat → Int) (gs : List Group) (n : Nat) : ∀ op ∈ body fresh gs n, op.prepares = false := by
  intro op hmem
  obtain ⟨k, -, hmem⟩ := List.mem_flatMap.mp hmem
  rcases hg : gs[k]? with _ | g
  · rw [block, hg] at hmem
    cases hmem
  · rw [block_eq fresh hg] at hmem
    exact prepares_block fresh gs k g op hmem

theorem exists_last_run (text : List UInt8) : ∃ n count, (runs text).length = n + 1 ∧
    (runs text)[n]? = some ⟨.endMark, count⟩ := by
  have hflat := Group.flatMap_fold (text.filterMap Kind.ofByte? ++ [.endMark])
  rcases hn : (runs text).length with _ | n
  · rw [← runs, List.length_eq_zero_iff.mp hn] at hflat
    simp at hflat
  · obtain ⟨g, hg⟩ : ∃ g, (runs text)[n]? = some g := ⟨_, List.getElem?_eq_getElem (by omega)⟩
    have hpos := (Group.proper_fold _ g (List.mem_of_getElem? hg)).pos
    have hlast := Group.getElem?_offset hg (Nat.sub_lt hpos Nat.one_pos)
    have hlength : Group.offset (runs text) n + (g.count - 1) = (text.filterMap Kind.ofByte?).length := by
      have hsucc := Group.offset_succ hg
      rw [Group.offset, ← hn, List.take_length, runs, hflat, List.length_append, List.length_singleton, ← runs] at hsucc
      omega
    rw [hlength, runs, hflat, List.getElem?_concat_length] at hlast
    obtain ⟨kind, count⟩ := g
    obtain rfl := Option.some.inj hlast
    exact ⟨n, count, rfl, hg⟩

theorem opening_cases {ops : List Op} {k : Nat} {op : Op} (h : ops.take 3 = Compilation.opening.toList)
    (hop : ops[k]? = some op) :
    k = 0 ∧ op = .alloc 30000 ∨ k = 1 ∧ op = .reset ∨ k = 2 ∧ op = .openInput ∨ 3 ≤ k := by
  rcases Nat.lt_or_ge k 3 with hk | hk
  · have hget : Compilation.opening.toList[k]? = some op := by
      rw [← h, List.getElem?_take_of_lt hk, hop]
    match k, hget with
    | 0, hget => exact Or.inl ⟨rfl, (Option.some.inj hget).symm⟩
    | 1, hget => exact Or.inr (Or.inl ⟨rfl, (Option.some.inj hget).symm⟩)
    | 2, hget => exact Or.inr (Or.inr (Or.inl ⟨rfl, (Option.some.inj hget).symm⟩))
  · exact Or.inr (Or.inr (Or.inr hk))

/-- The operations of a program start with the opening, provide cells nowhere else, and go on behind every operation
but the last one, which is a halt. -/
structure Shaped (ops : List Op) : Prop where
  opening : ops.take 3 = Compilation.opening.toList
  alloc : ∀ {k : Nat} {cells : Int}, ops[k]? = some (.alloc cells) → k = 0
  last : ∀ {k : Nat} {op : Op}, ops[k]? = some op → op ≠ .halt → k + 1 < ops.length

theorem prepares_program {text : List UInt8} {k : Nat} {op : Op} (hop : (program text)[k]? = some op) (hk : 3 ≤ k) :
    op.prepares = false := by
  rw [program, operations, List.getElem?_append_right hk] at hop
  exact prepares_body _ _ _ op (List.mem_of_getElem? hop)

theorem program_shaped (text : List UInt8) : Shaped (program text) := by
  refine ⟨rfl, fun {k cells} hop => ?_, fun {k op} hop hne => ?_⟩
  · rcases opening_cases rfl hop with ⟨rfl, -⟩ | ⟨-, hne⟩ | ⟨-, hne⟩ | hk
    · rfl
    · cases hne
    · cases hne
    · cases prepares_program hop hk
  · obtain ⟨n, count, hn, hg⟩ := exists_last_run text
    have hsplit : program text = (Compilation.opening.toList ++ body newLabel (runs text) n) ++ [.halt] := by
      rw [program, operations, hn, body_succ, block_eq newLabel hg, List.append_assoc]
      rfl
    have hk := (List.getElem?_eq_some_iff.mp hop).1
    refine Nat.lt_of_le_of_ne hk fun hlast => hne ?_
    rw [hsplit] at hop hlast
    rw [List.length_append, List.length_singleton] at hlast
    rw [Nat.succ.inj hlast, List.getElem?_concat_length] at hop
    exact (Option.some.inj hop).symm

/-! ### Sound states -/

/-- The causes of faults of compiled programs, and the instructions they occur at. -/
inductive Cause.ExpectedAt (failure : Option DeviceError) (refusal : DeviceError) : Opcode → Cause → Prop where
  | load (pointer : Int) (cells : Nat) : ExpectedAt failure refusal .load (.pointerRange pointer cells)
  | store (pointer : Int) (cells : Nat) : ExpectedAt failure refusal .store (.pointerRange pointer cells)
  | noInput : ExpectedAt failure refusal .getc .noInput
  | wordTooLong : ExpectedAt failure refusal .getc .wordTooLong
  | reader {e : DeviceError} (h : failure = some e) : ExpectedAt failure refusal .getc (.device e)
  | writerAtGetc : ExpectedAt failure refusal .getc (.device refusal)
  | writerAtPutc : ExpectedAt failure refusal .putc (.device refusal)

theorem Cause.ExpectedAt.harmless {failure : Option DeviceError} {refusal : DeviceError} {opcode : Opcode}
    {cause : Cause} (h : ExpectedAt failure refusal opcode cause) :
    cause ≠ .badOpcode ∧ cause ≠ .truncated ∧ cause ≠ .inputClosed ∧ cause ≠ .noMemory := by
  cases h <;> exact ⟨Cause.noConfusion, Cause.noConfusion, Cause.noConfusion, Cause.noConfusion⟩

/-- A state over operations that stands on one of them. It has cells and words as soon as the opening has provided
them, and its devices fail as they did at first. -/
structure Target.Sound (ops : List Op) (failure : Option DeviceError) (refusal : DeviceError) (t : Target) : Prop where
  index : t.index < ops.length
  cells : 0 < t.index → ∃ cells, t.cells = some cells
  words : 2 < t.index → ∃ words, t.words = some words
  source : t.source.failure = failure
  reader : ∀ words, t.words = some words → WordReader.Blames failure words.ended
  sink : t.output.sink.refusal = refusal

/-- A step from an operation leaves a sound state, and a fault is an expected one at that operation. -/
def Progress.Keeps (ops : List Op) (failure : Option DeviceError) (refusal : DeviceError) (index : Nat) (op : Op) :
    Progress Target Stop → Prop
  | .next t => t.Sound ops failure refusal
  | .stop t .halted => t.Sound ops failure refusal
  | .stop t (.fault f) => t.Sound ops failure refusal ∧ f.pc = index ∧
      ∃ opcode, f.opcode = opcode.toByte ∧ f.cause.ExpectedAt failure refusal opcode ∧
        ∀ address i, op.instr? address = some i → i.opcode = opcode

namespace Target.Sound
variable {ops : List Op} {failure : Option DeviceError} {refusal : DeviceError} {t t' : Target} {op : Op}

theorem kept (h : t.Sound ops failure refusal) (hlate : 3 ≤ t.index) (hindex : t'.index < ops.length)
    (hcells : ∃ cells, t'.cells = some cells) (hwords : t'.words = t.words) (hsource : t'.source = t.source)
    (houtput : t'.output.sink.refusal = t.output.sink.refusal) : t'.Sound ops failure refusal :=
  ⟨hindex, fun _ => hcells, fun _ => hwords ▸ h.words (by omega), hsource ▸ h.source, hwords ▸ h.reader,
    houtput.trans h.sink⟩

theorem touch (h : t.Sound ops failure refusal) (hlate : 3 ≤ t.index)
    {opcode : Opcode} (hopcode : ∀ address i, op.instr? address = some i → i.opcode = opcode)
    (hexpected : ∀ pointer cells, Cause.ExpectedAt failure refusal opcode (.pointerRange pointer cells))
    {use : (cells : Array UInt8) → Fin cells.size → Target}
    (huse : ∀ cells i, t.cells = some cells → (use cells i).advance.Keeps ops failure refusal t.index op) :
    (t.touch opcode use).Keeps ops failure refusal t.index op := by
  obtain ⟨cells, hcells⟩ := h.cells (by omega)
  simp only [Target.touch, hcells]
  unfold Machine.locate
  split
  · next cause heq =>
    split at heq
    · cases heq
    · cases heq
      exact ⟨h, rfl, opcode, rfl, hexpected _ _, hopcode⟩
  · exact huse cells _ hcells

theorem readChar (h : t.Sound ops failure refusal) (hlate : 3 ≤ t.index) (hnext : t.index + 1 < ops.length) :
    t.readChar.Keeps ops failure refusal t.index .getc := by
  obtain ⟨words, hwords⟩ := h.words (by omega)
  obtain ⟨hsink, hrefused⟩ := t.output.flush_refusal
  have hcells := h.cells (by omega)
  have hopcode : ∀ address i, Op.instr? address .getc = some i → i.opcode = .getc := fun _ _ hi =>
    Option.some.inj hi ▸ rfl
  simp only [Target.readChar, hwords]
  rcases hflush : t.output.flush with ⟨output, _ | e⟩
  · rw [hflush] at hsink
    have hprompt : (if t.prompting then output.prompt else output).sink.refusal = refusal := by
      split <;> exact hsink.trans h.sink
    have hfaithful := words.next_faithful t.source (h.source ▸ h.reader words hwords)
    rw [h.source] at hfaithful
    rcases hfound : words.next t.source with ⟨ended | word, words', source⟩
    · rw [hfound] at hfaithful
      refine ⟨⟨h.index, fun _ => hcells, fun _ => ⟨words', rfl⟩, hfaithful.source, ?_, hprompt⟩, rfl, .getc, rfl, ?_,
        hopcode⟩
      · rintro _ ⟨⟩
        exact hfaithful.reader
      · have hblames := hfaithful.word ended rfl
        cases ended with
        | endOfData => exact .noInput
        | device e => exact .reader (hblames e rfl)
        | wordTooLong => exact .wordTooLong
    · rw [hfound] at hfaithful
      refine ⟨hnext, fun _ => hcells, fun _ => ⟨words', rfl⟩, hfaithful.source, ?_, hprompt⟩
      rintro _ ⟨⟩
      exact hfaithful.reader
  · rw [hflush] at hsink hrefused
    refine ⟨h.kept hlate h.index hcells hwords.symm rfl hsink, rfl, .getc, rfl, ?_, hopcode⟩
    rw [hrefused e rfl, h.sink]
    exact .writerAtGetc

theorem writeChar (h : t.Sound ops failure refusal) (hlate : 3 ≤ t.index) (hnext : t.index + 1 < ops.length) :
    t.writeChar.Keeps ops failure refusal t.index .putc := by
  obtain ⟨hsink, hrefused⟩ := t.output.put_refusal t.acc
  have hcells := h.cells (by omega)
  unfold Target.writeChar
  rcases hput : t.output.put t.acc with ⟨output, _ | e⟩
  · rw [hput] at hsink
    exact h.kept hlate hnext hcells rfl rfl hsink
  · rw [hput] at hsink hrefused
    refine ⟨h.kept hlate h.index hcells rfl rfl hsink, rfl, .putc, rfl, ?_, fun _ _ hi => Option.some.inj hi ▸ rfl⟩
    rw [hrefused e rfl, h.sink]
    exact .writerAtPutc

theorem perform (h : t.Sound ops failure refusal) (hshape : Shaped ops)
    (hmarks : ∀ op ∈ ops, ∀ l, op.destination? = some l → Op.mark l ∈ ops) (hop : ops[t.index]? = some op) :
    (t.perform ops op).Keeps ops failure refusal t.index op := by
  -- Whatever is no operation of the opening stands behind it, where there are cells and words.
  have hplace := opening_cases hshape.opening hop
  have hgoto : 3 ≤ t.index → ∀ l, op.destination? = some l → (t.goto ops l).Keeps ops failure refusal t.index op :=
    fun hlate l hl => h.kept hlate (List.idxOf_lt_length_of_mem (hmarks op (List.mem_of_getElem? hop) l hl))
      (h.cells (by omega)) rfl rfl rfl
  cases op with
  | alloc cells =>
    have hzero := hshape.alloc hop
    obtain rfl : cells = 30000 := by simpa [hzero] using hplace
    have hnext := hshape.last hop Op.noConfusion
    rw [Target.perform, if_neg (by decide)]
    exact ⟨hnext, fun _ => ⟨_, rfl⟩, fun (hlate : 2 < t.index + 1) => h.words (by omega), h.source, h.reader, h.sink⟩
  | reset =>
    have hstart : t.index = 1 ∨ 3 ≤ t.index := by simpa using hplace
    exact ⟨hshape.last hop Op.noConfusion, fun _ => h.cells (by omega),
      fun (hlate : 2 < t.index + 1) => h.words (by omega), h.source, h.reader, h.sink⟩
  | openInput =>
    have hstart : t.index = 2 ∨ 3 ≤ t.index := by simpa using hplace
    refine ⟨hshape.last hop Op.noConfusion, fun _ => h.cells (by omega), fun _ => ⟨_, rfl⟩, h.source, ?_, h.sink⟩
    rintro _ ⟨⟩ e ⟨⟩
  | halt => exact h
  | newLabel | mark l | add n | sub n | step d | move d =>
    have hlate : 3 ≤ t.index := by simpa using hplace
    exact h.kept hlate (hshape.last hop Op.noConfusion) (h.cells (by omega)) rfl rfl rfl
  | load =>
    have hlate : 3 ≤ t.index := by simpa using hplace
    refine h.touch hlate (fun _ _ hi => Option.some.inj hi ▸ rfl) .load fun cells i hcells => ?_
    exact h.kept hlate (hshape.last hop Op.noConfusion) (h.cells (by omega)) rfl rfl rfl
  | store =>
    have hlate : 3 ≤ t.index := by simpa using hplace
    refine h.touch hlate (fun _ _ hi => Option.some.inj hi ▸ rfl) .store fun cells i hcells => ?_
    exact h.kept hlate (hshape.last hop Op.noConfusion) ⟨_, rfl⟩ rfl rfl rfl
  | jump l => exact hgoto (by simpa using hplace) l rfl
  | jumpIfZero l =>
    have hlate : 3 ≤ t.index := by simpa using hplace
    rw [Target.perform]
    split
    · exact hgoto hlate l rfl
    · exact h.kept hlate (hshape.last hop Op.noConfusion) (h.cells (by omega)) rfl rfl rfl
  | getc => exact h.readChar (by simpa using hplace) (hshape.last hop Op.noConfusion)
  | putc => exact h.writeChar (by simpa using hplace) (hshape.last hop Op.noConfusion)

end Target.Sound

/-! ### Runs -/

section Runs
variable {ops : List Op} {code : Array UInt8} {failure : Option DeviceError} {refusal : DeviceError} {t t' : Target}
  {why : Stop}

theorem Target.Sound.step (h : t.Sound ops failure refusal) (hshape : Shaped ops) (linked : Linked ops code) :
    (t.step ops).Keeps ops failure refusal t.index (ops.get ⟨t.index, h.index⟩) := by
  have hop := List.getElem?_eq_getElem h.index
  rw [Target.step_of_op hop]
  exact h.perform hshape linked.marks hop

theorem Target.Sound.step_next (h : t.Sound ops failure refusal) (hshape : Shaped ops) (linked : Linked ops code)
    (hs : t.step ops = .next t') : t'.Sound ops failure refusal := by
  have hkeeps := h.step hshape linked
  rwa [hs] at hkeeps

theorem Target.Sound.step_stop (h : t.Sound ops failure refusal) (hshape : Shaped ops) (linked : Linked ops code)
    (hs : t.step ops = .stop t' why) : t'.Sound ops failure refusal := by
  have hkeeps := h.step hshape linked
  rw [hs] at hkeeps
  cases why with
  | halted => exact hkeeps
  | fault f => exact hkeeps.1

theorem Target.Sound.run (h : t.Sound ops failure refusal) (hshape : Shaped ops) (linked : Linked ops code) (n : Nat) :
    (t.run ops n).1.Sound ops failure refusal := by
  have hiter : (Progress.iterate (Target.step ops) n t).1.Sound ops failure refusal :=
    Progress.iterate_keeps (fun _ _ h => h.step_next hshape linked) (fun _ _ _ h => h.step_stop hshape linked) h n
  unfold Target.run
  rcases hn : Progress.iterate (Target.step ops) n t with ⟨u, _ | why⟩
  · rw [hn] at hiter
    exact hiter
  · rw [hn] at hiter
    exact ⟨hiter.index, hiter.cells, hiter.words, hiter.source, hiter.reader, u.output.flush_refusal.1.trans hiter.sink⟩

theorem Target.Sound.listed (h : t.Sound ops failure refusal) (hshape : Shaped ops) (linked : Linked ops code) :
    ∃ i, ((t.onCode ops code).pc, i) ∈ Listing.entries code := by
  -- A label has the address of what follows it, and a sound state never follows the last operation.
  induction hd : ops.length - t.index generalizing t with
  | zero =>
    have := h.index
    omega
  | succ d ih =>
    have hop := List.getElem?_eq_getElem h.index
    rcases hi : Op.instr? (fun l => UInt32.ofNat (labelAddress ops l)) (ops.get ⟨t.index, h.index⟩) with _ | i
    · obtain ⟨u, hstep, hindex, hsame⟩ := onCode_label code hop hi
      rw [← hsame]
      exact ih (h.step_next hshape linked hstep) (by omega)
    · exact ⟨i, Listing.mem_entries linked hop hi⟩

theorem Target.Sound.fault {f : Fault} (h : t.Sound ops failure refusal) (hshape : Shaped ops)
    (linked : Linked ops code) (hs : t.step ops = .stop t' (.fault f)) :
    ∃ i, ((f.onCode ops).pc, i) ∈ Listing.entries code ∧ f.opcode = i.opcode.toByte ∧
      f.cause.ExpectedAt failure refusal i.opcode := by
  have hop := List.getElem?_eq_getElem h.index
  have hkeeps := h.step hshape linked
  rw [hs] at hkeeps
  obtain ⟨-, hpc, opcode, hopcode, hexpected, hinstr⟩ := hkeeps
  rcases hi : Op.instr? (fun l => UInt32.ofNat (labelAddress ops l)) (ops.get ⟨t.index, h.index⟩) with _ | i
  · obtain ⟨u, hstep, -, -⟩ := onCode_label code hop hi
    rw [hs] at hstep
    cases hstep
  · obtain rfl := hinstr _ i hi
    refine ⟨i, ?_, hopcode, hexpected⟩
    rw [Fault.onCode, hpc]
    exact Listing.mem_entries linked hop hi

theorem Target.Sound.run_onCode (h : t.Sound ops failure refusal) (hshape : Shaped ops) (linked : Linked ops code)
    (short : code.size < 4294967296) (fuel : Nat) :
    (∃ u : Target, u.Sound ops failure refusal ∧ ((t.onCode ops code).run fuel).1 = u.onCode ops code) ∧
      ∀ f, ((t.onCode ops code).run fuel).2 = some (.fault f) →
        ∃ i, (f.pc, i) ∈ Listing.entries code ∧ f.opcode = i.opcode.toByte ∧
          f.cause.ExpectedAt failure refusal i.opcode := by
  obtain ⟨n, -, hexec⟩ := exec_of_onCode linked short fuel t
  rw [run_eq_of_exec hexec]
  refine ⟨⟨_, h.run hshape linked n, rfl⟩, fun f hf => ?_⟩
  rcases hn : Progress.iterate (Target.step ops) n t with ⟨u, _ | why⟩
  · rw [Target.runOnCode_next hn] at hf
    cases hf
  · rw [Target.runOnCode_stop hn] at hf
    obtain ⟨v, hv, hstop⟩ := Progress.iterate_last (fun _ _ h => h.step_next hshape linked) h hn
    cases why with
    | halted =>
      rcases hflush : u.output.flush with ⟨output, _ | e⟩ <;> simp [Target.finish, hflush, Outcome.onCode] at hf
    | fault f' =>
      cases hf
      exact hv.fault hshape linked hstop

theorem reachable_onCode {m : Machine} (h : t.Sound ops failure refusal) (hshape : Shaped ops)
    (linked : Linked ops code) (short : code.size < 4294967296) (hm : (t.onCode ops code).Reachable m) :
    ∃ u : Target, u.Sound ops failure refusal ∧ m = u.onCode ops code := by
  refine hm.keeps ?_ ?_
  · exact ⟨t, h, rfl⟩
  · rintro _ ⟨u, hu, rfl⟩ fuel
    exact (hu.run_onCode hshape linked short fuel).1

end Runs

theorem program_sound (text : List UInt8) (source : Source) (sink : Sink) (prompting : Bool) :
    (Target.fresh source sink prompting).Sound (program text) source.failure sink.refusal := by
  refine ⟨?_, fun h => absurd h (Nat.not_lt_zero _), fun h => absurd h (Nat.not_lt_zero _), rfl, ?_, rfl⟩
  · rw [program, operations, List.length_append]
    exact Nat.lt_of_lt_of_le (by decide : 0 < Compilation.opening.toList.length) (Nat.le_add_right _ _)
  · rintro words ⟨⟩

/-- A program that is built never breaks the machine. Whatever its input is and however its devices fail, every state
that any number of runs brings the machine to stands on an instruction of the listing of its code, which is complete.
A fault is the pointer outside the cells, a failure to read a word, or a failure to write. -/
theorem built_program_never_breaks {text : List UInt8} {p : Program} (hbuild : build text = .ok p)
    (short : p.code.size < 4294967296) (source : Source) (sink : Sink) (prompting : Bool) :
    (Listing.write p.code {}).2 = none ∧
    (Listing.write p.code {}).1.taken.toList = Listing.text (Listing.entries p.code) ∧
    ∀ m, (Machine.fresh p.code source sink prompting).Reachable m →
      m.code = p.code ∧ (∃ i, (m.pc, i) ∈ Listing.entries p.code) ∧
      ∀ fuel m' f, m.run fuel = (m', some (.fault f)) →
        f.cause ≠ .badOpcode ∧ f.cause ≠ .truncated ∧ f.cause ≠ .inputClosed ∧ f.cause ≠ .noMemory ∧
        ∃ i, (f.pc, i) ∈ Listing.entries p.code ∧ f.opcode = i.opcode.toByte ∧
          f.cause.ExpectedAt source.failure sink.refusal i.opcode := by
  have linked := (build_linked hbuild).2
  have hshape := program_shaped text
  have hsound := program_sound text source sink prompting
  refine ⟨Listing.writeFrom_linked linked 0 rfl, ?_, fun m hm => ?_⟩
  · rw [Listing.write, Listing.taken_writeFrom _ _ _ rfl]
    simp [Listing.entries]
  · obtain ⟨t, ht, rfl⟩ := reachable_onCode hsound hshape linked short hm
    refine ⟨rfl, ht.listed hshape linked, fun fuel m' f hrun => ?_⟩
    obtain ⟨i, hlisted, hopcode, hexpected⟩ := (ht.run_onCode hshape linked short fuel).2 f (by rw [hrun])
    obtain ⟨hbad, htruncated, hclosed, hmemory⟩ := hexpected.harmless
    exact ⟨hbad, htruncated, hclosed, hmemory, i, hlisted, hopcode, hexpected⟩

/-- A program that copies its input, with a source that breaks and a sink that takes nothing. -/
theorem never_breaks_copying :
    let text : List UInt8 := [0x2C, 0x5B, 0x2E, 0x2C, 0x5D]
    let code : Array UInt8 := #[0x01, 0x30, 0x75, 0, 0, 0x02, 0x03, 0x0D, 0x05, 0x04, 0x0C, 0x18, 0, 0, 0, 0x04, 0x0E,
      0x0D, 0x05, 0x0B, 0x09, 0, 0, 0, 0x00]
    build text = .ok ⟨1, code⟩ ∧ code.size < 4294967296 ∧
      ∀ m, (Machine.fresh code ⟨[[0x61, 0x20]], some ⟨"broken"⟩⟩ { room := some 0 } true).Reachable m →
        ∃ i, (m.pc, i) ∈ Listing.entries code := by
  intro text code
  have hbuild : build text = .ok ⟨1, code⟩ := by decide +kernel
  have short : code.size < 4294967296 := by decide
  obtain ⟨-, -, hreach⟩ :=
    built_program_never_breaks hbuild short ⟨[[0x61, 0x20]], some ⟨"broken"⟩⟩ { room := some 0 } true
  exact ⟨hbuild, short, fun m hm => (hreach m hm).2.1⟩

end TapeCode
