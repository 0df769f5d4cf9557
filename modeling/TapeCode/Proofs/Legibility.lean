import TapeCode.Proofs.Breakoff

/-!
Listings can be read. Numerals have one value (`Text.value`), so no two numbers look alike, and a line shows which
instruction it stands for (`Listing.body_inj`). Code that is listed without an error can therefore be told from its listing
(`Listing.text_inj`).
-/

namespace TapeCode

open Instr

/-! ### Numerals -/

namespace Text

/-- The number that a digit stands for. -/
def digitValue (c : Char) : Nat :=
  if c.toNat < 58 then c.toNat - 48 else c.toNat - 55

/-- The number that digits spell in a base. -/
def value (base : Nat) (numeral : List Char) : Nat :=
  numeral.foldl (fun n c => base * n + digitValue c) 0

/-- The characters of numerals. -/
def figures : List Char := "0123456789ABCDEF".toList

section Numerals
variable {base : Nat}

theorem digit_lt_sixteen : ∀ n < 16, digitValue (digit n) = n ∧ digit n ∈ figures := by
  decide

theorem value_snoc (numeral : List Char) (c : Char) :
    value base (numeral ++ [c]) = base * value base numeral + digitValue c := by
  rw [value, List.foldl_append]
  rfl

theorem value_digits (two : 2 ≤ base) (sixteen : base ≤ 16) (n : Nat) : value base (digits base n) = n := by
  fun_induction digits base n with
  | case1 n hsmall =>
    have hn : n < 16 := by omega
    rw [← List.nil_append [digit n], value_snoc, (digit_lt_sixteen n hn).1]
    simp [value]
  | case2 n hlarge ih =>
    have hn : n % base < 16 := Nat.lt_of_lt_of_le (Nat.mod_lt n (by omega)) sixteen
    rw [value_snoc, ih, (digit_lt_sixteen _ hn).1, Nat.div_add_mod]

theorem value_zeroPadded (width : Nat) (numeral : List Char) :
    value base (zeroPadded width numeral) = value base numeral := by
  rw [value, zeroPadded, List.foldl_append]
  generalize width - numeral.length = zeros
  induction zeros with
  | zero => rfl
  | succ zeros ih =>
    rw [List.replicate_succ, List.foldl_cons]
    exact ih

theorem mem_figures_of_digits (two : 2 ≤ base) (sixteen : base ≤ 16) (n : Nat) : ∀ c ∈ digits base n, c ∈ figures := by
  fun_induction digits base n with
  | case1 n hsmall =>
    have hn : n < 16 := by omega
    intro c hc
    rw [List.mem_singleton.mp hc]
    exact (digit_lt_sixteen n hn).2
  | case2 n hlarge ih =>
    have hn : n % base < 16 := Nat.lt_of_lt_of_le (Nat.mod_lt n (by omega)) sixteen
    intro c hc
    rcases List.mem_append.mp hc with hc | hc
    · exact ih c hc
    · rw [List.mem_singleton.mp hc]
      exact (digit_lt_sixteen _ hn).2

theorem toList_decimal (n : Nat) : (decimal n).toList = digits 10 n :=
  String.toList_ofList

theorem toList_address (n : Nat) : (address n).toList = '0' :: 'x' :: zeroPadded 4 (digits 16 n) := by
  simp [address, hex]

theorem decimal_inj {m n : Nat} (h : decimal m = decimal n) : m = n := by
  have hdigits := congrArg (fun text : String => value 10 text.toList) h
  simpa only [toList_decimal, value_digits (show 2 ≤ 10 by decide) (show 10 ≤ 16 by decide)] using hdigits

theorem address_inj {m n : Nat} (h : address m = address n) : m = n := by
  have hdigits := congrArg (fun text : String => value 16 (text.toList.drop 2)) h
  simpa only [toList_address, List.drop_succ_cons, List.drop_zero, value_zeroPadded,
    value_digits (show 2 ≤ 16 by decide) (show 16 ≤ 16 by decide)] using hdigits

/-- Only a negative number starts with a sign. -/
theorem decimal_ne_negative (m n : Nat) : decimal m ≠ "-" ++ decimal n := by
  intro h
  have hsign : '-' ∈ (decimal m).toList := by
    rw [h, String.toList_append]
    exact List.mem_cons_self
  rw [toList_decimal] at hsign
  exact absurd (mem_figures_of_digits (by decide) (by decide) m _ hsign) (by decide)

theorem signedDecimal_inj {m n : Int} (h : signedDecimal m = signedDecimal n) : m = n := by
  cases m with
  | ofNat m =>
    cases n with
    | ofNat n => rw [decimal_inj h]
    | negSucc n => exact absurd h (decimal_ne_negative m (n + 1))
  | negSucc m =>
    cases n with
    | ofNat n => exact absurd h.symm (decimal_ne_negative n (m + 1))
    | negSucc n =>
      have hdecimal := congrArg String.toList h
      simp only [signedDecimal, String.toList_append, List.append_cancel_left_eq, String.toList_inj] at hdecimal
      rw [Nat.succ.inj (decimal_inj hdecimal)]

/-- No character but those of numerals, a sign and the mark of an address. -/
def Numeric (text : String) : Prop :=
  ∀ c ∈ text.toList, c ∈ '-' :: 'x' :: figures

theorem numeric_decimal (n : Nat) : Numeric (decimal n) := by
  intro c hc
  rw [toList_decimal] at hc
  have hfigure := mem_figures_of_digits (by decide) (by decide) n c hc
  exact List.mem_cons_of_mem _ (List.mem_cons_of_mem _ hfigure)

theorem numeric_signedDecimal (n : Int) : Numeric (signedDecimal n) := by
  cases n with
  | ofNat n => exact numeric_decimal n
  | negSucc n =>
    intro c hc
    rw [signedDecimal, String.toList_append, List.mem_append] at hc
    rcases hc with hc | hc
    · rw [List.mem_singleton.mp hc]
      exact List.mem_cons_self
    · exact numeric_decimal (n + 1) c hc

theorem numeric_address (n : Nat) : Numeric (address n) := by
  have hmark : '0' ∈ figures := by decide
  intro c hc
  rw [toList_address, zeroPadded] at hc
  simp only [List.mem_cons, List.mem_append, List.mem_replicate] at hc ⊢
  rcases hc with rfl | rfl | ⟨-, rfl⟩ | hc
  · exact Or.inr (Or.inr hmark)
  · exact Or.inr (Or.inl rfl)
  · exact Or.inr (Or.inr hmark)
  · exact Or.inr (Or.inr (mem_figures_of_digits (by decide) (by decide) n c hc))

end Numerals

end Text

theorem Word.toSigned_inj {a b : UInt32} (h : toSigned a = toSigned b) : a = b := by
  have := a.toNat_lt
  have := b.toNat_lt
  apply UInt32.toNat_inj.mp
  unfold toSigned at h
  split at h <;> split at h <;> omega

/-! ### Lines -/

/-- The opcode that a name stands for. -/
def Opcode.ofMnemonic? (name : String) : Option Opcode :=
  [halt, alloc, reset, openInput, load, store, add, sub, forward, back, move, jump, jumpIfZero, getc, putc].find?
    fun op => op.mnemonic = name

theorem Opcode.ofMnemonic?_mnemonic (op : Opcode) : ofMnemonic? op.mnemonic = some op := by
  cases op <;> decide

theorem Opcode.mnemonic_inj {a b : Opcode} (h : a.mnemonic = b.mnemonic) : a = b := by
  have hname := ofMnemonic?_mnemonic a
  rw [h, ofMnemonic?_mnemonic] at hname
  exact (Option.some.inj hname).symm

namespace Instr

theorem exists_ofParts (i : Instr) : ∃ w, ofParts i.opcode w = i := by
  cases i with
  | alloc w | add w | sub w | move w | jump w | jumpIfZero w => exact ⟨w, rfl⟩
  | _ => exact ⟨0, rfl⟩

end Instr

namespace Listing

/-- Instructions of one opcode look different unless they are the same. -/
theorem operandText_inj {op : Opcode} {v w : UInt32} (h : operandText (ofParts op v) = operandText (ofParts op w)) :
    ofParts op v = ofParts op w := by
  cases op with
  | alloc | add | sub =>
    obtain rfl : v = w := UInt32.toNat_inj.mp (Text.decimal_inj (Option.some.inj h))
    rfl
  | move =>
    obtain rfl : v = w := Word.toSigned_inj (Text.signedDecimal_inj (Option.some.inj h))
    rfl
  | jump | jumpIfZero =>
    obtain rfl : v = w := UInt32.toNat_inj.mp (Text.address_inj (Option.some.inj h))
    rfl
  | halt | reset | openInput | load | store | forward | back | getc | putc => rfl

/-- A line behind its address, without the end of the line. -/
def body (i : Instr) : List Char :=
  i.opcode.mnemonic.toList ++ ((operandText i).map fun operand => ' ' :: operand.toList).getD []

theorem toList_line (pc : Nat) (i : Instr) :
    (line pc i).toList = (Text.address pc).toList ++ ' ' :: ' ' :: (body i ++ ['\n']) := by
  rw [line, body]
  cases operandText i <;> simp

/-- A separator splits a text in one way only, if it is not in the first part. -/
theorem append_cons_inj {separator : Char} {a b rest more : List Char} (ha : separator ∉ a) (hb : separator ∉ b)
    (h : a ++ separator :: rest = b ++ separator :: more) : a = b ∧ rest = more := by
  rcases List.append_eq_append_iff.mp h with ⟨c, rfl, hc⟩ | ⟨c, rfl, hc⟩
  · cases c with
    | nil => simpa using hc
    | cons d c => simp_all
  · cases c with
    | nil => simpa [eq_comm] using hc
    | cons d c => simp_all

theorem blank_not_mem_mnemonic (op : Opcode) : ' ' ∉ op.mnemonic.toList := by
  cases op <;> decide

theorem body_inj {i j : Instr} (h : body i = body j) : i = j := by
  -- With a blank behind it the name ends at the first blank, whether there is an operand or not.
  have hblank (i : Instr) : body i ++ [' '] = i.opcode.mnemonic.toList ++
      ' ' :: ((operandText i).map fun operand => operand.toList ++ [' ']).getD [] := by
    rw [body]
    cases operandText i <;> simp
  have hsplit := congrArg (· ++ [' ']) h
  simp only [hblank] at hsplit
  obtain ⟨hname, hoperand⟩ := append_cons_inj (blank_not_mem_mnemonic _) (blank_not_mem_mnemonic _) hsplit
  have hopcode : i.opcode = j.opcode := Opcode.mnemonic_inj (String.toList_inj.mp hname)
  have htext : operandText i = operandText j := by
    rcases hi : operandText i with _ | a <;> rcases hj : operandText j with _ | b
    · rfl
    · simp [hi, hj] at hoperand
    · simp [hi, hj] at hoperand
    · simpa [hi, hj, String.toList_inj] using hoperand
  obtain ⟨v, hv⟩ := i.exists_ofParts
  obtain ⟨w, hw⟩ := j.exists_ofParts
  rw [← hv, ← hw, hopcode] at htext ⊢
  exact operandText_inj htext

theorem numeric_operandText {i : Instr} {operand : String} (h : operandText i = some operand) : Text.Numeric operand := by
  cases i with
  | alloc n | add n | sub n =>
    obtain rfl := Option.some.inj h
    exact Text.numeric_decimal _
  | move delta =>
    obtain rfl := Option.some.inj h
    exact Text.numeric_signedDecimal _
  | jump target | jumpIfZero target =>
    obtain rfl := Option.some.inj h
    exact Text.numeric_address _
  | halt | reset | openInput | load | store | forward | back | getc | putc => cases h

theorem newline_not_mem_body (i : Instr) : '\n' ∉ body i := by
  have hname : '\n' ∉ i.opcode.mnemonic.toList := by
    cases i.opcode <;> decide
  rw [body]
  cases hoperand : operandText i with
  | none => simpa using hname
  | some operand =>
    have hnewline : '\n' ∉ operand.toList := fun hc => absurd (numeric_operandText hoperand _ hc) (by decide)
    simp [hname, hnewline]

/-! ### Listings -/

theorem utf8_append (a b : String) : Text.utf8 (a ++ b) = Text.utf8 a ++ Text.utf8 b := by
  simp [Text.utf8]

theorem utf8_inj {a b : String} (h : Text.utf8 a = Text.utf8 b) : a = b := by
  rw [← String.toByteArray_inj, ByteArray.ext_iff, ← Array.toList_inj]
  exact h

/-- The characters of a listing. -/
def letters (found : List (Nat × Instr)) : List Char :=
  found.flatMap fun e => (line e.1 e.2).toList

theorem letters_cons (pc : Nat) (i : Instr) (found : List (Nat × Instr)) :
    letters ((pc, i) :: found) = (line pc i).toList ++ letters found :=
  List.flatMap_cons

theorem text_eq_letters (found : List (Nat × Instr)) : text found = Text.utf8 (String.ofList (letters found)) := by
  induction found with
  | nil => rfl
  | cons e found ih =>
    rw [text, List.flatMap_cons, ← text, ih, letters_cons, String.ofList_append, utf8_append, String.ofList_toList]

theorem letters_placed_cons (pc : Nat) (i : Instr) (is : List Instr) :
    letters (placed pc (i :: is)) =
      ((Text.address pc).toList ++ [' ', ' ']) ++ (body i ++ '\n' :: letters (placed (pc + i.length) is)) := by
  rw [placed, letters_cons, toList_line]
  simp

/-- No two sequences of instructions are listed alike from the same address on. -/
theorem letters_inj {pc : Nat} {is js : List Instr} (h : letters (placed pc is) = letters (placed pc js)) : is = js := by
  induction is generalizing pc js with
  | nil =>
    cases js with
    | nil => rfl
    | cons j js =>
      rw [letters_placed_cons] at h
      simp [letters, placed] at h
  | cons i is ih =>
    cases js with
    | nil =>
      rw [letters_placed_cons] at h
      simp [letters, placed] at h
    | cons j js =>
      rw [letters_placed_cons, letters_placed_cons] at h
      obtain ⟨hbody, hrest⟩ :=
        append_cons_inj (newline_not_mem_body i) (newline_not_mem_body j) (List.append_cancel_left h)
      obtain rfl := body_inj hbody
      rw [ih hrest]

theorem text_inj {is js : List Instr} (h : text (placed 0 is) = text (placed 0 js)) : is = js := by
  rw [text_eq_letters, text_eq_letters] at h
  exact letters_inj (String.ofList_inj.mp (utf8_inj h))

end Listing

/-- A listing determines its code. With room for everything, code is listed without an error just if it is complete
instructions in a row: opcodes up to `0x0E`, each with four bytes behind it just if an operand follows it. And code that is
listed without an error on one sink, and other code on another, are the same code if they have the same listing. -/
theorem listing_determines_code (code other : Array UInt8) :
    (∀ sink : Sink, sink.room = none → ((Listing.write code sink).2 = none ↔ Sequence code.toList)) ∧
    ∀ (sink sink' : Sink) (listing : List UInt8),
      (Listing.write code sink).2 = none → (Listing.write other sink').2 = none →
      (Listing.write code sink).1.taken.toList = sink.taken.toList ++ listing →
      (Listing.write other sink').1.taken.toList = sink'.taken.toList ++ listing → code = other := by
  refine ⟨fun sink unlimited => Listing.listed_iff code unlimited, ?_⟩
  intro sink sink' listing hcode hother htaken htaken'
  have hstream := Listing.stream_of_listed hcode
  have hstream' := Listing.stream_of_listed hother
  rw [Listing.taken_of_listed hcode, List.append_cancel_left_eq, Listing.entries_stream hstream] at htaken
  rw [Listing.taken_of_listed hother, List.append_cancel_left_eq, Listing.entries_stream hstream'] at htaken'
  have hsame := Listing.text_inj (htaken.trans htaken'.symm)
  rw [← Array.toList_inj, hstream, hstream', hsame]

end TapeCode
