import TapeCode.Proofs.Sweep

/-!
Code as a stream of instructions. Instructions one behind the other can be told apart again: a sweep over their bytes
finds them at the places they were put (`Listing.entriesFrom_stream`). Code that is listed without an error is such a
stream, and nothing is left over (`Listing.stream_of_listed`).
-/

namespace TapeCode

open Layout Assembler

namespace Instr

/-- The bytes of instructions in a row. -/
def stream (is : List Instr) : List UInt8 :=
  is.flatMap encode

theorem stream_nil : stream [] = [] := rfl

theorem stream_cons (i : Instr) (is : List Instr) : stream (i :: is) = i.encode ++ stream is :=
  List.flatMap_cons

theorem stream_append (is more : List Instr) : stream (is ++ more) = stream is ++ stream more :=
  List.flatMap_append

theorem length_stream_snoc (is : List Instr) (i : Instr) : (stream (is ++ [i])).length = (stream is).length + i.length := by
  rw [stream_append, List.length_append, stream_cons, stream_nil, List.append_nil, length_encode]

end Instr

open Instr

namespace Listing

/-- Instructions in a row, with the addresses that they have from an address on. -/
def placed (pc : Nat) : List Instr → List (Nat × Instr)
  | [] => []
  | i :: is => (pc, i) :: placed (pc + i.length) is

theorem map_placed (pc : Nat) (is : List Instr) : (placed pc is).map Prod.snd = is := by
  induction is generalizing pc with
  | nil => rfl
  | cons i is ih => rw [placed, List.map_cons, ih]

/-- An instruction is placed behind the bytes of those before it. -/
theorem mem_placed {pc address : Nat} {i : Instr} {is : List Instr} :
    (address, i) ∈ placed pc is ↔ ∃ pre post, is = pre ++ i :: post ∧ address = pc + (stream pre).length := by
  induction is generalizing pc with
  | nil => simp [placed]
  | cons first is ih =>
    rw [placed, List.mem_cons, ih]
    constructor
    · rintro (heq | ⟨pre, post, rfl, rfl⟩)
      · obtain ⟨rfl, rfl⟩ := Prod.mk.inj heq
        exact ⟨[], is, rfl, rfl⟩
      · refine ⟨first :: pre, post, rfl, ?_⟩
        rw [stream_cons, List.length_append, length_encode, Nat.add_assoc]
    · rintro ⟨pre, post, hsplit, rfl⟩
      cases pre with
      | nil =>
        obtain ⟨rfl, rfl⟩ := List.cons.inj hsplit
        exact Or.inl rfl
      | cons i' pre =>
        obtain ⟨rfl, rfl⟩ := List.cons.inj hsplit
        refine Or.inr ⟨pre, post, rfl, ?_⟩
        rw [stream_cons, List.length_append, length_encode, Nat.add_assoc]

section Stream
variable {code : Array UInt8} {is : List Instr} {pre : List UInt8} {pc : Nat} {i : Instr} {sink : Sink}

/-- A sweep finds the instructions that the rest of the code consists of. -/
theorem entriesFrom_stream (h : code.toList = pre ++ stream is) : entriesFrom code pre.length = placed pre.length is := by
  induction is generalizing pre with
  | nil =>
    have hsize : code.size = pre.length := by rw [← Array.length_toList, h, stream_nil, List.append_nil]
    rw [entriesFrom_error (decodeAt_outside (Nat.le_of_eq hsize)), placed]
  | cons i is ih =>
    rw [stream_cons] at h
    have hnext : code.toList = (pre ++ i.encode) ++ stream is := by rw [h, List.append_assoc]
    have hrest := ih hnext
    rw [List.length_append, length_encode] at hrest
    rw [entriesFrom_ok (decodeAt_encode h), hrest, placed]

theorem entries_stream (h : code.toList = stream is) : entries code = placed 0 is :=
  @entriesFrom_stream code is [] h

/-- A sweep that is listed to the end leaves nothing over. -/
theorem stream_of_writeFrom (h : (writeFrom code pc sink).2 = none) :
    code.toList.drop pc = stream ((entriesFrom code pc).map Prod.snd) := by
  fun_induction writeFrom code pc sink with
  | case1 pc sink hdecode =>
    have hreads := reads_decodeAt code pc
    rw [hdecode] at hreads
    rw [entriesFrom_error hdecode, List.drop_of_length_le]
    · rfl
    · rw [Array.length_toList]
      exact Array.getElem?_eq_none_iff.mp hreads
  | case2 | case3 | case4 => cases h
  | case5 pc sink i hdecode sink' hwrite ih =>
    rw [entriesFrom_ok hdecode, List.map_cons, stream_cons, encode_of_decodeAt hdecode, ih h]

/-- Code that is listed without an error consists of the instructions that are listed. -/
theorem stream_of_listed (h : (write code sink).2 = none) : code.toList = stream ((entries code).map Prod.snd) :=
  stream_of_writeFrom h

theorem mem_entries_stream (h : code.toList = stream is) :
    (pc, i) ∈ entries code ↔ ∃ pre post, is = pre ++ i :: post ∧ pc = (stream pre).length := by
  rw [entries_stream h, mem_placed]
  simp only [Nat.zero_add]

theorem decodeAt_of_mem (h : code.toList = stream is) (hmem : (pc, i) ∈ entries code) : decodeAt code pc = .ok i := by
  obtain ⟨pre, post, rfl, rfl⟩ := (mem_entries_stream h).mp hmem
  rw [stream_append, stream_cons] at h
  exact decodeAt_encode h

end Stream

end Listing

/-! ### The code of operations -/

namespace Layout
variable {ops : List Op} {code : Array UInt8}

/-- The instructions of some operations, with their jumps going to the places of their labels. -/
def instructions (ops : List Op) : List Instr :=
  ops.filterMap (Op.instr? fun l => UInt32.ofNat (labelAddress ops l))

theorem image_eq_stream (address : Int → UInt32) (ops : List Op) :
    image address ops = stream (ops.filterMap (Op.instr? address)) := by
  induction ops with
  | nil => rfl
  | cons op ops ih =>
    rw [image, List.flatMap_cons, Op.bytes]
    cases hi : op.instr? address with
    | none =>
      rw [List.filterMap_cons_none hi]
      exact ih
    | some i =>
      rw [List.filterMap_cons_some hi, stream_cons, Option.map_some, Option.getD_some]
      exact congrArg (i.encode ++ ·) ih

theorem stream_of_linked (linked : Linked ops code) : code.toList = stream (instructions ops) :=
  linked.code.trans (image_eq_stream _ ops)

end Layout

end TapeCode
