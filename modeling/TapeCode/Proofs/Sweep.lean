import TapeCode.Listing
import TapeCode.Proofs.Layout

/-!
What a listing shows. A sweep over code finds its instructions one behind the other (`Listing.entriesFrom`), and a
listing has one line for each. In code that operations are linked to, the sweep finds the operations.
-/

namespace TapeCode

open Layout Assembler

theorem Sink.write_unlimited {sink : Sink} (h : sink.room = none) (bytes : List UInt8) :
    sink.write bytes = (sink.put bytes, none) ∧ (sink.put bytes).room = none ∧
      (sink.put bytes).taken = sink.taken ++ bytes := by
  simp [Sink.write, Sink.refuses, Sink.put, Sink.fitting, h]

theorem Sink.taken_write {sink sink' : Sink} {bytes : List UInt8} (h : sink.write bytes = (sink', none)) :
    sink'.taken = sink.taken ++ bytes := by
  obtain ⟨rfl, herror⟩ := Prod.mk.inj h
  have haccepts : sink.refuses bytes = false := by simpa using herror
  rw [Sink.put, Sink.fitting_of_accepted haccepts]

namespace Listing

/-- The instructions that a sweep from an address on finds, with their addresses. -/
def entriesFrom (code : Array UInt8) (pc : Nat) : List (Nat × Instr) :=
  match _h : Instr.decodeAt code pc with
  | .error _ => []
  | .ok i => (pc, i) :: entriesFrom code (pc + i.length)
termination_by code.size - pc
decreasing_by
  have := Instr.lt_size_of_decodeAt _h
  have := i.length_pos
  omega

/-- The instructions that a sweep over all the code finds, with their addresses. -/
def entries (code : Array UInt8) : List (Nat × Instr) :=
  entriesFrom code 0

/-- The lines of some instructions. -/
def text (found : List (Nat × Instr)) : List UInt8 :=
  found.flatMap fun e => Text.utf8 (line e.1 e.2)

section Sweep
variable {code : Array UInt8} {pc : Nat} {i : Instr} {sink : Sink}

theorem entriesFrom_ok (h : Instr.decodeAt code pc = .ok i) :
    entriesFrom code pc = (pc, i) :: entriesFrom code (pc + i.length) := by
  rw [entriesFrom]
  split
  · next heq =>
    rw [h] at heq
    cases heq
  · next heq =>
    rw [h] at heq
    cases heq
    rfl

theorem entriesFrom_error {e : DecodeError} (h : Instr.decodeAt code pc = .error e) : entriesFrom code pc = [] := by
  rw [entriesFrom]
  split
  · rfl
  · next heq =>
    rw [h] at heq
    cases heq

theorem writeFrom_ok (h : Instr.decodeAt code pc = .ok i) (unlimited : sink.room = none) :
    writeFrom code pc sink = writeFrom code (pc + i.length) (sink.put (Text.utf8 (line pc i))) := by
  rw [writeFrom]
  split
  · simp_all
  · simp_all
  · simp_all
  · next heq =>
    rw [h] at heq
    cases heq
    rw [(Sink.write_unlimited unlimited _).1]

theorem writeFrom_outside (h : Instr.decodeAt code pc = .error .outside) : writeFrom code pc sink = (sink, none) := by
  rw [writeFrom]
  split <;> simp_all

/-- A sink that takes every line takes the whole text. -/
theorem taken_of_writeFrom (h : ∀ e, (writeFrom code pc sink).2 ≠ some (.device e)) :
    (writeFrom code pc sink).1.taken = sink.taken ++ text (entriesFrom code pc) := by
  fun_induction writeFrom code pc sink with
  | case1 pc sink hdecode | case2 pc sink byte hdecode | case3 pc sink opcode hdecode =>
    rw [entriesFrom_error hdecode]
    exact Array.ext' (by simp [text])
  | case4 pc sink i hdecode sink' e hwrite => exact absurd rfl (h e)
  | case5 pc sink i hdecode sink' hwrite ih =>
    rw [ih h, Sink.taken_write hwrite, entriesFrom_ok hdecode, text, text, List.flatMap_cons]
    exact Array.ext' (by simp)

theorem taken_of_listed (h : (write code sink).2 = none) :
    (write code sink).1.taken.toList = sink.taken.toList ++ text (entries code) := by
  have htaken : (write code sink).1.taken = _ := taken_of_writeFrom fun e he => by
    rw [← write, h] at he
    cases he
  rw [htaken, Array.toList_appendList, entries]

theorem taken_writeFrom (code : Array UInt8) (pc : Nat) (sink : Sink) (unlimited : sink.room = none) :
    (writeFrom code pc sink).1.taken = sink.taken ++ text (entriesFrom code pc) := by
  refine taken_of_writeFrom fun e => ?_
  fun_induction writeFrom code pc sink with
  | case1 | case2 | case3 => simp
  | case4 pc sink i hdecode sink' e hwrite =>
    rw [(Sink.write_unlimited unlimited _).1] at hwrite
    cases hwrite
  | case5 pc sink i hdecode sink' hwrite ih =>
    obtain ⟨hput, hroom, -⟩ := Sink.write_unlimited unlimited (Text.utf8 (line pc i))
    rw [hput] at hwrite
    cases hwrite
    exact ih hroom

end Sweep

/-! ### The code of operations -/

section Linked
variable {ops : List Op} {code : Array UInt8} {k : Nat} {op : Op} {i : Instr}

theorem entriesFrom_succ (linked : Linked ops code) (hop : ops[k]? = some op) :
    entriesFrom code (extent (ops.take k)) =
      ((op.instr? fun l => UInt32.ofNat (labelAddress ops l)).map (Prod.mk (extent (ops.take k)))).toList ++
        entriesFrom code (extent (ops.take (k + 1))) := by
  rw [extent_take_succ hop]
  rcases hi : op.instr? (fun l => UInt32.ofNat (labelAddress ops l)) with _ | i
  · rw [Op.size_label hi]
    rfl
  · rw [entriesFrom_ok (decodeAt_image linked.code hop hi), Op.length_instr hi]
    rfl

/-- Whatever comes after some operations comes last in the listing. -/
theorem entries_split (linked : Linked ops code) (hk : k ≤ ops.length) :
    ∃ found, entries code = found ++ entriesFrom code (extent (ops.take k)) := by
  induction k with
  | zero => exact ⟨[], rfl⟩
  | succ k ih =>
    obtain ⟨found, hfound⟩ := ih (Nat.le_of_succ_le hk)
    rw [entriesFrom_succ linked (List.getElem?_eq_getElem hk)] at hfound
    exact ⟨_, by rw [hfound, List.append_assoc]⟩

theorem mem_entries (linked : Linked ops code) (hop : ops[k]? = some op)
    (hi : op.instr? (fun l => UInt32.ofNat (labelAddress ops l)) = some i) :
    (extent (ops.take k), i) ∈ entries code := by
  obtain ⟨found, hfound⟩ := entries_split linked (Nat.le_of_lt (List.getElem?_eq_some_iff.mp hop).1)
  rw [hfound, entriesFrom_succ linked hop, hi]
  simp

/-- Nothing in the code is no instruction. -/
theorem writeFrom_linked (linked : Linked ops code) (k : Nat) {sink : Sink} (unlimited : sink.room = none) :
    (writeFrom code (extent (ops.take k)) sink).2 = none := by
  induction hd : ops.length - k generalizing k sink with
  | zero =>
    rw [List.take_of_length_le (by omega), writeFrom_outside (decodeAt_image_end linked.code)]
  | succ d ih =>
    obtain ⟨op, hop⟩ : ∃ op, ops[k]? = some op := ⟨_, List.getElem?_eq_getElem (by omega)⟩
    have hnext := fun sink unlimited => @ih (k + 1) sink unlimited (by omega)
    rw [extent_take_succ hop] at hnext
    rcases hi : op.instr? (fun l => UInt32.ofNat (labelAddress ops l)) with _ | i
    · rw [Op.size_label hi] at hnext
      exact hnext sink unlimited
    · rw [writeFrom_ok (decodeAt_image linked.code hop hi) unlimited, Op.length_instr hi]
      exact hnext _ (Sink.write_unlimited unlimited _).2.1

end Linked

end Listing

end TapeCode
