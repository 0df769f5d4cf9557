import TapeCode.Proofs.Containment
import TapeCode.Proofs.Safety
import TapeCode.Proofs.Stream

/-!
Code that is listed without an error can be executed. If its jumps go to lines of the listing or to the end of the code, the
machine stands on such a place in every state (`Machine.OnListing`), and what it executes there is the instruction of the
line.
-/

namespace TapeCode

open Instr

/-! ### Places of a listing -/

namespace Listing
variable {code : Array UInt8} {is : List Instr} {pc : Nat} {i : Instr}

/-- Where a line of the listing starts, or where the code ends. -/
def Boundary (code : Array UInt8) (pc : Nat) : Prop :=
  (∃ i, (pc, i) ∈ entries code) ∨ pc = code.size

/-- Every jump of the code goes to the start of a line or to the end. -/
def Closed (code : Array UInt8) : Prop :=
  ∀ pc i target, (pc, i) ∈ entries code → i.target? = some target → Boundary code target.toNat

theorem boundary_stream (pre post : List Instr) (h : code.toList = stream (pre ++ post)) :
    Boundary code (stream pre).length := by
  cases post with
  | nil =>
    rw [List.append_nil] at h
    exact Or.inr (by rw [← h, Array.length_toList])
  | cons i post => exact Or.inl ⟨i, (mem_entries_stream h).mpr ⟨pre, post, rfl, rfl⟩⟩

theorem boundary_zero (h : code.toList = stream is) : Boundary code 0 :=
  boundary_stream [] is h

theorem boundary_behind (h : code.toList = stream is) (hmem : (pc, i) ∈ entries code) : Boundary code (pc + i.length) := by
  obtain ⟨pre, post, rfl, rfl⟩ := (mem_entries_stream h).mp hmem
  rw [← length_stream_snoc]
  apply boundary_stream (pre ++ [i]) post
  rw [h, List.append_cons]

/-- At the start of a line stands the instruction of the line, and at the end of the code stands none. -/
theorem Boundary.decodeAt_eq (h : Boundary code pc) (hcode : code.toList = stream is) :
    decodeAt code pc = .ok i ↔ (pc, i) ∈ entries code := by
  refine ⟨fun hdecode => ?_, decodeAt_of_mem hcode⟩
  rcases h with ⟨j, hmem⟩ | rfl
  · rw [decodeAt_of_mem hcode hmem] at hdecode
    cases hdecode
    exact hmem
  · rw [decodeAt_outside (Nat.le_refl _)] at hdecode
    cases hdecode

end Listing

/-! ### Runs -/

namespace Machine

/-- A machine with the code of a listing, at one of its places. -/
structure OnListing (code : Array UInt8) (m : Machine) : Prop where
  same : m.code = code
  pc : Listing.Boundary code m.pc

section Runs
variable {code : Array UInt8} {is : List Instr} {m m' : Machine} {i : Instr} {f : Fault}

theorem OnListing.instr?_eq (h : OnListing code m) (hcode : code.toList = stream is) :
    m.instr? = some i ↔ (m.pc, i) ∈ Listing.entries code := by
  rw [← h.pc.decodeAt_eq hcode, ← h.same]
  exact ⟨decodeAt_of_instr?, fun hdecode => by rw [instr?, hdecode]⟩

theorem OnListing.stays (h : OnListing code m) (hstays : m.Stays m') : OnListing code m' :=
  ⟨hstays.code.trans h.same, hstays.pc ▸ h.pc⟩

/-- A jump goes to a place of the listing, and the other instructions go to the next one. -/
theorem OnListing.next (h : OnListing code m) (hcode : code.toList = stream is) (closed : Listing.Closed code)
    (hstep : m.step = .next m') : OnListing code m' := by
  obtain ⟨i, hi, hexecute⟩ := exists_instr?_of_next hstep
  have hmem := (h.instr?_eq hcode).mp hi
  have hadvances := advances_of_execute hexecute
  refine ⟨hadvances.code.trans h.same, ?_⟩
  rcases hadvances.pc with hpc | ⟨target, htarget, hpc⟩
  · rw [hpc]
    exact Listing.boundary_behind hcode hmem
  · rw [hpc]
    exact closed m.pc i target hmem htarget

theorem OnListing.run (h : OnListing code m) (hcode : code.toList = stream is) (closed : Listing.Closed code) (fuel : Nat) :
    OnListing code (m.run fuel).1 :=
  run_keeps (I := fun _ => OnListing code) (fun _ _ _ h hstep => h.next hcode closed hstep)
    (fun _ _ _ h hstays => h.stays hstays) [] h fuel

theorem StopsOn.fault (h : m.StopsOn i m' (.fault f)) :
    f.pc = m.pc ∧ f.opcode = i.opcode.toByte ∧ f.cause ≠ .badOpcode ∧ f.cause ≠ .truncated := by
  cases h with
  | refused _ hcause => rcases hcause with rfl | rfl | ⟨cells, rfl⟩ <;> exact ⟨rfl, rfl, by simp, by simp⟩
  | @wordless _ _ _ ended => cases ended <;> exact ⟨rfl, rfl, by simp [causeOf], by simp [causeOf]⟩
  | unflushed | unwritten => exact ⟨rfl, rfl, by simp, by simp⟩

/-- On a listing a machine faults on the instruction of a line, or because it has come to the end of the code. -/
theorem OnListing.fault (h : OnListing code m) (hcode : code.toList = stream is) (hstop : m.step = .stop m' (.fault f)) :
    (∃ i, (f.pc, i) ∈ Listing.entries code ∧ f.opcode = i.opcode.toByte ∧ f.cause ≠ .badOpcode ∧ f.cause ≠ .truncated) ∨
      f = ⟨code.size, Fault.noOpcode, .truncated⟩ := by
  rcases h.pc with ⟨i, hmem⟩ | hend
  · have hi := (h.instr?_eq hcode).mpr hmem
    rw [step_of_instr? hi] at hstop
    obtain ⟨hpc, hrest⟩ := (stopsOn_of_execute hstop).fault
    rw [hpc]
    exact Or.inl ⟨i, hmem, hrest⟩
  · rw [step, h.same, hend, decodeAt_outside (Nat.le_refl _)] at hstop
    cases hstop
    exact Or.inr (by rw [hend])

end Runs

end Machine

/-- What a listing accepts, the machine can execute. Let code be listed without an error, and let its jumps go to the start
of a line or to the end of the code. Whatever the devices of the machine do, in every state that any number of runs brings it
to it stands at the start of a line or at the end of the code. What it executes there is the instruction of the line. A fault
is on a line and neither a bad opcode nor a truncated instruction, or the machine has come to the end of the code. -/
theorem listed_code_is_executable {code : Array UInt8} {sink : Sink} (listed : (Listing.write code sink).2 = none)
    (closed : Listing.Closed code) (source : Source) (device : Sink) (prompting : Bool) :
    (Listing.write code sink).1.taken.toList = sink.taken.toList ++ Listing.text (Listing.entries code) ∧
    ∀ m, (Machine.fresh code source device prompting).Reachable m →
      m.code = code ∧ Listing.Boundary code m.pc ∧
      (∀ i, m.instr? = some i ↔ (m.pc, i) ∈ Listing.entries code) ∧
      (∀ i, (m.pc, i) ∈ Listing.entries code → m.step = m.execute i) ∧
      ∀ fuel m' f, m.run fuel = (m', some (.fault f)) →
        (∃ i, (f.pc, i) ∈ Listing.entries code ∧ f.opcode = i.opcode.toByte ∧ f.cause ≠ .badOpcode ∧
          f.cause ≠ .truncated) ∨
        f = ⟨code.size, 255, .truncated⟩ := by
  have hcode := Listing.stream_of_listed listed
  refine ⟨Listing.taken_of_listed listed, fun m hreach => ?_⟩
  have hon : Machine.OnListing code m := by
    refine hreach.keeps ?_ ?_
    · exact ⟨rfl, Listing.boundary_zero hcode⟩
    · exact fun _ h fuel => h.run hcode closed fuel
  refine ⟨hon.same, hon.pc, fun i => hon.instr?_eq hcode, fun i hmem => ?_, fun fuel m' f hrun => ?_⟩
  · exact Machine.step_of_instr? ((hon.instr?_eq hcode).mpr hmem)
  · obtain ⟨u, v, why, hfinish, hstop, hu⟩ := Machine.run_returned (I := fun _ => Machine.OnListing code)
      (fun _ _ _ h hstep => h.next hcode closed hstep) [] hon hrun
    obtain rfl := Machine.fault_of_finish hfinish
    exact hu.fault hcode hstop

/-- A program with a jump back to its start, which it does not take. The operand before it has bytes that are no
opcodes. -/
theorem executable_to_the_end :
    let code : Array UInt8 := #[0x06, 0xFF, 0xFF, 0xFF, 0xFF, 0x0C, 0, 0, 0, 0]
    (Listing.write code {}).2 = none ∧ Listing.entries code = [(0, .add 0xFFFFFFFF), (5, .jumpIfZero 0)] ∧
      ∀ m, (Machine.fresh code ⟨[], none⟩ {} false).Reachable m → m.pc = 0 ∨ m.pc = 5 ∨ m.pc = 10 := by
  intro code
  have listed : (Listing.write code {}).2 = none := by decide +kernel
  have hentries : Listing.entries code = [(0, .add 0xFFFFFFFF), (5, .jumpIfZero 0)] := by decide +kernel
  have closed : Listing.Closed code := by
    intro pc i target hmem htarget
    simp only [hentries, List.mem_cons, Prod.mk.injEq, List.not_mem_nil, or_false] at hmem
    rcases hmem with ⟨rfl, rfl⟩ | ⟨rfl, rfl⟩
    · cases htarget
    · cases htarget
      exact Or.inl ⟨_, by rw [hentries]; exact List.mem_cons_self⟩
  obtain ⟨-, hruns⟩ := listed_code_is_executable listed closed ⟨[], none⟩ {} false
  refine ⟨listed, hentries, fun m hreach => ?_⟩
  obtain ⟨-, ⟨i, hmem⟩ | hend, -⟩ := hruns m hreach
  · simp only [hentries, List.mem_cons, Prod.mk.injEq, List.not_mem_nil, or_false] at hmem
    rcases hmem with ⟨hpc, -⟩ | ⟨hpc, -⟩
    · exact Or.inl hpc
    · exact Or.inr (Or.inl hpc)
  · exact Or.inr (Or.inr hend)

end TapeCode
