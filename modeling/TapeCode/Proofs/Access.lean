/-!
Access by index. An index that a memory does not have is an error here, so that "no access goes astray" is a statement
about the program that makes the accesses: it never ends with that error.
-/

namespace TapeCode

/-- An access at an index that a memory does not have. -/
structure OutOfBounds where
  index : Int
  size : Nat
  deriving DecidableEq, Repr

namespace Access
variable {α : Type}

/-- The element at an index. -/
def read (memory : Array α) (index : Int) : Except OutOfBounds α :=
  if index < 0 then .error ⟨index, memory.size⟩
  else
    match memory[index.toNat]? with
    | some a => .ok a
    | none => .error ⟨index, memory.size⟩

/-- Puts an element at an index. -/
def write (memory : Array α) (index : Int) (a : α) : Except OutOfBounds (Array α) :=
  if index < 0 ∨ memory.size ≤ index then .error ⟨index, memory.size⟩
  else .ok (memory.setIfInBounds index.toNat a)

variable {memory : Array α} {index : Int} {k : Nat}

theorem read_natCast (memory : Array α) (k : Nat) :
    read memory k = (memory[k]?).elim (.error ⟨k, memory.size⟩) .ok := by
  rw [read, if_neg (Int.not_lt.mpr (Int.natCast_nonneg k)), Int.toNat_natCast]
  rcases memory[k]? with _ | a <;> rfl

theorem read_of_eq {a : α} (hindex : index = k) (h : memory[k]? = some a) : read memory index = .ok a := by
  rw [hindex, read_natCast, h]
  rfl

theorem write_of_eq (a : α) (hindex : index = k) (h : k < memory.size) :
    write memory index a = .ok (memory.set k a h) := by
  have hinside : ¬(index < 0 ∨ memory.size ≤ index) := by
    intro hout
    omega
  rw [write, if_neg hinside, hindex, Int.toNat_natCast, Array.setIfInBounds, dif_pos h]

end Access

end TapeCode
