import TapeCode.Stream.Source

/-!
Byte sinks. A sink may have room for a limited number of bytes; a write that does not fit leaves the part
that fits and fails.
-/

namespace TapeCode

/-- An output device: the room it has left (`none`: without limit), how it refuses what does not fit, and
the bytes it has taken. -/
structure Sink where
  room : Option Nat := none
  refusal : DeviceError := ⟨"no room"⟩
  taken : Array UInt8 := #[]

namespace Sink

/-- The part of some bytes for which there is room. -/
def fitting (s : Sink) (bytes : List UInt8) : List UInt8 :=
  match s.room with
  | none => bytes
  | some n => bytes.take n

/-- Whether a write of some bytes fails. -/
def refuses (s : Sink) (bytes : List UInt8) : Bool :=
  match s.room with
  | none => false
  | some n => n < bytes.length

/-- The sink after a write, which takes the fitting part. -/
def put (s : Sink) (bytes : List UInt8) : Sink :=
  { s with room := s.room.map (· - bytes.length), taken := s.taken ++ s.fitting bytes }

/-- One write, with its failure. -/
def write (s : Sink) (bytes : List UInt8) : Sink × Option DeviceError :=
  let error := if s.refuses bytes then some s.refusal else none
  (s.put bytes, error)

theorem fitting_of_accepted {s : Sink} {bytes : List UInt8} (h : s.refuses bytes = false) : s.fitting bytes = bytes := by
  unfold refuses at h
  unfold fitting
  split
  · rfl
  · next hroom =>
    simp only [hroom, decide_eq_false_iff_not, Nat.not_lt] at h
    exact List.take_of_length_le h

theorem refuses_iff {s : Sink} {bytes : List UInt8} :
    s.refuses bytes = true ↔ ∃ n, s.room = some n ∧ n < bytes.length := by
  cases hroom : s.room <;> simp [refuses, hroom]

/-- A sink takes as many bytes as it has room for. -/
theorem taken_put (s : Sink) (bytes : List UInt8) :
    (s.put bytes).taken.toList = s.taken.toList ++ bytes.take (s.room.getD bytes.length) := by
  cases hroom : s.room <;> simp [put, fitting, hroom]

@[simp] theorem refusal_put (s : Sink) (bytes : List UInt8) : (s.put bytes).refusal = s.refusal := rfl

@[simp] theorem put_nil (s : Sink) : s.put [] = s := by
  obtain ⟨room, refusal, taken⟩ := s
  cases room <;> simp [put, fitting]

@[simp] theorem refuses_nil (s : Sink) : s.refuses [] = false := by
  cases hroom : s.room <;> simp [refuses, hroom]

/-- What two writes in a row leave in the sink, one write of all the bytes leaves there. -/
theorem put_append (s : Sink) (bytes more : List UInt8) : s.put (bytes ++ more) = (s.put bytes).put more := by
  cases hroom : s.room with
  | none => simp [put, fitting, hroom, ← Array.toList_inj]
  | some n => simp [put, fitting, hroom, ← Array.toList_inj, List.take_append, Nat.sub_sub]

/-- It fails just if one of the two does. -/
theorem refuses_append (s : Sink) (bytes more : List UInt8) :
    s.refuses (bytes ++ more) = (s.refuses bytes || (s.put bytes).refuses more) := by
  cases hroom : s.room with
  | none => simp [refuses, put, hroom]
  | some n =>
    rw [Bool.eq_iff_iff]
    simp only [refuses, put, hroom, Option.map_some, List.length_append, Bool.or_eq_true, decide_eq_true_eq]
    omega

/-- A sink that has refused something is full. -/
theorem put_of_refused {s : Sink} {bytes : List UInt8} (h : s.refuses bytes = true) (more : List UInt8) :
    (s.put bytes).put more = s.put bytes := by
  cases hroom : s.room with
  | none => simp [refuses, hroom] at h
  | some n =>
    have hfull : n - bytes.length = 0 := by
      simp only [refuses, hroom, decide_eq_true_eq] at h
      exact Nat.sub_eq_zero_of_le (Nat.le_of_lt h)
    simp [put, fitting, hroom, hfull]

end Sink

end TapeCode
