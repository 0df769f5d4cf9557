import Mathlib.Algebra.Group.Nat.Defs
import TapeCode.Proofs.Format

/-!
Artifacts that are cut off. A sink with too little room is left with the first bytes of an artifact, and the write fails
(`Artifact.write_sink`, `Artifact.error_write`). No such beginning is read as a program, and how reading fails tells where
the artifact was cut (`Artifact.read_beginning`).
-/

namespace TapeCode

namespace Artifact

/-! ### Writing with little room -/

section Write
variable {p : Program} {sink : Sink} {n : Nat}

theorem write_refused (h : sink.refuses (header p) = true) :
    write p sink = (⟨0, some sink.refusal⟩, sink.put (header p)) := by
  simp [write, Sink.write, h]

theorem write_accepted (h : sink.refuses (header p) = false) :
    write p sink = (⟨12 + ((sink.put (header p)).fitting p.code.toList).length,
      ((sink.put (header p)).write p.code.toList).2⟩, (sink.put (header p)).put p.code.toList) := by
  simp [write, Sink.write, h, headerSize]

/-- Header and code are left in the sink as if they were written at once. -/
theorem write_sink (p : Program) (sink : Sink) : (write p sink).2 = sink.put (encode p) := by
  rw [encode, Sink.put_append]
  cases h : sink.refuses (header p) with
  | true => rw [write_refused h, Sink.put_of_refused h]
  | false => rw [write_accepted h]

theorem error_write (p : Program) (sink : Sink) :
    (write p sink).1.error = if sink.refuses (encode p) = true then some sink.refusal else none := by
  rw [encode, Sink.refuses_append]
  cases h : sink.refuses (header p) with
  | true => rw [write_refused h, Bool.true_or, if_pos rfl]
  | false =>
    rw [write_accepted h, Bool.false_or]
    rfl

theorem length_encode (p : Program) : (encode p).length = 12 + p.code.size := by
  rw [encode, List.length_append, length_header, Array.length_toList]

/-- All bytes that were taken are counted, unless it was the header that failed. -/
theorem count_write (p : Program) (hroom : sink.room = some n) :
    (write p sink).1.count = if 12 ≤ n then min n (12 + p.code.size) else 0 := by
  have hrefuses : sink.refuses (header p) = true ↔ n < 12 := by
    simp [Sink.refuses_iff, hroom, length_header]
  by_cases hn : 12 ≤ n
  · have haccepts := Bool.eq_false_iff.mpr (mt hrefuses.mp (Nat.not_lt.mpr hn))
    rw [write_accepted haccepts, if_pos hn]
    simp only [Sink.put, Sink.fitting, hroom, Option.map_some, length_header, List.length_take, Array.length_toList]
    omega
  · rw [write_refused (hrefuses.mpr (Nat.lt_of_not_le hn)), if_neg hn]

end Write

/-! ### Reading what is left -/

section Read
variable {p : Program} {source : Source}

theorem read_short (h : source.bytes.length < 12) (hends : source.failure = none) :
    (read source).1 = .error (if source.bytes = [] then .badMagic else .cutHeader) := by
  have htake : source.bytes.take 12 = source.bytes := List.take_of_length_le (Nat.le_of_lt h)
  simp only [read, Source.gather_fst, headerSize, htake, if_pos h, Source.failure_gather, hends]
  cases source.bytes <;> rfl

theorem readCode_short {length : Nat} (h : source.bytes.length < length) (hends : source.failure = none) :
    (readCode length source).1 = .error (if source.bytes = [] then .noCode else .cutCode) := by
  have htake : source.bytes.take length = source.bytes := List.take_of_length_le (Nat.le_of_lt h)
  simp only [readCode, Source.gather_fst, htake, if_pos h, Source.failure_gather, hends]
  cases source.bytes <;> rfl

theorem checkHeader_header (hversion : p.version = 1) (hsize : p.code.size ≤ 2 ^ 30) :
    checkHeader (header p) = .ok p.code.size := by
  have hheads := heads_encode hversion hsize []
  have hlength := lengthField_encode hsize []
  rw [List.append_nil] at hheads hlength
  obtain ⟨hlong, hmagic, hfield, hsmall, -⟩ := hheads
  have hheader : (encode p).take 12 = header p := List.take_left' (length_header p)
  rw [← hheader, checkHeader_eq_ok hlong]
  exact ⟨hmagic, hfield, hsmall, hlength.symm⟩

/-- Why the first bytes of an artifact are not read, if there are so many of them. -/
def shortage (n : Nat) : ReadError :=
  if n = 0 then .badMagic
  else if n < 12 then .cutHeader
  else if n = 12 then .noCode
  else .cutCode

theorem length_beginning {n : Nat} (hn : n < 12 + p.code.size) (hbytes : source.bytes = (encode p).take n) :
    source.bytes.length = n := by
  rw [hbytes, List.length_take, length_encode]
  exact Nat.min_eq_left (Nat.le_of_lt hn)

theorem read_beginning (hversion : p.version = 1) (hsize : p.code.size ≤ 2 ^ 30) {n : Nat} (hn : n < 12 + p.code.size)
    (hbytes : source.bytes = (encode p).take n) (hends : source.failure = none) :
    (read source).1 = .error (shortage n) := by
  have hlength := length_beginning hn hbytes
  have hempty : source.bytes = [] ↔ n = 0 := by rw [← hlength, List.length_eq_zero_iff]
  rcases Nat.lt_or_ge n 12 with hshort | hlong
  · rw [read_short (hlength ▸ hshort) hends]
    simp only [hempty, shortage, if_pos hshort]
  · have hheader : source.bytes.take 12 = header p := by
      rw [hbytes, List.take_take, Nat.min_eq_left hlong]
      exact List.take_left' (length_header p)
    have hcheck := checkHeader_header hversion hsize
    rcases read_of_le (hlength ▸ hlong) with ⟨e, he, -⟩ | ⟨length, hok, hread⟩
    · rw [hheader, hcheck] at he
      cases he
    · rw [hheader, hcheck] at hok
      obtain rfl := Except.ok.inj hok
      have hrest : (source.gather 12).2.bytes.length = n - 12 := by
        rw [Source.bytes_gather, List.length_drop, hlength]
      have hcut : (source.gather 12).2.bytes = [] ↔ n = 12 := by
        rw [← List.length_eq_zero_iff, hrest]
        omega
      have hshort : (source.gather 12).2.bytes.length < p.code.size := by omega
      rw [hread, readCode_short hshort hends]
      simp only [hcut, shortage, if_neg (show ¬n = 0 by omega), if_neg (Nat.not_lt.mpr hlong)]

end Read

end Artifact

open Artifact

/-- A cut-off artifact is never taken for a program. A sink with room for `n` bytes takes the first `n` bytes of header and
code. The write fails just if these are not all, and counts what was taken, or nothing if the header did not fit. What a
failed write has left is not read back, in whatever chunks it comes: without any bytes it is no artifact, inside of the
header the data ends unexpectedly, right behind it there is no code, and later the code ends unexpectedly. -/
theorem cut_off_artifact_not_read {p : Program} (hversion : p.version = 1) (hsize : p.code.size ≤ 2 ^ 30) {sink : Sink}
    {n : Nat} (hroom : sink.room = some n) :
    (Artifact.write p sink).2.taken.toList =
      sink.taken.toList ++ (header p ++ p.code.toList).take (min n (12 + p.code.size)) ∧
    (Artifact.write p sink).1.error = (if n < 12 + p.code.size then some sink.refusal else none) ∧
    (Artifact.write p sink).1.count = (if 12 ≤ n then min n (12 + p.code.size) else 0) ∧
    ((Artifact.write p sink).1.error ≠ none → ∀ source : Source, source.failure = none →
      (Artifact.write p sink).2.taken.toList = sink.taken.toList ++ source.bytes →
      ∃ e, (Artifact.read source).1 = .error e ∧
        (source.bytes.length = 0 → e = .badMagic) ∧
        (1 ≤ source.bytes.length → source.bytes.length ≤ 11 → e.message = "unexpected EOF") ∧
        (source.bytes.length = 12 → e.message = "reading code section: EOF") ∧
        (12 < source.bytes.length → e.message = "reading code section: unexpected EOF")) := by
  have hrefuses : sink.refuses (encode p) = true ↔ n < 12 + p.code.size := by
    simp [Sink.refuses_iff, hroom, length_encode]
  have htaken : (Artifact.write p sink).2.taken.toList = sink.taken.toList ++ (encode p).take n := by
    rw [write_sink, Sink.taken_put, hroom, Option.getD_some]
  have herror : (Artifact.write p sink).1.error = if n < 12 + p.code.size then some sink.refusal else none := by
    simp only [error_write, hrefuses]
  refine ⟨?_, herror, count_write p hroom, ?_⟩
  · rw [htaken, encode, ← length_encode, ← encode, List.take_eq_take_min]
  · intro hfails source hends hleft
    have hn : n < 12 + p.code.size :=
      Nat.lt_of_not_le fun hall => hfails (herror.trans (if_neg (Nat.not_lt.mpr hall)))
    have hbytes : source.bytes = (encode p).take n := List.append_cancel_left (hleft.symm.trans htaken)
    refine ⟨shortage n, read_beginning hversion hsize hn hbytes hends, ?_⟩
    rw [length_beginning hn hbytes]
    refine ⟨?_, ?_, ?_, ?_⟩
    · rintro rfl
      rfl
    · intro hone hheader
      rw [shortage, if_neg (by omega), if_pos (by omega)]
      rfl
    · rintro rfl
      rfl
    · intro hcode
      rw [shortage, if_neg (by omega), if_neg (by omega), if_neg (by omega)]
      rfl

/-- Two instructions, of which one is left, read in two chunks that do not end with the header. -/
theorem second_instruction_cut_off :
    let p : Program := ⟨1, #[0x04, 0x00]⟩
    let sink : Sink := { room := some 13 }
    let left : List UInt8 := [0x42, 0x46, 0x58, 0x31, 1, 0, 0, 0, 2, 0, 0, 0, 0x04]
    p.version = 1 ∧ p.code.size ≤ 2 ^ 30 ∧ sink.room = some 13 ∧ (Artifact.write p sink).1.count = 13 ∧
      (Artifact.write p sink).1.error = some ⟨"no room"⟩ ∧ (Artifact.write p sink).2.taken.toList = left ∧
      ∃ e, (Artifact.read ⟨[left.take 7, left.drop 7], none⟩).1 = .error e ∧
        e.message = "reading code section: unexpected EOF" := by
  intro p sink left
  have hsize : p.code.size ≤ 2 ^ 30 := by decide
  obtain ⟨htaken, herror, hcount, hread⟩ := @cut_off_artifact_not_read p rfl hsize sink 13 rfl
  have hleft : (header p ++ p.code.toList).take (min 13 (12 + p.code.size)) = left := by decide
  rw [hleft] at htaken
  obtain ⟨e, he, -, -, -, hmessage⟩ := hread (herror ▸ Option.some_ne_none _) ⟨[left.take 7, left.drop 7], none⟩ rfl htaken
  exact ⟨rfl, hsize, rfl, hcount, herror, htaken, e, he, hmessage (by decide)⟩

end TapeCode
