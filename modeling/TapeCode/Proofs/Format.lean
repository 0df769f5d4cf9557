import Mathlib.Algebra.Group.Nat.Defs
import TapeCode.Artifact

/-!
The artifact format. What reading makes of a source depends on its bytes and on how they end, not on the chunks in which
they come: it takes the header and the code that the header announces, and leaves what follows. Writing and reading are
inverse to each other, up to the two reserved bytes.
-/

namespace TapeCode

/-! ### Gathering -/

namespace Source

/-- Two sources have the same bytes in whatever chunks, and end alike. -/
def Alike (s t : Source) : Prop :=
  s.bytes = t.bytes ∧ s.failure = t.failure

theorem gatherChunks_flatten (n : Nat) (chunks : List (List UInt8)) :
    (gatherChunks n chunks).1 = chunks.flatten.take n ∧ (gatherChunks n chunks).2.flatten = chunks.flatten.drop n := by
  induction chunks generalizing n with
  | nil => simp [gatherChunks]
  | cons chunk chunks ih =>
    obtain ⟨htaken, hrest⟩ := ih (n - chunk.length)
    by_cases hn : n ≤ chunk.length
    · simp [gatherChunks, hn, List.take_append_of_le_length hn, List.drop_append_of_le_length hn]
    · have hlong : chunk.length ≤ n := by omega
      simp [gatherChunks, hn, htaken, hrest, List.take_append, List.drop_append, List.take_of_length_le hlong,
        List.drop_of_length_le hlong]

@[simp]
theorem gather_fst (s : Source) (n : Nat) : (s.gather n).1 = s.bytes.take n :=
  (gatherChunks_flatten n s.chunks).1

@[simp]
theorem bytes_gather (s : Source) (n : Nat) : (s.gather n).2.bytes = s.bytes.drop n :=
  (gatherChunks_flatten n s.chunks).2

@[simp]
theorem failure_gather (s : Source) (n : Nat) : (s.gather n).2.failure = s.failure :=
  rfl

theorem Alike.gather {s t : Source} (h : s.Alike t) (n : Nat) : (s.gather n).2.Alike (t.gather n).2 :=
  ⟨by rw [bytes_gather, bytes_gather, h.1], h.2⟩

end Source

/-! ### Fields of the header -/

namespace Artifact

/-- The number that bytes spell, the least significant byte first. -/
def number (bytes : List UInt8) : Nat :=
  bytes.foldr (fun b n => b.toNat + 256 * n) 0

/-- The version in the header. -/
def versionField (bytes : List UInt8) : Nat :=
  number ((bytes.drop 4).take 2)

/-- The length of the code in the header. -/
def lengthField (bytes : List UInt8) : Nat :=
  number ((bytes.drop 8).take 4)

/-- Some bytes start with an artifact. -/
def Heads (bytes : List UInt8) : Prop :=
  12 ≤ bytes.length ∧ bytes.take 4 = [0x42, 0x46, 0x58, 0x31] ∧ versionField bytes = 1 ∧
    lengthField bytes ≤ 2 ^ 30 ∧ 12 + lengthField bytes ≤ bytes.length

instance (bytes : List UInt8) : Decidable (Heads bytes) :=
  inferInstanceAs (Decidable (_ ∧ _))

theorem exists_fields {bytes : List UInt8} (h : 12 ≤ bytes.length) :
    ∃ m0 m1 m2 m3 v0 v1 r0 r1 l0 l1 l2 l3 rest,
      bytes = m0 :: m1 :: m2 :: m3 :: v0 :: v1 :: r0 :: r1 :: l0 :: l1 :: l2 :: l3 :: rest := by
  match bytes, h with
  | m0 :: m1 :: m2 :: m3 :: v0 :: v1 :: r0 :: r1 :: l0 :: l1 :: l2 :: l3 :: rest, _ =>
    exact ⟨m0, m1, m2, m3, v0, v1, r0, r1, l0, l1, l2, l3, rest, rfl⟩

theorem checkHeader_eq_ok {bytes : List UInt8} {length : Nat} (h : 12 ≤ bytes.length) :
    checkHeader (bytes.take 12) = .ok length ↔
      bytes.take 4 = magic ∧ versionField bytes = 1 ∧ lengthField bytes ≤ maxCodeSize ∧ length = lengthField bytes := by
  obtain ⟨m0, m1, m2, m3, v0, v1, r0, r1, l0, l1, l2, l3, rest, rfl⟩ := exists_fields h
  have hversion : Word.ofBytes16 v0 v1 = Program.currentVersion ↔ v0.toNat + 256 * v1.toNat = 1 := by
    rw [← UInt16.toNat_inj, Word.toNat_ofBytes16]
    rfl
  have hlength : (Word.ofBytes32 l0 l1 l2 l3).toNat = l0.toNat + 256 * (l1.toNat + 256 * (l2.toNat + 256 * l3.toNat)) := by
    rw [Word.toNat_ofBytes32]
    omega
  simp only [List.take_succ_cons, List.take_zero, checkHeader, hversion, hlength, versionField, lengthField, number,
    List.drop_succ_cons, List.drop_zero, List.foldr_cons, List.foldr_nil, Nat.mul_zero, Nat.add_zero, ne_eq]
  split
  · next hmagic => simp [hmagic]
  · next hmagic =>
    split
    · next hversion => simp [hversion]
    · next hversion =>
      split
      · next hlarge => simp [Nat.not_le.mpr hlarge]
      · next hsmall =>
        simp [Decidable.not_not.mp hmagic, Decidable.not_not.mp hversion, Nat.not_lt.mp hsmall, eq_comm]

/-! ### Reading -/

section Read
variable {source : Source} {length : Nat} {p : Program}

theorem readCode_of_le (h : length ≤ source.bytes.length) :
    readCode length source =
      (.ok ⟨Program.currentVersion, (source.bytes.take length).toArray⟩, (source.gather length).2) := by
  simp [readCode, h]

theorem readCode_of_lt (h : source.bytes.length < length) :
    ∃ e, readCode length source = (.error e, (source.gather length).2) := by
  have hshort : (source.gather length).1.length < length := by
    rw [Source.gather_fst, List.length_take]
    exact Nat.lt_of_le_of_lt (Nat.min_le_right _ _) h
  simp only [readCode, if_pos hshort]
  split <;> exact ⟨_, rfl⟩

theorem read_of_lt (h : source.bytes.length < 12) : ∃ e, read source = (.error e, (source.gather 12).2) := by
  have hshort : (source.gather headerSize).1.length < headerSize := by
    rw [Source.gather_fst, List.length_take]
    exact Nat.lt_of_le_of_lt (Nat.min_le_right _ _) h
  simp only [read, if_pos hshort]
  split <;> exact ⟨_, rfl⟩

theorem read_of_le (h : 12 ≤ source.bytes.length) :
    (∃ e, checkHeader (source.bytes.take 12) = .error e ∧ read source = (.error e, (source.gather 12).2)) ∨
      ∃ length, checkHeader (source.bytes.take 12) = .ok length ∧ read source = readCode length (source.gather 12).2 := by
  have hfull : ¬(source.gather headerSize).1.length < headerSize := by
    rw [Source.gather_fst, List.length_take, headerSize]
    omega
  rw [show source.bytes.take 12 = (source.gather headerSize).1 from (source.gather_fst 12).symm]
  simp only [read, if_neg hfull]
  rcases checkHeader (source.gather headerSize).1 with e | length
  · exact Or.inl ⟨e, rfl, rfl⟩
  · exact Or.inr ⟨length, rfl, rfl⟩

theorem read_heads (h : Heads source.bytes) :
    read source = (.ok ⟨1, ((source.bytes.drop 12).take (lengthField source.bytes)).toArray⟩,
      ((source.gather 12).2.gather (lengthField source.bytes)).2) := by
  obtain ⟨hheader, hmagic, hversion, hlength, hcode⟩ := h
  have hcheck := (checkHeader_eq_ok hheader).mpr ⟨hmagic, hversion, hlength, rfl⟩
  rcases read_of_le hheader with ⟨e, he, -⟩ | ⟨length, hl, hread⟩
  · rw [hcheck] at he
    cases he
  · rw [hcheck] at hl
    obtain rfl := Except.ok.inj hl
    rw [hread, readCode_of_le (by simp; omega), Source.bytes_gather]
    rfl

theorem heads_of_read (h : (read source).1 = .ok p) : Heads source.bytes := by
  rcases Nat.lt_or_ge source.bytes.length 12 with hlt | hheader
  · obtain ⟨e, he⟩ := read_of_lt hlt
    rw [he] at h
    cases h
  · rcases read_of_le hheader with ⟨e, -, hread⟩ | ⟨length, hcheck, hread⟩
    · rw [hread] at h
      cases h
    · obtain ⟨hmagic, hversion, hlength, rfl⟩ := (checkHeader_eq_ok hheader).mp hcheck
      refine ⟨hheader, hmagic, hversion, hlength, Nat.le_of_not_lt fun hlt => ?_⟩
      have hcut : (source.gather 12).2.bytes.length < lengthField source.bytes := by
        rw [Source.bytes_gather, List.length_drop]
        omega
      obtain ⟨e, he⟩ := readCode_of_lt hcut
      rw [hread, he] at h
      cases h

/-! Chunks make no difference. -/

theorem readCode_congr {s t : Source} (h : s.Alike t) (length : Nat) :
    (readCode length s).1 = (readCode length t).1 ∧ (readCode length s).2.Alike (readCode length t).2 := by
  have hrest := h.gather length
  simp only [readCode, Source.gather_fst, Source.failure_gather, h.1, h.2]
  split
  · split <;> exact ⟨rfl, hrest⟩
  · exact ⟨rfl, hrest⟩

theorem read_congr {s t : Source} (h : s.Alike t) :
    (read s).1 = (read t).1 ∧ (read s).2.Alike (read t).2 := by
  have hrest := h.gather headerSize
  simp only [read, Source.gather_fst, Source.failure_gather, h.1, h.2]
  split
  · split <;> exact ⟨rfl, hrest⟩
  · split
    · exact ⟨rfl, hrest⟩
    · exact readCode_congr hrest _

end Read

/-! ### Writing -/

section Write
variable {p : Program} {bytes : List UInt8}

theorem length_header (p : Program) : (header p).length = 12 :=
  rfl

theorem write_unlimited (p : Program) :
    (write p {}).1.count = 12 + p.code.size ∧ (write p {}).1.error = none ∧
      (write p {}).2.taken.toList = encode p := by
  simp [write, Sink.write, Sink.refuses, Sink.put, Sink.fitting, encode, headerSize]

theorem lengthField_encode (hsize : p.code.size ≤ 2 ^ 30) (rest : List UInt8) :
    lengthField (encode p ++ rest) = p.code.size := by
  have hlength : (UInt32.ofNat p.code.size).toNat = p.code.size := by
    rw [UInt32.toNat_ofNat']
    omega
  simp only [lengthField, number, encode, header, magic, Word.bytes16, Word.bytes32, hlength, List.cons_append,
    List.nil_append, List.drop_succ_cons, List.drop_zero, List.take_succ_cons, List.take_zero, List.foldr_cons,
    List.foldr_nil, UInt8.toNat_ofNat']
  omega

theorem heads_encode (hversion : p.version = 1) (hsize : p.code.size ≤ 2 ^ 30) (rest : List UInt8) :
    Heads (encode p ++ rest) := by
  have hlength : (encode p ++ rest).length = 12 + p.code.size + rest.length := by
    simp [encode, length_header, Nat.add_assoc]
  refine ⟨by omega, rfl, ?_, ?_, ?_⟩
  · simp [versionField, number, encode, header, magic, Word.bytes16, hversion]
  · rwa [lengthField_encode hsize]
  · rw [lengthField_encode hsize]
    omega

/-- What was written is read back. -/
theorem read_of_bytes {source : Source} (hversion : p.version = 1) (hsize : p.code.size ≤ 2 ^ 30)
    (hbytes : source.bytes = encode p) : (read source).1 = .ok p := by
  rw [← List.append_nil (encode p)] at hbytes
  have hheads : Heads source.bytes := hbytes ▸ heads_encode hversion hsize []
  have hcode : source.bytes.drop 12 = p.code.toList := by
    rw [hbytes, List.append_nil]
    exact List.drop_left' (length_header p)
  rw [read_heads hheads, hcode, hbytes, lengthField_encode hsize, ← Array.length_toList, List.take_length,
    Array.toArray_toList, ← hversion]

theorem encode_heads (h : Heads bytes) :
    encode ⟨1, ((bytes.drop 12).take (lengthField bytes)).toArray⟩ =
      bytes.take 6 ++ [0, 0] ++ (bytes.take (12 + lengthField bytes)).drop 8 := by
  obtain ⟨hheader, hmagic, hversion, hlength, hcode⟩ := h
  obtain ⟨m0, m1, m2, m3, v0, v1, r0, r1, l0, l1, l2, l3, rest, rfl⟩ := exists_fields hheader
  have hfield : lengthField (m0 :: m1 :: m2 :: m3 :: v0 :: v1 :: r0 :: r1 :: l0 :: l1 :: l2 :: l3 :: rest) =
      (Word.ofBytes32 l0 l1 l2 l3).toNat := by
    simp only [lengthField, number, List.drop_succ_cons, List.drop_zero, List.take_succ_cons, List.take_zero,
      List.foldr_cons, List.foldr_nil, Word.toNat_ofBytes32]
    omega
  have hone : v0 = 1 ∧ v1 = 0 := by
    simp only [versionField, number, List.drop_succ_cons, List.drop_zero, List.take_succ_cons, List.take_zero,
      List.foldr_cons, List.foldr_nil] at hversion
    exact ⟨UInt8.toNat_inj.mp (by simp; omega), UInt8.toNat_inj.mp (by simp; omega)⟩
  rw [hfield] at hcode ⊢
  have hsize : UInt32.ofNat (rest.take (Word.ofBytes32 l0 l1 l2 l3).toNat).toArray.size = Word.ofBytes32 l0 l1 l2 l3 := by
    have hle : (Word.ofBytes32 l0 l1 l2 l3).toNat ≤ rest.length := by
      simp only [List.length_cons] at hcode
      omega
    rw [List.size_toArray, List.length_take, Nat.min_eq_left hle, UInt32.ofNat_toNat]
  obtain ⟨rfl, rfl, rfl, rfl⟩ : m0 = 0x42 ∧ m1 = 0x46 ∧ m2 = 0x58 ∧ m3 = 0x31 := by simpa using hmagic
  obtain ⟨rfl, rfl⟩ := hone
  simp only [encode, header, List.drop_succ_cons, List.drop_zero, hsize, Word.bytes32_ofBytes32]
  rw [Nat.add_comm 12]
  rfl

end Write

end Artifact

open Artifact

/-- Reading an artifact from any source. The chunks of the source do not matter; a program comes out exactly where its
bytes start with an artifact; the program is the code that the header announces, and the bytes behind it stay in the
source; writing it again restores what was read, but for the reserved bytes; and what was written is read back,
whatever follows it. -/
theorem read_artifact_iff_heads (source : Source) :
    (∀ other : Source, other.bytes = source.bytes → other.failure = source.failure →
      (Artifact.read other).1 = (Artifact.read source).1 ∧
        (Artifact.read other).2.bytes = (Artifact.read source).2.bytes ∧
        (Artifact.read other).2.failure = (Artifact.read source).2.failure) ∧
    ((∃ p, (Artifact.read source).1 = .ok p) ↔ Heads source.bytes) ∧
    (∀ p, (Artifact.read source).1 = .ok p →
      p.version = 1 ∧ p.code.toList = (source.bytes.drop 12).take (lengthField source.bytes) ∧
      (Artifact.read source).2.bytes = source.bytes.drop (12 + lengthField source.bytes) ∧
      (Artifact.write p {}).1.error = none ∧
      (Artifact.write p {}).2.taken.toList =
        source.bytes.take 6 ++ [0, 0] ++ (source.bytes.take (12 + lengthField source.bytes)).drop 8) ∧
    ∀ (p : Program) (rest : List UInt8), p.version = 1 → p.code.size ≤ 2 ^ 30 →
      (Artifact.write p {}).1.error = none ∧
      (source.bytes = (Artifact.write p {}).2.taken.toList ++ rest →
        (Artifact.read source).1 = .ok p ∧ (Artifact.read source).2.bytes = rest) := by
  refine ⟨fun other hbytes hfailure => ?_, ⟨?_, ?_⟩, fun p hp => ?_, fun p rest hversion hsize => ?_⟩
  · exact read_congr ⟨hbytes, hfailure⟩
  · rintro ⟨p, hp⟩
    exact heads_of_read hp
  · intro h
    exact ⟨_, congrArg Prod.fst (read_heads h)⟩
  · have h := heads_of_read hp
    rw [read_heads h] at hp ⊢
    obtain rfl := Except.ok.inj hp
    obtain ⟨-, herror, htaken⟩ := write_unlimited ⟨1, ((source.bytes.drop 12).take (lengthField source.bytes)).toArray⟩
    refine ⟨rfl, rfl, ?_, herror, htaken.trans (encode_heads h)⟩
    rw [Source.bytes_gather, Source.bytes_gather, List.drop_drop]
  · obtain ⟨-, herror, htaken⟩ := write_unlimited p
    refine ⟨herror, fun hbytes => ?_⟩
    rw [htaken] at hbytes
    have h : Heads source.bytes := hbytes ▸ heads_encode hversion hsize rest
    have hlength : lengthField source.bytes = p.code.size := hbytes ▸ lengthField_encode hsize rest
    have hcode : source.bytes.drop 12 = p.code.toList ++ rest := by rw [hbytes]; rfl
    rw [read_heads h, Source.bytes_gather, Source.bytes_gather, hlength, hcode, ← Array.length_toList,
      List.take_left, List.drop_left, Array.toArray_toList, ← hversion]
    exact ⟨rfl, rfl⟩

/-- A program of one instruction in three chunks, with reserved bytes that are set, bytes behind it and a device that
fails. -/
theorem read_artifact_in_chunks :
    let bytes : List UInt8 := [0x42, 0x46, 0x58, 0x31, 1, 0, 0xAA, 0xBB, 1, 0, 0, 0, 0x00, 0x99]
    let source : Source := ⟨[bytes.take 5, (bytes.drop 5).take 6, bytes.drop 11], some ⟨"broken"⟩⟩
    source.bytes = bytes ∧ (Artifact.read (Source.ofBytes bytes (some ⟨"broken"⟩))).1 = (Artifact.read source).1 ∧
      (Artifact.read source).1 = .ok ⟨1, #[0x00]⟩ ∧ (Artifact.read source).2.bytes = [0x99] := by
  intro bytes source
  obtain ⟨hchunks, -, hread, -⟩ := read_artifact_iff_heads source
  have hok : (Artifact.read source).1 = .ok ⟨1, #[0x00]⟩ := rfl
  obtain ⟨-, -, hrest, -⟩ := hread _ hok
  exact ⟨by decide, (hchunks _ (by decide) rfl).1, hok, hrest⟩

end TapeCode
