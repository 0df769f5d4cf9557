import TapeCode.Token.Scan

/-!
What scanning finds, byte by byte: the tokens of a text are those of its first byte, if that is a command, and
those of the rest. A token stands on the line that the newlines before it make.
-/

namespace TapeCode

theorem Kind.ofByte?_command {b : UInt8} {kind : Kind} (h : ofByte? b = some kind) :
    kind ≠ .endMark ∧ ∀ code, kind ≠ .unknown code := by
  unfold ofByte? at h
  repeat' split at h
  all_goals cases h
  all_goals exact ⟨Kind.noConfusion, fun _ => Kind.noConfusion⟩

namespace Token

/-- The tokens of a text whose first byte is on a line, with the end mark. -/
def listFrom (line : Int) : List UInt8 → List Token
  | [] => [⟨.endMark, 0, line⟩]
  | b :: rest =>
    if b = 0x0A then listFrom (line + 1) rest
    else
      match Kind.ofByte? b with
      | some kind => ⟨kind, b, line⟩ :: listFrom line rest
      | none => listFrom line rest

theorem toList_scanFrom (line : Int) (found : Array Token) (source : List UInt8) :
    (scanFrom line found source).toList = found.toList ++ listFrom line source := by
  fun_induction scanFrom line found source with
  | case1 line found => simp [listFrom]
  | case2 line found rest ih => rw [ih, listFrom, if_pos rfl]
  | case3 line found b rest hb kind hk ih => simp [ih, listFrom, hb, hk]
  | case4 line found b rest hb hk ih => simp [ih, listFrom, hb, hk]

theorem scan_eq (source : List UInt8) : scan source = listFrom 1 source := by
  rw [scan, toList_scanFrom]
  rfl

/-- The line of a position: one more than the newlines before it. -/
def lineAt (source : List UInt8) (i : Nat) : Int :=
  1 + ((source.take i).count 0x0A : Nat)

theorem lineAt_zero (source : List UInt8) : lineAt source 0 = 1 := rfl

section Steps
variable {pre post : List UInt8} {b : UInt8}

theorem lineAt_succ :
    lineAt (pre ++ b :: post) (pre.length + 1) =
      lineAt (pre ++ b :: post) pre.length + if b = 0x0A then 1 else 0 := by
  have hsucc : (pre ++ b :: post).take (pre.length + 1) = pre ++ [b] := by
    rw [List.take_length_add_append, List.take_succ_cons, List.take_zero]
  rw [lineAt, lineAt, hsucc, List.take_left, List.count_append, List.count_singleton]
  by_cases hb : b = 0x0A
  · simp [hb]
    omega
  · simp [hb]

/-- The tokens from a position on, with the lines they have in the whole text. -/
def following (source : List UInt8) (i : Nat) : List Token :=
  listFrom (lineAt source i) (source.drop i)

theorem following_zero (source : List UInt8) : following source 0 = scan source := by
  rw [following, lineAt_zero, List.drop_zero, scan_eq]

theorem following_length (source : List UInt8) :
    following source source.length = [⟨.endMark, 0, lineAt source source.length⟩] := by
  rw [following, List.drop_length]
  rfl

theorem following_command {kind : Kind} (hk : Kind.ofByte? b = some kind) :
    following (pre ++ b :: post) pre.length =
      ⟨kind, b, lineAt (pre ++ b :: post) pre.length⟩ :: following (pre ++ b :: post) (pre.length + 1) := by
  have hb : b ≠ 0x0A := by
    rintro rfl
    cases hk
  rw [following, following, lineAt_succ, if_neg hb, Int.add_zero, List.drop_left, listFrom, if_neg hb, hk,
    List.drop_length_add_append, List.drop_one, List.tail_cons]

theorem following_comment (hk : Kind.ofByte? b = none) :
    following (pre ++ b :: post) pre.length = following (pre ++ b :: post) (pre.length + 1) := by
  rw [following, following, lineAt_succ, List.drop_left, listFrom, hk, List.drop_length_add_append, List.drop_one,
    List.tail_cons]
  by_cases hb : b = 0x0A
  · rw [if_pos hb, if_pos hb]
  · rw [if_neg hb, if_neg hb, Int.add_zero]

end Steps

end Token

end TapeCode
