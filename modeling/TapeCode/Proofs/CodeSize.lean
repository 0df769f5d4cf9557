import Mathlib.Algebra.Group.Nat.Defs
import TapeCode.Proofs.Assembling
import TapeCode.Proofs.Lockstep
import TapeCode.Proofs.Pipeline

/-!
How long code gets. A run takes at most seven bytes for each of its commands (`extent_blockOf_le`), so the code of a program
is bounded by the number of its commands. A program that is not too long for an artifact has no address and no length that
would be cut off at 32 bits.
-/

namespace TapeCode

open Brackets

namespace Kind

/-- The commands: `+ - > < . , [ ]`. -/
def commandBytes : List UInt8 :=
  [0x2B, 0x2D, 0x3E, 0x3C, 0x2E, 0x2C, 0x5B, 0x5D]

theorem isSome_ofByte? (b : UInt8) : (ofByte? b).isSome = decide (b ∈ commandBytes) := by
  unfold ofByte?
  repeat' split
  all_goals simp_all [commandBytes]

theorem length_filterMap_ofByte? (source : List UInt8) :
    (source.filterMap ofByte?).length = source.countP (· ∈ commandBytes) := by
  rw [List.length_filterMap_eq_countP]
  simp only [isSome_ofByte?]

end Kind

namespace Translation

open Layout

section Extent
variable {gs : List Group} {g : Group} {n : Nat}

/-- No command takes more than seven bytes. -/
theorem extent_blockOf_le (fresh : Nat → Int) (gs : List Group) (k : Nat) (hg : 0 < g.count) :
    extent (blockOf fresh gs k g) ≤ 7 * g.count := by
  have hseven : extent (blockOf fresh gs k g) ≤ 7 := by
    cases hk : g.kind with
    | moveForward | moveBackward =>
      simp only [blockOf, hk, Compilation.moveOp]
      split
      · exact Nat.le_add_left 1 6
      · exact Nat.le_add_left 5 2
    | loopEnd =>
      simp only [blockOf, hk]
      split
      · exact Nat.le_add_left 5 2
      · exact Nat.zero_le 7
    | _ => simp [blockOf, hk, extent, Op.size]
  omega

theorem extent_body_le (fresh : Nat → Int) (hgs : ∀ g ∈ gs, g.Proper) (hn : n ≤ gs.length) :
    extent (body fresh gs n) ≤ 7 * Group.offset gs n := by
  induction n with
  | zero => exact Nat.zero_le _
  | succ n ih =>
    have hg : gs[n]? = some gs[n] := List.getElem?_eq_getElem hn
    have hblock := extent_blockOf_le fresh gs n (hgs gs[n] (List.getElem_mem hn)).pos
    have hbody := ih (Nat.le_of_succ_le hn)
    rw [body_succ, block_eq fresh hg, extent_append, Group.offset_succ hg]
    omega

theorem extent_program_le (source : List UInt8) :
    extent (program source) ≤ 8 + 7 * (source.filterMap Kind.ofByte?).length := by
  have hruns : runs source = Group.fold (source.filterMap Kind.ofByte?) ++ [⟨.endMark, 1⟩] := Group.fold_endMark _
  generalize hgs : Group.fold (source.filterMap Kind.ofByte?) = gs at hruns
  have hproper : ∀ g ∈ gs ++ [(⟨.endMark, 1⟩ : Group)], g.Proper := hruns ▸ Group.proper_fold _
  have hle : gs.length ≤ (gs ++ [(⟨.endMark, 1⟩ : Group)]).length := by
    rw [List.length_append]
    exact Nat.le_add_right _ _
  have hoffset : Group.offset (gs ++ [⟨.endMark, 1⟩]) gs.length = (source.filterMap Kind.ofByte?).length := by
    rw [Group.offset, List.take_left, ← hgs, Group.flatMap_fold]
  have hbody := extent_body_le newLabel hproper hle
  rw [hoffset] at hbody
  rw [program, hruns, operations_endMark, extent_append, extent_append]
  -- The eight bytes that no command accounts for.
  have hopening : extent Compilation.opening.toList = 7 := rfl
  have hhalt : extent [.halt] = 1 := rfl
  omega

end Extent

/-- Runs are not longer than all commands together. -/
theorem fits_runs {source : List UInt8} (h : (source.filterMap Kind.ofByte?).length < 2147483648) :
    ∀ g ∈ runs source, g.Fits := by
  intro g hg
  rw [runs, Group.fold_endMark] at hg
  rcases List.mem_append.mp hg with hg | hg
  · have hcount := (Group.runs_fold _).count_le hg
    exact ⟨fun _ => by omega, fun _ => by omega⟩
  · rw [List.mem_singleton.mp hg]
    exact Group.fits_of_not_move rfl

end Translation

/-- Every label is marked inside the code or at its end. -/
theorem Assembler.Took.label_le {a : Assembler} {ops : List Op} {p : Program} (h : Took a ops) (hlink : a.link.2 = .ok p)
    {l address : Nat} (hl : a.labels[l]? = some (some address)) : address ≤ p.code.size := by
  have hmarked := (h.awaits (failure_of_link hlink)).assembled.marked l
  rw [markIn, hl, Option.join_some] at hmarked
  split at hmarked
  · rw [(h.linked hlink).size_code, Option.some.inj hmarked]
    exact Layout.extent_take_le _ _
  · cases hmarked

section Build
variable {source : List UInt8}

theorem build_fit (hbal : Balanced Kind.ofByte? source) (hfits : ∀ g ∈ Translation.runs source, g.Fits) :
    build source = .ok (Layout.binary (Translation.program source)) := by
  obtain ⟨hruns, hlink⟩ := Assembler.link_compile (compile_balanced hbal)
  rw [Token.scan_kinds] at hruns hlink
  exact build_succeeded hbal (hlink.trans (Translation.linking_fit hruns hfits))

end Build

/-- A balanced source of fewer than 2 ^ 31 commands has a program, of at most seven bytes for each command and eight more.
If that is within the limit for artifacts, then nothing is cut off at 32 bits, and the program is read back from what is
written. -/
theorem balanced_source_builds {source : List UInt8} {m : Nat} (hbal : Balanced Kind.ofByte? source)
    (hm : source.countP (· ∈ Kind.commandBytes) = m) (hlt : m < 2 ^ 31) :
    ∃ p, build source = .ok p ∧ p.code.size ≤ 8 + 7 * m ∧
      (m ≤ 153391688 →
        p.code.size ≤ 2 ^ 30 ∧
        (∀ l address : Nat, (({} : Assembler).compile (Token.scan source)).1.labels[l]? = some (some address) →
          address ≤ p.code.size ∧ (UInt32.ofNat address).toNat = address) ∧
        (UInt32.ofNat p.code.size).toNat = p.code.size ∧
        (Artifact.write p {}).1.error = none ∧
        Artifact.lengthField (Artifact.write p {}).2.taken.toList = p.code.size ∧
        ∀ file : Source, file.bytes = (Artifact.write p {}).2.taken.toList → (Artifact.read file).1 = .ok p) := by
  rw [← Kind.length_filterMap_ofByte?] at hm
  have hbuild := build_fit hbal (Translation.fits_runs (hm ▸ hlt))
  obtain ⟨hwritten, htaken⟩ := (Artifact.write_unlimited (Layout.binary (Translation.program source))).2
  have hcode := (build_linked hbuild).2.size_code
  have hextent := Translation.extent_program_le source
  rw [← hcode, hm] at hextent
  refine ⟨_, hbuild, hextent, fun hsmall => ?_⟩
  have hsize : (Layout.binary (Translation.program source)).code.size ≤ 2 ^ 30 := by omega
  have hword {n : Nat} (hn : n ≤ (Layout.binary (Translation.program source)).code.size) : (UInt32.ofNat n).toNat = n :=
    UInt32.toNat_ofNat_of_lt' (Nat.lt_of_le_of_lt (Nat.le_trans hn hsize) (by decide))
  refine ⟨hsize, ?_, hword (Nat.le_refl _), hwritten, ?_, ?_⟩
  · intro l address hl
    have hle := (Assembler.Took.applyAll _).label_le (build_ok hbuild).2 hl
    exact ⟨hle, hword hle⟩
  · rw [htaken, ← List.append_nil (Artifact.encode _)]
    exact Artifact.lengthField_encode hsize []
  · intro file hfile
    exact Artifact.read_of_bytes rfl hsize (hfile.trans htaken)

/-- Nothing is folded in the first text, and every command takes seven bytes. The second one has a loop. -/
theorem every_command_seven_bytes :
    (∃ p, build [0x2B, 0x2D, 0x78, 0x2B, 0x2D] = .ok p ∧ p.code.size ≤ 8 + 7 * 4 ∧ p.code.size = 36 ∧
      ∀ file : Source, file.bytes = (Artifact.write p {}).2.taken.toList → (Artifact.read file).1 = .ok p) ∧
    ∃ p, build [0x5B, 0x2D, 0x5D] = .ok p ∧ p.code.size ≤ 8 + 7 * 3 ∧
      (({} : Assembler).compile (Token.scan [0x5B, 0x2D, 0x5D])).1.labels[1]? = some (some 25) ∧
      (UInt32.ofNat 25).toNat = 25 := by
  constructor
  · have hbal : Balanced Kind.ofByte? [0x2B, 0x2D, 0x78, 0x2B, 0x2D] := by decide
    obtain ⟨p, hbuild, hsize, hfits⟩ := balanced_source_builds hbal rfl (by decide)
    obtain ⟨-, -, -, -, -, hread⟩ := hfits (by decide)
    refine ⟨p, hbuild, hsize, ?_, hread⟩
    have hcode : (build [0x2B, 0x2D, 0x78, 0x2B, 0x2D]).toOption.map (·.code.size) = some 36 := by decide +kernel
    rw [hbuild] at hcode
    exact Option.some.inj hcode
  · have hbal : Balanced Kind.ofByte? [0x5B, 0x2D, 0x5D] := by decide
    have hlabel : (({} : Assembler).compile (Token.scan [0x5B, 0x2D, 0x5D])).1.labels[1]? = some (some 25) := by
      decide +kernel
    obtain ⟨p, hbuild, hsize, hfits⟩ := balanced_source_builds hbal rfl (by decide)
    obtain ⟨-, hlabels, -⟩ := hfits (by decide)
    exact ⟨p, hbuild, hsize, hlabel, (hlabels 1 25 hlabel).2⟩

end TapeCode
