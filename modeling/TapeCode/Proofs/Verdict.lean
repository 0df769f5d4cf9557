import TapeCode.Compile
import TapeCode.Proofs.Brackets
import TapeCode.Proofs.Scanning

/-!
Which programs are accepted, and what is wrong with the others. The verdict on a token list does not depend on
what is emitted (`emit_error`); on a scanned source it follows the brackets: the open loops of the pass are those
of the text read so far (`verdict_following`).
-/

namespace TapeCode

open Brackets

/-- Whether a run of commands of a kind is folded into one. -/
def Kind.foldable : Kind → Bool
  | increment | decrement | moveForward | moveBackward => true
  | endMark | output | input | loopBegin | loopEnd | unknown _ => false

namespace Compilation

/-- The verdict of the pass, from the lines of the open loops, innermost first. -/
def verdict : List Int → List Token → Option CompileError
  | _, [] => some .badSequence
  | lines, token :: rest =>
    match token.kind with
    | .increment | .decrement | .moveForward | .moveBackward | .output | .input => verdict lines rest
    | .loopBegin => verdict (token.line :: lines) rest
    | .loopEnd =>
      match lines with
      | [] => some (.unmatchedEnd token.line)
      | _ :: lines => verdict lines rest
    | .endMark =>
      match lines, rest with
      | line :: _, _ => some (.unmatchedBegin line)
      | [], _ :: _ => some .badSequence
      | [], [] => none
    | .unknown _ => some (.unknownToken token)

section AfterRun
variable {kind : Kind} {token : Token} {tokens : List Token}

theorem afterRun_same (h : token.kind = kind) : afterRun kind (token :: tokens) = afterRun kind tokens := by
  simp [afterRun, Token.isA, h]

theorem afterRun_other (h : token.kind ≠ kind) : afterRun kind (token :: tokens) = token :: tokens := by
  simp [afterRun, Token.isA, h]

end AfterRun

theorem verdict_afterRun {kind : Kind} (hk : kind.foldable = true) (lines : List Int) (tokens : List Token) :
    verdict lines (afterRun kind tokens) = verdict lines tokens := by
  induction tokens with
  | nil => rfl
  | cons token tokens ih =>
    by_cases ht : token.kind = kind
    · rw [afterRun_same ht, ih]
      subst ht
      cases hkind : token.kind <;> rw [hkind] at hk <;> simp only [verdict, hkind] <;> cases hk
    · rw [afterRun_other ht]

/-- What the pass emits has no part in its verdict. -/
theorem emit_error (fresh : Nat → Int) (created : Nat) (loops : List Loop) (ops : Array Op) (tokens : List Token) :
    (emit fresh created loops ops tokens).error = verdict (loops.map (·.line)) tokens := by
  fun_induction emit fresh created loops ops tokens with
  | case1 => rfl
  | case2 _ _ _ token rest hk ih | case3 _ _ _ token rest hk ih | case4 _ _ _ token rest hk ih
  | case5 _ _ _ token rest hk ih =>
    rw [ih, verdict_afterRun rfl]
    simp only [verdict, hk]
  | case6 _ _ _ token rest hk ih | case7 _ _ _ token rest hk ih =>
    rw [ih]
    simp only [verdict, hk]
  | case8 _ _ _ token rest hk start finish ih =>
    rw [ih]
    simp only [verdict, hk, List.map_cons]
  | case9 _ _ token rest hk => simp only [verdict, hk, List.map_nil]
  | case10 _ _ token rest hk loop loops ih =>
    rw [ih]
    simp only [verdict, hk, List.map_cons]
  | case11 _ _ token rest hk loop loops => simp only [verdict, hk, List.map_cons]
  | case12 _ _ token hk next rest => simp only [verdict, hk, List.map_nil]
  | case13 _ _ token hk => simp only [verdict, hk, List.map_nil]
  | case14 _ _ _ token rest code hk => simp only [verdict, hk]

/-! ### Scanned sources -/

/-- A verdict on a source that fits its brackets. -/
inductive Finding (source : List UInt8) : Option CompileError → Prop where
  | accepted (h : Nested Kind.ofByte? source []) : Finding source none
  | unopened {pre post : List UInt8} {b : UInt8} (hsplit : source = pre ++ b :: post)
      (hpre : Nested Kind.ofByte? pre []) (hb : Kind.ofByte? b = some .loopEnd) :
      Finding source (some (.unmatchedEnd (Token.lineAt source pre.length)))
  | unclosed {i : Nat} {stack : List Nat} (h : Nested Kind.ofByte? source (i :: stack)) :
      Finding source (some (.unmatchedBegin (Token.lineAt source i)))

theorem verdict_following {pre : List UInt8} {stack : List Nat} (post : List UInt8)
    (h : Nested Kind.ofByte? pre stack) :
    Finding (pre ++ post) (verdict (stack.map (Token.lineAt (pre ++ post)))
      (Token.following (pre ++ post) pre.length)) := by
  induction post generalizing pre stack with
  | nil =>
    rw [List.append_nil, Token.following_length]
    cases stack with
    | nil => exact .accepted h
    | cons i stack => exact .unclosed h
  | cons b post ih =>
    have hsplit : pre ++ b :: post = (pre ++ [b]) ++ post := by simp
    have hlen : pre.length + 1 = (pre ++ [b]).length := by simp
    cases hk : Kind.ofByte? b with
    | none =>
      rw [Token.following_comment hk, hsplit, hlen]
      exact ih (h.plain (by simp [hk]) (by simp [hk]))
    | some kind =>
      rw [Token.following_command hk, hlen]
      cases kind with
      | increment | decrement | moveForward | moveBackward | output | input =>
        simp only [verdict]
        rw [hsplit]
        exact ih (h.plain (by simp [hk]) (by simp [hk]))
      | loopBegin =>
        simp only [verdict]
        rw [← List.map_cons, hsplit]
        exact ih (h.enter hk)
      | loopEnd =>
        cases stack with
        | nil => exact .unopened rfl h hk
        | cons i stack =>
          simp only [verdict, List.map_cons]
          rw [hsplit]
          exact ih (h.leave hk)
      | endMark => exact absurd rfl (Kind.ofByte?_command hk).1
      | unknown code => exact absurd rfl ((Kind.ofByte?_command hk).2 code)

end Compilation

theorem Token.scan_getLast? (source : List UInt8) :
    ∃ line, (Token.scan source).getLast? = some ⟨.endMark, 0, line⟩ := by
  rw [Token.scan_eq]
  generalize (1 : Int) = line
  fun_induction Token.listFrom line source with
  | case1 line => exact ⟨line, rfl⟩
  | case2 line rest ih => exact ih
  | case3 line b rest _ kind _ ih =>
    obtain ⟨last, hlast⟩ := ih
    exact ⟨last, by rw [List.getLast?_cons, hlast, Option.getD_some]⟩
  | case4 line b rest _ _ ih => exact ih

theorem compile_scan (fresh : Nat → Int) (source : List UInt8) :
    compile fresh (Token.scan source) = Compilation.emit fresh 0 [] Compilation.opening (Token.scan source) := by
  obtain ⟨line, hlast⟩ := Token.scan_getLast? source
  rw [compile, hlast]
  rfl

theorem compile_scan_error (fresh : Nat → Int) (source : List UInt8) :
    Compilation.Finding source (compile fresh (Token.scan source)).error := by
  rw [compile_scan, Compilation.emit_error, ← Token.following_zero]
  exact Compilation.verdict_following source (.closed .nil)

/-- Exactly the sources with balanced brackets are accepted, whatever labels the receiver hands out. In any other
one the first `]` without a `[` is blamed, or the last `[` without a `]` if there is none, at its line. -/
theorem compile_accepts_balanced (fresh : Nat → Int) (source : List UInt8) :
    ((compile fresh (Token.scan source)).error = none ↔ Balanced Kind.ofByte? source) ∧
    (¬Balanced Kind.ofByte? source → ∃ e, (compile fresh (Token.scan source)).error = some e ∧ e.isUnmatched = true ∧
      ((∃ j, UnmatchedEnd Kind.ofByte? source j) → e.complaint = "unmatched ']'" ∧
        ∃ j, UnmatchedEnd Kind.ofByte? source j ∧ (∀ j' < j, ¬UnmatchedEnd Kind.ofByte? source j') ∧
          e.line? = some (1 + ((source.take j).count 0x0A : Nat))) ∧
      ((¬∃ j, UnmatchedEnd Kind.ofByte? source j) → e.complaint = "unmatched '['" ∧
        ∃ i, UnmatchedBegin Kind.ofByte? source i ∧ (∀ i' > i, ¬UnmatchedBegin Kind.ofByte? source i') ∧
          e.line? = some (1 + ((source.take i).count 0x0A : Nat)))) := by
  have hfinding := compile_scan_error fresh source
  generalize (compile fresh (Token.scan source)).error = error at hfinding
  cases hfinding with
  | accepted h =>
    exact ⟨⟨fun _ => h.balanced, fun _ => rfl⟩, fun hno => absurd h.balanced hno⟩
  | @unopened pre post b hsplit hpre hb =>
    subst hsplit
    obtain ⟨hun, hfirst⟩ := hpre.unmatchedEnd hb post
    have hno : ¬Balanced Kind.ofByte? (pre ++ b :: post) := fun hbal => (Nested.closed hbal).not_unmatchedEnd _ hun
    refine ⟨⟨fun h => absurd h (Option.some_ne_none _), fun hbal => absurd hbal hno⟩, fun _ => ⟨_, rfl, rfl, ?_, ?_⟩⟩
    · exact fun _ => ⟨rfl, pre.length, hun, hfirst, rfl⟩
    · exact fun hnone => absurd ⟨_, hun⟩ hnone
  | @unclosed i stack h =>
    obtain ⟨hun, hlast⟩ := h.unmatchedBegin
    have hno : ¬Balanced Kind.ofByte? source := by
      intro hbal
      obtain ⟨j, hj⟩ := hbal.exists_closer hun.1
      exact hun.2 j hj
    refine ⟨⟨fun h => absurd h (Option.some_ne_none _), fun hbal => absurd hbal hno⟩, fun _ => ⟨_, rfl, rfl, ?_, ?_⟩⟩
    · exact fun ⟨j, hj⟩ => absurd hj (h.not_unmatchedEnd j)
    · exact fun _ => ⟨rfl, i, hun, hlast, rfl⟩

theorem compile_blames_third_line :
    ¬Balanced Kind.ofByte? [0x5B, 0x0A, 0x5B, 0x5D, 0x0A, 0x5B] ∧
      ∃ e, (compile (fun k => k) (Token.scan [0x5B, 0x0A, 0x5B, 0x5D, 0x0A, 0x5B])).error = some e ∧
        e.isUnmatched = true ∧ e.line? = some 3 := by
  have hno : ¬Balanced Kind.ofByte? [0x5B, 0x0A, 0x5B, 0x5D, 0x0A, 0x5B] := by decide
  have hthird : (compile (fun k => k) (Token.scan [0x5B, 0x0A, 0x5B, 0x5D, 0x0A, 0x5B])).error =
      some (.unmatchedBegin 3) := by decide +kernel
  obtain ⟨e, he, hu, -⟩ := (compile_accepts_balanced (fun k => k) _).2 hno
  obtain rfl := Option.some.inj (hthird.symm.trans he)
  exact ⟨hno, _, he, hu, rfl⟩

end TapeCode
