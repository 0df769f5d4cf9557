import TapeCode.Proofs.Cursor

/-!
The judgement on any list of tokens, scanned or not. Tokens are looked at from the left until one decides: an unknown one,
an end mark, or a `]` that closes no loop (`Decides`). A halt is emitted at the end of a program that is accepted and
nowhere else.
-/

namespace TapeCode

open Brackets

/-- The kind of a token. Unlike characters, all tokens have one. -/
def Token.kind? (t : Token) : Option Kind := some t.kind

namespace Compilation

/-- The token at a position decides about a list. -/
def Decides (tokens : List Token) (i : Nat) : Prop :=
  ∃ token, tokens[i]? = some token ∧
    ((∃ code, token.kind = .unknown code) ∨ token.kind = .endMark ∨ UnmatchedEnd Token.kind? tokens i)

/-- The loop that begins at a position is open at the end of a list, and it is the last one that is. -/
def Innermost (tokens : List Token) (i : Nat) : Prop :=
  UnmatchedBegin Token.kind? tokens i ∧ ∀ i', i < i' → ¬UnmatchedBegin Token.kind? tokens i'

/-- Nothing in a list decides, and the loops at the given positions are open behind it, the innermost first. -/
structure Passed (tokens : List Token) (stack : List Nat) : Prop where
  commands : ∀ token ∈ tokens, token.kind ≠ .endMark ∧ ∀ code, token.kind ≠ .unknown code
  nested : Nested Token.kind? tokens stack

/-- How a list is judged: what has passed, the token that decides, and the result. -/
inductive Judged (tokens : List Token) : Option CompileError → Prop where
  | unknown {pre post : List Token} {token : Token} {stack : List Nat} {code : Int}
      (hsplit : tokens = pre ++ token :: post) (hpre : Passed pre stack) (hk : token.kind = .unknown code) :
      Judged tokens (some (.unknownToken token))
  | unopened {pre post : List Token} {token : Token} (hsplit : tokens = pre ++ token :: post) (hpre : Passed pre [])
      (hk : token.kind = .loopEnd) : Judged tokens (some (.unmatchedEnd token.line))
  | unclosed {pre post : List Token} {token loop : Token} {i : Nat} {stack : List Nat}
      (hsplit : tokens = pre ++ token :: post) (hpre : Passed pre (i :: stack)) (hk : token.kind = .endMark)
      (hi : pre[i]? = some loop) : Judged tokens (some (.unmatchedBegin loop.line))
  | trailed {pre post : List Token} {token : Token} (hsplit : tokens = pre ++ token :: post) (hpre : Passed pre [])
      (hk : token.kind = .endMark) (hpost : post ≠ []) : Judged tokens (some .badSequence)
  | accepted {pre : List Token} {token : Token} (hsplit : tokens = pre ++ [token]) (hpre : Passed pre [])
      (hk : token.kind = .endMark) : Judged tokens none

/-! ### The verdict -/

namespace Passed
variable {pre : List Token} {stack : List Nat} {token : Token} {i : Nat}

theorem snoc {stack' : List Nat} (h : Passed pre stack) (hk : token.kind ≠ .endMark)
    (hunknown : ∀ code, token.kind ≠ .unknown code) (hnested : Nested Token.kind? (pre ++ [token]) stack') :
    Passed (pre ++ [token]) stack' := by
  refine ⟨?_, hnested⟩
  intro t ht
  rcases List.mem_append.mp ht with ht | ht
  · exact h.commands t ht
  · rw [List.mem_singleton.mp ht]
    exact ⟨hk, hunknown⟩

theorem exists_loop (h : Passed pre (i :: stack)) : ∃ loop, pre[i]? = some loop := by
  obtain ⟨⟨hbegin, -⟩, -⟩ := h.nested.unmatchedBegin
  obtain ⟨loop, hloop, -⟩ := Option.bind_eq_some_iff.mp hbegin
  exact ⟨loop, hloop⟩

end Passed

/-- The line of the token at a position. -/
def lineOf (tokens : List Token) (i : Nat) : Int :=
  (tokens[i]?.map Token.line).getD 0

theorem lineOf_middle (pre : List Token) (token : Token) (post : List Token) :
    lineOf (pre ++ token :: post) pre.length = token.line := by
  rw [lineOf, getElem?_middle]
  rfl

theorem verdict_judged {pre : List Token} {stack : List Nat} (post : List Token) (h : Passed pre stack)
    (hends : Ends post) : Judged (pre ++ post) (verdict (stack.map (lineOf (pre ++ post))) post) := by
  induction post generalizing pre stack with
  | nil => exact absurd rfl hends.ne_nil
  | cons token post ih =>
    have hsplit : pre ++ token :: post = (pre ++ [token]) ++ post := List.append_cons pre token post
    cases hk : token.kind with
    | increment | decrement | moveForward | moveBackward | output | input =>
      have hpassed : Passed (pre ++ [token]) stack :=
        h.snoc (by simp [hk]) (by simp [hk]) (h.nested.plain (by simp [Token.kind?, hk]) (by simp [Token.kind?, hk]))
      simp only [verdict, hk]
      rw [hsplit]
      exact ih hpassed (hends.tail (by simp [hk]))
    | loopBegin =>
      have hpassed : Passed (pre ++ [token]) (pre.length :: stack) :=
        h.snoc (by simp [hk]) (by simp [hk]) (h.nested.enter (congrArg some hk))
      simp only [verdict, hk]
      rw [← lineOf_middle pre token post, ← List.map_cons, hsplit]
      exact ih hpassed (hends.tail (by simp [hk]))
    | loopEnd =>
      cases stack with
      | nil =>
        simp only [verdict, hk, List.map_nil]
        exact .unopened rfl h hk
      | cons i stack =>
        have hpassed : Passed (pre ++ [token]) stack :=
          h.snoc (by simp [hk]) (by simp [hk]) (h.nested.leave (congrArg some hk))
        simp only [verdict, hk, List.map_cons]
        rw [hsplit]
        exact ih hpassed (hends.tail (by simp [hk]))
    | endMark =>
      cases stack with
      | nil =>
        cases post with
        | nil =>
          simp only [verdict, hk, List.map_nil]
          exact .accepted rfl h hk
        | cons next post =>
          simp only [verdict, hk, List.map_nil]
          exact .trailed rfl h hk (List.cons_ne_nil next post)
      | cons i stack =>
        obtain ⟨loop, hloop⟩ := h.exists_loop
        have hline : lineOf (pre ++ token :: post) i = loop.line := by
          rw [lineOf, List.getElem?_append_left (List.getElem?_eq_some_iff.mp hloop).1, hloop]
          rfl
        simp only [verdict, hk, List.map_cons, hline]
        exact .unclosed rfl h hk hloop
    | unknown code =>
      simp only [verdict, hk]
      exact .unknown rfl h hk

theorem compile_error (fresh : Nat → Int) {tokens : List Token} (h : Ends tokens) :
    (compile fresh tokens).error = verdict [] tokens := by
  rw [← (Pass.under_start h).result, emit_error]
  rfl

theorem compile_judged (fresh : Nat → Int) {tokens : List Token} (h : Ends tokens) :
    Judged tokens (compile fresh tokens).error := by
  have hstart : Passed [] [] := ⟨fun _ ht => absurd ht List.not_mem_nil, .closed .nil⟩
  rw [compile_error fresh h]
  exact verdict_judged tokens hstart h

/-! ### The token that decides -/

/-- What the first token that decides makes of a list, by what stands before it and behind it. -/
structure Decision (pre : List Token) (token : Token) (post : List Token) (result : Option CompileError) : Prop where
  unknown (code : Int) : token.kind = .unknown code → result = some (.unknownToken token) ∧
    (CompileError.unknownToken token).message = "line " ++ Text.signedDecimal token.line ++ ": unknown token " ++ token.text
  unopened : token.kind = .loopEnd → result = some (.unmatchedEnd token.line)
  unclosed : token.kind = .endMark → (∃ i, UnmatchedBegin Token.kind? pre i) →
    ∃ i loop, Innermost pre i ∧ pre[i]? = some loop ∧ result = some (.unmatchedBegin loop.line)
  trailed : token.kind = .endMark → (∀ i, ¬UnmatchedBegin Token.kind? pre i) → post ≠ [] → result = some .badSequence
  accepted : token.kind = .endMark → (∀ i, ¬UnmatchedBegin Token.kind? pre i) → post = [] → result = none

theorem Passed.not_decides {pre : List Token} {stack : List Nat} {i : Nat} (h : Passed pre stack) (post : List Token)
    (hi : i < pre.length) : ¬Decides (pre ++ post) i := by
  rintro ⟨token, htoken, hdecides⟩
  rw [List.getElem?_append_left hi] at htoken
  obtain ⟨hend, hunknown⟩ := h.commands token (List.mem_of_getElem? htoken)
  rcases hdecides with ⟨code, hk⟩ | hk | ⟨hk, hno⟩
  · exact hunknown code hk
  · exact hend hk
  · rw [List.getElem?_append_left hi] at hk
    refine h.nested.not_unmatchedEnd i ⟨hk, ?_⟩
    intro j hj
    exact hno j (hj.append_right post)

theorem Passed.no_unmatchedBegin {pre : List Token} (h : Passed pre []) (i : Nat) :
    ¬UnmatchedBegin Token.kind? pre i := by
  rintro ⟨hi, hno⟩
  obtain ⟨j, hj⟩ := h.nested.balanced.exists_closer hi
  exact hno j hj

theorem message_unknownToken (token : Token) : (CompileError.unknownToken token).message =
    "line " ++ Text.signedDecimal token.line ++ ": unknown token " ++ token.text := by
  have htext : ": " ++ "unknown token " = ": unknown token " := rfl
  rw [← htext, ← String.append_assoc, String.append_assoc]
  rfl

/-- The token of a judgement is the first that decides. -/
theorem Judged.decision {tokens : List Token} {result : Option CompileError} (h : Judged tokens result) :
    ∃ pre token post, tokens = pre ++ token :: post ∧ Decides tokens pre.length ∧
      (∀ i, i < pre.length → ¬Decides tokens i) ∧ Decision pre token post result := by
  have decides {pre post : List Token} {token : Token} (hkind : (∃ code, token.kind = .unknown code) ∨
      token.kind = .endMark ∨ UnmatchedEnd Token.kind? (pre ++ token :: post) pre.length) :
      Decides (pre ++ token :: post) pre.length := ⟨token, getElem?_middle pre token post, hkind⟩
  cases h with
  | @unknown pre post token stack code hsplit hpre hk =>
    subst hsplit
    refine ⟨pre, token, post, rfl, decides (Or.inl ⟨code, hk⟩), fun _ => hpre.not_decides _, ?_⟩
    constructor
    case unknown =>
      intro _ _
      exact ⟨rfl, message_unknownToken token⟩
    all_goals simp [hk]
  | @unopened pre post token hsplit hpre hk =>
    subst hsplit
    have hend := hpre.nested.unmatchedEnd (congrArg some hk) post
    refine ⟨pre, token, post, rfl, decides (Or.inr (Or.inr hend.1)), fun _ => hpre.not_decides _, ?_⟩
    constructor <;> simp [hk]
  | @unclosed pre post token loop i stack hsplit hpre hk hi =>
    subst hsplit
    have hinner : Innermost pre i := hpre.nested.unmatchedBegin
    refine ⟨pre, token, post, rfl, decides (Or.inr (Or.inl hk)), fun _ => hpre.not_decides _, ?_⟩
    constructor
    case unclosed =>
      intro _ _
      exact ⟨i, loop, hinner, hi, rfl⟩
    case trailed | accepted =>
      intro _ hno
      exact absurd hinner.1 (hno i)
    all_goals simp [hk]
  | @trailed pre post token hsplit hpre hk hpost =>
    subst hsplit
    refine ⟨pre, token, post, rfl, decides (Or.inr (Or.inl hk)), fun _ => hpre.not_decides _, ?_⟩
    constructor
    case unclosed =>
      rintro _ ⟨i, hopen⟩
      exact absurd hopen (hpre.no_unmatchedBegin i)
    all_goals simp [hk, hpost]
  | @accepted pre token hsplit hpre hk =>
    subst hsplit
    refine ⟨pre, token, [], rfl, decides (Or.inr (Or.inl hk)), fun _ => hpre.not_decides _, ?_⟩
    constructor
    case unclosed =>
      rintro _ ⟨i, hopen⟩
      exact absurd hopen (hpre.no_unmatchedBegin i)
    all_goals simp [hk]

/-! ### The halt -/

theorem moveOp_ne {op : Op} (hstep : ∀ n, op ≠ .step n) (hmove : ∀ n, op ≠ .move n) (direction run : Int) :
    op ≠ moveOp direction run := by
  unfold moveOp
  split
  · exact hstep direction
  · exact hmove _

/-- Halts are emitted as the last operation of an accepted program only. -/
theorem emit_halts (fresh : Nat → Int) (created : Nat) (loops : List Loop) (ops : Array Op) (tokens : List Token)
    (h : Op.halt ∉ ops) :
    ((emit fresh created loops ops tokens).error = none →
      ∃ before : Array Op, Op.halt ∉ before ∧ (emit fresh created loops ops tokens).ops = before.push .halt) ∧
    ((emit fresh created loops ops tokens).error ≠ none → Op.halt ∉ (emit fresh created loops ops tokens).ops) := by
  fun_induction emit fresh created loops ops tokens with
  | case1 | case9 | case11 | case12 | case14 => exact ⟨fun hnone => absurd hnone (Option.some_ne_none _), fun _ => h⟩
  | case2 created loops ops token rest hk ih | case3 created loops ops token rest hk ih
  | case6 created loops ops token rest hk ih | case7 created loops ops token rest hk ih
  | case8 created loops ops token rest hk start finish ih | case10 created ops token rest hk loop loops ih =>
    apply ih
    simp [h]
  | case4 created loops ops token rest hk ih | case5 created loops ops token rest hk ih =>
    have hmove : ∀ direction run, Op.halt ≠ moveOp direction run := moveOp_ne (by simp) (by simp)
    apply ih
    simp [h, hmove]
  | case13 created ops token hk => exact ⟨fun _ => ⟨ops, h, rfl⟩, fun hne => absurd rfl hne⟩

theorem compile_halts (fresh : Nat → Int) (tokens : List Token) :
    ((compile fresh tokens).error = none →
      ∃ before : Array Op, Op.halt ∉ before ∧ (compile fresh tokens).ops = before.push .halt) ∧
    ((compile fresh tokens).error ≠ none → Op.halt ∉ (compile fresh tokens).ops) := by
  by_cases h : Ends tokens
  · rw [← (Pass.under_start h).result]
    exact emit_halts fresh 0 [] opening tokens (by simp [opening])
  · rw [compile_of_not_ends fresh h]
    exact ⟨fun hnone => absurd hnone (Option.some_ne_none _), fun _ => Array.not_mem_empty _⟩

end Compilation

/-- Any list of tokens is judged, and no token behind it is asked for. If it does not end with an end mark nothing is
emitted. Otherwise the first token that decides gives the result. A halt is emitted last and once if there is no error, and
else never. -/
theorem compile_judges_tokens (fresh : Nat → Int) (tokens : List Token) :
    Compilation.byCursor fresh tokens.toArray = some (.ok (compile fresh tokens)) ∧
    (tokens.getLast?.map Token.kind ≠ some .endMark → compile fresh tokens = ⟨#[], some .badSequence⟩) ∧
    (tokens.getLast?.map Token.kind = some .endMark →
      (∀ n, (Progress.iterate (Compilation.Pass.turn fresh tokens.toArray) n {}).1.current ≤ tokens.length) ∧
      ∃ pre token post, tokens = pre ++ token :: post ∧ Compilation.Decides tokens pre.length ∧
        (∀ i, i < pre.length → ¬Compilation.Decides tokens i) ∧
        Compilation.Decision pre token post (compile fresh tokens).error) ∧
    ((compile fresh tokens).error = none →
      ∃ before : Array Op, Op.halt ∉ before ∧ (compile fresh tokens).ops = before.push .halt) ∧
    ((compile fresh tokens).error ≠ none → Op.halt ∉ (compile fresh tokens).ops) := by
  refine ⟨Compilation.byCursor_eq fresh tokens, Compilation.compile_of_not_ends fresh, ?_,
    Compilation.compile_halts fresh tokens⟩
  intro hends
  have hjudged := Compilation.compile_judged fresh hends
  exact ⟨fun n => ((Compilation.Pass.under_start hends).iterate n).1, hjudged.decision⟩

/-- An end mark inside of a loop, and more tokens behind it. -/
theorem end_mark_in_loop_judged :
    let tokens : List Token := [⟨.loopBegin, 91, 3⟩, ⟨.endMark, 0, 4⟩, ⟨.unknown 42, 0, 5⟩, ⟨.endMark, 0, 6⟩]
    (∃ pre token post, tokens = pre ++ token :: post ∧ Compilation.Decides tokens pre.length ∧
      (∀ i, i < pre.length → ¬Compilation.Decides tokens i) ∧
      Compilation.Decision pre token post (some (.unmatchedBegin 3))) ∧
    Op.halt ∉ (compile (fun k => k) tokens).ops := by
  intro tokens
  have herror : (compile (fun k => k) tokens).error = some (.unmatchedBegin 3) := Compilation.compile_error _ rfl
  obtain ⟨-, -, hdecided, -, hhalt⟩ := compile_judges_tokens (fun k => k) tokens
  exact ⟨herror ▸ (hdecided rfl).2, hhalt (herror ▸ Option.some_ne_none _)⟩

end TapeCode
