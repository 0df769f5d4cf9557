import TapeCode.Proofs.Access
import TapeCode.Proofs.Iteration
import TapeCode.Proofs.Verdict

/-!
The pass with a cursor. Here the tokens stay where they are, and a cursor moves over them: every turn takes the token
under the cursor without asking whether there is one, and a run is followed as far as the list goes. On a list that ends
with an end mark the cursor never leaves the list, and the result is that of the pass.
-/

namespace TapeCode.Compilation

open Brackets

/-- A pass under way. -/
structure Pass where
  current : Nat := 0
  created : Nat := 0
  loops : List Loop := []
  ops : Array Op := opening

namespace Pass

/-- Moves a cursor behind the tokens of a kind. -/
def skip (tokens : Array Token) (kind : Kind) (current : Nat) : Except OutOfBounds Nat :=
  if current < tokens.size then
    match Access.read tokens current with
    | .error e => .error e
    | .ok token => if token.isA kind then skip tokens kind (current + 1) else .ok current
  else .ok current
termination_by tokens.size - current

/-- Follows a run that starts under the cursor, and emits what belongs to its length. -/
def foldRun (tokens : Array Token) (p : Pass) (kind : Kind) (emitted : Int → Array Op) :
    Progress Pass (Except OutOfBounds Compilation) :=
  match skip tokens kind (p.current + 1) with
  | .error e => .stop p (.error e)
  | .ok behind => .next { p with current := behind, ops := p.ops ++ emitted (behind - p.current) }

/-- One turn: takes the token under the cursor. -/
def turn (fresh : Nat → Int) (tokens : Array Token) (p : Pass) : Progress Pass (Except OutOfBounds Compilation) :=
  match Access.read tokens p.current with
  | .error e => .stop p (.error e)
  | .ok token =>
    let taken := { p with current := p.current + 1 }
    match token.kind with
    | .increment => p.foldRun tokens .increment fun n => #[.load, .add n, .store]
    | .decrement => p.foldRun tokens .decrement fun n => #[.load, .sub n, .store]
    | .moveForward => p.foldRun tokens .moveForward fun n => #[moveOp 1 n]
    | .moveBackward => p.foldRun tokens .moveBackward fun n => #[moveOp (-1) n]
    | .output => .next { taken with ops := p.ops ++ #[.load, .putc] }
    | .input => .next { taken with ops := p.ops ++ #[.getc, .store] }
    | .loopBegin =>
      let start := fresh p.created
      let finish := fresh (p.created + 1)
      .next { taken with
        created := p.created + 2
        loops := ⟨start, finish, token.line⟩ :: p.loops
        ops := p.ops ++ #[.newLabel, .newLabel, .mark start, .load, .jumpIfZero finish] }
    | .loopEnd =>
      match p.loops with
      | [] => .stop taken (.ok ⟨p.ops, some (.unmatchedEnd token.line)⟩)
      | loop :: loops => .next { taken with loops, ops := p.ops ++ #[.jump loop.start, .mark loop.finish] }
    | .endMark =>
      match p.loops with
      | loop :: _ => .stop taken (.ok ⟨p.ops, some (.unmatchedBegin loop.line)⟩)
      | [] =>
        if p.current + 1 = tokens.size then .stop taken (.ok ⟨p.ops.push .halt, none⟩)
        else .stop taken (.ok ⟨p.ops, some .badSequence⟩)
    | .unknown _ => .stop taken (.ok ⟨p.ops, some (.unknownToken token)⟩)

end Pass

/-- The whole of it: the last token is looked at first, and then there are as many turns as there are tokens. -/
def byCursor (fresh : Nat → Int) (tokens : Array Token) : Option (Except OutOfBounds Compilation) :=
  if tokens.size = 0 then some (.ok ⟨#[], some .badSequence⟩)
  else
    match Access.read tokens (tokens.size - 1) with
    | .error e => some (.error e)
    | .ok last =>
      if last.kind = .endMark then (Progress.iterate (Pass.turn fresh tokens) tokens.size {}).2
      else some (.ok ⟨#[], some .badSequence⟩)

/-- The last token is an end mark. -/
def Ends (tokens : List Token) : Prop :=
  tokens.getLast?.map Token.kind = some .endMark

section Ends
variable {token : Token} {rest tokens : List Token} {kind : Kind}

theorem Ends.ne_nil (h : Ends tokens) : tokens ≠ [] := by
  rintro rfl
  cases h

theorem Ends.tail (h : Ends (token :: rest)) (hk : token.kind ≠ .endMark) : Ends rest := by
  cases rest with
  | nil => exact absurd (Option.some.inj h) hk
  | cons next rest =>
    rw [Ends, List.getLast?_cons_cons] at h
    exact h

theorem Ends.afterRun (h : Ends rest) (hk : kind ≠ .endMark) : Ends (afterRun kind rest) := by
  induction rest with
  | nil => exact absurd rfl h.ne_nil
  | cons token rest ih =>
    by_cases ht : token.kind = kind
    · rw [afterRun_same ht]
      exact ih (h.tail (ht ▸ hk))
    · rwa [afterRun_other ht]

end Ends

namespace Pass
variable {fresh : Nat → Int} {tokens : List Token} {token : Token} {rest : List Token} {kind : Kind} {p p' : Pass}

theorem read_of_drop {current : Nat} (h : tokens.drop current = token :: rest) :
    Access.read tokens.toArray current = .ok token ∧ tokens.drop (current + 1) = rest ∧ current < tokens.length := by
  have hlt : current < tokens.length := by
    rw [← Nat.not_le, ← List.drop_eq_nil_iff, h]
    exact List.cons_ne_nil token rest
  have hcons := List.drop_eq_getElem_cons hlt
  rw [h] at hcons
  obtain ⟨htoken, hrest⟩ := List.cons.inj hcons
  refine ⟨Access.read_of_eq rfl ?_, hrest.symm, hlt⟩
  rw [List.getElem?_toArray, List.getElem?_eq_getElem hlt, htoken]

/-- A run is followed to its end, and what is left there is what the pass goes on with. -/
theorem skip_eq (kind : Kind) {current : Nat} (h : tokens.drop current = rest) :
    ∃ behind, skip tokens.toArray kind current = .ok behind ∧ tokens.drop behind = afterRun kind rest ∧
      behind = current + (rest.takeWhile (Token.isA kind)).length := by
  induction rest generalizing current with
  | nil =>
    have hsize : ¬current < tokens.toArray.size := Nat.not_lt.mpr (List.drop_eq_nil_iff.mp h)
    rw [skip, if_neg hsize]
    exact ⟨current, rfl, h, rfl⟩
  | cons token rest ih =>
    obtain ⟨hread, hrest, hlt⟩ := read_of_drop h
    rw [skip, if_pos (List.size_toArray ▸ hlt)]
    simp only [hread]
    by_cases hk : token.isA kind = true
    · obtain ⟨behind, hskip, hdrop, hbehind⟩ := ih hrest
      rw [if_pos hk, hskip]
      refine ⟨behind, rfl, ?_, ?_⟩
      · rw [hdrop, afterRun_same (of_decide_eq_true hk)]
      · rw [hbehind, List.takeWhile_cons_of_pos hk, List.length_cons]
        omega
    · rw [if_neg hk]
      refine ⟨current, rfl, ?_, ?_⟩
      · rw [h, afterRun_other fun heq => hk (decide_eq_true heq)]
      · rw [List.takeWhile_cons_of_neg hk]
        rfl

/-- A pass under way on a list: it is still to take what the pass over the list takes. -/
structure Under (fresh : Nat → Int) (tokens : List Token) (p : Pass) : Prop where
  ends : Ends (tokens.drop p.current)
  result : emit fresh p.created p.loops p.ops (tokens.drop p.current) = compile fresh tokens

/-- What a turn comes to: a pass that has moved on, or the result, with the cursor on the list or right behind it. -/
def Fine (fresh : Nat → Int) (tokens : List Token) (p : Pass) : Progress Pass (Except OutOfBounds Compilation) → Prop
  | .next p' => p'.Under fresh tokens ∧ p.current < p'.current
  | .stop p' result => result = .ok (compile fresh tokens) ∧ p'.current ≤ tokens.length

theorem Under.exists_rest (h : p.Under fresh tokens) :
    ∃ token rest, tokens.drop p.current = token :: rest ∧ Ends (token :: rest) ∧
      emit fresh p.created p.loops p.ops (token :: rest) = compile fresh tokens := by
  obtain ⟨token, rest, hrest⟩ := List.exists_cons_of_ne_nil h.ends.ne_nil
  exact ⟨token, rest, hrest, hrest ▸ h.ends, hrest ▸ h.result⟩

theorem fine_foldRun {emitted : Int → Array Op} (hdrop : tokens.drop p.current = token :: rest)
    (hends : Ends rest) (hk : kind ≠ .endMark)
    (hresult : emit fresh p.created p.loops (p.ops ++ emitted (runLength kind rest)) (afterRun kind rest) =
      compile fresh tokens) :
    Fine fresh tokens p (p.foldRun tokens.toArray kind emitted) := by
  obtain ⟨behind, hskip, hbehind, hlength⟩ := skip_eq kind (read_of_drop hdrop).2.1
  have hrun : (behind : Int) - p.current = runLength kind rest := by
    rw [runLength, hlength]
    omega
  rw [foldRun, hskip]
  refine ⟨⟨?_, ?_⟩, ?_⟩
  · simp only [hbehind]
    exact hends.afterRun hk
  · simp only [hbehind, hrun]
    exact hresult
  · simp only [hlength]
    omega

theorem fine_next (hdrop : tokens.drop p.current = token :: rest) (hends : Ends rest)
    (hcurrent : p'.current = p.current + 1)
    (hresult : emit fresh p'.created p'.loops p'.ops rest = compile fresh tokens) :
    Fine fresh tokens p (.next p') := by
  have hrest : tokens.drop p'.current = rest := by
    rw [hcurrent]
    exact (read_of_drop hdrop).2.1
  exact ⟨⟨hrest ▸ hends, hrest ▸ hresult⟩, hcurrent ▸ Nat.lt_succ_self _⟩

theorem fine_stop {c : Compilation} (hdrop : tokens.drop p.current = token :: rest)
    (hcurrent : p'.current = p.current + 1) (hresult : c = compile fresh tokens) :
    Fine fresh tokens p (.stop p' (.ok c)) := by
  refine ⟨congrArg _ hresult, ?_⟩
  rw [hcurrent]
  exact (read_of_drop hdrop).2.2

theorem fine_turn (h : p.Under fresh tokens) : Fine fresh tokens p (p.turn fresh tokens.toArray) := by
  obtain ⟨token, rest, hdrop, hends, hresult⟩ := h.exists_rest
  obtain ⟨hread, hrest, hlt⟩ := read_of_drop hdrop
  have htail : token.kind ≠ .endMark → Ends rest := hends.tail
  rw [emit.eq_def] at hresult
  simp only [turn, hread]
  cases hk : token.kind with
  | increment | decrement =>
    simp only [hk] at hresult
    refine fine_foldRun hdrop (htail ?_) Kind.noConfusion hresult
    rw [hk]
    exact Kind.noConfusion
  | moveForward | moveBackward =>
    simp only [hk, Array.push_eq_append] at hresult
    refine fine_foldRun hdrop (htail ?_) Kind.noConfusion hresult
    rw [hk]
    exact Kind.noConfusion
  | output | input | loopBegin =>
    simp only [hk] at hresult
    refine fine_next hdrop (htail ?_) rfl hresult
    rw [hk]
    exact Kind.noConfusion
  | loopEnd =>
    simp only [hk] at hresult
    rcases hloops : p.loops with _ | ⟨loop, loops⟩
    · simp only [hloops] at hresult
      exact fine_stop hdrop rfl hresult
    · simp only [hloops] at hresult
      refine fine_next hdrop (htail ?_) rfl hresult
      rw [hk]
      exact Kind.noConfusion
  | endMark =>
    simp only [hk] at hresult
    rcases hloops : p.loops with _ | ⟨loop, loops⟩
    · -- The cursor is behind the last token just if nothing is left.
      have hlast : p.current + 1 = tokens.toArray.size ↔ rest = [] := by
        rw [List.size_toArray, ← hrest, List.drop_eq_nil_iff]
        omega
      rcases rest with _ | ⟨next, rest⟩
      · simp only [hloops] at hresult
        simp only [if_pos (hlast.mpr rfl)]
        exact fine_stop hdrop rfl hresult
      · simp only [hloops] at hresult
        simp only [if_neg fun heq => List.cons_ne_nil next rest (hlast.mp heq)]
        exact fine_stop hdrop rfl hresult
    · simp only [hloops] at hresult
      exact fine_stop hdrop rfl hresult
  | unknown code =>
    simp only [hk] at hresult
    exact fine_stop hdrop rfl hresult

theorem under_start (h : Ends tokens) : ({} : Pass).Under fresh tokens := by
  obtain ⟨last, hlast, hk⟩ := Option.map_eq_some_iff.mp h
  refine ⟨h, ?_⟩
  rw [compile, hlast]
  exact (if_pos hk).symm

theorem Under.inside (h : p.Under fresh tokens) : p.current < tokens.length := by
  obtain ⟨token, rest, hdrop, -, -⟩ := h.exists_rest
  exact (read_of_drop hdrop).2.2

/-- Every turn moves the cursor on, so there are not more turns than tokens, and none reads behind the list. -/
theorem Under.iterate (h : p.Under fresh tokens) (n : Nat) :
    (Progress.iterate (turn fresh tokens.toArray) n p).1.current ≤ tokens.length ∧
      (tokens.length - p.current ≤ n →
        (Progress.iterate (turn fresh tokens.toArray) n p).2 = some (.ok (compile fresh tokens))) := by
  induction n generalizing p with
  | zero =>
    have hinside := h.inside
    refine ⟨Nat.le_of_lt hinside, ?_⟩
    intro hfew
    omega
  | succ n ih =>
    have hfine := fine_turn h
    rcases hturn : p.turn fresh tokens.toArray with p' | ⟨p', result⟩
    · rw [hturn] at hfine
      obtain ⟨hunder, hmoved⟩ := hfine
      obtain ⟨hcurrent, hresult⟩ := ih hunder
      rw [Progress.iterate_next hturn]
      refine ⟨hcurrent, ?_⟩
      intro hfew
      exact hresult (by omega)
    · rw [hturn] at hfine
      rw [Progress.iterate_stop hturn, hfine.1]
      exact ⟨hfine.2, fun _ => rfl⟩

end Pass

theorem compile_of_not_ends (fresh : Nat → Int) {tokens : List Token} (h : ¬Ends tokens) :
    compile fresh tokens = ⟨#[], some .badSequence⟩ := by
  rw [compile]
  split
  · next last hlast =>
    have hk : last.kind ≠ .endMark := by
      intro hk
      exact h (by rw [Ends, hlast, Option.map_some, hk])
    exact if_neg hk
  · rfl

theorem byCursor_eq (fresh : Nat → Int) (tokens : List Token) :
    byCursor fresh tokens.toArray = some (.ok (compile fresh tokens)) := by
  rcases tokens.eq_nil_or_concat with rfl | ⟨pre, last, rfl⟩
  · rfl
  · have hsize : (pre ++ [last]).toArray.size = pre.length + 1 := by
      rw [List.size_toArray, List.length_append, List.length_singleton]
    have hread : Access.read (pre ++ [last]).toArray ((pre ++ [last]).toArray.size - 1) = .ok last := by
      refine Access.read_of_eq (k := pre.length) (by omega) ?_
      rw [List.getElem?_toArray, getElem?_middle]
    have hends : Ends (pre ++ [last]) ↔ last.kind = .endMark := by
      rw [Ends, List.getLast?_concat, Option.map_some, Option.some_inj]
    have hne : (pre ++ [last]).toArray.size ≠ 0 := hsize ▸ Nat.succ_ne_zero pre.length
    rw [List.concat_eq_append, byCursor, if_neg hne]
    simp only [hread]
    by_cases hk : last.kind = .endMark
    · rw [if_pos hk]
      exact ((Pass.under_start (hends.mpr hk)).iterate _).2 (by rw [List.size_toArray]; exact Nat.sub_le _ _)
    · rw [if_neg hk, compile_of_not_ends fresh fun h => hk (hends.mp h)]

end TapeCode.Compilation
