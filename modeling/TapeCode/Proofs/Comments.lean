import TapeCode.Proofs.CodeSize
import TapeCode.Proofs.Judgement

/-!
Comments and layout have no part in a program. Compiling looks at the lines of tokens only to name one in an error, so it
commutes with any change of lines (`compile_mapLine`). Two sources with the same commands are scanned to the same tokens
with other lines (`Token.numbered_scan`). A receiver that goes by what it is asked for hands out the same labels to both
(`Compilation.emit_answered`).
-/

namespace TapeCode

/-! ### Other lines -/

/-- A token on another line. -/
def Token.mapLine (f : Int → Int) (t : Token) : Token :=
  { t with line := f t.line }

/-- A loop that was opened on another line. -/
def Loop.mapLine (f : Int → Int) (loop : Loop) : Loop :=
  { loop with line := f loop.line }

/-- An error that blames another line. -/
def CompileError.mapLine (f : Int → Int) : CompileError → CompileError
  | badSequence => badSequence
  | unmatchedEnd line => unmatchedEnd (f line)
  | unmatchedBegin line => unmatchedBegin (f line)
  | unknownToken token => unknownToken (token.mapLine f)

namespace Compilation

/-- A compilation whose error blames another line. The operations know of no lines. -/
def mapLine (f : Int → Int) (c : Compilation) : Compilation :=
  { c with error := c.error.map (CompileError.mapLine f) }

section Lines
variable (f : Int → Int)

theorem kind_mapLine (t : Token) : (t.mapLine f).kind = t.kind := rfl

theorem isA_mapLine (kind : Kind) : Token.isA kind ∘ Token.mapLine f = Token.isA kind := rfl

theorem runLength_mapLine (kind : Kind) (rest : List Token) :
    runLength kind (rest.map (Token.mapLine f)) = runLength kind rest := by
  rw [runLength, List.takeWhile_map, isA_mapLine, List.length_map, runLength]

theorem afterRun_mapLine (kind : Kind) (rest : List Token) :
    afterRun kind (rest.map (Token.mapLine f)) = (afterRun kind rest).map (Token.mapLine f) := by
  rw [afterRun, List.dropWhile_map, isA_mapLine, afterRun]

/-- The pass does not look at lines: with other ones it emits the same, and blames the other line. -/
theorem emit_mapLine (fresh : Nat → Int) (created : Nat) (loops : List Loop) (ops : Array Op) (tokens : List Token) :
    emit fresh created (loops.map (Loop.mapLine f)) ops (tokens.map (Token.mapLine f)) =
      (emit fresh created loops ops tokens).mapLine f := by
  fun_induction emit fresh created loops ops tokens with
  | case1 created loops ops =>
    rw [List.map_nil, emit]
    rfl
  | case2 created loops ops token rest hk ih | case3 created loops ops token rest hk ih
  | case4 created loops ops token rest hk ih | case5 created loops ops token rest hk ih =>
    rw [emit.eq_def]
    simp only [List.map_cons, kind_mapLine, hk]
    rw [← ih, runLength_mapLine, afterRun_mapLine]
  | case6 created loops ops token rest hk ih | case7 created loops ops token rest hk ih
  | case8 created loops ops token rest hk start finish ih | case10 created ops token rest hk loop loops ih =>
    rw [emit.eq_def]
    simp only [List.map_cons, kind_mapLine, hk]
    exact ih
  | case9 created ops token rest hk | case11 created ops token rest hk loop loops
  | case12 created ops token hk next rest | case13 created ops token hk | case14 created loops ops token rest code hk =>
    rw [emit.eq_def]
    simp only [List.map_cons, kind_mapLine, hk]
    rfl

end Lines

end Compilation

theorem compile_mapLine (f : Int → Int) (fresh : Nat → Int) (tokens : List Token) :
    compile fresh (tokens.map (Token.mapLine f)) = (compile fresh tokens).mapLine f := by
  rw [compile, compile, List.getLast?_map]
  cases tokens.getLast? with
  | none => rfl
  | some last =>
    by_cases hlast : last.kind = .endMark
    · have hmapped : (last.mapLine f).kind = .endMark := hlast
      simp only [Option.map_some, if_pos hlast, if_pos hmapped]
      exact Compilation.emit_mapLine f fresh 0 [] Compilation.opening tokens
    · have hmapped : (last.mapLine f).kind ≠ .endMark := hlast
      simp only [Option.map_some, if_neg hlast, if_neg hmapped]
      rfl

/-! ### Sources with the same commands -/

namespace Token

/-- A token without its line. -/
def command (t : Token) : Kind × UInt8 := (t.kind, t.char)

/-- Tokens that have their positions for lines. -/
def numbered (tokens : List Token) : List Token :=
  tokens.mapIdx fun i t => { t with line := i }

theorem getElem?_numbered (tokens : List Token) (i : Nat) :
    (numbered tokens)[i]? = tokens[i]?.map fun t => { t with line := i } := by
  rw [numbered, List.getElem?_mapIdx]

theorem lineOf_numbered {tokens : List Token} {i : Nat} {token : Token} (h : (numbered tokens)[i]? = some token) :
    ∃ t, tokens[i]? = some t ∧ Compilation.lineOf tokens token.line.toNat = t.line := by
  rw [getElem?_numbered] at h
  obtain ⟨t, ht, rfl⟩ := Option.map_eq_some_iff.mp h
  refine ⟨t, ht, ?_⟩
  rw [Compilation.lineOf, Int.toNat_natCast, ht]
  rfl

/-- Any tokens are the numbered ones with the lines put back. -/
theorem eq_map_numbered (tokens : List Token) :
    tokens = (numbered tokens).map (mapLine fun i => Compilation.lineOf tokens i.toNat) := by
  apply List.ext_getElem?
  intro i
  rw [List.getElem?_map, getElem?_numbered]
  cases htoken : tokens[i]? with
  | none => rfl
  | some token => simp [mapLine, Compilation.lineOf, htoken]

theorem numbered_congr {tokens tokens' : List Token} (h : tokens.map command = tokens'.map command) :
    numbered tokens = numbered tokens' := by
  apply List.ext_getElem?
  intro i
  have hi := congrArg (·[i]?) h
  simp only [List.getElem?_map] at hi
  rw [getElem?_numbered, getElem?_numbered]
  rcases htoken : tokens[i]? with _ | ⟨kind, char, line⟩ <;> rcases htoken' : tokens'[i]? with _ | ⟨kind', char', line'⟩ <;>
    simp_all [command]

theorem command_scan (source : List UInt8) :
    (scan source).map command = (source.filterMap fun b => (Kind.ofByte? b).map (·, b)) ++ [(.endMark, 0)] := by
  rw [scan_eq]
  generalize (1 : Int) = line
  fun_induction listFrom line source with
  | case1 line => rfl
  | case2 line rest ih =>
    rw [ih]
    rfl
  | case3 line b rest hb kind hk ih => simp [ih, hk, command]
  | case4 line b rest hb hk ih => simp [ih, hk]

/-- Only commands are scanned, so sources with the same commands have the same numbered tokens. -/
theorem numbered_scan {a b : List UInt8} (h : a.filter (· ∈ Kind.commandBytes) = b.filter (· ∈ Kind.commandBytes)) :
    numbered (scan a) = numbered (scan b) := by
  have hcommands (source : List UInt8) : (source.filterMap fun b => (Kind.ofByte? b).map (·, b)) =
      (source.filter (· ∈ Kind.commandBytes)).filterMap fun b => (Kind.ofByte? b).map (·, b) := by
    rw [List.filterMap_filter]
    apply List.filterMap_congr
    intro b _
    rw [← Kind.isSome_ofByte?]
    cases Kind.ofByte? b <;> rfl
  apply numbered_congr
  rw [command_scan, command_scan, hcommands a, hcommands b, h]

end Token

/-- Two errors about brackets say the same, but for the line: each names the line of the same token in its own list. -/
structure CompileError.Alike (tokens tokens' : List Token) (e e' : CompileError) : Prop where
  unmatched : e.isUnmatched = true ∧ e'.isUnmatched = true
  complaint : e.complaint = e'.complaint
  message : ∃ (i : Nat) (token token' : Token), tokens[i]? = some token ∧ tokens'[i]? = some token' ∧
    e.message = "line " ++ Text.signedDecimal token.line ++ ": " ++ e.complaint ∧
    e'.message = "line " ++ Text.signedDecimal token'.line ++ ": " ++ e'.complaint

/-! ### Receivers -/

namespace Compilation

/-- What is asked for at the begin of a loop: its two labels, and the jump behind it. -/
def loopEntry (start finish : Int) : Array Op :=
  #[.newLabel, .newLabel, .mark start, .load, .jumpIfZero finish]

theorem count_loopEntry (ops : Array Op) (start finish : Int) :
    (ops ++ loopEntry start finish).toList.count .newLabel = ops.toList.count .newLabel + 2 := by
  simp [loopEntry]

/-- What the first token of a list makes the pass do, whatever labels it gets: it asks for operations other than labels and
goes on, or it opens a loop, or it stops. -/
inductive Turn (created : Nat) (loops : List Loop) (ops : Array Op) (tokens : List Token) : Prop where
  | plain (loops' : List Loop) (block : Array Op) (rest : List Token) (hblock : Op.newLabel ∉ block.toList)
      (hrest : rest.length < tokens.length)
      (heq : ∀ fresh, emit fresh created loops ops tokens = emit fresh created loops' (ops ++ block) rest)
  | enter (line : Int) (rest : List Token) (hrest : rest.length < tokens.length)
      (heq : ∀ fresh, emit fresh created loops ops tokens =
        emit fresh (created + 2) (⟨fresh created, fresh (created + 1), line⟩ :: loops)
          (ops ++ loopEntry (fresh created) (fresh (created + 1))) rest)
  | stop (block : Array Op) (error : Option CompileError) (hblock : Op.newLabel ∉ block.toList)
      (heq : ∀ fresh, emit fresh created loops ops tokens = ⟨ops ++ block, error⟩)

theorem Turn.fail {created : Nat} {loops : List Loop} {ops : Array Op} {tokens : List Token} {error : Option CompileError}
    (heq : ∀ fresh, emit fresh created loops ops tokens = ⟨ops, error⟩) : Turn created loops ops tokens :=
  .stop #[] error List.not_mem_nil fun fresh => by rw [heq, Array.append_empty]

theorem turn (created : Nat) (loops : List Loop) (ops : Array Op) (tokens : List Token) : Turn created loops ops tokens := by
  cases tokens with
  | nil => exact .fail fun fresh => by rw [emit]
  | cons token rest =>
    have heq (fresh : Nat → Int) := emit.eq_def fresh created loops ops (token :: rest)
    have hrun (kind : Kind) : (afterRun kind rest).length < (token :: rest).length :=
      Nat.lt_succ_of_le (length_afterRun_le kind rest)
    have hmove (direction run : Int) : Op.newLabel ∉ #[moveOp direction run].toList := by
      simp [moveOp_ne]
    cases hk : token.kind with
    | increment | decrement =>
      simp only [hk] at heq
      exact .plain loops _ _ (by simp) (hrun _) heq
    | moveForward | moveBackward =>
      simp only [hk, Array.push_eq_append] at heq
      exact .plain loops _ _ (hmove _ _) (hrun _) heq
    | output | input =>
      simp only [hk] at heq
      exact .plain loops _ rest (by simp) (Nat.lt_succ_self _) heq
    | loopBegin =>
      simp only [hk] at heq
      exact .enter token.line rest (Nat.lt_succ_self _) heq
    | loopEnd =>
      cases loops with
      | nil =>
        simp only [hk] at heq
        exact .fail heq
      | cons loop loops =>
        simp only [hk] at heq
        exact .plain loops _ rest (by simp) (Nat.lt_succ_self _) heq
    | endMark =>
      cases loops with
      | nil =>
        cases rest with
        | nil =>
          simp only [hk, Array.push_eq_append] at heq
          exact .stop _ _ (by simp) heq
        | cons next rest =>
          simp only [hk] at heq
          exact .fail heq
      | cons loop loops =>
        simp only [hk] at heq
        exact .fail heq
    | unknown code =>
      simp only [hk] at heq
      exact .fail heq

/-- A receiver goes by what it was asked for before: `fresh` are the labels that it hands out when it is asked for some
operations. -/
def Answers (reply : List Op → Int) (fresh : Nat → Int) (ops : List Op) : Prop :=
  ∀ pre post, ops = pre ++ .newLabel :: post → fresh (pre.count .newLabel) = reply pre

section Answers
variable {reply : List Op → Int} {fresh known : Nat → Int} {ops block : List Op}

theorem Answers.of_not_mem (h : .newLabel ∉ ops) : Answers reply fresh ops := by
  intro pre post hsplit
  exact absurd (hsplit ▸ List.mem_append_right pre List.mem_cons_self) h

theorem Answers.append (h : Answers reply fresh ops) (hblock : .newLabel ∉ block) : Answers reply fresh (ops ++ block) := by
  intro pre post hsplit
  rcases List.append_eq_append_iff.mp hsplit with ⟨between, -, hmiddle⟩ | ⟨between, hpre, hmiddle⟩
  · exact absurd (hmiddle ▸ List.mem_append_right between List.mem_cons_self) hblock
  · cases between with
    | nil =>
      rw [List.nil_append] at hmiddle
      exact absurd (hmiddle ▸ List.mem_cons_self) hblock
    | cons op between =>
      obtain ⟨rfl, -⟩ := List.cons.inj hmiddle
      exact h pre between hpre

theorem Answers.label (h : Answers reply fresh ops) (hlabel : fresh (ops.count .newLabel) = reply ops) :
    Answers reply fresh (ops ++ [.newLabel]) := by
  intro pre post hsplit
  rcases post.eq_nil_or_concat with rfl | ⟨post, last, rfl⟩
  · obtain ⟨rfl, -⟩ := List.append_inj' hsplit rfl
    exact hlabel
  · rw [List.concat_eq_append, ← List.cons_append, ← List.append_assoc] at hsplit
    exact h pre post (List.append_inj' hsplit rfl).1

/-- Only the labels that are handed out matter. -/
theorem Answers.congr (h : Answers reply known ops) (hsame : ∀ k < ops.count .newLabel, fresh k = known k) :
    Answers reply fresh ops := by
  intro pre post hsplit
  rw [hsame, h pre post hsplit]
  rw [hsplit, List.count_append, List.count_cons_self]
  omega

theorem Answers.labels {all : List Op} (h : Answers reply fresh all) (hstarts : ops ++ [.newLabel, .newLabel] <+: all) :
    fresh (ops.count .newLabel) = reply ops ∧ fresh (ops.count .newLabel + 1) = reply (ops ++ [.newLabel]) := by
  obtain ⟨post, rfl⟩ := hstarts
  have hsecond := h (ops ++ [Op.newLabel]) post (by simp)
  rw [List.count_append, List.count_singleton_self] at hsecond
  exact ⟨h ops (Op.newLabel :: post) (by simp), hsecond⟩

end Answers

/-- What was asked for stays. -/
theorem isPrefix_emit (fresh : Nat → Int) (created : Nat) (loops : List Loop) (ops : Array Op) (tokens : List Token) :
    ops.toList <+: (emit fresh created loops ops tokens).ops.toList := by
  induction hlength : tokens.length using Nat.strongRecOn generalizing created loops ops tokens with
  | _ n ih =>
    subst hlength
    cases turn created loops ops tokens with
    | plain loops' block rest hblock hrest heq =>
      have hmore := ih rest.length hrest created loops' (ops ++ block) rest rfl
      rw [Array.toList_append] at hmore
      rw [heq]
      exact (List.prefix_append _ _).trans hmore
    | enter line rest hrest heq =>
      rw [heq]
      refine List.IsPrefix.trans ?_ (ih rest.length hrest _ _ _ rest rfl)
      rw [Array.toList_append]
      exact List.prefix_append _ _
    | stop block error hblock heq =>
      rw [heq, Array.toList_append]
      exact List.prefix_append _ _

/-- The two labels of a loop are asked for before anything else of it. -/
theorem isPrefix_loopBegin (fresh : Nat → Int) (created : Nat) (loops : List Loop) (ops : Array Op) (start finish : Int)
    (rest : List Token) : ops.toList ++ [.newLabel, .newLabel] <+:
      (emit fresh created loops (ops ++ loopEntry start finish) rest).ops.toList := by
  refine List.IsPrefix.trans ?_ (isPrefix_emit ..)
  rw [Array.toList_append]
  exact (List.prefix_append_right_inj _).mpr ⟨[.mark start, .load, .jumpIfZero finish], rfl⟩

theorem count_plain {ops block : Array Op} (hblock : .newLabel ∉ block.toList) :
    (ops ++ block).toList.count .newLabel = ops.toList.count .newLabel := by
  rw [Array.toList_append, List.count_append, List.count_eq_zero_of_not_mem hblock, Nat.add_zero]

section Receiver
variable {reply : List Op → Int} {fresh fresh' : Nat → Int} {ops : Array Op} {created : Nat}

/-- Every receiver can answer: the labels that it has handed out go on with those of the loops to come. -/
theorem exists_answers {known : Nat → Int} (loops : List Loop) (tokens : List Token)
    (hcreated : ops.toList.count .newLabel = created) (h : Answers reply known ops.toList) :
    ∃ fresh, (∀ k < created, fresh k = known k) ∧
      Answers reply fresh (emit fresh created loops ops tokens).ops.toList := by
  induction hlength : tokens.length using Nat.strongRecOn generalizing known created loops ops tokens with
  | _ n ih =>
    subst hlength
    cases turn created loops ops tokens with
    | plain loops' block rest hblock hrest heq =>
      have hanswers := h.append hblock
      rw [← Array.toList_append] at hanswers
      obtain ⟨fresh, hknown, hfresh⟩ := ih rest.length hrest loops' rest ((count_plain hblock).trans hcreated) hanswers rfl
      exact ⟨fresh, hknown, heq fresh ▸ hfresh⟩
    | enter line rest hrest heq =>
      -- The two labels of the loop are fixed now, and the loops to come get theirs from the induction hypothesis.
      let start := reply ops.toList
      let finish := reply (ops.toList ++ [.newLabel])
      let known' := Function.update (Function.update known created start) (created + 1) finish
      have hstart : known' created = start := by simp [known']
      have hfinish : known' (created + 1) = finish := by simp [known']
      have hbefore (k : Nat) (hk : k < created) : known' k = known k := by
        simp [known', Nat.ne_of_lt hk, Nat.ne_of_lt (Nat.lt_succ_of_lt hk)]
      have hanswers : Answers reply known' (ops ++ loopEntry start finish).toList := by
        have hfirst := (h.congr (hcreated ▸ hbefore)).label (hcreated ▸ hstart)
        have hsecond := hfirst.label (by rw [List.count_append, hcreated]; exact hfinish)
        have hall := hsecond.append (show Op.newLabel ∉ [.mark start, .load, .jumpIfZero finish] by simp)
        simpa [loopEntry] using hall
      have hcount : (ops ++ loopEntry start finish).toList.count .newLabel = created + 2 := by
        rw [count_loopEntry, hcreated]
      obtain ⟨fresh, hknown, hfresh⟩ := ih rest.length hrest (⟨start, finish, line⟩ :: loops) rest hcount hanswers rfl
      refine ⟨fresh, fun k hk => (hknown k (by omega)).trans (hbefore k hk), ?_⟩
      rw [heq, (hknown created (by omega)).trans hstart, (hknown (created + 1) (by omega)).trans hfinish]
      exact hfresh
    | stop block error hblock heq =>
      refine ⟨known, fun _ _ => rfl, ?_⟩
      rw [heq, Array.toList_append]
      exact h.append hblock

/-- Labels that go by what was asked for before are the same whenever the same is asked for. -/
theorem emit_answered {loops : List Loop} {tokens : List Token} (hcreated : ops.toList.count .newLabel = created)
    (h : Answers reply fresh (emit fresh created loops ops tokens).ops.toList)
    (h' : Answers reply fresh' (emit fresh' created loops ops tokens).ops.toList) :
    emit fresh created loops ops tokens = emit fresh' created loops ops tokens := by
  induction hlength : tokens.length using Nat.strongRecOn generalizing created loops ops tokens with
  | _ n ih =>
    subst hlength
    cases turn created loops ops tokens with
    | plain loops' block rest hblock hrest heq =>
      rw [heq] at h h' ⊢
      rw [heq]
      exact ih rest.length hrest ((count_plain hblock).trans hcreated) h h' rfl
    | enter line rest hrest heq =>
      -- Up to here both passes have asked for the same, so they are answered with the same two labels.
      rw [heq] at h h' ⊢
      rw [heq]
      obtain ⟨hstart, hfinish⟩ := h.labels (isPrefix_loopBegin ..)
      obtain ⟨hstart', hfinish'⟩ := h'.labels (isPrefix_loopBegin ..)
      rw [hcreated] at hstart hfinish hstart' hfinish'
      rw [hstart'.trans hstart.symm, hfinish'.trans hfinish.symm] at h' ⊢
      exact ih rest.length hrest (by rw [count_loopEntry, hcreated]) h h' rfl
    | stop block error hblock heq => rw [heq, heq]

end Receiver

end Compilation

open Compilation

section Layout
variable {reply : List Op → Int} {fresh fresh' : Nat → Int} {a b source : List UInt8} {e : CompileError}

theorem compile_answered {tokens : List Token} (h : Answers reply fresh (compile fresh tokens).ops.toList)
    (h' : Answers reply fresh' (compile fresh' tokens).ops.toList) : compile fresh tokens = compile fresh' tokens := by
  by_cases hends : Ends tokens
  · rw [← (Pass.under_start hends).result] at h h' ⊢
    rw [← (Pass.under_start hends).result]
    exact emit_answered rfl h h'
  · rw [compile_of_not_ends fresh hends, compile_of_not_ends fresh' hends]

theorem exists_answers_compile (reply : List Op → Int) (tokens : List Token) :
    ∃ fresh, Answers reply fresh (compile fresh tokens).ops.toList := by
  by_cases hends : Ends tokens
  · have hopening : Answers reply (fun _ => 0) opening.toList := Answers.of_not_mem (by simp [opening])
    obtain ⟨fresh, -, hfresh⟩ := exists_answers [] tokens rfl hopening
    exact ⟨fresh, (Pass.under_start hends).result ▸ hfresh⟩
  · refine ⟨fun _ => 0, ?_⟩
    rw [compile_of_not_ends _ hends]
    exact Answers.of_not_mem List.not_mem_nil

theorem compile_numbered (fresh : Nat → Int) (tokens : List Token) :
    compile fresh tokens = (compile fresh (Token.numbered tokens)).mapLine fun i => lineOf tokens i.toNat :=
  (congrArg (compile fresh) (Token.eq_map_numbered tokens)).trans (compile_mapLine _ fresh _)

theorem isUnmatched_mapLine (f : Int → Int) (e : CompileError) : (e.mapLine f).isUnmatched = e.isUnmatched := by
  cases e <;> rfl

theorem Compilation.Judged.blames {tokens : List Token} (h : Judged tokens (some e)) (hunmatched : e.isUnmatched = true) :
    ∃ (i : Nat) (token : Token), tokens[i]? = some token ∧
      (e = .unmatchedEnd token.line ∨ e = .unmatchedBegin token.line) := by
  cases h with
  | unknown | trailed => cases hunmatched
  | @unopened pre post token hsplit => exact ⟨pre.length, token, hsplit ▸ Brackets.getElem?_middle pre token post, Or.inl rfl⟩
  | @unclosed pre post token loop i stack hsplit hpre hk hi =>
    refine ⟨i, loop, ?_, Or.inr rfl⟩
    rw [hsplit, List.getElem?_append_left (List.getElem?_eq_some_iff.mp hi).1, hi]

theorem alike_of_numbered {tokens tokens' : List Token} (h : Token.numbered tokens = Token.numbered tokens')
    (hjudged : Judged (Token.numbered tokens) (some e)) (hunmatched : e.isUnmatched = true) :
    CompileError.Alike tokens tokens' (e.mapLine fun i => lineOf tokens i.toNat)
      (e.mapLine fun i => lineOf tokens' i.toNat) := by
  obtain ⟨i, token, htoken, he⟩ := hjudged.blames hunmatched
  obtain ⟨t, ht, hline⟩ := Token.lineOf_numbered htoken
  obtain ⟨t', ht', hline'⟩ := Token.lineOf_numbered (h ▸ htoken)
  rcases he with rfl | rfl
  all_goals
    rw [CompileError.mapLine, CompileError.mapLine, hline, hline']
    exact ⟨⟨rfl, rfl⟩, rfl, i, t, t', ht, ht', rfl, rfl⟩

theorem ends_scan (source : List UInt8) : Ends (Token.scan source) := by
  obtain ⟨line, hlast⟩ := Token.scan_getLast? source
  rw [Ends, hlast]
  rfl

theorem ends_numbered {tokens : List Token} (h : Ends tokens) : Ends (Token.numbered tokens) := by
  have hlast := congrArg (fun list => list.getLast?.map Token.kind) (Token.eq_map_numbered tokens)
  simp only [List.getLast?_map, Option.map_map] at hlast
  exact hlast.symm.trans h

theorem isUnmatched_of_scan (h : (compile fresh (Token.scan source)).error = some e) : e.isUnmatched = true := by
  rcases (compile_scan_error fresh source).none_or_unmatched with ⟨hnone, -⟩ | ⟨e', he, hunmatched, -⟩
  · rw [h] at hnone
    cases hnone
  · rw [h] at he
    cases he
    exact hunmatched

/-- The same labels: the same operations, and errors that are alike. -/
theorem compile_layout (h : a.filter (· ∈ Kind.commandBytes) = b.filter (· ∈ Kind.commandBytes)) (fresh : Nat → Int) :
    (compile fresh (Token.scan a)).ops = (compile fresh (Token.scan b)).ops ∧
    ((compile fresh (Token.scan a)).error = none ∧ (compile fresh (Token.scan b)).error = none ∨
      ∃ e e', (compile fresh (Token.scan a)).error = some e ∧ (compile fresh (Token.scan b)).error = some e' ∧
        CompileError.Alike (Token.scan a) (Token.scan b) e e') := by
  have hnumbered := Token.numbered_scan h
  have ha := compile_numbered fresh (Token.scan a)
  have hb := compile_numbered fresh (Token.scan b)
  rw [← hnumbered] at hb
  refine ⟨by rw [ha, hb]; rfl, ?_⟩
  cases herror : (compile fresh (Token.numbered (Token.scan a))).error with
  | none =>
    refine Or.inl ⟨?_, ?_⟩
    · rw [ha, Compilation.mapLine, herror, Option.map_none]
    · rw [hb, Compilation.mapLine, herror, Option.map_none]
  | some e =>
    have hea := congrArg error ha
    have heb := congrArg error hb
    rw [Compilation.mapLine, herror, Option.map_some] at hea heb
    have hunmatched : e.isUnmatched = true := (isUnmatched_mapLine _ e).symm.trans (isUnmatched_of_scan hea)
    have hjudged := compile_judged fresh (ends_numbered (ends_scan a))
    rw [herror] at hjudged
    exact Or.inr ⟨_, _, hea, heb, alike_of_numbered hnumbered hjudged hunmatched⟩

/-- It makes no difference for which of the two sources a receiver hands out its labels. -/
theorem compile_layout_answered (h : a.filter (· ∈ Kind.commandBytes) = b.filter (· ∈ Kind.commandBytes))
    (hfresh : Answers reply fresh (compile fresh (Token.scan a)).ops.toList)
    (hfresh' : Answers reply fresh' (compile fresh' (Token.scan b)).ops.toList) :
    compile fresh (Token.scan b) = compile fresh' (Token.scan b) := by
  rw [(compile_layout h fresh).1] at hfresh
  exact compile_answered hfresh hfresh'

end Layout

/-- Comments and layout never change a program. Let two sources have the same commands, in the same order. Any receiver that
goes by what it was asked for before is asked for the same operations by both, also where there is an error, and an error
names the same token of both, in the same words, with its own line. Any assembler is left in the same state by both. And
both are built to the same program, or both cannot be assembled for the same reason, or both cannot be compiled, with errors
that differ in the line only. -/
theorem comments_change_nothing {a b : List UInt8}
    (h : a.filter (· ∈ Kind.commandBytes) = b.filter (· ∈ Kind.commandBytes)) :
    (∀ reply : List Op → Int, ∃ fresh : Nat → Int,
      Answers reply fresh (compile fresh (Token.scan a)).ops.toList ∧
      Answers reply fresh (compile fresh (Token.scan b)).ops.toList) ∧
    (∀ (reply : List Op → Int) (fresh fresh' : Nat → Int),
      Answers reply fresh (compile fresh (Token.scan a)).ops.toList →
      Answers reply fresh' (compile fresh' (Token.scan b)).ops.toList →
      (compile fresh (Token.scan a)).ops = (compile fresh' (Token.scan b)).ops ∧
      ((compile fresh (Token.scan a)).error = none ∧ (compile fresh' (Token.scan b)).error = none ∨
        ∃ e e', (compile fresh (Token.scan a)).error = some e ∧ (compile fresh' (Token.scan b)).error = some e' ∧
          CompileError.Alike (Token.scan a) (Token.scan b) e e')) ∧
    (∀ asm : Assembler, (asm.compile (Token.scan a)).1 = (asm.compile (Token.scan b)).1) ∧
    ((∃ p, build a = .ok p ∧ build b = .ok p) ∨
      (∃ e, build a = .error (.assemble e) ∧ build b = .error (.assemble e)) ∨
      ∃ e e', build a = .error (.compile e) ∧ build b = .error (.compile e') ∧
        CompileError.Alike (Token.scan a) (Token.scan b) e e') := by
  refine ⟨fun reply => ?_, fun reply fresh fresh' hfresh hfresh' => ?_, fun asm => ?_, ?_⟩
  · obtain ⟨fresh, hfresh⟩ := exists_answers_compile reply (Token.scan a)
    exact ⟨fresh, hfresh, (compile_layout h fresh).1 ▸ hfresh⟩
  · rw [← compile_layout_answered h hfresh hfresh']
    exact compile_layout h fresh
  · rw [Assembler.compile, Assembler.compile, (compile_layout h _).1]
  · obtain ⟨hops, hboth⟩ := compile_layout h Translation.newLabel
    rcases hboth with ⟨ha, hb⟩ | ⟨e, e', ha, hb, halike⟩
    · have hassembled : assembled a = assembled b := by rw [assembled, assembled, hops]
      have hbala := (compile_accepted_iff Translation.newLabel).mp ha
      have hbalb := (compile_accepted_iff Translation.newLabel).mp hb
      cases hresult : assembled a with
      | error e => exact Or.inr (Or.inl ⟨e, build_failed hbala hresult, build_failed hbalb (hassembled ▸ hresult)⟩)
      | ok p => exact Or.inl ⟨p, build_succeeded hbala hresult, build_succeeded hbalb (hassembled ▸ hresult)⟩
    · refine Or.inr (Or.inr ⟨e, e', ?_, ?_, halike⟩)
      · rw [build, buildTokens, assembler_compile _ ha]
      · rw [build, buildTokens, assembler_compile _ hb]

/-- A line break, a letter and a null byte in a run and in a loop, and a bracket that is moved to the second line. -/
theorem commented_loop_built_alike :
    let commented : List UInt8 := [0x2B, 0x0A, 0x78, 0x2B, 0x5B, 0x00, 0x2D, 0x5D]
    let bare : List UInt8 := [0x2B, 0x2B, 0x5B, 0x2D, 0x5D]
    commented.filter (· ∈ Kind.commandBytes) = bare.filter (· ∈ Kind.commandBytes) ∧
    (∃ p, build commented = .ok p ∧ build bare = .ok p) ∧
    ∃ e e', build [0x2B, 0x0A, 0x5D] = .error (.compile e) ∧ build [0x2B, 0x5D] = .error (.compile e') ∧
      e.complaint = e'.complaint ∧ e.line? = some 2 ∧ e'.line? = some 1 := by
  intro commented bare
  have hcommands : commented.filter (· ∈ Kind.commandBytes) = bare.filter (· ∈ Kind.commandBytes) := by decide
  refine ⟨hcommands, ?_, ?_⟩
  · have hbuilt : (build bare).toOption.isSome = true := by decide +kernel
    rcases (comments_change_nothing hcommands).2.2.2 with hsame | ⟨e, -, hfailed⟩ | ⟨e, e', -, hfailed, -⟩
    · exact hsame
    all_goals
      rw [hfailed] at hbuilt
      cases hbuilt
  · have hlate : build [0x2B, 0x0A, 0x5D] = .error (.compile (.unmatchedEnd 2)) := by decide +kernel
    have hearly : build [0x2B, 0x5D] = .error (.compile (.unmatchedEnd 1)) := by decide +kernel
    have hsame := (@comments_change_nothing [0x2B, 0x0A, 0x5D] [0x2B, 0x5D] (by decide)).2.2.2
    rw [hlate, hearly] at hsame
    rcases hsame with ⟨p, hok, -⟩ | ⟨e, hfailed, -⟩ | ⟨e, e', he, he', halike⟩
    · cases hok
    · cases hfailed
    · cases he
      cases he'
      exact ⟨_, _, hlate, hearly, halike.complaint, rfl, rfl⟩

end TapeCode
