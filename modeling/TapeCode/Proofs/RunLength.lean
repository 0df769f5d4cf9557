import Mathlib.Data.List.Chain
import TapeCode.Proofs.Judgement
import TapeCode.Proofs.Translation

/-!
The operations of an accepted program, asked for one by one. The commands are taken in runs that cannot be longer
(`Group.Runs`), every run has its own operations (`Translation.Spelled`), and the receiver answers each request for a
label with the next one (`Translation.answered`).
-/

namespace TapeCode

open Brackets

/-! ### Maximal runs -/

namespace Group

/-- The runs of some commands. Two that stand side by side could not be one. -/
structure Runs (kinds : List Kind) (gs : List Group) : Prop where
  spell : gs.flatMap commands = kinds
  proper : ∀ g ∈ gs, g.Proper
  maximal : gs.IsChain fun g g' => g.kind = g'.kind → g.kind.foldable = false

theorem maximal_push (kind : Kind) {gs : List Group}
    (h : gs.IsChain fun g g' => g.kind = g'.kind → g.kind.foldable = false) :
    (push kind gs).IsChain fun g g' => g.kind = g'.kind → g.kind.foldable = false := by
  cases gs with
  | nil => exact .singleton _
  | cons g gs =>
    rw [push]
    split
    · next hfold =>
      rw [List.isChain_cons] at h ⊢
      rw [← hfold.2]
      exact h
    · next hfold =>
      refine .cons_cons ?_ h
      intro hsame
      exact Bool.eq_false_iff.mpr fun hk => hfold ⟨hk, hsame.symm⟩

theorem runs_fold (kinds : List Kind) : Runs kinds (fold kinds) := by
  refine ⟨flatMap_fold kinds, proper_fold kinds, ?_⟩
  induction kinds with
  | nil => exact .nil
  | cons kind kinds ih => exact maximal_push kind ih

theorem push_fresh {kind : Kind} {gs : List Group} (h : ∀ g ∈ gs.head?, kind = g.kind → kind.foldable = false) :
    push kind gs = ⟨kind, 1⟩ :: gs := by
  cases gs with
  | nil => rfl
  | cons g gs =>
    rw [push, if_neg]
    rintro ⟨hk, hsame⟩
    rw [h g rfl hsame.symm] at hk
    cases hk

theorem fold_replicate {kind : Kind} (hk : kind.foldable = true) {kinds : List Kind}
    (h : ∀ g ∈ (fold kinds).head?, kind = g.kind → kind.foldable = false) (n : Nat) :
    fold (List.replicate (n + 1) kind ++ kinds) = ⟨kind, n + 1⟩ :: fold kinds := by
  induction n with
  | zero => exact push_fresh h
  | succ n ih => rw [List.replicate_succ, List.cons_append, fold_cons, ih, push, if_pos ⟨hk, rfl⟩]

theorem fold_commands {g : Group} (hg : g.Proper) {kinds : List Kind}
    (h : ∀ g' ∈ (fold kinds).head?, g.kind = g'.kind → g.kind.foldable = false) :
    fold (g.commands ++ kinds) = g :: fold kinds := by
  obtain ⟨kind, count⟩ := g
  cases hk : kind.foldable with
  | true =>
    cases count with
    | zero => exact absurd hg.pos (Nat.lt_irrefl 0)
    | succ n => exact fold_replicate hk h n
  | false =>
    obtain rfl := hg.single hk
    exact push_fresh h

theorem Runs.kind_mem {kinds : List Kind} {gs : List Group} {g : Group} (h : Runs kinds gs) (hg : g ∈ gs) :
    g.kind ∈ kinds := by
  rw [← h.spell, List.mem_flatMap]
  exact ⟨g, hg, List.mem_replicate.mpr ⟨Nat.ne_of_gt (h.proper g hg).pos, rfl⟩⟩

/-- There is one way only to take commands in runs. -/
theorem Runs.eq_fold {kinds : List Kind} {gs : List Group} (h : Runs kinds gs) : gs = fold kinds := by
  induction gs generalizing kinds with
  | nil =>
    obtain rfl := h.spell
    rfl
  | cons g gs ih =>
    obtain rfl := h.spell
    obtain ⟨hhead, htail⟩ := List.isChain_cons.mp h.maximal
    have hgs : gs = fold (gs.flatMap commands) := ih ⟨rfl, fun g' hg' => h.proper g' (List.mem_cons_of_mem g hg'), htail⟩
    rw [hgs] at hhead
    rw [List.flatMap_cons, fold_commands (h.proper g List.mem_cons_self) hhead, ← hgs]

/-- The end mark is a run of its own. -/
theorem fold_endMark (kinds : List Kind) : fold (kinds ++ [.endMark]) = fold kinds ++ [⟨.endMark, 1⟩] := by
  obtain ⟨hspell, hproper, hmaximal⟩ := runs_fold kinds
  refine (Runs.eq_fold ⟨?_, ?_, ?_⟩).symm
  · rw [List.flatMap_append, hspell]
    rfl
  · intro g hg
    rcases List.mem_append.mp hg with hg | hg
    · exact hproper g hg
    · rw [List.mem_singleton.mp hg]
      exact ⟨Nat.one_pos, fun _ => rfl⟩
  · refine hmaximal.append (.singleton _) ?_
    intro g _ g' hg' hsame
    obtain rfl := Option.some.inj hg'
    rw [hsame]
    rfl

end Group

/-! ### Calls -/

namespace Translation

/-- An operation that is asked for, and the label that comes back if it is a request for one. -/
structure Call where
  op : Op
  label : Option Int
  deriving DecidableEq

/-- A call that brings no label back. -/
def Call.plain (op : Op) : Call := ⟨op, none⟩

/-- The calls that ask for some operations, of a receiver that has handed out `created` labels before. -/
def answered (fresh : Nat → Int) : Nat → List Op → List Call
  | _, [] => []
  | created, op :: ops =>
    if op = .newLabel then ⟨.newLabel, some (fresh created)⟩ :: answered fresh (created + 1) ops
    else .plain op :: answered fresh created ops

/-- The calls of a run that is the one with number `k`. -/
inductive Spelled (fresh : Nat → Int) (gs : List Group) (k : Nat) : Group → List Call → Prop where
  | add (n : Nat) : Spelled fresh gs k ⟨.increment, n⟩ [.plain .load, .plain (.add n), .plain .store]
  | sub (n : Nat) : Spelled fresh gs k ⟨.decrement, n⟩ [.plain .load, .plain (.sub n), .plain .store]
  | stepForward : Spelled fresh gs k ⟨.moveForward, 1⟩ [.plain (.step 1)]
  | stepBackward : Spelled fresh gs k ⟨.moveBackward, 1⟩ [.plain (.step (-1))]
  | moveForward {n : Nat} (hn : 2 ≤ n) : Spelled fresh gs k ⟨.moveForward, n⟩ [.plain (.move n)]
  | moveBackward {n : Nat} (hn : 2 ≤ n) : Spelled fresh gs k ⟨.moveBackward, n⟩ [.plain (.move (-n))]
  | output : Spelled fresh gs k ⟨.output, 1⟩ [.plain .load, .plain .putc]
  | input : Spelled fresh gs k ⟨.input, 1⟩ [.plain .getc, .plain .store]
  | loopBegin {j : Nat} (hj : number gs k = j) : Spelled fresh gs k ⟨.loopBegin, 1⟩
      [⟨.newLabel, some (fresh (2 * j))⟩, ⟨.newLabel, some (fresh (2 * j + 1))⟩, .plain (.mark (fresh (2 * j))),
        .plain .load, .plain (.jumpIfZero (fresh (2 * j + 1)))]
  | loopEnd {i j : Nat} (hmatch : Matches Group.kind? gs i k) (hj : number gs i = j) :
      Spelled fresh gs k ⟨.loopEnd, 1⟩ [.plain (.jump (fresh (2 * j))), .plain (.mark (fresh (2 * j + 1)))]

section Calls
variable {fresh : Nat → Int} {gs : List Group} {g : Group} {k : Nat}

theorem answered_append (fresh : Nat → Int) (created : Nat) (ops ops' : List Op) :
    answered fresh created (ops ++ ops') =
      answered fresh created ops ++ answered fresh (created + ops.count .newLabel) ops' := by
  induction ops generalizing created with
  | nil => rfl
  | cons op ops ih =>
    rw [List.cons_append, answered, answered]
    split
    · next hop =>
      rw [ih, hop, List.count_cons_self, List.cons_append, Nat.add_right_comm, Nat.add_assoc]
    · next hop => rw [ih, List.count_cons_of_ne hop, List.cons_append]

theorem count_blockOf (fresh : Nat → Int) (gs : List Group) (k : Nat) (g : Group) :
    (blockOf fresh gs k g).count .newLabel = if g.kind = .loopBegin then 2 else 0 := by
  cases hk : g.kind with
  | moveForward | moveBackward =>
    have hmove : ∀ direction run, .newLabel ≠ Compilation.moveOp direction run :=
      Compilation.moveOp_ne (by simp) (by simp)
    simp [blockOf, hk, fun direction run => (hmove direction run).symm]
  | loopEnd =>
    rw [blockOf, hk]
    cases opener Group.kind? gs k <;> simp
  | _ => simp [blockOf, hk]

/-- Two labels are asked for by every loop. -/
theorem count_body (fresh : Nat → Int) {n : Nat} (hn : n ≤ gs.length) :
    (body fresh gs n).count .newLabel = 2 * number gs n := by
  induction n with
  | zero => rfl
  | succ n ih =>
    have hg : gs[n]? = some gs[n] := List.getElem?_eq_getElem hn
    rw [body_succ, List.count_append, ih (Nat.le_of_succ_le hn), block_eq fresh hg, count_blockOf, number_succ hg]
    split <;> omega

theorem answered_body (fresh : Nat → Int) {n : Nat} (hn : n ≤ gs.length) :
    answered fresh 0 (body fresh gs n) =
      ((List.range n).map fun k => answered fresh (2 * number gs k) (block fresh gs k)).flatten := by
  induction n with
  | zero => rfl
  | succ n ih =>
    have hle := Nat.le_of_succ_le hn
    rw [body_succ, answered_append, ih hle, count_body fresh hle, Nat.zero_add, List.range_succ, List.map_append,
      List.flatten_append, List.map_singleton, List.flatten_singleton]

theorem moveOp_many (direction : Int) {n : Nat} (hn : 1 < n) :
    Compilation.moveOp direction n = .move (direction * n) := by
  rw [Compilation.moveOp, if_neg]
  omega

/-- The end mark behind the runs has no part in what they ask for. -/
theorem spelled_block (fresh : Nat → Int) (hbal : Balanced Group.kind? gs) (h : gs[k]? = some g) (hg : g.Proper)
    (hend : g.kind ≠ .endMark) (hunknown : ∀ code, g.kind ≠ .unknown code) (last : Group) :
    Spelled fresh gs k g (answered fresh (2 * number (gs ++ [last]) k) (block fresh (gs ++ [last]) k)) := by
  have hk : k < gs.length := (List.getElem?_eq_some_iff.mp h).1
  have hnumber {i : Nat} (hi : i ≤ gs.length) : number (gs ++ [last]) i = number gs i := by
    rw [number, List.take_append_of_le_length hi, number]
  rw [hnumber (Nat.le_of_lt hk), block_eq fresh (by rwa [List.getElem?_append_left hk])]
  obtain ⟨kind, count⟩ := g
  cases kind with
  | increment => exact .add count
  | decrement => exact .sub count
  | moveForward =>
    rcases Nat.lt_or_eq_of_le (Nat.succ_le_of_lt hg.pos) with hmany | rfl
    · simp only [blockOf, moveOp_many _ hmany, Int.one_mul]
      exact .moveForward hmany
    · exact .stepForward
  | moveBackward =>
    rcases Nat.lt_or_eq_of_le (Nat.succ_le_of_lt hg.pos) with hmany | rfl
    · simp only [blockOf, moveOp_many _ hmany, Int.neg_one_mul]
      exact .moveBackward hmany
    · exact .stepBackward
  | output =>
    obtain rfl := hg.single rfl
    exact .output
  | input =>
    obtain rfl := hg.single rfl
    exact .input
  | loopBegin =>
    obtain rfl := hg.single rfl
    simp only [blockOf, startLabel, finishLabel, hnumber (Nat.le_of_lt hk)]
    exact .loopBegin rfl
  | loopEnd =>
    obtain rfl := hg.single rfl
    obtain ⟨i, hi⟩ := hbal.exists_opener (congrArg (Option.bind · Group.kind?) h)
    have hopener := (hi.append_right [last]).opener_eq
    simp only [blockOf, hopener, startLabel, finishLabel, hnumber (Nat.le_of_lt (Nat.lt_trans hi.1 hk))]
    exact .loopEnd hi rfl
  | endMark => exact absurd rfl hend
  | unknown code => exact absurd rfl (hunknown code)

/-- The calls of the runs before an end mark, run by run. -/
def blocks (fresh : Nat → Int) (gs : List Group) : List (List Call) :=
  (List.range gs.length).map fun k =>
    answered fresh (2 * number (gs ++ [⟨.endMark, 1⟩]) k) (block fresh (gs ++ [⟨.endMark, 1⟩]) k)

theorem operations_endMark (fresh : Nat → Int) (gs : List Group) :
    operations fresh (gs ++ [⟨.endMark, 1⟩]) =
      Compilation.opening.toList ++ body fresh (gs ++ [⟨.endMark, 1⟩]) gs.length ++ [.halt] := by
  have hhalt : block fresh (gs ++ [⟨.endMark, 1⟩]) gs.length = [.halt] := by
    rw [block_eq fresh (getElem?_middle gs _ [])]
    rfl
  rw [operations, List.length_append, List.length_singleton, body_succ, hhalt, ← List.append_assoc]

theorem answered_operations (fresh : Nat → Int) (gs : List Group) :
    answered fresh 0 (operations fresh (gs ++ [⟨.endMark, 1⟩])) =
      [.plain (.alloc 30000), .plain .reset, .plain .openInput] ++ (blocks fresh gs).flatten ++ [.plain .halt] := by
  have hle : gs.length ≤ (gs ++ [(⟨.endMark, 1⟩ : Group)]).length := by
    rw [List.length_append]
    exact Nat.le_add_right _ _
  have hbody := answered_body fresh hle
  rw [operations_endMark, answered_append, answered_append, blocks, ← hbody]
  rfl

theorem spelled_blocks (fresh : Nat → Int) (hbal : Balanced Group.kind? gs) {kinds : List Kind}
    (hruns : Group.Runs kinds gs) (hkinds : ∀ kind ∈ kinds, kind ≠ .endMark ∧ ∀ code, kind ≠ .unknown code)
    {calls : List Call} (h : gs[k]? = some g) (hcalls : (blocks fresh gs)[k]? = some calls) :
    Spelled fresh gs k g calls := by
  have hg : g ∈ gs := List.mem_of_getElem? h
  obtain ⟨hend, hunknown⟩ := hkinds g.kind (hruns.kind_mem hg)
  rw [blocks, List.getElem?_map, List.getElem?_range (List.getElem?_eq_some_iff.mp h).1] at hcalls
  obtain rfl := Option.some.inj hcalls
  exact spelled_block fresh hbal h (hruns.proper g hg) hend hunknown _

end Calls

end Translation

theorem Compilation.kinds_of_accepted {fresh : Nat → Int} {tokens : List Token}
    (h : (compile fresh tokens).error = none) :
    ∃ commands, tokens.map Token.kind = commands ++ [.endMark] ∧
      ∀ kind ∈ commands, kind ≠ .endMark ∧ ∀ code, kind ≠ .unknown code := by
  have hends : Compilation.Ends tokens := by
    by_contra hno
    rw [Compilation.compile_of_not_ends fresh hno] at h
    cases h
  have hjudged := Compilation.compile_judged fresh hends
  rw [h] at hjudged
  cases hjudged with
  | @accepted pre token hsplit hpre hk =>
    refine ⟨pre.map Token.kind, ?_, ?_⟩
    · rw [hsplit, List.map_append, List.map_singleton, hk]
    · intro kind hkind
      obtain ⟨t, ht, rfl⟩ := List.mem_map.mp hkind
      exact hpre.commands t ht

/-- An accepted program asks for the operations of its runs, one run after the other, each loop with two labels of its own,
and for a halt at the end. Its commands can be taken in runs in one way only. -/
theorem compile_emits_runs {fresh : Nat → Int} {tokens : List Token} (h : (compile fresh tokens).error = none) :
    ∃ (commands : List Kind) (gs : List Group) (blocks : List (List Translation.Call)),
      tokens.map Token.kind = commands ++ [.endMark] ∧
      (∀ kind ∈ commands, kind ≠ .endMark ∧ ∀ code, kind ≠ .unknown code) ∧
      Group.Runs commands gs ∧ (∀ gs', Group.Runs commands gs' → gs' = gs) ∧
      blocks.length = gs.length ∧
      (∀ k g calls, gs[k]? = some g → blocks[k]? = some calls → Translation.Spelled fresh gs k g calls) ∧
      Translation.answered fresh 0 (compile fresh tokens).ops.toList =
        [.plain (.alloc 30000), .plain .reset, .plain .openInput] ++ blocks.flatten ++ [.plain .halt] := by
  obtain ⟨hbal, hops⟩ := compile_translation h
  obtain ⟨commands, hkinds, hcommands⟩ := Compilation.kinds_of_accepted h
  rw [hkinds, Group.fold_endMark] at hbal hops
  have hruns := Group.runs_fold commands
  have hgroups : Balanced Group.kind? (Group.fold commands) := hbal.of_concat (by decide) (by decide)
  refine ⟨commands, Group.fold commands, Translation.blocks fresh (Group.fold commands), hkinds, hcommands, hruns,
    fun _ hgs' => hgs'.eq_fold, by rw [Translation.blocks, List.length_map, List.length_range], ?_, ?_⟩
  · intro k g calls hg hcalls
    exact Translation.spelled_blocks fresh hgroups hruns hcommands hg hcalls
  · rw [hops]
    exact Translation.answered_operations fresh _

theorem folded_loop_emitted :
    let tokens : List Token :=
      [.increment, .increment, .loopBegin, .moveForward, .moveForward, .decrement, .loopEnd, .endMark].map (⟨·, 0, 1⟩)
    let calls := Translation.answered (fun k => 10 + k) 0 (compile (fun k => 10 + k) tokens).ops.toList
    (compile (fun k => 10 + k) tokens).error = none ∧
    ∃ (commands : List Kind) (gs : List Group) (blocks : List (List Translation.Call)),
      tokens.map Token.kind = commands ++ [.endMark] ∧ Group.Runs commands gs ∧ blocks.length = gs.length ∧
      (∀ k g calls, gs[k]? = some g → blocks[k]? = some calls → Translation.Spelled (fun k => 10 + k) gs k g calls) ∧
      calls = [.plain (.alloc 30000), .plain .reset, .plain .openInput] ++ blocks.flatten ++ [.plain .halt] := by
  intro tokens calls
  have herror : (compile (fun k => 10 + k) tokens).error = none := Compilation.compile_error _ rfl
  obtain ⟨commands, gs, blocks, hkinds, -, hruns, -, hlength, hspelled, hcalls⟩ := compile_emits_runs herror
  exact ⟨herror, commands, gs, blocks, hkinds, hruns, hlength, hspelled, hcalls⟩

end TapeCode
