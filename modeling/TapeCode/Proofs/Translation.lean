import TapeCode.Build
import TapeCode.Proofs.Layout
import TapeCode.Proofs.Verdict

/-!
What the pass emits. The commands of a program are grouped into runs (`Group.fold`), and every run has a block of
operations that depends on the program only through the numbers of its loops (`Translation.block`). A program that
is accepted is translated into the blocks of its runs, one after the other.
-/

namespace TapeCode

open Brackets

/-- Whether commands of a kind move the pointer. -/
def Kind.isMove : Kind → Bool
  | moveForward | moveBackward => true
  | endMark | increment | decrement | output | input | loopBegin | loopEnd | unknown _ => false

/-- A run of commands of one kind. -/
structure Group where
  kind : Kind
  count : Nat
  deriving DecidableEq, Repr

namespace Group

/-- The kind of a run. Unlike characters, all runs have one. -/
def kind? (g : Group) : Option Kind := some g.kind

/-- The commands of a run. -/
def commands (g : Group) : List Kind := List.replicate g.count g.kind

/-- Puts a command before runs. It becomes part of the first one, if it can. -/
def push (kind : Kind) : List Group → List Group
  | [] => [⟨kind, 1⟩]
  | g :: gs => if kind.foldable = true ∧ g.kind = kind then ⟨kind, g.count + 1⟩ :: gs else ⟨kind, 1⟩ :: g :: gs

/-- The runs of some commands. -/
def fold (kinds : List Kind) : List Group :=
  kinds.foldr push []

/-- A run is not empty, and only what can be folded is in one run with others. -/
structure Proper (g : Group) : Prop where
  pos : 0 < g.count
  single : g.kind.foldable = false → g.count = 1

theorem fold_cons (kind : Kind) (kinds : List Kind) : fold (kind :: kinds) = push kind (fold kinds) := rfl

theorem exists_push (kind : Kind) (gs : List Group) : ∃ n gs', push kind gs = ⟨kind, n⟩ :: gs' := by
  unfold push
  split
  · exact ⟨1, [], rfl⟩
  · split
    · exact ⟨_, _, rfl⟩
    · exact ⟨_, _, rfl⟩

theorem push_single {kind : Kind} (hk : kind.foldable = false) (gs : List Group) : push kind gs = ⟨kind, 1⟩ :: gs := by
  cases gs with
  | nil => rfl
  | cons g gs => simp [push, hk]

theorem flatMap_push (kind : Kind) (gs : List Group) :
    (push kind gs).flatMap commands = kind :: gs.flatMap commands := by
  unfold push
  split
  · rfl
  · split
    · next h =>
      rw [List.flatMap_cons, List.flatMap_cons, commands, commands, h.2, List.replicate_succ, List.cons_append]
    · rfl

theorem flatMap_fold (kinds : List Kind) : (fold kinds).flatMap commands = kinds := by
  induction kinds with
  | nil => rfl
  | cons kind kinds ih => rw [fold_cons, flatMap_push, ih]

theorem proper_push {kind : Kind} {gs : List Group} (h : ∀ g ∈ gs, g.Proper) : ∀ g ∈ push kind gs, g.Proper := by
  have hone : Proper ⟨kind, 1⟩ := ⟨Nat.one_pos, fun _ => rfl⟩
  unfold push
  split
  · intro g hg
    rw [List.mem_singleton.mp hg]
    exact hone
  · next first rest =>
    split
    · next hfold =>
      intro g hg
      rcases List.mem_cons.mp hg with rfl | hg
      · exact ⟨Nat.succ_pos _, fun hno => absurd hfold.1 (by simp [hno])⟩
      · exact h g (List.mem_cons_of_mem _ hg)
    · intro g hg
      rcases List.mem_cons.mp hg with rfl | hg
      · exact hone
      · exact h g hg

theorem proper_fold (kinds : List Kind) : ∀ g ∈ fold kinds, g.Proper := by
  induction kinds with
  | nil => exact fun g hg => absurd hg List.not_mem_nil
  | cons kind kinds ih => exact proper_push ih

/-- The pass takes a run as a whole. -/
theorem fold_run {token : Token} (hk : token.kind.foldable = true) (rest : List Token) :
    fold ((token :: rest).map Token.kind) =
      ⟨token.kind, (rest.takeWhile (Token.isA token.kind)).length + 1⟩ ::
        fold ((Compilation.afterRun token.kind rest).map Token.kind) := by
  induction rest with
  | nil => rfl
  | cons next rest ih =>
    rw [List.map_cons, fold_cons] at ih ⊢
    by_cases ht : next.kind = token.kind
    · rw [List.map_cons, fold_cons, ht, ih, push, if_pos ⟨hk, rfl⟩, Compilation.afterRun_same ht]
      simp [Token.isA, ht]
    · obtain ⟨n, gs, hgs⟩ := exists_push next.kind (fold (rest.map Token.kind))
      rw [Compilation.afterRun_other ht, List.map_cons, fold_cons, hgs, push, if_neg fun h => ht h.2]
      simp [Token.isA, ht]

theorem fold_single {token : Token} (hk : token.kind.foldable = false) (rest : List Token) :
    fold ((token :: rest).map Token.kind) = ⟨token.kind, 1⟩ :: fold (rest.map Token.kind) :=
  push_single hk _

section Offset
variable {gs : List Group} {g : Group} {k i : Nat}

/-- How many commands stand before a run. -/
def offset (gs : List Group) (k : Nat) : Nat :=
  ((gs.take k).flatMap commands).length

theorem offset_succ (h : gs[k]? = some g) : offset gs (k + 1) = offset gs k + g.count := by
  rw [offset, List.take_add_one, h, Option.toList_some, List.flatMap_append, List.length_append,
    List.flatMap_singleton, commands, List.length_replicate, offset]

theorem getElem?_offset (h : gs[k]? = some g) (hi : i < g.count) :
    (gs.flatMap commands)[offset gs k + i]? = some g.kind := by
  obtain ⟨hk, rfl⟩ := List.getElem?_eq_some_iff.mp h
  have hsplit : gs = gs.take k ++ gs[k] :: gs.drop (k + 1) := by rw [List.getElem_cons_drop, List.take_append_drop]
  have hflat : gs.flatMap commands =
      (gs.take k).flatMap commands ++ (gs[k].commands ++ (gs.drop (k + 1)).flatMap commands) := by
    rw [← List.flatMap_cons, ← List.flatMap_append, ← hsplit]
  rw [hflat, offset, List.getElem?_append_right (Nat.le_add_right _ i), Nat.add_sub_cancel_left,
    List.getElem?_append_left (by rwa [commands, List.length_replicate]), commands, List.getElem?_replicate_of_lt hi]

/-- How many moves stand before a run. -/
def moves (gs : List Group) (k : Nat) : Nat :=
  ((gs.take k).flatMap commands).countP Kind.isMove

theorem moves_succ (h : gs[k]? = some g) :
    moves gs (k + 1) = moves gs k + if g.kind.isMove then g.count else 0 := by
  rw [moves, List.take_add_one, h, Option.toList_some, List.flatMap_append, List.countP_append,
    List.flatMap_singleton, commands, List.countP_replicate, moves]

theorem moves_le (gs : List Group) (k : Nat) : moves gs k ≤ moves gs gs.length := by
  have hsplit : gs.flatMap commands = (gs.take k).flatMap commands ++ (gs.drop k).flatMap commands := by
    rw [← List.flatMap_append, List.take_append_drop]
  rw [moves, moves, List.take_length, hsplit, List.countP_append]
  exact Nat.le_add_right _ _

theorem spells (h : ∀ g ∈ gs, g.Proper) : Spells kind? some commands gs := by
  refine ⟨fun g hg k hk hkind => ?_, fun g _ hb he kind hkind => ?_⟩
  · obtain rfl := Option.some.inj hkind
    refine ⟨g.kind, ?_, rfl⟩
    rw [commands, (h g hg).single (by rcases hk with hk | hk <;> rw [hk] <;> rfl), List.replicate_one]
  · rw [List.eq_of_mem_replicate hkind]
    exact ⟨hb, he⟩

end Offset

end Group

/-! ### Blocks -/

namespace Translation

section Definitions
variable (fresh : Nat → Int) (gs : List Group)

/-- How many loops begin before a run. -/
def number (k : Nat) : Nat :=
  (gs.take k).countP fun g => g.kind = .loopBegin

/-- The label at the start of the loop that begins with a run. -/
def startLabel (k : Nat) : Int := fresh (2 * number gs k)

/-- The label at the end of the loop that begins with a run. -/
def finishLabel (k : Nat) : Int := fresh (2 * number gs k + 1)

/-- The operations of a run that is the one with number `k`. -/
def blockOf (k : Nat) (g : Group) : List Op :=
  match g.kind with
  | .increment => [.load, .add g.count, .store]
  | .decrement => [.load, .sub g.count, .store]
  | .moveForward => [Compilation.moveOp 1 g.count]
  | .moveBackward => [Compilation.moveOp (-1) g.count]
  | .output => [.load, .putc]
  | .input => [.getc, .store]
  | .loopBegin => [.newLabel, .newLabel, .mark (startLabel fresh gs k), .load, .jumpIfZero (finishLabel fresh gs k)]
  | .loopEnd =>
    match opener Group.kind? gs k with
    | some i => [.jump (startLabel fresh gs i), .mark (finishLabel fresh gs i)]
    | none => []
  | .endMark => [.halt]
  | .unknown _ => []

/-- The operations of the run with number `k`. -/
def block (k : Nat) : List Op :=
  (gs[k]?.map (blockOf fresh gs k)).getD []

/-- The operations of the first `n` runs. -/
def body (n : Nat) : List Op :=
  (List.range n).flatMap (block fresh gs)

/-- The operations of a program: what every program starts with, and then its runs. -/
def operations : List Op :=
  Compilation.opening.toList ++ body fresh gs gs.length

/-- The index of the first operation of a run. -/
def entry (k : Nat) : Nat :=
  (Compilation.opening.toList ++ body fresh gs k).length

end Definitions

variable {fresh : Nat → Int} {gs done tail : List Group} {g : Group} {k : Nat}

theorem body_succ (fresh : Nat → Int) (gs : List Group) (n : Nat) :
    body fresh gs (n + 1) = body fresh gs n ++ block fresh gs n := by
  simp [body, List.range_succ]

theorem block_eq (fresh : Nat → Int) (h : gs[k]? = some g) : block fresh gs k = blockOf fresh gs k g := by
  rw [block, h, Option.map_some, Option.getD_some]

theorem blockOf_loopEnd {i : Nat} (hm : Matches Group.kind? gs i k) (hk : g.kind = .loopEnd) :
    blockOf fresh gs k g = [.jump (startLabel fresh gs i), .mark (finishLabel fresh gs i)] := by
  simp only [blockOf, hk, hm.opener_eq]

theorem entry_succ (fresh : Nat → Int) (h : gs[k]? = some g) :
    entry fresh gs (k + 1) = entry fresh gs k + (blockOf fresh gs k g).length := by
  rw [entry, body_succ, block_eq fresh h, ← List.append_assoc, List.length_append, entry]

theorem body_split (fresh : Nat → Int) (gs : List Group) {k n : Nat} (h : k < n) :
    ∃ rest, body fresh gs n = body fresh gs k ++ (block fresh gs k ++ rest) := by
  induction n with
  | zero => exact absurd h (Nat.not_lt_zero k)
  | succ n ih =>
    rw [body_succ]
    rcases Nat.lt_or_eq_of_le (Nat.le_of_lt_succ h) with hlt | rfl
    · obtain ⟨rest, hrest⟩ := ih hlt
      exact ⟨rest ++ block fresh gs n, by rw [hrest, List.append_assoc, List.append_assoc]⟩
    · exact ⟨[], by rw [List.append_nil]⟩

theorem getElem?_entry {o : Nat} {op : Op} (h : gs[k]? = some g) (ho : (blockOf fresh gs k g)[o]? = some op) :
    (operations fresh gs)[entry fresh gs k + o]? = some op := by
  obtain ⟨rest, hrest⟩ := body_split fresh gs (List.getElem?_eq_some_iff.mp h).1
  rw [operations, hrest, ← List.append_assoc, entry, List.getElem?_append_right (Nat.le_add_right _ o),
    Nat.add_sub_cancel_left, block_eq fresh h, List.getElem?_append_left (List.getElem?_eq_some_iff.mp ho).1, ho]

theorem number_succ (h : gs[k]? = some g) :
    number gs (k + 1) = number gs k + if g.kind = .loopBegin then 1 else 0 := by
  obtain ⟨hk, rfl⟩ := List.getElem?_eq_some_iff.mp h
  rw [number, List.take_succ_eq_append_getElem hk, List.countP_append, List.countP_singleton, number]
  simp

theorem moves_block_le (fresh : Nat → Int) (gs : List Group) (k : Nat) (g : Group)
    (h : ∀ op ∈ blockOf fresh gs k g, op.Encodable) :
    5 * (if g.kind.isMove then g.count else 0) ≤ 2147483648 * Layout.extent (blockOf fresh gs k g) := by
  -- A step of one takes a byte, and the operand of a longer move holds less than 2 ^ 31 in five bytes.
  have hmove : ∀ direction : Int, direction = 1 ∨ direction = -1 →
      (Compilation.moveOp direction g.count).Encodable →
      5 * g.count ≤ 2147483648 * Layout.extent [Compilation.moveOp direction g.count] := by
    intro direction hdirection henc
    unfold Compilation.moveOp at henc ⊢
    split at henc
    · next hone =>
      rw [if_pos hone]
      simp only [Layout.extent, Op.size]
      omega
    · next hone =>
      rw [if_neg hone]
      simp only [Layout.extent, Op.size]
      simp only [Op.Encodable] at henc
      rcases hdirection with rfl | rfl <;> omega
  obtain ⟨kind, count⟩ := g
  cases kind with
  | moveForward => exact hmove 1 (Or.inl rfl) (h _ (List.mem_singleton.mpr rfl))
  | moveBackward => exact hmove (-1) (Or.inr rfl) (h _ (List.mem_singleton.mpr rfl))
  | _ => exact Nat.zero_le _

theorem moves_body_le (fresh : Nat → Int) (gs : List Group) {n : Nat} (hn : n ≤ gs.length)
    (h : ∀ op ∈ body fresh gs n, op.Encodable) :
    5 * Group.moves gs n ≤ 2147483648 * Layout.extent (body fresh gs n) := by
  induction n with
  | zero => exact Nat.zero_le _
  | succ n ih =>
    obtain ⟨g, hg⟩ : ∃ g, gs[n]? = some g := ⟨_, List.getElem?_eq_getElem hn⟩
    rw [body_succ, block_eq fresh hg] at h ⊢
    have hbody := ih (Nat.le_of_succ_le hn) fun op hop => h op (List.mem_append_left _ hop)
    have hblock := moves_block_le fresh gs n g fun op hop => h op (List.mem_append_right _ hop)
    rw [Group.moves_succ hg, Layout.extent_append]
    omega

/-- Code that can be addressed has so few moves that a pointer of 64 bits never overflows. -/
theorem moves_lt {code : Array UInt8} (linked : Assembler.Linked (operations fresh gs) code)
    (short : code.size < 4294967296) : 30000 + Group.moves gs gs.length < 9223372036854775808 := by
  have hsize := linked.size_code
  have hbody := moves_body_le fresh gs (Nat.le_refl _) fun op hop => linked.encodable op (List.mem_append_right _ hop)
  rw [operations, Layout.extent_append] at hsize
  omega

end Translation

/-! ### The pass -/

namespace Compilation

open Translation

/-- The pass has emitted the blocks of the runs before the tokens that are left. -/
structure Emitted (fresh : Nat → Int) (gs done : List Group) (stack : List Nat) (created : Nat) (loops : List Loop)
    (ops : Array Op) (tokens : List Token) : Prop where
  split : gs = done ++ Group.fold (tokens.map Token.kind)
  nested : Nested Group.kind? done stack
  created : created = 2 * number gs done.length
  labels : loops.map (fun l => (l.start, l.finish)) =
    stack.map fun i => (startLabel fresh gs i, finishLabel fresh gs i)
  ops : ops.toList = opening.toList ++ body fresh gs done.length

namespace Emitted
variable {fresh : Nat → Int} {gs done : List Group} {g : Group} {stack : List Nat} {created : Nat} {loops : List Loop}
  {ops ops' : Array Op} {tokens rest : List Token}

theorem advance {stack' : List Nat} {created' : Nat} {loops' : List Loop}
    (h : Emitted fresh gs done stack created loops ops tokens)
    (hfold : Group.fold (tokens.map Token.kind) = g :: Group.fold (rest.map Token.kind))
    (hops : ops'.toList = ops.toList ++ blockOf fresh gs done.length g)
    (hnested : Nested Group.kind? (done ++ [g]) stack')
    (hcreated : created' = created + if g.kind = .loopBegin then 2 else 0)
    (hlabels : loops'.map (fun l => (l.start, l.finish)) =
      stack'.map fun i => (startLabel fresh gs i, finishLabel fresh gs i)) :
    Emitted fresh gs (done ++ [g]) stack' created' loops' ops' rest := by
  have hsplit : gs = done ++ g :: Group.fold (rest.map Token.kind) := hfold ▸ h.split
  have hget : gs[done.length]? = some g := hsplit ▸ getElem?_middle done g _
  refine ⟨by simpa using hsplit, hnested, ?_, hlabels, ?_⟩
  · rw [hcreated, h.created, List.length_append, List.length_singleton, number_succ hget]
    split <;> omega
  · rw [hops, h.ops, List.length_append, List.length_singleton, body_succ, block_eq fresh hget, List.append_assoc]

theorem plain (h : Emitted fresh gs done stack created loops ops tokens)
    (hfold : Group.fold (tokens.map Token.kind) = g :: Group.fold (rest.map Token.kind))
    (hb : g.kind ≠ .loopBegin) (he : g.kind ≠ .loopEnd)
    (hops : ops'.toList = ops.toList ++ blockOf fresh gs done.length g) :
    Emitted fresh gs (done ++ [g]) stack created loops ops' rest := by
  refine h.advance hfold hops (h.nested.plain ?_ ?_) (by rw [if_neg hb, Nat.add_zero]) h.labels
  · exact fun hk => hb (Option.some.inj hk)
  · exact fun hk => he (Option.some.inj hk)

theorem enter {line : Int} (h : Emitted fresh gs done stack created loops ops tokens)
    (hfold : Group.fold (tokens.map Token.kind) = ⟨.loopBegin, 1⟩ :: Group.fold (rest.map Token.kind))
    (hops : ops'.toList =
      ops.toList ++ [.newLabel, .newLabel, .mark (fresh created), .load, .jumpIfZero (fresh (created + 1))]) :
    Emitted fresh gs (done ++ [⟨.loopBegin, 1⟩]) (done.length :: stack) (created + 2)
      (⟨fresh created, fresh (created + 1), line⟩ :: loops) ops' rest := by
  refine h.advance hfold ?_ (h.nested.enter rfl) rfl ?_
  · rw [hops, h.created]
    rfl
  · rw [List.map_cons, List.map_cons, h.labels, h.created]
    rfl

theorem leave {loop : Loop} (h : Emitted fresh gs done stack created (loop :: loops) ops tokens)
    (hfold : Group.fold (tokens.map Token.kind) = ⟨.loopEnd, 1⟩ :: Group.fold (rest.map Token.kind))
    (hops : ops'.toList = ops.toList ++ [.jump loop.start, .mark loop.finish]) :
    ∃ stack', Emitted fresh gs (done ++ [⟨.loopEnd, 1⟩]) stack' created loops ops' rest := by
  rcases stack with _ | ⟨i, stack⟩
  · cases h.labels
  · obtain ⟨hlabel, hlabels⟩ := List.cons.inj h.labels
    obtain ⟨hstart, hfinish⟩ := Prod.mk.inj hlabel
    have hopener : opener Group.kind? gs done.length = some i := by
      rw [h.split, hfold]
      exact (h.nested.matches_leave rfl _).opener_eq
    refine ⟨stack, h.advance hfold ?_ (h.nested.leave rfl) rfl hlabels⟩
    rw [hops, hstart, hfinish, blockOf, hopener]

theorem halt {token : Token} (h : Emitted fresh gs done stack created [] ops [token])
    (hk : token.kind = .endMark) :
    Balanced Group.kind? gs ∧ (ops.push .halt).toList = operations fresh gs := by
  have hfold := Group.fold_single (by rw [hk]; rfl) ([] : List Token)
  rw [hk] at hfold
  have hend : Emitted fresh gs (done ++ [⟨.endMark, 1⟩]) stack created [] (ops.push .halt) [] :=
    h.plain hfold Kind.noConfusion Kind.noConfusion (by simp [blockOf])
  have hgs : gs = done ++ [⟨.endMark, 1⟩] := by simpa [Group.fold] using hend.split
  have hstack : stack = [] := List.map_eq_nil_iff.mp hend.labels.symm
  subst hstack
  exact ⟨hgs ▸ hend.nested.balanced, hgs ▸ hend.ops⟩

end Emitted

/-- A program that the pass accepts is balanced, and translated into the blocks of its runs. -/
theorem emit_translated (fresh : Nat → Int) (gs : List Group) (created : Nat) (loops : List Loop) (ops : Array Op)
    (tokens : List Token) : ∀ (done : List Group) (stack : List Nat),
    Emitted fresh gs done stack created loops ops tokens → (emit fresh created loops ops tokens).error = none →
      Balanced Group.kind? gs ∧
        (emit fresh created loops ops tokens).ops.toList = operations fresh gs := by
  -- One case for each way of the pass: it goes on behind a run (`plain`, `enter`, `leave`), halts, or rejects.
  fun_induction emit fresh created loops ops tokens with
  | case1 | case9 | case11 | case12 | case14 => exact fun _ _ _ haccept => absurd haccept (Option.some_ne_none _)
  | case2 created loops ops token rest hk ih | case3 created loops ops token rest hk ih
  | case4 created loops ops token rest hk ih | case5 created loops ops token rest hk ih =>
    intro done stack h haccept
    have hfold := Group.fold_run (by rw [hk]; rfl) rest
    rw [hk] at hfold
    exact ih _ _ (h.plain hfold Kind.noConfusion Kind.noConfusion (by simp [blockOf, runLength])) haccept
  | case6 created loops ops token rest hk ih | case7 created loops ops token rest hk ih =>
    intro done stack h haccept
    have hfold := Group.fold_single (by rw [hk]; rfl) rest
    rw [hk] at hfold
    exact ih _ _ (h.plain hfold Kind.noConfusion Kind.noConfusion (by simp [blockOf])) haccept
  | case8 created loops ops token rest hk start finish ih =>
    intro done stack h haccept
    have hfold := Group.fold_single (by rw [hk]; rfl) rest
    rw [hk] at hfold
    exact ih _ _ (h.enter hfold Array.toList_append) haccept
  | case10 created ops token rest hk loop loops ih =>
    intro done stack h haccept
    have hfold := Group.fold_single (by rw [hk]; rfl) rest
    rw [hk] at hfold
    obtain ⟨stack', hnext⟩ := h.leave hfold Array.toList_append
    exact ih _ _ hnext haccept
  | case13 created ops token hk => exact fun _ _ h _ => h.halt hk

end Compilation

theorem compile_translation {fresh : Nat → Int} {tokens : List Token} (h : (compile fresh tokens).error = none) :
    Balanced Group.kind? (Group.fold (tokens.map Token.kind)) ∧
      (compile fresh tokens).ops.toList =
        Translation.operations fresh (Group.fold (tokens.map Token.kind)) := by
  have hstart : Compilation.Emitted fresh (Group.fold (tokens.map Token.kind)) [] [] 0 [] Compilation.opening tokens :=
    ⟨rfl, .closed .nil, rfl, rfl, (List.append_nil _).symm⟩
  rcases hlast : tokens.getLast? with _ | last
  · simp only [compile, hlast] at h
    cases h
  · simp only [compile, hlast] at h ⊢
    by_cases hk : last.kind = .endMark
    · rw [if_pos hk] at h ⊢
      exact Compilation.emit_translated fresh _ 0 [] Compilation.opening tokens _ _ hstart h
    · rw [if_neg hk] at h
      cases h

/-! ### Built programs -/

namespace Translation

/-- The runs of a source text. The end mark is a run of its own. -/
def runs (source : List UInt8) : List Group :=
  Group.fold (source.filterMap Kind.ofByte? ++ [.endMark])

/-- The label that a new assembler hands out for a request. -/
def newLabel (k : Nat) : Int := ({} : Assembler).nextLabel + k

/-- The operations of a source text. -/
def program (source : List UInt8) : List Op :=
  operations newLabel (runs source)

end Translation

theorem Token.scan_kinds (source : List UInt8) :
    (scan source).map kind = source.filterMap Kind.ofByte? ++ [.endMark] := by
  rw [scan_eq]
  generalize (1 : Int) = line
  fun_induction listFrom line source with
  | case1 line => rfl
  | case2 line rest ih =>
    rw [ih]
    rfl
  | case3 line b rest hb kind hk ih => rw [List.map_cons, ih, List.filterMap_cons, hk, List.cons_append]
  | case4 line b rest hb hk ih => rw [ih, List.filterMap_cons, hk]

theorem eq_ok_of_mapError {ε ε' α : Type} {f : ε → ε'} {x : Except ε α} {a : α} (h : x.mapError f = .ok a) :
    x = .ok a := by
  cases x with
  | error e => cases h
  | ok b =>
    cases h
    rfl

theorem build_ok {source : List UInt8} {p : Program} (h : build source = .ok p) :
    (compile Translation.newLabel (Token.scan source)).error = none ∧
      (({} : Assembler).applyAll (compile Translation.newLabel (Token.scan source)).ops).link.2 = .ok p := by
  unfold build buildTokens at h
  split at h
  · cases h
  · next a heq =>
    obtain ⟨rfl, herror⟩ := Prod.mk.inj heq
    exact ⟨herror, eq_ok_of_mapError h⟩

/-- A program that is built is balanced, and its code is what its operations are linked to. -/
theorem build_linked {source : List UInt8} {p : Program} (h : build source = .ok p) :
    Balanced Group.kind? (Translation.runs source) ∧ Assembler.Linked (Translation.program source) p.code := by
  obtain ⟨herror, hlink⟩ := build_ok h
  obtain ⟨hbal, hops⟩ := compile_translation herror
  have linked := Assembler.linked_of_link hlink
  rw [Token.scan_kinds] at hbal hops
  rw [hops] at linked
  exact ⟨hbal, linked⟩

theorem build_balanced {source : List UInt8} {p : Program} (h : build source = .ok p) :
    Balanced Kind.ofByte? source := by
  have hfinding := compile_scan_error Translation.newLabel source
  rw [(build_ok h).1] at hfinding
  cases hfinding with
  | accepted hnested => exact hnested.balanced

end TapeCode
