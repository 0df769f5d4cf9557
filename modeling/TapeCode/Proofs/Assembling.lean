import TapeCode.Proofs.Linking
import TapeCode.Proofs.RunLength

/-!
Accepted programs in the assembler. Every loop has two labels of its own, which are handed out and marked once, and the
jumps of the loop go to them. So nothing is wrong with the operations of an accepted program but a move that is too long
for its operand (`Group.complaint?`).
-/

namespace TapeCode

open Brackets

/-! ### Runs that fit -/

namespace Group

/-- A run of moves fits into one operand, which goes one further down than up. -/
def Fits (g : Group) : Prop :=
  (g.kind = .moveForward → g.count ≤ 2147483647) ∧ (g.kind = .moveBackward → g.count ≤ 2147483648)

instance (g : Group) : Decidable g.Fits :=
  inferInstanceAs (Decidable (_ ∧ _))

/-- How far a run of moves goes. -/
def delta (g : Group) : Int :=
  if g.kind = .moveBackward then -g.count else g.count

/-- What is wrong with a run. -/
def complaint? (g : Group) : Option AsmError :=
  if g.Fits then none else some (.moveRange g.delta)

section Fits
variable {g : Group} {gs : List Group} {e : AsmError}

theorem fits_forward (h : g.kind = .moveForward) : g.Fits ↔ g.count ≤ 2147483647 := by
  simp [Fits, h]

theorem fits_backward (h : g.kind = .moveBackward) : g.Fits ↔ g.count ≤ 2147483648 := by
  simp [Fits, h]

theorem fits_of_not_move (h : g.kind.isMove = false) : g.Fits := by
  constructor
  · intro hk
    rw [hk] at h
    cases h
  · intro hk
    rw [hk] at h
    cases h

theorem complaint?_eq_none : g.complaint? = none ↔ g.Fits := by
  unfold complaint?
  split
  · next hfits => exact ⟨fun _ => hfits, fun _ => rfl⟩
  · next hno => exact ⟨fun hnone => absurd hnone (Option.some_ne_none _), fun hfits => absurd hfits hno⟩

theorem findSome?_complaint?_eq_none : gs.findSome? complaint? = none ↔ ∀ g ∈ gs, g.Fits := by
  simp only [List.findSome?_eq_none_iff, complaint?_eq_none]

theorem complaint?_eq_some (h : g.complaint? = some e) :
    e = .moveRange g.delta ∧ (g.kind = .moveForward ∧ 2147483647 < g.count ∧ g.delta = g.count ∨
      g.kind = .moveBackward ∧ 2147483648 < g.count ∧ g.delta = -g.count) := by
  unfold complaint? at h
  split at h
  · cases h
  · next hno =>
    refine ⟨(Option.some.inj h).symm, ?_⟩
    cases hk : g.kind with
    | moveForward =>
      rw [fits_forward hk, Nat.not_le] at hno
      exact Or.inl ⟨rfl, hno, by rw [delta, hk, if_neg Kind.noConfusion]⟩
    | moveBackward =>
      rw [fits_backward hk, Nat.not_le] at hno
      exact Or.inr ⟨rfl, hno, by rw [delta, if_pos hk]⟩
    | _ => exact absurd (fits_of_not_move (by rw [hk]; rfl)) hno

/-- The operation of a run of moves is as wrong as the run is. -/
theorem complaint?_moveOp {direction : Int} (h : g.kind = .moveForward ∧ direction = 1 ∨
    g.kind = .moveBackward ∧ direction = -1) (before : List Op) :
    (Compilation.moveOp direction g.count).complaint? before = g.complaint? := by
  have hdelta : direction * g.count = g.delta := by
    rcases h with ⟨hk, rfl⟩ | ⟨hk, rfl⟩
    · rw [delta, hk, if_neg Kind.noConfusion, Int.one_mul]
    · rw [delta, if_pos hk, Int.neg_one_mul]
  have hfits : g.Fits ↔ -2147483648 ≤ g.delta ∧ g.delta < 2147483648 := by
    rcases h with ⟨hk, rfl⟩ | ⟨hk, rfl⟩
    · rw [fits_forward hk, ← hdelta]
      omega
    · rw [fits_backward hk, ← hdelta]
      omega
  rw [Compilation.moveOp, hdelta, complaint?]
  split
  · next hone =>
    rw [hone] at hdelta
    rw [if_pos (hfits.mpr (by omega)), Op.complaint?, if_pos (by omega)]
  · simp only [Op.complaint?, hfits]

end Fits

end Group

/-! ### Labels of loops -/

namespace Op
variable {before : List Op} {l : Int}

theorem complaint?_mark (h : Known before l) (hnew : mark l ∉ before) : complaint? before (mark l) = none := by
  rw [complaint?, if_pos h, if_neg hnew]

theorem complaint?_jump (h : Known before l) : complaint? before (jump l) = none :=
  if_pos h

theorem complaint?_jumpIfZero (h : Known before l) : complaint? before (jumpIfZero l) = none :=
  if_pos h

end Op

namespace Translation

/-- The label that an assembler hands out for a request, if it handed out `base` labels before. -/
def labelFrom (base k : Nat) : Int := base + k

/-- Operations that hand out the labels below a number, and mark no others. -/
structure Reserves (before : List Op) (base : Nat) : Prop where
  created : before.count .newLabel = base
  marks : ∀ l, Op.mark l ∈ before → l < base

section Number
variable {gs : List Group} {i k : Nat}

theorem number_mono (gs : List Group) (h : i ≤ k) : number gs i ≤ number gs k :=
  (List.take_sublist_take_left h).countP_le

theorem number_lt (hi : gs[i]?.bind Group.kind? = some .loopBegin) (h : i < k) : number gs i < number gs k := by
  obtain ⟨g, hg, hk⟩ := Option.bind_eq_some_iff.mp hi
  have hsucc := number_succ hg
  rw [if_pos (Option.some.inj hk)] at hsucc
  exact Nat.lt_of_lt_of_le (Nat.lt_of_lt_of_eq (Nat.lt_succ_self _) hsucc.symm) (number_mono gs h)

/-- Loops have different numbers. -/
theorem number_inj (hi : gs[i]?.bind Group.kind? = some .loopBegin) (hk : gs[k]?.bind Group.kind? = some .loopBegin)
    (h : number gs i = number gs k) : i = k := by
  rcases Nat.lt_trichotomy i k with hlt | heq | hgt
  · exact absurd h (Nat.ne_of_lt (number_lt hi hlt))
  · exact heq
  · exact absurd h.symm (Nat.ne_of_lt (number_lt hk hgt))

end Number

section Blocks
variable {fresh : Nat → Int} {gs : List Group} {g : Group} {op : Op} {l : Int} {i k n : Nat}

theorem mem_body : op ∈ body fresh gs n ↔ ∃ k < n, ∃ g, gs[k]? = some g ∧ op ∈ blockOf fresh gs k g := by
  simp only [body, List.mem_flatMap, List.mem_range, block]
  constructor
  · rintro ⟨k, hk, hop⟩
    rcases hg : gs[k]? with _ | g
    · simp [hg] at hop
    · rw [hg] at hop
      exact ⟨k, hk, g, hg, hop⟩
  · rintro ⟨k, hk, g, hg, hop⟩
    refine ⟨k, hk, ?_⟩
    rwa [hg]

theorem mem_operations (h : gs[k]? = some g) (hop : op ∈ blockOf fresh gs k g) : op ∈ operations fresh gs :=
  List.mem_append_right _ (mem_body.mpr ⟨k, (List.getElem?_eq_some_iff.mp h).1, g, h, hop⟩)

theorem kind?_bind (h : gs[k]? = some g) : gs[k]?.bind Group.kind? = some g.kind := by
  rw [h]
  rfl

/-- A loop marks its labels where it begins and where it ends. -/
theorem mark_mem_blockOf (hbal : Balanced Group.kind? gs) (hg : gs[k]? = some g) (h : .mark l ∈ blockOf fresh gs k g) :
    g.kind = .loopBegin ∧ l = startLabel fresh gs k ∨ ∃ i, Matches Group.kind? gs i k ∧ l = finishLabel fresh gs i := by
  cases hk : g.kind with
  | loopBegin =>
    simp only [blockOf, hk] at h
    exact Or.inl ⟨rfl, by simpa using h⟩
  | loopEnd =>
    obtain ⟨i, hm⟩ := hbal.exists_opener (by rw [kind?_bind hg, hk])
    rw [blockOf_loopEnd hm hk] at h
    exact Or.inr ⟨i, hm, by simpa using h⟩
  | moveForward | moveBackward =>
    simp only [blockOf, hk, List.mem_singleton] at h
    exact absurd h (Compilation.moveOp_ne (by simp) (by simp) _ _)
  | _ => simp [blockOf, hk] at h

/-- The jumps of a loop go to its labels. -/
theorem destination_mem_blockOf (hbal : Balanced Group.kind? gs) (hg : gs[k]? = some g) (h : op ∈ blockOf fresh gs k g)
    (hl : op.destination? = some l) :
    g.kind = .loopBegin ∧ l = finishLabel fresh gs k ∨ ∃ i, Matches Group.kind? gs i k ∧ l = startLabel fresh gs i := by
  cases hk : g.kind with
  | loopBegin =>
    simp only [blockOf, hk] at h
    refine Or.inl ⟨rfl, ?_⟩
    simp only [List.mem_cons, List.not_mem_nil, or_false] at h
    rcases h with rfl | rfl | rfl | rfl | rfl <;> cases hl
    rfl
  | loopEnd =>
    obtain ⟨i, hm⟩ := hbal.exists_opener (by rw [kind?_bind hg, hk])
    rw [blockOf_loopEnd hm hk] at h
    refine Or.inr ⟨i, hm, ?_⟩
    simp only [List.mem_cons, List.not_mem_nil, or_false] at h
    rcases h with rfl | rfl <;> cases hl
    rfl
  | moveForward | moveBackward =>
    simp only [blockOf, hk, List.mem_singleton, Compilation.moveOp] at h
    subst h
    split at hl <;> cases hl
  | increment | decrement | output | input | endMark =>
    simp only [blockOf, hk, List.mem_cons, List.not_mem_nil, or_false] at h
    rcases h with rfl | rfl | rfl <;> cases hl
  | unknown code => simp [blockOf, hk] at h

/-- No jump of a balanced program is left without its label. -/
theorem dangling?_operations (fresh : Nat → Int) (hbal : Balanced Group.kind? gs) :
    Layout.dangling? (operations fresh gs) = none := by
  rw [Layout.dangling?_eq_none]
  intro op hop l hl
  rcases List.mem_append.mp hop with hop | hop
  · have hopening : ∀ op ∈ Compilation.opening.toList, op.destination? = none := by decide
    rw [hopening op hop] at hl
    cases hl
  · obtain ⟨k, -, g, hg, hop⟩ := mem_body.mp hop
    rcases destination_mem_blockOf hbal hg hop hl with ⟨hk, rfl⟩ | ⟨i, hm, rfl⟩
    · obtain ⟨j, hm⟩ := hbal.exists_closer (by rw [kind?_bind hg, hk])
      obtain ⟨g', hg', hk'⟩ := Option.bind_eq_some_iff.mp hm.2.2.1
      refine mem_operations hg' ?_
      rw [blockOf_loopEnd hm (Option.some.inj hk')]
      simp
    · obtain ⟨g', hg', hk'⟩ := Option.bind_eq_some_iff.mp hm.2.1
      refine mem_operations hg' ?_
      simp [blockOf, Option.some.inj hk']

end Blocks

/-! ### Complaints -/

section Complaints
variable {before : List Op} {base : Nat} {gs : List Group} {g : Group} {i k n : Nat}

/-- What stands before a run, behind other operations. -/
def ahead (before : List Op) (base : Nat) (gs : List Group) (k : Nat) : List Op :=
  before ++ (Compilation.opening.toList ++ body (labelFrom base) gs k)

theorem count_ahead (h : Reserves before base) (hk : k ≤ gs.length) :
    (ahead before base gs k).count .newLabel = base + 2 * number gs k := by
  rw [ahead, List.count_append, List.count_append, h.created, count_body _ hk]
  exact congrArg (base + ·) (Nat.zero_add _)

theorem known_ahead (h : Reserves before base) (hk : k ≤ gs.length) {c : Nat} {more : List Op}
    (hc : c < 2 * number gs k + more.count .newLabel) : Op.Known (ahead before base gs k ++ more) (labelFrom base c) := by
  rw [Op.Known, List.count_append, count_ahead h hk, labelFrom]
  omega

/-- The labels that are marked ahead of a run belong to loops that begin before it, or to such that end before it. -/
theorem mark_mem_ahead (h : Reserves before base) (hbal : Balanced Group.kind? gs) {c : Nat}
    (hmem : .mark (labelFrom base c) ∈ ahead before base gs k) :
    (∃ i < k, gs[i]?.bind Group.kind? = some .loopBegin ∧ c = 2 * number gs i) ∨
      ∃ i, ∃ j < k, Matches Group.kind? gs i j ∧ c = 2 * number gs i + 1 := by
  rcases List.mem_append.mp hmem with hmem | hmem
  · have hlt := h.marks _ hmem
    rw [labelFrom] at hlt
    omega
  · rcases List.mem_append.mp hmem with hmem | hmem
    · simp [Compilation.opening] at hmem
    · obtain ⟨j, hj, g, hg, hop⟩ := mem_body.mp hmem
      rcases mark_mem_blockOf hbal hg hop with ⟨hkind, hl⟩ | ⟨i, hm, hl⟩
      · rw [startLabel, labelFrom, labelFrom] at hl
        exact Or.inl ⟨j, hj, by rw [kind?_bind hg, hkind], by omega⟩
      · rw [finishLabel, labelFrom, labelFrom] at hl
        exact Or.inr ⟨i, j, hj, hm, by omega⟩

theorem start_not_mem_ahead (h : Reserves before base) (hbal : Balanced Group.kind? gs) :
    .mark (startLabel (labelFrom base) gs k) ∉ ahead before base gs k := by
  intro hmem
  -- Labels come in pairs, so one that starts a loop never ends one.
  rcases mark_mem_ahead h hbal hmem with ⟨i, hi, hbegin, hc⟩ | ⟨i, j, -, -, hc⟩
  · have hlt := number_lt hbegin hi
    omega
  · omega

theorem finish_not_mem_ahead (h : Reserves before base) (hbal : Balanced Group.kind? gs)
    (hm : Matches Group.kind? gs i k) : .mark (finishLabel (labelFrom base) gs i) ∉ ahead before base gs k := by
  intro hmem
  rcases mark_mem_ahead h hbal hmem with ⟨j, -, -, hc⟩ | ⟨i', j, hj, hm', hc⟩
  · omega
  · have hsame : i = i' := number_inj hm.2.1 hm'.2.1 (by omega)
    subst hsame
    exact absurd (hm'.closer_unique hm) (Nat.ne_of_lt hj)

theorem firstComplaint_loopBegin (h : Reserves before base) (hbal : Balanced Group.kind? gs) (hg : gs[k]? = some g)
    (hk : g.kind = .loopBegin) :
    Op.firstComplaint (ahead before base gs k) (blockOf (labelFrom base) gs k g) = none := by
  have hle : k ≤ gs.length := Nat.le_of_lt (List.getElem?_eq_some_iff.mp hg).1
  -- Both labels are handed out by the block itself, right before the first one is marked.
  have hnew : .mark (startLabel (labelFrom base) gs k) ∉ ahead before base gs k ++ [.newLabel] ++ [.newLabel] := by
    simpa using start_not_mem_ahead h hbal
  have hstart : Op.Known (ahead before base gs k ++ [.newLabel] ++ [.newLabel]) (startLabel (labelFrom base) gs k) := by
    rw [List.append_assoc]
    exact known_ahead h hle (Nat.lt_add_of_pos_right (by decide))
  have hfinish : Op.Known (ahead before base gs k ++ [.newLabel] ++ [.newLabel] ++
      [.mark (startLabel (labelFrom base) gs k)] ++ [.load]) (finishLabel (labelFrom base) gs k) := by
    rw [List.append_assoc, List.append_assoc, List.append_assoc]
    exact known_ahead h hle (Nat.add_lt_add_left (by simp) _)
  simp only [blockOf, hk]
  rw [Op.firstComplaint, Op.firstComplaint, Op.firstComplaint, Op.complaint?_mark hstart hnew, Op.firstComplaint,
    Op.firstComplaint_singleton, Op.complaint?_jumpIfZero hfinish]
  rfl

theorem firstComplaint_loopEnd (h : Reserves before base) (hbal : Balanced Group.kind? gs) (hg : gs[k]? = some g)
    (hk : g.kind = .loopEnd) :
    Op.firstComplaint (ahead before base gs k) (blockOf (labelFrom base) gs k g) = none := by
  have hle : k ≤ gs.length := Nat.le_of_lt (List.getElem?_eq_some_iff.mp hg).1
  obtain ⟨i, hm⟩ := hbal.exists_opener (by rw [kind?_bind hg, hk])
  have hnumber := number_lt hm.2.1 hm.1
  have hnew : .mark (finishLabel (labelFrom base) gs i) ∉
      ahead before base gs k ++ [.jump (startLabel (labelFrom base) gs i)] := by
    simpa using finish_not_mem_ahead h hbal hm
  have hstart : Op.Known (ahead before base gs k) (startLabel (labelFrom base) gs i) := by
    rw [← List.append_nil (ahead before base gs k)]
    exact known_ahead h hle (by rw [List.count_nil]; omega)
  have hfinish : Op.Known (ahead before base gs k ++ [.jump (startLabel (labelFrom base) gs i)])
      (finishLabel (labelFrom base) gs i) :=
    known_ahead h hle (by omega)
  rw [blockOf_loopEnd hm hk, Op.firstComplaint, Op.complaint?_jump hstart, Op.firstComplaint_singleton,
    Op.complaint?_mark hfinish hnew]
  rfl

/-- Whatever is wrong with the operations of a run is wrong with the run. -/
theorem firstComplaint_block (h : Reserves before base) (hbal : Balanced Group.kind? gs) (hg : gs[k]? = some g) :
    Op.firstComplaint (ahead before base gs k) (blockOf (labelFrom base) gs k g) = g.complaint? := by
  have hfine (hmove : g.kind.isMove = false) : g.complaint? = none :=
    Group.complaint?_eq_none.mpr (Group.fits_of_not_move hmove)
  cases hk : g.kind with
  | moveForward =>
    simp only [blockOf, hk, Op.firstComplaint_singleton]
    exact Group.complaint?_moveOp (Or.inl ⟨hk, rfl⟩) _
  | moveBackward =>
    simp only [blockOf, hk, Op.firstComplaint_singleton]
    exact Group.complaint?_moveOp (Or.inr ⟨hk, rfl⟩) _
  | loopBegin => rw [firstComplaint_loopBegin h hbal hg hk, hfine (by rw [hk]; rfl)]
  | loopEnd => rw [firstComplaint_loopEnd h hbal hg hk, hfine (by rw [hk]; rfl)]
  | increment | decrement | output | input | endMark | unknown code =>
    rw [hfine (by rw [hk]; rfl), blockOf, hk]
    rfl

theorem firstComplaint_body (h : Reserves before base) (hbal : Balanced Group.kind? gs) (hn : n ≤ gs.length) :
    Op.firstComplaint before (Compilation.opening.toList ++ body (labelFrom base) gs n) =
      (gs.take n).findSome? Group.complaint? := by
  induction n with
  | zero => rfl
  | succ n ih =>
    have hg : gs[n]? = some gs[n] := List.getElem?_eq_getElem hn
    have hblock := firstComplaint_block h hbal hg
    rw [body_succ, block_eq _ hg, ← List.append_assoc, Op.firstComplaint_append, ih (Nat.le_of_succ_le hn),
      List.take_succ_eq_append_getElem hn, List.findSome?_append, List.findSome?_singleton, ← hblock]
    rfl

/-- The first complaint about an accepted program is about its first run that does not fit. -/
theorem firstComplaint_operations (h : Reserves before base) (hbal : Balanced Group.kind? gs) :
    Op.firstComplaint before (operations (labelFrom base) gs) = gs.findSome? Group.complaint? := by
  rw [operations, firstComplaint_body h hbal (Nat.le_refl _), List.take_length]

end Complaints

/-! ### Linking -/

section Linking
variable {before : List Op} {base : Nat} {gs : List Group} {e : AsmError}

theorem reserves_nil : Reserves [] 0 :=
  ⟨rfl, fun _ hmem => absurd hmem List.not_mem_nil⟩

theorem linking_behind_unfit (hfine : Op.firstComplaint [] before = none) (h : Reserves before base)
    (hbal : Balanced Group.kind? gs) (hunfit : gs.findSome? Group.complaint? = some e) :
    Layout.linking (before ++ operations (labelFrom base) gs) = .error e := by
  apply Layout.linking_complaint
  rw [Op.firstComplaint_append, hfine, Option.none_or, List.nil_append, firstComplaint_operations h hbal, hunfit]

theorem linking_behind_fit (hfine : Op.firstComplaint [] before = none) (hmarked : Layout.dangling? before = none)
    (h : Reserves before base) (hbal : Balanced Group.kind? gs) (hfits : ∀ g ∈ gs, g.Fits) :
    Layout.linking (before ++ operations (labelFrom base) gs) =
      .ok (Layout.binary (before ++ operations (labelFrom base) gs)) := by
  have hnone := Group.findSome?_complaint?_eq_none.mpr hfits
  apply Layout.linking_fine
  · rw [Op.firstComplaint_append, hfine, Option.none_or, List.nil_append, firstComplaint_operations h hbal, hnone]
  · rw [Layout.dangling?_eq_none] at hmarked ⊢
    intro op hop l hl
    rcases List.mem_append.mp hop with hop | hop
    · exact List.mem_append_left _ (hmarked op hop l hl)
    · exact List.mem_append_right _ (Layout.dangling?_eq_none.mp (dangling?_operations _ hbal) op hop l hl)

theorem linking_unfit (hbal : Balanced Group.kind? gs) (h : gs.findSome? Group.complaint? = some e) :
    Layout.linking (operations newLabel gs) = .error e :=
  linking_behind_unfit rfl reserves_nil hbal h

theorem linking_fit (hbal : Balanced Group.kind? gs) (h : ∀ g ∈ gs, g.Fits) :
    Layout.linking (operations newLabel gs) = .ok (Layout.binary (operations newLabel gs)) :=
  linking_behind_fit rfl rfl reserves_nil hbal h

end Linking

end Translation

/-- An accepted program is linked as the operations of its runs are, behind those that the assembler took before. -/
theorem Assembler.Took.link_compile {a : Assembler} {before : List Op} {tokens : List Token} (h : Took a before)
    (haccept : (a.compile tokens).2 = none) :
    Balanced Group.kind? (Group.fold (tokens.map Token.kind)) ∧ (a.compile tokens).1.link.2 =
      Layout.linking (before ++ Translation.operations (Translation.labelFrom a.nextLabel)
        (Group.fold (tokens.map Token.kind))) := by
  have herror : (TapeCode.compile (Translation.labelFrom a.nextLabel) tokens).error = none := haccept
  obtain ⟨hbal, hops⟩ := compile_translation herror
  have htook := h.foldl (TapeCode.compile (Translation.labelFrom a.nextLabel) tokens).ops.toList
  rw [Array.foldl_toList] at htook
  refine ⟨hbal, ?_⟩
  rw [← hops]
  exact htook.link_eq

theorem Assembler.link_compile {tokens : List Token} (h : (({} : Assembler).compile tokens).2 = none) :
    Balanced Group.kind? (Group.fold (tokens.map Token.kind)) ∧ (({} : Assembler).compile tokens).1.link.2 =
      Layout.linking (Translation.operations Translation.newLabel (Group.fold (tokens.map Token.kind))) :=
  Took.empty.link_compile h

theorem Group.Runs.count_le {kinds : List Kind} {gs : List Group} {g : Group} (h : Runs kinds gs) (hg : g ∈ gs) :
    g.count ≤ kinds.length := by
  obtain ⟨pre, post, rfl⟩ := List.append_of_mem hg
  rw [← h.spell, List.flatMap_append, List.flatMap_cons, List.length_append, List.length_append, commands,
    List.length_replicate]
  omega

/-- An accepted program is assembled just if none of its runs of moves is too long. If one is, the first such run is what
linking complains about, and it complains about nothing else. -/
theorem accepted_program_assembles {tokens : List Token} (h : (({} : Assembler).compile tokens).2 = none) :
    ∃ gs, Group.Runs (tokens.map Token.kind) gs ∧ (∀ gs', Group.Runs (tokens.map Token.kind) gs' → gs' = gs) ∧
      ((∃ p, (({} : Assembler).compile tokens).1.link.2 = .ok p) ↔ ∀ g ∈ gs, g.Fits) ∧
      ∀ e, (({} : Assembler).compile tokens).1.link.2 = .error e →
        ∃ pre g post, gs = pre ++ g :: post ∧ (∀ g' ∈ pre, g'.Fits) ∧
          (g.kind = .moveForward ∧ 2147483647 < g.count ∧ g.delta = g.count ∨
            g.kind = .moveBackward ∧ 2147483648 < g.count ∧ g.delta = -g.count) ∧
          (tokens.length < 9223372036854775808 → -9223372036854775808 < g.delta ∧ g.delta < 9223372036854775808) ∧
          e = .moveRange g.delta ∧ e.message = "move: delta " ++ Text.signedDecimal g.delta ++ " out of range" := by
  have hruns := Group.runs_fold (tokens.map Token.kind)
  obtain ⟨hbal, hlink⟩ := Assembler.link_compile h
  generalize hgs : Group.fold (tokens.map Token.kind) = gs at hruns hbal hlink
  refine ⟨gs, hruns, fun gs' hgs' => hgs'.eq_fold.trans hgs, ?_⟩
  rw [hlink]
  cases hfirst : gs.findSome? Group.complaint? with
  | none =>
    have hfits := Group.findSome?_complaint?_eq_none.mp hfirst
    have hok := Translation.linking_fit hbal hfits
    refine ⟨⟨fun _ => hfits, fun _ => ⟨_, hok⟩⟩, ?_⟩
    intro e he
    rw [hok] at he
    cases he
  | some e =>
    have herror := Translation.linking_unfit hbal hfirst
    obtain ⟨pre, g, post, hsplit, hg, hpre⟩ := List.findSome?_eq_some_iff.mp hfirst
    have hmem : g ∈ gs := hsplit ▸ List.mem_append_right pre List.mem_cons_self
    obtain ⟨rfl, hkind⟩ := Group.complaint?_eq_some hg
    constructor
    · constructor
      · rintro ⟨p, hp⟩
        rw [herror] at hp
        cases hp
      · intro hfits
        rw [Group.complaint?_eq_none.mpr (hfits g hmem)] at hg
        cases hg
    · intro e' he'
      rw [herror] at he'
      obtain rfl := Except.error.inj he'
      have hcount := hruns.count_le hmem
      rw [List.length_map] at hcount
      exact ⟨pre, g, post, hsplit, fun g' hg' => Group.complaint?_eq_none.mp (hpre g' hg'), hkind, by omega, rfl, rfl⟩

/-- A run and an end mark. -/
def Token.run (kind : Kind) (n : Nat) : List Token :=
  List.replicate n ⟨kind, 0, 1⟩ ++ [⟨.endMark, 0, 1⟩]

theorem Compilation.verdict_run {kind : Kind} (hk : kind.foldable = true) (n : Nat) :
    verdict [] (Token.run kind n) = none := by
  induction n with
  | zero => rfl
  | succ n ih => cases kind <;> first | exact ih | cases hk

theorem Compilation.run_accepted {kind : Kind} (hk : kind.foldable = true) (n : Nat) :
    (({} : Assembler).compile (Token.run kind (n + 1))).2 = none ∧
      Group.fold ((Token.run kind (n + 1)).map Token.kind) = [⟨kind, n + 1⟩, ⟨.endMark, 1⟩] := by
  have hends : Ends (Token.run kind (n + 1)) := by
    rw [Ends, Token.run, List.getLast?_concat]
    rfl
  constructor
  · exact (compile_error _ hends).trans (verdict_run hk _)
  · have hfold : Group.fold (List.replicate (n + 1) kind ++ []) = [⟨kind, n + 1⟩] :=
      Group.fold_replicate hk (fun _ hg => absurd hg (Option.not_mem_none _)) n
    rw [Token.run, List.map_append, List.map_replicate, List.map_singleton, Group.fold_endMark,
      ← List.append_nil (List.replicate _ _), hfold]
    rfl

/-- Of two runs of the same length the one forward is too long, and the one backward is not. -/
theorem long_run_fits_backward_only :
    (({} : Assembler).compile (Token.run .moveForward 2147483648)).2 = none ∧
    (({} : Assembler).compile (Token.run .moveForward 2147483648)).1.link.2 = .error (.moveRange 2147483648) ∧
    (({} : Assembler).compile (Token.run .moveBackward 2147483648)).2 = none ∧
    ∃ p, (({} : Assembler).compile (Token.run .moveBackward 2147483648)).1.link.2 = .ok p := by
  have hforward := Compilation.run_accepted (show Kind.moveForward.foldable = true from rfl) 2147483647
  have hbackward := Compilation.run_accepted (show Kind.moveBackward.foldable = true from rfl) 2147483647
  refine ⟨hforward.1, ?_, hbackward.1, ?_⟩
  · obtain ⟨gs, hruns, -, hlinked, herror⟩ := accepted_program_assembles hforward.1
    obtain rfl := hruns.eq_fold.trans hforward.2
    cases hlink : (({} : Assembler).compile (Token.run .moveForward 2147483648)).1.link.2 with
    | ok p => exact absurd (hlinked.mp ⟨p, hlink⟩) (by decide)
    | error e =>
      obtain ⟨pre, g, post, hsplit, -, hkind, -, rfl, -⟩ := herror e hlink
      have hmem : g ∈ pre ++ g :: post := List.mem_append_right pre List.mem_cons_self
      rw [← hsplit, List.mem_pair] at hmem
      rcases hmem with rfl | rfl
      · rfl
      · rcases hkind with ⟨hk, -⟩ | ⟨hk, -⟩ <;> cases hk
  · obtain ⟨gs, hruns, -, hlinked, -⟩ := accepted_program_assembles hbackward.1
    obtain rfl := hruns.eq_fold.trans hbackward.2
    exact hlinked.mpr (by decide)

end TapeCode
