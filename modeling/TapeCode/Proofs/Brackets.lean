import TapeCode.Token

/-!
Balanced and matching brackets. The statements are about lists of anything that can be read as commands (bytes,
tokens, runs of tokens): `kind` says which command an element is, if it is one, and only `[` and `]` count here.
A `[` and a `]` match if what stands between them is balanced.
-/

namespace TapeCode.Brackets

section Definitions
variable {α : Type} (kind : α → Option Kind)

/-- Every `[` is closed by a `]` behind it, and every `]` closes a `[`. -/
inductive Balanced : List α → Prop where
  | nil : Balanced []
  | plain {a : α} {l : List α} (hb : kind a ≠ some .loopBegin) (he : kind a ≠ some .loopEnd)
      (hl : Balanced l) : Balanced (a :: l)
  | loop {a b : α} {body rest : List α} (ha : kind a = some .loopBegin) (hb : kind b = some .loopEnd)
      (hbody : Balanced body) (hrest : Balanced rest) : Balanced (a :: (body ++ b :: rest))

/-- The number of open loops behind a list, if `depth` are open before it; `none` if a `]` closes no loop. -/
def nesting : Nat → List α → Option Nat
  | depth, [] => some depth
  | depth, a :: l =>
    if kind a = some .loopBegin then nesting (depth + 1) l
    else if kind a = some .loopEnd then
      match depth with
      | 0 => none
      | depth + 1 => nesting depth l
    else nesting depth l

/-- The `[` at `i` and the `]` at `j` belong together. -/
def Matches (l : List α) (i j : Nat) : Prop :=
  i < j ∧ l[i]?.bind kind = some .loopBegin ∧ l[j]?.bind kind = some .loopEnd ∧
    Balanced kind ((l.take j).drop (i + 1))

end Definitions

variable {α : Type} {kind : α → Option Kind}

/-! ### Counting -/

section Nesting
variable {a b : α} {l body : List α} {d e : Nat}

theorem nesting_begin (h : kind a = some .loopBegin) : nesting kind d (a :: l) = nesting kind (d + 1) l := by
  simp only [nesting, h, ↓reduceIte]

theorem nesting_end_zero (h : kind b = some .loopEnd) : nesting kind 0 (b :: l) = none := by
  simp [nesting, h]

theorem nesting_end_succ (h : kind b = some .loopEnd) : nesting kind (d + 1) (b :: l) = nesting kind d l := by
  simp [nesting, h]

theorem nesting_plain (hb : kind a ≠ some .loopBegin) (he : kind a ≠ some .loopEnd) :
    nesting kind d (a :: l) = nesting kind d l := by
  simp only [nesting, hb, he, ↓reduceIte]

theorem sides (kind : α → Option Kind) (a : α) : kind a = some .loopBegin ∨ kind a = some .loopEnd ∨
    (kind a ≠ some .loopBegin ∧ kind a ≠ some .loopEnd) := by
  by_cases hb : kind a = some .loopBegin
  · exact Or.inl hb
  · by_cases he : kind a = some .loopEnd
    · exact Or.inr (Or.inl he)
    · exact Or.inr (Or.inr ⟨hb, he⟩)

theorem nesting_append (d : Nat) (x y : List α) :
    nesting kind d (x ++ y) = (nesting kind d x).bind fun e => nesting kind e y := by
  induction x generalizing d with
  | nil => rfl
  | cons a x ih =>
    rw [List.cons_append]
    rcases sides kind a with h | h | ⟨hb, he⟩
    · rw [nesting_begin h, nesting_begin h, ih]
    · cases d with
      | zero => rw [nesting_end_zero h, nesting_end_zero h, Option.bind_none]
      | succ d => rw [nesting_end_succ h, nesting_end_succ h, ih]
    · rw [nesting_plain hb he, nesting_plain hb he, ih]

theorem Balanced.nesting_eq (h : Balanced kind l) (d : Nat) : nesting kind d l = some d := by
  induction h generalizing d with
  | nil => rfl
  | plain hb he _ ih => rw [nesting_plain hb he, ih]
  | loop ha hb _ _ ihbody ihrest =>
    rw [nesting_begin ha, nesting_append, ihbody, Option.bind_some, nesting_end_succ hb, ihrest]

theorem Balanced.append {x y : List α} (hx : Balanced kind x) (hy : Balanced kind y) : Balanced kind (x ++ y) := by
  induction hx with
  | nil => exact hy
  | plain hb he _ ih => exact .plain hb he ih
  | loop ha hb hbody _ _ ih =>
    rw [List.cons_append, List.append_assoc, List.cons_append]
    exact .loop ha hb hbody ih

/-- What closes some loops: balanced texts with a `]` between each two. -/
inductive Closing (kind : α → Option Kind) : Nat → List α → Prop where
  | done {l : List α} (hl : Balanced kind l) : Closing kind 0 l
  | close {d : Nat} {b : α} {body rest : List α} (hbody : Balanced kind body) (hb : kind b = some .loopEnd)
      (hrest : Closing kind d rest) : Closing kind (d + 1) (body ++ b :: rest)

theorem Closing.append {x : List α} (hx : Balanced kind x) (h : Closing kind d l) : Closing kind d (x ++ l) := by
  cases h with
  | done hl => exact .done (hx.append hl)
  | close hbody hb hrest =>
    rw [← List.append_assoc]
    exact .close (hx.append hbody) hb hrest

theorem closing_of_nesting (h : nesting kind d l = some 0) : Closing kind d l := by
  induction l generalizing d with
  | nil =>
    cases h
    exact .done .nil
  | cons a l ih =>
    rcases sides kind a with ha | ha | ⟨hb, he⟩
    · rw [nesting_begin ha] at h
      cases ih h with
      | close hbody hb hrest =>
        have hloop := Closing.append (.loop ha hb hbody .nil) hrest
        rwa [List.cons_append, List.append_assoc, List.cons_append, List.nil_append] at hloop
    · cases d with
      | zero =>
        rw [nesting_end_zero ha] at h
        cases h
      | succ d =>
        rw [nesting_end_succ ha] at h
        exact .close .nil ha (ih h)
    · rw [nesting_plain hb he] at h
      exact Closing.append (.plain hb he .nil) (ih h)

/-- Brackets are balanced if counting open loops never fails and ends at zero. -/
theorem balanced_iff : Balanced kind l ↔ nesting kind 0 l = some 0 := by
  refine ⟨fun h => h.nesting_eq 0, fun h => ?_⟩
  cases closing_of_nesting h with
  | done hl => exact hl

theorem Balanced.of_concat (h : Balanced kind (l ++ [a])) (hb : kind a ≠ some .loopBegin)
    (he : kind a ≠ some .loopEnd) : Balanced kind l := by
  have hn := h.nesting_eq 0
  rw [nesting_append] at hn
  obtain ⟨e, hl, ha⟩ := Option.bind_eq_some_iff.mp hn
  rw [nesting_plain hb he] at ha
  cases ha
  exact balanced_iff.mpr hl

instance (kind : α → Option Kind) (l : List α) : Decidable (Balanced kind l) :=
  decidable_of_iff _ balanced_iff.symm

instance (kind : α → Option Kind) (l : List α) (i j : Nat) : Decidable (Matches kind l i j) :=
  inferInstanceAs (Decidable (_ ∧ _ ∧ _ ∧ _))

theorem Balanced.not_close (hb : kind b = some .loopEnd) (hbody : Balanced kind body) {post : List α} :
    ¬Balanced kind (body ++ b :: post) := by
  intro h
  have hn := h.nesting_eq 0
  rw [nesting_append, hbody.nesting_eq, Option.bind_some, nesting_end_zero hb] at hn
  cases hn

theorem Balanced.not_open (ha : kind a = some .loopBegin) (hbody : Balanced kind body) {pre : List α} :
    ¬Balanced kind (pre ++ a :: body) := by
  intro h
  have hn := h.nesting_eq 0
  rw [nesting_append] at hn
  obtain ⟨e, -, he⟩ := Option.bind_eq_some_iff.mp hn
  rw [nesting_begin ha, hbody.nesting_eq] at he
  cases he

end Nesting

/-! ### Matching -/

section Matching
variable {a b : α} {l body : List α} {i j : Nat}

theorem getElem?_middle (pre : List α) (a : α) (post : List α) : (pre ++ a :: post)[pre.length]? = some a := by
  rw [List.getElem?_append_right (Nat.le_refl _), Nat.sub_self, List.getElem?_cons_zero]

theorem exists_split {k : Kind} (h : l[i]?.bind kind = some k) : ∃ pre a post, l = pre ++ a :: post ∧ pre.length = i ∧
    kind a = some k := by
  obtain ⟨a, ha, hk⟩ := Option.bind_eq_some_iff.mp h
  obtain ⟨hi, rfl⟩ := List.getElem?_eq_some_iff.mp ha
  exact ⟨l.take i, l[i], l.drop (i + 1), by rw [List.getElem_cons_drop, List.take_append_drop],
    List.length_take_of_le (Nat.le_of_lt hi), hk⟩

theorem matches_of_split (pre post : List α) (ha : kind a = some .loopBegin) (hb : kind b = some .loopEnd)
    (hbody : Balanced kind body) :
    Matches kind (pre ++ a :: (body ++ b :: post)) pre.length (pre.length + body.length + 1) := by
  have hsplit : pre ++ a :: (body ++ b :: post) = (pre ++ a :: body) ++ b :: post := by simp
  have hlen : pre.length + body.length + 1 = (pre ++ a :: body).length := by
    simp only [List.length_append, List.length_cons, Nat.add_assoc]
  refine ⟨by omega, ?_, ?_, ?_⟩
  · rw [getElem?_middle, Option.bind_some, ha]
  · rw [hsplit, hlen, getElem?_middle, Option.bind_some, hb]
  · rw [hsplit, hlen, List.take_left, List.drop_append, List.drop_of_length_le (by omega), List.nil_append,
      Nat.add_sub_cancel_left, List.drop_one, List.tail_cons]
    exact hbody

theorem Matches.split (h : Matches kind l i j) : ∃ pre a body b post, l = pre ++ a :: (body ++ b :: post) ∧
    pre.length = i ∧ i + body.length + 1 = j ∧ kind a = some .loopBegin ∧ kind b = some .loopEnd ∧
      Balanced kind body := by
  obtain ⟨hij, hi, hj, hbody⟩ := h
  obtain ⟨x, b, post, rfl, rfl, hb⟩ := exists_split hj
  rw [List.getElem?_append_left hij] at hi
  obtain ⟨pre, a, body, rfl, rfl, ha⟩ := exists_split hi
  rw [List.take_left, List.drop_append, List.drop_of_length_le (by omega), List.nil_append,
    Nat.add_sub_cancel_left, List.drop_one, List.tail_cons] at hbody
  refine ⟨pre, a, body, b, post, by simp, rfl, ?_, ha, hb, hbody⟩
  simp only [List.length_append, List.length_cons, Nat.add_assoc]

theorem Matches.lt_length (h : Matches kind l i j) : j < l.length := by
  obtain ⟨b, hb, -⟩ := Option.bind_eq_some_iff.mp h.2.2.1
  exact (List.getElem?_eq_some_iff.mp hb).1

theorem Matches.append (h : Matches kind l i j) (x y : List α) :
    Matches kind (x ++ (l ++ y)) (x.length + i) (x.length + j) := by
  obtain ⟨pre, a, body, b, post, rfl, rfl, rfl, ha, hb, hbody⟩ := h.split
  have := matches_of_split (x ++ pre) (post ++ y) ha hb hbody
  simpa only [List.append_assoc, List.cons_append, List.length_append, Nat.add_assoc] using this

theorem Matches.append_right (h : Matches kind l i j) (y : List α) : Matches kind (l ++ y) i j := by
  have := h.append [] y
  rwa [List.nil_append, List.length_nil, Nat.zero_add, Nat.zero_add] at this

theorem Matches.closer_unique {j' : Nat} (h : Matches kind l i j) (h' : Matches kind l i j') : j = j' := by
  obtain ⟨pre, a, body, b, post, rfl, rfl, rfl, -, hb, hbody⟩ := h.split
  obtain ⟨pre', a', body', b', post', heq, hpre, rfl, -, hb', hbody'⟩ := h'.split
  obtain ⟨rfl, htail⟩ := List.append_inj heq hpre.symm
  rcases List.append_eq_append_iff.mp (List.cons.inj htail).2 with ⟨as, rfl, hbs⟩ | ⟨bs, rfl, hcs⟩
  · cases as with
    | nil => simp
    | cons c as =>
      obtain ⟨rfl, -⟩ := List.cons.inj hbs
      exact absurd hbody' (hbody.not_close hb)
  · cases bs with
    | nil => simp
    | cons c bs =>
      obtain ⟨rfl, -⟩ := List.cons.inj hcs
      exact absurd hbody (hbody'.not_close hb')

theorem Matches.opener_unique {i' : Nat} (h : Matches kind l i j) (h' : Matches kind l i' j) : i = i' := by
  -- Of two openers the later one would stand between the earlier one and the closer.
  have key : ∀ {i i' : Nat}, Matches kind l i j → Matches kind l i' j → ¬i < i' := by
    intro i i' h h' hlt
    obtain ⟨hij, -, -, hbody⟩ := h
    obtain ⟨hij', hi', -, hbody'⟩ := h'
    obtain ⟨pre, a, post, rfl, rfl, ha⟩ := exists_split hi'
    obtain ⟨m, rfl⟩ : ∃ m, j = pre.length + 1 + m := ⟨j - (pre.length + 1), by omega⟩
    have htake : (pre ++ a :: post).take (pre.length + 1 + m) = pre ++ a :: post.take m := by
      rw [Nat.add_assoc, List.take_length_add_append, Nat.add_comm 1 m, List.take_succ_cons]
    rw [htake, List.drop_append_of_le_length (by omega)] at hbody
    rw [htake, List.drop_append, List.drop_of_length_le (by omega), List.nil_append, Nat.add_sub_cancel_left,
      List.drop_one, List.tail_cons] at hbody'
    exact Balanced.not_open ha hbody' hbody
  have h₁ := key h h'
  have h₂ := key h' h
  omega

/-- The bracket at `k`, if there is one, has a partner. -/
def Partnered (kind : α → Option Kind) (l : List α) (k : Nat) : Prop :=
  (l[k]?.bind kind = some .loopBegin → ∃ j, Matches kind l k j) ∧
    (l[k]?.bind kind = some .loopEnd → ∃ i, Matches kind l i k)

theorem Partnered.append {k : Nat} (h : Partnered kind l k) (hk : k < l.length) (x y : List α) :
    Partnered kind (x ++ (l ++ y)) (x.length + k) := by
  have hget : (x ++ (l ++ y))[x.length + k]? = l[k]? := by
    rw [List.getElem?_append_right (by omega), Nat.add_sub_cancel_left, List.getElem?_append_left hk]
  refine ⟨fun hb => ?_, fun he => ?_⟩
  · obtain ⟨j, hj⟩ := h.1 (hget ▸ hb)
    exact ⟨_, hj.append x y⟩
  · obtain ⟨i, hi⟩ := h.2 (hget ▸ he)
    exact ⟨_, hi.append x y⟩

theorem partnered_of_plain {k : Nat} (hb : l[k]?.bind kind ≠ some .loopBegin) (he : l[k]?.bind kind ≠ some .loopEnd) :
    Partnered kind l k :=
  ⟨fun h => absurd h hb, fun h => absurd h he⟩

/-- In a balanced text every bracket has a partner. -/
theorem Balanced.partnered (h : Balanced kind l) {k : Nat} (hk : k < l.length) : Partnered kind l k := by
  induction h generalizing k with
  | nil => exact absurd hk (Nat.not_lt_zero k)
  | @plain a l hb he hl ih =>
    cases k with
    | zero => exact partnered_of_plain hb he
    | succ k =>
      have hlt : k < l.length := Nat.lt_of_succ_lt_succ hk
      have := (ih hlt).append hlt [a] []
      rwa [List.append_nil, List.length_singleton, Nat.add_comm 1 k] at this
  | @loop a b body rest ha hb hbody hrest ihbody ihrest =>
    -- The opening bracket, one inside the loop, the closing bracket, or one behind the loop.
    rcases Nat.lt_trichotomy k (body.length + 1) with hlt | rfl | hgt
    · cases k with
      | zero =>
        refine ⟨fun _ => ⟨_, matches_of_split [] rest ha hb hbody⟩, fun he => ?_⟩
        rw [List.getElem?_cons_zero, Option.bind_some, ha] at he
        cases he
      | succ k =>
        have hlt : k < body.length := Nat.lt_of_succ_lt_succ hlt
        have := (ihbody hlt).append hlt [a] (b :: rest)
        rwa [List.length_singleton, Nat.add_comm 1 k] at this
    · refine ⟨fun hc => ?_, fun _ => ⟨0, ?_⟩⟩
      · rw [List.getElem?_cons_succ, getElem?_middle, Option.bind_some, hb] at hc
        cases hc
      · have := matches_of_split [] rest ha hb hbody
        rwa [List.length_nil, Nat.zero_add] at this
    · obtain ⟨m, rfl⟩ : ∃ m, k = body.length + 2 + m := ⟨k - (body.length + 2), by omega⟩
      have hlt : m < rest.length := by
        simp only [List.length_cons, List.length_append] at hk
        omega
      have := (ihrest hlt).append hlt (a :: (body ++ [b])) []
      simpa using this

theorem Balanced.partnered_behind (hbody : Balanced kind body) (pre : List α) (a : α) {k : Nat}
    (hlt : pre.length < k) : Partnered kind (pre ++ a :: body) k := by
  obtain ⟨m, rfl⟩ : ∃ m, k = pre.length + 1 + m := ⟨k - (pre.length + 1), by omega⟩
  by_cases hm : m < body.length
  · have := (hbody.partnered hm).append hm (pre ++ [a]) []
    rwa [List.append_nil, List.append_assoc, List.singleton_append, List.length_append, List.length_singleton] at this
  · have hnone : (pre ++ a :: body)[pre.length + 1 + m]? = none := by
      rw [List.getElem?_eq_none_iff, List.length_append, List.length_cons]
      omega
    exact partnered_of_plain (by simp [hnone]) (by simp [hnone])

theorem Balanced.exists_closer (h : Balanced kind l) (hi : l[i]?.bind kind = some .loopBegin) :
    ∃ j, Matches kind l i j := by
  obtain ⟨a, ha, -⟩ := Option.bind_eq_some_iff.mp hi
  exact (h.partnered (List.getElem?_eq_some_iff.mp ha).1).1 hi

theorem Balanced.exists_opener (h : Balanced kind l) (hj : l[j]?.bind kind = some .loopEnd) :
    ∃ i, Matches kind l i j := by
  obtain ⟨b, hb, -⟩ := Option.bind_eq_some_iff.mp hj
  exact (h.partnered (List.getElem?_eq_some_iff.mp hb).1).2 hj

end Matching

/-! ### Partners -/

/-- The `]` that belongs to the `[` at `i`. -/
def closer (kind : α → Option Kind) (l : List α) (i : Nat) : Option Nat :=
  (List.range l.length).find? fun j => Matches kind l i j

/-- The `[` that belongs to the `]` at `j`. -/
def opener (kind : α → Option Kind) (l : List α) (j : Nat) : Option Nat :=
  (List.range j).find? fun i => Matches kind l i j

theorem find?_range_unique {n k : Nat} {p : Nat → Bool} (hk : k < n) (hp : p k = true)
    (unique : ∀ k', p k' = true → k' = k) : (List.range n).find? p = some k := by
  cases h : (List.range n).find? p with
  | none => exact absurd hp (List.find?_eq_none.mp h k (List.mem_range.mpr hk))
  | some k' => rw [unique k' (List.find?_some h)]

theorem Matches.closer_eq {l : List α} {i j : Nat} (h : Matches kind l i j) : closer kind l i = some j :=
  find?_range_unique h.lt_length (decide_eq_true h) fun _ h' => (of_decide_eq_true h').closer_unique h

theorem Matches.opener_eq {l : List α} {i j : Nat} (h : Matches kind l i j) : opener kind l j = some i :=
  find?_range_unique h.1 (decide_eq_true h) fun _ h' => (of_decide_eq_true h').opener_unique h

/-! ### Open loops -/

/-- A text in which the loops at the given positions, the innermost first, are open. What stands between them
is balanced. -/
inductive Nested (kind : α → Option Kind) : List α → List Nat → Prop where
  | closed {l : List α} (hl : Balanced kind l) : Nested kind l []
  | within {l body : List α} {a : α} {stack : List Nat} (hl : Nested kind l stack)
      (ha : kind a = some .loopBegin) (hbody : Balanced kind body) :
      Nested kind (l ++ a :: body) (l.length :: stack)

/-- A loop end at a position that matches no loop begin. -/
def UnmatchedEnd (kind : α → Option Kind) (l : List α) (j : Nat) : Prop :=
  l[j]?.bind kind = some .loopEnd ∧ ∀ i, ¬Matches kind l i j

/-- A loop begin at a position that matches no loop end. -/
def UnmatchedBegin (kind : α → Option Kind) (l : List α) (i : Nat) : Prop :=
  l[i]?.bind kind = some .loopBegin ∧ ∀ j, ¬Matches kind l i j

namespace Nested
variable {a b : α} {l body : List α} {stack : List Nat} {i : Nat}

theorem balanced (h : Nested kind l []) : Balanced kind l := by
  cases h with
  | closed hl => exact hl

theorem append (h : Nested kind l stack) (hbody : Balanced kind body) : Nested kind (l ++ body) stack := by
  cases h with
  | closed hl => exact .closed (hl.append hbody)
  | within hl ha hinner =>
    rw [List.append_assoc, List.cons_append]
    exact .within hl ha (hinner.append hbody)

theorem plain (h : Nested kind l stack) (hb : kind a ≠ some .loopBegin) (he : kind a ≠ some .loopEnd) :
    Nested kind (l ++ [a]) stack :=
  h.append (.plain hb he .nil)

theorem enter (h : Nested kind l stack) (ha : kind a = some .loopBegin) :
    Nested kind (l ++ [a]) (l.length :: stack) :=
  .within h ha .nil

theorem leave (h : Nested kind l (i :: stack)) (hb : kind b = some .loopEnd) : Nested kind (l ++ [b]) stack := by
  cases h with
  | within hl ha hbody =>
    rw [List.append_assoc, List.cons_append]
    exact hl.append (.loop ha hb hbody .nil)

theorem matches_leave (h : Nested kind l (i :: stack)) (hb : kind b = some .loopEnd) (post : List α) :
    Matches kind (l ++ b :: post) i l.length := by
  cases h with
  | @within l body a _ hl ha hbody =>
    have := matches_of_split l post ha hb hbody
    simpa only [List.append_assoc, List.cons_append, List.length_append, List.length_cons, Nat.add_assoc] using this

theorem not_unmatchedEnd (h : Nested kind l stack) (j : Nat) : ¬UnmatchedEnd kind l j := by
  induction h with
  | closed hl =>
    rintro ⟨hj, hno⟩
    obtain ⟨i, hi⟩ := hl.exists_opener hj
    exact hno i hi
  | @within l body a _ hl ha hbody ih =>
    rintro ⟨hj, hno⟩
    rcases Nat.lt_trichotomy j l.length with hlt | rfl | hgt
    · refine ih ⟨?_, fun i hi => ?_⟩
      · rwa [List.getElem?_append_left hlt] at hj
      · exact hno i (hi.append_right (a :: body))
    · rw [getElem?_middle, Option.bind_some, ha] at hj
      cases hj
    · obtain ⟨i, hi⟩ := (hbody.partnered_behind l a hgt).2 hj
      exact hno i hi

/-- The innermost open loop is not closed, and no later one is open. -/
theorem unmatchedBegin (h : Nested kind l (i :: stack)) :
    UnmatchedBegin kind l i ∧ ∀ i', i < i' → ¬UnmatchedBegin kind l i' := by
  cases h with
  | @within l body a _ hl ha hbody =>
    refine ⟨⟨by rw [getElem?_middle, Option.bind_some, ha], fun j hj => ?_⟩, ?_⟩
    · obtain ⟨pre, a', body', b, post, heq, hpre, -, -, hb, hbody'⟩ := hj.split
      obtain ⟨-, htail⟩ := List.append_inj heq hpre.symm
      rw [(List.cons.inj htail).2] at hbody
      exact hbody'.not_close hb hbody
    · rintro i' hlt ⟨hi', hno⟩
      obtain ⟨j, hj⟩ := (hbody.partnered_behind l a hlt).1 hi'
      exact hno j hj

/-- A `]` behind a text without open loops is the first one that closes none. -/
theorem unmatchedEnd (h : Nested kind l []) (hb : kind b = some .loopEnd) (post : List α) :
    UnmatchedEnd kind (l ++ b :: post) l.length ∧ ∀ j, j < l.length → ¬UnmatchedEnd kind (l ++ b :: post) j := by
  cases h with
  | closed hl =>
    refine ⟨⟨by rw [getElem?_middle, Option.bind_some, hb], fun i hi => ?_⟩, ?_⟩
    · obtain ⟨pre, a, body, b', post', heq, rfl, hlen, ha, -, hbody⟩ := hi.split
      have hsplit : pre ++ a :: (body ++ b' :: post') = (pre ++ a :: body) ++ b' :: post' := by simp
      rw [hsplit] at heq
      obtain ⟨rfl, -⟩ := List.append_inj heq (by
        simp only [List.length_append, List.length_cons]
        omega)
      exact Balanced.not_open ha hbody hl
    · rintro j hlt ⟨hj, hno⟩
      rw [List.getElem?_append_left hlt] at hj
      obtain ⟨i, hi⟩ := hl.exists_opener hj
      exact hno i (hi.append_right (b :: post))

end Nested

/-! ### Spelling out -/

section Spelling
variable {β : Type} {kind' : β → Option Kind} {image : α → List β} {l : List α}

/-- Elements are spelled out: a bracket as one bracket of its kind, all else without brackets. -/
structure Spells (kind : α → Option Kind) (kind' : β → Option Kind) (image : α → List β) (l : List α) : Prop where
  bracket : ∀ a ∈ l, ∀ k, k = .loopBegin ∨ k = .loopEnd → kind a = some k → ∃ b, image a = [b] ∧ kind' b = some k
  plain : ∀ a ∈ l, kind a ≠ some .loopBegin → kind a ≠ some .loopEnd →
    ∀ b ∈ image a, kind' b ≠ some .loopBegin ∧ kind' b ≠ some .loopEnd

theorem Spells.of_subset {l' : List α} (h : Spells kind kind' image l) (hsub : l' ⊆ l) :
    Spells kind kind' image l' :=
  ⟨fun a ha => h.bracket a (hsub ha), fun a ha => h.plain a (hsub ha)⟩

theorem balanced_of_plain (h : ∀ a ∈ l, kind a ≠ some .loopBegin ∧ kind a ≠ some .loopEnd) : Balanced kind l := by
  induction l with
  | nil => exact .nil
  | cons a l ih =>
    obtain ⟨hb, he⟩ := h a List.mem_cons_self
    exact .plain hb he (ih fun a' ha' => h a' (List.mem_cons_of_mem a ha'))

theorem Balanced.flatMap (h : Balanced kind l) (hs : Spells kind kind' image l) :
    Balanced kind' (l.flatMap image) := by
  induction h with
  | nil => exact .nil
  | @plain a l hb he hl ih =>
    rw [List.flatMap_cons]
    exact (balanced_of_plain (hs.plain a List.mem_cons_self hb he)).append
      (ih (hs.of_subset (List.subset_cons_self a l)))
  | @loop a b body rest ha hb hbody hrest ihbody ihrest =>
    obtain ⟨a', hia, ha'⟩ := hs.bracket a (by simp) _ (Or.inl rfl) ha
    obtain ⟨b', hib, hb'⟩ := hs.bracket b (by simp) _ (Or.inr rfl) hb
    rw [List.flatMap_cons, List.flatMap_append, List.flatMap_cons, hia, hib]
    exact .loop ha' hb' (ihbody (hs.of_subset fun _ h => by simp [h])) (ihrest (hs.of_subset fun _ h => by simp [h]))

/-- Brackets that belong together still do when all is spelled out. -/
theorem Matches.flatMap {i j : Nat} (h : Matches kind l i j) (hs : Spells kind kind' image l) :
    Matches kind' (l.flatMap image) ((l.take i).flatMap image).length ((l.take j).flatMap image).length := by
  obtain ⟨pre, a, body, b, post, rfl, rfl, rfl, ha, hb, hbody⟩ := h.split
  obtain ⟨a', hia, ha'⟩ := hs.bracket a (by simp) _ (Or.inl rfl) ha
  obtain ⟨b', hib, hb'⟩ := hs.bracket b (by simp) _ (Or.inr rfl) hb
  have hbody' := hbody.flatMap (hs.of_subset fun _ h => by simp [h])
  have htake : (pre ++ a :: (body ++ b :: post)).take (pre.length + body.length + 1) = pre ++ a :: body := by
    rw [Nat.add_assoc, List.take_length_add_append, List.take_succ_cons, List.take_left]
  have := matches_of_split (pre.flatMap image) (post.flatMap image) ha' hb' hbody'
  rw [htake, List.take_left]
  simpa only [List.flatMap_append, List.flatMap_cons, hia, hib, List.length_append,
    List.length_singleton, List.singleton_append, List.length_cons, Nat.add_assoc] using this

end Spelling

end TapeCode.Brackets
