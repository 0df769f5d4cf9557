/-!
Systems that move step by step until they stop by themselves. Two of them are compared by a relation between
their states that holds again after some steps of both (`Simulation`). Each side takes at least one step in
between, so neither can run for ever while the other has stopped.
-/

namespace TapeCode

/-- What a step comes to: the system goes on in a state, or it stops in one, for a reason. -/
inductive Progress (σ ρ : Type) where
  | next (s : σ)
  | stop (s : σ) (why : ρ)

namespace Progress

/-- Takes up to a number of steps. Nothing is said about a stop if there was none. -/
def iterate {σ ρ : Type} (step : σ → Progress σ ρ) : Nat → σ → σ × Option ρ
  | 0, s => (s, none)
  | n + 1, s =>
    match step s with
    | .next s => iterate step n s
    | .stop s why => (s, some why)

section Iterate
variable {σ ρ : Type} {step : σ → Progress σ ρ} {s t u : σ} {why : ρ} {n m : Nat}

theorem iterate_next (h : step s = .next t) (n : Nat) : iterate step (n + 1) s = iterate step n t := by
  simp only [iterate, h]

theorem iterate_stop (h : step s = .stop t why) (n : Nat) : iterate step (n + 1) s = (t, some why) := by
  simp only [iterate, h]

theorem iterate_one (h : step s = .next t) : iterate step 1 s = (t, none) :=
  iterate_next h 0

theorem iterate_add (h : iterate step n s = (t, none)) (m : Nat) :
    iterate step (n + m) s = iterate step m t := by
  induction n generalizing s with
  | zero =>
    cases h
    rw [Nat.zero_add]
  | succ n ih =>
    rw [Nat.succ_add]
    cases hs : step s with
    | next s' =>
      rw [iterate_next hs] at h ⊢
      exact ih h
    | stop s' why =>
      rw [iterate_stop hs] at h
      cases h

theorem iterate_mono (h : iterate step n s = (t, some why)) (hm : n ≤ m) :
    iterate step m s = (t, some why) := by
  induction n generalizing s m with
  | zero => cases h
  | succ n ih =>
    obtain ⟨m, rfl⟩ : ∃ k, m = k + 1 := ⟨m - 1, by omega⟩
    cases hs : step s with
    | next s' =>
      rw [iterate_next hs] at h ⊢
      exact ih h (by omega)
    | stop s' why =>
      rw [iterate_stop hs] at h ⊢
      exact h

theorem iterate_cut (hn : iterate step n s = (t, none)) (hm : iterate step m s = (u, some why)) :
    n < m ∧ iterate step (m - n) t = (u, some why) := by
  have hlt : n < m := by
    refine Nat.lt_of_not_le fun hle => ?_
    rw [iterate_mono hm hle] at hn
    cases hn
  refine ⟨hlt, ?_⟩
  rw [← iterate_add hn, Nat.add_sub_cancel' (Nat.le_of_lt hlt)]
  exact hm

theorem iterate_unique {u' : σ} {why' : ρ} (h : iterate step n s = (u, some why))
    (h' : iterate step m s = (u', some why')) : u = u' ∧ why = why' := by
  have hn := iterate_mono h (Nat.le_max_left n m)
  rw [iterate_mono h' (Nat.le_max_right n m)] at hn
  cases hn
  exact ⟨rfl, rfl⟩

theorem iterate_keeps {P : σ → Prop} (hnext : ∀ s t, P s → step s = .next t → P t)
    (hstop : ∀ s t why, P s → step s = .stop t why → P t) (hs : P s) (n : Nat) : P (iterate step n s).1 := by
  induction n generalizing s with
  | zero => exact hs
  | succ n ih =>
    cases h : step s with
    | next t =>
      rw [iterate_next h]
      exact ih (hnext s t hs h)
    | stop t why =>
      rw [iterate_stop h]
      exact hstop s t why hs h

theorem iterate_last {P : σ → Prop} (hnext : ∀ s t, P s → step s = .next t → P t) (hs : P s)
    (h : iterate step n s = (t, some why)) : ∃ u, P u ∧ step u = .stop t why := by
  induction n generalizing s with
  | zero => cases h
  | succ n ih =>
    cases hstep : step s with
    | next s' =>
      rw [iterate_next hstep] at h
      exact ih (hnext s s' hs hstep) h
    | stop s' why' =>
      rw [iterate_stop hstep] at h
      cases h
      exact ⟨s, hs, hstep⟩

end Iterate

/-! ### Simulations -/

section Simulations
variable {α β ρ π : Type} {stepA : α → Progress α ρ} {stepB : β → Progress β π}
  {R : α → β → Prop} {Final : α → ρ → β → π → Prop}

/-- From two states the systems come to two related states, or they stop in states that fit together. -/
def Meet (stepA : α → Progress α ρ) (stepB : β → Progress β π) (R : α → β → Prop)
    (Final : α → ρ → β → π → Prop) (a : α) (b : β) : Prop :=
  (∃ n m a' b', 0 < n ∧ 0 < m ∧ iterate stepA n a = (a', none) ∧ iterate stepB m b = (b', none) ∧ R a' b') ∨
    ∃ n m a' b' why why', iterate stepA n a = (a', some why) ∧ iterate stepB m b = (b', some why') ∧
      Final a' why b' why'

theorem Meet.next {a a' : α} {b b' : β} {n m : Nat} (hn : 0 < n) (hm : 0 < m)
    (ha : iterate stepA n a = (a', none)) (hb : iterate stepB m b = (b', none)) (hR : R a' b') :
    Meet stepA stepB R Final a b :=
  Or.inl ⟨n, m, a', b', hn, hm, ha, hb, hR⟩

theorem Meet.stop {a a' u : α} {b b' v : β} {why : ρ} {why' : π} {n m : Nat}
    (ha : iterate stepA n a = (a', none)) (hsa : stepA a' = .stop u why)
    (hb : iterate stepB m b = (b', none)) (hsb : stepB b' = .stop v why') (hF : Final u why v why') :
    Meet stepA stepB R Final a b :=
  Or.inr ⟨n + 1, m + 1, u, v, why, why', (iterate_add ha 1).trans (iterate_stop hsa 0),
    (iterate_add hb 1).trans (iterate_stop hsb 0), hF⟩

/-- Related states always meet again. -/
def Simulation (stepA : α → Progress α ρ) (stepB : β → Progress β π) (R : α → β → Prop)
    (Final : α → ρ → β → π → Prop) : Prop :=
  ∀ a b, R a b → Meet stepA stepB R Final a b

namespace Simulation

theorem symm (sim : Simulation stepA stepB R Final) :
    Simulation stepB stepA (fun b a => R a b) (fun b why' a why => Final a why b why') := by
  intro b a hab
  rcases sim a b hab with ⟨n, m, a', b', hn, hm, ha, hb, hR⟩ | ⟨n, m, a', b', why, why', ha, hb, hF⟩
  · exact Or.inl ⟨m, n, b', a', hm, hn, hb, ha, hR⟩
  · exact Or.inr ⟨m, n, b', a', why', why, hb, ha, hF⟩

/-- If the first system stops, so does the second. -/
theorem stops (sim : Simulation stepA stepB R Final) {a u : α} {b : β} {why : ρ} {k : Nat} (hab : R a b)
    (hk : iterate stepA k a = (u, some why)) :
    ∃ m v why', iterate stepB m b = (v, some why') ∧ Final u why v why' := by
  -- The steps still to go become fewer at every meeting.
  induction k using Nat.strongRecOn generalizing a b with
  | ind k ih =>
    rcases sim a b hab with ⟨n, m, a', b', hn, -, ha, hb, hR⟩ | ⟨n, m, a', b', why₁, why₂, ha, hb, hF⟩
    · obtain ⟨hlt, hrest⟩ := iterate_cut ha hk
      obtain ⟨m', v, why', hv, hF⟩ := ih (k - n) (by omega) hR hrest
      exact ⟨m + m', v, why', (iterate_add hb m').trans hv, hF⟩
    · obtain ⟨rfl, rfl⟩ := iterate_unique hk ha
      exact ⟨m, b', why₂, hb, hF⟩

end Simulation

end Simulations

end Progress

end TapeCode
