import Mathlib.Data.Finset.Card
import Mathlib.Logic.Relation
import Mathlib.Tactic.Common

/-!
# Loops that are left from the middle

A round of a `loop { .. }` either leaves the loop with a result or goes on with a new state. Nothing bounds
the number of rounds, so a run takes fuel; a measure that goes down with every further round bounds it.

* `Reaches` — the states at the beginning of a round
* `loop_last` — the result of a loop is that of a round that is reached
* `loop_terminates` — with an invariant and a measure, enough fuel gives the result
* `searchUp_eq_some_iff` — the first good number, when there are not more bad ones than rounds
-/

namespace Framework

variable {σ ρ : Type}

/-- `loop { .. }`: `continue` is a state, `break` or `return` a result. -/
def loop (round : σ → σ ⊕ ρ) : ℕ → σ → Option ρ
  | 0, _ => none
  | fuel + 1, s =>
    match round s with
    | .inl s' => loop round fuel s'
    | .inr r => some r

/-- The states that begin a round of the loop that starts with `s`. -/
def Reaches (round : σ → σ ⊕ ρ) : σ → σ → Prop := Relation.ReflTransGen fun s s' => round s = .inl s'

variable {round : σ → σ ⊕ ρ} {s s' : σ} {r : ρ} {fuel fuel' : ℕ}

theorem loop_continue (h : round s = .inl s') : loop round (fuel + 1) s = loop round fuel s' := by
  rw [loop, h]

theorem loop_break (h : round s = .inr r) : loop round (fuel + 1) s = some r := by
  rw [loop, h]

/-- What every round keeps holds at the beginning of each. -/
theorem Reaches.invariant {inv : σ → Prop} (hkeep : ∀ s s', inv s → round s = .inl s' → inv s') (hs : inv s)
    (h : Reaches round s s') : inv s' := by
  induction h with
  | refl => exact hs
  | tail _ hround ih => exact hkeep _ _ ih hround

/-- The result is that of a round that is reached. -/
theorem loop_last (h : loop round fuel s = some r) : ∃ s', Reaches round s s' ∧ round s' = .inr r := by
  induction fuel generalizing s with
  | zero => cases h
  | succ fuel ih =>
    cases hround : round s with
    | inl s' =>
      rw [loop_continue hround] at h
      obtain ⟨last, hreach, hlast⟩ := ih h
      exact ⟨last, Relation.ReflTransGen.head hround hreach, hlast⟩
    | inr r' =>
      rw [loop_break hround] at h
      cases h
      exact ⟨s, Relation.ReflTransGen.refl, hround⟩

/-- **Termination**: a measure goes down with every further round. -/
theorem loop_terminates {inv : σ → Prop} {measure : σ → ℕ}
    (hkeep : ∀ s s', inv s → round s = .inl s' → inv s' ∧ measure s' < measure s) (hs : inv s) :
    ∃ r, ∀ fuel, measure s < fuel → loop round fuel s = some r := by
  induction hm : measure s using Nat.strongRecOn generalizing s with
  | ind m ih =>
    cases hround : round s with
    | inl s' =>
      obtain ⟨hinv, hless⟩ := hkeep s s' hs hround
      obtain ⟨r, hr⟩ := ih (measure s') (hm ▸ hless) hinv rfl
      refine ⟨r, ?_⟩
      intro fuel hfuel
      obtain ⟨fuel, rfl⟩ : ∃ k, fuel = k + 1 := ⟨fuel - 1, by omega⟩
      rw [loop_continue hround]
      exact hr fuel (by omega)
    | inr r =>
      refine ⟨r, ?_⟩
      intro fuel hfuel
      obtain ⟨fuel, rfl⟩ : ∃ k, fuel = k + 1 := ⟨fuel - 1, by omega⟩
      exact loop_break hround

/-! ### The first good number -/

/-- The first good number from `n` on, unless a number on the way stops the search. -/
def searchUp (stop good : ℕ → Bool) : ℕ → ℕ → Option ℕ
  | 0, n => if stop n then none else some n
  | fuel + 1, n => if stop n then none else if good n then some n else searchUp stop good fuel (n + 1)

/-- What is searched for. -/
structure FirstGood (stop good : ℕ → Bool) (n m : ℕ) : Prop where
  le : n ≤ m
  isGood : good m = true
  first : ∀ k, n ≤ k → k < m → good k = false
  go : ∀ k, n ≤ k → k ≤ m → stop k = false

section

variable {stop good : ℕ → Bool} {n m : ℕ}

theorem firstGood_here (h : good n = true) : FirstGood stop good n m ↔ stop n = false ∧ n = m := by
  constructor
  · intro hfirst
    refine ⟨hfirst.go n le_rfl hfirst.le, hfirst.le.eq_of_not_lt fun hlt => ?_⟩
    rw [hfirst.first n le_rfl hlt] at h
    cases h
  · rintro ⟨hgo, rfl⟩
    refine ⟨le_rfl, h, fun k hk hk' => absurd hk' (not_lt.mpr hk), fun k hk hk' => ?_⟩
    rwa [le_antisymm hk' hk]

theorem firstGood_next (h : good n = false) :
    FirstGood stop good n m ↔ stop n = false ∧ FirstGood stop good (n + 1) m := by
  constructor
  · intro hfirst
    -- `n` is not good, so the first good number lies behind it
    have hne : n ≠ m := by
      rintro rfl
      rw [hfirst.isGood] at h
      cases h
    have hlt := lt_of_le_of_ne hfirst.le hne
    exact ⟨hfirst.go n le_rfl hfirst.le, hlt, hfirst.isGood, fun k hk => hfirst.first k (Nat.le_of_succ_le hk),
      fun k hk => hfirst.go k (Nat.le_of_succ_le hk)⟩
  · rintro ⟨hgo, hfirst⟩
    have hlt : n < m := hfirst.le
    refine ⟨hlt.le, hfirst.isGood, fun k hk hk' => ?_, fun k hk hk' => ?_⟩
    · rcases hk.eq_or_lt with rfl | hk
      · exact h
      · exact hfirst.first k hk hk'
    · rcases hk.eq_or_lt with rfl | hk
      · exact hgo
      · exact hfirst.go k hk hk'

/-- Numbers that are no good and do not stop the search are passed over. -/
theorem firstGood_skip {n' : ℕ} (hle : n ≤ n') (hskip : ∀ k, n ≤ k → k < n' → stop k = false ∧ good k = false) :
    FirstGood stop good n m ↔ FirstGood stop good n' m := by
  induction n', hle using Nat.le_induction with
  | base => exact Iff.rfl
  | succ n' hle ih =>
    obtain ⟨hgo, hbad⟩ := hskip n' hle (Nat.lt_succ_self n')
    calc FirstGood stop good n m ↔ FirstGood stop good n' m := ih (fun k hk hk' => hskip k hk (hk'.trans n'.lt_succ_self))
      _ ↔ stop n' = false ∧ FirstGood stop good (n' + 1) m := firstGood_next hbad
      _ ↔ FirstGood stop good (n' + 1) m := and_iff_right hgo

/-- As many rounds as there are bad numbers are enough. -/
theorem searchUp_eq_some_iff {fuel : ℕ} {bad : Finset ℕ} (hbad : ∀ k, n ≤ k → good k = false → k ∈ bad)
    (hcard : bad.card ≤ fuel) : searchUp stop good fuel n = some m ↔ FirstGood stop good n m := by
  induction fuel generalizing n bad with
  | zero =>
    -- no bad number is left
    have hgood : good n = true := by
      by_contra hn
      have hmem := hbad n le_rfl (by simpa using hn)
      rw [Finset.card_eq_zero.mp (Nat.le_zero.mp hcard)] at hmem
      exact absurd hmem (Finset.notMem_empty n)
    rw [searchUp, firstGood_here hgood]
    simp [ite_eq_iff]
  | succ fuel ih =>
    rw [searchUp]
    cases hgood : good n with
    | true =>
      rw [firstGood_here hgood]
      simp [ite_eq_iff]
    | false =>
      -- `n` is bad, so one less is still to come
      have hless : (bad.erase n).card ≤ fuel := by
        rw [Finset.card_erase_of_mem (hbad n le_rfl hgood)]
        omega
      have hnext : searchUp stop good fuel (n + 1) = some m ↔ FirstGood stop good (n + 1) m :=
        ih (fun k hk hk' => Finset.mem_erase.mpr ⟨by omega, hbad k (by omega) hk'⟩) hless
      rw [firstGood_next hgood, ← hnext]
      simp [ite_eq_iff]

end

end Framework
