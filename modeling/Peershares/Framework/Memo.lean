import Mathlib.Tactic.Common

/-!
# Remembering what has passed a test

A cache of elements that have passed a test saves the test when one of them comes again. Elements may be dropped
from it at any time: as long as it holds nothing that has not passed, no answer changes.

* `memoize` — a test behind a cache
* `Sound` — everything in the cache passes
* `memoize_fst`, `Sound.memoize` — the answer is that of the test, and the cache stays sound
-/

namespace Framework

variable {κ : Type} [DecidableEq κ] {test : κ → Bool} {add : κ → List κ → List κ} {cache : List κ} {k : κ}

/-- Look up an element; if it is not there, test it, and add it when it passes. -/
def memoize (test : κ → Bool) (add : κ → List κ → List κ) (k : κ) (cache : List κ) : Bool × List κ :=
  if k ∈ cache then (true, cache) else if test k then (true, add k cache) else (false, cache)

/-- Everything in the cache passes the test. -/
def Sound (test : κ → Bool) (cache : List κ) : Prop := ∀ k ∈ cache, test k = true

omit [DecidableEq κ] in
theorem sound_nil : Sound test [] := fun _ h => absurd h List.not_mem_nil

theorem memoize_fst (h : Sound test cache) : (memoize test add k cache).1 = test k := by
  unfold memoize
  split_ifs with hmem htest
  · exact (h k hmem).symm
  · exact htest.symm
  · exact (Bool.eq_false_iff.mpr htest).symm

/-- It does not matter what is dropped when an element is added. -/
theorem Sound.memoize (h : Sound test cache) (hadd : ∀ k' ∈ add k cache, k' = k ∨ k' ∈ cache) :
    Sound test (memoize test add k cache).2 := by
  unfold Framework.memoize
  split_ifs with hmem htest
  · exact h
  · intro k' hk'
    rcases hadd k' hk' with rfl | hk'
    · exact htest
    · exact h k' hk'
  · exact h

/-- The cache stays as it is, or the element has been added to it. -/
theorem memoize_snd : (memoize test add k cache).2 = cache ∨ (memoize test add k cache).2 = add k cache := by
  unfold memoize
  split_ifs
  · exact Or.inl rfl
  · exact Or.inr rfl
  · exact Or.inl rfl

end Framework
