import Mathlib.Data.Nat.Digits.Lemmas
import Mathlib.Tactic.Common
import Mathlib.Tactic.Linarith
import Mathlib.Tactic.Ring

/-!
# Numbers as words

A number of a fixed number of words, the lowest first, is `Nat.ofDigits` of the words in the base of a word. What
a loop over the words does with a carry, a bit or a comparison, at one word and the rest.

* `mod_carry` — a word and a carry of the words above it
* `testBit_ofDigits` — a bit of the number is a bit of a word
* `ofDigits_concat_lt` — the highest word that differs decides
* `ofDigits_map_sub` — the complement of each word
-/

namespace Framework

variable {B : ℕ}

/-- A sum of words leaves one word and a carry to the words above, which wrap around. -/
theorem mod_carry (hB : 0 < B) (s M P : ℕ) : s % B + B * ((s / B + M) % P) = (s + B * M) % (B * P) := by
  rw [Nat.mod_mul, Nat.add_mul_mod_self_left, Nat.add_mul_div_left s M hB]

/-- The digits of numbers below the base make a number below its power. -/
theorem ofDigits_lt {l : List ℕ} (h : ∀ d ∈ l, d < B) (hB : 1 < B) : Nat.ofDigits B l < B ^ l.length :=
  Nat.ofDigits_lt_base_pow_length hB h

/-- **A bit of the number** is a bit of a word. -/
theorem testBit_ofDigits {w : ℕ} (hw : 0 < w) {l : List ℕ} (h : ∀ d ∈ l, d < 2 ^ w) (i : ℕ) :
    (Nat.ofDigits (2 ^ w) l).testBit i = (l.getD (i / w) 0).testBit (i % w) := by
  induction l generalizing i with
  | nil => simp [Nat.ofDigits]
  | cons d l ih =>
    have hd : d < 2 ^ w := h d List.mem_cons_self
    rw [Nat.ofDigits_cons, add_comm, Nat.testBit_two_pow_mul_add _ hd]
    by_cases hi : i < w
    · rw [if_pos hi, Nat.div_eq_of_lt hi, Nat.mod_eq_of_lt hi, List.getD_cons_zero]
    · have hle : w ≤ i := not_lt.mp hi
      have hdiv : i / w = (i - w) / w + 1 := Nat.div_eq_sub_div hw hle
      rw [if_neg hi, ih fun d' hd' => h d' (List.mem_cons_of_mem _ hd'), hdiv, List.getD_cons_succ,
        Nat.mod_eq_sub_mod hle]

/-- **The highest word** that differs decides. -/
theorem ofDigits_concat_lt {xs ys : List ℕ} (hlen : xs.length = ys.length) (hx : ∀ d ∈ xs, d < B)
    (hy : ∀ d ∈ ys, d < B) (hB : 1 < B) (x y : ℕ) :
    Nat.ofDigits B (xs ++ [x]) < Nat.ofDigits B (ys ++ [y]) ↔
      x < y ∨ (x = y ∧ Nat.ofDigits B xs < Nat.ofDigits B ys) := by
  have hxs := ofDigits_lt hx hB
  have hys := ofDigits_lt hy hB
  rw [Nat.ofDigits_append, Nat.ofDigits_append, Nat.ofDigits_singleton, Nat.ofDigits_singleton, ← hlen]
  rw [← hlen] at hys
  obtain hlt | rfl | hgt := Nat.lt_trichotomy x y
  · refine iff_of_true ?_ (.inl hlt)
    calc Nat.ofDigits B xs + B ^ xs.length * x < B ^ xs.length + B ^ xs.length * x := by omega
      _ = B ^ xs.length * (x + 1) := by ring
      _ ≤ B ^ xs.length * y := Nat.mul_le_mul_left _ hlt
      _ ≤ Nat.ofDigits B ys + B ^ xs.length * y := Nat.le_add_left _ _
  · simp
  · refine iff_of_false ?_ (by omega)
    have hle : B ^ xs.length * (y + 1) ≤ B ^ xs.length * x := Nat.mul_le_mul_left _ hgt
    rw [Nat.mul_succ] at hle
    omega

/-- The complement of each word is that of the number. -/
theorem ofDigits_map_sub {l : List ℕ} (h : ∀ d ∈ l, d < B) :
    Nat.ofDigits B (l.map fun d => B - 1 - d) + Nat.ofDigits B l + 1 = B ^ l.length := by
  induction l with
  | nil => rfl
  | cons d l ih =>
    have hd : d < B := h d List.mem_cons_self
    have hrest := ih fun d' hd' => h d' (List.mem_cons_of_mem _ hd')
    rw [List.map_cons, Nat.ofDigits_cons, Nat.ofDigits_cons, List.length_cons, pow_succ, ← hrest]
    obtain ⟨k, rfl⟩ := Nat.exists_eq_add_of_lt hd
    have hsub : d + k + 1 - 1 - d = k := by omega
    rw [hsub]
    ring

end Framework
