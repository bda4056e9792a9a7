import Mathlib.Algebra.Order.BigOperators.Group.List
import Mathlib.Algebra.Ring.Int.Defs
import Mathlib.Tactic.Common

/-!
# A part of a list, given by flags

* `chosen` — the entries whose flag is set
* `chosenSum` — the sum of their weights, and what it becomes when a flag is set
-/

namespace Framework

variable {α : Type} {as : List α} {flags : List Bool} {a : α} {i : ℕ} {w : α → ℤ}

/-- The entries whose flag is set; a flag that is missing counts as not set. -/
def chosen : List α → List Bool → List α
  | a :: as, flag :: flags => if flag then a :: chosen as flags else chosen as flags
  | _, _ => []

theorem chosen_sublist (as : List α) (flags : List Bool) : (chosen as flags).Sublist as := by
  induction as generalizing flags with
  | nil => cases flags <;> exact List.Sublist.slnil
  | cons a as ih =>
    cases flags with
    | nil => exact List.nil_sublist _
    | cons flag flags =>
      rw [chosen]
      split_ifs
      · exact (ih flags).cons_cons a
      · exact (ih flags).cons a

theorem chosen_replicate_true (as : List α) : chosen as (List.replicate as.length true) = as := by
  induction as with
  | nil => rfl
  | cons a as ih => rw [List.length_cons, List.replicate_succ, chosen, if_pos rfl, ih]

theorem chosen_replicate_false (as : List α) (n : ℕ) : chosen as (List.replicate n false) = [] := by
  induction as generalizing n with
  | nil => cases n <;> rfl
  | cons a as ih =>
    cases n with
    | zero => rfl
    | succ n => rw [List.replicate_succ, chosen, if_neg Bool.false_ne_true, ih]

/-- The sum of the weights of the entries whose flag is set. -/
def chosenSum (w : α → ℤ) (as : List α) (flags : List Bool) : ℤ := ((chosen as flags).map w).sum

@[simp] theorem chosenSum_cons (flag : Bool) :
    chosenSum w (a :: as) (flag :: flags) = (if flag then w a else 0) + chosenSum w as flags := by
  unfold chosenSum
  rw [chosen]
  cases flag <;> simp

/-- Setting a flag adds the weight of its entry. -/
theorem chosenSum_set_true (ha : as[i]? = some a) (hflag : flags[i]? = some false) :
    chosenSum w as (flags.set i true) = chosenSum w as flags + w a := by
  induction as generalizing flags i with
  | nil => exact absurd ha (by simp)
  | cons b as ih =>
    cases flags with
    | nil => exact absurd hflag (by simp)
    | cons flag flags =>
      cases i with
      | zero =>
        cases ha
        obtain rfl : flag = false := by simpa using hflag
        rw [List.set_cons_zero, chosenSum_cons, chosenSum_cons, if_pos rfl, if_neg Bool.false_ne_true]
        omega
      | succ i =>
        rw [List.set_cons_succ, chosenSum_cons, chosenSum_cons, ih (by simpa using ha) (by simpa using hflag)]
        omega

/-- The weights are not negative, so a part weighs no more than the whole. -/
theorem chosenSum_le (hw : ∀ a ∈ as, 0 ≤ w a) : chosenSum w as flags ≤ (as.map w).sum := by
  refine ((chosen_sublist as flags).map w).sum_le_sum ?_
  intro x hx
  obtain ⟨a, ha, rfl⟩ := List.mem_map.mp hx
  exact hw a ha

theorem chosenSum_nonneg (hw : ∀ a ∈ as, 0 ≤ w a) : 0 ≤ chosenSum w as flags := by
  refine List.sum_nonneg ?_
  intro x hx
  obtain ⟨a, ha, rfl⟩ := List.mem_map.mp hx
  exact hw a ((chosen_sublist as flags).subset ha)

end Framework
