import Mathlib.Algebra.BigOperators.Field
import Mathlib.Algebra.BigOperators.Group.List.Lemmas
import Mathlib.Algebra.Order.BigOperators.Group.List
import Mathlib.Algebra.Order.Field.Basic
import Mathlib.Data.List.Perm.Basic

/-!
# Proportional shares with a minimum

An amount is divided among the elements of a list in proportion to their weights. Whoever would get less
than a minimum is dropped, and the amount is divided anew among those who are left, until nobody is
dropped. Dropping raises the shares of the others, but their order stays: who is left depends neither on
the order of the list, nor can an element be left while a heavier one is dropped.

A round keeps those whose share is not below the minimum (`kept`). When it drops nobody the rounds end;
otherwise the list has become shorter, which is why `retain` terminates. Its properties are by the same
recursion: a round keeps an element together with all heavier ones (`share_mono`), and permutes when the list
is permuted (`kept_perm`).

* `retain` — who is left in the end
* `le_share_of_mem_retain` — nobody who is left gets less than the minimum
* `retain_upward`, `retain_perm` — it is a set of the heaviest, whatever the order
* `sum_share` — the shares add up to the amount, if the total weight is not zero
-/

namespace Framework

variable {α K : Type} [Field K] [LinearOrder K]

/-- The share of a weight in an amount, at a total of all weights. -/
def share (amount total w : K) : K := w * amount / total

/-- The sum of the weights. -/
def totalWeight (w : α → K) (l : List α) : K := (l.map w).sum

/-- Those whose share is not below the minimum. -/
def kept (amount least : K) (w : α → K) (l : List α) : List α :=
  l.filter (fun a => decide (least ≤ share amount (totalWeight w l) (w a)))

/-- Who is left when nobody is dropped any more. -/
def retain (amount least : K) (w : α → K) (l : List α) : List α :=
  if (kept amount least w l).length < l.length then retain amount least w (kept amount least w l) else l
termination_by l.length

section

variable {amount least : K} {w : α → K} {l l' : List α} {a b : α}

/-- Who is kept: those whose share is large enough. -/
theorem mem_kept : a ∈ kept amount least w l ↔ a ∈ l ∧ least ≤ share amount (totalWeight w l) (w a) := by
  simp [kept]

/-- Dropping small shares leaves the order alone. -/
theorem kept_sublist : (kept amount least w l).Sublist l := List.filter_sublist

/-- Nobody is dropped when no element is lost. -/
theorem kept_eq_self (h : ¬(kept amount least w l).length < l.length) : kept amount least w l = l :=
  kept_sublist.eq_of_length_le (not_lt.mp h)

/-- So does dropping them until none is small. -/
theorem retain_sublist : (retain amount least w l).Sublist l := by
  induction hn : l.length using Nat.strong_induction_on generalizing l with
  | _ n ih =>
    rw [retain]
    split_ifs with hless
    · exact (ih _ (hn ▸ hless) rfl).trans kept_sublist
    · exact List.Sublist.refl l

/-- Everybody who is left gets the minimum. -/
theorem le_share_of_mem_retain (ha : a ∈ retain amount least w l) :
    least ≤ share amount (totalWeight w (retain amount least w l)) (w a) := by
  induction hn : l.length using Nat.strong_induction_on generalizing l with
  | _ n ih =>
    rw [retain] at ha ⊢
    split_ifs at ha ⊢ with hless
    · exact ih _ (hn ▸ hless) ha rfl
    · rw [← kept_eq_self hless] at ha
      exact (mem_kept.mp ha).2

omit [LinearOrder K] in
/-- The total does not depend on the order. -/
theorem totalWeight_perm (h : l.Perm l') : totalWeight w l = totalWeight w l' := (h.map w).sum_eq

/-- Nor does it matter who is kept. -/
theorem kept_perm (h : l.Perm l') : (kept amount least w l).Perm (kept amount least w l') := by
  unfold kept
  rw [totalWeight_perm h]
  exact h.filter _

/-- When someone was dropped, the shares are computed again. -/
theorem retain_of_lt (h : (kept amount least w l).length < l.length) :
    retain amount least w l = retain amount least w (kept amount least w l) := by
  rw [retain, if_pos h]

/-- Otherwise the list stays as it is. -/
theorem retain_of_not_lt (h : ¬(kept amount least w l).length < l.length) :
    retain amount least w l = l := by
  rw [retain, if_neg h]

/-- Who is left does not depend on the order. -/
theorem retain_perm (h : l.Perm l') : (retain amount least w l).Perm (retain amount least w l') := by
  induction hn : l.length using Nat.strong_induction_on generalizing l l' with
  | _ n ih =>
    have hkept : (kept amount least w l).Perm (kept amount least w l') := kept_perm h
    -- both lists lose an element or neither does, as `kept` has the same length
    by_cases hless : (kept amount least w l).length < l.length
    · have hless' : (kept amount least w l').length < l'.length := by
        rw [← hkept.length_eq, ← h.length_eq]
        exact hless
      rw [retain_of_lt hless, retain_of_lt hless']
      exact ih _ (hn ▸ hless) hkept rfl
    · have hless' : ¬(kept amount least w l').length < l'.length := by
        rw [← hkept.length_eq, ← h.length_eq]
        exact hless
      rw [retain_of_not_lt hless, retain_of_not_lt hless']
      exact h

omit [LinearOrder K] in
/-- The shares add up to the amount. -/
theorem sum_share (htotal : totalWeight w l ≠ 0) :
    (l.map (fun a => share amount (totalWeight w l) (w a))).sum = amount := by
  have hsum : (l.map (fun a => share amount (totalWeight w l) (w a))).sum =
      totalWeight w l * (amount / totalWeight w l) := by
    simp only [share, mul_div_assoc]
    rw [List.sum_map_mul_right]
    rfl
  rw [hsum, mul_div_cancel₀ _ htotal]

variable [IsStrictOrderedRing K]

/-- With positive weights the total is positive. -/
theorem totalWeight_pos (hpos : ∀ a ∈ l, 0 < w a) (hne : l ≠ []) : 0 < totalWeight w l := by
  refine List.sum_pos _ (fun v hv => ?_) (by simpa using hne)
  obtain ⟨a, ha, rfl⟩ := List.mem_map.mp hv
  exact hpos a ha

/-- A larger weight has a share that is not smaller. -/
theorem share_mono (hamount : 0 < amount) {total : K} (htotal : 0 < total) {v v' : K} (h : v ≤ v') :
    share amount total v ≤ share amount total v' := by
  unfold share
  gcongr

/-- A heavier element is not dropped before a lighter one. -/
theorem retain_upward (hamount : 0 < amount) (hpos : ∀ a ∈ l, 0 < w a) (ha : a ∈ retain amount least w l)
    (hb : b ∈ l) (hab : w a ≤ w b) : b ∈ retain amount least w l := by
  induction hn : l.length using Nat.strong_induction_on generalizing l with
  | _ n ih =>
    rw [retain] at ha ⊢
    split_ifs at ha ⊢ with hless
    · have hkept : a ∈ kept amount least w l := retain_sublist.subset ha
      have htotal := totalWeight_pos hpos (List.ne_nil_of_mem hb)
      have hbkept : b ∈ kept amount least w l :=
        mem_kept.mpr ⟨hb, (mem_kept.mp hkept).2.trans (share_mono hamount htotal hab)⟩
      exact ih _ (hn ▸ hless) (fun c hc => hpos c (kept_sublist.subset hc)) ha hbkept rfl
    · exact hb

end

end Framework
