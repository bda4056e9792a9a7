import Mathlib.Data.List.Sort
import Mathlib.Tactic.Common

/-!
# The middle of a sorted list

* `IsMedian` — at most half of the values are below, and at most half are above
* `isMedian_middle` — the middle of the sorted values is a median
* `le_middle` — a value with no more than half of the others below it is at most the middle
* `IsMedian.eq_least_iff` — the median of an odd number of values is their lower bound exactly when the
  bound is the value of more than half of them
-/

namespace Framework

variable {α : Type} [LinearOrder α] {v : List α} {m least : α}

/-- `m` is one of the values, with at most half of them below it and at most half above it. -/
def IsMedian (m : α) (v : List α) : Prop :=
  m ∈ v ∧ 2 * v.countP (fun x => decide (x < m)) ≤ v.length ∧
    2 * v.countP (fun x => decide (m < x)) ≤ v.length

theorem IsMedian.perm {v' : List α} (h : IsMedian m v) (hperm : v.Perm v') : IsMedian m v' := by
  obtain ⟨hmem, hbelow, habove⟩ := h
  rw [hperm.countP_eq, hperm.length_eq] at hbelow habove
  exact ⟨hperm.subset hmem, hbelow, habove⟩

/-- A value with the smaller ones on its left and the larger ones on its right. -/
theorem isMedian_append {lower upper : List α} (hlower : ∀ x ∈ lower, x ≤ m) (hupper : ∀ x ∈ upper, m ≤ x)
    (hleft : lower.length ≤ upper.length + 1) (hright : upper.length ≤ lower.length + 1) :
    IsMedian m (lower ++ m :: upper) := by
  have hbelow : upper.countP (fun x => decide (x < m)) = 0 := by
    rw [List.countP_eq_zero]
    intro x hx
    simpa using hupper x hx
  have habove : lower.countP (fun x => decide (m < x)) = 0 := by
    rw [List.countP_eq_zero]
    intro x hx
    simpa using hlower x hx
  have hlen : (lower ++ m :: upper).length = lower.length + upper.length + 1 := by
    rw [List.length_append, List.length_cons, Nat.add_assoc]
  refine ⟨by simp, ?_, ?_⟩
  · rw [List.countP_append, List.countP_cons, hbelow, hlen]
    have hle : lower.countP (fun x => decide (x < m)) ≤ lower.length := List.countP_le_length
    simp only [lt_self_iff_false, decide_false, Bool.false_eq_true, if_false]
    omega
  · rw [List.countP_append, List.countP_cons, habove, hlen]
    have hle : upper.countP (fun x => decide (m < x)) ≤ upper.length := List.countP_le_length
    simp only [lt_self_iff_false, decide_false, Bool.false_eq_true, if_false]
    omega

/-- The middle of a sorted list. -/
theorem isMedian_of_sorted (hsorted : v.Pairwise (· ≤ ·)) (hlt : v.length / 2 < v.length) :
    IsMedian v[v.length / 2] v := by
  have hdrop : v.drop (v.length / 2) = v[v.length / 2] :: v.drop (v.length / 2 + 1) :=
    List.drop_eq_getElem_cons hlt
  have hsplit : v.take (v.length / 2) ++ v[v.length / 2] :: v.drop (v.length / 2 + 1) = v := by
    rw [← hdrop, List.take_append_drop]
  have hparts := hsorted
  rw [← hsplit, List.pairwise_append, List.pairwise_cons] at hparts
  obtain ⟨-, ⟨hupper, -⟩, hlower⟩ := hparts
  have hmedian := isMedian_append (fun x hx => hlower x hx _ List.mem_cons_self) hupper
    (by rw [List.length_take, List.length_drop]; omega) (by rw [List.length_take, List.length_drop]; omega)
  exact hmedian.perm (List.Perm.of_eq hsplit)

/-- The middle of the sorted values. -/
theorem isMedian_middle (hne : v ≠ []) :
    ∃ m, (v.insertionSort (· ≤ ·))[v.length / 2]? = some m ∧ IsMedian m v := by
  have hperm : (v.insertionSort (· ≤ ·)).Perm v := List.perm_insertionSort _ _
  have hpos : 0 < v.length := List.length_pos_iff.mpr hne
  have hlen : (v.insertionSort (· ≤ ·)).length = v.length := hperm.length_eq
  have hlt : (v.insertionSort (· ≤ ·)).length / 2 < (v.insertionSort (· ≤ ·)).length := by omega
  have hmedian := isMedian_of_sorted (List.pairwise_insertionSort (· ≤ ·) v) hlt
  refine ⟨_, ?_, hmedian.perm hperm⟩
  rw [← hlen]
  exact List.getElem?_eq_getElem hlt

/-- In a sorted list, what stands at `k` has more than `k` values that are not above it. -/
theorem le_getElem_of_countP (hsorted : v.Pairwise (· ≤ ·)) {k : ℕ} (hk : k < v.length)
    (hcount : v.countP (fun x => decide (x < m)) ≤ k) : m ≤ v[k] := by
  by_contra hlt
  rw [not_le] at hlt
  -- the values up to `k` are all below `m`
  have hbelow : ∀ x ∈ v.take (k + 1), decide (x < m) = true := by
    intro x hx
    obtain ⟨i, hi, rfl⟩ := List.mem_take_iff_getElem.mp hx
    have hik : i ≤ k := by omega
    rcases Nat.eq_or_lt_of_le hik with rfl | hik
    · simpa using hlt
    · simpa using lt_of_le_of_lt (List.pairwise_iff_getElem.mp hsorted i k (by omega) hk hik) hlt
  have htake : (v.take (k + 1)).countP (fun x => decide (x < m)) = k + 1 := by
    rw [List.countP_eq_length.mpr hbelow, List.length_take]
    omega
  have hle := (List.take_sublist (k + 1) v).countP_le (p := fun x => decide (x < m))
  omega

/-- The middle of the sorted values is at least `m` when no more than half of them are below `m`. -/
theorem le_middle {x : α} (hcount : v.countP (fun x => decide (x < m)) ≤ v.length / 2)
    (hx : (v.insertionSort (· ≤ ·))[v.length / 2]? = some x) : m ≤ x := by
  have hperm : (v.insertionSort (· ≤ ·)).Perm v := List.perm_insertionSort _ _
  obtain ⟨hlt, rfl⟩ := List.getElem?_eq_some_iff.mp hx
  refine le_getElem_of_countP (List.pairwise_insertionSort (· ≤ ·) v) hlt ?_
  rw [hperm.countP_eq]
  exact hcount

/-- Among an odd number of values the median is their lower bound exactly when more than half of them are. -/
theorem IsMedian.eq_least_iff (h : IsMedian m v) (hleast : ∀ x ∈ v, least ≤ x) (hodd : v.length % 2 = 1) :
    m = least ↔ v.length < 2 * v.count least := by
  obtain ⟨hmem, hbelow, habove⟩ := h
  constructor
  · rintro rfl
    have hrest : v.countP (fun x => decide ¬(x == m) = true) = v.countP (fun x => decide (m < x)) := by
      refine List.countP_congr ?_
      intro x hx
      have hle := hleast x hx
      simp only [beq_iff_eq, decide_eq_true_eq]
      exact ⟨fun hne => lt_of_le_of_ne hle (Ne.symm hne), fun hlt => hlt.ne'⟩
    have hsum := List.length_eq_countP_add_countP (fun x => x == m) (l := v)
    rw [hrest] at hsum
    rw [List.count]
    omega
  · intro hmore
    by_contra hne
    have hlt : least < m := lt_of_le_of_ne (hleast m hmem) (Ne.symm hne)
    have hle : v.count least ≤ v.countP (fun x => decide (x < m)) := by
      rw [List.count]
      refine List.countP_mono_left ?_
      intro x _ hx
      rw [beq_iff_eq.mp hx]
      simpa using hlt
    omega

end Framework
