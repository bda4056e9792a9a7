import Mathlib.Data.List.Induction
import Peershares.Framework.Window
import Peershares.Model.TimeData

/-!
# The median of what the peers claim

`CMedianFilter<int>` keeps the last values that fit into its window, sorted. The median of an even number of values
is half the sum of the two in the middle, and this sum is an `int`, so for large values it wraps around and the median
is not between them.

* `CMedianFilter.fed_eq` — what the filter holds after a row of values
* `CMedianFilter.tdiv_between_iff` — half of the sum is between the two exactly when the sum fits
* `CMedianFilter.medianOk_iff` — when the filter does what it is for
-/

open Framework

namespace Peershares

namespace CMedianFilter

variable {nSize : ℕ} {initialValue v : ℤ} {values : List ℤ}

/-- A filter after a row of values. -/
def fed (nSize : ℕ) (initialValue : ℤ) (inputs : List ℤ) : CMedianFilter := inputs.foldl input (new nSize initialValue)

/-- The two values in the middle of a sorted list have `m` between them; they are one for an odd number. -/
def BetweenMiddles (m : ℤ) (v : List ℤ) : Prop :=
  if v.length % 2 = 1 then v[v.length / 2]? = some m
  else ∃ a b, v[v.length / 2 - 1]? = some a ∧ v[v.length / 2]? = some b ∧ a ≤ m ∧ m ≤ b

/-- What the filter is for, with `last` the values that it should hold. -/
structure MedianOk (last : List ℤ) (filter : CMedianFilter) : Prop where
  perm : filter.sorted.Perm last
  sorted : filter.sorted.Pairwise (· ≤ ·)
  median : ∃ m, filter.medianInt = .ok m ∧ BetweenMiddles m filter.sorted

/-- For an even number of values, the sum of the two in the middle is an `int`. -/
def SumFits (last : List ℤ) : Prop :=
  last.length % 2 = 0 → ∀ a b, (last.insertionSort (· ≤ ·))[last.length / 2 - 1]? = some a →
    (last.insertionSort (· ≤ ·))[last.length / 2]? = some b → -2 ^ 31 ≤ a + b ∧ a + b < 2 ^ 31

/-! ### The window -/

/-- **What the filter holds**: the last values, and the same values sorted. -/
theorem fed_eq (hpos : 0 < nSize) (inputs : List ℤ) :
    fed nSize initialValue inputs =
      { vValues := lastOf nSize (initialValue :: inputs)
        vSorted := (lastOf nSize (initialValue :: inputs)).insertionSort (· ≤ ·)
        nSize := nSize } := by
  induction inputs using List.reverseRecOn with
  | nil =>
    have hsub : [initialValue].length - nSize = 0 := by
      rw [List.length_singleton]
      omega
    unfold lastOf
    rw [hsub]
    rfl
  | append_singleton inputs v ih =>
    have hstep : fed nSize initialValue (inputs ++ [v]) = (fed nSize initialValue inputs).input v := by
      unfold fed
      rw [List.foldl_append]
      rfl
    rw [hstep, ih, ← List.cons_append, lastOf_concat hpos]
    rfl

/-- A window of size zero forgets nothing. -/
theorem length_vSorted_fed_zero (inputs : List ℤ) : (fed 0 initialValue inputs).vSorted ≠ [] := by
  induction inputs using List.reverseRecOn with
  | nil => exact List.cons_ne_nil _ _
  | append_singleton inputs v ih =>
    unfold fed
    rw [List.foldl_append]
    intro hnil
    have hperm := List.perm_insertionSort (· ≤ ·)
      ((input (inputs.foldl input (new 0 initialValue)) v).vValues)
    change (List.insertionSort (· ≤ ·) _) = [] at hnil
    have hlen := congrArg List.length hnil
    rw [List.length_insertionSort, List.length_append] at hlen
    simp at hlen

/-! ### The middle -/

theorem tdiv_two (x : ℤ) : x.tdiv 2 = if 0 ≤ x then x / 2 else -(-x / 2) := by
  split_ifs with hnonneg
  · exact Int.tdiv_eq_ediv_of_nonneg hnonneg
  · rw [← Int.tdiv_eq_ediv_of_nonneg (by omega), Int.neg_tdiv, neg_neg]

/-- Half of the sum of two `int` is between them exactly when the sum does not wrap around. -/
theorem tdiv_between_iff {a b : ℤ} (ha : -2 ^ 31 ≤ a) (hb : b < 2 ^ 31) (hle : a ≤ b) :
    (a ≤ ((a + b).bmod (2 ^ 32)).tdiv 2 ∧ ((a + b).bmod (2 ^ 32)).tdiv 2 ≤ b) ↔
      -2 ^ 31 ≤ a + b ∧ a + b < 2 ^ 31 := by
  have hwrap := Int.bmod_eq_self_sub_mul_bdiv (a + b) (2 ^ 32)
  have hlow := Int.le_bmod (x := a + b) (m := 2 ^ 32) (by norm_num)
  have hhigh := Int.bmod_lt (x := a + b) (m := 2 ^ 32) (by norm_num)
  norm_num at hwrap hlow hhigh
  rw [tdiv_two]
  norm_num
  -- the sum wraps around at most once, and has the other sign then
  generalize (a + b).bmod 4294967296 = sum at hwrap hlow hhigh ⊢
  generalize (a + b).bdiv 4294967296 = turns at hwrap
  split_ifs with hnonneg
  · constructor <;> intro h <;> omega
  · constructor <;> intro h <;> omega

/-- The values of a full filter are `int`. -/
theorem forall_mem_sort_lastOf {values : List ℤ} (hvalues : ∀ v ∈ values, -2 ^ 31 ≤ v ∧ v < 2 ^ 31) (n : ℕ) :
    ∀ v ∈ (lastOf n values).insertionSort (· ≤ ·), -2 ^ 31 ≤ v ∧ v < 2 ^ 31 :=
  fun v hv => hvalues v (List.mem_of_mem_drop ((List.mem_insertionSort _).mp hv))

/-- The median of a window that is not empty, when the number of its values is an `int`. -/
theorem exists_median_iff {filter : CMedianFilter} (hne : filter.vSorted ≠ []) (hlen : filter.vSorted.length < 2 ^ 31)
    (hsorted : filter.vSorted.Pairwise (· ≤ ·)) (hint : ∀ v ∈ filter.vSorted, -2 ^ 31 ≤ v ∧ v < 2 ^ 31) :
    (∃ m, filter.medianInt = .ok m ∧ BetweenMiddles m filter.vSorted) ↔
      (filter.vSorted.length % 2 = 0 → ∀ a b, filter.vSorted[filter.vSorted.length / 2 - 1]? = some a →
        filter.vSorted[filter.vSorted.length / 2]? = some b → -2 ^ 31 ≤ a + b ∧ a + b < 2 ^ 31) := by
  have hpos := List.length_pos_iff.mpr hne
  have hsize : (filter.vSorted.length : ℤ).bmod (2 ^ 32) = filter.vSorted.length :=
    Int.bmod_eq_of_le_mul_two (by omega) (by omega)
  have hzero : ¬(filter.vSorted.length : ℤ) ≤ 0 := by omega
  unfold medianInt BetweenMiddles
  rw [hsize]
  simp only [if_neg hzero, Int.toNat_natCast]
  have hmiddle : filter.vSorted.length / 2 < filter.vSorted.length := by omega
  by_cases hodd : filter.vSorted.length % 2 = 1
  · have hodd' : (filter.vSorted.length : ℤ) % 2 = 1 := by omega
    rw [if_pos hodd']
    simp only [if_pos hodd, List.getElem?_eq_getElem hmiddle, Option.getD_some]
    exact iff_of_true ⟨_, rfl, rfl⟩ fun heven => by omega
  · have hodd' : ¬(filter.vSorted.length : ℤ) % 2 = 1 := by omega
    have heven : filter.vSorted.length % 2 = 0 := by omega
    have hbelow : filter.vSorted.length / 2 - 1 < filter.vSorted.length := by omega
    have hle := List.pairwise_iff_getElem.mp hsorted _ _ hbelow hmiddle (by omega)
    have hbetween := tdiv_between_iff (hint _ (List.getElem_mem hbelow)).1 (hint _ (List.getElem_mem hmiddle)).2 hle
    rw [if_neg hodd']
    simp only [if_neg hodd, List.getElem?_eq_getElem hmiddle, List.getElem?_eq_getElem hbelow, Option.getD_some,
      Option.some.injEq, exists_and_left, exists_eq_left', Except.ok.injEq]
    rw [hbetween]
    refine ⟨fun h _ a b ha hb => ?_, fun h => h heven _ _ rfl rfl⟩
    rw [← ha, ← hb]
    exact h

/-- More values than an `int` can count. -/
theorem medianInt_eq_assertion {filter : CMedianFilter} (hlow : 2 ^ 31 ≤ filter.vSorted.length)
    (hhigh : filter.vSorted.length < 2 ^ 32) : filter.medianInt = .error .assertion := by
  have hwrap : (filter.vSorted.length : ℤ).bmod (2 ^ 32) = filter.vSorted.length - 2 ^ 32 := by
    rw [← @Int.bmod_eq_of_le_mul_two (filter.vSorted.length - 2 ^ 32) (2 ^ 32) (by omega) (by omega)]
    exact (Int.sub_bmod_right _ (2 ^ 32)).symm
  unfold medianInt
  rw [hwrap, if_pos (by omega)]

/-- **The median filter.** For every window and every row of inputs: the filter holds the last values sorted, and its
median is between the two in the middle, if and only if the window is not of size zero, no more values are held than
an `int` can count, and the sum of the two in the middle of an even number of values is an `int`. -/
theorem medianOk_iff (nSize : UInt32) (initialValue : Int32) (inputs : List Int32) :
    MedianOk (lastOf nSize.toNat (initialValue.toInt :: inputs.map Int32.toInt))
        (fed nSize.toNat initialValue.toInt (inputs.map Int32.toInt)) ↔
      nSize ≠ 0 ∧ min (inputs.length + 1) nSize.toNat < 2 ^ 31 ∧
        SumFits (lastOf nSize.toNat (initialValue.toInt :: inputs.map Int32.toInt)) := by
  -- what goes in are `int`s
  have hvalues : ∀ v ∈ initialValue.toInt :: inputs.map Int32.toInt, -2 ^ 31 ≤ v ∧ v < 2 ^ 31 := by
    intro v hv
    rw [← List.map_cons] at hv
    obtain ⟨n, -, rfl⟩ := List.mem_map.mp hv
    exact ⟨n.le_toInt, n.toInt_lt⟩
  set values := initialValue.toInt :: inputs.map Int32.toInt with hdef
  have hcount : values.length = inputs.length + 1 := by
    rw [hdef, List.length_cons, List.length_map]
  by_cases hzero : nSize = 0
  · subst hzero
    -- a window of size zero never forgets, and holds more than it should
    refine iff_of_false (fun h => ?_) (fun h => h.1 rfl)
    have hlen := h.perm.length_eq
    rw [length_lastOf, UInt32.toNat_zero, Nat.min_zero] at hlen
    exact length_vSorted_fed_zero _ (List.length_eq_zero_iff.mp hlen)
  · have hpos : 0 < nSize.toNat := by
      rw [Nat.pos_iff_ne_zero]
      intro hnat
      exact hzero (UInt32.toNat_inj.mp hnat)
    rw [fed_eq hpos, ← hdef]
    have hperm := List.perm_insertionSort (· ≤ ·) (lastOf nSize.toNat values)
    have hsorted := List.pairwise_insertionSort (· ≤ ·) (lastOf nSize.toNat values)
    have hlen : ((lastOf nSize.toNat values).insertionSort (· ≤ ·)).length = min (inputs.length + 1) nSize.toNat := by
      rw [List.length_insertionSort, length_lastOf, hcount]
    have hlen' : (lastOf nSize.toNat values).length = min (inputs.length + 1) nSize.toNat := by
      rw [length_lastOf, hcount]
    have hword := nSize.toNat_lt
    unfold SumFits
    rw [hlen']
    -- the filter holds what it should; what is left is the median, whose size is cast to an `int`
    by_cases hfew : min (inputs.length + 1) nSize.toNat < 2 ^ 31
    · have hmedian := @exists_median_iff ⟨lastOf nSize.toNat values,
        (lastOf nSize.toNat values).insertionSort (· ≤ ·), nSize.toNat⟩
        (List.length_pos_iff.mp (by rw [hlen]; omega)) (by rw [hlen]; exact hfew) hsorted
        (forall_mem_sort_lastOf hvalues _)
      simp only [hlen] at hmedian
      constructor
      · intro h
        exact ⟨hzero, hfew, hmedian.mp h.median⟩
      · rintro ⟨-, -, hfits⟩
        exact ⟨hperm, hsorted, hmedian.mpr hfits⟩
    · -- the size does not fit an `int`, and the assertion fails
      refine iff_of_false (fun h => ?_) (fun h => hfew h.2.1)
      obtain ⟨m, hm, -⟩ := h.median
      rw [medianInt_eq_assertion (show 2 ^ 31 ≤ List.length _ by rw [hlen]; omega)
        (show List.length _ < 2 ^ 32 by rw [hlen]; omega)] at hm
      cases hm

/-- Three peers that claim the largest height there is, with the value zero that the filter starts with. -/
theorem median_of_large_heights :
    ¬ ∀ (nSize : UInt32) (initialValue : Int32) (inputs : List Int32),
      MedianOk (lastOf nSize.toNat (initialValue.toInt :: inputs.map Int32.toInt))
        (fed nSize.toNat initialValue.toInt (inputs.map Int32.toInt)) := by
  intro h
  obtain ⟨m, hm, hbetween⟩ := (h 5 0 [2147483647, 2147483647, 2147483647]).median
  have hvalue : (fed 5 0 [2147483647, 2147483647, 2147483647]).medianInt = .ok (-1) := by decide
  cases hvalue.symm.trans hm
  obtain ⟨a, b, ha, -, hle, -⟩ := hbetween
  cases ha
  exact absurd hle (by decide)

end CMedianFilter

end Peershares
