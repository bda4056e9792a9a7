import Mathlib.Algebra.BigOperators.Group.List.Basic
import Mathlib.Data.Int.Order.Basic
import Mathlib.Tactic.Linarith
import Mathlib.Tactic.Ring
import Peershares.Framework.OrderedMap

/-!
# Running sums in a machine word

A sum that wraps around at every step is the wrapped sum. The same holds for a table of sums: an amount is
added at a key that need not be there yet, and each value in the table is the wrapped sum of what was added
at its key. The sum over the table is, again wrapped, the sum of everything.

* `foldl_bmod`, `foldlM_bmod` — running sums
* `sum_eq_sum_filter_mem` — the same sum over another list
* `Tallies` — what a table of sums has added up, kept by `Tallies.add`
-/

namespace Framework

variable {α ε : Type}

/-! ### Sums -/

/-- A loop of additions may be reduced once. -/
theorem foldl_bmod (m : ℕ) (f : α → ℤ) (l : List α) (n : ℤ) :
    l.foldl (fun n a => (n + f a).bmod m) (n.bmod m) = (n + (l.map f).sum).bmod m := by
  induction l generalizing n with
  | nil => simp
  | cons a l ih => rw [List.foldl_cons, Int.bmod_add_bmod, ih, List.map_cons, List.sum_cons, add_assoc]

/-- A loop that adds `f a` for each element, one way or another. -/
theorem foldlM_bmod (m : ℕ) {step : ℤ → α → Except ε ℤ} {f : α → ℤ} {l : List α}
    (hstep : ∀ a ∈ l, ∀ n : ℤ, step (n.bmod m) a = .ok ((n + f a).bmod m)) (n : ℤ) :
    l.foldlM step (n.bmod m) = .ok ((n + (l.map f).sum).bmod m) := by
  induction l generalizing n with
  | nil => simp [pure, Except.pure]
  | cons a l ih =>
    rw [List.foldlM_cons, hstep a List.mem_cons_self]
    show l.foldlM step ((n + f a).bmod m) = _
    rw [ih fun b hb => hstep b (List.mem_cons_of_mem _ hb), List.map_cons, List.sum_cons, add_assoc]

/-- Two wrapped sums are the same when their difference is a multiple of the modulus. -/
theorem bmod_eq_bmod_iff {m : ℕ} {a b : ℤ} : a.bmod m = b.bmod m ↔ (m : ℤ) ∣ a - b :=
  Int.bmod_eq_bmod_iff_bmod_sub_eq_zero.trans Int.dvd_iff_bmod_eq_zero.symm

/-- The elements with a property and the others. -/
theorem sum_filter_add_sum_filter_not (q : α → Bool) (f : α → ℤ) (l : List α) :
    ((l.filter q).map f).sum + ((l.filter fun a => !q a).map f).sum = (l.map f).sum := by
  induction l with
  | nil => rfl
  | cons a l ih =>
    rw [List.map_cons, List.sum_cons, ← ih]
    cases hq : q a with
    | true =>
      simp only [List.filter_cons, hq, if_true, List.map_cons, List.sum_cons, Bool.not_true,
        Bool.false_eq_true, if_false]
      ring
    | false =>
      simp only [List.filter_cons, hq, if_true, List.map_cons, List.sum_cons, Bool.not_false,
        Bool.false_eq_true, if_false]
      ring

/-- A sum over `l` of amounts that are zero outside of `l'` can be taken over `l'`. -/
theorem sum_eq_sum_filter_mem [DecidableEq α] {f : α → ℤ} {l l' : List α} (hl : l.Nodup) (hl' : l'.Nodup)
    (hzero : ∀ a ∈ l, a ∉ l' → f a = 0) : (l.map f).sum = ((l'.filter fun a => a ∈ l).map f).sum := by
  -- what is in both lists is the same from either side
  have hperm : (l.filter fun a => a ∈ l').Perm (l'.filter fun a => a ∈ l) := by
    refine (List.perm_ext_iff_of_nodup (hl.filter _) (hl'.filter _)).mpr fun a => ?_
    simp only [List.mem_filter, decide_eq_true_eq]
    exact and_comm
  -- and the others add nothing
  have hrest : ((l.filter fun a => !decide (a ∈ l')).map f).sum = 0 := by
    refine List.sum_eq_zero fun v hv => ?_
    obtain ⟨a, ha, rfl⟩ := List.mem_map.mp hv
    obtain ⟨hmem, hnot⟩ := List.mem_filter.mp ha
    exact hzero a hmem (by simpa using hnot)
  calc (l.map f).sum
      = ((l.filter fun a => a ∈ l').map f).sum + ((l.filter fun a => !decide (a ∈ l')).map f).sum :=
        (sum_filter_add_sum_filter_not _ f l).symm
    _ = ((l'.filter fun a => a ∈ l).map f).sum := by rw [hrest, add_zero, (hperm.map f).sum_eq]

/-! ### Tables -/

namespace OrderedMap

variable {K : Type} [LinearOrder K]

/-- The value at a key; a key that is not there has zero. -/
def val (t : OrderedMap K ℤ) (k : K) : ℤ := (t.lookup k).getD 0

/-- The sum of the values. -/
def total (t : OrderedMap K ℤ) : ℤ := (t.entries.map Prod.snd).sum

/-- Add an amount at a key. -/
def add (m : ℕ) (t : OrderedMap K ℤ) (k : K) (v : ℤ) : OrderedMap K ℤ := t.put k ((t.val k + v).bmod m)

/-- The values after one is written. -/
theorem val_put (t : OrderedMap K ℤ) (k k' : K) (v : ℤ) :
    (t.put k v).val k' = if k' = k then v else t.val k' := by
  unfold val
  rw [lookup_put]
  split_ifs
  · rfl
  · rfl

/-- The sum after an entry is written. -/
theorem sum_putEntry {l : List (K × ℤ)} (hl : Increasing l) (k : K) (v : ℤ) :
    ((putEntry k v l).map Prod.snd).sum + ((l.find? fun p => p.1 = k).map Prod.snd).getD 0 =
      (l.map Prod.snd).sum + v := by
  induction l with
  | nil => simp [putEntry]
  | cons p l ih =>
    obtain ⟨hp, hl⟩ := List.pairwise_cons.mp hl
    -- in increasing order no entry behind this place has the key
    have hrest : k ≤ p.1 → (l.find? fun q => q.1 = k) = none := by
      intro hle
      rw [List.find?_eq_none]
      intro q hq
      simpa using (lt_of_le_of_lt hle (hp q hq)).ne'
    rw [putEntry]
    split_ifs with hlt heq
    · simp [hrest hlt.le, hlt.ne', add_comm]
    · simp [heq]
      ring
    · have hne : p.1 ≠ k := fun h => heq h.symm
      simp only [List.map_cons, List.sum_cons, List.find?_cons, hne, decide_false]
      linarith [ih hl]

/-- The same for the table. -/
theorem total_put (t : OrderedMap K ℤ) (k : K) (v : ℤ) : (t.put k v).total + t.val k = t.total + v :=
  sum_putEntry t.increasing k v

end OrderedMap

/-- The table has added up the amounts `S` at the keys, and `T` in all. -/
structure Tallies {K : Type} [LinearOrder K] (m : ℕ) (t : OrderedMap K ℤ) (S : K → ℤ) (T : ℤ) : Prop where
  val_eq : ∀ k, t.val k = (S k).bmod m
  total_eq : t.total.bmod m = T.bmod m

namespace Tallies

variable {K : Type} [LinearOrder K] {m : ℕ} {t : OrderedMap K ℤ} {S : K → ℤ} {T : ℤ}

/-- The empty table. -/
theorem empty : Tallies m (OrderedMap.empty : OrderedMap K ℤ) (fun _ => 0) 0 where
  val_eq _ := by simp [OrderedMap.val, OrderedMap.lookup_empty]
  total_eq := rfl

/-- A key is put into the table with nothing. -/
theorem put_zero (h : Tallies m t (fun _ => 0) 0) (k : K) : Tallies m (t.put k 0) (fun _ => 0) 0 where
  val_eq k' := by
    rw [OrderedMap.val_put, h.val_eq]
    simp
  total_eq := by
    have hval : t.val k = 0 := by simpa using h.val_eq k
    have htotal := t.total_put k 0
    rw [hval] at htotal
    rw [show (t.put k 0).total = t.total by linarith, h.total_eq]

/-- The test for the key need not be that of the order. -/
theorem add [DecidableEq K] (h : Tallies m t S T) (k : K) (v : ℤ) :
    Tallies m (t.add m k v) (fun k' => S k' + if k' = k then v else 0) (T + v) where
  val_eq k' := by
    unfold OrderedMap.add
    rw [OrderedMap.val_put]
    split_ifs with hk
    · rw [hk, h.val_eq, Int.bmod_add_bmod]
    · rw [h.val_eq, add_zero]
  total_eq := by
    have htotal := t.total_put k ((t.val k + v).bmod m)
    -- the total moves by the difference of the two entries, which is `v` up to a multiple of `m`
    have heq : (t.add m k v).total = t.total + ((t.val k + v).bmod m - t.val k) := by
      unfold OrderedMap.add
      linarith
    rw [heq, bmod_eq_bmod_iff]
    have hT : (m : ℤ) ∣ t.total - T := bmod_eq_bmod_iff.mp h.total_eq
    have hv : (m : ℤ) ∣ (t.val k + v).bmod m - (t.val k + v) :=
      bmod_eq_bmod_iff.mp Int.bmod_bmod
    have hsum := Int.dvd_add hT hv
    rwa [show t.total - T + ((t.val k + v).bmod m - (t.val k + v)) =
      t.total + ((t.val k + v).bmod m - t.val k) - (T + v) by ring] at hsum

/-- The same sums. -/
theorem congr (h : Tallies m t S T) {S' : K → ℤ} {T' : ℤ} (hS : ∀ k, S' k = S k) (hT : T' = T) :
    Tallies m t S' T' where
  val_eq k := by rw [h.val_eq, hS]
  total_eq := by rw [h.total_eq, hT]

/-- A row of amounts, each at its key. -/
theorem foldl_add [DecidableEq K] (h : Tallies m t S T) (key : α → K) (f : α → ℤ) (l : List α) :
    Tallies m (l.foldl (fun t a => t.add m (key a) (f a)) t)
      (fun k => S k + ((l.filter fun a => key a = k).map f).sum) (T + (l.map f).sum) := by
  induction l generalizing t S T with
  | nil => exact h.congr (fun k => by simp) (by simp)
  | cons a l ih =>
    refine (ih (h.add (key a) (f a))).congr (fun k => ?_) ?_
    · by_cases hk : key a = k
      · simp [hk, add_assoc]
      · simp [hk, Ne.symm hk]
    · rw [List.map_cons, List.sum_cons, add_assoc]

end Tallies

end Framework
