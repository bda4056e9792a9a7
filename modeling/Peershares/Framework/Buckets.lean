import Mathlib.Algebra.BigOperators.Group.List.Basic
import Mathlib.Data.Finset.Sort
import Mathlib.Data.List.Count
import Mathlib.Data.List.Perm.Basic
import Mathlib.Tactic.Common

/-!
# Rows of buckets

Values are kept in a row of buckets. What changes when one bucket is replaced: in how many buckets a value is
(`occurrences`, for buckets that are sets) and how often it is in all of them together (`List.flatten`, for
buckets that are lists).

A count that is stored beside the row has to follow these numbers. So the lemmas are about differences: a
replacement takes off what the old bucket contributed and adds what the new one does, and no other bucket is
looked at.

* `occurrences_set` — a set is replaced; `occurrences_insert` and `occurrences_erase` are its two uses, where the
  count of one value changes by one and the others stay
* `occurrences_map_erase` — a value is erased everywhere
* `flatten_set_perm` — a list is replaced: up to order, the old list leaves the flattened row and the new one
  enters it
* `count_flatten_replace`, `length_flatten_set` — the same for the count of a value and for the size
-/

namespace Framework

variable {α : Type} [DecidableEq α]

/-! ### Sets -/

/-- In how many buckets the value is. -/
def occurrences (row : List (Finset α)) (a : α) : ℕ := row.countP (a ∈ ·)

/-- A bucket is replaced: the count goes down by the old one and up by the new one. -/
theorem occurrences_set {row : List (Finset α)} {i : ℕ} {s : Finset α} (h : row[i]? = some s) (t : Finset α)
    (a : α) : occurrences (row.set i t) a + (if a ∈ s then 1 else 0) =
      occurrences row a + if a ∈ t then 1 else 0 := by
  induction row generalizing i with
  | nil => exact absurd h (by simp)
  | cons u row ih =>
    cases i with
    | zero =>
      obtain rfl : u = s := by simpa using h
      simp only [occurrences, List.set_cons_zero, List.countP_cons, decide_eq_true_eq]
      omega
    | succ i =>
      have hrest := ih (by simpa using h)
      simp only [occurrences, List.set_cons_succ, List.countP_cons, decide_eq_true_eq] at hrest ⊢
      omega

/-- An element that was not there is put into a bucket. -/
theorem occurrences_insert {row : List (Finset α)} {i : ℕ} {s : Finset α} {b : α} (h : row[i]? = some s)
    (hb : b ∉ s) (a : α) :
    occurrences (row.set i (insert b s)) a = occurrences row a + if a = b then 1 else 0 := by
  have hset := occurrences_set h (insert b s) a
  simp only [Finset.mem_insert] at hset
  by_cases hab : a = b
  · subst hab
    simp only [hb, if_false, true_or, if_true] at hset ⊢
    omega
  · simp only [hab, false_or, if_false] at hset ⊢
    omega

/-- An element is taken out of a bucket that has it. -/
theorem occurrences_erase {row : List (Finset α)} {i : ℕ} {s : Finset α} {b : α} (h : row[i]? = some s)
    (hb : b ∈ s) (a : α) :
    occurrences (row.set i (s.erase b)) a + (if a = b then 1 else 0) = occurrences row a := by
  have hset := occurrences_set h (s.erase b) a
  simp only [Finset.mem_erase] at hset
  by_cases hab : a = b
  · subst hab
    simp only [hb, ne_eq, not_true_eq_false, false_and, if_false, if_true] at hset ⊢
    omega
  · simp only [ne_eq, hab, not_false_eq_true, true_and, if_false] at hset ⊢
    omega

/-- It is taken out of all buckets. -/
theorem occurrences_map_erase (row : List (Finset α)) (a b : α) :
    occurrences (row.map (·.erase b)) a = if a = b then 0 else occurrences row a := by
  unfold occurrences
  rw [List.countP_map]
  split_ifs with hab
  · subst hab
    rw [List.countP_eq_zero]
    intro s _
    simp
  · refine List.countP_congr ?_
    intro s _
    simp [hab]

/-- Something is counted when a bucket has it. -/
theorem occurrences_pos {row : List (Finset α)} {a : α} :
    0 < occurrences row a ↔ ∃ s ∈ row, a ∈ s := by
  unfold occurrences
  rw [List.countP_pos_iff]
  simp

/-- Empty buckets have nothing. -/
theorem occurrences_replicate_empty (n : ℕ) (a : α) : occurrences (List.replicate n ∅) a = 0 := by
  unfold occurrences
  rw [List.countP_eq_zero]
  intro s hs
  rw [List.eq_of_mem_replicate hs]
  simp

/-- The values are renamed, and the name is not that of another value. -/
theorem occurrences_map_image {β : Type} [DecidableEq β] {f : α → β} {row : List (Finset α)} {a : α}
    (h : ∀ s ∈ row, ∀ b ∈ s, f b = f a → b = a) :
    occurrences (row.map (Finset.image f)) (f a) = occurrences row a := by
  unfold occurrences
  rw [List.countP_map]
  refine List.countP_congr ?_
  intro s hs
  simp only [Function.comp_apply, decide_eq_true_eq, Finset.mem_image]
  constructor
  · rintro ⟨b, hb, heq⟩
    rw [← h s hs b hb heq]
    exact hb
  · intro ha
    exact ⟨a, ha, rfl⟩

/-- The values of all buckets, one after the other. -/
theorem count_flatMap_sort [LinearOrder α] (row : List (Finset α)) (a : α) :
    (row.flatMap (·.sort)).count a = occurrences row a := by
  induction row with
  | nil => rfl
  | cons s row ih =>
    rw [List.flatMap_cons, List.count_append, ih]
    unfold occurrences
    rw [List.countP_cons]
    by_cases ha : a ∈ s
    · rw [List.count_eq_one_of_mem (s.sort_nodup _) ((Finset.mem_sort _).mpr ha)]
      simp [ha, Nat.add_comm]
    · rw [List.count_eq_zero_of_not_mem (fun hmem => ha ((Finset.mem_sort _).mp hmem))]
      simp [ha]

/-! ### Lists -/

omit [DecidableEq α] in
/-- All elements are those of one bucket and those of the others. -/
theorem flatten_perm {row : List (List α)} {i : ℕ} {l : List α} (h : row[i]? = some l) :
    row.flatten.Perm (l ++ (row.eraseIdx i).flatten) := by
  induction row generalizing i with
  | nil => exact absurd h (by simp)
  | cons m row ih =>
    cases i with
    | zero =>
      obtain rfl : m = l := by simpa using h
      exact List.Perm.refl _
    | succ i =>
      have hrest := ih (by simpa using h)
      rw [List.flatten_cons, List.eraseIdx_cons_succ, List.flatten_cons]
      exact (hrest.append_left m).trans (List.perm_append_comm_assoc m l _)

omit [DecidableEq α] in
/-- One bucket is replaced. -/
theorem flatten_set_perm {row : List (List α)} {i : ℕ} {l : List α} (h : row[i]? = some l) (l' : List α) :
    (row.set i l').flatten.Perm (l' ++ (row.eraseIdx i).flatten) := by
  have hlt : i < row.length := (List.getElem?_eq_some_iff.mp h).1
  have hset := flatten_perm (List.getElem?_set_self hlt : (row.set i l')[i]? = some l')
  rwa [List.eraseIdx_set_eq] at hset

/-- The same count for buckets that are lists. -/
theorem count_flatten_set {row : List (List α)} {i : ℕ} {l : List α} (h : row[i]? = some l) (l' : List α)
    (a : α) : (row.set i l').flatten.count a + l.count a = row.flatten.count a + l'.count a := by
  rw [(flatten_set_perm h l').count_eq, (flatten_perm h).count_eq, List.count_append, List.count_append]
  omega

omit [DecidableEq α] in
/-- And for the number of elements. -/
theorem length_flatten_set {row : List (List α)} {i : ℕ} {l : List α} (h : row[i]? = some l) (l' : List α) :
    (row.set i l').flatten.length + l.length = row.flatten.length + l'.length := by
  rw [(flatten_set_perm h l').length_eq, (flatten_perm h).length_eq, List.length_append, List.length_append]
  omega

/-- One value of a bucket is replaced. -/
theorem count_flatten_replace {row : List (List α)} {i k : ℕ} {l : List α} (h : row[i]? = some l)
    (hk : k < l.length) (b a : α) :
    (row.set i (l.set k b)).flatten.count a + (if l[k] = a then 1 else 0) =
      row.flatten.count a + if b = a then 1 else 0 := by
  have hset := count_flatten_set h (l.set k b) a
  have hnew := (List.set_perm_cons_eraseIdx hk b).count_eq a
  have hold := (List.getElem_cons_eraseIdx_perm hk).count_eq a
  rw [List.count_cons] at hnew hold
  simp only [beq_iff_eq] at hnew hold
  omega

end Framework
