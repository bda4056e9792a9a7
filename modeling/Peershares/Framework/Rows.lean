import Mathlib.Data.List.Basic
import Mathlib.Logic.Function.Basic
import Mathlib.Order.Lattice
import Mathlib.Tactic.Common

/-!
# Rows in one list

A table of rows, one for each key, kept as one flat list in which the rows follow each other by their keys. A binary
search finds where a row starts and where it ends, and a row is exchanged where it stands.

* `bisect` — the search; `bisect_append` says where it ends
* `exists_flatMap_split` — the flat list around a row
* `flatMap_eq_of_support` — keys without a row do not matter; `filter_flatMap_row` — the row of a key
-/

namespace Framework

/-! ### The search -/

section Bisect

variable {α : Type}

/-- The search in the `n` elements from `start` on: behind the middle when `right` holds there, and in front of it
otherwise. -/
def bisect (right : α → Bool) (l : List α) (start n : ℕ) : ℕ :=
  if n = 0 then start
  else
    match l[start + n / 2]? with
    | none => start
    | some middle =>
      if right middle then bisect right l (start + n / 2 + 1) (n - (n / 2 + 1))
      else bisect right l start (n / 2)
termination_by n

/-- **The search ends** between the elements on the left, where `right` holds, and those on the right, where it does
not. -/
theorem bisect_append {right : α → Bool} {a b : List α} (ha : ∀ x ∈ a, right x = true) (hb : ∀ x ∈ b, right x = false)
    {start n : ℕ} (hstart : start ≤ a.length) (hend : a.length ≤ start + n) (hn : start + n ≤ a.length + b.length) :
    bisect right (a ++ b) start n = a.length := by
  induction n using Nat.strongRecOn generalizing start with
  | ind n ih =>
    rw [bisect]
    split_ifs with hzero
    · omega
    · have hlt : start + n / 2 < (a ++ b).length := by
        rw [List.length_append]
        omega
      rw [List.getElem?_eq_getElem hlt]
      dsimp only
      by_cases hleft : start + n / 2 < a.length
      · rw [List.getElem_append_left hleft, ha _ (List.getElem_mem hleft), if_pos rfl]
        exact ih _ (by omega) (by omega) (by omega) (by omega)
      · have hright : start + n / 2 - a.length < b.length := by
          rw [List.length_append] at hlt
          omega
        rw [List.getElem_append_right (Nat.le_of_not_lt hleft), hb _ (List.getElem_mem hright),
          if_neg Bool.false_ne_true]
        exact ih _ (by omega) (by omega) (by omega) (by omega)

end Bisect

/-! ### The rows -/

section Rows

variable {K α : Type} [LinearOrder K] {key : α → K} {ks ks' : List K} {rows : K → List α} {k : K}

/-- The flat list around the row of a key, and what it becomes when the row is exchanged. -/
theorem exists_flatMap_split (hks : ks.Pairwise (· < ·)) (hrows : ∀ k, ∀ x ∈ rows k, key x = k) (hk : k ∈ ks) :
    ∃ before after, ks.flatMap rows = before ++ (rows k ++ after) ∧ (∀ x ∈ before, key x < k) ∧
      (∀ x ∈ after, k < key x) ∧
      ∀ row, ks.flatMap (Function.update rows k row) = before ++ (row ++ after) := by
  obtain ⟨a, b, rfl⟩ := List.append_of_mem hk
  obtain ⟨-, hb, hab⟩ := List.pairwise_append.mp hks
  have hlt : ∀ k' ∈ a, k' < k := fun k' hk' => hab k' hk' k List.mem_cons_self
  have hgt : ∀ k' ∈ b, k < k' := (List.pairwise_cons.mp hb).1
  have hupdate : ∀ (row : List α) (l : List K), k ∉ l → l.flatMap (Function.update rows k row) = l.flatMap rows := by
    intro row l hl
    refine List.flatMap_congr fun k' hk' => ?_
    rw [Function.update_of_ne]
    rintro rfl
    exact hl hk'
  refine ⟨a.flatMap rows, b.flatMap rows, ?_, ?_, ?_, ?_⟩
  · rw [List.flatMap_append, List.flatMap_cons]
  · intro x hx
    obtain ⟨k', hk', hx⟩ := List.mem_flatMap.mp hx
    rw [hrows k' x hx]
    exact hlt k' hk'
  · intro x hx
    obtain ⟨k', hk', hx⟩ := List.mem_flatMap.mp hx
    rw [hrows k' x hx]
    exact hgt k' hk'
  · intro row
    rw [List.flatMap_append, List.flatMap_cons, Function.update_self, hupdate row a fun h => lt_irrefl k (hlt k h),
      hupdate row b fun h => lt_irrefl k (hgt k h)]

omit [LinearOrder K] in
/-- Keys without a row are passed over. -/
theorem flatMap_filter_row (ks : List K) (rows : K → List α) :
    (ks.filter fun k => !(rows k).isEmpty).flatMap rows = ks.flatMap rows := by
  induction ks with
  | nil => rfl
  | cons k ks ih =>
    rw [List.filter_cons, List.flatMap_cons]
    cases hrow : rows k with
    | nil =>
      rw [List.isEmpty_nil, Bool.not_true, if_neg Bool.false_ne_true, ih]
      rfl
    | cons x row =>
      rw [List.isEmpty_cons, Bool.not_false, if_pos rfl, List.flatMap_cons, hrow, ih]

/-- The flat list is the same for all increasing lists of keys that have the ones with a row. -/
theorem flatMap_eq_of_support (hks : ks.Pairwise (· < ·)) (hks' : ks'.Pairwise (· < ·))
    (hsupport : ∀ k, rows k ≠ [] → k ∈ ks ∧ k ∈ ks') : ks.flatMap rows = ks'.flatMap rows := by
  rw [← flatMap_filter_row ks, ← flatMap_filter_row ks']
  congr 1
  have hrow : ∀ k, (!(rows k).isEmpty) = true ↔ rows k ≠ [] := by
    intro k
    rw [Bool.not_eq_true', Bool.eq_false_iff, ne_eq, List.isEmpty_iff]
  refine @List.Perm.eq_of_pairwise K (· < ·) _ _ (fun a b _ _ h h' => absurd h' (lt_asymm h)) (hks.filter _)
    (hks'.filter _) ?_
  refine (List.perm_ext_iff_of_nodup ((hks.filter _).imp ne_of_lt) ((hks'.filter _).imp ne_of_lt)).mpr fun k => ?_
  rw [List.mem_filter, List.mem_filter, hrow]
  constructor
  · rintro ⟨-, hne⟩
    exact ⟨(hsupport k hne).2, hne⟩
  · rintro ⟨-, hne⟩
    exact ⟨(hsupport k hne).1, hne⟩

/-- The row of a key is what the flat list has of it. -/
theorem filter_flatMap_row (hks : ks.Nodup) (hrows : ∀ k, ∀ x ∈ rows k, key x = k) (hk : k ∈ ks) :
    (ks.flatMap rows).filter (fun x => key x = k) = rows k := by
  obtain ⟨a, b, rfl⟩ := List.append_of_mem hk
  obtain ⟨-, hb, hdisjoint⟩ := List.nodup_append.mp hks
  have ha : k ∉ a := fun h => hdisjoint k h k List.mem_cons_self rfl
  have hother : ∀ l : List K, k ∉ l → (l.flatMap rows).filter (fun x => key x = k) = [] := by
    intro l hl
    refine List.filter_eq_nil_iff.mpr fun x hx heq => ?_
    obtain ⟨k', hk', hx⟩ := List.mem_flatMap.mp hx
    rw [hrows k' x hx, decide_eq_true_eq] at heq
    exact hl (heq ▸ hk')
  rw [List.flatMap_append, List.flatMap_cons, List.filter_append, List.filter_append, hother a ha,
    hother b (List.nodup_cons.mp hb).1, List.nil_append, List.append_nil]
  exact List.filter_eq_self.mpr fun x hx => decide_eq_true (hrows k x hx)

end Rows

end Framework
