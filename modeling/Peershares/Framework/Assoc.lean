import Mathlib.Data.List.AList

/-!
# Finite maps

Mathlib's association lists with one value type, as the model of `std::map`: what a lookup
returns after one write, and after a list of writes.
-/

namespace Framework

/-- A finite map from `K` to `V`. -/
abbrev Map (K V : Type) := AList fun _ : K => V

namespace Map

variable {K V : Type} [DecidableEq K]

/-- The map after an insertion. -/
theorem lookup_insert_eq (m : Map K V) (k k' : K) (v : V) :
    (m.insert k v).lookup k' = if k' = k then some v else m.lookup k' := by
  split_ifs with h
  · subst h
    exact AList.lookup_insert m
  · exact AList.lookup_insert_ne h

/-- And after an erasure. -/
theorem lookup_erase_eq (m : Map K V) (k k' : K) :
    (m.erase k).lookup k' = if k' = k then none else m.lookup k' := by
  split_ifs with h
  · subst h
    exact AList.lookup_erase k' m
  · exact AList.lookup_erase_ne h

/-- The same as a function. -/
theorem lookup_insert_update (m : Map K V) (k : K) (v : V) :
    (m.insert k v).lookup = Function.update m.lookup k (some v) := by
  funext k'
  rw [lookup_insert_eq, Function.update_apply]

/-- The same as a function. -/
theorem lookup_erase_update (m : Map K V) (k : K) :
    (m.erase k).lookup = Function.update m.lookup k none := by
  funext k'
  rw [lookup_erase_eq, Function.update_apply]

/-- The first map wins. -/
theorem lookup_union (m m' : Map K V) (k : K) :
    (m ∪ m').lookup k = (m.lookup k).or (m'.lookup k) := by
  cases h : m.lookup k with
  | none => rw [AList.lookup_union_right (AList.lookup_eq_none.mp h), Option.none_or]
  | some v =>
    rw [AList.lookup_union_left (AList.lookup_isSome.mp (by rw [h]; rfl)), h, Option.some_or]

/-- The empty map. -/
theorem lookup_empty (k : K) : (∅ : Map K V).lookup k = none := AList.lookup_empty k

/-- A row of erasures. -/
theorem lookup_foldl_erase (l : List K) (m : Map K V) (k : K) :
    (l.foldl (fun m k => m.erase k) m).lookup k = if k ∈ l then none else m.lookup k := by
  induction l generalizing m with
  | nil => simp
  | cons a l ih =>
    rw [List.foldl_cons, ih, lookup_erase_eq]
    by_cases hk : k = a
    · simp [hk]
    · simp [hk]

/-- A row of insertions of other keys. -/
theorem lookup_foldl_insert_of_notMem {l : List (K × V)} {k : K} (h : k ∉ l.map Prod.fst)
    (m : Map K V) : (l.foldl (fun m p => m.insert p.1 p.2) m).lookup k = m.lookup k := by
  induction l generalizing m with
  | nil => rfl
  | cons p l ih =>
    simp only [List.map_cons, List.mem_cons, not_or] at h
    rw [List.foldl_cons, ih h.2, lookup_insert_eq, if_neg h.1]

/-- Writes at different keys: a lookup finds the write at its key, or what was there before. -/
theorem lookup_foldl_insert {l : List (K × V)} (hl : (l.map Prod.fst).Nodup) (m : Map K V) (k : K)
    (v : V) : (l.foldl (fun m p => m.insert p.1 p.2) m).lookup k = some v ↔
      (k, v) ∈ l ∨ (k ∉ l.map Prod.fst ∧ m.lookup k = some v) := by
  induction l generalizing m with
  | nil => simp
  | cons p l ih =>
    obtain ⟨a, b⟩ := p
    obtain ⟨ha, hl⟩ := List.nodup_cons.mp hl
    have hnot : ∀ w, (a, w) ∉ l := fun w hw => ha (List.mem_map.mpr ⟨_, hw, rfl⟩)
    rw [List.foldl_cons, ih hl, lookup_insert_eq]
    by_cases hk : k = a
    · subst hk
      simp only [if_true, List.mem_cons, Prod.mk.injEq, true_and, List.map_cons, true_or, not_true,
        false_and, or_false, Option.some.injEq]
      constructor
      · rintro (hmem | ⟨-, rfl⟩)
        · exact absurd hmem (hnot v)
        · exact .inl rfl
      · rintro (rfl | hmem)
        · exact .inr ⟨ha, rfl⟩
        · exact absurd hmem (hnot v)
    · simp [hk]

end Map

end Framework
