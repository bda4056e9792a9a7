import Mathlib.Data.List.Sort
import Peershares.Framework.Assoc

/-!
# Tables filled in by rank

A table is filled in key by key, and the value at a key is computed from the value at one other key, the key it
depends on. When the keys come in the order of a rank that is smaller at the key depended on, that value is there when
it is read.

* `DepsFirst` — every key comes behind the key it depends on
* `depsFirst_of_pairwise` — a list in the order of the rank is such a list
* `DepsFirst.foldlM_eq_ok` — what the table holds when the list is done
-/

namespace Framework

variable {K V ε : Type}

/-- Every key of the list comes behind the key it depends on; the keys in `before` are done already. -/
def DepsFirst (dep : K → Option K) : List K → List K → Prop
  | _, [] => True
  | before, k :: l => (∀ k', dep k = some k' → k' ∈ before) ∧ DepsFirst dep (k :: before) l

/-- **In the order of a rank.** `l` is sorted, and what has a smaller rank than a key of `l` is in `before` or in `l`. -/
theorem depsFirst_of_pairwise {dep : K → Option K} {rank : K → ℕ} {before l : List K}
    (hsorted : l.Pairwise (fun k k' => rank k ≤ rank k'))
    (hdep : ∀ k ∈ l, ∀ k', dep k = some k' → rank k' < rank k ∧ (k' ∈ before ∨ k' ∈ l)) : DepsFirst dep before l := by
  induction l generalizing before with
  | nil => trivial
  | cons k l ih =>
    obtain ⟨hle, hsorted⟩ := List.pairwise_cons.mp hsorted
    refine ⟨fun k' hk' => ?_, ih hsorted fun k₁ hk₁ k' hk' => ?_⟩
    · obtain ⟨hlt, hmem | hmem⟩ := hdep k List.mem_cons_self k' hk'
      · exact hmem
      · -- a key that is still to come has no smaller rank
        rcases List.mem_cons.mp hmem with rfl | hmem
        · exact absurd hlt (lt_irrefl _)
        · exact absurd (hle k' hmem) (not_le.mpr hlt)
    · obtain ⟨hlt, hmem | hmem⟩ := hdep k₁ (List.mem_cons_of_mem k hk₁) k' hk'
      · exact ⟨hlt, .inl (List.mem_cons_of_mem k hmem)⟩
      · rcases List.mem_cons.mp hmem with rfl | hmem
        · exact ⟨hlt, .inl List.mem_cons_self⟩
        · exact ⟨hlt, .inr hmem⟩

variable [DecidableEq K]

/-- **The table is filled in.** A step at a key that finds the value of the key depended on puts the value of its own
key into the table; then all keys have their values in the end. -/
theorem DepsFirst.foldlM_eq_ok {dep : K → Option K} {val : K → V} {step : Map K V → K → Except ε (Map K V)}
    {before l : List K} (h : DepsFirst dep before l)
    (hstep : ∀ k ∈ l, ∀ m : Map K V, (∀ k', dep k = some k' → m.lookup k' = some (val k')) →
      step m k = .ok (m.insert k (val k)))
    {m : Map K V} (hm : ∀ k ∈ before, m.lookup k = some (val k)) :
    ∃ m', l.foldlM step m = .ok m' ∧ ∀ k, k ∈ before ∨ k ∈ l → m'.lookup k = some (val k) := by
  induction l generalizing before m with
  | nil =>
    refine ⟨m, rfl, fun k hk => hm k (hk.resolve_right List.not_mem_nil)⟩
  | cons k l ih =>
    obtain ⟨hdep, hrest⟩ := h
    have hk := hstep k List.mem_cons_self m (fun k' hk' => hm k' (hdep k' hk'))
    have hm' : ∀ k' ∈ k :: before, (m.insert k (val k)).lookup k' = some (val k') := by
      intro k' hk'
      rw [Map.lookup_insert_eq]
      split_ifs with heq
      · rw [heq]
      · exact hm k' ((List.mem_cons.mp hk').resolve_left heq)
    obtain ⟨m', hfold, hall⟩ := ih hrest (fun k₁ hk₁ => hstep k₁ (List.mem_cons_of_mem k hk₁)) hm'
    refine ⟨m', ?_, fun k' hk' => hall k' ?_⟩
    · rw [List.foldlM_cons, hk]
      exact hfold
    · rw [List.mem_cons] at hk' ⊢
      tauto

/-- A table filled in key by key from a function. -/
theorem Map.lookup_foldl_insert_fun (f : K → V) (l : List K) (m : Map K V) (k : K) :
    (l.foldl (fun m k => m.insert k (f k)) m).lookup k = if k ∈ l then some (f k) else m.lookup k := by
  induction l generalizing m with
  | nil => rfl
  | cons a l ih =>
    rw [List.foldl_cons, ih, lookup_insert_eq]
    by_cases hk : k = a
    · simp [hk]
    · simp [hk]

end Framework
