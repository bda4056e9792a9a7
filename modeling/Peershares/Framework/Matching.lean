import Mathlib.Data.List.Forall2
import Mathlib.Data.List.NodupEquivFin

/-!
# Ordered matching

To match two lists in order is to find, for each element of the first, an element of the second that it is
related to, such that later elements have later partners. One pass that takes every partner as soon as it comes
finds a matching when there is one.

* `OrderedMatching` — a strictly increasing choice of partners
* `greedy` — the pass
* `greedy_iff` — the pass is right
-/

namespace Framework

variable {α β : Type}

/-- The elements of `as` have related partners in `bs`, in the same order. -/
def OrderedMatching (R : α → β → Bool) (as : List α) (bs : List β) : Prop :=
  ∃ f : Fin as.length → Fin bs.length, StrictMono f ∧ ∀ i, R (as.get i) (bs.get (f i)) = true

/-- One pass over `bs`: every partner is taken as soon as it comes. -/
def greedy (R : α → β → Bool) : List α → List β → Bool
  | [], _ => true
  | _ :: _, [] => false
  | a :: as, b :: bs => if R a b then greedy R as bs else greedy R (a :: as) bs

variable {R : α → β → Bool} {as : List α} {bs : List β}

/-- The partners are a sublist. -/
theorem orderedMatching_iff_sublist :
    OrderedMatching R as bs ↔ ∃ cs, cs.Sublist bs ∧ List.Forall₂ (fun a b => R a b = true) as cs := by
  constructor
  · rintro ⟨f, hmono, hR⟩
    let cs := List.ofFn fun i => bs.get (f i)
    have hlen : cs.length = as.length := List.length_ofFn
    refine ⟨cs, List.sublist_iff_exists_fin_orderEmbedding_get_eq.mpr ?_, List.forall₂_iff_get.mpr ⟨hlen.symm, ?_⟩⟩
    · refine ⟨OrderEmbedding.ofStrictMono (fun i => f (i.cast hlen)) fun i j hij => hmono hij, fun i => ?_⟩
      exact List.get_ofFn _ i
    · intro i h₁ h₂
      rw [List.get_ofFn]
      exact hR ⟨i, h₁⟩
  · rintro ⟨cs, hsub, hall⟩
    obtain ⟨f, hf⟩ := List.sublist_iff_exists_fin_orderEmbedding_get_eq.mp hsub
    obtain ⟨hlen, hR⟩ := List.forall₂_iff_get.mp hall
    refine ⟨fun i => f (i.cast hlen), fun i j hij => f.strictMono hij, fun i => ?_⟩
    rw [← hf]
    exact hR i i.isLt (hlen ▸ i.isLt)

theorem orderedMatching_nil : OrderedMatching R [] bs :=
  orderedMatching_iff_sublist.mpr ⟨[], bs.nil_sublist, List.Forall₂.nil⟩

theorem not_orderedMatching_nil {a : α} : ¬ OrderedMatching R (a :: as) ([] : List β) := by
  rintro ⟨f, -, -⟩
  exact (f ⟨0, Nat.succ_pos _⟩).elim0

/-- A first element that is related to `b` may take it: the others keep their partners, which come later than
the one it had. -/
theorem orderedMatching_cons_of_related {a : α} {b : β} (h : R a b = true) :
    OrderedMatching R (a :: as) (b :: bs) ↔ OrderedMatching R as bs := by
  simp only [orderedMatching_iff_sublist]
  constructor
  · rintro ⟨cs, hsub, hall⟩
    cases hall with
    | cons _ hall => exact ⟨_, hsub.tail, hall⟩
  · rintro ⟨cs, hsub, hall⟩
    exact ⟨b :: cs, hsub.cons_cons b, hall.cons h⟩

/-- One that is not related to `b` has its partner, and so have all others, behind it. -/
theorem orderedMatching_cons_of_not_related {a : α} {b : β} (h : R a b = false) :
    OrderedMatching R (a :: as) (b :: bs) ↔ OrderedMatching R (a :: as) bs := by
  simp only [orderedMatching_iff_sublist]
  constructor
  · rintro ⟨cs, hsub, hall⟩
    cases hsub with
    | cons _ hsub => exact ⟨cs, hsub, hall⟩
    | cons_cons _ hsub =>
      cases hall with
      | cons hR _ => exact absurd (h.symm.trans hR) (by decide)
  · rintro ⟨cs, hsub, hall⟩
    exact ⟨cs, hsub.cons b, hall⟩

theorem greedy_iff : greedy R as bs = true ↔ OrderedMatching R as bs := by
  induction bs generalizing as with
  | nil =>
    cases as with
    | nil => exact iff_of_true rfl orderedMatching_nil
    | cons a as => exact iff_of_false (by simp [greedy]) not_orderedMatching_nil
  | cons b bs ih =>
    cases as with
    | nil => exact iff_of_true rfl orderedMatching_nil
    | cons a as =>
      unfold greedy
      cases h : R a b with
      | true =>
        rw [if_pos rfl, ih]
        exact (orderedMatching_cons_of_related h).symm
      | false =>
        rw [if_neg Bool.false_ne_true, ih]
        exact (orderedMatching_cons_of_not_related h).symm

/-- With fewer partners than elements there is no matching, so the pass may stop. -/
theorem greedy_of_length_lt (h : bs.length < as.length) : greedy R as bs = false := by
  refine Bool.eq_false_iff.mpr fun htrue => ?_
  obtain ⟨cs, hsub, hall⟩ := orderedMatching_iff_sublist.mp (greedy_iff.mp htrue)
  have hle := hsub.length_le
  rw [← hall.length_eq] at hle
  omega

end Framework
