import Mathlib.Data.List.MinMax
import Mathlib.Data.List.Nodup
import Mathlib.Data.List.Perm.Subperm
import Mathlib.Tactic.Common

/-!
# Drawing without replacement

Elements of a list are drawn one after the other; each round a choice is made among those that are left.

* `Drawn` — a row of elements that may have been drawn
* `Drawn.concat` — one more round
* `remaining_ne_nil` — something is left until all are drawn
* `argmin_concat_eq` — the running minimum of a scan
* `shuffle` — elements drawn by exchanging them to the front of the list they are in
* `least_stays_iff` — where the least of the drawn elements is afterwards
-/

namespace Framework

variable {α : Type} [DecidableEq α]

/-- What is left of a list, in its order. -/
def remaining (l sel : List α) : List α := l.filter (fun a => decide (a ∉ sel))

/-- In each round the choice for that round fell on the element, among those left. -/
structure Drawn (choose : ℕ → List α → Option α) (l sel : List α) : Prop where
  sub : ∀ a ∈ sel, a ∈ l
  nodup : sel.Nodup
  chosen : ∀ r (h : r < sel.length), choose r (remaining l (sel.take r)) = some sel[r]

variable {choose : ℕ → List α → Option α} {l sel : List α} {a : α}

/-- What is left is what was not drawn. -/
theorem mem_remaining : a ∈ remaining l sel ↔ a ∈ l ∧ a ∉ sel := by simp [remaining]

/-- Nothing drawn. -/
theorem Drawn.nil : Drawn choose l [] :=
  ⟨fun _ h => absurd h List.not_mem_nil, List.nodup_nil, fun r h => absurd h (Nat.not_lt_zero r)⟩

/-- One more drawn. -/
theorem Drawn.concat (h : Drawn choose l sel) (hmem : a ∈ remaining l sel)
    (hchosen : choose sel.length (remaining l sel) = some a) : Drawn choose l (sel ++ [a]) := by
  obtain ⟨hl, hnew⟩ := mem_remaining.mp hmem
  refine ⟨?_, ?_, ?_⟩
  · intro b hb
    rcases List.mem_append.mp hb with hb | hb
    · exact h.sub b hb
    · exact (List.mem_singleton.mp hb) ▸ hl
  · rw [List.nodup_append]
    refine ⟨h.nodup, List.nodup_singleton a, fun b hb c hc => ?_⟩
    rintro rfl
    exact hnew ((List.mem_singleton.mp hc) ▸ hb)
  · intro r hr
    rw [List.length_append, List.length_singleton] at hr
    rcases Nat.lt_or_ge r sel.length with hlt | hge
    · -- an earlier round saw the same elements
      rw [List.take_append_of_le_length hlt.le, List.getElem_append_left hlt]
      exact h.chosen r hlt
    · have heq : r = sel.length := by omega
      subst heq
      simp [hchosen]

/-- Something is left until as many are drawn as there are. -/
theorem remaining_ne_nil (hl : l.Nodup) (hlt : sel.length < l.length) : remaining l sel ≠ [] := by
  intro hnil
  have hsub : l ⊆ sel := by
    intro b hb
    by_contra hnot
    have hmem : b ∈ remaining l sel := mem_remaining.mpr ⟨hb, hnot⟩
    rw [hnil] at hmem
    exact absurd hmem List.not_mem_nil
  have hle := (hl.subperm hsub).length_le
  omega

/-! ### The running minimum -/

variable {κ : Type} [LinearOrder κ] {f : α → κ} {b : α}

omit [DecidableEq α] in
/-- One more element replaces the minimum only when it is smaller. -/
theorem argmin_concat_eq (h : l.argmin f = some b) :
    (l ++ [a]).argmin f = some (if f a < f b then a else b) := by
  rw [List.argmin_concat, h]
  simp only
  split_ifs <;> rfl

/-! ### In place -/

section InPlace

/-- The elements at two positions change places. -/
def exchange {α : Type} (l : List α) (i j : ℕ) : List α :=
  match l[i]?, l[j]? with
  | some a, some b => (l.set j a).set i b
  | _, _ => l

/-- Round `r` exchanges what is at the position it draws with what is at position `r`. -/
def shuffle {α : Type} (draw : ℕ → ℕ) (l : List α) : ℕ → List α
  | 0 => l
  | r + 1 => exchange (shuffle draw l r) r (draw r)

/-- What a round draws. -/
def drawnAt {α : Type} (draw : ℕ → ℕ) (l : List α) (r : ℕ) : Option α := (shuffle draw l r)[draw r]?

variable {α : Type} {l : List α} {i j k m r : ℕ} {draw : ℕ → ℕ}

/-- An exchange is a permutation. -/
theorem exchange_perm (hi : i < l.length) (hj : j < l.length) : (exchange l i j).Perm l := by
  unfold exchange
  rw [List.getElem?_eq_getElem hi, List.getElem?_eq_getElem hj]
  exact List.set_set_perm hj hi

/-- The row after an exchange. -/
theorem getElem?_exchange (hi : i < l.length) (hj : j < l.length) :
    (exchange l i j)[k]? = if k = i then l[j]? else if k = j then l[i]? else l[k]? := by
  unfold exchange
  rw [List.getElem?_eq_getElem hi, List.getElem?_eq_getElem hj]
  by_cases hki : k = i
  · subst hki
    rw [if_pos rfl, List.getElem?_set_self (by rw [List.length_set]; exact hi)]
  · rw [if_neg hki, List.getElem?_set_ne (Ne.symm hki)]
    by_cases hkj : k = j
    · subst hkj
      rw [if_pos rfl, List.getElem?_set_self hj]
    · rw [if_neg hkj, List.getElem?_set_ne (Ne.symm hkj)]

/-- The positions that are drawn are in the list, and not before that of their round. -/
def InRange (draw : ℕ → ℕ) (l : List α) (m : ℕ) : Prop := ∀ r < m, r ≤ draw r ∧ draw r < l.length

/-- And so is a shuffle, by induction on the exchanges. -/
theorem shuffle_perm (h : InRange draw l m) : (shuffle draw l m).Perm l := by
  induction m with
  | zero => exact List.Perm.refl l
  | succ m ih =>
    have hperm := ih fun r hr => h r (hr.trans (Nat.lt_succ_self m))
    obtain ⟨hge, hlt⟩ := h m (Nat.lt_succ_self m)
    refine (exchange_perm ?_ ?_).trans hperm
    · rw [hperm.length_eq]
      exact hge.trans_lt hlt
    · rw [hperm.length_eq]
      exact hlt

/-- What is drawn stays at the position of its round. -/
theorem getElem?_shuffle (h : InRange draw l m) (hi : i < m) : (shuffle draw l m)[i]? = drawnAt draw l i := by
  induction m with
  | zero => exact absurd hi (Nat.not_lt_zero i)
  | succ m ih =>
    have hrange : InRange draw l m := fun r hr => h r (hr.trans (Nat.lt_succ_self m))
    have hlen := (shuffle_perm hrange).length_eq
    obtain ⟨hge, hlt⟩ := h m (Nat.lt_succ_self m)
    rw [shuffle, getElem?_exchange (by omega) (by omega)]
    obtain rfl | hne := eq_or_ne i m
    · exact if_pos rfl
    · have him : i < m := by omega
      rw [if_neg hne, if_neg (by omega)]
      exact ih hrange him

/-- Behind the rounds there is nothing that was drawn. -/
theorem lt_of_getElem?_shuffle (hl : l.Nodup) (h : InRange draw l m) {a : α}
    (hk : (shuffle draw l m)[k]? = some a) (hi : i < m) (ha : drawnAt draw l i = some a) : k < m := by
  have hnodup : (shuffle draw l m).Nodup := (shuffle_perm h).nodup_iff.mpr hl
  rw [← getElem?_shuffle h hi] at ha
  have hlt : i < (shuffle draw l m).length := by
    have := h i hi
    rw [(shuffle_perm h).length_eq]
    omega
  have heq : i = k := (List.getElem?_inj hlt hnodup).mp (ha.trans hk.symm)
  omega

/-- The first of the least of a row of numbers. -/
structure FirstLeast (f : ℕ → κ) (m k : ℕ) : Prop where
  lt : k < m
  before : ∀ i < k, f k < f i
  least : ∀ i < m, f k ≤ f i

/-- One more number. -/
theorem FirstLeast.succ {f : ℕ → κ} (h : FirstLeast f m k) : FirstLeast f (m + 1) (if f m < f k then m else k) := by
  split_ifs with hless
  · refine ⟨Nat.lt_succ_self m, fun i hi => hless.trans_le (h.least i hi), fun i hi => ?_⟩
    obtain hlt | rfl := Nat.lt_succ_iff_lt_or_eq.mp hi
    · exact hless.le.trans (h.least i hlt)
    · exact le_rfl
  · refine ⟨h.lt.trans (Nat.lt_succ_self m), h.before, fun i hi => ?_⟩
    obtain hlt | rfl := Nat.lt_succ_iff_lt_or_eq.mp hi
    · exact h.least i hlt
    · exact not_lt.mp hless

/-- There is one first minimum. -/
theorem FirstLeast.unique {f : ℕ → κ} (h : FirstLeast f m k) (h' : FirstLeast f m j) : k = j := by
  obtain hlt | rfl | hlt := Nat.lt_trichotomy k j
  · exact absurd (h'.before k hlt) (not_lt.mpr (h.least j h'.lt))
  · rfl
  · exact absurd (h.before j hlt) (not_lt.mpr (h'.least k h.lt))

/-- **Where the least is.** Looked for where it was drawn from, afterwards, there is one of the least that were
drawn exactly when the round of that number took place and drew one that is equally small. -/
theorem least_stays_iff (hl : l.Nodup) (h : InRange draw l m) {key : Option α → κ}
    (hk : FirstLeast (fun i => key (drawnAt draw l i)) m k) :
    (∃ i < m, (shuffle draw l m)[draw k]? = drawnAt draw l i ∧
      ∀ j < m, key (drawnAt draw l i) ≤ key (drawnAt draw l j)) ↔
    draw k < m ∧ key (drawnAt draw l (draw k)) = key (drawnAt draw l k) := by
  constructor
  · rintro ⟨i, hi, hfound, hleast⟩
    have hdraw : draw k < (shuffle draw l m).length := by
      rw [(shuffle_perm h).length_eq]
      exact (h k hk.lt).2
    have hlt : draw k < m := lt_of_getElem?_shuffle hl h (List.getElem?_eq_getElem hdraw) hi
      (hfound.symm.trans (List.getElem?_eq_getElem hdraw))
    rw [getElem?_shuffle h hlt] at hfound
    rw [hfound]
    exact ⟨hlt, (hleast k hk.lt).antisymm (hk.least i hi)⟩
  · rintro ⟨hlt, heq⟩
    refine ⟨draw k, hlt, getElem?_shuffle h hlt, fun j hj => ?_⟩
    rw [heq]
    exact hk.least j hj

end InPlace

end Framework
