import Mathlib.Data.List.Nodup
import Mathlib.Logic.Function.Basic
import Mathlib.Tactic.Common

/-!
# Merkle trees with a padded last node

A level pairs the nodes of the one below; an odd last node is paired with itself. The root is the one node
of the last level.

* `exists_branch` — the siblings on the way up from a leaf lead to the root
* `root_injective` — among leaves without duplicates, the root determines the leaves

The padding makes lists of different lengths share a root: `[a, b, c]` and `[a, b, c, c]`. A node has one
height only, because pairing is injective and no leaf is a pair, so two lists with one root have the same
number of levels. From one level to the one below, a padded node is told from a full one by the uniqueness
of the nodes, which goes up from level to level.
-/

namespace Framework.Merkle

variable {α : Type} (pair : α → α → α)

/-! ### Levels -/

/-- The level above. -/
def level : List α → List α
  | [] => []
  | [a] => [pair a a]
  | a :: b :: hs => pair a b :: level hs

/-- A level has half the length, rounded up. -/
theorem length_level (hs : List α) : (level pair hs).length = (hs.length + 1) / 2 := by
  induction hs using level.induct with
  | case1 => simp [level]
  | case2 a => simp [level]
  | case3 a b hs ih =>
    rw [level, List.length_cons, ih, List.length_cons, List.length_cons]
    omega

/-- The node over `hs[2 * k]`. -/
theorem getElem?_level {hs : List α} {k : ℕ} {a b : α} (ha : hs[2 * k]? = some a)
    (hb : hs[min (2 * k + 1) (hs.length - 1)]? = some b) : (level pair hs)[k]? = some (pair a b) := by
  induction hs using level.induct generalizing k with
  | case1 => exact absurd ha (by simp)
  -- a single node is its own sibling
  | case2 x =>
    cases k with
    | zero =>
      simp only [Nat.mul_zero, List.getElem?_cons_zero, Option.some.injEq, List.length_cons, List.length_nil,
        Nat.zero_add, Nat.sub_self, Nat.min_zero] at ha hb
      subst ha hb
      rfl
    | succ k => exact absurd ha (by simp [Nat.mul_succ])
  | case3 x y hs ih =>
    cases k with
    | zero =>
      simp only [Nat.mul_zero, List.getElem?_cons_zero, Option.some.injEq, List.length_cons, Nat.zero_add,
        Nat.add_sub_cancel, Nat.min_def, Nat.le_add_left, if_true, List.getElem?_cons_succ] at ha hb
      subst ha hb
      rfl
    -- two nodes further down
    | succ k =>
      rw [level, List.getElem?_cons_succ]
      rw [show 2 * (k + 1) = 2 * k + 1 + 1 from rfl, List.getElem?_cons_succ, List.getElem?_cons_succ] at ha
      have hlt : 2 * k < hs.length := (List.getElem?_eq_some_iff.mp ha).1
      refine ih ha ?_
      rw [← hb, List.length_cons, List.length_cons,
        show min (2 * (k + 1) + 1) (hs.length + 1 + 1 - 1) = min (2 * k + 1) (hs.length - 1) + 1 + 1 by omega,
        List.getElem?_cons_succ, List.getElem?_cons_succ]

/-- The nodes over `hs` from `hs[i]` on. -/
theorem level_drop {hs : List α} {i : ℕ} {a b : α} (ha : hs[i]? = some a)
    (hb : hs[min (i + 1) (hs.length - 1)]? = some b) :
    level pair (hs.drop i) = pair a b :: level pair (hs.drop (i + 2)) := by
  have hlt : i < hs.length := (List.getElem?_eq_some_iff.mp ha).1
  have hdrop : hs.drop i = a :: hs.drop (i + 1) := by
    rw [List.drop_eq_getElem_cons hlt, (List.getElem?_eq_some_iff.mp ha).2]
  by_cases hlast : i + 1 < hs.length
  · rw [show min (i + 1) (hs.length - 1) = i + 1 by omega] at hb
    rw [hdrop, List.drop_eq_getElem_cons hlast, (List.getElem?_eq_some_iff.mp hb).2, level]
  · rw [show min (i + 1) (hs.length - 1) = i by omega, ha] at hb
    rw [hdrop, List.drop_eq_nil_of_le (by omega), List.drop_eq_nil_of_le (by omega), ← Option.some.inj hb]
    rfl

/-- And is not empty. -/
theorem level_ne_nil {hs : List α} (h : hs ≠ []) : level pair hs ≠ [] := by
  intro hnil
  have hlen := length_level pair hs
  rw [hnil, List.length_nil] at hlen
  have hpos := List.length_pos_iff.mpr h
  omega

/-- The last node of the last level; `zero` when there are no leaves. -/
def root (zero : α) (hs : List α) : α :=
  if 1 < hs.length then root zero (level pair hs) else hs.headD zero
termination_by hs.length
decreasing_by
  rw [length_level]
  omega

/-- All the levels, the leaves first. -/
def levels (hs : List α) : List (List α) :=
  if 1 < hs.length then hs :: levels (level pair hs) else [hs]
termination_by hs.length
decreasing_by
  rw [length_level]
  omega

variable {pair} {zero : α} {hs hs' : List α}

/-- Nor are the levels. -/
theorem flatten_levels_ne_nil (h : hs ≠ []) : (levels pair hs).flatten ≠ [] := by
  rw [levels]
  split <;> simp [h]

/-- The root comes last. -/
theorem getLastD_levels (hs : List α) : (levels pair hs).flatten.getLastD zero = root pair zero hs := by
  induction hs using levels.induct pair with
  | case1 hs hlt ih =>
    have hne : level pair hs ≠ [] := level_ne_nil pair (by rintro rfl; exact absurd hlt (by simp))
    rw [levels, if_pos hlt, root, if_pos hlt, List.flatten_cons, ← ih,
      List.getLastD_eq_getLast?, List.getLastD_eq_getLast?,
      List.getLast?_append_of_ne_nil _ (flatten_levels_ne_nil hne)]
  | case2 hs hle =>
    rw [levels, if_neg hle, root, if_neg hle, List.flatten_singleton]
    match hs, hle with
    | [], _ => rfl
    | [a], _ => rfl
    | a :: b :: hs, hle => exact absurd (by simp) hle

/-! ### Branches -/

/-- The other node of the pair. -/
def sibling (i : ℕ) : ℕ := if i % 2 = 0 then i + 1 else i - 1

/-- The siblings on the way up from leaf `i`. -/
def branch (pair : α → α → α) (i : ℕ) (hs : List α) : Option (List α) :=
  if 1 < hs.length then do
    let otherside ← hs[min (sibling i) (hs.length - 1)]?
    let rest ← branch pair (i / 2) (level pair hs)
    return otherside :: rest
  else some []
termination_by hs.length
decreasing_by
  rw [length_level]
  omega

/-- From leaf `i` up, given the siblings. -/
def climb (pair : α → α → α) : ℕ → α → List α → α
  | _, a, [] => a
  | i, a, otherside :: rest =>
    climb pair (i / 2) (if i % 2 = 1 then pair otherside a else pair a otherside) rest

/-- One step up. -/
theorem getElem?_level_half {i : ℕ} {a b : α} (ha : hs[i]? = some a)
    (hb : hs[min (sibling i) (hs.length - 1)]? = some b) :
    (level pair hs)[i / 2]? = some (if i % 2 = 1 then pair b a else pair a b) := by
  have hlt : i < hs.length := (List.getElem?_eq_some_iff.mp ha).1
  unfold sibling at hb
  by_cases hodd : i % 2 = 1
  · rw [if_pos hodd]
    rw [if_neg (by omega), show min (i - 1) (hs.length - 1) = 2 * (i / 2) by omega] at hb
    refine getElem?_level pair hb ?_
    rw [show min (2 * (i / 2) + 1) (hs.length - 1) = i by omega]
    exact ha
  · rw [if_neg hodd]
    rw [if_pos (by omega)] at hb
    have heven : 2 * (i / 2) = i := by omega
    refine getElem?_level pair ?_ ?_
    · rw [heven]
      exact ha
    · rw [heven]
      exact hb

/-- **A branch leads to the root.** -/
theorem exists_branch {i : ℕ} {a : α} (h : hs[i]? = some a) :
    ∃ b, branch pair i hs = some b ∧ climb pair i a b = root pair zero hs := by
  induction hs using levels.induct pair generalizing i a with
  -- one level up, and the sibling in front
  | case1 hs hlt ih =>
    have hi : i < hs.length := (List.getElem?_eq_some_iff.mp h).1
    obtain ⟨otherside, hother⟩ : ∃ x, hs[min (sibling i) (hs.length - 1)]? = some x :=
      ⟨_, List.getElem?_eq_getElem (by omega)⟩
    obtain ⟨rest, hrest, hclimb⟩ := ih (getElem?_level_half h hother)
    refine ⟨otherside :: rest, ?_, ?_⟩
    · rw [branch, if_pos hlt, hother]
      simp [hrest]
    · rw [climb, hclimb, root.eq_def pair zero hs, if_pos hlt]
  -- the list is the root
  | case2 hs hle =>
    refine ⟨[], ?_, ?_⟩
    · rw [branch, if_neg hle]
    · have hi : i < hs.length := (List.getElem?_eq_some_iff.mp h).1
      rw [climb, root, if_neg hle]
      obtain ⟨x, rfl⟩ : ∃ x, hs = [x] := List.length_eq_one_iff.mp (by omega)
      obtain rfl : i = 0 := by simpa using hi
      simpa using h.symm

/-! ### Uniqueness -/

/-- The height of a node over the leaves. -/
inductive HeightIs (pair : α → α → α) : ℕ → α → Prop
  | leaf {x : α} (h : ∀ a b, x ≠ pair a b) : HeightIs pair 0 x
  | node {n : ℕ} {a b : α} (ha : HeightIs pair n a) (hb : HeightIs pair n b) : HeightIs pair (n + 1) (pair a b)

/-- A hash has one height. -/
theorem HeightIs.unique (hpair : Function.Injective2 pair) {n m : ℕ} {x : α} (hn : HeightIs pair n x)
    (hm : HeightIs pair m x) : n = m := by
  induction hn generalizing m with
  | leaf h =>
    cases hm with
    | leaf => rfl
    | node => exact absurd rfl (h _ _)
  | @node n a b ha hb iha ihb =>
    generalize hx : pair a b = x at hm
    cases hm with
    | leaf h => exact absurd hx.symm (h _ _)
    | node ha' hb' =>
      obtain ⟨rfl, rfl⟩ := hpair hx
      rw [iha ha']

/-- A level is one higher. -/
theorem HeightIs.level {n : ℕ} (h : ∀ x ∈ hs, HeightIs pair n x) :
    ∀ x ∈ Merkle.level pair hs, HeightIs pair (n + 1) x := by
  induction hs using level.induct with
  | case1 => simp [Merkle.level]
  | case2 a =>
    intro x hx
    rw [List.mem_singleton.mp hx]
    exact .node (h a (by simp)) (h a (by simp))
  | case3 a b hs ih =>
    intro x hx
    rcases List.mem_cons.mp hx with rfl | hx
    · exact .node (h a (by simp)) (h b (by simp))
    · exact ih (fun y hy => h y (by simp [hy])) x hx

/-- The root is above the leaves, unless there is only one. -/
theorem HeightIs.root {n : ℕ} (hne : hs ≠ []) (h : ∀ x ∈ hs, HeightIs pair n x) :
    ∃ k, HeightIs pair (n + k) (Merkle.root pair zero hs) ∧ (1 < hs.length → 0 < k) := by
  induction hs using levels.induct pair generalizing n with
  | case1 hs hlt ih =>
    obtain ⟨k, hk, -⟩ := ih (level_ne_nil pair hne) (HeightIs.level h)
    refine ⟨k + 1, ?_, fun _ => Nat.succ_pos k⟩
    rw [Merkle.root, if_pos hlt, show n + (k + 1) = n + 1 + k by omega]
    exact hk
  | case2 hs hle =>
    refine ⟨0, ?_, fun hlt => absurd hlt hle⟩
    obtain ⟨a, t, rfl⟩ := List.exists_cons_of_ne_nil hne
    rw [Merkle.root, if_neg hle]
    exact h a (by simp)

/-- Its hashes are those of pairs. -/
theorem mem_level {x : α} (hx : x ∈ level pair hs) : ∃ a ∈ hs, ∃ b ∈ hs, x = pair a b := by
  induction hs using level.induct with
  | case1 => exact absurd hx (by simp [level])
  | case2 a => exact ⟨a, by simp, a, by simp, List.mem_singleton.mp hx⟩
  | case3 a b hs ih =>
    rcases List.mem_cons.mp hx with rfl | hx
    · exact ⟨a, by simp, b, by simp, rfl⟩
    · obtain ⟨a', ha', b', hb', rfl⟩ := ih hx
      exact ⟨a', by simp [ha'], b', by simp [hb'], rfl⟩

/-- No duplicates, and there are none one level up. -/
theorem nodup_level (hpair : Function.Injective2 pair) (h : hs.Nodup) : (level pair hs).Nodup := by
  induction hs using level.induct with
  | case1 => exact List.nodup_nil
  | case2 a => exact List.nodup_singleton _
  | case3 a b hs ih =>
    rw [List.nodup_cons, List.nodup_cons] at h
    refine List.nodup_cons.mpr ⟨?_, ih h.2.2⟩
    intro hmem
    obtain ⟨a', ha', b', -, heq⟩ := mem_level hmem
    rw [(hpair heq).1] at h
    exact h.1 (List.mem_cons_of_mem b ha')

/-- A level without duplicates is read off the one above: a padded node is no pair of two nodes. -/
theorem level_injective (hpair : Function.Injective2 pair) (h : hs.Nodup) (h' : hs'.Nodup)
    (heq : level pair hs = level pair hs') : hs = hs' := by
  induction hs using level.induct generalizing hs' with
  | case1 =>
    by_contra hne
    exact level_ne_nil pair (Ne.symm hne) heq.symm
  | case2 a =>
    match hs', heq with
    | [a'], heq =>
      rw [(hpair (List.cons.inj heq).1).1]
    -- a padded node would be a pair of equal nodes
    | [a', b'], heq =>
      have hab := hpair (List.cons.inj heq).1
      exact absurd (hab.1.symm.trans hab.2) (by simpa using h')
    | a' :: b' :: c' :: rest, heq =>
      exact absurd (List.cons.inj heq).2.symm (level_ne_nil pair (by simp))
  | case3 a b hs ih =>
    match hs', heq with
    | [a'], heq =>
      have hab := hpair (List.cons.inj heq).1
      exact absurd (hab.1.trans hab.2.symm) (by simp at h; exact h.1.1)
    | a' :: b' :: rest, heq =>
      obtain ⟨hhead, htail⟩ := List.cons.inj heq
      obtain ⟨rfl, rfl⟩ := hpair hhead
      rw [ih (List.nodup_cons.mp (List.nodup_cons.mp h).2).2 (List.nodup_cons.mp (List.nodup_cons.mp h').2).2
        htail]

/-- Lists of nodes of known heights with one root. -/
theorem eq_of_root_eq (hpair : Function.Injective2 pair) {n m : ℕ} (hne : hs ≠ []) (hne' : hs' ≠ [])
    (hn : ∀ x ∈ hs, HeightIs pair n x) (hm : ∀ x ∈ hs', HeightIs pair m x) (h : hs.Nodup) (h' : hs'.Nodup)
    (hnm : n = m) (heq : root pair zero hs = root pair zero hs') : hs = hs' := by
  subst hnm
  induction hs using levels.induct pair generalizing hs' n with
  -- by the heights both lists are single nodes or neither is
  | case1 hs hlt ih =>
    by_cases hlt' : 1 < hs'.length
    · rw [root, if_pos hlt, root.eq_def pair zero hs', if_pos hlt'] at heq
      refine level_injective hpair h h' ?_
      exact ih (level_ne_nil pair hne) (level_ne_nil pair hne') (HeightIs.level hn) (nodup_level hpair h)
        (nodup_level hpair h') heq (HeightIs.level hm)
    · -- the root of one list would be a leaf of the other
      obtain ⟨k, hk, hpos⟩ : ∃ k, HeightIs pair (n + k) (root pair zero hs) ∧ (1 < hs.length → 0 < k) :=
        HeightIs.root hne hn
      obtain ⟨a, t, rfl⟩ := List.exists_cons_of_ne_nil hne'
      rw [heq, root, if_neg hlt'] at hk
      have hsame := (hm a (by simp)).unique hpair hk
      have := hpos hlt
      omega
  | case2 hs hle =>
    obtain ⟨a, t, rfl⟩ := List.exists_cons_of_ne_nil hne
    obtain rfl : t = [] := by
      cases t with
      | nil => rfl
      | cons b t => exact absurd (by simp) hle
    -- and likewise for the other list
    by_cases hlt' : 1 < hs'.length
    · obtain ⟨k, hk, hpos⟩ : ∃ k, HeightIs pair (n + k) (root pair zero hs') ∧ (1 < hs'.length → 0 < k) :=
        HeightIs.root hne' hm
      rw [← heq, root, if_neg hle] at hk
      have hsame := (hn a (by simp)).unique hpair hk
      have := hpos hlt'
      omega
    · obtain ⟨a', rfl⟩ : ∃ x, hs' = [x] :=
        List.length_eq_one_iff.mp (by have := List.length_pos_iff.mpr hne'; omega)
      rw [root, if_neg hle, root, if_neg hlt'] at heq
      rw [show a = a' from heq]

/-- **The root commits to the leaves**: no leaf is a pair, and neither list has duplicates. -/
theorem root_injective (hpair : Function.Injective2 pair) (hne : hs ≠ []) (hne' : hs' ≠ [])
    (hleaf : ∀ x ∈ hs, ∀ a b, x ≠ pair a b) (hleaf' : ∀ x ∈ hs', ∀ a b, x ≠ pair a b) (h : hs.Nodup)
    (h' : hs'.Nodup) (heq : root pair zero hs = root pair zero hs') : hs = hs' :=
  eq_of_root_eq hpair hne hne' (fun x hx => .leaf (hleaf x hx)) (fun x hx => .leaf (hleaf' x hx)) h h' rfl heq

end Framework.Merkle
