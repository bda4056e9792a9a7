import Peershares.Framework.Window
import Peershares.Model.MruSet

/-!
# The set and the queue of an `mruset`

The two are changed by statements of their own, and hold the same elements all the same: those that were new when they
were inserted, up to the oldest ones, which had to go.

A limit of zero is no limit. With any other, a row of insertions leaves as many of the newest elements as there is room
for; a call of `max_size` leaves one less than that.

* `MruSet.Holds` — what the set and the queue hold, against the row of elements that were new
* `MruSet.insert_spec`, `MruSet.maxSize_spec` — one call
* `MruSet.run_holds` — all calls
-/

open Framework

namespace Peershares

namespace MruSet

variable {α : Type} [DecidableEq α] {m : MruSet α} {r : MruSet α × List α} {x : α} {s : ℕ}

/-- What is left under a limit. -/
def keepLast (nMaxSize : ℕ) (l : List α) : List α := if nMaxSize = 0 then l else lastOf nMaxSize l

/-- The set and the queue go together, and are within the limit. -/
structure InStep (m : MruSet α) : Prop where
  same : ∀ x, x ∈ m.set ↔ x ∈ m.queue
  nodup : m.queue.Nodup
  bounded : m.nMaxSize ≠ 0 → m.queue.length ≤ m.nMaxSize

/-- They hold the newest ones of the row of elements that were new when they were inserted. -/
structure Holds (r : MruSet α × List α) : Prop extends InStep r.1 where
  recent : r.1.queue <:+ r.2

omit [DecidableEq α] in

/-- What is kept is the end of the row. -/
theorem keepLast_suffix (n : ℕ) (l : List α) : keepLast n l <:+ l := by
  unfold keepLast
  split_ifs with hzero
  · exact List.suffix_rfl
  · exact lastOf_suffix n l

/-- Without its first element. -/
theorem mem_erase_front {set : Finset α} {front : α} {queue : List α} (hsame : ∀ y, y ∈ set ↔ y ∈ front :: queue)
    (hnodup : (front :: queue).Nodup) (y : α) : y ∈ set.erase front ↔ y ∈ queue := by
  rw [Finset.mem_erase, hsame, List.mem_cons]
  constructor
  · rintro ⟨hne, hor⟩
    exact hor.resolve_left hne
  · intro hy
    refine ⟨?_, Or.inr hy⟩
    rintro rfl
    exact (List.nodup_cons.mp hnodup).1 hy

/-! ### One call -/

/-- Inserting what is there changes nothing. -/
theorem insert_of_mem (h : InStep m) (hx : x ∈ m.queue) : m.insert x = (false, m) := by
  unfold insert
  rw [if_pos ((h.same x).mpr hx)]

/-- An element that is there changes neither the set nor the row. -/
theorem call_insert_of_mem (h : InStep r.1) (hx : x ∈ r.1.queue) : call r (.insert x) = r := by
  rw [call, insert_of_mem h hx, if_pos ((h.same x).mpr hx)]

/-- A new element joins the row. -/
theorem call_insert_row (h : InStep r.1) (hx : x ∉ r.1.queue) : (call r (.insert x)).2 = r.2 ++ [x] :=
  if_neg fun hmem => hx ((h.same x).mp hmem)

/-- **`insert`** of a new element: it is the last one now, and the first one goes when there is no room. -/
theorem insert_spec (h : InStep m) (hx : x ∉ m.queue) :
    (m.insert x).1 = true ∧ (m.insert x).2.nMaxSize = m.nMaxSize ∧
      (m.insert x).2.queue = keepLast m.nMaxSize (m.queue ++ [x]) ∧ InStep (m.insert x).2 := by
  -- it is not in the set either, so `insert` adds it
  have hset : x ∉ m.set := fun hmem => hx ((h.same x).mp hmem)
  have hadded : ∀ y, y ∈ Insert.insert x m.set ↔ y ∈ m.queue ++ [x] := by
    intro y
    rw [Finset.mem_insert, h.same, List.mem_append, List.mem_singleton, or_comm]
  have hnodup : (m.queue ++ [x]).Nodup :=
    List.nodup_append.mpr ⟨h.nodup, List.nodup_singleton x, fun a ha b hb hab => by
      rw [List.mem_singleton] at hb
      exact hx (hb ▸ hab ▸ ha)⟩
  have hqueue : (m.insert x).2.queue = keepLast m.nMaxSize (m.queue ++ [x]) ∧
      (m.insert x).1 = true ∧ (m.insert x).2.nMaxSize = m.nMaxSize ∧
      ∀ y, y ∈ (m.insert x).2.set ↔ y ∈ (m.insert x).2.queue := by
    unfold insert keepLast
    rw [if_neg hset]
    cases hq : m.queue with
    | nil =>
      rw [hq] at hadded
      refine ⟨?_, rfl, rfl, hadded⟩
      change [x] = if m.nMaxSize = 0 then [x] else lastOf m.nMaxSize [x]
      split_ifs with hzero
      · rfl
      · exact (lastOf_of_le (Nat.one_le_iff_ne_zero.mpr hzero)).symm
    | cons front rest =>
      rw [hq] at hadded hnodup
      have hwindow := lastOf_of_le (l := m.queue) (n := m.nMaxSize)
      rw [hq] at hwindow
      simp only
      split_ifs with hfull hzero hzero
      · exact absurd hzero hfull.1
      · -- the first element goes
        refine ⟨?_, rfl, rfl, mem_erase_front hadded hnodup⟩
        rw [lastOf_concat (by omega), hwindow hfull.2.le, if_pos hfull.2]
        rfl
      · exact ⟨rfl, rfl, rfl, hadded⟩
      · refine ⟨?_, rfl, rfl, hadded⟩
        have hle := h.bounded hzero
        rw [hq] at hle
        rw [lastOf_concat (by omega), hwindow hle, if_neg fun hlen => hfull ⟨hzero, hlen⟩]
  -- the two fields stay in step
  obtain ⟨hqueue, hnew, hmax, hsame⟩ := hqueue
  refine ⟨hnew, hmax, hqueue, hsame, ?_, fun hne => ?_⟩
  · rw [hqueue]
    exact hnodup.sublist (keepLast_suffix _ _).sublist
  · rw [hmax] at hne ⊢
    rw [hqueue, keepLast, if_neg hne, length_lastOf]
    exact min_le_right _ _

/-- The loop of `max_size` leaves less than `s` elements. -/
theorem shrink_spec {set : Finset α} {queue : List α} (hsame : ∀ y, y ∈ set ↔ y ∈ queue)
    (hnodup : queue.Nodup) :
    (shrink s set queue).2 = lastOf (s - 1) queue ∧
      ∀ y, y ∈ (shrink s set queue).1 ↔ y ∈ (shrink s set queue).2 := by
  induction queue generalizing set with
  | nil => exact ⟨(lastOf_of_le (Nat.zero_le _)).symm, hsame⟩
  | cons front queue ih =>
    rw [shrink]
    split_ifs with hmany
    · obtain ⟨hqueue, hset⟩ := ih (mem_erase_front hsame hnodup) (List.nodup_cons.mp hnodup).2
      refine ⟨?_, hset⟩
      rw [hqueue]
      rw [List.length_cons] at hmany
      have hsub : (front :: queue).length - (s - 1) = queue.length - (s - 1) + 1 := by
        rw [List.length_cons]
        omega
      unfold lastOf
      rw [hsub, List.drop_succ_cons]
    · have hfew : (front :: queue).length ≤ s - 1 := by
        rw [not_le] at hmany
        omega
      exact ⟨(lastOf_of_le hfew).symm, hsame⟩

/-- **`max_size`**. -/
theorem maxSize_spec (h : InStep m) (s : ℕ) :
    (m.maxSize s).queue = (if s = 0 then m.queue else lastOf (s - 1) m.queue) ∧ InStep (m.maxSize s) := by
  unfold maxSize
  by_cases hs : s = 0
  · rw [if_neg (not_not.mpr hs), if_pos hs]
    exact ⟨rfl, h.same, h.nodup, fun hne => absurd hs hne⟩
  · obtain ⟨hqueue, hsame⟩ := shrink_spec (s := s) h.same h.nodup
    rw [if_pos hs, if_neg hs]
    refine ⟨hqueue, hsame, ?_, fun _ => ?_⟩
    · change (shrink s m.set m.queue).2.Nodup
      rw [hqueue]
      exact h.nodup.sublist (lastOf_suffix _ _).sublist
    · change (shrink s m.set m.queue).2.length ≤ s
      rw [hqueue, length_lastOf]
      omega

/-! ### All calls -/

/-- One call, by cases on it. -/
theorem Holds.call (h : Holds r) (c : Call α) : Holds (MruSet.call r c) := by
  cases c with
  | insert x =>
    by_cases hx : x ∈ r.1.queue
    · rw [call_insert_of_mem h.toInStep hx]
      exact h
    · obtain ⟨-, -, hqueue, hstep⟩ := insert_spec h.toInStep hx
      refine ⟨hstep, ?_⟩
      rw [call_insert_row h.toInStep hx]
      change (r.1.insert x).2.queue <:+ r.2 ++ [x]
      rw [hqueue]
      obtain ⟨gone, hgone⟩ := h.recent
      exact (keepLast_suffix _ _).trans ⟨gone, by rw [← List.append_assoc, hgone]⟩
  | maxSize s =>
    obtain ⟨hqueue, hstep⟩ := maxSize_spec h.toInStep s
    refine ⟨hstep, ?_⟩
    change (r.1.maxSize s).queue <:+ r.2
    rw [hqueue]
    split_ifs with hzero
    · exact h.recent
    · exact (lastOf_suffix _ _).trans h.recent

/-- A row of calls, by induction on the row. -/
theorem Holds.run (h : Holds r) (calls : List (Call α)) : Holds (MruSet.run r calls) := by
  unfold MruSet.run
  induction calls generalizing r with
  | nil => exact h
  | cons c calls ih => exact ih (h.call c)

end MruSet

end Peershares
