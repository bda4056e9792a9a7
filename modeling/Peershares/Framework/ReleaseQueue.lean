import Mathlib.Data.Finset.Basic
import Mathlib.Data.List.Perm.Basic
import Peershares.Framework.Assoc

/-!
# A queue of tasks that wait for each other

Every task needs a set of keys. A task without needs is ready; the others wait. A ready task is taken out and
processed, and it may produce a key; the key is then crossed off in every waiting task that is listed under it,
and a task with nothing left to wait for gets ready. Waiting tasks are never moved: they are found by their
index, as a C++ program keeps pointers into a `std::list`.

* `Inv` — the invariant, with `Inv.push`, `Inv.pop` and `Inv.release` for the operations
* `exists_drain` — the queue runs empty after as many rounds as there are tasks
* `drain_spec` — every task is processed once or waits at the end for a key that was not produced; a task is
  processed after those that produced what it needs, and before those that are worse and could be processed too
-/

open scoped List

namespace Framework

variable {K T S E : Type} [DecidableEq K]

/-- A task, and the keys it still waits for. -/
structure Waiting (K T : Type) where
  task : T
  needs : Finset K

structure ReleaseQueue (K T : Type) where
  waiting : List (Waiting K T) := []
  /-- The indices in `waiting` of the tasks that need a key; a task that needs it twice is there twice. -/
  dependers : Map K (List ℕ) := ∅
  ready : List T := []

namespace ReleaseQueue

/-- `dependers[k]`. -/
def dependersOf (q : ReleaseQueue K T) (k : K) : List ℕ := (q.dependers.lookup k).getD []

/-- A new task with what it needs, in the order in which that is found out. -/
def push (insert : T → List T → List T) (needs : List K) (task : T) (q : ReleaseQueue K T) : ReleaseQueue K T :=
  if needs = [] then { q with ready := insert task q.ready }
  else
    { q with
      waiting := q.waiting ++ [⟨task, needs.toFinset⟩]
      dependers := needs.foldl
        (fun m k => m.insert k ((m.lookup k).getD [] ++ [q.waiting.length])) q.dependers }

/-- The key `k` is crossed off for the task with index `i`; nothing happens to a task that is ready already. -/
def releaseAt (insert : T → List T → List T) (k : K) (q : ReleaseQueue K T) (i : ℕ) : ReleaseQueue K T :=
  match q.waiting[i]? with
  | none => q
  | some w =>
    if w.needs = ∅ then q
    else
      { q with
        waiting := q.waiting.set i ⟨w.task, w.needs.erase k⟩
        ready := if w.needs.erase k = ∅ then insert w.task q.ready else q.ready }

/-- The key `k` has been produced. -/
def release (insert : T → List T → List T) (k : K) (q : ReleaseQueue K T) : ReleaseQueue K T :=
  (q.dependersOf k).foldl (releaseAt insert k) q

/-- What a processed task has produced is crossed off. -/
def advance (insert : T → List T → List T) (q : ReleaseQueue K T) : Option K → ReleaseQueue K T
  | none => q
  | some k => q.release insert k

/-- `while (!ready.empty())`, for a number of rounds; `none` when they are not enough. -/
def drain (insert : T → List T → List T) (process : S → T → Except E (S × Option K)) :
    ℕ → S → ReleaseQueue K T → Option (Except E S)
  | 0, s, q => if q.ready = [] then some (.ok s) else none
  | fuel + 1, s, q =>
    match q.ready with
    | [] => some (.ok s)
    | task :: ready =>
      match process s task with
      | .error e => some (.error e)
      | .ok (s', key) => drain insert process fuel s' ({ q with ready }.advance insert key)

/-! ### The invariant -/

/-- Insertion into a row that is sorted by `r`. -/
structure SortedInsert (r : T → T → Prop) (insert : T → List T → List T) : Prop where
  perm : ∀ task ready, (insert task ready).Perm (task :: ready)
  sorted : ∀ task ready, ready.Pairwise r → (insert task ready).Pairwise r

/-- The tasks that still wait for something. -/
def blocked (q : ReleaseQueue K T) : List T := (q.waiting.filter (fun w => w.needs ≠ ∅)).map Waiting.task

/-- The queue of the tasks `tasks`, which need `deps`, when `done` are processed and `produced` are produced. -/
structure Inv (r : T → T → Prop) (deps : T → List K) (tasks done : List T) (produced : List K)
    (q : ReleaseQueue K T) : Prop where
  perm : (done ++ (q.ready ++ q.blocked)).Perm tasks
  sorted : q.ready.Pairwise r
  available : ∀ task ∈ q.ready, ∀ k ∈ deps task, k ∈ produced
  needs : ∀ w ∈ q.waiting, w.needs = (deps w.task).toFinset \ produced.toFinset
  listed : ∀ i w, q.waiting[i]? = some w → ∀ k ∈ deps w.task, i ∈ q.dependersOf k

variable {r : T → T → Prop} {deps : T → List K} {tasks done : List T} {produced : List K}
  {insert : T → List T → List T} {q : ReleaseQueue K T} {k : K} {i : ℕ} {task : T}

/-- No tasks. -/
theorem Inv.empty (r : T → T → Prop) (deps : T → List K) : Inv r deps [] [] [] ({} : ReleaseQueue K T) where
  perm := List.Perm.refl _
  sorted := List.Pairwise.nil
  available := fun _ h => absurd h List.not_mem_nil
  needs := fun _ h => absurd h List.not_mem_nil
  listed := fun i w h => by simp at h

/-- What is blocked waits for a key that was not produced. -/
theorem Inv.exists_missing (h : Inv r deps tasks done produced q) (hmem : task ∈ q.blocked) :
    ∃ k ∈ deps task, k ∉ produced := by
  obtain ⟨w, hw, rfl⟩ := List.mem_map.mp hmem
  obtain ⟨hw, hne⟩ := List.mem_filter.mp hw
  rw [decide_eq_true_eq, h.needs w hw] at hne
  obtain ⟨k, hk⟩ := Finset.nonempty_iff_ne_empty.mpr hne
  rw [Finset.mem_sdiff, List.mem_toFinset, List.mem_toFinset] at hk
  exact ⟨k, hk⟩

/-! ### `push` -/

/-- The index of a new task is listed under everything it needs, and no index gets lost. -/
theorem mem_dependers_foldl {n : ℕ} (needs : List K) (m : Map K (List ℕ)) :
    i ∈ ((needs.foldl (fun m k => m.insert k ((m.lookup k).getD [] ++ [n])) m).lookup k).getD [] ↔
      i ∈ (m.lookup k).getD [] ∨ (i = n ∧ k ∈ needs) := by
  induction needs generalizing m with
  | nil => simp
  | cons k₀ needs ih =>
    rw [List.foldl_cons, ih, Map.lookup_insert_eq]
    by_cases hk : k = k₀
    · subst hk
      simp only [if_true, Option.getD_some, List.mem_append, List.mem_cons, true_or, and_true]
      tauto
    · simp [hk]

/-- A task with no needs is ready, any other waits. -/
theorem Inv.push (hinsert : SortedInsert r insert) (h : Inv r deps tasks [] [] q) (task : T) :
    Inv r deps (tasks ++ [task]) [] [] (q.push insert (deps task) task) := by
  have hperm : (q.ready ++ q.blocked).Perm tasks := h.perm
  unfold ReleaseQueue.push
  split_ifs with hneeds
  · -- nothing to wait for: the task is ready
    refine ⟨?_, hinsert.sorted _ _ h.sorted, ?_, h.needs, h.listed⟩
    · calc
        insert task q.ready ++ q.blocked ~ (task :: q.ready) ++ q.blocked := (hinsert.perm _ _).append_right _
        _ ~ task :: tasks := hperm.cons task
        _ ~ tasks ++ [task] := (List.perm_append_singleton task tasks).symm
    · intro t ht k hk
      rcases List.mem_cons.mp ((hinsert.perm _ _).mem_iff.mp ht) with rfl | ht
      · rw [hneeds] at hk
        exact hk
      · exact h.available t ht k hk
  · -- the task waits, behind those that wait already
    have hne : (deps task).toFinset ≠ ∅ := by rwa [Ne, List.toFinset_eq_empty_iff]
    refine ⟨?_, h.sorted, h.available, ?_, ?_⟩
    · unfold blocked
      rw [List.filter_append, List.filter_cons_of_pos (by simpa using hne), List.filter_nil, List.map_append,
        List.nil_append, ← List.append_assoc]
      exact hperm.append_right _
    · intro w hw
      rcases List.mem_append.mp hw with hw | hw
      · exact h.needs w hw
      · rw [List.mem_singleton.mp hw]
        simp
    · intro i w hi k hk
      refine (mem_dependers_foldl _ _).mpr ?_
      rw [List.getElem?_append] at hi
      split_ifs at hi with hlt
      · exact Or.inl (h.listed i w hi k hk)
      · rw [List.getElem?_singleton] at hi
        split_ifs at hi with hzero
        cases hi
        exact Or.inr ⟨by omega, hk⟩

/-- The queue of a row of tasks. -/
theorem Inv.foldl_push (hinsert : SortedInsert r insert) (new : List T) (h : Inv r deps tasks [] [] q) :
    Inv r deps (tasks ++ new) [] [] (new.foldl (fun q task => q.push insert (deps task) task) q) := by
  induction new generalizing tasks q with
  | nil => simpa using h
  | cons task new ih =>
    have hnext := ih (h.push hinsert task)
    rwa [List.append_assoc] at hnext

/-! ### `release` -/

/-- What holds while the key `k` is crossed off, one waiting task after the other. -/
structure Releasing (r : T → T → Prop) (deps : T → List K) (tasks done : List T) (produced : List K) (k : K)
    (q : ReleaseQueue K T) : Prop where
  perm : (done ++ (q.ready ++ q.blocked)).Perm tasks
  sorted : q.ready.Pairwise r
  available : ∀ task ∈ q.ready, ∀ k' ∈ deps task, k' ∈ k :: produced
  needs : ∀ w ∈ q.waiting, (deps w.task).toFinset \ (k :: produced).toFinset ⊆ w.needs

/-- One key less in one waiting task: the task stays blocked or is blocked no more. -/
theorem blocked_set {waiting : List (Waiting K T)} {w : Waiting K T} (hi : waiting[i]? = some w)
    (hne : w.needs ≠ ∅) (needs : Finset K) :
    ((waiting.filter (fun w => w.needs ≠ ∅)).map Waiting.task).Perm
      ((if needs = ∅ then [w.task] else []) ++
        ((waiting.set i ⟨w.task, needs⟩).filter (fun w => w.needs ≠ ∅)).map Waiting.task) := by
  obtain ⟨hlt, rfl⟩ := List.getElem?_eq_some_iff.mp hi
  -- the task, between those before and those behind
  have hsplit : waiting = waiting.take i ++ waiting[i] :: waiting.drop (i + 1) := by
    rw [List.cons_getElem_drop_succ, List.take_append_drop]
  have hset : waiting.set i ⟨waiting[i].task, needs⟩ =
      waiting.take i ++ ⟨waiting[i].task, needs⟩ :: waiting.drop (i + 1) :=
    List.set_eq_take_append_cons_drop ▸ if_pos hlt
  rw [hset]
  nth_rewrite 1 [hsplit]
  rw [List.filter_append, List.filter_append, List.filter_cons_of_pos (by simpa using hne), List.map_append,
    List.map_append, List.map_cons]
  -- its last need is crossed off, so it leaves the blocked ones
  by_cases hempty : needs = ∅
  · rw [if_pos hempty, List.filter_cons_of_neg (by simpa using hempty)]
    exact List.perm_middle
  · rw [if_neg hempty, List.filter_cons_of_pos (by simpa using hempty), List.map_cons]
    exact List.Perm.refl _

/-- One depender of the key is released from it. -/
theorem Releasing.one (hinsert : SortedInsert r insert) (h : Releasing r deps tasks done produced k q)
    (i : ℕ) : Releasing r deps tasks done produced k (q.releaseAt insert k i) := by
  unfold ReleaseQueue.releaseAt
  -- the place of the depender
  cases hi : q.waiting[i]? with
  | none => exact h
  | some w =>
    dsimp only
    -- one that is released already is left alone
    by_cases hempty : w.needs = ∅
    · rwa [if_pos hempty]
    rw [if_neg hempty]
    have hw := h.needs w (List.mem_of_getElem? hi)
    have hsubset : (deps w.task).toFinset \ (k :: produced).toFinset ⊆ w.needs.erase k := by
      intro k' hk'
      refine Finset.mem_erase.mpr ⟨?_, hw hk'⟩
      rintro rfl
      simp at hk'
    have hmoved := blocked_set hi hempty (w.needs.erase k)
    have hneeds : ∀ w' ∈ q.waiting.set i ⟨w.task, w.needs.erase k⟩,
        (deps w'.task).toFinset \ (k :: produced).toFinset ⊆ w'.needs := by
      intro w' hw'
      rcases List.mem_or_eq_of_mem_set hw' with hw' | rfl
      · exact h.needs w' hw'
      · exact hsubset
    by_cases hnow : w.needs.erase k = ∅
    · -- the task has nothing left to wait for
      rw [if_pos hnow] at hmoved ⊢
      refine ⟨List.Perm.trans (List.Perm.append_left done ?_) h.perm, hinsert.sorted _ _ h.sorted, ?_, hneeds⟩
      · calc
          insert w.task q.ready ++ _ ~ (w.task :: q.ready) ++ _ := (hinsert.perm _ _).append_right _
          _ ~ q.ready ++ ([w.task] ++ _) := List.perm_middle.symm
          _ ~ q.ready ++ q.blocked := hmoved.symm.append_left q.ready
      · intro t ht
        rcases List.mem_cons.mp ((hinsert.perm _ _).mem_iff.mp ht) with rfl | ht
        · intro k' hk'
          by_contra hmissing
          have hmem : k' ∈ w.needs.erase k :=
            hsubset (Finset.mem_sdiff.mpr ⟨List.mem_toFinset.mpr hk', by simpa using hmissing⟩)
          rw [hnow] at hmem
          exact absurd hmem (Finset.notMem_empty k')
        · exact h.available t ht
    · -- otherwise it waits for the rest
      rw [if_neg hnow] at hmoved ⊢
      exact ⟨List.Perm.trans (List.Perm.append_left done (hmoved.symm.append_left q.ready)) h.perm, h.sorted,
        h.available, hneeds⟩

/-- And so all of them, by induction on the row. -/
theorem Releasing.foldl (hinsert : SortedInsert r insert) (is : List ℕ)
    (h : Releasing r deps tasks done produced k q) :
    Releasing r deps tasks done produced k (is.foldl (releaseAt insert k) q) := by
  induction is generalizing q with
  | nil => exact h
  | cons i is ih => exact ih (h.one hinsert i)

/-- What `releaseAt` does to the waiting tasks: the key is crossed off in one of them. -/
theorem getElem?_releaseAt (i j : ℕ) : (q.releaseAt insert k i).waiting[j]? =
    if j = i then (q.waiting[j]?).map (fun w => ⟨w.task, w.needs.erase k⟩) else q.waiting[j]? := by
  unfold ReleaseQueue.releaseAt
  cases hi : q.waiting[i]? with
  | none =>
    split_ifs with hji
    · rw [hji, hi]
      rfl
    · rfl
  | some w =>
    dsimp only
    by_cases hempty : w.needs = ∅
    · -- a task that waits for nothing has no key to cross off
      rw [if_pos hempty]
      split_ifs with hji
      · obtain ⟨task, needs⟩ := w
        obtain rfl : needs = ∅ := hempty
        rw [hji, hi, Option.map_some, Finset.erase_empty]
      · rfl
    · rw [if_neg hempty]
      by_cases hji : j = i
      · rw [if_pos hji, hji, hi]
        exact List.getElem?_set_self (List.getElem?_eq_some_iff.mp hi).1
      · rw [if_neg hji]
        exact List.getElem?_set_ne (Ne.symm hji)

/-- The waiting tasks after some are released. -/
theorem getElem?_foldl_releaseAt (is : List ℕ) (j : ℕ) :
    (is.foldl (releaseAt insert k) q).waiting[j]? =
      if j ∈ is then (q.waiting[j]?).map (fun w => ⟨w.task, w.needs.erase k⟩) else q.waiting[j]? := by
  induction is generalizing q with
  | nil => simp
  | cons i is ih =>
    rw [List.foldl_cons, ih, getElem?_releaseAt]
    by_cases hji : j = i
    · subst hji
      simp [Function.comp_def]
    · simp [hji]

/-- The dependers of a key are not changed by that. -/
theorem dependersOf_foldl_releaseAt (is : List ℕ) (k' : K) :
    (is.foldl (releaseAt insert k) q).dependersOf k' = q.dependersOf k' := by
  induction is generalizing q with
  | nil => rfl
  | cons i is ih =>
    rw [List.foldl_cons, ih]
    unfold ReleaseQueue.releaseAt
    split
    · rfl
    · split_ifs <;> rfl

/-- **A key is produced**: it is crossed off everywhere, and what waits for nothing more is ready. -/
theorem Inv.release (hinsert : SortedInsert r insert) (h : Inv r deps tasks done produced q) (k : K) :
    Inv r deps tasks done (k :: produced) (q.release insert k) := by
  have hstart : Releasing r deps tasks done produced k q := by
    refine ⟨h.perm, h.sorted, fun t ht k' hk' => List.mem_cons_of_mem _ (h.available t ht k' hk'), ?_⟩
    intro w hw
    rw [h.needs w hw]
    refine Finset.sdiff_subset_sdiff (Finset.Subset.refl _) ?_
    rw [List.toFinset_cons]
    exact Finset.subset_insert _ _
  have hend := hstart.foldl hinsert (q.dependersOf k)
  -- where a waiting task comes from
  have hfrom : ∀ (i : ℕ) (w : Waiting K T), (q.release insert k).waiting[i]? = some w →
      ∃ w₀, q.waiting[i]? = some w₀ ∧ w.task = w₀.task ∧ w.needs = w₀.needs.erase k := by
    intro i w hi
    unfold ReleaseQueue.release at hi
    rw [getElem?_foldl_releaseAt] at hi
    split_ifs at hi with hlisted
    · obtain ⟨w₀, hw₀, rfl⟩ := Option.map_eq_some_iff.mp hi
      exact ⟨w₀, hw₀, rfl, rfl⟩
    · -- the task is not listed under the key, so it does not need it
      refine ⟨w, hi, rfl, (Finset.erase_eq_of_notMem ?_).symm⟩
      rw [h.needs w (List.mem_of_getElem? hi), Finset.mem_sdiff, List.mem_toFinset]
      exact fun hmem => hlisted (h.listed i w hi k hmem.1)
  refine ⟨hend.perm, hend.sorted, hend.available, ?_, ?_⟩
  · intro w hw
    obtain ⟨i, hi⟩ := List.mem_iff_getElem?.mp hw
    obtain ⟨w₀, hw₀, htask, hneeds⟩ := hfrom i w hi
    rw [hneeds, h.needs w₀ (List.mem_of_getElem? hw₀), htask, List.toFinset_cons, Finset.sdiff_insert]
  · intro i w hi k' hk'
    obtain ⟨w₀, hw₀, htask, -⟩ := hfrom i w hi
    unfold ReleaseQueue.release
    rw [dependersOf_foldl_releaseAt]
    exact h.listed i w₀ hw₀ k' (htask ▸ hk')

/-! ### `drain` -/

/-- The head of the queue is taken out. -/
theorem Inv.pop (h : Inv r deps tasks done produced q) {ready : List T} (hready : q.ready = task :: ready) :
    Inv r deps tasks (done ++ [task]) produced { q with ready } := by
  have hperm := h.perm
  have hsorted := h.sorted
  rw [hready] at hperm hsorted
  refine ⟨?_, (List.pairwise_cons.mp hsorted).2, fun t ht => h.available t ?_, h.needs, h.listed⟩
  · rw [List.append_assoc]
    exact hperm
  · rw [hready]
    exact List.mem_cons_of_mem _ ht

/-- One round: the key of the task done releases its dependers. -/
theorem Inv.advance (hinsert : SortedInsert r insert) (h : Inv r deps tasks done produced q) (key : Option K) :
    Inv r deps tasks done (key.toList ++ produced) (q.advance insert key) := by
  cases key with
  | none => exact h
  | some k => exact h.release hinsert k

/-- A task that was not processed yet, and could be, is ready. -/
theorem Inv.mem_ready (h : Inv r deps tasks done produced q) {later : List T}
    (hlater : (done ++ later).Perm tasks) (hmem : task ∈ later) (havailable : ∀ k ∈ deps task, k ∈ produced) :
    task ∈ q.ready := by
  have hsame : later.Perm (q.ready ++ q.blocked) :=
    (List.perm_append_left_iff done).mp (hlater.trans h.perm.symm)
  rcases List.mem_append.mp (hsame.mem_iff.mp hmem) with hready | hblocked
  · exact hready
  · obtain ⟨k, hk, hmissing⟩ := h.exists_missing hblocked
    exact absurd (havailable k hk) hmissing

variable {process : S → T → Except E (S × Option K)} {s s' : S} {history : List (T × Option K)}

/-- A history: the tasks in the order in which they were processed, each with the key it produced. -/
inductive Processed (process : S → T → Except E (S × Option K)) : S → List (T × Option K) → S → Prop
  | nil (s : S) : Processed process s [] s
  | cons {s s₁ s' : S} {task : T} {key : Option K} {history : List (T × Option K)}
      (hstep : process s task = .ok (s₁, key)) (hrest : Processed process s₁ history s') :
      Processed process s ((task, key) :: history) s'

/-- When a task is processed everything it needs has been produced, and no task that was ready as well should
have come before it. -/
def Ordered (r : T → T → Prop) (deps : T → List K) : List K → List (T × Option K) → Prop
  | _, [] => True
  | produced, (task, key) :: history =>
    (∀ k ∈ deps task, k ∈ produced) ∧
      (∀ e ∈ history, (∀ k ∈ deps e.1, k ∈ produced) → r task e.1) ∧
      Ordered r deps (key.toList ++ produced) history

/-- The keys that were produced. -/
def keysOf (history : List (T × Option K)) : List K := history.filterMap Prod.snd

omit [DecidableEq K] in

/-- The keys of one more round. -/
theorem keysOf_cons {key : Option K} : keysOf ((task, key) :: history) = key.toList ++ keysOf history := by
  cases key <;> rfl

omit [DecidableEq K] in

/-- A key of the first round or of the others. -/
theorem mem_keysOf_cons {key : Option K} : k ∈ keysOf ((task, key) :: history) ↔
    k ∈ key.toList ∨ k ∈ keysOf history := by
  rw [keysOf_cons, List.mem_append]

/-- What a run of the queue leaves: the history of what was processed, and the tasks left over, each of which
waits for a key that was not produced. -/
structure Drained (r : T → T → Prop) (deps : T → List K) (process : S → T → Except E (S × Option K))
    (tasks done : List T) (produced : List K) (s : S) (history : List (T × Option K)) (s' : S) : Prop where
  processed : Processed process s history s'
  ordered : Ordered r deps produced history
  left : ∃ left, (done ++ (history.map Prod.fst ++ left)).Perm tasks ∧
    ∀ task ∈ left, ∃ k ∈ deps task, k ∉ produced ∧ k ∉ keysOf history

/-- **Enough rounds.** A run takes at most as many rounds as there are tasks that were not processed, so it ends,
without an error when no task makes one. -/
theorem exists_drain (hinsert : SortedInsert r insert) (h : Inv r deps tasks done produced q)
    (hprocess : ∀ s, ∀ task ∈ tasks, ∃ out, process s task = .ok out) {fuel : ℕ}
    (hfuel : tasks.length ≤ done.length + fuel) : ∃ s', drain insert process fuel s q = some (.ok s') := by
  induction fuel generalizing s q done produced with
  | zero =>
    -- everything is processed, so nothing is ready
    have hlen := h.perm.length_eq
    simp only [List.length_append] at hlen
    have hready : q.ready = [] := List.eq_nil_of_length_eq_zero (by omega)
    exact ⟨s, by simp [drain, hready]⟩
  | succ fuel ih =>
    rw [drain]
    cases hready : q.ready with
    | nil => exact ⟨s, rfl⟩
    | cons task ready =>
      have hmem : task ∈ tasks := by
        refine h.perm.mem_iff.mp (List.mem_append_right _ (List.mem_append_left _ ?_))
        rw [hready]
        exact List.mem_cons_self
      obtain ⟨out, hstep⟩ := hprocess s task hmem
      simp only [hstep]
      refine ih ((h.pop hready).advance hinsert out.2) ?_
      rw [List.length_append, List.length_singleton]
      omega

/-- When no task is ready, the queue is drained. -/
theorem Inv.drained_nil (h : Inv r deps tasks done produced q) (hready : q.ready = []) :
    Drained r deps process tasks done produced s [] s where
  processed := Processed.nil s
  ordered := trivial
  left := by
    have hperm := h.perm
    rw [hready] at hperm
    refine ⟨q.blocked, hperm, fun task htask => ?_⟩
    obtain ⟨k, hk, hmissing⟩ := h.exists_missing htask
    exact ⟨k, hk, hmissing, List.not_mem_nil⟩

/-- One round in front of a run. -/
theorem Inv.drained_cons {s₁ : S} {ready : List T} {key : Option K} (h : Inv r deps tasks done produced q)
    (hready : q.ready = task :: ready) (hstep : process s task = .ok (s₁, key))
    (hrest : Drained r deps process tasks (done ++ [task]) (key.toList ++ produced) s₁ history s') :
    Drained r deps process tasks done produced s ((task, key) :: history) s' := by
  obtain ⟨left, hperm, hleft⟩ := hrest.left
  refine ⟨hrest.processed.cons hstep, ⟨h.available task ?_, fun e he havailable => ?_, hrest.ordered⟩,
    left, ?_, fun t ht => ?_⟩
  · rw [hready]
    exact List.mem_cons_self
  · -- what is processed later and was ready is behind `task` in the sorted row
    have hmem : e.1 ∈ ready :=
      (h.pop hready).mem_ready hperm (List.mem_append_left _ (List.mem_map_of_mem he)) havailable
    have hsorted := h.sorted
    rw [hready] at hsorted
    exact (List.pairwise_cons.mp hsorted).1 e.1 hmem
  · rwa [List.append_assoc] at hperm
  · obtain ⟨k, hk, hmissing, hnot⟩ := hleft t ht
    rw [List.mem_append, not_or] at hmissing
    exact ⟨k, hk, hmissing.2, fun hmem => (mem_keysOf_cons.mp hmem).elim hmissing.1 hnot⟩

/-- **A run of the queue.** Every task is processed once or is left over, in the order of `Ordered`. -/
theorem drain_spec (hinsert : SortedInsert r insert) (h : Inv r deps tasks done produced q) {fuel : ℕ}
    (hdrain : drain insert process fuel s q = some (.ok s')) :
    ∃ history, Drained r deps process tasks done produced s history s' := by
  induction fuel generalizing s q done produced with
  | zero =>
    rw [drain] at hdrain
    split_ifs at hdrain with hready
    cases hdrain
    exact ⟨[], h.drained_nil hready⟩
  | succ fuel ih =>
    rw [drain] at hdrain
    cases hready : q.ready with
    -- no task is ready: the run is over
    | nil =>
      simp only [hready] at hdrain
      cases hdrain
      exact ⟨[], h.drained_nil hready⟩
    -- the first ready task is processed, and releases what waited for it
    | cons task ready =>
      simp only [hready] at hdrain
      cases hstep : process s task with
      | error e =>
        rw [hstep] at hdrain
        cases hdrain
      | ok out =>
        rw [hstep] at hdrain
        obtain ⟨history, hrest⟩ := ih ((h.pop hready).advance hinsert out.2) hdrain
        exact ⟨(task, out.2) :: history, h.drained_cons hready hstep hrest⟩

/-! ### What was processed -/

omit [DecidableEq K] in
/-- A task that was processed had everything it needs. -/
theorem Ordered.deps_produced (h : Ordered r deps produced history) {e : T × Option K} (he : e ∈ history) :
    ∀ k ∈ deps e.1, k ∈ produced ∨ k ∈ keysOf history := by
  induction history generalizing produced with
  | nil => exact absurd he List.not_mem_nil
  | cons first history ih =>
    obtain ⟨task, key⟩ := first
    intro k hk
    rw [mem_keysOf_cons]
    rcases List.mem_cons.mp he with rfl | he
    · exact Or.inl (h.1 k hk)
    · rcases ih h.2.2 he k hk with hmem | hmem
      · exact (List.mem_append.mp hmem).elim (fun h => Or.inr (Or.inl h)) Or.inl
      · exact Or.inr (Or.inr hmem)

omit [DecidableEq K] in
/-- A round in the middle of a history. -/
theorem Ordered.of_append {before after : List (T × Option K)} {key : Option K}
    (h : Ordered r deps produced (before ++ (task, key) :: after)) :
    (∀ k ∈ deps task, k ∈ produced ∨ k ∈ keysOf before) ∧
      ∀ e ∈ after, (∀ k ∈ deps e.1, k ∈ produced ∨ k ∈ keysOf before) → r task e.1 := by
  induction before generalizing produced with
  | nil =>
    refine ⟨fun k hk => Or.inl (h.1 k hk), fun e he hall => h.2.1 e he fun k hk => ?_⟩
    exact (hall k hk).resolve_right List.not_mem_nil
  | cons first before ih =>
    obtain ⟨task₀, key₀⟩ := first
    obtain ⟨hdeps, hbest⟩ := ih h.2.2
    have hmove : ∀ k : K, (k ∈ key₀.toList ++ produced ∨ k ∈ keysOf before) ↔
        (k ∈ produced ∨ k ∈ keysOf ((task₀, key₀) :: before)) := by
      intro k
      rw [keysOf_cons, List.mem_append, List.mem_append, or_comm (a := k ∈ key₀.toList), or_assoc]
    exact ⟨fun k hk => (hmove k).mp (hdeps k hk),
      fun e he hall => hbest e he fun k hk => (hmove k).mpr (hall k hk)⟩

omit [DecidableEq K] in
/-- **Exactly what can be processed is.** -/
theorem Drained.mem_iff (h : Drained r deps process tasks [] [] s history s') :
    task ∈ history.map Prod.fst ↔ task ∈ tasks ∧ ∀ k ∈ deps task, k ∈ keysOf history := by
  obtain ⟨left, hperm, hleft⟩ := h.left
  rw [List.nil_append] at hperm
  constructor
  · intro hmem
    obtain ⟨e, he, rfl⟩ := List.mem_map.mp hmem
    refine ⟨hperm.mem_iff.mp (List.mem_append_left _ hmem), fun k hk => ?_⟩
    exact (h.ordered.deps_produced he k hk).resolve_left List.not_mem_nil
  · rintro ⟨hmem, hall⟩
    rcases List.mem_append.mp (hperm.mem_iff.mpr hmem) with hdone | hwaits
    · exact hdone
    · obtain ⟨k, hk, -, hnot⟩ := hleft task hwaits
      exact absurd (hall k hk) hnot

end ReleaseQueue

end Framework
