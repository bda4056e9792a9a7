import Mathlib.Tactic.Common

/-!
# Readers that get their input in pieces

A reader looks at the input it has and either waits, keeping some of it, or takes an item or some
garbage off the front. An item can close the reader, which drops the rest of the input. When a decision
on a part of the input is final (`Reader`), the items do not depend on how the input is cut into pieces.

* `Reader.feed_append`, `Reader.foldl_feed` — pieces that are fed one after the other
* `Reader.run_encode`, `Reader.upToClosing_items` — input that was put together from items
-/

namespace Framework

/-- What a reader does with the input it has. -/
inductive Scan (α β : Type) where
  /-- There is no item yet; `rest` is kept. -/
  | wait (rest : List α)
  /-- The front is garbage. -/
  | skip (rest : List α)
  /-- An item is at the front. -/
  | emit (b : β) (rest : List α)

/-- A reader whose decisions stay the same when more input comes. -/
structure Reader (α β : Type) where
  scan : List α → Scan α β
  skip_lt : ∀ {a rest}, scan a = .skip rest → rest.length < a.length
  emit_lt : ∀ {a b rest}, scan a = .emit b rest → rest.length < a.length
  skip_append : ∀ {a rest} c, scan a = .skip rest → scan (a ++ c) = .skip (rest ++ c)
  emit_append : ∀ {a b rest} c, scan a = .emit b rest → scan (a ++ c) = .emit b (rest ++ c)
  wait_append : ∀ {a rest} c, scan a = .wait rest → scan (a ++ c) = scan (rest ++ c)

namespace Reader

variable {α β : Type} (R : Reader α β) (closes : List β → Bool)

/-- The items so far, the input that is kept, and whether the reader is open. -/
structure State (α β : Type) where
  items : List β := []
  rest : List α := []
  isOpen : Bool := true

/-- Take off the front until there is no item any more, or the reader is closed. -/
def run (items : List β) (a : List α) : State α β :=
  match _h : R.scan a with
  | .wait rest => { items, rest }
  | .skip rest => run items rest
  | .emit b rest =>
    if closes (items ++ [b]) then { items := items ++ [b], isOpen := false }
    else run (items ++ [b]) rest
termination_by a.length
decreasing_by
  · exact R.skip_lt _h
  · exact R.emit_lt _h

/-- More input, for a reader that is open. -/
def feed (s : State α β) (c : List α) : State α β :=
  if s.isOpen then R.run closes s.items (s.rest ++ c) else s

variable {R closes} {items : List β} {a rest : List α} {b : β}

theorem run_wait (h : R.scan a = .wait rest) : R.run closes items a = { items, rest } := by
  rw [run]
  split
  · next heq =>
    rw [h] at heq
    cases heq
    rfl
  · next heq =>
    rw [h] at heq
    cases heq
  · next heq =>
    rw [h] at heq
    cases heq

theorem run_skip (h : R.scan a = .skip rest) : R.run closes items a = R.run closes items rest := by
  rw [run]
  split
  · next heq =>
    rw [h] at heq
    cases heq
  · next heq =>
    rw [h] at heq
    cases heq
    rfl
  · next heq =>
    rw [h] at heq
    cases heq

theorem run_emit (h : R.scan a = .emit b rest) : R.run closes items a =
    if closes (items ++ [b]) then { items := items ++ [b], isOpen := false }
    else R.run closes (items ++ [b]) rest := by
  rw [run]
  split
  · next heq =>
    rw [h] at heq
    cases heq
  · next heq =>
    rw [h] at heq
    cases heq
  · next heq =>
    rw [h] at heq
    cases heq
    rfl

/-- Inputs with the same decision give the same run. -/
theorem run_congr {a' : List α} (h : R.scan a' = R.scan a) :
    R.run closes items a' = R.run closes items a := by
  cases hscan : R.scan a with
  | wait rest => rw [run_wait hscan, run_wait (h.trans hscan)]
  | skip rest => rw [run_skip hscan, run_skip (h.trans hscan)]
  | emit b rest => rw [run_emit hscan, run_emit (h.trans hscan)]

/-- **A cut in the input.** The first piece is read as far as possible, then the second one comes. -/
theorem run_append (a c : List α) : R.run closes items (a ++ c) = R.feed closes (R.run closes items a) c := by
  induction hlen : a.length using Nat.strongRecOn generalizing a items with
  | _ n ih =>
    cases hscan : R.scan a with
    | wait rest =>
      rw [run_wait hscan, run_congr (R.wait_append c hscan)]
      rfl
    | skip rest =>
      rw [run_skip hscan, run_skip (R.skip_append c hscan)]
      exact ih rest.length (hlen ▸ R.skip_lt hscan) rest rfl
    | emit b rest =>
      rw [run_emit hscan, run_emit (R.emit_append c hscan)]
      split_ifs
      · rfl
      · exact ih rest.length (hlen ▸ R.emit_lt hscan) rest rfl

theorem feed_append (s : State α β) (a c : List α) :
    R.feed closes s (a ++ c) = R.feed closes (R.feed closes s a) c := by
  cases hopen : s.isOpen with
  | false =>
    unfold feed
    simp [hopen]
  | true =>
    have hfeed : ∀ d, R.feed closes s d = R.run closes s.items (s.rest ++ d) := by
      intro d
      unfold feed
      rw [if_pos hopen]
    rw [hfeed, hfeed, ← List.append_assoc, run_append]

/-- What a run leaves has nothing more to read in it. -/
theorem feed_run_nil (items : List β) (a : List α) :
    R.feed closes (R.run closes items a) [] = R.run closes items a := by
  rw [← run_append, List.append_nil]

/-- **Pieces.** -/
theorem foldl_feed (items : List β) (a : List α) (chunks : List (List α)) :
    chunks.foldl (R.feed closes) (R.run closes items a) =
      R.feed closes (R.run closes items a) chunks.flatten := by
  induction chunks generalizing items a with
  | nil => rw [List.foldl_nil, List.flatten_nil, feed_run_nil]
  | cons c chunks ih => rw [List.foldl_cons, List.flatten_cons, ← run_append, ih, run_append, ← feed_append]

/-- The items of a list, up to the first that closes the reader. -/
def upToClosing (closes : List β → Bool) : List β → List β → State α β
  | items, [] => { items }
  | items, b :: bs =>
    if closes (items ++ [b]) then { items := items ++ [b], isOpen := false }
    else upToClosing closes (items ++ [b]) bs

/-- **Input that is put together from items** is taken apart again. -/
theorem run_encode {encode : β → List α} {bs : List β} (hnil : R.scan [] = .wait [])
    (h : ∀ b ∈ bs, ∀ c, R.scan (encode b ++ c) = .emit b c) (items : List β) :
    R.run closes items (bs.flatMap encode) = upToClosing closes items bs := by
  induction bs generalizing items with
  | nil => exact run_wait hnil
  | cons b bs ih =>
    rw [List.flatMap_cons, run_emit (h b List.mem_cons_self _), upToClosing]
    split_ifs
    · rfl
    · exact ih (fun b' hb' => h b' (List.mem_cons_of_mem _ hb')) _

theorem upToClosing_items (closes : List β → Bool) (items bs : List β) :
    ∃ n ≤ bs.length, (upToClosing (α := α) closes items bs).items = items ++ bs.take n ∧
      (∀ m, 0 < m → m < n → closes (items ++ bs.take m) = false) ∧
      (n = bs.length ∨ 0 < n ∧ closes (items ++ bs.take n) = true) := by
  induction bs generalizing items with
  | nil =>
    refine ⟨0, Nat.le_refl _, (List.append_nil items).symm, ?_, .inl rfl⟩
    intro m _ hm
    exact absurd hm (Nat.not_lt_zero m)
  | cons b bs ih =>
    have hcons : ∀ m, items ++ (b :: bs).take (m + 1) = items ++ [b] ++ bs.take m := by
      intro m
      rw [List.take_succ_cons, List.append_assoc, List.singleton_append]
    unfold upToClosing
    split_ifs with hclose
    · refine ⟨1, Nat.succ_pos _, rfl, fun m h h' => absurd h (by omega), .inr ⟨Nat.one_pos, hclose⟩⟩
    · obtain ⟨n, hn, hitems, hbefore, hlast⟩ := ih (items ++ [b])
      refine ⟨n + 1, Nat.succ_le_succ hn, ?_, ?_, ?_⟩
      · rw [hitems, hcons]
      · intro m hm hlt
        obtain ⟨m, rfl⟩ : ∃ k, m = k + 1 := ⟨m - 1, by omega⟩
        rw [hcons]
        rcases Nat.eq_zero_or_pos m with rfl | hpos
        · rw [List.take_zero, List.append_nil]
          exact Bool.eq_false_iff.mpr hclose
        · exact hbefore m hpos (Nat.lt_of_succ_lt_succ hlt)
      · rw [hcons, List.length_cons]
        rcases hlast with rfl | ⟨-, hlast⟩
        · exact .inl rfl
        · exact .inr ⟨Nat.succ_pos n, hlast⟩

end Reader

end Framework
