import Mathlib.Algebra.BigOperators.Finprod
import Mathlib.Data.List.Basic

/-!
# Ledgers of unspent outputs

A ledger maps outpoints to the coins that are there and not spent. A transaction has an
identifier, spends outpoints and creates one coin per output; the outpoint of its `n`-th output is
the pair of its identifier and `n`. Identifiers may come back: a transaction may reuse one as long
as no output under it is unspent.

* `Ledger.replay` — the ledger after a row of transactions
* `Ledger.ValidRun` — each of them was valid when it was applied
* `Ledger.undo_apply` — taking back the last transaction gives the ledger before it
* `Ledger.isSome_replay_of_append`, `Ledger.isSome_replay_append` — where a coin of a longer row comes
  from, and when it stays
* `Ledger.total_apply` — the value of a ledger grows by what a transaction creates less what it
  spends
* `Ledger.ValidRun.existsUnique_consumes`, `Ledger.ValidRun.consumes_injective` — in a valid run
  every spend consumes one creation, and every creation is consumed at most once
-/

namespace Framework

variable {K C D M : Type}

/-- A transaction as a ledger sees it, with the data the application's own rules read. -/
structure LedgerTx (K C D : Type) where
  id : K
  spends : List (K × ℕ)
  outputs : List C
  data : D

/-- The coins that are there and not spent. -/
abbrev Ledger (K C : Type) := K × ℕ → Option C

namespace Ledger

def empty : Ledger K C := fun _ => none

/-- A transaction may be applied: what it spends is there, its identifier is free, and a rule
`policy` of the application holds. -/
structure Valid (policy : Ledger K C → LedgerTx K C D → Prop) (u : Ledger K C)
    (t : LedgerTx K C D) : Prop where
  nodup : t.spends.Nodup
  unspent : ∀ o ∈ t.spends, (u o).isSome
  fresh : ∀ n, u (t.id, n) = none
  policy : policy u t

variable {policy : Ledger K C → LedgerTx K C D → Prop} {u : Ledger K C} {t : LedgerTx K C D}

/-- A transaction does not spend itself. -/
theorem Valid.id_ne (h : Valid policy u t) {o : K × ℕ} (ho : o ∈ t.spends) : o.1 ≠ t.id := by
  intro heq
  have hsome := h.unspent o ho
  rw [show o = (t.id, o.2) from Prod.ext heq rfl, h.fresh] at hsome
  exact absurd hsome (by simp)

variable [DecidableEq K]

/-- Remove the coins at some outpoints. -/
def spend (u : Ledger K C) (os : List (K × ℕ)) : Ledger K C := fun o =>
  if o ∈ os then none else u o

/-- Coins are removed one after the other. -/
theorem spend_cons (u : Ledger K C) (o : K × ℕ) (os : List (K × ℕ)) :
    spend (spend u [o]) os = spend u (o :: os) := by
  funext o'
  unfold spend
  by_cases hos : o' ∈ os <;> by_cases ho : o' = o <;> simp [hos, ho]

/-- Replace all coins under an identifier. -/
def put (u : Ledger K C) (k : K) (row : ℕ → Option C) : Ledger K C := fun o =>
  if o.1 = k then row o.2 else u o

/-- What a transaction does to the ledger. -/
def apply (u : Ledger K C) (t : LedgerTx K C D) : Ledger K C :=
  put (spend u t.spends) t.id (fun n => t.outputs[n]?)

/-- A transaction replaces the row of its identifier and spends its inputs. -/
theorem apply_eq (u : Ledger K C) (t : LedgerTx K C D) (o : K × ℕ) :
    apply u t o = if o.1 = t.id then t.outputs[o.2]? else if o ∈ t.spends then none else u o := rfl

/-- Take back a transaction, given the coins it spent. -/
def undo (u : Ledger K C) (t : LedgerTx K C D) (restored : Ledger K C) : Ledger K C := fun o =>
  if o.1 = t.id then none else if o ∈ t.spends then restored o else u o

/-- The coins a transaction spent are all that is needed to take it back. -/
theorem undo_apply (h : Valid policy u t) : undo (apply u t) t u = u := by
  funext o
  rw [undo, apply_eq]
  split_ifs with hid hspent
  · rw [show o = (t.id, o.2) from Prod.ext hid rfl, h.fresh]
  · rfl
  · rfl

/-! ### Runs -/

/-- The ledger after a row of transactions, the oldest first. -/
def replay (txs : List (LedgerTx K C D)) : Ledger K C := txs.foldl apply empty

/-- No transactions, no coins. -/
@[simp] theorem replay_nil : replay ([] : List (LedgerTx K C D)) = empty := rfl

/-- One more transaction. -/
@[simp] theorem replay_concat (txs : List (LedgerTx K C D)) (t : LedgerTx K C D) :
    replay (txs ++ [t]) = apply (replay txs) t := by
  simp [replay]

/-- The last transaction with an identifier. -/
def latest (txs : List (LedgerTx K C D)) (k : K) : Option (LedgerTx K C D) :=
  txs.reverse.find? (fun t => t.id = k)

/-- No transactions, no identifiers. -/
@[simp] theorem latest_nil (k : K) : latest ([] : List (LedgerTx K C D)) k = none := rfl

/-- The last transaction wins its identifier. -/
theorem latest_concat (txs : List (LedgerTx K C D)) (t : LedgerTx K C D) (k : K) :
    latest (txs ++ [t]) k = if t.id = k then some t else latest txs k := by
  unfold latest
  rw [List.reverse_append, List.reverse_singleton, List.singleton_append, List.find?_cons]
  split_ifs with h
  · simp [h]
  · simp [h]

/-- What is found under an identifier has it. -/
theorem id_of_latest {txs : List (LedgerTx K C D)} {t : LedgerTx K C D} {k : K}
    (h : latest txs k = some t) : t.id = k := by
  unfold latest at h
  have hid := List.find?_some h
  exact of_decide_eq_true hid

/-- A coin of the ledger was created by the last transaction with its identifier. -/
theorem latest_of_replay {txs : List (LedgerTx K C D)} {o : K × ℕ} {c : C}
    (h : replay txs o = some c) : ∃ t, latest txs o.1 = some t ∧ t.outputs[o.2]? = some c := by
  induction txs using List.reverseRecOn with
  | nil => exact absurd h (by simp [empty])
  | append_singleton txs t ih =>
    rw [replay_concat, apply_eq] at h
    rw [latest_concat]
    split_ifs at h with hid hspent
    · exact ⟨t, if_pos hid.symm, h⟩
    · rw [if_neg (fun heq => hid heq.symm)]
      exact ih h

/-- Each transaction of the row was valid when it was applied. -/
def ValidRun (policy : Ledger K C → LedgerTx K C D → Prop) (txs : List (LedgerTx K C D)) : Prop :=
  ∀ before t after, txs = before ++ t :: after → Valid policy (replay before) t

variable {txs : List (LedgerTx K C D)}

/-- The empty run. -/
theorem ValidRun.nil : ValidRun policy [] := by
  intro before t after h
  exact absurd h (by simp)

/-- A run with one more valid transaction. -/
theorem ValidRun.concat (h : ValidRun policy txs) (ht : Valid policy (replay txs) t) :
    ValidRun policy (txs ++ [t]) := by
  intro before t' after heq
  rcases List.eq_nil_or_concat' after with rfl | ⟨after, last, rfl⟩
  · obtain ⟨rfl, hlast⟩ := List.append_inj' heq rfl
    cases hlast
    exact ht
  · rw [← List.cons_append, ← List.append_assoc] at heq
    exact h before t' after (List.append_inj' heq rfl).1

/-- The beginning of a run. -/
theorem ValidRun.of_append {later : List (LedgerTx K C D)} (h : ValidRun policy (txs ++ later)) :
    ValidRun policy txs := by
  intro before t after heq
  exact h before t (after ++ later) (by rw [heq]; simp)

/-- The last transaction was valid. -/
theorem ValidRun.valid_last (h : ValidRun policy (txs ++ [t])) : Valid policy (replay txs) t :=
  h txs t [] rfl

/-- And so was each of them, on the ledger before it. -/
theorem ValidRun.valid_at (h : ValidRun policy txs) {j : ℕ} (hj : txs[j]? = some t) :
    Valid policy (replay (txs.take j)) t := by
  obtain ⟨hlt, rfl⟩ := List.getElem?_eq_some_iff.mp hj
  refine h (txs.take j) txs[j] (txs.drop (j + 1)) ?_
  rw [List.getElem_cons_drop, List.take_append_drop]

/-! ### Coins that stay -/

/-- A coin of a longer row was there before, or the rest of the row has made it. -/
theorem isSome_replay_of_append {later : List (LedgerTx K C D)} {o : K × ℕ}
    (h : (replay (txs ++ later) o).isSome) :
    (replay txs o).isSome ∨ ∃ t ∈ later, t.id = o.1 ∧ o.2 < t.outputs.length := by
  induction later using List.reverseRecOn with
  | nil => exact Or.inl (by simpa using h)
  | append_singleton later t ih =>
    rw [← List.append_assoc, replay_concat, apply_eq] at h
    split_ifs at h with hid hspent
    · obtain ⟨c, hc⟩ := Option.isSome_iff_exists.mp h
      exact Or.inr ⟨t, by simp, hid.symm, (List.getElem?_eq_some_iff.mp hc).1⟩
    · exact absurd h (by simp)
    · rcases ih h with hold | ⟨t', ht', hmade⟩
      · exact Or.inl hold
      · exact Or.inr ⟨t', List.mem_append_left _ ht', hmade⟩

/-- A coin that was there before, or that the rest of a row makes, is there at the end when nothing in
the rest spends it and every creation under its identifier makes it. -/
theorem isSome_replay_append {later : List (LedgerTx K C D)} {o : K × ℕ}
    (hspends : ∀ t ∈ later, o ∉ t.spends)
    (houtputs : ∀ t ∈ later, t.id = o.1 → o.2 < t.outputs.length)
    (h : (replay txs o).isSome ∨ ∃ t ∈ later, t.id = o.1) : (replay (txs ++ later) o).isSome := by
  induction later using List.reverseRecOn with
  | nil => simpa using h
  | append_singleton later t ih =>
    have hlast : t ∈ later ++ [t] := by simp
    rw [← List.append_assoc, replay_concat, apply_eq, if_neg (hspends t hlast)]
    -- the last transaction makes it, or it was there before
    split_ifs with hid
    · rw [List.getElem?_eq_getElem (houtputs t hlast hid.symm)]
      rfl
    · refine ih (fun t' ht' => hspends t' (List.mem_append_left _ ht'))
        (fun t' ht' => houtputs t' (List.mem_append_left _ ht')) ?_
      rcases h with hold | ⟨t', ht', hmade⟩
      · exact Or.inl hold
      · rcases List.mem_append.mp ht' with ht' | ht'
        · exact Or.inr ⟨t', ht', hmade⟩
        · rw [List.mem_singleton.mp ht'] at hmade
          exact absurd hmade.symm hid

/-! ### Consumption -/

/-- The `j`-th transaction of a row spends the coin the `i`-th one created at `o`: nothing in
between creates under the same identifier. -/
structure Consumes (txs : List (LedgerTx K C D)) (i j : ℕ) (o : K × ℕ) : Prop where
  lt : i < j
  creates : ∃ t, txs[i]? = some t ∧ t.id = o.1 ∧ o.2 < t.outputs.length
  spends : ∃ t, txs[j]? = some t ∧ o ∈ t.spends
  last : ∀ k t, i < k → k < j → txs[k]? = some t → t.id ≠ o.1

/-- The place of the latest transaction of an identifier. -/
theorem latest_take_eq {j : ℕ} {k : K} (h : latest (txs.take j) k = some t) :
    ∃ i, i < j ∧ txs[i]? = some t ∧ t.id = k ∧
      ∀ m t', i < m → m < j → txs[m]? = some t' → t'.id ≠ k := by
  induction j with
  | zero => exact absurd h (by simp)
  | succ j ih =>
    rw [List.take_add_one] at h
    -- the row has ended already
    cases hj : txs[j]? with
    | none =>
      rw [hj, Option.toList_none, List.append_nil] at h
      obtain ⟨i, hij, hi, hid, hlast⟩ := ih h
      refine ⟨i, by omega, hi, hid, fun m t' him hmj hm => ?_⟩
      rcases Nat.lt_succ_iff_lt_or_eq.mp hmj with hlt | rfl
      · exact hlast m t' him hlt hm
      · rw [hj] at hm
        exact absurd hm (by simp)
    -- one more transaction, which is the latest of its own identifier
    | some tj =>
      rw [hj, Option.toList_some, latest_concat] at h
      split_ifs at h with hid
      · cases h
        exact ⟨j, by omega, hj, hid, fun m t' him hmj _ => by omega⟩
      · obtain ⟨i, hij, hi, hidi, hlast⟩ := ih h
        refine ⟨i, by omega, hi, hidi, fun m t' him hmj hm => ?_⟩
        rcases Nat.lt_succ_iff_lt_or_eq.mp hmj with hlt | rfl
        · exact hlast m t' him hlt hm
        · rw [hj] at hm
          cases hm
          exact hid

/-- Between a creation and the next one under the same identifier, a coin stays as the last spend
left it. -/
theorem replay_take_eq_none {i j : ℕ} {o : K × ℕ} (hij : i ≤ j)
    (hnone : replay (txs.take i) o = none)
    (hlast : ∀ k t, i ≤ k → k < j → txs[k]? = some t → t.id ≠ o.1) :
    replay (txs.take j) o = none := by
  induction j, hij using Nat.le_induction with
  | base => exact hnone
  | succ j hij ih =>
    have hrec := ih (fun k t hik hkj => hlast k t hik (by omega))
    rw [List.take_add_one]
    cases hj : txs[j]? with
    | none => simpa using hrec
    | some t =>
      have hne := hlast j t hij (by omega) hj
      rw [Option.toList_some, replay_concat, apply_eq,
        if_neg (fun heq => hne heq.symm), hrec, ite_self]

section Runs

variable (h : ValidRun policy txs)
include h

/-- **Every spend consumes one creation**, and the coin it finds is the one created there. -/
theorem ValidRun.existsUnique_consumes {j : ℕ} {o : K × ℕ} (hj : txs[j]? = some t)
    (ho : o ∈ t.spends) : ∃! i, Consumes txs i j o := by
  obtain ⟨c, hc⟩ := Option.isSome_iff_exists.mp ((h.valid_at hj).unspent o ho)
  obtain ⟨ti, hlatest, hout⟩ := latest_of_replay hc
  obtain ⟨i, hij, hi, hid, hlast⟩ := latest_take_eq hlatest
  have hlen := (List.getElem?_eq_some_iff.mp hout).1
  refine ⟨i, ⟨hij, ⟨ti, hi, hid, hlen⟩, ⟨t, hj, ho⟩, hlast⟩, fun i' hi' => ?_⟩
  obtain ⟨hij', ⟨ti', hti', hid', -⟩, -, hlast'⟩ := hi'
  rcases Nat.lt_trichotomy i' i with hlt | heq | hgt
  · exact absurd hid (hlast' i ti hlt hij hi)
  · exact heq
  · exact absurd hid' (hlast i' ti' hgt hij' hti')

/-- The coin a spend finds is the one its creator made. -/
theorem ValidRun.replay_of_consumes {i j : ℕ} {o : K × ℕ} (hc : Consumes txs i j o)
    {ti : LedgerTx K C D} (hi : txs[i]? = some ti) :
    (ti.outputs[o.2]?).isSome ∧ replay (txs.take j) o = ti.outputs[o.2]? := by
  obtain ⟨tj, hj, ho⟩ := hc.spends
  obtain ⟨c, hcoin⟩ := Option.isSome_iff_exists.mp ((h.valid_at hj).unspent o ho)
  obtain ⟨t', hlatest, hout⟩ := latest_of_replay hcoin
  obtain ⟨i', hij', hi', hid', hlast'⟩ := latest_take_eq hlatest
  have huniq := (h.existsUnique_consumes hj ho).unique hc
    ⟨hij', ⟨t', hi', hid', (List.getElem?_eq_some_iff.mp hout).1⟩, ⟨tj, hj, ho⟩, hlast'⟩
  subst huniq
  rw [hi] at hi'
  cases hi'
  rw [hout, hcoin]
  exact ⟨rfl, rfl⟩

/-- **Every creation is consumed at most once.** -/
theorem ValidRun.consumes_injective {i j j' : ℕ} {o : K × ℕ} (hc : Consumes txs i j o)
    (hc' : Consumes txs i j' o) : j = j' := by
  -- by symmetry the first consumer may be taken to come first
  wlog hlt : j < j' generalizing j j' with hsym
  · rcases Nat.lt_trichotomy j j' with hlt' | heq | hgt
    · exact absurd hlt' hlt
    · exact heq
    · exact (hsym hc' hc hgt).symm
  obtain ⟨t, hj, ho⟩ := hc.spends
  obtain ⟨t', hj', ho'⟩ := hc'.spends
  have hij := hc.lt
  have hspent : replay (txs.take (j + 1)) o = none := by
    rw [List.take_add_one, hj, Option.toList_some, replay_concat, apply_eq,
      if_neg ((h.valid_at hj).id_ne ho), if_pos ho]
  have hnone := replay_take_eq_none (Nat.succ_le_of_lt hlt) hspent
    (fun k t hk hkj => hc'.last k t (by omega) hkj)
  have hsome := (h.valid_at hj').unspent o ho'
  rw [hnone] at hsome
  exact absurd hsome (by simp)

end Runs

/-! ### Totals -/

section Totals

variable [AddCommGroup M] (V : C → M)

/-- The value at an outpoint. -/
def valueAt (u : Ledger K C) (o : K × ℕ) : M := (u o).elim 0 V

/-- The value of all coins. -/
noncomputable def total (u : Ledger K C) : M := ∑ᶠ o, valueAt V u o

/-- What a transaction takes out of a ledger. -/
def spent (u : Ledger K C) (t : LedgerTx K C D) : M := (t.spends.map (valueAt V u)).sum

/-- What a transaction puts in. -/
def created (t : LedgerTx K C D) : M := (t.outputs.map V).sum

/-- Only finitely many coins are there. -/
def Finite (u : Ledger K C) : Prop := {o | (u o).isSome}.Finite

omit [DecidableEq K] in
/-- Finitely many coins have a value. -/
theorem Finite.support_valueAt (h : u.Finite) : (Function.support (valueAt V u)).Finite := by
  refine Set.Finite.subset h (fun o ho => ?_)
  by_contra hc
  simp only [Set.mem_ofPred_eq, Bool.not_eq_true, Option.isSome_eq_false_iff,
    Option.isNone_iff_eq_none] at hc
  exact ho (by simp [valueAt, hc])

omit [DecidableEq K] in
/-- The empty ledger. -/
theorem Finite.empty : (Ledger.empty : Ledger K C).Finite := by
  simp [Ledger.Finite, Ledger.empty]

/-- Spending leaves fewer coins. -/
theorem Finite.spend (h : u.Finite) (os : List (K × ℕ)) : (u.spend os).Finite := by
  refine Set.Finite.subset h (fun o ho => ?_)
  simp only [Ledger.spend, Set.mem_ofPred_eq] at ho
  split_ifs at ho
  · exact absurd ho (by simp)
  · exact ho

/-- A new row of finitely many coins. -/
theorem Finite.put (h : u.Finite) {k : K} {row : ℕ → Option C} {m : ℕ}
    (hrow : ∀ n, m ≤ n → row n = none) : (u.put k row).Finite := by
  have hnew : ((fun n => (k, n)) '' {n | n < m}).Finite := Set.Finite.image _ (Set.finite_lt_nat _)
  refine Set.Finite.subset (Set.Finite.union h hnew) (fun o ho => ?_)
  simp only [Ledger.put, Set.mem_ofPred_eq] at ho
  split_ifs at ho with hid
  · refine Or.inr ⟨o.2, ?_, Prod.ext hid.symm rfl⟩
    by_contra hc
    rw [hrow o.2 (not_lt.mp hc)] at ho
    exact absurd ho (by simp)
  · exact Or.inl ho

/-- One transaction. -/
theorem Finite.apply (h : u.Finite) (t : LedgerTx K C D) : (u.apply t).Finite :=
  (h.spend t.spends).put (fun _ hn => List.getElem?_eq_none hn)

/-- A row of transactions. -/
theorem Finite.replay (txs : List (LedgerTx K C D)) : (Ledger.replay txs).Finite := by
  induction txs using List.reverseRecOn with
  | nil => exact Finite.empty
  | append_singleton txs t ih =>
    rw [replay_concat]
    exact ih.apply t

/-- The coins of a row add up to the sum of the row. -/
theorem sum_getElem?_range (l : List C) :
    ∑ n ∈ Finset.range l.length, (l[n]?).elim 0 V = (l.map V).sum := by
  induction l using List.reverseRecOn with
  | nil => simp
  | append_singleton l c ih =>
    rw [List.length_append, List.length_singleton, Finset.sum_range_succ, List.map_append,
      List.sum_append, ← ih]
    refine congrArg₂ (· + ·) (Finset.sum_congr rfl (fun n hn => ?_)) (by simp)
    rw [List.getElem?_append_left (Finset.mem_range.mp hn)]

/-- Removing coins takes their value away. -/
theorem total_spend (hfin : u.Finite) {os : List (K × ℕ)} (hnodup : os.Nodup) :
    total V (u.spend os) = total V u - (os.map (valueAt V u)).sum := by
  let gone : K × ℕ → M := fun o => if o ∈ os then valueAt V u o else 0
  have hpoint : ∀ o, valueAt V (u.spend os) o + gone o = valueAt V u o := by
    intro o
    simp only [gone, valueAt, spend]
    split_ifs <;> simp
  have hsub : Function.support gone ⊆ os.toFinset := by
    intro o ho
    by_contra hc
    exact ho (if_neg (by simpa using hc))
  have hsum := finsum_congr hpoint
  rw [finsum_add_distrib ((hfin.spend os).support_valueAt V)
    (Set.Finite.subset (Finset.finite_toSet _) hsub)] at hsum
  have hgone : ∑ᶠ o, gone o = (os.map (valueAt V u)).sum := by
    rw [finsum_eq_sum_of_support_subset gone hsub, ← List.sum_toFinset _ hnodup]
    exact Finset.sum_congr rfl (fun o ho => if_pos (List.mem_toFinset.mp ho))
  rw [total, total, ← hsum, hgone, add_sub_cancel_right]

/-- Coins under a free identifier add their value. -/
theorem total_put (hfin : u.Finite) {k : K} {row : ℕ → Option C} {m : ℕ}
    (hfresh : ∀ n, u (k, n) = none) (hrow : ∀ n, m ≤ n → row n = none) :
    total V (u.put k row) = total V u + ∑ n ∈ Finset.range m, (row n).elim 0 V := by
  -- what the new coins add at each place
  let new : K × ℕ → M := fun o => if o.1 = k then (row o.2).elim 0 V else 0
  have hpoint : ∀ o, valueAt V (u.put k row) o = valueAt V u o + new o := by
    intro o
    simp only [new, valueAt, put]
    split_ifs with hid
    · rw [show o = (k, o.2) from Prod.ext hid rfl, hfresh]
      simp
    · simp
  -- only finitely many of the places have a coin
  have hsub : Function.support new ⊆ ((Finset.range m).map
      ⟨fun n => (k, n), fun a b hab => (Prod.mk.inj hab).2⟩ : Finset (K × ℕ)) := by
    intro o ho
    by_cases hid : o.1 = k
    · have hlt : o.2 < m := by
        by_contra hc
        refine ho ?_
        simp [new, hrow o.2 (not_lt.mp hc)]
      simp only [Finset.coe_map, Set.mem_image, Finset.coe_range, Set.mem_Iio]
      exact ⟨o.2, hlt, Prod.ext hid.symm rfl⟩
    · exact absurd (if_neg hid) ho
  have hnew : ∑ᶠ o, new o = ∑ n ∈ Finset.range m, (row n).elim 0 V := by
    rw [finsum_eq_sum_of_support_subset new hsub, Finset.sum_map]
    exact Finset.sum_congr rfl (fun n _ => if_pos rfl)
  rw [total, finsum_congr hpoint, finsum_add_distrib (hfin.support_valueAt V)
    (Set.Finite.subset (Finset.finite_toSet _) hsub), hnew, total]

/-- **The value of a ledger** after a valid transaction. -/
theorem total_apply (hfin : u.Finite) (h : Valid policy u t) :
    total V (apply u t) = total V u - spent V u t + created V t := by
  have hfresh : ∀ n, u.spend t.spends (t.id, n) = none := by
    intro n
    rw [spend, h.fresh, ite_self]
  rw [apply, total_put V (hfin.spend t.spends) hfresh (fun _ hn => List.getElem?_eq_none hn),
    total_spend V hfin h.nodup, spent, created, sum_getElem?_range]

omit [DecidableEq K] in
/-- The empty ledger is worth nothing. -/
theorem total_empty : total V (empty : Ledger K C) = 0 := by
  simp [total, valueAt, empty]

end Totals

end Ledger

end Framework
