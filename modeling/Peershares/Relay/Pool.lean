import Peershares.Dividend.Snapshot
import Peershares.Model.Relay

/-!
# The index of the memory pool

`mapNextTx` says which transaction of the pool spends an outpoint. `Indexed` is its invariant: it has
an entry exactly for each input of each transaction in `mapTx`.

`accept` only adds a transaction whose outpoints are different and free, and `remove` takes out the
entries of a transaction that is in the pool, so both keep the invariant, and with them the loops of
`Reorganize`. `addUnchecked` on its own does not: called for a transaction that conflicts with the
pool, it takes over the entries of another one.

* `PoolRun.mapNextTx_indexed` — the invariant over whole runs, where `addUnchecked` is called as `accept` does.
* `addUnchecked_conflict` — the run without that condition where it fails.
-/

open Framework

namespace Peershares

namespace CTxMemPool

/-- The pool is keyed by the hashes of its transactions, and `mapNextTx` has an entry for each of their
inputs and no other. -/
structure Indexed (P : Params) (pool : CTxMemPool) : Prop where
  keyed : ∀ hash tx, pool.mapTx.lookup hash = some tx → P.hashTx tx = hash
  mapNextTx_iff : ∀ o hash i, pool.mapNextTx.lookup o = some (hash, i) ↔
    ∃ tx, pool.mapTx.lookup hash = some tx ∧ tx.prevouts[i]? = some o

/-- The outpoints of a transaction are different, and the pool spends none of them. -/
structure Free (pool : CTxMemPool) (tx : CTransaction) : Prop where
  nodup : tx.prevouts.Nodup
  unspent : ∀ o ∈ tx.prevouts, pool.mapNextTx.lookup o = none

variable {P : Params} {pool pool' : CTxMemPool} {tx tx' : CTransaction} {o : COutPoint}

/-! ### What the invariant gives -/

/-- No two transactions of the pool spend the same outpoint. -/
theorem Indexed.unique (h : pool.Indexed P) {hash hash' : Uint256}
    (htx : pool.mapTx.lookup hash = some tx) (htx' : pool.mapTx.lookup hash' = some tx')
    (ho : o ∈ tx.prevouts) (ho' : o ∈ tx'.prevouts) : hash = hash' := by
  obtain ⟨i, hi⟩ := List.mem_iff_getElem?.mp ho
  obtain ⟨j, hj⟩ := List.mem_iff_getElem?.mp ho'
  have h₁ := (h.mapNextTx_iff o hash i).mpr ⟨tx, htx, hi⟩
  have h₂ := (h.mapNextTx_iff o hash' j).mpr ⟨tx', htx', hj⟩
  rw [h₁] at h₂
  exact congrArg Prod.fst (Option.some.inj h₂)

/-- No entry of `mapNextTx` points to a transaction that is not in the pool. -/
theorem Indexed.not_dangling (h : pool.Indexed P) {hash : Uint256} {i : ℕ}
    (ho : pool.mapNextTx.lookup o = some (hash, i)) : (pool.mapTx.lookup hash).isSome := by
  obtain ⟨tx, htx, -⟩ := (h.mapNextTx_iff o hash i).mp ho
  rw [htx]
  rfl

/-- The empty pool. -/
theorem Indexed.empty (P : Params) : Indexed P {} where
  keyed := fun hash tx h => absurd h (by rw [Map.lookup_empty]; simp)
  mapNextTx_iff := by
    intro o hash i
    simp only [Map.lookup_empty, reduceCtorEq, false_and, exists_false]

/-! ### `addUnchecked` -/

/-- The transactions after one is added. -/
theorem addUnchecked_mapTx (hash : Uint256) : (pool.addUnchecked P tx).mapTx.lookup hash =
    if hash = P.hashTx tx then some tx else pool.mapTx.lookup hash :=
  Map.lookup_insert_eq _ _ _ _

/-- The writes of `addUnchecked` to `mapNextTx`, as pairs. -/
theorem addUnchecked_mapNextTx : (pool.addUnchecked P tx).mapNextTx =
    (tx.prevouts.zipIdx.map (fun e => (e.1, (P.hashTx tx, e.2)))).foldl
      (fun m e => m.insert e.1 e.2) pool.mapNextTx := by
  unfold addUnchecked CTransaction.prevouts
  rw [List.zipIdx_map, List.map_map, List.foldl_map]
  rfl

/-- The inputs after a transaction with free inputs is added. -/
theorem Free.lookup_addUnchecked (hfree : pool.Free tx) (hash : Uint256) (i : ℕ) :
    (pool.addUnchecked P tx).mapNextTx.lookup o = some (hash, i) ↔
      (hash = P.hashTx tx ∧ tx.prevouts[i]? = some o) ∨
        (o ∉ tx.prevouts ∧ pool.mapNextTx.lookup o = some (hash, i)) := by
  have hkeys : (tx.prevouts.zipIdx.map (fun e => (e.1, (P.hashTx tx, e.2)))).map Prod.fst =
      tx.prevouts := by
    rw [List.map_map]
    exact List.zipIdx_map_fst 0 tx.prevouts
  rw [addUnchecked_mapNextTx, Map.lookup_foldl_insert (by rw [hkeys]; exact hfree.nodup), hkeys]
  refine or_congr ?_ Iff.rfl
  simp only [List.mem_map, Prod.mk.injEq, Prod.exists, List.mk_mem_zipIdx_iff_getElem?]
  constructor
  · rintro ⟨o', j, hj, rfl, rfl, rfl⟩
    exact ⟨rfl, hj⟩
  · rintro ⟨rfl, hi⟩
    exact ⟨o, i, hi, rfl, rfl, rfl⟩

/-- The map of the inputs stays right. -/
theorem Indexed.addUnchecked (hP : CollisionFree P) (h : pool.Indexed P) (hfree : pool.Free tx) :
    (pool.addUnchecked P tx).Indexed P where
  keyed := by
    intro hash tx₀ hlookup
    rw [addUnchecked_mapTx] at hlookup
    split_ifs at hlookup with hhash
    · rw [← Option.some.inj hlookup, hhash]
    · exact h.keyed hash tx₀ hlookup
  mapNextTx_iff := by
    intro o hash i
    rw [hfree.lookup_addUnchecked, addUnchecked_mapTx]
    constructor
    · rintro (⟨rfl, hi⟩ | ⟨hnot, hold⟩)
      · exact ⟨tx, if_pos rfl, hi⟩
      · obtain ⟨tx₀, hmem, hi⟩ := (h.mapNextTx_iff o hash i).mp hold
        refine ⟨tx₀, ?_, hi⟩
        -- a transaction of the pool with this hash is the new one, whose outpoints `o` is not among
        rw [if_neg, hmem]
        intro hhash
        have heq : tx₀ = tx := hP.injective ((h.keyed hash tx₀ hmem).trans hhash)
        exact hnot (heq ▸ List.mem_of_getElem? hi)
    · rintro ⟨tx₀, hmem, hi⟩
      split_ifs at hmem with hhash
      · exact .inl ⟨hhash, Option.some.inj hmem ▸ hi⟩
      · have hold := (h.mapNextTx_iff o hash i).mpr ⟨tx₀, hmem, hi⟩
        refine .inr ⟨fun ho => ?_, hold⟩
        rw [hfree.unspent o ho] at hold
        exact absurd hold (by simp)

/-! ### `accept` -/

/-- What the checks of `accept` leave known of a transaction. -/
structure Admissible (P : Params) (pool : CTxMemPool) (tx : CTransaction) : Prop where
  checked : tx.checkTransaction = .ok ()
  not_coinBase : tx.isCoinBase = false
  absent : pool.mapTx.lookup (P.hashTx tx) = none
  free : pool.Free tx

/-- What `accept` has tested before it adds a transaction. -/
theorem admissible_of_acceptChecks {u : Unit} (h : pool.acceptChecks P tx = .ok u) :
    pool.Admissible P tx := by
  simp only [acceptChecks, Result.bind_eq_ok, require_eq_ok] at h
  obtain ⟨-, hcheck, -, hcb, -, -, -, -, -, -, -, habsent, hconflict⟩ := h
  have hok : tx.checkTransaction = .ok () := by
    cases hc : tx.checkTransaction with
    | error e =>
      rw [hc] at hcheck
      exact absurd hcheck (by simp [Except.isOk, Except.toBool])
    | ok u => rfl
  rw [List.all_eq_true] at hconflict
  refine ⟨hok, by simpa using hcb, Option.isNone_iff_eq_none.mp habsent, ?_, ?_⟩
  · exact (CTransaction.checked_of_checkTransaction hok).prevouts_nodup
  · intro o ho
    obtain ⟨txin, htxin, rfl⟩ := List.mem_map.mp ho
    exact Option.isNone_iff_eq_none.mp (hconflict txin htxin)

/-- A verdict that is favourable. -/
theorem verdict_eq_ok {α : Type} {r : Result α} {a : α} : verdict r = .ok a ↔ r = .ok a := by
  cases r with
  | ok b => simp [verdict]
  | error e => simp [verdict]

/-- A transaction is accepted when the checks pass, and then it is added. -/
theorem acceptTx_eq_ok {env : AcceptEnv} {fCheckInputs : Bool} :
    pool.acceptTx P env fCheckInputs tx = .ok pool' ↔
      pool.acceptChecks P tx = .ok () ∧
        (fCheckInputs = true → pool.checkInputs P env tx = .ok ()) ∧
        pool' = pool.addUnchecked P tx := by
  unfold acceptTx
  cases hchecks : pool.acceptChecks P tx with
  | error e => simp [verdict, bind, Except.bind]
  | ok u =>
    cases fCheckInputs with
    | false => simp [verdict, bind, Except.bind, pure, Except.pure, eq_comm]
    | true =>
      cases hin : pool.checkInputs P env tx with
      | error e => simp [verdict, bind, Except.bind]
      | ok u => simp [verdict, bind, Except.bind, pure, Except.pure, eq_comm]

/-- A transaction is refused by the first checks, or by those on its inputs. -/
theorem acceptTx_eq_error {env : AcceptEnv} {fCheckInputs : Bool} {r : Rejection} :
    pool.acceptTx P env fCheckInputs tx = .error r ↔
      verdict (pool.acceptChecks P tx) = .error r ∨
        (pool.acceptChecks P tx = .ok () ∧ fCheckInputs = true ∧
          pool.checkInputs P env tx = .error r) := by
  unfold acceptTx
  cases hchecks : pool.acceptChecks P tx with
  | error e => simp [verdict, bind, Except.bind]
  | ok u =>
    cases fCheckInputs with
    | false => simp [verdict, bind, Except.bind, pure, Except.pure]
    | true =>
      cases hin : pool.checkInputs P env tx with
      | error e => simp [verdict, bind, Except.bind]
      | ok u => simp [verdict, bind, Except.bind, pure, Except.pure]

/-- What `Reorganize` calls is `accept` without the checks on inputs. -/
theorem accept_eq (env : AcceptEnv) :
    pool.accept P tx = (pool.acceptTx P env false tx).toOption.getD pool := by
  unfold accept acceptTx
  cases hchecks : pool.acceptChecks P tx with
  | error e => rfl
  | ok u => rfl

/-- `accept` of one transaction. -/
theorem Indexed.acceptTx {env : AcceptEnv} {fCheckInputs : Bool} (hP : CollisionFree P)
    (h : pool.Indexed P) (haccept : pool.acceptTx P env fCheckInputs tx = .ok pool') :
    pool'.Indexed P := by
  obtain ⟨hchecks, -, rfl⟩ := acceptTx_eq_ok.mp haccept
  exact h.addUnchecked hP (admissible_of_acceptChecks hchecks).free

/-- The same, whatever its verdict is. -/
theorem Indexed.accept (hP : CollisionFree P) (h : pool.Indexed P) : (pool.accept P tx).Indexed P := by
  unfold CTxMemPool.accept
  split
  · next hchecks => exact h.addUnchecked hP (admissible_of_acceptChecks hchecks).free
  · exact h

/-! ### `remove` -/

/-- The inputs after a transaction is removed. -/
theorem remove_mapNextTx (m : Map COutPoint (Uint256 × ℕ)) :
    (tx.vin.foldl (fun m txin => m.erase txin.prevout) m).lookup o =
      if o ∈ tx.prevouts then none else m.lookup o := by
  have hfold : tx.vin.foldl (fun m txin => m.erase txin.prevout) m =
      tx.prevouts.foldl (fun m o => m.erase o) m := by
    unfold CTransaction.prevouts
    rw [List.foldl_map]
  rw [hfold, Map.lookup_foldl_erase]

/-- Removing it keeps the map right. -/
theorem Indexed.remove (hP : CollisionFree P) (h : pool.Indexed P) : (pool.remove P tx).Indexed P := by
  unfold CTxMemPool.remove
  split_ifs with hmem
  swap
  · exact h
  obtain ⟨tx₀, htx₀⟩ := Option.isSome_iff_exists.mp hmem
  have hself : pool.mapTx.lookup (P.hashTx tx) = some tx := by
    rw [htx₀, hP.injective (h.keyed _ tx₀ htx₀)]
  constructor
  · intro hash tx₁ hlookup
    simp only [Map.lookup_erase_eq] at hlookup
    split_ifs at hlookup
    exact h.keyed hash tx₁ hlookup
  · intro o hash i
    simp only [remove_mapNextTx, Map.lookup_erase_eq]
    constructor
    · intro hold
      split_ifs at hold with ho
      obtain ⟨tx₁, hlookup, hi⟩ := (h.mapNextTx_iff o hash i).mp hold
      refine ⟨tx₁, ?_, hi⟩
      -- `o` is not an outpoint of the transaction that leaves, so its spender is another one
      rw [if_neg, hlookup]
      rintro rfl
      rw [hself] at hlookup
      exact ho (Option.some.inj hlookup ▸ List.mem_of_getElem? hi)
    · rintro ⟨tx₁, hlookup, hi⟩
      split_ifs at hlookup with hhash
      rw [if_neg, (h.mapNextTx_iff o hash i).mpr ⟨tx₁, hlookup, hi⟩]
      intro ho
      exact hhash (h.unique hlookup hself (List.mem_of_getElem? hi) ho)

/-- And so does a row of such changes. -/
theorem Indexed.foldl {f : CTxMemPool → CTransaction → CTxMemPool}
    (hf : ∀ pool tx, pool.Indexed P → (f pool tx).Indexed P) (vtx : List CTransaction)
    (h : pool.Indexed P) : (vtx.foldl f pool).Indexed P := by
  induction vtx generalizing pool with
  | nil => exact h
  | cons tx vtx ih => exact ih (hf pool tx h)

/-- The pool after a switch of the chain. -/
theorem Indexed.reorganized (hP : CollisionFree P) (h : pool.Indexed P)
    (disconnected connected : List CBlock) :
    (pool.reorganized P disconnected connected).Indexed P := by
  unfold CTxMemPool.reorganized CTxMemPool.removeTxs
  exact Indexed.foldl (fun _ _ h => h.remove hP) _ (Indexed.foldl (fun _ _ h => h.accept hP) _ h)

end CTxMemPool

/-! ### Runs -/

/-- One call that changes the pool. `Direct` says for which transactions `addUnchecked` is called
other than by `accept`. -/
inductive PoolStep (P : Params) (Direct : CTxMemPool → CTransaction → Prop) :
    CTxMemPool → CTxMemPool → Prop
  | accept {pool pool' : CTxMemPool} {env : AcceptEnv} {fCheckInputs : Bool} {tx : CTransaction}
      (h : pool.acceptTx P env fCheckInputs tx = .ok pool') : PoolStep P Direct pool pool'
  | reject {pool : CTxMemPool} {env : AcceptEnv} {fCheckInputs : Bool} {tx : CTransaction}
      {r : Rejection} (h : pool.acceptTx P env fCheckInputs tx = .error r) : PoolStep P Direct pool pool
  | addUnchecked {pool : CTxMemPool} {tx : CTransaction} (h : Direct pool tx) :
      PoolStep P Direct pool (pool.addUnchecked P tx)
  | remove (pool : CTxMemPool) (tx : CTransaction) : PoolStep P Direct pool (pool.remove P tx)
  | reorganize (pool : CTxMemPool) (disconnected connected : List CBlock) :
      PoolStep P Direct pool (pool.reorganized P disconnected connected)

/-- The pools that are reached from the empty one. -/
inductive PoolRun (P : Params) (Direct : CTxMemPool → CTransaction → Prop) : CTxMemPool → Prop
  | start : PoolRun P Direct {}
  | step {pool pool' : CTxMemPool} (h : PoolRun P Direct pool) (hstep : PoolStep P Direct pool pool') :
      PoolRun P Direct pool'

/-- The call of `Reorganize`, whatever it comes to, is a step. -/
theorem PoolStep.of_accept {P : Params} {Direct : CTxMemPool → CTransaction → Prop}
    {pool : CTxMemPool} (tx : CTransaction) : PoolStep P Direct pool (pool.accept P tx) := by
  let env : AcceptEnv := ⟨{}, ∅, [], 0, fun _ _ => none, false⟩
  rw [CTxMemPool.accept_eq env]
  cases h : pool.acceptTx P env false tx with
  | error r => exact .reject h
  | ok pool' => exact .accept h

/-- Every step keeps the map right. -/
theorem PoolStep.keeps_indexed {P : Params} (hP : CollisionFree P) {pool pool' : CTxMemPool}
    (hstep : PoolStep P CTxMemPool.Free pool pool') (h : pool.Indexed P) : pool'.Indexed P := by
  cases hstep with
  | accept haccept => exact h.acceptTx hP haccept
  | reject _ => exact h
  | addUnchecked hfree => exact h.addUnchecked hP hfree
  | remove tx => exact h.remove hP
  | reorganize disconnected connected => exact h.reorganized hP disconnected connected

/-- **The index of the pool.** In every run whose direct calls of `addUnchecked` meet what `accept`
checks, `mapNextTx` has an entry exactly for each input of a transaction in the pool; so no two of them
spend the same outpoint, and no entry is left behind. -/
theorem PoolRun.mapNextTx_indexed {P : Params} (hP : CollisionFree P) {pool : CTxMemPool}
    (h : PoolRun P CTxMemPool.Free pool) :
    pool.Indexed P ∧
      (∀ hash hash' tx tx' o, pool.mapTx.lookup hash = some tx → pool.mapTx.lookup hash' = some tx' →
        o ∈ tx.prevouts → o ∈ tx'.prevouts → hash = hash') ∧
      (∀ o hash i, pool.mapNextTx.lookup o = some (hash, i) → (pool.mapTx.lookup hash).isSome) := by
  have hindexed : pool.Indexed P := by
    induction h with
    | start => exact CTxMemPool.Indexed.empty P
    | step _ hstep ih => exact hstep.keeps_indexed hP ih
  exact ⟨hindexed, fun _ _ _ _ _ htx htx' ho ho' => hindexed.unique htx htx' ho ho',
    fun _ _ _ ho => hindexed.not_dangling ho⟩

/-- An outpoint is taken over when `addUnchecked` is called for a second transaction that spends it. -/
theorem addUnchecked_conflict :
    ¬ ∀ (P : Params) (pool : CTxMemPool), CollisionFree P → PoolRun P (fun _ _ => True) pool →
      pool.Indexed P ∧
      (∀ hash hash' tx tx' o, pool.mapTx.lookup hash = some tx → pool.mapTx.lookup hash' = some tx' →
        o ∈ tx.prevouts → o ∈ tx'.prevouts → hash = hash') ∧
      (∀ o hash i, pool.mapNextTx.lookup o = some (hash, i) → (pool.mapTx.lookup hash).isSome) := by
  intro h
  let pool := (CTxMemPool.addUnchecked Sample.shareParams {} Sample.toEmpty).addUnchecked
    Sample.shareParams { Sample.toEmpty with nTime := 0 }
  have hrun : PoolRun Sample.shareParams (fun _ _ => True) pool :=
    .step (.step .start (.addUnchecked trivial)) (.addUnchecked trivial)
  obtain ⟨-, hunique, -⟩ := h Sample.shareParams pool Sample.shareParams_collisionFree hrun
  have hne : Sample.toEmpty ≠ { Sample.toEmpty with nTime := 0 } := by decide
  have hhash := Sample.shareParams_collisionFree.injective.ne hne
  refine hhash (hunique _ _ Sample.toEmpty { Sample.toEmpty with nTime := 0 }
    ⟨2 * (Sample.params.nTimeGenesis + 1) + 1, 0⟩ ?_ ?_ (by decide) (by decide))
  · rw [CTxMemPool.addUnchecked_mapTx, if_neg hhash, CTxMemPool.addUnchecked_mapTx, if_pos rfl]
  · rw [CTxMemPool.addUnchecked_mapTx, if_pos rfl]

namespace Sample

/-- A transaction and one that spends its output, as a reorganisation brings them back. -/
def twoInPool : CTxMemPool :=
  (CTxMemPool.accept shareParams {} toEmpty).accept shareParams fromEmpty

end Sample

/-- The second transaction is found under the output of the first. -/
theorem indexed_twoInPool :
    Sample.twoInPool.Indexed Sample.shareParams ∧
      Sample.twoInPool.mapNextTx.lookup ⟨2, 0⟩ = some (4, 0) := by
  refine ⟨(PoolRun.mapNextTx_indexed Sample.shareParams_collisionFree ?_).1, by decide⟩
  exact .step (.step .start (.of_accept Sample.toEmpty)) (.of_accept Sample.fromEmpty)

end Peershares
