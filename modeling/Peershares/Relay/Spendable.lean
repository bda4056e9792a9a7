import Peershares.Relay.Pool

/-!
# The inputs of the memory pool

`accept` looks at the inputs of a transaction once; the chain moves on. An input of the pool should
refer to an output that is unspent in the committed index, or to one of another transaction of the
pool (`Node.InputsSpendable`).

Blocks take transactions out of the pool by their hash, and not what conflicts with them; a
reorganisation brings transactions back without looking at their inputs, and brings no coinbase and no
coinstake back. `Compatible` is what the blocks of a step must not do.

* `CTxMemPool.Spendable.reorganized` — one step of the chain
* `CTxMemPool.Spendable.acceptTx` — `accept`, when it checks the inputs
* `PoolChain.Run.inputs_spendable` — whole runs
* `rival_keeps_pool` — a block with a rival spend
-/

open Framework

namespace Peershares

open IndexView

/-! ### Outputs of a chain -/

/-- The inputs of a transaction as keys of the ledger. -/
theorem mem_keys {tx : CTransaction} {o : COutPoint} : o.key ∈ keys tx.vin ↔ o ∈ tx.prevouts := by
  rw [keys_vin, List.mem_map_of_injective COutPoint.key_injective]

section Outputs

variable {P : Params} {base later : List ConnectedTx} {o : COutPoint}

/-- An unspent output of a longer chain was there before, or a later transaction has made it. -/
theorem isSome_replayTxs_of_append (h : (replayTxs P (base ++ later) o.key).isSome) :
    (replayTxs P base o.key).isSome ∨
      ∃ c ∈ later, P.hashTx c.tx = o.hash ∧ o.n < c.tx.vout.length := by
  unfold replayTxs at h ⊢
  rw [List.map_append] at h
  rcases Ledger.isSome_replay_of_append h with hold | ⟨t, ht, hid, hlt⟩
  · exact Or.inl hold
  · obtain ⟨c, hc, rfl⟩ := List.mem_map.mp ht
    refine Or.inr ⟨c, hc, hid, ?_⟩
    simpa [ConnectedTx.ledgerTx, COutPoint.key] using hlt

/-- An unspent output was made by a transaction of the chain. -/
theorem exists_of_replayTxs (h : (replayTxs P base o.key).isSome) :
    ∃ c ∈ base, P.hashTx c.tx = o.hash ∧ o.n < c.tx.vout.length := by
  have hbase : (replayTxs P ([] ++ base) o.key).isSome := h
  refine (isSome_replayTxs_of_append hbase).resolve_left ?_
  simp [replayTxs, Ledger.empty]

/-- An output that is there, or that a later transaction makes, is unspent in the longer chain when no
later transaction spends it: a transaction that comes again makes the same outputs. -/
theorem isSome_replayTxs_append (hP : CollisionFree P) (hspends : ∀ c ∈ later, o ∉ c.tx.prevouts)
    (h : (replayTxs P base o.key).isSome ∨
      ∃ c ∈ later, P.hashTx c.tx = o.hash ∧ o.n < c.tx.vout.length) :
    (replayTxs P (base ++ later) o.key).isSome := by
  -- some transaction makes the output
  have hmade : ∃ tx, P.hashTx tx = o.hash ∧ o.n < tx.vout.length := by
    rcases h with hold | ⟨c, -, hmade⟩
    · obtain ⟨c, -, hmade⟩ := exists_of_replayTxs hold
      exact ⟨c.tx, hmade⟩
    · exact ⟨c.tx, hmade⟩
  obtain ⟨tx, hhash, hlt⟩ := hmade
  unfold replayTxs at h ⊢
  rw [List.map_append]
  refine Ledger.isSome_replay_append ?_ ?_ ?_
  · intro t ht
    obtain ⟨c, hc, rfl⟩ := List.mem_map.mp ht
    unfold ConnectedTx.ledgerTx
    split_ifs
    · exact List.not_mem_nil
    · exact fun hmem => hspends c hc (mem_keys.mp hmem)
  · intro t ht hid
    obtain ⟨c, hc, rfl⟩ := List.mem_map.mp ht
    -- what has its hash is the same transaction, and makes it again
    have hsame : c.tx = tx := hP.injective (hid.trans hhash.symm)
    simpa [ConnectedTx.ledgerTx, COutPoint.key, hsame] using hlt
  · rcases h with hold | ⟨c, hc, hmade, -⟩
    · exact Or.inl hold
    · exact Or.inr ⟨_, List.mem_map_of_mem hc, hmade⟩

/-- What a transaction of a valid chain spends was there, or made by a later transaction than the
base, and is no output of its own. -/
theorem ValidTxs.input_of_mem (h : ValidTxs P (base ++ later)) {c : ConnectedTx} (hc : c ∈ later)
    (hcb : c.tx.isCoinBase = false) (ho : o ∈ c.tx.prevouts) :
    o.hash ≠ P.hashTx c.tx ∧ ((replayTxs P base o.key).isSome ∨
      ∃ c' ∈ later, P.hashTx c'.tx = o.hash ∧ o.n < c'.tx.vout.length) := by
  obtain ⟨before, after, rfl⟩ := List.append_of_mem hc
  rw [show base ++ (before ++ c :: after) = (base ++ before ++ [c]) ++ after by simp] at h
  have hvalid := h.of_append.valid_last
  have hspent : o.key ∈ (c.ledgerTx P).spends := by
    unfold ConnectedTx.ledgerTx
    rw [if_neg (by simp [hcb])]
    exact mem_keys.mpr ho
  refine ⟨hvalid.id_ne hspent, ?_⟩
  rcases isSome_replayTxs_of_append (hvalid.unspent _ hspent) with hold | ⟨c', hc', hmade⟩
  · exact Or.inl hold
  · exact Or.inr ⟨c', List.mem_append_left _ hc', hmade⟩

end Outputs

/-! ### The property -/

namespace CTxMemPool

/-- A transaction of the pool has the output. -/
def Offers (pool : CTxMemPool) (o : COutPoint) : Prop :=
  ∃ tx, pool.mapTx.lookup o.hash = some tx ∧ o.n < tx.vout.length

/-- Each input of a transaction of the pool refers to another transaction, and there to an output of
which `Unspent` holds or which is in the pool. -/
def Spendable (Unspent : COutPoint → Prop) (pool : CTxMemPool) : Prop :=
  ∀ hash tx, pool.mapTx.lookup hash = some tx → ∀ o ∈ tx.prevouts,
    o.hash ≠ hash ∧ (Unspent o ∨ pool.Offers o)

/-! ### What the blocks of a step must not do -/

/-- `vResurrect`. -/
def resurrected (disconnected : List CBlock) : List CTransaction :=
  (disconnected.flatMap CBlock.vtx).filter (fun tx => !tx.isGenerated)

/-- `accept` has nothing against the kind of the transaction. -/
structure Acceptable (P : Params) (tx : CTransaction) : Prop where
  not_generated : tx.isGenerated = false
  nLockTime_lt : tx.nLockTime < 2 ^ 31
  standard : (P.fTestNet || tx.isStandard) = true

/-- The transaction is in the pool, or in a disconnected block from which it is to come back. -/
def Pending (P : Params) (pool : CTxMemPool) (disconnected : List CBlock) (tx : CTransaction) : Prop :=
  pool.mapTx.lookup (P.hashTx tx) = some tx ∨
    tx ∈ disconnected.flatMap CBlock.vtx ∧ Acceptable P tx

/-- A transaction of a disconnected block can come back: nothing that is pending spends what it
spends. -/
structure Returns (P : Params) (pool : CTxMemPool) (disconnected : List CBlock) (tx : CTransaction) :
    Prop where
  acceptable : Acceptable P tx
  unrivalled : ∀ tx', Pending P pool disconnected tx' → tx' ≠ tx → ∀ o ∈ tx.prevouts,
    o ∉ tx'.prevouts

/-- For the transactions that are pending and not in a connected block: no connected block spends what
they spend, and a transaction of a disconnected block they spend from is in a connected block again, in
the pool, or can come back to it. -/
structure Compatible (P : Params) (pool : CTxMemPool) (disconnected connected : List CBlock) :
    Prop where
  unrivalled : ∀ tx, Pending P pool disconnected tx → tx ∉ connected.flatMap CBlock.vtx →
    ∀ o ∈ tx.prevouts, ∀ tx' ∈ connected.flatMap CBlock.vtx, o ∉ tx'.prevouts
  parents : ∀ tx, Pending P pool disconnected tx → tx ∉ connected.flatMap CBlock.vtx →
    ∀ o ∈ tx.prevouts, ∀ tx' ∈ disconnected.flatMap CBlock.vtx, P.hashTx tx' = o.hash →
      tx' ∈ connected.flatMap CBlock.vtx ∨ pool.mapTx.lookup o.hash = some tx' ∨
        Returns P pool disconnected tx'

/-! ### The loops of a step -/

variable {P : Params} {pool : CTxMemPool} {vtx : List CTransaction} {tx : CTransaction}
  {hash : Uint256}

/-- The pool after one transaction is removed. -/
theorem mapTx_remove : (pool.remove P tx).mapTx.lookup hash =
    if hash = P.hashTx tx then none else pool.mapTx.lookup hash := by
  unfold CTxMemPool.remove
  split_ifs with hmem hhash hhash
  · rw [hhash, Map.lookup_erase_eq, if_pos rfl]
  · rw [Map.lookup_erase_eq, if_neg hhash]
  · rw [hhash]
    simpa using hmem
  · rfl

/-- And after a row of them. -/
theorem mapTx_removeTxs : (pool.removeTxs P vtx).mapTx.lookup hash =
    if hash ∈ vtx.map P.hashTx then none else pool.mapTx.lookup hash := by
  unfold removeTxs
  induction vtx generalizing pool with
  | nil => simp
  | cons tx vtx ih =>
    rw [List.foldl_cons, ih, mapTx_remove, List.map_cons]
    by_cases hhash : hash = P.hashTx tx <;> by_cases hin : hash ∈ vtx.map P.hashTx <;>
      simp [hhash, hin]

/-- `accept` keeps what is in the pool. -/
theorem mapTx_accept_of_some {tx' : CTransaction} (h : pool.mapTx.lookup hash = some tx') :
    (pool.accept P tx).mapTx.lookup hash = some tx' := by
  unfold CTxMemPool.accept
  split
  · next hchecks =>
    rw [addUnchecked_mapTx, if_neg, h]
    rintro rfl
    rw [(admissible_of_acceptChecks hchecks).absent] at h
    exact absurd h (by simp)
  · exact h

/-- What is in the pool stays there while others are accepted. -/
theorem mapTx_foldl_accept_of_some {tx' : CTransaction} (h : pool.mapTx.lookup hash = some tx') :
    (vtx.foldl (CTxMemPool.accept P) pool).mapTx.lookup hash = some tx' := by
  induction vtx generalizing pool with
  | nil => exact h
  | cons tx vtx ih => exact ih (mapTx_accept_of_some h)

/-- What `accept` tests of the transaction alone. -/
theorem acceptable_of_acceptChecks (h : pool.acceptChecks P tx = .ok ()) : Acceptable P tx := by
  simp only [acceptChecks, Result.bind_eq_ok, require_eq_ok] at h
  obtain ⟨-, -, -, hcb, -, hcs, -, hlock, -, hstandard, -⟩ := h
  refine ⟨?_, of_decide_eq_true hlock, hstandard⟩
  unfold CTransaction.isGenerated
  rw [Bool.or_eq_false_iff]
  exact ⟨by simpa using hcb, by simpa using hcs⟩

/-- What is in the pool after the loop was there before, or was brought back. -/
theorem of_mapTx_foldl_accept {tx' : CTransaction}
    (h : (vtx.foldl (CTxMemPool.accept P) pool).mapTx.lookup hash = some tx') :
    pool.mapTx.lookup hash = some tx' ∨ tx' ∈ vtx ∧ Acceptable P tx' := by
  induction vtx generalizing pool with
  | nil => exact Or.inl h
  | cons tx vtx ih =>
    rcases ih h with hin | ⟨hmem, hacceptable⟩
    · unfold CTxMemPool.accept at hin
      split at hin
      · next hchecks =>
        rw [addUnchecked_mapTx] at hin
        split_ifs at hin with hhash
        · rw [← Option.some.inj hin]
          exact Or.inr ⟨List.mem_cons_self, acceptable_of_acceptChecks hchecks⟩
        · exact Or.inl hin
      · exact Or.inl hin
    · exact Or.inr ⟨List.mem_cons_of_mem _ hmem, hacceptable⟩

/-- The rest of its tests is about the pool. -/
theorem Acceptable.acceptChecks (h : Acceptable P tx) (hcheck : tx.checkTransaction = .ok ())
    (habsent : pool.mapTx.lookup (P.hashTx tx) = none)
    (hfree : ∀ o ∈ tx.prevouts, pool.mapNextTx.lookup o = none) :
    pool.acceptChecks P tx = .ok () := by
  have hgen := h.not_generated
  unfold CTransaction.isGenerated at hgen
  rw [Bool.or_eq_false_iff] at hgen
  unfold CTxMemPool.acceptChecks
  simp only [Result.bind_eq_ok, require_eq_ok]
  -- the tests of `accept` in their order
  refine ⟨(), ?_, (), ?_, (), ?_, (), ?_, (), h.standard, (), ?_, ?_⟩
  · rw [hcheck]
    rfl
  · rw [hgen.1]
    rfl
  · rw [hgen.2]
    rfl
  · exact decide_eq_true h.nLockTime_lt
  · rw [habsent]
    rfl
  · rw [List.all_eq_true]
    intro txin htxin
    rw [hfree _ (List.mem_map_of_mem htxin)]
    rfl

/-- The loop brings a transaction back that can come back. -/
theorem Returns.mapTx_foldl_accept {disconnected : List CBlock} (hP : CollisionFree P)
    (hpool : pool.Indexed P) (h : Returns P pool disconnected tx)
    (hcheck : tx.checkTransaction = .ok ()) (hmem : tx ∈ disconnected.flatMap CBlock.vtx) :
    ((resurrected disconnected).foldl (CTxMemPool.accept P) pool).mapTx.lookup (P.hashTx tx) =
      some tx := by
  have hres : tx ∈ resurrected disconnected :=
    List.mem_filter.mpr ⟨hmem, by rw [h.acceptable.not_generated]; rfl⟩
  obtain ⟨before, after, hsplit⟩ := List.append_of_mem hres
  rw [hsplit, List.foldl_append, List.foldl_cons]
  refine mapTx_foldl_accept_of_some ?_
  set pool₁ := before.foldl (CTxMemPool.accept P) pool with hpool₁
  have hindexed : pool₁.Indexed P := Indexed.foldl (fun _ _ h => h.accept hP) before hpool
  cases hlookup : pool₁.mapTx.lookup (P.hashTx tx) with
  -- it came back before, under the same hash
  | some tx₁ =>
    rw [mapTx_accept_of_some hlookup, hP.injective (hindexed.keyed _ _ hlookup)]
  | none =>
    -- a rival in the pool at this point is one that is pending
    have hfree : ∀ o ∈ tx.prevouts, pool₁.mapNextTx.lookup o = none := by
      intro o ho
      by_contra hrival
      obtain ⟨⟨hash, i⟩, hnext⟩ := Option.ne_none_iff_exists'.mp hrival
      obtain ⟨tx', htx', hi⟩ := (hindexed.mapNextTx_iff o hash i).mp hnext
      have hpending : Pending P pool disconnected tx' := by
        rcases of_mapTx_foldl_accept htx' with hin | ⟨hin, hacceptable⟩
        · rw [← hindexed.keyed _ _ htx'] at hin
          exact Or.inl hin
        · have hin' : tx' ∈ resurrected disconnected := by
            rw [hsplit]
            exact List.mem_append_left _ hin
          exact Or.inr ⟨List.mem_of_mem_filter hin', hacceptable⟩
      have hne : tx' ≠ tx := by
        rintro rfl
        rw [← hindexed.keyed _ _ htx', hlookup] at htx'
        exact absurd htx' (by simp)
      exact h.unrivalled tx' hpending hne o ho (List.mem_of_getElem? hi)
    have hchecks := h.acceptable.acceptChecks hcheck hlookup hfree
    unfold CTxMemPool.accept
    rw [hchecks]
    simp only
    rw [addUnchecked_mapTx, if_pos rfl]

/-! ### One step of the chain -/

/-- The transactions of a row of blocks are those of a part of the chain. -/
def BlocksOf (blocks : List CBlock) (txs : List ConnectedTx) : Prop :=
  ∀ tx, tx ∈ blocks.flatMap CBlock.vtx ↔ ∃ c ∈ txs, c.tx = tx

/-- **The chain moves.** `base` is the chain up to the fork, `old` and `new` are the branches that are
disconnected and connected. -/
theorem Spendable.reorganized {base old new : List ConnectedTx} {disconnected connected : List CBlock}
    (hP : CollisionFree P) (hpool : pool.Indexed P)
    (h : pool.Spendable (fun o => (replayTxs P (base ++ old) o.key).isSome))
    (hvalid : ValidTxs P (base ++ old)) (hold : BlocksOf disconnected old)
    (hnew : BlocksOf connected new)
    (hcheck : ∀ tx ∈ disconnected.flatMap CBlock.vtx, tx.checkTransaction = .ok ())
    (hcompatible : Compatible P pool disconnected connected) :
    (pool.reorganized P disconnected connected).Spendable
      (fun o => (replayTxs P (base ++ new) o.key).isSome) := by
  -- the pool with the transactions of the disconnected blocks
  set pool₁ := (resurrected disconnected).foldl (CTxMemPool.accept P) pool with hpool₁
  have hlookup : ∀ hash, (pool.reorganized P disconnected connected).mapTx.lookup hash =
      if hash ∈ (connected.flatMap CBlock.vtx).map P.hashTx then none
      else pool₁.mapTx.lookup hash := fun hash => mapTx_removeTxs
  have hindexed : pool₁.Indexed P := Indexed.foldl (fun _ _ h => h.accept hP) _ hpool
  -- a transaction of the new pool, and one of its inputs
  intro hash tx htx o ho
  rw [hlookup] at htx
  split_ifs at htx with hleft
  have hhash := hindexed.keyed _ _ htx
  subst hhash
  -- the transaction was pending, and is in no connected block
  have hpending : Pending P pool disconnected tx :=
    (of_mapTx_foldl_accept htx).imp id (And.imp List.mem_of_mem_filter id)
  have hstays : tx ∉ connected.flatMap CBlock.vtx :=
    fun hmem => hleft (List.mem_map_of_mem hmem)
  have hunspent : ∀ c ∈ new, o ∉ c.tx.prevouts := fun c hc =>
    hcompatible.unrivalled tx hpending hstays o ho c.tx ((hnew c.tx).mpr ⟨c, hc, rfl⟩)
  -- an output of a transaction that is in the pool or in a connected block is there afterwards
  have hkept : ∀ tx', P.hashTx tx' = o.hash → o.n < tx'.vout.length →
      (tx' ∈ connected.flatMap CBlock.vtx ∨ pool₁.mapTx.lookup o.hash = some tx') →
      (replayTxs P (base ++ new) o.key).isSome ∨
        (pool.reorganized P disconnected connected).Offers o := by
    intro tx' hhash' hlt hor
    by_cases hin : tx' ∈ connected.flatMap CBlock.vtx
    · obtain ⟨c, hc, rfl⟩ := (hnew tx').mp hin
      exact Or.inl (isSome_replayTxs_append hP hunspent (Or.inr ⟨c, hc, hhash', hlt⟩))
    · refine Or.inr ⟨tx', ?_, hlt⟩
      rw [hlookup, if_neg]
      · exact hor.resolve_left hin
      · intro hmem
        obtain ⟨tx₀, htx₀, hhash₀⟩ := List.mem_map.mp hmem
        rw [hP.injective (hhash₀.trans hhash'.symm)] at htx₀
        exact hin htx₀
  -- where the output was before: below the fork, in a disconnected block, or in the pool
  have hbefore : o.hash ≠ P.hashTx tx ∧ ((replayTxs P base o.key).isSome ∨
      (∃ c ∈ old, P.hashTx c.tx = o.hash ∧ o.n < c.tx.vout.length) ∨ pool.Offers o) := by
    -- a pending transaction was in the pool, or in a disconnected block
    rcases hpending with hin | ⟨hmem, hacceptable⟩
    · obtain ⟨hne, hchain | hoffer⟩ := h _ tx hin o ho
      · exact ⟨hne, (isSome_replayTxs_of_append hchain).imp id Or.inl⟩
      · exact ⟨hne, Or.inr (Or.inr hoffer)⟩
    · obtain ⟨c, hc, rfl⟩ := (hold tx).mp hmem
      have hgen := hacceptable.not_generated
      unfold CTransaction.isGenerated at hgen
      rw [Bool.or_eq_false_iff] at hgen
      have hcb : c.tx.isCoinBase = false := hgen.1
      obtain ⟨hne, hmade⟩ := hvalid.input_of_mem hc hcb ho
      exact ⟨hne, hmade.imp id Or.inl⟩
  obtain ⟨hne, hbase | ⟨c, hc, hmade, hlt⟩ | ⟨tx', htx', hlt⟩⟩ := hbefore
  · -- below the fork nothing changes
    exact ⟨hne, Or.inl (isSome_replayTxs_append hP hunspent (Or.inl hbase))⟩
  · -- a disconnected parent is connected again, or goes into the pool
    have hmem : c.tx ∈ disconnected.flatMap CBlock.vtx := (hold c.tx).mpr ⟨c, hc, rfl⟩
    refine ⟨hne, hkept c.tx hmade hlt ?_⟩
    rcases hcompatible.parents tx hpending hstays o ho c.tx hmem hmade with hin | hin | hreturns
    · exact Or.inl hin
    · exact Or.inr (mapTx_foldl_accept_of_some hin)
    · rw [← hmade]
      exact Or.inr (hreturns.mapTx_foldl_accept hP hpool (hcheck c.tx hmem) hmem)
  · -- a parent in the pool stays there or is connected
    exact ⟨hne, hkept tx' (hpool.keyed _ _ htx') hlt (Or.inr (mapTx_foldl_accept_of_some htx'))⟩

end CTxMemPool

/-! ### `accept` -/

/-- The second loop of `ConnectInputs` finds every output unspent in what was fetched. -/
theorem null_of_spendInputs {P : Params} {env : ConnectEnv} {tx : CTransaction}
    {posThisTx : CDiskTxPos} {fBlock fMiner fStrict : Bool} {vin : List CTxIn} {nIn : ℕ}
    {inputs : MapPrevTx} {mapTestPool mapTestPool' : TxIndexMap}
    (h : spendInputs P env tx posThisTx fBlock fMiner fStrict vin nIn inputs mapTestPool
      = .ok mapTestPool') :
    ∀ txin ∈ vin, ∃ prev, inputs.lookup txin.prevout.hash = some prev ∧
      (prev.1.vSpent[txin.prevout.n]?).any CDiskTxPos.isNull = true := by
  induction vin generalizing nIn inputs mapTestPool with
  | nil => simp
  | cons txin₀ vin ih =>
    simp only [spendInputs, Result.bind_eq_ok, require_eq_ok] at h
    obtain ⟨prev₀, hprev₀, -, hnull₀, -, -, hrest⟩ := h
    have hlook₀ := getPrev_eq_ok hprev₀
    refine List.forall_mem_cons.mpr ⟨⟨prev₀, hlook₀, hnull₀⟩, fun txin htxin => ?_⟩
    obtain ⟨prev, hlook, hnull⟩ := ih hrest txin htxin
    rw [Map.lookup_insert_eq] at hlook
    split_ifs at hlook with hhash
    · -- the entry was marked by an earlier input; what is unmarked still was so before
      cases hlook
      refine ⟨prev₀, hhash ▸ hlook₀, ?_⟩
      by_cases hn : txin₀.prevout.n = txin.prevout.n
      · rw [← hn]
        exact hnull₀
      · simpa [CTxIndex.spend, List.getElem?_set_ne hn] using hnull
    · exact ⟨prev, hlook, hnull⟩

/-- What `FetchInputs` finds for a transaction of the pool: an entry of the index with the stored
transaction, or a transaction of the pool. -/
theorem fetchPrev_of_accept {env : ConnectEnv} {mapTestPool : TxIndexMap} {hash : Uint256}
    {prev : CTxIndex × CTransaction} (h : fetchPrev env mapTestPool false false hash = .ok prev) :
    (env.txIndex.lookup hash = some prev.1 ∧ env.files.readTx prev.1.pos = some prev.2) ∨
      (prev.1.pos = CDiskTxPos.inMempool ∨ env.txIndex.lookup hash = none) ∧
        env.mempool.lookup hash = some prev.2 := by
  unfold fetchPrev fetchIndex at h
  simp only [Bool.or_self, Bool.false_eq_true, if_false] at h
  split at h
  · -- without an entry the transaction must be in the pool
    next hnone =>
    split at h
    · exact absurd h (by simp)
    · next txPrev hmem =>
      cases h
      exact Or.inr ⟨Or.inr hnone, hmem⟩
  · next txindex hsome =>
    -- an entry that points to the pool is read there, any other one in the files
    split_ifs at h with hpool
    · split at h
      · exact absurd h (by simp)
      · next txPrev hmem =>
        cases h
        exact Or.inr ⟨Or.inl hpool, hmem⟩
    · split at h
      · exact absurd h (by simp)
      · next txPrev hread =>
        cases h
        exact Or.inl ⟨hsome, hread⟩

namespace CTxMemPool

variable {P : Params} {pool pool' : CTxMemPool} {tx : CTransaction}

/-- The last test of `accept` is `ConnectInputs`. -/
theorem connectInputs_of_checkFetched {env : AcceptEnv} {inputs : MapPrevTx} {u : Unit}
    (h : pool.checkFetched P env tx inputs = .ok u) :
    ∃ mapTestPool, tx.connectInputs P (pool.connectEnv env) inputs ∅ CDiskTxPos.inMempool
      env.pindexBest false false true = .ok mapTestPool := by
  simp only [checkFetched, Result.bind_eq_ok, require_eq_ok] at h
  obtain ⟨_, -, -, -, _, -, _, -, -, -, -, -, hconnect⟩ := h
  split at hconnect
  · exact absurd hconnect (by simp)
  · exact absurd hconnect (by simp)
  · next mapTestPool hok => exact ⟨mapTestPool, hok⟩

/-- The inputs that `accept` has checked are there: in the index and unspent, or in the pool. The
transaction itself is in neither. -/
theorem inputs_of_checkInputs {env : AcceptEnv} (hcb : tx.isCoinBase = false)
    (habsent : pool.mapTx.lookup (P.hashTx tx) = none) (h : pool.checkInputs P env tx = .ok ()) :
    ∀ o ∈ tx.prevouts, o.hash ≠ P.hashTx tx ∧
      ((unspent env.files env.txIndex.lookup o.key).isSome ∨ pool.Offers o) := by
  unfold CTxMemPool.checkInputs at h
  cases hnew : (env.txIndex.lookup (P.hashTx tx)).isNone with
  -- the index has it already, and the first test fails
  | false =>
    rw [hnew] at h
    exact absurd h (by simp [require, verdict, bind, Except.bind])
  | true =>
    rw [hnew] at h
    simp only [require, if_true, verdict, bind, Except.bind] at h
    split at h
    · next inputs hfetch =>
      -- the second loop of `ConnectInputs` has seen each output unspent, in what was fetched
      obtain ⟨mapTestPool, hconnect⟩ := connectInputs_of_checkFetched (verdict_eq_ok.mp h)
      unfold CTransaction.connectInputs at hconnect
      rw [if_neg (by simp [hcb])] at hconnect
      simp only [Result.bind_eq_ok] at hconnect
      obtain ⟨_, hcheck, _, hspend, -⟩ := hconnect
      intro o ho
      obtain ⟨txin, htxin, rfl⟩ := List.mem_map.mp ho
      obtain ⟨prev, hlook, hnull⟩ := null_of_spendInputs hspend txin htxin
      obtain ⟨_, txout, hin⟩ := (checkInputs_eq_ok hcheck).1 txin htxin
      cases hin.prev_eq.symm.trans hlook
      -- what was fetched came from the index or from the pool
      rcases CTransaction.fetchInputs_forall (fun _ _ => fetchPrev_of_accept) hfetch _ _ hlook with
        ⟨hindex, hread⟩ | ⟨-, hmem⟩
      · -- from the index: it was unspent
        change env.txIndex.lookup _ = _ at hindex
        change env.files.readTx _ = _ at hread
        refine ⟨?_, Or.inl ?_⟩
        · intro heq
          rw [heq] at hindex
          rw [hindex] at hnew
          exact absurd hnew (by simp)
        · have hnullAt : nullAt env.txIndex.lookup txin.prevout.key = true := by
            simpa [nullAt, COutPoint.key, hindex] using hnull
          unfold unspent
          rw [if_pos hnullAt]
          simp [posOf, coinAt, COutPoint.key, hindex, hread, hin.out_eq]
      · -- from the pool
        change pool.mapTx.lookup _ = _ at hmem
        refine ⟨?_, Or.inr ⟨prev.2, hmem, (List.getElem?_eq_some_iff.mp hin.out_eq).1⟩⟩
        intro heq
        rw [heq, habsent] at hmem
        exact absurd hmem (by simp)
    · exact absurd h (by simp)
    · exact absurd h (by simp)
    · exact absurd h (by simp)

/-- **`accept`** keeps the inputs of the pool spendable when those of the new transaction are: it has
checked them itself, or they happen to be. -/
theorem Spendable.acceptTx {env : AcceptEnv} {fCheckInputs : Bool} {Unspent : COutPoint → Prop}
    (h : pool.Spendable Unspent)
    (hunspent : ∀ o : COutPoint, (unspent env.files env.txIndex.lookup o.key).isSome → Unspent o)
    (hunchecked : fCheckInputs = false → ∀ o ∈ tx.prevouts,
      o.hash ≠ P.hashTx tx ∧ (Unspent o ∨ pool.Offers o))
    (haccept : pool.acceptTx P env fCheckInputs tx = .ok pool') : pool'.Spendable Unspent := by
  obtain ⟨hchecks, hinputs, rfl⟩ := acceptTx_eq_ok.mp haccept
  have hadm := admissible_of_acceptChecks hchecks
  -- the inputs of the new transaction are spendable, checked or not
  have hnew : ∀ o ∈ tx.prevouts, o.hash ≠ P.hashTx tx ∧ (Unspent o ∨ pool.Offers o) := by
    cases fCheckInputs with
    | false => exact hunchecked rfl
    | true =>
      intro o ho
      obtain ⟨hne, hor⟩ := inputs_of_checkInputs hadm.not_coinBase hadm.absent (hinputs rfl) o ho
      exact ⟨hne, hor.imp (hunspent o) id⟩
  -- what the pool offered it still offers
  have hoffers : ∀ o : COutPoint, pool.Offers o → (pool.addUnchecked P tx).Offers o := by
    rintro o ⟨tx', htx', hlt⟩
    refine ⟨tx', ?_, hlt⟩
    rw [addUnchecked_mapTx, if_neg, htx']
    intro heq
    rw [heq, hadm.absent] at htx'
    exact absurd htx' (by simp)
  intro hash tx₀ htx₀ o ho
  rw [addUnchecked_mapTx] at htx₀
  split_ifs at htx₀ with hhash
  · cases htx₀
    rw [hhash]
    exact (hnew o ho).imp id (Or.imp id (hoffers o))
  · exact (h hash tx₀ htx₀ o ho).imp id (Or.imp id (hoffers o))

end CTxMemPool

/-! ### The blocks of a branch -/

/-- The blocks of a branch, as they are stored. -/
def branchBlocks (files : BlockFiles) (branch : List (CBlockIndex × BlockPtr)) : List CBlock :=
  branch.filterMap (fun x => files.readBlock x.1.nFile x.1.nBlockPos)

/-- The blocks of a branch, one more. -/
theorem branchBlocks_cons {files : BlockFiles} {x : CBlockIndex × BlockPtr}
    {branch : List (CBlockIndex × BlockPtr)} {block : CBlock}
    (hread : files.readBlock x.1.nFile x.1.nBlockPos = some block) :
    branchBlocks files (x :: branch) = block :: branchBlocks files branch := by
  unfold branchBlocks
  rw [List.filterMap_cons, hread]

/-- The loops of `Reorganize` go through the stored blocks. -/
theorem progress_blocks {P : Params} {H : Host} {files : BlockFiles}
    {index : CBlock → CBlockIndex → BlockPtr → TxIndexMap → Option TxIndexMap}
    {branch : List (CBlockIndex × BlockPtr)} {txIndex txIndex' : TxIndexMap} {blocks : List CBlock}
    (h : progress P H files index branch txIndex = (blocks, some txIndex')) :
    blocks = branchBlocks files branch := by
  induction branch generalizing txIndex blocks with
  | nil =>
    rw [progress] at h
    cases h
    rfl
  | cons x branch ih =>
    rw [progress] at h
    -- a block that cannot be read ends the loop
    cases hread : readFromDisk P H files x.1 with
    | error e =>
      rw [hread] at h
      exact absurd h (by simp)
    | ok block =>
      rw [hread] at h
      simp only at h
      cases hindex : index block x.1 x.2 txIndex with
      | none =>
        rw [hindex] at h
        exact absurd h (by simp)
      | some txIndex₁ =>
        rw [hindex] at h
        simp only [Prod.mk.injEq] at h
        obtain ⟨rfl, hrest⟩ := h
        rw [branchBlocks_cons (readFromDisk_eq_ok hread).1]
        exact congrArg (block :: ·) (ih (Prod.ext rfl hrest))

/-- The blocks that `Reorganize` has disconnected and connected are those of both branches. -/
theorem reorganizeProgress_blocks {P : Params} {H : Host} {g : Globals}
    {vDisconnect vConnect : List (CBlockIndex × BlockPtr)} {txIndex txIndex' : TxIndexMap}
    {disconnected connected : List CBlock}
    (h : reorganizeProgress P H g vDisconnect vConnect txIndex =
      (disconnected, connected, some txIndex')) :
    disconnected = branchBlocks g.files vDisconnect ∧ connected = branchBlocks g.files vConnect := by
  cases hdisc : progress P H g.files (disconnectedIndex P H) vDisconnect txIndex with
  | mk blocks r =>
    cases r with
    | none =>
      rw [reorganizeProgress_of_none (by rw [hdisc])] at h
      exact absurd h (by simp)
    | some txIndex₁ =>
      rw [reorganizeProgress_of_some hdisc, Prod.mk.injEq] at h
      exact ⟨h.1.symm.trans (progress_blocks hdisc), progress_blocks h.2⟩

/-- The order of the branch does not matter for what it holds. -/
theorem mem_branchBlocks_reverse {files : BlockFiles} {branch : List (CBlockIndex × BlockPtr)}
    {tx : CTransaction} : tx ∈ (branchBlocks files branch.reverse).flatMap CBlock.vtx ↔
      tx ∈ (branchBlocks files branch).flatMap CBlock.vtx := by
  unfold branchBlocks
  simp only [List.filterMap_reverse, List.mem_flatMap, List.mem_reverse]

/-- The transactions of a chain are those up to a block of it and those of the blocks above. -/
theorem TreeOk.connectedTxs_branch {P : Params} {files : BlockFiles} {p pfork : BlockPtr}
    (h : TreeOk P files p) (hs : pfork <:+ p) (hne : pfork ≠ []) :
    ∃ later, connectedTxs files p = connectedTxs files pfork ++ later ∧
      CTxMemPool.BlocksOf (branchBlocks files (BlockPtr.above pfork p)) later := by
  induction p with
  | nil => exact absurd (List.suffix_nil.mp hs) hne
  | cons e p ih =>
    rcases List.suffix_cons_iff.mp hs with rfl | hs
    · refine ⟨[], by simp, fun tx => ?_⟩
      rw [BlockPtr.above_self]
      simp [branchBlocks]
    · -- the block is not genesis, so it is stored
      have hpne : p ≠ [] := by
        rintro rfl
        exact hne (List.suffix_nil.mp hs)
      obtain ⟨block, hread, -⟩ := h.cons_inv hpne
      obtain ⟨later, hlater, hblocks⟩ := ih (h.suffix (List.suffix_cons e p) hpne) hs
      refine ⟨later ++ blockTxs e p (StoredBlock.firstTxPos ⟨e.nFile, e.nBlockPos, block⟩) block.vtx,
        ?_, fun tx => ?_⟩
      · rw [connectedTxs_cons e hpne hread, hlater, List.append_assoc]
      · -- what the chain has more is what the block has more
        have hmem : tx ∈ block.vtx ↔ ∃ c ∈ blockTxs e p
            (StoredBlock.firstTxPos ⟨e.nFile, e.nBlockPos, block⟩) block.vtx, c.tx = tx := by
          rw [← List.mem_map, map_tx_blockTxs]
        rw [BlockPtr.above_cons e hs, branchBlocks_cons (x := (e, p)) hread, List.flatMap_cons,
          List.mem_append, hmem, hblocks tx]
        simp only [List.mem_append, or_and_right, exists_or]
        exact or_comm

/-- The transactions of the blocks above a fork have passed `CheckTransaction`. -/
theorem Globals.TreeInv.checkTransaction_of_branch {P : Params} {g : Globals} {p pfork : BlockPtr}
    (ht : g.TreeInv P) (hp : g.InTree p) (hs : pfork <:+ p) (hne : pfork ≠ []) :
    ∀ tx ∈ (branchBlocks g.files (BlockPtr.above pfork p)).flatMap CBlock.vtx,
      tx.checkTransaction = .ok () := by
  intro tx htx
  obtain ⟨block, hblock, htx⟩ := List.mem_flatMap.mp htx
  obtain ⟨x, hx, hread⟩ := List.mem_filterMap.mp hblock
  obtain ⟨hxs, hfork⟩ := (BlockPtr.mem_above hs hne).mp hx
  have hxne : x.2 ≠ [] := by
    intro heq
    rw [heq] at hfork
    exact hne (List.suffix_nil.mp hfork)
  obtain ⟨-, _, hcheck⟩ := ht.stored x.1 x.2 block (ht.suffix hp hxs (by simp)) hxne hread
  exact CBlock.checkTransaction_of_checkBlock hcheck tx htx

/-! ### The chain a node is on -/

/-- The chain with the tip `q` is the one that is committed; while `SetBestChain` runs, the best block
in memory is still another one. -/
structure OnChain (P : Params) (n : Node) (q : BlockPtr) : Prop where
  tree : n.toGlobals.TreeInv P
  tip : n.InTree q
  connected : ConnectedTo P n.toGlobals q n

/-- The output is in the committed index, and not spent. -/
def Node.Unspent (n : Node) (o : COutPoint) : Prop :=
  (unspent n.files n.txdb.committed.txIndex.lookup o.key).isSome

/-- Every input of every transaction of the pool refers to another transaction, and there to an output
that is unspent in the committed index or that is in the pool. -/
def Node.InputsSpendable (n : Node) : Prop := n.mempool.Spendable n.Unspent

namespace OnChain

variable {P : Params} {n n' : Node} {q : BlockPtr}

/-- On a chain the index shows the ledger of its transactions. -/
theorem ledger (h : OnChain P n q) :
    n.Unspent = (fun o : COutPoint => (replayTxs P (connectedTxs n.files q) o.key).isSome = true) ∧
      ValidTxs P (connectedTxs n.files q) := by
  obtain ⟨c, hreach, hfiles, -, rfl, hindex⟩ := h.connected.index
  obtain ⟨hok, hvalid, -, -⟩ := hreach.inv.ledger
  rw [hfiles, hindex] at hok
  rw [hfiles] at hvalid
  refine ⟨?_, hvalid⟩
  unfold Node.Unspent
  rw [hok.unspent_eq]

/-- What the tree, the links and the committed data decide. -/
theorem of_connectedTo (h : OnChain P n q) {p : BlockPtr} (hp : n.InTree p)
    (hn' : ConnectedTo P n.toGlobals p n') : OnChain P n' p where
  tree := h.tree.congr hn'.mapBlockIndex hn'.files
  tip := by
    unfold Globals.InTree
    rw [hn'.mapBlockIndex]
    exact hp
  connected := ⟨rfl, rfl, rfl, hn'.vTxn, hn'.hashBestChain, hn'.linked,
    hn'.index.congr hn'.mapBlockIndex hn'.files⟩

/-- The store of `ConnectBlock` opens its transaction on the committed data. -/
theorem inTxn (h : OnChain P n q) :
    Store.InTxn { n.toStore with txdb := n.txdb.txnBegin } n.txdb.committed n.txdb.committed := by
  unfold Store.InTxn CTxDB.txnBegin CTxDB.view
  rw [h.connected.vTxn]
  rfl

end OnChain

/-! ### Runs of a node -/

/-- What happens to the pool: a transaction is accepted, or blocks are disconnected and connected. -/
inductive PoolEvent where
  | accept (fCheckInputs : Bool) (tx : CTransaction)
  | blocks (disconnected connected : List CBlock)

namespace PoolChain

/-- One step of a node whose committed chain has the tip `q`. `Allowed` says which events are looked
at. -/
inductive Step (P : Params) (Allowed : Node → PoolEvent → Prop) (n : Node) (q : BlockPtr) :
    Node → BlockPtr → Prop where
  /-- `CTxMemPool::accept` takes a transaction. -/
  | accept {env : AcceptEnv} {fCheckInputs : Bool} {tx : CTransaction} {pool' : CTxMemPool}
      (hfiles : env.files = n.files) (hindex : env.txIndex = n.txdb.committed.txIndex)
      (hbest : env.pindexBest = n.pindexBest) (hheight : env.nBestHeight = n.nBestHeight)
      (hallowed : Allowed n (.accept fCheckInputs tx))
      (haccept : n.mempool.acceptTx P env fCheckInputs tx = .ok pool') :
      Step P Allowed n q { n with mempool := pool' } q
  /-- `SetBestChainInner` connects the next block. -/
  | connect {H : Host} {block : CBlock} {pindex : CBlockIndex} {n' : Node}
      (hin : n.InTree (pindex :: q))
      (hread : n.files.readBlock pindex.nFile pindex.nBlockPos = some block)
      (hallowed : Allowed n (.blocks [] [block]))
      (hrun : setBestChainInner P H block pindex q { n with txdb := n.txdb.txnBegin } = (.ok (), n')) :
      Step P Allowed n q n' (pindex :: q)
  /-- `Reorganize` switches to another branch. -/
  | reorganize {H : Host} {pindexNew pfork : BlockPtr} {n' : Node} (hbest : n.pindexBest = q)
      (hin : n.InTree pindexNew) (hfork : BlockPtr.findFork n.pindexBest pindexNew = .ok pfork)
      (hallowed : Allowed n (.blocks (branchBlocks n.files (BlockPtr.above pfork n.pindexBest))
        (branchBlocks n.files (BlockPtr.above pfork pindexNew).reverse)))
      (hrun : reorganize P H pindexNew { n with txdb := n.txdb.txnBegin } = (.ok (), n')) :
      Step P Allowed n q n' pindexNew
  /-- `SetBestChain` makes a block the best one in memory. It is the tip, unless a postponed block did not connect. -/
  | newBest {pindexNew : BlockPtr} (hin : n.InTree pindexNew) :
      Step P Allowed n q (n.newBest pindexNew.hash pindexNew) q
  /-- A block is put into the tree. -/
  | insert {pprev : BlockPtr} {block : CBlock} {files : BlockFiles} {nFile nBlockPos : ℕ}
      {nBestHeight nAdjustedTime nAdjustedTime' : Int}
      (hprev : n.mapBlockIndex.lookup block.hashPrevBlock = some pprev)
      (hnew : n.mapBlockIndex.lookup (block.getHash P) = none)
      (hcheck : block.checkBlock P nAdjustedTime = .ok ())
      (hcontext : block.acceptBlockContext P nBestHeight nAdjustedTime' pprev = .ok ())
      (hwrite : n.files.writeToDisk block = some (files, nFile, nBlockPos)) :
      Step P Allowed n q { n with
        files
        mapBlockIndex := n.mapBlockIndex.insert (block.getHash P)
          (block.newIndex P pprev nFile nBlockPos :: pprev) } q
  /-- A block is written, but no entry is made. -/
  | store {block : CBlock} {files : BlockFiles} {nFile nBlockPos : ℕ}
      (hwrite : n.files.writeToDisk block = some (files, nFile, nBlockPos)) :
      Step P Allowed n q { n with files } q
  /-- Anything that leaves the chain and the pool alone. -/
  | other {n' : Node} (hsame : Node.SameChain n n') (hpool : n'.mempool = n.mempool) :
      Step P Allowed n q n' q

/-- The states a node reaches from one with an empty pool. -/
inductive Run (P : Params) (Allowed : Node → PoolEvent → Prop) : Node → BlockPtr → Prop where
  | start {n : Node} (hrun : Node.Run P n) (hempty : n.mempool = {}) : Run P Allowed n n.pindexBest
  | step {n n' : Node} {q q' : BlockPtr} (hrun : Run P Allowed n q)
      (hstep : Step P Allowed n q n' q') : Run P Allowed n' q'

/-- What keeps the inputs spendable: a transaction that is accepted unchecked has its inputs, and
blocks are compatible with the pool. -/
def Keeps (P : Params) (n : Node) : PoolEvent → Prop
  | .accept fCheckInputs tx => fCheckInputs = false → ∀ o ∈ tx.prevouts,
      o.hash ≠ P.hashTx tx ∧ (n.Unspent o ∨ n.mempool.Offers o)
  | .blocks disconnected connected => n.mempool.Compatible P disconnected connected

variable {P : Params} {Allowed : Node → PoolEvent → Prop} {n n' : Node} {q q' : BlockPtr}
  {e : CBlockIndex}

/-- A step keeps the committed chain and its tip together. -/
theorem Step.onChain (h : OnChain P n q) (hstep : Step P Allowed n q n' q') : OnChain P n' q' := by
  have hconnected := h.connected
  cases hstep with
  | accept hfiles hindex hbest hheight hallowed haccept =>
    exact h.of_connectedTo h.tip ⟨rfl, rfl, rfl, hconnected.vTxn, hconnected.hashBestChain,
      hconnected.linked, hconnected.index⟩
  | @connect H block pindex _ hin hread hallowed hrun =>
    obtain ⟨d', hne, hg, htxdb, hbest, hidx, hw⟩ := (setBestChainInner_spec h.inTxn).of_ok hrun
    exact h.of_connectedTo hin (hconnected.extend h.tree hin hread (h.tree.getHash_eq hin hread)
      ⟨hne, hg, htxdb, hbest, hidx, hw⟩)
  | reorganize hbest hin hfork hallowed hrun =>
    obtain ⟨pfork', d', hfork', hg, htxdb, hhash, hidx, hw⟩ := (reorganize_spec h.inTxn).of_ok hrun
    subst hbest
    exact h.of_connectedTo hin (hconnected.switch h.tree h.tip hin
      ⟨hfork', hg, htxdb, hhash, hidx, hw⟩)
  | newBest hin =>
    exact h.of_connectedTo h.tip ⟨rfl, rfl, rfl, hconnected.vTxn, hconnected.hashBestChain,
      hconnected.linked, hconnected.index⟩
  | insert hprev hnew hcheck hcontext hwrite =>
    -- the tip was there before, so it is not the new entry
    have htree := h.tree.insert hprev hnew hcheck hcontext hwrite
    refine ⟨htree, ?_, rfl, rfl, rfl, hconnected.vTxn, hconnected.hashBestChain, hconnected.linked,
      hconnected.index.insert h.tree hprev hnew hcheck hcontext hwrite⟩
    unfold Globals.InTree
    rw [Map.lookup_insert_eq, if_neg]
    · exact h.tip
    · intro heq
      have htip := h.tip
      unfold Globals.InTree at htip
      rw [heq, hnew] at htip
      exact absurd htip (by simp)
  | store hwrite =>
    exact ⟨h.tree.store hwrite, h.tip, rfl, rfl, rfl, hconnected.vTxn, hconnected.hashBestChain,
      hconnected.linked, hconnected.index.store hwrite⟩
  | other hsame hpool =>
    refine h.of_connectedTo h.tip ⟨hsame.mapBlockIndex, hsame.files, hsame.pindexGenesisBlock,
      hsame.vTxn, ?_, ?_, ?_⟩
    · rw [hsame.committed.hashBestChain]
      exact hconnected.hashBestChain
    · rw [hsame.pnext]
      exact hconnected.linked
    · rw [hsame.committed.txIndex]
      exact hconnected.index

/-- The pool after a step. -/
theorem Step.mempool_indexed (hP : CollisionFree P) (h : OnChain P n q) (hpool : n.mempool.Indexed P)
    (hstep : Step P Allowed n q n' q') : n'.mempool.Indexed P := by
  cases hstep with
  | accept hfiles hindex hbest hheight hallowed haccept => exact hpool.acceptTx hP haccept
  | connect hin hread hallowed hrun =>
    obtain ⟨d', hext⟩ := (setBestChainInner_spec h.inTxn).of_ok hrun
    rw [hext.globals]
    exact CTxMemPool.Indexed.foldl (fun _ _ h => h.remove hP) _ hpool
  | reorganize hbest hin hfork hallowed hrun =>
    obtain ⟨_, _, _, _, hre⟩ := (reorganize_blocks_spec h.inTxn).of_ok hrun
    rw [hre.globals]
    exact hpool.reorganized hP _ _
  | newBest hin => exact hpool
  | insert hprev hnew hcheck hcontext hwrite => exact hpool
  | store hwrite => exact hpool
  | other hsame hpool' =>
    rw [hpool']
    exact hpool

/-- Writing blocks makes no difference to the outputs of the chain. -/
theorem unspent_of_write (h : OnChain P n q) (hn' : OnChain P n' q) {block : CBlock}
    {nFile nBlockPos : ℕ} (hwrite : n.files.writeToDisk block = some (n'.files, nFile, nBlockPos)) :
    n'.Unspent = n.Unspent := by
  have htxs := (h.tree.treeOk q h.tip).connectedTxs_mono (h.tree.files.writeToDisk hwrite)
    (ChainState.writeToDisk_sub hwrite)
  rw [hn'.ledger.1, h.ledger.1, htxs]

/-- A block is connected. -/
theorem spendable_of_connect (hP : CollisionFree P) (h : OnChain P n q) (hn' : OnChain P n' (e :: q))
    (hpool : n.mempool.Indexed P) (hspend : n.InputsSpendable) {block : CBlock}
    (hread : n.files.readBlock e.nFile e.nBlockPos = some block) (hfiles : n'.files = n.files)
    (hmempool : n'.mempool = n.mempool.removeTxs P block.vtx)
    (hcompatible : n.mempool.Compatible P [] [block]) : n'.InputsSpendable := by
  obtain ⟨hunspent, hvalid⟩ := h.ledger
  unfold Node.InputsSpendable at hspend ⊢
  -- a block that is connected is a reorganisation that disconnects nothing
  have hsame : n.mempool.removeTxs P block.vtx = n.mempool.reorganized P [] [block] := by
    unfold CTxMemPool.reorganized
    simp
  rw [hn'.ledger.1, hfiles, hmempool, hsame,
    connectedTxs_cons e (h.tree.ne_nil h.tip) hread]
  rw [hunspent, ← List.append_nil (connectedTxs n.files q)] at hspend
  rw [← List.append_nil (connectedTxs n.files q)] at hvalid
  refine hspend.reorganized hP hpool hvalid (fun tx => by simp) (fun tx => ?_) (by simp) hcompatible
  rw [← List.mem_map, map_tx_blockTxs]
  simp

/-- Another branch is connected. -/
theorem spendable_of_reorganize (hP : CollisionFree P) (h : OnChain P n q) (hn' : OnChain P n' q')
    (hpool : n.mempool.Indexed P) (hspend : n.InputsSpendable) {pfork : BlockPtr}
    (hs : pfork <:+ q) (hs' : pfork <:+ q') (hne : pfork ≠ []) (hfiles : n'.files = n.files)
    (hmempool : n'.mempool = n.mempool.reorganized P (branchBlocks n.files (BlockPtr.above pfork q))
      (branchBlocks n.files (BlockPtr.above pfork q').reverse))
    (hcompatible : n.mempool.Compatible P (branchBlocks n.files (BlockPtr.above pfork q))
      (branchBlocks n.files (BlockPtr.above pfork q').reverse)) : n'.InputsSpendable := by
  obtain ⟨hunspent, hvalid⟩ := h.ledger
  obtain ⟨old, hold, holdBlocks⟩ := (h.tree.treeOk q h.tip).connectedTxs_branch hs hne
  obtain ⟨new, hnew, hnewBlocks⟩ := (hn'.tree.treeOk q' hn'.tip).connectedTxs_branch hs' hne
  unfold Node.InputsSpendable at hspend ⊢
  rw [hn'.ledger.1, hnew, hfiles, hmempool]
  rw [hunspent, hold] at hspend
  rw [hold] at hvalid
  rw [hfiles] at hnewBlocks
  exact hspend.reorganized hP hpool hvalid holdBlocks
    (fun tx => mem_branchBlocks_reverse.trans (hnewBlocks tx))
    (h.tree.checkTransaction_of_branch h.tip hs hne) hcompatible

/-- **One step keeps the inputs of the pool spendable**, when its events are of the kind that does. -/
theorem Step.inputsSpendable (hP : CollisionFree P) (h : OnChain P n q) (hpool : n.mempool.Indexed P)
    (hspend : n.InputsSpendable) (hstep : Step P (Keeps P) n q n' q') : n'.InputsSpendable := by
  have hn' := Step.onChain h hstep
  cases hstep with
  -- `accept` adds to the pool what it has looked up
  | accept hfiles hindex hbest hheight hallowed haccept =>
    refine CTxMemPool.Spendable.acceptTx hspend (fun o ho => ?_) hallowed haccept
    -- `accept` looks at the index and the files of the node
    rw [hfiles, hindex] at ho
    exact ho
  -- a block is connected
  | connect hin hread hallowed hrun =>
    obtain ⟨d', hext⟩ := (setBestChainInner_spec h.inTxn).of_ok hrun
    have hg := hext.globals
    refine spendable_of_connect hP h hn' hpool hspend hread ?_ (by rw [hg]) hallowed
    rw [hg]
    unfold Globals.setNext
    split_ifs <;> rfl
  -- a reorganization
  | reorganize hbest hin hfork hallowed hrun =>
    obtain ⟨pfork', disconnected, connected, d', hre⟩ := (reorganize_blocks_spec h.inTxn).of_ok hrun
    subst hbest
    cases hre.fork.symm.trans hfork
    obtain ⟨hs, hs', hne⟩ := BlockPtr.findFork_eq_ok hfork
    -- the blocks of the run are those that the step names
    obtain ⟨rfl, rfl⟩ := reorganizeProgress_blocks hre.progress
    have hg := hre.globals
    refine spendable_of_reorganize hP h hn' hpool hspend hs hs' hne ?_ (by rw [hg]; rfl) hallowed
    rw [hg]
    unfold Globals.reorganized
    rw [relink_eq]
  | newBest hin => exact hspend
  -- a new entry of the tree, which no index entry names
  | insert hprev hnew hcheck hcontext hwrite =>
    have hsame := unspent_of_write h hn' hwrite
    unfold Node.InputsSpendable
    rw [hsame]
    exact hspend
  -- the same of a write
  | store hwrite =>
    have hsame := unspent_of_write h hn' hwrite
    unfold Node.InputsSpendable
    rw [hsame]
    exact hspend
  | other hsame hpool' =>
    unfold Node.InputsSpendable Node.Unspent at hspend ⊢
    rw [hpool', hsame.files, hsame.committed.txIndex]
    exact hspend

/-- **The inputs of the memory pool stay spendable** in every run in which a transaction that is
accepted unchecked has its inputs and the blocks of every step are compatible with the pool. -/
theorem Run.inputs_spendable (hP : CollisionFree P) (hrun : Run P (Keeps P) n q) :
    n.InputsSpendable := by
  have hinv : OnChain P n q ∧ n.mempool.Indexed P ∧ n.InputsSpendable := by
    induction hrun with
    | @start n hrun hempty =>
      have hagrees := Agrees.of_run hrun
      refine ⟨⟨hagrees.tree, hagrees.best, hagrees.connectedTo⟩, ?_, ?_⟩
      · rw [hempty]
        exact CTxMemPool.Indexed.empty P
      · intro hash tx htx
        rw [hempty, Map.lookup_empty] at htx
        exact absurd htx (by simp)
    | step _ hstep ih =>
      obtain ⟨hchain, hpool, hspend⟩ := ih
      exact ⟨hstep.onChain hchain, hstep.mempool_indexed hP hchain hpool,
        hstep.inputsSpendable hP hchain hpool hspend⟩
  exact hinv.2.2

/-! ### Running it -/

/-- Transactions are accepted with their inputs checked: a step, computed. -/
def acceptTx (P : Params) (tx : CTransaction) (n : Node) : Option Node :=
  match n.mempool.acceptTx P ⟨n.files, n.txdb.committed.txIndex, n.pindexBest, n.nBestHeight,
      fun _ _ => none, false⟩ true tx with
  | .ok pool' => some { n with mempool := pool' }
  | .error _ => none

/-- `SetBestChainInner` on the block with this hash, when it stands on `q` and the call returns: a
step, computed. -/
def connectBlock (P : Params) (H : Host) (hash : Uint256) (q : BlockPtr) (n : Node) :
    Option (CBlock × CBlockIndex × Node) :=
  match n.mapBlockIndex.lookup hash with
  | some (pindex :: pprev) =>
    match n.files.readBlock pindex.nFile pindex.nBlockPos with
    | some block =>
      if pindex.hashBlock = hash ∧ pprev = q then
        match setBestChainInner P H block pindex pprev { n with txdb := n.txdb.txnBegin } with
        | (.ok (), n') => some (block, pindex, n')
        | (.error _, _) => none
      else none
    | none => none
  | _ => none

/-- An accepted transaction is a step. -/
theorem Run.acceptTx {tx : CTransaction} (h : Run P Allowed n q)
    (hallowed : Allowed n (.accept true tx)) (hacc : PoolChain.acceptTx P tx n = some n') :
    Run P Allowed n' q := by
  unfold PoolChain.acceptTx at hacc
  split at hacc
  · next pool' haccept =>
    cases hacc
    exact h.step (.accept rfl rfl rfl rfl hallowed haccept)
  · exact absurd hacc (by simp)

/-- A block of the tree is a step. -/
theorem Run.insertBlock {nAdjustedTime : Int} {block : CBlock} (h : Run P Allowed n q)
    (hins : n.insertBlock P nAdjustedTime block = some n') : Run P Allowed n' q := by
  unfold Node.insertBlock at hins
  split at hins
  · next pprev files nFile nBlockPos hprev hnew hwrite =>
    split at hins
    · next hcheck hcontext =>
      cases hins
      exact h.step (.insert hprev hnew hcheck hcontext hwrite)
    · exact absurd hins (by simp)
  · exact absurd hins (by simp)

/-- A connected block is a step. -/
theorem Run.connectBlock {H : Host} {hash : Uint256} {block : CBlock} {pindex : CBlockIndex}
    (h : Run P Allowed n q) (hallowed : Allowed n (.blocks [] [block]))
    (hconnect : PoolChain.connectBlock P H hash q n = some (block, pindex, n')) :
    Run P Allowed n' (pindex :: q) := by
  unfold PoolChain.connectBlock at hconnect
  split at hconnect
  · next pindex₁ pprev hlookup =>
    split at hconnect
    · next block₁ hread =>
      split_ifs at hconnect with hcond
      obtain ⟨hhash, rfl⟩ := hcond
      split at hconnect
      · next n₁ hrun =>
        cases hconnect
        refine h.step (.connect ?_ hread hallowed hrun)
        unfold Globals.InTree
        rw [BlockPtr.hash_cons, hhash]
        exact hlookup
      · exact absurd hconnect (by simp)
    · exact absurd hconnect (by simp)
  · exact absurd hconnect (by simp)

end PoolChain

namespace Sample

/-- A hash without collisions that is short for coinbases and for the transactions of a list. -/
def listHash (txs : List CTransaction) (tx : CTransaction) : ℕ :=
  if tx = coinBase (tx.nTime - params.nTimeGenesis) then 2 * tx.nTime + 1
  else if tx ∈ txs then 2 * txs.idxOf tx + 2
  else 2 * Encodable.encode (txCode tx) + 2 * txs.length + 2

def listParams (txs : List CTransaction) : Params := { params with hashTx := listHash txs }

/-- The sample hash has no collisions. -/
theorem listHash_injective (txs : List CTransaction) : Function.Injective (listHash txs) := by
  intro tx tx' h
  unfold listHash at h
  have hlt : ∀ t ∈ txs, txs.idxOf t < txs.length := fun t ht => List.idxOf_lt_length_of_mem ht
  split_ifs at h with h₁ h₂ h₃ h₄ h₅ h₆ h₇ h₈
  · have htime : tx.nTime = tx'.nTime := by omega
    rw [h₁, h₂, htime]
  · omega
  · omega
  · omega
  · exact (List.idxOf_inj h₄).mp (by omega)
  · have := hlt tx h₄
    omega
  · omega
  · have := hlt tx' h₈
    omega
  · exact txCode_injective (Encodable.encode_injective (by omega))

/-- So the sample parameters have none. -/
theorem listParams_collisionFree (txs : List CTransaction) : CollisionFree (listParams txs) := by
  refine ⟨listHash_injective txs, fun tx => ?_⟩
  change listHash txs tx ≠ 0
  unfold listHash
  split_ifs <;> omega

/-- A block on the block `p`, `n` seconds after genesis, arrives. -/
def arriveListed (txs : List CTransaction) (p : BlockPtr) (n : ℕ) (vtx : List CTransaction)
    (s : Node) : Option Node :=
  s.insertBlock (listParams txs) 2000000000
    { blockOn p n vtx with
      hashMerkleRoot := CBlock.merkleRoot (listParams txs) vtx.length (vtx.map (listHash txs))
      nBits := getNextTargetRequired (listParams txs) p false }

/-- `n` blocks with nothing but a coinbase. -/
def listedChain (txs : List CTransaction) : ℕ → Option Node
  | 0 => some (loadGenesis (listParams txs) host {}).2
  | n + 1 => do
    let s ← listedChain txs n
    let s ← arriveListed txs s.pindexBest (n + 1) [coinBase (n + 1)] s
    s.setBest (listParams txs) host (hashAt (n + 1))

/-- The sample chain of coinbases is a run. -/
theorem run_listedChain {txs : List CTransaction} {n : ℕ} {s : Node}
    (hload : (loadGenesis (listParams txs) host {}).1 = .ok ()) (h : listedChain txs n = some s) :
    Node.Run (listParams txs) s := by
  induction n generalizing s with
  | zero =>
    cases h
    exact Node.Run.start (H := host) (Prod.ext hload rfl) rfl
  | succ n ih =>
    simp only [listedChain, Option.bind_eq_bind, Option.bind_eq_some_iff] at h
    obtain ⟨s₀, hs₀, s₁, hs₁, hset⟩ := h
    exact ((ih hs₀).insertBlock hs₁).setBest hset

/-- Spends what `toEmpty` spends. -/
def rival : CTransaction := { toEmpty with vout := [⟨1900000, keyScript⟩] }

/-- The two transactions of the sample; their hashes are 2 and 4. -/
def rivals : List CTransaction := [toEmpty, rival]

/-- The coinbase of the first block has matured, `toEmpty` is in the pool, and block 62 has the other
transactions `vtx`. -/
def poolAndBlock (vtx : List CTransaction) : Option (Node × Node × Node × CBlock × CBlockIndex × Node) := do
  let s₀ ← listedChain rivals 61
  let s₀ := { s₀ with mempool := {} }
  let s₁ ← PoolChain.acceptTx (listParams rivals) toEmpty s₀
  let s₂ ← arriveListed rivals s₁.pindexBest 62 (coinBase 62 :: vtx) s₁
  let r ← PoolChain.connectBlock (listParams rivals) host (hashAt 62) s₁.pindexBest s₂
  pure (s₀, s₁, s₂, r)

/-- Its genesis block can be connected. -/
theorem loadGenesis_rivals : (loadGenesis (listParams rivals) host {}).1 = .ok () := rfl

/-- A transaction that is accepted, and then a block that is connected. -/
theorem poolAndBlock_eq_some {Allowed : Node → PoolEvent → Prop} {vtx : List CTransaction}
    {s₀ s₁ s₂ s₃ : Node} {block : CBlock} {pindex : CBlockIndex}
    (h : poolAndBlock vtx = some (s₀, s₁, s₂, block, pindex, s₃))
    (haccept : Allowed s₀ (.accept true toEmpty)) (hblocks : Allowed s₂ (.blocks [] [block])) :
    PoolChain.Run (listParams rivals) Allowed s₃ (pindex :: s₁.pindexBest) := by
  simp only [poolAndBlock, Option.bind_eq_bind, Option.bind_eq_some_iff, Option.pure_def,
    Option.some.injEq, Prod.mk.injEq, Prod.exists] at h
  obtain ⟨s, hs, s₁', hs₁, s₂', hs₂, block', pindex', s₃', hs₃, rfl, rfl, rfl, rfl, rfl, rfl⟩ := h
  have hrun : Node.Run (listParams rivals) { s with mempool := {} } :=
    (run_listedChain loadGenesis_rivals hs).step (.other ⟨rfl, rfl, rfl, rfl, rfl, rfl,
      (Agrees.of_run (run_listedChain loadGenesis_rivals hs)).vTxn, rfl, rfl⟩)
  have hbest : s₁'.pindexBest = s.pindexBest := by
    unfold PoolChain.acceptTx at hs₁
    split at hs₁
    · cases hs₁
      rfl
    · exact absurd hs₁ (by simp)
  rw [hbest] at hs₃ ⊢
  exact (((PoolChain.Run.start hrun rfl).acceptTx haccept hs₁).insertBlock hs₂).connectBlock hblocks hs₃

/-- With the rival spend in block 62, and without. The two have the chain below in common, which is computed once. -/
theorem poolAndBlock_runs :
    ((poolAndBlock [rival]).map fun s =>
      (s.2.2.2.2.2.mempool.mapTx.lookup 2, toEmpty.prevouts.map fun o =>
        ((IndexView.unspent s.2.2.2.2.2.files s.2.2.2.2.2.txdb.committed.txIndex.lookup o.key).isSome,
          (s.2.2.2.2.2.mempool.mapTx.lookup o.hash).isSome))) = some (some toEmpty, [(false, false)]) ∧
    ((poolAndBlock []).map fun s =>
      (s.2.2.1.mempool.mapTx.entries.map (fun e => e.2), s.2.2.2.1.vtx, s.2.2.2.2.2.mempool.mapTx.lookup 2)) =
      some ([toEmpty], [coinBase 62], some toEmpty) := by
  decide +kernel

end Sample

/-- Block 62 spends the coin of the first block, and the rival spend stays in the pool. -/
theorem rival_keeps_pool :
    ¬ ∀ (P : Params) (n : Node) (q : BlockPtr), CollisionFree P →
      PoolChain.Run P (fun _ _ => True) n q → n.InputsSpendable := by
  intro h
  obtain ⟨⟨s₀, s₁, s₂, block, pindex, n⟩, hs, heq⟩ := Option.map_eq_some_iff.mp Sample.poolAndBlock_runs.1
  simp only [Prod.mk.injEq, Sample.toEmpty, CTransaction.prevouts, List.map_cons, List.map_nil,
    List.cons.injEq, and_true] at heq
  obtain ⟨htx, hspent, hmissing⟩ := heq
  have hspend := h _ n _ (Sample.listParams_collisionFree Sample.rivals)
    (Sample.poolAndBlock_eq_some hs trivial trivial)
  obtain ⟨-, hunspent | ⟨tx, htx', -⟩⟩ := hspend 2 _ htx _ (List.mem_singleton_self _)
  · unfold Node.Unspent at hunspent
    rw [hspent] at hunspent
    exact absurd hunspent (by simp)
  · rw [htx'] at hmissing
    exact absurd hmissing (by simp)

/-- Block 62 has nothing but a coinbase; the transaction in the pool stays there, with its input. -/
theorem inputs_spendable_poolAndBlock :
    ∃ n q, PoolChain.Run (Sample.listParams Sample.rivals)
        (PoolChain.Keeps (Sample.listParams Sample.rivals)) n q ∧
      n.mempool.mapTx.lookup 2 = some Sample.toEmpty ∧ n.InputsSpendable := by
  obtain ⟨⟨s₀, s₁, s₂, block, pindex, n⟩, hs, heq⟩ := Option.map_eq_some_iff.mp Sample.poolAndBlock_runs.2
  simp only [Prod.mk.injEq] at heq
  obtain ⟨hpool, hvtx, htx⟩ := heq
  -- the transaction in the pool and the coinbase spend no output in common
  have hcompatible : s₂.mempool.Compatible (Sample.listParams Sample.rivals) [] [block] := by
    refine ⟨fun tx hpending _ o ho tx' htx' => ?_, fun _ _ _ _ _ tx' htx' => by simp at htx'⟩
    have hmem : tx ∈ s₂.mempool.mapTx.entries.map (fun e => e.2) := by
      rcases hpending with hin | ⟨hin, -⟩
      · exact List.mem_map_of_mem (AList.mem_lookup_iff.mp hin)
      · exact absurd hin (by simp)
    rw [hpool, List.mem_singleton] at hmem
    rw [List.flatMap_cons, hvtx, List.flatMap_nil, List.append_nil, List.mem_singleton] at htx'
    subst hmem htx'
    revert o
    decide
  have hnode : PoolChain.Run (Sample.listParams Sample.rivals)
      (PoolChain.Keeps (Sample.listParams Sample.rivals)) n (pindex :: s₁.pindexBest) :=
    Sample.poolAndBlock_eq_some hs (fun hfalse => absurd hfalse (by simp)) hcompatible
  exact ⟨n, _, hnode, htx,
    PoolChain.Run.inputs_spendable (Sample.listParams_collisionFree Sample.rivals) hnode⟩

end Peershares
