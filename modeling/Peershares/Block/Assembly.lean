import Peershares.Ledger.BlockFile
import Peershares.Ledger.Preview
import Peershares.Model.BlockAssembly
import Peershares.Relay.Spendable

/-!
# The transactions of a new block

`CreateNewBlock` takes the transactions of the memory pool by priority, and holds those back whose previous
transactions are in the pool themselves. Its test pool is a preview of `ConnectBlock`.

The second loop takes the candidates from a queue that is kept sorted, and each one that is added may release others
into it. The queue itself is generic (`ReleaseQueue`); what is shown here is that a round never throws: the
inputs of a candidate were fetched when it came into the pool, their values are in range, and each sum that is
computed stays there (`exists_collectTx`). For that the pool has to be one of a running node, with transactions
that passed their checks (`PoolChain.Inv`).

Then the test pool is compared with the index. A preview that has connected the transactions collected so far
answers as the index would behind them, so what the loop could connect, `ConnectBlock` can connect in the same
order.

* `Collected` — what the second loop has done when it ends: which transactions were looked at and in which order,
  and what the limits are
* `PoolChain.Run.collected` — it ends, without an exception, at every pool a node can have
* `PoolChain.Run.connectTransactions_collected` — `ConnectBlock` can connect everything that was collected
-/

open Framework

namespace Peershares

open IndexView

/-! ### The priority queue -/

section Queue

variable {D : Type} [LinearOrder D]

/-- The order of `mapPriority`: the highest priority first. -/
def Candidate.Before (c c' : Candidate D) : Prop := c'.1 ≤ c.1

/-- An insertion into `mapPriority` adds its candidate and no other. -/
theorem perm_insertPriority (c : Candidate D) (mapPriority : List (Candidate D)) :
    (insertPriority c mapPriority).Perm (c :: mapPriority) := by
  induction mapPriority with
  | nil => exact List.Perm.refl _
  | cons c' mapPriority ih =>
    rw [insertPriority]
    split_ifs
    · exact (ih.cons c').trans (List.Perm.swap c c' mapPriority)
    · exact List.Perm.refl _

/-- And keeps the order. -/
theorem pairwise_insertPriority (c : Candidate D) {mapPriority : List (Candidate D)}
    (hsorted : mapPriority.Pairwise Candidate.Before) :
    (insertPriority c mapPriority).Pairwise Candidate.Before := by
  induction mapPriority with
  | nil => exact List.pairwise_singleton _ _
  | cons c' mapPriority ih =>
    obtain ⟨hfirst, hrest⟩ := List.pairwise_cons.mp hsorted
    rw [insertPriority]
    split_ifs with hle
    · -- `c` goes behind `c'`, which stays the first
      refine List.pairwise_cons.mpr ⟨fun x hx => ?_, ih hrest⟩
      rcases List.mem_cons.mp ((perm_insertPriority c mapPriority).mem_iff.mp hx) with rfl | hx
      · exact hle
      · exact hfirst x hx
    · have hlt : c'.1 ≤ c.1 := (not_le.mp hle).le
      refine List.pairwise_cons.mpr ⟨fun x hx => ?_, hsorted⟩
      rcases List.mem_cons.mp hx with rfl | hx
      · exact hlt
      · exact (hfirst x hx).trans hlt

/-- So it is a sorted insertion in the sense of the release queue. -/
theorem sortedInsert_insertPriority :
    ReleaseQueue.SortedInsert Candidate.Before (insertPriority : Candidate D → List (Candidate D) → _) :=
  ⟨perm_insertPriority, fun c _ => pairwise_insertPriority c⟩

end Queue
/-! ### The pool -/

/-- Every transaction of the pool has passed `CheckTransaction`. -/
def CTxMemPool.Checked (pool : CTxMemPool) : Prop :=
  ∀ hash tx, pool.mapTx.lookup hash = some tx → tx.checkTransaction = .ok ()

namespace CTxMemPool.Checked

variable {P : Params} {pool pool' : CTxMemPool} {tx : CTransaction}

/-- The empty pool. -/
theorem empty : Checked {} := by
  intro hash tx htx
  rw [Map.lookup_empty] at htx
  cases htx

/-- A transaction that has passed the checks may be added. -/
theorem addUnchecked (h : pool.Checked) (hchecks : pool.acceptChecks P tx = .ok ()) :
    (pool.addUnchecked P tx).Checked := by
  intro hash tx' htx'
  rw [addUnchecked_mapTx] at htx'
  split_ifs at htx' with hhash
  · cases htx'
    exact (admissible_of_acceptChecks hchecks).checked
  · exact h hash tx' htx'

/-- `CTxMemPool::accept` adds nothing else. -/
theorem accept (h : pool.Checked) (tx : CTransaction) : (pool.accept P tx).Checked := by
  unfold CTxMemPool.accept
  split
  · next hchecks => exact h.addUnchecked hchecks
  · exact h

/-- Taking transactions out of the pool. -/
theorem removeTxs (h : pool.Checked) (vtx : List CTransaction) : (pool.removeTxs P vtx).Checked := by
  intro hash tx htx
  rw [mapTx_removeTxs] at htx
  split_ifs at htx
  exact h hash tx htx

/-- The pool after a switch of the chain. -/
theorem reorganized (h : pool.Checked) (disconnected connected : List CBlock) :
    (pool.reorganized P disconnected connected).Checked := by
  unfold CTxMemPool.reorganized
  refine removeTxs ?_ _
  generalize (disconnected.flatMap CBlock.vtx).filter (fun tx => !tx.isGenerated) = vResurrect
  induction vResurrect generalizing pool with
  | nil => exact h
  | cons tx vResurrect ih => exact ih (h.accept tx)

end CTxMemPool.Checked

/-- What is known of a node between two steps. -/
structure PoolChain.Inv (P : Params) (n : Node) (q : BlockPtr) : Prop where
  onChain : OnChain P n q
  indexed : n.mempool.Indexed P
  checked : n.mempool.Checked

namespace PoolChain

variable {P : Params} {Allowed : Node → PoolEvent → Prop} {n n' : Node} {q q' : BlockPtr}

/-- Every step of a run keeps the pool checked. -/
theorem Step.checked (h : OnChain P n q) (hchecked : n.mempool.Checked) (hstep : Step P Allowed n q n' q') :
    n'.mempool.Checked := by
  cases hstep with
  | accept hfiles hindex hbest hheight hallowed haccept =>
    obtain ⟨hchecks, -, rfl⟩ := CTxMemPool.acceptTx_eq_ok.mp haccept
    exact hchecked.addUnchecked hchecks
  | connect hin hread hallowed hrun =>
    obtain ⟨d', hext⟩ := (setBestChainInner_spec h.inTxn).of_ok hrun
    rw [hext.globals]
    exact hchecked.removeTxs _
  | reorganize hbest hin hfork hallowed hrun =>
    obtain ⟨_, _, _, _, hre⟩ := (reorganize_blocks_spec h.inTxn).of_ok hrun
    rw [hre.globals]
    exact hchecked.reorganized _ _
  | newBest hin => exact hchecked
  | insert hprev hnew hcheck hcontext hwrite => exact hchecked
  | store hwrite => exact hchecked
  | other hsame hpool =>
    rw [hpool]
    exact hchecked

/-- The invariant of the runs, by induction on the run. -/
theorem Run.inv (hP : CollisionFree P) (hrun : Run P Allowed n q) : Inv P n q := by
  induction hrun with
  | @start n hrun hempty =>
    have hagrees := Agrees.of_run hrun
    refine ⟨⟨hagrees.tree, hagrees.best, hagrees.connectedTo⟩, ?_, ?_⟩
    · rw [hempty]
      exact CTxMemPool.Indexed.empty P
    · rw [hempty]
      exact CTxMemPool.Checked.empty
  | step _ hstep ih =>
    exact ⟨hstep.onChain ih.onChain, hstep.mempool_indexed hP ih.onChain ih.indexed,
      hstep.checked ih.onChain ih.checked⟩

end PoolChain

/-! ### One round -/

/-- A loop returns when each of its steps does. -/
theorem exists_mapM_ok {α β : Type} {f : α → Result β} {as : List α} (h : ∀ a ∈ as, ∃ b, f a = .ok b) :
    ∃ bs, as.mapM f = .ok bs := by
  induction as with
  | nil => exact ⟨[], rfl⟩
  | cons a as ih =>
    obtain ⟨⟨b, hb⟩, hrest⟩ := List.forall_mem_cons.mp h
    obtain ⟨bs, hbs⟩ := ih hrest
    exact ⟨b :: bs, by rw [List.mapM_cons, hb, hbs]; rfl⟩

section Covered

variable {inputs : MapPrevTx} {tx : CTransaction}

/-- The output of a fetched input is found. -/
theorem exists_getOutputFor (h : inputs.Covers tx.vin) {txin : CTxIn} (htxin : txin ∈ tx.vin) :
    ∃ txout, getOutputFor txin inputs = .ok txout := by
  obtain ⟨⟨txindex, txPrev⟩, txout, hlookup, hout⟩ := h txin htxin
  refine ⟨txout, ?_⟩
  unfold getOutputFor
  rw [hlookup]
  simp only [hout]

/-- So the value of the inputs is found. -/
theorem exists_getValueIn (h : inputs.Covers tx.vin) : ∃ v, tx.getValueIn inputs = .ok v := by
  unfold CTransaction.getValueIn
  split_ifs
  · exact ⟨0, rfl⟩
  · obtain ⟨values, hvalues⟩ := exists_mapM_ok fun txin htxin => exists_getOutputFor h htxin
    rw [hvalues]
    exact ⟨_, rfl⟩

/-- And their signature operations. -/
theorem exists_getP2SHSigOpCount (h : inputs.Covers tx.vin) : ∃ k, tx.getP2SHSigOpCount inputs = .ok k := by
  unfold CTransaction.getP2SHSigOpCount
  split_ifs
  · exact ⟨0, rfl⟩
  · have hcount : ∀ txin ∈ tx.vin, ∃ k, (do
        let prevout ← getOutputFor txin inputs
        pure (if isPayToScriptHash prevout.scriptPubKey then
          getSigOpCountP2SH prevout.scriptPubKey txin.scriptSig else 0) : Result ℕ) = .ok k := by
      intro txin htxin
      obtain ⟨txout, hout⟩ := exists_getOutputFor h htxin
      rw [hout]
      exact ⟨_, rfl⟩
    obtain ⟨counts, hcounts⟩ := exists_mapM_ok hcount
    rw [hcounts]
    exact ⟨_, rfl⟩

/-- The outputs of a checked transaction can be added up. -/
theorem exists_getValueOut (h : tx.checkTransaction = .ok ()) : ∃ v, tx.getValueOut = .ok v := by
  simp only [CTransaction.checkTransaction, Result.bind_eq_ok] at h
  obtain ⟨_, -, _, -, _, -, _, hout, -⟩ := h
  exact getValueOut_loop_of_checkOutputs hout

end Covered

namespace Node

/-- A value that was found is the value of the call. -/
theorem orContinue_eq_some {α : Type} {x : Result α} {a : α} : orContinue x = .ok (some a) ↔ x = .ok a := by
  cases x with
  | ok b =>
    unfold orContinue
    simp
  | error e =>
    dsimp only [orContinue]
    split_ifs <;> simp

/-- A call without a throw lets the loop go on. -/
theorem exists_orContinue {α : Type} {x : Result α} (hx : x.NoThrow) : ∃ r, orContinue x = .ok r := by
  cases hres : x with
  | ok a => exact ⟨some a, rfl⟩
  | error e =>
    dsimp only [orContinue]
    rw [if_pos (hx e hres)]
    exact ⟨none, rfl⟩

section Round

variable {D : Type} {P : Params} {n : Node} {nAdjustedTime : Int} {s s' : BlockDraft} {c : Candidate D}
  {tx : CTransaction} {key : Option Uint256}

/-- What a round has checked when it adds a transaction. -/
structure Adds (P : Params) (n : Node) (nAdjustedTime : Int) (s : BlockDraft) (tx : CTransaction) (nTxFees : Int)
    (nP2SHSigOps : ℕ) (mapTestPoolTmp : TxIndexMap) : Prop where
  size_lt : s.nBlockSize + tx.getSerializeSize < MAX_BLOCK_SIZE_GEN
  sigOps_lt : s.nBlockSigOps + (tx.getLegacySigOpCount + nP2SHSigOps) < MAX_BLOCK_SIGOPS
  nTime_le : (tx.nTime : Int) ≤ nAdjustedTime
  stakeTime_le : ∀ t ∈ s.stakeTime, tx.nTime ≤ t
  minFee_le : tx.getMinFee s.nBlockSize false .GMF_BLOCK ≤ nTxFees
  connects : ∃ inputs nValueIn nValueOut,
    tx.fetchInputs (n.connectEnv n.txdb.committed.txIndex) s.mapTestPool false true = .ok inputs ∧
    tx.getValueIn inputs = .ok nValueIn ∧ tx.getValueOut = .ok nValueOut ∧ nTxFees = nValueIn - nValueOut ∧
    tx.getP2SHSigOpCount inputs = .ok nP2SHSigOps ∧
    tx.connectInputs P (n.connectEnv n.txdb.committed.txIndex) inputs s.mapTestPool CDiskTxPos.inMempool n.pindexBest
      false true true = .ok mapTestPoolTmp

/-- What the loop has computed when it takes a transaction in. -/
theorem tryConnect_eq_ok {inputs : MapPrevTx} {nTxFees : Int} {nTxSigOps : ℕ} {mapTestPoolTmp : TxIndexMap}
    (h : n.tryConnect P s tx inputs = .ok (some (nTxFees, nTxSigOps, mapTestPoolTmp))) :
    ∃ nValueIn nValueOut nP2SHSigOps, tx.getValueIn inputs = .ok nValueIn ∧ tx.getValueOut = .ok nValueOut ∧
      nTxFees = nValueIn - nValueOut ∧ tx.getMinFee s.nBlockSize false .GMF_BLOCK ≤ nTxFees ∧
      tx.getP2SHSigOpCount inputs = .ok nP2SHSigOps ∧ nTxSigOps = tx.getLegacySigOpCount + nP2SHSigOps ∧
      s.nBlockSigOps + nTxSigOps < MAX_BLOCK_SIGOPS ∧
      tx.connectInputs P (n.connectEnv n.txdb.committed.txIndex) inputs s.mapTestPool CDiskTxPos.inMempool
        n.pindexBest false true true = .ok mapTestPoolTmp := by
  unfold tryConnect at h
  obtain ⟨nValueIn, hin, h⟩ := Result.bind_eq_ok.mp h
  obtain ⟨nValueOut, hout, h⟩ := Result.bind_eq_ok.mp h
  dsimp only at h
  -- the fee is tested before the scripts are counted
  by_cases hfee : nValueIn - nValueOut < tx.getMinFee s.nBlockSize false .GMF_BLOCK
  · rw [if_pos hfee] at h
    cases h
  rw [if_neg hfee] at h
  obtain ⟨nP2SHSigOps, hp2sh, h⟩ := Result.bind_eq_ok.mp h
  by_cases hsig : MAX_BLOCK_SIGOPS ≤ s.nBlockSigOps + (tx.getLegacySigOpCount + nP2SHSigOps)
  · rw [if_pos hsig] at h
    cases h
  rw [if_neg hsig] at h
  obtain ⟨r, hconnect, h⟩ := Result.bind_eq_ok.mp h
  cases r with
  | none => cases h
  | some out =>
    cases h
    exact ⟨nValueIn, nValueOut, nP2SHSigOps, hin, hout, rfl, not_lt.mp hfee, hp2sh, rfl, not_le.mp hsig,
      orContinue_eq_some.mp hconnect⟩

/-- **One round** leaves the block as it is, or adds the transaction. -/
theorem collectTx_eq_ok (h : n.collectTx P nAdjustedTime s c = .ok (s', key)) :
    (s' = s ∧ key = none) ∨ ∃ nTxFees nP2SHSigOps mapTestPoolTmp,
      Adds P n nAdjustedTime s c.2 nTxFees nP2SHSigOps mapTestPoolTmp ∧ key = some (P.hashTx c.2) ∧
      s' = s.add P c.2 nTxFees (c.2.getLegacySigOpCount + nP2SHSigOps) mapTestPoolTmp := by
  unfold collectTx at h
  dsimp only at h
  split_ifs at h with hsize hlegacy htime
  · cases h
    exact Or.inl ⟨rfl, rfl⟩
  · cases h
    exact Or.inl ⟨rfl, rfl⟩
  · cases h
    exact Or.inl ⟨rfl, rfl⟩
  · -- the transaction is not too large, and final in time
    obtain ⟨fetched, hfetch, h⟩ := Result.bind_eq_ok.mp h
    cases fetched with
    | none =>
      cases h
      exact Or.inl ⟨rfl, rfl⟩
    | some inputs =>
      obtain ⟨tried, htry, h⟩ := Result.bind_eq_ok.mp h
      cases tried with
      | none =>
        cases h
        exact Or.inl ⟨rfl, rfl⟩
      | some out =>
        obtain ⟨nTxFees, nTxSigOps, mapTestPoolTmp⟩ := out
        cases h
        obtain ⟨nValueIn, nValueOut, nP2SHSigOps, hin, hout, hfees, hfee, hp2sh, rfl, hsig, hconnect⟩ :=
          tryConnect_eq_ok htry
        rw [Bool.or_eq_true, not_or] at htime
        -- a coinstake is not earlier than the transaction
        obtain ⟨hnow, hstake⟩ := htime
        refine Or.inr ⟨nTxFees, nP2SHSigOps, mapTestPoolTmp, ⟨not_le.mp hsize, hsig, by simpa using hnow,
          fun t ht => ?_, hfee, inputs, nValueIn, nValueOut, orContinue_eq_some.mp hfetch, hin, hout, hfees, hp2sh,
          hconnect⟩, rfl, rfl⟩
        by_contra hlate
        exact hstake (by rw [ht]; simpa using hlate)

/-- No round throws for a transaction that has passed `CheckTransaction`. -/
theorem exists_collectTx (hcb : c.2.isCoinBase = false) (hcheck : c.2.checkTransaction = .ok ()) :
    ∃ out, n.collectTx P nAdjustedTime s c = .ok out := by
  unfold collectTx
  dsimp only
  split_ifs
  · exact ⟨_, rfl⟩
  · exact ⟨_, rfl⟩
  · exact ⟨_, rfl⟩
  · obtain ⟨fetched, hfetch⟩ : ∃ r, orContinue (c.2.fetchInputs (n.connectEnv n.txdb.committed.txIndex) s.mapTestPool
      false true) = .ok r := exists_orContinue fetchInputs_noThrow
    rw [hfetch, Result.ok_bind]
    cases fetched with
    | none => exact ⟨_, rfl⟩
    | some inputs =>
      -- every input that was fetched is there, so the sums are defined
      have hcovers := covers_of_fetchInputs hcb (orContinue_eq_some.mp hfetch)
      obtain ⟨nValueIn, hin⟩ := exists_getValueIn hcovers
      obtain ⟨nValueOut, hout⟩ := exists_getValueOut hcheck
      obtain ⟨nP2SHSigOps, hp2sh⟩ := exists_getP2SHSigOpCount hcovers
      obtain ⟨connected, hconnect⟩ : ∃ r, orContinue (c.2.connectInputs P (n.connectEnv n.txdb.committed.txIndex) inputs
          s.mapTestPool CDiskTxPos.inMempool n.pindexBest false true true) = .ok r :=
        exists_orContinue (connectInputs_noThrow hcovers (CTransaction.getValueOut_noThrow hcheck))
      -- the tests pass over the transaction, and none throws
      have htry : ∃ tried, n.tryConnect P s c.2 inputs = .ok tried := by
        unfold tryConnect
        rw [hin, Result.ok_bind, hout, Result.ok_bind]
        dsimp only
        split_ifs
        · exact ⟨none, rfl⟩
        · rw [hp2sh, Result.ok_bind]
          split_ifs
          · exact ⟨none, rfl⟩
          · rw [hconnect]
            exact ⟨_, rfl⟩
      obtain ⟨tried, htry⟩ := htry
      dsimp only
      rw [htry, Result.ok_bind]
      cases tried with
      | none => exact ⟨_, rfl⟩
      | some out => exact ⟨_, rfl⟩

end Round

/-! ### A run of the queue -/

section Rounds

variable {D : Type} {P : Params} {n : Node} {nAdjustedTime : Int} {s s' : BlockDraft}
  {history before after : List (Candidate D × Option Uint256)}

/-- The transactions that were added, in the order in which they were. -/
def added (history : List (Candidate D × Option Uint256)) : List CTransaction :=
  (history.filter fun e => e.2.isSome).map fun e => e.1.2

/-- Nothing is added before the first round. -/
@[simp] theorem added_nil : added ([] : List (Candidate D × Option Uint256)) = [] := rfl

/-- A round that takes its candidate in. -/
@[simp] theorem added_cons_some (c : Candidate D) (key : Uint256) :
    added ((c, some key) :: history) = c.2 :: added history := rfl

/-- What is added stands in the order of the rounds. -/
theorem added_sublist : (added history).Sublist ((history.map Prod.fst).map Prod.snd) := by
  rw [List.map_map]
  exact List.filter_sublist.map _

/-- Everything added was a candidate. -/
theorem exists_of_mem_added {tx : CTransaction} (h : tx ∈ added history) : ∃ c ∈ history.map Prod.fst, c.2 = tx :=
  List.mem_map.mp (added_sublist.subset h)

/-- The history of the rounds; a key is the hash of the transaction. -/
abbrev Rounds (P : Params) (n : Node) (nAdjustedTime : Int) (s : BlockDraft)
    (history : List (Candidate D × Option Uint256)) (s' : BlockDraft) : Prop :=
  ReleaseQueue.Processed (n.collectTx P nAdjustedTime) s history s'

/-- The keys that the queue has released are the hashes of what was added. -/
theorem Rounds.keysOf_eq (h : Rounds P n nAdjustedTime s history s') :
    ReleaseQueue.keysOf history = (added history).map P.hashTx := by
  induction h with
  | nil s => rfl
  | cons hstep _ ih =>
    rw [ReleaseQueue.keysOf_cons, ih]
    obtain ⟨-, rfl⟩ | ⟨_, _, _, -, rfl, -⟩ := collectTx_eq_ok hstep
    · rfl
    · rfl

/-- The beginning of a history is one. -/
theorem Rounds.of_append (h : Rounds P n nAdjustedTime s (before ++ after) s') :
    ∃ s₁, Rounds P n nAdjustedTime s before s₁ := by
  induction before generalizing s with
  | nil => exact ⟨s, .nil s⟩
  | cons e before ih =>
    cases h with
    | cons hstep hrest =>
      obtain ⟨s₁, h₁⟩ := ih hrest
      exact ⟨s₁, .cons hstep h₁⟩

/-- What the rounds add up to. -/
structure Totals (nAdjustedTime : Int) (s s' : BlockDraft) (txs : List CTransaction) : Prop where
  pblock_eq : s'.pblock = { s.pblock with vtx := s.pblock.vtx ++ txs }
  nBlockSize_eq : s'.nBlockSize = s.nBlockSize + (txs.map CTransaction.getSerializeSize).sum
  nBlockTx_eq : s'.nBlockTx = s.nBlockTx + txs.length
  nBlockSize_lt : s.nBlockSize < MAX_BLOCK_SIZE_GEN → s'.nBlockSize < MAX_BLOCK_SIZE_GEN
  nBlockSigOps_lt : s.nBlockSigOps < MAX_BLOCK_SIGOPS → s'.nBlockSigOps < MAX_BLOCK_SIGOPS
  nBlockSigOps_ge : s.nBlockSigOps + (txs.map CTransaction.getLegacySigOpCount).sum ≤ s'.nBlockSigOps
  nTime_le : ∀ tx ∈ txs, (tx.nTime : Int) ≤ nAdjustedTime
  stakeTime_le : ∀ tx ∈ txs, ∀ t ∈ s.stakeTime, tx.nTime ≤ t

/-- A transaction behind the first one is not taken for a coinstake. -/
theorem stakeTime_add {tx : CTransaction} (hvtx : s.pblock.vtx ≠ []) (hcs : tx.isCoinStake = false) (nTxFees : Int)
    (nTxSigOps : ℕ) (m : TxIndexMap) : (s.add P tx nTxFees nTxSigOps m).stakeTime = s.stakeTime := by
  unfold BlockDraft.stakeTime BlockDraft.add
  cases hsplit : s.pblock.vtx with
  | nil => exact absurd hsplit hvtx
  | cons first rest =>
    cases rest with
    | nil => simp [hcs]
    | cons second rest => rfl

/-- **The run lemma.** -/
theorem Rounds.totals (h : Rounds P n nAdjustedTime s history s') (hvtx : s.pblock.vtx ≠ [])
    (hcs : ∀ c ∈ history.map Prod.fst, c.2.isCoinStake = false) : Totals nAdjustedTime s s' (added history) := by
  induction h with
  | nil s =>
    refine ⟨?_, rfl, rfl, id, id, le_rfl, fun _ h => absurd h List.not_mem_nil, fun _ h => absurd h List.not_mem_nil⟩
    rw [added_nil, List.append_nil]
  | @cons s s₁ s' c key history hstep _ ih =>
    have hrest : ∀ c' ∈ history.map Prod.fst, c'.2.isCoinStake = false :=
      fun c' hc' => hcs c' (List.mem_cons_of_mem _ hc')
    -- a round that adds nothing leaves the totals
    obtain ⟨rfl, rfl⟩ | ⟨nTxFees, nP2SHSigOps, m, hadds, rfl, rfl⟩ := collectTx_eq_ok hstep
    · exact ih hvtx hrest
    · have hne : (s.add P c.2 nTxFees (c.2.getLegacySigOpCount + nP2SHSigOps) m).pblock.vtx ≠ [] :=
        List.append_ne_nil_of_right_ne_nil _ (List.cons_ne_nil _ _)
      -- the others go on from the totals of this round
      have htotals := ih hne hrest
      rw [added_cons_some]
      refine ⟨?_, ?_, ?_, fun _ => htotals.nBlockSize_lt hadds.size_lt,
        fun _ => htotals.nBlockSigOps_lt hadds.sigOps_lt, ?_, ?_, ?_⟩
      · rw [htotals.pblock_eq]
        simp [BlockDraft.add]
      · rw [htotals.nBlockSize_eq, List.map_cons, List.sum_cons, ← Nat.add_assoc]
        rfl
      · rw [htotals.nBlockTx_eq, List.length_cons, Nat.add_comm (added history).length, ← Nat.add_assoc]
        rfl
      · refine le_trans ?_ htotals.nBlockSigOps_ge
        rw [List.map_cons, List.sum_cons]
        show _ ≤ s.nBlockSigOps + (c.2.getLegacySigOpCount + nP2SHSigOps) + _
        omega
      · exact List.forall_mem_cons.mpr ⟨hadds.nTime_le, htotals.nTime_le⟩
      · refine List.forall_mem_cons.mpr ⟨hadds.stakeTime_le, ?_⟩
        rw [← stakeTime_add hvtx (hcs c List.mem_cons_self) nTxFees (c.2.getLegacySigOpCount + nP2SHSigOps) m]
        exact htotals.stakeTime_le

end Rounds

/-! ### What was collected -/

section Collected

variable {D : Type} [LinearOrder D] {P : Params} {A : PriorityArith D} {n : Node} {nAdjustedTime : Int}
  {pblock : CBlock} {s : BlockDraft} {history : List (Candidate D × Option Uint256)} {c : Candidate D}

omit [LinearOrder D] in
/-- A candidate comes from the pool, is not generated and is final. -/
theorem mem_candidates : c ∈ n.candidates P A nAdjustedTime ↔
    (∃ hash, n.mempool.mapTx.lookup hash = some c.2) ∧ c.2.isGenerated = false ∧
      c.2.isFinal n.nBestHeight nAdjustedTime 0 0 = true ∧ c.1 = n.priority P A c.2 := by
  obtain ⟨d, tx⟩ := c
  have hentry : (∃ e ∈ n.mempool.mapTx.entries, e.2 = tx) ↔ ∃ hash, n.mempool.mapTx.lookup hash = some tx := by
    constructor
    · rintro ⟨e, he, rfl⟩
      exact ⟨e.1, AList.mem_lookup_iff.mpr he⟩
    · rintro ⟨hash, hlook⟩
      exact ⟨⟨hash, tx⟩, AList.mem_lookup_iff.mp hlook, rfl⟩
  unfold candidates
  simp only [List.mem_map, List.mem_filter, List.mem_insertionSort, Prod.mk.injEq, Bool.and_eq_true,
    Bool.not_eq_true']
  constructor
  · rintro ⟨tx', ⟨hmem, hgen, hfinal⟩, rfl, rfl⟩
    exact ⟨hentry.mp hmem, hgen, hfinal, rfl⟩
  · rintro ⟨hmem, hgen, hfinal, rfl⟩
    exact ⟨tx, ⟨hentry.mpr hmem, hgen, hfinal⟩, rfl, rfl⟩

omit [LinearOrder D] in
/-- No transaction is a candidate twice. -/
theorem nodup_candidates (h : n.mempool.Indexed P) :
    ((n.candidates P A nAdjustedTime).map fun c => P.hashTx c.2).Nodup := by
  have hperm := List.perm_insertionSort (fun a b : (_ : Uint256) × CTransaction => a.1 ≤ b.1) n.mempool.mapTx.entries
  -- the hashes of the transactions are the keys of the map
  have hkeys : (n.mempool.mapTx.entries.map fun e => P.hashTx e.2) = n.mempool.mapTx.keys :=
    List.map_congr_left fun e he => h.keyed e.1 e.2 (AList.mem_lookup_iff.mpr he)
  have hsorted : (((n.mempool.mapTx.entries.insertionSort fun a b => a.1 ≤ b.1).map fun e => e.2).map
      P.hashTx).Nodup := by
    rw [List.map_map, (hperm.map _).nodup_iff]
    exact hkeys ▸ n.mempool.mapTx.keys_nodup
  unfold candidates
  rw [List.map_map]
  exact (List.filter_sublist.map P.hashTx).nodup hsorted

/-- What the second loop has done when it ends. -/
structure Collected (P : Params) (A : PriorityArith D) (n : Node) (nAdjustedTime : Int) (pblock : CBlock)
    (s : BlockDraft) (history : List (Candidate D × Option Uint256)) : Prop where
  rounds : Rounds P n nAdjustedTime { pblock } history s
  /-- No transaction is looked at twice. -/
  nodup : ((history.map Prod.fst).map fun c => P.hashTx c.2).Nodup
  /-- Those are looked at whose previous transactions are not in the pool, or were added. -/
  mem_iff : ∀ c, c ∈ history.map Prod.fst ↔
    c ∈ n.candidates P A nAdjustedTime ∧ ∀ h ∈ n.dependsOn c.2, h ∈ (added history).map P.hashTx
  /-- Previous transactions come first, and of those that can be looked at one with the highest priority. -/
  ordered : ∀ before c key after, history = before ++ (c, key) :: after →
    (∀ h ∈ n.dependsOn c.2, h ∈ (added before).map P.hashTx) ∧
      ∀ e ∈ after, (∀ h ∈ n.dependsOn e.1.2, h ∈ (added before).map P.hashTx) → e.1.1 ≤ c.1
  totals : Totals nAdjustedTime { pblock } s (added history)
  nBlockSize_lt : s.nBlockSize < MAX_BLOCK_SIZE_GEN
  nBlockSigOps_lt : s.nBlockSigOps < MAX_BLOCK_SIGOPS

/-- The queue at its start: what can go is in `mapPriority`, the rest waits in `mapDependers`. -/
theorem inv_priorityQueue (P : Params) (A : PriorityArith D) (n : Node) (nAdjustedTime : Int) :
    ReleaseQueue.Inv Candidate.Before (fun c => n.dependsOn c.2) (n.candidates P A nAdjustedTime) [] []
      (n.priorityQueue P A nAdjustedTime) := by
  have h := (ReleaseQueue.Inv.empty Candidate.Before fun c : Candidate D => n.dependsOn c.2).foldl_push
    sortedInsert_insertPriority (n.candidates P A nAdjustedTime)
  rwa [List.nil_append] at h

/-- The loop of `CreateNewBlock`, when it returns. -/
theorem collected_of_collect (hindexed : n.mempool.Indexed P) (hvtx : pblock.vtx ≠ [])
    (hcollect : n.collect P A nAdjustedTime pblock = some (.ok s)) :
    ∃ history, Collected P A n nAdjustedTime pblock s history := by
  obtain ⟨history, hdrained⟩ := ReleaseQueue.drain_spec sortedInsert_insertPriority
    (inv_priorityQueue P A n nAdjustedTime) hcollect
  have hrounds : Rounds P n nAdjustedTime { pblock } history s := hdrained.processed
  -- the candidates are the transactions of the pool, each under its hash
  have hnodup : ((history.map Prod.fst).map fun c => P.hashTx c.2).Nodup := by
    obtain ⟨left, hperm, -⟩ := hdrained.left
    have hall := ((hperm.map fun c => P.hashTx c.2).nodup_iff).mpr (nodup_candidates hindexed)
    rw [List.nil_append, List.map_append] at hall
    exact (List.nodup_append.mp hall).1
  -- and no generated transaction is one
  have hcs : ∀ c ∈ history.map Prod.fst, c.2.isCoinStake = false := by
    intro c hc
    obtain ⟨-, hgen, -⟩ := mem_candidates.mp (hdrained.mem_iff.mp hc).1
    unfold CTransaction.isGenerated at hgen
    exact (Bool.or_eq_false_iff.mp hgen).2
  have htotals := hrounds.totals hvtx hcs
  refine ⟨history, hrounds, hnodup, fun c => ?_, fun before c key after hsplit => ?_, htotals,
    htotals.nBlockSize_lt (show 1000 < MAX_BLOCK_SIZE_GEN by decide),
    htotals.nBlockSigOps_lt (show 100 < MAX_BLOCK_SIGOPS by decide)⟩
  · rw [hdrained.mem_iff, hrounds.keysOf_eq]
  · -- what is produced before a round are the hashes of what was added before it
    subst hsplit
    obtain ⟨s₁, hbefore⟩ := hrounds.of_append
    obtain ⟨hdeps, hbest⟩ := hdrained.ordered.of_append
    rw [hbefore.keysOf_eq] at hdeps hbest
    refine ⟨fun h hh => (hdeps h hh).resolve_left List.not_mem_nil, fun e he hall => ?_⟩
    exact hbest e he fun h hh => Or.inr (hall h hh)

end Collected

end Node

/-- **Collecting the transactions of a block** ends without an exception, at every pool a node can have. Each
transaction is looked at once, after those of the pool that it spends from were added, in the order of the priorities;
the limits on the size and on the signature operations are kept. -/
theorem PoolChain.Run.collected {D : Type} [LinearOrder D] {P : Params} {Allowed : Node → PoolEvent → Prop} {n : Node}
    {q : BlockPtr} (hP : CollisionFree P) (hrun : Run P Allowed n q) (A : PriorityArith D) (nAdjustedTime : Int)
    {pblock : CBlock} (hvtx : pblock.vtx ≠ []) :
    ∃ s history, n.collect P A nAdjustedTime pblock = some (.ok s) ∧
      Node.Collected P A n nAdjustedTime pblock s history := by
  have hinv := hrun.inv hP
  have hprocess : ∀ s, ∀ c ∈ n.candidates P A nAdjustedTime, ∃ out, n.collectTx P nAdjustedTime s c = .ok out := by
    intro s c hc
    obtain ⟨⟨hash, hlook⟩, hgen, -⟩ := Node.mem_candidates.mp hc
    unfold CTransaction.isGenerated at hgen
    exact Node.exists_collectTx (Bool.or_eq_false_iff.mp hgen).1 (hinv.checked hash c.2 hlook)
  obtain ⟨s, hcollect⟩ := ReleaseQueue.exists_drain sortedInsert_insertPriority
    (Node.inv_priorityQueue P A n nAdjustedTime) hprocess (Nat.le_add_left _ _)
  obtain ⟨history, hcollected⟩ := Node.collected_of_collect hinv.indexed hvtx hcollect
  exact ⟨s, history, hcollect, hcollected⟩

namespace Sample

/-- Priorities in whole numbers. -/
def arith : PriorityArith Int where
  zero := 0
  addInput dPriority nValueIn nConf := dPriority + nValueIn * nConf
  perByte dPriority nTxSize := dPriority / nTxSize

/-- A time after the first sixty-one blocks. -/
def poolClock : Int := params.nTimeGenesis + 62

/-- The coinbase of the first block has matured, and `toEmpty` and `fromEmpty`, which spends from it, are in the pool. -/
def pooledNode (txs : List CTransaction) : Option Node := do
  let s ← listedChain txs 61
  let s ← PoolChain.acceptTx (listParams txs) toEmpty { s with mempool := {} }
  PoolChain.acceptTx (listParams txs) fromEmpty s

/-- Accepting a transaction does not touch the chain. -/
theorem acceptTx_pindexBest {P : Params} {tx : CTransaction} {n n' : Node} (h : PoolChain.acceptTx P tx n = some n') :
    n'.pindexBest = n.pindexBest := by
  unfold PoolChain.acceptTx at h
  split at h
  · cases h
    rfl
  · cases h

/-- The sample node is reached from its genesis by accepting transactions. -/
theorem run_pooledNode {txs : List CTransaction} {n : Node}
    (hload : (loadGenesis (listParams txs) host {}).1 = .ok ()) (h : pooledNode txs = some n) :
    PoolChain.Run (listParams txs) (fun _ _ => True) n n.pindexBest := by
  simp only [pooledNode, Option.bind_eq_bind, Option.bind_eq_some_iff] at h
  obtain ⟨s, hs, s₁, hs₁, hs₂⟩ := h
  have hchain := run_listedChain hload hs
  have hempty : Node.Run (listParams txs) { s with mempool := {} } :=
    hchain.step (.other ⟨rfl, rfl, rfl, rfl, rfl, rfl, (Agrees.of_run hchain).vTxn, rfl, rfl⟩)
  rw [acceptTx_pindexBest hs₂, acceptTx_pindexBest hs₁]
  exact ((PoolChain.Run.start hempty rfl).acceptTx trivial hs₁).acceptTx trivial hs₂

/-- The two transactions of the pool; their hashes are 2 and 4. -/
def pooled : List CTransaction := [toEmpty, fromEmpty]

/-- Its genesis block can be connected. -/
theorem loadGenesis_pooled : (loadGenesis (listParams pooled) host {}).1 = .ok () := rfl

/-- Both are added, the second after the first, from which it spends. -/
theorem collect_pooled : ((pooledNode pooled).bind fun n =>
    (n.collect (listParams pooled) arith poolClock firstBlock).map fun r =>
      r.toOption.map fun s => s.pblock.vtx.tail) = some (some [toEmpty, fromEmpty]) := by
  decide +kernel

end Sample

/-- A transaction of the pool waits until the one that it spends from was added. -/
theorem collected_pooledNode : ∃ n s history, Sample.pooledNode Sample.pooled = some n ∧
    n.collect (Sample.listParams Sample.pooled) Sample.arith Sample.poolClock Sample.firstBlock = some (.ok s) ∧
      Node.Collected (Sample.listParams Sample.pooled) Sample.arith n Sample.poolClock Sample.firstBlock s history ∧
      s.pblock.vtx.tail = [Sample.toEmpty, Sample.fromEmpty] := by
  obtain ⟨n, hn, hmap⟩ := Option.bind_eq_some_iff.mp Sample.collect_pooled
  obtain ⟨r, hcollect, hvtx⟩ := Option.map_eq_some_iff.mp hmap
  obtain ⟨s, history, hok, hcollected⟩ := PoolChain.Run.collected (Sample.listParams_collisionFree Sample.pooled)
    (Sample.run_pooledNode Sample.loadGenesis_pooled hn) Sample.arith Sample.poolClock
    (show Sample.firstBlock.vtx ≠ [] from List.cons_ne_nil _ _)
  cases hok.symm.trans hcollect
  exact ⟨n, s, history, hn, hok, hcollected, Option.some.inj hvtx⟩

/-! ### Connecting what was collected -/

section Connect

variable {D : Type} {P : Params} {n : Node} {nAdjustedTime : Int} {s s' : Node.BlockDraft} {pindex : CBlockIndex}
  {history : List (Candidate D × Option Uint256)} {st : ConnectState} {env' : ConnectEnv} {Free : COutPoint → Prop}

/-- What a round has tested is what `ConnectBlock` tests again. -/
theorem Node.Adds.connectable {tx : CTransaction} {nTxFees : Int} {nP2SHSigOps : ℕ} {m : TxIndexMap}
    (h : Node.Adds P n nAdjustedTime s tx nTxFees nP2SHSigOps m) (hcb : tx.isCoinBase = false)
    (hcs : tx.isCoinStake = false) : Connectable P (n.connectEnv n.txdb.committed.txIndex) s.mapTestPool n.pindexBest
      tx nTxFees nP2SHSigOps m :=
  ⟨hcb, hcs, h.connects⟩

/-- **The rounds are a preview of the loop of `ConnectBlock`.** -/
theorem Node.Rounds.connectTransactions (h : Node.Rounds P n nAdjustedTime s history s')
    (hcandidates : ∀ c ∈ history.map Prod.fst, c.2.isGenerated = false ∧
      n.mempool.mapTx.lookup (P.hashTx c.2) = some c.2)
    (hp : Preview P (n.connectEnv n.txdb.committed.txIndex) env' n.pindexBest (pindex :: n.pindexBest) Free
      s.mapTestPool st.mapQueuedChanges)
    (hfree : ∀ tx ∈ Node.added history, ∀ o ∈ tx.prevouts, Free o)
    (hstored : ∀ c ∈ blockTxs pindex n.pindexBest st.nTxPos (Node.added history), c.IsStored env'.files)
    (hsigops : st.nSigOps ≤ s.nBlockSigOps) :
    ∃ st', Peershares.connectTransactions P env' pindex n.pindexBest true (Node.added history) st = .ok st' ∧
      st'.nFees = st.nFees + (s'.nFees - s.nFees) ∧ st'.nSigOps ≤ s'.nBlockSigOps := by
  induction h generalizing st with
  | nil s => exact ⟨st, rfl, by rw [sub_self, add_zero], hsigops⟩
  | @cons s s₁ s' c key history hstep _ ih =>
    have hrest : ∀ c' ∈ history.map Prod.fst, c'.2.isGenerated = false ∧
        n.mempool.mapTx.lookup (P.hashTx c'.2) = some c'.2 :=
      fun c' hc' => hcandidates c' (List.mem_cons_of_mem _ hc')
    obtain ⟨rfl, rfl⟩ | ⟨nTxFees, nP2SHSigOps, m, hadds, rfl, rfl⟩ := Node.collectTx_eq_ok hstep
    · exact ih hrest hp hfree hstored hsigops
    · rw [Node.added_cons_some] at hfree hstored ⊢
      obtain ⟨hfreeTx, hfreeRest⟩ := List.forall_mem_cons.mp hfree
      obtain ⟨hstoredTx, hstoredRest⟩ := List.forall_mem_cons.mp hstored
      obtain ⟨hgen, hpool⟩ := hcandidates c List.mem_cons_self
      unfold CTransaction.isGenerated at hgen
      obtain ⟨hcb, hcs⟩ := Bool.or_eq_false_iff.mp hgen
      -- the limit of `CreateNewBlock` is the stricter one
      have hlimit : st.nSigOps + (c.2.getLegacySigOpCount + nP2SHSigOps) ≤ MAX_BLOCK_SIGOPS :=
        (Nat.add_le_add_right hsigops _).trans hadds.sigOps_lt.le
      obtain ⟨st₁, hround, hp₁, hsigops₁, hfees₁, hpos₁⟩ :=
        hp.round (hadds.connectable hcb hcs) hfreeTx hpool hstoredTx hlimit
      obtain ⟨st', hloop, hfees, hsigops'⟩ := ih hrest hp₁ hfreeRest (by rwa [hpos₁])
        (by rw [hsigops₁]; exact Nat.add_le_add_right hsigops _)
      refine ⟨st', Result.bind_eq_ok.mpr ⟨st₁, hround, hloop⟩, ?_, hsigops'⟩
      rw [hfees, hfees₁]
      show st.nFees + nTxFees + (s'.nFees - (s.nFees + nTxFees)) = _
      ring

end Connect

/-- The places of the transactions of two parts. -/
theorem blockTxs_append {pindex : CBlockIndex} {pprev : BlockPtr} {a b : List CTransaction} {nTxPos : ℕ} :
    blockTxs pindex pprev nTxPos (a ++ b) =
      blockTxs pindex pprev nTxPos a ++ blockTxs pindex pprev (txOffset nTxPos a) b := by
  induction a generalizing nTxPos with
  | nil => rfl
  | cons tx a ih =>
    rw [List.cons_append, blockTxs, blockTxs, ih, List.cons_append]
    unfold txOffset
    rw [List.map_cons, List.sum_cons, Nat.add_assoc]

/-- `ConnectBlock` counts the offset of the next transaction. -/
theorem nTxPos_of_connectTransactions {P : Params} {env : ConnectEnv} {pindex : CBlockIndex} {pprev : BlockPtr}
    {fStrict : Bool} {vtx : List CTransaction} {st st' : ConnectState} (hfile : pindex.nFile ≠ UINT_MAX)
    (h : connectTransactions P env pindex pprev fStrict vtx st = .ok st') : st'.nTxPos = txOffset st.nTxPos vtx := by
  induction vtx generalizing st with
  | nil =>
    cases h
    rfl
  | cons tx vtx ih =>
    obtain ⟨st₁, hround, hloop⟩ := Result.bind_eq_ok.mp h
    rw [ih hloop, (posOf_connectTransaction hfile hround).2]
    unfold txOffset
    rw [List.map_cons, List.sum_cons, Nat.add_assoc]

/-- No transaction of a chain stands where a new block is written. -/
theorem TreeOk.place_ne {P : Params} {files files' : BlockFiles} {p : BlockPtr} {block : CBlock} {nFile nBlockPos : ℕ}
    (h : TreeOk P files p) (hwf : files.WellFormed) (hwrite : files.writeToDisk block = some (files', nFile, nBlockPos))
    {c : ConnectedTx} (hc : c ∈ connectedTxs files p) : ¬ (nBlockPos = c.pos.nBlockPos ∧ nFile = c.pos.nFile) := by
  induction h with
  | genesis hread => exact absurd hc List.not_mem_nil
  | @accepted pprev nFile₀ nBlockPos₀ block₀ hprev hread hchecked hkind htime ih =>
    rw [connectedTxs_cons (block₀.newIndex P pprev nFile₀ nBlockPos₀) hprev.ne_nil hread] at hc
    rcases List.mem_append.mp hc with hc | hc
    · exact ih hc
    · -- the blocks of a file end before the new one
      obtain ⟨-, before, after, -, hpos⟩ := mem_blockTxs hc
      have hend := hwf.endPos_le_fileSize (BlockFiles.mem_of_readBlock hread)
      rintro ⟨hsamePos, hsameFile⟩
      rw [hpos] at hsamePos hsameFile
      have hnew := (BlockFiles.writeToDisk_eq_some hwrite).2.1
      change nBlockPos = nBlockPos₀ at hsamePos
      change nFile = nFile₀ at hsameFile
      rw [← hsameFile] at hend
      simp only [StoredBlock.endPos, CBlock.getSerializeSize, CBlock.headerSize] at hend
      omega

/-- A block that passes the BIP30 test meets spent outputs only. -/
theorem isUnspent_eq_false_of_overwritesUnspent {P : Params} {txIndex : TxIndexMap} {block : CBlock}
    (h : block.overwritesUnspent P txIndex = false) {tx : CTransaction} (htx : tx ∈ block.vtx) {e : CTxIndex}
    (he : txIndex.lookup (P.hashTx tx) = some e) (n : ℕ) : e.isUnspent n = false := by
  have hall := List.any_eq_false.mp h tx htx
  rw [he, Option.any_some, List.any_eq_true] at hall
  unfold CTxIndex.isUnspent
  cases hpos : e.vSpent[n]? with
  | none => rfl
  | some pos =>
    rw [Option.any_some]
    by_contra hnull
    exact hall ⟨pos, List.mem_of_getElem? hpos, by simpa using hnull⟩

/-- The environment in which `ConnectBlock` runs once the block is in its file. -/
def Node.envOf (n : Node) (files : BlockFiles) : ConnectEnv :=
  { n.connectEnv n.txdb.committed.txIndex with files }

/-- The state in which the loop of `ConnectBlock` begins. -/
def CBlock.firstState (block : CBlock) (nBlockPos : ℕ) : ConnectState where
  nTxPos := nBlockPos + CBlock.headerSize + getSizeOfCompactSize block.vtx.length

/-- **What was collected can be connected.** Let the transactions that `CreateNewBlock` has collected stand in a block
behind a coinbase, with or without a coinstake, that connects with at most the 100 signature operations that were set
aside for it. Then `ConnectBlock` connects the whole row: it finds every input, and adds up the same fees. -/
theorem PoolChain.Run.connectTransactions_collected {D : Type} [LinearOrder D] {P : Params}
    {Allowed : Node → PoolEvent → Prop} {n : Node} {A : PriorityArith D} {nAdjustedTime : Int} {pblock block : CBlock}
    {s : Node.BlockDraft} {pre txs : List CTransaction} {files : BlockFiles} {nFile nBlockPos : ℕ} {st₁ : ConnectState}
    (hP : CollisionFree P) (hrun : Run P Allowed n n.pindexBest) (hvtx : pblock.vtx ≠ [])
    (hcollect : n.collect P A nAdjustedTime pblock = some (.ok s)) (htxs : s.pblock.vtx = pblock.vtx ++ txs)
    (hblock : block.vtx = pre ++ txs) (hwrite : n.files.writeToDisk block = some (files, nFile, nBlockPos))
    (hbip30 : block.overwritesUnspent P n.txdb.committed.txIndex = false)
    (hfree : ∀ tx ∈ txs, ∀ o ∈ tx.prevouts, ¬ spentBy pre o)
    (hpre : connectTransactions P (n.envOf files) (block.newIndex P n.pindexBest nFile nBlockPos) n.pindexBest true pre
      (block.firstState nBlockPos) = .ok st₁) (hsigops : st₁.nSigOps ≤ 100) :
    ∃ st, connectTransactions P (n.envOf files) (block.newIndex P n.pindexBest nFile nBlockPos) n.pindexBest true
        block.vtx (block.firstState nBlockPos) = .ok st ∧
      st.nFees = st₁.nFees + s.nFees ∧ st.nSigOps < MAX_BLOCK_SIGOPS := by
  -- what the loop has added, with the history of its rounds
  have hinv := hrun.inv hP
  obtain ⟨history, hcollected⟩ := Node.collected_of_collect hinv.indexed hvtx hcollect
  obtain rfl : txs = Node.added history := by
    rw [hcollected.totals.pblock_eq] at htxs
    exact (List.append_cancel_left htxs).symm
  -- the chain, and its transactions in the files before and after the block is written
  have htree := hinv.onChain.tree.treeOk _ hinv.onChain.tip
  have hwf := hinv.onChain.tree.files
  have hwf' := hwf.writeToDisk hwrite
  have hstored := htree.isStored hwf
  have hread := ChainState.readBlock_of_writeToDisk hwf hwrite
  have hsame := htree.connectedTxs_mono hwf' (ChainState.writeToDisk_sub hwrite)
  have hstored' : ∀ c ∈ connectedTxs n.files n.pindexBest, c.IsStored files := by
    rw [← hsame]
    exact (htree.mono hwf' (ChainState.writeToDisk_sub hwrite)).isStored hwf'
  -- the index shows the transactions of the chain
  obtain ⟨c, hreach, hfiles, -, htip, hindex⟩ := hinv.onChain.connected.index
  obtain ⟨hok, -⟩ := hreach.inv.ledger
  rw [hfiles, hindex, htip] at hok
  have hfile : nFile ≠ UINT_MAX := (BlockFiles.writeToDisk_eq_some hwrite).1
  have hheight : (block.newIndex P n.pindexBest nFile nBlockPos).nHeight = n.pindexBest.nHeight + 1 := by
    unfold CBlock.newIndex
    exact if_neg (by simpa using htree.ne_nil)
  -- behind `pre` the queue is where the test pool begins
  have hp : Preview P (n.connectEnv n.txdb.committed.txIndex) (n.envOf files) n.pindexBest
      (block.newIndex P n.pindexBest nFile nBlockPos :: n.pindexBest) (fun o => ¬ spentBy pre o) ∅
      st₁.mapQueuedChanges := by
    refine Preview.start hok hstored hstored' rfl hfile hheight (fun c hc => htree.place_ne hwf hwrite hc)
      (fun tx htx e he n => ?_) rfl hpre
    have hmem : tx ∈ block.vtx := by
      rw [hblock]
      exact List.mem_append_left _ htx
    exact isUnspent_eq_false_of_overwritesUnspent hbip30 hmem he n
  -- the candidates come from the pool
  have hcandidates : ∀ c ∈ history.map Prod.fst, c.2.isGenerated = false ∧
      n.mempool.mapTx.lookup (P.hashTx c.2) = some c.2 := by
    intro c hc
    obtain ⟨⟨hash, hlook⟩, hgen, -⟩ := Node.mem_candidates.mp ((hcollected.mem_iff c).mp hc).1
    exact ⟨hgen, by rw [hinv.indexed.keyed hash c.2 hlook]; exact hlook⟩
  -- behind `pre` they are stored where the block is
  have hstoredTxs : ∀ c ∈ blockTxs (block.newIndex P n.pindexBest nFile nBlockPos) n.pindexBest st₁.nTxPos
      (Node.added history), c.IsStored (n.envOf files).files := by
    intro c hc
    have hsplit : ∀ nTxPos, blockTxs (block.newIndex P n.pindexBest nFile nBlockPos) n.pindexBest nTxPos block.vtx =
        blockTxs (block.newIndex P n.pindexBest nFile nBlockPos) n.pindexBest nTxPos pre ++
          blockTxs (block.newIndex P n.pindexBest nFile nBlockPos) n.pindexBest (txOffset nTxPos pre)
            (Node.added history) := by
      intro nTxPos
      rw [hblock, blockTxs_append]
    rw [nTxPos_of_connectTransactions hfile hpre] at hc
    have hmem : c ∈ blockTxs (block.newIndex P n.pindexBest nFile nBlockPos) n.pindexBest
        (StoredBlock.firstTxPos ⟨nFile, nBlockPos, block⟩) block.vtx := by
      rw [hsplit]
      exact List.mem_append_right _ hc
    exact isStored_of_mem_blockTxs hwf' (block.newIndex P n.pindexBest nFile nBlockPos) hread c hmem
  -- so the rounds of the miner are repeated by `ConnectBlock`
  obtain ⟨st, hloop, hfees, hlimit⟩ := hcollected.rounds.connectTransactions hcandidates hp hfree hstoredTxs hsigops
  refine ⟨st, ?_, by rw [hfees, sub_zero], hlimit.trans_lt hcollected.nBlockSigOps_lt⟩
  rw [hblock, connectTransactions_append]
  exact Result.bind_eq_ok.mpr ⟨st₁, hpre, hloop⟩

end Peershares
