import Peershares.BestChain.Selection
import Peershares.Ledger.Refinement

/-!
# Connecting a block does not throw

`GetValueOut`, `GetOutputFor`, `GetDebit` and `IsSpent` throw, and an exception leaves `SetBestChain`
in the middle of its work. For a block that has passed `CheckBlock` this cannot happen: its values are
in range, `FetchInputs` has found the outputs it spends, and the wallets are asked about these same
outputs.

The checks come first. Each function of `ConnectBlock` has a lemma that it does not throw, under what the one before it
has made sure of: `FetchInputs` covers the inputs (`MapPrevTx.Covers`), so `GetOutputFor` and the sums over it return.

The wallets come last, after the block was connected. `GetDebit` of a wallet looks up the transaction that is spent and
throws when the amount is out of range. So the amounts that the checks have seen (`CTransaction.Funded`) have to be
the ones that the wallet has. This rests on the hash function: what a wallet keeps under a hash is the transaction with
that hash (`CWallet.Keyed`, `CollisionFree`). No call of chain selection changes that, which takes up the end
of the module.

* `CBlock.connectChecks_noThrow` — the checks of `ConnectBlock`
* `funded_of_connectChecks` — what they have seen of the amounts
* `connectBlock_returns`, `setBestChainInner_returns` — `ConnectBlock` with the wallets, and the step of
  `SetBestChain` that calls it
* `keeps_setBestChain` — the wallets stay keyed
-/

open Framework Framework.Command

namespace Peershares

/-! ### Values -/

/-- Outputs that `CheckTransaction` has passed can be added up without leaving the range. -/
theorem getValueOut_loop_of_checkOutputs {fUser : Bool} {vout : List CTxOut} {acc : Int} {u : Unit}
    (h : checkOutputs fUser vout acc = .ok u) :
    ∃ v, CTransaction.getValueOut.loop vout acc = .ok v := by
  induction vout generalizing acc with
  | nil => exact ⟨acc, rfl⟩
  | cons txout vout ih =>
    have hnonneg := CTransaction.nValue_nonneg_of_checkOutputs h txout List.mem_cons_self
    simp only [checkOutputs, Result.bind_eq_ok, require_eq_ok, decide_eq_true_eq] at h
    obtain ⟨-, -, -, -, -, hmax, -, hrange, hrest⟩ := h
    have hvalue : moneyRange txout.nValue = true := moneyRange_iff.mpr ⟨hnonneg, hmax⟩
    obtain ⟨v, hv⟩ := ih hrest
    refine ⟨v, ?_⟩
    rw [CTransaction.getValueOut.loop, hvalue, hrange]
    exact hv

/-- `GetValueOut` returns for a transaction that has passed `CheckTransaction`. -/
theorem CTransaction.getValueOut_noThrow {tx : CTransaction} {u : Unit}
    (h : tx.checkTransaction = .ok u) : tx.getValueOut.NoThrow := by
  simp only [checkTransaction, Result.bind_eq_ok] at h
  obtain ⟨_, -, _, -, _, -, _, hout, -⟩ := h
  obtain ⟨v, hv⟩ := getValueOut_loop_of_checkOutputs hout
  unfold getValueOut
  rw [hv]
  exact Result.noThrow_ok v

namespace CBlock

/-- `CheckBlock` has checked every transaction of the block. -/
theorem checkTransaction_of_checkTransactions {nBlockTime : Int} {vtx : List CTransaction} {u : Unit}
    (h : checkTransactions nBlockTime vtx = .ok u) : ∀ tx ∈ vtx, tx.checkTransaction = .ok () := by
  induction vtx with
  | nil => simp
  | cons t vtx ih =>
    simp only [checkTransactions, Result.bind_eq_ok] at h
    obtain ⟨_, ht, _, -, hrest⟩ := h
    exact List.forall_mem_cons.mpr ⟨checkBlockTransaction_eq_ok.mp ht, ih hrest⟩

/-- Every transaction of a block that has passed `CheckBlock` has passed `CheckTransaction`. -/
theorem checkTransaction_of_checkBlock {P : Params} {nAdjustedTime : Int} {block : CBlock} {u : Unit}
    (h : block.checkBlock P nAdjustedTime = .ok u) : ∀ tx ∈ block.vtx, tx.checkTransaction = .ok () := by
  unfold checkBlock at h
  split at h
  · exact absurd h (by simp)
  · simp only [Result.bind_eq_ok] at h
    obtain ⟨_, -, _, -, _, -, _, -, _, -, _, -, _, -, _, -, _, -, _, -, _, -, _, htxs, -⟩ := h
    exact checkTransaction_of_checkTransactions htxs

/-- Checking them throws nothing when each of them has passed. -/
theorem checkTransactions_noThrow {nBlockTime : Int} {vtx : List CTransaction}
    (h : ∀ tx ∈ vtx, tx.checkTransaction = .ok ()) : (checkTransactions nBlockTime vtx).NoThrow := by
  induction vtx with
  | nil => exact Result.noThrow_ok _
  | cons tx vtx ih =>
    obtain ⟨htx, hvtx⟩ := List.forall_mem_cons.mp h
    rw [checkTransactions, checkBlockTransaction_eq_ok.mpr htx]
    exact (Result.noThrow_require _ _ _).bind (fun _ _ => ih hvtx)

/-- A block that has passed `CheckBlock` can only be refused later, at another time. -/
theorem checkBlock_noThrow {P : Params} {nAdjustedTime : Int} {block : CBlock} {u : Unit}
    (h : block.checkBlock P nAdjustedTime = .ok u) (nAdjustedTime' : Int) :
    (block.checkBlock P nAdjustedTime').NoThrow := by
  have htxs := checkTransaction_of_checkBlock h
  unfold checkBlock
  split
  · exact Result.noThrow_error _ _
  · next txCoinBase vtx hvtx =>
    have hvalue : txCoinBase.getValueOut.NoThrow :=
      CTransaction.getValueOut_noThrow (htxs _ (by rw [hvtx]; exact List.mem_cons_self))
    have hrequire := Result.noThrow_require
    -- the tests come one after the other, and none of them throws
    refine (hrequire _ _ _).bind (fun _ _ => (hrequire _ _ _).bind (fun _ _ => ?_))
    refine (hrequire _ _ _).bind (fun _ _ => (hrequire _ _ _).bind (fun _ _ => ?_))
    refine (hrequire _ _ _).bind (fun _ _ => (hrequire _ _ _).bind (fun _ _ => ?_))
    refine (hrequire _ _ _).bind (fun _ _ => (hrequire _ _ _).bind (fun _ _ => ?_))
    refine (hrequire _ _ _).bind (fun _ _ => hvalue.bind (fun _ _ => ?_))
    refine (hrequire _ _ _).bind (fun _ _ => (checkTransactions_noThrow htxs).bind (fun _ _ => ?_))
    refine (hrequire _ _ _).bind (fun _ _ => (hrequire _ _ _).bind (fun _ _ => ?_))
    exact (hrequire _ _ _).bind (fun _ _ => hrequire _ _ _)

end CBlock

/-! ### Inputs -/

/-- Every input has been fetched, and its output is there. -/
def MapPrevTx.Covers (inputs : MapPrevTx) (vin : List CTxIn) : Prop :=
  ∀ txin ∈ vin, ∃ prev txout, inputs.lookup txin.prevout.hash = some prev ∧
    prev.2.vout[txin.prevout.n]? = some txout

/-- A loop throws nothing when none of its steps does. -/
theorem Result.noThrow_mapM {α β : Type} {f : α → Result β} {as : List α}
    (h : ∀ a ∈ as, (f a).NoThrow) : (as.mapM f).NoThrow := by
  induction as with
  | nil => exact Result.noThrow_ok _
  | cons a as ih =>
    obtain ⟨ha, has⟩ := List.forall_mem_cons.mp h
    rw [List.mapM_cons]
    exact ha.bind (fun _ _ => (ih has).bind (fun _ _ => Result.noThrow_ok _))

section Inputs

variable {P : Params} {env : ConnectEnv} {mapTestPool : TxIndexMap} {fBlock fMiner : Bool}
  {tx : CTransaction} {inputs : MapPrevTx} {pindexBlock : BlockPtr}

/-- `FetchInputs` looks one input up without a throw. -/
theorem fetchPrev_noThrow (hash : Uint256) :
    (fetchPrev env mapTestPool fBlock fMiner hash).NoThrow := by
  unfold fetchPrev
  split
  · split
    · exact Result.noThrow_error _ _
    · split
      · exact Result.noThrow_error _ _
      · exact Result.noThrow_ok _
  · split_ifs
    · split
      · exact Result.noThrow_error _ _
      · exact Result.noThrow_ok _
    · split
      · exact Result.noThrow_error _ _
      · exact Result.noThrow_ok _

/-- And so all of them. -/
theorem fetchLoop_noThrow (vin : List CTxIn) (inputsRet : MapPrevTx) :
    (fetchLoop env mapTestPool fBlock fMiner vin inputsRet).NoThrow := by
  induction vin generalizing inputsRet with
  | nil => exact Result.noThrow_ok _
  | cons txin vin ih =>
    rw [fetchLoop]
    split
    · exact ih inputsRet
    · exact (fetchPrev_noThrow _).bind (fun _ _ => ih _)

/-- The second loop of `FetchInputs` fails with an error, not with a throw. -/
theorem fetchInputs_noThrow : (tx.fetchInputs env mapTestPool fBlock fMiner).NoThrow := by
  unfold CTransaction.fetchInputs
  split_ifs
  · exact Result.noThrow_ok _
  · refine (fetchLoop_noThrow _ _).bind (fun _ _ => ?_)
    exact (Result.noThrow_require _ _ _).bind (fun _ _ => Result.noThrow_ok _)

/-- `FetchInputs` has checked that the outputs are there. -/
theorem covers_of_fetchInputs (hcb : tx.isCoinBase = false)
    (h : tx.fetchInputs env mapTestPool fBlock fMiner = .ok inputs) : inputs.Covers tx.vin := by
  unfold CTransaction.fetchInputs at h
  rw [if_neg (by simp [hcb])] at h
  simp only [Result.bind_eq_ok, require_eq_ok] at h
  obtain ⟨inputs', -, -, hall, hpure⟩ := h
  cases hpure
  intro txin htxin
  have hsome := List.all_eq_true.mp hall txin htxin
  obtain ⟨txout, hout⟩ := Option.isSome_iff_exists.mp hsome
  unfold MapPrevTx.output? at hout
  split at hout
  · exact absurd hout (by simp)
  · next txindex txPrev hlookup =>
    split_ifs at hout
    exact ⟨(txindex, txPrev), txout, hlookup, hout⟩

/-- `GetOutputFor` throws only for an input that was not fetched. -/
theorem getOutputFor_noThrow {txin : CTxIn} (h : inputs.Covers tx.vin) (htxin : txin ∈ tx.vin) :
    (getOutputFor txin inputs).NoThrow := by
  obtain ⟨⟨txindex, txPrev⟩, txout, hlookup, hout⟩ := h txin htxin
  unfold getOutputFor
  rw [hlookup]
  simp only [hout]
  exact Result.noThrow_ok _

/-- `GetValueIn` reads the outputs of fetched inputs alone. -/
theorem getValueIn_noThrow (h : inputs.Covers tx.vin) : (tx.getValueIn inputs).NoThrow := by
  unfold CTransaction.getValueIn
  split_ifs
  · exact Result.noThrow_ok _
  · refine (Result.noThrow_mapM (fun txin htxin => ?_)).bind (fun _ _ => Result.noThrow_ok _)
    exact getOutputFor_noThrow h htxin

/-- The same for `GetP2SHSigOpCount`. -/
theorem addP2SHSigOps_noThrow (h : inputs.Covers tx.vin) (fStrictPayToScriptHash : Bool)
    (nSigOps : ℕ) : (addP2SHSigOps fStrictPayToScriptHash nSigOps tx inputs).NoThrow := by
  unfold addP2SHSigOps CTransaction.getP2SHSigOpCount
  split_ifs
  · exact (Result.noThrow_require _ _ _).bind (fun _ _ => Result.noThrow_ok _)
  · refine ((Result.noThrow_mapM (fun txin htxin => ?_)).bind (fun _ _ => Result.noThrow_ok _)).bind
      (fun _ _ => (Result.noThrow_require _ _ _).bind (fun _ _ => Result.noThrow_ok _))
    exact (getOutputFor_noThrow h htxin).bind (fun _ _ => Result.noThrow_ok _)
  · exact Result.noThrow_ok _

/-- The first loop of `ConnectInputs`. -/
theorem checkInputs_noThrow {vin : List CTxIn} (h : inputs.Covers vin) (nValueIn : Int) :
    (checkInputs P pindexBlock tx inputs vin nValueIn).NoThrow := by
  induction vin generalizing nValueIn with
  | nil => exact Result.noThrow_ok _
  | cons txin vin ih =>
    obtain ⟨⟨prev, txout, hlookup, hout⟩, hvin⟩ := List.forall_mem_cons.mp h
    -- the previous transaction of every input is there, with an output of that number
    have hprev : getPrev inputs txin.prevout = .ok prev := by
      unfold getPrev
      rw [hlookup]
    have hprevOut : (getPrevOut prev txin.prevout).NoThrow := by
      unfold getPrevOut
      rw [hout]
      simp only
      split_ifs
      · exact Result.noThrow_ok _
      · exact Result.noThrow_error _ _
    rw [checkInputs, hprev]
    refine hprevOut.bind (fun _ _ => (Result.noThrow_require _ _ _).bind (fun _ _ => ?_))
    refine (Result.noThrow_require _ _ _).bind (fun _ _ => ?_)
    exact (Result.noThrow_require _ _ _).bind (fun _ _ => ih hvin _)

/-- A bad signature is an error. -/
theorem verifyInput_noThrow {txPrev : CTransaction} {nIn : ℕ} {txin : CTxIn}
    {fStrictPayToScriptHash : Bool} :
    (verifyInput P env txPrev tx nIn txin fBlock fStrictPayToScriptHash).NoThrow := by
  unfold verifyInput
  split_ifs
  · exact Result.noThrow_ok _
  · exact Result.noThrow_ok _
  · exact Result.noThrow_error _ _
  · exact Result.noThrow_error _ _

/-- The second loop of `ConnectInputs`. -/
theorem spendInputs_noThrow {posThisTx : CDiskTxPos} {fStrictPayToScriptHash : Bool}
    {vin : List CTxIn} (nIn : ℕ) (h : ∀ txin ∈ vin, (inputs.lookup txin.prevout.hash).isSome = true) :
    (spendInputs P env tx posThisTx fBlock fMiner fStrictPayToScriptHash vin nIn inputs
      mapTestPool).NoThrow := by
  induction vin generalizing nIn inputs mapTestPool with
  | nil => exact Result.noThrow_ok _
  | cons txin vin ih =>
    obtain ⟨htxin, hvin⟩ := List.forall_mem_cons.mp h
    obtain ⟨prev, hlookup⟩ := Option.isSome_iff_exists.mp htxin
    have hprev : getPrev inputs txin.prevout = .ok prev := by
      unfold getPrev
      rw [hlookup]
    rw [spendInputs, hprev]
    refine (Result.noThrow_require _ _ _).bind (fun _ _ => verifyInput_noThrow.bind (fun _ _ => ?_))
    -- the entry of this input is written back, none is removed
    refine ih (nIn + 1) (fun txin' htxin' => ?_)
    rw [Map.lookup_insert_eq]
    split_ifs
    · rfl
    · exact hvin txin' htxin'

/-- The comparison of values needs `GetValueOut` of the transaction itself. -/
theorem checkValue_noThrow (hvalue : tx.getValueOut.NoThrow) (nValueIn : Int) :
    (checkValue P env tx nValueIn fBlock).NoThrow := by
  have hrequire := Result.noThrow_require
  unfold checkValue
  split_ifs
  · unfold checkStakeReward
    split
    · exact Result.noThrow_error _ _
    · exact hvalue.bind (fun _ _ => hrequire _ _ _)
  · unfold checkFees
    refine hvalue.bind (fun _ _ => (hrequire _ _ _).bind (fun _ _ => ?_))
    exact (hrequire _ _ _).bind (fun _ _ => (hrequire _ _ _).bind (fun _ _ => hrequire _ _ _))

/-- So `ConnectInputs` throws nothing for fetched inputs and a checked transaction. -/
theorem connectInputs_noThrow {posThisTx : CDiskTxPos} {fStrictPayToScriptHash : Bool}
    (h : inputs.Covers tx.vin) (hvalue : tx.getValueOut.NoThrow) :
    (tx.connectInputs P env inputs mapTestPool posThisTx pindexBlock fBlock fMiner
      fStrictPayToScriptHash).NoThrow := by
  unfold CTransaction.connectInputs
  split_ifs
  · exact Result.noThrow_ok _
  · refine (checkInputs_noThrow h 0).bind (fun nValueIn _ => ?_)
    refine (spendInputs_noThrow 0 (fun txin htxin => ?_)).bind (fun _ _ => ?_)
    · obtain ⟨prev, -, hlookup, -⟩ := h txin htxin
      rw [hlookup]
      rfl
    · exact (checkValue_noThrow hvalue nValueIn).bind (fun _ _ => Result.noThrow_ok _)

/-- One step of the loop of `ConnectBlock`. -/
theorem connectTransaction_noThrow {pindex : CBlockIndex} {pprev : BlockPtr}
    {fStrictPayToScriptHash : Bool} {st : ConnectState} (h : tx.checkTransaction = .ok ()) :
    (connectTransaction P env pindex pprev fStrictPayToScriptHash st tx).NoThrow := by
  have hvalue := CTransaction.getValueOut_noThrow h
  unfold connectTransaction connectValue
  refine (Result.noThrow_require _ _ _).bind (fun _ _ => ?_)
  split_ifs with hcb
  · unfold connectCoinBase
    exact (hvalue.bind (fun _ _ => Result.noThrow_ok _)).bind (fun _ _ => Result.noThrow_ok _)
  · unfold connectSpending
    refine Result.NoThrow.bind (fetchInputs_noThrow.bind (fun inputs hinputs => ?_))
      (fun _ _ => Result.noThrow_ok _)
    have hcovers := covers_of_fetchInputs (by simpa using hcb) hinputs
    refine (addP2SHSigOps_noThrow hcovers _ _).bind (fun _ _ => ?_)
    refine (getValueIn_noThrow hcovers).bind (fun _ _ => hvalue.bind (fun _ _ => ?_))
    exact (connectInputs_noThrow hcovers hvalue).bind (fun _ _ => Result.noThrow_ok _)

end Inputs

/-- **The checks of `ConnectBlock` do not throw**, for a block that has passed `CheckBlock`. -/
theorem CBlock.connectChecks_noThrow {P : Params} {env : ConnectEnv} {nAdjustedTime : Int}
    {block : CBlock} {u : Unit} (h : block.checkBlock P nAdjustedTime = .ok u)
    (nAdjustedTime' : Int) (pindex : CBlockIndex) (pprev : BlockPtr) :
    (block.connectChecks P env nAdjustedTime' pindex pprev).NoThrow := by
  unfold CBlock.connectChecks
  refine (checkBlock_noThrow h nAdjustedTime').bind (fun _ _ => ?_)
  refine (Result.noThrow_require _ _ _).bind (fun _ _ => ?_)
  -- over the transactions, from any state of the loop
  have hloop : ∀ vtx st, (∀ tx ∈ vtx, CTransaction.checkTransaction tx = .ok ()) →
      (connectTransactions P env pindex pprev (bip16Active P pindex.nTime) vtx st).NoThrow := by
    intro vtx
    induction vtx with
    | nil =>
      intro st _
      exact Result.noThrow_ok _
    | cons tx vtx ih =>
      intro st hvtx
      obtain ⟨htx, hrest⟩ := List.forall_mem_cons.mp hvtx
      rw [connectTransactions]
      exact (connectTransaction_noThrow htx).bind (fun st' _ => ih st' hrest)
  exact hloop block.vtx _ (checkTransaction_of_checkBlock h)

/-! ### Spent outputs -/

/-- What is assumed of the hash function: different transactions have different hashes, and none is
zero, the hash in a null `prevout`. -/
structure CollisionFree (P : Params) : Prop where
  injective : Function.Injective P.hashTx
  ne_zero : ∀ tx, P.hashTx tx ≠ 0

/-- The output an input spends, in the transaction with the hash it names. -/
def CTxIn.Spends (P : Params) (txin : CTxIn) (txout : CTxOut) : Prop :=
  ∃ txPrev, P.hashTx txPrev = txin.prevout.hash ∧ txPrev.vout[txin.prevout.n]? = some txout

/-- A coinbase, or a transaction that spends outputs which exist and whose sum is in range. -/
def CTransaction.Funded (P : Params) (tx : CTransaction) : Prop :=
  tx.isCoinBase = true ∨ ∃ vout : List CTxOut, List.Forall₂ (CTxIn.Spends P) tx.vin vout ∧
    (∀ txout ∈ vout, 0 ≤ txout.nValue) ∧ (vout.map CTxOut.nValue).sum ≤ MAX_MONEY

section Spent

variable {P : Params} {env : ConnectEnv} {mapTestPool mapTestPool' : TxIndexMap}
  {tx : CTransaction} {inputs : MapPrevTx} {pindexBlock : BlockPtr}

/-- The first loop of `ConnectInputs` has looked at the values. -/
theorem values_of_checkInputs {vin : List CTxIn} {nValueIn v : Int}
    (h : checkInputs P pindexBlock tx inputs vin nValueIn = .ok v) (hle : nValueIn ≤ MAX_MONEY) :
    ∃ vout : List CTxOut, List.Forall₂ (fun txin txout => ∃ prev,
        inputs.lookup (CTxIn.prevout txin).hash = some prev ∧
        prev.2.vout[txin.prevout.n]? = some txout) vin vout ∧
      (∀ txout ∈ vout, 0 ≤ txout.nValue) ∧ nValueIn + (vout.map CTxOut.nValue).sum ≤ MAX_MONEY := by
  induction vin generalizing nValueIn with
  | nil => exact ⟨[], List.Forall₂.nil, by simp, by simpa using hle⟩
  | cons txin vin ih =>
    simp only [checkInputs, Result.bind_eq_ok, require_eq_ok, Bool.and_eq_true] at h
    obtain ⟨prev, hprev, txout, hout, -, -, -, -, -, ⟨hvalue, hsum⟩, hrest⟩ := h
    obtain ⟨vout, hspends, hnonneg, hle'⟩ := ih hrest (moneyRange_iff.mp hsum).2
    refine ⟨txout :: vout, ?_, ?_, ?_⟩
    · exact List.Forall₂.cons ⟨prev, getPrev_eq_ok hprev, (getPrevOut_eq_ok hout).1⟩ hspends
    · exact List.forall_mem_cons.mpr ⟨(moneyRange_iff.mp hvalue).1, hnonneg⟩
    · rw [List.map_cons, List.sum_cons, ← add_assoc]
      exact hle'

/-- With the signatures the second loop has compared the hashes, for no block is below the last
hardened checkpoint. -/
theorem hashTx_of_spendInputs {posThisTx : CDiskTxPos} {fBlock fMiner fStrictPayToScriptHash : Bool}
    {vin : List CTxIn} {nIn : ℕ} (hheight : 0 ≤ env.nBestHeight)
    (h : spendInputs P env tx posThisTx fBlock fMiner fStrictPayToScriptHash vin nIn inputs
      mapTestPool = .ok mapTestPool') :
    ∀ txin ∈ vin, ∀ prev, inputs.lookup txin.prevout.hash = some prev →
      P.hashTx prev.2 = txin.prevout.hash := by
  induction vin generalizing nIn inputs mapTestPool with
  | nil => simp
  | cons txin vin ih =>
    simp only [spendInputs, Result.bind_eq_ok, require_eq_ok] at h
    obtain ⟨prev, hprev, -, -, _, hverify, hrest⟩ := h
    have hlookup := getPrev_eq_ok hprev
    -- genesis is the only hardened checkpoint
    have hestimate : getTotalBlocksEstimate P = 0 := by
      unfold getTotalBlocksEstimate
      split_ifs <;> rfl
    have hhash : P.hashTx prev.2 = txin.prevout.hash := by
      unfold verifyInput at hverify
      rw [hestimate, if_neg (by simp [not_lt.mpr hheight])] at hverify
      split_ifs at hverify with hsig
      unfold verifySignature at hsig
      split at hsig
      · exact absurd hsig (by simp)
      · simp only [Bool.and_eq_true, decide_eq_true_eq] at hsig
        exact hsig.1.symm
    intro txin' htxin' prev' hlookup'
    rcases List.mem_cons.mp htxin' with rfl | htxin'
    · rw [hlookup] at hlookup'
      cases hlookup'
      exact hhash
    · -- the entry written back has the same transaction
      by_cases heq : txin'.prevout.hash = txin.prevout.hash
      · rw [heq, hlookup] at hlookup'
        cases hlookup'
        rw [heq]
        exact hhash
      · refine ih hrest txin' htxin' prev' ?_
        rw [Map.lookup_insert_eq, if_neg heq]
        exact hlookup'

/-- What has passed `ConnectInputs` spends real outputs worth at least its own. -/
theorem funded_of_connectInputs {posThisTx : CDiskTxPos} {fBlock fMiner fStrictPayToScriptHash : Bool}
    (hheight : 0 ≤ env.nBestHeight)
    (h : tx.connectInputs P env inputs mapTestPool posThisTx pindexBlock fBlock fMiner
      fStrictPayToScriptHash = .ok mapTestPool') : tx.Funded P := by
  by_cases hcb : tx.isCoinBase = true
  · exact Or.inl hcb
  · unfold CTransaction.connectInputs at h
    rw [if_neg hcb] at h
    simp only [Result.bind_eq_ok] at h
    obtain ⟨nValueIn, hvalues, _, hspend, -⟩ := h
    obtain ⟨vout, hall, hnonneg, hle⟩ := values_of_checkInputs hvalues (by decide)
    refine Or.inr ⟨vout, ?_, hnonneg, by simpa using hle⟩
    have hhash := hashTx_of_spendInputs hheight hspend
    refine List.forall₂_iff_zip.mpr ⟨hall.length_eq, ?_⟩
    intro txin txout hmem
    obtain ⟨prev, hlookup, hout⟩ := (List.forall₂_iff_zip.mp hall).2 hmem
    exact ⟨prev.2, hhash txin (List.of_mem_zip hmem).1 prev hlookup, hout⟩

/-- One step of the loop of `ConnectBlock` leaves a funded transaction behind. -/
theorem funded_of_connectTransaction {pindex : CBlockIndex} {pprev : BlockPtr}
    {fStrictPayToScriptHash : Bool} {st st' : ConnectState} (hheight : 0 ≤ env.nBestHeight)
    (h : connectTransaction P env pindex pprev fStrictPayToScriptHash st tx = .ok st') :
    tx.Funded P := by
  by_cases hcb : tx.isCoinBase = true
  · exact Or.inl hcb
  · simp only [connectTransaction, connectValue, if_neg hcb, connectSpending, Result.bind_eq_ok] at h
    obtain ⟨_, -, _, ⟨_, -, _, -, _, -, _, -, _, hconnect, -⟩, -⟩ := h
    exact funded_of_connectInputs hheight hconnect

/-- And so does the whole loop. -/
theorem funded_of_connectTransactions {pindex : CBlockIndex} {pprev : BlockPtr}
    {fStrictPayToScriptHash : Bool} {vtx : List CTransaction} {st st' : ConnectState}
    (hheight : 0 ≤ env.nBestHeight)
    (h : connectTransactions P env pindex pprev fStrictPayToScriptHash vtx st = .ok st') :
    ∀ tx ∈ vtx, tx.Funded P := by
  induction vtx generalizing st with
  | nil => simp
  | cons tx vtx ih =>
    rw [connectTransactions, Result.bind_eq_ok] at h
    obtain ⟨st₁, htx, hrest⟩ := h
    exact List.forall_mem_cons.mpr ⟨funded_of_connectTransaction hheight htx, ih hrest⟩

/-- Every transaction of a block that `ConnectBlock` has checked is funded. -/
theorem funded_of_connectChecks {block : CBlock} {nAdjustedTime : Int} {pindex : CBlockIndex}
    {pprev : BlockPtr} {st : ConnectState} (hheight : 0 ≤ env.nBestHeight)
    (h : block.connectChecks P env nAdjustedTime pindex pprev = .ok st) :
    ∀ tx ∈ block.vtx, tx.Funded P := by
  simp only [CBlock.connectChecks, Result.bind_eq_ok] at h
  obtain ⟨_, -, _, -, hloop⟩ := h
  exact funded_of_connectTransactions hheight hloop

end Spent

/-! ### Wallets -/

namespace CWallet

/-- A wallet keeps every transaction under its hash. -/
def Keyed (P : Params) (w : CWallet) : Prop :=
  ∀ hash wtx, w.mapWallet.lookup hash = some wtx → P.hashTx wtx.tx = hash

variable {P : Params} {w : CWallet} {tx : CTransaction}

/-- Marking an output keeps every wallet transaction under its own hash. -/
theorem Keyed.markOutput (h : w.Keyed P) {prevout : COutPoint} {wtx : CWalletTx}
    (hlookup : w.mapWallet.lookup prevout.hash = some wtx) (fSpent : Bool) :
    (w.markOutput prevout wtx fSpent).Keyed P := by
  intro hash wtx' hlookup'
  unfold CWallet.markOutput at hlookup'
  rw [Map.lookup_insert_eq] at hlookup'
  split_ifs at hlookup' with heq
  · cases hlookup'
    have hkeyed := h _ wtx hlookup
    rw [heq]
    exact hkeyed
  · exact h hash wtx' hlookup'

/-- So does adding a transaction under its hash. -/
theorem Keyed.insert (h : w.Keyed P) (tx : CTransaction) :
    Keyed P { w with mapWallet := w.mapWallet.insert (P.hashTx tx) { tx := tx } } := by
  intro hash wtx hlookup
  rw [Map.lookup_insert_eq] at hlookup
  split_ifs at hlookup with heq
  · cases hlookup
    exact heq.symm
  · exact h hash wtx hlookup

/-- `WalletUpdateSpent` marks outputs only. -/
theorem keeps_updateSpent (tx : CTransaction) : Keeps (Keyed P) (walletUpdateSpent tx) := by
  refine Keeps.forList (fun txin w h => ?_) tx.vin
  unfold Triple updateSpentIn
  cases hlookup : w.mapWallet.lookup txin.prevout.hash with
  | none => exact h
  | some wtx =>
    cases hspent : wtx.isSpent txin.prevout.n with
    | error e =>
      simp only [hspent]
      exact h
    | ok fSpent =>
      simp only [hspent]
      split_ifs
      · exact h.markOutput hlookup true
      · exact h

/-- `AddToWalletIfInvolvingMe` stores the transaction under its hash. -/
theorem keeps_syncConnected (tx : CTransaction) : Keeps (Keyed P) (syncConnected P tx) := by
  intro w h
  unfold Triple syncConnected addToWalletIfInvolvingMe
  cases w.involves P tx with
  | error e => exact h
  | ok fInvolved =>
    cases fInvolved with
    | false => exact keeps_updateSpent tx w h
    | true =>
      unfold addToWallet
      cases w.mapWallet.lookup (P.hashTx tx) with
      | none => exact keeps_updateSpent tx _ (h.insert tx)
      | some wtx => exact keeps_updateSpent wtx.tx w h

/-- `DisableTransaction` marks outputs only. -/
theorem keeps_disableTransaction (tx : CTransaction) :
    Keeps (Keyed P) (disableTransaction tx) := by
  intro w h
  unfold Triple disableTransaction
  split_ifs
  · -- `IsFromMe` can throw, but then nothing is marked
    cases w.isFromMe tx with
    | error e => exact h
    | ok fFromMe =>
      cases fFromMe with
      | false => exact h
      | true =>
        refine Keeps.forList (fun txin w h => ?_) tx.vin w h
        unfold Triple disableIn
        cases hlookup : w.mapWallet.lookup txin.prevout.hash with
        | none => exact h
        | some prev =>
          simp only
          split_ifs
          · exact h.markOutput hlookup false
          · exact h
  · exact h

/-- So does what the wallet does for a disconnected coinstake. -/
theorem keeps_syncDisconnected (tx : CTransaction) : Keeps (Keyed P) (syncDisconnected tx) := by
  intro w h
  unfold Triple syncDisconnected
  split_ifs
  · cases w.isFromMe tx with
    | error e => exact h
    | ok fFromMe =>
      cases fFromMe with
      | false => exact h
      | true => exact keeps_disableTransaction tx w h
  · exact h

/-- What a wallet has under the hash an input names is the transaction it spends from. -/
theorem Keyed.vout_eq (h : w.Keyed P) (hP : CollisionFree P) {txin : CTxIn} {txout : CTxOut}
    {wtx : CWalletTx} (hspends : txin.Spends P txout)
    (hlookup : w.mapWallet.lookup txin.prevout.hash = some wtx) :
    wtx.tx.vout[txin.prevout.n]? = some txout := by
  obtain ⟨txPrev, hhash, hout⟩ := hspends
  have hsame : wtx.tx = txPrev := hP.injective ((h _ _ hlookup).trans hhash.symm)
  rw [hsame]
  exact hout

/-- Nothing is stored under the hash zero. -/
theorem Keyed.lookup_zero (h : w.Keyed P) (hP : CollisionFree P) : w.mapWallet.lookup 0 = none := by
  cases hlookup : w.mapWallet.lookup 0 with
  | none => rfl
  | some wtx => exact absurd (h 0 wtx hlookup) (hP.ne_zero wtx.tx)

/-- The one input of a coinbase has the hash zero. -/
theorem prevout_hash_of_isCoinBase (h : tx.isCoinBase = true) :
    ∃ txin, tx.vin = [txin] ∧ txin.prevout.hash = 0 := by
  unfold CTransaction.isCoinBase at h
  split at h
  · next txin hvin =>
    simp only [COutPoint.isNull, Bool.and_eq_true, decide_eq_true_eq] at h
    exact ⟨txin, hvin, h.1.1⟩
  · exact absurd h (by simp)

/-- The outputs a funded transaction spends are in range for `IsSpent`. -/
theorem Keyed.lt_of_funded (h : w.Keyed P) (hP : CollisionFree P) (hf : tx.Funded P) {txin : CTxIn}
    {wtx : CWalletTx} (htxin : txin ∈ tx.vin)
    (hlookup : w.mapWallet.lookup txin.prevout.hash = some wtx) :
    txin.prevout.n < wtx.tx.vout.length := by
  rcases hf with hcb | ⟨vout, hspends, -, -⟩
  · obtain ⟨txin', hvin, hzero⟩ := prevout_hash_of_isCoinBase hcb
    rw [hvin, List.mem_singleton] at htxin
    rw [htxin, hzero, h.lookup_zero hP] at hlookup
    exact absurd hlookup (by simp)
  · obtain ⟨i, hi, rfl⟩ := List.mem_iff_getElem.mp htxin
    have hi' : i < vout.length := hspends.length_eq ▸ hi
    have hout := h.vout_eq hP (hspends.get hi hi') hlookup
    exact (List.getElem?_eq_some_iff.mp hout).1

/-- What is debited for an input is nothing or its value. -/
theorem Keyed.getDebitIn_le (h : w.Keyed P) (hP : CollisionFree P) {txin : CTxIn} {txout : CTxOut}
    (hspends : txin.Spends P txout) (hnonneg : 0 ≤ txout.nValue) :
    0 ≤ w.getDebitIn txin ∧ w.getDebitIn txin ≤ txout.nValue := by
  unfold CWallet.getDebitIn CWallet.ownOutput
  cases hlookup : w.mapWallet.lookup txin.prevout.hash with
  | none => exact ⟨le_refl _, hnonneg⟩
  | some prev =>
    simp only [h.vout_eq hP hspends hlookup, Option.filter_some]
    split_ifs
    · exact ⟨hnonneg, le_refl _⟩
    · exact ⟨le_refl _, hnonneg⟩

/-- The debits of the inputs stay below the value of what is spent, so their sum stays in the range. -/
theorem Keyed.getDebit_loop (h : w.Keyed P) (hP : CollisionFree P) {vin : List CTxIn}
    {vout : List CTxOut} {nDebit : Int} (hspends : List.Forall₂ (CTxIn.Spends P) vin vout)
    (hnonneg : ∀ txout ∈ vout, 0 ≤ txout.nValue) (h0 : 0 ≤ nDebit)
    (hle : nDebit + (vout.map CTxOut.nValue).sum ≤ MAX_MONEY) :
    ∃ v, getDebit.loop w vin nDebit = .ok v := by
  induction hspends generalizing nDebit with
  | nil => exact ⟨nDebit, rfl⟩
  | @cons txin txout vin vout htxin _ ih =>
    obtain ⟨htxout, hvout⟩ := List.forall_mem_cons.mp hnonneg
    obtain ⟨hge, hdebit⟩ := h.getDebitIn_le hP htxin htxout
    -- what is still to come is not negative, so no partial sum is larger than the whole
    have hsum : 0 ≤ (vout.map CTxOut.nValue).sum := by
      refine List.sum_nonneg (fun v hv => ?_)
      obtain ⟨o, ho, rfl⟩ := List.mem_map.mp hv
      exact hvout o ho
    rw [List.map_cons, List.sum_cons] at hle
    have hrange : moneyRange (nDebit + w.getDebitIn txin) = true :=
      moneyRange_iff.mpr ⟨by omega, by omega⟩
    rw [getDebit.loop, if_pos hrange]
    exact ih hvout (by omega) (by omega)

/-- `GetDebit` of a funded transaction returns. -/
theorem Keyed.getDebit_of_funded (h : w.Keyed P) (hP : CollisionFree P) (hf : tx.Funded P) :
    ∃ v, w.getDebit tx = .ok v := by
  rcases hf with hcb | ⟨vout, hspends, hnonneg, hle⟩
  · obtain ⟨txin, hvin, hzero⟩ := prevout_hash_of_isCoinBase hcb
    have hdebit : w.getDebitIn txin = 0 := by
      unfold CWallet.getDebitIn CWallet.ownOutput
      rw [hzero, h.lookup_zero hP]
      rfl
    refine ⟨0, ?_⟩
    unfold CWallet.getDebit
    rw [hvin, getDebit.loop, hdebit]
    rfl
  · exact h.getDebit_loop hP hspends hnonneg (le_refl 0) (by simpa using hle)

/-- `WalletUpdateSpent` of a funded transaction returns. -/
theorem updateSpent_returns (hP : CollisionFree P) (hf : tx.Funded P) (h : w.Keyed P) :
    Triple (walletUpdateSpent tx) w (fun _ w' => w'.Keyed P) (fun _ w' => False ∧ w'.Keyed P) := by
  refine Triple.forList (I := fun vin w' => (∀ txin ∈ vin, txin ∈ tx.vin) ∧ w'.Keyed P) ?_
    ⟨fun _ h => h, h⟩ |>.mono (fun _ _ h => h.2) (fun _ _ h => h)
  rintro txin vin w' ⟨hvin, hkeyed⟩
  obtain ⟨htxin, hrest⟩ := List.forall_mem_cons.mp hvin
  unfold Triple updateSpentIn
  cases hlookup : w'.mapWallet.lookup txin.prevout.hash with
  | none => exact ⟨hrest, hkeyed⟩
  | some wtx =>
    have hspent : wtx.isSpent txin.prevout.n = .ok (wtx.vfSpent.getD txin.prevout.n false) := by
      unfold CWalletTx.isSpent
      rw [if_neg (not_le.mpr (hkeyed.lt_of_funded hP hf htxin hlookup))]
    simp only [hspent]
    split_ifs
    · exact ⟨hrest, hkeyed.markOutput hlookup true⟩
    · exact ⟨hrest, hkeyed⟩

/-- `SyncWithWallets` of a funded transaction returns, on one wallet. -/
theorem syncConnected_returns (hP : CollisionFree P) (hf : tx.Funded P) (h : w.Keyed P) :
    Triple (syncConnected P tx) w (fun _ w' => w'.Keyed P) (fun _ w' => False ∧ w'.Keyed P) := by
  unfold Triple syncConnected addToWalletIfInvolvingMe
  -- the inputs are funded, so `IsFromMe` does not throw
  have hinvolves : ∃ fInvolved, w.involves P tx = .ok fInvolved := by
    obtain ⟨v, hv⟩ := h.getDebit_of_funded hP hf
    unfold CWallet.involves CWallet.isFromMe
    rw [hv]
    split_ifs
    · exact ⟨_, rfl⟩
    · exact ⟨_, rfl⟩
  obtain ⟨fInvolved, hinv⟩ := hinvolves
  rw [hinv]
  cases fInvolved with
  | false => exact updateSpent_returns hP hf h
  | true =>
    unfold addToWallet
    cases hlookup : w.mapWallet.lookup (P.hashTx tx) with
    | none => exact updateSpent_returns hP hf (h.insert tx)
    | some wtx =>
      -- under the same hash there is the same transaction
      have hsame : wtx.tx = tx := hP.injective (h _ _ hlookup)
      simp only [hsame]
      exact updateSpent_returns hP hf h

end CWallet

/-- Every registered wallet keeps its transactions under their hashes. -/
def WalletsKeyed (P : Params) (ws : List CWallet) : Prop := ∀ w ∈ ws, w.Keyed P

/-- Every wallet keeps its map when it is told of a transaction. -/
theorem keeps_syncWithWallets {P : Params} (fConnect : Bool) (tx : CTransaction) :
    Keeps (WalletsKeyed P) (syncWithWallets P fConnect tx) := by
  refine Keeps.forEach ?_
  split_ifs
  · exact CWallet.keeps_syncConnected tx
  · exact CWallet.keeps_syncDisconnected tx

/-- **The wallets do not throw** when they are told of a block that has been checked. -/
theorem syncBlock_returns {P : Params} {block : CBlock} {s : Store} (hP : CollisionFree P)
    (hfunded : ∀ tx ∈ block.vtx, tx.Funded P) (h : WalletsKeyed P s.wallets) :
    Triple (Store.syncBlock P true block) s (fun _ _ => True) (fun _ _ => False) := by
  refine Triple.onPart ((Triple.forList (I := fun vtx ws => (∀ tx ∈ vtx, tx.Funded P) ∧
    WalletsKeyed P ws) ?_ ⟨hfunded, h⟩).mono (fun _ _ _ => trivial) (fun _ _ h => h))
  rintro tx vtx ws ⟨hvtx, hws⟩
  obtain ⟨htx, hrest⟩ := List.forall_mem_cons.mp hvtx
  refine (Triple.forEach (E := fun _ => False) (fun w hw => ?_) hws).mono
    (fun _ ws' hws' => ⟨hrest, hws'⟩) (fun _ _ h => h.1)
  exact CWallet.syncConnected_returns hP htx hw

/-! ### `ConnectBlock` and `SetBestChainInner` -/

section Returns

variable {P : Params} {H : Host} {block : CBlock} {pindex : CBlockIndex} {pprev : BlockPtr}

/-- `ConnectBlock` ends by returning, for a block that has passed `CheckBlock`. -/
theorem connectBlock_returns {g : Globals} {s : Store} (hP : CollisionFree P)
    (hheight : 0 ≤ g.nBestHeight) {nAdjustedTime : Int}
    (hcheck : block.checkBlock P nAdjustedTime = .ok ()) (h : WalletsKeyed P s.wallets) :
    Triple (block.connectBlock P H g pindex pprev) s (fun _ _ => True)
      (fun e _ => e.isReturn = true) := by
  refine Triple.get_bind (Triple.lift_bind (fun st hst => ?_) (fun e he => ?_))
  · -- the checks have passed, so every input is funded
    have hfunded : ∀ tx ∈ block.vtx, tx.Funded P := funded_of_connectChecks hheight hst
    refine Triple.modify_bind (Host.require_bind (fun _ => ?_) (fun _ => rfl))
    refine Triple.get_bind (Triple.modify_bind (Host.require_bind (fun _ => ?_) (fun _ => rfl)))
    refine Triple.modify_bind (Triple.bind (Q := fun _ s' => s'.wallets = s.wallets) ?_ ?_)
    · cases pprev with
      | nil => rfl
      | cons pindexPrev pprevPrev =>
        exact Host.require_bind (fun _ => Triple.get_bind rfl) (fun _ => rfl)
    · intro _ s' hs'
      rw [← hs'] at h
      exact (syncBlock_returns hP hfunded h).mono (fun _ _ _ => trivial) (fun _ _ h => h.elim)
  · exact CBlock.connectChecks_noThrow hcheck _ _ _ e he

/-- **`SetBestChainInner` ends by returning**, for such a block on top of another. -/
theorem setBestChainInner_returns {n : Node} (hP : CollisionFree P) (hheight : 0 ≤ n.nBestHeight)
    {nAdjustedTime : Int} (hcheck : block.checkBlock P nAdjustedTime = .ok ()) (hne : pprev ≠ [])
    (h : WalletsKeyed P n.wallets) :
    Triple (setBestChainInner P H block pindex pprev) n (fun _ _ => True)
      (fun e _ => e.isReturn = true) := by
  refine Triple.bind (Q := fun _ _ => True) (Triple.onFailure (E := fun e _ => e.isReturn = true)
    (onStore_spec (Triple.bind (Q := fun _ _ => True) ?_ ?_)) (fun _ _ _ _ => rfl) ?_) ?_
  · exact connectBlock_returns hP hheight hcheck h
  · intro _ s' _
    exact Host.require_bind (fun _ => trivial) (fun _ => rfl)
  · -- an error that reaches the handler returns
    intro e n' he hfalse
    exact absurd he (by simp [hfalse])
  · intro _ n' _
    refine Triple.bind (Q := fun _ _ => True) (onStore_spec ?_) ?_
    · unfold Triple Store.txnCommit
      split_ifs
      · trivial
      · rfl
    · intro _ n'' _
      obtain ⟨e, p, rfl⟩ := List.exists_cons_of_ne_nil hne
      trivial

end Returns

/-! ### The wallets stay keyed -/

section Keeps

variable {P : Params} {H : Host}

/-- The wallets of a store stay keyed. -/
def StoreKeyed (P : Params) (s : Store) : Prop := WalletsKeyed P s.wallets

/-- The wallets of a node stay keyed. -/
def NodeKeyed (P : Params) (n : Node) : Prop := WalletsKeyed P n.wallets

/-- A step of the database does not touch the wallets. -/
theorem keeps_require {σ : Type} {I : σ → Prop} (step : IoStep) (msg : String) :
    Keeps I (H.require step msg) :=
  Keeps.lift _

/-- Nor does a write. -/
theorem keeps_write (f : TxDbData → TxDbData) : Keeps (StoreKeyed P) (Store.write f) :=
  Keeps.modify (fun _ h => h)

/-- Nor does the write of the index entry of the block before. -/
theorem keeps_writeBlockIndexPrev (g : Globals) (pindex : CBlockIndex) (pprev : BlockPtr)
    (hashNext : Uint256) (msg : String) :
    Keeps (StoreKeyed P) (Store.writeBlockIndexPrev H g pindex pprev hashNext msg) := by
  cases pprev with
  | nil => exact Keeps.pure ()
  | cons pindexPrev pprevPrev =>
    exact (keeps_require _ _).bind (fun _ => Keeps.get.bind (fun s => keeps_write _))

/-- Every transaction of the block is synced in turn. -/
theorem keeps_syncBlock (fConnect : Bool) (block : CBlock) :
    Keeps (StoreKeyed P) (Store.syncBlock P fConnect block) :=
  Keeps.onPart (J := WalletsKeyed P) (fun _ => Keeps.forList (keeps_syncWithWallets fConnect) _)
    (fun _ h => h) (fun _ _ _ h => h)

/-- `ConnectBlock` reaches the wallets through `SyncWithWallets` alone. -/
theorem keeps_connectBlock (g : Globals) (block : CBlock) (pindex : CBlockIndex) (pprev : BlockPtr) :
    Keeps (StoreKeyed P) (block.connectBlock P H g pindex pprev) := by
  refine Keeps.get.bind (fun s => (Keeps.lift _).bind (fun st => ?_))
  refine Keeps.bind (Keeps.modify ?_) (fun _ => (keeps_require _ _).bind (fun _ => ?_))
  · intro s h
    exact h
  · refine Keeps.get.bind (fun s => (keeps_write _).bind (fun _ => ?_))
    refine (keeps_require _ _).bind (fun _ => (keeps_write _).bind (fun _ => ?_))
    exact (keeps_writeBlockIndexPrev _ _ _ _ _).bind (fun _ => keeps_syncBlock true block)

/-- And so does `DisconnectBlock`. -/
theorem keeps_disconnectBlock (g : Globals) (block : CBlock) (pindex : CBlockIndex)
    (pprev : BlockPtr) : Keeps (StoreKeyed P) (block.disconnectBlock P H g pindex pprev) := by
  refine Keeps.get.bind (fun s => (Keeps.lift _).bind (fun txIndex => ?_))
  refine (keeps_require _ _).bind (fun _ => (keeps_write _).bind (fun _ => ?_))
  exact (keeps_writeBlockIndexPrev _ _ _ _ _).bind (fun _ => keeps_syncBlock false block)

/-- The loops of `Reorganize` over a branch keep what their step keeps. -/
theorem keeps_forBranch (g : Globals) (msgRead : String)
    {step : CBlock → CBlockIndex → BlockPtr → Command Store Failure Unit}
    (hstep : ∀ block pindex pprev, Keeps (StoreKeyed P) (step block pindex pprev))
    (branch : List (CBlockIndex × BlockPtr)) :
    Keeps (StoreKeyed P) (forBranch P H g msgRead step branch) := by
  induction branch with
  | nil => exact Keeps.pure []
  | cons x branch ih =>
    refine ((Keeps.lift _).onFailure (fun _ h => h)).bind (fun block => ?_)
    exact (hstep _ _ _).bind (fun _ => ih.bind (fun _ => Keeps.pure _))

/-- A commit does not touch the wallets. -/
theorem keeps_txnCommit (hash : Uint256) (msg : String) :
    Keeps (StoreKeyed P) (Store.txnCommit H hash msg) := by
  intro s h
  unfold Triple Store.txnCommit
  split_ifs
  · exact h
  · exact h

/-- Nor does the write of the best hash. -/
theorem keeps_writeHashBestChain (hash : Uint256) (msg : String) :
    Keeps (StoreKeyed P) (Store.writeHashBestChain H hash msg) :=
  (keeps_require _ _).bind (fun _ => keeps_write _)

/-- Both loops of `Reorganize` one after the other. -/
theorem keeps_reorganizeStore (vDisconnect vConnect : List (CBlockIndex × BlockPtr))
    (pindexNew : BlockPtr) (g : Globals) :
    Keeps (StoreKeyed P) (reorganizeStore P H vDisconnect vConnect pindexNew g) := by
  refine (keeps_forBranch g _ (fun block pindex pprev => ?_) _).bind (fun _ => ?_)
  · exact (keeps_disconnectBlock g block pindex pprev).onFailure (fun _ h => h)
  · refine (keeps_forBranch g _ (fun block pindex pprev => ?_) _).bind (fun _ => ?_)
    · exact (keeps_connectBlock g block pindex pprev).onFailure (fun _ h => h)
    · refine (keeps_writeHashBestChain _ _).bind (fun _ => (keeps_txnCommit _ _).bind (fun _ => ?_))
      exact Keeps.pure _

/-- A command on the store keeps the wallets of the node. -/
theorem keeps_onStore {α : Type} {x : Globals → Command Store Failure α}
    (hx : ∀ g, Keeps (StoreKeyed P) (x g)) : Keeps (NodeKeyed P) (onStore x) :=
  Keeps.onPart (fun n => hx n.toGlobals) (fun _ h => h) (fun _ _ _ h => h)

/-- `Reorganize` as a whole. -/
theorem keeps_reorganize (pindexNew : BlockPtr) : Keeps (NodeKeyed P) (reorganize P H pindexNew) := by
  refine Keeps.get.bind (fun n => (Keeps.lift _).bind (fun pfork => ?_))
  refine (keeps_onStore (fun g => keeps_reorganizeStore _ _ _ g)).bind (fun _ => ?_)
  exact Keeps.modify (fun _ h => h)

/-- The path of `SetBestChain` for a block on the tip. -/
theorem keeps_setBestChainInner (block : CBlock) (pindex : CBlockIndex) (pprev : BlockPtr) :
    Keeps (NodeKeyed P) (setBestChainInner P H block pindex pprev) := by
  refine Keeps.bind (Keeps.onFailure (keeps_onStore (fun g => ?_)) ?_) (fun _ => ?_)
  · exact (keeps_connectBlock g block pindex pprev).bind (fun _ => keeps_writeHashBestChain _ _)
  · intro n h
    exact h
  · refine (keeps_onStore (fun g => keeps_txnCommit _ _)).bind (fun _ => ?_)
    cases pprev with
    | nil => exact Keeps.fail _
    | cons e p => exact Keeps.modify (fun _ h => h)

/-- The postponed blocks are connected by that path. -/
theorem keeps_connectPostponed (row : List (CBlockIndex × BlockPtr)) :
    Keeps (NodeKeyed P) (connectPostponed P H row) := by
  intro n h
  refine (connectPostponed_rule (I := fun _ n => NodeKeyed P n) (F := NodeKeyed P)
    (X := fun _ n => NodeKeyed P n) (fun _ _ _ h => h) ?_ h).mono ?_ (fun _ _ h => h)
  · intro pindex pprev row n block h _
    have hbegin : NodeKeyed P { n with toStore := { n.toStore with txdb := n.txdb.txnBegin } } := h
    refine (keeps_setBestChainInner block pindex pprev _ hbegin).mono (fun _ _ h => h) ?_
    intro e n' h'
    split_ifs
    · exact h'
    · exact h'
  · intro fComplete n' h'
    split_ifs at h'
    · exact h'
    · exact h'

/-- All three ways of `SetBestChain`. -/
theorem keeps_setBestChainBranch (block : CBlock) (pindexNew : BlockPtr) :
    Keeps (NodeKeyed P) (setBestChainBranch P H block pindexNew) := by
  refine Keeps.get.bind (fun n => ?_)
  split_ifs
  · refine (keeps_onStore (fun _ => keeps_write _)).bind (fun _ => ?_)
    refine (keeps_onStore (fun _ => keeps_txnCommit _ _)).bind (fun _ => ?_)
    exact Keeps.bind (Keeps.modify (fun _ h => h)) (fun _ => Keeps.pure _)
  · cases pindexNew with
    | nil => exact Keeps.fail _
    | cons pindex pprev =>
      refine Keeps.bind (Keeps.onFailure (keeps_setBestChainInner _ _ _) ?_) (fun _ => Keeps.pure _)
      intro n h
      exact h
  · refine Keeps.get.bind (fun n => ?_)
    refine Keeps.bind (Keeps.onFailure (keeps_reorganize _) ?_) (fun _ => keeps_connectPostponed _)
    intro n h
    exact h

/-- **`SetBestChain`** keeps every wallet transaction under its own hash. -/
theorem keeps_setBestChain (block : CBlock) (pindexNew : BlockPtr) :
    Keeps (NodeKeyed P) (setBestChain P H block pindexNew) := by
  refine Keeps.bind (keeps_onStore (fun _ => (keeps_require _ _).bind (fun _ => ?_))) (fun _ => ?_)
  · exact Keeps.modify (fun _ h => h)
  · refine (keeps_setBestChainBranch _ _).bind (fun _ => ?_)
    exact Keeps.bind (Keeps.modify (fun _ h => h)) (fun _ => Keeps.pure _)

end Keeps

end Peershares
