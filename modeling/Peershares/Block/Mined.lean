import Peershares.BestChain.Ancestry
import Peershares.Block.Assembly
import Peershares.Ledger.Spending

/-!
# Mined blocks

A proof-of-work block that `CreateNewBlock` has made, with the extra nonce and the times that `BitcoinMiner` has put
into it since, is accepted by the node that has made it: it passes `CheckBlock`, the contextual checks of `AcceptBlock`,
`CheckSync` and `ConnectBlock`, once its hash meets the target and it is signed.

What `CreateNewBlock` cannot see to is assumed. The clock stands near the chain; the checkpoint is in the main chain;
the key is no longer than a public key, and the coinbase counts no more signature operations than were set aside for
it; no earlier transaction with the hash of one of the block has unspent outputs.

* `ClockOk`, `TimeOk` — the clock, and what the time of a new block is good for
* `Unmined` — the block while a solution is searched
* `CheckedTxs` — what `CreateNewBlock` has seen to when it collected the transactions
* `PoolChain.Run.mined_accepted` — the checks that the block passes, and what it mints
-/

open Framework

namespace Peershares

open IndexView

/-! ### The header time -/

section Time

variable {block : CBlock} {t : Int}

/-- The latest of the times of the transactions. -/
theorem foldl_max_nTime (vtx : List CTransaction) (a : Int) :
    vtx.foldl (fun nMax tx => max nMax (tx.nTime : Int)) a ≤ t ↔ a ≤ t ∧ ∀ tx ∈ vtx, (tx.nTime : Int) ≤ t := by
  induction vtx generalizing a with
  | nil => simp
  | cons tx vtx ih => rw [List.foldl_cons, ih, max_le_iff, List.forall_mem_cons, and_assoc]

/-- `GetMaxTransactionTime` is the latest time. -/
theorem CBlock.getMaxTransactionTime_le_iff :
    block.getMaxTransactionTime ≤ t ↔ 0 ≤ t ∧ ∀ tx ∈ block.vtx, (tx.nTime : Int) ≤ t :=
  foldl_max_nTime block.vtx 0

/-- A clock of 32 bits is not cut off. -/
theorem cast_uint32 {k : Int} (hk : 0 ≤ k) (hlt : k < 2 ^ 32) : (Node.uint32 k : Int) = k := by
  unfold Node.uint32
  rw [Int.emod_eq_of_lt hk hlt, Int.toNat_of_nonneg hk]

/-- The clock stands near the chain, and no time in use reaches the end of an `unsigned int`. -/
structure ClockOk (n : Node) (nAdjustedTime : Int) : Prop where
  pos : 0 < nAdjustedTime
  lt : nAdjustedTime + nMaxClockDrift < 2 ^ 32
  median_lt : n.pindexBest.getMedianTimePast < nAdjustedTime + nMaxClockDrift
  best_le : n.pindexBest.getBlockTime ≤ nAdjustedTime + 2 * nMaxClockDrift

/-- A later clock is as good while it has 32 bits. -/
theorem ClockOk.mono {n : Node} {clock clock' : Int} (h : ClockOk n clock) (hle : clock ≤ clock')
    (hlt : clock' + nMaxClockDrift < 2 ^ 32) : ClockOk n clock' where
  pos := h.pos.trans_le hle
  lt := hlt
  median_lt := h.median_lt.trans_le (Int.add_le_add_right hle _)
  best_le := h.best_le.trans (Int.add_le_add_right hle _)

/-- The time written is the clock. -/
theorem ClockOk.uint32_clock {n : Node} {clock : Int} (h : ClockOk n clock) : (Node.uint32 clock : Int) = clock := by
  have hdrift : (0 : Int) ≤ nMaxClockDrift := by decide
  have hlt := h.lt
  exact cast_uint32 h.pos.le (by omega)

/-- What the time of a new block is good for. -/
structure TimeOk (n : Node) (nAdjustedTime : Int) (block : CBlock) : Prop where
  median_lt : n.pindexBest.getMedianTimePast < block.getBlockTime
  best_le : n.pindexBest.getBlockTime ≤ block.getBlockTime + nMaxClockDrift
  nTime_le : ∀ tx ∈ block.vtx, (tx.nTime : Int) ≤ block.getBlockTime
  clock_le : nAdjustedTime ≤ block.getBlockTime
  le_clock : block.getBlockTime ≤ nAdjustedTime + nMaxClockDrift

/-- `UpdateTime` puts the time after the median and not before the transactions. -/
theorem ClockOk.timeOk {n : Node} {clock : Int} (h : ClockOk n clock) (hpow : block.isProofOfWork = true)
    (htimes : ∀ tx ∈ block.vtx, (tx.nTime : Int) ≤ clock) :
    TimeOk n clock { block with nTime := n.newBlockTime clock block } := by
  have hdrift : (0 : Int) ≤ nMaxClockDrift := by decide
  obtain ⟨hpos, hlt, hmedian, hbest⟩ := h
  have hmax : block.getMaxTransactionTime ≤ clock := CBlock.getMaxTransactionTime_le_iff.mpr ⟨hpos.le, htimes⟩
  have hmax₀ : 0 ≤ block.getMaxTransactionTime := (CBlock.getMaxTransactionTime_le_iff.mp le_rfl).1
  -- no value is cut off on the way
  have hfirst : (Node.uint32 (max (n.pindexBest.getMedianTimePast + 1) block.getMaxTransactionTime) : Int) =
      max (n.pindexBest.getMedianTimePast + 1) block.getMaxTransactionTime := cast_uint32 (by omega) (by omega)
  have hsecond : (Node.uint32 (max (Node.uint32 (max (n.pindexBest.getMedianTimePast + 1)
      block.getMaxTransactionTime) : Int) (n.pindexBest.getBlockTime - nMaxClockDrift)) : Int) =
      max (max (n.pindexBest.getMedianTimePast + 1) block.getMaxTransactionTime)
        (n.pindexBest.getBlockTime - nMaxClockDrift) := by
    rw [hfirst]
    exact cast_uint32 (by omega) (by omega)
  have htime : (n.newBlockTime clock block : Int) =
      max (max (max (n.pindexBest.getMedianTimePast + 1) block.getMaxTransactionTime)
        (n.pindexBest.getBlockTime - nMaxClockDrift)) clock := by
    unfold Node.newBlockTime
    rw [if_pos hpow, hsecond]
    exact cast_uint32 (by omega) (by omega)
  refine ⟨?_, ?_, fun tx htx => ?_, ?_, ?_⟩
  · show _ < (n.newBlockTime clock block : Int)
    omega
  · show _ ≤ (n.newBlockTime clock block : Int) + _
    omega
  · show _ ≤ (n.newBlockTime clock block : Int)
    have := htimes tx htx
    omega
  · show _ ≤ (n.newBlockTime clock block : Int)
    omega
  · show (n.newBlockTime clock block : Int) ≤ _
    omega

end Time

/-! ### The block while a solution is searched -/

section Shape

variable {D : Type} [LinearOrder D] {P : Params} {A : PriorityArith D} {n : Node} {clock₀ clock : Int}
  {vchPubKey : List UInt8} {txCoinStake : Option CTransaction} {txs : List CTransaction} {pblock₀ pblock : CBlock}

/-- The coinbase of a proof-of-work block, with its input script. -/
def workCoinBase (nAdjustedTime : Int) (vchPubKey : List UInt8) (scriptSig : CScript) : CTransaction where
  nTime := Node.uint32 nAdjustedTime
  vin := [⟨COutPoint.null, scriptSig, UINT_MAX⟩]
  vout := [⟨getProofOfWorkReward, pushData vchPubKey ++ [OP_CHECKSIG]⟩]

/-- The conditions on the time read the time and the transactions alone. -/
theorem TimeOk.congr {block block' : CBlock} (h : TimeOk n clock block) (htime : block'.nTime = block.nTime)
    (hvtx : ∀ tx' ∈ block'.vtx, ∃ tx ∈ block.vtx, tx'.nTime = tx.nTime) : TimeOk n clock block' := by
  have heq : block'.getBlockTime = block.getBlockTime := congrArg Nat.cast htime
  refine ⟨?_, ?_, fun tx' htx' => ?_, ?_, ?_⟩
  · rw [heq]
    exact h.median_lt
  · rw [heq]
    exact h.best_le
  · obtain ⟨tx, htx, hsame⟩ := hvtx tx' htx'
    rw [heq, hsame]
    exact h.nTime_le tx htx
  · rw [heq]
    exact h.clock_le
  · rw [heq]
    exact h.le_clock

/-- Without a coinstake in the second place the block is a proof-of-work block. -/
theorem isProofOfWork_of_forall {block : CBlock} {txCoinBase : CTransaction} (hvtx : block.vtx = txCoinBase :: txs)
    (hcs : ∀ tx ∈ txs, tx.isCoinStake = false) : block.isProofOfStake = false := by
  unfold CBlock.isProofOfStake
  rw [hvtx]
  cases txs with
  | nil => rfl
  | cons tx rest => exact hcs tx List.mem_cons_self

/-- The transactions that `CreateNewBlock` has put behind the coinbase. -/
structure WorkTxs (P : Params) (n : Node) (clock₀ : Int) (txs : List CTransaction) : Prop where
  not_generated : ∀ tx ∈ txs, tx.isGenerated = false
  nTime_le : ∀ tx ∈ txs, (tx.nTime : Int) ≤ clock₀

/-- The transactions taken from the pool are not generated. -/
theorem WorkTxs.not_coinStake (h : WorkTxs P n clock₀ txs) : ∀ tx ∈ txs, tx.isCoinStake = false := by
  intro tx htx
  have hgen := h.not_generated tx htx
  unfold CTransaction.isGenerated at hgen
  exact (Bool.or_eq_false_iff.mp hgen).2

/-- The result of `CreateNewBlock` for proof-of-work. -/
theorem createNewBlock_work
    (hcreate : n.createNewBlock P A clock₀ vchPubKey false txCoinStake = some (.ok (some pblock₀))) :
    n.nBestHeight < PROOF_OF_WORK_BLOCKS ∧ ∃ s,
      n.collect P A clock₀ (n.newBlock P clock₀ vchPubKey none) = some (.ok s) ∧
      pblock₀ = n.fillHeader P clock₀ (Node.payReward s.pblock) := by
  unfold Node.createNewBlock at hcreate
  simp only [Bool.false_and, Bool.false_eq_true, if_false, Bool.not_false, Bool.true_and, decide_eq_true_eq] at hcreate
  by_cases hheight : PROOF_OF_WORK_BLOCKS ≤ n.nBestHeight
  · rw [if_pos hheight] at hcreate
    cases hcreate
  rw [if_neg hheight] at hcreate
  refine ⟨not_le.mp hheight, ?_⟩
  obtain ⟨draft, hcollect, hdraft⟩ := Option.map_eq_some_iff.mp hcreate
  cases draft with
  | error e => cases hdraft
  | ok s =>
    cases hdraft
    exact ⟨s, hcollect, rfl⟩

/-- A proof-of-work block for which a solution is searched. -/
structure Unmined (P : Params) (n : Node) (clock₀ : Int) (vchPubKey : List UInt8) (txs : List CTransaction)
    (clock : Int) (pblock : CBlock) : Prop where
  hashPrevBlock_eq : pblock.hashPrevBlock = n.pindexBest.hash
  nBits_eq : pblock.nBits = getNextTargetRequired P n.pindexBest false
  vtx_eq : ∃ scriptSig : CScript, 2 ≤ scriptSig.length ∧ scriptSig.length ≤ 100 ∧
    pblock.vtx = workCoinBase clock₀ vchPubKey scriptSig :: txs
  merkle_eq : pblock.hashMerkleRoot = pblock.buildMerkleTree P
  timeOk : TimeOk n clock pblock
  coinBase_le : pblock.getBlockTime ≤ clock₀ + nMaxClockDrift

/-- The header that `CreateNewBlock` writes. -/
theorem fillHeader_payReward {s : Node.BlockDraft} (htxs : WorkTxs P n clock₀ txs)
    (hpblock : s.pblock = { n.newBlock P clock₀ vchPubKey none with vtx := Node.newCoinBase clock₀ vchPubKey :: txs }) :
    let pblock := n.fillHeader P clock₀ (Node.payReward s.pblock)
    pblock.hashPrevBlock = n.pindexBest.hash ∧ pblock.nBits = getNextTargetRequired P n.pindexBest false ∧
      pblock.vtx = workCoinBase clock₀ vchPubKey [] :: txs ∧
      pblock.nTime = n.newBlockTime clock₀ { pblock with nTime := 0, hashMerkleRoot := 0, hashPrevBlock := 0 } := by
  have hpow : s.pblock.isProofOfWork = true := by
    unfold CBlock.isProofOfWork
    rw [isProofOfWork_of_forall (by rw [hpblock]) htxs.not_coinStake]
    rfl
  have hpay : Node.payReward s.pblock = { n.newBlock P clock₀ vchPubKey none with
      vtx := workCoinBase clock₀ vchPubKey [] :: txs } := by
    unfold Node.payReward
    rw [if_pos hpow, hpblock]
    rfl
  dsimp only
  rw [hpay]
  exact ⟨rfl, rfl, rfl, rfl⟩

/-- The clock does not run backwards while mining. -/
theorem clock_le_of_mining {COINBASE_FLAGS : CScript}
    (hmining : n.Mining P COINBASE_FLAGS pblock₀ clock₀ pblock clock) : clock₀ ≤ clock := by
  induction hmining with
  | start => exact le_rfl
  | updateTime _ hle _ ih => exact ih.trans hle

/-- `IncrementExtraNonce` and "Update nTime" keep the block one that can be mined. -/
theorem unmined_of_mining {COINBASE_FLAGS : CScript} (htxs : WorkTxs P n clock₀ txs) (hclock : ClockOk n clock₀)
    (hvtx₀ : pblock₀.vtx = workCoinBase clock₀ vchPubKey [] :: txs)
    (hprev₀ : pblock₀.hashPrevBlock = n.pindexBest.hash)
    (hbits₀ : pblock₀.nBits = getNextTargetRequired P n.pindexBest false) (htime₀ : TimeOk n clock₀ pblock₀)
    (hmining : n.Mining P COINBASE_FLAGS pblock₀ clock₀ pblock clock) (hlt : clock + nMaxClockDrift < 2 ^ 32) :
    Unmined P n clock₀ vchPubKey txs clock pblock := by
  induction hmining with
  -- `IncrementExtraNonce` writes the input script of the coinbase and the Merkle root
  | @start nExtraNonce pblock h =>
    unfold Node.incrementExtraNonce at h
    dsimp only at h
    split_ifs at h with hlen
    cases h
    have hne : ∀ b : List UInt8, 0 < (pushData b).length := by
      intro b
      unfold pushData
      split_ifs <;> simp
    have hne' : 0 < (pushUint64 pblock₀.nTime).length := by
      unfold pushUint64
      split_ifs
      · simp
      · exact hne _
    have hfirst := hne (CBigNum.getvch nExtraNonce)
    have hle := htime₀.le_clock
    refine ⟨hprev₀, hbits₀, ⟨_, ?_, not_lt.mp hlen, ?_⟩, rfl, htime₀.congr rfl fun tx' htx' => ?_, hle⟩
    · rw [List.length_append, List.length_append]
      omega
    · rw [hvtx₀]
      rfl
    · -- only the input script of the coinbase is new
      rw [hvtx₀] at htx' ⊢
      rcases List.mem_cons.mp htx' with rfl | htx'
      · exact ⟨_, List.mem_cons_self, rfl⟩
      · exact ⟨tx', List.mem_cons_of_mem _ htx', rfl⟩
  -- `UpdateTime` writes the time, unless the coinbase has become too early
  | @updateTime pblock pblock' nAdjustedTime nAdjustedTime' hmining hle h ih =>
    obtain ⟨hprev, hbits, ⟨scriptSig, hge, hlen, hvtx⟩, hmerkle, htime, -⟩ := ih (by omega)
    have hstart := clock_le_of_mining hmining
    have hclock' : ClockOk n nAdjustedTime' := hclock.mono (hstart.trans hle) hlt
    have hpow : pblock.isProofOfWork = true := by
      unfold CBlock.isProofOfWork
      rw [isProofOfWork_of_forall hvtx htxs.not_coinStake]
      rfl
    have hclock₀ := hclock.uint32_clock
    -- no transaction is later than the clock
    have htimes : ∀ tx ∈ pblock.vtx, (tx.nTime : Int) ≤ nAdjustedTime' := by
      rw [hvtx]
      refine List.forall_mem_cons.mpr ⟨?_, fun tx htx => (htxs.nTime_le tx htx).trans (hstart.trans hle)⟩
      show (Node.uint32 clock₀ : Int) ≤ _
      rw [hclock₀]
      exact hstart.trans hle
    unfold Node.updateTime at h
    dsimp only at h
    split_ifs at h with hlate
    cases h
    refine ⟨hprev, hbits, ⟨scriptSig, hge, hlen, hvtx⟩, hmerkle, hclock'.timeOk hpow htimes, ?_⟩
    -- the loop ends before the coinbase is too early
    rw [hvtx, List.head?_cons, Option.any_some, decide_eq_true_eq, not_le] at hlate
    show (n.newBlockTime nAdjustedTime' pblock : Int) ≤ _
    change (n.newBlockTime nAdjustedTime' pblock : Int) < (Node.uint32 clock₀ : Int) + nMaxClockDrift at hlate
    rw [hclock₀] at hlate
    exact hlate.le

end Shape

/-! ### The coinbase -/

section CoinBase

variable {clock₀ : Int} {vchPubKey : List UInt8} {scriptSig : CScript}

/-- The first transaction of the block is a coinbase. -/
theorem isCoinBase_workCoinBase : (workCoinBase clock₀ vchPubKey scriptSig).isCoinBase = true := by
  have hnull : COutPoint.null.isNull = true := by decide
  unfold CTransaction.isCoinBase workCoinBase
  simp only [hnull, List.length_singleton, le_refl, decide_true, Bool.and_self]

/-- It pays the reward. -/
theorem getValueOut_workCoinBase :
    (workCoinBase clock₀ vchPubKey scriptSig).getValueOut = .ok getProofOfWorkReward := rfl

/-- A size is written in at most nine bytes. -/
theorem getSizeOfCompactSize_le (nSize : ℕ) : getSizeOfCompactSize nSize ≤ 9 := by
  unfold getSizeOfCompactSize
  split_ifs <;> omega

/-- A push adds at most five bytes to its data. -/
theorem length_pushData_le (b : List UInt8) : (pushData b).length ≤ b.length + 5 := by
  unfold pushData
  split_ifs <;> simp

/-- The coinbase is small. -/
theorem getSerializeSize_workCoinBase_le (hpubkey : vchPubKey.length ≤ 65) (hscript : scriptSig.length ≤ 100) :
    (workCoinBase clock₀ vchPubKey scriptSig).getSerializeSize ≤ 300 := by
  have hpush := length_pushData_le vchPubKey
  have hin := getSizeOfCompactSize_le scriptSig.length
  have hout := getSizeOfCompactSize_le (pushData vchPubKey ++ [OP_CHECKSIG]).length
  have hlen : (pushData vchPubKey ++ [OP_CHECKSIG]).length = (pushData vchPubKey).length + 1 := List.length_append
  show 4 + 4 + (getSizeOfCompactSize 1 + (36 + (getSizeOfCompactSize scriptSig.length + scriptSig.length) + 4))
    + (getSizeOfCompactSize 1 + (8 + (getSizeOfCompactSize (pushData vchPubKey ++ [OP_CHECKSIG]).length +
      (pushData vchPubKey ++ [OP_CHECKSIG]).length))) + 4 ≤ 300
  have hone : getSizeOfCompactSize 1 = 1 := rfl
  omega

/-- So its fee is the least one. -/
theorem getMinFee_workCoinBase (hpubkey : vchPubKey.length ≤ 65) (hscript : scriptSig.length ≤ 100) :
    (workCoinBase clock₀ vchPubKey scriptSig).getMinFee = MIN_TX_FEE := by
  have hsize : (workCoinBase clock₀ vchPubKey scriptSig).getSerializeSize ≤ 300 :=
    getSerializeSize_workCoinBase_le hpubkey hscript
  have hfee : (1 + ((workCoinBase clock₀ vchPubKey scriptSig).getSerializeSize : Int) / 1000) * MIN_TX_FEE =
      MIN_TX_FEE := by
    rw [show ((workCoinBase clock₀ vchPubKey scriptSig).getSerializeSize : Int) / 1000 = 0 by omega]
    rfl
  unfold CTransaction.getMinFee
  simp only [reduceCtorEq, if_false, Bool.false_eq_true, hfee, ne_eq, not_true_eq_false, false_and, lt_irrefl,
    decide_false, Bool.false_and]
  rfl

/-- It passes `CheckTransaction`. -/
theorem checkTransaction_workCoinBase (hpubkey : vchPubKey.length ≤ 65) (hge : 2 ≤ scriptSig.length)
    (hscript : scriptSig.length ≤ 100) : (workCoinBase clock₀ vchPubKey scriptSig).checkTransaction = .ok () := by
  have hsize : (workCoinBase clock₀ vchPubKey scriptSig).getSerializeSize ≤ 300 :=
    getSerializeSize_workCoinBase_le hpubkey hscript
  have hgen : (workCoinBase clock₀ vchPubKey scriptSig).isGenerated = true := rfl
  have hreward : MIN_TXOUT_AMOUNT ≤ getProofOfWorkReward ∧ getProofOfWorkReward ≤ MAX_MONEY ∧
      moneyRange (0 + getProofOfWorkReward) = true := by decide
  obtain ⟨hmin, hmax, hrange⟩ := hreward
  have hout : checkOutputs false (workCoinBase clock₀ vchPubKey scriptSig).vout 0 = .ok () := by
    show checkOutputs false [⟨getProofOfWorkReward, pushData vchPubKey ++ [OP_CHECKSIG]⟩] 0 = .ok ()
    simp only [checkOutputs, Result.bind_eq_ok, require_eq_ok, Bool.and_false, Bool.not_false, decide_eq_true hmin,
      Bool.or_true, decide_eq_true hmax, hrange]
    exact ⟨(), trivial, (), trivial, (), trivial, (), trivial, trivial⟩
  unfold CTransaction.checkTransaction
  rw [if_pos isCoinBase_workCoinBase, hgen]
  simp only [Result.bind_eq_ok, require_eq_ok]
  refine ⟨(), rfl, (), rfl, (), ?_, (), hout, (), ?_, ?_⟩
  · exact decide_eq_true (hsize.trans (by decide))
  · exact decide_eq_true (List.nodup_singleton _)
  · simp [workCoinBase, hge, hscript]

end CoinBase

/-! ### `CheckBlock` and `AcceptBlock` -/

section Accept

variable {P : Params} {n : Node} {clock₀ clock nAdjustedTime : Int} {vchPubKey : List UInt8} {txs : List CTransaction}
  {pblock block : CBlock}

/-- A nonce was found, and the block is signed. -/
structure Mined (P : Params) (pblock block : CBlock) : Prop where
  block_eq : block = { pblock with nNonce := block.nNonce, vchBlockSig := block.vchBlockSig }
  work : (checkProofOfWork (block.getHash P) block.nBits).isOk = true
  signed : block.checkBlockSignature P = true
  length_le : block.vchBlockSig.length ≤ 1000

/-- What `CreateNewBlock` has seen to when it collected the transactions. -/
structure CheckedTxs (P : Params) (n : Node) (clock₀ : Int) (txs : List CTransaction) : Prop
    extends WorkTxs P n clock₀ txs where
  checked : ∀ tx ∈ txs, tx.checkTransaction = .ok ()
  nodup : (txs.map P.hashTx).Nodup
  size_lt : 1000 + (txs.map CTransaction.getSerializeSize).sum < MAX_BLOCK_SIZE_GEN
  sigOps_lt : 100 + (txs.map CTransaction.getLegacySigOpCount).sum < MAX_BLOCK_SIGOPS
  final : ∀ tx ∈ txs, tx.isFinal n.nBestHeight clock₀ 0 0 = true

/-- The loop of `CheckBlock` over the transactions. -/
theorem checkTransactions_of_forall {t : Int} {vtx : List CTransaction}
    (h : ∀ tx ∈ vtx, tx.checkTransaction = .ok () ∧ (tx.nTime : Int) ≤ t) :
    CBlock.checkTransactions t vtx = .ok () := by
  induction vtx with
  | nil => rfl
  | cons tx vtx ih =>
    obtain ⟨⟨hcheck, htime⟩, hrest⟩ := List.forall_mem_cons.mp h
    simp only [CBlock.checkTransactions, Result.bind_eq_ok, require_eq_ok]
    exact ⟨(), CBlock.checkBlockTransaction_eq_ok.mpr hcheck, (), decide_eq_true htime, ih hrest⟩

/-- The mined block passes `CheckBlock`. -/
theorem CheckedTxs.checkBlock (htxs : CheckedTxs P n clock₀ txs) (hP : CollisionFree P)
    (hunmined : Unmined P n clock₀ vchPubKey txs clock pblock) (hmined : Mined P pblock block)
    (hclock : ClockOk n clock₀) (hpubkey : vchPubKey.length ≤ 65)
    (hsigops : ∀ tx ∈ block.vtx.head?, tx.getLegacySigOpCount ≤ 100) (hlater : clock ≤ nAdjustedTime) :
    block.checkBlock P nAdjustedTime = .ok () := by
  -- the block is the draft with another header and signature
  obtain ⟨heq, hwork, hsigned, hsig⟩ := hmined
  obtain ⟨-, -, ⟨scriptSig, hge, hlen, hvtx⟩, hmerkle, htime, hcoinBase⟩ := hunmined
  have hvtx' : block.vtx = workCoinBase clock₀ vchPubKey scriptSig :: txs := by
    rw [heq]
    exact hvtx
  have htime' : block.getBlockTime = pblock.getBlockTime := by rw [heq]; rfl
  have hroot : block.hashMerkleRoot = block.buildMerkleTree P := by rw [heq]; exact hmerkle
  have hpow : block.isProofOfWork = true := by
    unfold CBlock.isProofOfWork
    rw [isProofOfWork_of_forall hvtx' htxs.not_coinStake]
    rfl
  have hcb : ∀ tx ∈ txs, tx.isCoinBase = false := by
    intro tx htx
    have hgen := htxs.not_generated tx htx
    unfold CTransaction.isGenerated at hgen
    exact (Bool.or_eq_false_iff.mp hgen).1
  -- the coinbase and the header have room beside what was counted
  have hsize : (block.vtx.map CTransaction.getSerializeSize).sum ≤ MAX_BLOCK_SIZE_GEN := by
    have hfirst : (workCoinBase clock₀ vchPubKey scriptSig).getSerializeSize ≤ 300 :=
      getSerializeSize_workCoinBase_le hpubkey hlen
    have hrest := htxs.size_lt
    rw [hvtx', List.map_cons, List.sum_cons]
    omega
  have hcount : block.vtx.length ≤ (block.vtx.map CTransaction.getSerializeSize).sum :=
    length_le_sum_map fun tx _ => tx.getSerializeSize_pos
  -- the limits on the number of bytes
  have hlimits : (block.vtx.length ≤ MAX_BLOCK_SIZE && block.getSerializeSize ≤ MAX_BLOCK_SIZE) = true := by
    have hvec := getSizeOfCompactSize_le block.vtx.length
    have hbytes := getSizeOfCompactSize_le block.vchBlockSig.length
    have hgen : MAX_BLOCK_SIZE_GEN = 500000 := rfl
    have hmax : MAX_BLOCK_SIZE = 1000000 := rfl
    have hheader : CBlock.headerSize = 80 := rfl
    rw [Bool.and_eq_true, decide_eq_true_eq, decide_eq_true_eq]
    unfold CBlock.getSerializeSize sizeOfBytes
    omega
  -- the coinbase is no transaction of the pool
  have hnodup : (block.vtx.map P.hashTx).Nodup := by
    rw [hvtx', List.map_cons, List.nodup_cons]
    refine ⟨fun hmem => ?_, htxs.nodup⟩
    obtain ⟨tx, htx, hhash⟩ := List.mem_map.mp hmem
    have hsame := hcb tx htx
    rw [hP.injective hhash, isCoinBase_workCoinBase] at hsame
    cases hsame
  -- `CreateNewBlock` has left room for the coinbase
  have hlegacy : (block.vtx.map CTransaction.getLegacySigOpCount).sum ≤ MAX_BLOCK_SIGOPS := by
    have hfirst := hsigops (workCoinBase clock₀ vchPubKey scriptSig) (by rw [hvtx']; rfl)
    have hrest := htxs.sigOps_lt
    rw [hvtx', List.map_cons, List.sum_cons]
    omega
  -- each transaction was checked when the pool took it
  have hall : ∀ tx ∈ block.vtx, tx.checkTransaction = .ok () ∧ (tx.nTime : Int) ≤ block.getBlockTime := by
    have hle : ∀ tx ∈ block.vtx, (tx.nTime : Int) ≤ block.getBlockTime := by
      rw [hvtx', htime', ← hvtx]
      exact htime.nTime_le
    intro tx htx
    refine ⟨?_, hle tx htx⟩
    rw [hvtx'] at htx
    rcases List.mem_cons.mp htx with rfl | htx
    · exact checkTransaction_workCoinBase hpubkey hge hlen
    · exact htxs.checked tx htx
  have hle := htime.le_clock
  -- the checks of `CheckBlock`, one after the other
  unfold CBlock.checkBlock
  rw [hvtx']
  dsimp only
  rw [← hvtx', hpow]
  simp only [Result.bind_eq_ok, require_eq_ok, Bool.true_or, if_true]
  refine ⟨(), hlimits, (), ?_, (), decide_eq_true ?_, (), isCoinBase_workCoinBase, (), ?_, (), ?_, (), trivial, (),
    decide_eq_true ?_, (), trivial, getProofOfWorkReward, getValueOut_workCoinBase, (), decide_eq_true ?_, (),
    checkTransactions_of_forall hall, (), decide_eq_true hnodup, (), decide_eq_true hlegacy, (),
    decide_eq_true hroot, hsigned⟩
  · rw [hwork, Bool.or_true]
  · rw [htime']
    omega
  · rw [List.all_eq_true]
    intro tx htx
    rw [hcb tx htx]
    rfl
  · rw [List.all_eq_true]
    intro tx htx
    rw [htxs.not_coinStake tx (List.mem_of_mem_tail htx)]
    rfl
  · rw [htime']
    show _ ≤ (Node.uint32 clock₀ : Int) + _
    rw [hclock.uint32_clock]
    exact hcoinBase
  · rw [getMinFee_workCoinBase hpubkey hlen]
    exact le_of_eq (by ring)

/-- A transaction that is final now is so for a later block. -/
theorem CTransaction.isFinal_mono {tx : CTransaction} {h h' t t' : Int} (hfinal : tx.isFinal h t 0 0 = true)
    (hh : h ≤ h') (ht : t ≤ t') (hh₀ : h' ≠ 0) (ht₀ : t' ≠ 0) (nBestHeight : Int) :
    tx.isFinal nBestHeight nAdjustedTime h' t' = true := by
  unfold CTransaction.isFinal at hfinal ⊢
  simp only [if_true, hh₀, ht₀, if_false] at hfinal ⊢
  split_ifs at hfinal ⊢ <;> first | rfl | exact hfinal | (exfalso; omega)

/-- And the checks of `AcceptBlock` against the tip. -/
theorem CheckedTxs.acceptBlockContext (htxs : CheckedTxs P n clock₀ txs)
    (hunmined : Unmined P n clock₀ vchPubKey txs clock pblock) (hmined : Mined P pblock block)
    (hclock : ClockOk n clock₀) (hstart : clock₀ ≤ clock) (hheight : n.nBestHeight = n.pindexBest.nHeight)
    (hwork : n.nBestHeight < PROOF_OF_WORK_BLOCKS) :
    block.acceptBlockContext P n.nBestHeight nAdjustedTime n.pindexBest = .ok () := by
  -- the block is the draft with another header and signature
  have heq := hmined.block_eq
  obtain ⟨-, hbits, ⟨scriptSig, hge, hlen, hvtx⟩, -, htime, -⟩ := hunmined
  have hvtx' : block.vtx = workCoinBase clock₀ vchPubKey scriptSig :: txs := by
    rw [heq]
    exact hvtx
  have htime' : block.getBlockTime = pblock.getBlockTime := by rw [heq]; rfl
  have hbits' : block.nBits = pblock.nBits := by rw [heq]
  have hpos : block.isProofOfStake = false := isProofOfWork_of_forall hvtx' htxs.not_coinStake
  have hpow : block.isProofOfWork = true := by
    unfold CBlock.isProofOfWork
    rw [hpos]
    rfl
  -- the next block is a work block still
  have hnext : ((n.pindexBest.nHeight + 1 : ℕ) : Int) ≤ PROOF_OF_WORK_BLOCKS := by
    rw [hheight] at hwork
    push_cast
    omega
  have hnow := htime.clock_le
  have hclock₀ := hclock.pos
  have hmedian := htime.median_lt
  simp only [CBlock.acceptBlockContext, Result.bind_eq_ok, require_eq_ok]
  refine ⟨(), CBlock.checkSwitch_eq_ok.mpr (iff_of_true hpow hnext), (), decide_eq_true ?_, (), ?_, (), ?_, ?_⟩
  · -- the target
    rw [hbits', hbits, hpos]
  · -- the time, after the median and not behind the tip by a drift
    rw [htime', Bool.and_eq_true, decide_eq_true_eq, decide_eq_true_eq]
    exact ⟨hmedian, htime.best_le⟩
  · -- every transaction is final
    rw [hvtx', List.all_eq_true]
    refine List.forall_mem_cons.mpr ⟨rfl, fun tx htx => ?_⟩
    -- the height and the time of the block are not below those that were looked at
    refine CTransaction.isFinal_mono (htxs.final tx htx) ?_ ?_ ?_ ?_ _
    · rw [hheight]
      push_cast
      omega
    · rw [htime']
      omega
    · push_cast
      omega
    · rw [htime']
      omega
  · -- the only checkpoint is genesis
    unfold checkHardened
    simp [mapCheckpoints]

/-- `ConnectBlock` evaluates pay-to-script-hash for every new block. -/
theorem bip16Active_of_timeOk (htree : TreeOk P n.files n.pindexBest) (htime : TimeOk n clock block) :
    bip16Active P block.nTime = true := by
  have hbest : (P.nTimeGenesis : Int) ≤ n.pindexBest.getBlockTime := by
    have hge := htree.nTimeGenesis_le
    cases hp : n.pindexBest with
    | nil => exact absurd hp htree.ne_nil
    | cons e p =>
      rw [hp] at hge
      exact Int.ofNat_le.mpr (hge e List.mem_cons_self)
  have hle := htime.best_le
  have hdrift : nMaxClockDrift = 7200 := rfl
  have hgenesis : 1333238400 + 7200 ≤ P.nTimeGenesis := by
    unfold Params.nTimeGenesis
    split_ifs <;> norm_num
  have hblock : (block.nTime : Int) = block.getBlockTime := rfl
  have hlate : 1333238400 ≤ block.nTime := by omega
  unfold bip16Active
  rw [decide_eq_true_eq]
  split_ifs <;> omega

end Accept

/-! ### `ConnectBlock` -/

section Connect

variable {P : Params} {env : ConnectEnv} {pindex : CBlockIndex} {pprev : BlockPtr} {fStrict : Bool}
  {st st' : ConnectState} {tx : CTransaction}

/-- An ordinary transaction mints nothing. -/
theorem nMint_of_connectTransaction (hgen : tx.isGenerated = false)
    (h : connectTransaction P env pindex pprev fStrict st tx = .ok st') : st'.nMint = st.nMint := by
  unfold CTransaction.isGenerated at hgen
  obtain ⟨hcb, hcs⟩ := Bool.or_eq_false_iff.mp hgen
  obtain ⟨st₁, hvalue, rfl⟩ := connectTransaction_eq_ok h
  unfold connectValue connectSpending at hvalue
  simp only [hcb, hcs, Bool.false_eq_true, if_false, Result.bind_eq_ok] at hvalue
  obtain ⟨_, -, _, -, nTxValueIn, -, nTxValueOut, -, _, -, hst⟩ := hvalue
  cases hst
  unfold ConnectState.nMint
  dsimp only
  ring

/-- Transactions that are not generated mint nothing. -/
theorem nMint_of_connectTransactions {vtx : List CTransaction} (hgen : ∀ tx ∈ vtx, tx.isGenerated = false)
    (h : connectTransactions P env pindex pprev fStrict vtx st = .ok st') : st'.nMint = st.nMint := by
  induction vtx generalizing st with
  | nil =>
    cases h
    rfl
  | cons tx vtx ih =>
    obtain ⟨hfirst, hrest⟩ := List.forall_mem_cons.mp hgen
    obtain ⟨st₁, hround, hloop⟩ := Result.bind_eq_ok.mp h
    rw [ih hrest hloop, nMint_of_connectTransaction hfirst hround]

/-- Behind `pre` no transaction is generated, so the row mints what `pre` does. -/
theorem nMint_of_append {pre vtx : List CTransaction} {st₁ : ConnectState}
    (hgen : ∀ tx ∈ vtx, tx.isGenerated = false)
    (hpre : connectTransactions P env pindex pprev fStrict pre st = .ok st₁)
    (h : connectTransactions P env pindex pprev fStrict (pre ++ vtx) st = .ok st') : st'.nMint = st₁.nMint := by
  rw [connectTransactions_append] at h
  obtain ⟨st₂, hfirst, hrest⟩ := Result.bind_eq_ok.mp h
  cases hpre.symm.trans hfirst
  exact nMint_of_connectTransactions hgen hrest

/-- `ConnectBlock` checks the block again, looks for reused hashes and runs its loop with the rule of `P2SH`. -/
theorem connectChecks_of_loop {nAdjustedTime : Int} {block : CBlock}
    (hcheck : block.checkBlock P nAdjustedTime = .ok ())
    (hbip30 : block.overwritesUnspent P env.txIndex = false) (hbip16 : bip16Active P pindex.nTime = true)
    (hloop : connectTransactions P env pindex pprev true block.vtx (block.firstState pindex.nBlockPos) = .ok st) :
    block.connectChecks P env nAdjustedTime pindex pprev = .ok st := by
  simp only [CBlock.connectChecks, Result.bind_eq_ok, require_eq_ok]
  refine ⟨(), hcheck, (), ?_, ?_⟩
  · rw [hbip30, Bool.and_false]
    rfl
  · rw [hbip16]
    exact hloop

end Connect

/-! ### The whole way -/

section Whole

variable {D : Type} [LinearOrder D] {P : Params} {Allowed : Node → PoolEvent → Prop} {A : PriorityArith D} {n : Node}
  {clock₀ clock nAdjustedTime : Int} {vchPubKey : List UInt8} {txs : List CTransaction} {pblock₀ pblock block : CBlock}

/-- What `CreateNewBlock` has collected. -/
theorem checkedTxs_of_collected {s : Node.BlockDraft} {history : List (Candidate D × Option Uint256)}
    (hinv : PoolChain.Inv P n n.pindexBest)
    (hcollected : Node.Collected P A n clock₀ (n.newBlock P clock₀ vchPubKey none) s history) :
    CheckedTxs P n clock₀ (Node.added history) := by
  -- what was added comes from the pool
  have hcandidate : ∀ tx ∈ Node.added history, ∃ c ∈ n.candidates P A clock₀, c.2 = tx := by
    intro tx htx
    obtain ⟨c, hc, rfl⟩ := Node.exists_of_mem_added htx
    exact ⟨c, ((hcollected.mem_iff c).mp hc).1, rfl⟩
  refine ⟨⟨fun tx htx => ?_, hcollected.totals.nTime_le⟩, fun tx htx => ?_, ?_, ?_, ?_, fun tx htx => ?_⟩
  · obtain ⟨c, hc, rfl⟩ := hcandidate tx htx
    exact (Node.mem_candidates.mp hc).2.1
  · obtain ⟨c, hc, rfl⟩ := hcandidate tx htx
    obtain ⟨hash, hlook⟩ := (Node.mem_candidates.mp hc).1
    exact hinv.checked hash c.2 hlook
  · -- no two candidates have the same hash, and adding keeps their order
    have hall : (((history.map Prod.fst).map Prod.snd).map P.hashTx).Nodup := by
      rw [List.map_map]
      exact hcollected.nodup
    exact (Node.added_sublist.map P.hashTx).nodup hall
  · have hlt := hcollected.nBlockSize_lt
    rwa [hcollected.totals.nBlockSize_eq] at hlt
  · exact hcollected.totals.nBlockSigOps_ge.trans_lt hcollected.nBlockSigOps_lt
  · obtain ⟨c, hc, rfl⟩ := hcandidate tx htx
    exact (Node.mem_candidates.mp hc).2.2.1

/-- The coinbase comes first in `ConnectBlock`. -/
theorem connectTransactions_coinBase {env : ConnectEnv} {pindex : CBlockIndex} {pprev : BlockPtr} {scriptSig : CScript}
    (st : ConnectState) (hsigops : st.nSigOps + (workCoinBase clock₀ vchPubKey scriptSig).getLegacySigOpCount ≤ 100) :
    ∃ st₁, connectTransactions P env pindex pprev true [workCoinBase clock₀ vchPubKey scriptSig] st = .ok st₁ ∧
      st₁.nSigOps ≤ 100 ∧ st₁.nMint = st.nMint + getProofOfWorkReward ∧ st₁.nFees = st.nFees := by
  have hlimit : st.nSigOps + (workCoinBase clock₀ vchPubKey scriptSig).getLegacySigOpCount ≤ MAX_BLOCK_SIGOPS :=
    hsigops.trans (by decide)
  let st₁ : ConnectState := { st with
    nSigOps := st.nSigOps + (workCoinBase clock₀ vchPubKey scriptSig).getLegacySigOpCount
    nTxPos := st.nTxPos + (workCoinBase clock₀ vchPubKey scriptSig).getSerializeSize
    nValueOut := st.nValueOut + getProofOfWorkReward
    mapQueuedChanges := st.mapQueuedChanges.insert (P.hashTx (workCoinBase clock₀ vchPubKey scriptSig))
      (CTxIndex.new ⟨pindex.nFile, pindex.nBlockPos, st.nTxPos⟩ 1) }
  have hround : connectTransaction P env pindex pprev true st (workCoinBase clock₀ vchPubKey scriptSig) = .ok st₁ := by
    unfold connectTransaction connectValue connectCoinBase
    simp only [isCoinBase_workCoinBase, if_true, getValueOut_workCoinBase, Result.bind_eq_ok, require_eq_ok]
    exact ⟨(), decide_eq_true hlimit, _, ⟨_, rfl, rfl⟩, rfl⟩
  refine ⟨st₁, Result.bind_eq_ok.mpr ⟨st₁, hround, rfl⟩, hsigops, ?_, rfl⟩
  show st.nValueOut + getProofOfWorkReward - st.nValueIn + st.nFees =
    st.nValueOut - st.nValueIn + st.nFees + getProofOfWorkReward
  ring

/-- A coinbase spends no output that another transaction could miss. -/
theorem not_spentBy_workCoinBase {scriptSig : CScript} (o : COutPoint) :
    ¬ spentBy [workCoinBase clock₀ vchPubKey scriptSig] o := by
  rintro ⟨tx, htx, hcb, -⟩
  rw [List.mem_singleton.mp htx, isCoinBase_workCoinBase] at hcb
  cases hcb

/-- What is known of the block while a solution is searched: its transactions are those of a run of the queue. -/
theorem PoolChain.Inv.unmined {txCoinStake : Option CTransaction} {COINBASE_FLAGS : CScript}
    (hinv : PoolChain.Inv P n n.pindexBest) (hclock : ClockOk n clock₀)
    (hcreate : n.createNewBlock P A clock₀ vchPubKey false txCoinStake = some (.ok (some pblock₀)))
    (hmining : n.Mining P COINBASE_FLAGS pblock₀ clock₀ pblock clock) (hlt : clock + nMaxClockDrift < 2 ^ 32) :
    n.nBestHeight < PROOF_OF_WORK_BLOCKS ∧ ∃ s txs,
      n.collect P A clock₀ (n.newBlock P clock₀ vchPubKey none) = some (.ok s) ∧
      s.pblock.vtx = (n.newBlock P clock₀ vchPubKey none).vtx ++ txs ∧ CheckedTxs P n clock₀ txs ∧
      Unmined P n clock₀ vchPubKey txs clock pblock := by
  obtain ⟨hwork, s, hcollect, rfl⟩ := createNewBlock_work hcreate
  obtain ⟨history, hcollected⟩ := Node.collected_of_collect hinv.indexed (List.cons_ne_nil _ _) hcollect
  have htxs := checkedTxs_of_collected hinv hcollected
  have hpblock := hcollected.totals.pblock_eq
  refine ⟨hwork, s, Node.added history, hcollect, by rw [hpblock], htxs, ?_⟩
  obtain ⟨hprev, hbits, hvtx, htime⟩ := fillHeader_payReward htxs.toWorkTxs hpblock
  -- no transaction behind the coinbase is a coinstake
  have hpow : (n.fillHeader P clock₀ (Node.payReward s.pblock)).isProofOfWork = true := by
    unfold CBlock.isProofOfWork
    rw [isProofOfWork_of_forall hvtx htxs.not_coinStake]
    rfl
  -- the coinbase has the time of the draft, and no other transaction is later
  have htimes : ∀ tx ∈ (n.fillHeader P clock₀ (Node.payReward s.pblock)).vtx, (tx.nTime : Int) ≤ clock₀ := by
    rw [hvtx]
    exact List.forall_mem_cons.mpr ⟨hclock.uint32_clock.le, htxs.nTime_le⟩
  have hnew := hclock.timeOk (show CBlock.isProofOfWork { n.fillHeader P clock₀ (Node.payReward s.pblock) with
    nTime := 0, hashMerkleRoot := 0, hashPrevBlock := 0 } = true from hpow) htimes
  exact unmined_of_mining htxs.toWorkTxs hclock hvtx hprev hbits (hnew.congr htime fun tx htx => ⟨tx, htx, rfl⟩)
    hmining hlt

/-- `CheckSync` has nothing against a block on the best block when the checkpoint is in the main chain. -/
theorem checkSync_of_inMainChain (htree : n.toGlobals.TreeInv P) (htip : n.InTree n.pindexBest)
    (hsync : n.InMainChain n.hashSyncCheckpoint) (hash : Uint256) :
    n.checkSync P hash n.pindexBest = .ok true := by
  obtain ⟨ps, hlook, hsuffix⟩ := hsync
  cases hnet : P.fTestNet with
  | true =>
    unfold Globals.checkSync
    rw [hnet]
    rfl
  | false =>
    rw [htree.treeShape.checkSync_eq hnet hlook htip]
    exact congrArg Except.ok (decide_eq_true (Or.inl hsuffix))

/-- **A mined block is accepted.** Take a proof-of-work block of `CreateNewBlock`, with the extra nonce and the later
times of `BitcoinMiner`. When its hash meets the target and it is signed it stands on the best block and passes
`CheckBlock`, the contextual checks of `AcceptBlock`, `CheckSync` and `ConnectBlock` on the chain it was made for, and
it mints exactly the proof-of-work reward. -/
theorem PoolChain.Run.mined_accepted {txCoinStake : Option CTransaction} {COINBASE_FLAGS : CScript}
    {files : BlockFiles} {nFile nBlockPos : ℕ} (hP : CollisionFree P) (hrun : Run P Allowed n n.pindexBest)
    (hheight : n.nBestHeight = n.pindexBest.nHeight) (hclock : ClockOk n clock₀) (hpubkey : vchPubKey.length ≤ 65)
    (hcreate : n.createNewBlock P A clock₀ vchPubKey false txCoinStake = some (.ok (some pblock₀)))
    (hmining : n.Mining P COINBASE_FLAGS pblock₀ clock₀ pblock clock) (hlt : clock + nMaxClockDrift < 2 ^ 32)
    (hmined : Mined P pblock block) (hsync : n.InMainChain n.hashSyncCheckpoint)
    (hsigops : ∀ tx ∈ block.vtx.head?, tx.getLegacySigOpCount ≤ 100)
    (hbip30 : block.overwritesUnspent P n.txdb.committed.txIndex = false) (hlater : clock ≤ nAdjustedTime)
    (hwrite : n.files.writeToDisk block = some (files, nFile, nBlockPos)) :
    block.checkBlock P nAdjustedTime = .ok () ∧
      n.mapBlockIndex.lookup block.hashPrevBlock = some n.pindexBest ∧
      block.acceptBlockContext P n.nBestHeight nAdjustedTime n.pindexBest = .ok () ∧
      n.checkSync P (block.getHash P) n.pindexBest = .ok true ∧
      ∃ st, block.connectChecks P (n.envOf files) nAdjustedTime (block.newIndex P n.pindexBest nFile nBlockPos)
          n.pindexBest = .ok st ∧ st.nMint = getProofOfWorkReward := by
  -- the draft, its transactions, and what mining made of it
  have hinv := hrun.inv hP
  obtain ⟨hwork, s, txs, hcollect, hvtxs, htxs, hunmined⟩ := hinv.unmined hclock hcreate hmining hlt
  have hcheck := htxs.checkBlock hP hunmined hmined hclock hpubkey hsigops hlater
  have hcontext : block.acceptBlockContext P n.nBestHeight nAdjustedTime n.pindexBest = .ok () :=
    htxs.acceptBlockContext hunmined hmined hclock (clock_le_of_mining hmining) hheight hwork
  have hchecked := checkSync_of_inMainChain hinv.onChain.tree hinv.onChain.tip hsync (block.getHash P)
  have heq := hmined.block_eq
  -- the parent is the tip, where the checkpoint is
  obtain ⟨hprev, -, ⟨scriptSig, hge, hlen, hvtx⟩, -, htime, -⟩ := hunmined
  have hfound : n.mapBlockIndex.lookup block.hashPrevBlock = some n.pindexBest := by
    rw [heq, hprev]
    exact hinv.onChain.tip
  refine ⟨hcheck, hfound, hcontext, hchecked, ?_⟩
  have hvtx' : block.vtx = [workCoinBase clock₀ vchPubKey scriptSig] ++ txs := by
    rw [heq]
    exact hvtx
  -- the time is after the switch to `P2SH`
  have htime' : TimeOk n clock block := htime.congr (by rw [heq]) fun tx htx => ⟨tx, by rwa [heq] at htx, rfl⟩
  have hbip16 := bip16Active_of_timeOk (hinv.onChain.tree.treeOk _ hinv.onChain.tip) htime'
  -- the coinbase connects, and behind it what was collected
  obtain ⟨st₁, hpre, hsigops₁, hmint₁, -⟩ : ∃ st₁, connectTransactions P (n.envOf files)
      (block.newIndex P n.pindexBest nFile nBlockPos) n.pindexBest true [workCoinBase clock₀ vchPubKey scriptSig]
      (block.firstState nBlockPos) = .ok st₁ ∧ st₁.nSigOps ≤ 100 ∧
      st₁.nMint = (block.firstState nBlockPos).nMint + getProofOfWorkReward ∧
      st₁.nFees = (block.firstState nBlockPos).nFees := by
    refine connectTransactions_coinBase _ ?_
    rw [show (block.firstState nBlockPos).nSigOps = 0 from rfl, Nat.zero_add]
    exact hsigops _ (by rw [hvtx']; rfl)
  obtain ⟨st, hloop, -, -⟩ := hrun.connectTransactions_collected hP (List.cons_ne_nil _ _) hcollect hvtxs hvtx' hwrite
    hbip30 (fun tx _ o _ => not_spentBy_workCoinBase o) hpre hsigops₁
  refine ⟨st, connectChecks_of_loop hcheck hbip30 hbip16 hloop, ?_⟩
  -- behind the coinbase no transaction mints
  rw [hvtx'] at hloop
  rw [nMint_of_append htxs.not_generated hpre hloop, hmint₁]
  exact zero_add _

end Whole

namespace Sample

/-- The time at which the sample block is made. -/
def minerClock : Int := poolClock

/-- The key of the sample miner. -/
def minerKey : List UInt8 := List.replicate 33 2

/-- The coinbase before and after `IncrementExtraNonce`. -/
def minerTxs : List CTransaction :=
  [toEmpty, fromEmpty, workCoinBase minerClock minerKey [],
    workCoinBase minerClock minerKey (pushUint64 (params.nTimeGenesis + 62) ++ pushData (CBigNum.getvch 1))]

/-- Two transactions that follow each other are in the pool. -/
def minerNode : Option Node := pooledNode minerTxs

/-- The block is made, gets an extra nonce and a signature, and is written. -/
def mine (n : Node) : Option (CBlock × CBlock × CBlock × BlockFiles × ℕ × ℕ) :=
  match n.createNewBlock (listParams minerTxs) arith minerClock minerKey false none with
  | some (.ok (some pblock₀)) =>
    match Node.incrementExtraNonce (listParams minerTxs) [] 1 pblock₀ with
    | .ok pblock =>
      let block := { pblock with vchBlockSig := [1] }
      (n.files.writeToDisk block).map fun written => (pblock₀, pblock, block, written)
    | .error _ => none
  | _ => none

/-- The genesis block of the sample node can be connected. -/
theorem loadGenesis_minerTxs : (loadGenesis (listParams minerTxs) host {}).1 = .ok () := rfl

/-- The block has both transactions, in the order in which one spends from the other. -/
theorem mine_minerNode : (minerNode.bind fun n => (mine n).map fun m =>
    decide (n.nBestHeight = n.pindexBest.nHeight ∧ n.pindexBest.getMedianTimePast < minerClock + nMaxClockDrift ∧
      n.pindexBest.getBlockTime ≤ minerClock + 2 * nMaxClockDrift ∧
      (checkProofOfWork (m.2.2.1.getHash (listParams minerTxs)) m.2.2.1.nBits).isOk = true ∧
      m.2.2.1.checkBlockSignature (listParams minerTxs) = true ∧
      (∀ tx ∈ m.2.2.1.vtx.head?, tx.getLegacySigOpCount ≤ 100) ∧
      m.2.2.1.overwritesUnspent (listParams minerTxs) n.txdb.committed.txIndex = false ∧
      (n.mapBlockIndex.lookup n.hashSyncCheckpoint).any (fun ps => decide (ps <:+ n.pindexBest)) = true ∧
      m.2.2.1.vtx.tail = [toEmpty, fromEmpty])) = some true := by
  decide +kernel

end Sample

/-- A block with two transactions, of which the second spends the first. -/
theorem mined_accepted_minerNode : ∃ (n : Node) (block : CBlock) (files : BlockFiles) (nFile nBlockPos : ℕ),
    block.vtx.tail = [Sample.toEmpty, Sample.fromEmpty] ∧
    block.checkBlock (Sample.listParams Sample.minerTxs) Sample.minerClock = .ok () ∧
      n.mapBlockIndex.lookup block.hashPrevBlock = some n.pindexBest ∧
      block.acceptBlockContext (Sample.listParams Sample.minerTxs) n.nBestHeight Sample.minerClock n.pindexBest =
        .ok () ∧
      n.checkSync (Sample.listParams Sample.minerTxs) (block.getHash (Sample.listParams Sample.minerTxs))
        n.pindexBest = .ok true ∧
      ∃ st, block.connectChecks (Sample.listParams Sample.minerTxs) (n.envOf files) Sample.minerClock
          (block.newIndex (Sample.listParams Sample.minerTxs) n.pindexBest nFile nBlockPos) n.pindexBest = .ok st ∧
        st.nMint = getProofOfWorkReward := by
  obtain ⟨n, hn, hmine⟩ := Option.bind_eq_some_iff.mp Sample.mine_minerNode
  obtain ⟨⟨pblock₀, pblock, block, files, nFile, nBlockPos⟩, hm, hfacts⟩ := Option.map_eq_some_iff.mp hmine
  obtain ⟨hheight, hmedian, hbest, hwork, hsigned, hsigops, hbip30, hcheckpoint, htail⟩ := of_decide_eq_true hfacts
  unfold Sample.mine at hm
  split at hm
  · next pblock₀' hcreate =>
    split at hm
    · next pblock' hextra =>
      obtain ⟨written, hwrite, heq⟩ := Option.map_eq_some_iff.mp hm
      cases heq
      have hclock : ClockOk n Sample.minerClock := ⟨by decide, by decide, hmedian, hbest⟩
      obtain ⟨ps, hlook, hsuffix⟩ := (Option.any_eq_true _ _).mp hcheckpoint
      have hsync : n.InMainChain n.hashSyncCheckpoint := ⟨ps, hlook, of_decide_eq_true hsuffix⟩
      exact ⟨n, _, files, nFile, nBlockPos, htail, PoolChain.Run.mined_accepted
        (Sample.listParams_collisionFree Sample.minerTxs) (Sample.run_pooledNode Sample.loadGenesis_minerTxs hn)
        hheight hclock (by decide) hcreate (.start hextra) (by decide)
        ⟨rfl, hwork, hsigned, show 1 ≤ 1000 by decide⟩ hsync hsigops hbip30 le_rfl hwrite⟩
    · cases hm
  · cases hm

end Peershares
