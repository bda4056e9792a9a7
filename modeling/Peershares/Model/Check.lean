import Peershares.Model.BlockIndex
import Peershares.Model.Script

/-!
# Validation without the transaction index

`CTransaction::CheckTransaction`, `CBlock::CheckBlock` and the checks of `CBlock::AcceptBlock`
that look at the parent block only, with the rewards of `main.cpp` and the genesis block of
`LoadBlockIndex`.

What the later modules use of a block that passed is collected in two structures,
`CTransaction.Checked` and `CBlock.Checked`, so that no proof about the ledger unfolds a check again.
-/

namespace Peershares

/-! ### Rewards -/

/-- `GetProofOfWorkReward`. -/
def getProofOfWorkReward : Int := IPO_SHARES.tdiv PROOF_OF_WORK_BLOCKS

/-- `GetProofOfStakeReward`: a cent per coin-year. -/
def getProofOfStakeReward (nCoinAge : Int) : Int := (nCoinAge * 33).tdiv (365 * 33 + 8) * CENT

/-! ### `CheckTransaction` -/

/-- The output loop of `CheckTransaction`. -/
def checkOutputs (fUser : Bool) : List CTxOut → Int → Result Unit
  | [], _ => .ok ()
  | txout :: vout, nValueOut => do
    require (!(txout.isEmpty && fUser)) 100
      "CTransaction::CheckTransaction() : txout empty for user transaction"
    require (txout.isEmpty || MIN_TXOUT_AMOUNT ≤ txout.nValue) 100
      "CTransaction::CheckTransaction() : txout.nValue below minimum"
    require (txout.nValue ≤ MAX_MONEY) 100
      "CTransaction::CheckTransaction() : txout.nValue too high"
    require (moneyRange (nValueOut + txout.nValue)) 100
      "CTransaction::CheckTransaction() : txout total out of range"
    checkOutputs fUser vout (nValueOut + txout.nValue)

namespace CTransaction

def prevouts (tx : CTransaction) : List COutPoint := tx.vin.map CTxIn.prevout

def checkTransaction (tx : CTransaction) : Result Unit := do
  require (!tx.vin.isEmpty) 10 "CTransaction::CheckTransaction() : vin empty"
  require (!tx.vout.isEmpty) 10 "CTransaction::CheckTransaction() : vout empty"
  require (tx.getSerializeSize ≤ MAX_BLOCK_SIZE) 100
    "CTransaction::CheckTransaction() : size limits failed"
  checkOutputs (!tx.isGenerated) tx.vout 0
  -- duplicate inputs are refused without a message
  require tx.prevouts.Nodup 0 ""
  if tx.isCoinBase then
    require (tx.vin.all (fun txin => 2 ≤ txin.scriptSig.length && txin.scriptSig.length ≤ 100)) 100
      "CTransaction::CheckTransaction() : coinbase script size"
  else
    require (tx.prevouts.all (fun prevout => !prevout.isNull)) 10
      "CTransaction::CheckTransaction() : prevout is null"

/-- What `CheckTransaction` guarantees. -/
structure Checked (tx : CTransaction) : Prop where
  vin_ne_nil : tx.vin ≠ []
  vout_ne_nil : tx.vout ≠ []
  nValue_nonneg : ∀ txout ∈ tx.vout, 0 ≤ txout.nValue
  prevouts_nodup : tx.prevouts.Nodup
  prevout_not_null : tx.isCoinBase = false → ∀ prevout ∈ tx.prevouts, prevout.isNull = false

/-- `CheckTransaction` refuses negative values. -/
theorem nValue_nonneg_of_checkOutputs {fUser : Bool} {vout : List CTxOut} {acc : Int} {u : Unit}
    (h : checkOutputs fUser vout acc = .ok u) : ∀ txout ∈ vout, 0 ≤ txout.nValue := by
  induction vout generalizing acc with
  | nil => simp
  | cons o vout ih =>
    simp only [checkOutputs, Result.bind_eq_ok, require_eq_ok] at h
    obtain ⟨-, -, -, hmin, -, -, -, -, hrest⟩ := h
    intro txout hmem
    rcases List.mem_cons.mp hmem with rfl | hmem
    · rw [Bool.or_eq_true, decide_eq_true_eq] at hmin
      rcases hmin with hempty | hmin
      · simp only [CTxOut.isEmpty, Bool.and_eq_true, decide_eq_true_eq] at hempty
        exact le_of_eq hempty.1.symm
      · exact le_trans (by norm_num [MIN_TXOUT_AMOUNT, MIN_TX_FEE, CENT]) hmin
    · exact ih hrest txout hmem

/-- What `CheckTransaction` establishes. -/
theorem checked_of_checkTransaction {tx : CTransaction} {u : Unit}
    (h : tx.checkTransaction = .ok u) : tx.Checked := by
  simp only [checkTransaction, Result.bind_eq_ok, require_eq_ok] at h
  obtain ⟨-, hvin, -, hvout, -, -, _, hout, -, hnodup, hlast⟩ := h
  refine ⟨by simpa using hvin, by simpa using hvout, nValue_nonneg_of_checkOutputs hout,
    of_decide_eq_true hnodup, fun hcb => ?_⟩
  rw [if_neg (by simp [hcb]), require_eq_ok] at hlast
  simpa using hlast

end CTransaction

/-! ### The genesis block -/

/-- `CScript::operator<<` of a byte vector. -/
def pushData (b : List UInt8) : CScript :=
  if b.length < 0x4c then UInt8.ofNat b.length :: b
  else if b.length ≤ 0xff then OP_PUSHDATA1 :: UInt8.ofNat b.length :: b
  else if b.length ≤ 0xffff then
    OP_PUSHDATA2 :: UInt8.ofNat b.length :: UInt8.ofNat (b.length / 256) :: b
  else
    OP_PUSHDATA4 :: UInt8.ofNat b.length :: UInt8.ofNat (b.length / 256)
      :: UInt8.ofNat (b.length / 256 ^ 2) :: UInt8.ofNat (b.length / 256 ^ 3) :: b

/-- The bytes of an ASCII text. -/
def asciiBytes (s : String) : List UInt8 := s.toList.map (fun c => UInt8.ofNat c.toNat)

namespace Params

variable (P : Params)

def pszTimestamp : String :=
  if P.fTestNet then
    "April 2, 2014 Supreme Court Strikes Down Overall Campaign Contribution Limits"
  else "11 Nov 2017 test Bonfara Monero"

def nTimeGenesis : Nat := if P.fTestNet then 1396491392 else 1510339532

def nNonceGenesis : Nat := if P.fTestNet then 1130877 else 200204

/-- The only transaction of the genesis block: a coinbase with an empty output. Its input script is
`CScript() << 486604799 << CBigNum(9999) << pszTimestamp`. -/
def txGenesis : CTransaction where
  nTime := P.nTimeGenesis
  vin := [⟨COutPoint.null, [4, 0xff, 0xff, 0, 0x1d, 2, 0x0f, 0x27] ++ pushData (asciiBytes P.pszTimestamp),
    UINT_MAX⟩]
  vout := [CTxOut.empty]

def genesisBlock : CBlock where
  hashPrevBlock := 0
  hashMerkleRoot := P.hashTx P.txGenesis
  nTime := P.nTimeGenesis
  nBits := getCompact bnProofOfWorkLimit
  nNonce := P.nNonceGenesis
  vtx := [P.txGenesis]
  vchBlockSig := []

/-- `hashGenesisBlock`, which `LoadBlockIndex` asserts to be the hash of the block it builds. -/
def hashGenesisBlock : Uint256 := P.genesisBlock.getHash P

end Params

/-! ### `CheckBlock` -/

/-- `IsProtocolV03`; both networks switch at the same time. -/
def isProtocolV03 (nTimeCoinStake : Int) : Bool := 1510339532 ≤ nTimeCoinStake

/-- `CheckCoinStakeTimestamp`. -/
def checkCoinStakeTimestamp (nTimeBlock nTimeTx : Int) : Bool :=
  if isProtocolV03 nTimeTx then nTimeBlock = nTimeTx
  else nTimeTx ≤ nTimeBlock && nTimeBlock ≤ nTimeTx + nMaxClockDrift

namespace CBlock

/-- The output whose key signs the block. -/
def signingOutput (block : CBlock) : Option CTxOut :=
  match block.vtx with
  | _ :: tx :: _ => if tx.isCoinStake then tx.vout[1]? else (block.vtx.head?.bind (·.vout[0]?))
  | _ => block.vtx.head?.bind (·.vout[0]?)

/-- `CheckBlockSignature`. -/
def checkBlockSignature (P : Params) (block : CBlock) : Bool :=
  if block.getHash P = P.hashGenesisBlock then block.vchBlockSig.isEmpty
  else
    match block.signingOutput with
    | none => false
    | some txout =>
      match solver txout.scriptPubKey with
      | (true, .TX_PUBKEY, vchPubKey :: _) =>
        !block.vchBlockSig.isEmpty && P.verifyKey vchPubKey (block.getHash P) block.vchBlockSig
      | _ => false

/-- `CheckTransaction` as `CheckBlock` calls it: the score stays, the text is its own. -/
def checkBlockTransaction (tx : CTransaction) : Result Unit :=
  match tx.checkTransaction with
  | .error (.error nDoS _) => .error (.error nDoS "CheckBlock() : CheckTransaction failed")
  | .error e => .error e
  | .ok () => .ok ()

/-- `CheckBlock` runs it on every transaction. -/
theorem checkBlockTransaction_eq_ok {tx : CTransaction} {u : Unit} :
    checkBlockTransaction tx = .ok u ↔ tx.checkTransaction = .ok u := by
  unfold checkBlockTransaction
  cases tx.checkTransaction with
  | ok u => simp
  | error e => cases e <;> simp

/-- The loop over the transactions in `CheckBlock`. -/
def checkTransactions (nBlockTime : Int) : List CTransaction → Result Unit
  | [] => .ok ()
  | tx :: vtx => do
    checkBlockTransaction tx
    require ((tx.nTime : Int) ≤ nBlockTime) 50
      "CheckBlock() : block timestamp earlier than transaction timestamp"
    checkTransactions nBlockTime vtx

/-- `CheckBlock`, with the value of `GetAdjustedTime()` at the call. -/
def checkBlock (P : Params) (nAdjustedTime : Int) (block : CBlock) : Result Unit :=
  match block.vtx with
  | [] => .error (.error 100 "CheckBlock() : size limits failed")
  | txCoinBase :: vtx => do
    require (block.vtx.length ≤ MAX_BLOCK_SIZE && block.getSerializeSize ≤ MAX_BLOCK_SIZE) 100
      "CheckBlock() : size limits failed"
    require (block.isProofOfStake || (checkProofOfWork (block.getHash P) block.nBits).isOk) 50
      "CheckBlock() : proof of work failed"
    require (block.getBlockTime ≤ nAdjustedTime + nMaxClockDrift) 0
      "CheckBlock() : block timestamp too far in the future"
    require txCoinBase.isCoinBase 100 "CheckBlock() : first tx is not coinbase"
    require (vtx.all (fun tx => !tx.isCoinBase)) 100 "CheckBlock() : more than one coinbase"
    -- only the second transaction can be the optional coinstake
    require (vtx.tail.all (fun tx => !tx.isCoinStake)) 100 "CheckBlock() : coinstake in wrong position"
    require (block.isProofOfWork
        || (txCoinBase.vout.length = 1 && txCoinBase.vout.all CTxOut.isEmpty)) 0
      "CheckBlock() : coinbase output not empty for proof-of-stake block"
    require (block.getBlockTime ≤ txCoinBase.nTime + nMaxClockDrift) 50
      "CheckBlock() : coinbase timestamp is too early"
    require (block.isProofOfWork
        || vtx.head?.all (fun tx => checkCoinStakeTimestamp block.getBlockTime tx.nTime)) 50
      "CheckBlock() : coinstake timestamp violation nTimeBlock=%u nTimeTx=%u"
    let nValueOut ← txCoinBase.getValueOut
    require (nValueOut ≤ if block.isProofOfWork then
        getProofOfWorkReward - txCoinBase.getMinFee + MIN_TX_FEE else 0) 50
      "CheckBlock() : coinbase reward exceeded %s > %s"
    checkTransactions block.getBlockTime block.vtx
    require (block.vtx.map P.hashTx).Nodup 100 "CheckBlock() : duplicate transaction"
    require ((block.vtx.map CTransaction.getLegacySigOpCount).sum ≤ MAX_BLOCK_SIGOPS) 100
      "CheckBlock() : out-of-bounds SigOpCount"
    require (block.hashMerkleRoot = block.buildMerkleTree P) 100
      "CheckBlock() : hashMerkleRoot mismatch"
    require (block.checkBlockSignature P) 100 "CheckBlock() : bad block signature"

/-- What `CheckBlock` guarantees about the transactions of a block. -/
structure Checked (P : Params) (block : CBlock) : Prop where
  /-- The first transaction is a coinbase and the others are not; a coinstake is the second. -/
  shape : ∃ txCoinBase vtx, block.vtx = txCoinBase :: vtx ∧ txCoinBase.isCoinBase = true ∧
    (∀ tx ∈ vtx, tx.isCoinBase = false) ∧ (∀ tx ∈ vtx.tail, tx.isCoinStake = false) ∧
    txCoinBase.valueOut ≤ (if block.isProofOfWork then getProofOfWorkReward else 0)
  checked : ∀ tx ∈ block.vtx, tx.Checked
  nTime_le : ∀ tx ∈ block.vtx, (tx.nTime : Int) ≤ block.getBlockTime
  txids_nodup : (block.vtx.map P.hashTx).Nodup

/-- And compares their times. -/
theorem checkTransactions_eq_ok {nBlockTime : Int} {vtx : List CTransaction} {u : Unit}
    (h : checkTransactions nBlockTime vtx = .ok u) :
    ∀ tx ∈ vtx, tx.Checked ∧ (tx.nTime : Int) ≤ nBlockTime := by
  induction vtx with
  | nil => simp
  | cons t vtx ih =>
    simp only [checkTransactions, Result.bind_eq_ok, require_eq_ok] at h
    obtain ⟨_, ht, -, htime, hrest⟩ := h
    have hchecked := checkBlockTransaction_eq_ok.mp ht
    intro tx hmem
    rcases List.mem_cons.mp hmem with rfl | hmem
    · exact ⟨CTransaction.checked_of_checkTransaction hchecked, of_decide_eq_true htime⟩
    · exact ih hrest tx hmem

/-- What `CheckBlock` establishes. -/
theorem checked_of_checkBlock {P : Params} {nAdjustedTime : Int} {block : CBlock} {u : Unit}
    (h : block.checkBlock P nAdjustedTime = .ok u) : block.Checked P := by
  unfold checkBlock at h
  split at h
  · exact absurd h (by simp)
  · next txCoinBase vtx hvtx =>
    simp only [Result.bind_eq_ok, require_eq_ok] at h
    obtain ⟨-, -, -, -, -, -, -, hcb, -, hcbs, -, hcs, -, -, -, -, -, -, nValueOut, hval, -, hle,
      _, htxs, -, hnodup, -⟩ := h
    have htx := checkTransactions_eq_ok htxs
    refine ⟨⟨txCoinBase, vtx, hvtx, hcb, by simpa using hcbs, by simpa using hcs, ?_⟩,
      fun tx hm => (htx tx hm).1, fun tx hm => (htx tx hm).2, of_decide_eq_true hnodup⟩
    rw [← CTransaction.getValueOut_eq_ok hval]
    refine le_trans (of_decide_eq_true hle) ?_
    have hfee := txCoinBase.le_getMinFee
    split_ifs <;> omega

end CBlock

/-! ### The contextual checks of `AcceptBlock` -/

/-- `mapCheckpoints`: the only hardened checkpoint is at height zero. -/
def mapCheckpoints : List (Nat × Uint256) :=
  [(0, 0x000000d78e35e381ca738ceb966b9faf528f0970d994ce4eb4560b56cbe2f6c4)]

/-- `Checkpoints::CheckHardened`. -/
def checkHardened (P : Params) (nHeight : Nat) (hash : Uint256) : Bool :=
  P.fTestNet ||
    match mapCheckpoints.lookup nHeight with
    | none => true
    | some hashCheckpoint => hash = hashCheckpoint

/-- `Checkpoints::GetTotalBlocksEstimate`: the height of the last hardened checkpoint. -/
def getTotalBlocksEstimate (P : Params) : Int :=
  if P.fTestNet then 0 else (mapCheckpoints.getLast?.map (fun c => (c.1 : Int))).getD 0

/-- Proof-of-work blocks up to the switch height, proof-of-stake blocks above. -/
def CBlock.checkSwitch (nHeight : Nat) (block : CBlock) : Result Unit :=
  if (nHeight : Int) ≤ PROOF_OF_WORK_BLOCKS then
    require block.isProofOfWork 100 "AcceptBlock() : Proof-of-stake before switch"
  else
    require block.isProofOfStake 100 "AcceptBlock() : Proof-of-work after switch"

/-- Work blocks up to height 400, and stake blocks above it. -/
theorem CBlock.checkSwitch_eq_ok {nHeight : Nat} {block : CBlock} {u : Unit} :
    block.checkSwitch nHeight = .ok u ↔
      (block.isProofOfWork = true ↔ (nHeight : Int) ≤ PROOF_OF_WORK_BLOCKS) := by
  unfold CBlock.checkSwitch CBlock.isProofOfWork
  split_ifs with h
  · simp [h]
  · simp [h]

/-- The checks of `AcceptBlock` between finding the parent and the synchronized checkpoint. -/
def CBlock.acceptBlockContext (P : Params) (nBestHeight nAdjustedTime : Int) (pindexPrev : BlockPtr)
    (block : CBlock) : Result Unit := do
  let nHeight := pindexPrev.nHeight + 1
  block.checkSwitch nHeight
  require (block.nBits = getNextTargetRequired P pindexPrev block.isProofOfStake) 100
    "AcceptBlock() : incorrect proof-of-work/proof-of-stake"
  require (pindexPrev.getMedianTimePast < block.getBlockTime
      && pindexPrev.getBlockTime ≤ block.getBlockTime + nMaxClockDrift) 0
    "AcceptBlock() : block's timestamp is too early"
  require (block.vtx.all (fun tx => tx.isFinal nBestHeight nAdjustedTime nHeight block.getBlockTime))
    10 "AcceptBlock() : contains a non-final transaction"
  require (checkHardened P nHeight (block.getHash P)) 100
    "AcceptBlock() : rejected by hardened checkpoint lockin at %d"

/-- What the ledger uses of the contextual checks: proof-of-work blocks come first, and a block's
time is above the median of its predecessors. -/
theorem CBlock.acceptBlockContext_eq_ok {P : Params} {nBestHeight nAdjustedTime : Int}
    {pindexPrev : BlockPtr} {block : CBlock} {u : Unit}
    (h : block.acceptBlockContext P nBestHeight nAdjustedTime pindexPrev = .ok u) :
    (block.isProofOfWork = true ↔ ((pindexPrev.nHeight + 1 : Nat) : Int) ≤ PROOF_OF_WORK_BLOCKS) ∧
    pindexPrev.getMedianTimePast < block.getBlockTime := by
  simp only [CBlock.acceptBlockContext, Result.bind_eq_ok, require_eq_ok] at h
  obtain ⟨_, hkind, -, -, -, htime, -⟩ := h
  refine ⟨CBlock.checkSwitch_eq_ok.mp hkind, ?_⟩
  rw [Bool.and_eq_true, decide_eq_true_eq] at htime
  exact htime.1

end Peershares
