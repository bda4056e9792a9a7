import Peershares.Framework.ReleaseQueue
import Peershares.Model.Checkpoints
import Peershares.Model.ScriptBuild

/-!
# Block assembly

`CreateNewBlock`: the transactions of the memory pool are collected into a block on the best chain, by priority,
and a transaction whose previous transactions are in the pool waits until these are in the block.

A `COrphan` is a task of a `ReleaseQueue`, and `vOrphan`, `mapDependers` and `mapPriority` are the three parts of
the queue; a pointer to an orphan is its index in `vOrphan`. Priorities are `double`s, so their arithmetic is an
argument. What `CreateCoinStake` returned is an argument too (it is in `Model.CoinStake`), and so is the clock.
-/

open Framework

namespace Peershares

/-- The arithmetic of priorities. -/
structure PriorityArith (D : Type) where
  zero : D
  /-- `dPriority += (double)nValueIn * nConf`. -/
  addInput : D → Int → Int → D
  /-- `dPriority /= nTxSize`. -/
  perByte : D → Nat → D

/-- `CTxIndex::GetDepthInMainChain`. -/
def CTxIndex.getDepthInMainChain (P : Params) (g : Globals) (txindex : CTxIndex) : Int :=
  match g.files.readBlock txindex.pos.nFile txindex.pos.nBlockPos with
  | none => 0
  | some block =>
    match g.mapBlockIndex.lookup (block.getHash P) with
    | none => 0
    | some pindex =>
      if pindex.isEmpty || !g.isInMainChain pindex then 0 else 1 + g.nBestHeight - pindex.nHeight

/-- What is put into `mapPriority`, without the minus sign in front of the priority. -/
abbrev Candidate (D : Type) := D × CTransaction

/-- `mapPriority.insert`: behind everything that has at least this priority. -/
def insertPriority {D : Type} [LinearOrder D] (c : Candidate D) : List (Candidate D) → List (Candidate D)
  | [] => [c]
  | c' :: mapPriority =>
    if c.1 ≤ c'.1 then c' :: insertPriority c mapPriority else c :: c' :: mapPriority

namespace Node

section Collect

variable {D : Type} [LinearOrder D] (P : Params) (A : PriorityArith D) (n : Node) (nAdjustedTime : Int)

/-- `txPrev.ReadFromDisk(txdb, prevout, txindex)`, with the output. -/
def readPrevout (prevout : COutPoint) : Option (CTxIndex × CTxOut) := do
  let txindex ← n.txdb.committed.txIndex.lookup prevout.hash
  let txPrev ← n.files.readTx txindex.pos
  let txout ← txPrev.vout[prevout.n]?
  pure (txindex, txout)

/-- The hashes a transaction is listed under in `mapDependers`, and that are put into `setDependsOn`. -/
def dependsOn (tx : CTransaction) : List Uint256 :=
  (tx.vin.filter fun txin => (n.readPrevout txin.prevout).isNone).map fun txin => txin.prevout.hash

/-- One input that was read adds to the priority. -/
def addPriority (dPriority : D) (txin : CTxIn) : D :=
  match n.readPrevout txin.prevout with
  | none => dPriority
  | some (txindex, txout) =>
    A.addInput dPriority txout.nValue (txindex.getDepthInMainChain P n.toGlobals)

/-- The priority is sum(valuein * age) / txsize. -/
def priority (tx : CTransaction) : D :=
  A.perByte (tx.vin.foldl (n.addPriority P A) A.zero) tx.getSerializeSize

/-- The transactions of the pool that are looked at, in the order of the map. -/
def candidates : List (Candidate D) :=
  (((n.mempool.mapTx.entries.insertionSort (fun a b => a.1 ≤ b.1)).map fun e => e.2).filter fun tx =>
    !tx.isGenerated && tx.isFinal n.nBestHeight nAdjustedTime 0 0).map fun tx => (n.priority P A tx, tx)

/-- The first loop over the pool. -/
def priorityQueue : ReleaseQueue Uint256 (Candidate D) :=
  (n.candidates P A nAdjustedTime).foldl (fun q c => q.push insertPriority (n.dependsOn c.2) c) {}

/-! ### Collecting -/

/-- The local variables of the second loop. -/
structure BlockDraft where
  pblock : CBlock
  mapTestPool : TxIndexMap := ∅
  nBlockSize : Nat := 1000
  nBlockTx : Nat := 0
  nBlockSigOps : Nat := 100
  nFees : Int := 0

/-- The time of the coinstake, when the block has one. -/
def BlockDraft.stakeTime (s : BlockDraft) : Option Nat :=
  match s.pblock.vtx with
  | _ :: tx :: _ => if tx.isCoinStake then some tx.nTime else none
  | _ => none

/-- `if (!call) continue;` An exception goes through. -/
def orContinue {α : Type} (x : Result α) : Result (Option α) :=
  match x with
  | .ok a => .ok (some a)
  | .error e => if e.isReturn then .ok none else .error e

/-- The checks on a transaction whose inputs were fetched: the fees, the sigops in all, and the new
`mapTestPoolTmp`. -/
def tryConnect (s : BlockDraft) (tx : CTransaction) (mapInputs : MapPrevTx) :
    Result (Option (Int × Nat × TxIndexMap)) := do
  let nValueIn ← tx.getValueIn mapInputs
  let nValueOut ← tx.getValueOut
  let nTxFees := nValueIn - nValueOut
  if nTxFees < tx.getMinFee s.nBlockSize false .GMF_BLOCK then pure none
  else
    let nP2SHSigOps ← tx.getP2SHSigOpCount mapInputs
    let nTxSigOps := tx.getLegacySigOpCount + nP2SHSigOps
    if MAX_BLOCK_SIGOPS ≤ s.nBlockSigOps + nTxSigOps then pure none
    else
      let mapTestPoolTmp ← orContinue (tx.connectInputs P (n.connectEnv n.txdb.committed.txIndex) mapInputs
        s.mapTestPool CDiskTxPos.inMempool n.pindexBest false true true)
      pure (mapTestPoolTmp.map fun mapTestPoolTmp => (nTxFees, nTxSigOps, mapTestPoolTmp))

/-- What is added to the block with a transaction. -/
def BlockDraft.add (s : BlockDraft) (tx : CTransaction) (nTxFees : Int) (nTxSigOps : Nat)
    (mapTestPoolTmp : TxIndexMap) : BlockDraft where
  pblock := { s.pblock with vtx := s.pblock.vtx ++ [tx] }
  mapTestPool := mapTestPoolTmp.insert (P.hashTx tx) (CTxIndex.new CDiskTxPos.inMempool tx.vout.length)
  nBlockSize := s.nBlockSize + tx.getSerializeSize
  nBlockTx := s.nBlockTx + 1
  nBlockSigOps := s.nBlockSigOps + nTxSigOps
  nFees := s.nFees + nTxFees

/-- One round of the second loop; the hash is that of a transaction that was added. -/
def collectTx (s : BlockDraft) (c : Candidate D) : Result (BlockDraft × Option Uint256) :=
  let tx := c.2
  if MAX_BLOCK_SIZE_GEN ≤ s.nBlockSize + tx.getSerializeSize then .ok (s, none)
  else if MAX_BLOCK_SIGOPS ≤ s.nBlockSigOps + tx.getLegacySigOpCount then .ok (s, none)
  else if nAdjustedTime < tx.nTime || s.stakeTime.any (· < tx.nTime) then .ok (s, none)
  else do
    match ← orContinue (tx.fetchInputs (n.connectEnv n.txdb.committed.txIndex) s.mapTestPool false true) with
    | none => pure (s, none)
    | some mapInputs =>
      match ← n.tryConnect P s tx mapInputs with
      | none => pure (s, none)
      | some (nTxFees, nTxSigOps, mapTestPoolTmp) =>
        pure (s.add P tx nTxFees nTxSigOps mapTestPoolTmp, some (P.hashTx tx))

/-- "Collect memory pool transactions into the block". No transaction is taken from the queue twice, so there are
at most as many rounds as candidates. -/
def collect (pblock : CBlock) : Option (Result BlockDraft) :=
  ReleaseQueue.drain insertPriority (n.collectTx P nAdjustedTime) (n.candidates P A nAdjustedTime).length
    { pblock } (n.priorityQueue P A nAdjustedTime)

/-! ### The block -/

/-- An `int64` that is assigned to an `unsigned int`. -/
def uint32 (n : Int) : Nat := (n % 2 ^ 32).toNat

/-- The coinbase that `CreateNewBlock` begins with; its output has no value yet. -/
def newCoinBase (vchPubKey : List UInt8) : CTransaction where
  nTime := uint32 nAdjustedTime
  vin := [⟨COutPoint.null, [], UINT_MAX⟩]
  vout := [⟨-1, pushData vchPubKey ++ [OP_CHECKSIG]⟩]

/-- The coinstake meets the timestamp protocol. -/
def stakeInTime (txCoinStake : CTransaction) : Bool :=
  max (n.pindexBest.getMedianTimePast + 1) (n.pindexBest.getBlockTime - nMaxClockDrift) ≤ txCoinStake.nTime

/-- The block before transactions are collected. With a coinstake the coinbase gets its time, and an empty
output. -/
def newBlock (vchPubKey : List UInt8) (txCoinStake : Option CTransaction) : CBlock :=
  let txNew := newCoinBase nAdjustedTime vchPubKey
  let vtx := match txCoinStake.filter n.stakeInTime with
    | none => [txNew]
    | some txCoinStake => [{ txNew with nTime := txCoinStake.nTime, vout := [CTxOut.empty] }, txCoinStake]
  let pblock : CBlock :=
    { hashPrevBlock := 0, hashMerkleRoot := 0, nTime := 0, nBits := 0, nNonce := 0, vtx, vchBlockSig := [] }
  { pblock with nBits := getNextTargetRequired P n.pindexBest pblock.isProofOfStake }

/-- The reward of a proof-of-work block goes to the output of its coinbase. -/
def payReward (pblock : CBlock) : CBlock :=
  if pblock.isProofOfWork then
    { pblock with vtx := pblock.vtx.modifyHead fun tx =>
      { tx with vout := tx.vout.modifyHead fun txout => { txout with nValue := getProofOfWorkReward } } }
  else pblock

/-- The block time: later than the median of the last blocks, no transaction is after it, and it is not too far
behind the last block. `UpdateTime` takes the clock for a proof-of-work block when that is later. -/
def newBlockTime (pblock : CBlock) : Nat :=
  let nTime := uint32 (max (n.pindexBest.getMedianTimePast + 1) pblock.getMaxTransactionTime)
  let nTime := uint32 (max nTime (n.pindexBest.getBlockTime - nMaxClockDrift))
  if pblock.isProofOfWork then uint32 (max nTime nAdjustedTime) else nTime

/-- "Fill in header". -/
def fillHeader (pblock : CBlock) : CBlock :=
  { pblock with
    hashPrevBlock := n.pindexBest.hash
    hashMerkleRoot := pblock.buildMerkleTree P
    nTime := n.newBlockTime nAdjustedTime pblock
    nNonce := 0 }

/-- `CreateNewBlock`: `none` inside is `NULL`. -/
def createNewBlock (vchPubKey : List UInt8) (fProofOfStake : Bool) (txCoinStake : Option CTransaction) :
    Option (Result (Option CBlock)) :=
  if fProofOfStake && n.nBestHeight < PROOF_OF_WORK_BLOCKS then some (.ok none)
  else if !fProofOfStake && PROOF_OF_WORK_BLOCKS ≤ n.nBestHeight then some (.ok none)
  else
    let pblock := n.newBlock P nAdjustedTime vchPubKey (if fProofOfStake then txCoinStake else none)
    (n.collect P A nAdjustedTime pblock).map fun draft => draft.map fun s =>
      some (n.fillHeader P nAdjustedTime (payReward s.pblock))

/-! ### Mining -/

/-- `IncrementExtraNonce` with the new value of `nExtraNonce`. -/
def incrementExtraNonce (COINBASE_FLAGS : CScript) (nExtraNonce : Nat) (pblock : CBlock) : Result CBlock :=
  let scriptSig := pushUint64 pblock.nTime ++ pushData (CBigNum.getvch nExtraNonce) ++ COINBASE_FLAGS
  if 100 < scriptSig.length then .error .assertion
  else
    let pblock := { pblock with vtx := pblock.vtx.modifyHead fun tx =>
      { tx with vin := tx.vin.modifyHead fun txin => { txin with scriptSig } } }
    .ok { pblock with hashMerkleRoot := pblock.buildMerkleTree P }

/-- "Update nTime every few seconds". The search ends when the coinbase needs a new timestamp. -/
def updateTime (pblock : CBlock) : Option CBlock :=
  let pblock := { pblock with nTime := n.newBlockTime nAdjustedTime pblock }
  if pblock.vtx.head?.any fun tx => (tx.nTime : Int) + nMaxClockDrift ≤ pblock.getBlockTime then none
  else some pblock

/-- The block for which `BitcoinMiner` searches a nonce, and the clock when it last looked at it. -/
inductive Mining (COINBASE_FLAGS : CScript) (pblock₀ : CBlock) (nAdjustedTime₀ : Int) : CBlock → Int → Prop where
  | start {nExtraNonce : Nat} {pblock : CBlock}
      (h : incrementExtraNonce P COINBASE_FLAGS nExtraNonce pblock₀ = .ok pblock) :
      Mining COINBASE_FLAGS pblock₀ nAdjustedTime₀ pblock nAdjustedTime₀
  | updateTime {pblock pblock' : CBlock} {nAdjustedTime nAdjustedTime' : Int}
      (hmining : Mining COINBASE_FLAGS pblock₀ nAdjustedTime₀ pblock nAdjustedTime)
      (hclock : nAdjustedTime ≤ nAdjustedTime') (h : n.updateTime nAdjustedTime' pblock = some pblock') :
      Mining COINBASE_FLAGS pblock₀ nAdjustedTime₀ pblock' nAdjustedTime'

end Collect

end Node

end Peershares
