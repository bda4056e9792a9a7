import Peershares.Model.Check
import Peershares.Model.TxDb

/-!
# Connecting and disconnecting

`FetchInputs`, `ConnectInputs`, `GetCoinAge` and the part of `ConnectBlock` and `DisconnectBlock`
that works on the transaction index. Everything here is a function of the index it reads: the
bookkeeping around it (database transactions, block index records, wallets) is in `Model.Node`.

`ConnectBlock` does not write while it checks. It collects its changes in `mapQueuedChanges`, where
later transactions of the block find them, and writes the queue at the end.
-/

open Framework

namespace Peershares

/-- The transaction index: the "tx" records by transaction hash. -/
abbrev TxIndexMap := Map Uint256 CTxIndex

/-- `MapPrevTx`: the previous transactions of a transaction with their index entries. -/
abbrev MapPrevTx := Map Uint256 (CTxIndex × CTransaction)

/-- What connecting a transaction reads: the block files, the index as the database shows it, the
memory pool and the height of the best chain. -/
structure ConnectEnv where
  files : BlockFiles
  txIndex : TxIndexMap
  mempool : Map Uint256 CTransaction
  nBestHeight : Int

/-! ### Block index entries -/

/-- The index entry `AddToBlockIndex` makes. -/
def CBlock.newIndex (P : Params) (pprev : BlockPtr) (nFile nBlockPos : Nat) (block : CBlock) :
    CBlockIndex where
  hashBlock := block.getHash P
  nFile := nFile
  nBlockPos := nBlockPos
  bnChainTrust := pprev.bnChainTrust + getBlockTrust block.nBits block.isProofOfStake
  nHeight := if pprev.isEmpty then 0 else pprev.nHeight + 1
  fProofOfStake := block.isProofOfStake
  nTime := block.nTime
  nBits := block.nBits

/-- The position genesis is written to. -/
def Params.genesisIndex (P : Params) : CBlockIndex := P.genesisBlock.newIndex P [] 1 8

/-- The block files after `LoadBlockIndex` wrote genesis. -/
def Params.genesisFiles (P : Params) : BlockFiles where
  blocks := [⟨1, 8, P.genesisBlock⟩]

/-! ### `GetCoinAge` -/

/-- One input in `GetCoinAge`: what it adds in cent-seconds, `none` when the function fails. -/
def coinAgeOf (P : Params) (env : ConnectEnv) (tx : CTransaction) (txin : CTxIn) : Option Int :=
  match env.txIndex.lookup txin.prevout.hash with
  | none => some 0
  | some txindex =>
    match env.files.readTx txindex.pos with
    | none => some 0
    | some txPrev =>
      match txPrev.vout[txin.prevout.n]? with
      | none => some 0
      | some txout =>
        if tx.nTime < txPrev.nTime then none
        else
          match env.files.readBlock txindex.pos.nFile txindex.pos.nBlockPos with
          | none => none
          | some block =>
            -- only coins that meet the minimum age count
            if (tx.nTime : Int) < block.getBlockTime + P.nStakeMinAge then some 0
            else some ((txout.nValue * (tx.nTime - txPrev.nTime)).tdiv CENT)

/-- `CTransaction::GetCoinAge`, in coin-days. -/
def CTransaction.getCoinAge (P : Params) (env : ConnectEnv) (tx : CTransaction) : Option Int :=
  if tx.isCoinBase then some 0
  else do
    let bnCentSeconds ← tx.vin.mapM (coinAgeOf P env tx)
    pure (((bnCentSeconds.sum * CENT).tdiv COIN).tdiv (24 * 60 * 60))

/-! ### `FetchInputs` -/

/-- `mapTestPool` in front of the index, when a block is connected or assembled. -/
def fetchIndex (env : ConnectEnv) (mapTestPool : TxIndexMap) (fBlock fMiner : Bool)
    (hash : Uint256) : Option CTxIndex :=
  if fBlock || fMiner then (mapTestPool.lookup hash).or (env.txIndex.lookup hash)
  else env.txIndex.lookup hash

/-- One round of the first loop of `FetchInputs`: the entry and the transaction with this hash. -/
def fetchPrev (env : ConnectEnv) (mapTestPool : TxIndexMap) (fBlock fMiner : Bool)
    (hash : Uint256) : Result (CTxIndex × CTransaction) :=
  match fetchIndex env mapTestPool fBlock fMiner hash with
  | none =>
    if fBlock || fMiner then
      .error (.error 0
        (if fMiner then "" else "FetchInputs() : %s prev tx %s index entry not found"))
    else
      match env.mempool.lookup hash with
      | none => .error (.error 0 "FetchInputs() : %s mempool Tx prev not found %s")
      | some txPrev => .ok (CTxIndex.new CDiskTxPos.null txPrev.vout.length, txPrev)
  | some txindex =>
    if txindex.pos = CDiskTxPos.inMempool then
      match env.mempool.lookup hash with
      | none => .error (.error 0 "FetchInputs() : %s mempool Tx prev not found %s")
      | some txPrev => .ok (txindex, txPrev)
    else
      match env.files.readTx txindex.pos with
      | none => .error (.error 0 "FetchInputs() : %s ReadFromDisk prev tx %s failed")
      | some txPrev => .ok (txindex, txPrev)

/-- The first loop of `FetchInputs`. -/
def fetchLoop (env : ConnectEnv) (mapTestPool : TxIndexMap) (fBlock fMiner : Bool) :
    List CTxIn → MapPrevTx → Result MapPrevTx
  | [], inputsRet => .ok inputsRet
  | txin :: vin, inputsRet =>
    match inputsRet.lookup txin.prevout.hash with
    -- got it already
    | some _ => fetchLoop env mapTestPool fBlock fMiner vin inputsRet
    | none => do
      let prev ← fetchPrev env mapTestPool fBlock fMiner txin.prevout.hash
      fetchLoop env mapTestPool fBlock fMiner vin (inputsRet.insert txin.prevout.hash prev)

/-- An output of a fetched transaction, when both the transaction and its entry have it. -/
def MapPrevTx.output? (inputs : MapPrevTx) (prevout : COutPoint) : Option CTxOut :=
  match inputs.lookup prevout.hash with
  | none => none
  | some (txindex, txPrev) =>
    if prevout.n < txindex.vSpent.length then txPrev.vout[prevout.n]? else none

/-- `FetchInputs`. Its output `fInvalid` is true exactly when it fails with a score. -/
def CTransaction.fetchInputs (env : ConnectEnv) (mapTestPool : TxIndexMap) (fBlock fMiner : Bool)
    (tx : CTransaction) : Result MapPrevTx :=
  if tx.isCoinBase then .ok ∅
  else do
    let inputsRet ← fetchLoop env mapTestPool fBlock fMiner tx.vin ∅
    require (tx.vin.all (fun txin => (inputsRet.output? txin.prevout).isSome)) 100
      "FetchInputs() : %s prevout.n out of range %d %d %d prev tx %s\n%s"
    pure inputsRet

/-! ### `ConnectInputs` -/

/-- `GetOutputFor`. -/
def getOutputFor (txin : CTxIn) (inputs : MapPrevTx) : Result CTxOut :=
  match inputs.lookup txin.prevout.hash with
  | none => .error (.exception "CTransaction::GetOutputFor() : prevout.hash not found")
  | some (_, txPrev) =>
    match txPrev.vout[txin.prevout.n]? with
    | none => .error (.exception "CTransaction::GetOutputFor() : prevout.n out of range")
    | some txout => .ok txout

namespace CTransaction

/-- `GetValueIn`. -/
def getValueIn (tx : CTransaction) (inputs : MapPrevTx) : Result Int :=
  if tx.isCoinBase then .ok 0
  else do
    let prevouts ← tx.vin.mapM (fun txin => getOutputFor txin inputs)
    pure (prevouts.map CTxOut.nValue).sum

/-- `GetP2SHSigOpCount`. -/
def getP2SHSigOpCount (tx : CTransaction) (inputs : MapPrevTx) : Result Nat :=
  if tx.isCoinBase then .ok 0
  else do
    let counts ← tx.vin.mapM (fun txin => do
      let prevout ← getOutputFor txin inputs
      pure (if isPayToScriptHash prevout.scriptPubKey then
        getSigOpCountP2SH prevout.scriptPubKey txin.scriptSig else 0))
    pure counts.sum

end CTransaction

/-- The maturity loop of `ConnectInputs`: does one of the last `nCoinbaseMaturity` blocks, counted
from the height `nHeight`, hold the position? -/
def isImmature (P : Params) (nHeight : Nat) (pos : CDiskTxPos) : BlockPtr → Bool
  | [] => false
  | pindex :: pprev =>
    if (nHeight : Int) - pindex.nHeight < P.nCoinbaseMaturity then
      if pindex.nBlockPos = pos.nBlockPos ∧ pindex.nFile = pos.nFile then true
      else isImmature P nHeight pos pprev
    else false

/-- `inputs[prevout.hash]`, which is asserted to exist. -/
def getPrev (inputs : MapPrevTx) (prevout : COutPoint) : Result (CTxIndex × CTransaction) :=
  match inputs.lookup prevout.hash with
  | none => .error .assertion
  | some prev => .ok prev

/-- `txPrev.vout[prevout.n]`, behind the range check of `ConnectInputs`. -/
def getPrevOut (prev : CTxIndex × CTransaction) (prevout : COutPoint) : Result CTxOut :=
  match prev.2.vout[prevout.n]? with
  | none => .error (.error 100 "ConnectInputs() : %s prevout.n out of range %d %d %d prev tx %s\n%s")
  | some txout =>
    if prevout.n < prev.1.vSpent.length then .ok txout
    else
      .error (.error 100 "ConnectInputs() : %s prevout.n out of range %d %d %d prev tx %s\n%s")

/-- The first loop of `ConnectInputs`, with the inexpensive checks; it returns `nValueIn`. -/
def checkInputs (P : Params) (pindexBlock : BlockPtr) (tx : CTransaction) (inputs : MapPrevTx) :
    List CTxIn → Int → Result Int
  | [], nValueIn => .ok nValueIn
  | txin :: vin, nValueIn => do
    let prev ← getPrev inputs txin.prevout
    let txout ← getPrevOut prev txin.prevout
    require (!(prev.2.isGenerated && isImmature P pindexBlock.nHeight prev.1.pos pindexBlock)) 0
      "ConnectInputs() : tried to spend coinbase/coinstake at depth %d"
    require (prev.2.nTime ≤ tx.nTime) 100
      "ConnectInputs() : transaction timestamp earlier than input transaction"
    require (moneyRange txout.nValue && moneyRange (nValueIn + txout.nValue)) 100
      "ConnectInputs() : txin values out of range"
    checkInputs P pindexBlock tx inputs vin (nValueIn + txout.nValue)

/-- `VerifySignature`. -/
def verifySignature (P : Params) (txFrom txTo : CTransaction) (nIn : Nat) (txin : CTxIn)
    (fValidatePayToScriptHash : Bool) : Bool :=
  match txFrom.vout[txin.prevout.n]? with
  | none => false
  | some txout =>
    txin.prevout.hash = P.hashTx txFrom &&
      P.verifyScript txin.scriptSig txout.scriptPubKey txTo nIn fValidatePayToScriptHash

/-- The signature check of one input in `ConnectInputs`; skipped for blocks below the last
hardened checkpoint. -/
def verifyInput (P : Params) (env : ConnectEnv) (txPrev tx : CTransaction) (nIn : Nat)
    (txin : CTxIn) (fBlock fStrictPayToScriptHash : Bool) : Result Unit :=
  if fBlock && env.nBestHeight < getTotalBlocksEstimate P then .ok ()
  else if verifySignature P txPrev tx nIn txin fStrictPayToScriptHash then .ok ()
  else if fStrictPayToScriptHash && verifySignature P txPrev tx nIn txin false then
    .error (.error 0 "ConnectInputs() : %s P2SH VerifySignature failed")
  else .error (.error 100 "ConnectInputs() : %s VerifySignature failed")

/-- Mark an output as spent by the transaction at `pos`. -/
def CTxIndex.spend (txindex : CTxIndex) (n : Nat) (pos : CDiskTxPos) : CTxIndex :=
  { txindex with vSpent := txindex.vSpent.set n pos }

/-- The second loop of `ConnectInputs`: the outputs must be unspent and the signatures valid; the
outputs are marked as spent in `inputs` and in `mapTestPool`, which is returned. -/
def spendInputs (P : Params) (env : ConnectEnv) (tx : CTransaction) (posThisTx : CDiskTxPos)
    (fBlock fMiner fStrictPayToScriptHash : Bool) :
    List CTxIn → Nat → MapPrevTx → TxIndexMap → Result TxIndexMap
  | [], _, _, mapTestPool => .ok mapTestPool
  | txin :: vin, nIn, inputs, mapTestPool => do
    let prev ← getPrev inputs txin.prevout
    require ((prev.1.vSpent[txin.prevout.n]?).any CDiskTxPos.isNull) 0
      (if fMiner then "" else "ConnectInputs() : %s prev tx already used at %s")
    verifyInput P env prev.2 tx nIn txin fBlock fStrictPayToScriptHash
    let txindex := prev.1.spend txin.prevout.n posThisTx
    spendInputs P env tx posThisTx fBlock fMiner fStrictPayToScriptHash vin (nIn + 1)
      (inputs.insert txin.prevout.hash (txindex, prev.2))
      (if fBlock || fMiner then mapTestPool.insert txin.prevout.hash txindex else mapTestPool)

/-- The end of `ConnectInputs` for a coinstake: it earns at most the reward for its coin age. -/
def checkStakeReward (P : Params) (env : ConnectEnv) (tx : CTransaction) (nValueIn : Int) :
    Result Unit :=
  match tx.getCoinAge P env with
  | none => .error (.error 0 "ConnectInputs() : %s unable to get coin age for coinstake")
  | some nCoinAge => do
    let nValueOut ← tx.getValueOut
    require (nValueOut - nValueIn ≤ getProofOfStakeReward nCoinAge - tx.getMinFee + MIN_TX_FEE) 100
      "ConnectInputs() : %s stake reward exceeded"

/-- The end of `ConnectInputs` for other transactions: the fee every block demands is paid. -/
def checkFees (tx : CTransaction) (nValueIn : Int) (fBlock : Bool) : Result Unit := do
  let nValueOut ← tx.getValueOut
  require (nValueOut ≤ nValueIn) 100 "ConnectInputs() : %s value in < value out"
  let nTxFee := nValueIn - nValueOut
  require (0 ≤ nTxFee) 100 "ConnectInputs() : %s nTxFee < 0"
  require (tx.getMinFee ≤ nTxFee) (if fBlock then 100 else 0)
    (if fBlock then "ConnectInputs() : %s not paying required fee=%s, paid=%s" else "")
  require (moneyRange nTxFee) 100 "ConnectInputs() : nFees out of range"

/-- The end of `ConnectInputs`. -/
def checkValue (P : Params) (env : ConnectEnv) (tx : CTransaction) (nValueIn : Int)
    (fBlock : Bool) : Result Unit :=
  if tx.isCoinStake then checkStakeReward P env tx nValueIn else checkFees tx nValueIn fBlock

/-- `ConnectInputs`; it returns `mapTestPool`. -/
def CTransaction.connectInputs (P : Params) (env : ConnectEnv) (inputs : MapPrevTx)
    (mapTestPool : TxIndexMap) (posThisTx : CDiskTxPos) (pindexBlock : BlockPtr)
    (fBlock fMiner fStrictPayToScriptHash : Bool) (tx : CTransaction) : Result TxIndexMap :=
  if tx.isCoinBase then .ok mapTestPool
  else do
    let nValueIn ← checkInputs P pindexBlock tx inputs tx.vin 0
    let mapTestPool ← spendInputs P env tx posThisTx fBlock fMiner fStrictPayToScriptHash tx.vin 0
      inputs mapTestPool
    checkValue P env tx nValueIn fBlock
    pure mapTestPool

/-! ### `ConnectBlock` -/

/-- The local variables of the loop of `ConnectBlock`. -/
structure ConnectState where
  nTxPos : Nat
  nSigOps : Nat := 0
  mapQueuedChanges : TxIndexMap := ∅
  nFees : Int := 0
  nValueIn : Int := 0
  nValueOut : Int := 0

/-- The sigops of pay-to-script-hash inputs are added in once BIP16 is active. -/
def addP2SHSigOps (fStrictPayToScriptHash : Bool) (nSigOps : Nat) (tx : CTransaction)
    (mapInputs : MapPrevTx) : Result Nat :=
  if fStrictPayToScriptHash then do
    let nP2SHSigOps ← tx.getP2SHSigOpCount mapInputs
    require (nSigOps + nP2SHSigOps ≤ MAX_BLOCK_SIGOPS) 100 "ConnectBlock() : too many sigops"
    pure (nSigOps + nP2SHSigOps)
  else .ok nSigOps

/-- A transaction with inputs in the loop of `ConnectBlock`. -/
def connectSpending (P : Params) (env : ConnectEnv) (pindex : BlockPtr)
    (fStrictPayToScriptHash : Bool) (posThisTx : CDiskTxPos) (st : ConnectState)
    (tx : CTransaction) : Result ConnectState := do
  let mapInputs ← tx.fetchInputs env st.mapQueuedChanges true false
  let nSigOps ← addP2SHSigOps fStrictPayToScriptHash st.nSigOps tx mapInputs
  let nTxValueIn ← tx.getValueIn mapInputs
  let nTxValueOut ← tx.getValueOut
  let mapQueuedChanges ← tx.connectInputs P env mapInputs st.mapQueuedChanges posThisTx pindex true
    false fStrictPayToScriptHash
  pure { st with
    nSigOps
    mapQueuedChanges
    nValueIn := st.nValueIn + nTxValueIn
    nValueOut := st.nValueOut + nTxValueOut
    nFees := if tx.isCoinStake then st.nFees else st.nFees + (nTxValueIn - nTxValueOut) }

/-- A coinbase in the loop of `ConnectBlock`. -/
def connectCoinBase (st : ConnectState) (tx : CTransaction) : Result ConnectState := do
  let nTxValueOut ← tx.getValueOut
  pure { st with nValueOut := st.nValueOut + nTxValueOut }

/-- The two branches of the loop of `ConnectBlock`. -/
def connectValue (P : Params) (env : ConnectEnv) (pindex : BlockPtr)
    (fStrictPayToScriptHash : Bool) (posThisTx : CDiskTxPos) (st : ConnectState)
    (tx : CTransaction) : Result ConnectState :=
  if tx.isCoinBase then connectCoinBase st tx
  else connectSpending P env pindex fStrictPayToScriptHash posThisTx st tx

/-- One round of the loop of `ConnectBlock`. -/
def connectTransaction (P : Params) (env : ConnectEnv) (pindex : CBlockIndex) (pprev : BlockPtr)
    (fStrictPayToScriptHash : Bool) (st : ConnectState) (tx : CTransaction) :
    Result ConnectState := do
  require (st.nSigOps + tx.getLegacySigOpCount ≤ MAX_BLOCK_SIGOPS) 100
    "ConnectBlock() : too many sigops"
  let posThisTx : CDiskTxPos := ⟨pindex.nFile, pindex.nBlockPos, st.nTxPos⟩
  let st := { st with
    nSigOps := st.nSigOps + tx.getLegacySigOpCount
    nTxPos := st.nTxPos + tx.getSerializeSize }
  let st ← connectValue P env (pindex :: pprev) fStrictPayToScriptHash posThisTx st tx
  pure { st with mapQueuedChanges :=
    st.mapQueuedChanges.insert (P.hashTx tx) (CTxIndex.new posThisTx tx.vout.length) }

/-- The loop of `ConnectBlock`. -/
def connectTransactions (P : Params) (env : ConnectEnv) (pindex : CBlockIndex) (pprev : BlockPtr)
    (fStrictPayToScriptHash : Bool) : List CTransaction → ConnectState → Result ConnectState
  | [], st => .ok st
  | tx :: vtx, st => do
    let st ← connectTransaction P env pindex pprev fStrictPayToScriptHash st tx
    connectTransactions P env pindex pprev fStrictPayToScriptHash vtx st

/-- The rule against overwriting a transaction that still has an unspent output. -/
def CBlock.overwritesUnspent (P : Params) (txIndex : TxIndexMap) (block : CBlock) : Bool :=
  block.vtx.any (fun tx =>
    (txIndex.lookup (P.hashTx tx)).any (fun txindexOld => txindexOld.vSpent.any CDiskTxPos.isNull))

/-- The times at which BIP30 and BIP16 become active. -/
def bip30Active (P : Params) (nTime : Nat) : Bool :=
  1331769600 < nTime || (P.fTestNet && 1329696000 < nTime)

def bip16Active (P : Params) (nTime : Nat) : Bool :=
  (if P.fTestNet then 1329264000 else 1333238400) ≤ nTime

/-- `ConnectBlock` up to its first write: all checks, the queue and the sums. -/
def CBlock.connectChecks (P : Params) (env : ConnectEnv) (nAdjustedTime : Int)
    (pindex : CBlockIndex) (pprev : BlockPtr) (block : CBlock) : Result ConnectState := do
  block.checkBlock P nAdjustedTime
  require (!(bip30Active P pindex.nTime && block.overwritesUnspent P env.txIndex)) 0 ""
  connectTransactions P env pindex pprev (bip16Active P pindex.nTime) block.vtx
    { nTxPos := pindex.nBlockPos + CBlock.headerSize + getSizeOfCompactSize block.vtx.length }

namespace ConnectState

/-- `nMint`: what the block creates, the destroyed fees not counted. -/
def nMint (st : ConnectState) : Int := st.nValueOut - st.nValueIn + st.nFees

/-- The queued changes, written to the index. -/
def writeQueued (st : ConnectState) (txIndex : TxIndexMap) : TxIndexMap :=
  st.mapQueuedChanges ∪ txIndex

end ConnectState

/-! ### `DisconnectBlock` -/

/-- The loop of `DisconnectInputs`: the outputs are marked as not spent. -/
def unspendInputs : List CTxIn → TxIndexMap → Result TxIndexMap
  | [], txIndex => .ok txIndex
  | txin :: vin, txIndex =>
    match txIndex.lookup txin.prevout.hash with
    | none => .error (.error 0 "DisconnectInputs() : ReadTxIndex failed")
    | some txindex =>
      if txin.prevout.n < txindex.vSpent.length then
        unspendInputs vin
          (txIndex.insert txin.prevout.hash (txindex.spend txin.prevout.n CDiskTxPos.null))
      else .error (.error 0 "DisconnectInputs() : prevout.n out of range")

/-- `DisconnectInputs`. -/
def CTransaction.disconnectInputs (P : Params) (txIndex : TxIndexMap) (tx : CTransaction) :
    Result TxIndexMap := do
  let txIndex ← unspendInputs (if tx.isCoinBase then [] else tx.vin) txIndex
  pure (txIndex.erase (P.hashTx tx))

/-- The loop of `DisconnectBlock`, over the transactions in reverse order. -/
def disconnectTransactions (P : Params) : List CTransaction → TxIndexMap → Result TxIndexMap
  | [], txIndex => .ok txIndex
  | tx :: vtx, txIndex => do
    let txIndex ← tx.disconnectInputs P txIndex
    disconnectTransactions P vtx txIndex

/-- `DisconnectBlock` as far as it concerns the index. -/
def CBlock.disconnectIndex (P : Params) (txIndex : TxIndexMap) (block : CBlock) :
    Result TxIndexMap :=
  disconnectTransactions P block.vtx.reverse txIndex

end Peershares
