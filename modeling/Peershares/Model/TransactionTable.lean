import Mathlib.Data.List.Sort
import Peershares.Framework.Rows
import Peershares.Model.Balance
import Peershares.Model.Base58

/-!
# The table of transactions

`TransactionRecord` of `qt/transactionrecord.cpp` and `TransactionTablePriv` of `qt/transactiontablemodel.cpp`: how a
wallet transaction is decomposed into the records that are shown, and how the list of all records is built and
updated. The status of a record is not modelled; it is asked for when a record is shown.

Amounts are in the money range when they are taken from outputs, so their sums stay in an `int64`. What a query
writes to the caches of a transaction is what it returned. A map is gone through in the order of its keys.
-/

open Framework

namespace Peershares

/-! ### Records -/

/-- `TransactionRecord::Type`. -/
inductive TransactionType where
  | Other
  | Generated
  | SendToAddress
  | SendToOther
  | RecvWithAddress
  | RecvFromOther
  | SendToSelf
  | StakeMint
deriving DecidableEq, Repr

structure TransactionRecord where
  hash : Uint256
  time : Nat
  type : TransactionType := .Other
  address : List UInt8 := []
  debit : Int := 0
  credit : Int := 0
  /-- The number of the record in its transaction. -/
  idx : Nat := 0
deriving DecidableEq, Repr

/-- A wallet as the table reads it. -/
structure TableWallet (P : Params) extends AccountWallet where
  /-- `GetTxTime`, by the hash of the transaction. -/
  nTimeReceived : Uint256 → Nat := fun _ => 0
  /-- `mapValue` of a wallet transaction, by its hash. -/
  mapValue : Uint256 → OrderedMap (List UInt8) (List UInt8) := fun _ => OrderedMap.empty
  keyed : ∀ hash wtx, mapWallet.lookup hash = some wtx → P.hashTx wtx.tx = hash

namespace TransactionRecord

/-- `showTransaction`. -/
def showTransaction (chain : ChainView) (wtx : CachedTx) : Bool := !(wtx.tx.isCoinBase && chain.depth wtx < 2)

section Decompose

variable {P : Params} (hash : List UInt8 → List UInt8) (wallet : TableWallet P)

/-- `wallet->IsMine(txin)`. -/
def isMineIn (txin : CTxIn) : Bool :=
  match wallet.mapWallet.lookup txin.prevout.hash with
  | none => false
  | some prev =>
    match prev.tx.vout[txin.prevout.n]? with
    | none => false
    | some txout => wallet.isMine P txout

/-- `mapValue["from"]` and the like, in a copy. -/
def valueOf (wtx : CachedTx) (key : List UInt8) : List UInt8 :=
  ((wallet.mapValue (P.hashTx wtx.tx)).lookup key).getD []

/-- The record of an own output. -/
def creditRecord (wtx : CachedTx) (txout : CTxOut) (idx : Nat) : TransactionRecord :=
  let sub : TransactionRecord :=
    { hash := P.hashTx wtx.tx, time := wallet.nTimeReceived (P.hashTx wtx.tx), idx, credit := txout.nValue }
  if wtx.tx.isCoinBase then { sub with type := .Generated }
  else
    match extractAddress P txout.scriptPubKey with
    | some address =>
      if address ∈ wallet.keystore.mapKeys then
        { sub with type := .RecvWithAddress, address := address.toText hash }
      else { sub with type := .RecvFromOther, address := valueOf wallet wtx [102, 114, 111, 109] }
    | none => { sub with type := .RecvFromOther, address := valueOf wallet wtx [102, 114, 111, 109] }

/-- "Credit": the own outputs, one by one. -/
def creditRecords (wtx : CachedTx) : List CTxOut → Nat → List TransactionRecord
  | [], _ => []
  | txout :: vout, idx =>
    if wallet.isMine P txout then creditRecord hash wallet wtx txout idx :: creditRecords wtx vout (idx + 1)
    else creditRecords wtx vout idx

/-- The record of a payment of `nValue`. -/
def debitRecord (wtx : CachedTx) (txout : CTxOut) (nValue : Int) (idx : Nat) : TransactionRecord :=
  let sub : TransactionRecord :=
    { hash := P.hashTx wtx.tx, time := wallet.nTimeReceived (P.hashTx wtx.tx), idx, debit := -nValue }
  match extractAddress P txout.scriptPubKey with
  | some address => { sub with type := .SendToAddress, address := address.toText hash }
  | none => { sub with type := .SendToOther, address := valueOf wallet wtx [116, 111] }

/-- "Debit": the outputs of others, one by one. The fee is added to the first one. -/
def debitRecords (wtx : CachedTx) : List CTxOut → Nat → Int → List TransactionRecord
  | [], _, _ => []
  | txout :: vout, idx, nTxFee =>
    -- "Ignore parts sent to self, as this is usually the change"
    if wallet.isMine P txout then debitRecords wtx vout idx nTxFee
    else if 0 < nTxFee then
      debitRecord hash wallet wtx txout (txout.nValue + nTxFee) idx :: debitRecords wtx vout (idx + 1) 0
    else debitRecord hash wallet wtx txout txout.nValue idx :: debitRecords wtx vout (idx + 1) nTxFee

/-- The records of a transaction that is shown. -/
def shownRecords (wtx : CachedTx) (nCredit nDebit : Int) : Result (List TransactionRecord) :=
  let sub : TransactionRecord :=
    { hash := P.hashTx wtx.tx, time := wallet.nTimeReceived (P.hashTx wtx.tx) }
  let nNet := nCredit - nDebit
  let fAllFromMe := wtx.tx.vin.all (isMineIn wallet)
  let fAllToMe := wtx.tx.vout.all (wallet.isMine P)
  if wtx.tx.isCoinStake then do
    let nValueOut ← wtx.tx.getValueOut
    pure [{ sub with type := .StakeMint, debit := -nDebit, credit := nValueOut }]
  else if 0 < nNet ∨ wtx.tx.isCoinBase then pure (creditRecords hash wallet wtx wtx.tx.vout 0)
  else if fAllFromMe ∧ fAllToMe then do
    -- Payment to self
    let nChange ← (wtx.getChange P wallet.toCacheWallet).1
    pure [{ sub with type := .SendToSelf, debit := -(nDebit - nChange), credit := nCredit - nChange }]
  else if fAllFromMe then do
    let nValueOut ← wtx.tx.getValueOut
    pure (debitRecords hash wallet wtx wtx.tx.vout 0 (nDebit - nValueOut))
  else
    -- Mixed debit transaction, can't break down payees
    pure [{ sub with type := .Other, debit := nNet }]

/-- `decomposeTransaction`. -/
def decomposeTransaction (chain : ChainView) (wtx : CachedTx) : Result (List TransactionRecord) := do
  let nCredit ← (wtx.getCredit P wallet.toCacheWallet true (chain.blocksToMaturity P wtx)).1
  let nDebit ← (wtx.getDebit P wallet.toCacheWallet).1
  if showTransaction chain wtx then shownRecords hash wallet wtx nCredit nDebit else pure []

end Decompose

end TransactionRecord

/-! ### The list of all records -/

namespace TransactionTablePriv

open TransactionRecord

variable {P : Params} (hash : List UInt8 → List UInt8)

/-- The loop of `refreshWallet`. -/
def appendAll (chain : ChainView) (wallet : TableWallet P) :
    List Uint256 → List TransactionRecord → Result (List TransactionRecord)
  | [], cachedWallet => pure cachedWallet
  | key :: keys, cachedWallet =>
    match wallet.mapWallet.lookup key with
    | none => appendAll chain wallet keys cachedWallet
    | some wtx => do
      let parts ← decomposeTransaction hash wallet chain wtx
      appendAll chain wallet keys (cachedWallet ++ parts)

/-- `refreshWallet`. -/
def refreshWallet (chain : ChainView) (wallet : TableWallet P) : Result (List TransactionRecord) :=
  appendAll hash chain wallet (wallet.mapWallet.keys.mergeSort (· ≤ ·)) []

/-- `qLowerBound(cachedWallet.begin(), cachedWallet.end(), hash, TxLessThan())`, as an index. -/
def qLowerBound (cachedWallet : List TransactionRecord) (key : Uint256) : Nat :=
  bisect (fun rec => decide (rec.hash < key)) cachedWallet 0 cachedWallet.length

/-- `qUpperBound`, likewise. -/
def qUpperBound (cachedWallet : List TransactionRecord) (key : Uint256) : Nat :=
  bisect (fun rec => !decide (key < rec.hash)) cachedWallet 0 cachedWallet.length

/-- The loop that inserts the records of a new transaction. -/
def insertRows (cachedWallet : List TransactionRecord) : Nat → List TransactionRecord → List TransactionRecord
  | _, [] => cachedWallet
  | insert_idx, rec :: toInsert => insertRows (cachedWallet.insertIdx insert_idx rec) (insert_idx + 1) toInsert

/-- A round of the loop of `updateWallet`. -/
def updateOne (chain : ChainView) (wallet : TableWallet P) (cachedWallet : List TransactionRecord) (key : Uint256) :
    Result (List TransactionRecord) :=
  let lowerIndex := qLowerBound cachedWallet key
  let upperIndex := qUpperBound cachedWallet key
  let inModel := lowerIndex ≠ upperIndex
  match wallet.mapWallet.lookup key with
  | some wtx =>
    if ¬ inModel then do
      -- Added -- insert at the right position
      let toInsert ← decomposeTransaction hash wallet chain wtx
      pure (insertRows cachedWallet lowerIndex toInsert)
    else
      -- Updated -- nothing to do, status update will take care of this
      pure cachedWallet
  | none =>
    -- Removed -- remove entire transaction from table
    if inModel then pure (cachedWallet.take lowerIndex ++ cachedWallet.drop upperIndex) else pure cachedWallet

/-- `updateWallet`: the hashes are gone through from the greatest to the least. -/
def updateWallet (chain : ChainView) (wallet : TableWallet P) (updated : List Uint256)
    (cachedWallet : List TransactionRecord) : Result (List TransactionRecord) :=
  (updated.mergeSort (· ≤ ·)).reverse.foldlM (updateOne hash chain wallet) cachedWallet

end TransactionTablePriv

end Peershares
