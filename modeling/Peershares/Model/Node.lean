import Peershares.Model.Connect
import Peershares.Model.Wallet

/-!
# Chain selection

The node: its globals, the database, the memory pool and the registered wallets, with the functions
that move the best chain: `ConnectBlock` and `DisconnectBlock` with all they write, `Reorganize`,
`SetBestChainInner`, `SetBestChain`, `AddToBlockIndex` and `AcceptBlock`.

These functions change state as they go and return `false` in the middle, so they are commands: a
failure keeps what was changed before it. The state has two halves. `Store` is what connecting and
disconnecting a block changes: the database, the sums kept in the block index, and the wallets.
`Globals` is the rest, which these two functions only read.

A disk operation succeeds or fails as the `Host` says, one answer for each operation of a call.
-/

open Framework

namespace Peershares

/-! ### The host -/

/-- The disk operations of a call that can fail; the hash is that of the block they are for. -/
inductive IoStep where
  | txnBegin
  | txnBegin2 (hash : Uint256)
  | txnCommit (hash : Uint256)
  | readFromDisk (hash : Uint256)
  | writeBlockIndex (hash : Uint256)
  | writeBlockIndexPrev (hash : Uint256)
  | updateTxIndex (hash : Uint256)
  | writeHashBestChain (hash : Uint256)
  | checkDiskSpace
  /-- `TxnBegin` and `TxnCommit` of `AddToBlockIndex`. -/
  | addTxnBegin
  | addTxnCommit
  | writeSyncCheckpoint (hash : Uint256)
  | commitSyncCheckpoint (hash : Uint256)
deriving DecidableEq, Repr

/-- What a call meets on the host: which disk operations succeed, the clock, and whether the stake
modifier code lets `AddToBlockIndex` go on (the text is that of its error). -/
structure Host where
  io : IoStep → Bool := fun _ => true
  nAdjustedTime : Int
  stakeError : CBlock → Option String := fun _ => none

/-- `if (!operation) return error(msg);` -/
def Host.require {σ : Type} (H : Host) (step : IoStep) (msg : String) : Command σ Failure Unit :=
  Command.lift (Peershares.require (H.io step) 0 msg)

theorem Host.require_bind {σ α : Type} {H : Host} {step : IoStep} {msg : String}
    {f : Unit → Command σ Failure α} {s : σ} {R : α → σ → Prop} {E : Failure → σ → Prop}
    (hok : H.io step = true → Command.Triple (f ()) s R E)
    (herr : H.io step = false → E (.error 0 msg) s) :
    Command.Triple (H.require step msg >>= f) s R E := by
  unfold Host.require Peershares.require
  cases hio : H.io step with
  | true => exact hok hio
  | false => exact herr hio

/-! ### The memory pool -/

/-- `CTxMemPool`; a `CInPoint` is the hash of the spending transaction and its input. -/
structure CTxMemPool where
  mapTx : Map Uint256 CTransaction := ∅
  mapNextTx : Map COutPoint (Uint256 × Nat) := ∅

namespace CTxMemPool

def addUnchecked (P : Params) (pool : CTxMemPool) (tx : CTransaction) : CTxMemPool where
  mapTx := pool.mapTx.insert (P.hashTx tx) tx
  mapNextTx := tx.vin.zipIdx.foldl
    (fun mapNextTx (txin, i) => mapNextTx.insert txin.prevout (P.hashTx tx, i)) pool.mapNextTx

/-- The checks of `accept` without `fCheckInputs`. -/
def acceptChecks (P : Params) (pool : CTxMemPool) (tx : CTransaction) : Result Unit := do
  require tx.checkTransaction.isOk 0 "CTxMemPool::accept() : CheckTransaction failed"
  require (!tx.isCoinBase) 100 "CTxMemPool::accept() : coinbase as individual tx"
  require (!tx.isCoinStake) 100 "CTxMemPool::accept() : coinstake as individual tx"
  require (tx.nLockTime < 2 ^ 31) 0
    "CTxMemPool::accept() : not accepting nLockTime beyond 2038 yet"
  require (P.fTestNet || tx.isStandard) 0 "CTxMemPool::accept() : nonstandard transaction type"
  require (pool.mapTx.lookup (P.hashTx tx)).isNone 0 ""
  -- replacement is disabled: a conflict with a transaction of the pool is final
  require (tx.vin.all (fun txin => (pool.mapNextTx.lookup txin.prevout).isNone)) 0 ""

/-- `AcceptToMemoryPool(txdb, false)`, as `Reorganize` calls it: the result is not looked at. -/
def accept (P : Params) (pool : CTxMemPool) (tx : CTransaction) : CTxMemPool :=
  match pool.acceptChecks P tx with
  | .ok () => pool.addUnchecked P tx
  | .error _ => pool

def remove (P : Params) (pool : CTxMemPool) (tx : CTransaction) : CTxMemPool :=
  if (pool.mapTx.lookup (P.hashTx tx)).isSome then
    { mapTx := pool.mapTx.erase (P.hashTx tx)
      mapNextTx := tx.vin.foldl (fun mapNextTx txin => mapNextTx.erase txin.prevout) pool.mapNextTx }
  else pool

/-- `mempool.remove(tx)` for each transaction. -/
def removeTxs (P : Params) (vtx : List CTransaction) (pool : CTxMemPool) : CTxMemPool :=
  vtx.foldl (CTxMemPool.remove P) pool

/-- The pool after a reorganisation: the transactions of the disconnected blocks come back, those of
the connected blocks leave. -/
def reorganized (P : Params) (disconnected connected : List CBlock) (pool : CTxMemPool) :
    CTxMemPool :=
  let vResurrect := (disconnected.flatMap CBlock.vtx).filter (fun tx => !tx.isGenerated)
  let vDelete := connected.flatMap CBlock.vtx
  (vResurrect.foldl (CTxMemPool.accept P) pool).removeTxs P vDelete

end CTxMemPool

/-! ### The state of a node -/

/-- The globals of `main.cpp` and `checkpoints.cpp`, with the block files. -/
structure Globals where
  mapBlockIndex : Map Uint256 BlockPtr := ∅
  /-- `pindex->pnext`, by the hash of `pindex`. -/
  pnext : Uint256 → BlockPtr := fun _ => []
  pindexGenesisBlock : BlockPtr := []
  pindexBest : BlockPtr := []
  hashBestChain : Uint256 := 0
  nBestHeight : Int := -1
  bnBestChainTrust : Int := 0
  bnBestInvalidTrust : Int := 0
  files : BlockFiles := {}
  mempool : CTxMemPool := {}
  hashSyncCheckpoint : Uint256 := 0
  hashPendingCheckpoint : Uint256 := 0
  hashInvalidCheckpoint : Uint256 := 0

/-- What connecting and disconnecting blocks changes. -/
structure Store where
  txdb : CTxDB := {}
  /-- `pindex->nMint` and `pindex->nMoneySupply`, by the hash of `pindex`. -/
  nMint : Uint256 → Int := fun _ => 0
  nMoneySupply : Uint256 → Int := fun _ => 0
  /-- `setpwalletRegistered`. -/
  wallets : List CWallet := []

structure Node extends Globals, Store

/-- A command on the store, which reads the globals. -/
def onStore {α : Type} (x : Globals → Command Store Failure α) : Command Node Failure α :=
  Command.onPart Node.toStore (fun n s => { n with toStore := s }) (fun n => x n.toGlobals)

namespace Store

/-- A database write. -/
def write (f : TxDbData → TxDbData) : Command Store Failure Unit :=
  Command.modify (fun s => { s with txdb := s.txdb.update f })

def txnBegin (H : Host) (step : IoStep) (msg : String) : Command Store Failure Unit := do
  H.require step msg
  Command.modify (fun s => { s with txdb := s.txdb.txnBegin })

/-- `TxnAbort`; without an open transaction it does nothing. -/
def txnAbort (s : Store) : Store := { s with txdb := s.txdb.txnAbort }

/-- `TxnCommit`; a commit that fails ends the transaction as well. -/
def txnCommit (H : Host) (hash : Uint256) (msg : String) : Command Store Failure Unit := fun s =>
  if H.io (.txnCommit hash) then (.ok (), { s with txdb := s.txdb.txnCommit })
  else (.error (.error 0 msg), s.txnAbort)

/-- `WriteHashBestChain`. -/
def writeHashBestChain (H : Host) (hash : Uint256) (msg : String) : Command Store Failure Unit := do
  H.require (.writeHashBestChain hash) msg
  write (fun db => { db with hashBestChain := some hash })

/-- `CDiskBlockIndex(pindex)`. -/
def diskIndex (g : Globals) (s : Store) (pindex : CBlockIndex) (pprev : BlockPtr) :
    CDiskBlockIndex where
  index := pindex
  hashPrev := pprev.hash
  hashNext := (g.pnext pindex.hashBlock).hash
  nMint := s.nMint pindex.hashBlock
  nMoneySupply := s.nMoneySupply pindex.hashBlock

/-- `WriteBlockIndex(blockindex)`. -/
def writeBlockIndex (blockindex : CDiskBlockIndex) : Command Store Failure Unit :=
  write (fun db =>
    { db with blockIndex := db.blockIndex.insert blockindex.index.hashBlock blockindex })

/-- The record of the parent, with another `hashNext`. -/
def writeBlockIndexPrev (H : Host) (g : Globals) (pindex : CBlockIndex) (pprev : BlockPtr)
    (hashNext : Uint256) (msg : String) : Command Store Failure Unit :=
  match pprev with
  | [] => pure ()
  | pindexPrev :: pprevPrev => do
    H.require (.writeBlockIndexPrev pindex.hashBlock) msg
    let s ← Command.get
    writeBlockIndex { s.diskIndex g pindexPrev pprevPrev with hashNext := hashNext }

/-- `SyncWithWallets` for each transaction of a block. -/
def syncBlock (P : Params) (fConnect : Bool) (block : CBlock) : Command Store Failure Unit :=
  Command.onPart wallets (fun s wallets => { s with wallets })
    (fun _ => Command.forList (syncWithWallets P fConnect) block.vtx)

/-- `pindex->nMint` and `pindex->nMoneySupply` are set in memory at once. -/
def setSupply (pindex : CBlockIndex) (pprev : BlockPtr) (st : ConnectState) (s : Store) : Store :=
  { s with
    nMint := Function.update s.nMint pindex.hashBlock st.nMint
    nMoneySupply := Function.update s.nMoneySupply pindex.hashBlock
      ((if pprev.isEmpty then 0 else s.nMoneySupply pprev.hash) + st.nValueOut - st.nValueIn) }

end Store

/-- What `ConnectBlock` reads. -/
def Globals.connectEnv (g : Globals) (txIndex : TxIndexMap) : ConnectEnv where
  files := g.files
  txIndex := txIndex
  mempool := g.mempool.mapTx
  nBestHeight := g.nBestHeight

/-! ### `ConnectBlock` and `DisconnectBlock` -/

namespace CBlock

/-- `ConnectBlock`. When one of the writes of the queue fails the transaction is aborted, so it does
not matter which. -/
def connectBlock (P : Params) (H : Host) (g : Globals) (block : CBlock) (pindex : CBlockIndex)
    (pprev : BlockPtr) : Command Store Failure Unit := do
  let s ← Command.get
  let st ← Command.lift (block.connectChecks P (g.connectEnv s.txdb.view.txIndex) H.nAdjustedTime
    pindex pprev)
  Command.modify (Store.setSupply pindex pprev st)
  H.require (.writeBlockIndex pindex.hashBlock) "Connect() : WriteBlockIndex for pindex failed"
  let s ← Command.get
  Store.writeBlockIndex (s.diskIndex g pindex pprev)
  H.require (.updateTxIndex pindex.hashBlock) "ConnectBlock() : UpdateTxIndex failed"
  Store.write (fun db => { db with txIndex := st.writeQueued db.txIndex })
  Store.writeBlockIndexPrev H g pindex pprev pindex.hashBlock
    "ConnectBlock() : WriteBlockIndex for blockindexPrev failed"
  Store.syncBlock P true block

/-- `DisconnectBlock`. -/
def disconnectBlock (P : Params) (H : Host) (g : Globals) (block : CBlock) (pindex : CBlockIndex)
    (pprev : BlockPtr) : Command Store Failure Unit := do
  let s ← Command.get
  let txIndex ← Command.lift (block.disconnectIndex P s.txdb.view.txIndex)
  H.require (.updateTxIndex pindex.hashBlock) "DisconnectInputs() : UpdateTxIndex failed"
  Store.write (fun db => { db with txIndex })
  Store.writeBlockIndexPrev H g pindex pprev 0 "DisconnectBlock() : WriteBlockIndex failed"
  Store.syncBlock P false block

end CBlock

/-- `CBlock::ReadFromDisk(pindex)`. -/
def readFromDisk (P : Params) (H : Host) (files : BlockFiles) (pindex : CBlockIndex) :
    Result CBlock := do
  require (H.io (.readFromDisk pindex.hashBlock)) 0 "CBlock::ReadFromDisk() : OpenBlockFile failed"
  match files.readBlock pindex.nFile pindex.nBlockPos with
  | none => .error (.error 0 "%s() : deserialize or I/O error")
  | some block =>
    require (block.isProofOfStake || (checkProofOfWork (block.getHash P) block.nBits).isOk) 0
      "CBlock::ReadFromDisk() : errors in block header"
    require (block.getHash P = pindex.hashBlock) 0
      "CBlock::ReadFromDisk() : GetHash() doesn't match index"
    pure block

/-! ### `Reorganize` -/

namespace BlockPtr

/-- `while (plonger->nHeight > nHeight) plonger = plonger->pprev;`, `none` when there is no parent. -/
def lowerTo (nHeight : Nat) : BlockPtr → Option BlockPtr
  | [] => none
  | pindex :: pprev =>
    if nHeight < pindex.nHeight then lowerTo nHeight pprev else some (pindex :: pprev)

/-- The fork of two branches, as `Reorganize` finds it. -/
def findFork : BlockPtr → BlockPtr → Result BlockPtr
  | [], _ => .error (.error 0 "Reorganize() : pfork->pprev is null")
  | pindex :: pprev, plonger =>
    if pindex :: pprev = plonger then .ok (pindex :: pprev)
    else
      match lowerTo pindex.nHeight plonger with
      | none => .error (.error 0 "Reorganize() : plonger->pprev is null")
      | some plonger =>
        if pindex :: pprev = plonger then .ok (pindex :: pprev) else findFork pprev plonger

/-- The blocks above `pfork`, highest first: `for (; pindex != pfork; pindex = pindex->pprev)`. -/
def above (pfork : BlockPtr) : BlockPtr → List (CBlockIndex × BlockPtr)
  | [] => []
  | pindex :: pprev => if pindex :: pprev = pfork then [] else (pindex, pprev) :: above pfork pprev

/-- The blocks that `SetBestChain` postpones, highest first, and `pindexIntermediate` below them. -/
def postpone (bnBestTrust : Int) : BlockPtr → List (CBlockIndex × BlockPtr) × BlockPtr
  | [] => ([], [])
  | pindex :: pprev =>
    if pprev ≠ [] ∧ bnBestTrust < BlockPtr.bnChainTrust pprev then
      ((pindex, pprev) :: (postpone bnBestTrust pprev).1, (postpone bnBestTrust pprev).2)
    else ([], pindex :: pprev)

end BlockPtr

/-- A loop of `Reorganize` over a branch: each block is read and handed to `step`. The blocks are
returned. -/
def forBranch (P : Params) (H : Host) (g : Globals) (msgRead : String)
    (step : CBlock → CBlockIndex → BlockPtr → Command Store Failure Unit) :
    List (CBlockIndex × BlockPtr) → Command Store Failure (List CBlock)
  | [] => pure []
  | (pindex, pprev) :: branch => do
    let block ← (Command.lift (readFromDisk P H g.files pindex)).onFailure Failure.isReturn id
      (.error 0 msgRead)
    step block pindex pprev
    let blocks ← forBranch P H g msgRead step branch
    pure (block :: blocks)

/-- "Disconnect shorter branch". -/
def disconnectBranch (P : Params) (H : Host) (g : Globals) :
    List (CBlockIndex × BlockPtr) → Command Store Failure (List CBlock) :=
  forBranch P H g "Reorganize() : ReadFromDisk for disconnect failed" (fun block pindex pprev =>
    (block.disconnectBlock P H g pindex pprev).onFailure Failure.isReturn id
      (.error 0 "Reorganize() : DisconnectBlock %s failed"))

/-- "Connect longer branch". An invalid block aborts the transaction at once. -/
def connectBranch (P : Params) (H : Host) (g : Globals) :
    List (CBlockIndex × BlockPtr) → Command Store Failure (List CBlock) :=
  forBranch P H g "Reorganize() : ReadFromDisk for connect failed" (fun block pindex pprev =>
    (block.connectBlock P H g pindex pprev).onFailure Failure.isReturn Store.txnAbort
      (.error 0 "Reorganize() : ConnectBlock %s failed"))

/-- The database transaction of `Reorganize`. -/
def reorganizeStore (P : Params) (H : Host) (vDisconnect vConnect : List (CBlockIndex × BlockPtr))
    (pindexNew : BlockPtr) (g : Globals) : Command Store Failure (List CBlock × List CBlock) := do
  let disconnected ← disconnectBranch P H g vDisconnect
  let connected ← connectBranch P H g vConnect
  Store.writeHashBestChain H pindexNew.hash "Reorganize() : WriteHashBestChain failed"
  Store.txnCommit H pindexNew.hash "Reorganize() : TxnCommit failed"
  pure (disconnected, connected)

namespace Globals

/-- `if (pindex->pprev) pindex->pprev->pnext = pnext;` -/
def setNext (pprev pnext : BlockPtr) (g : Globals) : Globals :=
  if pprev.isEmpty then g else { g with pnext := Function.update g.pnext pprev.hash pnext }

/-- The links after a reorganisation: the disconnected branch is cut off, the other one linked. -/
def relink (vDisconnect vConnect : List (CBlockIndex × BlockPtr)) (g : Globals) : Globals :=
  vConnect.foldl (fun g x => g.setNext x.2 (x.1 :: x.2))
    (vDisconnect.foldl (fun g x => g.setNext x.2 []) g)

/-- What `Reorganize` changes in memory once the database has committed. -/
def reorganized (P : Params) (vDisconnect vConnect : List (CBlockIndex × BlockPtr))
    (disconnected connected : List CBlock) (g : Globals) : Globals :=
  { g.relink vDisconnect vConnect with
    mempool := g.mempool.reorganized P disconnected connected }

/-- `InvalidChainFound`. -/
def invalidChainFound (pindexNew : BlockPtr) (g : Globals) : Globals :=
  if g.bnBestInvalidTrust < pindexNew.bnChainTrust then
    { g with bnBestInvalidTrust := pindexNew.bnChainTrust }
  else g

end Globals

/-- `Reorganize`. -/
def reorganize (P : Params) (H : Host) (pindexNew : BlockPtr) : Command Node Failure Unit := do
  let n ← Command.get
  let pfork ← Command.lift (BlockPtr.findFork n.pindexBest pindexNew)
  let vDisconnect := BlockPtr.above pfork n.pindexBest
  let vConnect := (BlockPtr.above pfork pindexNew).reverse
  let (disconnected, connected) ← onStore (reorganizeStore P H vDisconnect vConnect pindexNew)
  Command.modify (fun n => { n with
    toGlobals := n.toGlobals.reorganized P vDisconnect vConnect disconnected connected })

/-! ### `SetBestChain` -/

/-- What follows a failure inside the database transaction of `SetBestChain`. -/
def Node.invalidChain (pindexNew : BlockPtr) (n : Node) : Node where
  toGlobals := n.toGlobals.invalidChainFound pindexNew
  toStore := n.toStore.txnAbort

/-- `SetBestChainInner`. It does not ask whether there is a parent to link. -/
def setBestChainInner (P : Params) (H : Host) (block : CBlock) (pindex : CBlockIndex)
    (pprev : BlockPtr) : Command Node Failure Unit := do
  (onStore (fun g => do
    block.connectBlock P H g pindex pprev
    Store.writeHashBestChain H (block.getHash P) "")).onFailure Failure.isReturn
      (Node.invalidChain (pindex :: pprev)) (.error 0 "")
  onStore (fun _ => Store.txnCommit H (block.getHash P) "SetBestChain() : TxnCommit failed")
  match pprev with
  | [] => Command.fail .assertion
  | _ :: _ => Command.modify (fun n => { n with
      toGlobals := { n.toGlobals.setNext pprev (pindex :: pprev) with
        mempool := n.mempool.removeTxs P block.vtx } })

/-- "Connect further blocks": a postponed block that fails ends the loop, and the rest is left
unconnected. The result says whether all were connected; the source does not look at it. -/
def connectPostponed (P : Params) (H : Host) :
    List (CBlockIndex × BlockPtr) → Command Node Failure Bool
  | [] => pure true
  | (pindex, pprev) :: vpindexSecondary => fun n =>
    match readFromDisk P H n.files pindex with
    | .error e => if e.isReturn then (.ok false, n) else (.error e, n)
    | .ok block =>
      if !H.io (.txnBegin2 pindex.hashBlock) then (.ok false, n)
      else
        match setBestChainInner P H block pindex pprev
            { n with toStore := { n.toStore with txdb := n.txdb.txnBegin } } with
        | (.ok (), n') => connectPostponed P H vpindexSecondary n'
        | (.error e, n') => if e.isReturn then (.ok false, n') else (.error e, n')

/-- "New best block". -/
def Globals.newBest (hash : Uint256) (pindexNew : BlockPtr) (g : Globals) : Globals :=
  { g with
    hashBestChain := hash
    pindexBest := pindexNew
    nBestHeight := pindexNew.nHeight
    bnBestChainTrust := pindexNew.bnChainTrust }

/-- The branch of `SetBestChain` for genesis. The result of `WriteHashBestChain` is not looked at
by the source; it is returned here. -/
def setBestChainGenesis (H : Host) (hash : Uint256) (pindexNew : BlockPtr) :
    Command Node Failure Bool := do
  onStore (fun _ => Store.write (fun db => { db with
    hashBestChain := if H.io (.writeHashBestChain hash) then some hash else db.hashBestChain }))
  onStore (fun _ => Store.txnCommit H hash "SetBestChain() : TxnCommit failed")
  Command.modify (fun n => { n with pindexGenesisBlock := pindexNew })
  pure (H.io (.writeHashBestChain hash))

/-- The branch of `SetBestChain` that leaves the current best chain. -/
def setBestChainSwitch (P : Params) (H : Host) (pindexNew : BlockPtr) :
    Command Node Failure Bool := do
  let n ← Command.get
  let (vpindexSecondary, pindexIntermediate) := pindexNew.postpone n.pindexBest.bnChainTrust
  (reorganize P H pindexIntermediate).onFailure Failure.isReturn (Node.invalidChain pindexNew)
    (.error 0 "SetBestChain() : Reorganize failed")
  connectPostponed P H vpindexSecondary.reverse

/-- The three branches of `SetBestChain`. -/
def setBestChainBranch (P : Params) (H : Host) (block : CBlock) (pindexNew : BlockPtr) :
    Command Node Failure Bool := do
  let n ← Command.get
  if n.pindexGenesisBlock = [] ∧ block.getHash P = P.hashGenesisBlock then
    setBestChainGenesis H (block.getHash P) pindexNew
  else if block.hashPrevBlock = n.hashBestChain then
    match pindexNew with
    | [] => Command.fail .assertion
    | pindex :: pprev => do
      (setBestChainInner P H block pindex pprev).onFailure Failure.isReturn id
        (.error 0 "SetBestChain() : SetBestChainInner failed")
      pure true
  else setBestChainSwitch P H pindexNew

/-- `SetBestChain`. It returns whether every block up to `pindexNew` was connected, or, for genesis,
whether its hash was written; the source returns `true` in both cases. -/
def setBestChain (P : Params) (H : Host) (block : CBlock) (pindexNew : BlockPtr) :
    Command Node Failure Bool := do
  onStore (fun _ => Store.txnBegin H .txnBegin "SetBestChain() : TxnBegin failed")
  let fComplete ← setBestChainBranch P H block pindexNew
  Command.modify (fun n => { n with
    toGlobals := n.toGlobals.newBest (block.getHash P) pindexNew })
  pure fComplete

/-! ### New blocks -/

/-- The destructor of a `CTxDB` aborts what is open. -/
def Node.closeTxDb (n : Node) : Node := { n with txdb := { n.txdb with vTxn := [] } }

/-- Run a command with a `CTxDB` of its own. -/
def withTxDb {α : Type} (x : Command Node Failure α) : Command Node Failure α := fun n =>
  match x n with
  | (r, n') => (r, n'.closeTxDb)

/-- The entry of a new block in `mapBlockIndex`. -/
def Node.insertBlockIndex (pindexNew : BlockPtr) (n : Node) : Node :=
  { n with mapBlockIndex := n.mapBlockIndex.insert pindexNew.hash pindexNew }

/-- `AddToBlockIndex`. Without a parent in `mapBlockIndex`, `pprev` is null. -/
def addToBlockIndex (P : Params) (H : Host) (nFile nBlockPos : Nat) (block : CBlock) :
    Command Node Failure Unit := do
  let n ← Command.get
  Command.lift (require (n.mapBlockIndex.lookup (block.getHash P)).isNone 0
    "AddToBlockIndex() : %s already exists")
  let pprev := (n.mapBlockIndex.lookup block.hashPrevBlock).getD []
  let pindexNew := block.newIndex P pprev nFile nBlockPos
  Command.lift (match H.stakeError block with | none => .ok () | some msg => .error (.error 0 msg))
  Command.modify (Node.insertBlockIndex (pindexNew :: pprev))
  withTxDb (do
    onStore (fun _ => Store.txnBegin H .addTxnBegin "")
    onStore (fun g => do
      let s ← Command.get
      Store.writeBlockIndex (s.diskIndex g pindexNew pprev))
    if !H.io .addTxnCommit then
      Command.modify (fun n => { n with toStore := n.toStore.txnAbort })
      Command.fail (.error 0 "")
    Command.modify (fun n => { n with txdb := n.txdb.txnCommit })
    let n ← Command.get
    if n.bnBestChainTrust < pindexNew.bnChainTrust then
      (do let _ ← setBestChain P H block (pindexNew :: pprev)).onFailure Failure.isReturn id
        (.error 0 ""))

end Peershares
