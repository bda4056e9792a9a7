import Peershares.Model.Node

/-!
# Synchronized checkpoints and the arrival of blocks

The functions of `checkpoints.cpp` that read and move `hashSyncCheckpoint`, and `AcceptBlock`, which
asks `CheckSync` before it lets a block in and `AcceptPendingSyncCheckpoint` afterwards.

Messages to peers are left out, and with them `checkpointMessage`, which nothing here reads. A
checkpoint message is its hash: `CheckSignature` has accepted it.
-/

open Framework

namespace Peershares

/-- `pindex->IsInMainChain()`. -/
def Globals.isInMainChain (g : Globals) (pindex : BlockPtr) : Bool :=
  !(g.pnext pindex.hash).isEmpty || pindex = g.pindexBest

/-! ### `CheckSync` -/

/-- `while (pindex->nHeight > nHeight) pindex = pindex->pprev;`, and the hash found is compared. -/
def BlockPtr.ancestorHasHash (pindex : BlockPtr) (nHeight : Nat) (hash : Uint256) : Bool :=
  match pindex.lowerTo nHeight with
  | none => false
  | some pindex => pindex.nHeight = nHeight && pindex.hash = hash

/-- `Checkpoints::CheckSync`. -/
def Globals.checkSync (P : Params) (g : Globals) (hashBlock : Uint256) (pindexPrev : BlockPtr) :
    Result Bool :=
  if P.fTestNet then .ok true
  else
    match g.mapBlockIndex.lookup g.hashSyncCheckpoint with
    | none => .error .assertion
    | some pindexSync =>
      let nHeight := pindexPrev.nHeight + 1
      if pindexSync.nHeight < nHeight
          && !pindexPrev.ancestorHasHash pindexSync.nHeight g.hashSyncCheckpoint then
        .ok false
      else if nHeight = pindexSync.nHeight && hashBlock ≠ g.hashSyncCheckpoint then .ok false
      else if nHeight < pindexSync.nHeight && (g.mapBlockIndex.lookup hashBlock).isNone then .ok false
      else .ok true

/-! ### Moving the checkpoint -/

/-- `ValidateSyncCheckpoint`: `hashInvalidCheckpoint` is set when the new checkpoint contradicts the
current one. -/
def Globals.validateSyncCheckpoint (g : Globals) (hashCheckpoint : Uint256) : Bool × Globals :=
  match g.mapBlockIndex.lookup g.hashSyncCheckpoint, g.mapBlockIndex.lookup hashCheckpoint with
  | none, _ => (false, g)
  | some _, none => (false, g)
  | some pindexSyncCheckpoint, some pindexCheckpointRecv =>
    if pindexCheckpointRecv.nHeight ≤ pindexSyncCheckpoint.nHeight then
      -- an older checkpoint: the current one should be a descendant of it
      match pindexSyncCheckpoint.lowerTo pindexCheckpointRecv.nHeight with
      | none => (false, g)
      | some pindex =>
        if pindex.hash ≠ hashCheckpoint then
          (false, { g with hashInvalidCheckpoint := hashCheckpoint })
        else (false, g)
    else
      match pindexCheckpointRecv.lowerTo pindexSyncCheckpoint.nHeight with
      | none => (false, g)
      | some pindex =>
        if pindex.hash ≠ g.hashSyncCheckpoint then
          (false, { g with hashInvalidCheckpoint := hashCheckpoint })
        else (true, g)

/-- `ValidateSyncCheckpoint` on the node. -/
def validateSyncCheckpoint (hashCheckpoint : Uint256) : Command Node Failure Bool := fun n =>
  match n.toGlobals.validateSyncCheckpoint hashCheckpoint with
  | (fValid, g) => (.ok fValid, { n with toGlobals := g })

/-- `Checkpoints::WriteSyncCheckpoint`, with a database handle of its own: memory follows once the
hash is committed. -/
def writeSyncCheckpoint (H : Host) (hashCheckpoint : Uint256) : Command Node Failure Unit := do
  H.require (.writeSyncCheckpoint hashCheckpoint)
    "WriteSyncCheckpoint(): failed to write to db sync checkpoint %s"
  H.require (.commitSyncCheckpoint hashCheckpoint)
    "WriteSyncCheckpoint(): failed to commit to db sync checkpoint %s"
  Command.modify (fun n => { n with
    txdb := { n.txdb with
      committed := { n.txdb.committed with hashSyncCheckpoint := some hashCheckpoint } }
    hashSyncCheckpoint := hashCheckpoint })

/-- `mapBlockIndex[hash]`, for a hash that is there. -/
def Globals.blockPtr (g : Globals) (hash : Uint256) : BlockPtr := (g.mapBlockIndex.lookup hash).getD []

/-- "checkpoint chain received but not yet main chain": the block is read and made the best. -/
def setBestToCheckpoint (P : Params) (H : Host) (hashCheckpoint : Uint256)
    (msgRead msgSet : String) (onInvalid : Node → Node) : Command Node Failure Unit := do
  let n ← Command.get
  let pindexCheckpoint := n.blockPtr hashCheckpoint
  if n.isInMainChain pindexCheckpoint then pure ()
  else
    match pindexCheckpoint with
    | [] => Command.fail .assertion
    | pindex :: pprev => do
      let block ← (Command.lift (readFromDisk P H n.files pindex)).onFailure Failure.isReturn id
        (.error 0 msgRead)
      (withTxDb (do let _ ← setBestChain P H block (pindex :: pprev))).onFailure Failure.isReturn
        onInvalid (.error 0 msgSet)

/-- `ProcessSyncCheckpoint`, after `CheckSignature`. -/
def processSyncCheckpoint (P : Params) (H : Host) (hashCheckpoint : Uint256) :
    Command Node Failure Unit := do
  let n ← Command.get
  if (n.mapBlockIndex.lookup hashCheckpoint).isNone then do
    -- the chain of the checkpoint has not arrived: keep it as pending
    Command.modify (fun n => { n with hashPendingCheckpoint := hashCheckpoint })
    Command.fail (.error 0 "")
  let fValid ← validateSyncCheckpoint hashCheckpoint
  Command.lift (require fValid 0 "")
  setBestToCheckpoint P H hashCheckpoint
    "ProcessSyncCheckpoint: ReadFromDisk failed for sync checkpoint %s"
    "ProcessSyncCheckpoint: SetBestChain failed for sync checkpoint %s"
    (fun n => { n with hashInvalidCheckpoint := hashCheckpoint })
  (writeSyncCheckpoint H hashCheckpoint).onFailure Failure.isReturn id
    (.error 0 "ProcessSyncCheckpoint(): failed to write sync checkpoint %s")
  Command.modify (fun n => { n with hashPendingCheckpoint := 0 })

/-- `AcceptPendingSyncCheckpoint`. -/
def acceptPendingSyncCheckpoint (P : Params) (H : Host) : Command Node Failure Unit := do
  let n ← Command.get
  let hashPending := n.hashPendingCheckpoint
  Command.lift (require (hashPending ≠ 0 && (n.mapBlockIndex.lookup hashPending).isSome) 0 "")
  let fValid ← validateSyncCheckpoint hashPending
  if !fValid then do
    Command.modify (fun n => { n with hashPendingCheckpoint := 0 })
    Command.fail (.error 0 "")
  setBestToCheckpoint P H hashPending
    "AcceptPendingSyncCheckpoint: ReadFromDisk failed for sync checkpoint %s"
    "AcceptPendingSyncCheckpoint: SetBestChain failed for sync checkpoint %s"
    (fun n => { n with hashInvalidCheckpoint := hashPending })
  (writeSyncCheckpoint H hashPending).onFailure Failure.isReturn id
    (.error 0 "AcceptPendingSyncCheckpoint(): failed to write sync checkpoint %s")
  Command.modify (fun n => { n with hashPendingCheckpoint := 0 })

/-- The loop of `ResetSyncCheckpoint`: the last hardened checkpoint in the main chain is taken. -/
def resetToHardened (H : Host) : List (Nat × Uint256) → Command Node Failure Unit
  | [] => Command.fail (.error 0 "")
  | (_, hash) :: checkpoints => do
    let n ← Command.get
    if (n.mapBlockIndex.lookup hash).isSome && n.isInMainChain (n.blockPtr hash) then
      (writeSyncCheckpoint H hash).onFailure Failure.isReturn id
        (.error 0 "ResetSyncCheckpoint: failed to write sync checkpoint %s")
    else resetToHardened H checkpoints

/-- The first half of `ResetSyncCheckpoint`: the last hardened checkpoint is made the best block when
it is there, and pending when it is not. -/
def resetPending (P : Params) (H : Host) (hash : Uint256) : Command Node Failure Unit := do
  let n ← Command.get
  if (n.mapBlockIndex.lookup hash).isSome then
    setBestToCheckpoint P H hash
      "ResetSyncCheckpoint: ReadFromDisk failed for hardened checkpoint %s"
      "ResetSyncCheckpoint: SetBestChain failed for hardened checkpoint %s" id
  else Command.modify (fun n => { n with hashPendingCheckpoint := hash })

/-- `ResetSyncCheckpoint`. -/
def resetSyncCheckpoint (P : Params) (H : Host) : Command Node Failure Unit := do
  match mapCheckpoints.getLast? with
  | none => Command.fail .assertion
  | some (_, hash) => do
    resetPending P H hash
    resetToHardened H mapCheckpoints.reverse

/-! ### `AcceptBlock` -/

/-- `AcceptBlock` up to the call of `AddToBlockIndex`: the position the block was written to. -/
def acceptBlockWrite (P : Params) (H : Host) (block : CBlock) : Command Node Failure (Nat × Nat) := do
  let n ← Command.get
  Command.lift (require (n.mapBlockIndex.lookup (block.getHash P)).isNone 0
    "AcceptBlock() : block already in mapBlockIndex")
  match n.mapBlockIndex.lookup block.hashPrevBlock with
  | none => Command.fail (.error 10 "AcceptBlock() : prev block not found")
  | some pindexPrev => do
    Command.lift (block.acceptBlockContext P n.nBestHeight H.nAdjustedTime pindexPrev)
    let fSync ← Command.lift (n.checkSync P (block.getHash P) pindexPrev)
    Command.lift (require fSync 0 "AcceptBlock() : rejected by synchronized checkpoint")
    H.require .checkDiskSpace "AcceptBlock() : out of disk space"
    match n.files.writeToDisk block with
    | none => Command.fail (.error 0 "AcceptBlock() : WriteToDisk failed")
    | some (files, nFile, nBlockPos) => do
      Command.modify (fun n => { n with files })
      pure (nFile, nBlockPos)

/-- `AcceptBlock`. The result of `AcceptPendingSyncCheckpoint`, which meets the host `H'`, is not
looked at. -/
def acceptBlock (P : Params) (H H' : Host) (block : CBlock) : Command Node Failure Unit := do
  let (nFile, nBlockPos) ← acceptBlockWrite P H block
  (addToBlockIndex P H nFile nBlockPos block).onFailure Failure.isReturn id
    (.error 0 "AcceptBlock() : AddToBlockIndex failed")
  fun n =>
    match acceptPendingSyncCheckpoint P H' n with
    | (.ok (), n') => (.ok (), n')
    | (.error e, n') => if e.isReturn then (.ok (), n') else (.error e, n')

/-! ### Start -/

/-- `LoadBlockIndex` on an empty database: genesis is written and indexed, which makes it the best
block, and becomes the checkpoint. -/
def loadGenesis (P : Params) (H : Host) : Command Node Failure Unit := do
  let n ← Command.get
  match n.files.writeToDisk P.genesisBlock with
  | none => Command.fail (.error 0 "LoadBlockIndex() : writing genesis block to disk failed")
  | some (files, nFile, nBlockPos) => do
    Command.modify (fun n => { n with files })
    (addToBlockIndex P H nFile nBlockPos P.genesisBlock).onFailure Failure.isReturn id
      (.error 0 "LoadBlockIndex() : genesis block not accepted")
    (writeSyncCheckpoint H P.hashGenesisBlock).onFailure Failure.isReturn id
      (.error 0 "LoadBlockIndex() : failed to init sync checkpoint")

end Peershares
