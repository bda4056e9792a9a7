import Mathlib.Data.List.Sort
import Peershares.Model.ProofOfStake

/-!
# Loading the block index

`CTxDB::LoadBlockIndex`, with which a node starts on the database it finds: the "blockindex" records become the entries
of `mapBlockIndex`, the trust of every chain is added up, the best chain is taken from the database, and its last blocks
are read and checked again.

While the records are read an entry's `pprev` and `pnext` point to entries that may not have been read yet, so here the
pointers are hashes. The chains below the entries are put together when all of them are there.

The fields of the records that only the kernel uses are an argument, by the hash of the block; the checksum of the stake
modifiers is computed from them again, along each chain.
-/

open Framework

namespace Peershares

/-- A `CBlockIndex` while the records are read. A pointer is the hash of its target, `0` for `NULL`; the values are those
of the constructor. `bnChainTrust` and `nStakeModifierChecksum` are kept beside. -/
structure IndexObject where
  pprev : Uint256 := 0
  pnext : Uint256 := 0
  nFile : Nat := 0
  nBlockPos : Nat := 0
  nHeight : Nat := 0
  nMint : Int := 0
  nMoneySupply : Int := 0
  fProofOfStake : Bool := false
  nTime : Nat := 0
  nBits : Nat := 0
deriving DecidableEq, Repr

/-- "Construct block index object". -/
def CDiskBlockIndex.toObject (diskindex : CDiskBlockIndex) : IndexObject where
  pprev := diskindex.hashPrev
  pnext := diskindex.hashNext
  nFile := diskindex.index.nFile
  nBlockPos := diskindex.index.nBlockPos
  nHeight := diskindex.index.nHeight
  nMint := diskindex.nMint
  nMoneySupply := diskindex.nMoneySupply
  fProofOfStake := diskindex.index.fProofOfStake
  nTime := diskindex.index.nTime
  nBits := diskindex.index.nBits

/-- The entry of an object, with the trust of its chain. -/
def IndexObject.entry (hashBlock : Uint256) (bnChainTrust : Int) (pindex : IndexObject) : CBlockIndex where
  hashBlock := hashBlock
  nFile := pindex.nFile
  nBlockPos := pindex.nBlockPos
  bnChainTrust := bnChainTrust
  nHeight := pindex.nHeight
  fProofOfStake := pindex.fProofOfStake
  nTime := pindex.nTime
  nBits := pindex.nBits

/-- What is added up along a chain, with the values of the constructor. -/
structure ChainSums where
  bnChainTrust : Int := 0
  nStakeModifierChecksum : Nat := 0
deriving DecidableEq, Repr

/-- `mapBlockIndex` while the records are read. -/
abbrev IndexObjects := Map Uint256 IndexObject

namespace IndexObjects

/-- `InsertBlockIndex`: there is an object for this hash. -/
def insertBlockIndex (hash : Uint256) (mapBlockIndex : IndexObjects) : IndexObjects :=
  if hash = 0 ∨ (mapBlockIndex.lookup hash).isSome then mapBlockIndex else mapBlockIndex.insert hash {}

/-- One record of the first loop of `LoadBlockIndex`. -/
def loadRecord (mapBlockIndex : IndexObjects) (diskindex : CDiskBlockIndex) : Result IndexObjects :=
  let hash := diskindex.index.hashBlock
  -- `InsertBlockIndex` gives `NULL` for the hash `0`, and `pindexNew` is followed
  if hash = 0 then .error .assertion
  else do
    let mapBlockIndex := insertBlockIndex diskindex.hashNext
      (insertBlockIndex diskindex.hashPrev (insertBlockIndex hash mapBlockIndex))
    -- `CheckIndex`
    require (diskindex.index.fProofOfStake || (checkProofOfWork hash diskindex.index.nBits).isOk) 0
      "LoadBlockIndex() : CheckIndex failed at %d"
    pure (mapBlockIndex.insert hash diskindex.toObject)

/-- The first loop. Nothing depends on the order in which the cursor gives the records. -/
def loadRecords (blockIndex : Map Uint256 CDiskBlockIndex) : Result IndexObjects :=
  (blockIndex.entries.map Sigma.snd).foldlM loadRecord ∅

/-- One round of "Calculate bnChainTrust"; `stake` has the fields of the records that only the kernel uses. -/
def addChainTrust (P : Params) (K : KernelHash) (stake : Uint256 → StakeFields) (mapBlockIndex : IndexObjects)
    (sums : Map Uint256 ChainSums) (hash : Uint256) : Result (Map Uint256 ChainSums) :=
  match mapBlockIndex.lookup hash with
  | none => .error .assertion
  | some pindex => do
    let prev : Option ChainSums :=
      if pindex.pprev = 0 then none else some ((sums.lookup pindex.pprev).getD {})
    let nStakeModifierChecksum ← getStakeModifierChecksum P K hash pindex.fProofOfStake
      (prev.map ChainSums.nStakeModifierChecksum) (stake hash)
    require (checkStakeModifierCheckpoints P pindex.nHeight nStakeModifierChecksum) 0
      "CTxDB::LoadBlockIndex() : Failed stake modifier checkpoint height=%d, modifier=0x%016x"
    pure (sums.insert hash
      { bnChainTrust := (prev.map ChainSums.bnChainTrust).getD 0 + getBlockTrust pindex.nBits pindex.fProofOfStake
        nStakeModifierChecksum })

def height (mapBlockIndex : IndexObjects) (hash : Uint256) : Nat :=
  ((mapBlockIndex.lookup hash).map IndexObject.nHeight).getD 0

/-- `vSortedByHeight`. Blocks of one height are sorted by their addresses, on which nothing depends. -/
def sortedByHeight (mapBlockIndex : IndexObjects) : List Uint256 :=
  mapBlockIndex.keys.insertionSort (fun hash hash' => mapBlockIndex.height hash ≤ mapBlockIndex.height hash')

/-- "Calculate bnChainTrust". -/
def chainTrust (P : Params) (K : KernelHash) (stake : Uint256 → StakeFields) (mapBlockIndex : IndexObjects) :
    Result (Map Uint256 ChainSums) :=
  mapBlockIndex.sortedByHeight.foldlM (mapBlockIndex.addChainTrust P K stake) ∅

/-- A pointer with all it reaches through `pprev`, in as many rounds as are given; there are no more blocks on a chain
than objects. -/
def blockPtr (mapBlockIndex : IndexObjects) (sums : Map Uint256 ChainSums) : Nat → Uint256 → BlockPtr
  | 0, _ => []
  | nRounds + 1, hash =>
    match mapBlockIndex.lookup hash with
    | none => []
    | some pindex =>
      pindex.entry hash (((sums.lookup hash).map ChainSums.bnChainTrust).getD 0)
        :: blockPtr mapBlockIndex sums nRounds pindex.pprev

/-- `mapBlockIndex[hash]`, `NULL` when there is none. -/
def pointer (mapBlockIndex : IndexObjects) (sums : Map Uint256 ChainSums) (hash : Uint256) : BlockPtr :=
  mapBlockIndex.blockPtr sums mapBlockIndex.keys.length hash

/-- `mapBlockIndex[hash]->pnext`. -/
def next (mapBlockIndex : IndexObjects) (sums : Map Uint256 ChainSums) (hash : Uint256) : BlockPtr :=
  match mapBlockIndex.lookup hash with
  | none => []
  | some pindex => mapBlockIndex.pointer sums pindex.pnext

end IndexObjects

/-- The node with the objects that were loaded. -/
def Node.withIndex (P : Params) (mapBlockIndex : IndexObjects) (sums : Map Uint256 ChainSums) (n : Node) : Node :=
  { n with
    mapBlockIndex := mapBlockIndex.keys.foldl
      (fun m hash => m.insert hash (mapBlockIndex.pointer sums hash)) ∅
    pnext := mapBlockIndex.next sums
    pindexGenesisBlock := mapBlockIndex.pointer sums P.hashGenesisBlock
    nMint := fun hash => ((mapBlockIndex.lookup hash).map IndexObject.nMint).getD 0
    nMoneySupply := fun hash => ((mapBlockIndex.lookup hash).map IndexObject.nMoneySupply).getD 0 }

/-- `nCheckDepth` from the value of `-checkblocks`. -/
def checkDepth (nBestHeight nCheckBlocks : Int) : Int :=
  min (if nCheckBlocks = 0 then 1000000000 else nCheckBlocks) nBestHeight

/-- "Verify blocks in the best chain", at the levels 0 and 1: the last block of the walk whose `CheckBlock` failed makes
its parent `pindexFork`. -/
def verifyBlocks (P : Params) (H : Host) (files : BlockFiles) (nCheckLevel nLowest : Int) :
    BlockPtr → BlockPtr → Result BlockPtr
  | [], pindexFork => .ok pindexFork
  | pindex :: pprev, pindexFork =>
    if pprev = [] ∨ (pindex.nHeight : Int) < nLowest then .ok pindexFork
    else
      match readFromDisk P H files pindex with
      | .error e => if e.isReturn then .error (.error 0 "LoadBlockIndex() : block.ReadFromDisk failed") else .error e
      | .ok block =>
        if nCheckLevel ≤ 0 then verifyBlocks P H files nCheckLevel nLowest pprev pindexFork
        else
          match block.checkBlock P H.nAdjustedTime with
          | .ok () => verifyBlocks P H files nCheckLevel nLowest pprev pindexFork
          | .error e =>
            if e.isReturn then verifyBlocks P H files nCheckLevel nLowest pprev pprev else .error e

/-- A call whose result is not looked at. -/
def ignoreReturn {α : Type} (x : Command Node Failure α) : Command Node Failure Unit := fun n =>
  match x n with
  | (.ok _, n') => (.ok (), n')
  | (.error e, n') => if e.isReturn then (.ok (), n') else (.error e, n')

/-- "Reorg back to the fork", with a `CTxDB` of its own. -/
def moveBack (P : Params) (H : Host) : BlockPtr → Command Node Failure Unit
  | [] => pure ()
  | pindex :: pprev => do
    let n ← Command.get
    let block ← (Command.lift (readFromDisk P H n.files pindex)).onFailure Failure.isReturn id
      (.error 0 "LoadBlockIndex() : block.ReadFromDisk failed")
    ignoreReturn (withTxDb (setBestChain P H block (pindex :: pprev)))

/-- The arguments `-checklevel` and `-checkblocks`. The checks of the transaction index, which start at level 2, are not
modelled. -/
structure CheckArgs where
  nCheckLevel : Int := 1
  nCheckBlocks : Int := 2500
  level_le : nCheckLevel ≤ 1 := by decide

/-- What follows when the best chain has been found in the index. -/
def loadBestChain (P : Params) (H : Host) (args : CheckArgs) (hashBestChain : Uint256)
    (pindexBest : BlockPtr) : Command Node Failure Unit := do
  Command.modify (fun n => { n with
    hashBestChain
    pindexBest
    nBestHeight := pindexBest.nHeight
    bnBestChainTrust := pindexBest.bnChainTrust })
  let n ← Command.get
  match n.txdb.view.hashSyncCheckpoint with
  | none => Command.fail (.error 0 "CTxDB::LoadBlockIndex() : hashSyncCheckpoint not loaded")
  | some hashSyncCheckpoint => do
    Command.modify (fun n => { n with hashSyncCheckpoint })
    let pindexFork ← Command.lift (verifyBlocks P H n.files args.nCheckLevel
      (pindexBest.nHeight - checkDepth pindexBest.nHeight args.nCheckBlocks) pindexBest [])
    moveBack P H pindexFork

/-- `CTxDB::LoadBlockIndex`. -/
def loadBlockIndex (P : Params) (K : KernelHash) (H : Host) (args : CheckArgs) (stake : Uint256 → StakeFields) :
    Command Node Failure Unit := do
  let n ← Command.get
  let mapBlockIndex ← Command.lift (IndexObjects.loadRecords n.txdb.view.blockIndex)
  let sums ← Command.lift (mapBlockIndex.chainTrust P K stake)
  Command.modify (Node.withIndex P mapBlockIndex sums)
  match n.txdb.view.hashBestChain with
  | none =>
    if (mapBlockIndex.lookup P.hashGenesisBlock).isNone then pure ()
    else Command.fail (.error 0 "CTxDB::LoadBlockIndex() : hashBestChain not loaded")
  | some hashBestChain =>
    if (mapBlockIndex.lookup hashBestChain).isNone then
      Command.fail (.error 0 "CTxDB::LoadBlockIndex() : hashBestChain not found in the block index")
    else loadBestChain P H args hashBestChain (mapBlockIndex.pointer sums hashBestChain)

/-- What a process that ends leaves behind: the committed records and the block files. Wallets are loaded later. The new
process counts the files from the first one again; the full ones are skipped before the next block is written, and the
count stays here where it was (`BlockFiles.writeToDisk_fromFirst`). -/
def Node.afterExit (n : Node) : Node where
  toGlobals := { files := n.files }
  toStore := { txdb := { committed := n.txdb.committed } }

end Peershares
