import Mathlib.Data.Finset.Basic
import Peershares.Model.ProofOfStake

/-!
# Blocks from peers

`ProcessBlock` with the orphan blocks: a block whose parent is not known is kept in
`mapOrphanBlocks` and `mapOrphanBlocksByPrev`, and is accepted after its parent. A pair of kernel and
time that a proof-of-stake block has used is kept in `setStakeSeen`, or in `setStakeSeenOrphan` for an
orphan.

The kernel of a proof-of-stake block is checked by `CheckProofOfStake` when the block arrives. Its hash
waits in `mapProofOfStake` until `AddToBlockIndex` takes it over, with the other fields that the kernel
uses.

Messages to peers are left out, and with them `GetOrphanRoot`.
-/

open Framework

namespace Peershares

namespace CBlock

/-- `GetProofOfStake`: the kernel and the time of the coinstake. -/
def getProofOfStake (block : CBlock) : COutPoint × Nat :=
  match block.vtx with
  | _ :: tx :: _ =>
    match tx.vin with
    | txin :: _ => if tx.isCoinStake then (txin.prevout, tx.nTime) else (COutPoint.null, 0)
    | [] => (COutPoint.null, 0)
  | _ => (COutPoint.null, 0)

end CBlock

/-- The loop of `ComputeMinWork`. -/
def computeMinWorkLoop : Nat → Int → Int → Int
  | 0, _, bnResult => bnResult
  | nRounds + 1, nTime, bnResult =>
    if 0 < nTime ∧ bnResult < bnProofOfWorkLimit then
      computeMinWorkLoop nRounds (nTime - 24 * 60 * 60) (bnResult * 2)
    else bnResult

/-- `ComputeMinWork`. Each round takes a day off the time. -/
def computeMinWork (nBase : Nat) (nTime : Int) : Nat :=
  let bnResult := computeMinWorkLoop (nTime.toNat / (24 * 60 * 60) + 1) nTime (setCompact nBase * 2)
  getCompact (if bnProofOfWorkLimit < bnResult then bnProofOfWorkLimit else bnResult)

/-! ### The state -/

/-- The node with the globals that only `ProcessBlock` and `AddToBlockIndex` use, and the fields of the
block index that only the kernel uses. The multimap `mapOrphanBlocksByPrev` is the list of its entries. -/
structure BlockStore where
  node : Node
  stake : Uint256 → StakeFields := fun _ => {}
  mapProofOfStake : Map Uint256 Uint256 := ∅
  setStakeSeen : Finset (COutPoint × Nat) := ∅
  mapOrphanBlocks : Map Uint256 CBlock := ∅
  mapOrphanBlocksByPrev : List (Uint256 × CBlock) := []
  setStakeSeenOrphan : Finset (COutPoint × Nat) := ∅

/-- What a call of `ProcessBlock` meets: what `CheckProofOfStake` meets, with the clock, and the hosts of
each call of `AcceptBlock`. -/
structure BlockEnv extends ProofEnv where
  hosts : CBlock → Host × Host

namespace BlockStore

/-- `mapOrphanBlocksByPrev.count(hash)`, as a truth value. -/
def hasChild (s : BlockStore) (hash : Uint256) : Bool :=
  s.mapOrphanBlocksByPrev.any (fun e => e.1 = hash)

/-- The loop of `WantedByOrphan`: back to the first block of the orphan chain. -/
def wantedByOrphan (s : BlockStore) : Nat → CBlock → Uint256
  | 0, pblockOrphan => pblockOrphan.hashPrevBlock
  | nRounds + 1, pblockOrphan =>
    match s.mapOrphanBlocks.lookup pblockOrphan.hashPrevBlock with
    | none => pblockOrphan.hashPrevBlock
    | some pblockPrev => s.wantedByOrphan nRounds pblockPrev

/-- `Checkpoints::WantedByPendingSyncCheckpoint`. -/
def wantedByPendingSyncCheckpoint (s : BlockStore) (hashBlock : Uint256) : Bool :=
  if s.node.hashPendingCheckpoint = 0 then false
  else if hashBlock = s.node.hashPendingCheckpoint then true
  else
    match s.mapOrphanBlocks.lookup s.node.hashPendingCheckpoint with
    | none => false
    | some pblockOrphan =>
      hashBlock = s.wantedByOrphan s.mapOrphanBlocks.entries.length pblockOrphan

/-- A duplicate proof-of-stake is allowed only when an orphan, or the pending checkpoint, wants the
block. -/
def refusesStake (P : Params) (seen : Finset (COutPoint × Nat)) (s : BlockStore) (block : CBlock) :
    Bool :=
  block.isProofOfStake && block.getProofOfStake ∈ seen && !s.hasChild (block.getHash P)
    && !s.wantedByPendingSyncCheckpoint (block.getHash P)

/-- "Extra checks to prevent fill up memory by spamming with bogus blocks". -/
def hasEnoughWork (P : Params) (s : BlockStore) (block : CBlock) : Bool :=
  match s.node.mapBlockIndex.lookup s.node.hashSyncCheckpoint with
  | none => true
  | some pcheckpoint =>
    if block.hashPrevBlock ≠ s.node.hashBestChain
        && !s.wantedByPendingSyncCheckpoint (block.getHash P) then
      match getLastBlockIndex block.isProofOfStake pcheckpoint with
      | [] => true
      | pindex :: _ =>
        setCompact block.nBits ≤
          setCompact (computeMinWork pindex.nBits (block.getBlockTime - pcheckpoint.getBlockTime))
    else true

end BlockStore

/-! ### `ProcessBlock` -/

namespace BlockStore

/-- The fields that `AddToBlockIndex` would set for a block. -/
def newStake (P : Params) (K : KernelHash) (block : CBlock) (s : BlockStore) : Result StakeFields :=
  block.newStake P K s.node s.stake (s.mapProofOfStake.lookup (block.getHash P))

/-- The store after a call that led to the node `node`. When `block` has entered `mapBlockIndex`, its
fields are there, and its proof-of-stake has been recorded at once. -/
def indexed (P : Params) (K : KernelHash) (block : CBlock) (node : Node) (s : BlockStore) : BlockStore :=
  if (s.node.mapBlockIndex.lookup (block.getHash P)).isNone
      && (node.mapBlockIndex.lookup (block.getHash P)).isSome then
    { s with
      node
      stake :=
        match s.newStake P K block with
        | .ok fields => Function.update s.stake (block.getHash P) fields
        | .error _ => s.stake
      setStakeSeen :=
        if block.isProofOfStake then insert block.getProofOfStake s.setStakeSeen else s.setStakeSeen }
  else { s with node }

end BlockStore

/-- The call of `AcceptBlock` for a block: its result and the node after it. -/
def accepting (P : Params) (K : KernelHash) (env : BlockEnv) (block : CBlock) (s : BlockStore) :
    Result Unit × Node :=
  acceptBlock P ((env.hosts block).1.withStake (s.newStake P K block)) (env.hosts block).2 block s.node

/-- `AcceptBlock` on the store. -/
def acceptBlockSeen (P : Params) (K : KernelHash) (env : BlockEnv) (block : CBlock) :
    Command BlockStore Failure Unit := fun s =>
  ((accepting P K env block s).1, s.indexed P K block (accepting P K env block s).2)

/-- A block enters the store of orphans. -/
def BlockStore.putOrphan (P : Params) (block : CBlock) (s : BlockStore) : BlockStore :=
  { s with
    setStakeSeenOrphan :=
      if block.isProofOfStake then insert block.getProofOfStake s.setStakeSeenOrphan
      else s.setStakeSeenOrphan
    mapOrphanBlocks := s.mapOrphanBlocks.insert (block.getHash P) block
    mapOrphanBlocksByPrev := s.mapOrphanBlocksByPrev ++ [(block.hashPrevBlock, block)] }

/-- "shunt it off to holding area until we get it". -/
def storeOrphan (P : Params) (block : CBlock) : Command BlockStore Failure Unit := do
  let s ← Command.get
  Command.lift (require (!s.refusesStake P s.setStakeSeenOrphan block) 0
    "ProcessBlock() : duplicate proof-of-stake (%s, %d) for orphan block %s")
  Command.modify (BlockStore.putOrphan P block)

/-- An orphan that has been tried leaves `mapOrphanBlocks` and `setStakeSeenOrphan`. -/
def BlockStore.dropOrphan (P : Params) (pblockOrphan : CBlock) (s : BlockStore) : BlockStore :=
  { s with
    mapOrphanBlocks := s.mapOrphanBlocks.erase (pblockOrphan.getHash P)
    setStakeSeenOrphan := s.setStakeSeenOrphan.erase pblockOrphan.getProofOfStake }

/-- One orphan of the resolving loop; when it is accepted, its hash joins the work queue. -/
def acceptOrphan (P : Params) (K : KernelHash) (env : BlockEnv) (vWorkQueue : List Uint256)
    (pblockOrphan : CBlock) : Command BlockStore Failure (List Uint256) := fun s =>
  match acceptBlockSeen P K env pblockOrphan s with
  | (.ok (), s) =>
    (.ok (vWorkQueue ++ [pblockOrphan.getHash P]), s.dropOrphan P pblockOrphan)
  | (.error e, s) =>
    if e.isReturn then (.ok vWorkQueue, s.dropOrphan P pblockOrphan) else (.error e, s)

/-- The orphans of one round of the resolving loop. -/
def acceptOrphans (P : Params) (K : KernelHash) (env : BlockEnv) :
    List (Uint256 × CBlock) → List Uint256 → Command BlockStore Failure (List Uint256)
  | [], vWorkQueue => pure vWorkQueue
  | (_, pblockOrphan) :: orphans, vWorkQueue => do
    let vWorkQueue ← acceptOrphan P K env vWorkQueue pblockOrphan
    acceptOrphans P K env orphans vWorkQueue

/-- After the round of a parent, its range is erased. -/
def BlockStore.eraseRange (hashPrev : Uint256) (s : BlockStore) : BlockStore :=
  { s with mapOrphanBlocksByPrev := s.mapOrphanBlocksByPrev.filter (fun e => e.1 ≠ hashPrev) }

/-- The resolving loop on the rest of the work queue, for a number of rounds. -/
def resolveBlocks (P : Params) (K : KernelHash) (env : BlockEnv) :
    Nat → List Uint256 → Command BlockStore Failure Unit
  | _, [] => pure ()
  | 0, _ :: _ => pure ()
  | nRounds + 1, hashPrev :: vWorkQueue => do
    let s ← Command.get
    let vWorkQueue ← acceptOrphans P K env
      (s.mapOrphanBlocksByPrev.filter (fun e => e.1 = hashPrev)) vWorkQueue
    Command.modify (BlockStore.eraseRange hashPrev)
    resolveBlocks P K env nRounds vWorkQueue

/-- `ProcessBlock` behind its checks. Every hash in the work queue but the first is that of an orphan,
which leaves the multimap in its round, so there is a round for each. -/
def storeBlock (P : Params) (K : KernelHash) (env : BlockEnv) (block : CBlock) :
    Command BlockStore Failure Unit := do
  let s ← Command.get
  if (s.node.mapBlockIndex.lookup block.hashPrevBlock).isNone then storeOrphan P block
  else do
    (acceptBlockSeen P K env block).onFailure Failure.isReturn id
      (.error 0 "ProcessBlock() : AcceptBlock FAILED")
    resolveBlocks P K env (s.mapOrphanBlocksByPrev.length + 1) [block.getHash P]

/-- The checks of `ProcessBlock` up to `CheckBlock`. -/
def BlockStore.preliminaryChecks (P : Params) (env : BlockEnv) (block : CBlock) (s : BlockStore) :
    Result Unit := do
  require (s.node.mapBlockIndex.lookup (block.getHash P)).isNone 0
    "ProcessBlock() : already have block %d %s"
  require (s.mapOrphanBlocks.lookup (block.getHash P)).isNone 0
    "ProcessBlock() : already have block (orphan) %s"
  require (!s.refusesStake P s.setStakeSeen block) 0
    "ProcessBlock() : duplicate proof-of-stake (%s, %d) for block %s"
  match block.checkBlock P env.nAdjustedTime with
  | .error (.error _ _) => .error (.error 0 "ProcessBlock() : CheckBlock FAILED")
  | .error e => .error e
  | .ok _ => .ok ()

/-- "verify hash target and signature of coinstake tx": a proof-of-stake block shows the hash of its
kernel, and a failure is not reported. -/
def BlockStore.kernelHash (P : Params) (K : KernelHash) (env : BlockEnv) (block : CBlock) (s : BlockStore) :
    Result (Option Uint256) :=
  match block.vtx with
  | _ :: tx :: _ =>
    if block.isProofOfStake then
      match checkProofOfStake P K env.toProofEnv s.node s.stake tx block.nBits with
      | .ok hashProofOfStake => .ok (some hashProofOfStake)
      | .error (.error _ _) => .error (.error 0 "")
      | .error e => .error e
    else .ok none
  | _ => .ok none

/-- "add to mapProofOfStake": an entry that is there stays. -/
def BlockStore.putProofOfStake (P : Params) (block : CBlock) (hashProofOfStake : Option Uint256)
    (s : BlockStore) : BlockStore :=
  match hashProofOfStake with
  | none => s
  | some hash =>
    if (s.mapProofOfStake.lookup (block.getHash P)).isSome then s
    else { s with mapProofOfStake := s.mapProofOfStake.insert (block.getHash P) hash }

/-- What `ProcessBlock` does before it stores or accepts a block. -/
def checkArriving (P : Params) (K : KernelHash) (env : BlockEnv) (block : CBlock) :
    Command BlockStore Failure Unit := do
  let s ← Command.get
  Command.lift (s.preliminaryChecks P env block)
  let hashProofOfStake ← Command.lift (s.kernelHash P K env block)
  Command.modify (BlockStore.putProofOfStake P block hashProofOfStake)
  Command.lift (require (s.hasEnoughWork P block) 0 "ProcessBlock() : block with too little %s")

/-- `ProcessBlock`. -/
def processBlock (P : Params) (K : KernelHash) (env : BlockEnv) (block : CBlock) :
    Command BlockStore Failure Unit := do
  checkArriving P K env block
  storeBlock P K env block

/-! ### Start -/

/-- A store with a node whose database was empty: `AddToBlockIndex` has set the fields of genesis too. -/
def loadGenesisStore (P : Params) (K : KernelHash) (H : Host) : Command BlockStore Failure Unit := fun s =>
  let fields := s.newStake P K P.genesisBlock
  match loadGenesis P (H.withStake fields) s.node with
  | (r, node) => (r, s.indexed P K P.genesisBlock node)

end Peershares
