import Peershares.Model.Checkpoints
import Peershares.Model.Kernel

/-!
# Proof-of-stake checks

The functions of `kernel.cpp` that the node calls: `CheckProofOfStake`, which reads the previous transaction of a
coinstake and checks its signature and its kernel, and `GetStakeModifierChecksum` with the hard checkpoints of the
checksum. With them goes the part of `AddToBlockIndex` that sets the fields of a new block which only the kernel uses.

The entries of `Node.mapBlockIndex` do not have these fields. They are kept beside the node, by the hash of the block
(`StakeFields`), and join an entry where the kernel looks at it. The three hashes are parameters.
-/

open Framework

namespace Peershares

/-- The hashes of `kernel.cpp`. -/
structure KernelHash extends StakeHash where
  /-- `Hash` on the stream of `GetStakeModifierChecksum`: the checksum of the parent, if there is one, the flags,
  `hashProofOfStake` and the modifier. -/
  hashChecksum : Option Nat → Nat → Uint256 → Nat → Uint256

/-- The fields of a `CBlockIndex` that only the kernel uses, with the values of the constructor. -/
structure StakeFields where
  stakeEntropyBit : Bool := false
  generatedStakeModifier : Bool := false
  nStakeModifier : Nat := 0
  hashProofOfStake : Uint256 := 0
  nStakeModifierChecksum : Nat := 0
deriving DecidableEq, Repr

/-- An entry as the kernel sees it. -/
def CBlockIndex.withStake (fields : StakeFields) (pindex : CBlockIndex) : StakeIndex :=
  { pindex with
    stakeEntropyBit := fields.stakeEntropyBit
    generatedStakeModifier := fields.generatedStakeModifier
    nStakeModifier := fields.nStakeModifier
    hashProofOfStake := fields.hashProofOfStake }

/-- `nFlags`: `BLOCK_PROOF_OF_STAKE`, `BLOCK_STAKE_ENTROPY` and `BLOCK_STAKE_MODIFIER`. -/
def StakeFields.nFlags (fields : StakeFields) (fProofOfStake : Bool) : Nat :=
  fProofOfStake.toNat + 2 * fields.stakeEntropyBit.toNat + 4 * fields.generatedStakeModifier.toNat

/-! ### The checksum of the modifiers -/

/-- "Hard checkpoints of stake modifiers to ensure they are deterministic". -/
def mapStakeModifierCheckpoints : List (Nat × Nat) := [(0, 0x0e00670b)]

/-- `CheckStakeModifierCheckpoints`. -/
def checkStakeModifierCheckpoints (P : Params) (nHeight nStakeModifierChecksum : Nat) : Bool :=
  P.fTestNet ||
    match mapStakeModifierCheckpoints.find? (fun checkpoint => checkpoint.1 = nHeight) with
    | none => true
    | some (_, checksum) => nStakeModifierChecksum = checksum

/-- `GetStakeModifierChecksum`; `checksumPrev` is the checksum of the parent, if there is one. -/
def getStakeModifierChecksum (P : Params) (K : KernelHash) (hashBlock : Uint256) (fProofOfStake : Bool)
    (checksumPrev : Option Nat) (fields : StakeFields) : Result Nat :=
  if checksumPrev.isNone ∧ hashBlock ≠ P.hashGenesisBlock then .error .assertion
  else
    .ok (K.hashChecksum checksumPrev (fields.nFlags fProofOfStake) fields.hashProofOfStake fields.nStakeModifier
      / 2 ^ 224 % 2 ^ 32)

/-- Only genesis has a checkpoint. -/
theorem checkStakeModifierCheckpoints_of_pos (P : Params) {nHeight : Nat} (hpos : 0 < nHeight) (checksum : Nat) :
    checkStakeModifierCheckpoints P nHeight checksum = true := by
  have hnone : mapStakeModifierCheckpoints.find? (fun checkpoint => checkpoint.1 = nHeight) = none := by
    simp [mapStakeModifierCheckpoints, hpos.ne]
  unfold checkStakeModifierCheckpoints
  rw [hnone, Bool.or_true]

/-! ### What the kernel reads of the node -/

/-- A pointer as the kernel sees it. -/
def BlockPtr.withStake (stake : Uint256 → StakeFields) (pindex : BlockPtr) : StakePtr :=
  pindex.map (fun e => e.withStake (stake e.hashBlock))

namespace Node

variable (n : Node) (stake : Uint256 → StakeFields)

/-- The entry in `mapBlockIndex` with this hash. -/
def stakeIndex (hash : Uint256) : Option StakeIndex :=
  ((n.mapBlockIndex.lookup hash).bind List.head?).map (fun e => e.withStake (stake e.hashBlock))

/-- The entries above a block, along `pnext`, in as many rounds as are given. -/
def stakeNext : Nat → Uint256 → List StakeIndex
  | 0, _ => []
  | nRounds + 1, hash =>
    match n.pnext hash with
    | [] => []
    | pindex :: _ => pindex.withStake (stake pindex.hashBlock) :: stakeNext nRounds pindex.hashBlock

/-- The block index for the kernel. No chain has more blocks than `mapBlockIndex` has entries. -/
def stakeView (nAdjustedTime : Int) : StakeView where
  mapBlockIndex := n.stakeIndex stake
  pnext := n.stakeNext stake n.mapBlockIndex.entries.length
  nAdjustedTime

end Node

/-! ### `AddToBlockIndex` -/

namespace CBlock

/-- `GetStakeEntropyBit`: the first bit of the hash of the signature. -/
def getStakeEntropyBit (P : Params) (block : CBlock) : Bool :=
  (P.hash160 block.vchBlockSig).getLast?.any (fun byte => 128 ≤ byte)

/-- "record proof-of-stake hash value"; a proof-of-work block has none. -/
def newProofOfStake (hashProofOfStake : Option Uint256) (block : CBlock) : Result Uint256 :=
  if block.isProofOfStake then
    match hashProofOfStake with
    | none => .error (.error 0 "AddToBlockIndex() : hashProofOfStake not found in map")
    | some hash => .ok hash
  else .ok 0

/-- The fields that `AddToBlockIndex` sets for the kernel; `hashProofOfStake` is what `mapProofOfStake` has for the
block. -/
def newStake (P : Params) (K : KernelHash) (n : Node) (stake : Uint256 → StakeFields)
    (hashProofOfStake : Option Uint256) (block : CBlock) : Result StakeFields := do
  let pprev : BlockPtr := (n.mapBlockIndex.lookup block.hashPrevBlock).getD []
  let hashProofOfStake ← block.newProofOfStake hashProofOfStake
  match computeNextStakeModifier P K.toStakeHash (n.stakeIndex stake) (pprev.withStake stake) with
  | .error _ => .error (.error 0 "AddToBlockIndex() : ComputeNextStakeModifier() failed")
  | .ok (nStakeModifier, generatedStakeModifier) => do
    let fields : StakeFields :=
      { stakeEntropyBit := block.getStakeEntropyBit P, generatedStakeModifier, nStakeModifier, hashProofOfStake }
    let nStakeModifierChecksum ← getStakeModifierChecksum P K (block.getHash P) block.isProofOfStake
      (pprev.head?.map (fun e => (stake e.hashBlock).nStakeModifierChecksum)) fields
    require (checkStakeModifierCheckpoints P (if pprev.isEmpty then 0 else pprev.nHeight + 1) nStakeModifierChecksum) 0
      "AddToBlockIndex() : Rejected by stake modifier checkpoint height=%d, modifier=0x%016x"
    pure { fields with nStakeModifierChecksum }

end CBlock

/-- A host on which the kernel's part of `AddToBlockIndex` ends in this way. The assertion of the checksum is no
answer: `AcceptBlock` has found the parent, and genesis has none. -/
def Host.withStake (fields : Result StakeFields) (H : Host) : Host :=
  { H with
    stakeError := fun _ =>
      match fields with
      | .error (.error _ msg) => some msg
      | _ => none }

/-! ### `CheckProofOfStake` -/

/-- What `CheckProofOfStake` meets: the clock, `-debug`, and whether its two reads from the block files succeed. -/
structure ProofEnv where
  nAdjustedTime : Int
  fDebug : Bool := false
  fReadTx : Bool := true
  fReadBlock : Bool := true

/-- `txPrev.ReadFromDisk(txdb, prevout, txindex)`, with a `CTxDB` of its own. -/
def ProofEnv.readTxPrev (env : ProofEnv) (n : Node) (prevout : COutPoint) : Option (CTxIndex × CTransaction) := do
  let txindex ← n.txdb.committed.txIndex.lookup prevout.hash
  let txPrev ← if env.fReadTx then n.files.readTx txindex.pos else none
  if prevout.n < txPrev.vout.length then some (txindex, txPrev) else none

/-- `CheckProofOfStake`: the hash of the kernel. A score is that of the coinstake, which nobody looks at. -/
def checkProofOfStake (P : Params) (K : KernelHash) (env : ProofEnv) (n : Node) (stake : Uint256 → StakeFields)
    (tx : CTransaction) (nBits : Nat) : Result Uint256 := do
  require tx.isCoinStake 0 "CheckProofOfStake() : called on non-coinstake %s"
  match tx.vin with
  | [] => .error .assertion
  | txin :: _ =>
    match env.readTxPrev n txin.prevout with
    | none => .error (.error 1 "CheckProofOfStake() : INFO: read txPrev failed")
    | some (txindex, txPrev) => do
      require (verifySignature P txPrev tx 0 txin true) 100
        "CheckProofOfStake() : VerifySignature failed on coinstake %s"
      match if env.fReadBlock then n.files.readBlock txindex.pos.nFile txindex.pos.nBlockPos else none with
      | none => .error (.error 0 (if env.fDebug then "CheckProofOfStake() : read block failed" else ""))
      | some block =>
        match checkStakeKernelHash P K.toStakeHash (n.stakeView stake env.nAdjustedTime) nBits block
            (txindex.pos.nTxPos - txindex.pos.nBlockPos) txPrev txin.prevout tx.nTime env.fDebug with
        | .error (.error _ _) =>
          .error (.error 1 "CheckProofOfStake() : INFO: check kernel failed on coinstake %s, hashProof=%s")
        | .error e => .error e
        | .ok hashProofOfStake => .ok hashProofOfStake

end Peershares
