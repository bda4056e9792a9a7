import Peershares.Model.Check

/-!
# The stake kernel

`kernel.cpp`: how the stake modifier of a block is computed from its ancestors, which modifier a kernel is
hashed with, and `CheckStakeKernelHash`.

A `CBlockIndex*` stands for all it reaches, as in `Model.BlockIndex`: through `pprev` it is a list down to
genesis (`StakePtr`), and through `pnext` the list of the blocks above it up to the tip
(`StakeView.pnext`). The two hashes are parameters.
-/

namespace Peershares

def STAKE_MIN_AGE : Int := 60 * 60 * 24 * 3
def STAKE_MAX_AGE : Int := 60 * 60 * 24 * 90
def MODIFIER_INTERVAL : Nat := 6 * 60 * 60
def MODIFIER_INTERVAL_RATIO : Nat := 3

/-- `nModifierInterval`, as `LoadBlockIndex` sets it for the network. -/
def Params.nModifierInterval (P : Params) : Nat := if P.fTestNet then 60 * 20 else MODIFIER_INTERVAL

/-- The fields of a `CBlockIndex` that only the kernel uses. -/
structure StakeIndex extends CBlockIndex where
  /-- The flag `BLOCK_STAKE_ENTROPY`. -/
  stakeEntropyBit : Bool
  /-- The flag `BLOCK_STAKE_MODIFIER`. -/
  generatedStakeModifier : Bool
  nStakeModifier : Nat
  hashProofOfStake : Uint256
deriving DecidableEq, Repr

/-- A `CBlockIndex*` with all it reaches through `pprev`. -/
abbrev StakePtr := List StakeIndex

/-- What is hashed for a kernel: the modifier (v0.3) or the bits (v0.2), and the rest. -/
structure KernelStream where
  fProtocolV03 : Bool
  /-- `nStakeModifier` or `nBits`. -/
  seed : Nat
  nTimeBlockFrom : Nat
  nTxPrevOffset : Nat
  nTimeTxPrev : Nat
  nPrevout : Nat
  nTimeTx : Nat
deriving DecidableEq, Repr

/-- `Hash` on the two streams of `kernel.cpp`. -/
structure StakeHash where
  /-- `ss << hashProof << nStakeModifierPrev`. -/
  hashSelection : Uint256 → Nat → Uint256
  hashKernel : KernelStream → Uint256

/-- What the kernel reads of the block index: the entry with a hash, the entries above it in the main chain,
and the clock. -/
structure StakeView where
  mapBlockIndex : Uint256 → Option StakeIndex
  pnext : Uint256 → List StakeIndex
  nAdjustedTime : Int

/-! ### Computing the modifier -/

/-- The loop of `GetLastStakeModifier`: the last entry that generated a modifier, or genesis. -/
def lastGenerated : StakePtr → Option StakeIndex
  | [] => none
  | pindex :: pprev =>
    if pprev ≠ [] ∧ pindex.generatedStakeModifier = false then lastGenerated pprev else some pindex

/-- `GetLastStakeModifier`: the modifier and its generation time. -/
def getLastStakeModifier (pindex : StakePtr) : Result (Nat × Int) :=
  match lastGenerated pindex with
  | none => .error (.error 0 "GetLastStakeModifier: null pindex")
  | some pindex =>
    if pindex.generatedStakeModifier then .ok (pindex.nStakeModifier, pindex.nTime)
    else .error (.error 0 "GetLastStakeModifier: no generation at genesis block")

/-- `GetStakeModifierSelectionIntervalSection`. -/
def getStakeModifierSelectionIntervalSection (P : Params) (nSection : Nat) : Nat :=
  P.nModifierInterval * 63 / (63 + (63 - nSection) * ( MODIFIER_INTERVAL_RATIO - 1))

/-- `GetStakeModifierSelectionInterval`. -/
def getStakeModifierSelectionInterval (P : Params) : Nat :=
  ((List.range 64).map (getStakeModifierSelectionIntervalSection P)).sum

/-- `hashSelection`: a proof-of-stake block is favoured by 32 bits. -/
def StakeHash.selectionHash (K : StakeHash) (nStakeModifierPrev : Nat) (pindex : StakeIndex) : Uint256 :=
  let hashProof := if pindex.fProofOfStake then pindex.hashProofOfStake else pindex.hashBlock
  let hashSelection := K.hashSelection hashProof nStakeModifierPrev
  if pindex.fProofOfStake then hashSelection / 2 ^ 32 else hashSelection

/-- The loop of `SelectBlockFromCandidates`, with `hashBest` and `*pindexSelected` once a block is selected. -/
def selectLoop (K : StakeHash) (mapBlockIndex : Uint256 → Option StakeIndex)
    (mapSelectedBlocks : List Uint256) (nSelectionIntervalStop : Int) (nStakeModifierPrev : Nat) :
    List (Int × Uint256) → Option (Uint256 × StakeIndex) → Result (Option StakeIndex)
  | [], best => .ok (best.map Prod.snd)
  | item :: vSortedByTimestamp, best =>
    match mapBlockIndex item.2 with
    | none =>
      .error (.error 0 "SelectBlockFromCandidates: failed to find block index for candidate block %s")
    | some pindex =>
      if best.isSome ∧ nSelectionIntervalStop < pindex.nTime then .ok (best.map Prod.snd)
      else if pindex.hashBlock ∈ mapSelectedBlocks then
        selectLoop K mapBlockIndex mapSelectedBlocks nSelectionIntervalStop nStakeModifierPrev
          vSortedByTimestamp best
      else
        let hashSelection := K.selectionHash nStakeModifierPrev pindex
        match best with
        | some (hashBest, _) =>
          selectLoop K mapBlockIndex mapSelectedBlocks nSelectionIntervalStop nStakeModifierPrev
            vSortedByTimestamp (if hashSelection < hashBest then some (hashSelection, pindex) else best)
        | none =>
          selectLoop K mapBlockIndex mapSelectedBlocks nSelectionIntervalStop nStakeModifierPrev
            vSortedByTimestamp (some (hashSelection, pindex))

/-- `SelectBlockFromCandidates`: the selected block, if there is one. -/
def selectBlockFromCandidates (K : StakeHash) (mapBlockIndex : Uint256 → Option StakeIndex)
    (vSortedByTimestamp : List (Int × Uint256)) (mapSelectedBlocks : List Uint256)
    (nSelectionIntervalStop : Int) (nStakeModifierPrev : Nat) : Result (Option StakeIndex) :=
  selectLoop K mapBlockIndex mapSelectedBlocks nSelectionIntervalStop nStakeModifierPrev vSortedByTimestamp none

/-- The order of `pair<int64, uint256>`. -/
def candidateLe (a b : Int × Uint256) : Prop := a.1 < b.1 ∨ a.1 = b.1 ∧ a.2 ≤ b.2

instance : DecidableRel candidateLe := fun a b =>
  inferInstanceAs (Decidable (a.1 < b.1 ∨ a.1 = b.1 ∧ a.2 ≤ b.2))

/-- What the rounds of `ComputeNextStakeModifier` carry along. -/
structure RoundState where
  nStakeModifierNew : Nat := 0
  nSelectionIntervalStop : Int
  mapSelectedBlocks : List Uint256 := []

/-- One round: a block is selected and contributes its entropy bit. -/
def selectRound (P : Params) (K : StakeHash) (mapBlockIndex : Uint256 → Option StakeIndex)
    (vSortedByTimestamp : List (Int × Uint256)) (nStakeModifier : Nat) (s : RoundState) (nRound : Nat) :
    Result RoundState := do
  let nSelectionIntervalStop := s.nSelectionIntervalStop + getStakeModifierSelectionIntervalSection P nRound
  let pindex ← selectBlockFromCandidates K mapBlockIndex vSortedByTimestamp s.mapSelectedBlocks
    nSelectionIntervalStop nStakeModifier
  match pindex with
  | none => .error (.error 0 "ComputeNextStakeModifier: unable to select block at round %d")
  | some pindex =>
    .ok { nStakeModifierNew := s.nStakeModifierNew ||| (pindex.stakeEntropyBit.toNat <<< nRound)
          nSelectionIntervalStop
          mapSelectedBlocks := pindex.hashBlock :: s.mapSelectedBlocks }

/-- `nSelectionIntervalStart`. -/
def selectionIntervalStart (P : Params) (nTimePrev : Int) : Int :=
  nTimePrev.tdiv P.nModifierInterval * P.nModifierInterval - getStakeModifierSelectionInterval P

/-- `ComputeNextStakeModifier`: the modifier and whether it is newly generated. -/
def computeNextStakeModifier (P : Params) (K : StakeHash) (mapBlockIndex : Uint256 → Option StakeIndex)
    (pindexPrev : StakePtr) : Result (Nat × Bool) :=
  match pindexPrev with
  | [] => .ok (0, true)
  | prev :: _ => do
    let (nStakeModifier, nModifierTime) ← getLastStakeModifier pindexPrev
    if (prev.nTime : Int).tdiv P.nModifierInterval ≤ nModifierTime.tdiv P.nModifierInterval then
      .ok (nStakeModifier, false)
    else do
      let nSelectionIntervalStart := selectionIntervalStart P prev.nTime
      let candidates := pindexPrev.takeWhile (fun pindex => decide (nSelectionIntervalStart ≤ pindex.nTime))
      let vSortedByTimestamp :=
        (candidates.map (fun pindex => ((pindex.nTime : Int), pindex.hashBlock))).reverse.insertionSort candidateLe
      let s ← (List.range (min 64 vSortedByTimestamp.length)).foldlM
        (selectRound P K mapBlockIndex vSortedByTimestamp nStakeModifier)
        { nSelectionIntervalStop := nSelectionIntervalStart }
      .ok (s.nStakeModifierNew, true)

/-! ### The modifier of a kernel -/

/-- The loop of `GetKernelStakeModifier`: along `pnext` until a modifier was generated late enough. -/
def kernelModifierLoop (nDeadline : Int) (reachedBest : StakeIndex → Result (Nat × Nat × Int)) :
    StakeIndex → List StakeIndex → Nat → Int → Result (Nat × Nat × Int)
  | pindex, [], nStakeModifierHeight, nStakeModifierTime =>
    if nStakeModifierTime < nDeadline then reachedBest pindex
    else .ok (pindex.nStakeModifier, nStakeModifierHeight, nStakeModifierTime)
  | pindex, next :: pnext, nStakeModifierHeight, nStakeModifierTime =>
    if nStakeModifierTime < nDeadline then
      if next.generatedStakeModifier then
        kernelModifierLoop nDeadline reachedBest next pnext next.nHeight next.nTime
      else kernelModifierLoop nDeadline reachedBest next pnext nStakeModifierHeight nStakeModifierTime
    else .ok (pindex.nStakeModifier, nStakeModifierHeight, nStakeModifierTime)

/-- `GetKernelStakeModifier`: the modifier, its height and its time. -/
def getKernelStakeModifier (P : Params) (view : StakeView) (hashBlockFrom : Uint256)
    (fPrintProofOfStake : Bool) : Result (Nat × Nat × Int) :=
  match view.mapBlockIndex hashBlockFrom with
  | none => .error (.error 0 "GetKernelStakeModifier() : block not indexed")
  | some pindexFrom =>
    kernelModifierLoop (pindexFrom.nTime + getStakeModifierSelectionInterval P)
      (fun pindex =>
        if fPrintProofOfStake ∨ view.nAdjustedTime <
            pindex.nTime + P.nStakeMinAge - getStakeModifierSelectionInterval P then
          .error (.error 0 "GetKernelStakeModifier() : reached best block %s at height %d from block %s")
        else .error (.error 0 ""))
      pindexFrom (view.pnext hashBlockFrom) pindexFrom.nHeight pindexFrom.nTime

/-! ### `CheckStakeKernelHash` -/

/-- The minimum-age test of the kernel, in `unsigned int`. -/
def kernelMinAge (P : Params) (nTimeBlockFrom nTimeTx : Nat) : Bool :=
  (nTimeBlockFrom + P.nStakeMinAge.toNat) % 2 ^ 32 ≤ nTimeTx

/-- `nTimeWeight`. -/
def kernelTimeWeight (P : Params) (nTimeTxPrev nTimeTx : Nat) : Int :=
  min ((nTimeTx : Int) - nTimeTxPrev) STAKE_MAX_AGE - (if isProtocolV03 nTimeTx then P.nStakeMinAge else 0)

/-- `CheckStakeKernelHash`: `hashProofOfStake` when the kernel meets the target. -/
def checkStakeKernelHash (P : Params) (K : StakeHash) (view : StakeView) (nBits : Nat) (blockFrom : CBlock)
    (nTxPrevOffset : Nat) (txPrev : CTransaction) (prevout : COutPoint) (nTimeTx : Nat)
    (fPrintProofOfStake : Bool) : Result Uint256 := do
  require (txPrev.nTime ≤ nTimeTx) 0 "CheckStakeKernelHash() : nTime violation"
  require (kernelMinAge P blockFrom.nTime nTimeTx) 0 "CheckStakeKernelHash() : min age violation"
  let bnTargetPerCoinDay := setCompact nBits
  let nValueIn := ((txPrev.vout[prevout.n]?).map CTxOut.nValue).getD 0
  let bnCoinDayWeight :=
    ((nValueIn * kernelTimeWeight P txPrev.nTime nTimeTx).tdiv COIN).tdiv (24 * 60 * 60)
  let seed ←
    if isProtocolV03 nTimeTx then do
      let (nStakeModifier, _, _) ← getKernelStakeModifier P view (blockFrom.getHash P) fPrintProofOfStake
      pure nStakeModifier
    else pure nBits
  let hashProofOfStake := K.hashKernel
    { fProtocolV03 := isProtocolV03 nTimeTx, seed, nTimeBlockFrom := blockFrom.nTime, nTxPrevOffset
      nTimeTxPrev := txPrev.nTime, nPrevout := prevout.n, nTimeTx }
  require ((hashProofOfStake : Int) ≤ bnCoinDayWeight * bnTargetPerCoinDay) 0 ""
  pure hashProofOfStake

end Peershares
