import Peershares.Model.CreateTransaction
import Peershares.Model.Connect
import Peershares.Model.Kernel

/-!
# Minting

`CWallet::CreateCoinStake`. The search for a kernel goes through the selected coins and back in time for
each; the coin it finds is the first input of the coinstake. More coins of the same key may join it, the
stake reward is added, and the loop in the end signs until the fee is enough.

Times are `unsigned int`, and what is subtracted from a time wraps around. What the wallet is asked for is
given (`MintEnv`), with the signatures by round.
-/

open Framework

namespace Peershares

def nStakeSplitAge : Int := 60 * 60 * 24 * 90
def nMaxStakeSearchInterval : Nat := 60
def nCombineThreshold : Int := getProofOfWorkReward.tdiv 3

/-- `nTime - n`. -/
def backDated (nTime n : Nat) : Nat := (nTime + 2 ^ 32 - n) % 2 ^ 32

/-- What `CreateCoinStake` is given, and what the functions that it calls answer. -/
structure MintEnv where
  nBits : Nat
  nSearchInterval : Int
  /-- `GetBalance()`. -/
  nBalance : Int
  /-- `-reservebalance`, zero by default, and nothing when it cannot be parsed. -/
  nReserveBalance : Option Int
  /-- `SelectCoins` with a target and a time: `setCoins` in its order and `nValueIn`. -/
  selectCoins : Int → Nat → Option (List PCoin × Int)
  /-- The database and the block files. -/
  connect : ConnectEnv
  hashes : StakeHash
  view : StakeView
  /-- The flag before the `n`-th try for a coin, and after the last one. -/
  fShutdown : PCoin → Nat → Bool
  /-- `keystore.GetKey`: the public key of the key with this hash. -/
  getKey : List UInt8 → Option (List UInt8)
  /-- `SignSignature`: the `scriptSig` of an input. -/
  signSignature : Nat → CTransaction → PCoin → Nat → Option CScript

/-! ### The kernel -/

/-- A kernel: the coin, where its transaction is, how far back in time, and the script of the stake. -/
structure MintKernel where
  pcoin : PCoin
  block : CBlock
  nTxPrevOffset : Nat
  n : Nat
  scriptPubKeyOut : CScript

namespace MintEnv

variable (P : Params) (env : MintEnv)

/-- The script that the stake pays to: to the public key, when the kernel pays to that or to its hash. -/
def stakeScript (scriptPubKeyKernel : CScript) : Option CScript :=
  match solver scriptPubKeyKernel with
  | (true, .TX_PUBKEY, _) => some scriptPubKeyKernel
  | (true, .TX_PUBKEYHASH, vSolutions) =>
    (env.getKey (uint160 (vSolutions.headD []))).map fun vchPubKey => pushData vchPubKey ++ [OP_CHECKSIG]
  | _ => none

/-- `CheckStakeKernelHash` for a coin, `n` seconds back. -/
def checkKernel (nTime : Nat) (pcoin : PCoin) (block : CBlock) (nTxPrevOffset n : Nat) : Result Uint256 :=
  checkStakeKernelHash P env.hashes env.view env.nBits block nTxPrevOffset pcoin.first (pcoin.txin P).prevout
    (backDated nTime n) false

/-- The search back in time, for `nLeft` more seconds. A kernel without a script for the stake ends it. -/
def searchBack (nTime : Nat) (pcoin : PCoin) (block : CBlock) (nTxPrevOffset : Nat) :
    Nat → Nat → Option MintKernel
  | 0, _ => none
  | nLeft + 1, n =>
    if env.fShutdown pcoin n then none
    else
      match env.checkKernel P nTime pcoin block nTxPrevOffset n with
      | .error _ => searchBack nTime pcoin block nTxPrevOffset nLeft (n + 1)
      | .ok _ => (env.stakeScript pcoin.scriptPubKey).map fun scriptPubKeyOut =>
          { pcoin, block, nTxPrevOffset, n, scriptPubKeyOut }

/-- The loop over the coins. -/
def findKernel (nTime : Nat) : List PCoin → Option MintKernel
  | [] => none
  | pcoin :: setCoins =>
    match env.connect.txIndex.lookup (P.hashTx pcoin.first) with
    | none => findKernel nTime setCoins
    | some txindex =>
      match env.connect.files.readBlock txindex.pos.nFile txindex.pos.nBlockPos with
      | none => findKernel nTime setCoins
      | some block =>
        -- only coins meeting the minimum age requirement
        if (backDated nTime nMaxStakeSearchInterval : Int) < block.getBlockTime + P.nStakeMinAge then
          findKernel nTime setCoins
        else
          let nTries := (min env.nSearchInterval nMaxStakeSearchInterval).toNat
          match env.searchBack P nTime pcoin block (txindex.pos.nTxPos - txindex.pos.nBlockPos) nTries 0 with
          | some kernel => some kernel
          | none => if env.fShutdown pcoin nMaxStakeSearchInterval then none else findKernel nTime setCoins

end MintEnv

/-! ### More inputs -/

/-- The test `pcoin.first->nTime + STAKE_MAX_AGE > txNew.nTime`. -/
def tooYoung (pcoin : PCoin) (nTime : Nat) : Bool :=
  nTime < (pcoin.first.nTime + STAKE_MAX_AGE.toNat) % 2 ^ 32

/-- The coins of the same key join the kernel, up to `nLimit`. -/
def MintKernel.combine (P : Params) (kernel : MintKernel) (nLimit : Int) (nTime : Nat) :
    List PCoin → List PCoin × Int → List PCoin × Int
  | [], s => s
  | pcoin :: setCoins, (coins, nCredit) =>
    if (pcoin.scriptPubKey = kernel.pcoin.scriptPubKey ∨ pcoin.scriptPubKey = kernel.scriptPubKeyOut)
        ∧ P.hashTx pcoin.first ≠ P.hashTx kernel.pcoin.first then
      if 100 ≤ coins.length ∨ nCombineThreshold < nCredit ∨ nLimit < nCredit + pcoin.nValue then
        (coins, nCredit)
      else if nCombineThreshold < pcoin.nValue ∨ tooYoung pcoin nTime then
        kernel.combine P nLimit nTime setCoins (coins, nCredit)
      else kernel.combine P nLimit nTime setCoins (coins ++ [pcoin], nCredit + pcoin.nValue)
    else kernel.combine P nLimit nTime setCoins (coins, nCredit)

/-- The coinstake before its outputs have a value: `txNew`, the coins it spends, and `nCredit` with the
reward. -/
structure MintPlan where
  kernel : MintKernel
  fSplit : Bool
  coins : List PCoin
  nCredit : Int
  txNew : CTransaction

/-- The coins to spend. More inputs are added only when there is one output to pay to. -/
def MintKernel.inputs (P : Params) (kernel : MintKernel) (nLimit : Int) (nTime : Nat) (fSplit : Bool)
    (setCoins : List PCoin) : List PCoin × Int :=
  if fSplit then ([kernel.pcoin], kernel.pcoin.nValue)
  else kernel.combine P nLimit nTime setCoins ([kernel.pcoin], kernel.pcoin.nValue)

namespace MintEnv

variable (P : Params) (env : MintEnv)

/-- The coinstake of these coins, with the reward. -/
def planFor (kernel : MintKernel) (nTime : Nat) (fSplit : Bool) (coins : List PCoin) (nCredit : Int)
    (txNew : CTransaction) : Result MintPlan :=
  let txNew :=
    { txNew with
      nTime
      vin := coins.map (PCoin.txin P)
      vout := CTxOut.empty :: List.replicate (if fSplit then 2 else 1) ⟨0, kernel.scriptPubKeyOut⟩ }
  match txNew.getCoinAge P env.connect with
  | none => .error (.error 0 "CreateCoinStake : failed to calculate coin age")
  | some nCoinAge =>
    .ok { kernel, fSplit, coins, nCredit := nCredit + getProofOfStakeReward nCoinAge, txNew }

/-- A stake is split while its block is young. -/
def fSplit (kernel : MintKernel) (nTime : Nat) : Bool :=
  (nTime : Int) < kernel.block.getBlockTime + nStakeSplitAge

/-- `CreateCoinStake` up to the loop at its end. -/
def plan (txNew : CTransaction) : Result MintPlan :=
  match env.nReserveBalance with
  | none => .error (.error 0 "CreateCoinStake : invalid reserve balance amount")
  | some nReserveBalance =>
    if env.nBalance ≤ nReserveBalance then .error (.error 0 "")
    else
      match env.selectCoins (env.nBalance - nReserveBalance) txNew.nTime with
      | none => .error (.error 0 "")
      | some (setCoins, _) =>
        match env.findKernel P txNew.nTime setCoins with
        | none => .error (.error 0 "")
        | some kernel =>
          if kernel.pcoin.nValue = 0 ∨ env.nBalance - nReserveBalance < kernel.pcoin.nValue then
            .error (.error 0 "")
          else
            let nTime := backDated txNew.nTime kernel.n
            let inputs := kernel.inputs P (env.nBalance - nReserveBalance) nTime (fSplit kernel nTime) setCoins
            env.planFor P kernel nTime (fSplit kernel nTime) inputs.1 inputs.2 txNew

end MintEnv

/-! ### The fee loop -/

/-- A round begins with the fee so far and the coinstake as it was signed last. -/
structure MintRound where
  nRound : Nat
  nMinFee : Int
  txNew : CTransaction

/-- `Set output amount`. -/
def CTransaction.payStake (tx : CTransaction) (nPayout : Int) : CTransaction :=
  match tx.vout with
  | [mark, first, second] =>
    let nValue := (nPayout.tdiv 2).tdiv CENT * CENT
    { tx with vout := [mark, { first with nValue }, { second with nValue := nPayout - nValue }] }
  | mark :: first :: vout => { tx with vout := mark :: { first with nValue := nPayout } :: vout }
  | _ => tx

/-- One round of the loop. -/
def MintEnv.round (env : MintEnv) (plan : MintPlan) (s : MintRound) : MintRound ⊕ Result CTransaction :=
  match signInputs (env.signSignature s.nRound) plan.coins 0 (s.txNew.payStake (plan.nCredit - s.nMinFee)) with
  | none => .inr (.error (.error 0 "CreateCoinStake : failed to sign coinstake"))
  | some txNew =>
    if MAX_BLOCK_SIZE_GEN / 5 ≤ txNew.getSerializeSize then
      .inr (.error (.error 0 "CreateCoinStake : exceeded coinstake size limit"))
    else if s.nMinFee < txNew.getMinFee - MIN_TX_FEE then
      .inl ⟨s.nRound + 1, txNew.getMinFee - MIN_TX_FEE, txNew⟩
    else .inr (.ok txNew)

/-- `CWallet::CreateCoinStake`, with fuel for the loop at its end. -/
def createCoinStake (P : Params) (env : MintEnv) (txNew : CTransaction) (fuel : Nat) :
    Option (Result CTransaction) :=
  match env.plan P txNew with
  | .error e => some (.error e)
  | .ok plan => loop (env.round plan) fuel ⟨0, 0, plan.txNew⟩

end Peershares
