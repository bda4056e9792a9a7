import Peershares.Framework.Loop
import Peershares.Model.AddrMan
import Peershares.Model.Balance

/-!
# Creating a transaction

`CWallet::CreateTransaction`. A coin of `setCoins` is the wallet transaction the pointer leads to with an
output of it.

Each round of the loop selects coins, draws a random number and signs anew, so what the functions it calls
answer is given by round (`CreateEnv`). The fee option is at most ten digits of whole coins, so a fee of at
most 250 times the option and an amount in the money range stay far below the largest `int64`; they are
integers here. The payees are added up as in the source, where the sum may wrap around.
-/

open Framework

namespace Peershares

/-- `pcoin`, a `pair<const CWalletTx*, unsigned int>`. -/
structure PCoin where
  first : CTransaction
  second : Nat
deriving DecidableEq, Repr

namespace PCoin

/-- `pcoin.first->vout[pcoin.second]`. -/
def txout? (pcoin : PCoin) : Option CTxOut := pcoin.first.vout[pcoin.second]?

def nValue (pcoin : PCoin) : Int := (pcoin.txout?.map CTxOut.nValue).getD 0

def scriptPubKey (pcoin : PCoin) : CScript := (pcoin.txout?.map CTxOut.scriptPubKey).getD []

/-- `CTxIn(pcoin.first->GetHash(), pcoin.second)`. -/
def txin (P : Params) (pcoin : PCoin) : CTxIn where
  prevout := ⟨P.hashTx pcoin.first, pcoin.second⟩
  scriptSig := []

end PCoin

/-- The value of a selection. -/
def valueOf (setCoins : List PCoin) : Int := (setCoins.map PCoin.nValue).sum

/-! ### Signing -/

/-- The loop over the coins that signs one input after the other. -/
def signInputs (signSignature : CTransaction → PCoin → Nat → Option CScript) :
    List PCoin → Nat → CTransaction → Option CTransaction
  | [], _, txTo => some txTo
  | pcoin :: setCoins, nIn, txTo =>
    match signSignature txTo pcoin nIn with
    | none => none
    | some scriptSig =>
      signInputs signSignature setCoins (nIn + 1)
        { txTo with vin := txTo.vin.modify nIn fun txin => { txin with scriptSig } }

/-! ### The fee loop -/

/-- The settings, and what the functions that are called answer in each round. -/
structure CreateEnv where
  nTransactionFee : Int
  /-- `GetBoolArg("-avatar", true)`. -/
  fAvatar : Bool
  /-- `reservekey.GetReservedKey()`, which has a key or ends the process. -/
  getReservedKey : Nat → List UInt8
  /-- `SelectCoins` with a target and a time: `setCoins` in its order and `nValueIn`. -/
  selectCoins : Nat → Int → Nat → Option (List PCoin × Int)
  /-- The random bytes behind `GetRandInt`. -/
  nRand : Nat → Nat
  /-- `SignSignature`: the `scriptSig` of an input. -/
  signSignature : Nat → CTransaction → PCoin → Nat → Option CScript

/-- A round of the loop begins with the fee that the ones before have come to. -/
structure FeeRound where
  nRound : Nat
  nFeeRet : Int
deriving DecidableEq, Repr

/-- `nFeeRet`, and `wtxNew` when the answer is `true`. -/
structure CreateResult where
  wtxNew : Option CTransaction
  nFeeRet : Int
deriving DecidableEq, Repr

/-- Change of less than a cent goes to the fee: `nChange` and `nFeeRet` after the two rules. -/
def moveToFee (nChange nFeeRet : Int) : Int × Int :=
  -- the fee is raised to at least the minimum, or until the change is zero
  let nMoveToFee :=
    if nFeeRet < MIN_TX_FEE ∧ 0 < nChange ∧ nChange < CENT then min nChange (MIN_TX_FEE - nFeeRet) else 0
  let nChange := nChange - nMoveToFee
  let nFeeRet := nFeeRet + nMoveToFee
  if 0 < nChange ∧ nChange < MIN_TXOUT_AMOUNT then (0, nFeeRet + nChange) else (nChange, nFeeRet)

/-- `vouts to the payees`. -/
def payeeOutputs (vecSend : List (CScript × Int)) : List CTxOut := vecSend.map fun s => ⟨s.2, s.1⟩

/-- Where the change goes: back to the last of the coins, unless avatar mode is off. -/
def CreateEnv.scriptChange (P : Params) (env : CreateEnv) (nRound : Nat) (setCoins : List PCoin) : CScript :=
  if env.fAvatar then (setCoins.getLast?.map PCoin.scriptPubKey).getD []
  else setBitcoinAddress P (env.getReservedKey nRound)

/-- The transaction of a round before it is signed. -/
def CreateEnv.assemble (P : Params) (env : CreateEnv) (nRound : Nat) (vecSend : List (CScript × Int))
    (setCoins : List PCoin) (nChange : Int) (wtxNew : CTransaction) : CTransaction :=
  let vout := payeeOutputs vecSend
  { wtxNew with
    vin := setCoins.map (PCoin.txin P)
    vout :=
      if 0 < nChange then
        vout.insertIdx (getRandInt (env.nRand nRound) vout.length)
          ⟨nChange, env.scriptChange P nRound setCoins⟩
      else vout }

/-- The fee that is tested in the end: by the option, and by the rules for a block. -/
def CreateEnv.requiredFee (env : CreateEnv) (wtxNew : CTransaction) : Int :=
  let nPayFee := env.nTransactionFee * (1 + (wtxNew.getSerializeSize : Int) / 1000)
  max nPayFee (wtxNew.getMinFee 1 false .GMF_SEND)

/-- One round of the loop. -/
def CreateEnv.round (P : Params) (env : CreateEnv) (vecSend : List (CScript × Int)) (nValue : Int)
    (wtxNew : CTransaction) (s : FeeRound) : FeeRound ⊕ CreateResult :=
  match env.selectCoins s.nRound (nValue + s.nFeeRet) wtxNew.nTime with
  | none => .inr ⟨none, s.nFeeRet⟩
  | some (setCoins, nValueIn) =>
    let (nChange, nFeeRet) := moveToFee (nValueIn - nValue - s.nFeeRet) s.nFeeRet
    match signInputs (env.signSignature s.nRound) setCoins 0
        (env.assemble P s.nRound vecSend setCoins nChange wtxNew) with
    | none => .inr ⟨none, nFeeRet⟩
    | some wtxNew =>
      if MAX_BLOCK_SIZE / 4 ≤ wtxNew.getSerializeSize then .inr ⟨none, nFeeRet⟩
      else if nFeeRet < env.requiredFee wtxNew then .inl ⟨s.nRound + 1, env.requiredFee wtxNew⟩
      else .inr ⟨some wtxNew, nFeeRet⟩

/-- The loop over the payees. -/
def sumPayees : List (CScript × Int) → Int → Option Int
  | [], nValue => some nValue
  | s :: vecSend, nValue => if nValue < 0 then none else sumPayees vecSend (addInt64 nValue s.2)

/-- `CWallet::CreateTransaction`, with fuel for its loop. -/
def createTransaction (P : Params) (env : CreateEnv) (vecSend : List (CScript × Int)) (wtxNew : CTransaction)
    (nFeeRet : Int) (fuel : Nat) : Option CreateResult :=
  match sumPayees vecSend 0 with
  | none => some ⟨none, nFeeRet⟩
  | some nValue =>
    if vecSend.isEmpty || nValue < 0 then some ⟨none, nFeeRet⟩
    else loop (env.round P vecSend nValue wtxNew) fuel ⟨0, env.nTransactionFee⟩

end Peershares
