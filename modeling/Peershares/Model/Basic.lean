import Mathlib.Data.List.AList
import Mathlib.Tactic.Linarith
import Mathlib.Tactic.Ring

/-!
# Transactions, blocks and the parameters of the program

The data model of `main.h`: outpoints, inputs, outputs, transactions and blocks, with the
predicates and the serialized sizes the validation code reads off them.

Three conventions hold throughout the development.

* A 256-bit hash is a natural number (`Uint256`); the null hash is `0`. Nothing below depends on
  the width.
* Amounts are `Int` (`int64` in the source). Every amount that enters an accumulator has passed
  `MoneyRange`, which is checked on each summand and on each partial sum.
* A function of the source that returns `false` through `error(..)` or `DoS(n, error(..))`, or that
  throws, returns an `Except Failure`. The text and the score are those of the source (the
  arguments of a format string are left out).

The hash function, the signature check and the script interpreter are the fields of `Params`;
every result holds for each choice of them.
-/

namespace Peershares

/-! ### Constants -/

/-- A 256-bit hash. -/
abbrev Uint256 := Nat

/-- A serialized script. -/
abbrev CScript := List UInt8

def COIN : Int := 1000000
def CENT : Int := 10000
def MAX_BLOCK_SIZE : Nat := 1000000
def MAX_BLOCK_SIZE_GEN : Nat := MAX_BLOCK_SIZE / 2
def MAX_BLOCK_SIGOPS : Nat := MAX_BLOCK_SIZE / 50
def MIN_TX_FEE : Int := CENT
def MIN_RELAY_TX_FEE : Int := CENT
def MAX_MONEY : Int := 2000000000 * COIN
def MIN_TXOUT_AMOUNT : Int := MIN_TX_FEE
def LOCKTIME_THRESHOLD : Int := 500000000
def STAKE_TARGET_SPACING : Int := 60 * 30
def IPO_SHARES : Int := 1000000 * COIN
def PROOF_OF_WORK_BLOCKS : Int := 400
/-- Two hours: how far a block time may run ahead of the clock, or behind its parent. -/
def nMaxClockDrift : Int := 2 * 60 * 60
/-- The largest `unsigned int`. -/
def UINT_MAX : Nat := 2 ^ 32 - 1

def moneyRange (nValue : Int) : Bool := 0 ≤ nValue && nValue ≤ MAX_MONEY

/-- `MoneyRange` as two inequalities. -/
theorem moneyRange_iff {n : Int} : moneyRange n = true ↔ 0 ≤ n ∧ n ≤ MAX_MONEY := by
  simp [moneyRange]

/-! ### Failures -/

/-- The ways a validation function ends without success. -/
inductive Failure where
  /-- `return DoS(nDoS, error(msg))`; a plain `return error(msg)` has score `0`, and a plain
  `return false` the empty text as well. -/
  | error (nDoS : Nat) (msg : String)
  /-- A thrown `std::runtime_error`. -/
  | exception (what : String)
  /-- A failed `assert`, or a null pointer that is followed: the process ends. -/
  | assertion
deriving DecidableEq, Repr

/-- Does the function return `false`? Otherwise it throws or aborts. -/
def Failure.isReturn : Failure → Bool
  | .error _ _ => true
  | .exception _ => false
  | .assertion => false

abbrev Result := Except Failure

/-- `if (!cond) return DoS(nDoS, error(msg));` -/
def require (cond : Bool) (nDoS : Nat) (msg : String) : Result Unit :=
  if cond then .ok () else .error (.error nDoS msg)

/-- A check is passed when its condition holds. -/
@[simp] theorem require_eq_ok {cond : Bool} {nDoS : Nat} {msg : String} {u : Unit} :
    require cond nDoS msg = .ok u ↔ cond = true := by
  unfold require
  split <;> simp_all

/-- A computation in `Result` succeeds exactly when its two halves do. -/
theorem Result.bind_eq_ok {α β : Type} {x : Result α} {f : α → Result β} {b : β} :
    (x >>= f) = .ok b ↔ ∃ a, x = .ok a ∧ f a = .ok b := by
  cases x with
  | error e => simp [bind, Except.bind]
  | ok a => simp [bind, Except.bind]

/-- What comes after a value. -/
theorem Result.ok_bind {α β : Type} (a : α) (f : α → Result β) :
    ((.ok a : Result α) >>= f) = f a := rfl

/-- A value that was returned. -/
theorem Result.eq_ok_of_toOption {α : Type} {x : Result α} {a : α} (h : x.toOption = some a) :
    x = .ok a := by
  cases x with
  | error e => exact absurd h (by simp [Except.toOption])
  | ok b =>
    cases h
    rfl

/-- A computation that may return `false` but does not throw. -/
def Result.NoThrow {α : Type} (x : Result α) : Prop := ∀ e, x = .error e → e.isReturn = true

/-- A value is no throw. -/
theorem Result.noThrow_ok {α : Type} (a : α) : Result.NoThrow (.ok a) := by
  intro e h
  cases h

/-- Nor is an error. -/
theorem Result.noThrow_error {α : Type} (nDoS : Nat) (msg : String) :
    Result.NoThrow (.error (.error nDoS msg) : Result α) := by
  intro e h
  cases h
  rfl

/-- Nor is a check, whatever it finds. -/
theorem Result.noThrow_require (cond : Bool) (nDoS : Nat) (msg : String) :
    (require cond nDoS msg).NoThrow := by
  unfold require
  split_ifs
  · exact Result.noThrow_ok _
  · exact Result.noThrow_error _ _

/-- Two steps that throw nothing. -/
theorem Result.NoThrow.bind {α β : Type} {x : Result α} {f : α → Result β} (hx : x.NoThrow)
    (hf : ∀ a, x = .ok a → (f a).NoThrow) : (x >>= f).NoThrow := by
  cases x with
  | error e =>
    intro e' h
    cases h
    exact hx e rfl
  | ok a => exact hf a rfl

/-! ### Transactions -/

structure COutPoint where
  hash : Uint256
  n : Nat
deriving DecidableEq, Repr

namespace COutPoint

/-- `SetNull`: the outpoint of a coinbase input. -/
def null : COutPoint := ⟨0, UINT_MAX⟩

def isNull (o : COutPoint) : Bool := o.hash = 0 && o.n = UINT_MAX

end COutPoint

structure CTxIn where
  prevout : COutPoint
  scriptSig : CScript
  nSequence : Nat := UINT_MAX
deriving DecidableEq, Repr

def CTxIn.isFinal (txin : CTxIn) : Bool := txin.nSequence = UINT_MAX

structure CTxOut where
  nValue : Int
  scriptPubKey : CScript
deriving DecidableEq, Repr

namespace CTxOut

/-- `SetEmpty`. -/
def empty : CTxOut := ⟨0, []⟩

def isEmpty (txout : CTxOut) : Bool := txout.nValue = 0 && txout.scriptPubKey.isEmpty

end CTxOut

structure CTransaction where
  nVersion : Int := 1
  nTime : Nat
  vin : List CTxIn
  vout : List CTxOut
  nLockTime : Nat := 0
deriving DecidableEq, Repr

/-! ### Serialized sizes -/

/-- `GetSizeOfCompactSize`. -/
def getSizeOfCompactSize (nSize : Nat) : Nat :=
  if nSize < 253 then 1 else if nSize ≤ 65535 then 3 else if nSize ≤ UINT_MAX then 5 else 9

/-- A byte vector with its compact size in front. -/
def sizeOfBytes (v : List UInt8) : Nat := getSizeOfCompactSize v.length + v.length

def CTxIn.getSerializeSize (txin : CTxIn) : Nat := 36 + sizeOfBytes txin.scriptSig + 4

def CTxOut.getSerializeSize (txout : CTxOut) : Nat := 8 + sizeOfBytes txout.scriptPubKey

namespace CTransaction

/-- `::GetSerializeSize(tx, ..)`: version, time, inputs, outputs, lock time. -/
def getSerializeSize (tx : CTransaction) : Nat :=
  4 + 4 + (getSizeOfCompactSize tx.vin.length + (tx.vin.map CTxIn.getSerializeSize).sum)
    + (getSizeOfCompactSize tx.vout.length + (tx.vout.map CTxOut.getSerializeSize).sum) + 4

/-- A transaction has bytes. -/
theorem getSerializeSize_pos (tx : CTransaction) : 0 < tx.getSerializeSize := by
  unfold getSerializeSize
  omega

/-! ### Kinds of transactions -/

def isCoinBase (tx : CTransaction) : Bool :=
  match tx.vin with
  | [txin] => txin.prevout.isNull && 1 ≤ tx.vout.length
  | _ => false

/-- A coinstake is marked by an empty first output. -/
def isCoinStake (tx : CTransaction) : Bool :=
  match tx.vin, tx.vout with
  | txin :: _, txout :: _ :: _ => !txin.prevout.isNull && txout.isEmpty
  | _, _ => false

/-- A coinstake is no coinbase: its first input is not null. -/
theorem isCoinBase_of_isCoinStake {tx : CTransaction} (h : tx.isCoinStake = true) :
    tx.isCoinBase = false := by
  unfold isCoinStake at h
  split at h
  · next txin vin _ _ _ hvin _ =>
    rw [Bool.and_eq_true, Bool.not_eq_true'] at h
    unfold isCoinBase
    rw [hvin]
    cases vin with
    | nil => simp [h.1]
    | cons txin' vin => rfl
  · exact absurd h (by simp)

/-- Coinbase or coinstake: the transactions whose outputs have to mature. -/
def isGenerated (tx : CTransaction) : Bool := tx.isCoinBase || tx.isCoinStake

/-- `IsFinal(nBlockHeight, nBlockTime)`, with the defaults `nBestHeight` and `GetAdjustedTime()`
that a zero argument stands for. -/
def isFinal (tx : CTransaction) (nBestHeight nAdjustedTime nBlockHeight nBlockTime : Int) : Bool :=
  if tx.nLockTime = 0 then true
  else
    let nBlockHeight := if nBlockHeight = 0 then nBestHeight else nBlockHeight
    let nBlockTime := if nBlockTime = 0 then nAdjustedTime else nBlockTime
    if (tx.nLockTime : Int)
        < (if (tx.nLockTime : Int) < LOCKTIME_THRESHOLD then nBlockHeight else nBlockTime) then
      true
    else tx.vin.all CTxIn.isFinal

/-- `GetValueOut`: the sum of the outputs. It throws when an output or a partial sum leaves the
money range. -/
def getValueOut (tx : CTransaction) : Result Int := loop tx.vout 0
where
  loop : List CTxOut → Int → Result Int
    | [], nValueOut => .ok nValueOut
    | txout :: vout, nValueOut =>
      if !moneyRange txout.nValue || !moneyRange (nValueOut + txout.nValue) then
        .error (.exception "CTransaction::GetValueOut() : value out of range")
      else loop vout (nValueOut + txout.nValue)

/-- The sum of the outputs of a transaction. -/
def valueOut (tx : CTransaction) : Int := (tx.vout.map CTxOut.nValue).sum

/-- The loop of `GetValueOut`, when it returns. -/
theorem getValueOut_loop_eq_ok {vout : List CTxOut} {acc v : Int}
    (h : getValueOut.loop vout acc = .ok v) : v = acc + (vout.map CTxOut.nValue).sum := by
  induction vout generalizing acc with
  | nil =>
    simp only [getValueOut.loop, Except.ok.injEq] at h
    simp [h]
  | cons o vout ih =>
    simp only [getValueOut.loop] at h
    split at h
    · exact absurd h (by simp)
    · rw [ih h, List.map_cons, List.sum_cons]
      ring

/-- When `GetValueOut` returns, it returns the sum of the outputs. -/
theorem getValueOut_eq_ok {tx : CTransaction} {v : Int} (h : tx.getValueOut = .ok v) :
    v = tx.valueOut := by
  simpa [valueOut] using getValueOut_loop_eq_ok h

/-- `GetMinFee` modes. -/
inductive GetMinFeeMode where
  | GMF_BLOCK
  | GMF_RELAY
  | GMF_SEND
deriving DecidableEq, Repr

/-- `GetMinFee(nBlockSize, fAllowFree, mode)`. -/
def getMinFee (tx : CTransaction) (nBlockSize : Nat := 1) (fAllowFree : Bool := false)
    (mode : GetMinFeeMode := .GMF_BLOCK) : Int :=
  let nBaseFee := if mode = .GMF_RELAY then MIN_RELAY_TX_FEE else MIN_TX_FEE
  let nBytes := tx.getSerializeSize
  let nNewBlockSize := nBlockSize + nBytes
  let nMinFee : Int := (1 + (nBytes : Int) / 1000) * nBaseFee
  let nMinFee :=
    if fAllowFree then
      if nBlockSize = 1 then if nBytes < 10000 then 0 else nMinFee
      else if nNewBlockSize < 27000 then 0 else nMinFee
    else nMinFee
  -- to limit dust spam, the base fee is due when an output is below a cent
  let nMinFee :=
    if nMinFee < nBaseFee && tx.vout.any (fun txout => txout.nValue < CENT) then nBaseFee
    else nMinFee
  -- the price rises as the block approaches full
  if nBlockSize ≠ 1 ∧ MAX_BLOCK_SIZE_GEN / 2 ≤ nNewBlockSize ∧ MAX_BLOCK_SIZE_GEN ≤ nNewBlockSize then
    MAX_MONEY
  else
    let nMinFee :=
      if nBlockSize ≠ 1 ∧ MAX_BLOCK_SIZE_GEN / 2 ≤ nNewBlockSize then
        nMinFee * ((MAX_BLOCK_SIZE_GEN / (MAX_BLOCK_SIZE_GEN - nNewBlockSize) : Nat) : Int)
      else nMinFee
    if moneyRange nMinFee then nMinFee else MAX_MONEY

/-- The fee every block demands is at least the base fee. -/
theorem le_getMinFee (tx : CTransaction) : MIN_TX_FEE ≤ tx.getMinFee := by
  have hb : 0 ≤ (tx.getSerializeSize : Int) / 1000 := by omega
  have h1 : MIN_TX_FEE ≤ (1 + (tx.getSerializeSize : Int) / 1000) * MIN_TX_FEE := by
    have : (0 : Int) ≤ MIN_TX_FEE := by norm_num [MIN_TX_FEE, CENT]
    nlinarith
  have h2 : MIN_TX_FEE ≤ MAX_MONEY := by norm_num [MIN_TX_FEE, CENT, MAX_MONEY, COIN]
  unfold getMinFee
  simp only [reduceCtorEq, if_false, ne_eq, not_true_eq_false, false_and, Bool.false_eq_true]
  split_ifs <;> with_reducible first | exact h2 | exact h1 | exact le_refl _

end CTransaction

/-! ### Blocks -/

structure CBlock where
  nVersion : Int := 1
  hashPrevBlock : Uint256
  hashMerkleRoot : Uint256
  nTime : Nat
  nBits : Nat
  nNonce : Nat
  vtx : List CTransaction
  vchBlockSig : List UInt8
deriving DecidableEq, Repr

/-- The code the model takes as given: the network it runs on, the OpenSSL hash functions and key
verification, and the script interpreter. -/
structure Params where
  fTestNet : Bool
  /-- `SerializeHash` of a transaction. -/
  hashTx : CTransaction → Uint256
  /-- `Hash(BEGIN(nVersion), END(nNonce))`: a block hash is a hash of the six header fields. -/
  hashHeader : Int → Uint256 → Uint256 → Nat → Nat → Nat → Uint256
  /-- `Hash(BEGIN(a), END(a), BEGIN(b), END(b))`, used by the Merkle tree. -/
  hashPair : Uint256 → Uint256 → Uint256
  /-- `Hash160`: the RIPEMD-160 of the SHA-256 of a byte vector. -/
  hash160 : List UInt8 → List UInt8
  hash160_length : ∀ v, (hash160 v).length = 20
  /-- `CKey::SetPubKey` followed by `CKey::Verify`. -/
  verifyKey : List UInt8 → Uint256 → List UInt8 → Bool
  /-- `VerifyScript(scriptSig, scriptPubKey, txTo, nIn, fValidatePayToScriptHash, 0)`. -/
  verifyScript : CScript → CScript → CTransaction → Nat → Bool → Bool

/-- A `Hash160` for sample networks: twenty zero bytes. -/
theorem length_zeroHash160 (_ : List UInt8) : (List.replicate 20 (0 : UInt8)).length = 20 := rfl

namespace Params

variable (P : Params)

/-- `nCoinbaseMaturity`, as `LoadBlockIndex` sets it for the network. -/
def nCoinbaseMaturity : Int := if P.fTestNet then 60 else 100

/-- `nStakeMinAge`, as `LoadBlockIndex` sets it for the network. -/
def nStakeMinAge : Int := if P.fTestNet then 300 else 60 * 60 * 24 * 3

end Params

namespace CBlock

def getHash (P : Params) (block : CBlock) : Uint256 :=
  P.hashHeader block.nVersion block.hashPrevBlock block.hashMerkleRoot block.nTime block.nBits
    block.nNonce

def getBlockTime (block : CBlock) : Int := block.nTime

/-- A block is proof-of-stake when its second transaction is a coinstake. -/
def isProofOfStake (block : CBlock) : Bool :=
  match block.vtx with
  | _ :: tx :: _ => tx.isCoinStake
  | _ => false

def isProofOfWork (block : CBlock) : Bool := !block.isProofOfStake

/-- `GetMaxTransactionTime`. -/
def getMaxTransactionTime (block : CBlock) : Int :=
  block.vtx.foldl (fun nMax tx => max nMax (tx.nTime : Int)) 0

/-- The size of a serialized header. -/
def headerSize : Nat := 80

/-- `::GetSerializeSize(block, ..)` with transactions and signature. -/
def getSerializeSize (block : CBlock) : Nat :=
  headerSize
    + (getSizeOfCompactSize block.vtx.length + (block.vtx.map CTransaction.getSerializeSize).sum)
    + sizeOfBytes block.vchBlockSig

/-- One level of the Merkle tree over the one below; an odd last hash is paired with itself. -/
def merkleLevel (P : Params) : List Uint256 → List Uint256
  | [] => []
  | [a] => [P.hashPair a a]
  | a :: b :: hs => P.hashPair a b :: merkleLevel P hs

/-- The last element of `vMerkleTree`: levels are built until one hash is left. Every level is
shorter than the one below, so as many rounds as there are hashes are enough. -/
def merkleRoot (P : Params) : Nat → List Uint256 → Uint256
  | _, [] => 0
  | _, [h] => h
  | 0, h :: _ => h
  | nRounds + 1, hs => merkleRoot P nRounds (merkleLevel P hs)

/-- `BuildMerkleTree`: the root over the transaction hashes, `0` when there are none. -/
def buildMerkleTree (P : Params) (block : CBlock) : Uint256 :=
  merkleRoot P block.vtx.length (block.vtx.map P.hashTx)

end CBlock

end Peershares
