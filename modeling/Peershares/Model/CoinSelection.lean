import Mathlib.Data.List.Sort
import Mathlib.Data.Prod.Lex
import Peershares.Framework.Subset
import Peershares.Model.Balance

/-!
# Coin selection

`CWallet::SelectCoinsMinConf`. A coin is a pointer to a wallet transaction with an output index; the pointer
stands for the key of the transaction in `mapWallet`. The amounts are `int64`: a sum that does not fit wraps
around.

What is random is an argument: the order `vCoins` that `random_shuffle` leaves, and `rand() % 2` for each
repetition and coin. So are the addresses of the wallet transactions, which the sort falls back on.
-/

open Framework

namespace Peershares

/-- `pair<const CWalletTx*, unsigned int>`. -/
abbrev WalletCoin := Uint256 × Nat

/-- `setCoinsRet`, `nValueRet` and the answer. -/
structure Selected where
  fOk : Bool
  setCoinsRet : Finset WalletCoin
  nValueRet : Int
deriving DecidableEq

/-- The coins are inserted and their values added. -/
def Selected.of (coins : List (Int × WalletCoin)) : Selected where
  fOk := true
  setCoinsRet := (coins.map Prod.snd).toFinset
  nValueRet := coins.foldl (fun nValueRet coin => addInt64 nValueRet coin.1) 0

/-! ### The coins of the wallet -/

namespace AccountWallet

variable (P : Params) (chain : ChainView) (w : AccountWallet)

/-- The checks on a wallet transaction. -/
def spendable (nConfMine nConfTheirs : Int) (hash : Uint256) (wtx : CachedTx) : Result Bool :=
  if !chain.isFinal wtx.tx then .ok false
  else do
    let confirmed ← w.isConfirmed P chain hash wtx
    if !confirmed then pure false
    else if wtx.tx.isGenerated && 0 < chain.blocksToMaturity P wtx then pure false
    else do
      let nDebit ← (wtx.getDebit P w.toCacheWallet).1
      pure ((if 0 < nDebit then nConfMine else nConfTheirs) ≤ chain.depth wtx)

/-- The checks on an output. -/
def spendableOutput (nSpendTime : Nat) (wtx : CachedTx) (i : Nat) (txout : CTxOut) : Bool :=
  !wtx.vfSpent.getD i false && w.isMine P txout && wtx.tx.nTime ≤ nSpendTime && 0 < txout.nValue

/-- The outputs of a wallet transaction that pass. -/
def coinsOf (nSpendTime : Nat) (hash : Uint256) (wtx : CachedTx) : List (Int × WalletCoin) :=
  (wtx.tx.vout.zipIdx.filter (fun p => w.spendableOutput P nSpendTime wtx p.2 p.1)).map
    (fun p => (p.1.nValue, (hash, p.2)))

end AccountWallet

/-! ### The values less than the target -/

/-- The variables of the first loop. -/
structure CoinScan where
  /-- Without a coin the value is the largest `int64`. -/
  coinLowestLarger : Int × Option WalletCoin := (2 ^ 63 - 1, none)
  vValue : List (Int × WalletCoin) := []
  nTotalLower : Int := 0

/-- The outputs of one transaction, up to one that has the value of the target. -/
def CoinScan.scanOutputs (nTargetValue : Int) : List (Int × WalletCoin) → CoinScan → CoinScan ⊕ (Int × WalletCoin)
  | [], s => .inl s
  | coin :: coins, s =>
    if coin.1 = nTargetValue then .inr coin
    else if coin.1 < addInt64 nTargetValue CENT then
      scanOutputs nTargetValue coins
        { s with vValue := s.vValue ++ [coin], nTotalLower := addInt64 s.nTotalLower coin.1 }
    else if coin.1 < s.coinLowestLarger.1 then
      scanOutputs nTargetValue coins { s with coinLowestLarger := (coin.1, some coin.2) }
    else scanOutputs nTargetValue coins s

namespace AccountWallet

variable (P : Params) (chain : ChainView) (w : AccountWallet)

/-- The loop over the wallet transactions. -/
def scanCoins (nTargetValue : Int) (nSpendTime : Nat) (nConfMine nConfTheirs : Int) :
    List (Sigma fun _ : Uint256 => CachedTx) → CoinScan → Result (CoinScan ⊕ (Int × WalletCoin))
  | [], s => .ok (.inl s)
  | pcoin :: vCoins, s => do
    let fSpendable ← w.spendable P chain nConfMine nConfTheirs pcoin.1 pcoin.2
    if !fSpendable then scanCoins nTargetValue nSpendTime nConfMine nConfTheirs vCoins s
    else
      match s.scanOutputs nTargetValue (w.coinsOf P nSpendTime pcoin.1 pcoin.2) with
      | .inr coin => pure (.inr coin)
      | .inl s => scanCoins nTargetValue nSpendTime nConfMine nConfTheirs vCoins s

end AccountWallet

/-! ### The stochastic approximation -/

/-- The variables of the search. -/
structure SubsetSearch where
  vfIncluded : List Bool := []
  nTotal : Int := 0
  fReachedTarget : Bool := false
  vfBest : List Bool
  nBest : Int

namespace SubsetSearch

variable (nTargetValue : Int)

/-- The coin `i` is included, unless the target is reached with it: then the subset is compared with the
best one and the coin taken out again. -/
def tryCoin (i : Nat) (n : Int) (s : SubsetSearch) : SubsetSearch :=
  let nTotal := addInt64 s.nTotal n
  let vfIncluded := s.vfIncluded.set i true
  if nTargetValue ≤ nTotal then
    { vfIncluded := vfIncluded.set i false
      nTotal := addInt64 nTotal (-n)
      fReachedTarget := true
      vfBest := if nTotal < s.nBest then vfIncluded else s.vfBest
      nBest := if nTotal < s.nBest then nTotal else s.nBest }
  else { s with vfIncluded, nTotal }

/-- One pass over the coins, from the coin `i` on. -/
def pass (wanted : Nat → SubsetSearch → Bool) : List (Int × WalletCoin) → Nat → SubsetSearch → SubsetSearch
  | [], _, s => s
  | coin :: vValue, i, s =>
    pass wanted vValue (i + 1) (if wanted i s then s.tryCoin nTargetValue i coin.1 else s)

/-- One repetition: the first pass takes coins at random, the second one those that are left. -/
def repetition (vValue : List (Int × WalletCoin)) (fRand : Nat → Bool) (s : SubsetSearch) : SubsetSearch :=
  let s := { s with vfIncluded := List.replicate vValue.length false, nTotal := 0, fReachedTarget := false }
  let s := s.pass nTargetValue (fun i _ => fRand i) vValue 0
  if s.fReachedTarget then s
  else s.pass nTargetValue (fun i s => !s.vfIncluded.getD i false) vValue 0

/-- The repetitions from `nRep` on, at most `nLeft`. -/
def repetitions (vValue : List (Int × WalletCoin)) (fRand : Nat → Nat → Bool) :
    Nat → Nat → SubsetSearch → SubsetSearch
  | 0, _, s => s
  | nLeft + 1, nRep, s =>
    if s.nBest = nTargetValue then s
    else repetitions vValue fRand nLeft (nRep + 1) (s.repetition nTargetValue vValue (fRand nRep))

end SubsetSearch

/-! ### `SelectCoinsMinConf` -/

namespace CoinScan

/-- `sort(vValue.rbegin(), vValue.rend())`: the largest first. -/
def sortCoins (address : Uint256 → Nat) (vValue : List (Int × WalletCoin)) : List (Int × WalletCoin) :=
  vValue.insertionSort fun a b =>
    toLex (b.1, toLex (address b.2.1, b.2.2)) ≤ toLex (a.1, toLex (address a.2.1, a.2.2))

/-- "Solve subset sum by stochastic approximation": the subset found. -/
def bestSubset (address : Uint256 → Nat) (fRand : Nat → Nat → Bool) (nTargetValue : Int) (s : CoinScan) :
    SubsetSearch :=
  SubsetSearch.repetitions nTargetValue (sortCoins address s.vValue) fRand 1000 0
    { vfBest := List.replicate s.vValue.length true, nBest := s.nTotalLower }

/-- The answer of the search, or the next larger coin if that is closer. -/
def closest (address : Uint256 → Nat) (fRand : Nat → Nat → Bool) (nTargetValue : Int) (s : CoinScan) :
    Selected :=
  let best := s.bestSubset address fRand nTargetValue
  let subset := Selected.of (chosen (sortCoins address s.vValue) best.vfBest)
  match s.coinLowestLarger with
  | (_, none) => subset
  | (n, some coin) =>
    if addInt64 n (-nTargetValue) ≤ addInt64 best.nBest (-nTargetValue) then Selected.of [(n, coin)]
    else subset

/-- `SelectCoinsMinConf` after the first loop. -/
def select (address : Uint256 → Nat) (fRand : Nat → Nat → Bool) (nTargetValue : Int) (s : CoinScan) :
    Selected :=
  if s.nTotalLower = nTargetValue ∨ s.nTotalLower = addInt64 nTargetValue CENT then Selected.of s.vValue
  else if s.nTotalLower < addInt64 nTargetValue (if s.coinLowestLarger.2.isSome then CENT else 0) then
    match s.coinLowestLarger with
    | (_, none) => ⟨false, ∅, 0⟩
    | (n, some coin) => Selected.of [(n, coin)]
  else
    s.closest address fRand
      (if addInt64 nTargetValue CENT ≤ s.nTotalLower then addInt64 nTargetValue CENT else nTargetValue)

end CoinScan

/-- `CWallet::SelectCoinsMinConf`. -/
def AccountWallet.selectCoinsMinConf (P : Params) (chain : ChainView) (w : AccountWallet) (nTargetValue : Int)
    (nSpendTime : Nat) (nConfMine nConfTheirs : Int) (vCoins : List (Sigma fun _ : Uint256 => CachedTx))
    (address : Uint256 → Nat) (fRand : Nat → Nat → Bool) : Result Selected := do
  let scanned ← w.scanCoins P chain nTargetValue nSpendTime nConfMine nConfTheirs vCoins {}
  match scanned with
  | .inr coin => pure (Selected.of [coin])
  | .inl s => pure (s.select address fRand nTargetValue)

end Peershares
