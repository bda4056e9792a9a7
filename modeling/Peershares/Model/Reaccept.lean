import Peershares.Framework.Loop
import Peershares.Model.Connect
import Peershares.Model.Wallet

/-!
# Going over a wallet again

`ReacceptWalletTransactions`, which compares the flags of a wallet with the transaction index when the wallet is
loaded, and `ScanForWalletTransactions`, which it calls when it has found an output that was spent elsewhere.

A transaction that is not in the index goes to the memory pool again. Nothing comes back from there to the wallet,
so this is left out. The blocks of the main chain can be read.
-/

open Framework

namespace Peershares

namespace CWalletTx

/-- The test that ends a round at once. A coinbase has an output and a coinstake has two, so `IsSpent` does not
throw. -/
def isSkipped (wtx : CWalletTx) : Bool :=
  (wtx.tx.isCoinBase && wtx.vfSpent.getD 0 false) || (wtx.tx.isCoinStake && wtx.vfSpent.getD 1 false)

/-- The loop over the outputs, with what it appends to `vMissingTx`. There are as many outputs as entries in
`vSpent`, so `IsSpent` does not throw. -/
def reacceptOutputs (isMine : CScript → Bool) (wtx : CWalletTx) : Nat → List CDiskTxPos → CWalletTx × List CDiskTxPos
  | _, [] => (wtx, [])
  | i, pos :: vSpent =>
    if wtx.vfSpent.getD i false then reacceptOutputs isMine wtx (i + 1) vSpent
    else if !pos.isNull && (wtx.tx.vout[i]?).any (fun txout => isMine txout.scriptPubKey) then
      let r := reacceptOutputs isMine (wtx.mark i true) (i + 1) vSpent
      (r.1, pos :: r.2)
    else reacceptOutputs isMine wtx (i + 1) vSpent

/-- One round of the loop over `mapWallet`. -/
def reaccept (P : Params) (txIndex : TxIndexMap) (isMine : CScript → Bool) (wtx : CWalletTx) :
    CWalletTx × List CDiskTxPos :=
  if wtx.isSkipped then (wtx, [])
  else
    match txIndex.lookup (P.hashTx wtx.tx) with
    | none => (wtx, [])
    | some txindex =>
      if txindex.vSpent.length ≠ wtx.tx.vout.length then (wtx, [])
      else reacceptOutputs isMine wtx 0 txindex.vSpent

end CWalletTx

namespace CWallet

/-- The wallet and `vMissingTx` after the round for one entry of `mapWallet`. -/
def reacceptEntry (P : Params) (txIndex : TxIndexMap) (s : CWallet × List CDiskTxPos) (hash : Uint256) :
    CWallet × List CDiskTxPos :=
  match s.1.mapWallet.lookup hash with
  | none => s
  | some wtx =>
    let r := wtx.reaccept P txIndex s.1.isMine
    ({ s.1 with mapWallet := s.1.mapWallet.insert hash r.1 }, s.2 ++ r.2)

/-- The loop over `mapWallet`, whose entries do not depend on each other. -/
def reacceptEntries (P : Params) (txIndex : TxIndexMap) (w : CWallet) : CWallet × List CDiskTxPos :=
  w.mapWallet.keys.foldl (reacceptEntry P txIndex) (w, [])

/-- `AddToWalletIfInvolvingMe` without `fUpdate`, in the loop that counts the answers. -/
def scanTransaction (P : Params) (tx : CTransaction) : Command (CWallet × Nat) Failure Unit := fun s =>
  if (s.1.mapWallet.lookup (P.hashTx tx)).isSome then (.ok (), s)
  else
    match s.1.involves P tx with
    | .error e => (.error e, s)
    | .ok true =>
      match addToWallet P tx s.1 with
      | (.error e, w) => (.error e, (w, s.2))
      | (.ok (), w) => (.ok (), (w, s.2 + 1))
    | .ok false =>
      match walletUpdateSpent tx s.1 with
      | (.error e, w) => (.error e, (w, s.2))
      | (.ok (), w) => (.ok (), (w, s.2))

/-- `ScanForWalletTransactions` over the transactions of the chain, with its answer next to the wallet. -/
def scanForWalletTransactions (P : Params) (vtx : List CTransaction) (w : CWallet) :
    Except Failure Unit × (CWallet × Nat) :=
  Command.forList (scanTransaction P) vtx (w, 0)

/-- One round of `while (fRepeat)`. -/
def reacceptRound (P : Params) (txIndex : TxIndexMap) (vtx : List CTransaction) (w : CWallet) :
    CWallet ⊕ (Result Unit × CWallet) :=
  let (w, vMissingTx) := reacceptEntries P txIndex w
  if vMissingTx.isEmpty then .inr (.ok (), w)
  else
    match scanForWalletTransactions P vtx w with
    | (.error e, s) => .inr (.error e, s.1)
    | (.ok (), s) => if s.2 = 0 then .inr (.ok (), s.1) else .inl s.1

/-- `ReacceptWalletTransactions`, for a number of rounds. -/
def reacceptWalletTransactions (P : Params) (txIndex : TxIndexMap) (vtx : List CTransaction) (fuel : Nat)
    (w : CWallet) : Option (Result Unit × CWallet) :=
  loop (reacceptRound P txIndex vtx) fuel w

end CWallet

/-- The transactions of the blocks from genesis on, along `pnext`. -/
def mainChainTxs (files : BlockFiles) (tip : BlockPtr) : List CTransaction :=
  tip.reverse.flatMap (fun pindex => ((files.readBlock pindex.nFile pindex.nBlockPos).map CBlock.vtx).getD [])

end Peershares
