import Peershares.Framework.Assoc
import Peershares.Framework.Command
import Peershares.Model.Basic

/-!
# Wallets

The part of `CWallet` that chain selection calls through `SyncWithWallets`: which transactions a
wallet holds (`mapWallet`) and which of their outputs it takes for spent (`vfSpent`).

Calls change the wallet step by step and can throw in the middle, so they are commands on the
wallet. The keys of a wallet appear as the scripts it can spend. Not modelled are the wallet file,
whose writes are taken to succeed, and the fields of a wallet transaction that no call here reads
(times, Merkle branch, cached amounts).
-/

open Framework

namespace Peershares

/-! ### Wallet transactions -/

structure CWalletTx where
  tx : CTransaction
  /-- The flags of the outputs; one that is missing counts as not set. -/
  vfSpent : List Bool := []
deriving DecidableEq, Repr

namespace CWalletTx

/-- `IsSpent`. -/
def isSpent (wtx : CWalletTx) (nOut : Nat) : Result Bool :=
  if wtx.tx.vout.length ≤ nOut then
    .error (.exception "CWalletTx::IsSpent() : nOut out of range")
  else .ok (wtx.vfSpent.getD nOut false)

/-- `MarkSpent` and `MarkUnspent`, of an output in range: the flags are first resized to the
number of outputs. -/
def mark (wtx : CWalletTx) (nOut : Nat) (fSpent : Bool) : CWalletTx :=
  let resized := (List.range wtx.tx.vout.length).map (fun n => wtx.vfSpent.getD n false)
  { wtx with vfSpent := resized.set nOut fSpent }

end CWalletTx

/-! ### What belongs to a wallet -/

structure CWallet where
  /-- `::IsMine(keystore, scriptPubKey)`. -/
  isMine : CScript → Bool
  mapWallet : Map Uint256 CWalletTx := ∅

namespace CWallet

/-- `IsMine(tx)`. -/
def isMineTx (w : CWallet) (tx : CTransaction) : Bool :=
  tx.vout.any (fun txout => w.isMine txout.scriptPubKey)

/-- The output at `prevout`, when a wallet transaction has it and it is the wallet's own. -/
def ownOutput (w : CWallet) (prevout : COutPoint) : Option CTxOut :=
  match w.mapWallet.lookup prevout.hash with
  | none => none
  | some prev => (prev.tx.vout[prevout.n]?).filter (fun txout => w.isMine txout.scriptPubKey)

/-- `GetDebit(txin)`. -/
def getDebitIn (w : CWallet) (txin : CTxIn) : Int :=
  ((w.ownOutput txin.prevout).map CTxOut.nValue).getD 0

/-- `GetDebit(tx)`: the sum throws when it leaves the money range. -/
def getDebit (w : CWallet) (tx : CTransaction) : Result Int := loop tx.vin 0
where
  loop : List CTxIn → Int → Result Int
    | [], nDebit => .ok nDebit
    | txin :: vin, nDebit =>
      if moneyRange (nDebit + w.getDebitIn txin) then loop vin (nDebit + w.getDebitIn txin)
      else .error (.exception "CWallet::GetDebit() : value out of range")

/-- `IsFromMe`. -/
def isFromMe (w : CWallet) (tx : CTransaction) : Result Bool := do
  let nDebit ← w.getDebit tx
  pure (0 < nDebit)

/-! ### Changes -/

/-- `wtx.MarkSpent(n)` or `wtx.MarkUnspent(n)` on the wallet transaction with this hash. -/
def markOutput (w : CWallet) (prevout : COutPoint) (wtx : CWalletTx) (fSpent : Bool) : CWallet :=
  { w with mapWallet := w.mapWallet.insert prevout.hash (wtx.mark prevout.n fSpent) }

/-- One round of `WalletUpdateSpent`. The log line in front of `MarkSpent` asks for the credit of
the wallet transaction; that passed `CheckTransaction`, so its outputs are in range and the line
does not throw. -/
def updateSpentIn (txin : CTxIn) : Command CWallet Failure Unit := fun w =>
  match w.mapWallet.lookup txin.prevout.hash with
  | none => (.ok (), w)
  | some wtx =>
    match wtx.isSpent txin.prevout.n with
    | .error e => (.error e, w)
    | .ok fSpent =>
      if !fSpent && (w.ownOutput txin.prevout).isSome then
        (.ok (), w.markOutput txin.prevout wtx true)
      else (.ok (), w)

/-- `WalletUpdateSpent`. -/
def walletUpdateSpent (tx : CTransaction) : Command CWallet Failure Unit :=
  Command.forList updateSpentIn tx.vin

/-- `AddToWallet` of a transaction without flags: it is inserted unless it is there, and the
transaction that is there is checked for own coins it spends. -/
def addToWallet (P : Params) (tx : CTransaction) : Command CWallet Failure Unit := fun w =>
  match w.mapWallet.lookup (P.hashTx tx) with
  | some wtx => walletUpdateSpent wtx.tx w
  | none =>
    walletUpdateSpent tx { w with mapWallet := w.mapWallet.insert (P.hashTx tx) { tx := tx } }

/-- The condition of `AddToWalletIfInvolvingMe`; `IsFromMe` is asked last. -/
def involves (P : Params) (w : CWallet) (tx : CTransaction) : Result Bool :=
  if (w.mapWallet.lookup (P.hashTx tx)).isSome || w.isMineTx tx then .ok true else w.isFromMe tx

/-- `AddToWalletIfInvolvingMe` with `fUpdate`. -/
def addToWalletIfInvolvingMe (P : Params) (tx : CTransaction) : Command CWallet Failure Unit :=
  fun w =>
    match w.involves P tx with
    | .error e => (.error e, w)
    | .ok true => addToWallet P tx w
    | .ok false => walletUpdateSpent tx w

/-- One round of `DisableTransaction`. -/
def disableIn (txin : CTxIn) : Command CWallet Failure Unit := fun w =>
  match w.mapWallet.lookup txin.prevout.hash with
  | none => (.ok (), w)
  | some prev =>
    if (w.ownOutput txin.prevout).isSome then (.ok (), w.markOutput txin.prevout prev false)
    else (.ok (), w)

/-- `DisableTransaction`: the inputs of an own coinstake are refunded. -/
def disableTransaction (tx : CTransaction) : Command CWallet Failure Unit := fun w =>
  if tx.isCoinStake then
    match w.isFromMe tx with
    | .error e => (.error e, w)
    | .ok true => Command.forList disableIn tx.vin w
    | .ok false => (.ok (), w)
  else (.ok (), w)

/-- `SyncWithWallets` on one wallet when a block is disconnected. It asks `IsFromMe` itself before
`DisableTransaction` does. -/
def syncDisconnected (tx : CTransaction) : Command CWallet Failure Unit := fun w =>
  if tx.isCoinStake then
    match w.isFromMe tx with
    | .error e => (.error e, w)
    | .ok true => disableTransaction tx w
    | .ok false => (.ok (), w)
  else (.ok (), w)

/-- `SyncWithWallets` on one wallet when a block is connected. -/
def syncConnected (P : Params) (tx : CTransaction) : Command CWallet Failure Unit :=
  addToWalletIfInvolvingMe P tx

end CWallet

/-- `SyncWithWallets(tx, pblock, fUpdate, fConnect)` for the registered wallets. -/
def syncWithWallets (P : Params) (fConnect : Bool) (tx : CTransaction) :
    Command (List CWallet) Failure Unit :=
  Command.forEach (if fConnect then CWallet.syncConnected P tx else CWallet.syncDisconnected tx)

end Peershares
