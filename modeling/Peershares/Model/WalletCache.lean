import Mathlib.Data.Finset.Basic
import Peershares.Framework.Command
import Peershares.Model.Address
import Peershares.Model.Wallet

/-!
# Cached amounts of wallet transactions

A wallet transaction keeps its debit, credit, available credit and change once they are computed. Each
is a sum over its inputs or outputs that depends on the keys, the redeem scripts and the address book of
the wallet, and the debit on the other transactions in `mapWallet`.

A flag and the amount behind it (`fDebitCached`, `nDebitCached`) are one optional value. How many blocks
a generated transaction still has to wait (`GetBlocksToMaturity`) comes from the block chain and is an
argument. Of the address book only the addresses are read.
-/

open Framework

namespace Peershares

/-! ### Keys and scripts -/

/-- `CKeyStore`: the addresses of the keys, and the redeem scripts by hash. -/
structure KeyStore where
  mapKeys : Finset CBase58Data := ∅
  mapScripts : Map (List UInt8) CScript := ∅

namespace KeyStore

/-- `IsMine(keystore, scriptPubKey)`, for a number of redeem scripts inside each other. -/
def isMineLoop (P : Params) (keystore : KeyStore) : Nat → CScript → Bool
  | 0, _ => false
  | nRounds + 1, scriptPubKey =>
    match solver scriptPubKey with
    | (true, .TX_PUBKEY, vSolutions) =>
      CBitcoinAddress.setPubKey P (vSolutions.headD []) ∈ keystore.mapKeys
    | (true, .TX_PUBKEYHASH, vSolutions) =>
      CBitcoinAddress.setHash160 P (uint160 (vSolutions.headD [])) ∈ keystore.mapKeys
    | (true, .TX_SCRIPTHASH, vSolutions) =>
      match keystore.mapScripts.lookup (uint160 (vSolutions.headD [])) with
      | none => false
      | some subscript => keystore.isMineLoop P nRounds subscript
    | (true, .TX_MULTISIG, vSolutions) =>
      -- all the keys between the two numbers
      (vSolutions.drop 1).dropLast.all (fun key => CBitcoinAddress.setPubKey P key ∈ keystore.mapKeys)
    | _ => false

/-- `IsMine(keystore, scriptPubKey)`. No redeem script has its own hash inside, so each is met once. -/
def isMine (P : Params) (keystore : KeyStore) (scriptPubKey : CScript) : Bool :=
  keystore.isMineLoop P (keystore.mapScripts.entries.length + 1) scriptPubKey

/-- `AddKey`. -/
def addKey (P : Params) (keystore : KeyStore) (vchPubKey : List UInt8) : KeyStore :=
  { keystore with mapKeys := insert (CBitcoinAddress.setPubKey P vchPubKey) keystore.mapKeys }

/-- `AddCScript`. -/
def addCScript (P : Params) (keystore : KeyStore) (redeemScript : CScript) : KeyStore :=
  { keystore with mapScripts := keystore.mapScripts.insert (P.hash160 redeemScript) redeemScript }

end KeyStore

/-- `scriptDefaultKey.SetBitcoinAddress(vchPubKey)`. -/
def setBitcoinAddress (P : Params) (vchPubKey : List UInt8) : CScript :=
  [OP_DUP, OP_HASH160, 20] ++ P.hash160 vchPubKey ++ [OP_EQUALVERIFY, OP_CHECKSIG]

/-! ### Wallet transactions with their caches -/

/-- `CWalletTx` with the fields that `AddToWallet` merges and the caches. -/
structure CachedTx extends CWalletTx where
  hashBlock : Uint256 := 0
  vMerkleBranch : List Uint256 := []
  nIndex : Int := -1
  fFromMe : Bool := false
  nDebitCached : Option Int := none
  nCreditCached : Option Int := none
  nAvailableCreditCached : Option Int := none
  nChangeCached : Option Int := none
deriving DecidableEq, Repr

namespace CachedTx

/-- `MarkDirty`, and with it `BindWallet`. -/
def markDirty (wtx : CachedTx) : CachedTx :=
  { wtx with
    nDebitCached := none, nCreditCached := none, nAvailableCreditCached := none, nChangeCached := none }

/-- `MarkSpent` and `MarkUnspent`: the available credit is forgotten when the flag changes. -/
def mark (wtx : CachedTx) (nOut : Nat) (fSpent : Bool) (what : String) : Result CachedTx :=
  if wtx.tx.vout.length ≤ nOut then .error (.exception what)
  else .ok { wtx with
    toCWalletTx := wtx.toCWalletTx.mark nOut fSpent
    nAvailableCreditCached :=
      if wtx.vfSpent.getD nOut false = fSpent then wtx.nAvailableCreditCached else none }

def markSpent (wtx : CachedTx) (nOut : Nat) : Result CachedTx :=
  wtx.mark nOut true "CWalletTx::MarkSpent() : nOut out of range"

def markUnspent (wtx : CachedTx) (nOut : Nat) : Result CachedTx :=
  wtx.mark nOut false "CWalletTx::MarkUnspent() : nOut out of range"

/-- The loop of `UpdateSpent`: it ends at the shorter one of the two vectors. -/
def mergeSpent : List Bool → List Bool → List Bool
  | fSpent :: vfSpent, fNew :: vfNewSpent => (fSpent || fNew) :: mergeSpent vfSpent vfNewSpent
  | vfSpent, _ => vfSpent

/-- `UpdateSpent`, with its answer. -/
def updateSpent (wtx : CachedTx) (vfNewSpent : List Bool) : CachedTx × Bool :=
  let vfSpent := mergeSpent wtx.vfSpent vfNewSpent
  if vfSpent = wtx.vfSpent then (wtx, false)
  else ({ wtx with vfSpent, nAvailableCreditCached := none }, true)

/-- The part of `AddToWallet` for a transaction that is there already, with `fUpdated`. -/
def merge (wtx wtxIn : CachedTx) : CachedTx × Bool :=
  let fBlock := wtxIn.hashBlock ≠ 0 && wtxIn.hashBlock ≠ wtx.hashBlock
  let wtx := if fBlock then { wtx with hashBlock := wtxIn.hashBlock } else wtx
  let fBranch := wtxIn.nIndex ≠ -1 &&
    (wtxIn.vMerkleBranch ≠ wtx.vMerkleBranch || wtxIn.nIndex ≠ wtx.nIndex)
  let wtx := if fBranch then { wtx with vMerkleBranch := wtxIn.vMerkleBranch, nIndex := wtxIn.nIndex }
    else wtx
  let fOwn := wtxIn.fFromMe && !wtx.fFromMe
  let wtx := if fOwn then { wtx with fFromMe := true } else wtx
  let (wtx, fSpent) := wtx.updateSpent wtxIn.vfSpent
  (wtx, fBlock || fBranch || fOwn || fSpent)

/-- Credit is waited for. -/
def isImmature (wtx : CachedTx) (nBlocksToMaturity : Int) : Bool :=
  (wtx.tx.isCoinBase || wtx.tx.isCoinStake) && 0 < nBlocksToMaturity

end CachedTx

/-! ### The wallet -/

structure CacheWallet where
  keystore : KeyStore := {}
  mapAddressBook : Finset CBase58Data := ∅
  vchDefaultKey : List UInt8 := []
  mapWallet : Map Uint256 CachedTx := ∅

/-- A sum that throws when it leaves the money range. -/
def sumInRange {α : Type} (what : String) (amount : α → Result Int) : List α → Int → Result Int
  | [], n => .ok n
  | a :: as, n => do
    let v ← amount a
    if moneyRange (n + v) then sumInRange what amount as (n + v) else .error (.exception what)

namespace CacheWallet

variable (P : Params) (w : CacheWallet)

def isMine (txout : CTxOut) : Bool := w.keystore.isMine P txout.scriptPubKey

/-- `IsChange`. -/
def isChange (txout : CTxOut) : Bool :=
  match extractAddress P txout.scriptPubKey with
  | none => false
  | some address => address ∈ w.keystore.mapKeys && address ∉ w.mapAddressBook

/-- `GetDebit(txin)`. -/
def getDebitIn (txin : CTxIn) : Int :=
  match w.mapWallet.lookup txin.prevout.hash with
  | none => 0
  | some prev =>
    match prev.tx.vout[txin.prevout.n]? with
    | none => 0
    | some txout => if w.isMine P txout then txout.nValue else 0

/-- `GetDebit(tx)`. -/
def getDebitTx (tx : CTransaction) : Result Int :=
  sumInRange "CWallet::GetDebit() : value out of range" (fun txin => .ok (w.getDebitIn P txin)) tx.vin 0

/-- `GetCredit(txout)`. -/
def getCreditOut (txout : CTxOut) : Result Int :=
  if !moneyRange txout.nValue then .error (.exception "CWallet::GetCredit() : value out of range")
  else .ok (if w.isMine P txout then txout.nValue else 0)

/-- `GetCredit(tx)`. -/
def getCreditTx (tx : CTransaction) : Result Int :=
  sumInRange "CWallet::GetCredit() : value out of range" (w.getCreditOut P) tx.vout 0

/-- `GetChange(txout)`. -/
def getChangeOut (txout : CTxOut) : Result Int :=
  if !moneyRange txout.nValue then .error (.exception "CWallet::GetChange() : value out of range")
  else .ok (if w.isChange P txout then txout.nValue else 0)

/-- `GetChange(tx)`. -/
def getChangeTx (tx : CTransaction) : Result Int :=
  sumInRange "CWallet::GetChange() : value out of range" (w.getChangeOut P) tx.vout 0

/-- The outputs without the flag. -/
def unspentOutputs (wtx : CWalletTx) : List CTxOut :=
  (wtx.tx.vout.zipIdx.filter (fun p => !wtx.vfSpent.getD p.2 false)).map Prod.fst

/-- The loop of `GetAvailableCredit`. -/
def getUnspentCredit (wtx : CWalletTx) : Result Int :=
  sumInRange "CWalletTx::GetAvailableCredit() : value out of range" (w.getCreditOut P)
    (unspentOutputs wtx) 0

end CacheWallet

/-! ### Balance queries -/

namespace CachedTx

variable (P : Params) (w : CacheWallet)

/-- A value from its cache, or computed and put there with `put`. -/
def cached (fUseCache : Bool) (nCached : Option Int) (fresh : Result Int) (put : Int → CachedTx)
    (wtx : CachedTx) : Result Int × CachedTx :=
  match if fUseCache then nCached else none with
  | some n => (.ok n, wtx)
  | none =>
    match fresh with
    | .ok n => (.ok n, put n)
    | .error e => (.error e, wtx)

/-- `GetDebit()`. -/
def getDebit (wtx : CachedTx) : Result Int × CachedTx :=
  if wtx.tx.vin.isEmpty then (.ok 0, wtx)
  else cached true wtx.nDebitCached (w.getDebitTx P wtx.tx)
    (fun n => { wtx with nDebitCached := some n }) wtx

/-- `GetCredit(fUseCache)`. -/
def getCredit (wtx : CachedTx) (fUseCache : Bool) (nBlocksToMaturity : Int) :
    Result Int × CachedTx :=
  if wtx.isImmature nBlocksToMaturity then (.ok 0, wtx)
  else cached fUseCache wtx.nCreditCached (w.getCreditTx P wtx.tx)
    (fun n => { wtx with nCreditCached := some n }) wtx

/-- `GetAvailableCredit(fUseCache)`. -/
def getAvailableCredit (wtx : CachedTx) (fUseCache : Bool) (nBlocksToMaturity : Int) :
    Result Int × CachedTx :=
  if wtx.isImmature nBlocksToMaturity then (.ok 0, wtx)
  else cached fUseCache wtx.nAvailableCreditCached (w.getUnspentCredit P wtx.toCWalletTx)
    (fun n => { wtx with nAvailableCreditCached := some n }) wtx

/-- `GetChange()`. -/
def getChange (wtx : CachedTx) : Result Int × CachedTx :=
  cached true wtx.nChangeCached (w.getChangeTx P wtx.tx)
    (fun n => { wtx with nChangeCached := some n }) wtx

end CachedTx

/-! ### Changes -/

/-- What a call of `AddToWallet` meets: the answer of `WriteToDisk`, whether it is built for the GUI,
the keys that each call of `GetKeyFromPool` makes and how it ends, and the block chain. -/
structure AddEnv where
  fWritten : Bool
  fQtGui : Bool
  getKeyFromPool : Nat → List (List UInt8) × Result (Option (List UInt8))
  nBlocksToMaturity : CachedTx → Int

namespace CacheWallet

variable (P : Params)

/-- Change the wallet transaction with this hash, if there is one. -/
def onTx (hash : Uint256) (f : CacheWallet → CachedTx → CachedTx) (w : CacheWallet) : CacheWallet :=
  match w.mapWallet.lookup hash with
  | none => w
  | some wtx => { w with mapWallet := w.mapWallet.insert hash (f w wtx) }

def addKey (w : CacheWallet) (vchPubKey : List UInt8) : CacheWallet :=
  { w with keystore := w.keystore.addKey P vchPubKey }

def addCScript (w : CacheWallet) (redeemScript : CScript) : CacheWallet :=
  { w with keystore := w.keystore.addCScript P redeemScript }

def setAddressBookName (w : CacheWallet) (address : CBase58Data) : CacheWallet :=
  { w with mapAddressBook := insert address w.mapAddressBook }

def delAddressBookName (w : CacheWallet) (address : CBase58Data) : CacheWallet :=
  { w with mapAddressBook := w.mapAddressBook.erase address }

/-- `CWallet::MarkDirty`. -/
def markDirty (w : CacheWallet) : CacheWallet :=
  w.mapWallet.keys.foldl (fun w hash => w.onTx hash (fun _ wtx => wtx.markDirty)) w

/-- One round of `WalletUpdateSpent`. The log line asks for the credit, and this is kept. -/
def updateSpentIn (env : AddEnv) (txin : CTxIn) : Command CacheWallet Failure Unit := fun w =>
  match w.mapWallet.lookup txin.prevout.hash with
  | none => (.ok (), w)
  | some wtx =>
    match wtx.isSpent txin.prevout.n, wtx.tx.vout[txin.prevout.n]? with
    | .ok false, some txout =>
      if w.isMine P txout then
        match wtx.getCredit P w true (env.nBlocksToMaturity wtx) with
        | (.error e, _) => (.error e, w)
        | (.ok _, wtx) =>
          match wtx.markSpent txin.prevout.n with
          | .error e => (.error e, w)
          | .ok wtx => (.ok (), { w with mapWallet := w.mapWallet.insert txin.prevout.hash wtx })
      else (.ok (), w)
    | .error e, _ => (.error e, w)
    | _, _ => (.ok (), w)

/-- `WalletUpdateSpent`. -/
def walletUpdateSpent (env : AddEnv) (tx : CTransaction) : Command CacheWallet Failure Unit :=
  Command.forList (updateSpentIn P env) tx.vin

/-- "If default receiving address gets used, replace it with a new one", for the `i`-th time. -/
def replaceDefaultKey (env : AddEnv) (i : Nat) : Command CacheWallet Failure Unit := fun w =>
  let w := (env.getKeyFromPool i).1.foldl (addKey P) w
  match (env.getKeyFromPool i).2 with
  | .error e => (.error e, w)
  | .ok none => (.ok (), w)
  | .ok (some newDefaultKey) =>
    (.ok (), { w with vchDefaultKey := newDefaultKey }.setAddressBookName
      (CBitcoinAddress.setPubKey P newDefaultKey))

/-- How often the loop over the outputs finds the default key. The script is that of the key before the
loop, also when the key is replaced in it. -/
def defaultKeyUses (w : CacheWallet) (tx : CTransaction) : Nat :=
  (tx.vout.filter (fun txout => txout.scriptPubKey = setBitcoinAddress P w.vchDefaultKey)).length

/-- The wallet transaction that `AddToWallet` puts in its place: the new one, or the one that is there with
the new one merged; and whether it is to be written. -/
def insertTx (wtxIn : CachedTx) (w : CacheWallet) : CachedTx × Bool :=
  match w.mapWallet.lookup (P.hashTx wtxIn.tx) with
  | none => (wtxIn.markDirty, true)
  | some wtx => wtx.markDirty.merge wtxIn

/-- `AddToWallet`. -/
def addToWallet (env : AddEnv) (wtxIn : CachedTx) : Command CacheWallet Failure Bool := do
  let w ← Command.get
  let wtx := (w.insertTx P wtxIn).1
  Command.modify (fun w => { w with mapWallet := w.mapWallet.insert (P.hashTx wtxIn.tx) wtx })
  if (w.insertTx P wtxIn).2 && !env.fWritten then pure false
  else do
    Command.forList (replaceDefaultKey P env)
      (if env.fQtGui then [] else List.range (w.defaultKeyUses P wtx.tx))
    walletUpdateSpent P env wtx.tx
    pure true

end CacheWallet

/-- The calls. -/
inductive CacheAction where
  | addToWallet (env : AddEnv) (wtxIn : CachedTx)
  | markSpent (hash : Uint256) (nOut : Nat)
  | markUnspent (hash : Uint256) (nOut : Nat)
  | updateSpent (hash : Uint256) (vfNewSpent : List Bool)
  | addKey (vchPubKey : List UInt8)
  | addCScript (redeemScript : CScript)
  | setAddressBookName (address : CBase58Data)
  | delAddressBookName (address : CBase58Data)
  | markDirty
  | getDebit (hash : Uint256)
  | getCredit (hash : Uint256) (fUseCache : Bool) (nBlocksToMaturity : Int)
  | getAvailableCredit (hash : Uint256) (fUseCache : Bool) (nBlocksToMaturity : Int)
  | getChange (hash : Uint256)

/-- The wallet after a call, whichever way the call ends. -/
def CacheWallet.act (P : Params) (w : CacheWallet) : CacheAction → CacheWallet
  | .addToWallet env wtxIn => (CacheWallet.addToWallet P env wtxIn w).2
  | .markSpent hash nOut => w.onTx hash (fun _ wtx => ((wtx.markSpent nOut).toOption).getD wtx)
  | .markUnspent hash nOut => w.onTx hash (fun _ wtx => ((wtx.markUnspent nOut).toOption).getD wtx)
  | .updateSpent hash vfNewSpent => w.onTx hash (fun _ wtx => (wtx.updateSpent vfNewSpent).1)
  | .addKey vchPubKey => w.addKey P vchPubKey
  | .addCScript redeemScript => w.addCScript P redeemScript
  | .setAddressBookName address => w.setAddressBookName address
  | .delAddressBookName address => w.delAddressBookName address
  | .markDirty => w.markDirty
  | .getDebit hash => w.onTx hash (fun w wtx => (wtx.getDebit P w).2)
  | .getCredit hash fUseCache n => w.onTx hash (fun w wtx => (wtx.getCredit P w fUseCache n).2)
  | .getAvailableCredit hash fUseCache n =>
    w.onTx hash (fun w wtx => (wtx.getAvailableCredit P w fUseCache n).2)
  | .getChange hash => w.onTx hash (fun w wtx => (wtx.getChange P w).2)

end Peershares
