import Peershares.Model.Base58
import Peershares.Model.Dividend
import Peershares.Model.KeyStore

/-!
# `ExportPeercoinKeys`

A shareholder gives the keys of the addresses in the address book to a Peercoin wallet, so that it can
spend the dividends. The export goes through the address book and makes one remote call for each address:
`importprivkey` with the secret, or `addmultisigaddress` for a script.

What Peercoin answers is a parameter that sees all calls so far. An error that Peercoin reports is counted,
every other exception ends the export.
-/

open Framework

namespace Peershares

variable {Point : Type}

/-- `ExtractAddresses`; `none` when it returns `false`. -/
def extractAddresses (P : Params) (scriptPubKey : CScript) :
    Option (TxnOutType × List CBase58Data × Nat) :=
  match solver scriptPubKey with
  | (false, _, _) => none
  | (true, .TX_MULTISIG, vSolutions) =>
    some (.TX_MULTISIG, vSolutions.tail.dropLast.map (CBitcoinAddress.setPubKey P),
      ((vSolutions.headD []).headD 0).toNat)
  | (true, type, _) => some (type, [(extractAddress P scriptPubKey).getD {}], 1)

/-! ### Calls -/

/-- A call of `CallPeercoinRPC`, with its parameters. -/
inductive PeercoinCall where
  | importprivkey (strSecret : List UInt8) (strLabel : String)
  | addmultisigaddress (nRequired : Nat) (vAddresses : List (List UInt8)) (strAccount : String)
deriving DecidableEq, Repr

/-- How `CallPeercoinRPC` ends. -/
inductive PeercoinAnswer where
  | result
  /-- `peercoin_rpc_error`. -/
  | rpcError
  | exception (what : String)

/-- The answer to a call, after the calls before it. -/
abbrev PeercoinServer := List PeercoinCall → PeercoinCall → PeercoinAnswer

/-- What Peercoin does with the text of `importprivkey`: the address of the key that it adds. -/
def importedAddress (P : Params) (K : KeyCrypto Point) (strSecret : List UInt8) : Result CBase58Data :=
  match CPeercoinSecret.readSecret P K.hash strSecret with
  | none => .error (.exception "Invalid private key")
  | some (vchSecret, fCompressed) => do
    let key ← ({} : CKey Point).setSecret K vchSecret fCompressed
    let vchPubKey ← key.getPubKey K
    pure (CPeercoinAddress.setHash160 P (P.hash160 vchPubKey))

/-! ### The export -/

/-- What the export reads of the wallet. -/
structure ExportWallet where
  store : CCryptoKeyStore := {}
  /-- `ScriptMap`, by the hash of the script. -/
  mapScripts : OrderedMap (List UInt8) CScript := OrderedMap.empty
  mapAddressBook : OrderedMap CBase58Data String := OrderedMap.empty
  fWalletUnlockMintOnly : Bool := false

/-- The counters, and the calls that were made. -/
structure ExportState where
  nExportedCount : Nat := 0
  nErrorCount : Nat := 0
  vCalls : List PeercoinCall := []

/-- An error is counted, and the loop goes on. -/
def countError : Command ExportState Failure Unit :=
  Command.modify fun s => { s with nErrorCount := s.nErrorCount + 1 }

/-- A call in its `try` block. -/
def callPeercoin (rpc : PeercoinServer) (call : PeercoinCall) : Command ExportState Failure Unit := fun s =>
  let s' := { s with vCalls := s.vCalls ++ [call] }
  match rpc s.vCalls call with
  | .result => (.ok (), { s' with nExportedCount := s.nExportedCount + 1 })
  | .rpcError => (.ok (), { s' with nErrorCount := s.nErrorCount + 1 })
  | .exception what => (.error (.exception what), s')

namespace ExportWallet

/-- The branch of a script address. -/
def exportScript (P : Params) (K : KeyCrypto Point) (rpc : PeercoinServer) (w : ExportWallet)
    (address : CBase58Data) : Command ExportState Failure Unit := do
  let hash ← Command.lift address.getHash160
  match w.mapScripts.lookup hash with
  | none => countError
  | some script =>
    match extractAddresses P script with
    | none => countError
    | some (type, vAddresses, nRequired) =>
      if type ≠ .TX_MULTISIG then countError
      else do
        let vPeercoinAddresses ← Command.lift (vAddresses.mapM (CPeercoinAddress.ofAddress P))
        callPeercoin rpc (.addmultisigaddress nRequired
          (vPeercoinAddresses.map (CBase58Data.toText K.hash)) "Peershares")

/-- The branch of the address of a key. -/
def exportKey (P : Params) (K : KeyCrypto Point) (rpc : PeercoinServer) (w : ExportWallet)
    (address : CBase58Data) : Command ExportState Failure Unit := do
  let found ← Command.lift (getSecretOf (w.store.getKey K) address)
  match found with
  | none => countError
  | some (vchSecret, fCompressed) => do
    let secret ← Command.lift (CPeercoinSecret.setSecret P vchSecret fCompressed)
    callPeercoin rpc (.importprivkey (secret.toText K.hash) "Peershares")

/-- One entry of the address book. -/
def exportAddress (P : Params) (K : KeyCrypto Point) (rpc : PeercoinServer) (w : ExportWallet)
    (item : CBase58Data × String) : Command ExportState Failure Unit :=
  if CBitcoinAddress.isScript P item.1 then w.exportScript P K rpc item.1 else w.exportKey P K rpc item.1

/-- `ExportPeercoinKeys`. -/
def exportPeercoinKeys (P : Params) (K : KeyCrypto Point) (rpc : PeercoinServer) (w : ExportWallet) :
    Command ExportState Failure Unit :=
  if w.store.isLocked then
    Command.fail (.exception "The portfolio is locked. Please unlock it first.")
  else if w.fWalletUnlockMintOnly then
    Command.fail (.exception "Portfolio is unlocked for minting only.")
  else Command.forList (w.exportAddress P K rpc) w.mapAddressBook.entries

end ExportWallet

end Peershares
