import Peershares.Model.Export
import Peershares.Model.Sign

/-!
# `addmultisigaddress`

`addmultisigaddress` of `bitcoinrpc.cpp`, with `AccountFromValue`, `IsHex` and `ParseHex`, and
`SetBitcoinAddress` of an address. A text is a list of bytes, where it is parsed.

`getPubKey` does not fail on a key that `SetPubKey` has set, so it makes no difference that the public keys
are taken before `SetMultisig` looks at `nRequired`.
-/

open Framework

namespace Peershares

variable {Point : Type}

/-! ### Hexadecimal digits -/

/-- `phexdigit`; `none` is `-1`. -/
def phexdigit (c : UInt8) : Option Nat :=
  if 48 ≤ c ∧ c ≤ 57 then some (c.toNat - 48)
  else if 65 ≤ c ∧ c ≤ 70 then some (c.toNat - 55)
  else if 97 ≤ c ∧ c ≤ 102 then some (c.toNat - 87)
  else none

/-- `IsHex`. -/
def isHex (str : List UInt8) : Bool :=
  str.all (fun c => (phexdigit c).isSome) && 0 < str.length && str.length % 2 = 0

/-- The loop of `ParseHex`; every round but the last takes two digits. -/
def parseHexLoop : Nat → List UInt8 → List UInt8
  | 0, _ => []
  | nRounds + 1, psz =>
    match psz.dropWhile isSpace with
    | c₁ :: c₂ :: psz =>
      match phexdigit c₁, phexdigit c₂ with
      | some n₁, some n₂ => UInt8.ofNat (16 * n₁ + n₂) :: parseHexLoop nRounds psz
      | _, _ => []
    | _ => []

/-- `ParseHex`. -/
def parseHex (str : List UInt8) : List UInt8 := parseHexLoop str.length str

/-- `CBitcoinAddress address(str)`: what is not an address leaves it unset. -/
def CBitcoinAddress.ofText (K : KeyCrypto Point) (str : List UInt8) : CBase58Data :=
  (CBase58Data.setString K.hash str).getD {}

/-- `SetBitcoinAddress(address)`. -/
def CScript.setBitcoinAddress (P : Params) (address : CBase58Data) : Result CScript := do
  let hash160 ← address.getHash160
  pure (if CBitcoinAddress.isScript P address then OP_HASH160 :: (pushData hash160 ++ [OP_EQUAL])
    else OP_DUP :: OP_HASH160 :: (pushData hash160 ++ [OP_EQUALVERIFY, OP_CHECKSIG]))

/-! ### The command -/

namespace ExportWallet

/-- `AccountFromValue`. -/
def accountFromValue (value : String) : Result String :=
  if value = "*" then .error (.exception "Invalid account name") else .ok value

/-- `AddCScript`. -/
def addCScript (P : Params) (redeemScript : CScript) (w : ExportWallet) : ExportWallet :=
  { w with mapScripts := w.mapScripts.put (P.hash160 redeemScript) redeemScript }

/-- `SetAddressBookName`. -/
def setAddressBookName (address : CBase58Data) (strName : String) (w : ExportWallet) : ExportWallet :=
  { w with mapAddressBook := w.mapAddressBook.put address strName }

end ExportWallet

end Peershares
