import Mathlib.Data.Nat.Digits.Defs
import Peershares.Framework.Loop
import Peershares.Framework.OrderedMap
import Peershares.Model.Address
import Peershares.Model.BigNum

/-!
# Base58

The text form of addresses and secrets, from `base58.h`. A `CBigNum` is a natural number here; the loop
that divides by 58 as long as there is something left is `Nat.digits`. Characters are ASCII codes.
`encodeBase58Num` is the conversion as it is written, with the loop and the number with its sign.

The hash in the checksum is a parameter.
-/

namespace Peershares

/-- `123456789ABCDEFGHJKLMNPQRSTUVWXYZabcdefghijkmnopqrstuvwxyz`. -/
def pszBase58 : List UInt8 :=
  [49, 50, 51, 52, 53, 54, 55, 56, 57,
    65, 66, 67, 68, 69, 70, 71, 72, 74, 75, 76, 77, 78, 80, 81, 82, 83, 84, 85, 86, 87, 88, 89, 90,
    97, 98, 99, 100, 101, 102, 103, 104, 105, 106, 107, 109, 110, 111, 112, 113, 114, 115, 116, 117, 118,
    119, 120, 121, 122]

/-- `isspace`. -/
def isSpace (c : UInt8) : Bool := c = 32 || (9 ≤ c && c ≤ 13)

/-- `EncodeBase58`. -/
def encodeBase58 (vch : List UInt8) : List UInt8 :=
  -- the bytes have the highest first, the number is read with the lowest first
  let bn := Nat.ofDigits 256 (vch.reverse.map UInt8.toNat)
  let str := (Nat.digits 58 bn).map fun c => pszBase58.getD c 0
  let zeroes := (vch.takeWhile (· = 0)).map fun _ => pszBase58.getD 0 0
  (str ++ zeroes).reverse

/-- The loop of `DecodeBase58`. -/
def decodeLoop (bn : Nat) : List UInt8 → Option Nat
  | [] => some bn
  | c :: cs =>
    if c ∈ pszBase58 then decodeLoop (bn * 58 + pszBase58.idxOf c) cs
    else if (c :: cs).dropWhile isSpace = [] then some bn
    else none

/-- A digit in the loop of `DecodeBase58`. -/
theorem decodeLoop_cons_of_mem {c : UInt8} (hc : c ∈ pszBase58) (bn : Nat) (cs : List UInt8) :
    decodeLoop bn (c :: cs) = decodeLoop (bn * 58 + pszBase58.idxOf c) cs := by
  rw [decodeLoop, if_pos hc]

/-- `getvch` of a number that is not negative: with a sign byte when the highest bit is set. -/
def getvch (bn : Nat) : List UInt8 :=
  let vch := (Nat.digits 256 bn).map UInt8.ofNat
  if 0x80 ≤ vch.getLastD 0 then vch ++ [0] else vch

/-- The sign byte is taken off. -/
def trimSign (vchTmp : List UInt8) : List UInt8 :=
  if 2 ≤ vchTmp.length ∧ vchTmp.getLastD 0 = 0 ∧ 0x80 ≤ vchTmp.dropLast.getLastD 0 then vchTmp.dropLast
  else vchTmp

/-- `DecodeBase58`; `none` when it returns `false`. A `char*` ends at the first zero. -/
def decodeBase58 (str : List UInt8) : Option (List UInt8) :=
  let psz := (str.takeWhile (· ≠ 0)).dropWhile isSpace
  (decodeLoop 0 psz).map fun bn =>
    let vchTmp := trimSign (getvch bn)
    let nLeadingZeros := (psz.takeWhile (· = pszBase58.getD 0 0)).length
    List.replicate nLeadingZeros 0 ++ vchTmp.reverse

/-- `EncodeBase58Check`. -/
def encodeBase58Check (hash : List UInt8 → List UInt8) (vchIn : List UInt8) : List UInt8 :=
  encodeBase58 (vchIn ++ (hash vchIn).take 4)

/-- `DecodeBase58Check`; `none` when it returns `false`. -/
def decodeBase58Check (hash : List UInt8 → List UInt8) (str : List UInt8) : Option (List UInt8) :=
  match decodeBase58 str with
  | none => none
  | some vchRet =>
    if vchRet.length < 4 then none
    else if (hash (vchRet.take (vchRet.length - 4))).take 4 = vchRet.drop (vchRet.length - 4) then
      some (vchRet.take (vchRet.length - 4))
    else none

namespace CBase58Data

/-- `ToString`. -/
def toText (hash : List UInt8 → List UInt8) (data : CBase58Data) : List UInt8 :=
  encodeBase58Check hash (data.nVersion :: data.vchData)

/-- `SetString`; `none` when it returns `false`. -/
def setString (hash : List UInt8 → List UInt8) (str : List UInt8) : Option CBase58Data :=
  match decodeBase58Check hash str with
  | some (nVersion :: vchData) => some ⟨nVersion, vchData⟩
  | _ => none

end CBase58Data

/-! ### Secrets -/

/-- The functions of `CBitcoinSecret` and `CPeercoinSecret`, with the version bytes of the address class. -/
def AddressClass.setSecret (C : AddressClass) (fTestNet : Bool) (vchSecret : List UInt8) (fCompressed : Bool) :
    Result CBase58Data :=
  if vchSecret.length = 32 then
    .ok { nVersion := 128 + (if fTestNet then C.PUBKEY_ADDRESS_TEST else C.PUBKEY_ADDRESS)
          vchData := if fCompressed then vchSecret ++ [1] else vchSecret }
  else .error .assertion

def AddressClass.isValidSecret (C : AddressClass) (fTestNet : Bool) (secret : CBase58Data) : Bool :=
  (if secret.nVersion = 128 + C.PUBKEY_ADDRESS then !fTestNet
    else if secret.nVersion = 128 + C.PUBKEY_ADDRESS_TEST then fTestNet else false) &&
  (secret.vchData.length = 32 || (secret.vchData.length = 33 && secret.vchData.getLastD 0 = 1))

/-- `GetSecret`, and the flag it returns. -/
def CBase58Data.getSecret (secret : CBase58Data) : List UInt8 × Bool :=
  (secret.vchData.take 32, secret.vchData.length = 33)

/-- `SetString` of a secret and `GetSecret`: what `importprivkey` reads. -/
def AddressClass.readSecret (C : AddressClass) (fTestNet : Bool) (hash : List UInt8 → List UInt8)
    (str : List UInt8) : Option (List UInt8 × Bool) :=
  match CBase58Data.setString hash str with
  | some secret => if C.isValidSecret fTestNet secret then some secret.getSecret else none
  | none => none

/-- `CPeercoinSecret(vchSecret, fCompressed)`. -/
def CPeercoinSecret.setSecret (P : Params) : List UInt8 → Bool → Result CBase58Data :=
  CPeercoinAddress.versions.setSecret P.fTestNet

/-- What the `importprivkey` of Peercoin reads: its `CBitcoinSecret` has the version of its addresses. -/
def CPeercoinSecret.readSecret (P : Params) : (List UInt8 → List UInt8) → List UInt8 → Option (List UInt8 × Bool) :=
  CPeercoinAddress.versions.readSecret P.fTestNet

end Peershares
