import Peershares.Model.CheckSig
import Peershares.Model.Wire

/-!
# The bytes that are signed

The end of `SignatureHash`: the transaction that is signed is written into a stream, with the hash type behind
it, and the bytes of the stream are hashed.
-/

open Framework

namespace Peershares

/-- `ss << txTmp << nHashType`; `none` when an index is out of range and nothing is hashed. -/
def signaturePreimage (scriptCode : CScript) (txTo : CTransaction) (nIn : Nat) (nHashType : Int) :
    Option (List UInt8) :=
  (signedTransaction scriptCode txTo nIn nHashType).map fun txTmp => txTmp.serialize ++ int32.enc nHashType

/-- The signature environment of a `Hash` of bytes. -/
def SigEnv.ofHash (Hash : List UInt8 → Uint256) (setPubKey : Valtype → Bool)
    (verify : Valtype → Uint256 → Valtype → Bool) : SigEnv where
  hash txTmp nHashType := Hash (txTmp.serialize ++ int32.enc nHashType)
  setPubKey := setPubKey
  verify := verify

/-- What `SignatureHash` hashes is the preimage. -/
theorem signatureHash_ofHash (Hash : List UInt8 → Uint256) (setPubKey : Valtype → Bool)
    (verify : Valtype → Uint256 → Valtype → Bool) (scriptCode : CScript) (txTo : CTransaction) (nIn : Nat)
    (nHashType : Int) :
    (SigEnv.ofHash Hash setPubKey verify).signatureHash scriptCode txTo nIn nHashType =
      ((signaturePreimage scriptCode txTo nIn nHashType).map Hash).getD 1 := by
  unfold SigEnv.signatureHash signaturePreimage
  cases signedTransaction scriptCode txTo nIn nHashType with
  | none => rfl
  | some txTmp => rfl

end Peershares
