import Peershares.Model.Interpreter

/-!
# Checking a signature

`SignatureHash`, `CSignatureCache` and `CheckSig` of `script.cpp`. The hash of the serialized transaction and
the two operations of `CKey` are code outside of this: a key that is parsed is known by its bytes.

`setValid` is a `std::set`: a list in increasing order. The random hashes that an eviction draws are given with
the call, as is the limit, which is read again on every call.
-/

namespace Peershares

def SIGHASH_NONE : Int := 2
def SIGHASH_SINGLE : Int := 3
def SIGHASH_ANYONECANPAY : Int := 0x80

/-- The code that `CheckSig` calls. -/
structure SigEnv where
  /-- `Hash` of the serialized transaction with the hash type behind it. -/
  hash : CTransaction → Int → Uint256
  /-- `CKey::SetPubKey`: whether the bytes are a key. -/
  setPubKey : Valtype → Bool
  /-- `CKey::Verify` with the key of these bytes. -/
  verify : Valtype → Uint256 → Valtype → Bool

/-! ### `SignatureHash` -/

/-- `CTxOut::SetNull`. -/
def CTxOut.null : CTxOut := ⟨-1, []⟩

/-- "Blank out other inputs' signatures". -/
def blankSignatures (scriptCode : CScript) (nIn : Nat) (vin : List CTxIn) : List CTxIn :=
  vin.mapIdx fun i txin => { txin with scriptSig := if i = nIn then scriptCode else [] }

/-- "Let the others update at will". -/
def blankSequences (nIn : Nat) (vin : List CTxIn) : List CTxIn :=
  vin.mapIdx fun i txin => if i = nIn then txin else { txin with nSequence := 0 }

/-- The transaction that is signed; `none` when an index is out of range. -/
def signedTransaction (scriptCode : CScript) (txTo : CTransaction) (nIn : Nat) (nHashType : Int) : Option CTransaction :=
  if txTo.vin.length ≤ nIn then none
  else
    let scriptCode := findAndDelete scriptCode [OP_CODESEPARATOR]
    let txTmp := { txTo with vin := blankSignatures scriptCode nIn txTo.vin }
    let blanked :=
      -- `nHashType & 0x1f`
      if nHashType % 32 = SIGHASH_NONE then
        -- wildcard payee
        some { txTmp with vout := [], vin := blankSequences nIn txTmp.vin }
      else if nHashType % 32 = SIGHASH_SINGLE then
        -- only lock in the output at the same index
        match txTmp.vout[nIn]? with
        | none => none
        | some txout =>
          some { txTmp with vout := List.replicate nIn CTxOut.null ++ [txout], vin := blankSequences nIn txTmp.vin }
      else some txTmp
    -- `nHashType & SIGHASH_ANYONECANPAY`
    if nHashType / SIGHASH_ANYONECANPAY % 2 = 1 then blanked.map fun txTmp => { txTmp with vin := txTmp.vin[nIn]?.toList }
    else blanked

/-- `SignatureHash`. -/
def SigEnv.signatureHash (env : SigEnv) (scriptCode : CScript) (txTo : CTransaction) (nIn : Nat) (nHashType : Int) :
    Uint256 :=
  match signedTransaction scriptCode txTo nIn nHashType with
  | none => 1
  | some txTmp => env.hash txTmp nHashType

/-! ### `CSignatureCache` -/

/-- `sigdata_type`: signature hash, signature, public key. -/
abbrev SigData := Uint256 × Valtype × Valtype

/-- `operator<` of `boost::tuple`. -/
def SigData.lt (a b : SigData) : Bool :=
  a.1 < b.1 || (a.1 = b.1 && (a.2.1 < b.2.1 || (a.2.1 = b.2.1 && a.2.2 < b.2.2)))

namespace CSignatureCache

/-- `setValid.insert(k)`. -/
def insert (k : SigData) : List SigData → List SigData
  | [] => [k]
  | e :: setValid =>
    if SigData.lt k e then k :: e :: setValid
    else if SigData.lt e k then e :: insert k setValid
    else e :: setValid

/-- "Evict a random entry": the first one from the random hash on, or the first of all. -/
def evictOne (randomHash : Uint256) (setValid : List SigData) : List SigData :=
  match setValid.find? fun e => !SigData.lt e (randomHash, [], []) with
  | some e => setValid.erase e
  | none => setValid.tail

/-- `while (setValid.size() > nMaxCacheSize)`, up to a number of rounds. -/
def evict (nMaxCacheSize : Int) : Nat → (Nat → Uint256) → List SigData → List SigData
  | 0, _, setValid => setValid
  | nRounds + 1, randomHash, setValid =>
    if nMaxCacheSize < setValid.length then
      evict nMaxCacheSize nRounds (fun i => randomHash (i + 1)) (evictOne (randomHash 0) setValid)
    else setValid

/-- `Set`: every round of the loop takes an entry away. -/
def set (nMaxCacheSize : Int) (randomHash : Nat → Uint256) (k : SigData) (setValid : List SigData) : List SigData :=
  if nMaxCacheSize ≤ 0 then setValid
  else insert k (evict nMaxCacheSize setValid.length randomHash setValid)

end CSignatureCache

/-! ### `CheckSig` -/

/-- A call of `CheckSig`: its arguments, the value of `-maxsigcachesize`, and the random hashes. -/
structure CheckSigCall where
  vchSig : Valtype
  vchPubKey : Valtype
  scriptCode : CScript
  txTo : CTransaction
  nIn : Nat
  nHashType : Int
  nMaxCacheSize : Int := 50000
  randomHash : Nat → Uint256 := fun _ => 0

/-- The hash type: one byte tacked on to the end of the signature, which the caller may ask for. -/
def sigHashType (vchSig : Valtype) (nHashType : Int) : Option Int :=
  match vchSig.getLast? with
  | none => none
  | some back =>
    if nHashType = 0 then some back.toNat else if nHashType ≠ back.toNat then none else some nHashType

/-- `CheckSig`. -/
def SigEnv.checkSig (env : SigEnv) (setValid : List SigData) (call : CheckSigCall) : Bool × List SigData :=
  match sigHashType call.vchSig call.nHashType with
  | none => (false, setValid)
  | some nHashType =>
    let vchSig := call.vchSig.dropLast
    let sighash := env.signatureHash call.scriptCode call.txTo call.nIn nHashType
    if (sighash, vchSig, call.vchPubKey) ∈ setValid then (true, setValid)
    else if !env.setPubKey call.vchPubKey then (false, setValid)
    else if !env.verify call.vchPubKey sighash vchSig then (false, setValid)
    else
      (true, CSignatureCache.set call.nMaxCacheSize call.randomHash (sighash, vchSig, call.vchPubKey) setValid)

/-- One call after the other: the results, and what is cached then. -/
def SigEnv.checkSigs (env : SigEnv) : List SigData → List CheckSigCall → List Bool × List SigData
  | setValid, [] => ([], setValid)
  | setValid, call :: calls =>
    let (fSuccess, setValid) := env.checkSig setValid call
    let (results, setValid) := env.checkSigs setValid calls
    (fSuccess :: results, setValid)

end Peershares
