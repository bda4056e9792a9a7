import Peershares.Model.Address
import Peershares.Model.CheckSig

/-!
# Signing

`Sign1`, `SignN`, the signing `Solver` and `SignSignature` of `script.cpp`, and `SetBitcoinAddress`,
`SetMultisig` and `SetPayToScriptHash`.

`CKeyStore` is an interface: a key store here is what its functions return. `CKey::Sign` may give another
signature each time; it is told how many keys were tried before.
-/

namespace Peershares

/-! ### Key stores and keys -/

/-- The functions of `CKeyStore` that signing calls; `none` when they return `false`. -/
structure CKeyStore (Key : Type) where
  getKey : CBase58Data → Option Key
  getPubKey : CBase58Data → Option Valtype
  getCScript : List UInt8 → Option CScript

/-- The code that signing and verifying call. -/
structure SignEnv (Key : Type) where
  P : Params
  /-- The hash functions of the interpreter, apart from `Hash160`. -/
  hashes : ScriptEnv
  sig : SigEnv
  /-- `CKey::GetPubKey`. -/
  pubKey : Key → Valtype
  /-- `CKey::Sign`; `none` when it returns `false`. -/
  sign : Nat → Key → Uint256 → Option Valtype

namespace SignEnv

variable {Key : Type} (env : SignEnv Key)

/-- The interpreter with `CheckSig`, which gives the same results with any cache. -/
def scriptEnv : ScriptEnv :=
  { env.hashes with
    hash160 := env.P.hash160
    hash160_length := env.P.hash160_length
    checkSig := fun vchSig vchPubKey scriptCode txTo nIn nHashType =>
      (env.sig.checkSig [] { vchSig, vchPubKey, scriptCode, txTo, nIn, nHashType }).1 }

/-! ### `Solver` for signing -/

/-- `Sign1`: `scriptSigRet << vchSig`, with the hash type behind the signature. -/
def sign1 (address : CBase58Data) (keystore : CKeyStore Key) (hash : Uint256) (nHashType : Int) (nTried : Nat)
    (scriptSigRet : CScript) : Bool × CScript :=
  match keystore.getKey address with
  | none => (false, scriptSigRet)
  | some key =>
    match env.sign nTried key hash with
    | none => (false, scriptSigRet)
    | some vchSig => (true, scriptSigRet ++ pushData (vchSig ++ [UInt8.ofNat (nHashType % 256).toNat]))

/-- The loop of `SignN` over the keys. -/
def signNLoop (keystore : CKeyStore Key) (hash : Uint256) (nHashType : Int) (nRequired : Nat) :
    List Valtype → Nat → Nat → CScript → Bool × CScript
  | [], _, nSigned, scriptSigRet => (nSigned = nRequired, scriptSigRet)
  | pubkey :: pubkeys, nTried, nSigned, scriptSigRet =>
    match env.sign1 (CBitcoinAddress.setPubKey env.P pubkey) keystore hash nHashType nTried scriptSigRet with
    | (true, scriptSigRet) =>
      if nSigned + 1 = nRequired then (true, scriptSigRet)
      else signNLoop keystore hash nHashType nRequired pubkeys (nTried + 1) (nSigned + 1) scriptSigRet
    | (false, scriptSigRet) =>
      signNLoop keystore hash nHashType nRequired pubkeys (nTried + 1) nSigned scriptSigRet

/-- `SignN`. -/
def signN (multisigdata : List Valtype) (keystore : CKeyStore Key) (hash : Uint256) (nHashType : Int)
    (scriptSigRet : CScript) : Bool × CScript :=
  env.signNLoop keystore hash nHashType ((multisigdata.headD []).headD 0).toNat multisigdata.tail.dropLast 0 0
    scriptSigRet

/-- `Solver` with a key store: what it returns, `scriptSigRet` and `whichTypeRet`. -/
def solver (keystore : CKeyStore Key) (scriptPubKey : CScript) (hash : Uint256) (nHashType : Int) :
    Bool × CScript × TxnOutType :=
  match Peershares.solver scriptPubKey with
  | (false, whichType, _) => (false, [], whichType)
  | (true, .TX_NONSTANDARD, _) => (false, [], .TX_NONSTANDARD)
  | (true, .TX_NULL_DATA, _) => (false, [], .TX_NULL_DATA)
  | (true, .TX_PUBKEY, vSolutions) =>
    let (fSigned, scriptSig) :=
      env.sign1 (CBitcoinAddress.setPubKey env.P (vSolutions.headD [])) keystore hash nHashType 0 []
    (fSigned, scriptSig, .TX_PUBKEY)
  | (true, .TX_PUBKEYHASH, vSolutions) =>
    let address := CBitcoinAddress.setHash160 env.P (uint160 (vSolutions.headD []))
    match env.sign1 address keystore hash nHashType 0 [] with
    | (false, scriptSig) => (false, scriptSig, .TX_PUBKEYHASH)
    | (true, scriptSig) => (true, scriptSig ++ pushData ((keystore.getPubKey address).getD []), .TX_PUBKEYHASH)
  | (true, .TX_SCRIPTHASH, vSolutions) =>
    match keystore.getCScript (uint160 (vSolutions.headD [])) with
    | none => (false, [], .TX_SCRIPTHASH)
    | some script => (true, script, .TX_SCRIPTHASH)
  | (true, .TX_MULTISIG, vSolutions) =>
    -- workaround `CHECKMULTISIG` bug
    let (fSigned, scriptSig) := env.signN vSolutions keystore hash nHashType [OP_0]
    (fSigned, scriptSig, .TX_MULTISIG)

/-! ### `SignSignature` -/

/-- `txTo` with `txTo.vin[nIn].scriptSig = scriptSig`. -/
def setScriptSig (txTo : CTransaction) (nIn : Nat) (scriptSig : CScript) : CTransaction :=
  { txTo with vin := txTo.vin.modify nIn fun txin => { txin with scriptSig } }

/-- The `scriptSig` that `SignSignature` makes, and whether it goes on to test it. -/
def makeScriptSig (keystore : CKeyStore Key) (scriptPubKey : CScript) (txTo : CTransaction) (nIn : Nat)
    (nHashType : Int) : Bool × CScript :=
  let hash := env.sig.signatureHash scriptPubKey txTo nIn nHashType
  match env.solver keystore scriptPubKey hash nHashType with
  | (false, scriptSig, _) => (false, scriptSig)
  | (true, scriptSig, .TX_SCRIPTHASH) =>
    -- `Solver` returns the subscript that need to be evaluated
    let subscript := scriptSig
    let hash2 := env.sig.signatureHash subscript (setScriptSig txTo nIn scriptSig) nIn nHashType
    match env.solver keystore subscript hash2 nHashType with
    | (false, scriptSig, _) => (false, scriptSig)
    | (true, scriptSig, subType) =>
      if subType = .TX_SCRIPTHASH then (false, scriptSig) else (true, scriptSig ++ pushData subscript)
  | (true, scriptSig, _) => (true, scriptSig)

/-- `SignSignature`: whether it succeeds, and the transaction then. -/
def signSignature (keystore : CKeyStore Key) (txFrom txTo : CTransaction) (nIn : Nat) (nHashType : Int) :
    Result (Bool × CTransaction) :=
  match txTo.vin[nIn]? with
  | none => .error .assertion
  | some txin =>
    match txFrom.vout[txin.prevout.n]? with
    | none => .error .assertion
    | some txout =>
      if txin.prevout.hash ≠ env.P.hashTx txFrom then .error .assertion
      else
        match env.makeScriptSig keystore txout.scriptPubKey txTo nIn nHashType with
        | (false, scriptSig) => .ok (false, setScriptSig txTo nIn scriptSig)
        | (true, scriptSig) =>
          let txTo := setScriptSig txTo nIn scriptSig
          -- test solution
          .ok (verifyScript env.scriptEnv scriptSig txout.scriptPubKey txTo nIn true 0 = some true, txTo)

end SignEnv

/-! ### Scripts that pay to keys -/

end Peershares
