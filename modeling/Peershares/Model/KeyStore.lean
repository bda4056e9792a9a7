import Mathlib.Data.Prod.Lex
import Peershares.Framework.OrderedMap
import Peershares.Model.Address

/-!
# Keys and key stores

`CKey` of `key.cpp`, and the two key stores: `CBasicKeyStore` has the secrets, with a flag for each that
says whether its public key is written in the compressed form; `CCryptoKeyStore` has, once it is
encrypted, public keys and encrypted secrets.

`CKey` is an object that is used again: `SetSecret` takes the flag over from what the object was before,
and only `Reset` clears it.

Elliptic curves, hashes and ciphers are those of OpenSSL, and are the fields of `KeyCrypto`. Scripts are
left out.
-/

open Framework

namespace Peershares

/-- Addresses are compared by the version, and then by the data. -/
instance : LinearOrder CBase58Data :=
  LinearOrder.lift' (fun address => toLex (address.nVersion, address.vchData)) (by
    rintro ⟨v, d⟩ ⟨v', d'⟩ h
    cases toLex.injective h
    rfl)

/-! ### OpenSSL -/

def WALLET_CRYPTO_KEY_SIZE : Nat := 32

/-- The functions of OpenSSL, for points of the type `Point`. -/
structure KeyCrypto (Point : Type) where
  /-- `EC_KEY_regenerate_key`: the public key of a secret. -/
  regenerate : List UInt8 → Point
  /-- `i2o_ECPublicKey`, in the compressed form or not. -/
  i2o : Bool → Point → List UInt8
  /-- `o2i_ECPublicKey`: the point, and the form it was written in. -/
  o2i : List UInt8 → Option (Point × Bool)
  /-- `Hash`, as bytes. -/
  hash : List UInt8 → List UInt8
  /-- `EVP_EncryptInit_ex` and the calls after it, with key and initial vector. -/
  encrypt : List UInt8 → List UInt8 → List UInt8 → Option (List UInt8)
  /-- `EVP_DecryptInit_ex` and the calls after it. -/
  decrypt : List UInt8 → List UInt8 → List UInt8 → Option (List UInt8)

variable {Point : Type}

/-- What is known of them. -/
structure KeyCrypto.Lawful (K : KeyCrypto Point) : Prop where
  o2i_i2o : ∀ form point, K.o2i (K.i2o form point) = some (point, form)
  length_compressed : ∀ point, (K.i2o true point).length = 33
  length_uncompressed : ∀ point, (K.i2o false point).length = 65
  encrypt_isSome : ∀ key iv plain, key.length = WALLET_CRYPTO_KEY_SIZE → (K.encrypt key iv plain).isSome
  decrypt_encrypt : ∀ key iv plain cipher, K.encrypt key iv plain = some cipher →
    K.decrypt key iv cipher = some plain

/-- `EncryptSecret`. -/
def encryptSecret (K : KeyCrypto Point) (vMasterKey vchPlaintext nIV : List UInt8) : Option (List UInt8) :=
  if vMasterKey.length = WALLET_CRYPTO_KEY_SIZE then K.encrypt vMasterKey nIV vchPlaintext else none

/-- `DecryptSecret`. -/
def decryptSecret (K : KeyCrypto Point) (vMasterKey vchCiphertext nIV : List UInt8) : Option (List UInt8) :=
  if vMasterKey.length = WALLET_CRYPTO_KEY_SIZE then K.decrypt vMasterKey nIV vchCiphertext else none

/-! ### Keys -/

/-- `EC_KEY`. -/
structure EcKey (Point : Type) where
  priv : Option (List UInt8) := none
  pub : Option Point := none
  /-- `POINT_CONVERSION_COMPRESSED`. -/
  compressed : Bool := false

/-- `CKey`; a new one is as after `Reset`. -/
structure CKey (Point : Type) where
  pkey : EcKey Point := {}
  fSet : Bool := false
  fCompressedPubKey : Bool := false

namespace CKey

/-- `SetCompressedPubKey`. -/
def setCompressedPubKey (key : CKey Point) : CKey Point :=
  { key with pkey := { key.pkey with compressed := true }, fCompressedPubKey := true }

/-- `SetSecret`. -/
def setSecret (K : KeyCrypto Point) (vchSecret : List UInt8) (fCompressed : Bool) (key : CKey Point) :
    Result (CKey Point) :=
  if vchSecret.length = 32 then
    let key := { key with pkey := ⟨some vchSecret, some (K.regenerate vchSecret), false⟩, fSet := true }
    .ok (if fCompressed || key.fCompressedPubKey then key.setCompressedPubKey else key)
  else .error (.exception "CKey::SetSecret() : secret must be 32 bytes")

/-- `GetSecret`, and the flag it returns. -/
def getSecret (key : CKey Point) : Result (List UInt8 × Bool) :=
  match key.pkey.priv with
  | some vchSecret => .ok (vchSecret, key.fCompressedPubKey)
  | none => .error (.exception "CKey::GetSecret() : EC_KEY_get0_private_key failed")

/-- `SetPubKey`; what it returns is not looked at in the key stores. -/
def setPubKey (K : KeyCrypto Point) (vchPubKey : List UInt8) (key : CKey Point) : CKey Point :=
  match K.o2i vchPubKey with
  | none => key
  | some (point, form) =>
    let key := { key with pkey := { key.pkey with pub := some point, compressed := form }, fSet := true }
    if vchPubKey.length = 33 then key.setCompressedPubKey else key

/-- `GetPubKey`. -/
def getPubKey (K : KeyCrypto Point) (key : CKey Point) : Result (List UInt8) :=
  match key.pkey.pub with
  | some point => .ok (K.i2o key.pkey.compressed point)
  | none => .error (.exception "CKey::GetPubKey() : i2o_ECPublicKey failed")

end CKey

/-! ### The plain key store -/

structure CBasicKeyStore where
  /-- `KeyMap`: the secret, and whether the public key is compressed. -/
  mapKeys : OrderedMap CBase58Data (List UInt8 × Bool) := OrderedMap.empty

namespace CBasicKeyStore

def addKey (P : Params) (K : KeyCrypto Point) (key : CKey Point) (store : CBasicKeyStore) :
    Result CBasicKeyStore := do
  let (secret, fCompressed) ← key.getSecret
  let vchPubKey ← key.getPubKey K
  pure { mapKeys := store.mapKeys.put (CBitcoinAddress.setPubKey P vchPubKey) (secret, fCompressed) }

def haveKey (store : CBasicKeyStore) (address : CBase58Data) : Bool := (store.mapKeys.lookup address).isSome

/-- `GetKeys`: a set, by increasing address. -/
def getKeys (store : CBasicKeyStore) : List CBase58Data := store.mapKeys.keys

/-- `GetKey`: what it returns, and `keyOut` after the call. -/
def getKey (K : KeyCrypto Point) (store : CBasicKeyStore) (address : CBase58Data) (keyOut : CKey Point) :
    Result (Bool × CKey Point) :=
  match store.mapKeys.lookup address with
  | some (secret, fCompressed) => do
    -- `keyOut.Reset()`
    let keyOut ← ({} : CKey Point).setSecret K secret fCompressed
    pure (true, keyOut)
  | none => pure (false, keyOut)

end CBasicKeyStore

/-! ### `CKeyStore` -/

/-- `CKeyStore::GetPubKey`, for a store with this `GetKey`; `none` when it returns `false`. -/
def getPubKeyOf (K : KeyCrypto Point)
    (getKey : CBase58Data → CKey Point → Result (Bool × CKey Point)) (address : CBase58Data) :
    Result (Option (List UInt8)) := do
  let (found, key) ← getKey address {}
  if found then do
    let vchPubKey ← key.getPubKey K
    pure (some vchPubKey)
  else pure none

/-- `CKeyStore::GetSecret`, for a store with this `GetKey`; `none` when it returns `false`. -/
def getSecretOf (getKey : CBase58Data → CKey Point → Result (Bool × CKey Point)) (address : CBase58Data) :
    Result (Option (List UInt8 × Bool)) := do
  let (found, key) ← getKey address {}
  if found then do
    let secret ← key.getSecret
    pure (some secret)
  else pure none

/-! ### The encrypted key store -/

structure CCryptoKeyStore where
  mapKeys : OrderedMap CBase58Data (List UInt8 × Bool) := OrderedMap.empty
  /-- `CryptedKeyMap`: the public key and the encrypted secret. -/
  mapCryptedKeys : OrderedMap CBase58Data (List UInt8 × List UInt8) := OrderedMap.empty
  vMasterKey : List UInt8 := []
  fUseCrypto : Bool := false

namespace CCryptoKeyStore

/-- The part of it that is a `CBasicKeyStore`. -/
def basic (store : CCryptoKeyStore) : CBasicKeyStore := ⟨store.mapKeys⟩

def isCrypted (store : CCryptoKeyStore) : Bool := store.fUseCrypto

def isLocked (store : CCryptoKeyStore) : Bool := store.isCrypted && store.vMasterKey.isEmpty

def setCrypted (store : CCryptoKeyStore) : Bool × CCryptoKeyStore :=
  if store.fUseCrypto then (true, store)
  else if !store.mapKeys.entries.isEmpty then (false, store)
  else (true, { store with fUseCrypto := true })

def lock (store : CCryptoKeyStore) : Bool × CCryptoKeyStore :=
  match store.setCrypted with
  | (false, store) => (false, store)
  | (true, store) => (true, { store with vMasterKey := [] })

/-- The test of the master key in `Unlock`, at the first key. -/
def checkMasterKey (K : KeyCrypto Point) (vMasterKeyIn : List UInt8) :
    List (CBase58Data × List UInt8 × List UInt8) → Result Bool
  | [] => pure true
  | (_, vchPubKey, vchCryptedSecret) :: _ =>
    match decryptSecret K vMasterKeyIn vchCryptedSecret (K.hash vchPubKey) with
    | none => pure false
    | some vchSecret =>
      if vchSecret.length ≠ 32 then pure false
      else do
        let key ← (({} : CKey Point).setPubKey K vchPubKey).setSecret K vchSecret false
        let vchPubKey' ← key.getPubKey K
        pure (decide (vchPubKey' = vchPubKey))

def unlock (K : KeyCrypto Point) (vMasterKeyIn : List UInt8) (store : CCryptoKeyStore) :
    Result (Bool × CCryptoKeyStore) :=
  match store.setCrypted with
  | (false, store) => pure (false, store)
  | (true, store) => do
    let passed ← checkMasterKey K vMasterKeyIn store.mapCryptedKeys.entries
    if passed then pure (true, { store with vMasterKey := vMasterKeyIn }) else pure (false, store)

def addCryptedKey (P : Params) (vchPubKey vchCryptedSecret : List UInt8) (store : CCryptoKeyStore) :
    Bool × CCryptoKeyStore :=
  match store.setCrypted with
  | (false, store) => (false, store)
  | (true, store) =>
    let address := CBitcoinAddress.setPubKey P vchPubKey
    (true, { store with
      mapCryptedKeys := store.mapCryptedKeys.put address (vchPubKey, vchCryptedSecret) })

def addKey (P : Params) (K : KeyCrypto Point) (key : CKey Point) (store : CCryptoKeyStore) :
    Result (Bool × CCryptoKeyStore) :=
  if !store.isCrypted then do
    let basic ← store.basic.addKey P K key
    pure (true, { store with mapKeys := basic.mapKeys })
  else if store.isLocked then pure (false, store)
  else do
    let vchPubKey ← key.getPubKey K
    let (vchSecret, _) ← key.getSecret
    match encryptSecret K store.vMasterKey vchSecret (K.hash vchPubKey) with
    | none => pure (false, store)
    | some vchCryptedSecret => pure (store.addCryptedKey P vchPubKey vchCryptedSecret)

def haveKey (store : CCryptoKeyStore) (address : CBase58Data) : Bool :=
  if !store.isCrypted then store.basic.haveKey address else (store.mapCryptedKeys.lookup address).isSome

def getKeys (store : CCryptoKeyStore) : List CBase58Data :=
  if !store.isCrypted then store.basic.getKeys else store.mapCryptedKeys.keys

/-- `GetKey`: what it returns, and `keyOut` after the call. -/
def getKey (K : KeyCrypto Point) (store : CCryptoKeyStore) (address : CBase58Data) (keyOut : CKey Point) :
    Result (Bool × CKey Point) :=
  if !store.isCrypted then store.basic.getKey K address keyOut
  else
    match store.mapCryptedKeys.lookup address with
    | none => pure (false, keyOut)
    | some (vchPubKey, vchCryptedSecret) =>
      match decryptSecret K store.vMasterKey vchCryptedSecret (K.hash vchPubKey) with
      | none => pure (false, keyOut)
      | some vchSecret =>
        if vchSecret.length ≠ 32 then pure (false, keyOut)
        else do
          let keyOut ← (keyOut.setPubKey K vchPubKey).setSecret K vchSecret false
          pure (true, keyOut)

def getPubKey (K : KeyCrypto Point) (store : CCryptoKeyStore) (address : CBase58Data) :
    Result (Option (List UInt8)) :=
  if !store.isCrypted then getPubKeyOf K (store.getKey K) address
  else pure ((store.mapCryptedKeys.lookup address).map Prod.fst)

/-- The loop of `EncryptKeys`. -/
def encryptLoop (P : Params) (K : KeyCrypto Point) (vMasterKeyIn : List UInt8) :
    List (CBase58Data × List UInt8 × Bool) → CCryptoKeyStore → Result (Bool × CCryptoKeyStore)
  | [], store => pure (true, store)
  | (_, secret, fCompressed) :: keys, store => do
    let key ← ({} : CKey Point).setSecret K secret fCompressed
    let vchPubKey ← key.getPubKey K
    let (vchSecret, _) ← key.getSecret
    match encryptSecret K vMasterKeyIn vchSecret (K.hash vchPubKey) with
    | none => pure (false, store)
    | some vchCryptedSecret =>
      match store.addCryptedKey P vchPubKey vchCryptedSecret with
      | (false, store) => pure (false, store)
      | (true, store) => encryptLoop P K vMasterKeyIn keys store

def encryptKeys (P : Params) (K : KeyCrypto Point) (vMasterKeyIn : List UInt8) (store : CCryptoKeyStore) :
    Result (Bool × CCryptoKeyStore) :=
  if !store.mapCryptedKeys.entries.isEmpty || store.isCrypted then pure (false, store)
  else do
    let (done, store) ←
      encryptLoop P K vMasterKeyIn store.mapKeys.entries { store with fUseCrypto := true }
    pure (if done then (true, { store with mapKeys := OrderedMap.empty }) else (false, store))

end CCryptoKeyStore

/-! ### Runs -/

/-- The calls on a key store, with one master key. -/
inductive KeyStoreOp (Point : Type) where
  | addKey (key : CKey Point)
  | encryptKeys
  | lock
  | unlock

/-- One call on an encrypted store, and on a plain one that is given the keys the first one takes. -/
def KeyStoreOp.exec (P : Params) (K : KeyCrypto Point) (vMasterKey : List UInt8)
    (stores : CCryptoKeyStore × CBasicKeyStore) : KeyStoreOp Point → Result (CCryptoKeyStore × CBasicKeyStore)
  | .addKey key => do
    let (added, store) ← stores.1.addKey P K key
    if added then do
      let plain ← stores.2.addKey P K key
      pure (store, plain)
    else pure (store, stores.2)
  | .encryptKeys => do
    let (_, store) ← stores.1.encryptKeys P K vMasterKey
    pure (store, stores.2)
  | .lock => pure (stores.1.lock.2, stores.2)
  | .unlock => do
    let (_, store) ← stores.1.unlock K vMasterKey
    pure (store, stores.2)

/-- The calls one after the other, from empty stores. -/
def runKeyStore (P : Params) (K : KeyCrypto Point) (vMasterKey : List UInt8) (ops : List (KeyStoreOp Point)) :
    Result (CCryptoKeyStore × CBasicKeyStore) := ops.foldlM (KeyStoreOp.exec P K vMasterKey) ({}, {})

end Peershares
