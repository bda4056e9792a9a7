import Peershares.Model.KeyStore

/-!
# The passphrase of a wallet

An encrypted wallet has a random master key that its secrets are encrypted with. The master key itself is
in `mapMasterKeys`, encrypted with a key that is derived from the passphrase. `Unlock`,
`ChangeWalletPassphrase` and `EncryptWallet` of `wallet.cpp` go through these records.

The answers of OpenSSL and of the database, the random bytes and the number of iterations that the clock
gives are those of one call: `UnlockIo`, `ChangeIo` and `EncryptIo`. A process that exits fails with an
assertion.

The records on the disk are left out, and of `NewKeyPool` all but the keys that come into the key store.
-/

open Framework

namespace Peershares

variable {Point : Type}

def WALLET_CRYPTO_SALT_SIZE : Nat := 8

/-- `CMasterKey`. -/
structure CMasterKey where
  vchCryptedKey : List UInt8 := []
  vchSalt : List UInt8 := []
  /-- Zero is `EVP_sha512()`. -/
  nDerivationMethod : Nat := 0
  nDeriveIterations : Nat := 25000
deriving DecidableEq, Repr

/-- OpenSSL, with the derivation of a key and an initial vector from a passphrase. -/
structure WalletCrypto (Point : Type) extends KeyCrypto Point where
  /-- `EVP_BytesToKey(EVP_aes_256_cbc(), EVP_sha512(), salt, passphrase, rounds)`. -/
  bytesToKey : List UInt8 → List UInt8 → Nat → List UInt8 × List UInt8

namespace CMasterKey

/-- `SetKeyFromPassphrase` with the parameters of the record; `ok` is the answer of OpenSSL. -/
def setKeyFromPassphrase (W : WalletCrypto Point) (ok : Bool) (strKeyData : List UInt8) (k : CMasterKey) :
    Option (List UInt8 × List UInt8) :=
  if k.nDeriveIterations < 1 ∨ k.vchSalt.length ≠ WALLET_CRYPTO_SALT_SIZE then none
  else if k.nDerivationMethod = 0 ∧ ok = true then
    some (W.bytesToKey strKeyData k.vchSalt k.nDeriveIterations)
  else none

end CMasterKey

/-- `CCrypter::Encrypt`. -/
def crypterEncrypt (W : WalletCrypto Point) (ok : Bool) (crypter : List UInt8 × List UInt8)
    (vchPlaintext : List UInt8) : Option (List UInt8) :=
  if ok then W.encrypt crypter.1 crypter.2 vchPlaintext else none

/-- `CCrypter::Decrypt`. -/
def crypterDecrypt (W : WalletCrypto Point) (ok : Bool) (crypter : List UInt8 × List UInt8)
    (vchCiphertext : List UInt8) : Option (List UInt8) :=
  if ok then W.decrypt crypter.1 crypter.2 vchCiphertext else none

/-- The part of `CWallet` that has to do with encryption. -/
structure CryptWallet where
  store : CCryptoKeyStore := {}
  mapMasterKeys : OrderedMap Nat CMasterKey := OrderedMap.empty
  nMasterKeyMaxID : Nat := 0
  fFileBacked : Bool := true

/-! ### Lock and unlock -/

/-- The answers for one record after the other. -/
structure UnlockIo where
  derive : Nat → Bool := fun _ => true
  decrypt : Nat → Bool := fun _ => true

namespace CryptWallet

def lock (w : CryptWallet) : Bool × CryptWallet := (w.store.lock.1, { w with store := w.store.lock.2 })

/-- The loop of `Unlock`, from the `i`-th record on. -/
def unlockLoop (W : WalletCrypto Point) (io : UnlockIo) (strWalletPassphrase : List UInt8) :
    Nat → List (Nat × CMasterKey) → CryptWallet → Result (Bool × CryptWallet)
  | _, [], w => pure (false, w)
  | i, (_, k) :: keys, w =>
    match k.setKeyFromPassphrase W (io.derive i) strWalletPassphrase with
    | none => pure (false, w)
    | some crypter =>
      match crypterDecrypt W (io.decrypt i) crypter k.vchCryptedKey with
      | none => pure (false, w)
      | some vMasterKey => do
        let (unlocked, store) ← w.store.unlock W.toKeyCrypto vMasterKey
        if unlocked then pure (true, { w with store := store })
        else unlockLoop W io strWalletPassphrase (i + 1) keys { w with store := store }

def unlock (W : WalletCrypto Point) (io : UnlockIo) (strWalletPassphrase : List UInt8) (w : CryptWallet) :
    Result (Bool × CryptWallet) :=
  if !w.store.isLocked then pure (false, w)
  else unlockLoop W io strWalletPassphrase 0 w.mapMasterKeys.entries w

end CryptWallet

/-! ### `ChangeWalletPassphrase` -/

structure ChangeIo extends UnlockIo where
  /-- The number of iterations that the clock gives, before the lower bound. -/
  nDeriveIterations : Nat := 0
  /-- Is the key derived from the new passphrase? -/
  newDerive : Bool := true
  /-- Is the master key encrypted with it? -/
  newEncrypt : Bool := true
  /-- What a failed encryption leaves in the ciphertext. -/
  partialCiphertext : List UInt8 := []

namespace CryptWallet

/-- The master key is known: it is encrypted with the new passphrase. The record is changed in place. -/
def rekey (W : WalletCrypto Point) (io : ChangeIo) (strNewWalletPassphrase : List UInt8) (fWasLocked : Bool)
    (nID : Nat) (k : CMasterKey) (vMasterKey : List UInt8) (w : CryptWallet) : Bool × CryptWallet :=
  let k := { k with nDeriveIterations := max 25000 io.nDeriveIterations }
  match k.setKeyFromPassphrase W io.newDerive strNewWalletPassphrase with
  | none => (false, { w with mapMasterKeys := w.mapMasterKeys.put nID k })
  | some crypter =>
    match crypterEncrypt W io.newEncrypt crypter vMasterKey with
    | none =>
      (false, { w with mapMasterKeys := w.mapMasterKeys.put nID { k with vchCryptedKey := io.partialCiphertext } })
    | some vchCryptedKey =>
      let w := { w with mapMasterKeys := w.mapMasterKeys.put nID { k with vchCryptedKey := vchCryptedKey } }
      (true, if fWasLocked then w.lock.2 else w)

/-- The loop of `ChangeWalletPassphrase`, from the `i`-th record on. -/
def changeLoop (W : WalletCrypto Point) (io : ChangeIo) (strOldWalletPassphrase strNewWalletPassphrase : List UInt8)
    (fWasLocked : Bool) : Nat → List (Nat × CMasterKey) → CryptWallet → Result (Bool × CryptWallet)
  | _, [], w => pure (false, w)
  | i, (nID, k) :: keys, w =>
    match k.setKeyFromPassphrase W (io.derive i) strOldWalletPassphrase with
    | none => pure (false, w)
    | some crypter =>
      match crypterDecrypt W (io.decrypt i) crypter k.vchCryptedKey with
      | none => pure (false, w)
      | some vMasterKey => do
        let (unlocked, store) ← w.store.unlock W.toKeyCrypto vMasterKey
        let w := { w with store := store }
        if unlocked then pure (w.rekey W io strNewWalletPassphrase fWasLocked nID k vMasterKey)
        else changeLoop W io strOldWalletPassphrase strNewWalletPassphrase fWasLocked (i + 1) keys w

def changeWalletPassphrase (W : WalletCrypto Point) (io : ChangeIo)
    (strOldWalletPassphrase strNewWalletPassphrase : List UInt8) (w : CryptWallet) :
    Result (Bool × CryptWallet) :=
  let fWasLocked := w.store.isLocked
  let w := w.lock.2
  changeLoop W io strOldWalletPassphrase strNewWalletPassphrase fWasLocked 0 w.mapMasterKeys.entries w

end CryptWallet

/-! ### `EncryptWallet` -/

structure EncryptIo (Point : Type) where
  /-- The random bytes. -/
  vMasterKey : List UInt8
  vchSalt : List UInt8
  /-- The number of iterations that the clock gives, before the lower bound. -/
  nDeriveIterations : Nat := 0
  derive : Bool := true
  encrypt : Bool := true
  txnBegin : Bool := true
  txnCommit : Bool := true
  /-- The answers in the call of `Unlock`. -/
  unlock : UnlockIo := {}
  /-- The keys that `NewKeyPool` makes. -/
  newKeys : List (CKey Point) := []

namespace CryptWallet

/-- `NewKeyPool`: nothing when the wallet is locked. -/
def newKeyPool (P : Params) (W : WalletCrypto Point) (newKeys : List (CKey Point)) (w : CryptWallet) :
    Result CryptWallet :=
  if w.store.isLocked then pure w
  else newKeys.foldlM (fun w key => do
    let (added, store) ← w.store.addKey P W.toKeyCrypto key
    if added then pure { w with store := store }
    else throw (.exception "CWallet::GenerateNewKey() : AddKey failed")) w

/-- The part of `EncryptWallet` behind the two `exit(1)`. -/
def finishEncryption (P : Params) (W : WalletCrypto Point) (io : EncryptIo Point)
    (strWalletPassphrase : List UInt8) (w : CryptWallet) : Result (Bool × CryptWallet) := do
  let (_, w) ← w.lock.2.unlock W io.unlock strWalletPassphrase
  let w ← w.newKeyPool P W io.newKeys
  pure (true, w.lock.2)

def encryptWallet (P : Params) (W : WalletCrypto Point) (io : EncryptIo Point)
    (strWalletPassphrase : List UInt8) (w : CryptWallet) : Result (Bool × CryptWallet) :=
  if w.store.isCrypted then pure (false, w)
  else
    let kMasterKey : CMasterKey :=
      { vchSalt := io.vchSalt, nDeriveIterations := max 25000 io.nDeriveIterations }
    match kMasterKey.setKeyFromPassphrase W io.derive strWalletPassphrase with
    | none => pure (false, w)
    | some crypter =>
      match crypterEncrypt W io.encrypt crypter io.vMasterKey with
      | none => pure (false, w)
      | some vchCryptedKey =>
        let kMasterKey := { kMasterKey with vchCryptedKey := vchCryptedKey }
        let w := { w with
          nMasterKeyMaxID := w.nMasterKeyMaxID + 1
          mapMasterKeys := w.mapMasterKeys.put (w.nMasterKeyMaxID + 1) kMasterKey }
        if w.fFileBacked && !io.txnBegin then pure (false, w)
        else do
          let (encrypted, store) ← w.store.encryptKeys P W.toKeyCrypto io.vMasterKey
          if !encrypted || (w.fFileBacked && !io.txnCommit) then throw .assertion
          else finishEncryption P W io strWalletPassphrase { w with store := store }

end CryptWallet

/-! ### Runs -/

inductive PassphraseOp (Point : Type) where
  | encryptWallet (io : EncryptIo Point) (strWalletPassphrase : List UInt8)
  | changeWalletPassphrase (io : ChangeIo) (strOldWalletPassphrase strNewWalletPassphrase : List UInt8)
  | unlock (io : UnlockIo) (strWalletPassphrase : List UInt8)
  | lock

/-- What the operation returns, and the wallet after it. -/
def PassphraseOp.exec (P : Params) (W : WalletCrypto Point) (w : CryptWallet) :
    PassphraseOp Point → Result (Bool × CryptWallet)
  | .encryptWallet io strWalletPassphrase => w.encryptWallet P W io strWalletPassphrase
  | .changeWalletPassphrase io strOldWalletPassphrase strNewWalletPassphrase =>
    w.changeWalletPassphrase W io strOldWalletPassphrase strNewWalletPassphrase
  | .unlock io strWalletPassphrase => w.unlock W io strWalletPassphrase
  | .lock => pure w.lock

/-- The passphrase that the operation sets when it returns `true`. -/
def PassphraseOp.newPassphrase : PassphraseOp Point → Option (List UInt8)
  | .encryptWallet _ strWalletPassphrase => some strWalletPassphrase
  | .changeWalletPassphrase _ _ strNewWalletPassphrase => some strNewWalletPassphrase
  | .unlock _ _ => none
  | .lock => none

/-- The wallet, and the passphrase that was set last. -/
structure PassphraseState where
  wallet : CryptWallet
  passphrase : Option (List UInt8) := none

def PassphraseState.exec (P : Params) (W : WalletCrypto Point) (s : PassphraseState)
    (op : PassphraseOp Point) : Result (Bool × PassphraseState) := do
  let (done, wallet) ← op.exec P W s.wallet
  pure (done, ⟨wallet, if done then op.newPassphrase.or s.passphrase else s.passphrase⟩)

end Peershares
