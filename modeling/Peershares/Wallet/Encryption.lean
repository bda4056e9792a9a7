import Peershares.Model.Encryption
import Peershares.Wallet.KeyStore

/-!
# Passphrases

An operation on the passphrase that returns `false` should have done nothing. Each of them changes the
wallet before its last step that can fail, so this is so only when the failure comes early enough.
`PassphraseOp.Early` says when; the branches it leaves out are

* `EncryptWallet`, when the transaction of the database does not begin: the new record stays in
  `mapMasterKeys`
* `ChangeWalletPassphrase` on an unlocked wallet, when it fails: the wallet is locked
* `ChangeWalletPassphrase`, when the new passphrase fails: the record is changed, the wallet unlocked
* `ChangeWalletPassphrase` on a wallet that has no keys and is not encrypted: it is encrypted after it

`PassphraseInv` is the invariant of the other runs: there is one record, and the passphrase that was set
last opens it.
-/

open Framework

namespace Peershares

variable {Point : Type} {P : Params} {W : WalletCrypto Point}

/-- What is known of OpenSSL. A wrong passphrase gives no master key or a wrong one, and with a wrong
master key no secret is read that has the right public key. -/
structure WalletCrypto.Lawful (W : WalletCrypto Point) : Prop extends KeyCrypto.Lawful W.toKeyCrypto where
  length_key : ∀ strKeyData salt rounds, (W.bytesToKey strKeyData salt rounds).1.length = WALLET_CRYPTO_KEY_SIZE
  wrong_passphrase : ∀ right wrong salt rounds vMasterKey cipher, wrong ≠ right →
    W.encrypt (W.bytesToKey right salt rounds).1 (W.bytesToKey right salt rounds).2 vMasterKey = some cipher →
    W.decrypt (W.bytesToKey wrong salt rounds).1 (W.bytesToKey wrong salt rounds).2 cipher ≠ some vMasterKey
  wrong_master : ∀ right wrong iv vchSecret cipher vchSecret' fCompressed, wrong ≠ right →
    right.length = WALLET_CRYPTO_KEY_SIZE → wrong.length = WALLET_CRYPTO_KEY_SIZE → vchSecret.length = 32 →
    W.encrypt right iv vchSecret = some cipher → W.decrypt wrong iv cipher = some vchSecret' →
    vchSecret'.length = 32 → W.pubKey vchSecret' fCompressed ≠ W.pubKey vchSecret fCompressed

/-! ### Records -/

/-- The passphrase opens the record, and the master key is in it. -/
structure CMasterKey.Opens (W : WalletCrypto Point) (k : CMasterKey) (passphrase vMasterKey : List UInt8) :
    Prop where
  vchSalt : k.vchSalt.length = WALLET_CRYPTO_SALT_SIZE
  nDerivationMethod : k.nDerivationMethod = 0
  nDeriveIterations : 1 ≤ k.nDeriveIterations
  vchCryptedKey : W.encrypt (W.bytesToKey passphrase k.vchSalt k.nDeriveIterations).1
    (W.bytesToKey passphrase k.vchSalt k.nDeriveIterations).2 vMasterKey = some k.vchCryptedKey

namespace CMasterKey.Opens

variable {k : CMasterKey} {passphrase vMasterKey : List UInt8}

/-- `SetKeyFromPassphrase` derives a key unless the derivation fails. -/
theorem setKeyFromPassphrase (h : k.Opens W passphrase vMasterKey) (ok : Bool) (strKeyData : List UInt8) :
    k.setKeyFromPassphrase W ok strKeyData =
      if ok then some (W.bytesToKey strKeyData k.vchSalt k.nDeriveIterations) else none := by
  unfold CMasterKey.setKeyFromPassphrase
  have hcheck : ¬ (k.nDeriveIterations < 1 ∨ k.vchSalt.length ≠ WALLET_CRYPTO_SALT_SIZE) := by
    rintro (hlt | hne)
    · exact absurd h.nDeriveIterations (not_le.mpr hlt)
    · exact hne h.vchSalt
  rw [if_neg hcheck, h.nDerivationMethod]
  cases ok <;> rfl

/-- With the right passphrase the master key comes out. -/
theorem decrypt (h : k.Opens W passphrase vMasterKey) (hW : W.Lawful) :
    crypterDecrypt W true (W.bytesToKey passphrase k.vchSalt k.nDeriveIterations) k.vchCryptedKey =
      some vMasterKey := hW.decrypt_encrypt _ _ _ _ h.vchCryptedKey

/-- With another one it does not. -/
theorem decrypt_ne (h : k.Opens W passphrase vMasterKey) (hW : W.Lawful) {wrong vMasterKey' : List UInt8}
    (hwrong : wrong ≠ passphrase) {ok : Bool}
    (hdec : crypterDecrypt W ok (W.bytesToKey wrong k.vchSalt k.nDeriveIterations) k.vchCryptedKey =
      some vMasterKey') : vMasterKey' ≠ vMasterKey := by
  rintro rfl
  cases ok with
  | false => exact absurd hdec (by simp [crypterDecrypt])
  | true => exact hW.wrong_passphrase _ _ _ _ _ _ hwrong h.vchCryptedKey hdec

end CMasterKey.Opens

/-! ### Master keys -/

section MasterKeys

variable {K : KeyCrypto Point} {store : CCryptoKeyStore} {plain : CBasicKeyStore} {vMasterKey : List UInt8}

/-- The test of the master key does not throw. -/
theorem checkMasterKey_eq_ok (vMasterKeyIn : List UInt8)
    (l : List (CBase58Data × List UInt8 × List UInt8)) :
    ∃ passed, CCryptoKeyStore.checkMasterKey K vMasterKeyIn l = .ok passed := by
  cases l with
  | nil => exact ⟨true, rfl⟩
  | cons e l =>
    obtain ⟨address, vchPubKey, cipher⟩ := e
    unfold CCryptoKeyStore.checkMasterKey
    cases hdec : decryptSecret K vMasterKeyIn cipher (K.hash vchPubKey) with
    | none =>
      simp only [hdec]
      exact ⟨false, rfl⟩
    | some vchSecret =>
      by_cases hlen : vchSecret.length = 32
      · simp only [hdec, hlen, ne_eq, not_true, if_false, CKey.setSecret_eq hlen]
        exact ⟨_, rfl⟩
      · simp only [hdec, ne_eq, hlen, not_false_eq_true, if_true]
        exact ⟨false, rfl⟩

/-- `Unlock` of an encrypted store sets the master key when the test is passed. -/
theorem CCryptoKeyStore.unlock_crypted (huse : store.fUseCrypto = true) (vMasterKeyIn : List UInt8) :
    ∃ passed, checkMasterKey K vMasterKeyIn store.mapCryptedKeys.entries = .ok passed ∧
      store.unlock K vMasterKeyIn =
        .ok (passed, if passed then { store with vMasterKey := vMasterKeyIn } else store) := by
  obtain ⟨passed, hpassed⟩ := checkMasterKey_eq_ok (K := K) vMasterKeyIn store.mapCryptedKeys.entries
  refine ⟨passed, hpassed, ?_⟩
  unfold CCryptoKeyStore.unlock
  rw [CCryptoKeyStore.setCrypted_of_crypted huse]
  simp only [hpassed]
  cases passed <;> rfl

/-- `Lock` of an encrypted store forgets the master key. -/
theorem CCryptoKeyStore.lock_crypted (huse : store.fUseCrypto = true) :
    store.lock = (true, { store with vMasterKey := [] }) := by
  unfold CCryptoKeyStore.lock
  rw [CCryptoKeyStore.setCrypted_of_crypted huse]

/-- A store that is not encrypted has the keys of the plain one under each master key. -/
theorem Refines.of_plain (h : Refines P K vMasterKey store plain) (huse : store.fUseCrypto = false)
    (vMasterKey' : List UInt8) : Refines P K vMasterKey' store plain :=
  { h with
    crypted_keys := fun hc => absurd (hc.symm.trans huse) (by decide)
    master := .inl (h.vMasterKey_empty huse) }

/-- An encrypted store with the right master key. -/
theorem Refines.setMasterKey (h : Refines P K vMasterKey store plain) (huse : store.fUseCrypto = true) :
    Refines P K vMasterKey { store with vMasterKey := vMasterKey } plain :=
  { h with
    master := .inr rfl
    vMasterKey_empty := fun hc => absurd (huse.symm.trans hc) (by decide) }

/-- An encrypted store without a master key. -/
theorem Refines.clearMasterKey (h : Refines P K vMasterKey store plain) (huse : store.fUseCrypto = true) :
    Refines P K vMasterKey { store with vMasterKey := [] } plain :=
  { h with
    master := .inl rfl
    vMasterKey_empty := fun hc => absurd (huse.symm.trans hc) (by decide) }

end MasterKeys

/-- With a key in the store, only the right master key passes. -/
theorem Refines.eq_of_passed (hW : W.Lawful) {store : CCryptoKeyStore} {plain : CBasicKeyStore}
    {vMasterKey vMasterKeyIn : List UInt8} (hM : vMasterKey.length = WALLET_CRYPTO_KEY_SIZE)
    (h : Refines P W.toKeyCrypto vMasterKey store plain) (huse : store.fUseCrypto = true)
    (hkeys : store.mapCryptedKeys.entries ≠ [])
    (hpassed : CCryptoKeyStore.checkMasterKey W.toKeyCrypto vMasterKeyIn store.mapCryptedKeys.entries =
      .ok true) : vMasterKeyIn = vMasterKey := by
  by_contra hne
  -- there is a key to check
  cases hentries : store.mapCryptedKeys.entries with
  | nil => exact hkeys hentries
  | cons e l =>
    obtain ⟨address, vchPubKey, cipher⟩ := e
    have hmem : (address, vchPubKey, cipher) ∈ store.mapCryptedKeys.entries := by
      rw [hentries]
      exact List.mem_cons_self
    have hlookup := OrderedMap.lookup_eq_some_iff.mpr hmem
    rw [h.crypted_keys huse] at hlookup
    obtain ⟨p, hp, hcrypted⟩ := Option.bind_eq_some_iff.mp hlookup
    obtain ⟨cipher', henc, hcrypted', -⟩ := crypted_eq_some hW.toLawful hM p
    rw [hcrypted'] at hcrypted
    cases hcrypted
    -- the secret of that key is read with the new master key
    have hlen := (h.wf address p hp).1
    rw [hentries] at hpassed
    unfold CCryptoKeyStore.checkMasterKey at hpassed
    cases hdec : decryptSecret W.toKeyCrypto vMasterKeyIn cipher (W.hash (W.pubKey p.1 p.2)) with
    | none =>
      simp only [hdec] at hpassed
      cases hpassed
    | some vchSecret =>
      simp only [hdec] at hpassed
      by_cases hlen' : vchSecret.length = 32
      · -- the secret that is read belongs to another public key
        have hlenIn : vMasterKeyIn.length = WALLET_CRYPTO_KEY_SIZE := by
          by_contra hlenIn
          rw [decryptSecret, if_neg hlenIn] at hdec
          cases hdec
        rw [decryptSecret, if_pos hlenIn] at hdec
        rw [encryptSecret, if_pos hM] at henc
        have hkey := hW.wrong_master _ _ _ _ _ _ p.2 hne hM hlenIn hlen henc hdec hlen'
        simp only [hlen', ne_eq, not_true, if_false, CKey.setSecret_eq hlen',
          CKey.fCompressedPubKey_setPubKey hW.toLawful, Bool.or_false, Bool.false_or, Result.ok_bind,
          CKey.getPubKey_ofSecret] at hpassed
        exact hkey (by simpa [pure, Except.pure] using hpassed)
      · simp [hlen', pure, Except.pure] at hpassed

/-! ### The invariant -/

/-- The store has no keys, or keys that are encrypted with the master key. -/
def MasterOk (P : Params) (W : WalletCrypto Point) (vMasterKey : List UInt8) (store : CCryptoKeyStore) :
    Prop :=
  store.mapCryptedKeys.entries = [] ∨
    (vMasterKey.length = WALLET_CRYPTO_KEY_SIZE ∧ ∃ plain, Refines P W.toKeyCrypto vMasterKey store plain)

/-- The wallet is not encrypted, or it was locked when it was empty, or there is one record that the
passphrase opens. -/
inductive PassphraseInv (P : Params) (W : WalletCrypto Point) : PassphraseState → Prop
  | plain {w : CryptWallet} {vMasterKey : List UInt8} {plain : CBasicKeyStore}
      (huse : w.store.fUseCrypto = false) (hrecords : w.mapMasterKeys.entries = [])
      (hstore : Refines P W.toKeyCrypto vMasterKey w.store plain) : PassphraseInv P W ⟨w, none⟩
  | empty {w : CryptWallet} (huse : w.store.fUseCrypto = true) (hrecords : w.mapMasterKeys.entries = [])
      (hkeys : w.store.mapCryptedKeys.entries = []) (hlocked : w.store.vMasterKey = []) :
      PassphraseInv P W ⟨w, none⟩
  | crypted {w : CryptWallet} {nID : ℕ} {k : CMasterKey} {passphrase vMasterKey : List UInt8}
      (huse : w.store.fUseCrypto = true) (hrecords : w.mapMasterKeys.entries = [(nID, k)])
      (hopens : k.Opens W passphrase vMasterKey) (hstore : MasterOk P W vMasterKey w.store) :
      PassphraseInv P W ⟨w, some passphrase⟩

namespace MasterOk

variable {vMasterKey vMasterKeyIn : List UInt8} {store : CCryptoKeyStore}

/-- The right master key passes. -/
theorem passed (h : MasterOk P W vMasterKey store) (hW : W.Lawful) (huse : store.fUseCrypto = true) :
    CCryptoKeyStore.checkMasterKey W.toKeyCrypto vMasterKey store.mapCryptedKeys.entries = .ok true := by
  rcases h with hnil | ⟨hM, plain, h⟩
  · rw [hnil]
    rfl
  · exact h.checkMasterKey hW.toLawful hM huse

/-- A master key that passes can be put into the store. -/
theorem setMasterKey (h : MasterOk P W vMasterKey store) (hW : W.Lawful) (huse : store.fUseCrypto = true)
    (hpassed : CCryptoKeyStore.checkMasterKey W.toKeyCrypto vMasterKeyIn store.mapCryptedKeys.entries =
      .ok true) : MasterOk P W vMasterKeyIn { store with vMasterKey := vMasterKeyIn } := by
  by_cases hkeys : store.mapCryptedKeys.entries = []
  · exact .inl hkeys
  · obtain ⟨hM, plain, hrefines⟩ := h.resolve_left hkeys
    obtain rfl := hrefines.eq_of_passed hW hM huse hkeys hpassed
    exact .inr ⟨hM, plain, hrefines.setMasterKey huse⟩

/-- So a master key in memory is still the right one. -/
theorem clearMasterKey (h : MasterOk P W vMasterKey store) (huse : store.fUseCrypto = true) :
    MasterOk P W vMasterKey { store with vMasterKey := [] } := by
  rcases h with hnil | ⟨hM, plain, h⟩
  · exact .inl hnil
  · exact .inr ⟨hM, plain, h.clearMasterKey huse⟩

/-- A master key that passes is the one of the record, if there are keys. -/
theorem of_passed (h : MasterOk P W vMasterKey store) (hW : W.Lawful) (huse : store.fUseCrypto = true)
    (hpassed : CCryptoKeyStore.checkMasterKey W.toKeyCrypto vMasterKeyIn store.mapCryptedKeys.entries =
      .ok true) : MasterOk P W vMasterKey { store with vMasterKey := vMasterKeyIn } := by
  by_cases hkeys : store.mapCryptedKeys.entries = []
  · exact .inl hkeys
  · obtain ⟨hM, plain, hrefines⟩ := h.resolve_left hkeys
    obtain rfl := hrefines.eq_of_passed hW hM huse hkeys hpassed
    exact .inr ⟨hM, plain, hrefines.setMasterKey huse⟩

end MasterOk

/-! ### Lock and unlock -/

/-- An encrypted store without its master key is locked. -/
theorem isLocked_iff {store : CCryptoKeyStore} :
    store.isLocked = true ↔ store.fUseCrypto = true ∧ store.vMasterKey = [] := by
  unfold CCryptoKeyStore.isLocked CCryptoKeyStore.isCrypted
  rw [Bool.and_eq_true, List.isEmpty_iff]

/-- The wallet after `Lock`, when it is encrypted. -/
theorem CryptWallet.lock_crypted {w : CryptWallet} (huse : w.store.fUseCrypto = true) :
    w.lock = (true, { w with store := { w.store with vMasterKey := [] } }) := by
  unfold CryptWallet.lock
  rw [CCryptoKeyStore.lock_crypted huse]

/-- A locked wallet is as before. -/
theorem CryptWallet.lock_locked {w : CryptWallet} (hlocked : w.store.isLocked = true) : w.lock.2 = w := by
  obtain ⟨huse, hmaster⟩ := isLocked_iff.mp hlocked
  rw [CryptWallet.lock_crypted huse, ← hmaster]

/-- `Lock` keeps the passphrase. -/
theorem PassphraseInv.lock {s : PassphraseState} (h : PassphraseInv P W s) :
    (s.wallet.lock.1 = false → s.wallet.lock.2 = s.wallet) ∧
      PassphraseInv P W ⟨s.wallet.lock.2, s.passphrase⟩ := by
  cases h with
  | @plain w vMasterKey plain huse hrecords hstore =>
    show (w.lock.1 = false → w.lock.2 = w) ∧ PassphraseInv P W ⟨w.lock.2, none⟩
    unfold CryptWallet.lock CCryptoKeyStore.lock
    -- a plain wallet can be locked only when it has no key
    rcases hstore.setCrypted with heq | ⟨htrue, huse', hstore'⟩
    · rw [heq]
      exact ⟨fun _ => rfl, .plain huse hrecords hstore⟩
    · -- an empty wallet is an encrypted one from now on
      have hcrypted : w.store.setCrypted.2.mapCryptedKeys.entries = [] := by
        have hsame : w.store.setCrypted.2.mapCryptedKeys = w.store.mapCryptedKeys := by
          unfold CCryptoKeyStore.setCrypted
          split_ifs <;> rfl
        rw [hsame]
        exact hstore.plain_crypted huse
      rw [← Prod.mk.eta (p := w.store.setCrypted), htrue]
      exact ⟨fun hfalse => absurd hfalse (by simp), .empty huse' hrecords hcrypted rfl⟩
  | @empty w huse hrecords hkeys hlocked =>
    show (w.lock.1 = false → w.lock.2 = w) ∧ PassphraseInv P W ⟨w.lock.2, none⟩
    rw [CryptWallet.lock_locked (isLocked_iff.mpr ⟨huse, hlocked⟩)]
    exact ⟨fun _ => rfl, .empty huse hrecords hkeys hlocked⟩
  | @crypted w nID k passphrase vMasterKey huse hrecords hopens hstore =>
    show (w.lock.1 = false → w.lock.2 = w) ∧ PassphraseInv P W ⟨w.lock.2, some passphrase⟩
    rw [CryptWallet.lock_crypted huse]
    exact ⟨fun hfalse => absurd hfalse (by simp), .crypted huse hrecords hopens (hstore.clearMasterKey huse)⟩

/-- The loop of `Unlock` with one record: the master key that is read passes, or nothing changes. -/
theorem unlockLoop_single {io : UnlockIo} {passphrase : List UInt8} {w : CryptWallet} {nID : ℕ} {k : CMasterKey}
    {done : Bool} {w' : CryptWallet} (huse : w.store.fUseCrypto = true)
    (h : CryptWallet.unlockLoop W io passphrase 0 [(nID, k)] w = .ok (done, w')) :
    (done = false ∧ w' = w) ∨ ∃ vMasterKey crypter, done = true ∧
      k.setKeyFromPassphrase W (io.derive 0) passphrase = some crypter ∧
      crypterDecrypt W (io.decrypt 0) crypter k.vchCryptedKey = some vMasterKey ∧
      CCryptoKeyStore.checkMasterKey W.toKeyCrypto vMasterKey w.store.mapCryptedKeys.entries = .ok true ∧
      w' = { w with store := { w.store with vMasterKey := vMasterKey } } := by
  unfold CryptWallet.unlockLoop at h
  cases hset : k.setKeyFromPassphrase W (io.derive 0) passphrase with
  | none =>
    rw [hset] at h
    cases h
    exact .inl ⟨rfl, rfl⟩
  | some crypter =>
    cases hdec : crypterDecrypt W (io.decrypt 0) crypter k.vchCryptedKey with
    | none =>
      simp only [hset, hdec] at h
      cases h
      exact .inl ⟨rfl, rfl⟩
    | some vMasterKey =>
      -- the master key that was read is tried on the keys of the store
      obtain ⟨passed, hpassed, hunlock⟩ := CCryptoKeyStore.unlock_crypted (K := W.toKeyCrypto) huse vMasterKey
      simp only [hset, hdec, hunlock, Result.ok_bind] at h
      cases passed with
      | false =>
        cases h
        exact .inl ⟨rfl, rfl⟩
      | true =>
        cases h
        exact .inr ⟨vMasterKey, crypter, rfl, rfl, hdec, hpassed, rfl⟩

/-- **`Unlock`** changes nothing, or loads the master key. -/
theorem PassphraseInv.unlock (hW : W.Lawful) {s : PassphraseState} (h : PassphraseInv P W s) {io : UnlockIo}
    {passphrase : List UInt8} {done : Bool} {w' : CryptWallet}
    (hexec : s.wallet.unlock W io passphrase = .ok (done, w')) :
    (done = false → w' = s.wallet) ∧ PassphraseInv P W ⟨w', s.passphrase⟩ := by
  unfold CryptWallet.unlock at hexec
  cases hlocked : s.wallet.store.isLocked with
  | false =>
    rw [hlocked] at hexec
    cases hexec
    exact ⟨fun _ => rfl, h⟩
  | true =>
    rw [hlocked] at hexec
    simp only [Bool.not_true, Bool.false_eq_true, if_false] at hexec
    cases h with
    | plain huse hrecords hstore =>
      exact absurd (huse.symm.trans (isLocked_iff.mp hlocked).1) (by decide)
    -- without a record there is no passphrase that could open it
    | empty huse hrecords hkeys hmaster =>
      simp only [hrecords] at hexec
      cases hexec
      exact ⟨fun _ => rfl, .empty huse hrecords hkeys hmaster⟩
    | crypted huse hrecords hopens hstore =>
      simp only [hrecords] at hexec
      -- the loop goes over the one record
      rcases unlockLoop_single huse hexec with ⟨-, rfl⟩ | ⟨vMasterKey, crypter, rfl, -, -, hpassed, rfl⟩
      · exact ⟨fun _ => rfl, .crypted huse hrecords hopens hstore⟩
      · exact ⟨fun hfalse => absurd hfalse (by simp),
          .crypted huse hrecords hopens (hstore.of_passed hW huse hpassed)⟩

/-! ### `ChangeWalletPassphrase` -/

/-- The new passphrase does not fail. -/
def ChangeIo.NewDone (io : ChangeIo) : Prop := io.newDerive = true ∧ io.newEncrypt = true

/-- The loop with one record: the record is not opened and nothing changes, or it is written anew. -/
theorem changeLoop_single {io : ChangeIo} {old new : List UInt8} {fWasLocked : Bool} {w : CryptWallet} {nID : ℕ}
    {k : CMasterKey} {done : Bool} {w' : CryptWallet} (huse : w.store.fUseCrypto = true)
    (h : CryptWallet.changeLoop W io old new fWasLocked 0 [(nID, k)] w = .ok (done, w')) :
    (done = false ∧ w' = w ∧ ∀ crypter vMasterKey,
      k.setKeyFromPassphrase W (io.derive 0) old = some crypter →
      crypterDecrypt W (io.decrypt 0) crypter k.vchCryptedKey = some vMasterKey →
      CCryptoKeyStore.checkMasterKey W.toKeyCrypto vMasterKey w.store.mapCryptedKeys.entries ≠ .ok true) ∨
    ∃ crypter vMasterKey, k.setKeyFromPassphrase W (io.derive 0) old = some crypter ∧
      crypterDecrypt W (io.decrypt 0) crypter k.vchCryptedKey = some vMasterKey ∧
      CCryptoKeyStore.checkMasterKey W.toKeyCrypto vMasterKey w.store.mapCryptedKeys.entries = .ok true ∧
      (done, w') = { w with store := { w.store with vMasterKey := vMasterKey } }.rekey W io new fWasLocked
        nID k vMasterKey := by
  unfold CryptWallet.changeLoop at h
  cases hset : k.setKeyFromPassphrase W (io.derive 0) old with
  | none =>
    rw [hset] at h
    cases h
    exact .inl ⟨rfl, rfl, fun crypter vMasterKey hset' => absurd hset' (by simp)⟩
  | some crypter =>
    cases hdec : crypterDecrypt W (io.decrypt 0) crypter k.vchCryptedKey with
    | none =>
      simp only [hset, hdec] at h
      cases h
      refine .inl ⟨rfl, rfl, fun crypter' vMasterKey hset' hdec' => ?_⟩
      cases hset'
      exact absurd (hdec.symm.trans hdec') (by simp)
    | some vMasterKey =>
      -- the old passphrase is tried on the keys of the store
      obtain ⟨passed, hpassed, hunlock⟩ := CCryptoKeyStore.unlock_crypted (K := W.toKeyCrypto) huse vMasterKey
      simp only [hset, hdec, hunlock, Result.ok_bind] at h
      cases passed with
      | false =>
        cases h
        refine .inl ⟨rfl, rfl, fun crypter' vMasterKey' hset' hdec' hpassed' => ?_⟩
        cases hset'
        obtain rfl := Option.some.inj (hdec.symm.trans hdec')
        exact absurd (hpassed.symm.trans hpassed') (by simp)
      | true => exact .inr ⟨crypter, vMasterKey, rfl, hdec, hpassed, (Except.ok.inj h).symm⟩

/-- The new passphrase opens the record. -/
theorem rekey_done (hW : W.Lawful) {io : ChangeIo} (hio : io.NewDone) {new : List UInt8} (fWasLocked : Bool)
    {w : CryptWallet} (huse : w.store.fUseCrypto = true) {nID : ℕ} {k k₀ : CMasterKey}
    (hrecords : w.mapMasterKeys.entries = [(nID, k₀)]) {passphrase vMasterKey₀ : List UInt8}
    (hopens : k.Opens W passphrase vMasterKey₀) (vMasterKey : List UInt8) :
    ∃ w' k', w.rekey W io new fWasLocked nID k vMasterKey = (true, w') ∧
      w'.mapMasterKeys.entries = [(nID, k')] ∧ k'.Opens W new vMasterKey ∧
      (w'.store = w.store ∨ w'.store = { w.store with vMasterKey := [] }) := by
  -- the record with the new number of iterations
  let k₁ : CMasterKey := { k with nDeriveIterations := max 25000 io.nDeriveIterations }
  have hiter : 1 ≤ max 25000 io.nDeriveIterations := le_trans (by decide) (le_max_left _ _)
  have hset : k₁.setKeyFromPassphrase W io.newDerive new =
      some (W.bytesToKey new k₁.vchSalt k₁.nDeriveIterations) := by
    unfold CMasterKey.setKeyFromPassphrase
    rw [if_neg (not_or.mpr ⟨not_lt.mpr hiter, fun hne => hne hopens.vchSalt⟩),
      if_pos ⟨hopens.nDerivationMethod, hio.1⟩]
  -- encrypting succeeds, so the record is written
  obtain ⟨cipher, hcipher⟩ := Option.isSome_iff_exists.mp
    (hW.encrypt_isSome _ (W.bytesToKey new k₁.vchSalt k₁.nDeriveIterations).2 vMasterKey
      (hW.length_key new k₁.vchSalt k₁.nDeriveIterations))
  have henc : crypterEncrypt W io.newEncrypt (W.bytesToKey new k₁.vchSalt k₁.nDeriveIterations) vMasterKey =
      some cipher := by
    rw [crypterEncrypt, if_pos hio.2, hcipher]
  have hput : (w.mapMasterKeys.put nID { k₁ with vchCryptedKey := cipher }).entries =
      [(nID, { k₁ with vchCryptedKey := cipher })] := by
    show putEntry nID _ w.mapMasterKeys.entries = _
    rw [hrecords]
    simp [putEntry]
  have hopens' : CMasterKey.Opens W { k₁ with vchCryptedKey := cipher } new vMasterKey :=
    ⟨hopens.vchSalt, hopens.nDerivationMethod, hiter, hcipher⟩
  unfold CryptWallet.rekey
  simp only [show (k₁.setKeyFromPassphrase W io.newDerive new) = _ from hset, henc, k₁]
  cases fWasLocked with
  | false => exact ⟨_, _, rfl, hput, hopens', .inl rfl⟩
  | true =>
    refine ⟨_, _, rfl, ?_, hopens', .inr ?_⟩
    · exact hput
    · show w.store.lock.2 = _
      rw [CCryptoKeyStore.lock_crypted huse]

/-! ### Operations that fail early -/

/-- The random bytes have their length, and the keys that are made are keys. -/
structure EncryptIo.Wf (W : WalletCrypto Point) (io : EncryptIo Point) : Prop where
  vMasterKey : io.vMasterKey.length = WALLET_CRYPTO_KEY_SIZE
  vchSalt : io.vchSalt.length = WALLET_CRYPTO_SALT_SIZE
  newKeys : ∀ key ∈ io.newKeys, key.Wf W.toKeyCrypto

namespace PassphraseOp

def Wf (W : WalletCrypto Point) : PassphraseOp Point → Prop
  | .encryptWallet io _ => io.Wf W
  | _ => True

/-- If the operation fails, it is before it has changed anything. -/
def Early (s : PassphraseState) : PassphraseOp Point → Prop
  | .encryptWallet io _ => s.wallet.store.isCrypted = true ∨ io.derive = false ∨ io.encrypt = false ∨
      s.wallet.fFileBacked = false ∨ io.txnBegin = true
  | .changeWalletPassphrase io strOldWalletPassphrase _ =>
    -- there are keys, and they are not encrypted
    (s.wallet.store.isCrypted = false ∧ s.wallet.store.mapKeys.entries ≠ []) ∨
    -- the wallet is locked, and it is not opened or the new passphrase does not fail
    (s.wallet.store.isLocked = true ∧ (s.wallet.mapMasterKeys.entries = [] ∨ io.NewDone ∨
      (s.wallet.store.mapCryptedKeys.entries ≠ [] ∧
        (s.passphrase ≠ some strOldWalletPassphrase ∨ io.derive 0 = false ∨ io.decrypt 0 = false)))) ∨
    -- the wallet is unlocked, and nothing fails
    (s.wallet.store.isLocked = false ∧ s.passphrase = some strOldWalletPassphrase ∧ io.derive 0 = true ∧
      io.decrypt 0 = true ∧ io.NewDone)
  | .unlock _ _ => True
  | .lock => True

end PassphraseOp

/-- **`ChangeWalletPassphrase`** changes nothing, or the passphrase. -/
theorem PassphraseInv.change (hW : W.Lawful) {s : PassphraseState} (h : PassphraseInv P W s) {io : ChangeIo}
    {old new : List UInt8}
    (hearly : (PassphraseOp.changeWalletPassphrase io old new : PassphraseOp Point).Early s) {done : Bool}
    {w' : CryptWallet} (hexec : s.wallet.changeWalletPassphrase W io old new = .ok (done, w')) :
    (done = false → w' = s.wallet) ∧
      PassphraseInv P W ⟨w', if done then some new else s.passphrase⟩ := by
  -- by cases on what the wallet has: plain keys, no keys, or encrypted ones
  unfold CryptWallet.changeWalletPassphrase at hexec
  cases h with
  | @plain w vMasterKey plain huse hrecords hstore =>
    -- `Lock` fails, as there are keys
    have hnotlocked : w.store.isLocked ≠ true := fun hl =>
      absurd (huse.symm.trans (isLocked_iff.mp hl).1) (by decide)
    have hkeys : w.store.mapKeys.entries ≠ [] := by
      rcases hearly with ⟨-, hkeys⟩ | ⟨hlocked, -⟩ | ⟨-, hpass, -⟩
      · exact hkeys
      · exact absurd hlocked hnotlocked
      · cases hpass
    have hlock : w.lock.2 = w := by
      unfold CryptWallet.lock CCryptoKeyStore.lock CCryptoKeyStore.setCrypted
      rw [huse]
      simp [hkeys]
    simp only [hlock, hrecords] at hexec
    cases hexec
    exact ⟨fun _ => rfl, .plain huse hrecords hstore⟩
  -- there is no master key, so the loop over them does nothing
  | @empty w huse hrecords hkeys hlocked =>
    have hlock := CryptWallet.lock_locked (isLocked_iff.mpr ⟨huse, hlocked⟩)
    simp only [hlock, hrecords] at hexec
    cases hexec
    exact ⟨fun _ => rfl, .empty huse hrecords hkeys hlocked⟩
  -- one master key, which the old passphrase opens or not
  | @crypted w nID k passphrase vMasterKey huse hrecords hopens hstore =>
    have hlock : w.lock.2 = { w with store := { w.store with vMasterKey := [] } } := by
      rw [CryptWallet.lock_crypted huse]
    have hstore' := hstore.clearMasterKey huse
    simp only [hlock, hrecords] at hexec
    have hcrypted : w.store.isCrypted ≠ false := fun hc => absurd (hc.symm.trans huse) (by decide)
    rcases changeLoop_single (w := { w with store := { w.store with vMasterKey := [] } }) huse hexec with
      ⟨rfl, rfl, hnot⟩ | ⟨crypter, vMasterKey', hset, hdec, hpassed, hrekey⟩
    · -- the wallet was locked: otherwise the right passphrase opens the record
      have hlocked : w.store.isLocked = true := by
        rcases hearly with ⟨hc, -⟩ | ⟨hlocked, -⟩ | ⟨-, hpass, hderive, hdecrypt, -⟩
        · exact absurd hc hcrypted
        · exact hlocked
        · cases hpass
          have hset := hopens.setKeyFromPassphrase (io.derive 0) old
          rw [hderive, if_pos rfl] at hset
          have hdec := hopens.decrypt hW
          rw [← hdecrypt] at hdec
          rw [hderive] at hnot
          exact absurd (hstore'.passed hW huse) (hnot _ _ hset hdec)
      rw [← hlock, CryptWallet.lock_locked hlocked]
      exact ⟨fun _ => rfl, .crypted huse hrecords hopens hstore⟩
    · -- the record was opened and is encrypted again
      have hio : io.NewDone := by
        rcases hearly with ⟨hc, -⟩ | ⟨-, hnil | hio | ⟨hkeys, hwrong⟩⟩ | ⟨-, -, -, -, hio⟩
        · exact absurd hc hcrypted
        · exact absurd (hrecords.symm.trans hnil) (by simp)
        · exact hio
        · -- with a wrong passphrase the record is not opened
          exfalso
          rw [hopens.setKeyFromPassphrase] at hset
          rcases hwrong with hpass | hderive | hdecrypt
          · obtain ⟨hM, plain, hrefines⟩ := hstore.resolve_left hkeys
            have hpass : old ≠ passphrase := fun heq => hpass (congrArg some heq.symm)
            split_ifs at hset
            cases hset
            exact hopens.decrypt_ne hW hpass hdec (hrefines.eq_of_passed hW hM huse hkeys hpassed)
          · rw [hderive] at hset
            cases hset
          · rw [hdecrypt] at hdec
            cases hdec
        · exact hio
      obtain ⟨w'', k', hdone, hrecords', hopens', hstore''⟩ := rekey_done hW hio
        (w := { w with store := { w.store with vMasterKey := vMasterKey' } }) w.store.isLocked huse hrecords
        hopens vMasterKey'
      rw [hdone] at hrekey
      cases hrekey
      -- now the new passphrase opens it
      refine ⟨fun hfalse => absurd hfalse (by simp), ?_⟩
      have hok := hstore.setMasterKey hW huse hpassed
      rcases hstore'' with heq | heq
      · exact .crypted (heq ▸ huse) hrecords' hopens' (heq ▸ hok)
      · exact .crypted (heq ▸ huse) hrecords' hopens' (heq ▸ hok.clearMasterKey huse)

/-! ### `EncryptWallet` -/

/-- `Unlock` with the right passphrase leaves the keys. -/
theorem unlock_refines (hW : W.Lawful) {io : UnlockIo} {w : CryptWallet} {nID : ℕ} {k : CMasterKey}
    {passphrase vMasterKey : List UInt8} {plain : CBasicKeyStore} {done : Bool} {w' : CryptWallet}
    (huse : w.store.fUseCrypto = true) (hrecords : w.mapMasterKeys.entries = [(nID, k)])
    (hopens : k.Opens W passphrase vMasterKey) (hstore : Refines P W.toKeyCrypto vMasterKey w.store plain)
    (hexec : w.unlock W io passphrase = .ok (done, w')) :
    w'.store.fUseCrypto = true ∧ w'.mapMasterKeys.entries = [(nID, k)] ∧
      Refines P W.toKeyCrypto vMasterKey w'.store plain := by
  unfold CryptWallet.unlock at hexec
  cases hlocked : w.store.isLocked with
  | false =>
    rw [hlocked] at hexec
    cases hexec
    exact ⟨huse, hrecords, hstore⟩
  | true =>
    rw [hlocked, hrecords] at hexec
    simp only [Bool.not_true, Bool.false_eq_true, if_false] at hexec
    rcases unlockLoop_single huse hexec with ⟨-, rfl⟩ | ⟨vMasterKey', crypter, rfl, hset, hdec, -, rfl⟩
    · exact ⟨huse, hrecords, hstore⟩
    · -- the passphrase gives the master key and no other
      have hmaster : vMasterKey' = vMasterKey := by
        rw [hopens.setKeyFromPassphrase] at hset
        split_ifs at hset
        cases hset
        have hright := hopens.decrypt hW
        unfold crypterDecrypt at hdec hright
        split_ifs at hdec
        exact Option.some.inj (hdec.symm.trans hright)
      subst hmaster
      exact ⟨huse, hrecords, hstore.setMasterKey huse⟩

/-- `NewKeyPool` puts keys into an unlocked store. -/
theorem newKeyPool_refines (hW : W.Lawful) {newKeys : List (CKey Point)}
    (hkeys : ∀ key ∈ newKeys, key.Wf W.toKeyCrypto) {w : CryptWallet} {vMasterKey : List UInt8}
    (hM : vMasterKey.length = WALLET_CRYPTO_KEY_SIZE) {plain : CBasicKeyStore}
    (huse : w.store.fUseCrypto = true) (hstore : Refines P W.toKeyCrypto vMasterKey w.store plain)
    {w' : CryptWallet} (hexec : w.newKeyPool P W newKeys = .ok w') :
    w'.store.fUseCrypto = true ∧ w'.mapMasterKeys = w.mapMasterKeys ∧
      ∃ plain', Refines P W.toKeyCrypto vMasterKey w'.store plain' := by
  unfold CryptWallet.newKeyPool at hexec
  cases hlocked : w.store.isLocked with
  | true =>
    rw [hlocked, if_pos rfl] at hexec
    cases hexec
    exact ⟨huse, rfl, plain, hstore⟩
  | false =>
    rw [hlocked, if_neg Bool.false_ne_true] at hexec
    -- over the keys, which are added one by one
    induction newKeys generalizing w plain with
    | nil =>
      cases hexec
      exact ⟨huse, rfl, plain, hstore⟩
    | cons key newKeys ih =>
      obtain ⟨store₁, plain₁, hadd, -, hstore₁, huse₁, hmaster₁⟩ :=
        hstore.addKey hW.toLawful hM hlocked (hkeys key List.mem_cons_self)
      rw [List.foldlM_cons, hadd] at hexec
      -- the store is unlocked still
      have hlocked₁ : store₁.isLocked = false := by
        unfold CCryptoKeyStore.isLocked CCryptoKeyStore.isCrypted at hlocked ⊢
        rw [huse₁, hmaster₁]
        exact hlocked
      exact ih (fun key' hkey' => hkeys key' (List.mem_cons_of_mem _ hkey'))
        (w := { w with store := store₁ }) (huse₁.trans huse) hstore₁ hexec hlocked₁

/-- When it succeeds, the key is the derived one. -/
theorem setKeyFromPassphrase_eq_some {ok : Bool} {passphrase : List UInt8} {k : CMasterKey}
    {crypter : List UInt8 × List UInt8} (h : k.setKeyFromPassphrase W ok passphrase = some crypter) :
    ok = true ∧ crypter = W.bytesToKey passphrase k.vchSalt k.nDeriveIterations := by
  unfold CMasterKey.setKeyFromPassphrase at h
  split_ifs at h with hsize hok
  cases h
  exact ⟨hok.2, rfl⟩

/-- When `Encrypt` succeeds, the cipher is. -/
theorem crypterEncrypt_eq_some {ok : Bool} {crypter : List UInt8 × List UInt8} {plain cipher : List UInt8}
    (h : crypterEncrypt W ok crypter plain = some cipher) :
    ok = true ∧ W.encrypt crypter.1 crypter.2 plain = some cipher := by
  unfold crypterEncrypt at h
  split_ifs at h with hok
  exact ⟨hok, h⟩

/-- The first master key of the wallet. -/
theorem put_entries_of_nil {m : OrderedMap ℕ CMasterKey} (h : m.entries = []) (nID : ℕ) (k : CMasterKey) :
    (m.put nID k).entries = [(nID, k)] := by
  show putEntry nID k m.entries = _
  rw [h]
  rfl

/-- The last part: new keys come in, and the wallet is locked. -/
theorem finishEncryption_inv (hW : W.Lawful) {io : EncryptIo Point} (hio : io.Wf W) {w : CryptWallet}
    {plain : CBasicKeyStore} (hstore : Refines P W.toKeyCrypto io.vMasterKey w.store plain)
    (hlocked : w.store.isLocked = true) {nID : ℕ} {k : CMasterKey}
    (hrecords : w.mapMasterKeys.entries = [(nID, k)]) {passphrase : List UInt8}
    (hopens : k.Opens W passphrase io.vMasterKey) {done : Bool} {w' : CryptWallet}
    (hexec : w.finishEncryption P W io passphrase = .ok (done, w')) :
    done = true ∧ PassphraseInv P W ⟨w', some passphrase⟩ := by
  have huse := (isLocked_iff.mp hlocked).1
  unfold CryptWallet.finishEncryption at hexec
  rw [CryptWallet.lock_locked hlocked] at hexec
  obtain ⟨⟨unlocked, w₁⟩, hunlock, hexec⟩ := Result.bind_eq_ok.mp hexec
  obtain ⟨w₂, hpool, hexec⟩ := Result.bind_eq_ok.mp hexec
  obtain ⟨huse₁, hrecords₁, hstore₁⟩ := unlock_refines hW huse hrecords hopens hstore hunlock
  obtain ⟨huse₂, hrecords₂, plain₂, hstore₂⟩ := newKeyPool_refines hW hio.newKeys hio.vMasterKey huse₁ hstore₁ hpool
  have hrecord : w₂.mapMasterKeys.entries = [(nID, k)] := by
    rw [hrecords₂]
    exact hrecords₁
  cases hexec
  rw [CryptWallet.lock_crypted huse₂]
  exact ⟨rfl, .crypted huse₂ hrecord hopens (.inr ⟨hio.vMasterKey, plain₂, hstore₂.clearMasterKey huse₂⟩)⟩

/-- **`EncryptWallet`** changes nothing, or sets the first passphrase. -/
theorem PassphraseInv.encrypt (hW : W.Lawful) {s : PassphraseState} (h : PassphraseInv P W s)
    {io : EncryptIo Point} (hio : io.Wf W) {passphrase : List UInt8}
    (hearly : (PassphraseOp.encryptWallet io passphrase).Early s) {done : Bool} {w' : CryptWallet}
    (hexec : s.wallet.encryptWallet P W io passphrase = .ok (done, w')) :
    (done = false → w' = s.wallet) ∧
      PassphraseInv P W ⟨w', if done then some passphrase else s.passphrase⟩ := by
  unfold CryptWallet.encryptWallet at hexec
  cases hcrypted : s.wallet.store.isCrypted with
  -- it is encrypted already
  | true =>
    rw [hcrypted, if_pos rfl] at hexec
    cases hexec
    exact ⟨fun _ => rfl, h⟩
  | false =>
    rw [hcrypted, if_neg Bool.false_ne_true] at hexec
    cases h with
    | empty huse => exact absurd (hcrypted.symm.trans huse) (by decide)
    | crypted huse => exact absurd (hcrypted.symm.trans huse) (by decide)
    | @plain w vMasterKey plain huse hrecords hstore =>
      cases hset : CMasterKey.setKeyFromPassphrase W io.derive passphrase
          { vchSalt := io.vchSalt, nDeriveIterations := max 25000 io.nDeriveIterations } with
      -- no key can be derived from the passphrase
      | none =>
        simp only [hset] at hexec
        cases hexec
        exact ⟨fun _ => rfl, .plain huse hrecords hstore⟩
      | some crypter =>
        cases henc : crypterEncrypt W io.encrypt crypter io.vMasterKey with
        | none =>
          simp only [hset, henc] at hexec
          cases hexec
          exact ⟨fun _ => rfl, .plain huse hrecords hstore⟩
        | some cipher =>
          simp only [hset, henc] at hexec
          obtain ⟨hderive, hcrypter⟩ := setKeyFromPassphrase_eq_some hset
          obtain ⟨hencrypt, hcipher⟩ := crypterEncrypt_eq_some henc
          have hbegin : (w.fFileBacked && !io.txnBegin) = false := by
            rcases hearly with hc | hd | he | hf | hb
            · exact absurd (hcrypted.symm.trans hc) (by decide)
            · exact absurd (hderive.symm.trans hd) (by decide)
            · exact absurd (hencrypt.symm.trans he) (by decide)
            · rw [show w.fFileBacked = false from hf]
              rfl
            · rw [hb, Bool.not_true, Bool.and_false]
          rw [hbegin, if_neg Bool.false_ne_true] at hexec
          -- the record is there, and now the keys
          obtain ⟨store', hkeys, hstore', hlocked'⟩ :=
            (hstore.of_plain huse io.vMasterKey).encryptKeys hW.toLawful hio.vMasterKey huse
          have hopens : CMasterKey.Opens W ⟨cipher, io.vchSalt, 0, max 25000 io.nDeriveIterations⟩ passphrase
              io.vMasterKey :=
            ⟨hio.vchSalt, rfl, le_trans (by decide) (le_max_left _ _), by rw [← hcipher, hcrypter]⟩
          simp only [hkeys, Result.ok_bind, Bool.not_true, Bool.false_or] at hexec
          split_ifs at hexec
          obtain ⟨rfl, hfinish⟩ := finishEncryption_inv hW hio hstore' hlocked'
            (put_entries_of_nil hrecords _ _) hopens hexec
          exact ⟨fun hfalse => absurd hfalse (by simp), hfinish⟩

/-! ### Runs -/

/-- One command, by cases on it. -/
theorem PassphraseInv.exec (hW : W.Lawful) {s s' : PassphraseState} (h : PassphraseInv P W s)
    {op : PassphraseOp Point} (hop : op.Wf W) (hearly : op.Early s) {done : Bool}
    (hexec : s.exec P W op = .ok (done, s')) : (done = false → s' = s) ∧ PassphraseInv P W s' := by
  unfold PassphraseState.exec at hexec
  obtain ⟨⟨done', w'⟩, hop', hexec⟩ := Result.bind_eq_ok.mp hexec
  cases hexec
  -- what returns `false` has changed nothing, and what returns `true` keeps the invariant
  cases op with
  | encryptWallet io passphrase =>
    obtain ⟨hsame, hinv⟩ := h.encrypt hW hop hearly hop'
    cases done with
    | false =>
      obtain rfl := hsame rfl
      exact ⟨fun _ => rfl, h⟩
    | true => exact ⟨fun hfalse => absurd hfalse (by simp), hinv⟩
  | changeWalletPassphrase io old new =>
    obtain ⟨hsame, hinv⟩ := h.change hW hearly hop'
    cases done with
    | false =>
      obtain rfl := hsame rfl
      exact ⟨fun _ => rfl, h⟩
    | true => exact ⟨fun hfalse => absurd hfalse (by simp), hinv⟩
  | unlock io passphrase =>
    obtain ⟨hsame, hinv⟩ := h.unlock hW hop'
    simp only [PassphraseOp.newPassphrase, Option.none_or, ite_self]
    refine ⟨fun hfalse => ?_, hinv⟩
    rw [hsame hfalse]
  | lock =>
    obtain ⟨hsame, hinv⟩ := h.lock
    have hlock : s.wallet.lock = (done, w') := Except.ok.inj hop'
    rw [hlock] at hsame hinv
    simp only [PassphraseOp.newPassphrase, Option.none_or, ite_self]
    refine ⟨fun hfalse => ?_, hinv⟩
    have hsame : w' = s.wallet := hsame hfalse
    rw [hsame]

/-- A wallet with keys that are not encrypted. -/
structure CryptWallet.Fresh (P : Params) (W : WalletCrypto Point) (w : CryptWallet) : Prop where
  fUseCrypto : w.store.fUseCrypto = false
  vMasterKey : w.store.vMasterKey = []
  mapKeys : w.store.basic.Wf P W.toKeyCrypto
  mapCryptedKeys : w.store.mapCryptedKeys.entries = []
  mapMasterKeys : w.mapMasterKeys.entries = []

/-- The runs in which no operation fails late. -/
inductive PassphraseRun (P : Params) (W : WalletCrypto Point) : PassphraseState → Prop
  | init {w : CryptWallet} (h : w.Fresh P W) : PassphraseRun P W ⟨w, none⟩
  | step {s s' : PassphraseState} {op : PassphraseOp Point} {done : Bool} (h : PassphraseRun P W s)
      (hop : op.Wf W) (hearly : op.Early s) (hexec : s.exec P W op = .ok (done, s')) : PassphraseRun P W s'

/-- A wallet that was never encrypted. -/
theorem CryptWallet.Fresh.inv {w : CryptWallet} (h : w.Fresh P W) : PassphraseInv P W ⟨w, none⟩ := by
  have hstore : Refines P W.toKeyCrypto [] w.store w.store.basic :=
    { wf := h.mapKeys, plain_keys := fun _ => rfl, plain_crypted := fun _ => h.mapCryptedKeys
      crypted_keys := fun hc => absurd (hc.symm.trans h.fUseCrypto) (by decide)
      master := .inl h.vMasterKey
      mapKeys_empty := fun hc => absurd (hc.symm.trans h.fUseCrypto) (by decide)
      vMasterKey_empty := fun _ => h.vMasterKey }
  exact .plain h.fUseCrypto h.mapMasterKeys hstore

/-- And every state of a run, by induction on the run. -/
theorem PassphraseRun.inv (hW : W.Lawful) {s : PassphraseState} (h : PassphraseRun P W s) :
    PassphraseInv P W s := by
  induction h with
  | init hfresh => exact hfresh.inv
  | step h hop hearly hexec ih => exact (ih.exec hW hop hearly hexec).2

/-- The passphrase of a locked wallet with keys. -/
theorem PassphraseInv.unlock_iff (hW : W.Lawful) {s : PassphraseState} (h : PassphraseInv P W s)
    (hlocked : s.wallet.store.isLocked = true) (hkeys : s.wallet.store.mapCryptedKeys.entries ≠ [])
    (passphrase : List UInt8) :
    (∃ w', s.wallet.unlock W {} passphrase = .ok (true, w')) ↔ s.passphrase = some passphrase := by
  cases h with
  | plain huse => exact absurd (huse.symm.trans (isLocked_iff.mp hlocked).1) (by decide)
  | empty _ _ hnil => exact absurd hnil hkeys
  | @crypted w nID k right vMasterKey huse hrecords hopens hstore =>
    have hset := hopens.setKeyFromPassphrase true passphrase
    rw [if_pos rfl] at hset
    have hunlock : w.unlock W {} passphrase =
        CryptWallet.unlockLoop W {} passphrase 0 [(nID, k)] w := by
      unfold CryptWallet.unlock
      rw [hlocked, hrecords]
      rfl
    show (∃ w', w.unlock W {} passphrase = _) ↔ some right = some passphrase
    rw [hunlock]
    constructor
    · rintro ⟨w', hloop⟩
      rcases unlockLoop_single huse hloop with ⟨hfalse, -⟩ | ⟨vMasterKey', crypter, -, hset', hdec, hpassed, -⟩
      · cases hfalse
      · obtain ⟨hM, plain, hrefines⟩ := hstore.resolve_left hkeys
        obtain rfl := hrefines.eq_of_passed hW hM huse hkeys hpassed
        by_contra hne
        obtain rfl := Option.some.inj (hset.symm.trans hset')
        exact hopens.decrypt_ne hW (fun heq => hne (congrArg some heq.symm)) hdec rfl
    · rintro heq
      obtain rfl := Option.some.inj heq
      obtain ⟨passed, hpassed, hstep⟩ := CCryptoKeyStore.unlock_crypted (K := W.toKeyCrypto) huse vMasterKey
      obtain rfl := Except.ok.inj (hpassed.symm.trans (hstore.passed hW huse))
      unfold CryptWallet.unlockLoop
      simp only [hset, hopens.decrypt hW, hstep, Result.ok_bind]
      exact ⟨_, rfl⟩

/-- In a run in which no operation fails late: an operation that returns `false` has changed nothing, and
a locked wallet that has keys is opened by the passphrase that was set last, and by no other. -/
theorem passphrase_all_or_nothing (hW : W.Lawful) {s : PassphraseState} (h : PassphraseRun P W s) :
    (∀ (op : PassphraseOp Point) done s', op.Wf W → op.Early s → s.exec P W op = .ok (done, s') →
      done = false → s' = s) ∧
    (s.wallet.store.isLocked = true → s.wallet.store.mapCryptedKeys.entries ≠ [] → ∀ passphrase,
      (∃ w', s.wallet.unlock W {} passphrase = .ok (true, w')) ↔ s.passphrase = some passphrase) := by
  have hinv := h.inv hW
  refine ⟨fun op done s' hop hearly hexec => (hinv.exec hW hop hearly hexec).1, ?_⟩
  intro hlocked hkeys passphrase
  exact hinv.unlock_iff hW hlocked hkeys passphrase

/-! ### A wallet -/

namespace Encryption.Sample

open KeyStore.Sample

/-- A cipher that writes the initial vector and the key in front of the text, and checks them. -/
def crypto : WalletCrypto Unit where
  toKeyCrypto :=
    { KeyStore.Sample.crypto with
      encrypt := fun key iv plain => some (iv ++ key ++ plain)
      decrypt := fun key iv cipher =>
        if iv ++ key <+: cipher then some (cipher.drop (iv ++ key).length) else none }
  bytesToKey strKeyData _ _ := (List.replicate 32 0, strKeyData)

/-- The sample cipher obeys the laws. -/
theorem crypto_lawful : crypto.Lawful where
  o2i_i2o := KeyStore.Sample.crypto_lawful.o2i_i2o
  length_compressed := KeyStore.Sample.crypto_lawful.length_compressed
  length_uncompressed := KeyStore.Sample.crypto_lawful.length_uncompressed
  encrypt_isSome _ _ _ _ := rfl
  decrypt_encrypt key iv plain cipher h := by
    cases h
    simp [crypto]
  length_key _ _ _ := List.length_replicate
  wrong_passphrase right wrong salt rounds vMasterKey cipher hne henc hdec := by
    cases henc
    simp only [crypto] at hdec
    split_ifs at hdec with hprefix
    obtain ⟨rest, hrest⟩ := hprefix
    rw [← hrest, List.drop_left] at hdec
    cases hdec
    exact hne (List.append_cancel_right (List.append_cancel_right hrest))
  wrong_master right wrong iv vchSecret cipher vchSecret' fCompressed hne hright hwrong _ henc hdec := by
    cases henc
    simp only [crypto] at hdec
    split_ifs at hdec with hprefix
    rw [List.append_assoc, List.prefix_append_right_inj] at hprefix
    obtain ⟨rest, hrest⟩ := hprefix
    exact absurd (List.append_inj_left hrest (hwrong.trans hright.symm)) hne

/-- A wallet with one key. -/
def wallet : CryptWallet :=
  { store := { mapKeys := OrderedMap.empty.put (address true) (secret, true) } }

def encryptIo : EncryptIo Unit := { vMasterKey := masterKey, vchSalt := List.replicate 8 1 }

/-- The sample wallet was never encrypted. -/
theorem wallet_fresh : wallet.Fresh params crypto where
  fUseCrypto := rfl
  vMasterKey := rfl
  mapKeys := by
    intro address' p hp
    have hput : (OrderedMap.empty.put (address true) (secret, true)).lookup address' = some p := hp
    rw [OrderedMap.lookup_put, OrderedMap.lookup_empty] at hput
    split_ifs at hput with heq
    cases hput
    exact ⟨rfl, heq⟩
  mapCryptedKeys := rfl
  mapMasterKeys := rfl

/-- The sample master key has its length. -/
theorem encryptIo_wf : encryptIo.Wf crypto where
  vMasterKey := rfl
  vchSalt := rfl
  newKeys _ hkey := absurd hkey List.not_mem_nil

end Encryption.Sample

open Encryption.Sample KeyStore.Sample in

/-- An encrypted wallet opens with its passphrase only. -/
theorem passphrase_all_or_nothing_encrypted : ∃ s,
    PassphraseRun params Encryption.Sample.crypto s ∧ s.passphrase = some [1] ∧ ∀ passphrase,
      (∃ w', s.wallet.unlock Encryption.Sample.crypto {} passphrase = .ok (true, w')) ↔
        s.passphrase = some passphrase := by
  have hrun : PassphraseRun params Encryption.Sample.crypto _ := PassphraseRun.step
    (.init wallet_fresh)
    (show (PassphraseOp.encryptWallet encryptIo [1]).Wf Encryption.Sample.crypto from encryptIo_wf)
    (.inr (.inr (.inr (.inr rfl)))) rfl
  refine ⟨_, hrun, rfl, ?_⟩
  exact (passphrase_all_or_nothing Encryption.Sample.crypto_lawful hrun).2 rfl (List.cons_ne_nil _ _)

open Encryption.Sample KeyStore.Sample in
/-- A wrong passphrase locks a wallet that was unlocked. -/
theorem changeWalletPassphrase_locks : ∃ s₁ s₂ s₃ : PassphraseState,
    (⟨wallet, none⟩ : PassphraseState).exec params Encryption.Sample.crypto (.encryptWallet encryptIo [1]) =
      .ok (true, s₁) ∧
    s₁.exec params Encryption.Sample.crypto (.unlock {} [1]) = .ok (true, s₂) ∧
    s₂.exec params Encryption.Sample.crypto (.changeWalletPassphrase {} [2] [3]) = .ok (false, s₃) ∧
    s₂.wallet.store.isLocked = false ∧ s₃.wallet.store.isLocked = true := by
  exact ⟨_, _, _, rfl, rfl, rfl, rfl, rfl⟩

end Peershares
