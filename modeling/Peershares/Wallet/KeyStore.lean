import Peershares.Model.KeyStore
import Peershares.Model.Serialize

/-!
# The encrypted key store has the keys of the plain one

`Refines` relates an encrypted store to a plain one with the same keys: as long as it is not encrypted
the maps are the same; later on, there is at each address the public key that belongs to the secret and
the flag of the plain store, and the secret in encrypted form. The flag itself is not there any more. It
comes back from the length of the public key, by way of the `CKey` that `GetKey` writes to.

Each operation keeps the relation when the two stores do it side by side: `Refines.addKey`, `Refines.lock`,
`Refines.unlock`, and `Refines.encryptKeys`, whose loop moves the keys one by one from the plain map to the
encrypted one (`encryptLoop_eq`). Of the cipher nothing is used but that it decrypts what it has encrypted
(`KeyCrypto.Lawful`).

The answers are then read off the relation. `HaveKey`, `GetKeys` and `GetPubKey` need no key, so they agree on a
locked store too. `GetKey` of an unlocked store decrypts the secret, and differs from the plain one in a single case:
the key was stored without the flag and is read into a `CKey` that has it.

* `refines_runKeyStore` — the relation holds after every run
* `Refines.getKey_eq_iff` — that case
* `keyStore_answers` — the answers of the two stores, and when `GetKey` gives the same key
-/

open Framework

namespace Peershares

variable {Point : Type} {P : Params} {K : KeyCrypto Point}

/-! ### Keys -/

/-- The public key of a secret, in the compressed form or not. -/
def KeyCrypto.pubKey (K : KeyCrypto Point) (vchSecret : List UInt8) (fCompressed : Bool) : List UInt8 :=
  K.i2o fCompressed (K.regenerate vchSecret)

namespace CKey

/-- The key of a secret. -/
def ofSecret (K : KeyCrypto Point) (vchSecret : List UInt8) (fCompressed : Bool) : CKey Point where
  pkey := ⟨some vchSecret, some (K.regenerate vchSecret), fCompressed⟩
  fSet := true
  fCompressedPubKey := fCompressed

/-- A key as `MakeNewKey` makes it: with a secret, and with the two flags the same. -/
def Wf (K : KeyCrypto Point) (key : CKey Point) : Prop :=
  ∃ vchSecret fCompressed, vchSecret.length = 32 ∧ key = ofSecret K vchSecret fCompressed

/-- The flag of before stays. -/
theorem setSecret_eq {vchSecret : List UInt8} (h : vchSecret.length = 32) (fCompressed : Bool)
    (key : CKey Point) : key.setSecret K vchSecret fCompressed =
      .ok (ofSecret K vchSecret (fCompressed || key.fCompressedPubKey)) := by
  unfold setSecret
  rw [if_pos h]
  obtain ⟨pkey, fSet, flag⟩ := key
  cases fCompressed <;> cases flag <;> rfl

/-- The secret of a key. -/
theorem getSecret_ofSecret (vchSecret : List UInt8) (fCompressed : Bool) :
    (ofSecret K vchSecret fCompressed).getSecret = .ok (vchSecret, fCompressed) := rfl

/-- Its public key. -/
theorem getPubKey_ofSecret (vchSecret : List UInt8) (fCompressed : Bool) :
    (ofSecret K vchSecret fCompressed).getPubKey K = .ok (K.pubKey vchSecret fCompressed) := rfl

/-- A compressed public key sets the flag, and no public key clears it. -/
theorem fCompressedPubKey_setPubKey (hK : K.Lawful) (vchSecret : List UInt8) (fCompressed : Bool)
    (key : CKey Point) :
    (key.setPubKey K (K.pubKey vchSecret fCompressed)).fCompressedPubKey =
      (fCompressed || key.fCompressedPubKey) := by
  unfold setPubKey KeyCrypto.pubKey
  rw [hK.o2i_i2o]
  cases fCompressed with
  | true =>
    simp only [hK.length_compressed, if_true]
    rfl
  | false =>
    have hlen : (K.i2o false (K.regenerate vchSecret)).length ≠ 33 := by
      rw [hK.length_uncompressed]
      decide
    simp only [if_neg hlen, Bool.false_or]

/-- A secret and its public key, written to a key object. -/
theorem setPubKey_setSecret (hK : K.Lawful) {vchSecret : List UInt8} (h : vchSecret.length = 32)
    (fCompressed : Bool) (key : CKey Point) :
    (key.setPubKey K (K.pubKey vchSecret fCompressed)).setSecret K vchSecret false =
      .ok (ofSecret K vchSecret (fCompressed || key.fCompressedPubKey)) := by
  rw [setSecret_eq h, fCompressedPubKey_setPubKey hK, Bool.false_or]

/-- The two forms of a key are different keys. -/
theorem ofSecret_inj {vchSecret : List UInt8} {f f' : Bool}
    (h : ofSecret K vchSecret f = ofSecret K vchSecret f') : f = f' := congrArg fCompressedPubKey h

end CKey

/-! ### The relation -/

/-- A secret of the plain store as the encrypted store has it. -/
def crypted (K : KeyCrypto Point) (vMasterKey : List UInt8) (p : List UInt8 × Bool) :
    Option (List UInt8 × List UInt8) :=
  (encryptSecret K vMasterKey p.1 (K.hash (K.pubKey p.1 p.2))).map fun vchCryptedSecret =>
    (K.pubKey p.1 p.2, vchCryptedSecret)

/-- The secrets of the plain store are at the addresses of their public keys. -/
def CBasicKeyStore.Wf (P : Params) (K : KeyCrypto Point) (plain : CBasicKeyStore) : Prop :=
  ∀ address p, plain.mapKeys.lookup address = some p →
    p.1.length = 32 ∧ address = CBitcoinAddress.setPubKey P (K.pubKey p.1 p.2)

/-- The store has the keys of the plain one. The two last fields are the comment at `fUseCrypto`. -/
structure Refines (P : Params) (K : KeyCrypto Point) (vMasterKey : List UInt8) (store : CCryptoKeyStore)
    (plain : CBasicKeyStore) : Prop where
  wf : plain.Wf P K
  plain_keys : store.fUseCrypto = false → store.mapKeys = plain.mapKeys
  plain_crypted : store.fUseCrypto = false → store.mapCryptedKeys.entries = []
  crypted_keys : store.fUseCrypto = true → ∀ address,
    store.mapCryptedKeys.lookup address = (plain.mapKeys.lookup address).bind (crypted K vMasterKey)
  master : store.vMasterKey = [] ∨ store.vMasterKey = vMasterKey
  mapKeys_empty : store.fUseCrypto = true → store.mapKeys.entries = []
  vMasterKey_empty : store.fUseCrypto = false → store.vMasterKey = []

/-- Two empty stores. -/
theorem refines_empty (vMasterKey : List UInt8) : Refines P K vMasterKey {} {} where
  wf address p h := absurd h (by simp [OrderedMap.lookup_empty])
  plain_keys _ := rfl
  plain_crypted _ := rfl
  crypted_keys h := absurd h Bool.false_ne_true
  master := .inl rfl
  mapKeys_empty h := absurd h Bool.false_ne_true
  vMasterKey_empty _ := rfl

/-- A secret that was encrypted is decrypted again. -/
theorem encryptSecret_eq_some (hK : K.Lawful) {vMasterKey : List UInt8}
    (hM : vMasterKey.length = WALLET_CRYPTO_KEY_SIZE) (plain iv : List UInt8) :
    ∃ cipher, encryptSecret K vMasterKey plain iv = some cipher ∧
      decryptSecret K vMasterKey cipher iv = some plain := by
  obtain ⟨cipher, hcipher⟩ := Option.isSome_iff_exists.mp (hK.encrypt_isSome vMasterKey iv plain hM)
  refine ⟨cipher, ?_, ?_⟩
  · rw [encryptSecret, if_pos hM, hcipher]
  · rw [decryptSecret, if_pos hM, hK.decrypt_encrypt _ _ _ _ hcipher]

/-- What is encrypted can be decrypted. -/
theorem crypted_eq_some (hK : K.Lawful) {vMasterKey : List UInt8}
    (hM : vMasterKey.length = WALLET_CRYPTO_KEY_SIZE) (p : List UInt8 × Bool) :
    ∃ cipher, encryptSecret K vMasterKey p.1 (K.hash (K.pubKey p.1 p.2)) = some cipher ∧
      crypted K vMasterKey p = some (K.pubKey p.1 p.2, cipher) ∧
      decryptSecret K vMasterKey cipher (K.hash (K.pubKey p.1 p.2)) = some p.1 := by
  obtain ⟨cipher, henc, hdec⟩ := encryptSecret_eq_some hK hM p.1 (K.hash (K.pubKey p.1 p.2))
  exact ⟨cipher, henc, by rw [crypted, henc]; rfl, hdec⟩

/-! ### The calls -/

section Calls

variable {vMasterKey : List UInt8} {store : CCryptoKeyStore} {plain : CBasicKeyStore}

/-- The plain store takes a key. -/
theorem CBasicKeyStore.addKey_eq (plain : CBasicKeyStore) (vchSecret : List UInt8) (fCompressed : Bool) :
    plain.addKey P K (CKey.ofSecret K vchSecret fCompressed) = .ok
      ⟨plain.mapKeys.put (CBitcoinAddress.setPubKey P (K.pubKey vchSecret fCompressed))
        (vchSecret, fCompressed)⟩ := rfl

/-- A key is stored under its address. -/
theorem CBasicKeyStore.Wf.put (h : plain.Wf P K) {vchSecret : List UInt8} (hlen : vchSecret.length = 32)
    (fCompressed : Bool) :
    CBasicKeyStore.Wf P K ⟨plain.mapKeys.put
      (CBitcoinAddress.setPubKey P (K.pubKey vchSecret fCompressed)) (vchSecret, fCompressed)⟩ := by
  intro address p hp
  rw [OrderedMap.lookup_put] at hp
  split_ifs at hp with heq
  · cases hp
    exact ⟨hlen, heq⟩
  · exact h address p hp

/-- A store that is encrypted stays so. -/
theorem CCryptoKeyStore.setCrypted_of_crypted (h : store.fUseCrypto = true) :
    store.setCrypted = (true, store) := by
  unfold CCryptoKeyStore.setCrypted
  rw [if_pos h]

/-- The store becomes an encrypted one only when it has no keys. -/
theorem Refines.setCrypted (h : Refines P K vMasterKey store plain) :
    (store.setCrypted = (false, store)) ∨
      (store.setCrypted.1 = true ∧ store.setCrypted.2.fUseCrypto = true ∧
        Refines P K vMasterKey store.setCrypted.2 plain) := by
  unfold CCryptoKeyStore.setCrypted
  cases huse : store.fUseCrypto with
  | true =>
    rw [if_pos rfl]
    exact .inr ⟨rfl, huse, h⟩
  | false =>
    rw [if_neg Bool.false_ne_true]
    cases hkeys : store.mapKeys.entries with
    | cons p l => exact .inl rfl
    | nil =>
      -- there are no keys in the plain store either
      have hnone : ∀ address, plain.mapKeys.lookup address = none := by
        intro address
        rw [← h.plain_keys huse, OrderedMap.lookup, hkeys]
        rfl
      refine .inr ⟨rfl, rfl, ?_⟩
      refine
        { wf := h.wf, plain_keys := fun h' => absurd h' (by simp), plain_crypted := fun h' => absurd h' (by simp)
          crypted_keys := ?_, master := h.master, mapKeys_empty := fun _ => hkeys
          vMasterKey_empty := fun h' => absurd h' (by simp) }
      intro _ address
      show store.mapCryptedKeys.lookup address = _
      rw [hnone, OrderedMap.lookup, h.plain_crypted huse]
      rfl

/-- `Lock` does not touch the keys. -/
theorem Refines.lock (h : Refines P K vMasterKey store plain) :
    Refines P K vMasterKey store.lock.2 plain := by
  unfold CCryptoKeyStore.lock
  rcases h.setCrypted with heq | ⟨htrue, huse, h'⟩
  · rw [heq]
    exact h
  · rw [← Prod.mk.eta (p := store.setCrypted), htrue]
    exact { h' with
      master := .inl rfl
      vMasterKey_empty := fun hfalse => absurd (hfalse.symm.trans huse) Bool.false_ne_true }

/-- The first key of the store tells that the master key is the right one. -/
theorem Refines.checkMasterKey (hK : K.Lawful) (hM : vMasterKey.length = WALLET_CRYPTO_KEY_SIZE)
    (h : Refines P K vMasterKey store plain) (huse : store.fUseCrypto = true) :
    CCryptoKeyStore.checkMasterKey K vMasterKey store.mapCryptedKeys.entries = .ok true := by
  cases hentries : store.mapCryptedKeys.entries with
  | nil => rfl
  | cons e l =>
    obtain ⟨address, vchPubKey, cipher⟩ := e
    have hmem : (address, vchPubKey, cipher) ∈ store.mapCryptedKeys.entries := by
      rw [hentries]
      exact List.mem_cons_self
    have hlookup := OrderedMap.lookup_eq_some_iff.mpr hmem
    rw [h.crypted_keys huse] at hlookup
    obtain ⟨p, hp, hcrypted⟩ := Option.bind_eq_some_iff.mp hlookup
    obtain ⟨cipher', -, hcrypted', hdec⟩ := crypted_eq_some hK hM p
    rw [hcrypted'] at hcrypted
    cases hcrypted
    have hlen := (h.wf address p hp).1
    unfold CCryptoKeyStore.checkMasterKey
    simp only [hdec, hlen, ne_eq, not_true, if_false, CKey.setPubKey_setSecret hK hlen, Bool.or_false]
    show Except.ok (decide (K.pubKey p.1 p.2 = K.pubKey p.1 p.2)) = _
    rw [decide_eq_true rfl]

/-- Nor does `Unlock`, with the right key. -/
theorem Refines.unlock (hK : K.Lawful) (hM : vMasterKey.length = WALLET_CRYPTO_KEY_SIZE)
    (h : Refines P K vMasterKey store plain) :
    ∃ unlocked store', store.unlock K vMasterKey = .ok (unlocked, store') ∧
      Refines P K vMasterKey store' plain := by
  unfold CCryptoKeyStore.unlock
  rcases h.setCrypted with heq | ⟨htrue, huse, h'⟩
  · rw [heq]
    exact ⟨_, _, rfl, h⟩
  · rw [← Prod.mk.eta (p := store.setCrypted), htrue]
    simp only [h'.checkMasterKey hK hM huse]
    refine ⟨true, _, rfl, ?_⟩
    exact { h' with
      master := .inr rfl
      vMasterKey_empty := fun hfalse => absurd (hfalse.symm.trans huse) Bool.false_ne_true }

/-- A locked store takes no key. -/
theorem CCryptoKeyStore.addKey_locked (hlocked : store.isLocked = true) (key : CKey Point) :
    store.addKey P K key = .ok (false, store) := by
  have huse : store.isCrypted = true := (Bool.and_eq_true_iff.mp hlocked).1
  unfold CCryptoKeyStore.addKey
  rw [huse, hlocked]
  rfl

/-- An unlocked store takes the key as the plain one does. -/
theorem Refines.addKey (hK : K.Lawful) (hM : vMasterKey.length = WALLET_CRYPTO_KEY_SIZE)
    (h : Refines P K vMasterKey store plain) (hopen : store.isLocked = false) {key : CKey Point}
    (hkey : key.Wf K) :
    ∃ store' plain', store.addKey P K key = .ok (true, store') ∧ plain.addKey P K key = .ok plain' ∧
      Refines P K vMasterKey store' plain' ∧ store'.fUseCrypto = store.fUseCrypto ∧
      store'.vMasterKey = store.vMasterKey := by
  obtain ⟨vchSecret, fCompressed, hlen, rfl⟩ := hkey
  unfold CCryptoKeyStore.addKey
  rw [hopen]
  unfold CCryptoKeyStore.isLocked CCryptoKeyStore.isCrypted at *
  cases huse : store.fUseCrypto with
  -- the keys are stored plainly
  | false =>
    refine ⟨_, _, rfl, rfl, ?_, rfl, rfl⟩
    refine
      { wf := h.wf.put hlen fCompressed, plain_keys := fun _ => ?_, plain_crypted := fun _ => h.plain_crypted huse
        crypted_keys := fun hc => absurd hc Bool.false_ne_true
        master := h.master
        mapKeys_empty := fun hc => absurd hc Bool.false_ne_true
        vMasterKey_empty := fun _ => h.vMasterKey_empty huse }
    show store.mapKeys.put _ _ = plain.mapKeys.put _ _
    rw [h.plain_keys huse]
  | true =>
    -- an unlocked store has the key it was encrypted with
    have hmaster : store.vMasterKey = vMasterKey := by
      refine h.master.resolve_left fun hnil => ?_
      rw [huse, hnil] at hopen
      exact Bool.false_ne_true hopen.symm
    obtain ⟨cipher, henc, hcrypted, -⟩ := crypted_eq_some hK hM (vchSecret, fCompressed)
    simp only [Bool.not_true, Bool.false_eq_true, if_false, CKey.getPubKey_ofSecret,
      CKey.getSecret_ofSecret, Result.ok_bind, hmaster, henc, CCryptoKeyStore.addCryptedKey,
      CCryptoKeyStore.setCrypted_of_crypted huse]
    refine ⟨_, _, rfl, plain.addKey_eq vchSecret fCompressed, ?_, huse, rfl⟩
    refine
      { wf := h.wf.put hlen fCompressed
        plain_keys := fun hc => absurd (hc.symm.trans huse) Bool.false_ne_true
        plain_crypted := fun hc => absurd (hc.symm.trans huse) Bool.false_ne_true
        crypted_keys := fun _ address => ?_
        master := .inr rfl
        mapKeys_empty := fun _ => h.mapKeys_empty huse
        vMasterKey_empty := fun hc => absurd (hc.symm.trans huse) Bool.false_ne_true }
    show (store.mapCryptedKeys.put _ _).lookup address = _
    -- the ciphertext of the new key, and the old ones
    rw [OrderedMap.lookup_put, OrderedMap.lookup_put]
    split_ifs
    · exact hcrypted.symm
    · exact h.crypted_keys huse address

/-- The loop encrypts each key and leaves the rest. -/
theorem encryptLoop_eq (hK : K.Lawful) (hM : vMasterKey.length = WALLET_CRYPTO_KEY_SIZE)
    {l : List (CBase58Data × List UInt8 × Bool)} (hl : Increasing l)
    (hwf : ∀ e ∈ l, e.2.1.length = 32 ∧ e.1 = CBitcoinAddress.setPubKey P (K.pubKey e.2.1 e.2.2))
    (store : CCryptoKeyStore) (huse : store.fUseCrypto = true) :
    ∃ map, CCryptoKeyStore.encryptLoop P K vMasterKey l store =
        .ok (true, { store with mapCryptedKeys := map }) ∧
      ∀ address, map.lookup address =
        (((OrderedMap.mk l hl).lookup address).bind (crypted K vMasterKey)).or
          (store.mapCryptedKeys.lookup address) := by
  induction l generalizing store with
  | nil => exact ⟨store.mapCryptedKeys, rfl, fun address => rfl⟩
  | cons e l ih =>
    -- the first key is encrypted, and the loop goes on behind it
    obtain ⟨hfirst, hl'⟩ := List.pairwise_cons.mp hl
    obtain ⟨address₀, vchSecret, fCompressed⟩ := e
    obtain ⟨hlen, haddress⟩ := hwf _ List.mem_cons_self
    obtain ⟨cipher, henc, hcrypted, -⟩ := crypted_eq_some hK hM (vchSecret, fCompressed)
    dsimp only at hlen haddress
    let store₁ := { store with
      mapCryptedKeys := store.mapCryptedKeys.put address₀ (K.pubKey vchSecret fCompressed, cipher) }
    obtain ⟨map, hloop, hmap⟩ := ih hl' (fun e he => hwf e (List.mem_cons_of_mem _ he)) store₁ huse
    refine ⟨map, ?_, fun address => ?_⟩
    · rw [← hloop]
      simp only [CCryptoKeyStore.encryptLoop, CKey.setSecret_eq hlen, Bool.or_false, Result.ok_bind,
        CKey.getPubKey_ofSecret, CKey.getSecret_ofSecret, henc, CCryptoKeyStore.addCryptedKey,
        CCryptoKeyStore.setCrypted_of_crypted huse, ← haddress]
      rfl
    · rw [hmap, OrderedMap.lookup_put]
      by_cases heq : address = address₀
      · subst heq
        have hhead : (OrderedMap.mk _ hl).lookup address = some (vchSecret, fCompressed) :=
          OrderedMap.lookup_eq_some_iff.mpr List.mem_cons_self
        -- no later key has this address
        have hnone : (OrderedMap.mk l hl').lookup address = none := by
          rw [Option.eq_none_iff_forall_ne_some]
          intro p hp
          exact lt_irrefl address (hfirst (address, p) (OrderedMap.lookup_eq_some_iff.mp hp))
        rw [if_pos rfl, hnone, hhead, Option.bind_some, hcrypted]
        rfl
      · -- another address
        rw [if_neg heq]
        unfold OrderedMap.lookup
        rw [List.find?_cons_of_neg (by simpa using Ne.symm heq)]

/-- The keys of a plain store are encrypted; the store is locked then. -/
theorem Refines.encryptKeys (hK : K.Lawful) (hM : vMasterKey.length = WALLET_CRYPTO_KEY_SIZE)
    (h : Refines P K vMasterKey store plain) (huse : store.fUseCrypto = false) :
    ∃ store', store.encryptKeys P K vMasterKey = .ok (true, store') ∧
      Refines P K vMasterKey store' plain ∧ store'.isLocked = true := by
  unfold CCryptoKeyStore.encryptKeys CCryptoKeyStore.isCrypted
  rw [h.plain_crypted huse, huse]
  -- every key of the store has its own address
  have hwf : ∀ e ∈ store.mapKeys.entries, e.2.1.length = 32 ∧
      e.1 = CBitcoinAddress.setPubKey P (K.pubKey e.2.1 e.2.2) := by
    intro e he
    refine h.wf e.1 e.2 ?_
    rw [← h.plain_keys huse]
    exact OrderedMap.lookup_eq_some_iff.mpr he
  obtain ⟨map, hloop, hmap⟩ := encryptLoop_eq hK hM store.mapKeys.increasing hwf
    { store with fUseCrypto := true } rfl
  simp only [List.isEmpty_nil, Bool.not_true, Bool.or_false, Bool.false_eq_true, if_false, hloop]
  refine ⟨_, rfl, ?_, ?_⟩
  · refine
      { wf := h.wf, plain_keys := fun hc => absurd hc (by simp), plain_crypted := fun hc => absurd hc (by simp)
        crypted_keys := fun _ address => ?_, master := h.master, mapKeys_empty := fun _ => rfl
        vMasterKey_empty := fun hc => absurd hc (by simp) }
    show map.lookup address = _
    rw [hmap, ← h.plain_keys huse]
    -- no key was encrypted before
    have hempty : store.mapCryptedKeys.lookup address = none := by
      rw [OrderedMap.lookup, h.plain_crypted huse]
      rfl
    show (_ : Option _).or (store.mapCryptedKeys.lookup address) = _
    rw [hempty, Option.or_none]
  · unfold CCryptoKeyStore.isLocked CCryptoKeyStore.isCrypted
    show (true && store.vMasterKey.isEmpty) = true
    rw [h.vMasterKey_empty huse]
    rfl

/-- An encrypted store is not encrypted again. -/
theorem CCryptoKeyStore.encryptKeys_crypted (huse : store.fUseCrypto = true) :
    store.encryptKeys P K vMasterKey = .ok (false, store) := by
  unfold CCryptoKeyStore.encryptKeys CCryptoKeyStore.isCrypted
  rw [huse, Bool.or_true]
  rfl

end Calls

/-! ### Runs -/

/-- The keys of the calls are keys as `MakeNewKey` makes them. -/
def KeyStoreOp.Wf (K : KeyCrypto Point) : KeyStoreOp Point → Prop
  | .addKey key => key.Wf K
  | _ => True

/-- One command on both stores, by cases on it. -/
theorem Refines.exec (hK : K.Lawful) {vMasterKey : List UInt8}
    (hM : vMasterKey.length = WALLET_CRYPTO_KEY_SIZE) {stores : CCryptoKeyStore × CBasicKeyStore}
    (h : Refines P K vMasterKey stores.1 stores.2) {op : KeyStoreOp Point} (hop : op.Wf K) :
    ∃ stores', op.exec P K vMasterKey stores = .ok stores' ∧
      Refines P K vMasterKey stores'.1 stores'.2 := by
  cases op with
  | addKey key =>
    -- a locked store refuses the key, and so it is left out of the plain one
    cases hlocked : stores.1.isLocked with
    | true =>
      refine ⟨stores, ?_, h⟩
      rw [KeyStoreOp.exec, CCryptoKeyStore.addKey_locked hlocked]
      rfl
    | false =>
      obtain ⟨store', plain', heq, heq', h', -, -⟩ := h.addKey hK hM hlocked hop
      refine ⟨(store', plain'), ?_, h'⟩
      simp only [KeyStoreOp.exec, heq, heq']
      rfl
  | encryptKeys =>
    -- a store that is encrypted refuses, and nothing changes
    cases huse : stores.1.fUseCrypto with
    | true =>
      refine ⟨stores, ?_, h⟩
      rw [KeyStoreOp.exec, CCryptoKeyStore.encryptKeys_crypted huse]
      rfl
    | false =>
      obtain ⟨store', heq, h', -⟩ := h.encryptKeys hK hM huse
      refine ⟨(store', stores.2), ?_, h'⟩
      rw [KeyStoreOp.exec, heq]
      rfl
  | lock => exact ⟨_, rfl, h.lock⟩
  | unlock =>
    obtain ⟨unlocked, store', heq, h'⟩ := h.unlock hK hM
    refine ⟨(store', stores.2), ?_, h'⟩
    rw [KeyStoreOp.exec, heq]
    rfl

/-- A row of commands, by induction on the row. -/
theorem Refines.foldlM (hK : K.Lawful) {vMasterKey : List UInt8}
    (hM : vMasterKey.length = WALLET_CRYPTO_KEY_SIZE) {stores : CCryptoKeyStore × CBasicKeyStore}
    (h : Refines P K vMasterKey stores.1 stores.2) {ops : List (KeyStoreOp Point)}
    (hops : ∀ op ∈ ops, op.Wf K) :
    ∃ stores', ops.foldlM (KeyStoreOp.exec P K vMasterKey) stores = .ok stores' ∧
      Refines P K vMasterKey stores'.1 stores'.2 := by
  induction ops generalizing stores with
  | nil => exact ⟨stores, rfl, h⟩
  | cons op ops ih =>
    obtain ⟨stores₁, hexec, h₁⟩ := h.exec hK hM (hops op List.mem_cons_self)
    obtain ⟨stores₂, hfold, h₂⟩ := ih h₁ fun op' hop' => hops op' (List.mem_cons_of_mem _ hop')
    refine ⟨stores₂, ?_, h₂⟩
    rw [List.foldlM_cons, hexec]
    exact hfold

/-- So the encrypted store shows the plain one after every run. -/
theorem refines_runKeyStore (hK : K.Lawful) {vMasterKey : List UInt8}
    (hM : vMasterKey.length = WALLET_CRYPTO_KEY_SIZE) {ops : List (KeyStoreOp Point)}
    (hops : ∀ op ∈ ops, op.Wf K) : ∃ store plain,
      runKeyStore P K vMasterKey ops = .ok (store, plain) ∧ Refines P K vMasterKey store plain := by
  have h₀ : Refines P K vMasterKey (({}, {}) : CCryptoKeyStore × CBasicKeyStore).1
      (({}, {}) : CCryptoKeyStore × CBasicKeyStore).2 := refines_empty vMasterKey
  obtain ⟨⟨store, plain⟩, hrun, h⟩ := h₀.foldlM hK hM hops
  exact ⟨store, plain, hrun, h⟩

/-! ### The answers -/

section Answers

variable {vMasterKey : List UInt8} {store : CCryptoKeyStore} {plain : CBasicKeyStore}

/-- What the plain store gives. -/
theorem CBasicKeyStore.Wf.getKey (h : plain.Wf P K) (address : CBase58Data) (keyOut : CKey Point) :
    plain.getKey K address keyOut =
      match plain.mapKeys.lookup address with
      | some (vchSecret, fCompressed) => .ok (true, CKey.ofSecret K vchSecret fCompressed)
      | none => .ok (false, keyOut) := by
  unfold CBasicKeyStore.getKey
  cases hlookup : plain.mapKeys.lookup address with
  | none => rfl
  | some p =>
    obtain ⟨vchSecret, fCompressed⟩ := p
    simp only [CKey.setSecret_eq (h address _ hlookup).1, Bool.or_false]
    rfl

/-- What the encrypted store gives: the flag of `keyOut` goes into the answer. -/
theorem Refines.getKey_unlocked (hK : K.Lawful) (hM : vMasterKey.length = WALLET_CRYPTO_KEY_SIZE)
    (h : Refines P K vMasterKey store plain) (huse : store.fUseCrypto = true)
    (hmaster : store.vMasterKey = vMasterKey) (address : CBase58Data) (keyOut : CKey Point) :
    store.getKey K address keyOut =
      match plain.mapKeys.lookup address with
      | some (vchSecret, fCompressed) =>
        .ok (true, CKey.ofSecret K vchSecret (fCompressed || keyOut.fCompressedPubKey))
      | none => .ok (false, keyOut) := by
  unfold CCryptoKeyStore.getKey CCryptoKeyStore.isCrypted
  rw [huse, h.crypted_keys huse]
  cases hlookup : plain.mapKeys.lookup address with
  | none => rfl
  | some p =>
    obtain ⟨cipher, -, hcrypted, hdec⟩ := crypted_eq_some hK hM p
    obtain ⟨vchSecret, fCompressed⟩ := p
    have hlen : vchSecret.length = 32 := (h.wf address _ hlookup).1
    rw [Option.bind_some, hcrypted]
    simp only [Bool.not_true, Bool.false_eq_true, if_false, hmaster, hdec, hlen, ne_eq, not_true,
      CKey.setPubKey_setSecret hK hlen]
    rfl

/-- A locked store gives no key. -/
theorem Refines.getKey_locked (huse : store.fUseCrypto = true) (hmaster : store.vMasterKey = [])
    (address : CBase58Data) (keyOut : CKey Point) :
    store.getKey K address keyOut = .ok (false, keyOut) := by
  unfold CCryptoKeyStore.getKey CCryptoKeyStore.isCrypted
  rw [huse, hmaster]
  cases store.mapCryptedKeys.lookup address with
  | none => rfl
  | some p => rfl

/-- `HaveKey` answers the same. -/
theorem Refines.haveKey (hK : K.Lawful) (hM : vMasterKey.length = WALLET_CRYPTO_KEY_SIZE)
    (h : Refines P K vMasterKey store plain) (address : CBase58Data) :
    store.haveKey address = plain.haveKey address := by
  unfold CCryptoKeyStore.haveKey CCryptoKeyStore.isCrypted CBasicKeyStore.haveKey
  cases huse : store.fUseCrypto with
  | false =>
    show (store.mapKeys.lookup address).isSome = _
    rw [h.plain_keys huse]
  | true =>
    show (store.mapCryptedKeys.lookup address).isSome = _
    rw [h.crypted_keys huse]
    cases plain.mapKeys.lookup address with
    | none => rfl
    | some p =>
      obtain ⟨cipher, -, hcrypted, -⟩ := crypted_eq_some hK hM p
      rw [Option.bind_some, hcrypted]
      rfl

/-- And `GetKeys`. -/
theorem Refines.getKeys (hK : K.Lawful) (hM : vMasterKey.length = WALLET_CRYPTO_KEY_SIZE)
    (h : Refines P K vMasterKey store plain) : store.getKeys = plain.getKeys := by
  have hsorted : store.getKeys.Pairwise (· < ·) := by
    unfold CCryptoKeyStore.getKeys
    split_ifs
    · exact store.mapKeys.keys_increasing
    · exact store.mapCryptedKeys.keys_increasing
  have hmem : ∀ address, address ∈ store.getKeys ↔ address ∈ plain.getKeys := by
    intro address
    have hhave := h.haveKey hK hM address
    unfold CCryptoKeyStore.getKeys CBasicKeyStore.getKeys
    unfold CCryptoKeyStore.haveKey CBasicKeyStore.haveKey at hhave
    rw [← OrderedMap.lookup_isSome_iff, ← hhave]
    split_ifs
    · exact OrderedMap.lookup_isSome_iff.symm
    · exact OrderedMap.lookup_isSome_iff.symm
  exact hsorted.eq_of_mem_iff plain.mapKeys.keys_increasing (fun {a} => hmem a)

/-- The public keys are those of the plain store, locked or not. -/
theorem Refines.getPubKey (hK : K.Lawful) (hM : vMasterKey.length = WALLET_CRYPTO_KEY_SIZE)
    (h : Refines P K vMasterKey store plain) (address : CBase58Data) :
    store.getPubKey K address = getPubKeyOf K (plain.getKey K) address := by
  unfold CCryptoKeyStore.getPubKey CCryptoKeyStore.isCrypted
  cases huse : store.fUseCrypto with
  | false =>
    -- without encryption both stores look into the same map
    have hget : store.getKey K = plain.getKey K := by
      funext address keyOut
      unfold CCryptoKeyStore.getKey CCryptoKeyStore.isCrypted CCryptoKeyStore.basic
      rw [huse, h.plain_keys huse]
      rfl
    rw [hget]
    rfl
  | true =>
    -- otherwise the public key stands beside the cipher text
    show pure ((store.mapCryptedKeys.lookup address).map Prod.fst) = _
    rw [h.crypted_keys huse, getPubKeyOf, h.wf.getKey]
    cases plain.mapKeys.lookup address with
    | none => rfl
    | some p =>
      obtain ⟨cipher, -, hcrypted, -⟩ := crypted_eq_some hK hM p
      rw [Option.bind_some, hcrypted]
      rfl

/-- Does `GetKey` give the key of the plain store? -/
theorem Refines.getKey_eq_iff (hK : K.Lawful) (hM : vMasterKey.length = WALLET_CRYPTO_KEY_SIZE)
    (h : Refines P K vMasterKey store plain) (hopen : store.isLocked = false) (address : CBase58Data)
    (keyOut : CKey Point) :
    store.getKey K address keyOut = plain.getKey K address keyOut ↔
      ¬ (store.isCrypted = true ∧ keyOut.fCompressedPubKey = true ∧
        ∃ vchSecret, plain.mapKeys.lookup address = some (vchSecret, false)) := by
  unfold CCryptoKeyStore.isLocked CCryptoKeyStore.isCrypted at *
  cases huse : store.fUseCrypto with
  -- a plain store answers as the basic one does
  | false =>
    have heq : store.getKey K address keyOut = plain.getKey K address keyOut := by
      unfold CCryptoKeyStore.getKey CCryptoKeyStore.isCrypted CCryptoKeyStore.basic
      rw [huse, h.plain_keys huse]
      rfl
    simp [heq]
  | true =>
    have hmaster : store.vMasterKey = vMasterKey := by
      refine h.master.resolve_left fun hnil => ?_
      rw [huse, hnil] at hopen
      exact Bool.false_ne_true hopen.symm
    rw [h.getKey_unlocked hK hM huse hmaster, h.wf.getKey]
    -- no key has the address
    cases hlookup : plain.mapKeys.lookup address with
    | none => simp
    | some p =>
      obtain ⟨vchSecret, fCompressed⟩ := p
      -- the flag of `keyOut` is never cleared, so a key without it is read with the flag that was there
      have hflags : (Except.ok (true, CKey.ofSecret K vchSecret (fCompressed || keyOut.fCompressedPubKey)) :
            Result (Bool × CKey Point)) = .ok (true, CKey.ofSecret K vchSecret fCompressed) ↔
          (fCompressed || keyOut.fCompressedPubKey) = fCompressed := by
        constructor
        · intro heq
          exact CKey.ofSecret_inj (congrArg Prod.snd (Except.ok.inj heq))
        · intro heq
          rw [heq]
      refine hflags.trans ?_
      cases fCompressed with
      | true => simp
      | false =>
        rw [Bool.false_or, ← Bool.not_eq_true]
        constructor
        · rintro hflag ⟨-, hflag', -⟩
          exact hflag hflag'
        · intro hnot hflag
          exact hnot ⟨rfl, hflag, vchSecret, rfl⟩

/-- The secret is found under its address. -/
theorem CBasicKeyStore.Wf.getSecretOf (h : plain.Wf P K) (address : CBase58Data) :
    Peershares.getSecretOf (plain.getKey K) address = .ok (plain.mapKeys.lookup address) := by
  unfold Peershares.getSecretOf
  rw [h.getKey]
  cases plain.mapKeys.lookup address with
  | none => rfl
  | some p => rfl

/-- `GetSecret` has a new key object, so its flag is right. -/
theorem Refines.getSecretOf (hK : K.Lawful) (hM : vMasterKey.length = WALLET_CRYPTO_KEY_SIZE)
    (h : Refines P K vMasterKey store plain) (hopen : store.isLocked = false) (address : CBase58Data) :
    Peershares.getSecretOf (store.getKey K) address = .ok (plain.mapKeys.lookup address) := by
  have hfresh := (h.getKey_eq_iff hK hM hopen address {}).mpr fun hbad => Bool.false_ne_true hbad.2.1
  rw [← h.wf.getSecretOf]
  unfold Peershares.getSecretOf
  rw [hfresh]

end Answers

/-- The answers of the two stores after every run. An unlocked store gives the same key as the plain one
except when the key is not compressed and the object it is written to had a compressed one. -/
theorem keyStore_answers (hK : K.Lawful) {vMasterKey : List UInt8}
    (hM : vMasterKey.length = WALLET_CRYPTO_KEY_SIZE) {ops : List (KeyStoreOp Point)}
    (hops : ∀ op ∈ ops, op.Wf K) : ∃ store plain,
      runKeyStore P K vMasterKey ops = .ok (store, plain) ∧
      (store.fUseCrypto = true → store.mapKeys.entries = []) ∧
      (store.fUseCrypto = false → store.vMasterKey = []) ∧
      (∀ address, store.haveKey address = plain.haveKey address ∧
        store.getPubKey K address = getPubKeyOf K (plain.getKey K) address) ∧
      store.getKeys = plain.getKeys ∧
      (store.isLocked = false → ∀ address,
        getSecretOf (store.getKey K) address = getSecretOf (plain.getKey K) address ∧
        ∀ keyOut, store.getKey K address keyOut = plain.getKey K address keyOut ↔
          ¬ (store.isCrypted = true ∧ keyOut.fCompressedPubKey = true ∧
            ∃ vchSecret, plain.mapKeys.lookup address = some (vchSecret, false))) ∧
      (store.isLocked = true → ∀ address keyOut,
        store.getKey K address keyOut = .ok (false, keyOut)) := by
  obtain ⟨store, plain, hrun, h⟩ := refines_runKeyStore hK hM hops
  refine ⟨store, plain, hrun, h.mapKeys_empty, h.vMasterKey_empty,
    fun address => ⟨h.haveKey hK hM address, h.getPubKey hK hM address⟩, h.getKeys hK hM, ?_, ?_⟩
  · intro hopen address
    refine ⟨?_, h.getKey_eq_iff hK hM hopen address⟩
    rw [h.getSecretOf hK hM hopen, h.wf.getSecretOf]
  · intro hlocked address keyOut
    unfold CCryptoKeyStore.isLocked CCryptoKeyStore.isCrypted at hlocked
    rw [Bool.and_eq_true, List.isEmpty_iff] at hlocked
    exact Refines.getKey_locked hlocked.1 hlocked.2 address keyOut

/-! ### A key -/

namespace KeyStore.Sample

/-- The coordinates of the generator, the public key of the secret one. -/
def generatorX : List UInt8 :=
  [121, 190, 102, 126, 249, 220, 187, 172, 85, 160, 98, 149, 206, 135, 11, 7,
    2, 155, 252, 219, 45, 206, 40, 217, 89, 242, 129, 91, 22, 248, 23, 152]

def generatorY : List UInt8 :=
  [72, 58, 218, 119, 38, 163, 196, 101, 93, 164, 251, 252, 14, 17, 8, 168,
    253, 23, 180, 72, 166, 133, 84, 25, 156, 71, 208, 143, 251, 16, 212, 184]

/-- The curve at its generator, and a cipher that adds a block. -/
def crypto : KeyCrypto Unit where
  regenerate _ := ()
  i2o form _ := if form then 2 :: generatorX else 4 :: (generatorX ++ generatorY)
  o2i v := if v = 2 :: generatorX then some ((), true)
    else if v = 4 :: (generatorX ++ generatorY) then some ((), false) else none
  hash v := v.take 32
  encrypt _ _ plain := some (plain ++ List.replicate 16 16)
  decrypt _ _ cipher := some (cipher.take (cipher.length - 16))

/-- The sample curve obeys the laws. -/
theorem crypto_lawful : crypto.Lawful where
  o2i_i2o form _ := by cases form <;> rfl
  length_compressed _ := rfl
  length_uncompressed _ := rfl
  encrypt_isSome _ _ _ _ := rfl
  decrypt_encrypt key iv plain cipher h := by
    cases h
    simp [crypto]

/-- The secret one. -/
def secret : List UInt8 := List.replicate 31 0 ++ [1]

/-- The key of it. -/
def key (fCompressed : Bool) : CKey Unit := CKey.ofSecret crypto secret fCompressed

def masterKey : List UInt8 := List.replicate 32 7

/-- The sample keys have 32 bytes. -/
theorem key_wf (fCompressed : Bool) : (key fCompressed).Wf crypto := ⟨secret, fCompressed, by decide, rfl⟩

/-- The main network, with the hashes of the two public keys. -/
def params : Params where
  fTestNet := false
  hashTx tx := tx.nTime
  hashHeader _ _ _ _ _ nNonce := nNonce
  hashPair a _ := a
  hash160 v := if v = 2 :: generatorX then
      [117, 30, 118, 232, 25, 145, 150, 212, 84, 148, 28, 69, 209, 179, 163, 35, 241, 67, 59, 214]
    else if v = 4 :: (generatorX ++ generatorY) then
      [145, 178, 75, 249, 245, 40, 133, 50, 150, 10, 198, 135, 171, 176, 53, 18, 123, 29, 40, 165]
    else List.replicate 20 0
  hash160_length v := by
    split_ifs
    · rfl
    · rfl
    · exact List.length_replicate
  verifyKey _ _ _ := true
  verifyScript _ _ _ _ _ := true

/-- The address of the key. -/
def address (fCompressed : Bool) : CBase58Data :=
  CBitcoinAddress.setPubKey params (crypto.pubKey secret fCompressed)

end KeyStore.Sample

open KeyStore.Sample in

/-- A compressed key in a store that was encrypted and unlocked. -/
theorem keyStore_answers_compressed : ∃ store plain,
    runKeyStore params crypto masterKey [.addKey (key true), .encryptKeys, .unlock] = .ok (store, plain) ∧
    store.haveKey (address true) = plain.haveKey (address true) ∧ store.getKeys = plain.getKeys := by
  obtain ⟨store, plain, hrun, -, -, hhave, hkeys, -⟩ := keyStore_answers (P := params) crypto_lawful
    (show masterKey.length = WALLET_CRYPTO_KEY_SIZE by decide)
    (show ∀ op ∈ [.addKey (key true), .encryptKeys, .unlock], KeyStoreOp.Wf crypto op by
      simp [KeyStoreOp.Wf, key_wf])
  exact ⟨store, plain, hrun, (hhave (address true)).1, hkeys⟩

open KeyStore.Sample in
/-- A key that is not compressed, read into an object that had a compressed key. -/
theorem getKey_wrongly_compressed : ∃ store plain,
    runKeyStore params crypto masterKey [.addKey (key false), .encryptKeys, .unlock] = .ok (store, plain) ∧
    store.isLocked = false ∧
    store.getKey crypto (address false) (key true) = .ok (true, key true) ∧
    plain.getKey crypto (address false) (key true) = .ok (true, key false) ∧ key true ≠ key false := by
  refine ⟨_, _, rfl, by decide, rfl, rfl, ?_⟩
  intro h
  exact absurd (CKey.ofSecret_inj h) (by decide)

end Peershares
