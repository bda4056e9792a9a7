import Peershares.Model.Export
import Peershares.Wallet.Base58
import Peershares.Wallet.KeyStore

/-!
# Exported keys open the dividend addresses

A secret goes to Peercoin as text, and the address that dividends are paid to is made from the share
address. Both come from one public key: the key store has each secret at the address of its public key,
in the form that its flag says.

* `readSecret_setSecret` — the text of a secret can be read back, with its flag
* `exported_key_opens` — the key that Peercoin reads has the address that `Distribution` pays
-/

open Framework

namespace Peershares

/-! ### Secrets -/

section Secrets

variable {P : Params}

/-- An exported secret is read back. -/
theorem readSecret_setSecret {hash : List UInt8 → List UInt8} (hhash : ∀ vch, (hash vch).length = 32)
    {vchSecret : List UInt8} (hlen : vchSecret.length = 32) (fCompressed : Bool) :
    ∃ secret, CPeercoinSecret.setSecret P vchSecret fCompressed = .ok secret ∧
      CPeercoinSecret.readSecret P hash (secret.toText hash) = some (vchSecret, fCompressed) := by
  refine ⟨_, if_pos hlen, ?_⟩
  unfold CPeercoinSecret.readSecret AddressClass.readSecret
  rw [setString_toText hhash]
  cases fCompressed <;> cases hnet : P.fTestNet <;>
    simp [AddressClass.isValidSecret, CBase58Data.getSecret, CPeercoinAddress.versions, hlen]

end Secrets

/-! ### The loop -/

section Loop

variable {Point : Type} {P : Params} {K : KeyCrypto Point} (rpc : PeercoinServer) (w : ExportWallet)

/-- These calls were made. -/
def ExportState.Made (calls : List PeercoinCall) (s : ExportState) : Prop := calls <+: s.vCalls

/-- Counting an error makes no key. -/
theorem keeps_countError (calls : List PeercoinCall) : countError.Keeps (ExportState.Made calls) :=
  Command.Keeps.modify fun _ h => h

/-- Nor does a call. -/
theorem keeps_callPeercoin (calls : List PeercoinCall) (call : PeercoinCall) :
    (callPeercoin rpc call).Keeps (ExportState.Made calls) := by
  intro s h
  have hmade : calls <+: s.vCalls ++ [call] := List.IsPrefix.trans h (List.prefix_append _ _)
  unfold Command.Triple callPeercoin
  cases rpc s.vCalls call with
  | result => exact hmade
  | rpcError => exact hmade
  | exception what => exact hmade

/-- A call stays made. -/
theorem keeps_exportAddress (calls : List PeercoinCall) (item : CBase58Data × String) :
    (w.exportAddress P K rpc item).Keeps (ExportState.Made calls) := by
  unfold ExportWallet.exportAddress
  split_ifs
  · refine Command.Keeps.bind (Command.Keeps.lift _) fun hash => ?_
    cases w.mapScripts.lookup hash with
    | none => exact keeps_countError calls
    | some script =>
      dsimp only
      cases extractAddresses P script with
      | none => exact keeps_countError calls
      | some found =>
        obtain ⟨type, vAddresses, nRequired⟩ := found
        show Command.Keeps _ (if type ≠ .TX_MULTISIG then countError else _)
        split_ifs
        · exact keeps_countError calls
        · exact Command.Keeps.bind (Command.Keeps.lift _) fun _ => keeps_callPeercoin rpc calls _
  · refine Command.Keeps.bind (Command.Keeps.lift _) fun found => ?_
    cases found with
    | none => exact keeps_countError calls
    | some p => exact Command.Keeps.bind (Command.Keeps.lift _) fun _ => keeps_callPeercoin rpc calls _

/-- The address of a public key is not that of a script. -/
theorem isScript_setPubKey (vchPubKey : List UInt8) :
    CBitcoinAddress.isScript P (CBitcoinAddress.setPubKey P vchPubKey) = false := by
  have hlen := P.hash160_length vchPubKey
  cases hnet : P.fTestNet <;>
    simp [CBitcoinAddress.isScript, CBitcoinAddress.setPubKey, CBitcoinAddress.setHash160,
      AddressClass.setHash160, AddressClass.isScript, AddressClass.isValid, CBitcoinAddress.versions, hnet,
      hlen]

/-- The address of a key has the same hash on the other network. -/
theorem ofAddress_setPubKey (vchPubKey : List UInt8) :
    CPeercoinAddress.ofAddress P (CBitcoinAddress.setPubKey P vchPubKey) =
      .ok (CPeercoinAddress.setHash160 P (P.hash160 vchPubKey)) := by
  have hhash : (CBitcoinAddress.setPubKey P vchPubKey).getHash160 = .ok (P.hash160 vchPubKey) :=
    if_pos (P.hash160_length vchPubKey)
  unfold CPeercoinAddress.ofAddress
  rw [hhash, isScript_setPubKey]
  rfl

/-- What is sent for an address with a key. -/
theorem vCalls_exportAddress {vchSecret : List UInt8} {fCompressed : Bool} {secret : CBase58Data}
    (hsecret : getSecretOf (w.store.getKey K) (CBitcoinAddress.setPubKey P (K.pubKey vchSecret fCompressed)) =
      .ok (some (vchSecret, fCompressed)))
    (hset : CPeercoinSecret.setSecret P vchSecret fCompressed = .ok secret) (label : String)
    (s : ExportState) :
    ((w.exportAddress P K rpc (CBitcoinAddress.setPubKey P (K.pubKey vchSecret fCompressed), label)) s).2.Made
      (s.vCalls ++ [.importprivkey (secret.toText K.hash) "Peershares"]) := by
  have heq : w.exportAddress P K rpc (CBitcoinAddress.setPubKey P (K.pubKey vchSecret fCompressed), label) s =
      callPeercoin rpc (.importprivkey (secret.toText K.hash) "Peershares") s := by
    unfold ExportWallet.exportAddress ExportWallet.exportKey
    rw [isScript_setPubKey, hsecret]
    show (Command.lift (CPeercoinSecret.setSecret P vchSecret fCompressed) >>= _) s = _
    rw [hset]
    rfl
  rw [heq]
  unfold callPeercoin ExportState.Made
  cases rpc s.vCalls (.importprivkey (secret.toText K.hash) "Peershares") with
  | result => exact List.prefix_rfl
  | rpcError => exact List.prefix_rfl
  | exception what => exact List.prefix_rfl

end Loop

/-! ### The keys that are sent -/

/-- For an address whose key the wallet has, the text that is sent gives a key with the address that its
dividends go to. This is so for every server and whatever was sent for the addresses before it. -/
theorem exported_key_opens {Point : Type} {P : Params} {K : KeyCrypto Point} (hK : K.Lawful)
    (hhash : ∀ vch, (K.hash vch).length = 32) {vMasterKey : List UInt8}
    (hM : vMasterKey.length = WALLET_CRYPTO_KEY_SIZE) {ops : List (KeyStoreOp Point)}
    (hops : ∀ op ∈ ops, op.Wf K) {w : ExportWallet} {plain : CBasicKeyStore}
    (hrun : runKeyStore P K vMasterKey ops = .ok (w.store, plain)) (hopen : w.store.isLocked = false)
    (hmint : w.fWalletUnlockMintOnly = false) (rpc : PeercoinServer) (before after : List (CBase58Data × String))
    {address : CBase58Data} {label : String}
    (hbook : w.mapAddressBook.entries = before ++ (address, label) :: after)
    (hhave : w.store.haveKey address = true) {s : ExportState}
    (hbefore : (Command.forList (w.exportAddress P K rpc) before).Runs {} s) :
    ∃ strSecret addrPeercoin,
      s.vCalls ++ [.importprivkey strSecret "Peershares"] <+: ((w.exportPeercoinKeys P K rpc) {}).2.vCalls ∧
      importedAddress P K strSecret = .ok addrPeercoin ∧
      CPeercoinAddress.ofAddress P address = .ok addrPeercoin ∧
      ∀ {D : Type} (nBalance : Int) (dDividendAmount : D),
        Distribution.new P address nBalance dDividendAmount =
          .ok ⟨address, nBalance, addrPeercoin, dDividendAmount⟩ := by
  -- the store at the time of the call
  obtain ⟨store, plain', hrun', h⟩ := refines_runKeyStore (P := P) hK hM hops
  cases hrun.symm.trans hrun'
  -- the secret that the store has at the address
  rw [h.haveKey hK hM, CBasicKeyStore.haveKey, Option.isSome_iff_exists] at hhave
  obtain ⟨⟨vchSecret, fCompressed⟩, hlookup⟩ := hhave
  obtain ⟨hlen, haddress⟩ := h.wf _ _ hlookup
  dsimp only at hlen haddress
  -- it is read and written out as a text
  have hsecret := h.getSecretOf hK hM hopen address
  rw [hlookup] at hsecret
  obtain ⟨secret, hset, hread⟩ := readSecret_setSecret (P := P) hhash hlen fCompressed
  subst haddress
  have hto := ofAddress_setPubKey (P := P) (K.pubKey vchSecret fCompressed)
  refine ⟨secret.toText K.hash, _, ?_, ?_, hto, ?_⟩
  · have hloop : (w.exportPeercoinKeys P K rpc) {} = (Command.forList (w.exportAddress P K rpc)
        ((CBitcoinAddress.setPubKey P (K.pubKey vchSecret fCompressed), label) :: after)) s := by
      unfold ExportWallet.exportPeercoinKeys
      rw [hopen, hmint, hbook]
      exact Command.forList_append_of_runs hbefore _
    rw [hloop]
    -- the call is made, and the rest of the loop keeps it
    have hcall := vCalls_exportAddress rpc w hsecret hset label s
    have hrest := Command.Triple.bind (Command.Triple.of_snd hcall) fun _ s' hmade =>
      Command.Keeps.forList (fun item => keeps_exportAddress (P := P) (K := K) rpc w _ item)
        after s' hmade
    exact hrest.snd
  · -- the other wallet reads the text back
    unfold importedAddress
    rw [hread]
    simp only [CKey.setSecret_eq hlen, Bool.or_false]
    rfl
  · -- and the payment goes to its address
    intro D nBalance dDividendAmount
    unfold Distribution.new
    rw [hto]
    rfl

namespace KeyStore.Sample

/-- The hashes of the public key and of the secret with its version byte. -/
def exportCrypto : KeyCrypto Unit :=
  { crypto with
    hash := fun v =>
      if v = 2 :: generatorX then
        [177, 205, 10, 78, 182, 209, 206, 165, 235, 40, 143, 180, 71, 74, 196, 3,
        234, 176, 68, 0, 76, 196, 143, 18, 188, 180, 202, 131, 70, 212, 135, 225]
      else if v = 183 :: (secret ++ [1]) then
        [111, 209, 205, 128, 148, 143, 56, 3, 175, 238, 232, 34, 184, 244, 9, 160,
        81, 49, 175, 63, 208, 6, 125, 48, 33, 75, 99, 132, 236, 97, 31, 171]
      else List.replicate 32 0 }

/-- The sample curve obeys the laws. -/
theorem exportCrypto_lawful : exportCrypto.Lawful where
  o2i_i2o := crypto_lawful.o2i_i2o
  length_compressed := crypto_lawful.length_compressed
  length_uncompressed := crypto_lawful.length_uncompressed
  encrypt_isSome := crypto_lawful.encrypt_isSome
  decrypt_encrypt := crypto_lawful.decrypt_encrypt

/-- Its hash has 32 bytes. -/
theorem length_exportCrypto_hash (v : List UInt8) : (exportCrypto.hash v).length = 32 := by
  unfold exportCrypto
  dsimp only
  split_ifs
  · rfl
  · rfl
  · exact List.length_replicate

/-- The sample key. -/
theorem key_wf_export : (key true).Wf exportCrypto := ⟨secret, true, by decide, rfl⟩

end KeyStore.Sample

open KeyStore.Sample in
/-- An encrypted wallet that is unlocked, with one address. -/
theorem exported_key_opens_encrypted : ∃ store plain,
    runKeyStore params exportCrypto masterKey [.addKey (key true), .encryptKeys, .unlock] = .ok (store, plain) ∧
    store.isCrypted = true ∧
    ∃ strSecret addrPeercoin,
      importedAddress params exportCrypto strSecret = .ok addrPeercoin ∧
      CPeercoinAddress.ofAddress params (address true) = .ok addrPeercoin := by
  refine ⟨_, _, rfl, rfl, ?_⟩
  obtain ⟨strSecret, addrPeercoin, -, himported, hto, -⟩ := exported_key_opens (P := params)
    exportCrypto_lawful length_exportCrypto_hash (show masterKey.length = WALLET_CRYPTO_KEY_SIZE by decide)
    (show ∀ op ∈ [.addKey (key true), .encryptKeys, .unlock], KeyStoreOp.Wf exportCrypto op by
      simp [KeyStoreOp.Wf, key_wf_export])
    (w := ⟨_, OrderedMap.empty, OrderedMap.empty.put (address true) "", false⟩) rfl rfl rfl
    (fun _ _ => .result) [] [] rfl rfl rfl
  exact ⟨strSecret, addrPeercoin, himported, hto⟩

end Peershares
