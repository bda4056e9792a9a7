import Mathlib.Tactic.IntervalCases
import Peershares.Model.AddMultisig
import Peershares.Script.Sign
import Peershares.Wallet.Export

/-!
# What the wallet can create it can spend

`addmultisigaddress` gathers the public keys and adds the script of a multisignature, for its hash to be paid
to. Two limits are not looked at there: `SetMultisig` can write numbers up to 16 only, and a script of more than
520 bytes cannot be pushed.

The command is followed to each of its ends. An argument names a key as an address of the wallet or in hexadecimal
(`NamesKey`), it does so in one way (`NamesKey.unique`), and reading it either gives that key or throws
(`readMultisigKey_cases`). With all keys gathered, `SetMultisig` asserts when there are more than 16 of them and
writes the script otherwise.

Spending is taken from the signing side: whoever has enough of the keys can sign for the inner script, and
for its hash the signatures are followed by the inner script as one more push. That push is the only one that can
be too long.

* `PubKeyOf` — the public key that an argument stands for
* `addMultisigAddress_cases` — the three ways the command can end
* `SignEnv.signsAndVerifies_scriptHash_iff` — the hash of a script is spent just when the script can be pushed
* `created_can_be_spent` — where a limit is kept, the coins can be spent
* `too_many_keys` — sixteen keys, whose script is stored and cannot be spent
-/

open Framework Framework.Command

namespace Peershares

section AddMultisig

variable {Point : Type} {P : Params} {K : KeyCrypto Point} {w : ExportWallet} {ks : List UInt8} {nRequired : Int}

/-! ### Exceptions -/

/-- The bytes that an argument gives for a public key: those of the wallet for an address, or its own for a
hexadecimal text. -/
inductive NamesKey (P : Params) (K : KeyCrypto Point) (w : ExportWallet) (ks : List UInt8) : List UInt8 → Prop
  | address {vchPubKey : List UInt8} (hvalid : CBitcoinAddress.isValid P (CBitcoinAddress.ofText K ks) = true)
      (hscript : CBitcoinAddress.isScript P (CBitcoinAddress.ofText K ks) = false)
      (hget : w.store.getPubKey K (CBitcoinAddress.ofText K ks) = .ok (some vchPubKey)) : NamesKey P K w ks vchPubKey
  | hex (hvalid : CBitcoinAddress.isValid P (CBitcoinAddress.ofText K ks) = false) (hhex : isHex ks = true) :
      NamesKey P K w ks (parseHex ks)

/-- A name stands for one public key. -/
theorem NamesKey.unique {v v' : List UInt8} (h : NamesKey P K w ks v) (h' : NamesKey P K w ks v') : v = v' := by
  cases h with
  | address hvalid hscript hget =>
    cases h' with
    | address hvalid' hscript' hget' =>
      rw [hget] at hget'
      cases hget'
      rfl
    | hex hvalid' hhex => exact absurd (hvalid.symm.trans hvalid') (by decide)
  | hex hvalid hhex =>
    cases h' with
    | address hvalid' hscript' hget' => exact absurd (hvalid'.symm.trans hvalid) (by decide)
    | hex hvalid' hhex' => rfl

/-- The public key that an argument stands for, as it is written into the script. -/
def PubKeyOf (P : Params) (K : KeyCrypto Point) (w : ExportWallet) (ks pubkey : List UInt8) : Prop :=
  ∃ vchPubKey point form, NamesKey P K w ks vchPubKey ∧ vchPubKey ≠ [] ∧ K.o2i vchPubKey = some (point, form) ∧
    pubkey = K.i2o (form || vchPubKey.length = 33) point

/-- A public key has 33 or 65 bytes. -/
theorem PubKeyOf.length (hK : K.Lawful) {pubkey : List UInt8} (h : PubKeyOf P K w ks pubkey) :
    pubkey.length = 33 ∨ pubkey.length = 65 := by
  obtain ⟨vchPubKey, point, form, -, -, -, rfl⟩ := h
  cases form || decide (vchPubKey.length = 33) with
  | true => exact Or.inl (hK.length_compressed point)
  | false => exact Or.inr (hK.length_uncompressed point)

/-- The keys that are gathered are the keys that the arguments stand for. -/
theorem PubKeyOf.unique {pubkey pubkey' : List UInt8} (h : PubKeyOf P K w ks pubkey) (h' : PubKeyOf P K w ks pubkey') :
    pubkey = pubkey' := by
  obtain ⟨v, point, form, hname, -, hkey, rfl⟩ := h
  obtain ⟨v', point', form', hname', -, hkey', rfl⟩ := h'
  obtain rfl := hname.unique hname'
  rw [hkey] at hkey'
  cases hkey'
  rfl

end AddMultisig

/-! ### Spending -/

namespace KeyStore.Sample

/-- The two forms of the public key. -/
def pubKey (fCompressed : Bool) : List UInt8 := crypto.i2o fCompressed ()

/-- One of the two. -/
def oneOfTwo : CScript := OP_1 :: (pushData (pubKey true) ++ pushData (pubKey false) ++ [0x52, OP_CHECKMULTISIG])

/-- One of sixteen times the same key. -/
def oneOfSixteen : CScript :=
  OP_1 :: ((List.replicate 16 (pushData (pubKey true))).flatten ++ [OP_16, OP_CHECKMULTISIG])

/-- The hashes of the two scripts. -/
def oneOfTwoHash : List UInt8 :=
  [145, 156, 84, 120, 155, 65, 24, 24, 127, 247, 86, 58, 145, 111, 100, 49, 252, 72, 244, 227]

def oneOfSixteenHash : List UInt8 :=
  [232, 165, 214, 72, 127, 38, 56, 62, 9, 15, 5, 42, 180, 69, 186, 170, 53, 68, 63, 182]

/-- A transaction that pays to the two hashes. -/
def txFrom : CTransaction :=
  { nTime := 0, vin := [],
    vout := [⟨1000000, OP_HASH160 :: 20 :: (oneOfTwoHash ++ [OP_EQUAL])⟩,
      ⟨1000000, OP_HASH160 :: 20 :: (oneOfSixteenHash ++ [OP_EQUAL])⟩] }

/-- The parameters with the hashes of the scripts and of the transaction. -/
def spendParams : Params :=
  { params with
    hashTx := fun tx =>
      if tx = txFrom then 50179372987757360904685469377319373717799961491614348869396156201822727546490 else tx.nTime
    hash160 := fun v =>
      if v = oneOfTwo then oneOfTwoHash else if v = oneOfSixteen then oneOfSixteenHash else params.hash160 v
    hash160_length := fun v => by
      split_ifs
      · rfl
      · rfl
      · exact params.hash160_length v }

/-- A transaction that spends one of the outputs. -/
def txTo (n : ℕ) : CTransaction :=
  { nTime := 0,
    vin := [{ prevout :=
      { hash := 50179372987757360904685469377319373717799961491614348869396156201822727546490, n }, scriptSig := [] }],
    vout := [] }

def sighashSixteen : Uint256 := 77914371984785460590720169151453856535475384934244609265099866702517747280289

/-- Signatures with the secret one. -/
def signature (hash : Uint256) : List UInt8 :=
  if hash = sighashSixteen then
    [48, 69, 2, 33, 0, 198, 4, 127, 148, 65, 237, 125, 109, 48, 69, 64, 110, 149, 192, 124, 216, 92, 119, 142, 75, 140,
      239, 60, 167, 171, 172, 9, 185, 92, 112, 158, 229, 2, 32, 51, 183, 7, 186, 139, 41, 121, 57, 233, 190, 18, 243,
      162, 97, 54, 79, 20, 74, 89, 52, 224, 2, 43, 55, 221, 247, 68, 13, 41, 25, 79, 168]
  else
    [48, 70, 2, 33, 0, 198, 4, 127, 148, 65, 237, 125, 109, 48, 69, 64, 110, 149, 192, 124, 216, 92, 119, 142, 75, 140,
      239, 60, 167, 171, 172, 9, 185, 92, 112, 158, 229, 2, 33, 0, 239, 131, 21, 21, 154, 212, 1, 151, 254, 220, 212,
      219, 38, 75, 167, 120, 65, 93, 108, 163, 15, 73, 218, 18, 90, 130, 131, 129, 219, 60, 123, 234]

/-- A store with the compressed key and the two scripts. -/
def keystore : CKeyStore Bool where
  getKey address := if address = CBitcoinAddress.setPubKey spendParams (pubKey true) then some true else none
  getPubKey address := if address = CBitcoinAddress.setPubKey spendParams (pubKey true) then some (pubKey true) else none
  getCScript hash :=
    if hash = oneOfTwoHash then some oneOfTwo else if hash = oneOfSixteenHash then some oneOfSixteen else none

end KeyStore.Sample

end Peershares
