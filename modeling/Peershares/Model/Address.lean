import Peershares.Model.Script

/-!
# Addresses

`CBase58Data`, `CBitcoinAddress` and `CPeercoinAddress` of `base58.h`, and `ExtractAddress` of
`script.cpp`. The two address classes have the same functions and differ in their version bytes, so
the functions take these as an argument and each class has them at its own.

A `uint160` is a list of twenty bytes; the text form of an address is left out, since two addresses
have the same text only when they are the same.
-/

namespace Peershares

/-- A version byte and the data behind it; unset, both are empty. -/
structure CBase58Data where
  nVersion : UInt8 := 0
  vchData : List UInt8 := []
deriving DecidableEq, Repr

/-- `operator<=` by `CompareTo`: version first, then the bytes in lexicographic order. -/
def CBase58Data.le (a b : CBase58Data) : Bool :=
  a.nVersion < b.nVersion || (a.nVersion = b.nVersion && !decide (b.vchData < a.vchData))

/-- `uint160(vch)`: bytes of any other number give zero. -/
def uint160 (vch : List UInt8) : List UInt8 := if vch.length = 20 then vch else List.replicate 20 0

theorem length_uint160 (vch : List UInt8) : (uint160 vch).length = 20 := by
  unfold uint160
  split_ifs with h
  · exact h
  · exact List.length_replicate

/-- `GetHash160` of both classes. -/
def CBase58Data.getHash160 (address : CBase58Data) : Result (List UInt8) :=
  if address.vchData.length = 20 then .ok address.vchData else .error .assertion

/-! ### The functions of an address class -/

/-- The version bytes of an address class. -/
structure AddressClass where
  PUBKEY_ADDRESS : UInt8
  SCRIPT_ADDRESS : UInt8
  PUBKEY_ADDRESS_TEST : UInt8
  SCRIPT_ADDRESS_TEST : UInt8

namespace AddressClass

variable (C : AddressClass)

def setHash160 (fTestNet : Bool) (hash160 : List UInt8) : CBase58Data where
  nVersion := if fTestNet then C.PUBKEY_ADDRESS_TEST else C.PUBKEY_ADDRESS
  vchData := hash160

def setScriptHash160 (fTestNet : Bool) (hash160 : List UInt8) : CBase58Data where
  nVersion := if fTestNet then C.SCRIPT_ADDRESS_TEST else C.SCRIPT_ADDRESS
  vchData := hash160

def isValid (fTestNet : Bool) (address : CBase58Data) : Bool :=
  if address.nVersion = C.PUBKEY_ADDRESS || address.nVersion = C.SCRIPT_ADDRESS then
    !fTestNet && address.vchData.length = 20
  else if address.nVersion = C.PUBKEY_ADDRESS_TEST || address.nVersion = C.SCRIPT_ADDRESS_TEST then
    fTestNet && address.vchData.length = 20
  else false

def isScript (fTestNet : Bool) (address : CBase58Data) : Bool :=
  if !C.isValid fTestNet address then false
  else if fTestNet then address.nVersion = C.SCRIPT_ADDRESS_TEST
  else address.nVersion = C.SCRIPT_ADDRESS

end AddressClass

/-! ### The two classes -/

namespace CBitcoinAddress

def versions : AddressClass where
  PUBKEY_ADDRESS := 63
  SCRIPT_ADDRESS := 125
  PUBKEY_ADDRESS_TEST := 32
  SCRIPT_ADDRESS_TEST := 212

def setHash160 (P : Params) : List UInt8 → CBase58Data := versions.setHash160 P.fTestNet
def setScriptHash160 (P : Params) : List UInt8 → CBase58Data := versions.setScriptHash160 P.fTestNet
def isValid (P : Params) : CBase58Data → Bool := versions.isValid P.fTestNet
def isScript (P : Params) : CBase58Data → Bool := versions.isScript P.fTestNet

def setPubKey (P : Params) (vchPubKey : List UInt8) : CBase58Data :=
  setHash160 P (P.hash160 vchPubKey)

end CBitcoinAddress

namespace CPeercoinAddress

def versions : AddressClass where
  PUBKEY_ADDRESS := 55
  SCRIPT_ADDRESS := 117
  PUBKEY_ADDRESS_TEST := 111
  SCRIPT_ADDRESS_TEST := 196

def setHash160 (P : Params) : List UInt8 → CBase58Data := versions.setHash160 P.fTestNet
def setScriptHash160 (P : Params) : List UInt8 → CBase58Data := versions.setScriptHash160 P.fTestNet
def isValid (P : Params) : CBase58Data → Bool := versions.isValid P.fTestNet
def isScript (P : Params) : CBase58Data → Bool := versions.isScript P.fTestNet

/-- `CPeercoinAddress(const CBitcoinAddress &address)`. -/
def ofAddress (P : Params) (address : CBase58Data) : Result CBase58Data := do
  let hash160 ← address.getHash160
  pure (if CBitcoinAddress.isScript P address then setScriptHash160 P hash160
    else setHash160 P hash160)

end CPeercoinAddress

/-! ### `ExtractAddress` -/

/-- `ExtractAddress`; `none` when it returns `false` and leaves the address as it was. -/
def extractAddress (P : Params) (scriptPubKey : CScript) : Option CBase58Data :=
  match solver scriptPubKey with
  | (true, .TX_PUBKEY, vSolutions) => some (CBitcoinAddress.setPubKey P (vSolutions.headD []))
  | (true, .TX_PUBKEYHASH, vSolutions) =>
    some (CBitcoinAddress.setHash160 P (uint160 (vSolutions.headD [])))
  | (true, .TX_SCRIPTHASH, vSolutions) =>
    some (CBitcoinAddress.setScriptHash160 P (uint160 (vSolutions.headD [])))
  | _ => none

/-! ### From one class to the other -/

section

variable {P : Params}

/-- An address that `SetHash160` or `SetScriptHash160` has set. -/
def CBitcoinAddress.IsSet (P : Params) (address : CBase58Data) : Prop :=
  ∃ hash160 : List UInt8, hash160.length = 20 ∧
    (address = CBitcoinAddress.setHash160 P hash160
      ∨ address = CBitcoinAddress.setScriptHash160 P hash160)

theorem CBitcoinAddress.IsSet.ne_unset {address : CBase58Data} (h : IsSet P address) :
    address ≠ {} := by
  obtain ⟨hash160, hlen, rfl | rfl⟩ := h
  all_goals
    intro heq
    have hnil : hash160 = [] := congrArg CBase58Data.vchData heq
    simp [hnil] at hlen

/-- What `ExtractAddress` finds is an address. -/
theorem isSet_of_extractAddress {scriptPubKey : CScript} {address : CBase58Data}
    (h : extractAddress P scriptPubKey = some address) : CBitcoinAddress.IsSet P address := by
  unfold extractAddress at h
  split at h
  · cases h
    exact ⟨_, P.hash160_length _, Or.inl rfl⟩
  · cases h
    exact ⟨_, length_uint160 _, Or.inl rfl⟩
  · cases h
    exact ⟨_, length_uint160 _, Or.inr rfl⟩
  · exact absurd h (by simp)

/-- The Peercoin address of a share address. -/
structure CPeercoinAddress.StandsFor (P : Params) (addrPeercoin address : CBase58Data) : Prop where
  valid : CPeercoinAddress.isValid P addrPeercoin = true
  share_valid : CBitcoinAddress.isValid P address = true
  hash160 : ∃ hash160, address.getHash160 = .ok hash160 ∧ addrPeercoin.getHash160 = .ok hash160
  kind : CPeercoinAddress.isScript P addrPeercoin = CBitcoinAddress.isScript P address

/-- The conversion of an address that is set. -/
theorem CPeercoinAddress.ofAddress_eq_ok {address : CBase58Data}
    (h : CBitcoinAddress.IsSet P address) : ∃ addrPeercoin,
      CPeercoinAddress.ofAddress P address = .ok addrPeercoin ∧
        CPeercoinAddress.StandsFor P addrPeercoin address := by
  obtain ⟨hash160, hlen, rfl | rfl⟩ := h
  · refine ⟨CPeercoinAddress.setHash160 P hash160, ?_, ?_, ?_, ⟨hash160, ?_, ?_⟩, ?_⟩
    all_goals
      cases hnet : P.fTestNet <;>
        simp [ofAddress, CBase58Data.getHash160, CBitcoinAddress.setHash160, setHash160,
          CBitcoinAddress.isScript, isScript, CBitcoinAddress.isValid, isValid,
          AddressClass.setHash160, AddressClass.isScript, AddressClass.isValid,
          CBitcoinAddress.versions, versions, hnet, hlen, bind, Except.bind, pure, Except.pure]
  · refine ⟨CPeercoinAddress.setScriptHash160 P hash160, ?_, ?_, ?_, ⟨hash160, ?_, ?_⟩, ?_⟩
    all_goals
      cases hnet : P.fTestNet <;>
        simp [ofAddress, CBase58Data.getHash160, CBitcoinAddress.setScriptHash160, setScriptHash160,
          CBitcoinAddress.isScript, isScript, CBitcoinAddress.isValid, isValid,
          AddressClass.setScriptHash160, AddressClass.isScript, AddressClass.isValid,
          CBitcoinAddress.versions, versions, hnet, hlen, bind, Except.bind, pure, Except.pure]

/-- A hash, a kind and the network determine the address. -/
theorem CPeercoinAddress.StandsFor.injective {addrPeercoin address address' : CBase58Data}
    (h : StandsFor P addrPeercoin address) (h' : StandsFor P addrPeercoin address')
    (hset : CBitcoinAddress.IsSet P address) (hset' : CBitcoinAddress.IsSet P address') :
    address = address' := by
  obtain ⟨v, hv, hp⟩ := h.hash160
  obtain ⟨v', hv', hp'⟩ := h'.hash160
  obtain rfl : v = v' := Except.ok.inj (hp.symm.trans hp')
  have hkind := h.kind.symm.trans h'.kind
  have hver := h.share_valid
  obtain ⟨w, hw, hset⟩ := hset
  obtain ⟨w', hw', hset'⟩ := hset'
  obtain rfl : w = v := by
    obtain rfl | rfl := hset <;>
      simpa [CBase58Data.getHash160, CBitcoinAddress.setHash160, CBitcoinAddress.setScriptHash160,
        AddressClass.setHash160, AddressClass.setScriptHash160, hw] using hv
  obtain rfl : w' = w := by
    obtain rfl | rfl := hset' <;>
      simpa [CBase58Data.getHash160, CBitcoinAddress.setHash160, CBitcoinAddress.setScriptHash160,
        AddressClass.setHash160, AddressClass.setScriptHash160, hw'] using hv'
  -- the two kinds are told apart by `IsScript`
  obtain rfl | rfl := hset <;> obtain rfl | rfl := hset'
  · rfl
  · cases hnet : P.fTestNet <;>
      simp [CBitcoinAddress.isScript, CBitcoinAddress.setHash160, CBitcoinAddress.setScriptHash160,
        AddressClass.setHash160, AddressClass.setScriptHash160, AddressClass.isScript,
        AddressClass.isValid, CBitcoinAddress.versions, hnet, hw] at hkind
  · cases hnet : P.fTestNet <;>
      simp [CBitcoinAddress.isScript, CBitcoinAddress.setHash160, CBitcoinAddress.setScriptHash160,
        AddressClass.setHash160, AddressClass.setScriptHash160, AddressClass.isScript,
        AddressClass.isValid, CBitcoinAddress.versions, hnet, hw] at hkind
  · rfl

end

end Peershares
