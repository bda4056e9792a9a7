import Mathlib.Data.Finset.Sort
import Peershares.Framework.OrderedMap
import Peershares.Model.Wire

/-!
# Alerts

`CUnsignedAlert` and `CAlert` of `main.h`, and `CAlert::ProcessAlert` of `main.cpp`.

`GetAdjustedTime` is called many times while an alert is processed, and may change in between: `now k` is what its
`k`-th call returns, and the store counts the calls. The public key, `Hash` and `SerializeHash` are in
`AlertCrypto`. What is printed is left out.
-/

open Framework

namespace Peershares

namespace StreamReader

/-- `Unserialize` of a `std::string`. -/
def string : StreamReader (List UInt8) := do
  let nSize ← compactSize
  if nSize = 0 then pure [] else read nSize

/-- `Unserialize` of a `std::set`. -/
def set {α : Type} [DecidableEq α] (unserialize : StreamReader α) : StreamReader (Finset α) := do
  let nSize ← compactSize
  let v ← elements unserialize nSize
  pure v.toFinset

end StreamReader

/-- `CUnsignedAlert`. -/
structure CUnsignedAlert where
  nVersion : Int
  nRelayUntil : Int
  nExpiration : Int
  nID : Int
  nCancel : Int
  setCancel : Finset Int
  nMinVer : Int
  nMaxVer : Int
  setSubVer : Finset (List UInt8)
  nPriority : Int
  strComment : List UInt8
  strStatusBar : List UInt8
  strReserved : List UInt8
deriving DecidableEq

/-- `CUnsignedAlert::Unserialize`. -/
def CUnsignedAlert.unserialize : StreamReader CUnsignedAlert := do
  let nVersion ← StreamReader.int 4
  let nRelayUntil ← StreamReader.int 8
  let nExpiration ← StreamReader.int 8
  let nID ← StreamReader.int 4
  let nCancel ← StreamReader.int 4
  let setCancel ← StreamReader.set (StreamReader.int 4)
  let nMinVer ← StreamReader.int 4
  let nMaxVer ← StreamReader.int 4
  let setSubVer ← StreamReader.set StreamReader.string
  let nPriority ← StreamReader.int 4
  let strComment ← StreamReader.string
  let strStatusBar ← StreamReader.string
  let strReserved ← StreamReader.string
  pure { nVersion, nRelayUntil, nExpiration, nID, nCancel, setCancel, nMinVer, nMaxVer, setSubVer, nPriority,
         strComment, strStatusBar, strReserved }

/-- `CAlert`. -/
structure CAlert extends CUnsignedAlert where
  vchMsg : List UInt8
  vchSig : List UInt8
deriving DecidableEq

/-- The key that alerts are signed with, and the hashes. -/
structure AlertCrypto where
  /-- `key.Verify(Hash(vchMsg.begin(), vchMsg.end()), vchSig)`. -/
  verify : List UInt8 → List UInt8 → Bool
  serializeHash : List UInt8 → Nat

namespace CAlert

variable (K : AlertCrypto)

def getHash (alert : CAlert) : Nat := K.serializeHash (string.enc alert.vchMsg ++ string.enc alert.vchSig)

/-- `CheckSignature`: the fields are read from the signed message. `none` when it returns `false`. -/
def checkSignature (alert : CAlert) : Result (Option CAlert) :=
  if K.verify alert.vchMsg alert.vchSig then do
    let (fields, _) ← CUnsignedAlert.unserialize { vch := alert.vchMsg }
    pure (some { alert with toCUnsignedAlert := fields })
  else pure none

def isInEffect (alert : CAlert) (nNow : Int) : Bool := nNow < alert.nExpiration

/-- `Cancels`. -/
def cancels (self : CAlert) (nNow : Int) (alert : CAlert) : Bool :=
  if !self.isInEffect nNow then false else alert.nID ≤ self.nCancel || alert.nID ∈ self.setCancel

end CAlert

/-- `mapAlerts`, and how often the time has been read. -/
structure AlertStore where
  mapAlerts : OrderedMap Nat CAlert := .empty
  nReads : Nat := 0

namespace CAlert

variable (K : AlertCrypto) (now : Nat → Int)

/-- The body of the loop that cancels previous alerts, at one entry. -/
def cancelStep (self : CAlert) (s : AlertStore) (item : Nat × CAlert) : AlertStore :=
  if self.cancels (now s.nReads) item.2 then
    { mapAlerts := s.mapAlerts.erase item.1, nReads := s.nReads + 1 }
  else if !item.2.isInEffect (now (s.nReads + 1)) then
    { mapAlerts := s.mapAlerts.erase item.1, nReads := s.nReads + 2 }
  else { s with nReads := s.nReads + 2 }

/-- The loop that checks if this alert has been cancelled; it ends at the first that cancels it. -/
def isCancelled (self : CAlert) : Nat → List (Nat × CAlert) → Bool × Nat
  | nReads, [] => (false, nReads)
  | nReads, item :: items =>
    if item.2.cancels (now nReads) self then (true, nReads + 1) else self.isCancelled (nReads + 1) items

/-- `ProcessAlert`. -/
def processAlert (alert : CAlert) (s : AlertStore) : Result (Bool × AlertStore) := do
  match ← alert.checkSignature K with
  | none => pure (false, s)
  | some self =>
    if !self.isInEffect (now s.nReads) then pure (false, { s with nReads := s.nReads + 1 })
    else
      let s := s.mapAlerts.entries.foldl (self.cancelStep now) { s with nReads := s.nReads + 1 }
      match self.isCancelled now s.nReads s.mapAlerts.entries with
      | (true, nReads) => pure (false, { s with nReads })
      | (false, nReads) =>
        -- `insert` leaves an entry that is there; `AppliesToMe` reads the time once more
        let mapAlerts := if (s.mapAlerts.lookup (self.getHash K)).isSome then s.mapAlerts
          else s.mapAlerts.put (self.getHash K) self
        pure (true, { mapAlerts, nReads := nReads + 1 })

/-- The store after a row of calls; an exception leaves it as it was. -/
def processAlerts (calls : List CAlert) : AlertStore :=
  calls.foldl (fun s alert =>
    match alert.processAlert K now s with
    | .ok (_, s') => s'
    | .error _ => s) {}

end CAlert

end Peershares
