import Mathlib.Data.Finset.Max
import Mathlib.Data.Finset.Sort
import Peershares.Framework.Assoc
import Peershares.Framework.Command
import Peershares.Framework.OrderedMap
import Peershares.Model.Basic

/-!
# The key pool

A wallet makes keys in advance. `setKeyPool` has the indices of the keys that are free, and the wallet
file has a record for each index that was issued. A `CReserveKey` takes the smallest index out of the
set, and either keeps the key or returns its index.

The wallet file and the making of keys are outside the program: `KeyEnv` has the answers they give in
one call. An index is an `int64` that grows by one for each key; it is an integer here.

`GetKeyFromPool` and `GetOldestKeyPoolTime` are a reservation by a local holder and a `KeepKey` or a
`ReturnKey` after it, and are not listed apart.
-/

open Framework

namespace Peershares

/-- `CKeyPool`: a record of the pool. -/
structure CKeyPool where
  nTime : Int
  vchPubKey : List UInt8
deriving DecidableEq, Repr

/-- The part of `CWallet` that has to do with the key pool. -/
structure KeyWallet where
  /-- The public keys of the keys in the key store. -/
  vchKeys : List (List UInt8) := []
  vchDefaultKey : List UInt8 := []
  fFileBacked : Bool := true
  /-- `IsLocked()`. -/
  fLocked : Bool := false
  setKeyPool : Finset Int := ∅
  /-- The records `("pool", nIndex)` of the wallet file. -/
  pool : Map Int CKeyPool := ∅

/-- What a call meets: the clock, the keys that are made in it, and the answers of the key store and of
the wallet file. -/
structure KeyEnv where
  nTime : Int
  /-- The `i`-th key that `MakeNewKey` makes in the call. -/
  makeNewKey : Nat → List UInt8
  /-- Does the key store take the `i`-th key? -/
  storeKey : Nat → Bool
  /-- Is the `i`-th key written to the wallet file? -/
  writeKey : Nat → Bool
  /-- Is the record of the `i`-th key written? -/
  writePool : Nat → Bool
  /-- Can a record that is there be read? -/
  readPool : Bool
  /-- Is the record at the index erased? -/
  erasePool : Int → Bool

namespace KeyWallet

/-- `HaveKey(Hash160(vchPubKey))`. -/
def haveKey (P : Params) (w : KeyWallet) (vchPubKey : List UInt8) : Bool :=
  w.vchKeys.any (fun key => P.hash160 key = P.hash160 vchPubKey)

/-- `GenerateNewKey`. The key stays in the key store when it cannot be written. -/
def generateNewKey (env : KeyEnv) (i : Nat) : Command KeyWallet Failure (List UInt8) := fun w =>
  if env.storeKey i then
    let w := { w with vchKeys := env.makeNewKey i :: w.vchKeys }
    if env.writeKey i then (.ok (env.makeNewKey i), w)
    else (.error (.exception "CWallet::GenerateNewKey() : AddKey failed"), w)
  else (.error (.exception "CWallet::GenerateNewKey() : AddKey failed"), w)

/-- `WritePool`. -/
def writePool (env : KeyEnv) (i : Nat) (nIndex : Int) (keypool : CKeyPool) :
    Command KeyWallet Failure Bool := fun w =>
  if env.writePool i then (.ok true, { w with pool := w.pool.insert nIndex keypool })
  else (.ok false, w)

/-- `ErasePool`, whose answer nobody reads. -/
def erasePool (env : KeyEnv) (w : KeyWallet) (nIndex : Int) : KeyWallet :=
  if env.erasePool nIndex then { w with pool := w.pool.erase nIndex } else w

/-- `setKeyPool.insert(nIndex)`. -/
def insertIndex (nIndex : Int) (w : KeyWallet) : KeyWallet :=
  { w with setKeyPool := insert nIndex w.setKeyPool }

/-! ### New keys -/

/-- The loop of `NewKeyPool`, with the index from `i + 1` on. The answer of `WritePool` is not looked
at. -/
def newKeys (env : KeyEnv) : Nat → Nat → Command KeyWallet Failure Unit
  | 0, _ => pure ()
  | nKeys + 1, i => do
    let key ← generateNewKey env i
    let _ ← writePool env i (i + 1) ⟨env.nTime, key⟩
    Command.modify (insertIndex (i + 1))
    newKeys env nKeys (i + 1)

/-- The first part of `NewKeyPool`: the free keys are taken for used. -/
def clearPool (env : KeyEnv) (w : KeyWallet) : KeyWallet :=
  { w.setKeyPool.sort.foldl (erasePool env) w with setKeyPool := ∅ }

/-- `NewKeyPool`, with `-keypool`. -/
def newKeyPool (nKeypool : Int) (env : KeyEnv) : Command KeyWallet Failure Bool := do
  Command.modify (clearPool env)
  let w ← Command.get
  if w.fLocked then pure false
  else do
    newKeys env (max nKeypool 0).toNat 0
    pure true

/-- The number of keys that `TopUpKeyPool` fills up to: an `unsigned int`, and one more. -/
def targetSize (nKeypool : Int) : Nat := ((max nKeypool 0).toNat % 2 ^ 32 + 1) % 2 ^ 32

/-- `nEnd`: the index that `TopUpKeyPool` issues next. -/
def nEnd (w : KeyWallet) : Int :=
  if h : w.setKeyPool.Nonempty then w.setKeyPool.max' h + 1 else 1

/-- The loop of `TopUpKeyPool`, for a number of rounds. -/
def topUpLoop (nTarget : Nat) (env : KeyEnv) : Nat → Nat → Command KeyWallet Failure Unit
  | 0, _ => pure ()
  | nRounds + 1, i => do
    let w ← Command.get
    if w.setKeyPool.card < nTarget then do
      let key ← generateNewKey env i
      let fWritten ← writePool env i w.nEnd ⟨env.nTime, key⟩
      Command.lift (if fWritten then .ok ()
        else .error (.exception "TopUpKeyPool() : writing generated key failed"))
      Command.modify (insertIndex w.nEnd)
      topUpLoop nTarget env nRounds (i + 1)
    else pure ()

/-- The keys that `TopUpKeyPool` is to make. -/
def missingKeys (nKeypool : Int) (w : KeyWallet) : Nat := targetSize nKeypool - w.setKeyPool.card

/-- `TopUpKeyPool`. The set has one element more after each round, so there is a round for each key
that is missing. -/
def topUpKeyPool (nKeypool : Int) (env : KeyEnv) : Command KeyWallet Failure Bool := do
  let w ← Command.get
  if w.fLocked then pure false
  else do
    topUpLoop (targetSize nKeypool) env (w.missingKeys nKeypool) 0
    pure true

end KeyWallet

/-! ### Reservations -/

/-- `CReserveKey`. -/
structure CReserveKey where
  nIndex : Int := -1
  vchPubKey : List UInt8 := []
deriving DecidableEq, Repr

/-- The part of `ReserveKeyFromKeyPool` after the top-up. The index goes to `nIndex` at once, so it is
there also when the call throws. -/
def takeOldestKey (P : Params) (env : KeyEnv) : Command (KeyWallet × Int) Failure CKeyPool :=
  fun (w, _) =>
    if h : w.setKeyPool.Nonempty then
      let nIndex := w.setKeyPool.min' h
      let w := { w with setKeyPool := w.setKeyPool.erase nIndex }
      match if env.readPool then w.pool.lookup nIndex else none with
      | none =>
        (.error (.exception "ReserveKeyFromKeyPool() : read failed"), (w, nIndex))
      | some keypool =>
        if !w.haveKey P keypool.vchPubKey then
          (.error (.exception "ReserveKeyFromKeyPool() : unknown key in key pool"), (w, nIndex))
        else if keypool.vchPubKey.isEmpty then (.error .assertion, (w, nIndex))
        else (.ok keypool, (w, nIndex))
    else (.ok ⟨env.nTime, []⟩, (w, -1))

/-- `ReserveKeyFromKeyPool(nIndex, keypool)`, with the place for `nIndex` as a part of the state. -/
def reserveKeyFromKeyPool (P : Params) (nKeypool : Int) (env : KeyEnv) :
    Command (KeyWallet × Int) Failure CKeyPool := do
  Command.modify (fun (w, _) => (w, -1))
  let (w, _) ← Command.get
  if !w.fLocked then
    let _ ← Command.onPart Prod.fst (fun s w => (w, s.2)) (fun _ => KeyWallet.topUpKeyPool nKeypool env)
    takeOldestKey P env
  else takeOldestKey P env

/-- Which holder a key went to or came from. -/
inductive KeyEvent (ι : Type) where
  /-- The holder got the key, from the pool or as the default key. -/
  | handed (c : ι) (vchPubKey : List UInt8)
  /-- The holder gave the key back. -/
  | returned (c : ι) (vchPubKey : List UInt8)
deriving DecidableEq, Repr

/-- A wallet and its holders, with what happened so far, the last first. The history is for the
statements only: no call reads it. -/
structure KeyPoolState (ι : Type) where
  wallet : KeyWallet
  holder : ι → CReserveKey := fun _ => {}
  history : List (KeyEvent ι) := []

namespace KeyPoolState

variable {ι : Type} [DecidableEq ι]

def setHolder (s : KeyPoolState ι) (c : ι) (key : CReserveKey) : KeyPoolState ι :=
  { s with holder := Function.update s.holder c key }

/-- The holder falls back on the default key: it gets this key, unless it has it already. Without a
default key the call ends in an assertion, and nothing is handed out. -/
def handDefault (c : ι) (s : KeyPoolState ι) : KeyPoolState ι :=
  { s with
    history :=
      if s.wallet.vchDefaultKey = [] ∨ (s.holder c).vchPubKey = s.wallet.vchDefaultKey then s.history
      else .handed c s.wallet.vchDefaultKey :: s.history }.setHolder c ⟨-1, s.wallet.vchDefaultKey⟩

/-- `CReserveKey::GetReservedKey`. A key from the pool is a new one for the holder; without one, the
holder has the default key and no index. -/
def getReservedKey (P : Params) (nKeypool : Int) (env : KeyEnv) (c : ι) (s : KeyPoolState ι) :
    KeyPoolState ι :=
  if (s.holder c).nIndex ≠ -1 then s
  else
    match reserveKeyFromKeyPool P nKeypool env (s.wallet, (s.holder c).nIndex) with
    | (.error _, (w, nIndex)) => { s with wallet := w }.setHolder c { s.holder c with nIndex }
    | (.ok keypool, (w, nIndex)) =>
      if nIndex ≠ -1 then
        { s with
          wallet := w
          history := .handed c keypool.vchPubKey :: s.history }.setHolder c ⟨nIndex, keypool.vchPubKey⟩
      else { s with wallet := w }.handDefault c

/-- `CReserveKey::KeepKey`. -/
def keepKey (env : KeyEnv) (c : ι) (s : KeyPoolState ι) : KeyPoolState ι :=
  let nIndex := (s.holder c).nIndex
  let w := if nIndex ≠ -1 && s.wallet.fFileBacked then s.wallet.erasePool env nIndex else s.wallet
  { s with wallet := w }.setHolder c {}

/-- `CReserveKey::ReturnKey`, which the destructor calls too. A holder without an index has the default
key, or none. -/
def returnKey (c : ι) (s : KeyPoolState ι) : KeyPoolState ι :=
  if (s.holder c).nIndex ≠ -1 then
    { s with
      wallet := s.wallet.insertIndex (s.holder c).nIndex
      history := .returned c (s.holder c).vchPubKey :: s.history }.setHolder c {}
  else
    { s with
      history :=
        if (s.holder c).vchPubKey = [] then s.history
        else .returned c (s.holder c).vchPubKey :: s.history }.setHolder c {}

end KeyPoolState

/-- The calls. -/
inductive KeyAction (ι : Type) where
  | topUpKeyPool (env : KeyEnv)
  | newKeyPool (env : KeyEnv)
  | getReservedKey (env : KeyEnv) (c : ι)
  | keepKey (env : KeyEnv) (c : ι)
  | returnKey (c : ι)
  /-- The wallet is locked or unlocked. -/
  | setLocked (fLocked : Bool)

/-- The state after a call, whichever way the call ends. -/
def KeyPoolState.act {ι : Type} [DecidableEq ι] (P : Params) (nKeypool : Int) (s : KeyPoolState ι) :
    KeyAction ι → KeyPoolState ι
  | .topUpKeyPool env => { s with wallet := (KeyWallet.topUpKeyPool nKeypool env s.wallet).2 }
  | .newKeyPool env => { s with wallet := (KeyWallet.newKeyPool nKeypool env s.wallet).2 }
  | .getReservedKey env c => s.getReservedKey P nKeypool env c
  | .keepKey env c => s.keepKey env c
  | .returnKey c => s.returnKey c
  | .setLocked fLocked => { s with wallet := { s.wallet with fLocked } }

end Peershares
