import Mathlib.Data.Finset.Sort
import Peershares.Framework.Assoc
import Peershares.Framework.OrderedMap
import Peershares.Model.NetAddr

/-!
# The address manager

`CAddrInfo` and `CAddrMan` of `addrman.h` and `addrman.cpp`.

A function returns `none` when an `assert` of it fires. Random numbers are arguments (`rnd i` is what
`RAND_bytes` gives at the `i`-th call of `GetRandInt`), and so is the adjusted time. `hash64` is
`Hash(…).Get64()`. The floating-point numbers of `Select_` are left open: which table it takes and which
entry it is content with are arguments too.

Ids are `int`; the counter wraps around. `operator[]` of `mapInfo` adds an entry when there is none: reads do
not do that here, as each of them has an `assert` for the entry in front of it or a reference to it.
-/

open Framework

namespace Peershares

/-! ### Constants -/

def ADDRMAN_TRIED_BUCKET_COUNT : ℕ := 64
def ADDRMAN_TRIED_BUCKET_SIZE : ℕ := 64
def ADDRMAN_NEW_BUCKET_COUNT : ℕ := 256
def ADDRMAN_NEW_BUCKET_SIZE : ℕ := 64
def ADDRMAN_TRIED_BUCKETS_PER_GROUP : ℕ := 4
def ADDRMAN_NEW_BUCKETS_PER_SOURCE_GROUP : ℕ := 32
def ADDRMAN_NEW_BUCKETS_PER_ADDRESS : Int := 4
def ADDRMAN_TRIED_ENTRIES_INSPECT_ON_EVICT : ℕ := 4
def ADDRMAN_HORIZON_DAYS : Int64 := 30
def ADDRMAN_RETRIES : Int32 := 3
def ADDRMAN_MAX_FAILURES : Int32 := 10
def ADDRMAN_MIN_FAIL_DAYS : Int64 := 7
def ADDRMAN_GETADDR_MAX_PCT : ℕ := 23
def ADDRMAN_GETADDR_MAX : ℕ := 2500

/-- `GetRandInt(nMax)`, when the random bytes are `r`. -/
def getRandInt (r nMax : ℕ) : ℕ := if nMax = 0 then 0 else r % nMax

/-! ### Entries -/

/-- `CAddrInfo`. -/
structure CAddrInfo extends CAddress where
  source : CNetAddr
  nLastSuccess : Int64 := 0
  nAttempts : Int32 := 0
  /-- In how many new buckets it is; in memory only. -/
  nRefCount : Int := 0
  fInTried : Bool := false
  nRandomPos : Int := -1
deriving DecidableEq, Repr

namespace CAddrInfo

/-- `CAddrInfo()`. -/
def none : CAddrInfo where
  toCAddress := CAddress.none
  source := CNetAddr.none

/-- `CAddrInfo(addr, source)`; `Init` sets `nLastTry`. -/
def ofAddress (addr : CAddress) (source : CNetAddr) : CAddrInfo where
  toCAddress := { addr with nLastTry := 0 }
  source

/-- The time at which it was seen last. -/
def lastSeen (info : CAddrInfo) : Int64 := info.nTime.toUInt64.toInt64

section Buckets

variable (hash64 : List UInt8 → UInt64)

/-- `GetTriedBucket`. -/
def getTriedBucket (info : CAddrInfo) (nKey : List UInt8) : ℕ :=
  let hash1 := hash64 (string.enc nKey ++ string.enc info.getKey)
  let hash2 := hash64 (string.enc nKey ++ string.enc info.getGroup ++
    uint64.enc (hash1.toNat % ADDRMAN_TRIED_BUCKETS_PER_GROUP))
  hash2.toNat % ADDRMAN_TRIED_BUCKET_COUNT

/-- `GetNewBucket(nKey, src)`. -/
def getNewBucket (info : CAddrInfo) (nKey : List UInt8) (src : CNetAddr) : ℕ :=
  let hash1 := hash64 (string.enc nKey ++ string.enc info.getGroup ++ string.enc src.getGroup)
  let hash2 := hash64 (string.enc nKey ++ string.enc src.getGroup ++
    uint64.enc (hash1.toNat % ADDRMAN_NEW_BUCKETS_PER_SOURCE_GROUP))
  hash2.toNat % ADDRMAN_NEW_BUCKET_COUNT

end Buckets

/-- `IsTerrible`. -/
def isTerrible (info : CAddrInfo) (nNow : Int64) : Bool :=
  -- never remove things tried the last minute
  if info.nLastTry ≠ 0 ∧ nNow - 60 ≤ info.nLastTry then false
  else
    nNow + 10 * 60 < info.lastSeen || info.nTime = 0 ||
      ADDRMAN_HORIZON_DAYS * 86400 < nNow - info.lastSeen ||
      (info.nLastSuccess = 0 && ADDRMAN_RETRIES ≤ info.nAttempts) ||
      (ADDRMAN_MIN_FAIL_DAYS * 86400 < nNow - info.nLastSuccess && ADDRMAN_MAX_FAILURES ≤ info.nAttempts)

end CAddrInfo

/-! ### The tables -/

/-- `CAddrMan`. -/
structure CAddrMan where
  nKey : List UInt8
  nIdCount : Int := 0
  mapInfo : OrderedMap Int CAddrInfo := OrderedMap.empty
  mapAddr : Map CNetAddr Int := ∅
  vRandom : List Int := []
  nTried : Int := 0
  vvTried : List (List Int) := List.replicate ADDRMAN_TRIED_BUCKET_COUNT []
  nNew : Int := 0
  vvNew : List (Finset Int) := List.replicate ADDRMAN_NEW_BUCKET_COUNT ∅

namespace CAddrMan

/-- `mapInfo[nId]`. -/
def info (am : CAddrMan) (nId : Int) : CAddrInfo := (am.mapInfo.lookup nId).getD CAddrInfo.none

/-- `mapInfo.count(nId) == 1`. -/
def has (am : CAddrMan) (nId : Int) : Bool := (am.mapInfo.lookup nId).isSome

/-- Change an entry. -/
def setInfo (am : CAddrMan) (nId : Int) (info : CAddrInfo) : CAddrMan :=
  { am with mapInfo := am.mapInfo.put nId info }

/-- The new bucket `n`. -/
def newBucket (am : CAddrMan) (n : ℕ) : Finset Int := am.vvNew.getD n ∅

/-- The tried bucket `n`. -/
def triedBucket (am : CAddrMan) (n : ℕ) : List Int := am.vvTried.getD n []

/-- `Find`. -/
def find (am : CAddrMan) (addr : CNetAddr) : Option (Int × CAddrInfo) :=
  (am.mapAddr.lookup addr).bind fun nId => (am.mapInfo.lookup nId).map fun info => (nId, info)

/-- `Create`. -/
def create (am : CAddrMan) (addr : CAddress) (addrSource : CNetAddr) : CAddrMan × Int :=
  let nId := am.nIdCount
  let info := { CAddrInfo.ofAddress addr addrSource with nRandomPos := am.vRandom.length }
  ({ am with
      nIdCount := (am.nIdCount + 1).bmod (2 ^ 32)
      mapInfo := am.mapInfo.put nId info
      mapAddr := am.mapAddr.insert addr.toCNetAddr nId
      vRandom := am.vRandom ++ [nId] }, nId)

/-- `SwapRandom`. -/
def swapRandom (am : CAddrMan) (nRndPos1 nRndPos2 : Int) : Option CAddrMan :=
  if nRndPos1 = nRndPos2 then some am
  else do
    guard (0 ≤ nRndPos1 ∧ 0 ≤ nRndPos2)
    guard (nRndPos1 < am.vRandom.length ∧ nRndPos2 < am.vRandom.length)
    let nId1 := am.vRandom.getD nRndPos1.toNat 0
    let nId2 := am.vRandom.getD nRndPos2.toNat 0
    guard (am.has nId1)
    guard (am.has nId2)
    let am := am.setInfo nId1 { am.info nId1 with nRandomPos := nRndPos2 }
    let am := am.setInfo nId2 { am.info nId2 with nRandomPos := nRndPos1 }
    some { am with vRandom := (am.vRandom.set nRndPos1.toNat nId2).set nRndPos2.toNat nId1 }

/-! ### Tried buckets -/

/-- The variables of the loop of `SelectTried`. -/
structure TriedScan where
  vTried : List Int
  nOldest : Int := -1
  nOldestPos : Int := -1

/-- The body of the loop of `SelectTried`. -/
def selectTriedStep (am : CAddrMan) (rnd : ℕ → ℕ) (scan : TriedScan) (i : ℕ) : Option TriedScan := do
  let nPos := getRandInt (rnd i) (scan.vTried.length - i) + i
  let nTemp := scan.vTried.getD nPos 0
  let vTried := (scan.vTried.set nPos (scan.vTried.getD i 0)).set i nTemp
  guard (scan.nOldest = -1 ∨ am.has nTemp)
  if scan.nOldest = -1 ∨ (am.info nTemp).nLastSuccess < (am.info scan.nOldest).nLastSuccess then
    some { vTried, nOldest := nTemp, nOldestPos := nPos }
  else some { scan with vTried }

/-- `SelectTried`. -/
def selectTried (am : CAddrMan) (nKBucket : ℕ) (rnd : ℕ → ℕ) : Option (CAddrMan × Int) := do
  let vTried := am.triedBucket nKBucket
  let scan ← (List.range (min ADDRMAN_TRIED_ENTRIES_INSPECT_ON_EVICT vTried.length)).foldlM
    (am.selectTriedStep rnd) { vTried }
  some ({ am with vvTried := am.vvTried.set nKBucket scan.vTried }, scan.nOldestPos)

/-! ### New buckets -/

/-- Take an entry that is in no new bucket any more out of the tables. -/
def removeInfo (am : CAddrMan) (nId : Int) : Option CAddrMan := do
  let am ← am.swapRandom (am.info nId).nRandomPos (am.vRandom.length - 1)
  some { am with
    vRandom := am.vRandom.dropLast
    mapAddr := am.mapAddr.erase (am.info nId).toCNetAddr
    mapInfo := am.mapInfo.erase nId
    nNew := am.nNew - 1 }

/-- Take an entry out of a new bucket, and out of the tables if it was the last one. -/
def dropNew (am : CAddrMan) (nUBucket : ℕ) (nId : Int) : Option CAddrMan := do
  let info := { am.info nId with nRefCount := (am.info nId).nRefCount - 1 }
  let am := am.setInfo nId info
  let am ← if info.nRefCount = 0 then am.removeInfo nId else some am
  some { am with vvNew := am.vvNew.set nUBucket ((am.newBucket nUBucket).erase nId) }

/-- The first loop of `ShrinkNew`: an entry that can be deleted. -/
def firstTerrible (am : CAddrMan) (nNow : Int → Int64) : List Int → Option (Option Int)
  | [] => some none
  | nId :: vNew => do
    guard (am.has nId)
    if (am.info nId).isTerrible (nNow nId) then some (some nId) else am.firstTerrible nNow vNew

/-- The body of the second loop of `ShrinkNew`, at the positions that were drawn. -/
def oldestStep (am : CAddrMan) (nOldest nId : Int) : Option Int := do
  guard (nOldest = -1 ∨ am.has nId)
  if nOldest = -1 ∨ (am.info nId).nTime < (am.info nOldest).nTime then some nId else some nOldest

/-- The second loop of `ShrinkNew`: the oldest of four entries. -/
def oldestOf (am : CAddrMan) (vNew : List Int) (rnd : ℕ → ℕ) : Option Int :=
  let n := (List.range 4).map fun i => getRandInt (rnd i) vNew.length
  ((vNew.zipIdx.filter fun p => p.2 ∈ n).map Prod.fst).foldlM am.oldestStep (-1)

/-- `ShrinkNew`; the time is read for each entry. -/
def shrinkNew (am : CAddrMan) (nUBucket : ℕ) (nNow : Int → Int64) (rnd : ℕ → ℕ) :
    Option (CAddrMan × Int) := do
  guard (nUBucket < am.vvNew.length)
  let vNew := (am.newBucket nUBucket).sort
  match ← am.firstTerrible nNow vNew with
  | some nId => (am.dropNew nUBucket nId).map (·, 0)
  | none => do
    let nOldest ← am.oldestOf vNew rnd
    guard (am.has nOldest)
    (am.dropNew nUBucket nOldest).map (·, 1)

/-! ### Moving an entry to the tried buckets -/

section Calls

variable (hash64 : List UInt8 → UInt64)

/-- The end of `MakeTried`, when the tried bucket is full: the entry at `nPos` goes back to a new bucket, and
`nId` takes its place. -/
def evictTried (am : CAddrMan) (nId : Int) (nOrigin nKBucket nPos : ℕ) : Option CAddrMan := do
  let nOld := (am.triedBucket nKBucket).getD nPos 0
  guard (am.has nOld)
  let nUBucket := (am.info nOld).getNewBucket hash64 am.nKey (am.info nOld).source
  let am := am.setInfo nOld { am.info nOld with fInTried := false, nRefCount := 1 }
  let nBucket := if (am.newBucket nUBucket).card < ADDRMAN_NEW_BUCKET_SIZE then nUBucket else nOrigin
  let am := { am with
    vvNew := am.vvNew.set nBucket (insert nOld (am.newBucket nBucket))
    nNew := am.nNew + 1
    vvTried := am.vvTried.set nKBucket ((am.triedBucket nKBucket).set nPos nId) }
  some (am.setInfo nId { am.info nId with fInTried := true })

/-- The start of `MakeTried`: take the entry out of all new buckets. -/
def leaveNew (am : CAddrMan) (nId : Int) : CAddrMan :=
  let info := am.info nId
  { am.setInfo nId { info with nRefCount := info.nRefCount - am.vvNew.countP (nId ∈ ·) } with
    vvNew := am.vvNew.map (·.erase nId)
    nNew := am.nNew - 1 }

/-- `MakeTried`. -/
def makeTried (am : CAddrMan) (nId : Int) (nOrigin : ℕ) (rnd : ℕ → ℕ) : Option CAddrMan := do
  guard (nId ∈ am.newBucket nOrigin)
  let am := am.leaveNew nId
  guard ((am.info nId).nRefCount = 0)
  let nKBucket := (am.info nId).getTriedBucket hash64 am.nKey
  let vTried := am.triedBucket nKBucket
  if vTried.length < ADDRMAN_TRIED_BUCKET_SIZE then
    let am := { am with
      vvTried := am.vvTried.set nKBucket (vTried ++ [nId])
      nTried := am.nTried + 1 }
    some (am.setInfo nId { am.info nId with fInTried := true })
  else do
    let (am, nPos) ← am.selectTried nKBucket rnd
    am.evictTried hash64 nId nOrigin nKBucket nPos.toNat

/-! ### The calls -/

/-- The entry with this address and port. -/
def findService (am : CAddrMan) (addr : CService) : Option (Int × CAddrInfo) :=
  (am.find addr.toCNetAddr).filter fun p => p.2.toCService = addr

/-- The loop of `Good_`: a bucket with the entry, from a random one on. -/
def bucketOf (am : CAddrMan) (nId : Int) (nRnd : ℕ) : Option ℕ :=
  ((List.range am.vvNew.length).map fun n => (n + nRnd) % am.vvNew.length).find? (nId ∈ am.newBucket ·)

/-- `Good_`. -/
def good (am : CAddrMan) (addr : CService) (nTime : Int64) (rnd : ℕ → ℕ) : Option CAddrMan :=
  match am.findService addr with
  | none => some am
  | some (nId, info) =>
    let am := am.setInfo nId { info with
      nLastSuccess := nTime
      nLastTry := nTime
      nTime := nTime.toUInt64.toUInt32
      nAttempts := 0 }
    if info.fInTried then some am
    else
      match am.bucketOf nId (getRandInt (rnd 0) am.vvNew.length) with
      | none => some am
      | some nUBucket => am.makeTried hash64 nId nUBucket fun i => rnd (i + 1)

/-- `max((int64)0, nTime - nTimePenalty)`, as an `unsigned int`. -/
def penalized (nTime : UInt32) (nTimePenalty : Int64) : UInt32 :=
  (max 0 (nTime.toUInt64.toInt64 - nTimePenalty)).toUInt64.toUInt32

/-- `Add_` for an address that is there: its time and its services. -/
def refresh (info : CAddrInfo) (addr : CAddress) (nTimePenalty nNow : Int64) : CAddrInfo :=
  let nTime := addr.nTime.toUInt64.toInt64
  let fCurrentlyOnline := nNow - nTime < 24 * 60 * 60
  let nUpdateInterval : Int64 := if fCurrentlyOnline then 60 * 60 else 24 * 60 * 60
  { info with
    nTime :=
      if addr.nTime ≠ 0 ∧ (info.nTime = 0 ∨ info.lastSeen < nTime - nUpdateInterval - nTimePenalty) then
        penalized addr.nTime nTimePenalty
      else info.nTime
    nServices := info.nServices ||| addr.nServices }

/-- `Add_` goes on with an address that is there only if it is news, not tried, not in too many buckets, and
a coin is thrown right. -/
def worthAdding (info : CAddrInfo) (addr : CAddress) (r : ℕ) : Bool :=
  !(addr.nTime = 0 ∨ (info.nTime ≠ 0 ∧ addr.nTime ≤ info.nTime)) && !info.fInTried &&
    info.nRefCount ≠ ADDRMAN_NEW_BUCKETS_PER_ADDRESS &&
    (2 ^ info.nRefCount.toNat ≤ 1 || getRandInt r (2 ^ info.nRefCount.toNat) = 0)

/-- The end of `Add_`: put the entry into the bucket of its source. -/
def enterNew (am : CAddrMan) (nId : Int) (source : CNetAddr) (nNow : Int → Int64) (rnd : ℕ → ℕ) :
    Option CAddrMan :=
  let nUBucket := (am.info nId).getNewBucket hash64 am.nKey source
  if nId ∈ am.newBucket nUBucket then some am
  else do
    let am := am.setInfo nId { am.info nId with nRefCount := (am.info nId).nRefCount + 1 }
    let am ← if (am.newBucket nUBucket).card = ADDRMAN_NEW_BUCKET_SIZE then
        (am.shrinkNew nUBucket nNow rnd).map Prod.fst
      else some am
    some { am with vvNew := am.vvNew.set nUBucket (insert nId (am.newBucket nUBucket)) }

/-- `Add_`; `nNow` are the values of `GetAdjustedTime()`. -/
def add (am : CAddrMan) (addr : CAddress) (source : CNetAddr) (nTimePenalty nNow₀ : Int64)
    (nNow : Int → Int64) (rnd : ℕ → ℕ) : Option (CAddrMan × Bool) :=
  if !addr.isRoutable then some (am, false)
  else
    match am.find addr.toCNetAddr with
    | some (nId, info) =>
      let info := refresh info addr nTimePenalty nNow₀
      let am := am.setInfo nId info
      if worthAdding info addr (rnd 0) then
        (am.enterNew hash64 nId source nNow fun i => rnd (i + 1)).map (·, false)
      else some (am, false)
    | none =>
      let (am, nId) := am.create addr source
      let am := am.setInfo nId { am.info nId with nTime := penalized addr.nTime nTimePenalty }
      ({ am with nNew := am.nNew + 1 }.enterNew hash64 nId source nNow fun i => rnd (i + 1)).map (·, true)

end Calls

/-- `Attempt_`. -/
def attempt (am : CAddrMan) (addr : CService) (nTime : Int64) : CAddrMan :=
  match am.findService addr with
  | none => am
  | some (nId, info) => am.setInfo nId { info with nLastTry := nTime, nAttempts := info.nAttempts + 1 }

/-- `Connected_`. -/
def connected (am : CAddrMan) (addr : CService) (nTime : Int64) : CAddrMan :=
  match am.findService addr with
  | none => am
  | some (nId, info) =>
    if 20 * 60 < nTime - info.lastSeen then
      am.setInfo nId { info with nTime := nTime.toUInt64.toUInt32 }
    else am

/-- A round of the loops of `Select_`: the random bucket, the random position, and whether the entry is
taken. -/
structure SelectRound where
  bucket : ℕ
  pos : ℕ
  fTaken : Bool

/-- The loops of `Select_` over the buckets; the result is `none` while no entry has been taken. -/
def selectFrom (am : CAddrMan) (vv : List (List Int)) : List SelectRound → Option (Option CAddress)
  | [] => some none
  | round :: rounds =>
    let v := vv.getD (getRandInt round.bucket vv.length) []
    if v = [] then am.selectFrom vv rounds
    else do
      let nId := v.getD (getRandInt round.pos v.length) 0
      guard (am.has nId)
      if round.fTaken then some (some (am.info nId).toCAddress) else am.selectFrom vv rounds

/-- `Select_`, up to the end of the given rounds. -/
def select (am : CAddrMan) (fTried : Bool) (rounds : List SelectRound) : Option (Option CAddress) :=
  if am.vRandom.length = 0 then some (some CAddress.none)
  else if fTried then am.selectFrom am.vvTried rounds
  else am.selectFrom (am.vvNew.map (·.sort)) rounds

/-- The body of the loop of `GetAddr_`. -/
def getAddrStep (rnd : ℕ → ℕ) (s : CAddrMan × List CAddress) (n : ℕ) : Option (CAddrMan × List CAddress) := do
  let nRndPos := getRandInt (rnd n) (s.1.vRandom.length - n) + n
  let am ← s.1.swapRandom n nRndPos
  let nId := am.vRandom.getD n 0
  guard (am.has nId)
  some (am, s.2 ++ [(am.info nId).toCAddress])

/-- `GetAddr_`. -/
def getAddr (am : CAddrMan) (rnd : ℕ → ℕ) : Option (CAddrMan × List CAddress) :=
  let nNodes := min (ADDRMAN_GETADDR_MAX_PCT * am.vRandom.length / 100) ADDRMAN_GETADDR_MAX
  (List.range nNodes).foldlM (getAddrStep rnd) (am, [])

/-! ### The consistency check -/

/-- The local variables of `Check_`, and `mapAddr`, which its `operator[]` may grow. -/
structure CheckState where
  mapAddr : Map CNetAddr Int
  setTried : Finset Int := ∅
  mapNew : Map Int Int := ∅

/-- `if (…) return code;`. -/
def expect (code : Int) (test : Bool) : Except Int Unit := if test then .ok () else .error code

/-- The body of the loop of `Check_` over the entries. -/
def checkInfo (am : CAddrMan) (c : CheckState) (p : Int × CAddrInfo) : Except Int CheckState := do
  let (n, info) := p
  let c ← if info.fInTried then do
      expect (-1) (info.nLastSuccess ≠ 0)
      expect (-2) (info.nRefCount = 0)
      pure { c with setTried := insert n c.setTried }
    else do
      expect (-3) (0 ≤ info.nRefCount ∧ info.nRefCount ≤ ADDRMAN_NEW_BUCKETS_PER_ADDRESS)
      expect (-4) (info.nRefCount ≠ 0)
      pure { c with mapNew := c.mapNew.insert n info.nRefCount }
  let nFound := (c.mapAddr.lookup info.toCNetAddr).getD 0
  expect (-5) (nFound = n)
  expect (-14) (0 ≤ info.nRandomPos ∧ info.nRandomPos < am.vRandom.length ∧
    am.vRandom.getD info.nRandomPos.toNat 0 = n)
  expect (-6) (0 ≤ info.nLastTry)
  expect (-8) (0 ≤ info.nLastSuccess)
  pure { c with mapAddr := c.mapAddr.insert info.toCNetAddr nFound }

/-- The loop of `Check_` over the tried buckets. -/
def checkTried (setTried : Finset Int) (nId : Int) : Except Int (Finset Int) := do
  expect (-11) (nId ∈ setTried)
  pure (setTried.erase nId)

/-- The loop of `Check_` over the new buckets. -/
def checkNew (mapNew : Map Int Int) (nId : Int) : Except Int (Map Int Int) :=
  match mapNew.lookup nId with
  | none => .error (-12)
  | some nRefCount =>
    if nRefCount - 1 = 0 then .ok (mapNew.erase nId) else .ok (mapNew.insert nId (nRefCount - 1))

/-- `Check_`, up to its last `return`. -/
def checkTables (am : CAddrMan) : Except Int Unit := do
  expect (-7) (am.vRandom.length = am.nTried + am.nNew)
  let c ← am.mapInfo.entries.foldlM am.checkInfo { mapAddr := am.mapAddr }
  expect (-9) (c.setTried.card = am.nTried)
  expect (-10) (c.mapNew.entries.length = am.nNew)
  let setTried ← am.vvTried.flatten.foldlM checkTried c.setTried
  let mapNew ← (am.vvNew.flatMap (·.sort)).foldlM checkNew c.mapNew
  expect (-13) (setTried = ∅)
  expect (-15) (mapNew.entries.length = 0)

/-- `Check_`: the number of the first test that fails, or zero. -/
def check (am : CAddrMan) : Int :=
  match am.checkTables with
  | .ok () => 0
  | .error code => code

end CAddrMan

end Peershares
