import Peershares.Model.AddrMan
import Peershares.Model.Wire

/-!
# The address manager on disk

`IMPLEMENT_SERIALIZE` of `CAddrInfo` and `CAddrMan`. The new entries come first, then the tried ones without
their bucket, then the new buckets as lists of indices into the new entries.

The reader ends with an exception at the end of the data.
-/

open Framework

namespace Peershares

def CADDR_TIME_VERSION : Int := 31402

/-! ### Entries -/

/-- `htons`, which is its own inverse. -/
def htons (port : UInt16) : UInt16 := UInt16.ofNat (port.toNat % 256 * 256 + port.toNat / 256)

theorem toNat_htons (port : UInt16) : (htons port).toNat = port.toNat % 256 * 256 + port.toNat / 256 := by
  have hlt : port.toNat < 65536 := port.toNat_lt
  unfold htons
  rw [UInt16.toNat_ofNat']
  exact Nat.mod_eq_of_lt (by omega)

theorem htons_htons (port : UInt16) : htons (htons port) = port := by
  have hlt : port.toNat < 65536 := port.toNat_lt
  refine UInt16.toNat_inj.mp ?_
  rw [toNat_htons, toNat_htons]
  omega

/-- The bytes of an address. -/
def netAddr : Codec CNetAddr where
  enc addr := addr.ip
  dec s :=
    if h : 16 ≤ s.length then .ok (⟨s.take 16, by simp [h]⟩, s.drop 16) else .error endOfData
  Fits _ := True
  dec_enc := by
    intro addr rest _
    have hlen : 16 ≤ (addr.ip ++ rest).length := by
      rw [List.length_append, addr.length_ip]
      omega
    rw [dif_pos hlen]
    obtain ⟨ip, hip⟩ := addr
    simp [← hip]

/-- `unsigned short`, in the order of the network. -/
def networkPort : Codec UInt16 :=
  (Codec.uint endOfData 2).map (fun n => htons (UInt16.ofNat n)) (fun port => (htons port).toNat) (fun _ => True)
    (fun port _ => (htons port).toNat_lt) (fun port _ => by rw [UInt16.ofNat_toNat, htons_htons])

/-- `unsigned int`. -/
def uint32 : Codec UInt32 :=
  (Codec.uint endOfData 4).map UInt32.ofNat UInt32.toNat (fun _ => True) (fun n _ => n.toNat_lt)
    (fun _ _ => UInt32.ofNat_toNat)

/-- `uint64`, as a machine word. -/
def word64 : Codec UInt64 :=
  uint64.map UInt64.ofNat UInt64.toNat (fun _ => True) (fun n _ => n.toNat_lt) (fun _ _ => UInt64.ofNat_toNat)

/-- `int64`, as a machine word. -/
def sword64 : Codec Int64 :=
  int64.map Int64.ofInt Int64.toInt (fun _ => True)
    (fun n _ => int64_fits.mpr ⟨n.le_toInt, n.toInt_lt⟩) (fun n _ => Int64.ofInt_toInt n)

/-- `int`, as a machine word. -/
def sword32 : Codec Int32 :=
  int32.map Int32.ofInt Int32.toInt (fun _ => True)
    (fun n _ => by
      have hle := n.le_toInt
      have hlt := n.toInt_lt
      show -(2 ^ (8 * 4) : ℤ) ≤ 2 * n.toInt ∧ 2 * n.toInt < 2 ^ (8 * 4)
      omega)
    (fun n _ => Int32.ofInt_toInt n)

namespace CAddrInfo

/-- Is `nVersion` written? -/
def writesVersion (nType : Nat) : Bool := nType &&& SER_DISK ≠ 0

/-- Is `nTime` written? -/
def writesTime (nType : Nat) (nVersion : Int) : Bool :=
  nType &&& SER_DISK ≠ 0 ∨ (CADDR_TIME_VERSION ≤ nVersion ∧ nType &&& SER_GETHASH = 0)

/-- What is left of an entry when it is read again. -/
def stored (nType : Nat) (nVersion : Int) (info : CAddrInfo) : CAddrInfo where
  toCService := info.toCService
  nServices := info.nServices
  nTime := if writesTime nType nVersion then info.nTime else 100000000
  source := info.source
  nLastSuccess := info.nLastSuccess
  nAttempts := info.nAttempts

/-- The fields of an entry in the order in which they are written. -/
def fields (nType : Nat) (nVersion : Int) :=
  (sword32.optional (writesVersion nType) (Int32.ofInt nVersion)).pair
    ((uint32.optional (writesTime nType nVersion) 100000000).pair
      (word64.pair (netAddr.pair (networkPort.pair (netAddr.pair (sword64.pair sword32))))))

/-- `CAddrInfo`; entries that were never written do not fit, as a part of them is in memory only. -/
def codec (nType : Nat) (nVersion : Int) : Codec CAddrInfo :=
  (fields nType nVersion).map
    (fun (_, nTime, nServices, addr, port, source, nLastSuccess, nAttempts) =>
      { toCNetAddr := addr, port, nServices, nTime, source, nLastSuccess, nAttempts })
    (fun info => (Int32.ofInt nVersion, info.nTime, info.nServices, info.toCNetAddr, info.port, info.source,
      info.nLastSuccess, info.nAttempts))
    (fun info => info.stored nType nVersion = info)
    (by
      intro info h
      have htime : info.nTime = if writesTime nType nVersion then info.nTime else 100000000 :=
        congrArg (fun info : CAddrInfo => info.nTime) h.symm
      refine ⟨?_, ?_, trivial, trivial, trivial, trivial, trivial, trivial⟩
      · change if writesVersion nType then True else Int32.ofInt nVersion = Int32.ofInt nVersion
        split_ifs
        trivial
      · change if writesTime nType nVersion then True else info.nTime = 100000000
        split_ifs at htime ⊢
        exact htime)
    (by
      intro info h
      rw [← h]
      rfl)

end CAddrInfo

/-! ### Writing -/

namespace CAddrMan

/-- The first loop of the writer: the new entries, and `mapUnkIds`. -/
def newLoop (nNew : Int) : List (Int × CAddrInfo) → Int → Map Int Int → List CAddrInfo × Map Int Int
  | [], _, mapUnkIds => ([], mapUnkIds)
  | (n, info) :: l, nIds, mapUnkIds =>
    -- this means nNew was wrong
    if nIds = nNew then ([], mapUnkIds)
    else if info.nRefCount ≠ 0 then
      let (written, mapUnkIds) := newLoop nNew l (nIds + 1) (mapUnkIds.insert n nIds)
      (info :: written, mapUnkIds)
    else newLoop nNew l nIds (mapUnkIds.insert n nIds)

/-- The second loop of the writer: the tried entries. -/
def triedLoop (nTried : Int) : List (Int × CAddrInfo) → Int → List CAddrInfo
  | [], _ => []
  | (_, info) :: l, nIds =>
    if nIds = nTried then []
    else if info.fInTried then info :: triedLoop nTried l (nIds + 1)
    else triedLoop nTried l nIds

/-- The third loop of the writer: the indices of a bucket. -/
def writeBucket (mapUnkIds : Map Int Int) (vNew : Finset Int) : List UInt8 :=
  int32.enc vNew.card ++ vNew.sort.flatMap fun n => int32.enc ((mapUnkIds.lookup n).getD 0)

/-- `Serialize`. The parameter `nVersion` is hidden by the version byte, with which the entries are written too. -/
def serialize (am : CAddrMan) (nType : Nat) (_nVersion : Int) : List UInt8 :=
  let nVersion : Nat := 0
  let (written, mapUnkIds) := newLoop am.nNew am.mapInfo.entries 0 ∅
  (Codec.uint endOfData 1).enc nVersion ++ string.enc am.nKey ++ int32.enc am.nNew ++ int32.enc am.nTried ++
    int32.enc ADDRMAN_NEW_BUCKET_COUNT ++ written.flatMap (CAddrInfo.codec nType nVersion).enc ++
    (triedLoop am.nTried am.mapInfo.entries 0).flatMap (CAddrInfo.codec nType nVersion).enc ++
    am.vvNew.flatMap (writeBucket mapUnkIds)

/-! ### Reading -/

section Reading

variable (hash64 : List UInt8 → UInt64)

/-- The body of the first loop of the reader, for the entry `n`. -/
def loadNew (nUBuckets : Int) (s : CAddrMan × Int) (info : CAddrInfo) : CAddrMan × Int :=
  let (am, n) := s
  let info := { info with nRandomPos := am.vRandom.length }
  let am := { am.setInfo n info with
    mapAddr := am.mapAddr.insert info.toCNetAddr n
    vRandom := am.vRandom ++ [n] }
  if nUBuckets ≠ ADDRMAN_NEW_BUCKET_COUNT then
    -- the number of buckets has changed
    let b := info.getNewBucket hash64 am.nKey info.source
    ({ am.setInfo n { info with nRefCount := info.nRefCount + 1 } with
      vvNew := am.vvNew.set b (insert n (am.newBucket b)) }, n + 1)
  else (am, n + 1)

/-- The body of the second loop of the reader; the number is `nLost`. -/
def loadTried (s : CAddrMan × Int) (info : CAddrInfo) : CAddrMan × Int :=
  let (am, nLost) := s
  let b := info.getTriedBucket hash64 am.nKey
  let vTried := am.triedBucket b
  if vTried.length < ADDRMAN_TRIED_BUCKET_SIZE then
    let n := am.nIdCount
    ({ am.setInfo n { info with nRandomPos := am.vRandom.length, fInTried := true } with
      vRandom := am.vRandom ++ [n]
      mapAddr := am.mapAddr.insert info.toCNetAddr n
      vvTried := am.vvTried.set b (vTried ++ [n])
      nIdCount := am.nIdCount + 1 }, nLost)
  else (am, nLost + 1)

/-- The body of the third loop of the reader, for the bucket `b`. -/
def loadIndex (nUBuckets : Int) (b : ℕ) (am : CAddrMan) (nIndex : Int) : CAddrMan :=
  let info := am.info nIndex
  if nUBuckets = ADDRMAN_NEW_BUCKET_COUNT ∧ info.nRefCount < ADDRMAN_NEW_BUCKETS_PER_ADDRESS then
    { am.setInfo nIndex { info with nRefCount := info.nRefCount + 1 } with
      vvNew := am.vvNew.set b (insert nIndex (am.newBucket b)) }
  else am.setInfo nIndex info

/-- The third loop of the reader. -/
def readBuckets (nUBuckets : Int) : ℕ → ℕ → CAddrMan → List UInt8 → Except String (CAddrMan × List UInt8)
  | 0, _, am, s => .ok (am, s)
  | k + 1, b, am, s => do
    let (nSize, s) ← int32.dec s
    let (am, s) ← int32.foldMany (loadIndex nUBuckets b) nSize.toNat am s
    readBuckets nUBuckets k (b + 1) am s

/-- `Unserialize`. The parameter `nVersion` is hidden by the version byte that is read. -/
def unserialize (nType : Nat) (_nVersion : Int) (s : List UInt8) : Except String (CAddrMan × List UInt8) := do
  let (nVersion, s) ← (Codec.uint endOfData 1).dec s
  let (nKey, s) ← string.dec s
  let (nNew, s) ← int32.dec s
  let (nTried, s) ← int32.dec s
  let (nUBuckets, s) ← int32.dec s
  let am : CAddrMan := { nKey, nNew, nTried }
  let ((am, _), s) ← (CAddrInfo.codec nType nVersion).foldMany (loadNew hash64 nUBuckets) nNew.toNat (am, 0) s
  let am := { am with nIdCount := nNew }
  let ((am, nLost), s) ← (CAddrInfo.codec nType nVersion).foldMany (loadTried hash64) nTried.toNat (am, 0) s
  let am := { am with nTried := am.nTried - nLost }
  readBuckets nUBuckets nUBuckets.toNat 0 am s

end Reading

end CAddrMan

end Peershares
