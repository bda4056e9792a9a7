import Peershares.Framework.Buckets
import Peershares.Model.AddrMan

/-!
# The tables of the address manager

An entry is in `mapInfo`, in `mapAddr`, at its place in `vRandom`, and in one tried bucket or in as many new
buckets as it counts. `Inv` says so for the states between two calls and, with an entry that is `Pending`,
for those inside of `Add_` and `Good_`: an entry that is added counts one bucket more than it is in, and an
entry that is moved to the tried buckets is in none for a moment.

The invariant has three parts that change independently of each other, so that a step has to look at one of them
only:

* `Indexed` — the maps and `vRandom` name the same entries, each at its place
* `Filed`, `Agrees` — each entry is in the buckets that it counts, and the totals are right
* `Sized`, `Timed` — the number and the sizes of the buckets, and the times

`SamePlaces` relates two states that differ in the buckets only, and `SameEntries` two that differ in `vRandom`
only. Either way the other parts come over as they are.

* `SamePlaces.inv`, `SameEntries.inv` — what a change of the buckets, and one of `vRandom`, has to keep
* `Indexed.swapRandom`, `Inv.dropNew`, `Inv.shrinkNew` — the steps that all calls share
-/

open Framework

namespace Peershares

namespace CAddrMan

/-! ### The invariant -/

/-- What is under way. -/
inductive Pending where
  | nothing
  /-- The entry will be put into one more new bucket. -/
  | adding (nId : ℤ)
  /-- The entry has left the new buckets, for a tried bucket. -/
  | moving (nId : ℤ)
deriving DecidableEq

/-- How many buckets the entry counts too many. -/
def Pending.due : Pending → ℤ → ℤ
  | .adding nId, n => if n = nId then 1 else 0
  | _, _ => 0

/-- How many entries no table counts. -/
def Pending.uncounted : Pending → ℤ
  | .moving _ => 1
  | _ => 0

/-- The maps and `vRandom` name each other. -/
structure Indexed (am : CAddrMan) : Prop where
  mapAddr : ∀ addr n, am.mapAddr.lookup addr = some n ↔
    ∃ info, am.mapInfo.lookup n = some info ∧ info.toCNetAddr = addr
  random : ∀ (i : ℕ) n, am.vRandom[i]? = some n →
    ∃ info, am.mapInfo.lookup n = some info ∧ info.nRandomPos = i
  position : ∀ n info, am.mapInfo.lookup n = some info →
    ∃ i : ℕ, info.nRandomPos = i ∧ am.vRandom[i]? = some n

/-- The entry is in the buckets that it says it is in. -/
inductive Filed (p : Pending) (am : CAddrMan) (n : ℤ) (info : CAddrInfo) : Prop
  | tried (hin : info.fInTried = true) (hdue : p.due n = 0) (hmoving : p ≠ .moving n)
      (hcount : info.nRefCount = 0) (hnew : occurrences am.vvNew n = 0) (htried : am.vvTried.flatten.count n = 1)
  | new (hin : info.fInTried = false) (hmoving : p ≠ .moving n)
      (hcount : info.nRefCount = occurrences am.vvNew n + p.due n) (hpos : 0 < info.nRefCount)
      (hmax : info.nRefCount ≤ ADDRMAN_NEW_BUCKETS_PER_ADDRESS) (htried : am.vvTried.flatten.count n = 0)
  | moving (hin : info.fInTried = false) (hmoving : p = .moving n) (hcount : info.nRefCount = 0)
      (hnew : occurrences am.vvNew n = 0) (htried : am.vvTried.flatten.count n = 0)

/-- The times that `Check_` looks at. -/
structure Timed (info : CAddrInfo) : Prop where
  tried : info.fInTried = true → info.nLastSuccess ≠ 0
  nLastTry : 0 ≤ info.nLastTry
  nLastSuccess : 0 ≤ info.nLastSuccess

/-- The buckets are as many as there should be, and none is too large. -/
structure Sized (am : CAddrMan) : Prop where
  length_vvNew : am.vvNew.length = ADDRMAN_NEW_BUCKET_COUNT
  length_vvTried : am.vvTried.length = ADDRMAN_TRIED_BUCKET_COUNT
  new : ∀ vNew ∈ am.vvNew, vNew.card ≤ ADDRMAN_NEW_BUCKET_SIZE
  tried : ∀ vTried ∈ am.vvTried, vTried.length ≤ ADDRMAN_TRIED_BUCKET_SIZE

/-- The tables agree. -/
structure Agrees (p : Pending) (am : CAddrMan) : Prop where
  indexed : am.Indexed
  filed : ∀ n info, am.mapInfo.lookup n = some info → Filed p am n info
  /-- What is in a bucket has an entry. -/
  absent : ∀ n, am.mapInfo.lookup n = none → occurrences am.vvNew n = 0 ∧ am.vvTried.flatten.count n = 0
  timed : ∀ n info, am.mapInfo.lookup n = some info → Timed info
  nTried : am.nTried = am.vvTried.flatten.length
  nNew : am.nTried + am.nNew + p.uncounted = am.vRandom.length

section Invariant

variable (hash64 : List UInt8 → UInt64)

/-- **The invariant**, with what keeps it up. -/
structure Inv (p : Pending) (am : CAddrMan) : Prop extends Agrees p am where
  sized : am.Sized
  /-- Ids are given out in order. -/
  ids : ∀ n info, am.mapInfo.lookup n = some info → 0 ≤ n ∧ n < am.nIdCount
  nIdCount : 0 ≤ am.nIdCount ∧ am.nIdCount < 2 ^ 31
  /-- A tried entry is in the bucket of its address. -/
  placed : ∀ b vTried n info, am.vvTried[b]? = some vTried → n ∈ vTried → am.mapInfo.lookup n = some info →
    info.getTriedBucket hash64 am.nKey = b

end Invariant

/-! ### Lookups -/

section Lookups

variable {am : CAddrMan} {nId n : ℤ} {info info' : CAddrInfo}

/-- The entries after one is written. -/
@[simp] theorem lookup_setInfo (am : CAddrMan) (nId n : ℤ) (info : CAddrInfo) :
    (am.setInfo nId info).mapInfo.lookup n = if n = nId then some info else am.mapInfo.lookup n :=
  OrderedMap.lookup_put am.mapInfo nId n info

/-- `mapInfo[nId]` of an entry that is there. -/
theorem info_eq (h : am.mapInfo.lookup nId = some info) : am.info nId = info := by
  unfold CAddrMan.info
  rw [h]
  rfl

/-- It is found. -/
theorem has_eq_true (h : am.mapInfo.lookup nId = some info) : am.has nId = true := by
  unfold has
  rw [h]
  rfl

/-- A bucket of the new table inside its bounds. -/
theorem newBucket_eq {b : ℕ} (h : b < am.vvNew.length) : am.vvNew[b]? = some (am.newBucket b) := by
  unfold newBucket
  rw [List.getD_eq_getElem?_getD, List.getElem?_eq_getElem h]
  rfl

/-- And one of the tried table. -/
theorem triedBucket_eq {b : ℕ} (h : b < am.vvTried.length) : am.vvTried[b]? = some (am.triedBucket b) := by
  unfold triedBucket
  rw [List.getD_eq_getElem?_getD, List.getElem?_eq_getElem h]
  rfl

/-- What `Find` returns is an entry. -/
theorem find_eq_some {addr : CNetAddr} (h : am.find addr = some (nId, info)) :
    am.mapInfo.lookup nId = some info := by
  unfold find at h
  rw [Option.bind_eq_some_iff] at h
  obtain ⟨m, -, hm⟩ := h
  rw [Option.map_eq_some_iff] at hm
  obtain ⟨info', hinfo, heq⟩ := hm
  cases heq
  exact hinfo

/-- And it is that of the address with its port. -/
theorem findService_eq_some {addr : CService} (h : am.findService addr = some (nId, info)) :
    am.mapInfo.lookup nId = some info ∧ info.toCService = addr := by
  unfold findService at h
  rw [Option.filter_eq_some_iff] at h
  exact ⟨find_eq_some h.1, by simpa using h.2⟩

/-- An address that is not found is new. -/
theorem Indexed.mapAddr_of_find {addr : CNetAddr} (h : am.Indexed) (hfind : am.find addr = none) :
    am.mapAddr.lookup addr = none := by
  cases hlookup : am.mapAddr.lookup addr with
  | none => rfl
  | some n =>
    obtain ⟨info, hinfo, -⟩ := (h.mapAddr addr n).mp hlookup
    unfold find at hfind
    rw [hlookup] at hfind
    simp [hinfo] at hfind

end Lookups

/-! ### What does not change -/

section Frames

variable {hash64 : List UInt8 → UInt64} {p p' : Pending} {am am' : CAddrMan} {nId n : ℤ} {info info' : CAddrInfo}

/-- Where an entry is filed depends on its flag, its count and the tables. -/
theorem Filed.congr (h : Filed p am n info) (hin : info'.fInTried = info.fInTried)
    (hcount : info'.nRefCount = info.nRefCount) (hnew : occurrences am'.vvNew n = occurrences am.vvNew n)
    (htried : am'.vvTried.flatten.count n = am.vvTried.flatten.count n) (hdue : p'.due n = p.due n)
    (hmoving : p' = .moving n ↔ p = .moving n) : Filed p' am' n info' := by
  cases h with
  | tried hin₀ hdue₀ hmoving₀ hcount₀ hnew₀ htried₀ =>
    exact .tried (hin.trans hin₀) (hdue.trans hdue₀) (fun heq => hmoving₀ (hmoving.mp heq))
      (hcount.trans hcount₀) (hnew.trans hnew₀) (htried.trans htried₀)
  | new hin₀ hmoving₀ hcount₀ hpos hmax htried₀ =>
    refine .new (hin.trans hin₀) (fun heq => hmoving₀ (hmoving.mp heq)) ?_ ?_ ?_ (htried.trans htried₀)
    · rw [hcount, hnew, hdue, hcount₀]
    · rwa [hcount]
    · rwa [hcount]
  | moving hin₀ hmoving₀ hcount₀ hnew₀ htried₀ =>
    exact .moving (hin.trans hin₀) (hmoving.mpr hmoving₀) (hcount.trans hcount₀) (hnew.trans hnew₀)
      (htried.trans htried₀)

/-- The sizes depend on the tables alone. -/
theorem Sized.congr (h : am.Sized) (hnew : am'.vvNew = am.vvNew) (htried : am'.vvTried = am.vvTried) :
    am'.Sized := by
  refine ⟨?_, ?_, ?_, ?_⟩
  · rw [hnew]
    exact h.length_vvNew
  · rw [htried]
    exact h.length_vvTried
  · rw [hnew]
    exact h.new
  · rw [htried]
    exact h.tried

/-- The bucket of the tried table depends on the address alone. -/
theorem getTriedBucket_congr (h : info'.toCService = info.toCService) (nKey : List UInt8) :
    info'.getTriedBucket hash64 nKey = info.getTriedBucket hash64 nKey := by
  unfold CAddrInfo.getTriedBucket
  rw [h]

/-- The entries have the addresses and the places that they had. -/
structure SamePlaces (am am' : CAddrMan) : Prop where
  nKey : am'.nKey = am.nKey
  nIdCount : am'.nIdCount = am.nIdCount
  mapAddr : am'.mapAddr = am.mapAddr
  vRandom : am'.vRandom = am.vRandom
  lookup : ∀ n, (am'.mapInfo.lookup n).map (fun info => (info.toCService, info.nRandomPos)) =
    (am.mapInfo.lookup n).map fun info => (info.toCService, info.nRandomPos)

namespace SamePlaces

/-- An entry of the one is an entry of the other. -/
theorem of_some (h : SamePlaces am am') (hinfo : am'.mapInfo.lookup n = some info') :
    ∃ info, am.mapInfo.lookup n = some info ∧ info'.toCService = info.toCService ∧
      info'.nRandomPos = info.nRandomPos := by
  have heq := h.lookup n
  rw [hinfo] at heq
  cases hold : am.mapInfo.lookup n with
  | none =>
    rw [hold] at heq
    exact absurd heq (by simp)
  | some info =>
    rw [hold] at heq
    simp only [Option.map_some, Option.some.injEq, Prod.mk.injEq] at heq
    exact ⟨info, rfl, heq⟩

/-- The places are the same both ways. -/
theorem symm (h : SamePlaces am am') : SamePlaces am' am :=
  ⟨h.nKey.symm, h.nIdCount.symm, h.mapAddr.symm, h.vRandom.symm, fun n => (h.lookup n).symm⟩

/-- And the other way round. -/
theorem to_some (h : SamePlaces am am') (hinfo : am.mapInfo.lookup n = some info) :
    ∃ info', am'.mapInfo.lookup n = some info' ∧ info'.toCService = info.toCService ∧
      info'.nRandomPos = info.nRandomPos := by
  obtain ⟨info', hinfo', hservice, hpos⟩ := h.symm.of_some hinfo
  exact ⟨info', hinfo', hservice.symm, hpos.symm⟩

/-- What is free in the one is free in the other. -/
theorem of_none (h : SamePlaces am am') (hinfo : am'.mapInfo.lookup n = none) :
    am.mapInfo.lookup n = none := by
  have heq := h.lookup n
  rw [hinfo] at heq
  simpa using heq.symm

/-- An entry is changed, but not its address and its place. -/
theorem setInfo (hlookup : am.mapInfo.lookup nId = some info) (hservice : info'.toCService = info.toCService)
    (hpos : info'.nRandomPos = info.nRandomPos) : SamePlaces am (am.setInfo nId info') := by
  refine ⟨rfl, rfl, rfl, rfl, ?_⟩
  intro n
  rw [lookup_setInfo]
  split_ifs with hn
  · rw [hn, hlookup, Option.map_some, Option.map_some, hservice, hpos]
  · rfl

/-- So `vRandom` and `mapAddr` still fit. -/
theorem indexed (h : SamePlaces am am') (hindexed : am.Indexed) : am'.Indexed := by
  refine ⟨?_, ?_, ?_⟩
  · intro addr n
    rw [h.mapAddr, hindexed.mapAddr addr n]
    constructor
    · rintro ⟨info, hinfo, haddr⟩
      obtain ⟨info', hinfo', hservice, -⟩ := h.to_some hinfo
      exact ⟨info', hinfo', by rw [hservice]; exact haddr⟩
    · rintro ⟨info', hinfo', haddr⟩
      obtain ⟨info, hinfo, hservice, -⟩ := h.of_some hinfo'
      exact ⟨info, hinfo, by rw [← hservice]; exact haddr⟩
  · intro i n hn
    rw [h.vRandom] at hn
    obtain ⟨info, hinfo, hpos⟩ := hindexed.random i n hn
    obtain ⟨info', hinfo', -, hpos'⟩ := h.to_some hinfo
    exact ⟨info', hinfo', hpos'.trans hpos⟩
  · intro n info' hinfo'
    obtain ⟨info, hinfo, -, hpos⟩ := h.of_some hinfo'
    obtain ⟨i, hi, hrandom⟩ := hindexed.position n info hinfo
    exact ⟨i, hpos.trans hi, by rw [h.vRandom]; exact hrandom⟩

/-- And the identifiers. -/
theorem ids (h : SamePlaces am am') (hids : ∀ n info, am.mapInfo.lookup n = some info → 0 ≤ n ∧ n < am.nIdCount) :
    ∀ n info, am'.mapInfo.lookup n = some info → 0 ≤ n ∧ n < am'.nIdCount := by
  intro n info' hinfo'
  obtain ⟨info, hinfo, -⟩ := h.of_some hinfo'
  rw [h.nIdCount]
  exact hids n info hinfo

end SamePlaces

/-- Entries and buckets are changed, but no address and no place. -/
theorem SamePlaces.inv (hsame : SamePlaces am am') (h : Inv hash64 p am)
    (hfiled : ∀ n info', am'.mapInfo.lookup n = some info' → Filed p' am' n info')
    (hothers : ∀ n, am.mapInfo.lookup n = none → occurrences am'.vvNew n = occurrences am.vvNew n ∧
      am'.vvTried.flatten.count n = am.vvTried.flatten.count n)
    (htimed : ∀ n info', am'.mapInfo.lookup n = some info' → Timed info') (hsized : am'.Sized)
    (hnTried : am'.nTried = am'.vvTried.flatten.length)
    (hnNew : am'.nTried + am'.nNew + p'.uncounted = am.nTried + am.nNew + p.uncounted)
    (hplaced : ∀ b vTried n info, am'.vvTried[b]? = some vTried → n ∈ vTried →
      am.mapInfo.lookup n = some info → info.getTriedBucket hash64 am.nKey = b) : Inv hash64 p' am' := by
  -- the places have not moved, so the index of the addresses stays
  refine ⟨⟨hsame.indexed h.indexed, hfiled, ?_, htimed, hnTried, ?_⟩, hsized, hsame.ids h.ids, ?_, ?_⟩
  · intro n hn
    have hold := hsame.of_none hn
    rw [(hothers n hold).1, (hothers n hold).2]
    exact h.absent n hold
  · rw [hnNew, hsame.vRandom]
    exact h.nNew
  · rw [hsame.nIdCount]
    exact h.nIdCount
  · intro b vTried n info' hb hn hinfo'
    obtain ⟨info, hinfo, hservice, -⟩ := hsame.of_some hinfo'
    rw [getTriedBucket_congr hservice, hsame.nKey]
    exact hplaced b vTried n info hb hn hinfo

/-- Change an entry, in the buckets where it is. -/
theorem Inv.setInfo (h : Inv hash64 p am) (hlookup : am.mapInfo.lookup nId = some info)
    (hservice : info'.toCService = info.toCService) (hpos : info'.nRandomPos = info.nRandomPos)
    (hfiled : Filed p' am nId info') (htimed : Timed info')
    (hothers : ∀ n ≠ nId, p'.due n = p.due n ∧ (p' = .moving n ↔ p = .moving n))
    (huncounted : p'.uncounted = p.uncounted) : Inv hash64 p' (am.setInfo nId info') := by
  have hsame : SamePlaces am (am.setInfo nId info') := .setInfo hlookup hservice hpos
  -- the entry itself is filed anew, the others are as before
  refine hsame.inv h ?_ (fun n _ => ⟨rfl, rfl⟩) ?_ (h.sized.congr rfl rfl) h.nTried ?_ h.placed
  · intro n infoN hinfoN
    rw [lookup_setInfo] at hinfoN
    split_ifs at hinfoN with hn
    · cases hinfoN
      subst hn
      exact hfiled.congr rfl rfl rfl rfl rfl Iff.rfl
    · obtain ⟨hdue, hmoving⟩ := hothers n hn
      exact (h.filed n infoN hinfoN).congr rfl rfl rfl rfl hdue hmoving
  · intro n infoN hinfoN
    rw [lookup_setInfo] at hinfoN
    split_ifs at hinfoN with hn
    · cases hinfoN
      exact htimed
    · exact h.timed n infoN hinfoN
  · rw [huncounted]
    rfl

end Frames

/-! ### `SwapRandom` -/

section Swap

variable {hash64 : List UInt8 → UInt64} {p : Pending} {am am' : CAddrMan} {n : ℤ} {info : CAddrInfo} {i j : ℕ}

/-- Only the places of the entries in `vRandom` have changed. -/
structure SameEntries (am am' : CAddrMan) : Prop where
  nKey : am'.nKey = am.nKey
  nIdCount : am'.nIdCount = am.nIdCount
  mapAddr : am'.mapAddr = am.mapAddr
  nTried : am'.nTried = am.nTried
  vvTried : am'.vvTried = am.vvTried
  nNew : am'.nNew = am.nNew
  vvNew : am'.vvNew = am.vvNew
  length_vRandom : am'.vRandom.length = am.vRandom.length
  lookup : ∀ n info', am'.mapInfo.lookup n = some info' → ∃ info nRandomPos,
    am.mapInfo.lookup n = some info ∧ info' = { info with nRandomPos }
  isSome : ∀ n, (am'.mapInfo.lookup n).isSome = (am.mapInfo.lookup n).isSome

/-- Nothing has changed. -/
theorem SameEntries.refl (am : CAddrMan) : SameEntries am am :=
  ⟨rfl, rfl, rfl, rfl, rfl, rfl, rfl, rfl, fun _ info hinfo => ⟨info, info.nRandomPos, hinfo, rfl⟩, fun _ => rfl⟩

/-- The invariant depends on the entries and the tables only. -/
theorem SameEntries.inv (hsame : SameEntries am am') (h : Inv hash64 p am) (hindexed : am'.Indexed) :
    Inv hash64 p am' := by
  -- the tables are the same, and every entry but for its place in `vRandom`
  refine ⟨⟨hindexed, ?_, ?_, ?_, ?_, ?_⟩, h.sized.congr hsame.vvNew hsame.vvTried, ?_, ?_, ?_⟩
  · intro n info' hinfo'
    obtain ⟨info, pos, hinfo, rfl⟩ := hsame.lookup n info' hinfo'
    exact (h.filed n info hinfo).congr rfl rfl (by rw [hsame.vvNew]) (by rw [hsame.vvTried]) rfl Iff.rfl
  · intro n hn
    rw [hsame.vvNew, hsame.vvTried]
    refine h.absent n ?_
    have hsome := hsame.isSome n
    rw [hn] at hsome
    simpa using hsome.symm
  · intro n info' hinfo'
    obtain ⟨info, pos, hinfo, rfl⟩ := hsame.lookup n info' hinfo'
    exact ⟨(h.timed n info hinfo).tried, (h.timed n info hinfo).nLastTry, (h.timed n info hinfo).nLastSuccess⟩
  · rw [hsame.nTried, hsame.vvTried]
    exact h.nTried
  · rw [hsame.nTried, hsame.nNew, hsame.length_vRandom]
    exact h.nNew
  · intro n info' hinfo'
    obtain ⟨info, pos, hinfo, rfl⟩ := hsame.lookup n info' hinfo'
    rw [hsame.nIdCount]
    exact h.ids n info hinfo
  · rw [hsame.nIdCount]
    exact h.nIdCount
  · intro b vTried n info' hb hn hinfo'
    obtain ⟨info, pos, hinfo, rfl⟩ := hsame.lookup n info' hinfo'
    rw [hsame.vvTried] at hb
    rw [hsame.nKey]
    exact h.placed b vTried n info hb hn hinfo

/-- What two different places become. -/
def swapped (am : CAddrMan) (i j : ℕ) (nIdI nIdJ : ℤ) (infoI infoJ : CAddrInfo) : CAddrMan :=
  { (am.setInfo nIdI { infoI with nRandomPos := j }).setInfo nIdJ { infoJ with nRandomPos := i } with
    vRandom := (am.vRandom.set i nIdJ).set j nIdI }

/-- `SwapRandom` of two places. -/
theorem swapRandom_eq {nIdI nIdJ : ℤ} {infoI infoJ : CAddrInfo} (hij : i ≠ j) (hi : am.vRandom[i]? = some nIdI)
    (hj : am.vRandom[j]? = some nIdJ) (hids : nIdJ ≠ nIdI) (hinfoI : am.mapInfo.lookup nIdI = some infoI)
    (hinfoJ : am.mapInfo.lookup nIdJ = some infoJ) :
    am.swapRandom i j = some (am.swapped i j nIdI nIdJ infoI infoJ) := by
  have hne : (i : ℤ) ≠ j := by exact_mod_cast hij
  -- both positions are in the row, and hold the two numbers
  have hlt : (i : ℤ) < am.vRandom.length ∧ (j : ℤ) < am.vRandom.length := by
    constructor
    · exact_mod_cast (List.getElem?_eq_some_iff.mp hi).1
    · exact_mod_cast (List.getElem?_eq_some_iff.mp hj).1
  have hgetI : am.vRandom.getD i 0 = nIdI := by
    rw [List.getD_eq_getElem?_getD, hi]
    rfl
  have hgetJ : am.vRandom.getD j 0 = nIdJ := by
    rw [List.getD_eq_getElem?_getD, hj]
    rfl
  -- writing the first entry leaves the second
  have hinfoJ' : (am.setInfo nIdI { infoI with nRandomPos := j }).info nIdJ = infoJ := by
    refine info_eq ?_
    rw [lookup_setInfo, if_neg hids]
    exact hinfoJ
  unfold CAddrMan.swapRandom
  rw [if_neg hne]
  simp only [Int.toNat_natCast, hgetI, hgetJ, has_eq_true hinfoI, has_eq_true hinfoJ, info_eq hinfoI, hinfoJ',
    Int.natCast_nonneg, and_self, guard_true, hlt, Option.pure_def, Option.bind_eq_bind, Option.bind_some]
  rfl

/-- The entries after a swap: two of them have new places. -/
theorem lookup_swapped {nIdI nIdJ : ℤ} {infoI infoJ : CAddrInfo} (n : ℤ) :
    (am.swapped i j nIdI nIdJ infoI infoJ).mapInfo.lookup n =
      if n = nIdJ then some { infoJ with nRandomPos := i }
      else if n = nIdI then some { infoI with nRandomPos := j } else am.mapInfo.lookup n := by
  change ((am.setInfo nIdI _).setInfo nIdJ _).mapInfo.lookup n = _
  rw [lookup_setInfo, lookup_setInfo]

/-- **`SwapRandom`** at two places of `vRandom` exchanges them. -/
theorem Indexed.swapRandom (h : am.Indexed) (hi : i < am.vRandom.length) (hj : j < am.vRandom.length) :
    ∃ am', am.swapRandom i j = some am' ∧ am'.Indexed ∧ SameEntries am am' ∧
      am'.vRandom[j]? = am.vRandom[i]? := by
  by_cases hij : i = j
  · subst hij
    refine ⟨am, ?_, h, .refl am, rfl⟩
    unfold CAddrMan.swapRandom
    rw [if_pos rfl]
  · obtain ⟨nIdI, hidI⟩ : ∃ nIdI, am.vRandom[i]? = some nIdI := ⟨_, List.getElem?_eq_getElem hi⟩
    obtain ⟨nIdJ, hidJ⟩ : ∃ nIdJ, am.vRandom[j]? = some nIdJ := ⟨_, List.getElem?_eq_getElem hj⟩
    obtain ⟨infoI, hinfoI, hposI⟩ := h.random i nIdI hidI
    obtain ⟨infoJ, hinfoJ, hposJ⟩ := h.random j nIdJ hidJ
    -- two places have two ids
    have hids : nIdJ ≠ nIdI := by
      rintro rfl
      rw [hinfoI] at hinfoJ
      cases hinfoJ
      exact hij (by exact_mod_cast hposI.symm.trans hposJ)
    -- the row after the swap
    have hrandom : ∀ k, (am.swapped i j nIdI nIdJ infoI infoJ).vRandom[k]? =
        if k = j then some nIdI else if k = i then some nIdJ else am.vRandom[k]? := by
      intro k
      change ((am.vRandom.set i nIdJ).set j nIdI)[k]? = _
      rw [List.getElem?_set, List.getElem?_set, List.length_set]
      by_cases hkj : k = j
      · subst hkj
        simp [hj]
      · by_cases hki : k = i
        · subst hki
          simp [hkj, Ne.symm hkj, hi]
        · simp [hkj, hki, Ne.symm hkj, Ne.symm hki]
    have hlookup := @lookup_swapped am i j nIdI nIdJ infoI infoJ
    refine ⟨_, swapRandom_eq hij hidI hidJ hids hinfoI hinfoJ, ⟨?_, ?_, ?_⟩,
      ⟨rfl, rfl, rfl, rfl, rfl, rfl, rfl, ?_, ?_, ?_⟩, ?_⟩
    · -- `mapAddr` finds the same entries
      intro addr n
      rw [hlookup n]
      change am.mapAddr.lookup addr = some n ↔ _
      rw [h.mapAddr addr n]
      split_ifs with hnJ hnI
      · subst hnJ
        simp [hinfoJ]
      · subst hnI
        simp [hinfoI]
      · rfl
    · -- `vRandom` has them at their new places
      intro k n hn
      rw [hrandom k] at hn
      rw [hlookup n]
      split_ifs at hn with hkj hki
      · cases hn
        rw [if_neg (Ne.symm hids), if_pos rfl]
        exact ⟨_, rfl, by rw [hkj]⟩
      · cases hn
        rw [if_pos rfl]
        exact ⟨_, rfl, by rw [hki]⟩
      · obtain ⟨info, hinfo, hpos⟩ := h.random k n hn
        rw [if_neg, if_neg]
        · exact ⟨info, hinfo, hpos⟩
        · rintro rfl
          rw [hinfoI] at hinfo
          cases hinfo
          exact hki (by exact_mod_cast hpos.symm.trans hposI)
        · rintro rfl
          rw [hinfoJ] at hinfo
          cases hinfo
          exact hkj (by exact_mod_cast hpos.symm.trans hposJ)
    · -- and each entry knows its place
      intro n info hinfo
      rw [hlookup n] at hinfo
      split_ifs at hinfo with hnJ hnI
      · cases hinfo
        refine ⟨i, rfl, ?_⟩
        rw [hrandom i, if_neg hij, if_pos rfl, hnJ]
      · cases hinfo
        refine ⟨j, rfl, ?_⟩
        rw [hrandom j, if_pos rfl, hnI]
      · obtain ⟨k, hk, hn⟩ := h.position n info hinfo
        refine ⟨k, hk, ?_⟩
        rw [hrandom k, if_neg, if_neg]
        · exact hn
        · rintro rfl
          rw [hidI] at hn
          exact hnI (Option.some.inj hn).symm
        · rintro rfl
          rw [hidJ] at hn
          exact hnJ (Option.some.inj hn).symm
    · change ((am.vRandom.set i nIdJ).set j nIdI).length = _
      rw [List.length_set, List.length_set]
    · -- nothing of an entry has changed but its place
      intro n info' hinfo'
      rw [hlookup n] at hinfo'
      split_ifs at hinfo' with hnJ hnI
      · cases hinfo'
        exact ⟨infoJ, i, by rw [hnJ]; exact hinfoJ, rfl⟩
      · cases hinfo'
        exact ⟨infoI, j, by rw [hnI]; exact hinfoI, rfl⟩
      · exact ⟨info', info'.nRandomPos, hinfo', rfl⟩
    · intro n
      rw [hlookup n]
      split_ifs with hnJ hnI
      · rw [hnJ, hinfoJ]
        rfl
      · rw [hnI, hinfoI]
        rfl
      · rfl
    · rw [hrandom j, if_pos rfl, hidI]

end Swap

/-! ### Leaving a new bucket -/

section DropNew

variable {hash64 : List UInt8 → UInt64} {p : Pending} {am am' : CAddrMan} {nId n : ℤ} {info : CAddrInfo} {b : ℕ}

/-- An entry is gone, and the places of others in `vRandom` may have changed. -/
structure Removed (am am' : CAddrMan) (nId : ℤ) : Prop where
  nKey : am'.nKey = am.nKey
  nIdCount : am'.nIdCount = am.nIdCount
  nTried : am'.nTried = am.nTried
  vvTried : am'.vvTried = am.vvTried
  nNew : am'.nNew = am.nNew - 1
  vvNew : am'.vvNew = am.vvNew
  length_vRandom : am'.vRandom.length + 1 = am.vRandom.length
  lookup : ∀ n info', am'.mapInfo.lookup n = some info' → n ≠ nId ∧ ∃ info nRandomPos,
    am.mapInfo.lookup n = some info ∧ info' = { info with nRandomPos }
  isSome : ∀ n, n ≠ nId → (am'.mapInfo.lookup n).isSome = (am.mapInfo.lookup n).isSome

/-- The entries after one is erased. -/
theorem lookup_erase (m : OrderedMap ℤ CAddrInfo) (nId n : ℤ) :
    (m.erase nId).lookup n = if n = nId then none else m.lookup n := by
  split_ifs with hn
  · cases hlookup : (m.erase nId).lookup n with
    | none => rfl
    | some info =>
      have hmem := OrderedMap.lookup_eq_some_iff.mp hlookup
      have hne := (List.mem_filter.mp hmem).2
      exact absurd hn (by simpa using hne)
  · apply Option.ext
    intro info
    rw [OrderedMap.lookup_eq_some_iff, OrderedMap.lookup_eq_some_iff]
    unfold OrderedMap.erase
    rw [List.mem_filter]
    simp [hn]

/-- **The entry at the end of `vRandom` is taken out.** -/
theorem Indexed.removeInfo (h : am.Indexed) (hlookup : am.mapInfo.lookup nId = some info) :
    ∃ am', am.removeInfo nId = some am' ∧ am'.Indexed ∧ Removed am am' nId := by
  -- the entry is swapped to the end of `vRandom`
  obtain ⟨i, hpos, hrandom⟩ := h.position nId info hlookup
  have hi : i < am.vRandom.length := (List.getElem?_eq_some_iff.mp hrandom).1
  have hlast : am.vRandom.length - 1 < am.vRandom.length := by omega
  obtain ⟨am₁, hswap, hindexed, hsame, hend⟩ := h.swapRandom hi hlast
  rw [hrandom] at hend
  have hcast : ((am.vRandom.length - 1 : ℕ) : ℤ) = (am.vRandom.length : ℤ) - 1 := by omega
  -- the entry, at its new place
  obtain ⟨info₁, hinfo₁, hpos₁⟩ := hindexed.random _ _ hend
  -- without its address `mapAddr` does not find it
  have haddr : ∀ addr n, (am₁.mapAddr.erase info₁.toCNetAddr).lookup addr = some n ↔
      ∃ info', (am₁.mapInfo.erase nId).lookup n = some info' ∧ info'.toCNetAddr = addr := by
    intro addr n
    rw [Map.lookup_erase_eq, lookup_erase]
    have hindex := hindexed.mapAddr addr n
    by_cases hn : n = nId
    · subst hn
      rw [if_pos rfl]
      split_ifs with ha
      · simp
      · rw [hindex]
        simp [hinfo₁, Ne.symm ha]
    · rw [if_neg hn]
      split_ifs with ha
      · -- the address is the one of `nId` only
        subst ha
        simp only [false_iff]
        intro hother
        have hn' := hindex.mpr hother
        rw [(hindexed.mapAddr _ nId).mpr ⟨info₁, hinfo₁, rfl⟩] at hn'
        exact hn (Option.some.inj hn').symm
      · exact hindex
  have hlen := hsame.length_vRandom
  -- without the last place `vRandom` does not list it
  have hdrop : ∀ k n, am₁.vRandom.dropLast[k]? = some n ↔
      am₁.vRandom[k]? = some n ∧ k ≠ am.vRandom.length - 1 := by
    intro k n
    rw [List.getElem?_dropLast]
    split_ifs with hk
    · constructor
      · intro hn
        exact ⟨hn, by omega⟩
      · exact fun hn => hn.1
    · constructor
      · intro hn
        exact absurd hn (by simp)
      · rintro ⟨hn, hk'⟩
        have hklt := (List.getElem?_eq_some_iff.mp hn).1
        omega
  refine ⟨{ am₁ with
      vRandom := am₁.vRandom.dropLast
      mapAddr := am₁.mapAddr.erase info₁.toCNetAddr
      mapInfo := am₁.mapInfo.erase nId
      nNew := am₁.nNew - 1 }, ?_, ⟨haddr, ?_, ?_⟩,
    ⟨hsame.nKey, hsame.nIdCount, hsame.nTried, hsame.vvTried, ?_, hsame.vvNew, ?_, ?_, ?_⟩⟩
  · -- that is what `removeInfo` computes
    unfold CAddrMan.removeInfo
    rw [info_eq hlookup, hpos, ← hcast, hswap]
    simp only [Option.bind_eq_bind, Option.bind_some, info_eq hinfo₁]
  · -- the places of the others
    intro k n hn
    obtain ⟨hn, hk⟩ := (hdrop k n).mp hn
    obtain ⟨info', hinfo', hpos'⟩ := hindexed.random k n hn
    refine ⟨info', ?_, hpos'⟩
    change (am₁.mapInfo.erase nId).lookup n = some info'
    rw [lookup_erase, if_neg]
    · exact hinfo'
    · rintro rfl
      rw [hinfo₁] at hinfo'
      cases hinfo'
      exact hk (by exact_mod_cast hpos'.symm.trans hpos₁)
  · intro n info' hinfo'
    change (am₁.mapInfo.erase nId).lookup n = some info' at hinfo'
    rw [lookup_erase] at hinfo'
    split_ifs at hinfo' with hn
    obtain ⟨k, hk, hrandom'⟩ := hindexed.position n info' hinfo'
    refine ⟨k, hk, (hdrop k n).mpr ⟨hrandom', ?_⟩⟩
    rintro rfl
    rw [hend] at hrandom'
    exact hn (Option.some.inj hrandom').symm
  · -- the counts
    change am₁.nNew - 1 = am.nNew - 1
    rw [hsame.nNew]
  · change am₁.vRandom.dropLast.length + 1 = am.vRandom.length
    rw [List.length_dropLast]
    omega
  · intro n info' hinfo'
    change (am₁.mapInfo.erase nId).lookup n = some info' at hinfo'
    rw [lookup_erase] at hinfo'
    split_ifs at hinfo' with hn
    exact ⟨hn, hsame.lookup n info' hinfo'⟩
  · intro n hn
    change ((am₁.mapInfo.erase nId).lookup n).isSome = _
    rw [lookup_erase, if_neg hn]
    exact hsame.isSome n

/-- An entry of a bucket occurs in the table. -/
theorem occurrences_pos_of_mem (hb : b < am.vvNew.length) (hmem : nId ∈ am.newBucket b) :
    0 < occurrences am.vvNew nId :=
  occurrences_pos.mpr ⟨_, List.mem_of_getElem? (newBucket_eq hb), hmem⟩

/-- What is in a new bucket is a new entry. -/
theorem Inv.new_of_mem (h : Inv hash64 p am) (hb : b < am.vvNew.length) (hmem : nId ∈ am.newBucket b) :
    ∃ info, am.mapInfo.lookup nId = some info ∧ info.fInTried = false ∧ p ≠ .moving nId ∧
      info.nRefCount = occurrences am.vvNew nId + p.due nId ∧
      info.nRefCount ≤ ADDRMAN_NEW_BUCKETS_PER_ADDRESS ∧ am.vvTried.flatten.count nId = 0 := by
  have hpos := occurrences_pos_of_mem hb hmem
  cases hlookup : am.mapInfo.lookup nId with
  | none => exact absurd (h.absent nId hlookup).1 hpos.ne'
  | some info =>
    cases h.filed nId info hlookup with
    | tried _ _ _ _ hnew _ => exact absurd hnew hpos.ne'
    | new hin hmoving hcount _ hmax htried => exact ⟨info, rfl, hin, hmoving, hcount, hmax, htried⟩
    | moving _ _ _ hnew _ => exact absurd hnew hpos.ne'

/-- A bucket is replaced by one that is not too large. -/
theorem Sized.set_new (h : am.Sized) {vNew : Finset ℤ} (hcard : vNew.card ≤ ADDRMAN_NEW_BUCKET_SIZE)
    (hnew : am'.vvNew = am.vvNew.set b vNew) (htried : am'.vvTried = am.vvTried) : am'.Sized := by
  refine ⟨?_, by rw [htried]; exact h.length_vvTried, ?_, by rw [htried]; exact h.tried⟩
  · rw [hnew, List.length_set]
    exact h.length_vvNew
  · intro v hv
    rw [hnew] at hv
    rcases List.mem_or_eq_of_mem_set hv with hv | rfl
    · exact h.new v hv
    · exact hcard

/-- **One reference is dropped**, and with the last one the entry. -/
theorem Inv.dropNew (h : Inv hash64 p am) (hb : b < am.vvNew.length) (hmem : nId ∈ am.newBucket b)
    (hdue : p.due nId = 0) :
    ∃ am', am.dropNew b nId = some am' ∧ Inv hash64 p am' ∧ am'.nKey = am.nKey ∧
      am'.vvNew = am.vvNew.set b ((am.newBucket b).erase nId) ∧
      (∀ n, n ≠ nId → (am'.mapInfo.lookup n).isSome = (am.mapInfo.lookup n).isSome) := by
  obtain ⟨info, hlookup, hin, hmoving, hcount, hmax, htried⟩ := h.new_of_mem hb hmem
  have hoccurrences := occurrences_erase (newBucket_eq hb) hmem
  have hcard : ((am.newBucket b).erase nId).card ≤ ADDRMAN_NEW_BUCKET_SIZE :=
    (Finset.card_erase_le).trans (h.sized.new _ (List.mem_of_getElem? (newBucket_eq hb)))
  -- the references of all others are as before
  have hothers : ∀ n, n ≠ nId → occurrences (am.vvNew.set b ((am.newBucket b).erase nId)) n =
      occurrences am.vvNew n := by
    intro n hn
    have heq := hoccurrences n
    rwa [if_neg hn, Nat.add_zero] at heq
  have hself := hoccurrences nId
  rw [if_pos rfl] at hself
  rw [hdue, add_zero] at hcount
  unfold CAddrMan.dropNew
  rw [info_eq hlookup]
  simp only
  split_ifs with hzero
  · -- the last reference
    have hnone : occurrences (am.vvNew.set b ((am.newBucket b).erase nId)) nId = 0 := by omega
    have hplaces : SamePlaces am (am.setInfo nId { info with nRefCount := info.nRefCount - 1 }) :=
      .setInfo hlookup rfl rfl
    have hlookup' : (am.setInfo nId { info with nRefCount := info.nRefCount - 1 }).mapInfo.lookup nId =
        some { info with nRefCount := info.nRefCount - 1 } := by
      rw [lookup_setInfo, if_pos rfl]
    -- so the entry itself is deleted
    obtain ⟨am₁, hremove, hindexed, hremoved⟩ := (hplaces.indexed h.indexed).removeInfo hlookup'
    have hback : ∀ n info', am₁.mapInfo.lookup n = some info' → n ≠ nId ∧ ∃ info nRandomPos,
        am.mapInfo.lookup n = some info ∧ info' = { info with nRandomPos } := by
      intro n info' hinfo'
      obtain ⟨hn, info₁, pos, hinfo₁, heq⟩ := hremoved.lookup n info' hinfo'
      rw [lookup_setInfo, if_neg hn] at hinfo₁
      exact ⟨hn, info₁, pos, hinfo₁, heq⟩
    have hisSome : ∀ n, n ≠ nId → (am₁.mapInfo.lookup n).isSome = (am.mapInfo.lookup n).isSome := by
      intro n hn
      rw [hremoved.isSome n hn, lookup_setInfo, if_neg hn]
    have hbucket : am₁.vvNew.set b ((am₁.newBucket b).erase nId) =
        am.vvNew.set b ((am.newBucket b).erase nId) := by
      unfold newBucket
      rw [hremoved.vvNew]
      rfl
    rw [hremove]
    refine ⟨_, rfl, ⟨⟨⟨hindexed.mapAddr, hindexed.random, hindexed.position⟩, ?_, ?_, ?_, ?_, ?_⟩,
      h.sized.set_new hcard hbucket hremoved.vvTried, ?_, ?_, ?_⟩, hremoved.nKey, hbucket, hisSome⟩
    · -- where the others are filed
      intro n info' hinfo'
      obtain ⟨hn, info₀, pos, hinfo₀, rfl⟩ := hback n info' hinfo'
      refine (h.filed n info₀ hinfo₀).congr rfl rfl ?_ ?_ rfl Iff.rfl
      · simp only [hbucket]
        exact hothers n hn
      · simp only [hremoved.vvTried]
        rfl
    · -- the deleted identifier is in no table
      intro n hn
      simp only [hbucket, hremoved.vvTried]
      by_cases hnId : n = nId
      · subst hnId
        exact ⟨hnone, htried⟩
      · rw [hothers n hnId]
        refine h.absent n ?_
        have hsome := hisSome n hnId
        rw [hn] at hsome
        simpa using hsome.symm
    · intro n info' hinfo'
      obtain ⟨-, info₀, pos, hinfo₀, rfl⟩ := hback n info' hinfo'
      exact ⟨(h.timed n info₀ hinfo₀).tried, (h.timed n info₀ hinfo₀).nLastTry,
        (h.timed n info₀ hinfo₀).nLastSuccess⟩
    · simp only [hremoved.nTried, hremoved.vvTried]
      exact h.nTried
    · -- one new entry less
      have hlen := hremoved.length_vRandom
      have hnNew := h.nNew
      simp only [hremoved.nTried, hremoved.nNew]
      change am.nTried + (am.nNew - 1) + p.uncounted = am₁.vRandom.length
      change am₁.vRandom.length + 1 = am.vRandom.length at hlen
      omega
    · intro n info' hinfo'
      obtain ⟨-, info₀, pos, hinfo₀, rfl⟩ := hback n info' hinfo'
      simp only [hremoved.nIdCount]
      exact h.ids n info₀ hinfo₀
    · simp only [hremoved.nIdCount]
      exact h.nIdCount
    · -- the tried buckets are as before
      intro b' vTried n info' hb' hn hinfo'
      obtain ⟨-, info₀, pos, hinfo₀, rfl⟩ := hback n info' hinfo'
      simp only [hremoved.vvTried] at hb'
      simp only [hremoved.nKey]
      exact h.placed b' vTried n info₀ hb' hn hinfo₀
  · -- there are others
    have hset : SamePlaces am (am.setInfo nId { info with nRefCount := info.nRefCount - 1 }) :=
      .setInfo hlookup rfl rfl
    have hplaces : SamePlaces am { am.setInfo nId { info with nRefCount := info.nRefCount - 1 } with
        vvNew := am.vvNew.set b ((am.newBucket b).erase nId) } :=
      ⟨hset.nKey, hset.nIdCount, hset.mapAddr, hset.vRandom, hset.lookup⟩
    refine ⟨_, rfl, hplaces.inv h ?_ ?_ ?_ (h.sized.set_new hcard rfl rfl) h.nTried rfl h.placed, rfl, rfl, ?_⟩
    · -- the entry has one reference less
      intro n info' hinfo'
      rw [lookup_setInfo] at hinfo'
      split_ifs at hinfo' with hn
      · cases hinfo'
        subst hn
        refine .new hin hmoving ?_ ?_ ?_ htried
        · simp only
          rw [hdue]
          omega
        · simp only
          omega
        · simp only
          omega
      · exact (h.filed n info' hinfo').congr rfl rfl (hothers n hn) rfl rfl Iff.rfl
    · intro n hn
      refine ⟨hothers n ?_, rfl⟩
      rintro rfl
      rw [hlookup] at hn
      exact absurd hn (by simp)
    · intro n info' hinfo'
      rw [lookup_setInfo] at hinfo'
      split_ifs at hinfo' with hn
      · cases hinfo'
        exact ⟨(h.timed nId info hlookup).tried, (h.timed nId info hlookup).nLastTry,
          (h.timed nId info hlookup).nLastSuccess⟩
      · exact h.timed n info' hinfo'
    · intro n hn
      change ((am.setInfo nId _).mapInfo.lookup n).isSome = _
      rw [lookup_setInfo, if_neg hn]

end DropNew

/-! ### `ShrinkNew` -/

section ShrinkNew

variable {hash64 : List UInt8 → UInt64} {p : Pending} {am am' : CAddrMan} {nId n : ℤ} {b : ℕ} {rnd : ℕ → ℕ}

/-- A random number is below its bound. -/
theorem getRandInt_lt {r nMax : ℕ} (h : 0 < nMax) : getRandInt r nMax < nMax := by
  unfold getRandInt
  rw [if_neg h.ne']
  exact Nat.mod_lt r h

/-- The loop for a terrible entry of a full bucket. -/
theorem firstTerrible_eq (nNow : ℤ → Int64) {vNew : List ℤ} (h : ∀ n ∈ vNew, am.has n = true) :
    ∃ found, am.firstTerrible nNow vNew = some found ∧ ∀ n, found = some n → n ∈ vNew := by
  induction vNew with
  | nil => exact ⟨none, rfl, fun n hn => absurd hn (by simp)⟩
  | cons m vNew ih =>
    obtain ⟨found, hfound, hmem⟩ := ih fun n hn => h n (List.mem_cons_of_mem m hn)
    rw [firstTerrible, h m List.mem_cons_self]
    simp only [guard_true, Option.pure_def, Option.bind_eq_bind, Option.bind_some]
    split_ifs with hterrible
    · refine ⟨some m, rfl, ?_⟩
      intro n hn
      cases hn
      exact List.mem_cons_self
    · exact ⟨found, hfound, fun n hn => List.mem_cons_of_mem m (hmem n hn)⟩

/-- The oldest of some entries is one of them. -/
theorem foldlM_oldestStep {vNew : List ℤ} (h : ∀ n ∈ vNew, am.has n = true) (nOldest : ℤ) :
    ∃ found, vNew.foldlM am.oldestStep nOldest = some found ∧
      (found ∈ vNew ∨ (found = nOldest ∧ (nOldest ≠ -1 ∨ vNew = []))) := by
  induction vNew generalizing nOldest with
  | nil => exact ⟨nOldest, rfl, .inr ⟨rfl, .inr rfl⟩⟩
  | cons m vNew ih =>
    -- the older one is kept
    have hstep : am.oldestStep nOldest m = some m ∨ (nOldest ≠ -1 ∧ am.oldestStep nOldest m = some nOldest) := by
      unfold oldestStep
      rw [h m List.mem_cons_self]
      simp only [or_true, guard_true, Option.pure_def, Option.bind_eq_bind, Option.bind_some]
      split_ifs with holder
      · exact .inl rfl
      · exact .inr ⟨fun hnone => holder (.inl hnone), rfl⟩
    have hrest := ih fun n hn => h n (List.mem_cons_of_mem m hn)
    rw [List.foldlM_cons]
    rcases hstep with hstep | ⟨hold, hstep⟩
    · rw [hstep]
      obtain ⟨found, hfound, hmem⟩ := hrest m
      refine ⟨found, hfound, .inl ?_⟩
      rcases hmem with hmem | ⟨rfl, -⟩
      · exact List.mem_cons_of_mem m hmem
      · exact List.mem_cons_self
    · rw [hstep]
      obtain ⟨found, hfound, hmem⟩ := hrest nOldest
      refine ⟨found, hfound, ?_⟩
      rcases hmem with hmem | ⟨rfl, -⟩
      · exact .inl (List.mem_cons_of_mem m hmem)
      · exact .inr ⟨rfl, .inl hold⟩

/-- The oldest of four random entries is one of the bucket. -/
theorem oldestOf_eq {vNew : List ℤ} (h : ∀ n ∈ vNew, am.has n = true) (hne : vNew ≠ []) (rnd : ℕ → ℕ) :
    ∃ nOldest ∈ vNew, am.oldestOf vNew rnd = some nOldest := by
  unfold oldestOf
  simp only
  set drawn := (vNew.zipIdx.filter fun q =>
    q.2 ∈ (List.range 4).map fun i => getRandInt (rnd i) vNew.length).map Prod.fst with hdrawn
  have hsub : ∀ n ∈ drawn, n ∈ vNew := by
    intro n hn
    obtain ⟨⟨m, i⟩, hq, rfl⟩ := List.mem_map.mp hn
    exact List.fst_mem_of_mem_zipIdx (List.mem_filter.mp hq).1
  -- the first position that is drawn
  have hfirst : drawn ≠ [] := by
    have hlt : getRandInt (rnd 0) vNew.length < vNew.length := getRandInt_lt (List.length_pos_of_ne_nil hne)
    refine List.ne_nil_of_mem (a := vNew[getRandInt (rnd 0) vNew.length]) ?_
    refine List.mem_map.mpr ⟨(vNew[getRandInt (rnd 0) vNew.length], getRandInt (rnd 0) vNew.length), ?_, rfl⟩
    refine List.mem_filter.mpr ⟨?_, ?_⟩
    · rw [List.mk_mem_zipIdx_iff_getElem?]
      exact List.getElem?_eq_getElem hlt
    · refine decide_eq_true (List.mem_map.mpr ⟨0, ?_, rfl⟩)
      simp
  obtain ⟨nOldest, hfold, hmem⟩ := foldlM_oldestStep (fun n hn => h n (hsub n hn)) (-1)
  refine ⟨nOldest, ?_, hfold⟩
  rcases hmem with hmem | ⟨-, hnone | hnil⟩
  · exact hsub nOldest hmem
  · exact absurd rfl hnone
  · exact absurd hnil hfirst

/-- **`ShrinkNew`** takes one entry out of the bucket. -/
theorem Inv.shrinkNew (h : Inv hash64 p am) (hb : b < am.vvNew.length) (hne : (am.newBucket b).Nonempty)
    (hdue : ∀ n ∈ am.newBucket b, p.due n = 0) (nNow : ℤ → Int64) (rnd : ℕ → ℕ) :
    ∃ am' r, am.shrinkNew b nNow rnd = some (am', r) ∧ Inv hash64 p am' ∧ am'.nKey = am.nKey ∧
      ∃ n ∈ am.newBucket b, am'.vvNew = am.vvNew.set b ((am.newBucket b).erase n) ∧
        ∀ m, m ≠ n → (am'.mapInfo.lookup m).isSome = (am.mapInfo.lookup m).isSome := by
  have hhas : ∀ n ∈ (am.newBucket b).sort, am.has n = true := by
    intro n hn
    obtain ⟨info, hlookup, -⟩ := h.new_of_mem hb ((Finset.mem_sort _).mp hn)
    exact has_eq_true hlookup
  obtain ⟨found, hfound, hmem⟩ := firstTerrible_eq nNow hhas
  unfold CAddrMan.shrinkNew
  simp only [hb, guard_true, Option.pure_def, Option.bind_eq_bind, Option.bind_some, hfound]
  -- a terrible entry goes first
  cases found with
  | some n =>
    have hn := (Finset.mem_sort _).mp (hmem n rfl)
    obtain ⟨am', hdrop, hinv, hkey, hvv, hsome⟩ := h.dropNew hb hn (hdue n hn)
    refine ⟨am', 0, ?_, hinv, hkey, n, hn, hvv, hsome⟩
    simp only [hdrop, Option.map_some]
  | none =>
    -- otherwise the oldest of four that are drawn
    have hsort : (am.newBucket b).sort ≠ [] := by
      intro hnil
      obtain ⟨n, hn⟩ := hne
      have hn' := (Finset.mem_sort (· ≤ ·)).mpr hn
      rw [hnil] at hn'
      exact absurd hn' List.not_mem_nil
    obtain ⟨n, hn, holdest⟩ := oldestOf_eq hhas hsort rnd
    have hn' := (Finset.mem_sort _).mp hn
    obtain ⟨am', hdrop, hinv, hkey, hvv, hsome⟩ := h.dropNew hb hn' (hdue n hn')
    refine ⟨am', 1, ?_, hinv, hkey, n, hn', hvv, hsome⟩
    rw [holdest]
    simp only [Option.bind_some, hhas n hn, guard_true, Option.pure_def, hdrop, Option.map_some]

end ShrinkNew

end CAddrMan

end Peershares
