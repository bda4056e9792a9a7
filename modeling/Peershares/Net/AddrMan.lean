import Peershares.Net.AddrCalls
import Peershares.Net.AddrCheck

/-!
# The address manager stays consistent

Every sequence of calls, from the empty tables on. `Good_` and `Attempt_` write the time they are given without
looking at it, and `Check_` finds fault with a tried entry whose last success is at time zero and with times
before that; and the counter of the ids can overflow. When neither happens (`AddrCall.Sound`) the tables agree
after every call.

The invariant of the tables is about single entries, and what should hold is about whole tables: `vRandom` has each
entry once, the tried buckets have each tried entry once and the new buckets have the others as often as they count,
and the two totals are the numbers of entries of each kind. The first part of this module goes from the one to the
other by counting; `Check_` compares the same numbers, so it finds no fault.

* `Agrees.consistent`, `Agrees.checked` — what the invariant gives
* `CAddrMan.Inv.exec` — one call, by the lemma of its function
* `addrMan_consistent` — every run
* `check_goodAtZero` — a success at time zero, which `Check_` objects to
-/

open Framework

namespace Peershares

namespace CAddrMan

/-! ### What should hold -/

/-- The tables agree. -/
structure Consistent (am : CAddrMan) : Prop where
  /-- The two maps are inverse to each other. -/
  mapAddr : ∀ addr n, am.mapAddr.lookup addr = some n ↔
    ∃ info, am.mapInfo.lookup n = some info ∧ info.toCNetAddr = addr
  vRandom : am.vRandom.Perm am.mapInfo.keys
  nRandomPos : ∀ n info, am.mapInfo.lookup n = some info →
    0 ≤ info.nRandomPos ∧ am.vRandom[info.nRandomPos.toNat]? = some n
  /-- A tried entry is in one tried bucket, once. -/
  tried : ∀ n info, am.mapInfo.lookup n = some info → info.fInTried = true →
    am.vvTried.flatten.count n = 1 ∧ occurrences am.vvNew n = 0
  new : ∀ n info, am.mapInfo.lookup n = some info → info.fInTried = false →
    0 < info.nRefCount ∧ info.nRefCount = occurrences am.vvNew n ∧ am.vvTried.flatten.count n = 0
  /-- There is nothing else in the buckets. -/
  absent : ∀ n, am.mapInfo.lookup n = none → occurrences am.vvNew n = 0 ∧ am.vvTried.flatten.count n = 0
  nTried : am.nTried = (triedIds am.mapInfo.entries).length
  nNew : am.nNew = (newCounts am.mapInfo.entries).length

section Invariant

variable {hash64 : List UInt8 → UInt64} {am : CAddrMan}

/-- No identifier stands in `vRandom` twice. -/
theorem Indexed.nodup_vRandom (h : am.Indexed) : am.vRandom.Nodup := by
  rw [List.nodup_iff_getElem?_ne_getElem?]
  intro i j hij hj heq
  obtain ⟨n, hn⟩ : ∃ n, am.vRandom[j]? = some n := ⟨_, List.getElem?_eq_getElem hj⟩
  obtain ⟨info, hinfo, hpos⟩ := h.random j n hn
  obtain ⟨info', hinfo', hpos'⟩ := h.random i n (heq.trans hn)
  rw [hinfo] at hinfo'
  cases hinfo'
  have hsame : (i : ℤ) = j := hpos'.symm.trans hpos
  omega

/-- It lists the entries. -/
theorem Indexed.vRandom_perm (h : am.Indexed) : am.vRandom.Perm am.mapInfo.keys := by
  have hkeys : am.mapInfo.keys.Nodup := am.mapInfo.keys_increasing.imp fun hlt => hlt.ne
  rw [List.perm_ext_iff_of_nodup h.nodup_vRandom hkeys]
  intro n
  rw [← OrderedMap.lookup_isSome_iff, Option.isSome_iff_exists]
  constructor
  · intro hn
    obtain ⟨i, hi, rfl⟩ := List.getElem_of_mem hn
    obtain ⟨info, hinfo, -⟩ := h.random i _ (List.getElem?_eq_getElem hi)
    exact ⟨info, hinfo⟩
  · rintro ⟨info, hinfo⟩
    obtain ⟨i, -, hi⟩ := h.position n info hinfo
    exact List.mem_of_getElem? hi

/-- The tried entries. -/
theorem mem_triedIds {n : ℤ} : n ∈ triedIds am.mapInfo.entries ↔
    ∃ info, am.mapInfo.lookup n = some info ∧ info.fInTried = true := by
  unfold triedIds
  rw [List.mem_map]
  constructor
  · rintro ⟨⟨_, info⟩, hmem, rfl⟩
    obtain ⟨hmem, hin⟩ := List.mem_filter.mp hmem
    exact ⟨info, OrderedMap.lookup_eq_some_iff.mpr hmem, hin⟩
  · rintro ⟨info, hinfo, hin⟩
    exact ⟨(n, info), List.mem_filter.mpr ⟨OrderedMap.lookup_eq_some_iff.mp hinfo, hin⟩, rfl⟩

/-- The new entries with their counts. -/
theorem mem_newCounts {n r : ℤ} : (n, r) ∈ newCounts am.mapInfo.entries ↔
    ∃ info, am.mapInfo.lookup n = some info ∧ info.fInTried = false ∧ info.nRefCount = r := by
  unfold newCounts
  rw [List.mem_map]
  constructor
  · rintro ⟨⟨m, info⟩, hmem, heq⟩
    obtain ⟨hmem, hin⟩ := List.mem_filter.mp hmem
    cases heq
    exact ⟨info, OrderedMap.lookup_eq_some_iff.mpr hmem, by simpa using hin, rfl⟩
  · rintro ⟨info, hinfo, hin, rfl⟩
    exact ⟨(n, info), List.mem_filter.mpr ⟨OrderedMap.lookup_eq_some_iff.mp hinfo, by simpa using hin⟩, rfl⟩

/-- Tried and new entries together are all entries. -/
theorem length_triedIds_add (l : List (ℤ × CAddrInfo)) :
    (triedIds l).length + (newCounts l).length = l.length := by
  induction l with
  | nil => rfl
  | cons q l ih =>
    unfold triedIds newCounts at ih ⊢
    rw [List.filter_cons, List.filter_cons]
    cases q.2.fInTried with
    | true =>
      simp only [if_true, Bool.not_true, Bool.false_eq_true, if_false, List.map_cons, List.length_cons]
      omega
    | false =>
      simp only [Bool.false_eq_true, if_false, Bool.not_false, if_true, List.map_cons, List.length_cons]
      omega

/-- The tried buckets hold the tried entries, each once. -/
theorem Agrees.count_tried (h : Agrees .nothing am) (n : ℤ) :
    am.vvTried.flatten.count n = if n ∈ triedIds am.mapInfo.entries then 1 else 0 := by
  split_ifs with hmem
  · obtain ⟨info, hinfo, hin⟩ := mem_triedIds.mp hmem
    cases h.filed n info hinfo with
    | tried _ _ _ _ _ htried => exact htried
    | new hfalse _ _ _ _ _ => exact absurd (hin.symm.trans hfalse) (by simp)
    | moving hfalse _ _ _ _ => exact absurd (hin.symm.trans hfalse) (by simp)
  · cases hlookup : am.mapInfo.lookup n with
    | none => exact (h.absent n hlookup).2
    | some info =>
      cases h.filed n info hlookup with
      | tried hin _ _ _ _ _ => exact absurd (mem_triedIds.mpr ⟨info, hlookup, hin⟩) hmem
      | new _ _ _ _ _ htried => exact htried
      | moving _ _ _ _ htried => exact htried

/-- `nTried` counts the ones. -/
theorem Agrees.nTried_eq (h : Agrees .nothing am) : am.nTried = (triedIds am.mapInfo.entries).length := by
  have hperm : am.vvTried.flatten.Perm (triedIds am.mapInfo.entries) := by
    rw [List.perm_iff_count]
    intro n
    rw [h.count_tried n]
    split_ifs with hmem
    · exact (List.count_eq_one_of_mem (triedIds_nodup am) hmem).symm
    · exact (List.count_eq_zero_of_not_mem hmem).symm
  rw [h.nTried, hperm.length_eq]

/-- `nNew` counts the others. -/
theorem Agrees.nNew_eq (h : Agrees .nothing am) : am.nNew = (newCounts am.mapInfo.entries).length := by
  have hsum := length_triedIds_add am.mapInfo.entries
  have hkeys := h.indexed.vRandom_perm.length_eq
  unfold OrderedMap.keys at hkeys
  rw [List.length_map] at hkeys
  have htotal := h.nNew
  rw [h.nTried_eq, hkeys] at htotal
  simp only [Pending.uncounted] at htotal
  omega

/-- A new entry between two calls. -/
theorem Agrees.filed_new (h : Agrees .nothing am) {n : ℤ} {info : CAddrInfo}
    (hinfo : am.mapInfo.lookup n = some info) (hin : info.fInTried = false) :
    info.nRefCount = occurrences am.vvNew n ∧ 0 < info.nRefCount ∧
      info.nRefCount ≤ ADDRMAN_NEW_BUCKETS_PER_ADDRESS ∧ am.vvTried.flatten.count n = 0 := by
  cases h.filed n info hinfo with
  | tried htrue _ _ _ _ _ => exact absurd (hin.symm.trans htrue) (by simp)
  | new _ _ hcount hpos hmax htried =>
    simp only [Pending.due, add_zero] at hcount
    exact ⟨hcount, hpos, hmax, htried⟩
  | moving _ hmoving _ _ _ => exact absurd hmoving (by simp)

/-- A tried entry between two calls. -/
theorem Agrees.filed_tried (h : Agrees .nothing am) {n : ℤ} {info : CAddrInfo}
    (hinfo : am.mapInfo.lookup n = some info) (hin : info.fInTried = true) :
    info.nRefCount = 0 ∧ occurrences am.vvNew n = 0 ∧ am.vvTried.flatten.count n = 1 := by
  cases h.filed n info hinfo with
  | tried _ _ _ hcount hnew htried => exact ⟨hcount, hnew, htried⟩
  | new hfalse _ _ _ _ _ => exact absurd (hin.symm.trans hfalse) (by simp)
  | moving hfalse _ _ _ _ => exact absurd (hin.symm.trans hfalse) (by simp)

/-- So the manager is consistent. -/
theorem Agrees.consistent (h : Agrees .nothing am) : am.Consistent := by
  refine ⟨h.indexed.mapAddr, h.indexed.vRandom_perm, ?_, ?_, ?_, h.absent, h.nTried_eq, h.nNew_eq⟩
  · intro n info hinfo
    obtain ⟨i, hi, hrandom⟩ := h.indexed.position n info hinfo
    rw [hi]
    exact ⟨Int.natCast_nonneg i, hrandom⟩
  · intro n info hinfo hin
    obtain ⟨-, hnew, htried⟩ := h.filed_tried hinfo hin
    exact ⟨htried, hnew⟩
  · intro n info hinfo hin
    obtain ⟨hcount, hpos, -, htried⟩ := h.filed_new hinfo hin
    exact ⟨hpos, hcount, htried⟩

/-- **`Check_` finds nothing.** -/
theorem Agrees.checked (h : Agrees .nothing am) : am.Checked := by
  refine ⟨?_, ?_, h.nTried_eq.symm, h.nNew_eq.symm, h.count_tried, ?_, ?_⟩
  · have htotal := h.nNew
    simp only [Pending.uncounted, add_zero] at htotal
    exact htotal.symm
  · rintro ⟨n, info⟩ hq
    have hinfo := OrderedMap.lookup_eq_some_iff.mpr hq
    have htimed := h.timed n info hinfo
    obtain ⟨i, hi, hrandom⟩ := h.indexed.position n info hinfo
    refine ⟨?_, ?_, ?_, ?_, htimed.nLastTry, htimed.nLastSuccess⟩
    · intro hin
      exact ⟨htimed.tried hin, (h.filed_tried hinfo hin).1⟩
    · intro hin
      obtain ⟨-, hpos, hmax, -⟩ := h.filed_new hinfo hin
      exact ⟨⟨hpos.le, hmax⟩, hpos.ne'⟩
    · rw [(h.indexed.mapAddr _ n).mpr ⟨info, hinfo, rfl⟩]
      rfl
    · have hlt := (List.getElem?_eq_some_iff.mp hrandom).1
      simp only [hi, Int.toNat_natCast, List.getD_eq_getElem?_getD, hrandom, Option.getD_some, and_true]
      omega
  · intro n r hr
    obtain ⟨info, hinfo, hin, rfl⟩ := mem_newCounts.mp hr
    exact (h.filed_new hinfo hin).1.symm
  · intro n hn
    cases hlookup : am.mapInfo.lookup n with
    | none => exact (h.absent n hlookup).1
    | some info =>
      cases hin : info.fInTried with
      | true => exact (h.filed_tried hlookup hin).2.1
      | false => exact absurd (List.mem_map_of_mem (mem_newCounts.mpr ⟨info, hlookup, hin, rfl⟩)) hn

/-- The empty tables. -/
theorem Inv.start (nKey : List UInt8) : Inv hash64 .nothing { nKey } := by
  have hempty : (List.replicate ADDRMAN_TRIED_BUCKET_COUNT ([] : List ℤ)).flatten = [] := by
    rw [List.flatten_eq_nil_iff]
    exact fun l hl => List.eq_of_mem_replicate hl
  have hnone : ∀ n info, (OrderedMap.empty : OrderedMap ℤ CAddrInfo).lookup n ≠ some info :=
    fun n info h => absurd h (by simp [OrderedMap.lookup_empty])
  have hsmall : (0 : ℤ) < 2 ^ 31 := by decide
  refine ⟨⟨⟨?_, ?_, ?_⟩, ?_, ?_, ?_, ?_, ?_⟩, ⟨?_, ?_, ?_, ?_⟩, ?_, ⟨le_refl 0, hsmall⟩, ?_⟩
  · intro addr n
    constructor
    · intro h
      exact absurd h (by simp)
    · rintro ⟨info, h, -⟩
      exact absurd h (hnone n info)
  · intro i n h
    exact absurd h (by simp)
  · exact fun n info h => absurd h (hnone n info)
  · exact fun n info h => absurd h (hnone n info)
  · intro n _
    simp only [hempty, List.count_nil, and_true]
    exact occurrences_replicate_empty _ n
  · exact fun n info h => absurd h (hnone n info)
  · simp only [hempty, List.length_nil]
    rfl
  · rfl
  · exact List.length_replicate
  · exact List.length_replicate
  · intro v hv
    rw [List.eq_of_mem_replicate hv]
    exact Nat.zero_le _
  · intro v hv
    rw [List.eq_of_mem_replicate hv]
    exact Nat.zero_le _
  · exact fun n info h => absurd h (hnone n info)
  · exact fun b v n info _ _ h => absurd h (hnone n info)

end Invariant

end CAddrMan

/-! ### Calls and runs -/

/-- A call, with the random numbers and the times that it meets. -/
inductive AddrCall where
  | add (addr : CAddress) (source : CNetAddr) (nTimePenalty nNow₀ : Int64) (nNow : ℤ → Int64) (rnd : ℕ → ℕ)
  | good (addr : CService) (nTime : Int64) (rnd : ℕ → ℕ)
  | attempt (addr : CService) (nTime : Int64)
  | connected (addr : CService) (nTime : Int64)
  | select (fTried : Bool) (rounds : List CAddrMan.SelectRound)
  | getAddr (rnd : ℕ → ℕ)

section Runs

variable (hash64 : List UInt8 → UInt64)

/-- The state after a call; `none` when an `assert` fires. -/
def CAddrMan.exec (am : CAddrMan) : AddrCall → Option CAddrMan
  | .add addr source nTimePenalty nNow₀ nNow rnd =>
    (am.add hash64 addr source nTimePenalty nNow₀ nNow rnd).map Prod.fst
  | .good addr nTime rnd => am.good hash64 addr nTime rnd
  | .attempt addr nTime => some (am.attempt addr nTime)
  | .connected addr nTime => some (am.connected addr nTime)
  | .select fTried rounds => (am.select fTried rounds).map fun _ => am
  | .getAddr rnd => (am.getAddr rnd).map Prod.fst

/-- The states that calls with the property `ok` lead to, from empty tables with some key. -/
inductive CAddrMan.Reached (ok : CAddrMan → AddrCall → Prop) : CAddrMan → Prop
  | start (nKey : List UInt8) : Reached ok { nKey }
  | next {am am' : CAddrMan} {call : AddrCall} (h : Reached ok am) (hok : ok am call)
      (hexec : am.exec hash64 call = some am') : Reached ok am'

end Runs

/-- The condition on a call: the time of an entry that is marked good is after 1970, that of an attempt not
before, and there is an id left for a new entry. -/
def AddrCall.Sound (am : CAddrMan) : AddrCall → Prop
  | .add addr _ _ _ _ _ => addr.isRoutable = true → am.find addr.toCNetAddr = none → am.nIdCount + 1 < 2 ^ 31
  | .good addr nTime _ => am.findService addr ≠ none → 0 < nTime
  | .attempt addr nTime => am.findService addr ≠ none → 0 ≤ nTime
  | .connected _ _ => True
  | .select _ _ => True
  | .getAddr _ => True

variable {hash64 : List UInt8 → UInt64} {am : CAddrMan}

/-- **One call.** -/
theorem CAddrMan.Inv.exec {call : AddrCall} (h : am.Inv hash64 .nothing) (hsound : call.Sound am) :
    ∃ am', am.exec hash64 call = some am' ∧ am'.Inv hash64 .nothing := by
  cases call with
  | add addr source nTimePenalty nNow₀ nNow rnd =>
    obtain ⟨am', fNew, hadd, hinv, -⟩ := h.add nTimePenalty nNow₀ nNow rnd hsound
    exact ⟨am', by rw [CAddrMan.exec, hadd]; rfl, hinv⟩
  | good addr nTime rnd =>
    obtain ⟨am', hgood, hinv, -⟩ := h.good rnd hsound
    exact ⟨am', hgood, hinv⟩
  | attempt addr nTime => exact ⟨_, rfl, h.attempt hsound⟩
  | connected addr nTime => exact ⟨_, rfl, h.connected addr nTime⟩
  | select fTried rounds =>
    obtain ⟨result, hresult⟩ := Option.ne_none_iff_exists'.mp (h.select fTried rounds)
    exact ⟨am, by rw [CAddrMan.exec, hresult]; rfl, h⟩
  | getAddr rnd =>
    obtain ⟨am', vAddr, hget, hinv, -⟩ := h.getAddr rnd
    exact ⟨am', by rw [CAddrMan.exec, hget]; rfl, hinv⟩

/-- **Every run.** -/
theorem CAddrMan.Inv.of_reached (h : am.Reached hash64 fun am call => call.Sound am) :
    am.Inv hash64 .nothing := by
  induction h with
  | start nKey => exact .start nKey
  | next _ hsound hexec ih =>
    obtain ⟨am₁, hexec₁, hinv⟩ := ih.exec hsound
    rw [hexec] at hexec₁
    cases hexec₁
    exact hinv

/-- **The address manager stays consistent**: after every call of every run of sound calls the tables agree,
`Check_` finds nothing, no bucket is too large, and the next sound call fires no `assert`. -/
theorem addrMan_consistent (h : am.Reached hash64 fun am call => call.Sound am) :
    am.Consistent ∧ am.check = 0 ∧ am.Sized ∧ ∀ call : AddrCall, call.Sound am → am.exec hash64 call ≠ none := by
  have hinv := CAddrMan.Inv.of_reached h
  refine ⟨hinv.consistent, CAddrMan.check_eq_zero_iff.mpr hinv.checked, hinv.sized, ?_⟩
  intro call hsound
  obtain ⟨am', hexec, -⟩ := hinv.exec hsound
  rw [hexec]
  exact Option.some_ne_none am'

namespace Sample

/-- A peer. -/
def peer : CAddress where
  toCNetAddr := CNetAddr.ofIPv4 8 8 8 8
  port := 9901

/-- The peer is added. -/
def addPeer : AddrCall := .add peer (CNetAddr.ofIPv4 9 9 9 9) 0 100000000 (fun _ => 100000000) fun _ => 0

/-- It is marked good. -/
def goodPeer (nTime : Int64) : AddrCall := .good peer.toCService nTime fun _ => 0

/-- Both calls. -/
def addAndGood (nTime : Int64) : Option CAddrMan :=
  (CAddrMan.exec (fun _ => 0) { nKey := [] } addPeer).bind fun am => am.exec (fun _ => 0) (goodPeer nTime)

/-- An address is added and then found to be good. -/
theorem addAndGood_some {nTime : Int64} {am : CAddrMan} (h : addAndGood nTime = some am) :
    ∃ am₁, CAddrMan.exec (fun _ => 0) { nKey := [] } addPeer = some am₁ ∧
      am₁.exec (fun _ => 0) (goodPeer nTime) = some am := Option.bind_eq_some_iff.mp h

end Sample

/-- A peer that is added and marked good is tried. -/
theorem addrMan_consistent_onePeer :
    ∃ am, Sample.addAndGood 100000000 = some am ∧ am.nTried = 1 ∧ am.Consistent ∧ am.check = 0 := by
  obtain ⟨am, ham⟩ : ∃ am, Sample.addAndGood 100000000 = some am :=
    Option.isSome_iff_exists.mp (by decide +kernel)
  have htried : (Sample.addAndGood 100000000).map CAddrMan.nTried = some 1 := by decide +kernel
  rw [ham] at htried
  obtain ⟨am₁, hadd, hgood⟩ := Sample.addAndGood_some ham
  have hstart : CAddrMan.Reached (fun _ => 0) (fun am call => call.Sound am) { nKey := [] } := .start []
  have hsound : Sample.addPeer.Sound { nKey := [] } := fun _ _ => (by decide : (0 : ℤ) + 1 < 2 ^ 31)
  have hsound₁ : (Sample.goodPeer 100000000).Sound am₁ := fun _ => (by decide : (0 : Int64) < 100000000)
  have hreached := (hstart.next hsound hadd).next hsound₁ hgood
  obtain ⟨hconsistent, hcheck, -⟩ := addrMan_consistent hreached
  exact ⟨am, ham, Option.some.inj htried, hconsistent, hcheck⟩

/-- **A peer that is marked good at time zero**: `Check_` does not return zero. -/
theorem check_goodAtZero :
    ∃ am, CAddrMan.Reached (fun _ => 0) (fun _ _ => True) am ∧ am.check ≠ 0 := by
  obtain ⟨am, ham⟩ : ∃ am, Sample.addAndGood 0 = some am := Option.isSome_iff_exists.mp (by decide +kernel)
  have hentry : ((Sample.addAndGood 0).bind fun am => am.mapInfo.lookup 0).map
      (fun info => (info.fInTried, info.nLastSuccess)) = some (true, 0) := by decide +kernel
  rw [ham, Option.bind_some, Option.map_eq_some_iff] at hentry
  obtain ⟨info, hinfo, heq⟩ := hentry
  obtain ⟨hin, hlast⟩ := Prod.mk.inj heq
  obtain ⟨am₁, hadd, hgood⟩ := Sample.addAndGood_some ham
  have hstart : CAddrMan.Reached (fun _ => 0) (fun _ _ => True) { nKey := [] } := .start []
  refine ⟨am, (hstart.next trivial hadd).next trivial hgood, ?_⟩
  intro hcheck
  have hpasses := (CAddrMan.check_eq_zero_iff.mp hcheck).passes _ (OrderedMap.lookup_eq_some_iff.mp hinfo)
  exact (hpasses.tried hin).1 hlast

end Peershares
