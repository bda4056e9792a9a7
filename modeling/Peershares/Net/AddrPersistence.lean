import Mathlib.Combinatorics.Pigeonhole
import Peershares.Net.AddrDb

/-!
# The address manager comes back from disk

For every address manager that passes `Check_`: the reader makes of what the writer wrote an address manager
that passes `Check_` too, with the same new buckets and the same entries under new ids.

A tried entry goes into the bucket of its address when it is read. `Check_` does not look at the number of the
bucket, so more entries than fit into one bucket may want to go there, and the reader drops the rest (`Kept`). In
the states that the calls lead to nothing is dropped.

* `serialize_eq` — what is written, as lists
* `Checked.readable` — the lists are such that the reader gets along with them
* `addrMan_roundTrip` — both together
-/

open Framework

namespace Peershares

namespace CAddrMan

/-! ### Which entries are kept -/

section Kept

variable (hash64 : List UInt8 → UInt64)

/-- How many tried entries before this one go into its bucket. -/
def crowd (am : CAddrMan) (n : ℤ) (info : CAddrInfo) : ℕ :=
  (am.mapInfo.entries.filter fun q => q.2.fInTried).countP fun q =>
    q.1 < n ∧ q.2.getTriedBucket hash64 am.nKey = info.getTriedBucket hash64 am.nKey

/-- The reader has room for the entry. -/
def Kept (am : CAddrMan) (n : ℤ) (info : CAddrInfo) : Prop :=
  info.fInTried = true → am.crowd hash64 n info < ADDRMAN_TRIED_BUCKET_SIZE

/-- The tried entries that are kept. -/
def keptTried (am : CAddrMan) : List (ℤ × CAddrInfo) :=
  (am.mapInfo.entries.filter fun q => q.2.fInTried).filter fun q =>
    am.crowd hash64 q.1 q.2 < ADDRMAN_TRIED_BUCKET_SIZE

/-- The entries in the order in which they are read. -/
def order (am : CAddrMan) : List (ℤ × CAddrInfo) :=
  (am.mapInfo.entries.filter fun q => !q.2.fInTried) ++ am.keptTried hash64

/-- The new id of an entry. -/
def renumber (am : CAddrMan) (n : ℤ) : ℤ := ((am.order hash64).map Prod.fst).idxOf n

variable {hash64} {am : CAddrMan}

/-- The entries written, and kept when they are read. -/
theorem mem_order {n : ℤ} {info : CAddrInfo} :
    (n, info) ∈ am.order hash64 ↔ am.mapInfo.lookup n = some info ∧ am.Kept hash64 n info := by
  unfold order keptTried Kept
  rw [OrderedMap.lookup_eq_some_iff, List.mem_append, List.mem_filter, List.mem_filter, List.mem_filter]
  cases hin : info.fInTried with
  | true => simp
  | false => simp

/-- Each of them once. -/
theorem nodup_order (am : CAddrMan) : ((am.order hash64).map Prod.fst).Nodup := by
  have hkeys : am.mapInfo.keys.Nodup := am.mapInfo.keys_increasing.imp fun hlt => hlt.ne
  have hperm : ((am.mapInfo.entries.filter fun q => !q.2.fInTried) ++
      am.mapInfo.entries.filter fun q => q.2.fInTried).Perm am.mapInfo.entries := by
    have happend := List.filter_append_perm (fun q : ℤ × CAddrInfo => !q.2.fInTried) am.mapInfo.entries
    simpa only [Bool.not_not] using happend
  have hall := (hperm.map Prod.fst).nodup_iff.mpr hkeys
  exact hall.sublist (((List.Sublist.refl _).append List.filter_sublist).map _)

/-- The entry stands at its new id. -/
theorem getElem?_order {n : ℤ} {info : CAddrInfo} (h : (n, info) ∈ am.order hash64) :
    (am.order hash64)[((am.order hash64).map Prod.fst).idxOf n]? = some (n, info) := by
  obtain ⟨i, hi, heq⟩ := List.getElem_of_mem h
  have hi' : i < ((am.order hash64).map Prod.fst).length := by rwa [List.length_map]
  have hidx := (nodup_order am).idxOf_getElem i hi'
  rw [List.getElem_map, heq] at hidx
  rw [hidx, List.getElem?_eq_getElem hi, heq]

/-- So the new numbers are different. -/
theorem renumber_injOn {n m : ℤ} {info : CAddrInfo} (h : (n, info) ∈ am.order hash64)
    (heq : am.renumber hash64 m = am.renumber hash64 n) : m = n := by
  have hn : n ∈ (am.order hash64).map Prod.fst := List.mem_map.mpr ⟨_, h, rfl⟩
  unfold renumber at heq
  exact ((List.idxOf_inj hn).mp (Int.natCast_inj.mp heq).symm).symm

variable (hash64) in
/-- The tried entries are kept in the order of their ids. -/
theorem keep_eq {nType : ℕ} {nVersion : ℤ} (done l : List (ℤ × CAddrInfo))
    (h : done ++ l = am.mapInfo.entries.filter fun q => q.2.fInTried) :
    keep hash64 am.nKey (done.map fun q => q.2.stored nType nVersion) (l.map fun q => q.2.stored nType nVersion) =
      (l.filter fun q => am.crowd hash64 q.1 q.2 < ADDRMAN_TRIED_BUCKET_SIZE).map fun q =>
        q.2.stored nType nVersion := by
  have hsorted : (done ++ l).Pairwise fun q q' => q.1 < q'.1 := by
    rw [h]
    exact am.mapInfo.increasing.sublist List.filter_sublist
  induction l generalizing done with
  | nil => rfl
  | cons q l ih =>
    have hassoc : done ++ q :: l = done ++ [q] ++ l := by simp
    have hrest := ih (done ++ [q]) (by rw [← hassoc]; exact h) (by rw [← hassoc]; exact hsorted)
    rw [List.map_append, List.map_singleton] at hrest
    -- the entries before this one are those with smaller ids
    have hcrowd : ((done.map fun q => q.2.stored nType nVersion).countP fun info =>
        info.getTriedBucket hash64 am.nKey = (q.2.stored nType nVersion).getTriedBucket hash64 am.nKey) =
          am.crowd hash64 q.1 q.2 := by
      rw [List.pairwise_append, List.pairwise_cons] at hsorted
      have hafter : ((q :: l).countP fun q' => q'.1 < q.1 ∧
          q'.2.getTriedBucket hash64 am.nKey = q.2.getTriedBucket hash64 am.nKey) = 0 := by
        rw [List.countP_eq_zero]
        intro q' hq'
        simp only [decide_eq_true_eq, not_and]
        intro hlt
        rcases List.mem_cons.mp hq' with rfl | hq'
        · exact absurd hlt (lt_irrefl _)
        · exact absurd hlt (hsorted.2.1.1 q' hq').le.not_gt
      unfold crowd
      rw [← h, List.countP_append, hafter, Nat.add_zero, List.countP_map]
      refine List.countP_congr ?_
      intro q' hq'
      simp only [Function.comp_apply, decide_eq_true_eq]
      exact ⟨fun heq => ⟨hsorted.2.2 q' hq' q List.mem_cons_self, heq⟩, And.right⟩
    rw [List.map_cons, keep, hcrowd, hrest]
    by_cases hlt : am.crowd hash64 q.1 q.2 < ADDRMAN_TRIED_BUCKET_SIZE
    · rw [if_pos hlt, List.filter_cons_of_pos (by simpa using hlt), List.map_cons]
    · rw [if_neg hlt, List.filter_cons_of_neg (by simpa using hlt)]

end Kept

/-! ### What is written, as lists -/

section Written

variable {hash64 : List UInt8 → UInt64} {am : CAddrMan} {nType : ℕ} {nVersion : ℤ}

/-- The ranges of the members: what an `int` and a vector on disk can hold, and the sizes that the constructor
gives. -/
structure Typed (am : CAddrMan) : Prop where
  nKey : am.nKey.length ≤ MAX_SIZE
  nNew : am.nNew < 2 ^ 31
  nTried : am.nTried < 2 ^ 31
  length_vvNew : am.vvNew.length = ADDRMAN_NEW_BUCKET_COUNT
  length_vvTried : am.vvTried.length = ADDRMAN_TRIED_BUCKET_COUNT

/-- The entries counted as new are those not tried. -/
theorem Checked.counted_eq (h : am.Checked) :
    counted am.mapInfo.entries = am.mapInfo.entries.filter fun q => !q.2.fInTried := by
  unfold counted
  refine List.filter_congr ?_
  intro q hq
  have hpasses := h.passes q hq
  cases hin : q.2.fInTried with
  | true => simp [(hpasses.tried hin).2]
  | false => simp [(hpasses.new hin).2]

/-- There are `nNew` of them. -/
theorem Checked.nNew_eq (h : am.Checked) : 0 + ((counted am.mapInfo.entries).length : ℤ) = am.nNew := by
  rw [h.counted_eq, zero_add, ← h.nNew]
  unfold newCounts
  rw [List.length_map]

/-- And `nTried` others. -/
theorem Checked.nTried_eq (h : am.Checked) :
    0 + ((am.mapInfo.entries.filter fun q => q.2.fInTried).length : ℤ) = am.nTried := by
  rw [zero_add, ← h.nTried]
  unfold triedIds
  rw [List.length_map]

/-- What is in a new bucket is a new entry. -/
theorem Checked.mem_new (h : am.Checked) {vNew : Finset ℤ} (hvNew : vNew ∈ am.vvNew) {n : ℤ} (hn : n ∈ vNew) :
    ∃ info, (n, info) ∈ am.mapInfo.entries.filter fun q => !q.2.fInTried := by
  have hpos : occurrences am.vvNew n ≠ 0 := (occurrences_pos.mpr ⟨vNew, hvNew, hn⟩).ne'
  have hmem : n ∈ (newCounts am.mapInfo.entries).map Prod.fst := by
    by_contra hnot
    exact hpos (h.absent n hnot)
  unfold newCounts at hmem
  rw [List.map_map] at hmem
  obtain ⟨⟨n', info⟩, hq, rfl⟩ := List.mem_map.mp hmem
  exact ⟨info, hq⟩

/-- New entries come first. -/
theorem renumber_new {n : ℤ} {info : CAddrInfo} (h : (n, info) ∈ am.mapInfo.entries.filter fun q => !q.2.fInTried) :
    ∃ j : ℕ, am.renumber hash64 n = j ∧
      (am.mapInfo.entries.filter fun q => !q.2.fInTried)[j]? = some (n, info) := by
  have hmem : (n, info) ∈ am.order hash64 := List.mem_append_left _ h
  have hn : n ∈ (am.mapInfo.entries.filter fun q => !q.2.fInTried).map Prod.fst := List.mem_map.mpr ⟨_, h, rfl⟩
  have hget := getElem?_order hmem
  refine ⟨_, rfl, ?_⟩
  have hidx : ((am.order hash64).map Prod.fst).idxOf n =
      ((am.mapInfo.entries.filter fun q => !q.2.fInTried).map Prod.fst).idxOf n := by
    unfold order
    rw [List.map_append, List.idxOf_append_of_mem hn]
  have hlt := List.idxOf_lt_length_of_mem hn
  rw [List.length_map] at hlt
  rw [hidx] at hget ⊢
  unfold order at hget
  rwa [List.getElem?_append_left hlt] at hget

/-- The new number is the place in the file. -/
theorem renumber_getElem {i : ℕ} (hi : i < (am.order hash64).length) :
    am.renumber hash64 (am.order hash64)[i].1 = i := by
  have hi' : i < ((am.order hash64).map Prod.fst).length := by rwa [List.length_map]
  have hidx := (nodup_order am).idxOf_getElem i hi'
  rw [List.getElem_map] at hidx
  unfold renumber
  rw [hidx]

/-- **What is written**: the entries, and the buckets with the new ids. -/
theorem serialize_eq (hash64 : List UInt8 → UInt64) (h : am.Checked) : am.serialize nType nVersion =
    let news := (am.mapInfo.entries.filter fun q => !q.2.fInTried).map Prod.snd
    let trieds := (am.mapInfo.entries.filter fun q => q.2.fInTried).map Prod.snd
    let rows := am.vvNew.map fun vNew => vNew.sort.map (am.renumber hash64)
    (Codec.uint endOfData 1).enc 0 ++ string.enc am.nKey ++ int32.enc news.length ++ int32.enc trieds.length ++
      int32.enc ADDRMAN_NEW_BUCKET_COUNT ++ news.flatMap (CAddrInfo.codec nType (0 : ℕ)).enc ++
      trieds.flatMap (CAddrInfo.codec nType (0 : ℕ)).enc ++
      rows.flatMap (fun row => int32.enc row.length ++ row.flatMap int32.enc) := by
  have hkeys : (am.mapInfo.entries.map Prod.fst).Nodup := am.mapInfo.keys_increasing.imp fun hlt => hlt.ne
  -- each bucket writes the new numbers of its ids
  have hrow : ∀ vNew ∈ am.vvNew, writeBucket (newLoop am.nNew am.mapInfo.entries 0 ∅).2 vNew =
      int32.enc (vNew.sort.map (am.renumber hash64)).length ++
        (vNew.sort.map (am.renumber hash64)).flatMap int32.enc := by
    intro vNew hvNew
    unfold writeBucket
    rw [List.length_map, Finset.length_sort, List.flatMap_map]
    congr 1
    refine List.flatMap_congr ?_
    intro n hn
    obtain ⟨info, hinfo⟩ := h.mem_new hvNew ((Finset.mem_sort _).mp hn)
    obtain ⟨j, hj, hget⟩ := @renumber_new hash64 _ _ _ hinfo
    rw [← h.counted_eq] at hget
    rw [newLoop_snd am.nNew _ 0 ∅ h.nNew_eq hkeys hget, hj, zero_add]
    rfl
  -- both loops end at the counts that were written in front
  have hnew := newLoop_fst am.nNew am.mapInfo.entries 0 ∅ h.nNew_eq
  have htried := triedLoop_eq am.nTried am.mapInfo.entries 0 h.nTried_eq
  have hnNew := h.nNew_eq
  rw [h.counted_eq] at hnew hnNew
  have hrows : (am.vvNew.map fun vNew => vNew.sort.map (am.renumber hash64)).flatMap
      (fun row => int32.enc row.length ++ row.flatMap int32.enc) =
        am.vvNew.flatMap (writeBucket (newLoop am.nNew am.mapInfo.entries 0 ∅).2) := by
    rw [List.flatMap_map]
    exact (List.flatMap_congr hrow).symm
  unfold serialize
  dsimp only
  rw [hnew, htried, hrows, List.length_map, List.length_map, ← hnNew, ← h.nTried_eq, zero_add, zero_add]

/-- The buckets with the new ids, as sets. -/
theorem rows_toFinset (am : CAddrMan) : (am.vvNew.map fun vNew => vNew.sort.map (am.renumber hash64)).map
    List.toFinset = am.vvNew.map (Finset.image (am.renumber hash64)) := by
  rw [List.map_map]
  refine List.map_congr_left ?_
  intro vNew _
  ext m
  simp

/-- A new entry is in as many buckets as before. -/
theorem Checked.occurrences_renumber (h : am.Checked) {n : ℤ} {info : CAddrInfo}
    (hn : (n, info) ∈ am.mapInfo.entries.filter fun q => !q.2.fInTried) :
    (occurrences (am.vvNew.map (Finset.image (am.renumber hash64))) (am.renumber hash64 n) : ℤ) = info.nRefCount := by
  rw [occurrences_map_image]
  · refine h.new n info.nRefCount ?_
    unfold newCounts
    exact List.mem_map.mpr ⟨(n, info), hn, rfl⟩
  · intro _ _ m _ heq
    exact renumber_injOn (List.mem_append_left _ hn) heq

/-- **The reader gets along with what is written.** -/
theorem Checked.readable (h : am.Checked) (htyped : am.Typed) :
    Readable ((am.mapInfo.entries.filter fun q => !q.2.fInTried).map fun q => q.2.stored nType nVersion)
      ((am.mapInfo.entries.filter fun q => q.2.fInTried).map fun q => q.2.stored nType nVersion)
      (am.vvNew.map fun vNew => vNew.sort.map (am.renumber hash64)) := by
  -- the new entries and the tried ones are the entries of the map
  have hsub : ∀ q, q ∈ (am.mapInfo.entries.filter fun q => !q.2.fInTried) ++
      (am.mapInfo.entries.filter fun q => q.2.fInTried) → q ∈ am.mapInfo.entries := by
    intro q hq
    rcases List.mem_append.mp hq with hq | hq
    · exact (List.mem_filter.mp hq).1
    · exact (List.mem_filter.mp hq).1
  have hperm : ((am.mapInfo.entries.filter fun q => !q.2.fInTried) ++
      am.mapInfo.entries.filter fun q => q.2.fInTried).Perm am.mapInfo.entries := by
    have happend := List.filter_append_perm (fun q : ℤ × CAddrInfo => !q.2.fInTried) am.mapInfo.entries
    simpa only [Bool.not_not] using happend
  refine ⟨?_, ?_, ?_, ?_, ?_, ?_, ?_, ?_⟩
  · -- what `Check_` has tested of each entry
    intro info hinfo
    rw [← List.map_append] at hinfo
    obtain ⟨q, hq, rfl⟩ := List.mem_map.mp hinfo
    exact ⟨rfl, rfl, rfl, (h.passes q (hsub q hq)).nLastSuccess⟩
  · -- a tried entry has been reached
    intro info hinfo
    obtain ⟨q, hq, rfl⟩ := List.mem_map.mp hinfo
    obtain ⟨hq, hin⟩ := List.mem_filter.mp hq
    exact ((h.passes q hq).tried hin).1
  · -- `mapAddr` gives the id of an address
    have hids : (am.mapInfo.entries.map fun q => (am.mapAddr.lookup q.2.toCNetAddr).getD 0) =
        am.mapInfo.entries.map Prod.fst :=
      List.map_congr_left fun q hq => (h.passes q hq).addr
    have hkeys : (am.mapInfo.entries.map Prod.fst).Nodup := am.mapInfo.keys_increasing.imp fun hlt => hlt.ne
    have haddrs : (am.mapInfo.entries.map fun q => q.2.toCNetAddr).Nodup := by
      rw [← hids] at hkeys
      refine List.Nodup.of_map (fun addr => (am.mapAddr.lookup addr).getD 0) ?_
      rw [List.map_map]
      exact hkeys
    rw [← List.map_append, List.map_map]
    exact (hperm.map fun q => q.2.toCNetAddr).nodup_iff.mpr haddrs
  · rw [List.length_map]
    exact htyped.length_vvNew
  · -- the numbers of a new bucket are different
    intro row hrow
    obtain ⟨vNew, hvNew, rfl⟩ := List.mem_map.mp hrow
    refine List.Nodup.map_on ?_ (vNew.sort_nodup _)
    intro n _ m hm heq
    obtain ⟨info, hinfo⟩ := h.mem_new hvNew ((Finset.mem_sort _).mp hm)
    exact renumber_injOn (List.mem_append_left _ hinfo) heq
  · -- and are those of new entries
    intro row hrow m hm
    obtain ⟨vNew, hvNew, rfl⟩ := List.mem_map.mp hrow
    obtain ⟨n, hn, rfl⟩ := List.mem_map.mp hm
    obtain ⟨info, hinfo⟩ := h.mem_new hvNew ((Finset.mem_sort _).mp hn)
    obtain ⟨j, hj, hget⟩ := @renumber_new hash64 _ _ _ hinfo
    refine ⟨j, ?_, hj⟩
    rw [List.length_map]
    exact (List.getElem?_eq_some_iff.mp hget).1
  · -- every new entry is in some bucket
    intro i hi
    rw [List.length_map] at hi
    have hlt : i < (am.order hash64).length := by
      unfold order
      rw [List.length_append]
      omega
    have hget : (am.order hash64)[i] ∈ am.mapInfo.entries.filter fun q => !q.2.fInTried := by
      have hleft : (am.order hash64)[i] = (am.mapInfo.entries.filter fun q => !q.2.fInTried)[i] :=
        List.getElem_append_left hi
      rw [hleft]
      exact List.getElem_mem hi
    have hcount := @Checked.occurrences_renumber hash64 _ h _ _ hget
    obtain ⟨hmem, hin⟩ := List.mem_filter.mp hget
    have hnew := (h.passes _ hmem).new (by simpa using hin)
    have hnumber := renumber_getElem hlt
    rw [rows_toFinset, ← Int.natCast_pos, ← hnumber]
    refine lt_of_lt_of_eq ?_ hcount.symm
    exact lt_of_le_of_ne hnew.1.1 hnew.2.symm
  · -- but not in more than eight
    intro m
    rw [rows_toFinset]
    by_cases hzero : occurrences (am.vvNew.map (Finset.image (am.renumber hash64))) m = 0
    · rw [hzero]
      decide
    · obtain ⟨s, hs, hm⟩ := occurrences_pos.mp (Nat.pos_of_ne_zero hzero)
      obtain ⟨vNew, hvNew, rfl⟩ := List.mem_map.mp hs
      obtain ⟨n, hn, rfl⟩ := Finset.mem_image.mp hm
      obtain ⟨info, hinfo⟩ := h.mem_new hvNew hn
      obtain ⟨hmem, hin⟩ := List.mem_filter.mp hinfo
      rw [h.occurrences_renumber hinfo]
      exact ((h.passes _ hmem).new (by simpa using hin)).1.2

end Written

/-! ### Both together -/

section RoundTrip

variable {hash64 : List UInt8 → UInt64} {am am' : CAddrMan} {nType : ℕ} {nVersion : ℤ}

/-- The entries with the property `kept` are there under their new ids, and no others, and the new buckets
have the members that they had. -/
structure Restored (am am' : CAddrMan) (f : ℤ → ℤ) (kept : ℤ → CAddrInfo → Prop) : Prop where
  nKey : am'.nKey = am.nKey
  injective : ∀ n m info, am.mapInfo.lookup n = some info → kept n info → f m = f n → m = n
  entry : ∀ n info, am.mapInfo.lookup n = some info → kept n info → ∃ info', am'.mapInfo.lookup (f n) = some info' ∧
    info'.toCService = info.toCService ∧ info'.nServices = info.nServices ∧ info'.source = info.source ∧
    info'.nLastSuccess = info.nLastSuccess ∧ info'.nAttempts = info.nAttempts ∧ info'.fInTried = info.fInTried
  no_others : ∀ m info', am'.mapInfo.lookup m = some info' →
    ∃ n info, am.mapInfo.lookup n = some info ∧ kept n info ∧ f n = m
  newBucket : ∀ b, am'.newBucket b = (am.newBucket b).image f

/-- What an entry is read as. -/
def readBack (nType : ℕ) (nVersion : ℤ) (q : ℤ × CAddrInfo) : CAddrInfo :=
  { q.2.stored nType nVersion with fInTried := q.2.fInTried }

/-- The entries in the order in which they are read, as they are read. -/
theorem order_map_readBack (am : CAddrMan) :
    ((am.mapInfo.entries.filter fun q => !q.2.fInTried).map fun q => q.2.stored nType nVersion) ++
      ((am.keptTried hash64).map fun q => q.2.stored nType nVersion).map asTried =
        (am.order hash64).map (readBack nType nVersion) := by
  unfold order
  rw [List.map_append, List.map_map]
  congr 1
  · refine List.map_congr_left ?_
    intro q hq
    have hin : q.2.fInTried = false := by simpa using (List.mem_filter.mp hq).2
    unfold readBack
    rw [hin]
    rfl
  · refine List.map_congr_left ?_
    intro q hq
    have hin : q.2.fInTried = true := (List.mem_filter.mp (List.mem_filter.mp hq).1).2
    unfold readBack
    rw [hin]
    rfl

/-- **The reader reads what the writer wrote.** -/
theorem unserialize_serialize (h : am.Checked) (htyped : am.Typed) (rest : List UInt8) :
    unserialize hash64 nType nVersion (am.serialize nType nVersion ++ rest) =
      .ok (rebuild hash64 am.nKey
        ((am.mapInfo.entries.filter fun q => !q.2.fInTried).map fun q => q.2.stored nType (0 : ℕ))
        ((am.mapInfo.entries.filter fun q => q.2.fInTried).map fun q => q.2.stored nType (0 : ℕ))
        (am.vvNew.map fun vNew => vNew.sort.map (am.renumber hash64)), rest) := by
  have hread := @Checked.readable hash64 am nType (0 : ℕ) h htyped
  have hnNew := h.nNew_eq
  have hnTried := h.nTried_eq
  rw [h.counted_eq] at hnNew
  set l := am.mapInfo.entries.filter fun q => !q.2.fInTried with hl
  set l' := am.mapInfo.entries.filter fun q => q.2.fInTried with hl'
  -- the counts fit an `int`
  have hnews : ((l.map Prod.snd).length : ℤ) < 2 ^ 31 := by
    have hlt := htyped.nNew
    rw [List.length_map]
    omega
  have htrieds : ((l'.map Prod.snd).length : ℤ) < 2 ^ 31 := by
    have hlt := htyped.nTried
    rw [List.length_map]
    omega
  -- a row names places among the new entries
  have hindex : ∀ row ∈ am.vvNew.map (fun vNew => vNew.sort.map (am.renumber hash64)), ∀ n : ℤ, n ∈ row →
      0 ≤ n ∧ n < l.length := by
    intro row hrow n hn
    obtain ⟨i, hi, rfl⟩ := hread.index row hrow n hn
    rw [List.length_map] at hi
    omega
  -- a row has each index at most once, so it is no longer than the list of the new entries
  have hsize : ∀ row ∈ am.vvNew.map (fun vNew => vNew.sort.map (am.renumber hash64)),
      (row.length : ℤ) < 2 ^ 31 := by
    intro row hrow
    have hsubset : row ⊆ (List.range l.length).map (fun i : ℕ => (i : ℤ)) := by
      intro n hn
      have hn' := hindex row hrow n hn
      exact List.mem_map.mpr ⟨n.toNat, List.mem_range.mpr (by omega), Int.toNat_of_nonneg hn'.1⟩
    have hle := ((hread.nodup_row row hrow).subperm hsubset).length_le
    rw [List.length_map, List.length_range] at hle
    rw [List.length_map] at hnews
    omega
  have hfits : ∀ row ∈ am.vvNew.map (fun vNew => vNew.sort.map (am.renumber hash64)), ∀ n ∈ row,
      int32.Fits n := by
    intro row hrow n hn
    have hn' := hindex row hrow n hn
    rw [List.length_map] at hnews
    exact int32_fits hn'.1 (by omega)
  have hmain := @unserialize_eq hash64 nType nVersion am.nKey _ _ _ htyped.nKey hnews htrieds hread.length_rows
    hsize hfits rest
  rw [List.map_map, List.map_map] at hmain
  rw [serialize_eq hash64 h]
  exact hmain

/-- **Every address manager that passes `Check_` comes back**, but for the tried entries that find no room. -/
theorem Checked.restored (h : am.Checked) (htyped : am.Typed) (rest : List UInt8) :
    ∃ am', unserialize hash64 nType nVersion (am.serialize nType nVersion ++ rest) = .ok (am', rest) ∧
      am'.check = 0 ∧ Restored am am' (am.renumber hash64) (am.Kept hash64) := by
  -- what is written can be read, and what is read is rebuilt
  have hread := @Checked.readable hash64 am nType (0 : ℕ) h htyped
  obtain ⟨hrebuilt, hkey⟩ := @rebuild_rebuilt hash64 am.nKey _ _ _ hread
  have hkeep : keep hash64 am.nKey []
      ((am.mapInfo.entries.filter fun q => q.2.fInTried).map fun q => q.2.stored nType (0 : ℕ)) =
        (am.keptTried hash64).map fun q => q.2.stored nType (0 : ℕ) := @keep_eq hash64 am nType (0 : ℕ) [] _ rfl
  rw [hkeep] at hrebuilt
  have hkept := hread.sublist (@keep_sublist hash64 am.nKey [] _)
  rw [hkeep] at hkept
  set am' := rebuild hash64 am.nKey _ _ _ with ham'
  -- what is looked up under a number was written at this position
  have hlookup : ∀ n info, am'.mapInfo.lookup n = some info ↔
      ∃ (i : ℕ) (q : ℤ × CAddrInfo), n = i ∧ (am.order hash64)[i]? = some q ∧
        info = { readBack nType (0 : ℕ) q with
          nRandomPos := i
          nRefCount := occurrences am'.vvNew n } := by
    intro n info
    rw [hrebuilt.lookup n info, hrebuilt.vvNew]
    constructor
    · rintro ⟨i, info₀, hi, hget, rfl⟩
      rw [order_map_readBack am, List.getElem?_map, Option.map_eq_some_iff] at hget
      obtain ⟨q, hget, rfl⟩ := hget
      exact ⟨i, q, hi, hget, rfl⟩
    · rintro ⟨i, q, hi, hget, rfl⟩
      refine ⟨i, readBack nType (0 : ℕ) q, hi, ?_, rfl⟩
      rw [order_map_readBack am, List.getElem?_map, hget]
      rfl
  refine ⟨am', unserialize_serialize h htyped rest, check_eq_zero_iff.mpr (hrebuilt.agrees hkept).checked, ?_⟩
  refine ⟨hkey, ?_, ?_, ?_, ?_⟩
  · -- two entries have two numbers
    intro n m info hinfo hkeptn heq
    exact renumber_injOn (mem_order.mpr ⟨hinfo, hkeptn⟩) heq
  · -- each entry that is kept is there
    intro n info hinfo hkeptn
    have hget := getElem?_order (mem_order.mpr ⟨hinfo, hkeptn⟩)
    exact ⟨_, (hlookup _ _).mpr ⟨_, _, rfl, hget, rfl⟩, rfl, rfl, rfl, rfl, rfl, rfl⟩
  · -- and nothing else is
    intro m info' hinfo'
    obtain ⟨i, ⟨n, info⟩, rfl, hget, -⟩ := (hlookup m info').mp hinfo'
    obtain ⟨hlt, heq⟩ := List.getElem?_eq_some_iff.mp hget
    obtain ⟨hinfo, hkeptn⟩ := mem_order.mp (List.mem_of_getElem? hget)
    refine ⟨n, info, hinfo, hkeptn, ?_⟩
    have hnumber := renumber_getElem hlt
    rwa [heq] at hnumber
  · -- the buckets are renumbered
    intro b
    unfold newBucket
    rw [hrebuilt.vvNew, rows_toFinset, List.getD_eq_getElem?_getD, List.getD_eq_getElem?_getD, List.getElem?_map]
    cases am.vvNew[b]? with
    | none => rfl
    | some vNew => rfl

/-- A tried entry is in the bucket of its address. -/
theorem Inv.mem_triedBucket (h : Inv hash64 .nothing am) {n : ℤ} {info : CAddrInfo}
    (hinfo : am.mapInfo.lookup n = some info) (hin : info.fInTried = true) :
    n ∈ am.triedBucket (info.getTriedBucket hash64 am.nKey) := by
  have hcount := (h.filed_tried hinfo hin).2.2
  have hmem : n ∈ am.vvTried.flatten := by
    rw [← List.count_pos_iff, hcount]
    exact Nat.one_pos
  obtain ⟨vTried, hvTried, hn⟩ := List.mem_flatten.mp hmem
  obtain ⟨b, hb, rfl⟩ := List.getElem_of_mem hvTried
  have hget := List.getElem?_eq_getElem hb
  rw [h.placed b _ n info hget hn hinfo]
  unfold triedBucket
  rw [List.getD_eq_getElem?_getD, hget]
  exact hn

/-- In the states that the calls lead to the reader has room for all entries. -/
theorem Inv.kept (h : Inv hash64 .nothing am) {n : ℤ} {info : CAddrInfo}
    (hinfo : am.mapInfo.lookup n = some info) : am.Kept hash64 n info := by
  intro hin
  set b := info.getTriedBucket hash64 am.nKey with hb
  set before := (am.mapInfo.entries.filter fun q => q.2.fInTried).filter fun q =>
    q.1 < n ∧ q.2.getTriedBucket hash64 am.nKey = b with hbefore
  have hsub : before.Sublist am.mapInfo.entries := List.filter_sublist.trans List.filter_sublist
  -- this entry and those written before it are different
  have hnodup : (before.map Prod.fst ++ [n]).Nodup := by
    have hkeys : am.mapInfo.keys.Nodup := am.mapInfo.keys_increasing.imp fun hlt => hlt.ne
    rw [List.nodup_append]
    refine ⟨hkeys.sublist (hsub.map _), List.nodup_singleton n, ?_⟩
    intro m hm m' hm' heq
    obtain ⟨q, hq, rfl⟩ := List.mem_map.mp hm
    have hlt : q.1 < n ∧ q.2.getTriedBucket hash64 am.nKey = b := by simpa using (List.mem_filter.mp hq).2
    rw [List.mem_singleton.mp hm'] at heq
    exact absurd heq hlt.1.ne
  -- they share a bucket with this entry
  have hsubset : before.map Prod.fst ++ [n] ⊆ am.triedBucket b := by
    intro m hm
    rcases List.mem_append.mp hm with hm | hm
    · obtain ⟨⟨m, info'⟩, hq, rfl⟩ := List.mem_map.mp hm
      obtain ⟨hq, hprop⟩ := List.mem_filter.mp hq
      obtain ⟨hq, hin'⟩ := List.mem_filter.mp hq
      have hbucket : info'.getTriedBucket hash64 am.nKey = b := by
        have hboth : m < n ∧ info'.getTriedBucket hash64 am.nKey = b := by simpa using hprop
        exact hboth.2
      rw [← hbucket]
      exact h.mem_triedBucket (OrderedMap.lookup_eq_some_iff.mpr hq) hin'
    · rw [List.mem_singleton.mp hm]
      exact h.mem_triedBucket hinfo hin
  -- so there are no more of them than the bucket holds
  have hle := (hnodup.subperm hsubset).length_le
  have hsize : (am.triedBucket b).length ≤ ADDRMAN_TRIED_BUCKET_SIZE := by
    have hlt : b < am.vvTried.length := by
      rw [h.sized.length_vvTried]
      exact getTriedBucket_lt info am.nKey
    exact h.sized.tried _ (List.mem_of_getElem? (triedBucket_eq hlt))
  rw [List.length_append, List.length_map, List.length_singleton] at hle
  unfold crowd
  rw [List.countP_eq_length_filter]
  exact lt_of_lt_of_le (Nat.lt_of_succ_le hle) hsize

/-- The numbers of a consistent state fit their types. -/
theorem Inv.typed (h : Inv hash64 .nothing am) (hkey : am.nKey.length ≤ MAX_SIZE) : am.Typed := by
  have hids : am.vRandom ⊆ (List.range am.nIdCount.toNat).map (fun i : ℕ => (i : ℤ)) := by
    intro n hn
    obtain ⟨i, hi, rfl⟩ := List.getElem_of_mem hn
    obtain ⟨info, hinfo, -⟩ := h.indexed.random i _ (List.getElem?_eq_getElem hi)
    have hrange := h.ids _ info hinfo
    exact List.mem_map.mpr ⟨_, List.mem_range.mpr (by omega), Int.toNat_of_nonneg hrange.1⟩
  have hle := (h.indexed.nodup_vRandom.subperm hids).length_le
  rw [List.length_map, List.length_range] at hle
  have hcount := h.nIdCount
  have htotal := h.nNew
  have hnTried := h.nTried
  have hnNew := h.nNew_eq
  simp only [Pending.uncounted, add_zero] at htotal
  exact ⟨hkey, by omega, by omega, h.sized.length_vvNew, h.sized.length_vvTried⟩

end RoundTrip

end CAddrMan

variable {hash64 : List UInt8 → UInt64} {am : CAddrMan}

/-- **Every address manager that passes `Check_` comes back from disk**: with the same new buckets and the same
entries under new ids, but for a tried entry with 64 others before it whose addresses belong into its bucket. There
is none after calls. -/
theorem addrMan_roundTrip (nType : ℕ) (nVersion : ℤ) (rest : List UInt8) (htyped : am.Typed) (hcheck : am.check = 0) :
    (∃ am' f, CAddrMan.unserialize hash64 nType nVersion (am.serialize nType nVersion ++ rest) = .ok (am', rest) ∧
      am'.check = 0 ∧ CAddrMan.Restored am am' f (am.Kept hash64)) ∧
    (am.Reached hash64 (fun am call => call.Sound am) → ∀ n info, am.mapInfo.lookup n = some info →
      am.Kept hash64 n info) := by
  constructor
  · obtain ⟨am', hread, hcheck', hrestored⟩ := (CAddrMan.check_eq_zero_iff.mp hcheck).restored htyped rest
    exact ⟨am', _, hread, hcheck', hrestored⟩
  · intro hreached n info hinfo
    exact (CAddrMan.Inv.of_reached hreached).kept hinfo

/-- The peer of `addAndGood` comes back. -/
theorem addrMan_roundTrip_onePeer : ∃ am am' f, Sample.addAndGood 100000000 = some am ∧ am.nTried = 1 ∧
    CAddrMan.unserialize (fun _ => 0) SER_DISK 60000 (am.serialize SER_DISK 60000 ++ []) = .ok (am', []) ∧
    am'.check = 0 ∧ CAddrMan.Restored am am' f (am.Kept fun _ => 0) := by
  obtain ⟨am, ham⟩ : ∃ am, Sample.addAndGood 100000000 = some am :=
    Option.isSome_iff_exists.mp (by decide +kernel)
  have htried : (Sample.addAndGood 100000000).map (fun am => (am.nTried, am.nKey)) = some (1, []) := by
    decide +kernel
  rw [ham] at htried
  obtain ⟨hnTried, hkey⟩ := Prod.mk.inj (Option.some.inj htried)
  obtain ⟨am₁, hadd, hgood⟩ := Sample.addAndGood_some ham
  have hstart : CAddrMan.Reached (fun _ => 0) (fun am call => call.Sound am) { nKey := [] } := .start []
  have hsound : Sample.addPeer.Sound { nKey := [] } := fun _ _ => (by decide : (0 : ℤ) + 1 < 2 ^ 31)
  have hsound₁ : (Sample.goodPeer 100000000).Sound am₁ := fun _ => (by decide : (0 : Int64) < 100000000)
  have hinv := CAddrMan.Inv.of_reached ((hstart.next hsound hadd).next hsound₁ hgood)
  have htyped := hinv.typed (by rw [hkey]; exact Nat.zero_le _)
  obtain ⟨⟨am', f, hread, hcheck, hrestored⟩, -⟩ := @addrMan_roundTrip (fun _ => 0) am SER_DISK 60000 [] htyped
    (CAddrMan.check_eq_zero_iff.mpr hinv.checked)
  exact ⟨am, am', f, ham, hnTried, hread, hcheck, hrestored⟩

/-! ### More tried entries than a bucket holds -/

namespace CAddrMan

/-- When nothing is lost there is room for all entries. -/
theorem Restored.kept {am' : CAddrMan} {f f' : ℤ → ℤ} (hchecked : am.Checked)
    (h : Restored am am' f (am.Kept hash64)) (h' : Restored am am' f' fun _ _ => True) {n : ℤ} {info : CAddrInfo}
    (hinfo : am.mapInfo.lookup n = some info) : am.Kept hash64 n info := by
  obtain ⟨info', hinfo', haddr', -⟩ := h'.entry n info hinfo trivial
  obtain ⟨m, infoM, hinfoM, hkept, hm⟩ := h.no_others _ info' hinfo'
  obtain ⟨info'', hinfo'', haddr'', -⟩ := h.entry m infoM hinfoM hkept
  rw [hm, hinfo'] at hinfo''
  cases hinfo''
  -- two entries with one address
  have hn := (hchecked.passes _ (OrderedMap.lookup_eq_some_iff.mp hinfo)).addr
  have hm := (hchecked.passes _ (OrderedMap.lookup_eq_some_iff.mp hinfoM)).addr
  have haddr : info.toCNetAddr = infoM.toCNetAddr := by rw [← haddr', haddr'']
  rw [haddr] at hn
  obtain rfl : n = m := hn.symm.trans hm
  rw [hinfoM] at hinfo
  cases hinfo
  exact hkept

/-- Tried entries that are put into the first two buckets, whatever their addresses. -/
theorem exists_spread {l : List CAddrInfo} (hlength : l.length = 65)
    (hplain : ∀ info ∈ l, info.nRefCount = 0 ∧ info.fInTried = false ∧ info.nLastTry = 0 ∧ 0 ≤ info.nLastSuccess)
    (hsucceeded : ∀ info ∈ l, info.nLastSuccess ≠ 0) (hnodup : (l.map fun info => info.toCNetAddr).Nodup) :
    ∃ am : CAddrMan, am.Typed ∧ am.Sized ∧ am.Checked ∧ am.nKey = [] ∧
      ∀ (i : ℕ) (info : CAddrInfo), l[i]? = some info → ∃ info', am.mapInfo.lookup i = some info' ∧
        info'.fInTried = true ∧ info'.toCService = info.toCService := by
  set rows : List (List ℤ) := List.replicate ADDRMAN_NEW_BUCKET_COUNT [] with hrows
  -- no new entries, so the new buckets are empty
  have hempty : rows.map List.toFinset = List.replicate ADDRMAN_NEW_BUCKET_COUNT ∅ := by
    rw [hrows, List.map_replicate]
    rfl
  have hread : Readable [] l rows := by
    refine ⟨hplain, hsucceeded, hnodup, List.length_replicate, ?_, ?_, fun i hi => absurd hi (Nat.not_lt_zero i), ?_⟩
    · intro row hrow
      rw [List.eq_of_mem_replicate hrow]
      exact List.nodup_nil
    · intro row hrow n hn
      rw [List.eq_of_mem_replicate hrow] at hn
      exact absurd hn List.not_mem_nil
    · intro n
      rw [hempty, occurrences_replicate_empty]
      decide
  have hnodup' : (([] ++ l.map asTried).map fun info : CAddrInfo => info.toCNetAddr).Nodup := by
    rw [List.nil_append, List.map_map]
    exact hnodup
  -- the tried entries get the numbers from 0 on
  obtain ⟨am₁, -, hloaded, hkey, -, -, -, hvvNew⟩ :=
    @loadNew_foldl (fun _ => 0) _ (l.map asTried) [] (.start [] 0 0) hnodup'
  rw [List.nil_append] at hloaded
  -- 64 of them in one bucket, the last one in another
  set vvTried : List (List ℤ) := (List.range 64).map (fun i : ℕ => (i : ℤ)) :: [64] :: List.replicate 62 [] with hvvTried
  have hrebuilt : Rebuilt { am₁ with vvTried := vvTried, nTried := 65, nNew := 0 } [] l rows := by
    refine ⟨⟨hloaded.indexed.mapAddr, hloaded.indexed.random, hloaded.indexed.position⟩, ?_, ?_, rfl, ?_, ?_, ?_⟩
    · -- the ids from 0 to 64, in order
      have hflatten : vvTried.flatten = (List.range' 0 65).map (fun i : ℕ => (i : ℤ)) := by
        rw [hvvTried, List.flatten_cons, List.flatten_cons, List.flatten_replicate_nil, List.append_nil,
          ← List.range_eq_range', List.range_succ, List.map_append]
        rfl
      rw [hlength, List.length_nil, ← hflatten]
    · change am₁.vRandom.length = _
      rw [hloaded.length_vRandom, List.length_map, List.length_nil, Nat.zero_add]
    · rw [hlength]
      rfl
    · exact hvvNew.trans hempty.symm
    · -- the entries of the tables
      intro n info
      rw [hempty, occurrences_replicate_empty]
      change am₁.mapInfo.lookup n = some info ↔ _
      rw [hloaded.lookup n info]
      refine exists_congr fun i => exists_congr fun info₀ => and_congr_right fun _ => and_congr_right fun hget => ?_
      obtain ⟨info₁, hinfo₁, rfl⟩ := List.mem_map.mp (List.mem_of_getElem? hget)
      have hzero : (asTried info₁).nRefCount = 0 := (hplain info₁ hinfo₁).1
      rw [Nat.cast_zero, ← hzero]
  have hagrees := hrebuilt.agrees hread
  refine ⟨{ am₁ with vvTried := vvTried, nTried := 65, nNew := 0 }, ?_, ?_, hagrees.checked, hkey, ?_⟩
  · -- the counts fit
    have hnNew : (0 : ℤ) < 2 ^ 31 := by decide
    have hnTried : (65 : ℤ) < 2 ^ 31 := by decide
    refine ⟨?_, hnNew, hnTried, ?_, rfl⟩
    · change am₁.nKey.length ≤ _
      rw [hkey]
      exact Nat.zero_le _
    · change am₁.vvNew.length = _
      rw [hvvNew]
      exact List.length_replicate
  · -- the tables have their sizes
    refine ⟨?_, rfl, ?_, ?_⟩
    · change am₁.vvNew.length = _
      rw [hvvNew]
      exact List.length_replicate
    · intro vNew hv
      change vNew ∈ am₁.vvNew at hv
      rw [hvvNew] at hv
      rw [List.eq_of_mem_replicate hv]
      exact Nat.zero_le _
    · intro v hv
      change v ∈ vvTried at hv
      rw [hvvTried, List.mem_cons, List.mem_cons] at hv
      rcases hv with rfl | rfl | hv
      · rw [List.length_map, List.length_range]
        exact le_rfl
      · decide
      · rw [List.eq_of_mem_replicate hv]
        exact Nat.zero_le _
  · -- each entry is found under its place
    intro i info hget
    have hget' : (l.map asTried)[i]? = some (asTried info) := by
      rw [List.getElem?_map, hget]
      rfl
    exact ⟨_, (hloaded.lookup _ _).mpr ⟨i, _, rfl, hget', rfl⟩, rfl, rfl⟩

end CAddrMan

namespace Sample

/-- One of many peers. -/
def numbered (k : ℕ) : CAddrInfo where
  toCNetAddr := CNetAddr.ofIPv4 8 8 (UInt8.ofNat (k / 256)) (UInt8.ofNat (k % 256))
  port := 9901
  source := CNetAddr.ofIPv4 9 9 9 9
  nLastSuccess := 1

/-- The sample addresses are different. -/
theorem numbered_injective {k j : ℕ} (hk : k < 65536) (hj : j < 65536)
    (h : (numbered k).toCNetAddr = (numbered j).toCNetAddr) : k = j := by
  have hip : (numbered k).ip = (numbered j).ip := congrArg CNetAddr.ip h
  simp only [numbered, CNetAddr.ofIPv4, List.append_cancel_left_eq, List.cons.injEq, true_and, and_true] at hip
  have hhigh := congrArg UInt8.toNat hip.1
  have hlow := congrArg UInt8.toNat hip.2
  rw [UInt8.toNat_ofNat', UInt8.toNat_ofNat'] at hhigh hlow
  omega

/-- Whatever the hash is, there are 65 peers whose addresses belong into one bucket. -/
theorem exists_crowded (hash64 : List UInt8 → UInt64) : ∃ (ks : List ℕ) (b : ℕ), ks.length = 65 ∧ ks.Nodup ∧
    ∀ k ∈ ks, k < 65536 ∧ (numbered k).getTriedBucket hash64 [] = b := by
  obtain ⟨b, -, hb⟩ : ∃ b ∈ Finset.range 64, 64 < ((Finset.range 4097).filter fun k =>
      (numbered k).getTriedBucket hash64 [] = b).card := by
    refine Finset.exists_lt_card_fiber_of_mul_lt_card_of_maps_to ?_ ?_
    · intro k _
      exact Finset.mem_range.mpr (CAddrMan.getTriedBucket_lt _ _)
    · rw [Finset.card_range, Finset.card_range]
      omega
  set s := (Finset.range 4097).filter fun k => (numbered k).getTriedBucket hash64 [] = b with hs
  refine ⟨s.sort.take 65, b, ?_, (s.sort_nodup _).sublist (List.take_sublist _ _), ?_⟩
  · rw [List.length_take, Finset.length_sort]
    omega
  · intro k hk
    have hmem := (Finset.mem_sort _).mp (List.mem_of_mem_take hk)
    rw [hs, Finset.mem_filter, Finset.mem_range] at hmem
    exact ⟨by omega, hmem.2⟩

end Sample

/-- **An entry can be lost**: whatever the hash is, not every address manager that passes `Check_` comes back with
all entries, even when no bucket is too large. -/
theorem addrMan_entryLost : ¬ ∃ hash64 : List UInt8 → UInt64, ∀ am : CAddrMan, am.Typed → am.Sized → am.check = 0 →
    ∃ am' f, CAddrMan.unserialize hash64 SER_DISK 60000 (am.serialize SER_DISK 60000) = .ok (am', []) ∧
      am'.check = 0 ∧ CAddrMan.Restored am am' f fun _ _ => True := by
  -- a hash with 65 addresses of one tried bucket, which a manager holds
  rintro ⟨hash64, hall⟩
  obtain ⟨ks, b, hlength, hnodup, hks⟩ := Sample.exists_crowded hash64
  have hplain : ∀ info ∈ ks.map Sample.numbered, info.nRefCount = 0 ∧ info.fInTried = false ∧ info.nLastTry = 0 ∧
      0 ≤ info.nLastSuccess := by
    intro info hinfo
    obtain ⟨k, -, rfl⟩ := List.mem_map.mp hinfo
    exact ⟨rfl, rfl, rfl, (by decide : (0 : Int64) ≤ 1)⟩
  have hsucceeded : ∀ info ∈ ks.map Sample.numbered, info.nLastSuccess ≠ 0 := by
    intro info hinfo
    obtain ⟨k, -, rfl⟩ := List.mem_map.mp hinfo
    exact (by decide : (1 : Int64) ≠ 0)
  have haddrs : ((ks.map Sample.numbered).map fun info => info.toCNetAddr).Nodup := by
    rw [List.map_map]
    refine List.Nodup.map_on ?_ hnodup
    intro k hk j hj heq
    exact Sample.numbered_injective (hks k hk).1 (hks j hj).1 heq
  obtain ⟨am, htyped, hsized, hchecked, hkey, hentry⟩ :=
    CAddrMan.exists_spread (by rw [List.length_map, hlength]) hplain hsucceeded haddrs
  -- every entry belongs into the bucket `b`
  have hfound : ∀ i < 65, ∃ info, am.mapInfo.lookup ((i : ℕ) : ℤ) = some info ∧ info.fInTried = true ∧
      info.getTriedBucket hash64 am.nKey = b := by
    intro i hi
    have hi' : i < ks.length := by omega
    obtain ⟨info, hinfo, hin, hservice⟩ := hentry i (Sample.numbered ks[i]) (by
      rw [List.getElem?_map, List.getElem?_eq_getElem hi']
      rfl)
    refine ⟨info, hinfo, hin, ?_⟩
    rw [CAddrMan.getTriedBucket_congr hservice, hkey]
    exact (hks _ (List.getElem_mem hi')).2
  -- after a round trip they would all be there
  obtain ⟨am', f, hread, -, hrestored⟩ := hall am htyped hsized (CAddrMan.check_eq_zero_iff.mpr hchecked)
  obtain ⟨am'', hread', -, hrestored'⟩ := @CAddrMan.Checked.restored hash64 am SER_DISK 60000 hchecked htyped []
  rw [List.append_nil, hread] at hread'
  cases hread'
  obtain ⟨info, hinfo, hin, hbucket⟩ := hfound 64 (by omega)
  have hcrowd := CAddrMan.Restored.kept hchecked hrestored' hrestored hinfo hin
  -- the other 64 are before it
  have hsubset : (List.range 64).map (fun i : ℕ => (i : ℤ)) ⊆
      ((am.mapInfo.entries.filter fun q => q.2.fInTried).filter fun q =>
        q.1 < ((64 : ℕ) : ℤ) ∧ q.2.getTriedBucket hash64 am.nKey = info.getTriedBucket hash64 am.nKey).map
          Prod.fst := by
    intro n hn
    obtain ⟨i, hi, rfl⟩ := List.mem_map.mp hn
    have hlt := List.mem_range.mp hi
    obtain ⟨info', hinfo', hin', hbucket'⟩ := hfound i (by omega)
    refine List.mem_map.mpr ⟨((i : ℕ), info'), List.mem_filter.mpr ⟨List.mem_filter.mpr ⟨?_, hin'⟩, ?_⟩, rfl⟩
    · exact OrderedMap.lookup_eq_some_iff.mp hinfo'
    · rw [hbucket, decide_eq_true_eq]
      exact ⟨by omega, hbucket'⟩
  have hle := ((List.nodup_range.map Nat.cast_injective).subperm hsubset).length_le
  rw [List.length_map, List.length_map, List.length_range, ← List.countP_eq_length_filter] at hle
  unfold CAddrMan.crowd ADDRMAN_TRIED_BUCKET_SIZE at hcrowd
  omega

end Peershares
