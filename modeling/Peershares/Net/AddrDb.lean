import Peershares.Model.AddrDb
import Peershares.Net.AddrMan

/-!
# The address manager on disk, read and written

The writer numbers the new entries in the order of their ids, and then the tried ones; the reader gives out the
numbers as ids. What it rebuilds is a function of the lists that it reads (`rebuild`). A tried entry that finds its
bucket full is dropped (`keep`).

* `newLoop_snd`, `triedLoop_eq` — the loops of the writer
* `unserialize_eq` — the reader reads the lists
* `loadNew_foldl`, `loadTried_foldl`, `loadBuckets_eq` — the loops of the reader
* `rebuild_rebuilt`, `Rebuilt.agrees` — what they rebuild agrees
-/

open Framework

namespace Peershares

namespace CAddrMan

/-! ### What is written -/

section Writing

variable {am : CAddrMan} {nType : ℕ} {nVersion : ℤ}

/-- The entries that the first loop of the writer takes. -/
def counted (l : List (ℤ × CAddrInfo)) : List (ℤ × CAddrInfo) := l.filter fun q => q.2.nRefCount ≠ 0

/-- The loop that writes the new entries. -/
theorem newLoop_fst (nNew : ℤ) (l : List (ℤ × CAddrInfo)) (i : ℤ) (m : Map ℤ ℤ)
    (h : i + (counted l).length = nNew) : (newLoop nNew l i m).1 = (counted l).map Prod.snd := by
  induction l generalizing i m with
  | nil => rfl
  | cons q l ih =>
    obtain ⟨n, info⟩ := q
    rw [newLoop]
    by_cases hcount : info.nRefCount ≠ 0
    · -- the entry is written, and there is room for it
      have hcons : counted ((n, info) :: l) = (n, info) :: counted l := by
        unfold counted
        rw [List.filter_cons_of_pos (by simpa using hcount)]
      rw [hcons, List.length_cons] at h
      rw [if_neg (by push_cast at h; omega), if_pos hcount, hcons, List.map_cons,
        ← ih (i + 1) (m.insert n i) (by push_cast at h; omega)]
    · -- an entry without references is not written
      have hcons : counted ((n, info) :: l) = counted l := by
        unfold counted
        rw [List.filter_cons_of_neg (by simpa using hcount)]
      rw [hcons] at h ⊢
      split_ifs with hend
      · -- nothing is left
        have hnil : counted l = [] := List.eq_nil_of_length_eq_zero (by omega)
        rw [hnil]
        rfl
      · exact ih i (m.insert n i) h

/-- It numbers the entries it writes and no others. -/
theorem newLoop_snd_of_notMem (nNew : ℤ) (l : List (ℤ × CAddrInfo)) (i : ℤ) (m : Map ℤ ℤ) {k : ℤ}
    (hk : k ∉ l.map Prod.fst) : (newLoop nNew l i m).2.lookup k = m.lookup k := by
  induction l generalizing i m with
  | nil => rfl
  | cons q l ih =>
    obtain ⟨n, info⟩ := q
    rw [List.map_cons, List.mem_cons, not_or] at hk
    rw [newLoop]
    split_ifs
    · rfl
    · change (newLoop nNew l (i + 1) (m.insert n i)).2.lookup k = _
      rw [ih _ _ hk.2, Map.lookup_insert_eq, if_neg hk.1]
    · rw [ih _ _ hk.2, Map.lookup_insert_eq, if_neg hk.1]

/-- `mapUnkIds` has the numbers of the entries that are written. -/
theorem newLoop_snd (nNew : ℤ) (l : List (ℤ × CAddrInfo)) (i : ℤ) (m : Map ℤ ℤ)
    (h : i + (counted l).length = nNew) (hl : (l.map Prod.fst).Nodup) {j : ℕ} {q : ℤ × CAddrInfo}
    (hj : (counted l)[j]? = some q) : (newLoop nNew l i m).2.lookup q.1 = some (i + j) := by
  induction l generalizing i m j with
  | nil => exact absurd hj (by simp [counted])
  | cons q₀ l ih =>
    obtain ⟨n, info⟩ := q₀
    rw [List.map_cons, List.nodup_cons] at hl
    rw [newLoop]
    by_cases hcount : info.nRefCount ≠ 0
    · have hcons : counted ((n, info) :: l) = (n, info) :: counted l := by
        unfold counted
        rw [List.filter_cons_of_pos (by simpa using hcount)]
      rw [hcons, List.length_cons] at h
      rw [hcons] at hj
      rw [if_neg (by push_cast at h; omega), if_pos hcount]
      change (newLoop nNew l (i + 1) (m.insert n i)).2.lookup q.1 = _
      -- it is the entry itself or a later one
      cases j with
      | zero =>
        obtain rfl : (n, info) = q := by simpa using hj
        rw [newLoop_snd_of_notMem nNew l _ _ hl.1, Map.lookup_insert_eq, if_pos rfl]
        simp
      | succ j =>
        rw [ih (i + 1) (m.insert n i) (by push_cast at h; omega) hl.2 (by simpa using hj)]
        push_cast
        ring_nf
    · have hcons : counted ((n, info) :: l) = counted l := by
        unfold counted
        rw [List.filter_cons_of_neg (by simpa using hcount)]
      rw [hcons] at h hj
      split_ifs with hend
      · -- nothing is left that could be at `j`
        have hnil : counted l = [] := List.eq_nil_of_length_eq_zero (by omega)
        rw [hnil] at hj
        exact absurd hj (by simp)
      · exact ih i (m.insert n i) h hl.2 hj

/-- The loop that writes the tried entries. -/
theorem triedLoop_eq (nTried : ℤ) (l : List (ℤ × CAddrInfo)) (i : ℤ)
    (h : i + (l.filter fun q => q.2.fInTried).length = nTried) :
    triedLoop nTried l i = (l.filter fun q => q.2.fInTried).map Prod.snd := by
  induction l generalizing i with
  | nil => rfl
  | cons q l ih =>
    obtain ⟨n, info⟩ := q
    rw [triedLoop]
    by_cases hin : info.fInTried = true
    · -- the entry is written, and the count is not reached before it
      have hcons : (((n, info) :: l).filter fun q => q.2.fInTried) =
          (n, info) :: l.filter fun q => q.2.fInTried := List.filter_cons_of_pos (by simpa using hin)
      rw [hcons, List.length_cons] at h
      rw [if_neg (by push_cast at h; omega), if_pos hin, hcons, List.map_cons,
        ih (i + 1) (by push_cast at h; omega)]
    · have hcons : (((n, info) :: l).filter fun q => q.2.fInTried) = l.filter fun q => q.2.fInTried :=
        List.filter_cons_of_neg (by simpa using hin)
      rw [hcons] at h ⊢
      split_ifs with hend
      · have hnil : (l.filter fun q => q.2.fInTried) = [] := List.eq_nil_of_length_eq_zero (by omega)
        rw [hnil]
        rfl
      · exact ih i h

end Writing

/-! ### What is read -/

section Reading

variable {hash64 : List UInt8 → UInt64} {nType : ℕ} {nVersion : ℤ}

/-- What is not written does not matter for the bytes. -/
theorem enc_stored (info : CAddrInfo) :
    (CAddrInfo.codec nType nVersion).enc (info.stored nType nVersion) =
      (CAddrInfo.codec nType nVersion).enc info := by
  unfold CAddrInfo.codec CAddrInfo.fields Codec.map Codec.pair Codec.optional CAddrInfo.stored
  simp only
  split_ifs with htime <;> rfl

/-- An entry as it is stored can be written. -/
theorem stored_fits (info : CAddrInfo) :
    (CAddrInfo.codec nType nVersion).Fits (info.stored nType nVersion) := by
  change CAddrInfo.stored nType nVersion (info.stored nType nVersion) = info.stored nType nVersion
  unfold CAddrInfo.stored
  simp only
  split_ifs <;> rfl

/-- And so a row of entries. -/
theorem flatMap_enc_stored (l : List CAddrInfo) :
    l.flatMap (CAddrInfo.codec nType nVersion).enc =
      (l.map (CAddrInfo.stored nType nVersion)).flatMap (CAddrInfo.codec nType nVersion).enc := by
  rw [List.flatMap_map]
  exact List.flatMap_congr fun info _ => (enc_stored info).symm

/-- The third loop of the reader, when the indices have been read. -/
def loadBuckets : List (List ℤ) → ℕ → CAddrMan → CAddrMan
  | [], _, am => am
  | row :: rows, b, am => loadBuckets rows (b + 1) (row.foldl (loadIndex ADDRMAN_NEW_BUCKET_COUNT b) am)

variable (hash64) in
/-- What the reader makes of the entries and the indices. -/
def rebuild (nKey : List UInt8) (news trieds : List CAddrInfo) (rows : List (List ℤ)) : CAddrMan :=
  let am : CAddrMan := { nKey, nNew := news.length, nTried := trieds.length }
  let am := (news.foldl (loadNew hash64 ADDRMAN_NEW_BUCKET_COUNT) (am, 0)).1
  let s := trieds.foldl (loadTried hash64) ({ am with nIdCount := news.length }, 0)
  loadBuckets rows 0 { s.1 with nTried := s.1.nTried - s.2 }

/-- A count fits into 32 bits. -/
theorem int32_fits {i : ℤ} (h : 0 ≤ i) (h' : i < 2 ^ 31) : int32.Fits i := by
  show -(2 ^ (8 * 4) : ℤ) ≤ 2 * i ∧ 2 * i < 2 ^ (8 * 4)
  omega

/-- The third loop reads the rows. -/
theorem readBuckets_eq (rows : List (List ℤ)) (b : ℕ) (am : CAddrMan) (rest : List UInt8)
    (hsize : ∀ row ∈ rows, (row.length : ℤ) < 2 ^ 31) (hfits : ∀ row ∈ rows, ∀ i ∈ row, int32.Fits i) :
    readBuckets ADDRMAN_NEW_BUCKET_COUNT rows.length b am
      (rows.flatMap (fun row => int32.enc row.length ++ row.flatMap int32.enc) ++ rest) =
        .ok (loadBuckets rows b am, rest) := by
  induction rows generalizing b am with
  | nil => rfl
  | cons row rows ih =>
    have hdec := int32.dec_enc (row.flatMap int32.enc ++
      (rows.flatMap (fun row => int32.enc row.length ++ row.flatMap int32.enc) ++ rest))
      (int32_fits (Int.natCast_nonneg row.length) (hsize row List.mem_cons_self))
    have hfold := int32.foldMany_enc (loadIndex ADDRMAN_NEW_BUCKET_COUNT b) (hfits row List.mem_cons_self) am
      (rows.flatMap (fun row => int32.enc row.length ++ row.flatMap int32.enc) ++ rest)
    rw [List.length_cons, readBuckets, List.flatMap_cons, List.append_assoc, List.append_assoc, hdec]
    change (int32.foldMany (loadIndex ADDRMAN_NEW_BUCKET_COUNT b) (row.length : ℤ).toNat am _ >>= _) = _
    rw [Int.toNat_natCast, hfold]
    exact ih (b + 1) _ (fun row' h => hsize row' (List.mem_cons_of_mem _ h))
      fun row' h => hfits row' (List.mem_cons_of_mem _ h)

/-- Reading goes on behind what was read. -/
theorem dec_bind {α β : Type} {c : Codec α} {a : α} (h : c.Fits a) (rest : List UInt8)
    (f : α × List UInt8 → Except String β) : (c.dec (c.enc a ++ rest) >>= f) = f (a, rest) := by
  rw [c.dec_enc rest h]
  rfl

/-- And so behind a row. -/
theorem foldMany_bind {α σ β : Type} {c : Codec α} {l : List α} (h : ∀ a ∈ l, c.Fits a) (step : σ → α → σ)
    (st : σ) (rest : List UInt8) (f : σ × List UInt8 → Except String β) :
    (c.foldMany step l.length st (l.flatMap c.enc ++ rest) >>= f) = f (l.foldl step st, rest) := by
  rw [c.foldMany_enc step h]
  rfl

/-- **The reader reads what is written**: the entries, and the indices of the buckets. -/
theorem unserialize_eq {nKey : List UInt8} {news trieds : List CAddrInfo} {rows : List (List ℤ)}
    (hkey : nKey.length ≤ MAX_SIZE) (hnews : (news.length : ℤ) < 2 ^ 31) (htrieds : (trieds.length : ℤ) < 2 ^ 31)
    (hrows : rows.length = ADDRMAN_NEW_BUCKET_COUNT) (hsize : ∀ row ∈ rows, (row.length : ℤ) < 2 ^ 31)
    (hfits : ∀ row ∈ rows, ∀ i ∈ row, int32.Fits i) (rest : List UInt8) :
    unserialize hash64 nType nVersion
      ((Codec.uint endOfData 1).enc 0 ++ string.enc nKey ++ int32.enc news.length ++ int32.enc trieds.length ++
        int32.enc ADDRMAN_NEW_BUCKET_COUNT ++ news.flatMap (CAddrInfo.codec nType (0 : ℕ)).enc ++
        trieds.flatMap (CAddrInfo.codec nType (0 : ℕ)).enc ++
        rows.flatMap (fun row => int32.enc row.length ++ row.flatMap int32.enc) ++ rest) =
      .ok (rebuild hash64 nKey (news.map (CAddrInfo.stored nType (0 : ℕ)))
        (trieds.map (CAddrInfo.stored nType (0 : ℕ))) rows, rest) := by
  -- every part fits its codec, so it is read back; then the reader is run part by part
  have hall : ∀ l : List CAddrInfo, ∀ info ∈ l.map (CAddrInfo.stored nType (0 : ℕ)),
      (CAddrInfo.codec nType (0 : ℕ)).Fits info := by
    intro l info hinfo
    obtain ⟨info₀, -, rfl⟩ := List.mem_map.mp hinfo
    exact stored_fits info₀
  have hcount : int32.Fits (ADDRMAN_NEW_BUCKET_COUNT : ℤ) := by
    refine int32_fits (Int.natCast_nonneg _) ?_
    unfold ADDRMAN_NEW_BUCKET_COUNT
    norm_num
  simp only [List.append_assoc, flatMap_enc_stored news, flatMap_enc_stored trieds]
  have hnewsLength : news.length = (news.map (CAddrInfo.stored nType (0 : ℕ))).length :=
    (List.length_map _).symm
  have htriedsLength : trieds.length = (trieds.map (CAddrInfo.stored nType (0 : ℕ))).length :=
    (List.length_map _).symm
  have hread := fun am => readBuckets_eq rows 0 am rest hsize hfits
  simp only [hrows] at hread
  -- the reader, part by part
  unfold unserialize
  rw [dec_bind (Nat.pow_pos (by omega) : (Codec.uint endOfData 1).Fits 0)]
  dsimp only
  rw [dec_bind (string_fits.mpr hkey)]
  dsimp only
  rw [dec_bind (int32_fits (Int.natCast_nonneg news.length) hnews)]
  dsimp only
  rw [dec_bind (int32_fits (Int.natCast_nonneg trieds.length) htrieds)]
  dsimp only
  rw [dec_bind hcount]
  dsimp only
  rw [Int.toNat_natCast, Int.toNat_natCast, Int.toNat_natCast]
  rw [hnewsLength, foldMany_bind (hall news)]
  dsimp only
  rw [htriedsLength, foldMany_bind (hall trieds)]
  dsimp only
  rw [hread]
  unfold rebuild
  rw [List.length_map, List.length_map]

end Reading

/-! ### What is rebuilt -/

section Rebuilding

variable {hash64 : List UInt8 → UInt64} {am am' : CAddrMan}

/-- The entries are those of a list, with their positions as ids and as places in `vRandom`. -/
structure Loaded (am : CAddrMan) (l : List CAddrInfo) : Prop where
  indexed : am.Indexed
  length_vRandom : am.vRandom.length = l.length
  lookup : ∀ n info, am.mapInfo.lookup n = some info ↔
    ∃ (i : ℕ) (info₀ : CAddrInfo), n = i ∧ l[i]? = some info₀ ∧ info = { info₀ with nRandomPos := i }

/-- The next entry. -/
theorem Loaded.append {l : List CAddrInfo} {info : CAddrInfo} (h : Loaded am l)
    (hnew : info.toCNetAddr ∉ l.map fun info => info.toCNetAddr)
    (hlookup : ∀ n, am'.mapInfo.lookup n = if n = (l.length : ℤ) then some { info with nRandomPos := l.length }
      else am.mapInfo.lookup n)
    (haddr : am'.mapAddr = am.mapAddr.insert info.toCNetAddr l.length)
    (hrandom : am'.vRandom = am.vRandom ++ [(l.length : ℤ)]) : Loaded am' (l ++ [info]) := by
  -- neither the id nor the address is taken
  have hfresh : am.mapInfo.lookup l.length = none := by
    cases hold : am.mapInfo.lookup l.length with
    | none => rfl
    | some info' =>
      obtain ⟨i, info₀, hi, hget, -⟩ := (h.lookup _ _).mp hold
      have hlt := (List.getElem?_eq_some_iff.mp hget).1
      omega
  have hnone : am.mapAddr.lookup info.toCNetAddr = none := by
    cases hold : am.mapAddr.lookup info.toCNetAddr with
    | none => rfl
    | some n =>
      obtain ⟨info', hinfo', ha⟩ := (h.indexed.mapAddr _ n).mp hold
      obtain ⟨i, info₀, -, hget, rfl⟩ := (h.lookup _ _).mp hinfo'
      exact absurd (List.mem_map.mpr ⟨info₀, List.mem_of_getElem? hget, ha⟩) hnew
  refine ⟨?_, ?_, ?_⟩
  · -- the maps stay one to one
    refine @Indexed.created am am' { info with nRandomPos := l.length } l.length h.indexed hnone hfresh ?_ hlookup
      haddr hrandom
    rw [h.length_vRandom]
  · -- one place more in `vRandom`
    rw [hrandom, List.length_append, List.length_append, h.length_vRandom]
    rfl
  · intro n info'
    rw [hlookup n]
    by_cases hn : n = l.length
    · rw [if_pos hn]
      constructor
      · intro heq
        cases heq
        exact ⟨l.length, info, hn, List.getElem?_concat_length, rfl⟩
      · rintro ⟨i, info₀, hi, hget, rfl⟩
        -- the new id is behind the list, so the entry at it is the new one
        obtain rfl : i = l.length := by omega
        rw [List.getElem?_concat_length] at hget
        cases hget
        rfl
    · -- an old id keeps its entry
      rw [if_neg hn, h.lookup n info']
      constructor
      · rintro ⟨i, info₀, hi, hget, heq⟩
        refine ⟨i, info₀, hi, ?_, heq⟩
        rw [List.getElem?_append_left (List.getElem?_eq_some_iff.mp hget).1]
        exact hget
      · rintro ⟨i, info₀, hi, hget, heq⟩
        have hlt := (List.getElem?_eq_some_iff.mp hget).1
        rw [List.length_append, List.length_singleton] at hlt
        rw [List.getElem?_append_left (by omega)] at hget
        exact ⟨i, info₀, hi, hget, heq⟩

/-- **The first loop of the reader.** -/
theorem loadNew_foldl (news : List CAddrInfo) {l : List CAddrInfo} (h : Loaded am l)
    (hnodup : ((l ++ news).map fun info => info.toCNetAddr).Nodup) :
    ∃ am', news.foldl (loadNew hash64 ADDRMAN_NEW_BUCKET_COUNT) (am, (l.length : ℤ)) =
        (am', ((l ++ news).length : ℤ)) ∧ Loaded am' (l ++ news) ∧ am'.nKey = am.nKey ∧ am'.nTried = am.nTried ∧
      am'.vvTried = am.vvTried ∧ am'.nNew = am.nNew ∧ am'.vvNew = am.vvNew := by
  induction news generalizing am l with
  | nil => exact ⟨am, by simp, by simpa using h, rfl, rfl, rfl, rfl, rfl⟩
  | cons info news ih =>
    -- the table with one entry more
    set am₁ : CAddrMan := { am.setInfo l.length { info with nRandomPos := l.length } with
      mapAddr := am.mapAddr.insert info.toCNetAddr l.length
      vRandom := am.vRandom ++ [(l.length : ℤ)] } with ham₁
    have hstep : loadNew hash64 ADDRMAN_NEW_BUCKET_COUNT (am, (l.length : ℤ)) info =
        (am₁, ((l ++ [info]).length : ℤ)) := by
      unfold loadNew
      simp only [h.length_vRandom, ne_eq, not_true_eq_false, if_false, List.length_append, List.length_singleton,
        Nat.cast_add, Nat.cast_one]
      rfl
    -- its address is not in the table yet
    have hfresh : info.toCNetAddr ∉ l.map fun info => info.toCNetAddr := by
      rw [List.map_append, List.nodup_append] at hnodup
      intro hmem
      exact hnodup.2.2 _ hmem _ (by simp) rfl
    have hloaded : Loaded am₁ (l ++ [info]) := by
      refine h.append hfresh ?_ rfl rfl
      intro n
      exact lookup_setInfo am l.length n _
    have hassoc : l ++ info :: news = l ++ [info] ++ news := by simp
    rw [List.foldl_cons, hstep, hassoc]
    exact ih hloaded (by rw [← hassoc]; exact hnodup)

/-- An entry that is read as a tried one. -/
def asTried (info : CAddrInfo) : CAddrInfo := { info with fInTried := true }

variable (hash64) in
/-- Of the tried entries, those that find room when `done` have been read before. -/
def keep (nKey : List UInt8) : List CAddrInfo → List CAddrInfo → List CAddrInfo
  | _, [] => []
  | done, info :: l =>
    if done.countP (fun info' => info'.getTriedBucket hash64 nKey = info.getTriedBucket hash64 nKey) <
        ADDRMAN_TRIED_BUCKET_SIZE then info :: keep nKey (done ++ [info]) l
    else keep nKey (done ++ [info]) l

/-- What is kept of the tried entries stands in their order. -/
theorem keep_sublist (nKey : List UInt8) (done l : List CAddrInfo) : (keep hash64 nKey done l).Sublist l := by
  induction l generalizing done with
  | nil => exact List.Sublist.slnil
  | cons info l ih =>
    rw [keep]
    split_ifs
    · exact (ih _).cons_cons info
    · exact (ih _).cons info

variable (hash64) in
/-- The tried entries are in the buckets of their addresses, with the ids from `k` on. -/
structure Shelved (am : CAddrMan) (k : ℕ) (kept : List CAddrInfo) : Prop where
  length_vvTried : am.vvTried.length = ADDRMAN_TRIED_BUCKET_COUNT
  length_bucket : ∀ b, (am.triedBucket b).length =
    kept.countP fun info => info.getTriedBucket hash64 am.nKey = b
  flatten : am.vvTried.flatten.Perm ((List.range' k kept.length).map (fun i : ℕ => (i : ℤ)))

/-- One more tried entry. -/
theorem Shelved.append {k : ℕ} {kept : List CAddrInfo} {info : CAddrInfo} (h : Shelved hash64 am k kept)
    (hkey : am'.nKey = am.nKey)
    (hvvTried : am'.vvTried = am.vvTried.set (info.getTriedBucket hash64 am.nKey)
      (am.triedBucket (info.getTriedBucket hash64 am.nKey) ++ [((k + kept.length : ℕ) : ℤ)])) :
    Shelved hash64 am' k (kept ++ [info]) := by
  set b₀ := info.getTriedBucket hash64 am.nKey with hb₀
  have hlt : b₀ < am.vvTried.length := by
    rw [h.length_vvTried]
    exact getTriedBucket_lt info am.nKey
  have hbucket := triedBucket_eq hlt
  refine ⟨?_, ?_, ?_⟩
  · rw [hvvTried, List.length_set]
    exact h.length_vvTried
  · intro b
    have hold := h.length_bucket b
    unfold triedBucket at hold ⊢
    rw [hvvTried, hkey, List.countP_append, List.countP_singleton, ← hold]
    simp only [List.getD_eq_getElem?_getD, List.getElem?_set, decide_eq_true_eq]
    rw [← hb₀]
    -- only its own bucket gets longer
    by_cases hb : b₀ = b
    · subst hb
      rw [if_pos rfl, if_pos hlt, if_pos rfl, Option.getD_some, List.length_append, hbucket]
      rfl
    · rw [if_neg hb, if_neg hb, Nat.add_zero]
  · rw [hvvTried, List.length_append, List.length_singleton, List.range'_concat, List.map_append]
    -- and the flattened table has the new index at the end
    have hset := flatten_set_perm hbucket (am.triedBucket b₀ ++ [((k + kept.length : ℕ) : ℤ)])
    have hold := (flatten_perm hbucket).symm.trans h.flatten
    refine hset.trans ?_
    rw [List.append_assoc]
    refine (List.perm_append_comm_assoc _ _ _).trans ?_
    refine List.perm_append_comm.trans ?_
    rw [Nat.one_mul]
    exact hold.append_right _

/-- A tried entry that finds room. -/
theorem loadTried_of_lt {l kept : List CAddrInfo} {info : CAddrInfo} (nLost : ℤ) (h : Loaded am (l ++ kept.map asTried))
    (hid : am.nIdCount = ((l.length + kept.length : ℕ) : ℤ)) (hshelved : Shelved hash64 am l.length kept)
    (hnodup : ((l ++ (kept ++ [info])).map fun info => info.toCNetAddr).Nodup)
    (hlt : (am.triedBucket (info.getTriedBucket hash64 am.nKey)).length < ADDRMAN_TRIED_BUCKET_SIZE) :
    ∃ am', loadTried hash64 (am, nLost) info = (am', nLost) ∧ Loaded am' (l ++ (kept ++ [info]).map asTried) ∧
      am'.nIdCount = ((l.length + (kept ++ [info]).length : ℕ) : ℤ) ∧
      Shelved hash64 am' l.length (kept ++ [info]) ∧ am'.nKey = am.nKey ∧ am'.nTried = am.nTried ∧
      am'.nNew = am.nNew ∧ am'.vvNew = am.vvNew := by
  have hlen : (l ++ kept.map asTried).length = l.length + kept.length := by
    rw [List.length_append, List.length_map]
  set b := info.getTriedBucket hash64 am.nKey with hb
  set am₁ : CAddrMan := { am.setInfo am.nIdCount { asTried info with nRandomPos := am.vRandom.length } with
    vRandom := am.vRandom ++ [am.nIdCount]
    mapAddr := am.mapAddr.insert info.toCNetAddr am.nIdCount
    vvTried := am.vvTried.set b (am.triedBucket b ++ [am.nIdCount])
    nIdCount := am.nIdCount + 1 } with ham₁
  -- the bucket has room, so the entry is loaded
  have hstep : loadTried hash64 (am, nLost) info = (am₁, nLost) := by
    unfold loadTried
    simp only [← hb, hlt, if_true]
    rfl
  -- its address is none of those before, so the maps stay one to one
  have hfresh : (asTried info).toCNetAddr ∉ (l ++ kept.map asTried).map fun info => info.toCNetAddr := by
    have hmap : ((l ++ kept.map asTried).map fun info => info.toCNetAddr) =
        (l ++ kept).map fun info => info.toCNetAddr := by
      rw [List.map_append, List.map_append, List.map_map]
      rfl
    rw [hmap]
    rw [← List.append_assoc, List.map_append, List.nodup_append] at hnodup
    intro hmem
    exact hnodup.2.2 _ hmem _ (by simp [asTried]) rfl
  have hloaded : Loaded am₁ (l ++ (kept ++ [info]).map asTried) := by
    rw [List.map_append, ← List.append_assoc]
    refine h.append hfresh ?_ ?_ ?_
    · intro n
      rw [hlen, ← hid]
      have hlookup := lookup_setInfo am am.nIdCount n { asTried info with nRandomPos := am.vRandom.length }
      rw [h.length_vRandom, hlen, ← hid] at hlookup
      rw [← hlookup, ham₁, h.length_vRandom, hlen, ← hid]
    · rw [hlen, ← hid]
      rfl
    · rw [hlen, ← hid]
  -- and it is put into its bucket
  have hshelved₁ : Shelved hash64 am₁ l.length (kept ++ [info]) := by
    refine hshelved.append rfl ?_
    rw [← hid]
  refine ⟨am₁, hstep, hloaded, ?_, hshelved₁, rfl, rfl, rfl, rfl⟩
  rw [ham₁, List.length_append, List.length_singleton, hid]
  push_cast
  ring

/-- **The second loop of the reader**: what finds no room is lost. -/
theorem loadTried_foldl {l : List CAddrInfo} (trieds : List CAddrInfo) {done kept : List CAddrInfo} (nLost : ℤ)
    (h : Loaded am (l ++ kept.map asTried)) (hid : am.nIdCount = ((l.length + kept.length : ℕ) : ℤ))
    (hshelved : Shelved hash64 am l.length kept) (hsub : kept.Sublist done)
    (hfull : ∀ b, kept.countP (fun info => info.getTriedBucket hash64 am.nKey = b) =
      min (done.countP fun info => info.getTriedBucket hash64 am.nKey = b) ADDRMAN_TRIED_BUCKET_SIZE)
    (hnodup : ((l ++ (done ++ trieds)).map fun info => info.toCNetAddr).Nodup) :
    ∃ am' : CAddrMan, trieds.foldl (loadTried hash64) (am, nLost) =
        (am', nLost + (trieds.length - (keep hash64 am.nKey done trieds).length)) ∧
      Loaded am' (l ++ (kept ++ keep hash64 am.nKey done trieds).map asTried) ∧
      Shelved hash64 am' l.length (kept ++ keep hash64 am.nKey done trieds) ∧ am'.nKey = am.nKey ∧
      am'.nTried = am.nTried ∧ am'.nNew = am.nNew ∧ am'.vvNew = am.vvNew := by
  induction trieds generalizing am done kept nLost with
  | nil => exact ⟨am, by simp [keep], by simpa [keep] using h, by simpa [keep] using hshelved, rfl, rfl, rfl, rfl⟩
  | cons info trieds ih =>
    have hassoc : done ++ info :: trieds = done ++ [info] ++ trieds := by simp
    set b := info.getTriedBucket hash64 am.nKey with hb
    -- the length of the bucket counts what was kept for it
    have hbucket : (am.triedBucket b).length =
        min (done.countP fun info' => info'.getTriedBucket hash64 am.nKey = b) ADDRMAN_TRIED_BUCKET_SIZE := by
      rw [hshelved.length_bucket b, hfull b]
    rw [List.foldl_cons, keep]
    by_cases hroom : (done.countP fun info' => info'.getTriedBucket hash64 am.nKey = b) < ADDRMAN_TRIED_BUCKET_SIZE
    · -- there is room: the entry is kept, with the next number
      have hnodup₁ : ((l ++ (kept ++ [info])).map fun info => info.toCNetAddr).Nodup := by
        refine hnodup.sublist (List.Sublist.map _ ?_)
        refine (List.Sublist.refl l).append (hsub.append ?_)
        exact List.singleton_sublist.mpr List.mem_cons_self
      obtain ⟨am₁, hstep, hloaded, hid₁, hshelved₁, hkey, hnTried, hnNew, hvvNew⟩ :=
        loadTried_of_lt nLost h hid hshelved hnodup₁ (by rw [hbucket]; omega)
      rw [if_pos hroom, hstep]
      -- the rest, by the induction hypothesis
      obtain ⟨am', hloop, hloaded', hshelved', hkey', hnTried', hnNew', hvvNew'⟩ :=
        @ih am₁ (done ++ [info]) (kept ++ [info]) nLost hloaded hid₁ hshelved₁ (hsub.append (List.Sublist.refl _)) (by
          intro b'
          rw [hkey, List.countP_append, List.countP_append, hfull b', List.countP_singleton]
          split_ifs with hb'
          · obtain rfl : b = b' := by simpa using hb'
            omega
          · omega) (by rw [← hassoc]; exact hnodup)
      rw [hkey, List.append_assoc, List.singleton_append] at hloaded' hshelved'
      rw [hkey] at hloop
      refine ⟨am', ?_, hloaded', hshelved', hkey'.trans hkey, hnTried'.trans hnTried, hnNew'.trans hnNew,
        hvvNew'.trans hvvNew⟩
      rw [hloop, List.length_cons, List.length_cons]
      push_cast
      ring_nf
    · -- the bucket is full: the entry is lost, and only the count of the lost changes
      have hstep : loadTried hash64 (am, nLost) info = (am, nLost + 1) := by
        unfold loadTried
        simp only [← hb]
        rw [if_neg (by rw [hbucket]; omega)]
      rw [if_neg hroom, hstep]
      -- the rest, with one more lost
      obtain ⟨am', hloop, hrest⟩ :=
        @ih am (done ++ [info]) kept (nLost + 1) h hid hshelved (hsub.trans (List.sublist_append_left _ _)) (by
          intro b'
          rw [hfull b', List.countP_append, List.countP_singleton]
          split_ifs with hb'
          · obtain rfl : b = b' := by simpa using hb'
            omega
          · omega) (by rw [← hassoc]; exact hnodup)
      refine ⟨am', ?_, hrest⟩
      rw [hloop, List.length_cons]
      push_cast
      ring_nf

/-- The new buckets are filled as far as `vvNew`, and each entry counts those with it. -/
structure Counting (am am' : CAddrMan) (vvNew : List (Finset ℤ)) : Prop where
  eq : am' = { am with mapInfo := am'.mapInfo, vvNew := vvNew }
  lookup : ∀ n, am'.mapInfo.lookup n =
    (am.mapInfo.lookup n).map fun info => { info with nRefCount := occurrences vvNew n }

/-- One index. -/
theorem Counting.index {vvNew : List (Finset ℤ)} {b : ℕ} {vNew : Finset ℤ} {n : ℤ} (h : Counting am am' vvNew)
    (hb : vvNew[b]? = some vNew) (hn : n ∉ vNew) (hhas : (am.mapInfo.lookup n).isSome = true)
    (hmax : (occurrences vvNew n : ℤ) < ADDRMAN_NEW_BUCKETS_PER_ADDRESS) :
    Counting am (loadIndex ADDRMAN_NEW_BUCKET_COUNT b am' n) (vvNew.set b (insert n vNew)) := by
  obtain ⟨info, hinfo⟩ := Option.isSome_iff_exists.mp hhas
  have hinfo' : am'.mapInfo.lookup n = some { info with nRefCount := occurrences vvNew n } := by
    rw [h.lookup n, hinfo]
    rfl
  have hvvNew : am'.vvNew = vvNew := by rw [h.eq]
  have hbucket : am'.newBucket b = vNew := by
    unfold newBucket
    rw [hvvNew, List.getD_eq_getElem?_getD, hb]
    rfl
  unfold loadIndex
  rw [info_eq hinfo', if_pos ⟨rfl, hmax⟩, hvvNew, hbucket]
  refine ⟨?_, ?_⟩
  · rw [h.eq]
    rfl
  · intro m
    refine (lookup_setInfo am' n m _).trans ?_
    rw [occurrences_insert hb hn m]
    split_ifs with hm
    · rw [hm, hinfo]
      rfl
    · rw [h.lookup m]
      rfl

/-- The indices of one bucket. -/
theorem Counting.row {vvNew : List (Finset ℤ)} {b : ℕ} {vNew : Finset ℤ} (row : List ℤ) (h : Counting am am' vvNew)
    (hb : vvNew[b]? = some vNew) (hnodup : row.Nodup) (hnew : ∀ n ∈ row, n ∉ vNew)
    (hhas : ∀ n ∈ row, (am.mapInfo.lookup n).isSome = true)
    (hmax : ∀ n ∈ row, (occurrences vvNew n : ℤ) < ADDRMAN_NEW_BUCKETS_PER_ADDRESS) :
    Counting am (row.foldl (loadIndex ADDRMAN_NEW_BUCKET_COUNT b) am') (vvNew.set b (vNew ∪ row.toFinset)) := by
  induction row generalizing am' vvNew vNew with
  | nil =>
    have hsame : vvNew.set b vNew = vvNew := by
      obtain ⟨hlt, rfl⟩ := List.getElem?_eq_some_iff.mp hb
      exact List.set_getElem_self hlt
    rw [List.toFinset_nil, Finset.union_empty, hsame]
    exact h
  | cons n row ih =>
    rw [List.nodup_cons] at hnodup
    have hlt := (List.getElem?_eq_some_iff.mp hb).1
    have hstep := h.index hb (hnew n List.mem_cons_self) (hhas n List.mem_cons_self) (hmax n List.mem_cons_self)
    have hrest := ih hstep (List.getElem?_set_self hlt) hnodup.2 ?_
      (fun m hm => hhas m (List.mem_cons_of_mem _ hm)) ?_
    · rw [List.set_set, Finset.insert_union, ← Finset.union_insert, ← List.toFinset_cons] at hrest
      exact hrest
    · intro m hm hmem
      rcases Finset.mem_insert.mp hmem with rfl | hmem
      · exact hnodup.1 hm
      · exact hnew m (List.mem_cons_of_mem _ hm) hmem
    · intro m hm
      have hne : m ≠ n := fun heq => hnodup.1 (heq ▸ hm)
      rw [occurrences_insert hb (hnew n List.mem_cons_self) m, if_neg hne]
      exact hmax m (List.mem_cons_of_mem _ hm)

/-- **The third loop of the reader.** -/
theorem loadBuckets_eq (rows : List (List ℤ)) {done : List (Finset ℤ)}
    (h : Counting am am' (done ++ List.replicate rows.length ∅)) (hnodup : ∀ row ∈ rows, row.Nodup)
    (hhas : ∀ row ∈ rows, ∀ n ∈ row, (am.mapInfo.lookup n).isSome = true)
    (hmax : ∀ n, (occurrences (done ++ rows.map List.toFinset) n : ℤ) ≤ ADDRMAN_NEW_BUCKETS_PER_ADDRESS) :
    Counting am (loadBuckets rows done.length am') (done ++ rows.map List.toFinset) := by
  induction rows generalizing am' done with
  | nil => exact h
  | cons row rows ih =>
    rw [List.length_cons, List.replicate_succ] at h
    have hget : (done ++ ∅ :: List.replicate rows.length ∅)[done.length]? = some (∅ : Finset ℤ) := by
      rw [List.getElem?_append_right le_rfl, Nat.sub_self]
      rfl
    have hmax' : ∀ n ∈ row, (occurrences (done ++ ∅ :: List.replicate rows.length ∅) n : ℤ) <
        ADDRMAN_NEW_BUCKETS_PER_ADDRESS := by
      intro n hn
      have hn' := hmax n
      have hempty := occurrences_replicate_empty rows.length n
      unfold occurrences at hn' hempty ⊢
      rw [List.map_cons, List.countP_append, List.countP_cons_of_pos (by simpa using hn)] at hn'
      rw [List.countP_append, List.countP_cons_of_neg (by simp), hempty]
      push_cast at hn' ⊢
      omega
    have hrow := h.row row hget (hnodup row List.mem_cons_self) (fun n _ => Finset.notMem_empty n)
      (hhas row List.mem_cons_self) hmax'
    have hset : (done ++ ∅ :: List.replicate rows.length ∅).set done.length (∅ ∪ row.toFinset) =
        (done ++ [row.toFinset]) ++ List.replicate rows.length ∅ := by
      rw [Finset.empty_union, List.set_append_right _ _ le_rfl, Nat.sub_self, List.set_cons_zero,
        List.append_assoc]
      rfl
    have hassoc : done ++ (row :: rows).map List.toFinset = (done ++ [row.toFinset]) ++ rows.map List.toFinset := by
      simp
    rw [hset] at hrow
    rw [hassoc] at hmax ⊢
    rw [loadBuckets]
    have hnext := ih hrow (fun row' h => hnodup row' (List.mem_cons_of_mem _ h))
      (fun row' h => hhas row' (List.mem_cons_of_mem _ h)) hmax
    rw [List.length_append, List.length_singleton] at hnext
    exact hnext

/-- What the loops make of the entries and the indices. -/
structure Rebuilt (am : CAddrMan) (news trieds : List CAddrInfo) (rows : List (List ℤ)) : Prop where
  indexed : am.Indexed
  vvTried : am.vvTried.flatten.Perm ((List.range' news.length trieds.length).map (fun i : ℕ => (i : ℤ)))
  length_vRandom : am.vRandom.length = news.length + trieds.length
  nNew : am.nNew = news.length
  nTried : am.nTried = trieds.length
  vvNew : am.vvNew = rows.map List.toFinset
  lookup : ∀ n info, am.mapInfo.lookup n = some info ↔
    ∃ (i : ℕ) (info₀ : CAddrInfo), n = i ∧ (news ++ trieds.map asTried)[i]? = some info₀ ∧
      info = { info₀ with nRandomPos := i, nRefCount := occurrences (rows.map List.toFinset) n }

/-- The lists that are read. -/
structure Readable (news trieds : List CAddrInfo) (rows : List (List ℤ)) : Prop where
  plain : ∀ info ∈ news ++ trieds, info.nRefCount = 0 ∧ info.fInTried = false ∧ info.nLastTry = 0 ∧
    0 ≤ info.nLastSuccess
  succeeded : ∀ info ∈ trieds, info.nLastSuccess ≠ 0
  nodup : ((news ++ trieds).map fun info => info.toCNetAddr).Nodup
  length_rows : rows.length = ADDRMAN_NEW_BUCKET_COUNT
  nodup_row : ∀ row ∈ rows, row.Nodup
  index : ∀ row ∈ rows, ∀ n ∈ row, ∃ i < news.length, n = ((i : ℕ) : ℤ)
  pos : ∀ i < news.length, 0 < occurrences (rows.map List.toFinset) ((i : ℕ) : ℤ)
  max : ∀ n, (occurrences (rows.map List.toFinset) n : ℤ) ≤ ADDRMAN_NEW_BUCKETS_PER_ADDRESS

/-- The tables before the first loop. -/
theorem Loaded.start (nKey : List UInt8) (nNew nTried : ℤ) : Loaded { nKey, nNew, nTried } [] := by
  have hstart : CAddrMan.Indexed { nKey } := (@Inv.start (fun _ => 0) nKey).indexed
  refine ⟨⟨hstart.mapAddr, hstart.random, hstart.position⟩, rfl, ?_⟩
  intro n info
  constructor
  · intro hinfo
    exact absurd hinfo (by simp [OrderedMap.lookup_empty])
  · rintro ⟨i, info₀, -, hget, -⟩
    exact absurd hget (by simp)

/-- The tried buckets before the second loop. -/
theorem Shelved.start (k : ℕ) (h : am.vvTried = List.replicate ADDRMAN_TRIED_BUCKET_COUNT []) :
    Shelved hash64 am k [] := by
  refine ⟨?_, ?_, ?_⟩
  · rw [h]
    exact List.length_replicate
  · intro b
    unfold triedBucket
    rw [h, List.getD_eq_getElem?_getD, List.getElem?_replicate]
    split_ifs <;> rfl
  · have hflatten : am.vvTried.flatten = [] := by
      rw [h, List.flatten_eq_nil_iff]
      exact fun l hl => List.eq_of_mem_replicate hl
    rw [hflatten]
    exact List.Perm.refl _

/-- The new buckets before the third loop. -/
theorem Counting.start {k : ℕ} {l : List CAddrInfo} (hloaded : Loaded am l)
    (hplain : ∀ info ∈ l, info.nRefCount = 0) (hvvNew : am.vvNew = List.replicate k ∅) :
    Counting am am (List.replicate k ∅) := by
  refine ⟨?_, ?_⟩
  · rw [← hvvNew]
  · intro n
    rw [occurrences_replicate_empty]
    cases hinfo : am.mapInfo.lookup n with
    | none => rfl
    | some info =>
      obtain ⟨i, info₀, -, hget, rfl⟩ := (hloaded.lookup n info).mp hinfo
      have hzero := hplain info₀ (List.mem_of_getElem? hget)
      rw [Option.map_some, Nat.cast_zero, ← hzero]

/-- Fewer tried entries are still readable. -/
theorem Readable.sublist {news trieds kept : List CAddrInfo} {rows : List (List ℤ)} (h : Readable news trieds rows)
    (hsub : kept.Sublist trieds) : Readable news kept rows where
  plain info hinfo := h.plain info (((List.Sublist.refl news).append hsub).subset hinfo)
  succeeded info hinfo := h.succeeded info (hsub.subset hinfo)
  nodup := h.nodup.sublist (((List.Sublist.refl news).append hsub).map _)
  length_rows := h.length_rows
  nodup_row := h.nodup_row
  index := h.index
  pos := h.pos
  max := h.max

/-- The first two loops of the reader. -/
theorem loadEntries {nKey : List UInt8} {news trieds : List CAddrInfo} {rows : List (List ℤ)}
    (h : Readable news trieds rows) :
    ∃ am, rebuild hash64 nKey news trieds rows = loadBuckets rows 0 am ∧
      Loaded am (news ++ (keep hash64 nKey [] trieds).map asTried) ∧
      Shelved hash64 am news.length (keep hash64 nKey [] trieds) ∧ am.nKey = nKey ∧
      am.nTried = (keep hash64 nKey [] trieds).length ∧ am.nNew = news.length ∧
      am.vvNew = List.replicate ADDRMAN_NEW_BUCKET_COUNT ∅ := by
  have hnodup₁ : (([] ++ news).map fun info : CAddrInfo => info.toCNetAddr).Nodup := by
    have hnodup := h.nodup
    rw [List.map_append, List.nodup_append] at hnodup
    exact hnodup.1
  obtain ⟨am₁, hloop₁, hloaded₁, hkey₁, hnTried₁, hvvTried₁, hnNew₁, hvvNew₁⟩ :=
    @loadNew_foldl hash64 _ news [] (.start nKey news.length trieds.length) hnodup₁
  have hloaded₁' : Loaded { am₁ with nIdCount := news.length } (news ++ ([] : List CAddrInfo).map asTried) := by
    rw [List.map_nil, List.append_nil]
    exact ⟨⟨hloaded₁.indexed.mapAddr, hloaded₁.indexed.random, hloaded₁.indexed.position⟩,
      hloaded₁.length_vRandom, hloaded₁.lookup⟩
  have hshelved₁ : Shelved hash64 { am₁ with nIdCount := news.length } news.length [] := .start _ hvvTried₁
  obtain ⟨am₂, hloop₂, hloaded₂, hshelved₂, hkey₂, hnTried₂, hnNew₂, hvvNew₂⟩ :=
    @loadTried_foldl hash64 _ news trieds [] [] 0 hloaded₁' (by simp) hshelved₁ (List.Sublist.refl _)
      (fun b => (Nat.zero_min _).symm) h.nodup
  -- what could not be kept is left out of the number of tried entries
  simp only [hkey₁, List.nil_append, zero_add] at hloop₂ hloaded₂ hshelved₂
  refine ⟨{ am₂ with nTried := am₂.nTried - (trieds.length - (keep hash64 nKey [] trieds).length) }, ?_, ?_, ?_,
    hkey₂.trans hkey₁, ?_, hnNew₂.trans hnNew₁, hvvNew₂.trans hvvNew₁⟩
  · rw [List.length_nil, Nat.cast_zero] at hloop₁
    unfold rebuild
    dsimp only
    rw [hloop₁]
    dsimp only
    rw [show am₁.nKey = nKey from hkey₁, hloop₂]
  · exact ⟨⟨hloaded₂.indexed.mapAddr, hloaded₂.indexed.random, hloaded₂.indexed.position⟩,
      hloaded₂.length_vRandom, hloaded₂.lookup⟩
  · exact ⟨hshelved₂.length_vvTried, hshelved₂.length_bucket, hshelved₂.flatten⟩
  · change am₂.nTried - _ = _
    rw [hnTried₂, hnTried₁]
    ring

/-- **All loops of the reader.** -/
theorem rebuild_rebuilt {nKey : List UInt8} {news trieds : List CAddrInfo} {rows : List (List ℤ)}
    (h : Readable news trieds rows) :
    Rebuilt (rebuild hash64 nKey news trieds rows) news (keep hash64 nKey [] trieds) rows ∧
      (rebuild hash64 nKey news trieds rows).nKey = nKey := by
  obtain ⟨am, hrebuild, hloaded, hshelved, hkey, hnTried, hnNew, hvvNew⟩ := @loadEntries hash64 nKey _ _ _ h
  have hkept := h.sublist (@keep_sublist hash64 nKey [] trieds)
  -- nothing that was loaded has a reference yet, so the counts are those of the buckets
  have hplain : ∀ info ∈ news ++ (keep hash64 nKey [] trieds).map asTried, info.nRefCount = 0 := by
    intro info hinfo
    rcases List.mem_append.mp hinfo with hinfo | hinfo
    · exact (hkept.plain info (List.mem_append_left _ hinfo)).1
    · obtain ⟨info₀, hinfo₀, rfl⟩ := List.mem_map.mp hinfo
      exact (hkept.plain info₀ (List.mem_append_right _ hinfo₀)).1
  -- what a row names was loaded
  have hhas : ∀ row ∈ rows, ∀ n ∈ row, (am.mapInfo.lookup n).isSome = true := by
    intro row hrow n hn
    obtain ⟨i, hi, rfl⟩ := h.index row hrow n hn
    rw [Option.isSome_iff_exists]
    refine ⟨_, (hloaded.lookup _ _).mpr ⟨i, news.get ⟨i, hi⟩, rfl, ?_, rfl⟩⟩
    rw [List.getElem?_append_left hi]
    exact List.getElem?_eq_getElem hi
  have hcounting := @loadBuckets_eq am am rows [] (.start hloaded hplain (by rw [hvvNew, h.length_rows]))
    h.nodup_row hhas h.max
  rw [List.nil_append, List.length_nil] at hcounting
  rw [hrebuild]
  set am' := loadBuckets rows 0 am with ham'
  -- the loop over the buckets changes only the counts and the buckets
  have hsame : SamePlaces am am' := by
    refine ⟨?_, ?_, ?_, ?_, ?_⟩
    · rw [hcounting.eq]
    · rw [hcounting.eq]
    · rw [hcounting.eq]
    · rw [hcounting.eq]
    · intro n
      rw [hcounting.lookup n, Option.map_map]
      rfl
  refine ⟨⟨hsame.indexed hloaded.indexed, ?_, ?_, ?_, ?_, ?_, ?_⟩, hsame.nKey.trans hkey⟩
  · rw [hcounting.eq]
    exact hshelved.flatten
  · rw [hsame.vRandom, hloaded.length_vRandom, List.length_append, List.length_map]
  · rw [hcounting.eq]
    exact hnNew
  · rw [hcounting.eq]
    exact hnTried
  · rw [hcounting.eq]
  · -- an id is the place in the file
    intro n info
    rw [hcounting.lookup n, Option.map_eq_some_iff]
    constructor
    · rintro ⟨info', hinfo', rfl⟩
      obtain ⟨i, info₀, hi, hget, rfl⟩ := (hloaded.lookup n info').mp hinfo'
      exact ⟨i, info₀, hi, hget, rfl⟩
    · rintro ⟨i, info₀, hi, hget, rfl⟩
      exact ⟨_, (hloaded.lookup n _).mpr ⟨i, info₀, hi, hget, rfl⟩, rfl⟩

/-- The ids of the tried entries are in the tried buckets, and no others. -/
theorem Rebuilt.count {news trieds : List CAddrInfo} {rows : List (List ℤ)} (h : Rebuilt am news trieds rows) (n : ℤ) :
    am.vvTried.flatten.count n =
      if (news.length : ℤ) ≤ n ∧ n < news.length + trieds.length then 1 else 0 := by
  have hnodup : ((List.range' news.length trieds.length).map (fun i : ℕ => (i : ℤ))).Nodup :=
    List.Nodup.map Nat.cast_injective (List.nodup_range' 1)
  rw [h.vvTried.count_eq]
  split_ifs with hn
  · refine List.count_eq_one_of_mem hnodup (List.mem_map.mpr ⟨n.toNat, ?_, ?_⟩)
    · rw [List.mem_range'_1]
      omega
    · exact Int.toNat_of_nonneg (by omega)
  · refine List.count_eq_zero_of_not_mem ?_
    intro hmem
    obtain ⟨i, hi, rfl⟩ := List.mem_map.mp hmem
    rw [List.mem_range'_1] at hi
    exact hn ⟨by omega, by omega⟩

/-- **The tables that are rebuilt agree.** -/
theorem Rebuilt.agrees {news trieds : List CAddrInfo} {rows : List (List ℤ)} (h : Rebuilt am news trieds rows)
    (hread : Readable news trieds rows) : Agrees .nothing am := by
  -- only new entries are in new buckets
  have hnew : ∀ n, (∀ i < news.length, n ≠ ((i : ℕ) : ℤ)) → occurrences am.vvNew n = 0 := by
    intro n hn
    by_contra hpos
    rw [h.vvNew] at hpos
    obtain ⟨s, hs, hmem⟩ := occurrences_pos.mp (Nat.pos_of_ne_zero hpos)
    obtain ⟨row, hrow, rfl⟩ := List.mem_map.mp hs
    obtain ⟨i, hi, heq⟩ := hread.index row hrow n (List.mem_toFinset.mp hmem)
    exact hn i hi heq
  refine ⟨h.indexed, ?_, ?_, ?_, ?_, ?_⟩
  · -- each entry is new or tried by its place in the file
    intro n info hinfo
    obtain ⟨i, info₀, rfl, hget, rfl⟩ := (h.lookup n info).mp hinfo
    by_cases hi : i < news.length
    · rw [List.getElem?_append_left hi] at hget
      have hplain := hread.plain info₀ (List.mem_append_left _ (List.mem_of_getElem? hget))
      refine .new hplain.2.1 (by simp) ?_ ?_ (hread.max i) ?_
      · rw [h.vvNew]
        exact (add_zero _).symm
      · exact Int.natCast_pos.mpr (hread.pos i hi)
      · rw [h.count, if_neg (by omega)]
    · rw [List.getElem?_append_right (by omega), List.getElem?_map, Option.map_eq_some_iff] at hget
      obtain ⟨info₁, hget, rfl⟩ := hget
      have hlt := (List.getElem?_eq_some_iff.mp hget).1
      have hzero : occurrences am.vvNew i = 0 := hnew i fun j hj heq => by omega
      refine .tried rfl rfl (by simp) ?_ hzero ?_
      · rw [← h.vvNew, hzero]
        rfl
      · rw [h.count, if_pos (by omega)]
  · -- a number that is no place in the file is in no bucket
    intro n hn
    have hout : ∀ i < news.length + trieds.length, n ≠ ((i : ℕ) : ℤ) := by
      rintro i hi rfl
      have hlen : i < (news ++ trieds.map asTried).length := by
        rw [List.length_append, List.length_map]
        exact hi
      have hsome := (h.lookup i _).mpr ⟨i, _, rfl, List.getElem?_eq_getElem hlen, rfl⟩
      rw [hn] at hsome
      cases hsome
    refine ⟨hnew n fun i hi => hout i (by omega), ?_⟩
    rw [h.count, if_neg]
    rintro ⟨hle, hlt⟩
    exact hout n.toNat (by omega) (by omega)
  · -- the times that were read
    intro n info hinfo
    obtain ⟨i, info₀, rfl, hget, rfl⟩ := (h.lookup n info).mp hinfo
    have hzero : (0 : Int64) ≤ 0 := by decide
    rcases List.mem_append.mp (List.mem_of_getElem? hget) with hmem | hmem
    · obtain ⟨-, hin, htry, hlast⟩ := hread.plain info₀ (List.mem_append_left _ hmem)
      exact ⟨fun htrue => absurd (hin.symm.trans htrue) (by simp), htry ▸ hzero, hlast⟩
    · obtain ⟨info₁, hmem₁, rfl⟩ := List.mem_map.mp hmem
      obtain ⟨-, -, htry, hlast⟩ := hread.plain info₁ (List.mem_append_right _ hmem₁)
      exact ⟨fun _ => hread.succeeded info₁ hmem₁, htry ▸ hzero, hlast⟩
  · -- the counts
    rw [h.nTried, h.vvTried.length_eq, List.length_map, List.length_range']
  · rw [h.nTried, h.nNew, h.length_vRandom]
    simp only [Pending.uncounted]
    push_cast
    ring

end Rebuilding

end CAddrMan

end Peershares
