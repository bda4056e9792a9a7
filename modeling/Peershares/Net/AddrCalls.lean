import Peershares.Net.AddrTables

/-!
# The calls of the address manager

Each call takes the invariant of the tables from the state before it to the state after it, and fires no
`assert`, for all random numbers and all bucket hashes.

`Add_` and `Good_` take several steps with states in between in which the invariant does not hold. There it is
`Inv` with an entry that is `Pending`: an entry that counts one bucket more than it is in, or one that is in no
bucket. A step either makes an entry pending or files it:

* `Inv.created`, `Inv.addReference` — an entry is made, or counts one bucket more; then `Inv.enterNew` puts it into
  that bucket, which may have to shrink
* `Inv.leaveNew` — an entry leaves all its new buckets; then `Inv.pushTried` puts it into its tried bucket, or, when
  this one is full, `Inv.evictTried` does so and moves another entry back into a new bucket, where there is room

The entry that is moved back is drawn at random, by three draws that swap positions in the bucket
(`foldlM_selectTriedStep`); the bucket is a permutation of itself afterwards (`Inv.permTried`).

* `Inv.add` — `Add_`: an entry is made or refreshed, counted, and put into a bucket that may have to shrink
* `Inv.good` — `Good_`: an entry leaves the new buckets and may push another one out of its tried bucket
* `Inv.attempt`, `Inv.connected`, `Inv.select`, `Inv.getAddr` — the others
-/

open Framework

namespace Peershares

namespace CAddrMan

/-! ### `Add_` -/

section Add

variable {hash64 : List UInt8 → UInt64} {p : Pending} {am am' : CAddrMan} {nId n : ℤ} {info : CAddrInfo} {b : ℕ}

theorem getNewBucket_lt (info : CAddrInfo) (nKey : List UInt8) (src : CNetAddr) :
    info.getNewBucket hash64 nKey src < ADDRMAN_NEW_BUCKET_COUNT :=
  Nat.mod_lt _ (by decide)

theorem getTriedBucket_lt (info : CAddrInfo) (nKey : List UInt8) :
    info.getTriedBucket hash64 nKey < ADDRMAN_TRIED_BUCKET_COUNT :=
  Nat.mod_lt _ (by decide)

/-- **The entry is put into the bucket** that it counts already. -/
theorem Inv.enterBucket (h : Inv hash64 (.adding nId) am) (hlookup : (am.mapInfo.lookup nId).isSome = true)
    (hb : b < am.vvNew.length) (hnot : nId ∉ am.newBucket b)
    (hcard : (am.newBucket b).card < ADDRMAN_NEW_BUCKET_SIZE) :
    Inv hash64 .nothing { am with vvNew := am.vvNew.set b (insert nId (am.newBucket b)) } := by
  have hoccurrences := occurrences_insert (newBucket_eq hb) hnot
  have hsame : SamePlaces am { am with vvNew := am.vvNew.set b (insert nId (am.newBucket b)) } :=
    ⟨rfl, rfl, rfl, rfl, fun _ => rfl⟩
  have hsized : (insert nId (am.newBucket b)).card ≤ ADDRMAN_NEW_BUCKET_SIZE := by
    rw [Finset.card_insert_of_notMem hnot]
    exact hcard
  refine hsame.inv h ?_ ?_ h.timed (h.sized.set_new hsized rfl rfl) h.nTried rfl h.placed
  · intro n info hinfo
    by_cases hn : n = nId
    · subst hn
      -- the entry is filed once more, which was due
      have hself := hoccurrences n
      rw [if_pos rfl] at hself
      cases h.filed n info hinfo with
      | tried _ hdue _ _ _ _ => exact absurd hdue (by simp [Pending.due])
      | new hin _ hcount hpos hmax htried =>
        refine .new hin (by simp) ?_ hpos hmax htried
        simp only [Pending.due, if_true] at hcount ⊢
        omega
      | moving _ hmoving _ _ _ => exact absurd hmoving (by simp)
    · -- any other entry has its buckets as before
      have hother := hoccurrences n
      rw [if_neg hn, Nat.add_zero] at hother
      exact (h.filed n info hinfo).congr rfl rfl hother rfl (by simp [Pending.due, hn]) (by simp)
  · intro n hn
    refine ⟨?_, rfl⟩
    rw [hoccurrences n, if_neg, Nat.add_zero]
    rintro rfl
    rw [hn] at hlookup
    exact absurd hlookup (by simp)

/-- **The end of `Add_`.** The entry may be in the bucket already; if not, it is counted first. -/
theorem Inv.enterNew {source : CNetAddr} (hlookup : am.mapInfo.lookup nId = some info)
    (hsized : am.vvNew.length = ADDRMAN_NEW_BUCKET_COUNT)
    (hin : nId ∈ am.newBucket (info.getNewBucket hash64 am.nKey source) → Inv hash64 .nothing am)
    (hout : nId ∉ am.newBucket (info.getNewBucket hash64 am.nKey source) →
      Inv hash64 (.adding nId) (am.setInfo nId { info with nRefCount := info.nRefCount + 1 }))
    (nNow : ℤ → Int64) (rnd : ℕ → ℕ) :
    ∃ am', am.enterNew hash64 nId source nNow rnd = some am' ∧ Inv hash64 .nothing am' ∧
      am'.nKey = am.nKey := by
  unfold CAddrMan.enterNew
  rw [info_eq hlookup]
  -- the bucket is chosen by the key and the source
  set b := info.getNewBucket hash64 am.nKey source with hbucket
  simp only
  have hb : b < am.vvNew.length := by
    rw [hsized]
    exact getNewBucket_lt info am.nKey source
  split_ifs with hmem hfull
  · -- an entry that is already there is not entered again
    exact ⟨am, rfl, hin hmem, rfl⟩
  · -- the bucket is full
    have hinv := hout hmem
    have hdue : ∀ n ∈ am.newBucket b, (Pending.adding nId).due n = 0 := by
      intro n hn
      have hne : n ≠ nId := by
        rintro rfl
        exact hmem hn
      simp [Pending.due, hne]
    have hnonempty : (am.newBucket b).Nonempty := by
      rw [← Finset.card_pos]
      change (am.newBucket b).card = ADDRMAN_NEW_BUCKET_SIZE at hfull
      rw [hfull]
      decide
    -- `ShrinkNew` makes room by taking another one out
    obtain ⟨am', r, hshrink, hinv', hkey, n, hn, hvv, hsome⟩ := hinv.shrinkNew hb hnonempty hdue nNow rnd
    have hlen : b < am'.vvNew.length := by
      rw [hvv, List.length_set]
      exact hb
    have hbucket' : am'.newBucket b = (am.newBucket b).erase n := by
      have heq := newBucket_eq hlen
      have hset : am'.vvNew[b]? = some ((am.newBucket b).erase n) := by
        rw [hvv]
        exact List.getElem?_set_self hb
      rw [hset] at heq
      exact (Option.some.inj heq).symm
    have hne : nId ≠ n := by
      rintro rfl
      exact hmem hn
    rw [hshrink]
    refine ⟨_, rfl, hinv'.enterBucket ?_ hlen ?_ ?_, hkey⟩
    · rw [hsome nId hne, lookup_setInfo, if_pos rfl]
      rfl
    · rw [hbucket', Finset.mem_erase]
      exact fun hmem' => hmem hmem'.2
    · -- now the bucket is below its size
      rw [hbucket']
      exact lt_of_lt_of_le (Finset.card_erase_lt_of_mem hn)
        (hinv.sized.new _ (List.mem_of_getElem? (newBucket_eq hb)))
  · -- there is room
    have hinv := hout hmem
    refine ⟨_, rfl, hinv.enterBucket ?_ hb hmem ?_, rfl⟩
    · rw [lookup_setInfo, if_pos rfl]
      rfl
    · exact lt_of_le_of_ne (hinv.sized.new _ (List.mem_of_getElem? (newBucket_eq hb))) hfull

/-- An address that is there is referred to once more. -/
theorem Inv.addReference (h : Inv hash64 .nothing am) (hlookup : am.mapInfo.lookup nId = some info)
    (hin : info.fInTried = false) (hmax : info.nRefCount ≠ ADDRMAN_NEW_BUCKETS_PER_ADDRESS) :
    Inv hash64 (.adding nId) (am.setInfo nId { info with nRefCount := info.nRefCount + 1 }) := by
  refine h.setInfo hlookup rfl rfl ?_ ?_ ?_ rfl
  · cases h.filed nId info hlookup with
    | tried htrue _ _ _ _ _ => exact absurd htrue (by rw [hin]; simp)
    | new _ _ hcount hpos hle htried =>
      refine .new hin (by simp) ?_ ?_ ?_ htried
      · simp only [Pending.due, if_true] at hcount ⊢
        omega
      · simp only
        omega
      · simp only
        omega
    | moving _ hmoving _ _ _ => exact absurd hmoving (by simp)
  · exact ⟨(h.timed nId info hlookup).tried, (h.timed nId info hlookup).nLastTry,
      (h.timed nId info hlookup).nLastSuccess⟩
  · intro n hn
    exact ⟨by simp [Pending.due, hn], by simp⟩

/-- An entry with a new id and a new address is put at the end of `vRandom`. -/
theorem Indexed.created {n₀ : ℤ} (h : am.Indexed) (hnew : am.mapAddr.lookup info.toCNetAddr = none)
    (hfresh : am.mapInfo.lookup n₀ = none) (hpos : info.nRandomPos = am.vRandom.length)
    (hlookup : ∀ n, am'.mapInfo.lookup n = if n = n₀ then some info else am.mapInfo.lookup n)
    (haddr : am'.mapAddr = am.mapAddr.insert info.toCNetAddr n₀) (hrandom : am'.vRandom = am.vRandom ++ [n₀]) :
    am'.Indexed := by
  refine ⟨?_, ?_, ?_⟩
  · -- `mapAddr` finds each entry by its address
    intro addr n
    rw [haddr, Map.lookup_insert_eq, hlookup n]
    have hindex := h.mapAddr addr n
    split_ifs with ha hn hn
    · simp [ha, hn]
    · -- no other entry has the address
      subst ha
      rw [hnew] at hindex
      constructor
      · intro heq
        exact absurd (Option.some.inj heq).symm hn
      · intro hother
        exact absurd (hindex.mpr hother) (by simp)
    · -- the new address has the new entry and no other
      rw [hn, hfresh] at hindex
      constructor
      · intro heq
        rw [hn] at heq
        obtain ⟨info', hinfo', -⟩ := hindex.mp heq
        exact absurd hinfo' (by simp)
      · rintro ⟨info', hinfo', ha'⟩
        cases hinfo'
        exact absurd ha'.symm ha
    · exact hindex
  · -- `vRandom` has the new identifier at its end
    intro i n hn
    rw [hrandom] at hn
    rw [hlookup n]
    by_cases hi : i < am.vRandom.length
    · rw [List.getElem?_append_left hi] at hn
      obtain ⟨info', hinfo', hpos'⟩ := h.random i n hn
      rw [if_neg]
      · exact ⟨info', hinfo', hpos'⟩
      · rintro rfl
        rw [hfresh] at hinfo'
        exact absurd hinfo' (by simp)
    · have hlen := (List.getElem?_eq_some_iff.mp hn).1
      rw [List.length_append, List.length_singleton] at hlen
      obtain rfl : i = am.vRandom.length := by omega
      rw [List.getElem?_concat_length] at hn
      rw [if_pos (Option.some.inj hn).symm]
      exact ⟨info, rfl, hpos⟩
  · -- and each entry knows its place there
    intro n info' hinfo'
    rw [hlookup n] at hinfo'
    rw [hrandom]
    split_ifs at hinfo' with hn
    · cases hinfo'
      exact ⟨am.vRandom.length, hpos, by rw [hn]; exact List.getElem?_concat_length⟩
    · obtain ⟨i, hi, hn'⟩ := h.position n info' hinfo'
      refine ⟨i, hi, ?_⟩
      rw [List.getElem?_append_left (List.getElem?_eq_some_iff.mp hn').1]
      exact hn'

/-- **A new entry**, which counts one bucket and is in none yet. -/
theorem Inv.created (h : Inv hash64 .nothing am) (hnew : am.mapAddr.lookup info.toCNetAddr = none)
    (hid : am.nIdCount + 1 < 2 ^ 31) (hin : info.fInTried = false) (hcount : info.nRefCount = 1)
    (hpos : info.nRandomPos = am.vRandom.length) (htimed : Timed info) (hkey : am'.nKey = am.nKey)
    (hlookup : ∀ n, am'.mapInfo.lookup n = if n = am.nIdCount then some info else am.mapInfo.lookup n)
    (haddr : am'.mapAddr = am.mapAddr.insert info.toCNetAddr am.nIdCount)
    (hrandom : am'.vRandom = am.vRandom ++ [am.nIdCount]) (hnTried : am'.nTried = am.nTried)
    (hvvTried : am'.vvTried = am.vvTried) (hnNew : am'.nNew = am.nNew + 1) (hvvNew : am'.vvNew = am.vvNew)
    (hnIdCount : am'.nIdCount = am.nIdCount + 1) : Inv hash64 (.adding am.nIdCount) am' := by
  -- the next identifier is free, so it is in no table
  have hfresh : am.mapInfo.lookup am.nIdCount = none := by
    cases hold : am.mapInfo.lookup am.nIdCount with
    | none => rfl
    | some info => exact absurd (h.ids _ _ hold).2 (lt_irrefl _)
  have hnone := h.absent _ hfresh
  have hnIdCount' := h.nIdCount
  refine ⟨⟨h.indexed.created hnew hfresh hpos hlookup haddr hrandom, ?_, ?_, ?_, ?_, ?_⟩,
    h.sized.congr hvvNew hvvTried, ?_, ?_, ?_⟩
  · -- where each entry is filed; the new one is still due in one bucket
    intro n info' hinfo'
    rw [hlookup n] at hinfo'
    split_ifs at hinfo' with hn
    · cases hinfo'
      subst hn
      refine .new hin (by simp) ?_ ?_ ?_ ?_
      · rw [hvvNew, hnone.1, hcount]
        simp [Pending.due]
      · rw [hcount]
        decide
      · rw [hcount]
        decide
      · rw [hvvTried]
        exact hnone.2
    · exact (h.filed n info' hinfo').congr rfl rfl (by rw [hvvNew]) (by rw [hvvTried])
        (by simp [Pending.due, hn]) (by simp)
  · -- no table holds an identifier without an entry
    intro n hn
    rw [hlookup n] at hn
    split_ifs at hn
    rw [hvvNew, hvvTried]
    exact h.absent n hn
  · -- the times of the new entry are in order
    intro n info' hinfo'
    rw [hlookup n] at hinfo'
    split_ifs at hinfo' with hn
    · cases hinfo'
      exact htimed
    · exact h.timed n info' hinfo'
  · -- the counts: one more new entry
    rw [hnTried, hvvTried]
    exact h.nTried
  · have hsum := h.nNew
    rw [hnTried, hnNew, hrandom, List.length_append, List.length_singleton]
    simp only [Pending.uncounted] at hsum ⊢
    push_cast
    omega
  · -- all identifiers are below the next one
    intro n info' hinfo'
    rw [hlookup n] at hinfo'
    rw [hnIdCount]
    split_ifs at hinfo' with hn
    · rw [hn]
      omega
    · have hids := h.ids n info' hinfo'
      omega
  · rw [hnIdCount]
    omega
  · -- the tried buckets are as before
    intro b vTried n info' hb hn hinfo'
    rw [hvvTried] at hb
    rw [hlookup n] at hinfo'
    rw [hkey]
    split_ifs at hinfo' with hnId
    · -- the new id is in no bucket
      subst hnId
      have hcount' : 0 < am.vvTried.flatten.count am.nIdCount :=
        List.count_pos_iff.mpr (List.mem_flatten.mpr ⟨vTried, List.mem_of_getElem? hb, hn⟩)
      exact absurd hnone.2 hcount'.ne'
    · exact h.placed b vTried n info' hb hn hinfo'

/-- **`Add_`.** -/
theorem Inv.add {addr : CAddress} {source : CNetAddr} (h : Inv hash64 .nothing am) (nTimePenalty nNow₀ : Int64)
    (nNow : ℤ → Int64) (rnd : ℕ → ℕ)
    (hid : addr.isRoutable = true → am.find addr.toCNetAddr = none → am.nIdCount + 1 < 2 ^ 31) :
    ∃ am' fNew, am.add hash64 addr source nTimePenalty nNow₀ nNow rnd = some (am', fNew) ∧
      Inv hash64 .nothing am' ∧ am'.nKey = am.nKey := by
  unfold CAddrMan.add
  split_ifs with hroutable
  · exact ⟨am, false, rfl, h, rfl⟩
  · simp only [Bool.not_eq_true', Bool.not_eq_false] at hroutable
    -- the address is known, or an entry is created for it
    cases hfind : am.find addr.toCNetAddr with
    | some q =>
      obtain ⟨nId, info⟩ := q
      have hlookup := find_eq_some hfind
      simp only
      -- time and services first
      have hinv : Inv hash64 .nothing (am.setInfo nId (refresh info addr nTimePenalty nNow₀)) := by
        refine h.setInfo hlookup rfl rfl ?_ ?_ (fun _ _ => ⟨rfl, Iff.rfl⟩) rfl
        · exact (h.filed nId info hlookup).congr rfl rfl rfl rfl rfl Iff.rfl
        · exact ⟨(h.timed nId info hlookup).tried, (h.timed nId info hlookup).nLastTry,
            (h.timed nId info hlookup).nLastSuccess⟩
      have hlookup' : (am.setInfo nId (refresh info addr nTimePenalty nNow₀)).mapInfo.lookup nId =
          some (refresh info addr nTimePenalty nNow₀) := by
        rw [lookup_setInfo, if_pos rfl]
      -- a known entry may enter one more new bucket
      split_ifs with hworth
      · unfold worthAdding at hworth
        simp only [Bool.and_eq_true, Bool.not_eq_true', decide_eq_true_eq] at hworth
        obtain ⟨am', henter, hinv', hkey⟩ := Inv.enterNew hlookup' hinv.sized.length_vvNew (fun _ => hinv)
          (fun _ => hinv.addReference hlookup' hworth.1.1.2 hworth.1.2) nNow fun i => rnd (i + 1)
        rw [henter]
        exact ⟨am', false, rfl, hinv', hkey⟩
      · exact ⟨_, false, rfl, hinv, rfl⟩
    | none =>
      have hcreate := hid hroutable hfind
      have hnIdCount := h.nIdCount
      have hwrap : (am.nIdCount + 1).bmod (2 ^ 32) = am.nIdCount + 1 :=
        Int.bmod_eq_of_le_mul_two (by omega) (by omega)
      simp only
      -- `Create` makes the entry, and its time is made older
      set info : CAddrInfo := { CAddrInfo.ofAddress addr source with
        nRandomPos := am.vRandom.length
        nTime := penalized addr.nTime nTimePenalty } with hinfo
      set am₁ : CAddrMan := { (am.create addr source).1.setInfo am.nIdCount info with
        nNew := am.nNew + 1 } with ham₁
      have hbefore : ∀ n, (am.create addr source).1.mapInfo.lookup n = if n = am.nIdCount then
          some { CAddrInfo.ofAddress addr source with nRandomPos := am.vRandom.length }
          else am.mapInfo.lookup n := fun n => OrderedMap.lookup_put am.mapInfo am.nIdCount n _
      have hlookup : ∀ n, am₁.mapInfo.lookup n = if n = am.nIdCount then some info else am.mapInfo.lookup n := by
        intro n
        change ((am.create addr source).1.setInfo am.nIdCount info).mapInfo.lookup n = _
        rw [lookup_setInfo, hbefore]
        split_ifs <;> rfl
      have hself : am₁.mapInfo.lookup am.nIdCount = some info := by
        rw [hlookup, if_pos rfl]
      have hfresh : am.mapInfo.lookup am.nIdCount = none := by
        cases hold : am.mapInfo.lookup am.nIdCount with
        | none => rfl
        | some info => exact absurd (h.ids _ _ hold).2 (lt_irrefl _)
      -- a new id is in no bucket
      have hin : am.nIdCount ∈ am₁.newBucket (info.getNewBucket hash64 am₁.nKey source) →
          Inv hash64 .nothing am₁ := by
        intro hmem
        have hb : info.getNewBucket hash64 am₁.nKey source < am.vvNew.length := by
          rw [h.sized.length_vvNew]
          exact getNewBucket_lt info am₁.nKey source
        exact absurd (h.absent _ hfresh).1 (occurrences_pos_of_mem hb hmem).ne'
      -- so it enters its bucket
      have hout : Inv hash64 (.adding am.nIdCount)
          (am₁.setInfo am.nIdCount { info with nRefCount := info.nRefCount + 1 }) := by
        refine @Inv.created hash64 am _ { info with nRefCount := info.nRefCount + 1 } h
          (h.indexed.mapAddr_of_find hfind) hcreate rfl rfl rfl ?_ rfl ?_ rfl rfl rfl rfl rfl rfl hwrap
        · have hzero : (0 : Int64) ≤ 0 := by decide
          exact ⟨fun htried => absurd htried (by simp [hinfo, CAddrInfo.ofAddress]), hzero, hzero⟩
        · intro n
          rw [lookup_setInfo, hlookup]
          split_ifs <;> rfl
      obtain ⟨am', henter, hinv', hkey⟩ := Inv.enterNew hself h.sized.length_vvNew hin (fun _ => hout) nNow
        fun i => rnd (i + 1)
      refine ⟨am', true, ?_, hinv', hkey⟩
      have hcreated : (am.create addr source).1.info am.nIdCount =
          { CAddrInfo.ofAddress addr source with nRandomPos := am.vRandom.length } := by
        refine info_eq ?_
        rw [hbefore, if_pos rfl]
      change ({ (am.create addr source).1.setInfo am.nIdCount
        { (am.create addr source).1.info am.nIdCount with
          nTime := penalized addr.nTime nTimePenalty } with nNew := am.nNew + 1 }.enterNew hash64 am.nIdCount
            source nNow fun i => rnd (i + 1)).map (·, true) = some (am', true)
      rw [hcreated]
      change (am₁.enterNew hash64 am.nIdCount source nNow fun i => rnd (i + 1)).map (·, true) = _
      rw [henter]
      rfl

end Add

/-! ### `Good_` -/

section Good

variable {hash64 : List UInt8 → UInt64} {p : Pending} {am am' : CAddrMan} {nId n : ℤ} {info : CAddrInfo} {b : ℕ}

/-- **The entry leaves the new buckets.** -/
theorem Inv.leaveNew (h : Inv hash64 .nothing am) (hlookup : am.mapInfo.lookup nId = some info)
    (hin : info.fInTried = false) :
    Inv hash64 (.moving nId) (am.leaveNew nId) ∧ ∃ info', (am.leaveNew nId).mapInfo.lookup nId = some info' ∧
      info' = { info with nRefCount := 0 } := by
  -- its references are the new buckets that it is in
  obtain ⟨hcount, htried⟩ : info.nRefCount = occurrences am.vvNew nId ∧ am.vvTried.flatten.count nId = 0 := by
    cases h.filed nId info hlookup with
    | tried htrue _ _ _ _ _ => exact absurd htrue (by rw [hin]; simp)
    | new _ _ hcount _ _ htried =>
      simp only [Pending.due, add_zero] at hcount
      exact ⟨hcount, htried⟩
    | moving _ hmoving _ _ _ => exact absurd hmoving (by simp)
  have hset : SamePlaces am (am.setInfo nId { info with nRefCount := 0 }) := .setInfo hlookup rfl rfl
  -- so the loop that counts them down ends at zero
  have heq : am.leaveNew nId = { am.setInfo nId { info with nRefCount := 0 } with
      vvNew := am.vvNew.map (·.erase nId)
      nNew := am.nNew - 1 } := by
    have hzero : info.nRefCount - (am.vvNew.countP (nId ∈ ·) : ℤ) = 0 := by
      rw [hcount]
      exact sub_self _
    unfold CAddrMan.leaveNew
    simp only [info_eq hlookup, hzero]
  rw [heq]
  have hplaces : SamePlaces am { am.setInfo nId { info with nRefCount := 0 } with
      vvNew := am.vvNew.map (·.erase nId)
      nNew := am.nNew - 1 } := ⟨hset.nKey, hset.nIdCount, hset.mapAddr, hset.vRandom, hset.lookup⟩
  have hlookup' : ∀ n, (am.setInfo nId { info with nRefCount := 0 }).mapInfo.lookup n =
      if n = nId then some { info with nRefCount := 0 } else am.mapInfo.lookup n :=
    fun n => lookup_setInfo am nId n _
  have hothers : ∀ n, n ≠ nId → occurrences (am.vvNew.map (·.erase nId)) n = occurrences am.vvNew n := by
    intro n hn
    rw [occurrences_map_erase, if_neg hn]
  -- the invariant while the entry moves
  refine ⟨hplaces.inv h ?_ ?_ ?_ ?_ h.nTried ?_ h.placed, _, by rw [hlookup', if_pos rfl], rfl⟩
  · intro n info' hinfo'
    rw [hlookup'] at hinfo'
    split_ifs at hinfo' with hn
    · cases hinfo'
      subst hn
      -- it is filed nowhere until it is put into a tried bucket
      refine .moving hin rfl rfl ?_ htried
      simp only
      rw [occurrences_map_erase, if_pos rfl]
    · refine (h.filed n info' hinfo').congr rfl rfl (hothers n hn) rfl rfl ?_
      simp [Ne.symm hn]
  · intro n hn
    refine ⟨hothers n ?_, rfl⟩
    rintro rfl
    rw [hlookup] at hn
    exact absurd hn (by simp)
  · intro n info' hinfo'
    rw [hlookup'] at hinfo'
    split_ifs at hinfo' with hn
    · cases hinfo'
      exact ⟨(h.timed nId info hlookup).tried, (h.timed nId info hlookup).nLastTry,
        (h.timed nId info hlookup).nLastSuccess⟩
    · exact h.timed n info' hinfo'
  · -- the buckets have not grown
    refine ⟨?_, h.sized.length_vvTried, ?_, h.sized.tried⟩
    · simp only [List.length_map]
      exact h.sized.length_vvNew
    · intro v hv
      obtain ⟨vNew, hvNew, rfl⟩ := List.mem_map.mp hv
      exact Finset.card_erase_le.trans (h.sized.new vNew hvNew)
  · simp only [Pending.uncounted]
    change am.nTried + (am.nNew - 1) + 1 = _
    ring

/-- The body of the loop of `SelectTried` permutes the bucket, and the position is in it. -/
theorem selectTriedStep_eq {scan : TriedScan} {i : ℕ} (rnd : ℕ → ℕ) (hhas : ∀ n ∈ scan.vTried, am.has n = true)
    (hi : i < scan.vTried.length) :
    ∃ scan', am.selectTriedStep rnd scan i = some scan' ∧ scan'.vTried.Perm scan.vTried ∧
      (scan.nOldest = -1 ∨ (0 ≤ scan.nOldestPos ∧ scan.nOldestPos < scan.vTried.length) →
        0 ≤ scan'.nOldestPos ∧ scan'.nOldestPos < scan.vTried.length) := by
  have hpos : getRandInt (rnd i) (scan.vTried.length - i) + i < scan.vTried.length := by
    have hlt := @getRandInt_lt (rnd i) (scan.vTried.length - i) (by omega)
    omega
  set nPos := getRandInt (rnd i) (scan.vTried.length - i) + i with hnPos
  have hget : ∀ k (hk : k < scan.vTried.length), scan.vTried.getD k 0 = scan.vTried[k] := by
    intro k hk
    rw [List.getD_eq_getElem?_getD, List.getElem?_eq_getElem hk]
    rfl
  -- two positions are exchanged
  have hperm : ((scan.vTried.set nPos (scan.vTried.getD i 0)).set i (scan.vTried.getD nPos 0)).Perm
      scan.vTried := by
    rw [hget i hi, hget nPos hpos]
    exact List.set_set_perm hpos hi
  -- the drawn entry exists, so the assertion holds
  have hmem : am.has (scan.vTried.getD nPos 0) = true := by
    rw [hget nPos hpos]
    exact hhas _ (List.getElem_mem hpos)
  unfold selectTriedStep
  simp only [← hnPos, hmem, or_true, guard_true, Option.pure_def, Option.bind_eq_bind, Option.bind_some]
  split_ifs with holder
  · refine ⟨_, rfl, hperm, fun _ => ⟨?_, ?_⟩⟩
    · exact Int.natCast_nonneg nPos
    · change (nPos : ℤ) < scan.vTried.length
      exact_mod_cast hpos
  · refine ⟨_, rfl, hperm, ?_⟩
    -- the first draw always sets the position
    rintro (hnone | hrange)
    · exact absurd (.inl hnone) holder
    · exact hrange

/-- The loop of `SelectTried`. -/
theorem foldlM_selectTriedStep (rnd : ℕ → ℕ) (is : List ℕ) {scan : TriedScan}
    (hhas : ∀ n ∈ scan.vTried, am.has n = true) (his : ∀ i ∈ is, i < scan.vTried.length)
    (hrange : (scan.nOldest = -1 ∧ is ≠ []) ∨
      (0 ≤ scan.nOldestPos ∧ scan.nOldestPos < scan.vTried.length)) :
    ∃ scan', is.foldlM (am.selectTriedStep rnd) scan = some scan' ∧ scan'.vTried.Perm scan.vTried ∧
      0 ≤ scan'.nOldestPos ∧ scan'.nOldestPos < scan.vTried.length := by
  induction is generalizing scan with
  | nil => exact ⟨scan, rfl, List.Perm.refl _, hrange.resolve_left fun hnone => hnone.2 rfl⟩
  | cons i is ih =>
    obtain ⟨scan₁, hstep, hperm, hpos⟩ := selectTriedStep_eq rnd hhas (his i List.mem_cons_self)
    have hpos₁ := hpos (hrange.imp_left And.left)
    obtain ⟨scan', hfold, hperm', hrange'⟩ := @ih scan₁ (fun n hn => hhas n (hperm.mem_iff.mp hn))
      (fun k hk => by rw [hperm.length_eq]; exact his k (List.mem_cons_of_mem i hk))
      (.inr (by rw [hperm.length_eq]; exact hpos₁))
    rw [List.foldlM_cons, hstep]
    refine ⟨scan', hfold, hperm'.trans hperm, ?_⟩
    rw [← hperm.length_eq]
    exact hrange'

/-- What is in a tried bucket is a tried entry. -/
theorem Inv.tried_of_mem (h : Inv hash64 p am) (hb : b < am.vvTried.length) (hmem : n ∈ am.triedBucket b) :
    ∃ info, am.mapInfo.lookup n = some info ∧ info.fInTried = true ∧ p.due n = 0 ∧ p ≠ .moving n ∧
      occurrences am.vvNew n = 0 ∧ am.vvTried.flatten.count n = 1 := by
  have hcount : 0 < am.vvTried.flatten.count n :=
    List.count_pos_iff.mpr (List.mem_flatten.mpr ⟨_, List.mem_of_getElem? (triedBucket_eq hb), hmem⟩)
  cases hlookup : am.mapInfo.lookup n with
  | none => exact absurd (h.absent n hlookup).2 hcount.ne'
  | some info =>
    cases h.filed n info hlookup with
    | tried hin hdue hmoving _ hnew htried => exact ⟨info, rfl, hin, hdue, hmoving, hnew, htried⟩
    | new _ _ _ _ _ htried => exact absurd htried hcount.ne'
    | moving _ _ _ _ htried => exact absurd htried hcount.ne'

theorem Sized.set_tried (h : am.Sized) {vTried : List ℤ} (hlen : vTried.length ≤ ADDRMAN_TRIED_BUCKET_SIZE)
    (hnew : am'.vvNew = am.vvNew) (htried : am'.vvTried = am.vvTried.set b vTried) : am'.Sized := by
  refine ⟨by rw [hnew]; exact h.length_vvNew, ?_, by rw [hnew]; exact h.new, ?_⟩
  · rw [htried, List.length_set]
    exact h.length_vvTried
  · intro v hv
    rw [htried] at hv
    rcases List.mem_or_eq_of_mem_set hv with hv | rfl
    · exact h.tried v hv
    · exact hlen

/-- A tried bucket is permuted. -/
theorem Inv.permTried (h : Inv hash64 p am) (hb : b < am.vvTried.length) {vTried : List ℤ}
    (hperm : vTried.Perm (am.triedBucket b)) : Inv hash64 p { am with vvTried := am.vvTried.set b vTried } := by
  -- every entry is in the table as often as before
  have hcount : ∀ n, (am.vvTried.set b vTried).flatten.count n = am.vvTried.flatten.count n := by
    intro n
    have hset := count_flatten_set (triedBucket_eq hb) vTried n
    rw [hperm.count_eq] at hset
    omega
  have hlength := length_flatten_set (triedBucket_eq hb) vTried
  rw [hperm.length_eq] at hlength
  have hsame : SamePlaces am { am with vvTried := am.vvTried.set b vTried } :=
    ⟨rfl, rfl, rfl, rfl, fun _ => rfl⟩
  refine hsame.inv h ?_ (fun n _ => ⟨rfl, hcount n⟩) h.timed ?_ ?_ rfl ?_
  · intro n info hinfo
    exact (h.filed n info hinfo).congr rfl rfl rfl (hcount n) rfl Iff.rfl
  · refine h.sized.set_tried ?_ rfl rfl
    rw [hperm.length_eq]
    exact h.sized.tried _ (List.mem_of_getElem? (triedBucket_eq hb))
  · have hnTried := h.nTried
    simp only
    omega
  · -- and each is in the bucket of its address
    intro b' v n info hv hn hinfo
    rw [List.getElem?_set] at hv
    split_ifs at hv with hbb
    · cases hv
      subst hbb
      exact h.placed b _ n info (triedBucket_eq hb) (hperm.mem_iff.mp hn) hinfo
    · exact h.placed b' v n info hv hn hinfo

/-- **`SelectTried`** permutes the bucket and returns a position in it. -/
theorem Inv.selectTried (h : Inv hash64 p am) (hb : b < am.vvTried.length) (hne : am.triedBucket b ≠ [])
    (rnd : ℕ → ℕ) :
    ∃ vTried nPos, am.selectTried b rnd = some ({ am with vvTried := am.vvTried.set b vTried }, nPos) ∧
      vTried.Perm (am.triedBucket b) ∧ 0 ≤ nPos ∧ nPos < vTried.length := by
  -- every number of the bucket is an entry
  have hhas : ∀ n ∈ am.triedBucket b, am.has n = true := by
    intro n hn
    obtain ⟨info, hlookup, -⟩ := h.tried_of_mem hb hn
    exact has_eq_true hlookup
  have hpos := List.length_pos_of_ne_nil hne
  have hlt : ∀ i ∈ List.range (min ADDRMAN_TRIED_ENTRIES_INSPECT_ON_EVICT (am.triedBucket b).length),
      i < (am.triedBucket b).length := by
    intro i hi
    exact (List.mem_range.mp hi).trans_le (min_le_right _ _)
  -- the bucket is not empty, so at least one is looked at
  have hsome : List.range (min ADDRMAN_TRIED_ENTRIES_INSPECT_ON_EVICT (am.triedBucket b).length) ≠ [] := by
    rw [Ne, List.range_eq_nil]
    exact (lt_min (by decide) hpos).ne'
  obtain ⟨scan, hfold, hperm, hrange⟩ := @foldlM_selectTriedStep am rnd _ { vTried := am.triedBucket b } hhas hlt
    (.inl ⟨rfl, hsome⟩)
  refine ⟨scan.vTried, scan.nOldestPos, ?_, hperm, hrange.1, ?_⟩
  · unfold CAddrMan.selectTried
    simp only [Option.bind_eq_bind]
    rw [hfold]
    rfl
  · rw [hperm.length_eq]
    exact hrange.2

/-- The tried bucket has room. -/
theorem Inv.pushTried (h : Inv hash64 (.moving nId) am) (hlookup : am.mapInfo.lookup nId = some info)
    (htime : info.nLastSuccess ≠ 0) (hb : info.getTriedBucket hash64 am.nKey = b)
    (hroom : (am.triedBucket b).length < ADDRMAN_TRIED_BUCKET_SIZE) :
    Inv hash64 .nothing ({ am with
      vvTried := am.vvTried.set b (am.triedBucket b ++ [nId])
      nTried := am.nTried + 1 }.setInfo nId { info with fInTried := true }) := by
  -- the bucket is one of the tried table
  have hlt : b < am.vvTried.length := by
    rw [h.sized.length_vvTried, ← hb]
    exact getTriedBucket_lt info am.nKey
  have hcount := count_flatten_set (triedBucket_eq hlt) (am.triedBucket b ++ [nId])
  have hlength := length_flatten_set (triedBucket_eq hlt) (am.triedBucket b ++ [nId])
  simp only [List.count_append, List.count_singleton, List.length_append, List.length_singleton,
    beq_iff_eq] at hcount hlength
  have hset : SamePlaces am (am.setInfo nId { info with fInTried := true }) := .setInfo hlookup rfl rfl
  have hplaces : SamePlaces am ({ am with
      vvTried := am.vvTried.set b (am.triedBucket b ++ [nId])
      nTried := am.nTried + 1 }.setInfo nId { info with fInTried := true }) :=
    ⟨hset.nKey, hset.nIdCount, hset.mapAddr, hset.vRandom, hset.lookup⟩
  -- the entry is on the way, so it is filed nowhere else
  obtain ⟨hzero, hnew, htried⟩ : info.nRefCount = 0 ∧ occurrences am.vvNew nId = 0 ∧
      am.vvTried.flatten.count nId = 0 := by
    cases h.filed nId info hlookup with
    | tried _ _ hmoving _ _ _ => exact absurd rfl hmoving
    | new _ hmoving _ _ _ _ => exact absurd rfl hmoving
    | moving _ _ hzero hnew htried => exact ⟨hzero, hnew, htried⟩
  -- of every other entry nothing changes
  have hothers : ∀ n, n ≠ nId → (am.vvTried.set b (am.triedBucket b ++ [nId])).flatten.count n =
      am.vvTried.flatten.count n := by
    intro n hn
    have heq := hcount n
    rw [if_neg (Ne.symm hn)] at heq
    omega
  refine hplaces.inv h ?_ ?_ ?_ (h.sized.set_tried (by rw [List.length_append]; exact hroom) rfl rfl) ?_ ?_ ?_
  · -- where each entry is filed
    intro n info' hinfo'
    rw [lookup_setInfo] at hinfo'
    split_ifs at hinfo' with hn
    · cases hinfo'
      subst hn
      -- now it is once in the tried buckets
      refine .tried rfl rfl (by simp) hzero hnew ?_
      have heq := hcount n
      rw [if_pos rfl] at heq
      change (am.vvTried.set b (am.triedBucket b ++ [n])).flatten.count n = 1
      omega
    · refine (h.filed n info' hinfo').congr rfl rfl rfl (hothers n hn) rfl ?_
      simp [Ne.symm hn]
  · -- no table holds an identifier without an entry
    intro n hn
    refine ⟨rfl, hothers n ?_⟩
    rintro rfl
    rw [hlookup] at hn
    exact absurd hn (by simp)
  · -- a tried entry has been reached once
    intro n info' hinfo'
    rw [lookup_setInfo] at hinfo'
    split_ifs at hinfo' with hn
    · cases hinfo'
      exact ⟨fun _ => htime, (h.timed nId info hlookup).nLastTry, (h.timed nId info hlookup).nLastSuccess⟩
    · exact h.timed n info' hinfo'
  · have hnTried := h.nTried
    change am.nTried + 1 = (am.vvTried.set b (am.triedBucket b ++ [nId])).flatten.length
    omega
  · -- what was not counted while it was on the way is counted again
    change am.nTried + 1 + am.nNew + 0 = am.nTried + am.nNew + 1
    ring
  · -- the entry is in its own tried bucket
    intro b' v n info' hv hn hinfo'
    change (am.vvTried.set b (am.triedBucket b ++ [nId]))[b']? = some v at hv
    rw [List.getElem?_set] at hv
    split_ifs at hv with hbb
    · cases hv
      subst hbb
      rcases List.mem_append.mp hn with hn | hn
      · exact h.placed b _ n info' (triedBucket_eq hlt) hn hinfo'
      · obtain rfl : n = nId := List.mem_singleton.mp hn
        rw [hlookup] at hinfo'
        cases hinfo'
        exact hb
    · exact h.placed b' v n info' hv hn hinfo'

/-- **An entry goes back to the new buckets**, and `nId` takes its place. -/
theorem Inv.evictTried (h : Inv hash64 (.moving nId) am) (hlookup : am.mapInfo.lookup nId = some info)
    (htime : info.nLastSuccess ≠ 0) (hb : info.getTriedBucket hash64 am.nKey = b) {nOrigin nPos : ℕ}
    (horigin : nOrigin < am.vvNew.length) (hroom : (am.newBucket nOrigin).card < ADDRMAN_NEW_BUCKET_SIZE)
    (hpos : nPos < (am.triedBucket b).length) :
    ∃ am', am.evictTried hash64 nId nOrigin b nPos = some am' ∧ Inv hash64 .nothing am' ∧
      am'.nKey = am.nKey := by
  have hlt : b < am.vvTried.length := by
    rw [h.sized.length_vvTried, ← hb]
    exact getTriedBucket_lt info am.nKey
  -- the entry that has to go, which is in its tried bucket
  obtain ⟨nOld, hnOld⟩ : ∃ nOld, nOld = (am.triedBucket b)[nPos] := ⟨_, rfl⟩
  have hget : (am.triedBucket b).getD nPos 0 = nOld := by
    rw [List.getD_eq_getElem?_getD, List.getElem?_eq_getElem hpos, hnOld]
    rfl
  have hmem : nOld ∈ am.triedBucket b := by
    rw [hnOld]
    exact List.getElem_mem hpos
  obtain ⟨infoOld, hinfoOld, -, -, hmoving, hnewOld, htriedOld⟩ := h.tried_of_mem hlt hmem
  have hne : nOld ≠ nId := by
    rintro rfl
    exact hmoving rfl
  -- the entry that comes is filed nowhere
  obtain ⟨hzero, hnew, htried⟩ : info.nRefCount = 0 ∧ occurrences am.vvNew nId = 0 ∧
      am.vvTried.flatten.count nId = 0 := by
    cases h.filed nId info hlookup with
    | tried _ _ hmoving _ _ _ => exact absurd rfl hmoving
    | new _ hmoving _ _ _ _ => exact absurd rfl hmoving
    | moving _ _ hzero hnew htried => exact ⟨hzero, hnew, htried⟩
  -- the bucket that takes it has room, and does not have it yet
  obtain ⟨nBucket, hnBucket⟩ : ∃ nBucket, nBucket = if (am.newBucket
      (infoOld.getNewBucket hash64 am.nKey infoOld.source)).card < ADDRMAN_NEW_BUCKET_SIZE then
      infoOld.getNewBucket hash64 am.nKey infoOld.source else nOrigin := ⟨_, rfl⟩
  obtain ⟨hbucket, hcard⟩ : nBucket < am.vvNew.length ∧
      (am.newBucket nBucket).card < ADDRMAN_NEW_BUCKET_SIZE := by
    rw [hnBucket]
    split_ifs with hfits
    · refine ⟨?_, hfits⟩
      rw [h.sized.length_vvNew]
      exact getNewBucket_lt infoOld am.nKey infoOld.source
    · exact ⟨horigin, hroom⟩
  have hnot : nOld ∉ am.newBucket nBucket :=
    fun hin => absurd hnewOld (occurrences_pos_of_mem hbucket hin).ne'
  have hoccurrences := occurrences_insert (newBucket_eq hbucket) hnot
  have hcount := count_flatten_replace (triedBucket_eq hlt) hpos nId
  simp only [← hnOld] at hcount
  have hlength := length_flatten_set (triedBucket_eq hlt) ((am.triedBucket b).set nPos nId)
  rw [List.length_set] at hlength
  -- the tables afterwards: one is inserted into a new bucket, one replaced in the tried one
  obtain ⟨am', ham'⟩ : ∃ am' : CAddrMan, am' = { (am.setInfo nOld
      { infoOld with fInTried := false, nRefCount := 1 }).setInfo nId { info with fInTried := true } with
    vvNew := am.vvNew.set nBucket (insert nOld (am.newBucket nBucket))
    nNew := am.nNew + 1
    vvTried := am.vvTried.set b ((am.triedBucket b).set nPos nId) } := ⟨_, rfl⟩
  -- which is what `MakeTried` computes
  have heval : am.evictTried hash64 nId nOrigin b nPos = some am' := by
    have hinfo : (am.setInfo nOld { infoOld with fInTried := false, nRefCount := 1 }).mapInfo.lookup nId =
        some info := by
      rw [lookup_setInfo, if_neg (Ne.symm hne)]
      exact hlookup
    unfold CAddrMan.evictTried
    simp only [hget, has_eq_true hinfoOld, info_eq hinfoOld, guard_true, Option.pure_def, Option.bind_eq_bind,
      Option.bind_some]
    rw [ham']
    refine congrArg some ?_
    change CAddrMan.setInfo _ nId { CAddrMan.info { am.setInfo nOld
      { infoOld with fInTried := false, nRefCount := 1 } with
        vvNew := am.vvNew.set _ _, nNew := am.nNew + 1, vvTried := am.vvTried.set b _ } nId with
          fInTried := true } = _
    rw [info_eq (by exact hinfo), hnBucket]
    rfl
  refine ⟨am', heval, ?_, by rw [ham']; rfl⟩
  -- two entries have changed
  have hlookup' : ∀ n, am'.mapInfo.lookup n = if n = nId then some { info with fInTried := true }
      else if n = nOld then some { infoOld with fInTried := false, nRefCount := 1 }
      else am.mapInfo.lookup n := by
    intro n
    rw [ham']
    change ((am.setInfo nOld _).setInfo nId _).mapInfo.lookup n = _
    rw [lookup_setInfo, lookup_setInfo]
  -- and two rows
  have hvvNew : ∀ n, occurrences am'.vvNew n = occurrences am.vvNew n + if n = nOld then 1 else 0 := by
    rw [ham']
    exact hoccurrences
  have hvvTried : ∀ n, am'.vvTried.flatten.count n + (if nOld = n then 1 else 0) =
      am.vvTried.flatten.count n + if nId = n then 1 else 0 := by
    rw [ham']
    exact hcount
  have hplaces : SamePlaces am am' := by
    refine ⟨by rw [ham']; rfl, by rw [ham']; rfl, by rw [ham']; rfl, by rw [ham']; rfl, ?_⟩
    intro n
    rw [hlookup' n]
    split_ifs with hn hn'
    · rw [hn, hlookup]
      rfl
    · rw [hn', hinfoOld]
      rfl
    · rfl
  -- all others are filed as before
  have hothers : ∀ n, n ≠ nId → n ≠ nOld → occurrences am'.vvNew n = occurrences am.vvNew n ∧
      am'.vvTried.flatten.count n = am.vvTried.flatten.count n := by
    intro n hn hn'
    have hnew' := hvvNew n
    have htried' := hvvTried n
    rw [if_neg hn'] at hnew'
    rw [if_neg (Ne.symm hn'), if_neg (Ne.symm hn)] at htried'
    exact ⟨hnew', htried'⟩
  refine hplaces.inv h ?_ ?_ ?_ ?_ ?_ ?_ ?_
  · -- the one that comes is tried, the one that goes is new
    intro n info' hinfo'
    rw [hlookup' n] at hinfo'
    split_ifs at hinfo' with hn hn'
    · cases hinfo'
      subst hn
      have hnew' := hvvNew n
      have htried' := hvvTried n
      rw [if_neg (Ne.symm hne), hnew] at hnew'
      rw [if_neg hne, if_pos rfl, htried] at htried'
      exact .tried rfl rfl (by simp) hzero hnew' htried'
    · cases hinfo'
      subst hn'
      have hnew' := hvvNew n
      have htried' := hvvTried n
      rw [if_pos rfl, hnewOld] at hnew'
      rw [if_pos rfl, if_neg (Ne.symm hn), htriedOld] at htried'
      have hpos' : (0 : ℤ) < 1 := by decide
      have hmax : (1 : ℤ) ≤ ADDRMAN_NEW_BUCKETS_PER_ADDRESS := by decide
      refine .new rfl (by simp) ?_ hpos' hmax (by omega)
      rw [hnew']
      rfl
    · obtain ⟨hnew', htried'⟩ := hothers n hn hn'
      refine (h.filed n info' hinfo').congr rfl rfl hnew' htried' rfl ?_
      simp [Ne.symm hn]
  · -- no table holds an identifier without an entry
    intro n hn
    refine hothers n ?_ ?_
    · rintro rfl
      rw [hlookup] at hn
      exact absurd hn (by simp)
    · rintro rfl
      rw [hinfoOld] at hn
      exact absurd hn (by simp)
  · -- the times of the entries
    intro n info' hinfo'
    rw [hlookup' n] at hinfo'
    split_ifs at hinfo' with hn hn'
    · cases hinfo'
      exact ⟨fun _ => htime, (h.timed nId info hlookup).nLastTry, (h.timed nId info hlookup).nLastSuccess⟩
    · cases hinfo'
      exact ⟨fun htrue => absurd htrue (by simp), (h.timed nOld infoOld hinfoOld).nLastTry,
        (h.timed nOld infoOld hinfoOld).nLastSuccess⟩
    · exact h.timed n info' hinfo'
  · -- both rows change
    have hsizedNew : Sized { am with vvNew := am'.vvNew } := by
      refine h.sized.set_new ?_ (by rw [ham']) rfl
      rw [Finset.card_insert_of_notMem hnot]
      exact hcard
    have hsizedTried : Sized { am with vvTried := am'.vvTried } := by
      refine h.sized.set_tried ?_ rfl (by rw [ham'])
      rw [List.length_set]
      exact h.sized.tried _ (List.mem_of_getElem? (triedBucket_eq hlt))
    exact ⟨hsizedNew.length_vvNew, hsizedTried.length_vvTried, hsizedNew.new, hsizedTried.tried⟩
  · -- the counts of both tables
    have hnTried := h.nTried
    rw [ham']
    change am.nTried = (am.vvTried.set b ((am.triedBucket b).set nPos nId)).flatten.length
    omega
  · rw [ham']
    change am.nTried + (am.nNew + 1) + 0 = am.nTried + am.nNew + 1
    ring
  · -- each tried entry is in its own bucket
    intro b' v n info' hv hn hinfo'
    rw [ham'] at hv
    change (am.vvTried.set b ((am.triedBucket b).set nPos nId))[b']? = some v at hv
    rw [List.getElem?_set] at hv
    split_ifs at hv with hbb
    · cases hv
      subst hbb
      rcases List.mem_or_eq_of_mem_set hn with hn | rfl
      · exact h.placed b _ n info' (triedBucket_eq hlt) hn hinfo'
      · rw [hlookup] at hinfo'
        cases hinfo'
        exact hb
    · exact h.placed b' v n info' hv hn hinfo'

/-- **`MakeTried`** for an entry in the new bucket `nOrigin`. -/
theorem Inv.makeTried (h : Inv hash64 .nothing am) (hlookup : am.mapInfo.lookup nId = some info)
    (htime : info.nLastSuccess ≠ 0) {nOrigin : ℕ} (horigin : nOrigin < am.vvNew.length)
    (hmem : nId ∈ am.newBucket nOrigin) (rnd : ℕ → ℕ) :
    ∃ am', am.makeTried hash64 nId nOrigin rnd = some am' ∧ Inv hash64 .nothing am' ∧ am'.nKey = am.nKey := by
  obtain ⟨info', hlookup', hin, -⟩ := h.new_of_mem horigin hmem
  rw [hlookup] at hlookup'
  cases hlookup'
  obtain ⟨hleft, _, hinfo, rfl⟩ := h.leaveNew hlookup hin
  have hkey : (am.leaveNew nId).nKey = am.nKey := rfl
  have hvvNew : (am.leaveNew nId).vvNew = am.vvNew.map (·.erase nId) := rfl
  unfold CAddrMan.makeTried
  simp only [hmem, guard_true, Option.pure_def, Option.bind_eq_bind, Option.bind_some, info_eq hinfo]
  split_ifs with hroom
  · -- the tried bucket has room
    refine ⟨_, ?_, hleft.pushTried hinfo htime rfl hroom, hkey⟩
    rw [info_eq (by exact hinfo)]
  · -- it is full, and an entry is moved back to the new table
    set b := CAddrInfo.getTriedBucket hash64 { info with nRefCount := 0 } (am.leaveNew nId).nKey with hb
    have hlt : b < (am.leaveNew nId).vvTried.length := by
      rw [hleft.sized.length_vvTried]
      exact getTriedBucket_lt _ _
    have hne : (am.leaveNew nId).triedBucket b ≠ [] := by
      intro hnil
      rw [hnil] at hroom
      exact hroom (by decide)
    obtain ⟨vTried, nPos, hselect, hperm, hnonneg, hpos⟩ :=
      hleft.selectTried hlt hne rnd
    -- the bucket that the entry came from has room
    have horigin' : nOrigin < (am.leaveNew nId).vvNew.length := by
      rw [hvvNew, List.length_map]
      exact horigin
    have hbucket : (am.leaveNew nId).newBucket nOrigin = (am.newBucket nOrigin).erase nId := by
      have heq := newBucket_eq horigin'
      rw [hvvNew, List.getElem?_map, newBucket_eq horigin] at heq
      exact (Option.some.inj heq).symm
    have hcard : ((am.leaveNew nId).newBucket nOrigin).card < ADDRMAN_NEW_BUCKET_SIZE := by
      rw [hbucket]
      exact lt_of_lt_of_le (Finset.card_erase_lt_of_mem hmem)
        (h.sized.new _ (List.mem_of_getElem? (newBucket_eq horigin)))
    have hvTried : CAddrMan.triedBucket
        { am.leaveNew nId with vvTried := (am.leaveNew nId).vvTried.set b vTried } b = vTried := by
      unfold triedBucket
      rw [List.getD_eq_getElem?_getD, List.getElem?_set_self hlt]
      rfl
    have hnPos : nPos.toNat < (CAddrMan.triedBucket
        { am.leaveNew nId with vvTried := (am.leaveNew nId).vvTried.set b vTried } b).length := by
      rw [hvTried]
      omega
    obtain ⟨am', hevict, hinv, hkey'⟩ := (hleft.permTried hlt hperm).evictTried hinfo htime rfl horigin' hcard hnPos
    rw [hselect]
    exact ⟨am', hevict, hinv, hkey'.trans hkey⟩

theorem lt_of_bucketOf {nRnd : ℕ} (h : am.bucketOf nId nRnd = some b) :
    b < am.vvNew.length ∧ nId ∈ am.newBucket b := by
  unfold bucketOf at h
  refine ⟨?_, by simpa using List.find?_some h⟩
  obtain ⟨n, hn, rfl⟩ := List.mem_map.mp (List.mem_of_find?_eq_some h)
  exact Nat.mod_lt _ (by have := List.mem_range.mp hn; omega)

/-- **`Good_`**, for an address that is not there or at a time after 1970. -/
theorem Inv.good {addr : CService} {nTime : Int64} (h : Inv hash64 .nothing am) (rnd : ℕ → ℕ)
    (htime : am.findService addr ≠ none → 0 < nTime) :
    ∃ am', am.good hash64 addr nTime rnd = some am' ∧ Inv hash64 .nothing am' ∧ am'.nKey = am.nKey := by
  unfold CAddrMan.good
  cases hfind : am.findService addr with
  | none => exact ⟨am, rfl, h, rfl⟩
  | some q =>
    obtain ⟨nId, info⟩ := q
    obtain ⟨hlookup, -⟩ := findService_eq_some hfind
    have hpos := htime (by rw [hfind]; simp)
    have hne : nTime ≠ 0 := by
      rintro rfl
      exact absurd hpos (by decide)
    have hle : 0 ≤ nTime := Int64.le_of_lt hpos
    simp only
    -- the entry with its new times
    obtain ⟨info', hinfo'⟩ : ∃ info' : CAddrInfo, info' = { info with
      nLastSuccess := nTime
      nLastTry := nTime
      nTime := nTime.toUInt64.toUInt32
      nAttempts := 0 } := ⟨_, rfl⟩
    have hset : Inv hash64 .nothing (am.setInfo nId info') := by
      refine h.setInfo hlookup (by rw [hinfo']) (by rw [hinfo']) ?_ ?_ (fun _ _ => ⟨rfl, Iff.rfl⟩) rfl
      · exact (h.filed nId info hlookup).congr (by rw [hinfo']) (by rw [hinfo']) rfl rfl rfl Iff.rfl
      · rw [hinfo']
        exact ⟨fun _ => hne, hle, hle⟩
    have hlookup' : (am.setInfo nId info').mapInfo.lookup nId = some info' := by
      rw [lookup_setInfo, if_pos rfl]
    rw [← hinfo']
    split_ifs with htried
    · -- it is in the tried table already
      exact ⟨_, rfl, hset, rfl⟩
    · cases hbucket : (am.setInfo nId info').bucketOf nId (getRandInt (rnd 0) (am.setInfo nId info').vvNew.length) with
      -- it is in no bucket of the new table that was looked at
      | none => exact ⟨_, rfl, hset, rfl⟩
      | some nUBucket =>
        obtain ⟨hlt, hmem⟩ := lt_of_bucketOf hbucket
        exact hset.makeTried hlookup' (by rw [hinfo']; exact hne) hlt hmem fun i => rnd (i + 1)

end Good

/-! ### The other calls -/

section Others

variable {hash64 : List UInt8 → UInt64} {p : Pending} {am am' : CAddrMan} {nId n : ℤ} {info : CAddrInfo}

/-- **`Attempt_`**, for an address that is not there or at a time not before 1970. -/
theorem Inv.attempt {addr : CService} {nTime : Int64} (h : Inv hash64 .nothing am)
    (htime : am.findService addr ≠ none → 0 ≤ nTime) :
    Inv hash64 .nothing (am.attempt addr nTime) := by
  unfold CAddrMan.attempt
  cases hfind : am.findService addr with
  | none => exact h
  | some q =>
    obtain ⟨nId, info⟩ := q
    obtain ⟨hlookup, -⟩ := findService_eq_some hfind
    have hle := htime (by rw [hfind]; simp)
    refine h.setInfo hlookup rfl rfl ?_ ?_ (fun _ _ => ⟨rfl, Iff.rfl⟩) rfl
    · exact (h.filed nId info hlookup).congr rfl rfl rfl rfl rfl Iff.rfl
    · exact ⟨(h.timed nId info hlookup).tried, hle, (h.timed nId info hlookup).nLastSuccess⟩

/-- **`Connected_`.** -/
theorem Inv.connected (h : Inv hash64 .nothing am) (addr : CService) (nTime : Int64) :
    Inv hash64 .nothing (am.connected addr nTime) := by
  unfold CAddrMan.connected
  cases hfind : am.findService addr with
  | none => exact h
  | some q =>
    obtain ⟨nId, info⟩ := q
    obtain ⟨hlookup, -⟩ := findService_eq_some hfind
    simp only
    split_ifs
    · refine h.setInfo hlookup rfl rfl ?_ ?_ (fun _ _ => ⟨rfl, Iff.rfl⟩) rfl
      · exact (h.filed nId info hlookup).congr rfl rfl rfl rfl rfl Iff.rfl
      · exact ⟨(h.timed nId info hlookup).tried, (h.timed nId info hlookup).nLastTry,
          (h.timed nId info hlookup).nLastSuccess⟩
    · exact h

theorem selectFrom_ne_none {vv : List (List ℤ)} (h : ∀ v ∈ vv, ∀ n ∈ v, am.has n = true)
    (rounds : List SelectRound) : am.selectFrom vv rounds ≠ none := by
  induction rounds with
  | nil => exact Option.some_ne_none _
  | cons round rounds ih =>
    rw [selectFrom]
    set v := vv.getD (getRandInt round.bucket vv.length) [] with hv
    by_cases hempty : v = []
    · rw [if_pos hempty]
      exact ih
    · rw [if_neg hempty]
      -- a bucket that is not empty is one of the table
      have hmem : v ∈ vv := by
        rw [hv, List.getD_eq_getElem?_getD] at hempty ⊢
        cases hget : vv[getRandInt round.bucket vv.length]? with
        | none =>
          rw [hget] at hempty
          exact absurd rfl hempty
        | some w => exact List.mem_of_getElem? hget
      have hlt := @getRandInt_lt round.pos v.length (List.length_pos_of_ne_nil hempty)
      have hget : v.getD (getRandInt round.pos v.length) 0 = v[getRandInt round.pos v.length] := by
        rw [List.getD_eq_getElem?_getD, List.getElem?_eq_getElem hlt]
        rfl
      have hhas := h v hmem _ (List.getElem_mem hlt)
      simp only [hget, hhas, guard_true, Option.pure_def, Option.bind_eq_bind, Option.bind_some]
      split_ifs
      · exact Option.some_ne_none _
      · exact ih

/-- **`Select_`** fires no `assert`, whatever it draws. -/
theorem Inv.select (h : Inv hash64 .nothing am) (fTried : Bool) (rounds : List SelectRound) :
    am.select fTried rounds ≠ none := by
  unfold CAddrMan.select
  split_ifs
  · exact Option.some_ne_none _
  · refine selectFrom_ne_none ?_ rounds
    intro v hv n hn
    obtain ⟨b, hb, rfl⟩ := List.getElem_of_mem hv
    -- what is in a tried bucket is an entry, and so for the new ones
    have hmem : n ∈ am.triedBucket b := by
      have heq := triedBucket_eq hb
      rw [List.getElem?_eq_getElem hb] at heq
      rw [← Option.some.inj heq]
      exact hn
    obtain ⟨info, hlookup, -⟩ := h.tried_of_mem hb hmem
    exact has_eq_true hlookup
  · refine selectFrom_ne_none ?_ rounds
    intro v hv n hn
    obtain ⟨vNew, hvNew, rfl⟩ := List.mem_map.mp hv
    obtain ⟨b, hb, rfl⟩ := List.getElem_of_mem hvNew
    have hmem : n ∈ am.newBucket b := by
      have heq := newBucket_eq hb
      rw [List.getElem?_eq_getElem hb] at heq
      rw [← Option.some.inj heq]
      exact (Finset.mem_sort _).mp hn
    obtain ⟨info, hlookup, -⟩ := h.new_of_mem hb hmem
    exact has_eq_true hlookup

/-- The body of the loop of `GetAddr_`. -/
theorem Inv.getAddrStep {s : CAddrMan × List CAddress} (h : Inv hash64 .nothing s.1) (rnd : ℕ → ℕ) {n : ℕ}
    (hn : n < s.1.vRandom.length) :
    ∃ s', CAddrMan.getAddrStep rnd s n = some s' ∧ Inv hash64 .nothing s'.1 ∧ s'.1.nKey = s.1.nKey ∧
      s'.1.vRandom.length = s.1.vRandom.length := by
  have hpos : getRandInt (rnd n) (s.1.vRandom.length - n) + n < s.1.vRandom.length := by
    have hlt := @getRandInt_lt (rnd n) (s.1.vRandom.length - n) (by omega)
    omega
  obtain ⟨am', hswap, hindexed, hsame, -⟩ := h.indexed.swapRandom hn hpos
  have hlt : n < am'.vRandom.length := by
    rw [hsame.length_vRandom]
    exact hn
  obtain ⟨info, hlookup, -⟩ := hindexed.random n _ (List.getElem?_eq_getElem hlt)
  have hget : am'.vRandom.getD n 0 = am'.vRandom[n] := by
    rw [List.getD_eq_getElem?_getD, List.getElem?_eq_getElem hlt]
    rfl
  refine ⟨(am', s.2 ++ [info.toCAddress]), ?_, hsame.inv h hindexed, hsame.nKey, hsame.length_vRandom⟩
  unfold CAddrMan.getAddrStep
  simp only [hswap, Option.bind_eq_bind, Option.bind_some, hget, has_eq_true hlookup, guard_true,
    Option.pure_def, info_eq hlookup]

/-- **`GetAddr_`.** -/
theorem Inv.getAddr (h : Inv hash64 .nothing am) (rnd : ℕ → ℕ) :
    ∃ am' vAddr, am.getAddr rnd = some (am', vAddr) ∧ Inv hash64 .nothing am' ∧ am'.nKey = am.nKey := by
  -- the rounds exchange positions of `vRandom`, whose length stays
  have hloop : ∀ (ns : List ℕ) (s : CAddrMan × List CAddress), Inv hash64 .nothing s.1 →
      (∀ n ∈ ns, n < s.1.vRandom.length) → ∃ s', ns.foldlM (CAddrMan.getAddrStep rnd) s = some s' ∧
        Inv hash64 .nothing s'.1 ∧ s'.1.nKey = s.1.nKey := by
    intro ns
    induction ns with
    | nil => exact fun s hs _ => ⟨s, rfl, hs, rfl⟩
    | cons n ns ih =>
      intro s hs hns
      obtain ⟨s₁, hstep, hs₁, hkey, hlen⟩ := hs.getAddrStep rnd (hns n List.mem_cons_self)
      obtain ⟨s', hfold, hs', hkey'⟩ := ih s₁ hs₁ fun m hm => by
        rw [hlen]
        exact hns m (List.mem_cons_of_mem n hm)
      rw [List.foldlM_cons, hstep]
      exact ⟨s', hfold, hs', hkey'.trans hkey⟩
  unfold CAddrMan.getAddr
  simp only
  obtain ⟨s', hfold, hs', hkey⟩ := hloop (List.range (min (ADDRMAN_GETADDR_MAX_PCT * am.vRandom.length / 100)
    ADDRMAN_GETADDR_MAX)) (am, []) h (by
      -- at most 23 percent of the positions are drawn
      intro n hn
      have hlt := (List.mem_range.mp hn).trans_le (min_le_left _ _)
      unfold ADDRMAN_GETADDR_MAX_PCT at hlt
      change n < am.vRandom.length
      omega)
  exact ⟨s'.1, s'.2, hfold, hs', hkey⟩

end Others

end CAddrMan

end Peershares
