import Peershares.Framework.Buckets
import Peershares.Model.AddrMan

/-!
# What `Check_` tests

`Check_` goes through the entries and takes from each bucket what it has noted there. It returns zero exactly
when the facts of `Checked` hold. It reads `mapAddr` with `operator[]`, so an address that is missing there
passes for the entry with the id zero.

* `foldlM_checkInfo` — the loop over the entries
* `foldlM_checkTried`, `foldlM_checkNew` — the loops over the buckets
* `check_eq_zero_iff` — both together
-/

open Framework

namespace Peershares

namespace CAddrMan

/-- The tests of one entry. -/
structure Passes (am : CAddrMan) (mapAddr : Map CNetAddr ℤ) (n : ℤ) (info : CAddrInfo) : Prop where
  tried : info.fInTried = true → info.nLastSuccess ≠ 0 ∧ info.nRefCount = 0
  new : info.fInTried = false →
    (0 ≤ info.nRefCount ∧ info.nRefCount ≤ ADDRMAN_NEW_BUCKETS_PER_ADDRESS) ∧ info.nRefCount ≠ 0
  addr : (mapAddr.lookup info.toCNetAddr).getD 0 = n
  position : 0 ≤ info.nRandomPos ∧ info.nRandomPos < am.vRandom.length ∧
    am.vRandom.getD info.nRandomPos.toNat 0 = n
  nLastTry : 0 ≤ info.nLastTry
  nLastSuccess : 0 ≤ info.nLastSuccess

/-- The ids of the tried entries. -/
def triedIds (l : List (ℤ × CAddrInfo)) : List ℤ := (l.filter fun q => q.2.fInTried).map Prod.fst

/-- The ids of the new entries with their counts. -/
def newCounts (l : List (ℤ × CAddrInfo)) : List (ℤ × ℤ) :=
  (l.filter fun q => !q.2.fInTried).map fun q => (q.1, q.2.nRefCount)

/-- **The facts that `Check_` tests.** -/
structure Checked (am : CAddrMan) : Prop where
  size : (am.vRandom.length : ℤ) = am.nTried + am.nNew
  passes : ∀ q ∈ am.mapInfo.entries, Passes am am.mapAddr q.1 q.2
  nTried : ((triedIds am.mapInfo.entries).length : ℤ) = am.nTried
  nNew : ((newCounts am.mapInfo.entries).length : ℤ) = am.nNew
  tried : ∀ n, am.vvTried.flatten.count n = if n ∈ triedIds am.mapInfo.entries then 1 else 0
  new : ∀ n r, (n, r) ∈ newCounts am.mapInfo.entries → (occurrences am.vvNew n : ℤ) = r
  absent : ∀ n, n ∉ (newCounts am.mapInfo.entries).map Prod.fst → occurrences am.vvNew n = 0

/-! ### The entries -/

/-- A test of `Check_` is passed before the next one is made. -/
theorem expect_bind {α : Type} {code : ℤ} {test : Bool} {f : Unit → Except ℤ α} {a : α} :
    (expect code test >>= f) = .ok a ↔ test = true ∧ f () = .ok a := by
  unfold expect
  split_ifs with htest
  · rw [htest]
    exact ⟨fun h => ⟨rfl, h⟩, And.right⟩
  · constructor
    · intro h
      cases h
    · exact fun h => absurd h.1 htest

variable {am : CAddrMan}

/-- What the loop has noted after an entry. -/
def CheckState.note (c : CheckState) (n : ℤ) (info : CAddrInfo) : CheckState where
  mapAddr := c.mapAddr.insert info.toCNetAddr n
  setTried := if info.fInTried then insert n c.setTried else c.setTried
  mapNew := if info.fInTried then c.mapNew else c.mapNew.insert n info.nRefCount

/-- The tests of one entry, which is then noted. -/
theorem checkInfo_eq_ok {c c' : CheckState} {n : ℤ} {info : CAddrInfo} :
    am.checkInfo c (n, info) = .ok c' ↔ Passes am c.mapAddr n info ∧ c' = c.note n info := by
  unfold checkInfo CheckState.note
  by_cases hin : info.fInTried = true
  · simp only [hin, if_true, pure_bind, expect_bind, decide_eq_true_eq]
    constructor
    · rintro ⟨hsuccess, hcount, haddr, hpos, htry, hlast, h⟩
      cases h
      refine ⟨⟨fun _ => ⟨hsuccess, hcount⟩, fun hnew => absurd (hin.symm.trans hnew) (by simp), haddr, hpos, htry,
        hlast⟩, ?_⟩
      rw [haddr]
    · -- the tests are those of a tried entry, in the order of the source
      rintro ⟨hpasses, rfl⟩
      refine ⟨(hpasses.tried hin).1, (hpasses.tried hin).2, hpasses.addr, hpasses.position, hpasses.nLastTry,
        hpasses.nLastSuccess, ?_⟩
      rw [hpasses.addr]
      rfl
  · -- and here those of a new one
    have hin' : info.fInTried = false := by simpa using hin
    simp only [hin', Bool.false_eq_true, if_false, pure_bind, expect_bind, decide_eq_true_eq]
    constructor
    · rintro ⟨hrange, hcount, haddr, hpos, htry, hlast, h⟩
      cases h
      refine ⟨⟨fun htried => absurd htried hin, fun _ => ⟨hrange, hcount⟩, haddr, hpos, htry, hlast⟩, ?_⟩
      rw [haddr]
    · rintro ⟨hpasses, rfl⟩
      refine ⟨(hpasses.new hin').1, (hpasses.new hin').2, hpasses.addr, hpasses.position, hpasses.nLastTry,
        hpasses.nLastSuccess, ?_⟩
      rw [hpasses.addr]
      rfl

/-- Which address an id is looked up for does not change while the loop runs. -/
theorem Passes.note {c : CheckState} {n m : ℤ} {info info' : CAddrInfo} (h : Passes am c.mapAddr n info) :
    Passes am (c.note n info).mapAddr m info' ↔ Passes am c.mapAddr m info' := by
  have heq : ((c.mapAddr.insert info.toCNetAddr n).lookup info'.toCNetAddr).getD 0 =
      (c.mapAddr.lookup info'.toCNetAddr).getD 0 := by
    rw [Map.lookup_insert_eq]
    split_ifs with haddr
    · rw [haddr, h.addr]
      rfl
    · rfl
  constructor
  · intro h'
    exact ⟨h'.tried, h'.new, heq ▸ h'.addr, h'.position, h'.nLastTry, h'.nLastSuccess⟩
  · intro h'
    exact ⟨h'.tried, h'.new, heq.trans h'.addr, h'.position, h'.nLastTry, h'.nLastSuccess⟩

/-- **The loop over the entries** tests each of them, and notes the ids. -/
theorem foldlM_checkInfo (l : List (ℤ × CAddrInfo)) (c c' : CheckState) :
    l.foldlM am.checkInfo c = .ok c' ↔
      (∀ q ∈ l, Passes am c.mapAddr q.1 q.2) ∧ c' = l.foldl (fun c q => c.note q.1 q.2) c := by
  induction l generalizing c with
  | nil =>
    simp only [List.foldlM_nil, List.foldl_nil, List.not_mem_nil, false_implies, implies_true, true_and]
    constructor
    · intro h
      cases h
      rfl
    · rintro rfl
      rfl
  | cons q l ih =>
    obtain ⟨n, info⟩ := q
    rw [List.foldlM_cons, List.foldl_cons]
    constructor
    · intro h
      -- an entry that fails its tests ends the loop
      cases hstep : am.checkInfo c (n, info) with
      | error code =>
        rw [hstep] at h
        cases h
      | ok c₁ =>
        rw [hstep] at h
        obtain ⟨hpasses, rfl⟩ := checkInfo_eq_ok.mp hstep
        obtain ⟨hrest, hc'⟩ := (ih _).mp h
        refine ⟨?_, hc'⟩
        intro q hq
        rcases List.mem_cons.mp hq with rfl | hq
        · exact hpasses
        · exact hpasses.note.mp (hrest q hq)
    · -- the tests of the rest do not depend on what was noted
      rintro ⟨hall, hc'⟩
      have hpasses := hall _ List.mem_cons_self
      rw [checkInfo_eq_ok.mpr ⟨hpasses, rfl⟩]
      refine (ih _).mpr ⟨?_, hc'⟩
      intro q hq
      exact hpasses.note.mpr (hall q (List.mem_cons_of_mem _ hq))

/-- The tried entries noted. -/
theorem setTried_foldl_note (l : List (ℤ × CAddrInfo)) (c : CheckState) :
    (l.foldl (fun c q => c.note q.1 q.2) c).setTried = c.setTried ∪ (triedIds l).toFinset := by
  induction l generalizing c with
  | nil => simp [triedIds]
  | cons q l ih =>
    rw [List.foldl_cons, ih]
    unfold CheckState.note triedIds
    rw [List.filter_cons]
    split_ifs with htried
    · rw [List.map_cons, List.toFinset_cons, Finset.insert_union, Finset.union_insert]
    · rfl

/-- The new entries noted, with their counts. -/
theorem mapNew_foldl_note (l : List (ℤ × CAddrInfo)) (c : CheckState) :
    (l.foldl (fun c q => c.note q.1 q.2) c).mapNew = (newCounts l).foldl (fun m q => m.insert q.1 q.2) c.mapNew := by
  induction l generalizing c with
  | nil => rfl
  | cons q l ih =>
    rw [List.foldl_cons, ih]
    unfold CheckState.note newCounts
    rw [List.filter_cons]
    cases htried : q.2.fInTried with
    | true => rfl
    | false => rfl

/-! ### The buckets -/

/-- **The loop over the tried buckets** comes to its end with nothing left. -/
theorem foldlM_checkTried (l : List ℤ) (s : Finset ℤ) :
    l.foldlM checkTried s = .ok ∅ ↔ ∀ n, l.count n = if n ∈ s then 1 else 0 := by
  induction l generalizing s with
  | nil =>
    simp only [List.foldlM_nil, List.count_nil]
    constructor
    · -- no entry is left, so the set is empty
      intro h
      cases h
      simp
    · intro h
      have hempty : s = ∅ := by
        refine Finset.eq_empty_of_forall_notMem ?_
        intro n hn
        have hn' := h n
        rw [if_pos hn] at hn'
        exact absurd hn' (by simp)
      rw [hempty]
      rfl
  | cons m l ih =>
    rw [List.foldlM_cons]
    -- the first entry of the bucket is taken out of the set
    unfold checkTried
    simp only [bind_assoc, pure_bind, expect_bind, decide_eq_true_eq]
    change m ∈ s ∧ l.foldlM checkTried (s.erase m) = .ok ∅ ↔ _
    rw [ih]
    constructor
    · -- `m` was in the set, and is not there a second time
      rintro ⟨hm, h⟩ n
      rw [List.count_cons, h n]
      by_cases hn : n = m
      · subst hn
        simp [hm]
      · simp [hn, Ne.symm hn]
    · intro h
      -- it is counted, so it has to be in the set
      have hm : m ∈ s := by
        by_contra hm
        have hm' := h m
        rw [if_neg hm, List.count_cons_self] at hm'
        omega
      refine ⟨hm, ?_⟩
      intro n
      have hn' := h n
      rw [List.count_cons] at hn'
      by_cases hn : n = m
      · subst hn
        simp only [beq_self_eq_true, if_true, hm] at hn'
        simp only [Finset.mem_erase, ne_eq, not_true_eq_false, false_and, if_false]
        omega
      · simpa [hn, Ne.symm hn] using hn'

/-- **The loop over the new buckets** comes to its end with nothing left. -/
theorem foldlM_checkNew (l : List ℤ) (m : Map ℤ ℤ) :
    (∃ m', l.foldlM checkNew m = .ok m' ∧ ∀ n, m'.lookup n = none) ↔
      ∀ n, m.lookup n = if l.count n = 0 then none else some (l.count n : ℤ) := by
  -- induction on the row of identifiers, each of which counts its entry down
  induction l generalizing m with
  | nil =>
    simp only [List.foldlM_nil, List.count_nil, if_true]
    constructor
    · rintro ⟨m', h, hnone⟩
      cases h
      exact hnone
    · intro h
      exact ⟨m, rfl, h⟩
  | cons k l ih =>
    rw [List.foldlM_cons]
    -- an identifier that was not noted fails the test
    cases hk : m.lookup k with
    | none =>
      have hstep : checkNew m k = .error (-12) := by
        unfold checkNew
        rw [hk]
      rw [hstep]
      constructor
      · rintro ⟨m', h, -⟩
        cases h
      · intro h
        have hk' := h k
        rw [hk, List.count_cons_self, if_neg (Nat.succ_ne_zero _)] at hk'
        exact absurd hk' (by simp)
    | some r =>
      -- what is left of the map after this id
      have hstep : ∃ m₁, checkNew m k = .ok m₁ ∧ ∀ n, m₁.lookup n =
          if n = k then (if r - 1 = 0 then none else some (r - 1)) else m.lookup n := by
        unfold checkNew
        rw [hk]
        simp only
        split_ifs with hr
        · refine ⟨_, rfl, ?_⟩
          intro n
          rw [Map.lookup_erase_eq]
        · refine ⟨_, rfl, ?_⟩
          intro n
          rw [Map.lookup_insert_eq]
      obtain ⟨m₁, hm₁, hlookup⟩ := hstep
      rw [hm₁]
      change (∃ m', l.foldlM checkNew m₁ = .ok m' ∧ _) ↔ _
      rw [ih m₁]
      refine forall_congr' ?_
      intro n
      rw [hlookup n, List.count_cons]
      -- for the identifier itself the count goes down by one
      by_cases hn : n = k
      · subst hn
        simp only [beq_self_eq_true, if_true, hk, Nat.add_one_ne_zero, if_false, Option.some.injEq]
        split_ifs with hr hl hl
        · simp only [true_iff]
          omega
        · constructor
          · intro h
            exact absurd h (by simp)
          · intro h
            push_cast at h
            omega
        · constructor
          · intro h
            exact absurd h (by simp)
          · intro h
            push_cast at h
            omega
        · rw [Option.some.injEq]
          push_cast
          omega
      · simp [hn, Ne.symm hn]

/-! ### All tests -/

/-- The numbers of the tests are not zero. -/
def Numbered {α : Type} (x : Except ℤ α) : Prop := ∀ code, x = .error code → code ≠ 0

namespace Numbered

variable {α β : Type}

/-- Every test has a number. -/
theorem expect {code : ℤ} (h : code ≠ 0) (test : Bool) : Numbered (CAddrMan.expect code test) := by
  intro code' heq
  unfold CAddrMan.expect at heq
  split_ifs at heq
  cases heq
  exact h

/-- No failure, no number. -/
theorem ok (a : α) : Numbered (.ok a : Except ℤ α) := by
  intro code heq
  cases heq

/-- Tests one after the other. -/
theorem bind {x : Except ℤ α} {f : α → Except ℤ β} (hx : Numbered x) (hf : ∀ a, Numbered (f a)) :
    Numbered (x >>= f) := by
  intro code heq
  cases hval : x with
  | error code' =>
    rw [hval] at heq
    cases heq
    exact hx code hval
  | ok a =>
    rw [hval] at heq
    exact hf a code heq

/-- A loop of tests. -/
theorem foldlM {f : β → α → Except ℤ β} (hf : ∀ b a, Numbered (f b a)) (l : List α) (b : β) :
    Numbered (l.foldlM f b) := by
  induction l generalizing b with
  | nil => exact ok b
  | cons a l ih =>
    rw [List.foldlM_cons]
    exact (hf b a).bind ih

end Numbered

/-- So the tests of an entry have numbers. -/
theorem numbered_checkInfo (c : CheckState) (q : ℤ × CAddrInfo) : Numbered (am.checkInfo c q) := by
  obtain ⟨n, info⟩ := q
  unfold checkInfo
  simp only [pure_bind]
  split_ifs
  · exact (Numbered.expect (by decide) _).bind fun _ => (Numbered.expect (by decide) _).bind fun _ =>
      (Numbered.expect (by decide) _).bind fun _ => (Numbered.expect (by decide) _).bind fun _ =>
      (Numbered.expect (by decide) _).bind fun _ => (Numbered.expect (by decide) _).bind fun _ => .ok _
  · exact (Numbered.expect (by decide) _).bind fun _ => (Numbered.expect (by decide) _).bind fun _ =>
      (Numbered.expect (by decide) _).bind fun _ => (Numbered.expect (by decide) _).bind fun _ =>
      (Numbered.expect (by decide) _).bind fun _ => (Numbered.expect (by decide) _).bind fun _ => .ok _

/-- And those of the new table. -/
theorem numbered_checkNew (m : Map ℤ ℤ) (n : ℤ) : Numbered (checkNew m n) := by
  unfold checkNew
  split
  · intro code heq
    cases heq
    decide
  · split_ifs
    · exact .ok _
    · exact .ok _

/-- `Check_` returns zero exactly when all are passed. -/
theorem check_eq_zero : am.check = 0 ↔ am.checkTables = .ok () := by
  have hnumbered : Numbered am.checkTables := by
    unfold checkTables
    refine (Numbered.expect (by decide) _).bind fun _ => ?_
    refine (Numbered.foldlM numbered_checkInfo _ _).bind fun c => ?_
    refine (Numbered.expect (by decide) _).bind fun _ => (Numbered.expect (by decide) _).bind fun _ => ?_
    refine (Numbered.foldlM (fun s n => ?_) _ _).bind fun _ => (Numbered.foldlM numbered_checkNew _ _).bind fun _ =>
      (Numbered.expect (by decide) _).bind fun _ => .expect (by decide) _
    exact (Numbered.expect (by decide) _).bind fun _ => .ok _
  unfold check
  cases htables : am.checkTables with
  | ok _ => simp
  | error code =>
    simp only [reduceCtorEq, iff_false]
    exact hnumbered code htables

/-- Each new entry is counted once. -/
theorem keys_newCounts_nodup (am : CAddrMan) : ((newCounts am.mapInfo.entries).map Prod.fst).Nodup := by
  unfold newCounts
  rw [List.map_map]
  change (List.map Prod.fst (am.mapInfo.entries.filter _)).Nodup
  exact (am.mapInfo.keys_increasing.imp fun h => h.ne).sublist (List.filter_sublist.map _)

/-- And each tried one. -/
theorem triedIds_nodup (am : CAddrMan) : (triedIds am.mapInfo.entries).Nodup :=
  (am.mapInfo.keys_increasing.imp fun h => h.ne).sublist (List.filter_sublist.map _)

/-- As many as there are keys. -/
theorem length_entries_eq {m : Map ℤ ℤ} {l : List ℤ} (hl : l.Nodup)
    (h : ∀ n, (m.lookup n).isSome = true ↔ n ∈ l) : m.entries.length = l.length := by
  have hperm : m.keys.Perm l := by
    rw [List.perm_ext_iff_of_nodup m.keys_nodup hl]
    intro n
    rw [← h n, AList.lookup_isSome, AList.mem_keys]
  have hlen := hperm.length_eq
  unfold AList.keys List.keys at hlen
  rwa [List.length_map] at hlen

/-- Two tests are passed. -/
theorem bind_eq_ok {α β : Type} {x : Except ℤ α} {f : α → Except ℤ β} {b : β} :
    (x >>= f) = .ok b ↔ ∃ a, x = .ok a ∧ f a = .ok b := by
  cases x with
  | error code =>
    constructor
    · intro h
      cases h
    · rintro ⟨a, h, -⟩
      cases h
  | ok a =>
    constructor
    · intro h
      exact ⟨a, rfl, h⟩
    · rintro ⟨a', h, h'⟩
      cases h
      exact h'

/-- One test is passed. -/
theorem expect_eq_ok {code : ℤ} {test : Bool} {u : Unit} : expect code test = .ok u ↔ test = true := by
  unfold expect
  split_ifs with htest
  · exact ⟨fun _ => htest, fun _ => rfl⟩
  · constructor
    · intro h
      cases h
    · exact fun h => absurd h htest

/-- What the loop over the entries has noted. -/
def noted (am : CAddrMan) : CheckState :=
  am.mapInfo.entries.foldl (fun c q => c.note q.1 q.2) { mapAddr := am.mapAddr }

/-- What is noted as tried after the loop. -/
theorem setTried_noted : am.noted.setTried = (triedIds am.mapInfo.entries).toFinset := by
  unfold noted
  rw [setTried_foldl_note, Finset.empty_union]

/-- And as new. -/
theorem lookup_noted (n r : ℤ) :
    am.noted.mapNew.lookup n = some r ↔ (n, r) ∈ newCounts am.mapInfo.entries := by
  unfold noted
  rw [mapNew_foldl_note, Map.lookup_foldl_insert (keys_newCounts_nodup am)]
  simp

/-- The new entries are those noted. -/
theorem lookup_noted_isSome (n : ℤ) :
    (am.noted.mapNew.lookup n).isSome = true ↔ n ∈ (newCounts am.mapInfo.entries).map Prod.fst := by
  rw [Option.isSome_iff_exists, List.mem_map]
  constructor
  · rintro ⟨r, hr⟩
    exact ⟨(n, r), (lookup_noted n r).mp hr, rfl⟩
  · rintro ⟨⟨_, r⟩, hr, rfl⟩
    exact ⟨r, (lookup_noted _ r).mpr hr⟩

/-- The counts of the new entries are those of the buckets, as `Check_` sees it. -/
theorem noted_counts_iff (hpos : ∀ n r, (n, r) ∈ newCounts am.mapInfo.entries → r ≠ 0) :
    (∀ n, am.noted.mapNew.lookup n =
      if occurrences am.vvNew n = 0 then none else some (occurrences am.vvNew n : ℤ)) ↔
    (∀ n r, (n, r) ∈ newCounts am.mapInfo.entries → (occurrences am.vvNew n : ℤ) = r) ∧
      ∀ n, n ∉ (newCounts am.mapInfo.entries).map Prod.fst → occurrences am.vvNew n = 0 := by
  constructor
  · intro h
    refine ⟨?_, ?_⟩
    · intro n r hr
      have hlookup := h n
      rw [(lookup_noted n r).mpr hr] at hlookup
      split_ifs at hlookup
      exact (Option.some.inj hlookup).symm
    · -- an id that is nowhere has no count
      intro n hn
      have hlookup := h n
      rw [← lookup_noted_isSome, hlookup] at hn
      by_contra hne
      rw [if_neg hne] at hn
      exact hn rfl
  · rintro ⟨hnew, habsent⟩ n
    by_cases hn : n ∈ (newCounts am.mapInfo.entries).map Prod.fst
    · obtain ⟨⟨_, r⟩, hr, rfl⟩ := List.mem_map.mp hn
      rw [(lookup_noted _ r).mpr hr, if_neg, hnew _ r hr]
      -- the count of a new entry is never zero
      intro hzero
      have hr' := hnew _ r hr
      rw [hzero] at hr'
      exact hpos _ r hr hr'.symm
    · rw [habsent n hn, if_pos rfl]
      have hnone := mt (lookup_noted_isSome n).mp hn
      simpa using hnone

/-- **`Check_` returns zero exactly when what it tests holds.** -/
theorem check_eq_zero_iff : am.check = 0 ↔ am.Checked := by
  rw [check_eq_zero]
  unfold checkTables
  simp only [bind_eq_ok, expect_eq_ok, foldlM_checkInfo, decide_eq_true_eq]
  have hcard : am.noted.setTried.card = (triedIds am.mapInfo.entries).length := by
    rw [setTried_noted, List.toFinset_card_of_nodup (triedIds_nodup am)]
  have hlen : am.noted.mapNew.entries.length = (newCounts am.mapInfo.entries).length := by
    rw [length_entries_eq (keys_newCounts_nodup am) lookup_noted_isSome, List.length_map]
  have hpos : (∀ q ∈ am.mapInfo.entries, Passes am am.mapAddr q.1 q.2) →
      ∀ n r, (n, r) ∈ newCounts am.mapInfo.entries → r ≠ 0 := by
    intro hpasses n r hr
    obtain ⟨q, hq, heq⟩ := List.mem_map.mp hr
    obtain ⟨hq, hin⟩ := List.mem_filter.mp hq
    cases heq
    exact ((hpasses q hq).new (by simpa using hin)).2
  -- what each loop is worth, by its own lemma
  have htried : am.vvTried.flatten.foldlM checkTried am.noted.setTried = .ok ∅ ↔
      ∀ n, am.vvTried.flatten.count n = if n ∈ triedIds am.mapInfo.entries then 1 else 0 := by
    rw [foldlM_checkTried, setTried_noted]
    simp only [List.mem_toFinset]
  have hnew : (∃ m', (am.vvNew.flatMap (·.sort)).foldlM checkNew am.noted.mapNew = .ok m' ∧
      ∀ n, m'.lookup n = none) ↔ ∀ n, am.noted.mapNew.lookup n =
        if occurrences am.vvNew n = 0 then none else some (occurrences am.vvNew n : ℤ) := by
    rw [foldlM_checkNew]
    simp only [count_flatMap_sort]
  constructor
  · rintro ⟨-, hsize, _, ⟨hpasses, rfl⟩, -, hnTried, -, hnNew, _, hrunTried, m, hrunNew, -, rfl, hzero⟩
    -- the map that the last loop leaves is empty
    have hnone : ∀ n, m.lookup n = none := by
      intro n
      have hnil : m.entries = [] := List.eq_nil_of_length_eq_zero hzero
      rw [AList.lookup_eq_none, AList.mem_keys, AList.keys, List.keys, hnil]
      exact List.not_mem_nil
    obtain ⟨hcounts, habsent⟩ := (noted_counts_iff (hpos hpasses)).mp (hnew.mp ⟨m, hrunNew, hnone⟩)
    refine ⟨hsize, hpasses, ?_, ?_, htried.mp hrunTried, hcounts, habsent⟩
    · rw [← hcard]
      exact hnTried
    · rw [← hlen]
      exact hnNew
  · intro h
    obtain ⟨m, hrunNew, hnone⟩ := hnew.mpr ((noted_counts_iff (hpos h.passes)).mpr ⟨h.new, h.absent⟩)
    refine ⟨(), h.size, am.noted, ⟨h.passes, rfl⟩, (), ?_, (), ?_, ∅, htried.mpr h.tried, m, hrunNew, (), rfl, ?_⟩
    · rw [hcard]
      exact h.nTried
    · rw [hlen]
      exact h.nNew
    · have hempty := @length_entries_eq m [] List.nodup_nil (fun n => by rw [hnone n]; simp)
      exact hempty

end CAddrMan

end Peershares
