import Peershares.Dividend.Payees
import Peershares.Framework.Shares

/-!
# The shares of a dividend

`Distribute` drops the holders whose payout is below the minimum, round by round, and pays the rest in
proportion to their balances. In exact arithmetic this is `Framework.retain`: the rounds end, and the
holders who are left do not depend on the order of the map. The one thing that goes wrong is the making
of a `Distribution` for a key that is no address.

A round of the source builds the list of payouts and removes from the map whom it has dropped, and the next round begins
with the map. Its loop is compared with `kept`, which is a filter: a holder stays just when the share is not below the
minimum (`lt_payout_iff`). An assertion fires at the first key without a hash that is paid; one that is dropped before
it would be paid does no harm (`DropsUnset`).

* `distributeRound_eq`, `distributeLoop_eq` — one round, and all of them
* `distributeRound_asserts` — a key without a hash is paid
* `distribute_shares_iff` — when `Distribute` does what it should
-/

open Framework

namespace Peershares

/-- The balance of a holder. -/
def balance (e : CBase58Data × Int) : ℚ := e.2

/-- The holder a distribution is for. -/
def Distribution.holder {D : Type} (x : Distribution D) : CBase58Data × Int := (x.addrPeershares, x.nBalance)

section

variable {P : Params} {dAmount dMin dTotal : ℚ} {entries : List (CBase58Data × Int)}

theorem totalBalance_eq (entries : List (CBase58Data × Int)) :
    (totalBalance entries : ℚ) = totalWeight balance entries := by
  have hfold : ∀ acc : ℚ, entries.foldl (fun acc e => Double.add acc (Double.ofInt64 e.2)) acc =
      acc + totalWeight balance entries := by
    intro acc
    induction entries generalizing acc with
    | nil => simp [totalWeight]
    | cons e entries ih =>
      rw [List.foldl_cons, ih]
      simp only [totalWeight, List.map_cons, List.sum_cons, balance, Double.add, Double.ofInt64]
      ring
  have hzero : (Double.ofInt64 0 : ℚ) = 0 := by simp [Double.ofInt64]
  unfold totalBalance
  rw [hfold, hzero, zero_add]

theorem lt_payout_iff (nBalance : Int) : Double.lt (payout dAmount dTotal nBalance) dMin = true ↔
    ¬dMin ≤ share dAmount dTotal (nBalance : ℚ) := by
  rw [not_le]
  exact decide_eq_true_iff

/-- A key with a hash gets its distribution. -/
theorem Distribution.new_eq_ok {addr : CBase58Data} (h : addr.vchData.length = 20) (nBalance : Int)
    (dDividendAmount : ℚ) : ∃ x, Distribution.new P addr nBalance dDividendAmount = .ok x ∧
      x.holder = (addr, nBalance) ∧ x.dDividendAmount = dDividendAmount := by
  unfold Distribution.new CPeercoinAddress.ofAddress CBase58Data.getHash160
  rw [if_pos h]
  exact ⟨_, rfl, rfl, rfl⟩

theorem Distribution.new_asserts {addr : CBase58Data} (h : addr.vchData.length ≠ 20) (nBalance : Int)
    (dDividendAmount : ℚ) : Distribution.new P addr nBalance dDividendAmount = .error .assertion := by
  unfold Distribution.new CPeercoinAddress.ofAddress CBase58Data.getHash160
  rw [if_neg h]
  rfl

/-! ### One round -/

/-- A round pays those who get the minimum, in their order. -/
theorem distributeRound_eq (h : ∀ e ∈ entries, dMin ≤ share dAmount dTotal (balance e) →
    e.1.vchData.length = 20) (d : DividendDistributor ℚ) :
    ∃ xs, distributeRound P dAmount dMin dTotal entries d =
        .ok (entries.filter (fun e => decide (dMin ≤ share dAmount dTotal (balance e))),
          ⟨d.vDistribution ++ xs, d.dTotalDistributed + (xs.map Distribution.dDividendAmount).sum⟩) ∧
      xs.map Distribution.holder =
        entries.filter (fun e => decide (dMin ≤ share dAmount dTotal (balance e))) ∧
      ∀ x ∈ xs, x.dDividendAmount = share dAmount dTotal (balance x.holder) := by
  induction entries generalizing d with
  | nil => exact ⟨[], by simp [distributeRound], rfl, by simp⟩
  | cons e entries ih =>
    obtain ⟨addr, nBalance⟩ := e
    obtain ⟨hfirst, hrest⟩ := List.forall_mem_cons.mp h
    -- who gets the minimum is paid and kept
    by_cases hpaid : dMin ≤ share dAmount dTotal (balance (addr, nBalance))
    · obtain ⟨x, hnew, hholder, hdividend⟩ := Distribution.new_eq_ok (P := P) (hfirst hpaid) nBalance
        (payout dAmount dTotal nBalance)
      obtain ⟨xs, hround, hmap, hamounts⟩ := ih hrest ⟨d.vDistribution ++ [x],
        Double.add d.dTotalDistributed (payout dAmount dTotal nBalance)⟩
      have hx : x.dDividendAmount = share dAmount dTotal (balance x.holder) := by
        rw [hdividend, hholder]
        rfl
      refine ⟨x :: xs, ?_, ?_, List.forall_mem_cons.mpr ⟨hx, hamounts⟩⟩
      · have hlow : ¬Double.lt (payout dAmount dTotal nBalance) dMin = true := by
          rw [lt_payout_iff]
          exact not_not.mpr hpaid
        rw [distributeRound, if_neg hlow, hnew, Result.ok_bind, hround, Result.ok_bind,
          List.filter_cons_of_pos (by simpa using hpaid)]
        simp [Double.add, hdividend, add_assoc, pure, Except.pure]
      · rw [List.map_cons, hmap, hholder, List.filter_cons_of_pos (by simpa using hpaid)]
    · -- who does not is dropped
      obtain ⟨xs, hround, hmap, hamounts⟩ := ih hrest d
      refine ⟨xs, ?_, ?_, hamounts⟩
      · rw [distributeRound, if_pos (lt_payout_iff nBalance |>.mpr hpaid), hround,
          List.filter_cons_of_neg (by simpa using hpaid)]
      · rw [hmap, List.filter_cons_of_neg (by simpa using hpaid)]

/-- A round that pays a key without a hash fails the assertion. -/
theorem distributeRound_asserts (h : ∃ e ∈ entries, dMin ≤ share dAmount dTotal (balance e) ∧
    e.1.vchData.length ≠ 20) (d : DividendDistributor ℚ) :
    distributeRound P dAmount dMin dTotal entries d = .error .assertion := by
  induction entries generalizing d with
  | nil =>
    obtain ⟨e, he, -⟩ := h
    exact absurd he (by simp)
  | cons e entries ih =>
    obtain ⟨addr, nBalance⟩ := e
    obtain ⟨e', he', hpaid', hbad⟩ := h
    -- below the minimum no address is made
    by_cases hlow : Double.lt (payout dAmount dTotal nBalance) dMin = true
    · rw [distributeRound, if_pos hlow]
      refine ih ⟨e', ?_, hpaid', hbad⟩ d
      rcases List.mem_cons.mp he' with rfl | he'
      · exact absurd hpaid' ((lt_payout_iff nBalance).mp hlow)
      · exact he'
    · rw [distributeRound, if_neg hlow]
      by_cases hlen : addr.vchData.length = 20
      · obtain ⟨x, hnew, -⟩ := Distribution.new_eq_ok (P := P) hlen nBalance (payout dAmount dTotal nBalance)
        have he : e' ∈ entries := by
          rcases List.mem_cons.mp he' with rfl | he'
          · exact absurd hlen hbad
          · exact he'
        rw [hnew, Result.ok_bind, ih ⟨e', he, hpaid', hbad⟩]
        rfl
      · -- the assertion is about the length of the key
        rw [Distribution.new_asserts hlen]
        rfl

/-! ### All rounds -/

/-- The keys without a hash that the first round meets are dropped by it. -/
def DropsUnset (dAmount dMin : ℚ) (entries : List (CBase58Data × Int)) : Prop :=
  ∀ e ∈ entries, e.1.vchData.length ≠ 20 → share dAmount (totalWeight balance entries) (balance e) < dMin

/-- **All rounds**: those who are left in the end are paid, in their order. -/
theorem distributeLoop_eq (h : DropsUnset dAmount dMin entries) :
    ∃ xs, distributeLoop P dAmount dMin entries =
        .ok ⟨xs, (xs.map Distribution.dDividendAmount).sum⟩ ∧
      xs.map Distribution.holder = retain dAmount dMin balance entries ∧
      ∀ x ∈ xs, x.dDividendAmount =
        share dAmount (totalWeight balance (retain dAmount dMin balance entries)) (balance x.holder) := by
  induction hn : entries.length using Nat.strong_induction_on generalizing entries with
  | _ n ih =>
    have hpaid : ∀ e ∈ entries, dMin ≤ share dAmount (totalWeight balance entries) (balance e) →
        e.1.vchData.length = 20 := by
      intro e he hle
      by_contra hbad
      exact absurd hle (not_le.mpr (h e he hbad))
    obtain ⟨xs, hround, hmap, hamounts⟩ := distributeRound_eq (P := P) hpaid ⟨[], Double.ofInt64 0⟩
    have hzero : (Double.ofInt64 0 : ℚ) = 0 := by simp [Double.ofInt64]
    rw [hzero, List.nil_append, zero_add] at hround
    rw [distributeLoop, totalBalance_eq, hzero, hround]
    simp only
    by_cases hless : (kept dAmount dMin balance entries).length < entries.length
    · rw [retain_of_lt hless]
      -- a key that is kept has a hash, so the next round is safe
      have hnext : DropsUnset dAmount dMin (kept dAmount dMin balance entries) := by
        intro e he hbad
        obtain ⟨hmem, hle⟩ := mem_kept.mp he
        exact absurd (hpaid e hmem hle) hbad
      rw [if_pos (show (entries.filter _).length < entries.length from hless)]
      exact ih _ (hn ▸ hless) hnext rfl
    · rw [if_neg (show ¬(entries.filter _).length < entries.length from hless)]
      rw [retain_of_not_lt hless]
      refine ⟨xs, rfl, ?_, hamounts⟩
      rw [hmap]
      exact kept_eq_self hless

theorem distributeLoop_asserts (h : ¬DropsUnset dAmount dMin entries) :
    distributeLoop P dAmount dMin entries = .error .assertion := by
  unfold DropsUnset at h
  push Not at h
  obtain ⟨e, he, hbad, hle⟩ := h
  rw [distributeLoop, totalBalance_eq, distributeRound_asserts ⟨e, he, hle, hbad⟩]

/-! ### `Distribute` -/

/-- What `Distribute` should do with the balances `entries`: there are holders who are left, a set of the
largest ones, such that in whatever order the map is iterated and whatever the distributor held before,
these are paid in proportion and the payouts make up the amount; and when nobody is left it throws,
with an empty list and a total of zero unless the map was empty from the start. -/
def SharesRight (P : Params) (dAmount dMin : ℚ) (entries : List (CBase58Data × Int)) : Prop :=
  ∃ retained : List (CBase58Data × Int), retained.Sublist entries ∧
    (∀ e ∈ retained, ∀ e' ∈ entries, e.2 ≤ e'.2 → e' ∈ retained) ∧
    ∀ order, order.Perm entries → ∀ distributor : DividendDistributor ℚ,
      (retained ≠ [] → ∃ d, DividendDistributor.distributeEntries P dAmount dMin order distributor =
          (.ok (), d) ∧ (d.vDistribution.map Distribution.holder).Perm retained ∧
        (∀ x ∈ d.vDistribution, dMin ≤ x.dDividendAmount ∧
          x.dDividendAmount = dAmount * x.nBalance / (retained.map balance).sum) ∧
        (d.vDistribution.map Distribution.dDividendAmount).sum = dAmount ∧ d.dTotalDistributed = dAmount) ∧
      (retained = [] → ∃ what d, DividendDistributor.distributeEntries P dAmount dMin order distributor =
          (.error (.exception what), d) ∧
        (entries ≠ [] → d.vDistribution = [] ∧ d.dTotalDistributed = 0))

/-- `Distribute` on a map that is not empty. -/
theorem distributeEntries_eq (hne : entries ≠ []) (distributor : DividendDistributor ℚ)
    {xs : List (Distribution ℚ)} {total : ℚ}
    (hloop : distributeLoop P dAmount dMin entries = .ok ⟨xs, total⟩) :
    DividendDistributor.distributeEntries P dAmount dMin entries distributor =
      if total = 0 then (.error (.exception "No address received dividends."), ⟨xs, total⟩)
      else (.ok (), ⟨xs, total⟩) := by
  unfold DividendDistributor.distributeEntries
  rw [if_neg (by simpa using hne), hloop]
  simp only [Double.eq, Double.ofInt64, Int.cast_zero, decide_eq_true_eq]

/-- A key without a hash that is due a share makes `Distribute` assert. -/
theorem SharesRight.dropsUnset (h : SharesRight P dAmount dMin entries) :
    DropsUnset dAmount dMin entries := by
  obtain ⟨retained, -, -, hright⟩ := h
  by_contra hunset
  have hasserts := distributeLoop_asserts (P := P) hunset
  have hne : entries ≠ [] := by
    intro hnil
    exact hunset (by simp [DropsUnset, hnil])
  have hrun : DividendDistributor.distributeEntries P dAmount dMin entries ⟨[], 0⟩ =
      (.error .assertion, ⟨[], 0⟩) := by
    unfold DividendDistributor.distributeEntries
    rw [if_neg (by simpa using hne), hasserts]
  obtain ⟨hpaid, hnobody⟩ := hright _ (List.Perm.refl _) ⟨[], 0⟩
  rw [hrun] at hpaid hnobody
  by_cases hretained : retained = []
  · obtain ⟨what, d, heq, -⟩ := hnobody hretained
    exact absurd heq (by simp)
  · obtain ⟨d, heq, -⟩ := hpaid hretained
    exact absurd heq (by simp)

/-- Otherwise the amount is divided in proportion. -/
theorem DropsUnset.sharesRight (hunset : DropsUnset dAmount dMin entries) (hamount : 0 < dAmount)
    (hweight : ∀ e ∈ entries, 0 < balance e) : SharesRight P dAmount dMin entries := by
  -- whoever has more than a retained holder is retained
  refine ⟨retain dAmount dMin balance entries, retain_sublist, ?_, ?_⟩
  · intro e he e' he' hle
    exact retain_upward hamount hweight he he' (Int.cast_le.mpr hle)
  -- the map may be walked in any order: the retained entries are the same up to their order
  intro order horder distributor
  -- the condition does not depend on the order of the map
  have hunset' : DropsUnset dAmount dMin order := by
    intro e he hbad
    rw [totalWeight_perm horder]
    exact hunset e (horder.subset he) hbad
  have hperm : (retain dAmount dMin balance order).Perm (retain dAmount dMin balance entries) :=
    retain_perm horder
  obtain ⟨xs, hloop, hmap, hamounts⟩ := distributeLoop_eq (P := P) hunset'
  -- what is retained is divided as a whole
  have hsum : retain dAmount dMin balance order ≠ [] →
      (xs.map Distribution.dDividendAmount).sum = dAmount := by
    intro hne
    have htotal := totalWeight_pos (w := balance) (fun e he =>
      hweight e (horder.subset (retain_sublist.subset he))) hne
    have hshares : xs.map Distribution.dDividendAmount = (xs.map Distribution.holder).map (fun e =>
        share dAmount (totalWeight balance (retain dAmount dMin balance order)) (balance e)) := by
      rw [List.map_map]
      exact List.map_congr_left hamounts
    rw [hshares, hmap]
    exact sum_share htotal.ne'
  -- if someone is retained, the distribution succeeds
  constructor
  · intro hne
    have hne' : retain dAmount dMin balance order ≠ [] := by
      intro hnil
      -- nothing is retained, and the total is zero
      rw [hnil] at hperm
      exact hne (List.nil_perm.mp hperm)
    have horderne : order ≠ [] := by
      intro hnil
      rw [hnil] at hne'
      exact hne' (List.sublist_nil.mp retain_sublist)
    -- the total is not zero, so the last check passes
    have hpaid : (xs.map Distribution.dDividendAmount).sum ≠ 0 := by
      rw [hsum hne']
      exact hamount.ne'
    refine ⟨⟨xs, (xs.map Distribution.dDividendAmount).sum⟩, ?_, ?_, ?_, hsum hne', hsum hne'⟩
    · rw [distributeEntries_eq horderne distributor hloop, if_neg hpaid]
    · rw [hmap]
      exact hperm
    · intro x hx
      have hholder : x.holder ∈ retain dAmount dMin balance order := by
        rw [← hmap]
        exact List.mem_map_of_mem hx
      refine ⟨?_, ?_⟩
      · rw [hamounts x hx]
        exact le_share_of_mem_retain hholder
      · rw [hamounts x hx, totalWeight_perm hperm, mul_comm dAmount]
        rfl
  · -- if nobody is, it throws
    intro hnil
    -- an empty map is refused before the loop
    by_cases hempty : order = []
    · refine ⟨"The balance map is empty. There's not address to distribute dividends to.", distributor,
        ?_, ?_⟩
      · unfold DividendDistributor.distributeEntries
        rw [if_pos (by simp [hempty])]
      · intro hne
        rw [hempty] at horder
        exact absurd (List.nil_perm.mp horder) hne
    · rw [hnil] at hperm
      have hxs : xs = [] := by
        rw [← List.map_eq_nil_iff (f := Distribution.holder), hmap]
        exact List.perm_nil.mp hperm
      refine ⟨"No address received dividends.", ⟨[], 0⟩, ?_, fun _ => ⟨rfl, rfl⟩⟩
      rw [hxs] at hloop
      rw [distributeEntries_eq hempty distributor hloop, List.map_nil, List.sum_nil, if_pos rfl]

/-- **`Distribute` divides the amount in proportion**, exactly when no key without a hash would be paid in
the first round. -/
theorem distribute_shares_iff {m : BalanceMap} (hamount : 0 < dAmount)
    (hpos : ∀ addr nBalance, m.lookup addr = some nBalance → 0 < nBalance) :
    SharesRight P dAmount dMin m.sorted ↔ DropsUnset dAmount dMin m.sorted := by
  constructor
  · exact SharesRight.dropsUnset
  · intro hunset
    refine hunset.sharesRight hamount ?_
    intro e he
    exact Int.cast_pos.mpr (hpos e.1 e.2 (mem_sorted.mp he))

end

namespace Sample

/-- A balance of the unset address. -/
def unsetBalance : BalanceMap := (∅ : BalanceMap).insert {} 1

/-- Two holders, of whom the second one has too little. -/
def twoBalances : BalanceMap :=
  ((∅ : BalanceMap).insert ⟨63, List.replicate 20 1⟩ 90).insert ⟨63, List.replicate 20 2⟩ 10

end Sample

/-- The whole dividend is due to a key that is no address. -/
theorem sharesRight_unset : ¬ ∀ (P : Params) (dAmount dMin : ℚ) (m : BalanceMap), 0 < dAmount → 0 ≤ dMin →
    (∀ addr nBalance, m.lookup addr = some nBalance → 0 < nBalance) →
    SharesRight P dAmount dMin m.sorted := by
  intro h
  have hpos : ∀ addr nBalance, Sample.unsetBalance.lookup addr = some nBalance → 0 < nBalance := by
    intro addr nBalance hl
    unfold Sample.unsetBalance at hl
    rw [Map.lookup_insert_eq] at hl
    split_ifs at hl
    · cases hl
      norm_num
    · exact absurd hl (by simp)
  have hright := h Sample.params 100 (1 / 100) Sample.unsetBalance (by norm_num) (by norm_num) hpos
  have hdrops := hright.dropsUnset
  have hlow := hdrops ({}, 1) (mem_sorted.mpr (by decide)) (by decide)
  exact absurd hlow (by decide +kernel)

/-- A tenth of 0.1 is below the minimum of 0.010001, so the second holder is dropped. -/
theorem distribute_shares_twoBalances :
    SharesRight Sample.params (1 / 10) (10001 / 1000000) Sample.twoBalances.sorted := by
  refine (distribute_shares_iff (by norm_num) ?_).mpr ?_
  · intro addr nBalance hl
    unfold Sample.twoBalances at hl
    rw [Map.lookup_insert_eq, Map.lookup_insert_eq] at hl
    split_ifs at hl
    · cases hl
      norm_num
    · cases hl
      norm_num
    · exact absurd hl (by simp)
  · have hkeys : ∀ e ∈ Sample.twoBalances.sorted, e.1.vchData.length = 20 := by decide
    intro e he hbad
    exact absurd (hkeys e he) hbad

end Peershares
