import Peershares.Model.CoinSelection
import Peershares.Wallet.Balance

/-!
# What coin selection selects

`SelectCoinsMinConf` answers with a coin of the exact value, with all the small coins, with the lowest
larger coin, or with the best subset that the search has come across. Whatever the random bits are, the
search keeps a subset that reaches its target (`SearchInv`), and its target is a `CENT` above the one asked
for whenever the small coins allow it.

The sums are `int64`. As long as the target plus a `CENT` and the total of the coins stay below the largest
`int64`, nothing wraps around.

* `SearchInv.repetitions` — the search, by one lemma for a coin and one for a pass
* `ScanInv.scanCoins` — the first loop
* `selectCoinsMinConf_right` — the answer
-/

open Framework

namespace Peershares

/-- An addition of `int64` that does not overflow. -/
theorem addInt64_of_lt {n v : ℤ} (hlow : -2 ^ 63 ≤ n + v) (hhigh : n + v < 2 ^ 63) :
    addInt64 n v = n + v := by
  unfold addInt64
  exact Int.bmod_eq_of_le_mul_two (by omega) (by omega)

/-! ### The search -/

/-- The best subset so far reaches the target, and `nBest` is its value. -/
structure SearchInv (nTargetValue : ℤ) (v : List (ℤ × WalletCoin)) (s : SubsetSearch) : Prop where
  best : s.nBest = chosenSum Prod.fst v s.vfBest
  reached : nTargetValue ≤ s.nBest

/-- Within a pass `nTotal` is the value of the coins that are included. -/
structure PassInv (nTargetValue : ℤ) (v : List (ℤ × WalletCoin)) (s : SubsetSearch) : Prop extends
    SearchInv nTargetValue v s where
  length : s.vfIncluded.length = v.length
  total : s.nTotal = chosenSum Prod.fst v s.vfIncluded

section Search

variable {nTargetValue : ℤ} {v : List (ℤ × WalletCoin)} {s : SubsetSearch} {i : ℕ}

/-- **One coin** that was not included. -/
theorem PassInv.tryCoin (h : PassInv nTargetValue v s) (hpos : ∀ c ∈ v, 0 ≤ c.1)
    (hsum : (v.map Prod.fst).sum < 2 ^ 63) {coin : ℤ × WalletCoin} (hcoin : v[i]? = some coin)
    (hfree : s.vfIncluded[i]? = some false) :
    PassInv nTargetValue v (s.tryCoin nTargetValue i coin.1) ∧
      ∀ k, i < k → (s.tryCoin nTargetValue i coin.1).vfIncluded[k]? = s.vfIncluded[k]? := by
  have hset : chosenSum Prod.fst v (s.vfIncluded.set i true) =
      chosenSum Prod.fst v s.vfIncluded + coin.1 := chosenSum_set_true hcoin hfree
  have hnonneg : 0 ≤ chosenSum Prod.fst v s.vfIncluded := chosenSum_nonneg hpos
  have hle : chosenSum Prod.fst v (s.vfIncluded.set i true) ≤ (v.map Prod.fst).sum := chosenSum_le hpos
  have hle' : chosenSum Prod.fst v s.vfIncluded ≤ (v.map Prod.fst).sum := chosenSum_le hpos
  have hcoinpos := hpos coin (List.mem_of_getElem? hcoin)
  have hadd : addInt64 s.nTotal coin.1 = chosenSum Prod.fst v (s.vfIncluded.set i true) := by
    rw [hset, ← h.total]
    exact addInt64_of_lt (by rw [h.total]; omega) (by rw [h.total]; omega)
  -- what the code leaves behind when it takes the coin out again
  have hback : (s.vfIncluded.set i true).set i false = s.vfIncluded := by
    obtain ⟨hlt, hval⟩ := List.getElem?_eq_some_iff.mp hfree
    rw [List.set_set, ← hval, List.set_getElem_self]
  have hsub : addInt64 (addInt64 s.nTotal coin.1) (-coin.1) = chosenSum Prod.fst v s.vfIncluded := by
    rw [hadd, hset]
    rw [addInt64_of_lt (by omega) (by omega)]
    omega
  unfold SubsetSearch.tryCoin
  simp only
  rw [hback, hsub]
  split_ifs with hreached hbetter
  · exact ⟨⟨⟨hadd, hreached⟩, h.length, rfl⟩, fun _ _ => rfl⟩
  · exact ⟨⟨⟨h.best, h.reached⟩, h.length, rfl⟩, fun _ _ => rfl⟩
  · refine ⟨⟨⟨h.best, h.reached⟩, by simpa using h.length, hadd⟩, ?_⟩
    intro k hk
    exact List.getElem?_set_ne hk.ne

/-- **One pass**: a coin is wanted only when it is not included. The flags from the coin `i` on are those
at the start of the pass, `s₀`. -/
theorem PassInv.pass (hpos : ∀ c ∈ v, 0 ≤ c.1) (hsum : (v.map Prod.fst).sum < 2 ^ 63)
    {wanted : ℕ → SubsetSearch → Bool} {s₀ : SubsetSearch} {rest : List (ℤ × WalletCoin)}
    (hwanted : ∀ j s, PassInv nTargetValue v s → (∀ k, j ≤ k → s.vfIncluded[k]? = s₀.vfIncluded[k]?) →
      j < v.length → wanted j s = true → s.vfIncluded[j]? = some false)
    (h : PassInv nTargetValue v s) (hrest : v.drop i = rest)
    (hsame : ∀ k, i ≤ k → s.vfIncluded[k]? = s₀.vfIncluded[k]?) :
    PassInv nTargetValue v (s.pass nTargetValue wanted rest i) := by
  induction rest generalizing s i with
  | nil => exact h
  | cons coin rest ih =>
    -- the coin is the next one of the row, and its flag is that of the start
    have hcoin : v[i]? = some coin := by
      rw [← List.head?_drop, hrest]
      rfl
    have hlt : i < v.length := (List.getElem?_eq_some_iff.mp hcoin).1
    have hnext : v.drop (i + 1) = rest := by
      rw [← List.tail_drop, hrest]
      rfl
    unfold SubsetSearch.pass
    split_ifs with hwant
    · -- the flags behind it stay as they were
      obtain ⟨hinv, hlater⟩ := h.tryCoin hpos hsum hcoin (hwanted i s h hsame hlt hwant)
      refine ih hinv hnext ?_
      intro k hk
      rw [hlater k (by omega)]
      exact hsame k (by omega)
    · exact ih h hnext fun k hk => hsame k (by omega)

/-- One repetition. -/
theorem SearchInv.repetition (hpos : ∀ c ∈ v, 0 ≤ c.1) (hsum : (v.map Prod.fst).sum < 2 ^ 63)
    (fRand : ℕ → Bool) (h : SearchInv nTargetValue v s) :
    SearchInv nTargetValue v (s.repetition nTargetValue v fRand) := by
  set s₀ : SubsetSearch :=
    { s with vfIncluded := List.replicate v.length false, nTotal := 0, fReachedTarget := false } with hs₀
  -- nothing is included, with a total of zero
  have hstart : PassInv nTargetValue v s₀ := by
    refine ⟨⟨h.best, h.reached⟩, List.length_replicate, ?_⟩
    change (0 : ℤ) = chosenSum Prod.fst v (List.replicate v.length false)
    rw [chosenSum, chosen_replicate_false]
    rfl
  have hfirst : PassInv nTargetValue v (s₀.pass nTargetValue (fun i _ => fRand i) v 0) := by
    refine PassInv.pass hpos hsum ?_ hstart List.drop_zero (fun _ _ => rfl)
    intro j s' _ hsame hj _
    rw [hsame j le_rfl, hs₀, List.getElem?_replicate_of_lt hj]
  unfold SubsetSearch.repetition
  simp only
  split_ifs
  · exact hfirst.toSearchInv
  · refine (PassInv.pass hpos hsum ?_ hfirst List.drop_zero (fun _ _ => rfl)).toSearchInv
    -- the second pass takes the coins that are not included
    intro j s' hinv _ hj hwant
    have hlt : j < s'.vfIncluded.length := by rwa [hinv.length]
    rw [List.getD_eq_getElem?_getD, List.getElem?_eq_getElem hlt] at hwant
    rw [List.getElem?_eq_getElem hlt]
    simpa using hwant

/-- **The search** keeps a subset that reaches the target, whatever the random bits are. -/
theorem SearchInv.repetitions (hpos : ∀ c ∈ v, 0 ≤ c.1) (hsum : (v.map Prod.fst).sum < 2 ^ 63)
    (fRand : ℕ → ℕ → Bool) (h : SearchInv nTargetValue v s) (nLeft nRep : ℕ) :
    SearchInv nTargetValue v (SubsetSearch.repetitions nTargetValue v fRand nLeft nRep s) := by
  induction nLeft generalizing nRep s with
  | zero => exact h
  | succ nLeft ih =>
    unfold SubsetSearch.repetitions
    split_ifs
    · exact h
    · exact ih (h.repetition hpos hsum (fRand nRep)) (nRep + 1)

end Search

/-! ### The first loop -/

/-- The amounts leave room in an `int64`. -/
structure Fits (nTargetValue : ℤ) (coins : List (ℤ × WalletCoin)) : Prop where
  pos : 0 < nTargetValue
  target : nTargetValue + CENT < 2 ^ 63
  coin : ∀ c ∈ coins, 0 < c.1
  total : (coins.map Prod.fst).sum < 2 ^ 63 - 1

namespace Fits

variable {nTargetValue : ℤ} {coins part : List (ℤ × WalletCoin)}

/-- The target and one cent more fit. -/
theorem cent (h : Fits nTargetValue coins) : addInt64 nTargetValue CENT = nTargetValue + CENT := by
  have hpos := h.pos
  have hcent : (0 : ℤ) < CENT := by decide
  exact addInt64_of_lt (by omega) h.target

/-- A part of the coins is worth no more than all of them. -/
theorem sum_le (h : Fits nTargetValue coins) (hpart : part.Subperm coins) :
    (part.map Prod.fst).sum ≤ (coins.map Prod.fst).sum := by
  obtain ⟨l, hperm, hsub⟩ := hpart
  rw [← (hperm.map Prod.fst).sum_eq]
  refine (hsub.map Prod.fst).sum_le_sum ?_
  intro x hx
  obtain ⟨c, hc, rfl⟩ := List.mem_map.mp hx
  exact (h.coin c hc).le

/-- A part of the coins is not worth less than nothing. -/
theorem sum_nonneg (h : Fits nTargetValue coins) (hpart : part ⊆ coins) : 0 ≤ (part.map Prod.fst).sum := by
  refine List.sum_nonneg ?_
  intro x hx
  obtain ⟨c, hc, rfl⟩ := List.mem_map.mp hx
  exact (h.coin c (hpart hc)).le

/-- A part of fitting coins fits. -/
theorem sublist (h : Fits nTargetValue coins) (hpart : part.Sublist coins) : Fits nTargetValue part := by
  refine ⟨h.pos, h.target, fun c hc => h.coin c (hpart.subset hc), ?_⟩
  exact (h.sum_le hpart.subperm).trans_lt h.total

/-- The order does not matter. -/
theorem perm (h : Fits nTargetValue coins) (hpart : part.Perm coins) : Fits nTargetValue part := by
  refine ⟨h.pos, h.target, fun c hc => h.coin c (hpart.subset hc), ?_⟩
  rw [(hpart.map Prod.fst).sum_eq]
  exact h.total

end Fits

/-- What the first loop has found among the coins it has seen. -/
structure ScanInv (nTargetValue : ℤ) (coins : List (ℤ × WalletCoin)) (s : CoinScan) : Prop where
  lower : s.vValue = coins.filter (fun c => decide (c.1 < nTargetValue + CENT))
  total : s.nTotalLower = (s.vValue.map Prod.fst).sum
  larger : (s.coinLowestLarger = (2 ^ 63 - 1, none) ∧ ∀ c ∈ coins, c.1 < nTargetValue + CENT) ∨
    ∃ n coin, s.coinLowestLarger = (n, some coin) ∧ (n, coin) ∈ coins ∧ nTargetValue + CENT ≤ n

section Scan

variable {nTargetValue : ℤ} {coins cs : List (ℤ × WalletCoin)} {s : CoinScan}

/-- Before the loop nothing is sorted out. -/
theorem ScanInv.start : ScanInv nTargetValue [] {} := ⟨rfl, rfl, Or.inl ⟨rfl, by simp⟩⟩

/-- A coin below the target and one cent is kept for the knapsack. -/
theorem ScanInv.addLower (h : ScanInv nTargetValue coins s) {coin : ℤ × WalletCoin}
    (hfits : Fits nTargetValue (coins ++ [coin])) (hlow : coin.1 < nTargetValue + CENT) :
    ScanInv nTargetValue (coins ++ [coin])
      { s with vValue := s.vValue ++ [coin], nTotalLower := addInt64 s.nTotalLower coin.1 } := by
  -- the new coin is one of the small ones
  have hfilter : (coins ++ [coin]).filter (fun c => decide (c.1 < nTargetValue + CENT)) =
      s.vValue ++ [coin] := by
    rw [List.filter_append, ← h.lower, List.filter_cons_of_pos (by simpa using hlow), List.filter_nil]
  have hsub : (s.vValue ++ [coin]).Sublist (coins ++ [coin]) := by
    rw [← hfilter]
    exact List.filter_sublist
  have hsum : ((s.vValue ++ [coin]).map Prod.fst).sum = s.nTotalLower + coin.1 := by
    rw [h.total]
    simp
  refine ⟨hfilter.symm, ?_, ?_⟩
  · -- all of them together are less than `2 ^ 63`, so the sum does not wrap around
    have hlt := (hfits.sublist hsub).total
    have hnonneg := hfits.sum_nonneg hsub.subset
    rw [hsum] at hlt hnonneg ⊢
    exact addInt64_of_lt (by omega) (by omega)
  · rcases h.larger with ⟨hnone, hall⟩ | ⟨n, c, hsome, hmem, hge⟩
    · refine Or.inl ⟨hnone, ?_⟩
      intro c hc
      rcases List.mem_append.mp hc with hc | hc
      · exact hall c hc
      · rw [List.mem_singleton.mp hc]
        exact hlow
    · exact Or.inr ⟨n, c, hsome, List.mem_append_left _ hmem, hge⟩

/-- A coin that is a `CENT` larger is either the lowest one so far or not needed. -/
theorem ScanInv.addLarger (h : ScanInv nTargetValue coins s) {coin : ℤ × WalletCoin}
    (hfits : Fits nTargetValue (coins ++ [coin])) (hge : nTargetValue + CENT ≤ coin.1) :
    ScanInv nTargetValue (coins ++ [coin])
      (if coin.1 < s.coinLowestLarger.1 then { s with coinLowestLarger := (coin.1, some coin.2) } else s) := by
  have hfilter : (coins ++ [coin]).filter (fun c => decide (c.1 < nTargetValue + CENT)) = s.vValue := by
    rw [List.filter_append, ← h.lower, List.filter_cons_of_neg (by simpa using hge), List.filter_nil,
      List.append_nil]
  split_ifs with hlt
  · exact ⟨hfilter.symm, h.total, Or.inr ⟨coin.1, coin.2, rfl, by simp, hge⟩⟩
  · refine ⟨hfilter.symm, h.total, ?_⟩
    rcases h.larger with ⟨hnone, -⟩ | ⟨n, c, hsome, hmem, hge'⟩
    · -- no coin has the largest value of all
      have hle := hfits.sum_le (List.singleton_subperm_iff.mpr (List.mem_append_right coins List.mem_cons_self))
      have htotal := hfits.total
      rw [hnone] at hlt
      simp only [List.map_cons, List.map_nil, List.sum_cons, List.sum_nil, add_zero] at hle
      omega
    · exact Or.inr ⟨n, c, hsome, List.mem_append_left _ hmem, hge'⟩

/-- The outputs of one transaction. -/
theorem ScanInv.scanOutputs (h : ScanInv nTargetValue coins s) (hfits : Fits nTargetValue (coins ++ cs)) :
    (∀ s', s.scanOutputs nTargetValue cs = .inl s' → ScanInv nTargetValue (coins ++ cs) s') ∧
      ∀ coin, s.scanOutputs nTargetValue cs = .inr coin → coin ∈ cs ∧ coin.1 = nTargetValue := by
  induction cs generalizing coins s with
  | nil =>
    refine ⟨?_, by simp [CoinScan.scanOutputs]⟩
    intro s' heq
    cases heq
    rwa [List.append_nil]
  | cons coin cs ih =>
    have happend : coins ++ coin :: cs = coins ++ [coin] ++ cs := by simp
    have hone : Fits nTargetValue (coins ++ [coin]) := by
      rw [happend] at hfits
      exact hfits.sublist (List.sublist_append_left _ _)
    -- the loop goes on with a state for the coins up to this one
    have hnext : ∀ s₁, ScanInv nTargetValue (coins ++ [coin]) s₁ →
        (∀ s', s₁.scanOutputs nTargetValue cs = .inl s' → ScanInv nTargetValue (coins ++ coin :: cs) s') ∧
          ∀ c, s₁.scanOutputs nTargetValue cs = .inr c → c ∈ coin :: cs ∧ c.1 = nTargetValue := by
      intro s₁ h₁
      rw [happend] at hfits ⊢
      obtain ⟨hinl, hinr⟩ := ih h₁ hfits
      refine ⟨hinl, ?_⟩
      intro c hc
      obtain ⟨hmem, hval⟩ := hinr c hc
      exact ⟨List.mem_cons_of_mem coin hmem, hval⟩
    rw [CoinScan.scanOutputs, hfits.cent]
    split_ifs with hexact hlow hless
    · refine ⟨by simp, ?_⟩
      intro c hc
      cases hc
      exact ⟨List.mem_cons_self, hexact⟩
    · exact hnext _ (h.addLower hone hlow)
    · have hlarger := h.addLarger hone (not_lt.mp hlow)
      rw [if_pos hless] at hlarger
      exact hnext _ hlarger
    · have hlarger := h.addLarger hone (not_lt.mp hlow)
      rw [if_neg hless] at hlarger
      exact hnext _ hlarger

end Scan

/-! ### The answer -/

/-- The answer is right for the coins `coins`. -/
structure Selected.Right (nTargetValue : ℤ) (coins : List (ℤ × WalletCoin)) (r : Selected) : Prop where
  ok_iff : r.fOk = true ↔ nTargetValue ≤ (coins.map Prod.fst).sum
  success : r.fOk = true → ∃ part : List (ℤ × WalletCoin), part.Subperm coins ∧ r = Selected.of part ∧
    nTargetValue ≤ (part.map Prod.fst).sum ∧
    ((part.map Prod.fst).sum = nTargetValue ∨ nTargetValue + CENT ≤ (part.map Prod.fst).sum ∨
      (coins.map Prod.fst).sum < nTargetValue + CENT)
  failure : r.fOk = false → r.setCoinsRet = ∅ ∧ r.nValueRet = 0

section Answer

variable {nTargetValue : ℤ} {coins part : List (ℤ × WalletCoin)} {s : CoinScan}

/-- A part that reaches the target is a right selection. -/
theorem Selected.Right.of_part (hfits : Fits nTargetValue coins) (hpart : part.Subperm coins)
    (hreach : nTargetValue ≤ (part.map Prod.fst).sum)
    (hexcess : (part.map Prod.fst).sum = nTargetValue ∨ nTargetValue + CENT ≤ (part.map Prod.fst).sum ∨
      (coins.map Prod.fst).sum < nTargetValue + CENT) :
    Selected.Right nTargetValue coins (Selected.of part) := by
  refine ⟨?_, fun _ => ⟨part, hpart, rfl, hreach, hexcess⟩, ?_⟩
  · constructor
    · intro _
      exact hreach.trans (hfits.sum_le hpart)
    · intro _
      rfl
  · intro hfalse
    exact absurd hfalse (by simp [Selected.of])

/-- `closest`, with a target that the small coins reach. -/
theorem CoinScan.closest_right (hfits : Fits nTargetValue coins) (hscan : ScanInv nTargetValue coins s)
    (address : Uint256 → ℕ) (fRand : ℕ → ℕ → Bool) {nTarget : ℤ} (hge : nTargetValue ≤ nTarget)
    (hreach : nTarget ≤ s.nTotalLower)
    (hexcess : nTargetValue + CENT ≤ nTarget ∨ (coins.map Prod.fst).sum < nTargetValue + CENT) :
    Selected.Right nTargetValue coins (s.closest address fRand nTarget) := by
  -- the small coins, in the order of the search
  have hsort : (CoinScan.sortCoins address s.vValue).Perm s.vValue := List.perm_insertionSort _ _
  have hsub : s.vValue.Sublist coins := by
    rw [hscan.lower]
    exact List.filter_sublist
  have hlower := (hfits.sublist hsub).perm hsort
  have hsorted : ((CoinScan.sortCoins address s.vValue).map Prod.fst).sum = s.nTotalLower := by
    rw [(hsort.map Prod.fst).sum_eq, hscan.total]
  -- the search starts with all small coins, which reach the target
  have hstart : SearchInv nTarget (CoinScan.sortCoins address s.vValue)
      { vfBest := List.replicate s.vValue.length true, nBest := s.nTotalLower } := by
    refine ⟨?_, hreach⟩
    change s.nTotalLower = chosenSum Prod.fst (CoinScan.sortCoins address s.vValue)
      (List.replicate s.vValue.length true)
    rw [chosenSum, ← hsort.length_eq, chosen_replicate_true, hsorted]
  have hfound := hstart.repetitions (fun c hc => (hlower.coin c hc).le)
    (by have := hlower.total; omega) fRand 1000 0
  have hbest : SearchInv nTarget (CoinScan.sortCoins address s.vValue)
      (s.bestSubset address fRand nTarget) := hfound
  have hvalue : ((chosen (CoinScan.sortCoins address s.vValue)
      (s.bestSubset address fRand nTarget).vfBest).map Prod.fst).sum =
      (s.bestSubset address fRand nTarget).nBest := hbest.best.symm
  -- the subset that the search ends with
  have hsubset : Selected.Right nTargetValue coins (Selected.of (chosen
      (CoinScan.sortCoins address s.vValue) (s.bestSubset address fRand nTarget).vfBest)) := by
    refine Selected.Right.of_part hfits ?_ ?_ ?_
    · exact ((chosen_sublist _ _).subperm.trans hsort.subperm).trans hsub.subperm
    · rw [hvalue]
      exact hge.trans hbest.reached
    · rw [hvalue]
      have hreached := hbest.reached
      omega
  unfold CoinScan.closest
  -- the subset, unless one larger coin is closer
  rcases hscan.larger with ⟨hnone, -⟩ | ⟨n, coin, hsome, hmem, hlarge⟩
  · rw [hnone]
    exact hsubset
  · rw [hsome]
    simp only
    split_ifs
    · -- one coin, which is not small
      refine Selected.Right.of_part hfits (List.singleton_subperm_iff.mpr hmem) ?_ ?_
      · have hcent : (0 : ℤ) < CENT := by decide
        simp only [List.map_cons, List.map_nil, List.sum_cons, List.sum_nil]
        omega
      · simp only [List.map_cons, List.map_nil, List.sum_cons, List.sum_nil]
        omega
    · exact hsubset

/-- **The answer after the first loop.** -/
theorem CoinScan.select_right (hfits : Fits nTargetValue coins) (hscan : ScanInv nTargetValue coins s)
    (address : Uint256 → ℕ) (fRand : ℕ → ℕ → Bool) :
    Selected.Right nTargetValue coins (s.select address fRand nTargetValue) := by
  have hcent : (0 : ℤ) < CENT := by decide
  have hpos := hfits.pos
  have hsub : s.vValue.Sublist coins := by
    rw [hscan.lower]
    exact List.filter_sublist
  have htotal := hscan.total
  unfold CoinScan.select
  rw [hfits.cent]
  -- the small coins together are the target, or a cent more
  by_cases hexact : s.nTotalLower = nTargetValue ∨ s.nTotalLower = nTargetValue + CENT
  · rw [if_pos hexact]
    refine Selected.Right.of_part hfits hsub.subperm ?_ ?_ <;> omega
  rw [if_neg hexact]
  rcases hscan.larger with ⟨hnone, hall⟩ | ⟨n, coin, hsome, hmem, hlarge⟩
  · -- all the coins are small
    have hvalue : s.vValue = coins := by
      rw [hscan.lower, List.filter_eq_self]
      intro c hc
      simpa using hall c hc
    have hzero : addInt64 nTargetValue 0 = nTargetValue := by
      have htarget := hfits.target
      have hadd := addInt64_of_lt (n := nTargetValue) (v := 0) (by omega) (by omega)
      rwa [add_zero] at hadd
    rw [hvalue] at htotal
    simp only [hnone, Option.isSome_none, Bool.false_eq_true, if_false, hzero]
    split_ifs with hbelow hmore
    · refine ⟨?_, by simp, fun _ => ⟨rfl, rfl⟩⟩
      simp only [Bool.false_eq_true, false_iff, not_le]
      omega
    · exact CoinScan.closest_right hfits hscan address fRand (by omega) hmore (Or.inl le_rfl)
    · exact CoinScan.closest_right hfits hscan address fRand le_rfl (by omega) (Or.inr (by omega))
  · -- a larger coin is there, which answers when the small ones do not
    simp only [hsome, Option.isSome_some, if_true, hfits.cent]
    split_ifs with hbelow hmore
    · refine Selected.Right.of_part hfits (List.singleton_subperm_iff.mpr hmem) ?_ ?_ <;>
        simp only [List.map_cons, List.map_nil, List.sum_cons, List.sum_nil] <;> omega
    · exact CoinScan.closest_right hfits hscan address fRand (by omega) hmore (Or.inl le_rfl)
    · exact absurd (not_lt.mp hbelow) hmore

end Answer

/-! ### The eligible coins -/

namespace AccountWallet

section Eligible

variable (P : Params) (chain : ChainView) (w : AccountWallet) (nSpendTime : ℕ) (nConfMine nConfTheirs : ℤ)

/-- A coin is eligible: it is an output of a wallet transaction that is final, confirmed, mature, as deep as
is asked for and not later than the spend time; and it is own, not spent and not empty. -/
def Eligible (coin : WalletCoin) : Prop :=
  ∃ wtx txout nDebit, w.mapWallet.lookup coin.1 = some wtx ∧ wtx.tx.vout[coin.2]? = some txout ∧
    w.isMine P txout = true ∧ wtx.isSpent coin.2 = .ok false ∧ 0 < txout.nValue ∧
    chain.isFinal wtx.tx = true ∧ w.isConfirmed P chain coin.1 wtx = .ok true ∧
    (wtx.tx.isGenerated = true → chain.blocksToMaturity P wtx ≤ 0) ∧
    (wtx.getDebit P w.toCacheWallet).1 = .ok nDebit ∧
    (if 0 < nDebit then nConfMine else nConfTheirs) ≤ chain.depth wtx ∧ wtx.tx.nTime ≤ nSpendTime

/-- The value of a coin. -/
def coinValue (coin : WalletCoin) : ℤ :=
  match w.mapWallet.lookup coin.1 with
  | none => 0
  | some wtx => ((wtx.tx.vout[coin.2]?).map CTxOut.nValue).getD 0

/-- The eligible coins of one wallet transaction, as the loop finds them. -/
def eligibleOf (pcoin : Sigma fun _ : Uint256 => CachedTx) : List (ℤ × WalletCoin) :=
  match w.spendable P chain nConfMine nConfTheirs pcoin.1 pcoin.2 with
  | .ok true => w.coinsOf P nSpendTime pcoin.1 pcoin.2
  | _ => []

/-- The eligible coins with their values. -/
def eligibleFrom (vCoins : List (Sigma fun _ : Uint256 => CachedTx)) : List (ℤ × WalletCoin) :=
  vCoins.flatMap (w.eligibleOf P chain nSpendTime nConfMine nConfTheirs)

/-- The set of the eligible coins. -/
def eligibleCoins : Finset WalletCoin :=
  ((w.eligibleFrom P chain nSpendTime nConfMine nConfTheirs w.mapWallet.entries).map Prod.snd).toFinset

end Eligible

variable {P : Params} {chain : ChainView} {w : AccountWallet} {nSpendTime : ℕ} {nConfMine nConfTheirs : ℤ}
variable {hash : Uint256} {wtx : CachedTx} {c : ℤ × WalletCoin}

/-- The tests of `AvailableCoins` on a transaction. -/
theorem spendable_eq_true : w.spendable P chain nConfMine nConfTheirs hash wtx = .ok true ↔
    chain.isFinal wtx.tx = true ∧ w.isConfirmed P chain hash wtx = .ok true ∧
    (wtx.tx.isGenerated = true → chain.blocksToMaturity P wtx ≤ 0) ∧
    ∃ nDebit, (wtx.getDebit P w.toCacheWallet).1 = .ok nDebit ∧
      (if 0 < nDebit then nConfMine else nConfTheirs) ≤ chain.depth wtx := by
  unfold spendable
  cases hfinal : chain.isFinal wtx.tx with
  | false => simp
  | true =>
    simp only [Bool.not_true, Bool.false_eq_true, if_false, true_and, Result.bind_eq_ok]
    -- the tests come in the order of the loop
    constructor
    · rintro ⟨confirmed, hconf, hrest⟩
      cases confirmed with
      | false => exact absurd hrest (by simp [pure, Except.pure])
      | true =>
        simp only [Bool.not_true, Bool.false_eq_true, if_false] at hrest
        split_ifs at hrest with himmature
        · exact absurd hrest (by simp [pure, Except.pure])
        · obtain ⟨nDebit, hdebit, hdepth⟩ := Result.bind_eq_ok.mp hrest
          refine ⟨hconf, ?_, nDebit, hdebit, by simpa [pure, Except.pure] using hdepth⟩
          intro hgen
          simpa [hgen] using himmature
    · rintro ⟨hconf, hmature, nDebit, hdebit, hdepth⟩
      refine ⟨true, hconf, ?_⟩
      have himmature : ¬(wtx.tx.isGenerated && decide (0 < chain.blocksToMaturity P wtx)) = true := by
        simp only [Bool.and_eq_true, decide_eq_true_eq, not_and, not_lt]
        exact hmature
      simp only [Bool.not_true, Bool.false_eq_true, if_false, himmature]
      rw [hdebit, Result.ok_bind]
      simp [pure, Except.pure, hdepth]

/-- The coins of a transaction are its outputs that pass the tests of `AvailableCoins`. -/
theorem mem_coinsOf : c ∈ w.coinsOf P nSpendTime hash wtx ↔
    ∃ txout, wtx.tx.vout[c.2.2]? = some txout ∧ c.2.1 = hash ∧ c.1 = txout.nValue ∧
      w.spendableOutput P nSpendTime wtx c.2.2 txout = true := by
  obtain ⟨n, hash', i⟩ := c
  unfold coinsOf
  simp only [List.mem_map, List.mem_filter, Prod.mk.injEq]
  constructor
  · rintro ⟨⟨txout, j⟩, ⟨hmem, hspend⟩, rfl, rfl, rfl⟩
    exact ⟨txout, List.mk_mem_zipIdx_iff_getElem?.mp hmem, rfl, rfl, hspend⟩
  · rintro ⟨txout, hout, rfl, rfl, hspend⟩
    exact ⟨(txout, i), ⟨List.mk_mem_zipIdx_iff_getElem?.mpr hout, hspend⟩, rfl, rfl, rfl⟩

/-- The coins of a row of transactions. -/
theorem mem_eligibleFrom {vCoins : List (Sigma fun _ : Uint256 => CachedTx)} :
    c ∈ w.eligibleFrom P chain nSpendTime nConfMine nConfTheirs vCoins ↔
      ∃ wtx, (⟨c.2.1, wtx⟩ : Sigma fun _ : Uint256 => CachedTx) ∈ vCoins ∧
        w.spendable P chain nConfMine nConfTheirs c.2.1 wtx = .ok true ∧
        c ∈ w.coinsOf P nSpendTime c.2.1 wtx := by
  unfold eligibleFrom
  rw [List.mem_flatMap]
  constructor
  · rintro ⟨⟨hash', wtx'⟩, hp, hc⟩
    unfold eligibleOf at hc
    split at hc
    · next hspend =>
      obtain ⟨txout, hout, rfl, hrest⟩ := mem_coinsOf.mp hc
      exact ⟨wtx', hp, hspend, hc⟩
    · exact absurd hc (by simp)
  · rintro ⟨wtx', hp, hspend, hc⟩
    refine ⟨_, hp, ?_⟩
    unfold eligibleOf
    rw [hspend]
    exact hc

/-- **The coins the loop finds are the eligible ones**, with their values. -/
theorem mem_eligibleFrom_entries :
    c ∈ w.eligibleFrom P chain nSpendTime nConfMine nConfTheirs w.mapWallet.entries ↔
      w.Eligible P chain nSpendTime nConfMine nConfTheirs c.2 ∧ c.1 = w.coinValue c.2 := by
  rw [mem_eligibleFrom]
  constructor
  · rintro ⟨wtx, hp, hspend, hc⟩
    have hlookup : w.mapWallet.lookup c.2.1 = some wtx := AList.mem_lookup_iff.mpr hp
    obtain ⟨txout, hout, -, hval, hok⟩ := mem_coinsOf.mp hc
    obtain ⟨hfinal, hconf, hmature, nDebit, hdebit, hdepth⟩ := spendable_eq_true.mp hspend
    unfold spendableOutput at hok
    simp only [Bool.and_eq_true, Bool.not_eq_true', decide_eq_true_eq] at hok
    obtain ⟨⟨⟨hunspent, hmine⟩, htime⟩, hpos⟩ := hok
    refine ⟨⟨wtx, txout, nDebit, hlookup, hout, hmine, ?_, hpos, hfinal, hconf, hmature, hdebit, hdepth,
      htime⟩, ?_⟩
    · -- the flag is read for an output that exists
      unfold CWalletTx.isSpent
      rw [if_neg (not_le.mpr (List.getElem?_eq_some_iff.mp hout).1), hunspent]
    · unfold coinValue
      rw [hlookup]
      simp only [hout, Option.map_some, Option.getD_some]
      exact hval
  · rintro ⟨⟨wtx, txout, nDebit, hlookup, hout, hmine, hspent, hpos, hfinal, hconf, hmature, hdebit, hdepth,
      htime⟩, hval⟩
    refine ⟨wtx, AList.mem_lookup_iff.mp hlookup,
      spendable_eq_true.mpr ⟨hfinal, hconf, hmature, nDebit, hdebit, hdepth⟩,
      mem_coinsOf.mpr ⟨txout, hout, rfl, ?_, ?_⟩⟩
    · unfold coinValue at hval
      rw [hlookup] at hval
      simpa only [hout, Option.map_some, Option.getD_some] using hval
    · unfold CWalletTx.isSpent at hspent
      rw [if_neg (not_le.mpr (List.getElem?_eq_some_iff.mp hout).1)] at hspent
      have hunspent : wtx.vfSpent.getD c.2.2 false = false := Except.ok.inj hspent
      unfold spendableOutput
      rw [hunspent, hmine]
      simp [htime, hpos]

/-- The coins of the wallet. -/
theorem mem_eligibleCoins {coin : WalletCoin} : coin ∈ w.eligibleCoins P chain nSpendTime nConfMine nConfTheirs ↔
    w.Eligible P chain nSpendTime nConfMine nConfTheirs coin := by
  unfold eligibleCoins
  rw [List.mem_toFinset, List.mem_map]
  constructor
  · rintro ⟨c, hc, rfl⟩
    exact (mem_eligibleFrom_entries.mp hc).1
  · intro h
    exact ⟨(w.coinValue coin, coin), mem_eligibleFrom_entries.mpr ⟨h, rfl⟩, rfl⟩

/-- No coin is found twice. -/
theorem nodup_coinsOf : ((w.coinsOf P nSpendTime hash wtx).map Prod.snd).Nodup := by
  unfold coinsOf
  rw [List.map_map]
  have hidx : ((wtx.tx.vout.zipIdx.filter
      (fun p => w.spendableOutput P nSpendTime wtx p.2 p.1)).map Prod.snd).Nodup := by
    refine List.Nodup.sublist (List.filter_sublist.map Prod.snd) ?_
    rw [List.zipIdx_map_snd]
    exact List.nodup_range'
  have hpair := hidx.map (f := fun i : ℕ => (hash, i)) (fun i j heq => (Prod.mk.inj heq).2)
  rwa [List.map_map] at hpair

/-- No coin stands there twice. -/
theorem nodup_eligibleFrom {vCoins : List (Sigma fun _ : Uint256 => CachedTx)} (hkeys : vCoins.NodupKeys) :
    ((w.eligibleFrom P chain nSpendTime nConfMine nConfTheirs vCoins).map Prod.snd).Nodup := by
  unfold eligibleFrom
  rw [List.map_flatMap, List.nodup_flatMap]
  constructor
  · intro p _
    unfold eligibleOf
    split
    · exact nodup_coinsOf
    · simp
  · refine (List.nodupKeys_iff_pairwise.mp hkeys).imp ?_
    intro p q hne
    rw [Function.onFun, List.disjoint_left]
    intro coin hp hq
    -- a coin of an entry has its hash
    have hkey : ∀ r : Sigma fun _ : Uint256 => CachedTx, coin ∈ (w.eligibleOf P chain nSpendTime nConfMine
        nConfTheirs r).map Prod.snd → coin.1 = r.1 := by
      intro r hr
      obtain ⟨c, hc, rfl⟩ := List.mem_map.mp hr
      unfold eligibleOf at hc
      split at hc
      · obtain ⟨txout, -, hhash, -⟩ := mem_coinsOf.mp hc
        exact hhash
      · exact absurd hc (by simp)
    exact hne ((hkey p hp).symm.trans (hkey q hq))

/-- The sum over the set of coins is the sum over the list. -/
theorem sum_coinValue {part : List (ℤ × WalletCoin)} (hnodup : (part.map Prod.snd).Nodup)
    (hpart : part ⊆ w.eligibleFrom P chain nSpendTime nConfMine nConfTheirs w.mapWallet.entries) :
    ∑ coin ∈ (part.map Prod.snd).toFinset, w.coinValue coin = (part.map Prod.fst).sum := by
  rw [List.sum_toFinset _ hnodup, List.map_map]
  refine congrArg List.sum (List.map_congr_left ?_)
  intro c hc
  exact (mem_eligibleFrom_entries.mp (hpart hc)).2.symm

end AccountWallet

/-- **The first loop** sees the eligible coins, up to one of the exact value. -/
theorem ScanInv.scanCoins {P : Params} {chain : ChainView} {w : AccountWallet} {nTargetValue : ℤ}
    {nSpendTime : ℕ} {nConfMine nConfTheirs : ℤ} {coins : List (ℤ × WalletCoin)} {s : CoinScan}
    {vCoins : List (Sigma fun _ : Uint256 => CachedTx)} (h : ScanInv nTargetValue coins s)
    (hanswers : ∀ p ∈ vCoins, ∃ b, w.spendable P chain nConfMine nConfTheirs p.1 p.2 = .ok b)
    (hfits : Fits nTargetValue (coins ++ w.eligibleFrom P chain nSpendTime nConfMine nConfTheirs vCoins)) :
    ∃ r, w.scanCoins P chain nTargetValue nSpendTime nConfMine nConfTheirs vCoins s = .ok r ∧
      (∀ s', r = .inl s' →
        ScanInv nTargetValue (coins ++ w.eligibleFrom P chain nSpendTime nConfMine nConfTheirs vCoins) s') ∧
      ∀ coin, r = .inr coin → coin ∈ w.eligibleFrom P chain nSpendTime nConfMine nConfTheirs vCoins ∧
        coin.1 = nTargetValue := by
  -- induction on the transactions that are looked at
  induction vCoins generalizing coins s with
  | nil =>
    refine ⟨.inl s, rfl, ?_, by simp⟩
    intro s' heq
    cases heq
    rwa [AccountWallet.eligibleFrom, List.flatMap_nil, List.append_nil]
  | cons p vCoins ih =>
    obtain ⟨hfirst, hrest⟩ := List.forall_mem_cons.mp hanswers
    obtain ⟨b, hb⟩ := hfirst
    have hsplit : w.eligibleFrom P chain nSpendTime nConfMine nConfTheirs (p :: vCoins) =
        w.eligibleOf P chain nSpendTime nConfMine nConfTheirs p ++
          w.eligibleFrom P chain nSpendTime nConfMine nConfTheirs vCoins := List.flatMap_cons
    rw [AccountWallet.scanCoins, hb, Result.ok_bind, hsplit]
    rw [hsplit] at hfits
    cases b with
    | false =>
      -- the transaction is passed over, with all its outputs
      have hnone : w.eligibleOf P chain nSpendTime nConfMine nConfTheirs p = [] := by
        unfold AccountWallet.eligibleOf
        rw [hb]
      rw [hnone, List.nil_append] at hfits ⊢
      simp only [Bool.not_false, if_true]
      exact ih h hrest hfits
    | true =>
      -- its outputs are looked at one after the other
      have hsome : w.eligibleOf P chain nSpendTime nConfMine nConfTheirs p =
          w.coinsOf P nSpendTime p.1 p.2 := by
        unfold AccountWallet.eligibleOf
        rw [hb]
      rw [← List.append_assoc] at hfits ⊢
      obtain ⟨hinl, hinr⟩ := h.scanOutputs (hfits.sublist (List.sublist_append_left _ _))
      simp only [Bool.not_true, Bool.false_eq_true, if_false]
      rw [← hsome]
      cases hscan : s.scanOutputs nTargetValue (w.eligibleOf P chain nSpendTime nConfMine nConfTheirs p) with
      | inr coin =>
        -- the scan ends here; the transactions behind it are not looked at
        refine ⟨.inr coin, rfl, by simp, ?_⟩
        intro coin' heq
        cases heq
        obtain ⟨hmem, hval⟩ := hinr coin hscan
        exact ⟨List.mem_append_left _ hmem, hval⟩
      -- the scan goes on with what has been sorted out
      | inl s₁ =>
        obtain ⟨r, hr, hinl', hinr'⟩ := ih (hinl s₁ hscan) hrest hfits
        refine ⟨r, hr, hinl', ?_⟩
        intro coin heq
        obtain ⟨hmem, hval⟩ := hinr' coin heq
        exact ⟨List.mem_append_right _ hmem, hval⟩

/-! ### `SelectCoinsMinConf` -/

/-- What `SelectCoinsMinConf` should do: it returns, and with true exactly when the eligible coins reach the
target; then the coins returned are eligible, `nValueRet` is their value, and what is more than the target is
nothing or a `CENT`, unless all the coins together are less; and otherwise nothing is returned. -/
def SelectsRight (P : Params) (chain : ChainView) (w : AccountWallet) (nTargetValue : ℤ) (nSpendTime : ℕ)
    (nConfMine nConfTheirs : ℤ) (vCoins : List (Sigma fun _ : Uint256 => CachedTx)) (address : Uint256 → ℕ)
    (fRand : ℕ → ℕ → Bool) : Prop :=
  let eligible := w.eligibleCoins P chain nSpendTime nConfMine nConfTheirs
  ∃ r, w.selectCoinsMinConf P chain nTargetValue nSpendTime nConfMine nConfTheirs vCoins address fRand = .ok r ∧
    (r.fOk = true ↔ nTargetValue ≤ ∑ coin ∈ eligible, w.coinValue coin) ∧
    (r.fOk = true → r.setCoinsRet ⊆ eligible ∧ r.nValueRet = ∑ coin ∈ r.setCoinsRet, w.coinValue coin ∧
      nTargetValue ≤ r.nValueRet ∧ (r.nValueRet - nTargetValue = 0 ∨ CENT ≤ r.nValueRet - nTargetValue ∨
        ∑ coin ∈ eligible, w.coinValue coin < nTargetValue + CENT)) ∧
    (r.fOk = false → r.setCoinsRet = ∅ ∧ r.nValueRet = 0)

/-- The sum that `nValueRet` is. -/
theorem foldl_addInt64 {part : List (ℤ × WalletCoin)} {n : ℤ} (hpos : ∀ c ∈ part, 0 < c.1) (hn : 0 ≤ n)
    (hsum : n + (part.map Prod.fst).sum < 2 ^ 63) :
    part.foldl (fun nValueRet coin => addInt64 nValueRet coin.1) n = n + (part.map Prod.fst).sum := by
  induction part generalizing n with
  | nil => simp
  | cons c part ih =>
    obtain ⟨hc, hrest⟩ := List.forall_mem_cons.mp hpos
    have hnonneg : 0 ≤ (part.map Prod.fst).sum := by
      refine List.sum_nonneg ?_
      intro x hx
      obtain ⟨c', hc', rfl⟩ := List.mem_map.mp hx
      exact (hrest c' hc').le
    rw [List.map_cons, List.sum_cons] at hsum ⊢
    rw [List.foldl_cons, addInt64_of_lt (by omega) (by omega), ih hrest (by omega) (by omega)]
    omega

/-- **Coin selection is right**, in whatever order the coins are tried and whatever the random bits are, as
long as the amounts fit into an `int64` and no check on a wallet transaction throws. -/
theorem selectCoinsMinConf_right {P : Params} {chain : ChainView} {w : AccountWallet} {nTargetValue : ℤ}
    {nSpendTime : ℕ} {nConfMine nConfTheirs : ℤ} {vCoins : List (Sigma fun _ : Uint256 => CachedTx)}
    (hshuffled : vCoins.Perm w.mapWallet.entries) (address : Uint256 → ℕ) (fRand : ℕ → ℕ → Bool)
    (hpos : 0 < nTargetValue) (htarget : nTargetValue + CENT < 2 ^ 63)
    (htotal : ∑ coin ∈ w.eligibleCoins P chain nSpendTime nConfMine nConfTheirs, w.coinValue coin < 2 ^ 63 - 1)
    (hanswers : ∀ p ∈ w.mapWallet.entries,
      ∃ b, w.spendable P chain nConfMine nConfTheirs p.1 p.2 = .ok b) :
    SelectsRight P chain w nTargetValue nSpendTime nConfMine nConfTheirs vCoins address fRand := by
  -- the shuffle changes the order alone
  set coins := w.eligibleFrom P chain nSpendTime nConfMine nConfTheirs vCoins with hcoins
  have hperm : coins.Perm (w.eligibleFrom P chain nSpendTime nConfMine nConfTheirs w.mapWallet.entries) :=
    hshuffled.flatMap_right _
  have hnodup : ((w.eligibleFrom P chain nSpendTime nConfMine nConfTheirs
      w.mapWallet.entries).map Prod.snd).Nodup := AccountWallet.nodup_eligibleFrom w.mapWallet.nodupKeys
  have hsum : ∑ coin ∈ w.eligibleCoins P chain nSpendTime nConfMine nConfTheirs, w.coinValue coin =
      (coins.map Prod.fst).sum := by
    rw [(hperm.map Prod.fst).sum_eq]
    exact AccountWallet.sum_coinValue hnodup (List.Subset.refl _)
  -- what the scan needs of the amounts
  have hfits : Fits nTargetValue coins := by
    refine ⟨hpos, htarget, ?_, hsum ▸ htotal⟩
    intro c hc
    obtain ⟨⟨wtx, txout, -, hlookup, hout, -, -, hval, -⟩, heq⟩ :=
      AccountWallet.mem_eligibleFrom_entries.mp (hperm.subset hc)
    unfold AccountWallet.coinValue at heq
    rw [hlookup] at heq
    simp only [hout, Option.map_some, Option.getD_some] at heq
    rw [heq]
    exact hval
  obtain ⟨r, hscan, hinl, hinr⟩ := ScanInv.start.scanCoins
    (fun p hp => hanswers p (hshuffled.subset hp)) hfits
  have hright : ∃ r, w.selectCoinsMinConf P chain nTargetValue nSpendTime nConfMine nConfTheirs vCoins address
      fRand = .ok r ∧ Selected.Right nTargetValue coins r := by
    unfold AccountWallet.selectCoinsMinConf
    rw [hscan, Result.ok_bind]
    cases r with
    | inr coin =>
      -- a coin of exactly the target value ended the scan
      obtain ⟨hmem, hval⟩ := hinr coin rfl
      refine ⟨_, rfl, Selected.Right.of_part hfits (List.singleton_subperm_iff.mpr hmem) ?_ (Or.inl ?_)⟩
      · simpa using hval.ge
      · simpa using hval
    | inl s => exact ⟨_, rfl, CoinScan.select_right hfits (hinl s rfl) address fRand⟩
  obtain ⟨r, hrun, hok, hsuccess, hfailure⟩ := hright
  -- what `SelectCoinsMinConf` returns, with its sum
  refine ⟨r, hrun, by rw [hsum]; exact hok, ?_, hfailure⟩
  intro htrue
  -- the coins that are returned are part of the eligible ones, each at most once
  obtain ⟨part, hpart, rfl, hreach, hexcess⟩ := hsuccess htrue
  have hsub : part ⊆ w.eligibleFrom P chain nSpendTime nConfMine nConfTheirs w.mapWallet.entries :=
    fun c hc => hperm.subset (hpart.subset hc)
  have hpartnodup : (part.map Prod.snd).Nodup := by
    obtain ⟨l, hl, hls⟩ := hpart
    refine (hl.map Prod.snd).nodup_iff.mp (List.Nodup.sublist (hls.map Prod.snd) ?_)
    exact (hperm.map Prod.snd).nodup_iff.mpr hnodup
  -- the sum that is returned has not overflowed
  have hvalue : (Selected.of part).nValueRet = (part.map Prod.fst).sum := by
    have hle := hfits.sum_le hpart
    have hlt := hfits.total
    have hfold := foldl_addInt64 (n := 0) (fun c hc => hfits.coin c (hpart.subset hc)) le_rfl (by omega)
    rw [zero_add] at hfold
    exact hfold
  -- the coins are eligible, their sum is what is returned, and it is enough
  refine ⟨?_, ?_, ?_, ?_⟩
  · intro coin hcoin
    obtain ⟨c, hc, rfl⟩ := List.mem_map.mp (List.mem_toFinset.mp hcoin)
    exact List.mem_toFinset.mpr (List.mem_map_of_mem (hsub hc))
  · rw [hvalue]
    exact (AccountWallet.sum_coinValue hpartnodup hsub).symm
  · rw [hvalue]
    exact hreach
  · rw [hvalue, hsum]
    omega

namespace Sample

/-- A wallet of the sample key with these transactions. -/
def walletOf (vtx : List CTransaction) : AccountWallet where
  toCacheWallet := { cacheWallet with
    mapWallet := vtx.foldl (fun mapWallet tx => mapWallet.insert (params.hashTx tx) { tx := tx }) ∅ }
  names := OrderedMap.empty
  mem_mapAddressBook address := by simp [cacheWallet, OrderedMap.keys, OrderedMap.empty]

/-- A payment to the wallet. -/
def paymentOf (values : List ℤ) : CTransaction where
  nTime := 1400000000
  vin := [⟨⟨5, 0⟩, [], UINT_MAX⟩]
  vout := values.map (fun n => ⟨n, keyScript⟩)

/-- A transaction that spends more than there can be. -/
def overspend : CTransaction where
  nTime := 1400000001
  vin := [⟨⟨params.hashTx (paymentOf [2 ^ 62]), 0⟩, [], UINT_MAX⟩]
  vout := [⟨1, keyScript⟩]

/-- `SelectCoinsMinConf` on such a wallet, with the answers of `SelectsRight` as numbers. -/
def answerOf (vtx : List CTransaction) (nTargetValue : ℤ) : Option Bool :=
  ((walletOf vtx).selectCoinsMinConf params deepChain nTargetValue 1500000000 1 6
    (walletOf vtx).mapWallet.entries id (fun _ _ => true)).toOption.map Selected.fOk

def totalOf (vtx : List CTransaction) : ℤ :=
  ∑ coin ∈ (walletOf vtx).eligibleCoins params deepChain 1500000000 1 6, (walletOf vtx).coinValue coin

/-- A wrong answer, or none. -/
theorem not_selectsRight {vtx : List CTransaction} {nTargetValue : ℤ}
    (h : answerOf vtx nTargetValue ≠ some (decide (nTargetValue ≤ totalOf vtx))) :
    ¬SelectsRight params deepChain (walletOf vtx) nTargetValue 1500000000 1 6
      (walletOf vtx).mapWallet.entries id (fun _ _ => true) := by
  rintro ⟨r, hrun, hok, -⟩
  refine h ?_
  unfold answerOf
  rw [hrun]
  change some r.fOk = _
  exact congrArg some (Bool.eq_iff_iff.mpr (hok.trans decide_eq_true_iff.symm))

end Sample

open Sample in
/-- A small coin, and less than it is asked for. -/
theorem selectCoinsMinConf_payment : SelectsRight params deepChain (walletOf [paymentOf [2000000, 30000]])
    1000000 1500000000 1 6 (walletOf [paymentOf [2000000, 30000]]).mapWallet.entries id (fun _ _ => true) := by
  refine selectCoinsMinConf_right (List.Perm.refl _) id _ (by decide) (by decide) (by decide) ?_
  intro p hp
  obtain rfl : p = ⟨params.hashTx (paymentOf [2000000, 30000]), { tx := paymentOf [2000000, 30000] }⟩ :=
    List.mem_singleton.mp hp
  exact ⟨true, by rfl⟩

open Sample in
/-- The target plus a `CENT` wraps around, and a coin of two million answers for the largest target; the
total of three coins wraps around, and they do not answer for a target that two of them reach; and a
transaction that spends more than there can be makes the call throw. -/
theorem selectCoinsMinConf_extremes :
    (¬SelectsRight params deepChain (walletOf [paymentOf [2000000]]) (2 ^ 63 - 1) 1500000000 1 6
      (walletOf [paymentOf [2000000]]).mapWallet.entries id (fun _ _ => true)) ∧
    (¬SelectsRight params deepChain (walletOf [paymentOf [2 ^ 62 - 1, 2 ^ 62 - 1, 2 ^ 62 - 1]]) (2 ^ 62)
      1500000000 1 6 (walletOf [paymentOf [2 ^ 62 - 1, 2 ^ 62 - 1, 2 ^ 62 - 1]]).mapWallet.entries id
      (fun _ _ => true)) ∧
    ¬SelectsRight params deepChain (walletOf [paymentOf [2 ^ 62], overspend]) 1 1500000000 1 6
      (walletOf [paymentOf [2 ^ 62], overspend]).mapWallet.entries id (fun _ _ => true) :=
  ⟨not_selectsRight (by decide +kernel), not_selectsRight (by decide +kernel),
    not_selectsRight (by decide)⟩

end Peershares
