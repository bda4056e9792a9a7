import Peershares.Model.Connect
import Peershares.Wallet.CreateTransaction

/-!
# The fee of the wallet and the fee of the pool

`CreateTransaction` asks `GetMinFee` for an empty block. The memory pool asks for a block of a thousand
bytes, and the price doubles once that block is half full. The wallet stops at the same size, but without
the thousand bytes, so between 249,000 and 250,000 bytes the pool wants twice the fee.

* `CTransaction.getMinFee_relay` — what the pool asks for
* `CreateEnv.EndsWith` — the last round of a run
* `poolFee_iff` — when the wallet pays it
-/

open Framework

namespace Peershares

/-- What the pool asks for a transaction that the wallet admits. -/
theorem CTransaction.getMinFee_relay {tx : CTransaction} (h : tx.getSerializeSize < MAX_BLOCK_SIZE / 4) :
    tx.getMinFee 1000 false .GMF_RELAY =
      (1 + (tx.getSerializeSize : ℤ) / 1000) * CENT * (if tx.getSerializeSize < 249000 then 1 else 2) := by
  have hsize : tx.getSerializeSize < 250000 := h
  have hfull : MAX_BLOCK_SIZE_GEN = 500000 := rfl
  have hcent : CENT = 10000 := rfl
  have hrelay : MIN_RELAY_TX_FEE = 10000 := rfl
  have hmax : MAX_MONEY = 2000000000000000 := rfl
  have hbase : ¬(1 + (tx.getSerializeSize : ℤ) / 1000) * MIN_RELAY_TX_FEE < MIN_RELAY_TX_FEE := by
    rw [hrelay]
    omega
  have hnotfull : ¬500000 ≤ 1000 + tx.getSerializeSize := by omega
  have hnotone : ¬(1000 : ℕ) = 1 := by omega
  unfold CTransaction.getMinFee
  simp only [if_true, if_false, hbase, decide_false, Bool.false_and, Bool.false_eq_true, hfull, hnotfull,
    and_false, ne_eq, hnotone, not_false_eq_true, true_and]
  by_cases hlow : tx.getSerializeSize < 249000
  · have hnothalf : ¬250000 ≤ 1000 + tx.getSerializeSize := by omega
    have hrange : moneyRange ((1 + (tx.getSerializeSize : ℤ) / 1000) * MIN_RELAY_TX_FEE) = true := by
      rw [moneyRange_iff, hrelay, hmax]
      omega
    rw [if_neg hnothalf, if_pos hrange, if_pos hlow, mul_one]
    rfl
  · have hpast : 250000 ≤ 1000 + tx.getSerializeSize := by omega
    -- a block of this size is between half full and three quarters full
    have hprice : 500000 / (500000 - (1000 + tx.getSerializeSize)) = 2 := by
      refine Nat.div_eq_of_lt_le ?_ ?_ <;> omega
    have hrange : moneyRange ((1 + (tx.getSerializeSize : ℤ) / 1000) * MIN_RELAY_TX_FEE * (2 : ℕ)) = true := by
      rw [moneyRange_iff, hrelay, hmax]
      omega
    rw [if_pos hpast, hprice, if_pos hrange, if_neg hlow]
    rfl

/-! ### The fee that is paid -/

/-- The fetched inputs have the transactions that the coins are of. -/
def HoldCoins (P : Params) (mapInputs : MapPrevTx) (setCoins : List PCoin) : Prop :=
  ∀ pcoin ∈ setCoins, ∃ txindex, mapInputs.lookup (P.hashTx pcoin.first) = some (txindex, pcoin.first)

/-- `GetOutputFor` finds the coins. -/
theorem getOutputFor_coins {P : Params} {mapInputs : MapPrevTx} {setCoins : List PCoin} {vin : List CTxIn}
    (hhold : HoldCoins P mapInputs setCoins) (hexist : ∀ pcoin ∈ setCoins, pcoin.txout?.isSome = true)
    (hvin : vin.map CTxIn.prevout = setCoins.map fun pcoin => (pcoin.txin P).prevout) :
    ∃ prevouts, vin.mapM (fun txin => getOutputFor txin mapInputs) = .ok prevouts
      ∧ (prevouts.map CTxOut.nValue).sum = valueOf setCoins := by
  induction setCoins generalizing vin with
  | nil =>
    rw [List.map_nil, List.map_eq_nil_iff] at hvin
    subst hvin
    exact ⟨[], rfl, rfl⟩
  | cons pcoin setCoins ih =>
    obtain ⟨txin, vin, rfl, hprevout, hrest⟩ := List.map_eq_cons_iff.mp hvin
    obtain ⟨prevouts, hmap, hsum⟩ := ih (fun c hc => hhold c (List.mem_cons_of_mem _ hc))
      (fun c hc => hexist c (List.mem_cons_of_mem _ hc)) hrest
    obtain ⟨txindex, hlookup⟩ := hhold pcoin List.mem_cons_self
    obtain ⟨txout, htxout⟩ := Option.isSome_iff_exists.mp (hexist pcoin List.mem_cons_self)
    -- the output of the coin is what its input finds
    have houtput : getOutputFor txin mapInputs = .ok txout := by
      have hprev : mapInputs.lookup txin.prevout.hash = some (txindex, pcoin.first) := by
        rw [hprevout]
        exact hlookup
      have hout : pcoin.first.vout[txin.prevout.n]? = some txout := by
        rw [hprevout]
        exact htxout
      simp only [getOutputFor, hprev, hout]
    refine ⟨txout :: prevouts, ?_, ?_⟩
    · rw [List.mapM_cons, houtput, Result.ok_bind, hmap]
      rfl
    · have hvalue : pcoin.nValue = txout.nValue := by
        unfold PCoin.nValue
        rw [htxout]
        rfl
      rw [List.map_cons, List.sum_cons, hsum, ← hvalue]
      rfl

/-- Without an overflow, or with one that is noticed, the payees are added up. -/
theorem sumPayees_of_some {vecSend : List (CScript × ℤ)} {acc nValue : ℤ} (hacc : 0 ≤ acc)
    (hlt : acc < 2 ^ 63) (hpay : ∀ s ∈ vecSend, moneyRange s.2 = true) (h : sumPayees vecSend acc = some nValue)
    (hpos : 0 ≤ nValue) : nValue = acc + (vecSend.map Prod.snd).sum := by
  induction vecSend generalizing acc with
  | nil =>
    cases h
    rw [List.map_nil, List.sum_nil, add_zero]
  | cons s vecSend ih =>
    have hs := moneyRange_iff.mp (hpay s List.mem_cons_self)
    rw [show MAX_MONEY = 2000000000000000 from rfl] at hs
    rw [sumPayees, if_neg (not_lt.mpr hacc)] at h
    by_cases hwrap : acc + s.2 < 2 ^ 63
    · -- no overflow
      have hadd : addInt64 acc s.2 = acc + s.2 := by
        unfold addInt64
        exact Int.bmod_eq_of_le_mul_two (by omega) (by omega)
      rw [hadd] at h
      rw [ih (by omega) hwrap (fun s hs => hpay s (List.mem_cons_of_mem _ hs)) h, List.map_cons, List.sum_cons]
      ring
    · -- the sum has become negative
      have hadd : addInt64 acc s.2 = acc + s.2 - 2 ^ 64 := by
        have hbmod : (acc + s.2 - 2 ^ 64).bmod (2 ^ 64) = acc + s.2 - 2 ^ 64 :=
          Int.bmod_eq_of_le_mul_two (by omega) (by omega)
        unfold addInt64
        rw [← hbmod]
        exact (Int.sub_bmod_right (acc + s.2) (2 ^ 64)).symm
      have hneg : addInt64 acc s.2 < 0 := by omega
      -- a negative sum is noticed by the next round, or at the end
      cases vecSend with
      | nil =>
        cases h
        omega
      | cons s' vecSend =>
        rw [sumPayees, if_pos hneg] at h
        cases h

/-! ### The last round -/

section Pool

variable {P : Params} {env : CreateEnv} {vecSend : List (CScript × ℤ)} {nValueIn nFeeRet : ℤ}
variable {wtxNew tx : CTransaction} {s : FeeRound} {setCoins : List PCoin} {r : CreateResult} {fuel : ℕ}

/-- The run ends in the round `s`, with this selection. -/
structure CreateEnv.EndsWith (P : Params) (env : CreateEnv) (vecSend : List (CScript × ℤ))
    (wtxNew : CTransaction) (s : FeeRound) (setCoins : List PCoin) (nValueIn : ℤ) (r : CreateResult) :
    Prop where
  reached : Reaches (env.round P vecSend (vecSend.map Prod.snd).sum wtxNew) ⟨0, env.nTransactionFee⟩ s
  selected : env.selectCoins s.nRound ((vecSend.map Prod.snd).sum + s.nFeeRet) wtxNew.nTime
    = some (setCoins, nValueIn)
  result : env.round P vecSend (vecSend.map Prod.snd).sum wtxNew s = .inr r

/-- The answer `true` comes from a last round. -/
theorem createTransaction_endsWith (hselect : env.SelectsRight)
    (hpay : ∀ s ∈ vecSend, moneyRange s.2 = true)
    (hrun : createTransaction P env vecSend wtxNew nFeeRet fuel = some r) (htx : r.wtxNew = some tx) :
    vecSend ≠ [] ∧ ∃ s setCoins nValueIn, env.EndsWith P vecSend wtxNew s setCoins nValueIn r
      ∧ env.Signs P vecSend (vecSend.map Prod.snd).sum wtxNew s setCoins nValueIn tx
      ∧ env.requiredFee tx ≤ r.nFeeRet
      ∧ r.nFeeRet = s.feeWith (nValueIn - (vecSend.map Prod.snd).sum - s.nFeeRet) := by
  unfold createTransaction at hrun
  split at hrun
  · cases hrun
    cases htx
  · -- the payees are added up, and there is one
    next nValue hvalue =>
    split_ifs at hrun with hempty
    · cases hrun
      cases htx
    simp only [Bool.or_eq_true, List.isEmpty_iff, decide_eq_true_eq, not_or, not_lt] at hempty
    have hsum := sumPayees_of_some le_rfl (by norm_num) hpay hvalue hempty.2
    rw [zero_add] at hsum
    subst hsum
    -- the answer is that of the last round
    obtain ⟨last, hreach, hlast⟩ := loop_last hrun
    refine ⟨hempty.1, ?_⟩
    rcases CreateEnv.round_cases hselect with ⟨nFee, hfail⟩ | ⟨setCoins, nValueIn, tx', hsigns, hcompare⟩
    · -- a failed round has no transaction
      rw [hfail] at hlast
      cases hlast
      cases htx
    · have hresult := hlast
      rw [hcompare] at hlast
      split_ifs at hlast with hless
      cases hlast
      cases htx
      exact ⟨last, setCoins, nValueIn, ⟨hreach, hsigns.selected, hresult⟩, hsigns, not_lt.mp hless, rfl⟩

/-- The pool wants no more than the wallet pays: the transaction leaves the thousand bytes free, the fee
option is at least twice the minimum, or the last selection leaves nothing for change and is five hundred
cents above the payments. -/
def CreateEnv.PoolFeePaid (env : CreateEnv) (vecSend : List (CScript × ℤ)) (s : FeeRound) (nValueIn : ℤ)
    (tx : CTransaction) : Prop :=
  tx.getSerializeSize < 249000 ∨ 2 * MIN_TX_FEE ≤ env.nTransactionFee ∨
    nValueIn - (vecSend.map Prod.snd).sum - s.nFeeRet < CENT ∧ 500 * CENT ≤ nValueIn - (vecSend.map Prod.snd).sum

/-- In a round with this fee at the beginning, between 249,000 and 250,000 bytes. -/
theorem FeeInv.le_feeWith_iff (h : FeeInv env s) (hlow : env.nTransactionFee < 2 * MIN_TX_FEE) (nValue : ℤ) :
    500 * CENT ≤ s.feeWith (nValueIn - nValue - s.nFeeRet) ↔
      nValueIn - nValue - s.nFeeRet < CENT ∧ 500 * CENT ≤ nValueIn - nValue := by
  have hcent : CENT = 10000 := rfl
  have hfee : s.nFeeRet < 500 * CENT := by
    refine lt_of_le_of_lt h.fee_le ?_
    rw [show MIN_TX_FEE = 10000 from rfl] at hlow
    have hunit : env.unitFee < 20000 := max_lt hlow (by decide)
    omega
  unfold FeeRound.feeWith
  split_ifs with hless
  · simp only [hless, true_and]
    omega
  · simp only [hless, false_and, iff_false]
    omega

/-- Every run that answers `true` ends with a round in which the fee is the one that `accept` computes. The
pool and a block accept it if and only if `PoolFeePaid` holds in that round. -/
theorem poolFee_iff (P : Params) (env : CreateEnv) (hselect : env.SelectsRight) (vecSend : List (CScript × ℤ))
    (hpay : ∀ s ∈ vecSend, moneyRange s.2 = true) (wtxNew : CTransaction) (nFeeRet : ℤ) (fuel : ℕ)
    (r : CreateResult) (hrun : createTransaction P env vecSend wtxNew nFeeRet fuel = some r) (tx : CTransaction)
    (htx : r.wtxNew = some tx) :
    ∃ s setCoins nValueIn, env.EndsWith P vecSend wtxNew s setCoins nValueIn r ∧
      (∀ mapInputs, HoldCoins P mapInputs setCoins → tx.isCoinBase = false →
        tx.getValueIn mapInputs = .ok (tx.valueOut + r.nFeeRet)) ∧
      (tx.getMinFee 1000 false .GMF_RELAY ≤ r.nFeeRet ∧ tx.getMinFee ≤ r.nFeeRet ↔
        env.PoolFeePaid vecSend s nValueIn tx) := by
  -- the round that ended the loop
  obtain ⟨hne, s, setCoins, nValueIn, hends, hsigns, hfee, hret⟩ :=
    createTransaction_endsWith hselect hpay hrun htx
  have hfunded := hsigns.funded hselect hne rfl (hret ▸ hfee)
  rw [← hret] at hfunded
  refine ⟨s, setCoins, nValueIn, hends, ?_, ?_⟩
  · intro mapInputs hhold hcoinbase
    obtain ⟨prevouts, hmap, hsum⟩ := getOutputFor_coins hhold (hselect _ _ _ _ _ hsigns.selected).exist
      hfunded.inputs
    unfold CTransaction.getValueIn
    rw [hcoinbase, hmap, Result.ok_bind, ← hfunded.conserved, ← hsum]
    rfl
  have hsize : tx.getSerializeSize < 250000 := hsigns.small
  -- what is known of the fee of that round
  have hinv : FeeInv env s := hends.reached.invariant
    (fun _ _ hs hround => (hs.step hselect hround).1) FeeInv.start
  have hpaid := hfunded.payFee
  have hmin := hfunded.minFee
  rw [(CTransaction.getMinFee_send hsigns.small).1] at hmin
  rw [CTransaction.getMinFee_relay hsigns.small, (CTransaction.getMinFee_send hsigns.small).2]
  unfold CreateEnv.PoolFeePaid
  -- below 249,000 bytes nothing is doubled
  by_cases hroom : tx.getSerializeSize < 249000
  · simp only [hroom, if_true, mul_one, true_or, iff_true]
    exact ⟨hmin, hmin⟩
  -- there are 249,000 bytes or more, so the fee is for 250 thousands
  have hthousand : (1 + (tx.getSerializeSize : ℤ) / 1000) = 250 := by omega
  have hdouble : 250 * CENT * 2 = 500 * CENT := rfl
  rw [hthousand] at hpaid hmin ⊢
  rw [if_neg hroom, hdouble]
  -- the fee per thousand bytes is below the doubled minimum
  by_cases hlow : env.nTransactionFee < 2 * MIN_TX_FEE
  · simp only [hroom, not_le.mpr hlow, hmin, and_true, false_or]
    rw [hret]
    exact hinv.le_feeWith_iff hlow _
  · rw [show MIN_TX_FEE = 10000 from rfl] at hlow ⊢
    rw [show CENT = 10000 from rfl]
    omega

end Pool

open SendSample in
/-- A small payment is one that the pool takes. -/
theorem poolFee_iff_sample : sent.getMinFee 1000 false .GMF_RELAY ≤ CENT ∧ sent.getMinFee ≤ CENT := by
  have hrun : createTransaction params (env CENT (5 * COIN)) [(script 1 0, COIN)] wtxNew 0 251
      = some ⟨some sent, CENT⟩ := by decide +kernel
  obtain ⟨s, setCoins, nValueIn, -, -, hiff⟩ := poolFee_iff params (env CENT (5 * COIN)) (selectsRight _ _)
    [(script 1 0, COIN)] (by decide) wtxNew 0 251 _ hrun sent rfl
  exact hiff.mpr (Or.inl (by decide))

/-! ### A payment to 7,320 addresses -/

namespace SendSample

/-- A cent for each. -/
def manyPayees : List (CScript × ℤ) :=
  (List.range 7320).map fun i => (script (UInt8.ofNat (i % 256)) (UInt8.ofNat (i / 256)), CENT)

theorem length_manyPayees : (payeeOutputs manyPayees).length = 7320 := by
  unfold payeeOutputs manyPayees
  rw [List.length_map, List.length_map, List.length_range]

theorem manyPayees_value : (manyPayees.map Prod.snd).sum = 7320 * CENT := by
  unfold manyPayees
  rw [List.map_map]
  show ((List.range 7320).map fun _ => CENT).sum = 7320 * CENT
  rw [List.map_const', List.sum_replicate, List.length_range]
  rfl

theorem manyPayees_size : ((payeeOutputs manyPayees).map CTxOut.getSerializeSize).sum = 7320 * 34 := by
  unfold payeeOutputs manyPayees
  rw [List.map_map, List.map_map]
  show ((List.range 7320).map fun _ => 34).sum = 7320 * 34
  rw [List.map_const', List.sum_replicate, List.length_range]
  rfl

/-- The transaction with these outputs and one signed input. -/
def signed (vout : List CTxOut) : CTransaction where
  nTime := 1600100000
  vin := [⟨⟨1600000000, 0⟩, List.replicate 107 0, UINT_MAX⟩]
  vout := vout

theorem signed_size (vout : List CTxOut) : (signed vout).getSerializeSize =
    161 + getSizeOfCompactSize vout.length + (vout.map CTxOut.getSerializeSize).sum := by
  show 4 + 4 + (1 + 148) + (getSizeOfCompactSize vout.length + (vout.map CTxOut.getSerializeSize).sum) + 4 = _
  omega

/-- A round of the wallet with one coin, by the change that is left. -/
theorem round_signed {nValue nChange : ℤ} {vout : List CTxOut} {s : FeeRound}
    (hchange : 7570 * CENT - nValue - s.nFeeRet = nChange) (hpos : 0 ≤ nChange)
    (hvout : vout = if nChange < CENT then payeeOutputs manyPayees
      else ⟨nChange, script 0 0⟩ :: payeeOutputs manyPayees)
    (hsmall : (signed vout).getSerializeSize < MAX_BLOCK_SIZE / 4) :
    (env CENT (7570 * CENT)).round params manyPayees nValue wtxNew s =
      if s.feeWith nChange < (env CENT (7570 * CENT)).requiredFee (signed vout) then
        .inl ⟨s.nRound + 1, (env CENT (7570 * CENT)).requiredFee (signed vout)⟩
      else .inr ⟨some (signed vout), s.feeWith nChange⟩ := by
  -- one coin is selected
  have hselected : (env CENT (7570 * CENT)).selectCoins s.nRound (nValue + s.nFeeRet) wtxNew.nTime
      = some ([coin (7570 * CENT)], 7570 * CENT) := by
    show (if nValue + s.nFeeRet ≤ 7570 * CENT then _ else _) = _
    rw [if_pos (by omega)]
  -- nothing is moved to the fee, or all of the change
  have hmove : moveToFee (7570 * CENT - nValue - s.nFeeRet) s.nFeeRet
      = (if nChange < CENT then 0 else nChange, s.feeWith nChange) := by
    rw [hchange, moveToFee_eq hpos, FeeRound.feeWith]
    split_ifs
    · rfl
    · rw [add_zero]
  -- the change is inserted in front
  have hassemble : signInputs ((env CENT (7570 * CENT)).signSignature s.nRound) [coin (7570 * CENT)] 0
      ((env CENT (7570 * CENT)).assemble params s.nRound manyPayees [coin (7570 * CENT)]
        (if nChange < CENT then 0 else nChange) wtxNew) = some (signed vout) := by
    have hcent : CENT = 10000 := rfl
    have hscript : (env CENT (7570 * CENT)).scriptChange params s.nRound [coin (7570 * CENT)] = script 0 0 := rfl
    have hposition : getRandInt ((env CENT (7570 * CENT)).nRand s.nRound) (payeeOutputs manyPayees).length
        = 0 := by
      unfold getRandInt
      rw [show (env CENT (7570 * CENT)).nRand s.nRound = 0 from rfl, Nat.zero_mod, ite_self]
    rw [hvout]
    unfold CreateEnv.assemble
    simp only
    rw [hscript, hposition]
    generalize payeeOutputs manyPayees = outputs
    -- with change and without
    by_cases hless : nChange < CENT
    · rw [if_pos hless, if_pos hless, if_neg (lt_irrefl 0)]
      rfl
    · rw [if_neg hless, if_neg hless, if_pos (by omega), List.insertIdx_zero]
      rfl
  unfold CreateEnv.round
  rw [hselected]
  simp only [hmove, hassemble]
  rw [if_neg (not_le.mpr hsmall)]

end SendSample

open SendSample in
/-- The wallet pays 250 cents for 249,044 bytes, and the pool wants 500. -/
theorem poolFee_not_paid : ∃ tx, createTransaction params (env CENT (7570 * CENT)) manyPayees wtxNew 0 251
      = some ⟨some tx, 250 * CENT⟩ ∧ 250 * CENT < tx.getMinFee 1000 false .GMF_RELAY := by
  have hcent : CENT = 10000 := rfl
  have hunit : (env CENT (7570 * CENT)).unitFee = CENT := rfl
  have hsum := @sumPayees_eq manyPayees 0 le_rfl (by simp [manyPayees, hcent]) (by rw [manyPayees_value]; decide)
  rw [manyPayees_value, zero_add] at hsum
  have hsize : (signed (payeeOutputs manyPayees)).getSerializeSize = 249044 := by
    rw [signed_size, length_manyPayees, manyPayees_size]
    rfl
  have hsize' : (signed (⟨249 * CENT, script 0 0⟩ :: payeeOutputs manyPayees)).getSerializeSize = 249078 := by
    rw [signed_size, List.length_cons, length_manyPayees, List.map_cons, List.sum_cons, manyPayees_size]
    rfl
  have hsmall : (signed (payeeOutputs manyPayees)).getSerializeSize < MAX_BLOCK_SIZE / 4 := by
    rw [hsize]
    decide
  have hsmall' : (signed (⟨249 * CENT, script 0 0⟩ :: payeeOutputs manyPayees)).getSerializeSize
      < MAX_BLOCK_SIZE / 4 := by
    rw [hsize']
    decide
  -- the first round wants more for its change output, the second one has none
  have hfirst := @round_signed (7320 * CENT) (249 * CENT) _ ⟨0, CENT⟩ (by decide) (by decide)
    (if_neg (by decide)).symm hsmall'
  have hsecond := @round_signed (7320 * CENT) 0 _ ⟨1, 250 * CENT⟩ (by decide) (by decide)
    (if_pos (by decide)).symm hsmall
  rw [CreateEnv.requiredFee_eq hsmall', hsize', hunit, if_pos (by decide)] at hfirst
  rw [CreateEnv.requiredFee_eq hsmall, hsize, hunit, if_neg (by decide)] at hsecond
  refine ⟨signed (payeeOutputs manyPayees), ?_, ?_⟩
  · unfold createTransaction
    rw [hsum]
    show (if manyPayees.isEmpty || decide ((7320 * CENT : ℤ) < 0) then _ else
      loop ((env CENT (7570 * CENT)).round params manyPayees (7320 * CENT) wtxNew) 251 ⟨0, CENT⟩) = _
    rw [if_neg (by simp [manyPayees, hcent]), loop_continue hfirst]
    exact loop_break hsecond
  · rw [CTransaction.getMinFee_relay hsmall, hsize]
    decide

end Peershares
