import Mathlib.Algebra.Order.BigOperators.Group.List
import Peershares.Model.CreateTransaction

/-!
# The accounts of a created transaction

`CreateTransaction` tries one fee after the other until the transaction that it has signed is worth no more.
The required fee is a multiple of one amount by the size in thousands of bytes, and the fee of the next
round is larger than that of the last one, so there are no more rounds than sizes. What moves between
change and fee within a round leaves their sum as it is.

A round selects coins for the payments and the fee so far, gives back the change, or adds it to the fee when it is
below a cent, and signs. Then it compares. The selection is a parameter with one promise, `SelectsRight`: the coins
exist and are worth what is asked for. Everything else is read off the round that ended the loop (`Signs`), whose
transaction is known up to the signatures (`unsigned`).

* `FeeInv` — the fee at the beginning of a round
* `CreateEnv.round_cases` — what a round comes to
* `FeeInv.step` — the next fee is larger, and still a fee for some size
* `createTransaction_funded` — the loop ends, and the transaction it ends with is funded
-/

open Framework

namespace Peershares

/-! ### Signing -/

/-- A transaction without its signatures. -/
def CTransaction.unsigned (tx : CTransaction) : CTransaction :=
  { tx with vin := tx.vin.map fun txin => { txin with scriptSig := [] } }

/-- A change that a function does not see. -/
theorem map_modify_of_comp {α β : Type} {f : α → β} {g : α → α} (h : ∀ a, f (g a) = f a) (l : List α)
    (i : ℕ) : (l.modify i g).map f = l.map f := by
  refine List.ext_getElem? ?_
  intro j
  rw [List.getElem?_map, List.getElem?_map, List.getElem?_modify]
  cases l[j]? with
  | none => rfl
  | some a =>
    show some (f (if i = j then g a else a)) = some (f a)
    split_ifs
    · rw [h]
    · rfl

/-- Signing changes nothing but the signatures. -/
theorem signInputs_unsigned {signSignature : CTransaction → PCoin → ℕ → Option CScript}
    {setCoins : List PCoin} {nIn : ℕ} {tx tx' : CTransaction}
    (h : signInputs signSignature setCoins nIn tx = some tx') : tx'.unsigned = tx.unsigned := by
  induction setCoins generalizing nIn tx with
  | nil =>
    cases h
    rfl
  | cons pcoin setCoins ih =>
    rw [signInputs] at h
    split at h
    · cases h
    · next scriptSig _ =>
      -- a signature is all that differs in an input
      have hvin : (tx.vin.modify nIn fun txin => { txin with scriptSig }).map
          (fun txin => { txin with scriptSig := [] }) = tx.vin.map fun txin => { txin with scriptSig := [] } := by
        refine map_modify_of_comp ?_ tx.vin nIn
        intro txin
        rfl
      rw [ih h]
      show ({ tx with vin := _ } : CTransaction) = { tx with vin := _ }
      rw [hvin]

/-- Taking the scripts away leaves the inputs. -/
theorem unsigned_prevouts (tx : CTransaction) :
    tx.unsigned.vin.map CTxIn.prevout = tx.vin.map CTxIn.prevout := by
  unfold CTransaction.unsigned
  rw [List.map_map]
  rfl

/-! ### Fees -/

/-- Change of less than a cent ends up in the fee. -/
theorem moveToFee_eq {nChange nFeeRet : ℤ} (h : 0 ≤ nChange) :
    moveToFee nChange nFeeRet = if nChange < CENT then (0, nFeeRet + nChange) else (nChange, nFeeRet) := by
  have hcent : MIN_TXOUT_AMOUNT = CENT := rfl
  have hfee : MIN_TX_FEE = CENT := rfl
  unfold moveToFee
  rw [hcent, hfee]
  simp only
  by_cases hlow : nFeeRet < CENT ∧ 0 < nChange ∧ nChange < CENT
  · -- the first rule moves a part, and the second one the rest
    have hmin : 0 < min nChange (CENT - nFeeRet) := lt_min hlow.2.1 (by omega)
    have hle : min nChange (CENT - nFeeRet) ≤ nChange := min_le_left _ _
    rw [if_pos hlow, if_pos hlow.2.2]
    split_ifs with hrest
    · simp only [Prod.mk.injEq, true_and]
      ring
    · have hall : min nChange (CENT - nFeeRet) = nChange := by omega
      rw [hall, sub_self]
  · -- there is nothing for the first rule to move
    rw [if_neg hlow, sub_zero, add_zero]
    split_ifs with hrest hless hless
    · rfl
    · exact absurd hrest.2 hless
    · have hzero : nChange = 0 := by omega
      rw [hzero, add_zero]
    · rfl

/-- The fee for a transaction that the wallet admits depends on its size only. -/
theorem CTransaction.getMinFee_send {tx : CTransaction} (h : tx.getSerializeSize < MAX_BLOCK_SIZE / 4) :
    tx.getMinFee 1 false .GMF_SEND = (1 + (tx.getSerializeSize : ℤ) / 1000) * CENT
      ∧ tx.getMinFee = (1 + (tx.getSerializeSize : ℤ) / 1000) * CENT := by
  have hsize : tx.getSerializeSize < 250000 := h
  have hcent : CENT = 10000 := rfl
  have hbase : ¬(1 + (tx.getSerializeSize : ℤ) / 1000) * MIN_TX_FEE < MIN_TX_FEE := by
    rw [show MIN_TX_FEE = 10000 from rfl]
    omega
  have hrange : moneyRange ((1 + (tx.getSerializeSize : ℤ) / 1000) * MIN_TX_FEE) = true := by
    rw [moneyRange_iff, show MIN_TX_FEE = 10000 from rfl, show MAX_MONEY = 2000000000000000 from rfl]
    omega
  constructor
  all_goals
    unfold CTransaction.getMinFee
    simp only [reduceCtorEq, if_false, ne_eq, not_true_eq_false, false_and, Bool.false_eq_true, hbase,
      decide_false, Bool.false_and, hrange, if_true]
    rfl

section Fee

variable {env : CreateEnv} {tx : CTransaction}

/-- What a thousand bytes cost. -/
def CreateEnv.unitFee (env : CreateEnv) : ℤ := max env.nTransactionFee CENT

/-- A fee for each thousand bytes is positive. -/
theorem CreateEnv.unitFee_pos : 0 < env.unitFee := lt_max_of_lt_right (by decide)

/-- The fee asked for counts the thousands begun. -/
theorem CreateEnv.requiredFee_eq (h : tx.getSerializeSize < MAX_BLOCK_SIZE / 4) :
    env.requiredFee tx = ((tx.getSerializeSize / 1000 : ℕ) + 1 : ℤ) * env.unitFee := by
  have hnonneg : (0 : ℤ) ≤ 1 + (tx.getSerializeSize : ℤ) / 1000 := by omega
  have hcast : ((tx.getSerializeSize / 1000 : ℕ) + 1 : ℤ) = 1 + (tx.getSerializeSize : ℤ) / 1000 := by omega
  unfold requiredFee unitFee
  rw [(CTransaction.getMinFee_send h).1, hcast, mul_max_of_nonneg _ _ hnonneg, mul_comm env.nTransactionFee]

end Fee

/-! ### A round -/

/-- What `SelectCoins` promises: the coins exist and none is there twice, and their total is at least the
target. -/
structure SelectionOk (nTargetValue : ℤ) (setCoins : List PCoin) (nValueRet : ℤ) : Prop where
  nodup : setCoins.Nodup
  exist : ∀ pcoin ∈ setCoins, pcoin.txout?.isSome = true
  total : nValueRet = valueOf setCoins
  reached : nTargetValue ≤ nValueRet

/-- `SelectCoins` keeps its promise in every round. -/
def CreateEnv.SelectsRight (env : CreateEnv) : Prop :=
  ∀ nRound nTargetValue nSpendTime setCoins nValueIn,
    env.selectCoins nRound nTargetValue nSpendTime = some (setCoins, nValueIn) →
      SelectionOk nTargetValue setCoins nValueIn

section Round

variable {P : Params} {env : CreateEnv} {vecSend : List (CScript × ℤ)} {nValue nValueIn : ℤ}
variable {wtxNew tx : CTransaction} {s s' : FeeRound} {setCoins : List PCoin} {r : CreateResult}

/-- The fee within a round, once the change that is less than a cent is added to it. -/
def FeeRound.feeWith (s : FeeRound) (nChange : ℤ) : ℤ := s.nFeeRet + if nChange < CENT then nChange else 0

/-- In the round `s` these coins were selected, and the transaction signed. -/
structure CreateEnv.Signs (P : Params) (env : CreateEnv) (vecSend : List (CScript × ℤ)) (nValue : ℤ)
    (wtxNew : CTransaction) (s : FeeRound) (setCoins : List PCoin) (nValueIn : ℤ) (tx : CTransaction) :
    Prop where
  selected : env.selectCoins s.nRound (nValue + s.nFeeRet) wtxNew.nTime = some (setCoins, nValueIn)
  change : 0 ≤ nValueIn - nValue - s.nFeeRet
  unsigned : tx.unsigned = (env.assemble P s.nRound vecSend setCoins
    (if nValueIn - nValue - s.nFeeRet < CENT then 0 else nValueIn - nValue - s.nFeeRet) wtxNew).unsigned
  small : tx.getSerializeSize < MAX_BLOCK_SIZE / 4

/-- **A round** fails, or it signs a transaction and compares the fees. -/
theorem CreateEnv.round_cases (hselect : env.SelectsRight) :
    (∃ nFeeRet, env.round P vecSend nValue wtxNew s = .inr ⟨none, nFeeRet⟩)
      ∨ ∃ setCoins nValueIn tx, env.Signs P vecSend nValue wtxNew s setCoins nValueIn tx
        ∧ env.round P vecSend nValue wtxNew s =
          if s.feeWith (nValueIn - nValue - s.nFeeRet) < env.requiredFee tx then
            .inl ⟨s.nRound + 1, env.requiredFee tx⟩
          else .inr ⟨some tx, s.feeWith (nValueIn - nValue - s.nFeeRet)⟩ := by
  unfold round
  cases hselected : env.selectCoins s.nRound (nValue + s.nFeeRet) wtxNew.nTime with
  | none => exact Or.inl ⟨_, rfl⟩
  | some selection =>
    obtain ⟨setCoins, nValueIn⟩ := selection
    have hchange : 0 ≤ nValueIn - nValue - s.nFeeRet := by
      have hreached := (hselect _ _ _ _ _ hselected).reached
      omega
    -- both ways to write the two values that the rules leave
    have hmove : moveToFee (nValueIn - nValue - s.nFeeRet) s.nFeeRet =
        (if nValueIn - nValue - s.nFeeRet < CENT then 0 else nValueIn - nValue - s.nFeeRet,
          s.feeWith (nValueIn - nValue - s.nFeeRet)) := by
      rw [moveToFee_eq hchange, FeeRound.feeWith]
      split_ifs
      · rfl
      · rw [add_zero]
    simp only [hmove]
    split
    · exact Or.inl ⟨_, rfl⟩
    · next tx hsigned =>
      by_cases hsize : MAX_BLOCK_SIZE / 4 ≤ tx.getSerializeSize
      · rw [if_pos hsize]
        exact Or.inl ⟨_, rfl⟩
      · rw [if_neg hsize]
        exact Or.inr ⟨setCoins, nValueIn, tx,
          ⟨hselected, hchange, signInputs_unsigned hsigned, not_le.mp hsize⟩, rfl⟩

/-! ### Termination -/

/-- The fee at the beginning of a round: first the option, and then what a number of bytes costs, which is
more in every round. -/
def FeeInv (env : CreateEnv) (s : FeeRound) : Prop :=
  (s.nRound = 0 ∧ s.nFeeRet = env.nTransactionFee) ∨
    ∃ k : ℕ, k < 250 ∧ 0 < s.nRound ∧ s.nRound ≤ k + 1 ∧ s.nFeeRet = (k + 1 : ℤ) * env.unitFee

/-- The loop begins with the fee of the user. -/
theorem FeeInv.start : FeeInv env ⟨0, env.nTransactionFee⟩ := Or.inl ⟨rfl, rfl⟩

/-- The fee stays below that of the largest transaction. -/
theorem FeeInv.fee_le (h : FeeInv env s) : s.nFeeRet ≤ 250 * env.unitFee := by
  have hunit := env.unitFee_pos
  rcases h with ⟨-, hfee⟩ | ⟨k, hk, -, -, hfee⟩
  · have hle : env.nTransactionFee ≤ env.unitFee := le_max_left _ _
    rw [hfee]
    omega
  · rw [hfee]
    exact mul_le_mul_of_nonneg_right (by omega) hunit.le

/-- **The fee of the next round** is larger. -/
theorem FeeInv.step (hselect : env.SelectsRight) (h : FeeInv env s)
    (hround : env.round P vecSend nValue wtxNew s = .inl s') :
    FeeInv env s' ∧ 250 - s'.nRound < 250 - s.nRound := by
  rcases CreateEnv.round_cases hselect with ⟨nFeeRet, hfail⟩ | ⟨setCoins, nValueIn, tx, hsigns, hcompare⟩
  · rw [hfail] at hround
    cases hround
  rw [hcompare] at hround
  split_ifs at hround with hless
  cases hround
  have hsize : tx.getSerializeSize < 250000 := hsigns.small
  have hunit := env.unitFee_pos
  have hgrow : s.nFeeRet < ((tx.getSerializeSize / 1000 : ℕ) + 1 : ℤ) * env.unitFee := by
    have hchange := hsigns.change
    rw [← CreateEnv.requiredFee_eq hsigns.small]
    refine lt_of_le_of_lt ?_ hless
    unfold FeeRound.feeWith
    split_ifs <;> omega
  -- more rounds than sizes are not possible
  have hround : s.nRound ≤ tx.getSerializeSize / 1000 := by
    rcases h with ⟨hzero, -⟩ | ⟨k, -, -, hle, hfee⟩
    · omega
    · rw [hfee] at hgrow
      have hlt := lt_of_mul_lt_mul_right hgrow hunit.le
      omega
  have hnext : FeeInv env ⟨s.nRound + 1, env.requiredFee tx⟩ := by
    refine Or.inr ⟨tx.getSerializeSize / 1000, by omega, Nat.succ_pos _, by simpa using hround, ?_⟩
    exact CreateEnv.requiredFee_eq hsigns.small
  refine ⟨hnext, ?_⟩
  show 250 - (s.nRound + 1) < 250 - s.nRound
  omega

/-! ### The accounts -/

/-- The payees are added up without an overflow. -/
theorem sumPayees_eq {acc : ℤ} (hacc : 0 ≤ acc) (hpos : ∀ s ∈ vecSend, 0 ≤ s.2)
    (hsum : acc + (vecSend.map Prod.snd).sum ≤ MAX_MONEY) :
    sumPayees vecSend acc = some (acc + (vecSend.map Prod.snd).sum) := by
  have hmax : MAX_MONEY = 2000000000000000 := rfl
  induction vecSend generalizing acc with
  | nil =>
    rw [sumPayees, List.map_nil, List.sum_nil, add_zero]
  | cons s vecSend ih =>
    have hs := hpos s List.mem_cons_self
    have hrest : ∀ s ∈ vecSend, 0 ≤ s.2 := fun s hs => hpos s (List.mem_cons_of_mem _ hs)
    -- the payees that are left sum up to something
    have hsumrest : 0 ≤ (vecSend.map Prod.snd).sum := by
      refine List.sum_nonneg ?_
      intro x hx
      obtain ⟨s, hs, rfl⟩ := List.mem_map.mp hx
      exact hrest s hs
    rw [List.map_cons, List.sum_cons, ← add_assoc] at hsum ⊢
    have hadd : addInt64 acc s.2 = acc + s.2 := by
      unfold addInt64
      exact Int.bmod_eq_of_le_mul_two (by omega) (by omega)
    rw [sumPayees, if_neg (not_lt.mpr hacc), hadd]
    exact ih (by omega) hrest hsum

/-- The outputs to the payees pay what was asked for. -/
theorem payeeOutputs_value : ((payeeOutputs vecSend).map CTxOut.nValue).sum = (vecSend.map Prod.snd).sum := by
  unfold payeeOutputs
  rw [List.map_map]
  rfl

/-- Change is worth what it is, wherever it is inserted. -/
theorem assemble_valueOut {nChange : ℤ} (hchange : 0 ≤ nChange) :
    (env.assemble P s.nRound vecSend setCoins nChange wtxNew).valueOut =
      (vecSend.map Prod.snd).sum + nChange := by
  unfold CreateEnv.assemble CTransaction.valueOut
  simp only
  split_ifs with hpos
  · have hle : getRandInt (env.nRand s.nRound) (payeeOutputs vecSend).length
        ≤ (payeeOutputs vecSend).length := by
      unfold getRandInt
      split_ifs with hzero
      · omega
      · exact (Nat.mod_lt _ (by omega)).le
    rw [((List.perm_insertIdx _ _ hle).map CTxOut.nValue).sum_eq, List.map_cons, List.sum_cons,
      payeeOutputs_value, add_comm]
  · have hzero : nChange = 0 := by omega
    rw [payeeOutputs_value, hzero, add_zero]

/-- The accounts of a transaction of `CreateTransaction`, with the coins it spends. -/
structure CreateEnv.Funded (P : Params) (env : CreateEnv) (vecSend : List (CScript × ℤ)) (nSpendTime : ℕ)
    (setCoins : List PCoin) (tx : CTransaction) (nFeeRet : ℤ) : Prop where
  /-- The coins are a selection of `SelectCoins`, and the inputs are theirs. -/
  selected : ∃ nRound nTargetValue nValueIn,
    env.selectCoins nRound nTargetValue nSpendTime = some (setCoins, nValueIn)
  inputs : tx.vin.map CTxIn.prevout = setCoins.map fun pcoin => (pcoin.txin P).prevout
  conserved : valueOf setCoins = tx.valueOut + nFeeRet
  /-- Each payee is there once; one more output is change. -/
  payees : tx.vout = payeeOutputs vecSend ∨ ∃ i change, i < vecSend.length ∧
    MIN_TXOUT_AMOUNT ≤ change.nValue ∧ tx.vout = (payeeOutputs vecSend).insertIdx i change
  payFee : env.nTransactionFee * (1 + (tx.getSerializeSize : ℤ) / 1000) ≤ nFeeRet
  minFee : tx.getMinFee 1 false .GMF_SEND ≤ nFeeRet
  small : tx.getSerializeSize < MAX_BLOCK_SIZE / 4

/-- What is signed in a round, with a fee that is enough, is funded. -/
theorem CreateEnv.Signs.funded (hselect : env.SelectsRight) (hne : vecSend ≠ [])
    (hvalue : nValue = (vecSend.map Prod.snd).sum)
    (h : env.Signs P vecSend nValue wtxNew s setCoins nValueIn tx)
    (hfee : env.requiredFee tx ≤ s.feeWith (nValueIn - nValue - s.nFeeRet)) :
    env.Funded P vecSend wtxNew.nTime setCoins tx (s.feeWith (nValueIn - nValue - s.nFeeRet)) := by
  have hchange := h.change
  have htotal := (hselect _ _ _ _ _ h.selected).total
  -- change below a cent goes to the fee
  set nChange := if nValueIn - nValue - s.nFeeRet < CENT then 0 else nValueIn - nValue - s.nFeeRet with hdef
  have hpos : 0 ≤ nChange := by
    rw [hdef]
    split_ifs <;> omega
  have hvout : tx.vout = (env.assemble P s.nRound vecSend setCoins nChange wtxNew).vout :=
    by
    have hunsigned := congrArg CTransaction.vout h.unsigned
    exact hunsigned
  refine ⟨⟨_, _, _, h.selected⟩, ?_, ?_, ?_, (le_max_left _ _).trans hfee, (le_max_right _ _).trans hfee,
    h.small⟩
  · -- the inputs are the coins
    rw [← unsigned_prevouts, h.unsigned, unsigned_prevouts]
    show (setCoins.map (PCoin.txin P)).map CTxIn.prevout = _
    rw [List.map_map]
    rfl
  · -- what comes in is what goes out and the fee of the round
    have hout : tx.valueOut = (vecSend.map Prod.snd).sum + nChange := by
      unfold CTransaction.valueOut
      rw [hvout]
      exact assemble_valueOut hpos
    rw [← htotal, hout, ← hvalue, FeeRound.feeWith, hdef]
    split_ifs <;> ring
  · rw [hvout]
    unfold CreateEnv.assemble
    simp only
    split_ifs with hsome
    · -- the change is put at a random place among the payees
      refine Or.inr ⟨getRandInt (env.nRand s.nRound) (payeeOutputs vecSend).length,
        ⟨nChange, env.scriptChange P s.nRound setCoins⟩, ?_, ?_, rfl⟩
      · have hlength : (payeeOutputs vecSend).length = vecSend.length := List.length_map _
        have hlt : 0 < vecSend.length := List.length_pos_iff.mpr hne
        rw [hlength]
        unfold getRandInt
        rw [if_neg hlt.ne']
        exact Nat.mod_lt _ hlt
      · show CENT ≤ nChange
        rw [hdef] at hsome ⊢
        split_ifs at hsome ⊢ with hless
        · exact absurd hsome (lt_irrefl 0)
        · exact not_lt.mp hless
    · -- no change
      exact Or.inl rfl

/-- The loop of `CreateTransaction` ends, and when the answer is `true` the transaction is funded. -/
theorem createTransaction_funded (P : Params) (env : CreateEnv) (hselect : env.SelectsRight)
    (vecSend : List (CScript × ℤ)) (hpos : ∀ s ∈ vecSend, 0 ≤ s.2)
    (hsum : moneyRange (vecSend.map Prod.snd).sum = true) (wtxNew : CTransaction) (nFeeRet : ℤ) :
    ∃ r : CreateResult, (∀ fuel, 250 < fuel → createTransaction P env vecSend wtxNew nFeeRet fuel = some r) ∧
      ∀ tx, r.wtxNew = some tx → ∃ setCoins, env.Funded P vecSend wtxNew.nTime setCoins tx r.nFeeRet := by
  have hpayees := sumPayees_eq le_rfl hpos (by rw [zero_add]; exact (moneyRange_iff.mp hsum).2)
  rw [zero_add] at hpayees
  unfold createTransaction
  rw [hpayees]
  simp only
  split_ifs with hempty
  · exact ⟨⟨none, nFeeRet⟩, fun _ _ => rfl, by simp⟩
  -- from here on there is a payee
  have hne : vecSend ≠ [] := by
    rintro rfl
    exact hempty rfl
  have hstep : ∀ s s', FeeInv env s → env.round P vecSend (vecSend.map Prod.snd).sum wtxNew s = .inl s' →
      FeeInv env s' ∧ 250 - s'.nRound < 250 - s.nRound := fun _ _ hinv hround => hinv.step hselect hround
  obtain ⟨r, hr⟩ := loop_terminates hstep FeeInv.start
  refine ⟨r, hr, ?_⟩
  -- the answer comes from the last round
  intro tx htx
  obtain ⟨last, -, hlast⟩ := loop_last (hr 251 (Nat.lt_succ_self 250))
  rcases CreateEnv.round_cases hselect with ⟨nFeeRet', hfail⟩ | ⟨setCoins, nValueIn, tx', hsigns, hcompare⟩
  · rw [hfail] at hlast
    cases hlast
    cases htx
  · rw [hcompare] at hlast
    split_ifs at hlast with hless
    cases hlast
    cases htx
    exact ⟨setCoins, hsigns.funded hselect hne rfl (not_lt.mp hless)⟩

end Round

namespace SendSample

/-- The hash of a transaction is its time. -/
def params : Params where
  fTestNet := false
  hashTx tx := tx.nTime
  hashHeader _ _ _ nTime _ _ := nTime
  hashPair a b := a + b
  hash160 _ := List.replicate 20 0
  hash160_length := length_zeroHash160
  verifyKey _ _ _ := true
  verifyScript _ _ _ _ _ := true

/-- An address script. -/
def script (a b : UInt8) : CScript :=
  [OP_DUP, OP_HASH160, 20, a, b] ++ List.replicate 18 0 ++ [OP_EQUALVERIFY, OP_CHECKSIG]

def coin (nValue : ℤ) : PCoin where
  first := { nTime := 1600000000, vin := [⟨⟨7, 0⟩, [], UINT_MAX⟩], vout := [⟨nValue, script 0 0⟩] }
  second := 0

/-- A wallet with one coin, and signatures of 107 bytes. -/
def env (nTransactionFee nValue : ℤ) : CreateEnv where
  nTransactionFee := nTransactionFee
  fAvatar := true
  getReservedKey _ := [2]
  selectCoins _ nTargetValue _ := if nTargetValue ≤ nValue then some ([coin nValue], nValue) else none
  nRand _ := 0
  signSignature _ _ _ _ := some (List.replicate 107 0)

/-- The sample selection. -/
theorem selectsRight (nTransactionFee nValue : ℤ) : (env nTransactionFee nValue).SelectsRight := by
  intro nRound nTargetValue nSpendTime setCoins nValueIn h
  unfold env at h
  simp only at h
  split_ifs at h with hle
  cases h
  exact ⟨List.nodup_singleton _, by simp [coin, PCoin.txout?], by simp [valueOf, coin, PCoin.nValue, PCoin.txout?],
    hle⟩

/-- `wtxNew` before the call. -/
def wtxNew : CTransaction where
  nTime := 1600100000
  vin := []
  vout := []

/-- One coin of the five is paid, and the rest is change. -/
def sent : CTransaction where
  nTime := 1600100000
  vin := [⟨⟨1600000000, 0⟩, List.replicate 107 0, UINT_MAX⟩]
  vout := [⟨4 * COIN - CENT, script 0 0⟩, ⟨COIN, script 1 0⟩]

end SendSample

open SendSample in
/-- A payment out of a coin of five. -/
theorem createTransaction_funded_sample :
    ∃ setCoins, (env CENT (5 * COIN)).Funded params [(script 1 0, COIN)] 1600100000 setCoins sent CENT := by
  obtain ⟨r, hr, hfunded⟩ := createTransaction_funded params (env CENT (5 * COIN)) (selectsRight _ _)
    [(script 1 0, COIN)] (by decide) (by decide) wtxNew 0
  have hrun : createTransaction params (env CENT (5 * COIN)) [(script 1 0, COIN)] wtxNew 0 251
      = some ⟨some sent, CENT⟩ := by decide +kernel
  obtain rfl := Option.some.inj (hrun.symm.trans (hr 251 (by decide)))
  exact hfunded sent rfl

end Peershares
