import Mathlib.Tactic.Linarith
import Peershares.Model.TransactionTable
import Peershares.Wallet.Balance

/-!
# What the records of a transaction add up to

A transaction that the table shows should change the balance by what its records add up to. Payments to oneself and
mixed transactions are one record that says so. The others are shown output by output: a credit leaves out what was
debited, a coinstake counts outputs of others, and a payment has no record for a fee below zero.

* `TransactionRecord.total` — what is added up
* `TransactionRecord.Conserved`, `TransactionRecord.ConservedFresh` — when it is right
* `TransactionRecord.decompose_conserves_iff` — the records are right exactly then
-/

open Framework

namespace Peershares

namespace TransactionRecord

variable {P : Params} {hash : List UInt8 → List UInt8} {wallet : TableWallet P} {wtx : CachedTx}

/-- What the user sees as the sum of the records. -/
def total (records : List TransactionRecord) : ℤ := (records.map fun rec => rec.credit + rec.debit).sum

/-- One more record. -/
theorem total_cons (rec : TransactionRecord) (records : List TransactionRecord) :
    total (rec :: records) = rec.credit + rec.debit + total records := by
  simp [total]

/-- What the outputs of others are worth. -/
def paidOut (wallet : TableWallet P) (vout : List CTxOut) : ℤ :=
  (vout.map fun txout => if wallet.isMine P txout then 0 else txout.nValue).sum

/-- The outputs are received or paid out. -/
theorem valueOut_eq (wallet : TableWallet P) (tx : CTransaction) :
    tx.valueOut = wallet.receives P tx + paidOut wallet tx.vout := by
  unfold CTransaction.valueOut AccountWallet.receives paidOut
  induction tx.vout with
  | nil => rfl
  | cons txout vout ih =>
    simp only [List.map_cons, List.sum_cons, ih, AccountWallet.ownOut]
    split_ifs <;> ring

/-! ### The records of the outputs -/

variable (hash wallet wtx) in

/-- A record of what was received. -/
theorem creditRecord_amounts (txout : CTxOut) (idx : ℕ) :
    (creditRecord hash wallet wtx txout idx).credit = txout.nValue ∧
      (creditRecord hash wallet wtx txout idx).debit = 0 := by
  unfold creditRecord
  dsimp only
  split_ifs
  · exact ⟨rfl, rfl⟩
  · split
    · split_ifs
      · exact ⟨rfl, rfl⟩
      · exact ⟨rfl, rfl⟩
    · exact ⟨rfl, rfl⟩

variable (hash wallet wtx) in

/-- A record of what was sent. -/
theorem debitRecord_amounts (txout : CTxOut) (nValue : ℤ) (idx : ℕ) :
    (debitRecord hash wallet wtx txout nValue idx).credit = 0 ∧
      (debitRecord hash wallet wtx txout nValue idx).debit = -nValue := by
  unfold debitRecord
  dsimp only
  split
  · exact ⟨rfl, rfl⟩
  · exact ⟨rfl, rfl⟩

/-- A credit is what the own outputs are worth. -/
theorem total_creditRecords (vout : List CTxOut) (idx : ℕ) :
    total (creditRecords hash wallet wtx vout idx) = (vout.map (wallet.ownOut P)).sum := by
  induction vout generalizing idx with
  | nil => rfl
  | cons txout vout ih =>
    rw [creditRecords, List.map_cons, List.sum_cons, AccountWallet.ownOut]
    split_ifs with hmine
    · obtain ⟨hcredit, hdebit⟩ := creditRecord_amounts hash wallet wtx txout idx
      rw [total_cons, hcredit, hdebit, ih, add_zero]
    · rw [ih, zero_add]

/-- A payment is what the outputs of others are worth, with the fee, if there is one and an output to add it to. -/
theorem total_debitRecords (vout : List CTxOut) (idx : ℕ) (nTxFee : ℤ) :
    total (debitRecords hash wallet wtx vout idx nTxFee) =
      -paidOut wallet vout - if vout.all (wallet.isMine P) then 0 else max 0 nTxFee := by
  induction vout generalizing idx nTxFee with
  | nil => rfl
  | cons txout vout ih =>
    rw [debitRecords, paidOut, List.map_cons, List.sum_cons, List.all_cons]
    cases hmine : wallet.isMine P txout with
    | true =>
      rw [if_pos rfl, if_pos rfl, ih, zero_add, Bool.true_and]
      rfl
    | false =>
      rw [if_neg Bool.false_ne_true, if_neg Bool.false_ne_true, Bool.false_and, if_neg Bool.false_ne_true]
      by_cases hfee : 0 < nTxFee
      · obtain ⟨hcredit, hdebit⟩ := debitRecord_amounts hash wallet wtx txout (txout.nValue + nTxFee) idx
        rw [if_pos hfee, total_cons, hcredit, hdebit, ih, max_eq_left (le_refl 0), ite_self, max_eq_right hfee.le]
        unfold paidOut
        ring
      · obtain ⟨hcredit, hdebit⟩ := debitRecord_amounts hash wallet wtx txout txout.nValue idx
        rw [if_neg hfee, total_cons, hcredit, hdebit, ih, max_eq_left (not_lt.mp hfee), ite_self]
        unfold paidOut
        ring

/-! ### When the sum is right -/

/-- The records add up to the net amount: a coinstake when all its outputs are in the credit, a credit when the own
outputs are the net amount, and a payment when its outputs and its fee are what was debited and not returned. -/
def Conserved (wallet : TableWallet P) (wtx : CachedTx) (nCredit nDebit : ℤ) : Prop :=
  if wtx.tx.isCoinStake then wtx.tx.valueOut = nCredit
  else if 0 < nCredit - nDebit ∨ wtx.tx.isCoinBase then wallet.receives P wtx.tx = nCredit - nDebit
  else if wtx.tx.vin.all (isMineIn wallet) = true ∧ wtx.tx.vout.all (wallet.isMine P) = false then
    paidOut wallet wtx.tx.vout + max 0 (nDebit - wtx.tx.valueOut) = nDebit - nCredit
  else True

/-- The same when the credit is that of the own outputs: a coinstake pays nothing to others, nothing is debited in a
credit, and a payment has no fee below zero. -/
def ConservedFresh (wallet : TableWallet P) (wtx : CachedTx) (nDebit : ℤ) : Prop :=
  if wtx.tx.isCoinStake then paidOut wallet wtx.tx.vout = 0
  else if 0 < wallet.receives P wtx.tx - nDebit ∨ wtx.tx.isCoinBase then nDebit = 0
  else if wtx.tx.vin.all (isMineIn wallet) = true ∧ wtx.tx.vout.all (wallet.isMine P) = false then
    wtx.tx.valueOut ≤ nDebit
  else True

/-- With the credit as it is, the condition is about the debit. -/
theorem conserved_iff_fresh {nCredit nDebit : ℤ} (hcredit : nCredit = wallet.receives P wtx.tx) :
    Conserved wallet wtx nCredit nDebit ↔ ConservedFresh wallet wtx nDebit := by
  have hvalue := valueOut_eq wallet wtx.tx
  unfold Conserved ConservedFresh
  rw [hcredit]
  split_ifs with hstake hnet hsend
  · rw [hvalue]
    constructor <;> intro h <;> linarith
  · constructor <;> intro h <;> linarith
  · rw [hvalue]
    constructor
    · intro h
      by_contra hfee
      rw [max_eq_left (by linarith)] at h
      linarith
    · intro h
      rw [max_eq_right (by linarith)]
      ring
  · exact Iff.rfl

/-- The records add up exactly under the condition. -/
theorem shownRecords_total {nCredit nDebit : ℤ} {records : List TransactionRecord}
    (h : shownRecords hash wallet wtx nCredit nDebit = .ok records) :
    total records = nCredit - nDebit ↔ Conserved wallet wtx nCredit nDebit := by
  unfold shownRecords at h
  unfold Conserved
  dsimp only at h
  by_cases hstake : wtx.tx.isCoinStake = true
  · -- a coinstake has one record, of its mint
    rw [if_pos hstake] at h ⊢
    obtain ⟨nValueOut, hvalue, h⟩ := Result.bind_eq_ok.mp h
    obtain rfl := Except.ok.inj h
    rw [total_cons, CTransaction.getValueOut_eq_ok hvalue]
    change wtx.tx.valueOut + -nDebit + 0 = nCredit - nDebit ↔ _
    constructor <;> intro h <;> linarith
  rw [if_neg hstake] at h ⊢
  by_cases hnet : 0 < nCredit - nDebit ∨ wtx.tx.isCoinBase = true
  · -- one record for each credit
    rw [if_pos hnet] at h ⊢
    obtain rfl := Except.ok.inj h
    rw [total_creditRecords]
    exact Iff.rfl
  rw [if_neg hnet] at h ⊢
  cases hfrom : wtx.tx.vin.all (isMineIn wallet) with
  | false =>
    -- mixed
    rw [if_neg (by simp [hfrom]), if_neg (by simp [hfrom])] at h
    obtain rfl := Except.ok.inj h
    rw [if_neg (by simp), total_cons]
    change 0 + (nCredit - nDebit) + 0 = nCredit - nDebit ↔ True
    simp
  | true =>
    cases hto : wtx.tx.vout.all (wallet.isMine P) with
    | true =>
      -- a payment to oneself
      rw [if_pos ⟨hfrom, hto⟩] at h
      obtain ⟨nChange, -, h⟩ := Result.bind_eq_ok.mp h
      obtain rfl := Except.ok.inj h
      rw [if_neg (by simp), total_cons]
      change nCredit - nChange + -(nDebit - nChange) + 0 = nCredit - nDebit ↔ True
      simp
    | false =>
      -- a payment to others, with the fee in its first record
      rw [if_neg (by simp [hto]), if_pos hfrom] at h
      obtain ⟨nValueOut, hvalue, h⟩ := Result.bind_eq_ok.mp h
      obtain rfl := Except.ok.inj h
      rw [if_pos ⟨rfl, rfl⟩, total_debitRecords, hto, if_neg Bool.false_ne_true, CTransaction.getValueOut_eq_ok hvalue]
      constructor <;> intro h <;> linarith

/-! ### The credit of the own outputs -/

/-- A sum that passes its checks is the sum. -/
theorem sumInRange_eq {α : Type} {what : String} {amount : α → Result ℤ} {f : α → ℤ} {l : List α} {n v : ℤ}
    (hamount : ∀ a v, amount a = .ok v → v = f a) (h : sumInRange what amount l n = .ok v) : v = n + (l.map f).sum := by
  induction l generalizing n with
  | nil =>
    obtain rfl := Except.ok.inj h
    simp
  | cons a l ih =>
    obtain ⟨u, hu, h⟩ := Result.bind_eq_ok.mp h
    split_ifs at h with hrange
    rw [ih h, hamount a u hu, List.map_cons, List.sum_cons]
    ring

/-- `GetCredit` is what was received. -/
theorem receives_of_getCreditTx {v : ℤ} (h : wallet.getCreditTx P wtx.tx = .ok v) : v = wallet.receives P wtx.tx := by
  refine (sumInRange_eq (f := wallet.ownOut P) ?_ h).trans (zero_add _)
  intro txout v hv
  unfold CacheWallet.getCreditOut at hv
  split_ifs at hv with hrange hmine
  · rw [AccountWallet.ownOut, if_pos hmine]
    exact (Except.ok.inj hv).symm
  · rw [AccountWallet.ownOut, if_neg hmine]
    exact (Except.ok.inj hv).symm

/-- A mature transaction whose cache, if it is set, is right has the credit of its own outputs. -/
theorem receives_of_getCredit {n nCredit : ℤ} (hmature : wtx.isImmature n = false)
    (hcache : ∀ v ∈ wtx.nCreditCached, wallet.getCreditTx P wtx.tx = .ok v)
    (h : (wtx.getCredit P wallet.toCacheWallet true n).1 = .ok nCredit) : nCredit = wallet.receives P wtx.tx := by
  refine receives_of_getCreditTx ?_
  unfold CachedTx.getCredit at h
  rw [hmature, if_neg Bool.false_ne_true] at h
  unfold CachedTx.cached at h
  cases hcached : wtx.nCreditCached with
  | some v =>
    rw [hcached, if_pos rfl] at h
    obtain rfl := Except.ok.inj h
    exact hcache v hcached
  | none =>
    rw [hcached, if_pos rfl] at h
    cases hcredit : wallet.getCreditTx P wtx.tx with
    | ok v =>
      rw [hcredit] at h
      exact h
    | error e =>
      rw [hcredit] at h
      exact h

/-- **The records of a transaction that is shown** add up to its net amount exactly when `Conserved` says so. When it is
mature and its cached credit, if there is one, is right, that is `ConservedFresh`. -/
theorem decompose_conserves_iff {chain : ChainView} {records : List TransactionRecord} {nCredit nDebit : ℤ}
    (hshown : showTransaction chain wtx = true)
    (hcredit : (wtx.getCredit P wallet.toCacheWallet true (chain.blocksToMaturity P wtx)).1 = .ok nCredit)
    (hdebit : (wtx.getDebit P wallet.toCacheWallet).1 = .ok nDebit)
    (hrecords : decomposeTransaction hash wallet chain wtx = .ok records) :
    (total records = nCredit - nDebit ↔ Conserved wallet wtx nCredit nDebit) ∧
      (wtx.isImmature (chain.blocksToMaturity P wtx) = false →
        (∀ v ∈ wtx.nCreditCached, wallet.getCreditTx P wtx.tx = .ok v) →
          (Conserved wallet wtx nCredit nDebit ↔ ConservedFresh wallet wtx nDebit)) := by
  constructor
  · unfold decomposeTransaction at hrecords
    rw [hcredit, hdebit] at hrecords
    simp only [Result.bind_eq_ok] at hrecords
    obtain ⟨_, hc, _, hd, hshownRecords⟩ := hrecords
    obtain rfl := Except.ok.inj hc
    obtain rfl := Except.ok.inj hd
    rw [if_pos hshown] at hshownRecords
    exact shownRecords_total hshownRecords
  · intro hmature hcache
    exact conserved_iff_fresh (receives_of_getCredit hmature hcache hcredit)

end TransactionRecord

namespace Sample

/-- The wallet with the parent and one more transaction, as the table reads it. -/
def tableWallet (tx : CTransaction) : TableWallet params where
  toAccountWallet := spendWallet tx
  keyed := by
    intro hash wtx hl
    unfold spendWallet at hl
    dsimp only at hl
    rw [Map.lookup_insert_eq, Map.lookup_insert_eq] at hl
    split_ifs at hl with htx hparent
    · obtain rfl := Option.some.inj hl
      exact htx.symm
    · obtain rfl := Option.some.inj hl
      exact hparent.symm
    · exact absurd hl (by simp)

/-- The parent and another one pay three coins to the wallet. -/
def jointTx : CTransaction where
  nTime := 1400000002
  vin := [⟨⟨params.hashTx parentTx, 0⟩, [], UINT_MAX⟩, ⟨⟨6, 0⟩, [], UINT_MAX⟩]
  vout := [⟨3000000, keyScript⟩]

end Sample

open Sample TransactionRecord in

/-- An ordinary spend. -/
theorem decompose_conserves_child : ∃ records,
    decomposeTransaction id (tableWallet childTx) deepChain { tx := childTx } = .ok records ∧
      total records = 990000 - 1000000 :=
  ⟨_, rfl, (@decompose_conserves_iff params id (tableWallet childTx) { tx := childTx } deepChain _ 990000 1000000
    (by decide) (by decide) (by decide) rfl).1.mpr
    (by unfold Conserved; decide)⟩

open Sample TransactionRecord in
/-- The record of the joint payment says three coins, of which one was debited. -/
theorem joint_not_conserved : ¬ ∀ (P : Params) (hash : List UInt8 → List UInt8) (wallet : TableWallet P)
    (chain : ChainView) (wtx : CachedTx) (records : List TransactionRecord) (nCredit nDebit : ℤ),
    showTransaction chain wtx = true → wtx.isImmature (chain.blocksToMaturity P wtx) = false →
    (wtx.getCredit P wallet.toCacheWallet true (chain.blocksToMaturity P wtx)).1 = .ok nCredit →
    (wtx.getDebit P wallet.toCacheWallet).1 = .ok nDebit →
    decomposeTransaction hash wallet chain wtx = .ok records → total records = nCredit - nDebit := by
  intro h
  have heq := h params id (tableWallet jointTx) deepChain { tx := jointTx } _ 3000000 1000000 (by decide) (by decide)
    (by decide) (by decide) rfl
  exact absurd heq (by decide)

end Peershares
