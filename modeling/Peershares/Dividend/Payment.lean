import Peershares.Model.Dividend

/-!
# Paying a dividend

`SendDistribution` compares the sum of the dividends with the balance of the account and then sends
one transaction after the other. Each of them costs a fee as well, which the comparison leaves out.

* `sum_total_dealOut` — splitting a distribution loses no amount
* `runs_sendmany_forList_iff` — a row of payments goes through exactly when the balance covers all of it
* `sendDistribution_complete_iff` — when a dividend is paid completely
* `sendDistribution_partial` — a dividend that is paid to some holders only
-/

open Framework Framework.Command

namespace Peershares

variable {D : Type} (W : PeercoinWallet D)

/-! ### Splitting -/

/-- The amount that a distribution gives out. -/
def PeercoinWallet.dividends (vDistribution : List (Distribution D)) : Nat :=
  (vDistribution.map (fun distribution => W.amount distribution.dDividendAmount)).sum

/-- An output goes to one transaction. -/
theorem sum_total_modify {outs : List (Outputs D)} {i : ℕ} (hi : i < outs.length)
    (o : CBase58Data × D) :
    ((outs.modify i (· ++ [o])).map W.total).sum = (outs.map W.total).sum + W.amount o.2 := by
  induction outs generalizing i with
  | nil => exact absurd hi (by simp)
  | cons out outs ih =>
    cases i with
    | zero =>
      simp only [List.modify_zero_cons, List.map_cons, List.sum_cons, PeercoinWallet.total,
        List.map_append, List.sum_append, List.map_nil, List.sum_nil]
      omega
    | succ i =>
      simp only [List.modify_succ_cons, List.map_cons, List.sum_cons]
      rw [ih (Nat.lt_of_succ_lt_succ hi)]
      omega

/-- The transactions have the amounts of the distribution, whatever the split. -/
theorem sum_total_dealOut {nTransactions : ℕ} {vDistribution : List (Distribution D)} {i : ℕ}
    {outs : List (Outputs D)} (hlen : outs.length = nTransactions) (hi : i < nTransactions) :
    ((DividendDistributor.dealOut nTransactions vDistribution i outs).map W.total).sum =
      (outs.map W.total).sum + W.dividends vDistribution := by
  induction vDistribution generalizing i outs with
  | nil => simp [DividendDistributor.dealOut, PeercoinWallet.dividends]
  | cons distribution vDistribution ih =>
    have hnext : (i + 1) % nTransactions < nTransactions := Nat.mod_lt _ (by omega)
    rw [DividendDistributor.dealOut, ih (by rw [List.length_modify, hlen]) hnext,
      sum_total_modify W (by omega)]
    simp only [PeercoinWallet.dividends, List.map_cons, List.sum_cons]
    omega

theorem length_dealOut {nTransactions : ℕ} {vDistribution : List (Distribution D)} {i : ℕ}
    {outs : List (Outputs D)} :
    (DividendDistributor.dealOut nTransactions vDistribution i outs).length = outs.length := by
  induction vDistribution generalizing i outs with
  | nil => rfl
  | cons distribution vDistribution ih => rw [DividendDistributor.dealOut, ih, List.length_modify]

/-- A distribution is split into at least one transaction, and the amounts stay. -/
theorem split_eq_ok {nMax : Int} {d : DividendDistributor D} {vOutputs : List (Outputs D)}
    (h : d.split nMax = .ok vOutputs) :
    vOutputs ≠ [] ∧ (vOutputs.map W.total).sum = W.dividends d.vDistribution := by
  obtain ⟨nTransactions, -, hgen⟩ := Result.bind_eq_ok.mp h
  unfold DividendDistributor.generateOutputs at hgen
  split_ifs at hgen with hpos hempty hmany
  cases hgen
  have hlt : 0 < nTransactions.toNat := by omega
  have hzero : ((List.replicate nTransactions.toNat ([] : Outputs D)).map W.total).sum = 0 := by
    simp [PeercoinWallet.total]
  constructor
  · rw [← List.length_pos_iff, length_dealOut, List.length_replicate]
    exact hlt
  · rw [sum_total_dealOut W List.length_replicate hlt, hzero, zero_add]

/-! ### Sending -/

/-- A payment goes through when the balance covers the amounts and the fee. -/
theorem runs_sendmany_iff {output : Outputs D} {account account' : PeercoinAccount D} :
    Runs (W.sendmany output) account account' ↔
      (W.total output + W.fee output : Int) ≤ account.nBalance ∧
        account' = { nBalance := account.nBalance - (W.total output + W.fee output)
                     vSent := account.vSent ++ [output] } := by
  unfold Runs PeercoinWallet.sendmany
  split_ifs with hcovers
  · simp [hcovers, eq_comm]
  · simp [hcovers]

/-- **A row of payments** goes through exactly when the balance covers the amounts and the fees of
all of them. Amounts and fees are not negative, so no payment can make room for a later one. -/
theorem runs_sendmany_forList_iff {vOutputs : List (Outputs D)} {account : PeercoinAccount D}
    (hne : vOutputs ≠ [] ∨ 0 ≤ account.nBalance) :
    (∃ account', Runs (forList W.sendmany vOutputs) account account') ↔
      ((vOutputs.map W.total).sum + (vOutputs.map W.fee).sum : Int) ≤ account.nBalance := by
  induction vOutputs generalizing account with
  | nil =>
    constructor
    · intro _
      simpa using hne
    · intro _
      exact ⟨account, rfl⟩
  | cons output vOutputs ih =>
    simp only [List.map_cons, List.sum_cons, Nat.cast_add, runs_forList_cons, runs_sendmany_iff]
    constructor
    · rintro ⟨account', _, ⟨hcovers, rfl⟩, hrest⟩
      have hrest := (ih (Or.inr (by simp only; omega))).mp ⟨account', hrest⟩
      simp only at hrest
      omega
    · intro hsum
      have hcovers : (W.total output + W.fee output : Int) ≤ account.nBalance := by omega
      obtain ⟨account', hrest⟩ : ∃ account', forList W.sendmany vOutputs
          ⟨account.nBalance - (W.total output + W.fee output), account.vSent ++ [output]⟩ =
            (.ok (), account') :=
        (ih (Or.inr (by simp only; omega))).mpr (by simp only; omega)
      exact ⟨account', _, ⟨hcovers, rfl⟩, hrest⟩

/-- What has been sent when a row of payments goes through. -/
theorem vSent_of_forList {vOutputs : List (Outputs D)} {account account' : PeercoinAccount D}
    (h : forList W.sendmany vOutputs account = (.ok (), account')) :
    account'.vSent = account.vSent ++ vOutputs := by
  induction vOutputs generalizing account with
  | nil =>
    cases h
    simp
  | cons output vOutputs ih =>
    obtain ⟨account₁, hsend, hrest⟩ := runs_forList_cons.mp h
    obtain ⟨-, rfl⟩ := (runs_sendmany_iff W).mp hsend
    rw [ih hrest]
    simp

/-! ### The whole dividend -/

variable [Double D]

/-- A dividend is paid completely: once the check has passed and the distribution is split, every
`sendmany` call succeeds, and all transactions have been sent. -/
def PaidCompletely (nMax : Int) (d : DividendDistributor D) (account : PeercoinAccount D) : Prop :=
  W.covers d account = true → ∀ vOutputs, d.split nMax = .ok vOutputs →
    ∃ account', sendDistribution W nMax d account = (.ok (), account') ∧
      account'.vSent = account.vSent ++ vOutputs

/-- A distribution that is checked and split is sent. -/
theorem sendDistribution_eq {nMax : Int} {d : DividendDistributor D} {account : PeercoinAccount D}
    {vOutputs : List (Outputs D)} (hcovers : W.covers d account = true)
    (hsplit : d.split nMax = .ok vOutputs) :
    sendDistribution W nMax d account = forList W.sendmany vOutputs account := by
  change (if !W.covers d account then fail _ else
    (lift (d.split nMax) >>= fun vOutputs => forList W.sendmany vOutputs)) account = _
  rw [hcovers, hsplit]
  rfl

/-- **When a dividend is paid completely**: the check refuses it, it cannot be split, or the balance
covers the dividends and the fees of all transactions. -/
theorem sendDistribution_complete_iff (nMax : Int) (d : DividendDistributor D)
    (account : PeercoinAccount D) :
    PaidCompletely W nMax d account ↔
      (W.covers d account = true → ∀ vOutputs, d.split nMax = .ok vOutputs →
        (W.dividends d.vDistribution + (vOutputs.map W.fee).sum : Int) ≤ account.nBalance) := by
  unfold PaidCompletely
  refine forall_congr' (fun hcovers => forall_congr' (fun vOutputs => forall_congr' (fun hsplit => ?_)))
  obtain ⟨hne, hsum⟩ := split_eq_ok W hsplit
  rw [sendDistribution_eq W hcovers hsplit, ← hsum, ← runs_sendmany_forList_iff W (Or.inl hne)]
  constructor
  · rintro ⟨account', hrun, -⟩
    exact ⟨account', hrun⟩
  · rintro ⟨account', hrun⟩
    exact ⟨account', hrun, vSent_of_forList W hrun⟩

namespace Sample

/-- A wallet that takes a fee of 0.01 for a transaction. -/
def wallet : PeercoinWallet ℚ where
  report nBalance := nBalance / 1000000
  amount dAmount := (dAmount * 1000000).floor.toNat
  fee _ := 10000

/-- Three holders, ten peercoins for each of them. -/
def dividend : DividendDistributor ℚ where
  vDistribution := [1, 2, 3].map (fun n =>
    ⟨⟨63, List.replicate 20 n⟩, 1, ⟨55, List.replicate 20 n⟩, 10⟩)
  dTotalDistributed := 30

/-- 30.01 peercoins. -/
def account : PeercoinAccount ℚ := { nBalance := 30010000 }

end Sample

/-- A dividend that is not paid completely: the check passes and the first transaction, to two of the
holders, is sent; the balance does not cover the fee of the second one. -/
theorem sendDistribution_partial :
    (sendDistribution Sample.wallet 2 Sample.dividend Sample.account).2.vSent.length = 1 ∧
    ¬ ∀ (W : PeercoinWallet ℚ) (nMax : Int) (d : DividendDistributor ℚ)
      (account : PeercoinAccount ℚ), PaidCompletely W nMax d account := by
  have hcovers : Sample.wallet.covers Sample.dividend Sample.account = true := by decide +kernel
  have hfails : (sendDistribution Sample.wallet 2 Sample.dividend Sample.account).1.toOption = none := by
    decide +kernel
  have hsome : (Sample.dividend.split 2).toOption.isSome = true := by decide
  refine ⟨by decide +kernel, fun h => ?_⟩
  obtain ⟨vOutputs, hsplit⟩ := Option.isSome_iff_exists.mp hsome
  obtain ⟨account', hrun, -⟩ := h Sample.wallet 2 Sample.dividend Sample.account hcovers _
    (Result.eq_ok_of_toOption hsplit)
  rw [hrun] at hfails
  exact absurd hfails (by simp [Except.toOption])

end Peershares
