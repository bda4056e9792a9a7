import Peershares.Wallet.Balance

/-!
# The accounts of a wallet

`listaccounts` and `GetAccountBalance` add up the same transactions, but not all of them: the first one has no
test of `IsFinal`, and it counts what was generated only from the depth that is asked for.

Both loops are computed first. `listaccounts` keeps a map of running sums, one for each account, and
`GetAccountBalance` keeps a single one; both wrap around at 64 bits, so what they return is the remainder of
an exact sum.

* `accounted`, `listed` — what one transaction adds to an account, in the one loop and in the other
* `Amounting.foldlM_accountBalanceStep`, `foldlM_listAccountsStep` — the loops return these sums, as long as
  no `GetAmounts` throws (`Amounting`)
* `bookedOn_eq` — the moves of the journal, which both add

What is left is the difference of two sums over one list, taken term by term: `surplus` is what `listaccounts`
has more than `GetAccountBalance` for one transaction, and `surplusAll` what its values have together more than
`getbalance "*"`.

* `listAccounts_agrees_iff` — the numbers agree exactly when the sums of these differences do not show at 64 bits
* `listAccounts_drops_generated` — a generated transaction that one of the two counts and the other does not
-/

open Framework

namespace Peershares

variable {P : Params} {chain : ChainView} {w : AccountWallet}

namespace AccountWallet

/-! ### What a transaction adds to an account -/

/-- What was received on an account. -/
def receivedOn (w : AccountWallet) (a : List UInt8) (amounts : Amounts) : ℤ :=
  ((amounts.listReceived.filter fun r => w.accountOf r.1 = a).map Prod.snd).sum

/-- What was sent and paid from an account. -/
def sentFrom (a : List UInt8) (amounts : Amounts) : ℤ :=
  if a = amounts.strSentAccount then (amounts.listSent.map Prod.snd).sum + amounts.nFee else 0

/-- What was generated, which goes to the default account. -/
def generatedOn (a : List UInt8) (amounts : Amounts) : ℤ := if a = [] then amounts.nGeneratedMature else 0

/-- What a transaction adds to an account in `GetAccountBalance`. -/
def accounted (chain : ChainView) (w : AccountWallet) (nMinDepth : ℤ) (a : List UInt8) (wtx : CachedTx)
    (amounts : Amounts) : ℤ :=
  (if nMinDepth ≤ chain.depth wtx then w.receivedOn a amounts else 0) + generatedOn a amounts -
    sentFrom a amounts

/-- What a transaction adds to an account in `listaccounts`. -/
def listed (chain : ChainView) (w : AccountWallet) (nMinDepth : ℤ) (a : List UInt8) (wtx : CachedTx)
    (amounts : Amounts) : ℤ :=
  (if nMinDepth ≤ chain.depth wtx then w.receivedOn a amounts + generatedOn a amounts else 0) -
    sentFrom a amounts

/-- What a transaction adds to all accounts in `listaccounts`. -/
def listedAll (chain : ChainView) (nMinDepth : ℤ) (wtx : CachedTx) (amounts : Amounts) : ℤ :=
  (if nMinDepth ≤ chain.depth wtx then (amounts.listReceived.map Prod.snd).sum + amounts.nGeneratedMature
    else 0) - ((amounts.listSent.map Prod.snd).sum + amounts.nFee)

/-- `GetAccountAmounts` of one transaction adds what counts for the account, in `int64` arithmetic. -/
theorem addAccountAmounts_bmod (nMinDepth : ℤ) (a : List UInt8) (wtx : CachedTx) (amounts : Amounts) (n : ℤ) :
    w.addAccountAmounts chain a nMinDepth wtx amounts (n.bmod (2 ^ 64)) =
      (n + accounted chain w nMinDepth a wtx amounts).bmod (2 ^ 64) := by
  have hreceived : (amounts.listReceived.filter fun r => w.accountOf r.1 = a).foldl
      (fun nReceived r => addInt64 nReceived r.2) 0 = (w.receivedOn a amounts).bmod (2 ^ 64) := by
    have hfold := foldl_addInt64 Prod.snd (amounts.listReceived.filter fun r => w.accountOf r.1 = a) 0
    rwa [Int.zero_bmod, zero_add] at hfold
  have hsent : amounts.listSent.foldl (fun nSent s => addInt64 nSent s.2) 0 =
      ((amounts.listSent.map Prod.snd).sum).bmod (2 ^ 64) := by
    have hfold := foldl_addInt64 Prod.snd amounts.listSent 0
    rwa [Int.zero_bmod, zero_add] at hfold
  -- the sum received is added, zero or not
  have hif : (if (w.receivedOn a amounts).bmod (2 ^ 64) ≠ 0 ∧ nMinDepth ≤ chain.depth wtx then
      addInt64 (n.bmod (2 ^ 64)) ((w.receivedOn a amounts).bmod (2 ^ 64)) else n.bmod (2 ^ 64)) =
      (n + if nMinDepth ≤ chain.depth wtx then w.receivedOn a amounts else 0).bmod (2 ^ 64) := by
    by_cases hdepth : nMinDepth ≤ chain.depth wtx
    · rw [if_pos hdepth]
      split_ifs with h
      · rw [addInt64_bmod, Int.add_bmod_bmod]
      · have hzero : (w.receivedOn a amounts).bmod (2 ^ 64) = 0 := by
          by_contra hne
          exact h ⟨hne, hdepth⟩
        rw [← Int.add_bmod_bmod, hzero, add_zero]
    · rw [if_neg hdepth, if_neg fun h => hdepth h.2, add_zero]
  unfold addAccountAmounts getAccountAmounts
  dsimp only
  rw [hreceived, hif, hsent, addInt64_bmod, bmod_eq_bmod_iff]
  unfold accounted generatedOn sentFrom
  have hwrap : (2 ^ 64 : ℤ) ∣ (amounts.listSent.map Prod.snd).sum -
      ((amounts.listSent.map Prod.snd).sum).bmod (2 ^ 64) := bmod_eq_bmod_iff.mp Int.bmod_bmod.symm
  split_ifs
  all_goals
    ring_nf at hwrap ⊢
    first
      | exact hwrap
      | exact dvd_zero _

/-- One transaction moves the row of account balances by what `listaccounts` lists of it. -/
theorem tallies_tallyAmounts (nMinDepth : ℤ) (wtx : CachedTx) (amounts : Amounts) {balances : AccountBalances}
    {S : List UInt8 → ℤ} {T : ℤ} (h : Tallies (2 ^ 64) balances S T) :
    Tallies (2 ^ 64) (w.tallyAmounts chain nMinDepth wtx amounts balances)
      (fun a => S a + listed chain w nMinDepth a wtx amounts) (T + listedAll chain nMinDepth wtx amounts) := by
  -- all that was sent is on one account
  have hconst : ∀ a, ((amounts.listSent.filter fun _ => amounts.strSentAccount = a).map fun s => -s.2).sum =
      if a = amounts.strSentAccount then -(amounts.listSent.map Prod.snd).sum else 0 := by
    intro a
    by_cases ha : a = amounts.strSentAccount
    · simp [ha, sum_map_neg (Prod.snd : CBase58Data × ℤ → ℤ)]
    · simp [ha, Ne.symm ha]
  have hsent := (h.add amounts.strSentAccount (-amounts.nFee)).foldl_add
    (fun _ => amounts.strSentAccount) (fun s => -s.2) amounts.listSent
  unfold AccountWallet.tallyAmounts listed listedAll
  dsimp only
  -- what was received counts only at this depth
  by_cases hdepth : nMinDepth ≤ chain.depth wtx
  · simp only [if_pos hdepth]
    refine ((hsent.add [] amounts.nGeneratedMature).foldl_add (fun r => w.accountOf r.1) Prod.snd
      amounts.listReceived).congr (fun a => ?_) ?_
    · rw [hconst]
      unfold receivedOn generatedOn sentFrom
      split_ifs <;> ring
    · rw [sum_map_neg (Prod.snd : CBase58Data × ℤ → ℤ)]
      ring
  · simp only [if_neg hdepth]
    refine hsent.congr (fun a => ?_) ?_
    · rw [hconst]
      unfold sentFrom
      split_ifs <;> ring
    · rw [sum_map_neg (Prod.snd : CBase58Data × ℤ → ℤ)]
      ring

/-! ### The loops -/

/-- The amounts of a transaction, when there are any. -/
def amountsOf (P : Params) (chain : ChainView) (w : AccountWallet) (p : Sigma fun _ : Uint256 => CachedTx) :
    Amounts := (w.getAmounts P chain p.1 p.2).toOption.getD { strSentAccount := [] }

/-- `GetAmounts` returns for every transaction of the wallet. -/
def Amounting (P : Params) (chain : ChainView) (w : AccountWallet) : Prop :=
  ∀ p ∈ w.mapWallet.entries, w.getAmounts P chain p.1 p.2 = .ok (w.amountsOf P chain p)

/-- The accounts of the address book begin at zero. -/
theorem namedAccounts_tallies : Tallies (2 ^ 64) w.namedAccounts (fun _ => 0) 0 := by
  unfold namedAccounts
  -- every name writes a zero, which moves no sum
  have hfold : ∀ (l : List (CBase58Data × List UInt8)) (balances : AccountBalances),
      Tallies (2 ^ 64) balances (fun _ => 0) 0 → Tallies (2 ^ 64) (l.foldl (fun balances entry =>
        if entry.1 ∈ w.keystore.mapKeys then balances.put entry.2 0 else balances) balances)
        (fun _ => 0) 0 := by
    intro l
    induction l with
    | nil => exact fun _ h => h
    | cons entry l ih =>
      intro balances h
      refine ih _ ?_
      dsimp only
      split_ifs
      · exact h.put_zero entry.2
      · exact h
  exact hfold _ _ Tallies.empty

/-- The loop of `listaccounts` over the transactions of the wallet, whose amounts can all be computed. -/
theorem foldlM_listAccountsStep (nMinDepth : ℤ) {l : List (Sigma fun _ : Uint256 => CachedTx)}
    (h : ∀ p ∈ l, w.getAmounts P chain p.1 p.2 = .ok (w.amountsOf P chain p)) {balances : AccountBalances}
    {S : List UInt8 → ℤ} {T : ℤ} (ht : Tallies (2 ^ 64) balances S T) :
    ∃ balances', l.foldlM (w.listAccountsStep P chain nMinDepth) balances = .ok balances' ∧
      Tallies (2 ^ 64) balances'
        (fun a => S a + (l.map fun p => listed chain w nMinDepth a p.2 (w.amountsOf P chain p)).sum)
        (T + (l.map fun p => listedAll chain nMinDepth p.2 (w.amountsOf P chain p)).sum) := by
  induction l generalizing balances S T with
  | nil => exact ⟨balances, rfl, ht.congr (fun a => by simp) (by simp)⟩
  | cons p l ih =>
    obtain ⟨balances', hfold, ht'⟩ := ih (fun p' hp' => h p' (List.mem_cons_of_mem _ hp'))
      (tallies_tallyAmounts nMinDepth p.2 (w.amountsOf P chain p) ht)
    refine ⟨balances', ?_, ht'.congr (fun a => ?_) ?_⟩
    · rw [List.foldlM_cons, listAccountsStep, h p List.mem_cons_self]
      exact hfold
    · rw [List.map_cons, List.sum_cons, add_assoc]
    · rw [List.map_cons, List.sum_cons, add_assoc]

/-- What `GetAccountBalance` adds for a transaction. -/
def accountedFinal (P : Params) (chain : ChainView) (w : AccountWallet) (nMinDepth : ℤ) (a : List UInt8)
    (p : Sigma fun _ : Uint256 => CachedTx) : ℤ :=
  if chain.isFinal p.2.tx then accounted chain w nMinDepth a p.2 (w.amountsOf P chain p) else 0

/-- What `getbalance "*"` adds for a transaction. -/
def netFinal (P : Params) (chain : ChainView) (w : AccountWallet) (nMinDepth : ℤ)
    (p : Sigma fun _ : Uint256 => CachedTx) : ℤ :=
  if chain.isFinal p.2.tx then net chain nMinDepth p.2 (w.amountsOf P chain p) else 0

/-- `getbalance '*'` is the sum over all transactions, as an `int64`. -/
theorem Amounting.getBalanceAll (h : Amounting P chain w) (nMinDepth : ℤ) :
    w.getBalanceAll P chain nMinDepth =
      .ok (((w.mapWallet.entries.map (netFinal P chain w nMinDepth)).sum).bmod (2 ^ 64)) := by
  -- a round adds the part of its transaction, modulo `2 ^ 64`
  have hstep : ∀ p ∈ w.mapWallet.entries, ∀ n : ℤ,
      w.balanceAllStep P chain nMinDepth (n.bmod ((2 ^ 64 : ℕ))) p =
        .ok ((n + netFinal P chain w nMinDepth p).bmod ((2 ^ 64 : ℕ))) := by
    intro p hp n
    unfold balanceAllStep netFinal
    cases chain.isFinal p.2.tx with
    | false => simp [pure, Except.pure]
    | true =>
      rw [h p hp]
      show Except.ok (addAmounts chain nMinDepth p.2 _ (n.bmod (2 ^ 64))) = _
      rw [addAmounts_bmod]
      rfl
  have hloop := foldlM_bmod (2 ^ 64) hstep 0
  rwa [Int.zero_bmod, zero_add] at hloop

/-- The loop of `GetAccountBalance` adds what counts for the account. -/
theorem Amounting.foldlM_accountBalanceStep (h : Amounting P chain w) (nMinDepth : ℤ) (a : List UInt8) :
    w.mapWallet.entries.foldlM (w.accountBalanceStep P chain a nMinDepth) 0 =
      .ok (((w.mapWallet.entries.map (accountedFinal P chain w nMinDepth a)).sum).bmod (2 ^ 64)) := by
  -- a round adds what counts for the account, modulo `2 ^ 64`
  have hstep : ∀ p ∈ w.mapWallet.entries, ∀ n : ℤ,
      w.accountBalanceStep P chain a nMinDepth (n.bmod ((2 ^ 64 : ℕ))) p =
        .ok ((n + accountedFinal P chain w nMinDepth a p).bmod ((2 ^ 64 : ℕ))) := by
    intro p hp n
    unfold accountBalanceStep accountedFinal
    cases chain.isFinal p.2.tx with
    | false => simp [pure, Except.pure]
    | true =>
      rw [h p hp]
      show Except.ok (w.addAccountAmounts chain a nMinDepth p.2 _ (n.bmod (2 ^ 64))) = _
      rw [addAccountAmounts_bmod]
      rfl
  have hloop := foldlM_bmod (2 ^ 64) hstep 0
  rwa [Int.zero_bmod, zero_add] at hloop

/-! ### The journal -/

/-- What is booked on an account: on `"*"` it is what is booked on all of them. -/
def bookedOn (history : List CAccountingEntry) (a : List UInt8) : ℤ :=
  ((history.filter fun e => a = allAccounts ∨ e.strAccount = a).map CAccountingEntry.nCreditDebit).sum

/-- `GetAccountCreditDebit` adds the entries of the journal that are booked on the account. -/
theorem getAccountCreditDebit_eq {db : WalletDb} {history : List CAccountingEntry} (h : JournalOk db history)
    {a : List UInt8} (ha : string.Fits a) :
    getAccountCreditDebit db.file a = .ok ((bookedOn history a).bmod (2 ^ 64)) := by
  obtain ⟨entries, hlist, hperm⟩ := h.listAccountCreditDebit ha
  rw [getAccountCreditDebit, hlist, bookedOn, ← (hperm.map _).sum_eq, ← sumCreditDebit_eq]
  rfl

/-- `GetAccountBalance` is the sum of both parts. -/
theorem Amounting.getAccountBalance (h : Amounting P chain w) {db : WalletDb}
    {history : List CAccountingEntry} (hj : JournalOk db history) (nMinDepth : ℤ) {a : List UInt8}
    (ha : string.Fits a) : w.getAccountBalance P chain db.file a nMinDepth =
      .ok (((w.mapWallet.entries.map (accountedFinal P chain w nMinDepth a)).sum +
        bookedOn history a).bmod (2 ^ 64)) := by
  unfold AccountWallet.getAccountBalance
  rw [h.foldlM_accountBalanceStep, getAccountCreditDebit_eq hj ha]
  show Except.ok (addInt64 _ _) = _
  rw [addInt64_bmod, Int.add_bmod_bmod]

/-- **`listaccounts`** returns, and its balances tally with what is listed and what is booked. -/
theorem Amounting.listAccounts (h : Amounting P chain w) {db : WalletDb} {history : List CAccountingEntry}
    (hj : JournalOk db history) (nMinDepth : ℤ) : ∃ balances,
      w.listAccounts P chain db.file nMinDepth = .ok balances ∧
      Tallies (2 ^ 64) balances
        (fun a => (w.mapWallet.entries.map fun p =>
          listed chain w nMinDepth a p.2 (w.amountsOf P chain p)).sum + booked a history)
        ((w.mapWallet.entries.map fun p => listedAll chain nMinDepth p.2 (w.amountsOf P chain p)).sum +
          (history.map CAccountingEntry.nCreditDebit).sum) := by
  obtain ⟨balances, hfold, ht⟩ := foldlM_listAccountsStep nMinDepth h namedAccounts_tallies
  obtain ⟨entries, hlist, hperm⟩ := hj.listAccountCreditDebit allAccounts_fits
  -- under the name `"*"` the whole journal is listed
  have hall : (history.filter fun e => allAccounts = allAccounts ∨ e.strAccount = allAccounts) = history :=
    List.filter_eq_self.mpr fun e _ => by simp
  rw [hall] at hperm
  refine ⟨_, ?_, (ht.foldl_add CAccountingEntry.strAccount CAccountingEntry.nCreditDebit entries).congr
    (fun a => ?_) ?_⟩
  · unfold AccountWallet.listAccounts
    rw [hfold, hlist]
    rfl
  · rw [zero_add, booked, ((hperm.filter _).map _).sum_eq]
  · rw [zero_add, (hperm.map _).sum_eq]

/-- When the entries of the journal cancel out, nothing is booked on all accounts together. -/
theorem bookedOn_eq {history : List CAccountingEntry}
    (hzero : (history.map CAccountingEntry.nCreditDebit).sum = 0) (a : List UInt8) :
    bookedOn history a = if a = allAccounts then 0 else booked a history := by
  unfold bookedOn booked
  split_ifs with ha
  · have hall : (history.filter fun e => a = allAccounts ∨ e.strAccount = a) = history :=
      List.filter_eq_self.mpr fun e _ => by simp [ha]
    rw [hall, hzero]
  · refine congrArg _ (congrArg _ (List.filter_congr fun e _ => ?_))
    simp [ha]

/-! ### The differences -/

/-- What `listaccounts` has more on an account than `GetAccountBalance`: a transaction that is not final, and
without what was generated above the depth that is asked for. -/
def surplus (P : Params) (chain : ChainView) (w : AccountWallet) (nMinDepth : ℤ) (a : List UInt8)
    (p : Sigma fun _ : Uint256 => CachedTx) : ℤ :=
  if chain.isFinal p.2.tx then
    if nMinDepth ≤ chain.depth p.2 then 0 else -generatedOn a (w.amountsOf P chain p)
  else listed chain w nMinDepth a p.2 (w.amountsOf P chain p)

/-- The same for all accounts, compared with `getbalance "*"`. -/
def surplusAll (P : Params) (chain : ChainView) (w : AccountWallet) (nMinDepth : ℤ)
    (p : Sigma fun _ : Uint256 => CachedTx) : ℤ :=
  if chain.isFinal p.2.tx then
    if nMinDepth ≤ chain.depth p.2 then 0 else -(w.amountsOf P chain p).nGeneratedMature
  else listedAll chain nMinDepth p.2 (w.amountsOf P chain p)

/-- Two sums differ by the sum of the differences. -/
theorem sum_sub_sum {α : Type} {f g d : α → ℤ} (l : List α) (h : ∀ a, f a - g a = d a) :
    (l.map f).sum - (l.map g).sum = (l.map d).sum := by
  induction l with
  | nil => rfl
  | cons a l ih =>
    simp only [List.map_cons, List.sum_cons]
    linarith [h a]

/-- One transaction is listed for an account with more than counts for it by its surplus. -/
theorem listed_sub_accounted (nMinDepth : ℤ) (a : List UInt8) (p : Sigma fun _ : Uint256 => CachedTx) :
    listed chain w nMinDepth a p.2 (w.amountsOf P chain p) - accountedFinal P chain w nMinDepth a p =
      surplus P chain w nMinDepth a p := by
  unfold accountedFinal surplus listed accounted
  split_ifs <;> ring

/-- The same for all accounts together. -/
theorem listedAll_sub_net (nMinDepth : ℤ) (p : Sigma fun _ : Uint256 => CachedTx) :
    listedAll chain nMinDepth p.2 (w.amountsOf P chain p) - netFinal P chain w nMinDepth p =
      surplusAll P chain w nMinDepth p := by
  unfold netFinal surplusAll listedAll net
  split_ifs <;> ring

end AccountWallet

open AccountWallet in
/-- **The accounts agree** when what `listaccounts` has more comes to nothing, on each account and on all of them.
A journal entry under `"*"` is on an account of its own only for `listaccounts`. -/
theorem listAccounts_agrees_iff (h : w.Amounting P chain) {db : WalletDb} {history : List CAccountingEntry}
    (hj : JournalOk db history) (hzero : (history.map CAccountingEntry.nCreditDebit).sum = 0)
    (nMinDepth : ℤ) : ∃ balances, w.listAccounts P chain db.file nMinDepth = .ok balances ∧
      (((∀ a, string.Fits a → w.getAccountBalance P chain db.file a nMinDepth = .ok (balances.val a)) ∧
          w.getBalanceAll P chain nMinDepth = .ok (balances.total.bmod (2 ^ 64))) ↔
        (∀ a, string.Fits a → (2 ^ 64 : ℤ) ∣ (w.mapWallet.entries.map (surplus P chain w nMinDepth a)).sum +
          if a = allAccounts then booked a history else 0) ∧
        (2 ^ 64 : ℤ) ∣ (w.mapWallet.entries.map (surplusAll P chain w nMinDepth)).sum) := by
  obtain ⟨balances, hlist, ht⟩ := h.listAccounts hj nMinDepth
  refine ⟨balances, hlist, and_congr (forall₂_congr fun a ha => ?_) ?_⟩
  · rw [h.getAccountBalance hj nMinDepth ha, ht.val_eq, Except.ok.injEq, eq_comm, bookedOn_eq hzero]
    refine bmod_eq_bmod_iff.trans ?_
    -- the difference of the two sums is the sum of the surpluses
    have hsum : (w.mapWallet.entries.map fun p => listed chain w nMinDepth a p.2 (w.amountsOf P chain p)).sum -
        (w.mapWallet.entries.map (accountedFinal P chain w nMinDepth a)).sum =
          (w.mapWallet.entries.map (surplus P chain w nMinDepth a)).sum :=
      sum_sub_sum _ (listed_sub_accounted nMinDepth a)
    rw [← hsum]
    split_ifs with hall
    · rw [add_zero, sub_add_eq_add_sub]
      rfl
    · rw [add_sub_add_right_eq_sub, add_zero]
      rfl
  · -- the same for all accounts together
    rw [h.getBalanceAll, Except.ok.injEq, eq_comm, ht.total_eq, hzero, add_zero]
    refine bmod_eq_bmod_iff.trans ?_
    rw [sum_sub_sum w.mapWallet.entries (listedAll_sub_net nMinDepth)]
    rfl

/-! ### A generated transaction -/

namespace Sample

/-- A wallet with a coinbase. -/
def minedWallet : AccountWallet where
  toCacheWallet := { cacheWallet with
    mapWallet := (∅ : Map Uint256 CachedTx).insert (params.hashTx (coinBase 5)) { tx := coinBase 5 } }
  names := OrderedMap.empty
  mem_mapAddressBook address := by simp [cacheWallet, OrderedMap.keys, OrderedMap.empty]

/-- What `listaccounts` and `GetAccountBalance` say about the default account. -/
def defaultAccount (nMinDepth : ℤ) : Option ℤ × Option ℤ :=
  (((minedWallet.listAccounts params deepChain OrderedMap.empty nMinDepth).toOption).map (·.val []),
    (minedWallet.getAccountBalance params deepChain OrderedMap.empty [] nMinDepth).toOption)

/-- The amounts of the wallet with one mined coin can be computed. -/
theorem amounting_minedWallet : minedWallet.Amounting params deepChain := by
  intro p hp
  obtain rfl : p = ⟨params.hashTx (coinBase 5), { tx := coinBase 5 }⟩ := List.mem_singleton.mp hp
  rfl

end Sample

open Sample AccountWallet in

/-- The two commands agree on the wallet with one mined coin. -/
theorem listAccounts_agrees_iff_mined : ∃ balances,
    minedWallet.listAccounts params deepChain OrderedMap.empty 1 = .ok balances ∧
    minedWallet.getBalanceAll params deepChain 1 = .ok (balances.total.bmod (2 ^ 64)) := by
  obtain ⟨balances, hlist, hiff⟩ := listAccounts_agrees_iff amounting_minedWallet JournalOk.empty rfl 1
  have hfinal : ∀ p ∈ minedWallet.mapWallet.entries, deepChain.isFinal p.2.tx = true := by decide
  -- what is listed of a mature coin is what counts for the account
  have hzero : ∀ a, (minedWallet.mapWallet.entries.map (surplus params deepChain minedWallet 1 a)).sum = 0 := by
    intro a
    refine List.sum_eq_zero fun v hv => ?_
    obtain ⟨p, hp, rfl⟩ := List.mem_map.mp hv
    unfold surplus
    rw [hfinal p hp]
    rfl
  refine ⟨balances, hlist, (hiff.mpr ⟨fun a _ => ?_, by decide⟩).2⟩
  rw [hzero]
  simp [booked]

open Sample in
/-- With three hundred confirmations asked for, a mature coinbase with two hundred is not listed. -/
theorem listAccounts_drops_generated : minedWallet.Amounting params deepChain ∧
    defaultAccount 300 = (some 0, some 2000000) := ⟨amounting_minedWallet, by decide⟩

end Peershares
