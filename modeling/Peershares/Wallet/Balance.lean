import Peershares.Model.Balance
import Peershares.Wallet.Cache
import Peershares.Wallet.Journal

/-!
# The balances of a wallet

Each loop over the wallet adds up one number for each transaction. `GetBalance` adds the own outputs that
are not spent; `getbalance "*"` adds the own outputs and takes off the own inputs, except for a generated
transaction, of which only the outputs count. Since each input of the wallet is a spent output of it, the two
totals differ by the inputs of the coinstakes, and by the spent outputs of generated transactions that are
not mature yet.

The first half is about one transaction. Under `Sound`, which asks for valid caches and amounts in their ranges, none
of the functions throws, and what each returns is a sum over inputs or outputs: the debit (`getDebit`), the credit
(`getCreditTx`), the part that is not spent (`getUnspentCredit`). `GetAmounts` splits the same money into
received, sent, fee and generated; put together again it is `net` (`net_sentReceived`, `getAmounts_generated`).

The second half adds up over the wallet (`overWallet`).

* `OnMainChain` — all of them are on the main chain, each output is spent at most once, and its flag says so
* `sum_spends` — what the inputs spend is what the spent outputs were worth, since both are sums over the same
  outpoints
* `booked_sub_available` — the difference of the two balances
* `getBalance_eq_getBalanceAll_iff` — so the two numbers are the same exactly when that difference is zero at 64 bits
-/

open Framework

namespace Peershares

variable {P : Params} {chain : ChainView} {w : AccountWallet}

/-! ### Amounts of one transaction -/

/-- A sum of money below `MAX_MONEY` passes all the checks of its loop. -/
theorem sumInRange_eq_ok {α : Type} (what : String) {amount : α → Result ℤ} {f : α → ℤ} {l : List α} {n : ℤ}
    (hamount : ∀ a ∈ l, amount a = .ok (f a)) (hnonneg : ∀ a ∈ l, 0 ≤ f a) (hn : 0 ≤ n)
    (hmax : n + (l.map f).sum ≤ MAX_MONEY) : sumInRange what amount l n = .ok (n + (l.map f).sum) := by
  induction l generalizing n with
  | nil => simp [sumInRange]
  | cons a l ih =>
    have ha := hnonneg a List.mem_cons_self
    have hrest : ∀ b ∈ l, 0 ≤ f b := fun b hb => hnonneg b (List.mem_cons_of_mem _ hb)
    have hsum : 0 ≤ (l.map f).sum := List.sum_nonneg fun v hv => by
      obtain ⟨b, hb, rfl⟩ := List.mem_map.mp hv
      exact hrest b hb
    rw [List.map_cons, List.sum_cons] at hmax ⊢
    have hrange : moneyRange (n + f a) = true := moneyRange_iff.mpr ⟨by linarith, by linarith⟩
    rw [sumInRange, hamount a List.mem_cons_self]
    show (if moneyRange (n + f a) then sumInRange what amount l (n + f a) else _) = _
    rw [if_pos hrange, ih (fun b hb => hamount b (List.mem_cons_of_mem _ hb)) hrest (by linarith)
      (by linarith), add_assoc]

/-- The same for the loop of `GetValueOut`. -/
theorem getValueOut_loop_ok {vout : List CTxOut} {n : ℤ} (hnonneg : ∀ txout ∈ vout, 0 ≤ txout.nValue)
    (hn : 0 ≤ n) (hmax : n + (vout.map CTxOut.nValue).sum ≤ MAX_MONEY) :
    CTransaction.getValueOut.loop vout n = .ok (n + (vout.map CTxOut.nValue).sum) := by
  induction vout generalizing n with
  | nil => simp [CTransaction.getValueOut.loop]
  | cons txout vout ih =>
    have ha := hnonneg txout List.mem_cons_self
    have hrest : ∀ o ∈ vout, 0 ≤ o.nValue := fun o ho => hnonneg o (List.mem_cons_of_mem _ ho)
    have hsum : 0 ≤ (vout.map CTxOut.nValue).sum := List.sum_nonneg fun v hv => by
      obtain ⟨o, ho, rfl⟩ := List.mem_map.mp hv
      exact hrest o ho
    rw [List.map_cons, List.sum_cons] at hmax ⊢
    have hvalue : moneyRange txout.nValue = true := moneyRange_iff.mpr ⟨ha, by linarith⟩
    have hrange : moneyRange (n + txout.nValue) = true := moneyRange_iff.mpr ⟨by linarith, by linarith⟩
    rw [CTransaction.getValueOut.loop, hvalue, hrange]
    simp only [Bool.not_true, Bool.or_self, Bool.false_eq_true, if_false]
    rw [ih hrest (by linarith) (by linarith), add_assoc]

namespace AccountWallet

/-- What an output is worth to the wallet. -/
def ownOut (P : Params) (w : AccountWallet) (txout : CTxOut) : ℤ := if w.isMine P txout then txout.nValue else 0

/-- What the output at an outpoint is worth to the wallet. -/
def ownValue (P : Params) (w : AccountWallet) (prevout : COutPoint) : ℤ :=
  match w.mapWallet.lookup prevout.hash with
  | none => 0
  | some prev =>
    match prev.tx.vout[prevout.n]? with
    | none => 0
    | some txout => w.ownOut P txout

/-- `GetDebit` of an input is the value of the output it spends, when it is the wallet's own. -/
theorem getDebitIn_eq_ownValue (txin : CTxIn) : w.getDebitIn P txin = w.ownValue P txin.prevout := by
  unfold CacheWallet.getDebitIn ownValue
  cases w.mapWallet.lookup txin.prevout.hash with
  | none => rfl
  | some prev => rfl

/-- The own inputs of a transaction. -/
def spends (P : Params) (w : AccountWallet) (tx : CTransaction) : ℤ :=
  (tx.vin.map fun txin => w.ownValue P txin.prevout).sum

/-- The own outputs of a transaction. -/
def receives (P : Params) (w : AccountWallet) (tx : CTransaction) : ℤ := (tx.vout.map (w.ownOut P)).sum

/-- The own outputs of a transaction that are marked as spent. -/
def spentOf (P : Params) (w : AccountWallet) (wtx : CachedTx) : ℤ :=
  ((wtx.tx.vout.zipIdx.filter fun q => wtx.vfSpent.getD q.2 false).map fun q => w.ownOut P q.1).sum

/-- Is it generated, and not mature yet? -/
def immature (P : Params) (chain : ChainView) (wtx : CachedTx) : Bool :=
  wtx.tx.isGenerated && 0 < chain.blocksToMaturity P wtx

/-- The amounts of a transaction that passed the checks of a block, and that has valid caches. -/
structure Sound (P : Params) (w : AccountWallet) (wtx : CachedTx) : Prop where
  caches : wtx.Valid P w.toCacheWallet
  nonneg : ∀ txout ∈ wtx.tx.vout, 0 ≤ txout.nValue
  value_le : wtx.tx.valueOut ≤ MAX_MONEY
  debit_nonneg : ∀ txin ∈ wtx.tx.vin, 0 ≤ w.ownValue P txin.prevout
  debit_le : w.spends P wtx.tx ≤ MAX_MONEY

/-- What an output brings the wallet is not negative. -/
theorem ownOut_nonneg {txout : CTxOut} (h : 0 ≤ txout.nValue) : 0 ≤ w.ownOut P txout := by
  unfold ownOut
  split_ifs
  · exact h
  · exact le_refl 0

/-- And not more than its value. -/
theorem ownOut_le {txout : CTxOut} (h : 0 ≤ txout.nValue) : w.ownOut P txout ≤ txout.nValue := by
  unfold ownOut
  split_ifs
  · exact le_refl _
  · exact h

/-- Unspent and spent outputs are all outputs. -/
theorem sum_unspent (wtx : CachedTx) :
    ((CacheWallet.unspentOutputs wtx.toCWalletTx).map (w.ownOut P)).sum =
      w.receives P wtx.tx - w.spentOf P wtx := by
  have hsplit := sum_filter_add_sum_filter_not (fun q : CTxOut × ℕ => wtx.vfSpent.getD q.2 false)
    (fun q => w.ownOut P q.1) wtx.tx.vout.zipIdx
  have hall : (wtx.tx.vout.zipIdx.map fun q => w.ownOut P q.1) = wtx.tx.vout.map (w.ownOut P) := by
    conv_rhs => rw [← List.zipIdx_map_fst 0 wtx.tx.vout, List.map_map]
    rfl
  rw [hall] at hsplit
  unfold CacheWallet.unspentOutputs receives spentOf
  rw [List.map_map]
  exact eq_sub_of_add_eq' hsplit

namespace Sound

variable {wtx : CachedTx}

/-- One output of a sound transaction is an amount of money. -/
theorem nValue_le (h : Sound P w wtx) {txout : CTxOut} (hmem : txout ∈ wtx.tx.vout) :
    txout.nValue ≤ MAX_MONEY := by
  refine le_trans ?_ h.value_le
  refine List.single_le_sum (fun v hv => ?_) _ (List.mem_map_of_mem hmem)
  obtain ⟨o, ho, rfl⟩ := List.mem_map.mp hv
  exact h.nonneg o ho

/-- `GetCredit` of an output. -/
theorem getCreditOut (h : Sound P w wtx) {txout : CTxOut} (hmem : txout ∈ wtx.tx.vout) :
    w.getCreditOut P txout = .ok (w.ownOut P txout) := by
  have hrange : moneyRange txout.nValue = true := moneyRange_iff.mpr ⟨h.nonneg _ hmem, h.nValue_le hmem⟩
  unfold CacheWallet.getCreditOut ownOut
  rw [hrange]
  rfl

/-- A part of the outputs is worth no more than all of them. -/
theorem sum_ownOut_le (h : Sound P w wtx) {l : List CTxOut} (hl : l.Sublist wtx.tx.vout) :
    (l.map (w.ownOut P)).sum ≤ MAX_MONEY := by
  have hle : (l.map (w.ownOut P)).sum ≤ (l.map CTxOut.nValue).sum :=
    List.sum_le_sum fun txout hmem => ownOut_le (h.nonneg _ (hl.subset hmem))
  have hsub : (l.map CTxOut.nValue).sum ≤ wtx.tx.valueOut := by
    refine List.Sublist.sum_le_sum (hl.map _) fun v hv => ?_
    obtain ⟨o, ho, rfl⟩ := List.mem_map.mp hv
    exact h.nonneg o ho
  exact hle.trans (hsub.trans h.value_le)

/-- `GetCredit` of the transaction, without its cache. -/
theorem getCreditTx (h : Sound P w wtx) : w.getCreditTx P wtx.tx = .ok (w.receives P wtx.tx) := by
  have hmax := h.sum_ownOut_le (List.Sublist.refl wtx.tx.vout)
  have hsum := sumInRange_eq_ok "CWallet::GetCredit() : value out of range"
    (fun txout hmem => h.getCreditOut hmem) (fun txout hmem => ownOut_nonneg (h.nonneg _ hmem)) (le_refl 0)
    (by rwa [zero_add])
  rwa [zero_add] at hsum

/-- The outputs left are some of the outputs. -/
theorem unspent_sublist (wtx : CWalletTx) : (CacheWallet.unspentOutputs wtx).Sublist wtx.tx.vout := by
  have hmap := (List.filter_sublist (l := wtx.tx.vout.zipIdx)
    (p := fun q => !wtx.vfSpent.getD q.2 false)).map Prod.fst
  rwa [List.zipIdx_map_fst] at hmap

/-- The available credit is what the transaction brings less what is spent of it. -/
theorem getUnspentCredit (h : Sound P w wtx) :
    w.getUnspentCredit P wtx.toCWalletTx = .ok (w.receives P wtx.tx - w.spentOf P wtx) := by
  have hsub := unspent_sublist wtx.toCWalletTx
  have hsum := sumInRange_eq_ok "CWalletTx::GetAvailableCredit() : value out of range"
    (fun txout hmem => h.getCreditOut (hsub.subset hmem))
    (fun txout hmem => ownOut_nonneg (h.nonneg _ (hsub.subset hmem))) (le_refl 0)
    (by rw [zero_add]; exact h.sum_ownOut_le hsub)
  rwa [zero_add, sum_unspent] at hsum

/-- `GetDebit`, with or without its cache. -/
theorem getDebit (h : Sound P w wtx) : (wtx.getDebit P w.toCacheWallet).1 = .ok (w.spends P wtx.tx) := by
  rw [h.caches.getDebit_fst]
  split_ifs with hempty
  · rw [List.isEmpty_iff] at hempty
    simp [spends, hempty]
  · have hin : ∀ txin ∈ wtx.tx.vin,
        (.ok (w.getDebitIn P txin) : Result ℤ) = .ok (w.ownValue P txin.prevout) :=
      fun txin _ => congrArg _ (getDebitIn_eq_ownValue txin)
    have hsum := sumInRange_eq_ok "CWallet::GetDebit() : value out of range" hin h.debit_nonneg (le_refl 0)
      (by rw [zero_add]; exact h.debit_le)
    rwa [zero_add] at hsum

/-- `GetValueOut` of a sound transaction. -/
theorem getValueOut (h : Sound P w wtx) : wtx.tx.getValueOut = .ok wtx.tx.valueOut := by
  have hloop := getValueOut_loop_ok h.nonneg (le_refl 0) (by rw [zero_add]; exact h.value_le)
  rwa [zero_add] at hloop

end Sound

/-! ### Change -/

/-- The keys of the wallet are at the addresses of public keys. -/
def KeysSet (P : Params) (w : AccountWallet) : Prop :=
  ∀ address ∈ w.keystore.mapKeys, ∃ vchPubKey, address = CBitcoinAddress.setPubKey P vchPubKey

/-- The address of a script is not that of a public key. -/
theorem setScriptHash160_ne_setPubKey (hash160 vchPubKey : List UInt8) :
    CBitcoinAddress.setScriptHash160 P hash160 ≠ CBitcoinAddress.setPubKey P vchPubKey := by
  intro h
  have hversion := congrArg CBase58Data.nVersion h
  revert hversion
  unfold CBitcoinAddress.setScriptHash160 CBitcoinAddress.setPubKey CBitcoinAddress.setHash160
    AddressClass.setScriptHash160 AddressClass.setHash160
  dsimp only
  cases P.fTestNet <;> decide

/-- Change is an own output. -/
theorem isMine_of_isChange (hkeys : KeysSet P w) {txout : CTxOut} (h : w.isChange P txout = true) :
    w.isMine P txout = true := by
  unfold CacheWallet.isChange extractAddress at h
  unfold CacheWallet.isMine KeyStore.isMine
  rw [KeyStore.isMineLoop]
  -- the address of change is that of a key, and its script is own
  split at h
  · exact absurd h Bool.false_ne_true
  · next address haddress =>
    rw [Bool.and_eq_true, decide_eq_true_iff] at h
    split at haddress
    · next hsolver =>
      cases haddress
      rw [hsolver]
      exact decide_eq_true h.1
    · next hsolver =>
      cases haddress
      rw [hsolver]
      exact decide_eq_true h.1
    · cases haddress
      -- every key of the wallet is a public key, so no script hash is one
      obtain ⟨vchPubKey, heq⟩ := hkeys _ h.1
      exact absurd heq (setScriptHash160_ne_setPubKey _ _)
    · exact absurd haddress (by simp)

/-! ### What a transaction adds -/

/-- What a transaction adds to `getbalance "*"`. -/
def net (chain : ChainView) (nMinDepth : ℤ) (wtx : CachedTx) (amounts : Amounts) : ℤ :=
  (if nMinDepth ≤ chain.depth wtx then (amounts.listReceived.map Prod.snd).sum else 0)
    - (amounts.listSent.map Prod.snd).sum - amounts.nFee + amounts.nGeneratedMature

/-- An addition of `int64` may be reduced afterwards. -/
theorem addInt64_bmod (n v : ℤ) : addInt64 (n.bmod (2 ^ 64)) v = (n + v).bmod (2 ^ 64) :=
  Int.bmod_add_bmod

/-- And so may a loop of them. -/
theorem foldl_addInt64 {α : Type} (f : α → ℤ) (l : List α) (n : ℤ) :
    l.foldl (fun n a => addInt64 n (f a)) (n.bmod (2 ^ 64)) = (n + (l.map f).sum).bmod (2 ^ 64) :=
  foldl_bmod (2 ^ 64) f l n

/-- A sum of negatives. -/
theorem sum_map_neg {α : Type} (f : α → ℤ) (l : List α) : (l.map fun a => -f a).sum = -(l.map f).sum := by
  induction l with
  | nil => rfl
  | cons a l ih => rw [List.map_cons, List.sum_cons, ih, List.map_cons, List.sum_cons, neg_add]

/-- One step of `getbalance '*'`. -/
theorem addAmounts_bmod (nMinDepth : ℤ) (wtx : CachedTx) (amounts : Amounts) (n : ℤ) :
    addAmounts chain nMinDepth wtx amounts (n.bmod (2 ^ 64)) =
      (n + net chain nMinDepth wtx amounts).bmod (2 ^ 64) := by
  have hreceived : (if nMinDepth ≤ chain.depth wtx then
        amounts.listReceived.foldl (fun nBalance r => addInt64 nBalance r.2) (n.bmod (2 ^ 64))
      else n.bmod (2 ^ 64)) =
      (n + if nMinDepth ≤ chain.depth wtx then (amounts.listReceived.map Prod.snd).sum else 0).bmod (2 ^ 64) := by
    split_ifs
    · exact foldl_addInt64 Prod.snd _ n
    · rw [add_zero]
  unfold addAmounts net
  rw [hreceived]
  dsimp only
  rw [foldl_addInt64 (fun s : CBase58Data × ℤ => -s.2), addInt64_bmod, addInt64_bmod, sum_map_neg]
  congr 1
  ring

/-- Adding up the own outputs. -/
theorem sum_filter_isMine (l : List CTxOut) :
    ((l.filter (w.isMine P)).map CTxOut.nValue).sum = (l.map (w.ownOut P)).sum := by
  induction l with
  | nil => rfl
  | cons txout l ih =>
    rw [List.map_cons, List.sum_cons, ← ih, ownOut]
    cases hmine : w.isMine P txout with
    | true => simp [hmine]
    | false => simp [hmine]

namespace Sound

variable {wtx : CachedTx}

/-- The test of `GetCredit` on the depth. -/
theorem isImmature_eq (wtx : CachedTx) :
    wtx.isImmature (chain.blocksToMaturity P wtx) = immature P chain wtx := rfl

/-- What `GetBalance` adds. -/
theorem getAvailableCredit (h : Sound P w wtx) :
    (wtx.getAvailableCredit P w.toCacheWallet true (chain.blocksToMaturity P wtx)).1 =
      .ok (if immature P chain wtx then 0 else w.receives P wtx.tx - w.spentOf P wtx) := by
  rw [h.caches.getAvailableCredit_fst, isImmature_eq, h.getUnspentCredit]
  split_ifs
  · rfl
  · rfl

/-- `GetAmounts` of a coinbase or coinstake: immature, or all that it brings. -/
theorem getAmounts_generated (h : Sound P w wtx) (chain : ChainView) (hgen : wtx.tx.isGenerated = true)
    (hash : Uint256) : ∃ amounts, w.getAmounts P chain hash wtx = .ok amounts ∧
      ∀ nMinDepth, net chain nMinDepth wtx amounts =
        if immature P chain wtx then 0 else w.receives P wtx.tx := by
  unfold AccountWallet.getAmounts
  rw [hgen, if_pos rfl]
  by_cases hwait : 0 < chain.blocksToMaturity P wtx
  · have himm : immature P chain wtx = true := by
      unfold immature
      simp [hgen, hwait]
    rw [if_pos hwait, h.getCreditTx]
    refine ⟨_, rfl, fun nMinDepth => ?_⟩
    simp [net, himm]
  · have himm : immature P chain wtx = false := by
      unfold immature
      simp [hwait]
    rw [if_neg hwait, h.caches.getCredit_fst, isImmature_eq, himm, h.getCreditTx]
    refine ⟨_, rfl, fun nMinDepth => ?_⟩
    simp [net]

/-- The fee that `GetAmounts` computes. -/
theorem feeOf (h : Sound P w wtx) : AccountWallet.feeOf (w.spends P wtx.tx) wtx.tx =
    .ok (if 0 < w.spends P wtx.tx then w.spends P wtx.tx - wtx.tx.valueOut else 0) := by
  unfold AccountWallet.feeOf
  split_ifs
  · rw [h.getValueOut]
    rfl
  · rfl

/-- What a transaction spends is not negative. -/
theorem spends_nonneg (h : Sound P w wtx) : 0 ≤ w.spends P wtx.tx := by
  refine List.sum_nonneg fun v hv => ?_
  obtain ⟨txin, hmem, rfl⟩ := List.mem_map.mp hv
  exact h.debit_nonneg txin hmem

/-- Received, sent and fee together are the own outputs without the own inputs. -/
theorem net_sentReceived (h : Sound P w wtx) (hkeys : KeysSet P w) (hash : Uint256) {nMinDepth : ℤ}
    (hdepth : nMinDepth ≤ chain.depth wtx) :
    net chain nMinDepth wtx (w.sentReceived P hash wtx.tx (w.spends P wtx.tx)
      (if 0 < w.spends P wtx.tx then w.spends P wtx.tx - wtx.tx.valueOut else 0)) =
      w.receives P wtx.tx - w.spends P wtx.tx := by
  have hentry : ∀ l : List CTxOut, ((l.map fun txout => (addressOrUnknown P txout, txout.nValue)).map
      Prod.snd).sum = (l.map CTxOut.nValue).sum := fun l => by rw [List.map_map]; rfl
  unfold net sentReceived
  dsimp only
  rw [if_pos hdepth, hentry, sum_filter_isMine]
  by_cases hdebit : 0 < w.spends P wtx.tx
  · rw [if_pos hdebit, if_pos hdebit, hentry]
    -- what is not reported is change, and change is an own output
    set change := wtx.tx.vout.filter (fun txout => !!(0 < w.spends P wtx.tx && w.isChange P txout)) with hchange
    have hown : (change.map (w.ownOut P)).sum = (change.map CTxOut.nValue).sum := by
      refine congrArg _ (List.map_congr_left fun txout hmem => ?_)
      rw [hchange, List.mem_filter, Bool.not_not, Bool.and_eq_true] at hmem
      unfold ownOut
      rw [isMine_of_isChange hkeys hmem.2.2, if_pos rfl]
    have hvalue : ((w.reported P (w.spends P wtx.tx) wtx.tx).map CTxOut.nValue).sum +
        (change.map CTxOut.nValue).sum = wtx.tx.valueOut :=
      sum_filter_add_sum_filter_not _ CTxOut.nValue wtx.tx.vout
    have hreceives : ((w.reported P (w.spends P wtx.tx) wtx.tx).map (w.ownOut P)).sum +
        (change.map (w.ownOut P)).sum = w.receives P wtx.tx :=
      sum_filter_add_sum_filter_not _ (w.ownOut P) wtx.tx.vout
    linarith
  · have hzero : w.spends P wtx.tx = 0 := le_antisymm (not_lt.mp hdebit) h.spends_nonneg
    have hall : w.reported P 0 wtx.tx = wtx.tx.vout := List.filter_eq_self.mpr fun _ _ => by simp
    rw [hzero, hall]
    simp [receives]

/-- `GetAmounts` of any other transaction. -/
theorem getAmounts_plain (h : Sound P w wtx) (hgen : wtx.tx.isGenerated = false) (hash : Uint256) :
    w.getAmounts P chain hash wtx = .ok (w.sentReceived P hash wtx.tx (w.spends P wtx.tx)
      (if 0 < w.spends P wtx.tx then w.spends P wtx.tx - wtx.tx.valueOut else 0)) := by
  unfold AccountWallet.getAmounts
  rw [hgen, h.getDebit]
  show (AccountWallet.feeOf (w.spends P wtx.tx) wtx.tx >>= _) = _
  rw [h.feeOf]
  rfl

end Sound

/-! ### The whole wallet -/

/-- The outputs that the transactions of the wallet spend. -/
def prevouts (w : AccountWallet) : List COutPoint :=
  w.mapWallet.entries.flatMap fun p => p.2.tx.vin.map CTxIn.prevout

/-- The outputs of the transactions of the wallet. -/
def outpoints (w : AccountWallet) : List COutPoint :=
  w.mapWallet.entries.flatMap fun p => p.2.tx.vout.zipIdx.map fun q => ⟨p.1, q.2⟩

/-- A sum over the transactions of the wallet. -/
def overWallet (w : AccountWallet) (f : CachedTx → ℤ) : ℤ := (w.mapWallet.entries.map fun p => f p.2).sum

/-- All transactions of the wallet are in the main chain, which has checked their amounts and has each output
spent once; and an output has the flag when another transaction of the wallet spends it. -/
structure OnMainChain (P : Params) (chain : ChainView) (w : AccountWallet) : Prop where
  caches : w.Valid P
  keys : KeysSet P w
  final : ∀ hash wtx, w.mapWallet.lookup hash = some wtx → chain.isFinal wtx.tx = true
  depth : ∀ hash wtx, w.mapWallet.lookup hash = some wtx → 1 ≤ chain.depth wtx
  nonneg : ∀ hash wtx, w.mapWallet.lookup hash = some wtx → ∀ txout ∈ wtx.tx.vout, 0 ≤ txout.nValue
  value_le : ∀ hash wtx, w.mapWallet.lookup hash = some wtx → wtx.tx.valueOut ≤ MAX_MONEY
  debit_le : ∀ hash wtx, w.mapWallet.lookup hash = some wtx → w.spends P wtx.tx ≤ MAX_MONEY
  spent_once : w.prevouts.Nodup
  spends_other : ∀ hash wtx, w.mapWallet.lookup hash = some wtx → ∀ txin ∈ wtx.tx.vin,
    txin.prevout.hash ≠ hash
  flags : ∀ hash wtx, w.mapWallet.lookup hash = some wtx → ∀ n < wtx.tx.vout.length,
    (wtx.vfSpent.getD n false = true ↔ ∃ hash' wtx', hash' ≠ hash ∧
      w.mapWallet.lookup hash' = some wtx' ∧ ∃ txin ∈ wtx'.tx.vin, txin.prevout = ⟨hash, n⟩)

/-- The entries of the map are found by their key. -/
theorem lookup_of_mem {p : Sigma fun _ : Uint256 => CachedTx} (h : p ∈ w.mapWallet.entries) :
    w.mapWallet.lookup p.1 = some p.2 := AList.mem_lookup_iff.mpr h

/-- An output of a wallet transaction is worth what it brings the wallet. -/
theorem ownValue_of_lookup {hash : Uint256} {wtx : CachedTx} (h : w.mapWallet.lookup hash = some wtx)
    {txout : CTxOut} {n : ℕ} (hn : wtx.tx.vout[n]? = some txout) :
    w.ownValue P ⟨hash, n⟩ = w.ownOut P txout := by
  unfold ownValue
  dsimp only
  rw [h]
  dsimp only
  rw [hn]

/-- The output points of the wallet. -/
theorem mem_outpoints {o : COutPoint} : o ∈ w.outpoints ↔
    ∃ wtx, w.mapWallet.lookup o.hash = some wtx ∧ o.n < wtx.tx.vout.length := by
  unfold outpoints
  rw [List.mem_flatMap]
  constructor
  · rintro ⟨p, hp, ho⟩
    obtain ⟨q, hq, rfl⟩ := List.mem_map.mp ho
    rw [List.mem_zipIdx_iff_getElem?] at hq
    exact ⟨p.2, lookup_of_mem hp, (List.getElem?_eq_some_iff.mp hq).1⟩
  · rintro ⟨wtx, hlookup, hn⟩
    refine ⟨⟨o.hash, wtx⟩, AList.mem_lookup_iff.mp hlookup, ?_⟩
    refine List.mem_map.mpr ⟨(wtx.tx.vout[o.n], o.n), ?_, rfl⟩
    rw [List.mem_zipIdx_iff_getElem?]
    exact List.getElem?_eq_getElem hn

/-- Each of them is listed once. -/
theorem nodup_outpoints : w.outpoints.Nodup := by
  unfold outpoints
  rw [List.nodup_flatMap]
  constructor
  · intro p _
    have hidx : (p.2.tx.vout.zipIdx.map Prod.snd).Nodup := by
      rw [List.zipIdx_map_snd]
      exact List.nodup_range'
    rw [show (p.2.tx.vout.zipIdx.map fun q => (⟨p.1, q.2⟩ : COutPoint)) =
      (p.2.tx.vout.zipIdx.map Prod.snd).map fun n => ⟨p.1, n⟩ by rw [List.map_map]; rfl]
    exact hidx.map fun n n' h => congrArg COutPoint.n h
  · have hkeys := w.mapWallet.nodupKeys
    rw [List.nodupKeys_iff_pairwise] at hkeys
    refine hkeys.imp fun {p p'} hne => ?_
    intro o ho ho'
    obtain ⟨q, -, rfl⟩ := List.mem_map.mp ho
    obtain ⟨q', -, heq⟩ := List.mem_map.mp ho'
    exact hne (congrArg COutPoint.hash heq).symm

/-- A sum over a row of rows. -/
theorem sum_map_flatMap {α β : Type} (f : β → ℤ) (g : α → List β) (l : List α) :
    ((l.flatMap g).map f).sum = (l.map fun a => ((g a).map f).sum).sum := by
  induction l with
  | nil => rfl
  | cons a l ih => rw [List.flatMap_cons, List.map_append, List.sum_append, ih, List.map_cons, List.sum_cons]

/-- Equal amounts have equal sums. -/
theorem sum_congr {α : Type} {f g : α → ℤ} {l : List α} (h : ∀ a ∈ l, f a = g a) :
    (l.map f).sum = (l.map g).sum := congrArg _ (List.map_congr_left h)

namespace OnMainChain

/-- Every transaction of a wallet on the main chain is sound. -/
theorem sound (h : OnMainChain P chain w) {hash : Uint256} {wtx : CachedTx}
    (hlookup : w.mapWallet.lookup hash = some wtx) : Sound P w wtx where
  caches := h.caches hash wtx hlookup
  nonneg := h.nonneg hash wtx hlookup
  value_le := h.value_le hash wtx hlookup
  debit_nonneg txin _ := by
    unfold ownValue
    split
    · exact le_refl 0
    · next prev hprev =>
      split
      · exact le_refl 0
      · next txout hout => exact ownOut_nonneg (h.nonneg _ _ hprev _ (List.mem_of_getElem? hout))
  debit_le := h.debit_le hash wtx hlookup

/-- An own output has the flag when it is among the inputs of the wallet. -/
theorem flag_iff (h : OnMainChain P chain w) {hash : Uint256} {wtx : CachedTx}
    (hlookup : w.mapWallet.lookup hash = some wtx) {n : ℕ} (hn : n < wtx.tx.vout.length) :
    wtx.vfSpent.getD n false = true ↔ (⟨hash, n⟩ : COutPoint) ∈ w.prevouts := by
  rw [h.flags hash wtx hlookup n hn]
  unfold prevouts
  rw [List.mem_flatMap]
  constructor
  · rintro ⟨hash', wtx', -, hlookup', txin, hmem, heq⟩
    exact ⟨⟨hash', wtx'⟩, AList.mem_lookup_iff.mp hlookup', List.mem_map.mpr ⟨txin, hmem, heq⟩⟩
  · rintro ⟨p, hp, ho⟩
    obtain ⟨txin, hmem, heq⟩ := List.mem_map.mp ho
    refine ⟨p.1, p.2, ?_, lookup_of_mem hp, txin, hmem, heq⟩
    have hother := h.spends_other p.1 p.2 (lookup_of_mem hp) txin hmem
    rw [heq] at hother
    exact hother.symm

/-- The outputs of one transaction that are spent. -/
theorem sum_spent_outpoints (h : OnMainChain P chain w) {hash : Uint256} {wtx : CachedTx}
    (hlookup : w.mapWallet.lookup hash = some wtx) :
    (((wtx.tx.vout.zipIdx.map fun q => (⟨hash, q.2⟩ : COutPoint)).filter fun o => o ∈ w.prevouts).map
      (w.ownValue P)).sum = w.spentOf P wtx := by
  rw [List.filter_map, List.map_map]
  unfold spentOf
  have hfilter : wtx.tx.vout.zipIdx.filter ((fun o => decide (o ∈ w.prevouts)) ∘
        fun q => (⟨hash, q.2⟩ : COutPoint)) =
      wtx.tx.vout.zipIdx.filter fun q => wtx.vfSpent.getD q.2 false := by
    refine List.filter_congr fun q hq => ?_
    rw [List.mem_zipIdx_iff_getElem?] at hq
    rw [Bool.eq_iff_iff, Function.comp, decide_eq_true_iff]
    exact (h.flag_iff hlookup (List.getElem?_eq_some_iff.mp hq).1).symm
  rw [hfilter]
  refine sum_congr fun q hq => ?_
  have hmem := List.mem_zipIdx_iff_getElem?.mp (List.mem_of_mem_filter hq)
  exact ownValue_of_lookup hlookup hmem

/-- What the wallet has spent, counted at the inputs and at the outputs. -/
theorem sum_spends (h : OnMainChain P chain w) :
    w.overWallet (fun wtx => w.spends P wtx.tx) = w.overWallet (w.spentOf P) := by
  calc w.overWallet (fun wtx => w.spends P wtx.tx)
      = (w.prevouts.map (w.ownValue P)).sum := by
        unfold prevouts overWallet spends
        rw [sum_map_flatMap]
        refine sum_congr fun p _ => ?_
        rw [List.map_map]
        rfl
    _ = ((w.outpoints.filter fun o => o ∈ w.prevouts).map (w.ownValue P)).sum := by
        refine sum_eq_sum_filter_mem h.spent_once nodup_outpoints fun o _ hnot => ?_
        -- an outpoint that the wallet does not have is worth nothing
        unfold ownValue
        cases hlookup : w.mapWallet.lookup o.hash with
        | none => rfl
        | some wtx =>
          have hnone : wtx.tx.vout[o.n]? = none := by
            rw [List.getElem?_eq_none_iff]
            exact not_lt.mp fun hlt => hnot (mem_outpoints.mpr ⟨wtx, hlookup, hlt⟩)
          dsimp only
          rw [hnone]
    _ = w.overWallet (w.spentOf P) := by
        unfold outpoints overWallet
        rw [List.filter_flatMap, sum_map_flatMap]
        exact sum_congr fun p hp => h.sum_spent_outpoints (lookup_of_mem hp)

/-- What `GetBalance` adds for a transaction. -/
def available (P : Params) (chain : ChainView) (w : AccountWallet) (wtx : CachedTx) : ℤ :=
  if immature P chain wtx then 0 else w.receives P wtx.tx - w.spentOf P wtx

/-- What `getbalance "*"` adds for a transaction. -/
def booked (P : Params) (chain : ChainView) (w : AccountWallet) (wtx : CachedTx) : ℤ :=
  if wtx.tx.isGenerated then if immature P chain wtx then 0 else w.receives P wtx.tx
  else w.receives P wtx.tx - w.spends P wtx.tx

/-- **`GetBalance`** is the sum of what is available, as an `int64`. -/
theorem getBalance (h : OnMainChain P chain w) :
    w.getBalance P chain = .ok ((w.overWallet (available P chain w)).bmod (2 ^ 64)) := by
  have hstep : ∀ p ∈ w.mapWallet.entries, ∀ n : ℤ, w.balanceStep P chain (n.bmod ((2 ^ 64 : ℕ))) p =
      .ok ((n + available P chain w p.2).bmod ((2 ^ 64 : ℕ))) := by
    intro p hp n
    have hlookup := lookup_of_mem hp
    have hfinal := h.final _ _ hlookup
    have hconfirmed : w.isConfirmed P chain p.1 p.2 = .ok true := by
      unfold isConfirmed
      rw [hfinal, if_neg (by simp), if_pos (h.depth _ _ hlookup)]
    unfold balanceStep
    rw [hfinal, hconfirmed, (h.sound hlookup).getAvailableCredit]
    show Except.ok (addInt64 (n.bmod (2 ^ 64)) _) = _
    rw [addInt64_bmod]
    rfl
  have hloop := foldlM_bmod (2 ^ 64) hstep 0
  rwa [Int.zero_bmod, zero_add] at hloop

/-- **`getbalance '*'`** is the sum of what is booked, as an `int64`. -/
theorem getBalanceAll (h : OnMainChain P chain w) :
    w.getBalanceAll P chain 1 = .ok ((w.overWallet (booked P chain w)).bmod (2 ^ 64)) := by
  -- a round adds what is booked of its transaction
  have hstep : ∀ p ∈ w.mapWallet.entries, ∀ n : ℤ, w.balanceAllStep P chain 1 (n.bmod ((2 ^ 64 : ℕ))) p =
      .ok ((n + booked P chain w p.2).bmod ((2 ^ 64 : ℕ))) := by
    intro p hp n
    have hlookup := lookup_of_mem hp
    have hsound := h.sound hlookup
    -- a generated transaction is booked by its age, any other one by what it moves
    obtain ⟨amounts, hamounts, hnet⟩ : ∃ amounts, w.getAmounts P chain p.1 p.2 = .ok amounts ∧
        net chain 1 p.2 amounts = booked P chain w p.2 := by
      unfold booked
      cases hgen : p.2.tx.isGenerated with
      | true =>
        obtain ⟨amounts, heq, hnet⟩ := hsound.getAmounts_generated chain hgen p.1
        exact ⟨amounts, heq, hnet 1⟩
      | false =>
        exact ⟨_, hsound.getAmounts_plain hgen p.1,
          hsound.net_sentReceived h.keys p.1 (h.depth _ _ hlookup)⟩
    unfold balanceAllStep
    rw [h.final _ _ hlookup, hamounts]
    show Except.ok (addAmounts chain 1 p.2 amounts (n.bmod (2 ^ 64))) = _
    rw [addAmounts_bmod, hnet]
  have hloop := foldlM_bmod (2 ^ 64) hstep 0
  rwa [Int.zero_bmod, zero_add] at hloop

/-- Two sums over the wallet are one. -/
theorem overWallet_add (f g : CachedTx → ℤ) :
    w.overWallet (fun wtx => f wtx + g wtx) = w.overWallet f + w.overWallet g := by
  unfold overWallet
  exact List.sum_map_add

/-- The two totals. -/
theorem booked_sub_available (h : OnMainChain P chain w) :
    w.overWallet (booked P chain w) - w.overWallet (available P chain w) =
      w.overWallet (fun wtx => if wtx.tx.isGenerated then w.spends P wtx.tx else 0) -
        w.overWallet (fun wtx => if immature P chain wtx then w.spentOf P wtx else 0) := by
  have hpoint : ∀ wtx, booked P chain w wtx + w.spends P wtx.tx +
      (if immature P chain wtx then w.spentOf P wtx else 0) =
      available P chain w wtx + w.spentOf P wtx + if wtx.tx.isGenerated then w.spends P wtx.tx else 0 := by
    intro wtx
    unfold booked available immature
    cases wtx.tx.isGenerated with
    | true =>
      simp only [Bool.true_and, decide_eq_true_eq, if_true]
      split_ifs
      · ring
      · ring
    | false =>
      simp only [Bool.false_and, Bool.false_eq_true, if_false]
      ring
  have hsum := congrArg w.overWallet (funext hpoint)
  simp only [overWallet_add] at hsum
  linarith [h.sum_spends]

end OnMainChain

end AccountWallet

/-- **The two balances agree** when the own coins that the generated transactions have spent are as many as
those that were spent of generated transactions too early for the wallet: it takes them for immature. -/
theorem getBalance_eq_getBalanceAll_iff (h : w.OnMainChain P chain) : ∃ nTotal nBalance,
    w.getBalance P chain = .ok nTotal ∧ w.getBalanceAll P chain 1 = .ok nBalance ∧
    (nTotal = nBalance ↔ (2 ^ 64 : ℤ) ∣
      w.overWallet (fun wtx => if wtx.tx.isGenerated then w.spends P wtx.tx else 0) -
        w.overWallet fun wtx => if AccountWallet.immature P chain wtx then w.spentOf P wtx else 0) := by
  refine ⟨_, _, h.getBalance, h.getBalanceAll, ?_⟩
  rw [eq_comm, ← h.booked_sub_available]
  exact bmod_eq_bmod_iff

/-! ### A coinstake -/

/-- The conditions on a wallet, each one for all entries of `mapWallet`. -/
theorem AccountWallet.OnMainChain.of_entries (hkeys : AccountWallet.KeysSet P w)
    (hdirty : ∀ p ∈ w.mapWallet.entries, p.2.markDirty = p.2)
    (hchain : ∀ p ∈ w.mapWallet.entries, chain.isFinal p.2.tx = true ∧ 1 ≤ chain.depth p.2)
    (hvalues : ∀ p ∈ w.mapWallet.entries, (∀ txout ∈ p.2.tx.vout, 0 ≤ txout.nValue) ∧
      p.2.tx.valueOut ≤ MAX_MONEY ∧ w.spends P p.2.tx ≤ MAX_MONEY)
    (honce : w.prevouts.Nodup)
    (hother : ∀ p ∈ w.mapWallet.entries, ∀ txin ∈ p.2.tx.vin, txin.prevout.hash ≠ p.1)
    (hflags : ∀ p ∈ w.mapWallet.entries, ∀ n < p.2.tx.vout.length,
      (p.2.vfSpent.getD n false = true ↔ ∃ p' ∈ w.mapWallet.entries, p'.1 ≠ p.1 ∧
        ∃ txin ∈ p'.2.tx.vin, txin.prevout = ⟨p.1, n⟩)) : w.OnMainChain P chain := by
  have hmem : ∀ {hash wtx}, w.mapWallet.lookup hash = some wtx → ⟨hash, wtx⟩ ∈ w.mapWallet.entries :=
    fun h => AList.mem_lookup_iff.mp h
  exact {
    caches := fun hash wtx h => .of_dirty (hdirty _ (hmem h))
    keys := hkeys
    final := fun hash wtx h => (hchain _ (hmem h)).1
    depth := fun hash wtx h => (hchain _ (hmem h)).2
    nonneg := fun hash wtx h => (hvalues _ (hmem h)).1
    value_le := fun hash wtx h => (hvalues _ (hmem h)).2.1
    debit_le := fun hash wtx h => (hvalues _ (hmem h)).2.2
    spent_once := honce
    spends_other := fun hash wtx h => hother _ (hmem h)
    flags := by
      intro hash wtx h n hn
      rw [hflags _ (hmem h) n hn]
      constructor
      · rintro ⟨p', hp', hne, htxin⟩
        exact ⟨p'.1, p'.2, hne, lookup_of_mem hp', htxin⟩
      · rintro ⟨hash', wtx', hne, hlookup', htxin⟩
        exact ⟨⟨hash', wtx'⟩, hmem hlookup', hne, htxin⟩ }

namespace Sample

/-- Two hundred confirmations. -/
def deepChain : ChainView where
  nBestHeight := 1000
  nAdjustedTime := 1500000000
  depth _ := 200

/-- A coinstake with the output of the parent. -/
def stakeTx : CTransaction where
  nTime := 1400000002
  vin := [⟨⟨params.hashTx parentTx, 0⟩, [], UINT_MAX⟩]
  vout := [⟨0, []⟩, ⟨1010000, keyScript⟩]

/-- The parent, and a transaction that spends its output. -/
def spendWallet (tx : CTransaction) : AccountWallet where
  toCacheWallet := { cacheWallet with
    mapWallet := ((∅ : Map Uint256 CachedTx).insert (params.hashTx parentTx) { tx := parentTx, vfSpent := [true] }).insert
      (params.hashTx tx) { tx := tx } }
  names := OrderedMap.empty
  mem_mapAddressBook address := by simp [cacheWallet, OrderedMap.keys, OrderedMap.empty]

/-- The sample wallet has one key. -/
theorem keysSet_spendWallet (tx : CTransaction) : AccountWallet.KeysSet params (spendWallet tx) := by
  intro address hmem
  exact ⟨List.replicate 33 2, Finset.mem_singleton.mp hmem⟩

/-- A wallet whose coin was spent by an ordinary transaction. -/
theorem onMainChain_child : (spendWallet childTx).OnMainChain params deepChain :=
  .of_entries (keysSet_spendWallet _) (by decide) (by decide) (by decide)
    (by decide) (by decide) (by decide)

/-- A wallet whose coin was staked. -/
theorem onMainChain_stake : (spendWallet stakeTx).OnMainChain params deepChain :=
  .of_entries (keysSet_spendWallet _) (by decide) (by decide) (by decide)
    (by decide) (by decide) (by decide)

end Sample

open Sample in

/-- The two numbers agree after the ordinary spend. -/
theorem getBalance_eq_getBalanceAll_iff_child : ∃ nTotal nBalance,
    (spendWallet childTx).getBalance params deepChain = .ok nTotal ∧
    (spendWallet childTx).getBalanceAll params deepChain 1 = .ok nBalance ∧ nTotal = nBalance := by
  obtain ⟨nTotal, nBalance, htotal, hbalance, hiff⟩ := getBalance_eq_getBalanceAll_iff onMainChain_child
  exact ⟨nTotal, nBalance, htotal, hbalance, hiff.mpr (by decide)⟩

open Sample in
/-- The output of the parent is counted although the coinstake has spent it. -/
theorem getBalanceAll_counts_staked : (spendWallet stakeTx).OnMainChain params deepChain ∧
    (spendWallet stakeTx).getBalance params deepChain = .ok 1010000 ∧
    (spendWallet stakeTx).getBalanceAll params deepChain 1 = .ok 2010000 :=
  ⟨onMainChain_stake, by decide, by decide⟩

end Peershares
