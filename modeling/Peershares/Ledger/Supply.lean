import Peershares.Ledger.Chain

/-!
# Money supply

Two accounts of the coins in existence: the running sum `pindex->nMoneySupply`, and the outputs the
transaction index shows as not spent.

The index has finitely many entries, so the value of its unspent outputs is a finite sum (`unspentTotal`). The ledger
of `Framework.Utxo` has a value too, which is a sum over a function; the two are the same sum in two orders
(`unspentTotal_eq_total`), and the invariant of the chain machine says the rest.

For the issue of coins only the coinbases matter, and a proof-of-work block is accepted up to a height at which all
of them together are worth `IPO_SHARES` at most. A coinstake can add its reward, and any other transaction pays out
no more than it spends.

* `ChainState.Reachable.unspentTotal_eq` — in every reachable state they agree
* `coinBaseValue_le` — what all coinbases of a chain are worth
* `ChainState.Reachable.issuance_le` — coinbases never issue more than `IPO_SHARES`, and above that
  the supply grows only by the rewards of coinstakes
-/

open Framework

namespace Peershares

open IndexView

/-! ### The unspent outputs of an index -/

/-- The value of the outputs of one entry whose `vSpent` is null. -/
def unspentValue (files : BlockFiles) (e : CTxIndex) : Int :=
  ((List.range e.vSpent.length).map (fun n =>
    if (e.vSpent[n]?).any CDiskTxPos.isNull then (coinAt files e.pos n).elim 0 Coin.nValue
    else 0)).sum

/-- The sum of `nValue` over all outputs whose `vSpent` entry is null. -/
def unspentTotal (files : BlockFiles) (txIndex : TxIndexMap) : Int :=
  (txIndex.entries.map (fun e => unspentValue files e.2)).sum

/-- The outputs shown after an entry is written. -/
theorem unspent_insert (files : BlockFiles) (txIndex : TxIndexMap) (h : Uint256) (e : CTxIndex) :
    unspent files (txIndex.insert h e).lookup =
      (unspent files txIndex.lookup).put h (fun n =>
        if (e.vSpent[n]?).any CDiskTxPos.isNull then coinAt files e.pos n else none) := by
  funext o
  rw [Map.lookup_insert_update, Ledger.put]
  by_cases heq : o.1 = h
  · rw [if_pos heq]
    simp [unspent, nullAt, posOf, heq]
  · rw [if_neg heq]
    exact unspent_update_of_ne heq _

/-- There are finitely many. -/
theorem unspent_finite (files : BlockFiles) (txIndex : TxIndexMap) :
    (unspent files txIndex.lookup).Finite := by
  induction txIndex using AList.insertRec with
  | H0 =>
    convert Ledger.Finite.empty using 1
    funext o
    simp [unspent, nullAt, Ledger.empty]
  | IH h e txIndex hnew ih =>
    rw [unspent_insert]
    refine ih.put (m := e.vSpent.length) (fun n hn => if_neg ?_)
    simp [List.getElem?_eq_none hn]

/-- The sum over the index is the value of the ledger it shows. -/
theorem unspentTotal_eq_total (files : BlockFiles) (txIndex : TxIndexMap) :
    unspentTotal files txIndex = Ledger.total Coin.nValue (unspent files txIndex.lookup) := by
  induction txIndex using AList.insertRec with
  | H0 =>
    have hempty : unspent files (∅ : TxIndexMap).lookup = Ledger.empty := by
      funext o
      simp [unspent, nullAt, Ledger.empty]
    rw [hempty, Ledger.total_empty]
    rfl
  | IH h e txIndex hnew ih =>
    have hfresh : ∀ n, unspent files txIndex.lookup (h, n) = none := by
      intro n
      simp [unspent, nullAt, AList.lookup_eq_none.mpr hnew]
    have hrow : ∀ n, e.vSpent.length ≤ n →
        (if (e.vSpent[n]?).any CDiskTxPos.isNull then coinAt files e.pos n else none) = none := by
      intro n hn
      simp [List.getElem?_eq_none hn]
    rw [unspent_insert, Ledger.total_put Coin.nValue (unspent_finite files txIndex) hfresh hrow,
      ← ih, unspentTotal, AList.entries_insert_of_notMem hnew, List.map_cons, List.sum_cons,
      add_comm, unspentTotal, unspentValue]
    refine congrArg _ ?_
    rw [Finset.sum_eq_multiset_sum, Finset.range_val, ← Multiset.coe_range, Multiset.map_coe,
      Multiset.sum_coe]
    refine congrArg List.sum (List.map_congr_left (fun n _ => ?_))
    split_ifs <;> rfl

namespace ChainState

variable {P : Params} {s : ChainState}

/-- **Money supply equals the unspent-output total**, in every state any sequence of connects and
disconnects reaches. -/
theorem Reachable.unspentTotal_eq (h : Reachable P s) :
    unspentTotal s.files s.txIndex = s.nMoneySupply s.tip.hash := by
  have hinv := h.inv
  have hne := (hinv.tree.treeOk _ hinv.tree.tip_mem).ne_nil
  rw [unspentTotal_eq_total, hinv.ledger.index.unspent_eq,
    hinv.ledger.supply s.tip List.suffix_rfl hne, supply]

/-- Two coinbases of two coins each. -/
theorem unspentTotal_sample : ∃ s, Sample.chain 2 = some s ∧
    unspentTotal s.files s.txIndex = s.nMoneySupply s.tip.hash ∧
    s.nMoneySupply s.tip.hash = 4000000 := by
  have hrun : (Sample.chain 2).map (fun s => s.nMoneySupply s.tip.hash) = some 4000000 := by
    decide +kernel
  obtain ⟨s, hs, hsupply⟩ := Option.map_eq_some_iff.mp hrun
  exact ⟨s, hs, Reachable.unspentTotal_eq (Sample.reachable_chain hs), hsupply⟩

/-! ### Issuance -/

/-- The value of all coinbase outputs of a chain. -/
def coinBaseValue (files : BlockFiles) (p : BlockPtr) : Int :=
  (p.map (coinBaseValueAt files)).sum

/-- The rewards for the coin age of all coinstakes of a chain. -/
def stakeRewards (nCoinAge : Uint256 → Int) (p : BlockPtr) : Int :=
  (p.map (stakeRewardAt nCoinAge)).sum

/-- The reward of a work block. -/
theorem getProofOfWorkReward_eq : getProofOfWorkReward = 2500000000 := by
  have hipo : IPO_SHARES = 1000000000000 := by norm_num [IPO_SHARES, COIN]
  rw [getProofOfWorkReward, hipo, PROOF_OF_WORK_BLOCKS]
  rfl

/-- The coinbase of an accepted block: a share of the IPO up to the switch height, nothing after. -/
theorem coinBaseValueAt_le {files : BlockFiles} {e : CBlockIndex} {p : BlockPtr}
    (h : TreeOk P files (e :: p)) (hne : p ≠ []) :
    coinBaseValueAt files e ≤
      if ((p.nHeight + 1 : ℕ) : Int) ≤ PROOF_OF_WORK_BLOCKS then getProofOfWorkReward else 0 := by
  obtain ⟨block, hread, hchecked, -, hkind⟩ := h.cons_inv hne
  obtain ⟨cb, rest, hvtx, hcb, hncb, -, hle⟩ := hchecked.shape
  have hfilter : block.vtx.filter CTransaction.isCoinBase = [cb] := by
    rw [hvtx, List.filter_cons_of_pos hcb, List.filter_eq_nil_iff.mpr (by simpa using hncb)]
  simp only [coinBaseValueAt, hread, hfilter, List.map_cons, List.map_nil, List.sum_singleton]
  split_ifs with hheight
  · simpa [hkind.mpr hheight] using hle
  · have hpos : ¬ block.isProofOfWork = true := fun hpow => hheight (hkind.mp hpow)
    simpa [hpos] using hle

/-- The genesis block is not counted. -/
theorem coinBaseValueAt_genesis {files : BlockFiles}
    (hread : files.readBlock 1 8 = some P.genesisBlock) :
    coinBaseValueAt files P.genesisIndex = 0 := by
  simp only [coinBaseValueAt, Params.genesisIndex, CBlock.newIndex, hread, Params.genesisBlock]
  simp [Params.txGenesis, CTransaction.isCoinBase, COutPoint.isNull, COutPoint.null,
    CTransaction.valueOut, CTxOut.empty]

/-- At most one share of the IPO per proof-of-work height has been issued. -/
theorem coinBaseValue_le_of_treeOk {files : BlockFiles} {p : BlockPtr} (h : TreeOk P files p) :
    coinBaseValue files p ≤ getProofOfWorkReward * min (p.nHeight : Int) PROOF_OF_WORK_BLOCKS := by
  induction h with
  | genesis hread =>
    rw [coinBaseValue, List.map_singleton, List.sum_singleton, coinBaseValueAt_genesis hread]
    simp [Params.genesisIndex, CBlock.newIndex, PROOF_OF_WORK_BLOCKS]
  | @accepted pprev nFile nBlockPos block hprev hread hchecked hkind htime ih =>
    have htree : TreeOk P files (block.newIndex P pprev nFile nBlockPos :: pprev) :=
      TreeOk.accepted hprev hread hchecked hkind htime
    have hthis := coinBaseValueAt_le htree hprev.ne_nil
    have hheight : BlockPtr.nHeight (block.newIndex P pprev nFile nBlockPos :: pprev)
        = pprev.nHeight + 1 := by
      simp [CBlock.newIndex, hprev.ne_nil]
    rw [hheight, coinBaseValue, List.map_cons, List.sum_cons]
    rw [coinBaseValue] at ih
    rw [getProofOfWorkReward_eq] at ih hthis ⊢
    simp only [PROOF_OF_WORK_BLOCKS] at ih hthis ⊢
    split_ifs at hthis <;> omega

/-- The work blocks of a chain issue at most the shares of the offering. -/
theorem coinBaseValue_le {files : BlockFiles} {p : BlockPtr} (h : TreeOk P files p) :
    coinBaseValue files p ≤ IPO_SHARES := by
  have hle := coinBaseValue_le_of_treeOk h
  rw [getProofOfWorkReward_eq] at hle
  norm_num [IPO_SHARES, COIN, PROOF_OF_WORK_BLOCKS] at hle ⊢
  omega

/-- The supply at a block of the chain is at most what the coinbases and the coinstakes below it
were allowed to create. -/
theorem Inv.supply_le (h : Inv P s) {q : BlockPtr} (hq : q <:+ s.tip) (hne : q ≠ []) :
    supply P (connectedTxs s.files q) ≤
      coinBaseValue s.files q + stakeRewards s.nCoinAge q := by
  have hok := (h.tree.treeOk _ h.tree.tip_mem).suffix hq hne
  induction hok with
  | genesis hread =>
    have hzero : supply P (connectedTxs s.files [P.genesisIndex]) = 0 := Ledger.total_empty _
    rw [hzero, coinBaseValue, List.map_singleton, List.sum_singleton,
      coinBaseValueAt_genesis hread]
    simp [stakeRewards, stakeRewardAt, Params.genesisIndex, CBlock.newIndex, CBlock.isProofOfStake,
      Params.genesisBlock]
  | @accepted pprev nFile nBlockPos block hprev hread hchecked hkind htime ih =>
    have hrec := ih ((List.suffix_cons _ _).trans hq) hprev.ne_nil
    have hb := h.ledger.bound _ _ hq hprev.ne_nil
    rw [coinBaseValue, stakeRewards] at hrec ⊢
    rw [List.map_cons, List.map_cons, List.sum_cons, List.sum_cons]
    linarith

/-- **Issuance cap.** Coinbases issue at most `IPO_SHARES`; at every block of the chain the money
supply is at most `IPO_SHARES` plus the rewards of the coinstakes so far; and an ordinary
transaction never spends less than it creates. -/
theorem Reachable.issuance_le (h : Reachable P s) :
    coinBaseValue s.files s.tip ≤ IPO_SHARES ∧
    (∀ q : BlockPtr, q <:+ s.tip → q ≠ [] →
      s.nMoneySupply q.hash ≤ IPO_SHARES + stakeRewards s.nCoinAge q) ∧
    ∀ before c after, connectedTxs s.files s.tip = before ++ c :: after →
      c.tx.isGenerated = false →
      c.tx.valueOut ≤ Ledger.spent Coin.nValue (replayTxs P before) (c.ledgerTx P) := by
  have hinv := h.inv
  have htip := hinv.tree.treeOk _ hinv.tree.tip_mem
  refine ⟨coinBaseValue_le htip, fun q hq hne => ?_, fun before c after htxs hgen => ?_⟩
  · rw [hinv.ledger.supply q hq hne]
    have hcap := coinBaseValue_le (htip.suffix hq hne)
    have hsup := hinv.supply_le hq hne
    linarith
  · have hvalid := hinv.ledger.valid
    rw [htxs] at hvalid
    have hthis := hvalid (before.map (ConnectedTx.ledgerTx P)) (c.ledgerTx P)
      (after.map (ConnectedTx.ledgerTx P)) (by simp)
    have hle := hthis.policy.value hgen
    rw [ConnectedTx.created_ledgerTx] at hle
    exact hle

/-- A chain with two work blocks. -/
theorem issuance_sample : ∃ s, Sample.chain 2 = some s ∧
    coinBaseValue s.files s.tip ≤ IPO_SHARES ∧ coinBaseValue s.files s.tip = 4000000 ∧
    s.nMoneySupply s.tip.hash ≤ IPO_SHARES + stakeRewards s.nCoinAge s.tip := by
  have hrun : (Sample.chain 2).map (fun s => coinBaseValue s.files s.tip) = some 4000000 := by
    decide +kernel
  obtain ⟨s, hs, hvalue⟩ := Option.map_eq_some_iff.mp hrun
  have hreach := Sample.reachable_chain hs
  obtain ⟨hcap, hsupply, -⟩ := Reachable.issuance_le hreach
  exact ⟨s, hs, hcap, hvalue, hsupply s.tip List.suffix_rfl
    (hreach.inv.tree.treeOk _ hreach.inv.tree.tip_mem).ne_nil⟩

end ChainState

end Peershares
