import Peershares.Ledger.Chain

/-!
# Disconnecting what was connected

`DisconnectInputs` keeps no undo data: it relies on the index still having an entry for every
transaction whose outputs are to be given back. Disconnecting a transaction erases the entry under
its hash, and when that hash had been used before, the entry of the earlier transaction is the one
that was overwritten. A block below that spent from the earlier one can then not be disconnected.

* `disconnectTransactions_isOk_iff` — a row of transactions can be disconnected exactly when none
  of them has a hash that an earlier one spends from
* `ChainState.Reachable.disconnectBlocks_iff` — the same for the blocks of a run
-/

open Framework

namespace Peershares

open IndexView

variable {P : Params} {files : BlockFiles} {txs new : List ConnectedTx} {txIndex : TxIndexMap}
  {c : ConnectedTx}

/-! ### Rows of transactions -/

/-- `DisconnectInputs` erases one entry and makes none. -/
theorem isSome_disconnectInputs_iff {txIndex' : TxIndexMap}
    (h : c.tx.disconnectInputs P txIndex = .ok txIndex') (k : Uint256) :
    (txIndex'.lookup k).isSome ↔ (txIndex.lookup k).isSome ∧ k ≠ P.hashTx c.tx := by
  obtain ⟨L₁, hmarked, hlook⟩ := disconnectInputs_eq_ok (c := c) rfl h
  have hk : txIndex'.lookup k = Function.update L₁ (P.hashTx c.tx) none k := congrFun hlook k
  rw [hk, Function.update_apply]
  split_ifs with heq
  · simp [heq]
  · simp [heq, hmarked.isSome_iff]

/-- Every entry that is needed is there from the start. -/
theorem isSome_of_disconnectTransactions {txIndex' : TxIndexMap}
    (h : disconnectTransactions P (new.map ConnectedTx.tx).reverse txIndex = .ok txIndex') :
    ∀ c ∈ new, ∀ o ∈ (c.ledgerTx P).spends, (txIndex.lookup o.1).isSome := by
  induction new using List.reverseRecOn generalizing txIndex with
  | nil => simp
  | append_singleton new c ih =>
    rw [List.map_append, List.reverse_append] at h
    obtain ⟨idx, hstep, hrest⟩ := Result.bind_eq_ok.mp h
    intro c' hc' o ho
    rcases List.mem_append.mp hc' with hc' | hc'
    · exact ((isSome_disconnectInputs_iff hstep o.1).mp (ih hrest c' hc' o ho)).1
    · rw [List.mem_singleton.mp hc'] at ho
      exact isSome_of_disconnectInputs hstep o ho

/-- The last transaction can be disconnected when the entries it needs are there. -/
theorem IndexOk.disconnectInputs_isOk (hok : IndexOk P files (txs ++ [c]) txIndex.lookup)
    (hvalid : ValidTxs P (txs ++ [c]))
    (hin : ∀ o ∈ (c.ledgerTx P).spends, (txIndex.lookup o.1).isSome) :
    ∃ txIndex', c.tx.disconnectInputs P txIndex = .ok txIndex' := by
  have hlast := hvalid.valid_last
  have hunspend : ∃ idx, unspendInputs (if c.tx.isCoinBase then [] else c.tx.vin) txIndex
      = .ok idx := by
    refine unspendInputs_isOk_iff.mpr (fun o ho => ?_)
    have hspends : o ∈ (c.ledgerTx P).spends := by
      simp only [ConnectedTx.ledgerTx]
      split_ifs at ho ⊢ with hcb
      · exact absurd ho (by simp [keys])
      · exact ho
    obtain ⟨e, he⟩ := Option.isSome_iff_exists.mp (hin o hspends)
    obtain ⟨c₀, hlatest, -, hlen⟩ := hok.entry o.1 e he
    -- the entry is that of the transaction whose output was spent, so the output is in range
    rw [latestTx_concat, if_neg (fun heq => hlast.id_ne hspends heq.symm)] at hlatest
    obtain ⟨coin, hcoin⟩ := Option.isSome_iff_exists.mp (hlast.unspent o hspends)
    obtain ⟨t, ht, hout⟩ := Ledger.latest_of_replay hcoin
    cases ht.symm.trans hlatest
    have hlt := (List.getElem?_eq_some_iff.mp hout).1
    refine ⟨e.vSpent.length, by simp [outputsOf, he], ?_⟩
    rw [hlen]
    simpa [ConnectedTx.ledgerTx] using hlt
  obtain ⟨idx, hidx⟩ := hunspend
  exact ⟨idx.erase (P.hashTx c.tx), by
    rw [CTransaction.disconnectInputs, hidx]
    rfl⟩

/-- **When a row of transactions can be disconnected**, given that the entries of what it spends
are there. -/
theorem disconnectTransactions_isOk_iff (hok : IndexOk P files (txs ++ new) txIndex.lookup)
    (hvalid : ValidTxs P (txs ++ new)) (hstored : ∀ c ∈ txs ++ new, c.IsStored files)
    (hin : ∀ c ∈ new, ∀ o ∈ (c.ledgerTx P).spends, (txIndex.lookup o.1).isSome) :
    (∃ txIndex', disconnectTransactions P (new.map ConnectedTx.tx).reverse txIndex = .ok txIndex') ↔
      new.Pairwise (fun c c' => ¬ RespendsHash P c c') := by
  induction new using List.reverseRecOn generalizing txIndex with
  | nil => simp [disconnectTransactions]
  | append_singleton new c ih =>
    rw [← List.append_assoc] at hok hvalid hstored
    have hstored' : ∀ c ∈ txs ++ new, c.IsStored files :=
      fun c hmem => hstored c (List.mem_append_left _ hmem)
    -- the last transaction goes first
    obtain ⟨idx, hstep⟩ := hok.disconnectInputs_isOk hvalid (hin c (by simp))
    have hstep_iff := isSome_disconnectInputs_iff hstep
    have hok' := hok.disconnectInputs hvalid hstored' hstep
    have hunfold : ∀ idx', disconnectTransactions P ((new ++ [c]).map ConnectedTx.tx).reverse txIndex
        = .ok idx' ↔ disconnectTransactions P (new.map ConnectedTx.tx).reverse idx = .ok idx' := by
      intro idx'
      rw [List.map_append, List.reverse_append]
      change (c.tx.disconnectInputs P txIndex >>= _) = _ ↔ _
      rw [hstep]
      rfl
    simp only [hunfold, List.pairwise_append, List.pairwise_singleton, true_and,
      List.mem_singleton, forall_eq]
    constructor
    · rintro ⟨idx', hrest⟩
      -- the entries of the others survive it
      have hpresent := isSome_of_disconnectTransactions hrest
      refine ⟨(ih hok' hvalid.of_append hstored' hpresent).mp ⟨idx', hrest⟩, fun c' hc' hre => ?_⟩
      obtain ⟨o, ho, heq⟩ := hre
      exact ((hstep_iff o.1).mp (hpresent c' hc' o ho)).2 heq
    · rintro ⟨hpair, hlast⟩
      -- what they spend is there, as the last one has another hash
      refine (ih hok' hvalid.of_append hstored' (fun c' hc' o ho => ?_)).mpr hpair
      exact (hstep_iff o.1).mpr ⟨hin c' (by simp [hc']) o ho, fun heq => hlast c' hc' ⟨o, ho, heq⟩⟩

/-! ### Runs of `ConnectBlock` -/

/-- No transaction of the later block has a hash that the earlier block spends from. -/
def CBlock.NoReuse (P : Params) (block block' : CBlock) : Prop :=
  ∀ tx ∈ block.vtx, tx.isCoinBase = false → ∀ o ∈ tx.prevouts, ∀ tx' ∈ block'.vtx,
    P.hashTx tx' ≠ o.hash

theorem respendsHash_iff {c c' : ConnectedTx} : RespendsHash P c c' ↔
    c.tx.isCoinBase = false ∧ ∃ o ∈ c.tx.prevouts, o.hash = P.hashTx c'.tx := by
  simp only [RespendsHash, ConnectedTx.ledgerTx]
  split_ifs with hcb
  · simp [hcb]
  · simp [hcb, keys, CTransaction.prevouts, COutPoint.key]

namespace ChainState

variable {s s' s'' : ChainState} {blocks : List CBlock}

/-- The blocks were connected one after the other; others may have been accepted meanwhile. -/
inductive ConnectRun (P : Params) (s : ChainState) : List CBlock → ChainState → Prop where
  | nil : ConnectRun P s [] s
  | grow {blocks : List CBlock} {s' s'' : ChainState} (hrun : ConnectRun P s blocks s')
      (hstep : Step P s' s'') (htip : s''.tip = s'.tip) : ConnectRun P s blocks s''
  | connect {blocks : List CBlock} {s' : ChainState} {pindex : CBlockIndex} {block : CBlock}
      {mempool : Map Uint256 CTransaction} {nBestHeight nAdjustedTime : Int} {st : ConnectState}
      (hrun : ConnectRun P s blocks s') (hmem : pindex :: s'.tip ∈ s'.tree)
      (hread : s'.files.readBlock pindex.nFile pindex.nBlockPos = some block)
      (hconnect : block.connectChecks P (s'.env mempool nBestHeight) nAdjustedTime pindex s'.tip
        = .ok st) :
      ConnectRun P s (blocks ++ [block])
        (s'.connected P (s'.env mempool nBestHeight) pindex block st)

/-- A step that keeps the tip only writes blocks. -/
theorem Step.of_tip_eq (h : Inv P s) (hstep : Step P s s') (htip : s'.tip = s.tip) :
    s'.txIndex = s.txIndex ∧ s'.files.WellFormed ∧ ∀ r ∈ s.files.blocks, r ∈ s'.files.blocks := by
  cases hstep with
  | accept hprev hnew hhash hcheck hcontext hwrite =>
    exact ⟨rfl, h.tree.files.writeToDisk hwrite, writeToDisk_sub hwrite⟩
  | store hwrite => exact ⟨rfl, h.tree.files.writeToDisk hwrite, writeToDisk_sub hwrite⟩
  | connect hmem hread hconnect => exact absurd htip (List.cons_ne_self _ _)
  | disconnect htip' hne hread hdisconnect =>
    rw [htip'] at htip
    exact absurd htip.symm (List.cons_ne_self _ _)

/-- What a run of connects adds to the chain. -/
structure RunOk (P : Params) (s : ChainState) (blocks : List CBlock) (s' : ChainState)
    (new : List ConnectedTx) : Prop where
  inv : Inv P s'
  txs : connectedTxs s'.files s'.tip = connectedTxs s.files s.tip ++ new
  vtx : new.map ConnectedTx.tx = blocks.flatMap CBlock.vtx
  spentEntries : ∀ c ∈ new, ∀ o ∈ (c.ledgerTx P).spends, (s'.txIndex.lookup o.1).isSome
  noReuse : new.Pairwise (fun c c' => ¬ RespendsHash P c c') ↔ blocks.Pairwise (CBlock.NoReuse P)

theorem RunOk.grow {new : List ConnectedTx} (h : RunOk P s blocks s' new) (hstep : Step P s' s'')
    (htip : s''.tip = s'.tip) : RunOk P s blocks s'' new := by
  obtain ⟨hindex, hwf, hsub⟩ := hstep.of_tip_eq h.inv htip
  have htree := h.inv.tree
  refine ⟨⟨htree.step hstep, h.inv.ledger.step htree hstep⟩, ?_, h.vtx, ?_, h.noReuse⟩
  · rw [htip, (htree.treeOk _ htree.tip_mem).connectedTxs_mono hwf hsub]
    exact h.txs
  · rw [hindex]
    exact h.spentEntries

theorem RunOk.connect {new : List ConnectedTx} (h : RunOk P s blocks s' new) {pindex : CBlockIndex}
    {block : CBlock} {mempool : Map Uint256 CTransaction} {nBestHeight nAdjustedTime : Int}
    {st : ConnectState} (hmem : pindex :: s'.tip ∈ s'.tree)
    (hread : s'.files.readBlock pindex.nFile pindex.nBlockPos = some block)
    (hconnect : block.connectChecks P (s'.env mempool nBestHeight) nAdjustedTime pindex s'.tip
      = .ok st) :
    RunOk P s (blocks ++ [block]) (s'.connected P (s'.env mempool nBestHeight) pindex block st)
      (new ++ blockTxs pindex s'.tip
        (StoredBlock.firstTxPos ⟨pindex.nFile, pindex.nBlockPos, block⟩) block.vtx) := by
  have htree := h.inv.tree
  have hne := (htree.treeOk _ htree.tip_mem).ne_nil
  obtain ⟨-, hloop⟩ := h.inv.ledger.loopOk htree hmem hread hconnect
  have hlook : ∀ k, ((st.writeQueued s'.txIndex).lookup k) =
      queued st.mapQueuedChanges s'.txIndex k := congrFun (lookup_writeQueued st s'.txIndex)
  have hstep := Step.connect hmem hread hconnect
  have hvtx := map_tx_blockTxs pindex s'.tip
    (StoredBlock.firstTxPos ⟨pindex.nFile, pindex.nBlockPos, block⟩) block.vtx
  refine ⟨⟨htree.step hstep, h.inv.ledger.step htree hstep⟩, ?_, ?_, ?_, ?_⟩
  · -- the new block's transactions come after those connected so far
    change connectedTxs s'.files (pindex :: s'.tip) = _
    rw [connectedTxs_cons pindex hne hread, h.txs, List.append_assoc]
  · rw [List.map_append, h.vtx, hvtx, List.flatMap_append, List.flatMap_singleton]
  · -- the queue is written, and the entries of the earlier blocks stay
    intro c hc o ho
    change ((st.writeQueued s'.txIndex).lookup o.1).isSome
    rw [hlook]
    rcases List.mem_append.mp hc with hc | hc
    · refine hloop.entries o.1 ?_
      rw [queued_empty]
      exact h.spentEntries c hc o ho
    · exact hloop.spentEntries c hc o ho
  · -- no hash is used again
    rw [List.pairwise_append, List.pairwise_append, h.noReuse]
    refine and_congr_right (fun _ => ?_)
    simp only [hloop.noRespend, true_and, List.pairwise_singleton, List.mem_singleton, forall_eq]
    -- the pairs across the last two blocks, named by transactions on one side and by blocks on the
    -- other
    constructor
    · intro hcross b hb tx htx hcb o ho tx' htx' heq
      have htx₁ : tx ∈ new.map ConnectedTx.tx := by
        rw [h.vtx]
        exact List.mem_flatMap.mpr ⟨b, hb, htx⟩
      rw [← hvtx] at htx'
      obtain ⟨c, hc, rfl⟩ := List.mem_map.mp htx₁
      obtain ⟨c', hc', rfl⟩ := List.mem_map.mp htx'
      exact hcross c hc c' hc' (respendsHash_iff.mpr ⟨hcb, o, ho, heq.symm⟩)
    · intro hblocks c hc c' hc' hre
      obtain ⟨hcb, o, ho, heq⟩ := respendsHash_iff.mp hre
      have hmemc : c.tx ∈ blocks.flatMap CBlock.vtx := by
        rw [← h.vtx]
        exact List.mem_map_of_mem hc
      obtain ⟨b, hb, htx⟩ := List.mem_flatMap.mp hmemc
      have htx' : c'.tx ∈ block.vtx := by
        rw [← hvtx]
        exact List.mem_map_of_mem hc'
      exact hblocks b hb c.tx htx hcb o ho c'.tx htx' heq.symm

theorem ConnectRun.runOk (h : Inv P s) (hrun : ConnectRun P s blocks s') :
    ∃ new, RunOk P s blocks s' new := by
  induction hrun with
  | nil => exact ⟨[], h, by simp, rfl, by simp, by simp⟩
  | grow _ hstep htip ih =>
    obtain ⟨new, hok⟩ := ih
    exact ⟨new, hok.grow hstep htip⟩
  | connect _ hmem hread hconnect ih =>
    obtain ⟨new, hok⟩ := ih
    exact ⟨_, hok.connect hmem hread hconnect⟩

/-- Disconnecting blocks is disconnecting their transactions. -/
theorem disconnectBlocks_reverse (P : Params) (blocks : List CBlock) (txIndex : TxIndexMap) :
    disconnectBlocks P blocks.reverse txIndex =
      disconnectTransactions P (blocks.flatMap CBlock.vtx).reverse txIndex := by
  -- one row after the other
  have happend : ∀ (a b : List CTransaction) (txIndex : TxIndexMap),
      disconnectTransactions P (a ++ b) txIndex =
        disconnectTransactions P a txIndex >>= disconnectTransactions P b := by
    intro a b
    induction a with
    | nil => intro txIndex; rfl
    | cons tx a ih =>
      intro txIndex
      change (tx.disconnectInputs P txIndex >>= fun idx => disconnectTransactions P (a ++ b) idx) = _
      simp only [ih]
      exact (bind_assoc _ _ _).symm
  -- the last block goes first
  induction blocks using List.reverseRecOn generalizing txIndex with
  | nil => rfl
  | append_singleton blocks block ih =>
    rw [List.flatMap_append, List.flatMap_singleton, List.reverse_append, List.reverse_append,
      happend]
    change (block.disconnectIndex P txIndex >>= fun idx => disconnectBlocks P blocks.reverse idx) = _
    simp only [ih]
    rfl

/-- **Undo.** From every reachable state, after connecting any row of blocks, disconnecting them in
reverse order succeeds and gives back the unspent outputs, if and only if no block of the row has a
transaction whose hash an earlier block of the row spends from. -/
theorem Reachable.disconnectBlocks_iff (h : Reachable P s) (hrun : ConnectRun P s blocks s') :
    (∃ txIndex, disconnectBlocks P blocks.reverse s'.txIndex = .ok txIndex ∧
      unspent s'.files txIndex.lookup = unspent s.files s.txIndex.lookup) ↔
    blocks.Pairwise (CBlock.NoReuse P) := by
  obtain ⟨new, hok⟩ := hrun.runOk h.inv
  have hledger := hok.inv.ledger
  have hindex := hledger.index
  have hvalid := hledger.valid
  have hstored := (hok.inv.tree.treeOk _ hok.inv.tree.tip_mem).isStored hok.inv.tree.files
  rw [hok.txs] at hindex hvalid hstored
  rw [← hok.noReuse, ← disconnectTransactions_isOk_iff hindex hvalid hstored hok.spentEntries]
  simp only [disconnectBlocks_reverse, ← hok.vtx]
  refine exists_congr (fun txIndex => and_iff_left_of_imp (fun hdis => ?_))
  rw [(hindex.disconnectTransactions hvalid hstored hdis).unspent_eq,
    h.inv.ledger.index.unspent_eq]

theorem ConnectRun.extend {nAdjustedTime : Int} {block : CBlock} (h : Inv P s')
    (hrun : ConnectRun P s blocks s') (he : s'.extend P nAdjustedTime block = some s'') :
    ConnectRun P s (blocks ++ [block]) s'' := by
  obtain ⟨files, nFile, nBlockPos, st, hnew, hcheck, hcontext, hwrite, hconnect, rfl⟩ :=
    extend_eq_some he
  refine (hrun.grow (Step.accept h.tree.tip_mem hnew.2 hnew.1 hcheck hcontext hwrite) rfl).connect
    List.mem_cons_self ?_ hconnect
  exact readBlock_of_writeToDisk h.tree.files hwrite

/-- Two blocks of the sample network, and back. -/
theorem disconnectBlocks_sample : ∃ s₁ s₂, Sample.chain 1 = some s₁ ∧ Sample.chain 2 = some s₂ ∧
    ∃ txIndex, disconnectBlocks Sample.params
        [Sample.blockOn s₁.tip 2 [Sample.coinBase 2],
          Sample.blockOn (init Sample.params).tip 1 [Sample.coinBase 1]] s₂.txIndex
        = .ok txIndex ∧
      unspent s₂.files txIndex.lookup =
        unspent (init Sample.params).files (init Sample.params).txIndex.lookup := by
  have hsome : (Sample.chain 2).isSome = true := by decide +kernel
  obtain ⟨s₂, h₂⟩ := Option.isSome_iff_exists.mp hsome
  obtain ⟨s₁, h₁, he⟩ := Option.bind_eq_some_iff.mp h₂
  have hreach₁ := Sample.reachable_chain h₁
  have he₁ : Sample.extendBy 1 [Sample.coinBase 1] (init Sample.params) = some s₁ := h₁
  have hrun := (ConnectRun.extend (Reachable.inv Relation.ReflTransGen.refl) ConnectRun.nil
    he₁).extend hreach₁.inv he
  refine ⟨s₁, s₂, h₁, h₂, (Reachable.disconnectBlocks_iff Relation.ReflTransGen.refl hrun).mpr ?_⟩
  refine List.pairwise_pair.mpr (fun tx htx hcb => ?_)
  rw [List.mem_singleton.mp htx] at hcb
  exact absurd hcb (by decide)

/-- On the sample network a coinbase is spent and its hash used again: the two blocks were connected
and cannot be disconnected. -/
theorem disconnectBlocks_reusedHash : ¬ ∀ (P : Params) (s s' : ChainState) (blocks : List CBlock),
    Reachable P s → ConnectRun P s blocks s' →
    ∃ txIndex, disconnectBlocks P blocks.reverse s'.txIndex = .ok txIndex ∧
      unspent s'.files txIndex.lookup = unspent s.files s.txIndex.lookup := by
  intro hall
  obtain ⟨⟨s₁, s₂, s₃⟩, hrun, hfacts⟩ := Option.map_eq_some_iff.mp Sample.reusedHash_run
  obtain ⟨hreach, h₂, h₃⟩ := Sample.reusedHash_eq_some hrun
  have hreach₂ := Sample.reachable_extendBy hreach h₂
  have hconnected := (ConnectRun.extend hreach.inv ConnectRun.nil h₂).extend hreach₂.inv h₃
  obtain ⟨txIndex, hok, -⟩ := hall _ _ _ _ hreach hconnected
  have hfail : (disconnectBlocks Sample.params [Sample.blockOn s₂.tip 62 [Sample.coinBase 1],
      Sample.blockOn s₁.tip 61 [Sample.coinBase 61, Sample.spendFirst]] s₃.txIndex).isOk = false :=
    (Prod.mk.inj hfacts).2
  change disconnectBlocks Sample.params [Sample.blockOn s₂.tip 62 [Sample.coinBase 1],
      Sample.blockOn s₁.tip 61 [Sample.coinBase 61, Sample.spendFirst]] s₃.txIndex = _ at hok
  rw [hok] at hfail
  exact absurd hfail (by simp [Except.isOk, Except.toBool])

end ChainState

end Peershares
