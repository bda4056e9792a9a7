import Peershares.BestChain.Exceptions
import Peershares.Ledger.Chain
import Peershares.Model.Reaccept

/-!
# The transactions of the main chain are funded

What a connected transaction spends was created by a transaction before it, and is not more than there can be. The
second loop of `ConnectInputs` compares the hashes only when it verifies the signatures, but the index has a
transaction under its hash.

* `funded_of_round` — one round of `ConnectBlock`
* `ChainState.Reachable.funded` — every connected transaction of a chain
* `mainChainTxs_eq` — the main chain is genesis and what was connected
-/

open Framework

namespace Peershares

open IndexView

section Connect

variable {P : Params} {env : ConnectEnv} {pindex : CBlockIndex} {pprev : BlockPtr} {fStrict : Bool}
  {st st' : ConnectState} {tx : CTransaction} {txs : List ConnectedTx} {L : IndexView}

/-- What is fetched under a hash has this hash. -/
theorem IndexOk.hashTx_of_fetched (hok : IndexOk P env.files txs L) (hstored : ∀ c ∈ txs, c.IsStored env.files)
    {h : Uint256} {prev : CTxIndex × CTransaction} (hfetched : Fetched env L h prev) : P.hashTx prev.2 = h := by
  obtain ⟨hL, hread⟩ := hfetched
  -- the entry under the hash is that of a connected transaction, which the file still has
  obtain ⟨c, hlatest, hpos, -⟩ := hok.entry _ _ hL
  obtain ⟨hreadTx, -, hne⟩ := hstored c (mem_of_latestTx hlatest)
  rw [← hpos] at hreadTx hne
  have hsame : prev.2 = c.tx := Option.some.inj ((hread hne).symm.trans hreadTx)
  rw [hsame]
  exact Ledger.id_of_latest hlatest

theorem funded_of_round
    (hok : IndexOk P env.files txs (queued st.mapQueuedChanges env.txIndex))
    (hstored : ∀ c ∈ txs, c.IsStored env.files)
    (h : connectTransaction P env pindex pprev fStrict st tx = .ok st') : tx.Funded P := by
  by_cases hcb : tx.isCoinBase = true
  · exact Or.inl hcb
  · -- the first loop of `ConnectInputs` has looked at the values, and none of its checks depends on `fStrict`
    simp only [connectTransaction, connectValue, if_neg hcb, connectSpending, CTransaction.connectInputs,
      Result.bind_eq_ok] at h
    obtain ⟨_, -, _, ⟨inputs, hfetch, _, -, _, -, _, -, _, ⟨_, hvalues, -⟩, -⟩, -⟩ := h
    obtain ⟨vout, hall, hnonneg, hle⟩ := values_of_checkInputs hvalues (by decide)
    have hfetched := CTransaction.fetchInputs_eq_ok rfl hfetch
    refine Or.inr ⟨vout, hall.imp ?_, hnonneg, by simpa using hle⟩
    rintro txin txout ⟨prev, hlookup, hout⟩
    exact ⟨prev.2, hok.hashTx_of_fetched hstored (hfetched _ _ hlookup), hout⟩

theorem connectTransactions_append {a b : List CTransaction} :
    connectTransactions P env pindex pprev fStrict (a ++ b) st =
      (connectTransactions P env pindex pprev fStrict a st).bind
        (connectTransactions P env pindex pprev fStrict b) := by
  induction a generalizing st with
  | nil => rfl
  | cons tx a ih =>
    rw [List.cons_append, connectTransactions, connectTransactions]
    cases connectTransaction P env pindex pprev fStrict st tx with
    | error e => rfl
    | ok st₁ => exact ih

theorem mem_blockTxs_append {c : ConnectedTx} {n : ℕ} {a b : List CTransaction} (h : c ∈ blockTxs pindex pprev n a) :
    c ∈ blockTxs pindex pprev n (a ++ b) := by
  induction a generalizing n with
  | nil => exact absurd h List.not_mem_nil
  | cons tx a ih =>
    rw [blockTxs, List.mem_cons] at h
    rw [List.cons_append, blockTxs, List.mem_cons]
    exact h.imp id ih

/-- The loop of `ConnectBlock`: each transaction after those before it. -/
theorem funded_of_loop {vtx : List CTransaction}
    (hok : IndexOk P env.files txs (queued st.mapQueuedChanges env.txIndex)) (hvalid : ValidTxs P txs)
    (hstored : ∀ c ∈ txs, c.IsStored env.files)
    (hc : ∀ c ∈ blockTxs pindex pprev st.nTxPos vtx, c.IsStored env.files)
    (hfresh : ∀ tx ∈ vtx, ∀ n, replayTxs P txs (P.hashTx tx, n) = none) (hnodup : (vtx.map P.hashTx).Nodup)
    (h : connectTransactions P env pindex pprev fStrict vtx st = .ok st') : ∀ tx ∈ vtx, tx.Funded P := by
  intro tx htx
  -- the transactions before it leave an index that is right, and the round finds its inputs there
  obtain ⟨before, after, rfl⟩ := List.append_of_mem htx
  rw [connectTransactions_append] at h
  obtain ⟨st₁, hbefore, hrest⟩ := Result.bind_eq_ok.mp h
  rw [connectTransactions] at hrest
  obtain ⟨st₂, hthis, -⟩ := Result.bind_eq_ok.mp hrest
  rw [List.map_append] at hnodup
  have hloop := hok.connectTransactions hvalid hstored (fun c hmem => hc c (mem_blockTxs_append hmem))
    (fun t ht => hfresh t (List.mem_append_left _ ht)) (List.nodup_append.mp hnodup).1 hbefore
  refine funded_of_round hloop.index (fun c hmem => ?_) hthis
  rcases List.mem_append.mp hmem with hmem | hmem
  · exact hstored c hmem
  · exact hc c (mem_blockTxs_append hmem)

end Connect

/-! ### The main chain -/

section

variable {P : Params} {files : BlockFiles} {p : BlockPtr}

/-- The transactions from genesis on. -/
theorem mainChainTxs_eq (h : TreeOk P files p) :
    mainChainTxs files p = P.txGenesis :: (connectedTxs files p).map ConnectedTx.tx := by
  induction h with
  | genesis hread =>
    have hblock : files.readBlock P.genesisIndex.nFile P.genesisIndex.nBlockPos = some P.genesisBlock := hread
    simp [mainChainTxs, hblock, connectedTxs, Params.genesisBlock]
  | @accepted pprev nFile nBlockPos block hprev hread _ _ _ ih =>
    have hblock : files.readBlock (block.newIndex P pprev nFile nBlockPos).nFile
      (block.newIndex P pprev nFile nBlockPos).nBlockPos = some block := hread
    have hnext : mainChainTxs files (block.newIndex P pprev nFile nBlockPos :: pprev) =
        mainChainTxs files pprev ++ block.vtx := by
      simp [mainChainTxs, hblock]
    rw [hnext, ih, connectedTxs_cons _ hprev.ne_nil hblock, List.map_append, map_tx_blockTxs, List.cons_append]

end

namespace ChainState

variable {P : Params} {s s' : ChainState}

/-- Every connected transaction of the chain is funded. -/
def AllFunded (P : Params) (s : ChainState) : Prop := ∀ c ∈ connectedTxs s.files s.tip, c.tx.Funded P

theorem AllFunded.step (h : AllFunded P s) (hinv : Inv P s) (hstep : Step P s s') : AllFunded P s' := by
  have htip := hinv.tree.treeOk _ hinv.tree.tip_mem
  cases hstep with
  | accept hprev hnew hhash hcheck hcontext hwrite =>
    -- a stored block changes no connected transaction
    have hsame := htip.connectedTxs_mono (hinv.tree.files.writeToDisk hwrite) (writeToDisk_sub hwrite)
    intro c hc
    exact h c ((congrArg (c ∈ ·) hsame).mp hc)
  | store hwrite =>
    have hsame := htip.connectedTxs_mono (hinv.tree.files.writeToDisk hwrite) (writeToDisk_sub hwrite)
    intro c hc
    exact h c ((congrArg (c ∈ ·) hsame).mp hc)
  | @connect pindex block mempool nBestHeight nAdjustedTime st hmem hread hconnect =>
    intro c hc
    change c ∈ connectedTxs s.files (pindex :: s.tip) at hc
    rw [connectedTxs_cons pindex htip.ne_nil hread, List.mem_append] at hc
    rcases hc with hc | hc
    · exact h c hc
    · have hloop := hconnect
      simp only [CBlock.connectChecks, Result.bind_eq_ok, require_eq_ok] at hloop
      obtain ⟨_, hcheck, -, hbip30, hloop⟩ := hloop
      have hchecked := CBlock.checked_of_checkBlock hcheck
      -- BIP 30 is what makes the hashes of the block new
      have hfresh := fresh_of_overwritesUnspent block hinv.ledger.index (by
        simpa [bip30Active_of_treeOk (hinv.tree.treeOk _ hmem) List.mem_cons_self, env] using hbip30)
      have hindex : IndexOk P (s.env mempool nBestHeight).files (connectedTxs s.files s.tip)
          (queued (∅ : TxIndexMap) (s.env mempool nBestHeight).txIndex) := by
        rw [queued_empty]
        exact hinv.ledger.index
      refine funded_of_loop hindex hinv.ledger.valid (htip.isStored hinv.tree.files)
        (isStored_of_mem_blockTxs hinv.tree.files pindex hread) hfresh hchecked.txids_nodup hloop c.tx ?_
      have hmap := List.mem_map_of_mem (f := ConnectedTx.tx) hc
      rwa [map_tx_blockTxs] at hmap
  | @disconnect pindex pprev block txIndex hcur hne hread hdisconnect =>
    intro c hc
    refine h c ?_
    rw [hcur, connectedTxs_cons pindex hne hread]
    exact List.mem_append_left _ hc

theorem Reachable.funded (h : Reachable P s) : AllFunded P s := by
  induction h with
  | refl => exact fun c hc => absurd hc List.not_mem_nil
  | tail hreach hstep ih => exact ih.step (Reachable.inv hreach) hstep

end ChainState

end Peershares
