import Peershares.BestChain.Tree

/-!
# Memory and disk agree on the best chain

After a call of `SetBestChain` that connected all the blocks it set out to connect, the best block in
memory is the one whose hash is committed, the links lead to it, and the committed index is that of
its chain. The index is compared with the chain machine: disconnecting the old branch and connecting
the new one are runs of `ChainState.Step`.

A call goes through states in which memory and disk differ: inside a database transaction the blocks are already
disconnected while `pindexBest` is still the old one. `ConnectedTo` says of such a state up to which block the
index is connected. The first switch goes there from the old tip, and every postponed block takes one step more,
each in a transaction of its own. So when a postponed block fails, memory and disk stay at the block before it and
agree, but not about the block that the call was made for.

* `IndexShows` — the index is what the chain machine has at this block
* `ConnectedTo.extend`, `ConnectedTo.switch` — one block more, and a reorganization
* `Agrees` — the invariant, with `Agrees.step` for one step of the node
* `PostponedConnect` — all the postponed blocks of a call can be connected
* `Run.agreement` — every state, and every call that returned
* `setBestChain_disagrees` — a call that returned after a postponed block had failed
-/

open Framework Framework.Command

namespace Peershares

/-! ### The index of a chain -/

/-- The chain machine reaches a state on this tree with tip `q` and this index: every block of the
chain above genesis has been connected by `ConnectBlock`, and not been disconnected since. -/
def IndexShows (P : Params) (g : Globals) (q : BlockPtr) (txIndex : TxIndexMap) : Prop :=
  ∃ c : ChainState, ChainState.Reachable P c ∧ c.files = g.files ∧
    (∀ p, p ∈ c.tree ↔ g.InTree p) ∧ c.tip = q ∧ c.txIndex = txIndex

namespace IndexShows

variable {P : Params} {H : Host} {g g' : Globals} {p q : BlockPtr} {e : CBlockIndex}
  {block : CBlock} {txIndex txIndex' : TxIndexMap}

/-- Only the tree and the files matter. -/
theorem congr (h : IndexShows P g q txIndex) (hmap : g'.mapBlockIndex = g.mapBlockIndex)
    (hfiles : g'.files = g.files) : IndexShows P g' q txIndex := by
  obtain ⟨c, hreach, hcfiles, hctree, htip, hindex⟩ := h
  refine ⟨c, hreach, hcfiles.trans hfiles.symm, ?_, htip, hindex⟩
  intro p
  rw [hctree p]
  unfold Globals.InTree
  rw [hmap]

/-- `ConnectBlock` on the tip. -/
theorem connect (h : IndexShows P g q txIndex) (hin : g.InTree (e :: q))
    (hread : g.files.readBlock e.nFile e.nBlockPos = some block)
    (hindex : connectedIndex P H g block e q txIndex = some txIndex') :
    IndexShows P g (e :: q) txIndex' := by
  obtain ⟨c, hreach, hfiles, htree, rfl, rfl⟩ := h
  unfold connectedIndex at hindex
  cases hconnect : block.connectChecks P (g.connectEnv c.txIndex) H.nAdjustedTime e c.tip with
  | error err =>
    rw [hconnect] at hindex
    exact absurd hindex (by simp)
  | ok st =>
    rw [hconnect] at hindex
    simp only at hindex
    split_ifs at hindex
    cases hindex
    -- the block is checked against the index of the chain state
    have henv : g.connectEnv c.txIndex = c.env g.mempool.mapTx g.nBestHeight := by
      unfold Globals.connectEnv ChainState.env
      rw [hfiles]
    rw [henv] at hconnect
    rw [← hfiles] at hread
    exact ⟨_, hreach.tail (ChainState.Step.connect ((htree _).mpr hin) hread hconnect),
      hfiles, htree, rfl, rfl⟩

/-- `DisconnectBlock` of the tip. -/
theorem disconnect (h : IndexShows P g (e :: q) txIndex) (hne : q ≠ [])
    (hread : g.files.readBlock e.nFile e.nBlockPos = some block)
    (hindex : disconnectedIndex P H block e q txIndex = some txIndex') :
    IndexShows P g q txIndex' := by
  obtain ⟨c, hreach, hfiles, htree, htip, rfl⟩ := h
  unfold disconnectedIndex at hindex
  cases hdisconnect : block.disconnectIndex P c.txIndex with
  | error err =>
    rw [hdisconnect] at hindex
    exact absurd hindex (by simp)
  | ok txIndex₁ =>
    rw [hdisconnect] at hindex
    simp only at hindex
    split_ifs at hindex
    cases hindex
    rw [← hfiles] at hread
    exact ⟨_, hreach.tail (ChainState.Step.disconnect htip hne hread hdisconnect),
      hfiles, htree, rfl, rfl⟩

/-- A whole branch is disconnected, down to the fork. -/
theorem disconnectBranch {pfork : BlockPtr} (h : IndexShows P g p txIndex) (hs : pfork <:+ p)
    (hne : pfork ≠ []) {blocks : List CBlock}
    (hprogress : progress P H g.files (disconnectedIndex P H) (BlockPtr.above pfork p) txIndex =
      (blocks, some txIndex')) : IndexShows P g pfork txIndex' := by
  induction p generalizing txIndex blocks with
  | nil => exact absurd (List.suffix_nil.mp hs) hne
  | cons e p ih =>
    rcases List.suffix_cons_iff.mp hs with rfl | hs
    · rw [BlockPtr.above_self, progress] at hprogress
      cases hprogress
      exact h
    · rw [BlockPtr.above_cons e hs, progress] at hprogress
      -- genesis is never disconnected
      have hpne : p ≠ [] := by
        rintro rfl
        exact hne (List.suffix_nil.mp hs)
      -- the block has been read, so it is the one that was connected
      cases hread : readFromDisk P H g.files e with
      | error err =>
        rw [hread] at hprogress
        exact absurd hprogress (by simp)
      | ok block =>
        rw [hread] at hprogress
        simp only at hprogress
        cases hindex : disconnectedIndex P H block e p txIndex with
        | none =>
          rw [hindex] at hprogress
          exact absurd hprogress (by simp)
        | some txIndex₁ =>
          rw [hindex] at hprogress
          simp only [Prod.mk.injEq] at hprogress
          exact ih (h.disconnect hpne (readFromDisk_eq_ok hread).1 hindex) hs (Prod.ext rfl hprogress.2)

/-- A whole branch is connected, up to its last block. -/
theorem connectBranch (ht : g.TreeInv P) (hp : g.InTree p) {row : List (CBlockIndex × BlockPtr)}
    (h : IndexShows P g q txIndex) (hs : q <:+ p) (hrow : row = (BlockPtr.above q p).reverse)
    {blocks : List CBlock}
    (hprogress : progress P H g.files (connectedIndex P H g) row txIndex = (blocks, some txIndex')) :
    IndexShows P g p txIndex' := by
  induction row generalizing q txIndex blocks with
  | nil =>
    rw [progress] at hprogress
    cases hprogress
    rcases BlockPtr.above_reverse_cases hs with ⟨rfl, -⟩ | ⟨e, -, heq⟩
    · exact h
    · rw [heq] at hrow
      exact absurd hrow (by simp)
  | cons x row ih =>
    -- the row and the branch above `q` get shorter together
    rcases BlockPtr.above_reverse_cases hs with ⟨-, heq⟩ | ⟨e, hes, heq⟩
    · rw [heq] at hrow
      exact absurd hrow (by simp)
    · rw [heq] at hrow
      cases hrow
      rw [progress] at hprogress
      cases hread : readFromDisk P H g.files e with
      | error err =>
        rw [hread] at hprogress
        exact absurd hprogress (by simp)
      | ok block =>
        rw [hread] at hprogress
        simp only at hprogress
        cases hindex : connectedIndex P H g block e q txIndex with
        | none =>
          rw [hindex] at hprogress
          exact absurd hprogress (by simp)
        | some txIndex₁ =>
          rw [hindex] at hprogress
          simp only [Prod.mk.injEq] at hprogress
          have hin := ht.suffix hp hes (by simp)
          have hnext := h.connect hin (readFromDisk_eq_ok hread).1 hindex
          exact ih hnext hes rfl (Prod.ext rfl hprogress.2)

/-- `Reorganize` takes the index from one block to another. -/
theorem reorganize {pfork : BlockPtr} (ht : g.TreeInv P) (h : IndexShows P g p txIndex)
    (hq : g.InTree q) (hp : pfork <:+ p) (hs : pfork <:+ q) (hne : pfork ≠ [])
    (hprogress : (reorganizeProgress P H g (BlockPtr.above pfork p)
      (BlockPtr.above pfork q).reverse txIndex).2.2 = some txIndex') : IndexShows P g q txIndex' := by
  unfold reorganizeProgress at hprogress
  cases hdisc : progress P H g.files (disconnectedIndex P H) (BlockPtr.above pfork p) txIndex with
  | mk disconnected r =>
    rw [hdisc] at hprogress
    cases r with
    | none => exact absurd hprogress (by simp)
    | some txIndex₁ =>
      exact connectBranch ht hq (h.disconnectBranch hp hne hdisc) hs rfl (Prod.ext rfl hprogress)

/-- Writing a block to disk changes no index. -/
theorem store (h : IndexShows P g q txIndex) {files : BlockFiles} {nFile nBlockPos : ℕ}
    (hwrite : g.files.writeToDisk block = some (files, nFile, nBlockPos)) :
    IndexShows P { g with files } q txIndex := by
  obtain ⟨c, hreach, hfiles, htree, htip, hindex⟩ := h
  rw [← hfiles] at hwrite
  exact ⟨_, hreach.tail (ChainState.Step.store hwrite), rfl, htree, htip, hindex⟩

/-- Nor does a new block of the tree. -/
theorem insert (ht : g.TreeInv P) (h : IndexShows P g q txIndex) {files : BlockFiles}
    {nFile nBlockPos : ℕ} {pprev : BlockPtr} {nBestHeight nAdjustedTime nAdjustedTime' : Int}
    (hprev : g.mapBlockIndex.lookup block.hashPrevBlock = some pprev)
    (hnew : g.mapBlockIndex.lookup (block.getHash P) = none)
    (hcheck : block.checkBlock P nAdjustedTime = .ok ())
    (hcontext : block.acceptBlockContext P nBestHeight nAdjustedTime' pprev = .ok ())
    (hwrite : g.files.writeToDisk block = some (files, nFile, nBlockPos)) :
    IndexShows P { g with
      files
      mapBlockIndex := g.mapBlockIndex.insert (block.getHash P)
        (block.newIndex P pprev nFile nBlockPos :: pprev) } q txIndex := by
  obtain ⟨c, hreach, hfiles, htree, htip, hindex⟩ := h
  rw [← hfiles] at hwrite
  have hprevHash := ht.keyed _ _ hprev
  have hprevIn : g.InTree pprev := by
    unfold Globals.InTree
    rw [hprevHash]
    exact hprev
  -- no block of the tree has its hash
  have hfresh : ∀ p ∈ c.tree, p.hash ≠ block.getHash P := by
    intro p hp heq
    have hin := (htree p).mp hp
    unfold Globals.InTree at hin
    rw [heq, hnew] at hin
    exact absurd hin (by simp)
  refine ⟨_, hreach.tail (ChainState.Step.accept ((htree pprev).mpr hprevIn) hfresh hprevHash.symm
    hcheck hcontext hwrite), rfl, ?_, htip, hindex⟩
  intro p
  unfold Globals.InTree ChainState.accepted
  rw [List.mem_cons, Map.lookup_insert_eq]
  constructor
  · rintro (rfl | hp)
    · exact if_pos rfl
    · rw [if_neg (hfresh p hp)]
      exact (htree p).mp hp
  · intro hp
    split_ifs at hp
    · exact Or.inl (Option.some.inj hp).symm
    · exact Or.inr ((htree p).mpr hp)

end IndexShows

/-! ### Connected up to a block -/

/-- The links, the committed hash and the committed index are those of the chain of `q`, on the tree
of `g`. -/
structure ConnectedTo (P : Params) (g : Globals) (q : BlockPtr) (n : Node) : Prop where
  mapBlockIndex : n.mapBlockIndex = g.mapBlockIndex
  files : n.files = g.files
  pindexGenesisBlock : n.pindexGenesisBlock = g.pindexGenesisBlock
  vTxn : n.txdb.vTxn = []
  hashBestChain : n.txdb.committed.hashBestChain = some q.hash
  linked : Linked n.pnext q
  index : IndexShows P g q n.txdb.committed.txIndex

namespace ConnectedTo

variable {P : Params} {H : Host} {g : Globals} {p q : BlockPtr} {e : CBlockIndex} {block : CBlock}
  {n n' : Node} {d' : TxDbData}

/-- `SetBestChainInner` on the next block. -/
theorem extend (h : ConnectedTo P g q n) (ht : g.TreeInv P) (hin : g.InTree (e :: q))
    (hread : g.files.readBlock e.nFile e.nBlockPos = some block)
    (hhash : block.getHash P = e.hashBlock)
    (hext : Extended P H block e q n n.txdb.committed.txIndex n' d') :
    ConnectedTo P g (e :: q) n' := by
  have hg := hext.globals
  have hsame : IndexShows P n.toGlobals q n.txdb.committed.txIndex :=
    h.index.congr h.mapBlockIndex h.files
  -- the parent gets a successor, and the tree stays
  have hpnext : n'.pnext = Function.update n.pnext q.hash (e :: q) := by
    rw [hg]
    unfold Globals.setNext
    rw [if_neg (by simpa using hext.pprev_ne)]
  have hkeep : n'.mapBlockIndex = n.mapBlockIndex ∧ n'.files = n.files ∧
      n'.pindexGenesisBlock = n.pindexGenesisBlock := by
    rw [hg]
    unfold Globals.setNext
    split_ifs <;> exact ⟨rfl, rfl, rfl⟩
  rw [← h.files] at hread
  have hin' : n.toGlobals.InTree (e :: q) := by
    unfold Globals.InTree
    rw [h.mapBlockIndex]
    exact hin
  refine ⟨hkeep.1.trans h.mapBlockIndex, hkeep.2.1.trans h.files,
    hkeep.2.2.trans h.pindexGenesisBlock, ?_, ?_, ?_, ?_⟩
  · rw [hext.txdb]
  · rw [hext.txdb]
    change d'.hashBestChain = some e.hashBlock
    rw [hext.hashBestChain, hhash]
  · rw [hpnext]
    exact h.linked.extend ht hin hext.pprev_ne
  · rw [hext.txdb]
    exact (hsame.connect hin' hread hext.index).congr h.mapBlockIndex.symm h.files.symm

/-- `Reorganize` to another block. -/
theorem switch {pfork : BlockPtr} (h : ConnectedTo P g n.pindexBest n) (ht : g.TreeInv P)
    (hbest : g.InTree n.pindexBest) (hin : g.InTree q)
    (hswitched : Switched P H q pfork n n.txdb.committed.txIndex n' d') : ConnectedTo P g q n' := by
  obtain ⟨hfb, hfq, hne⟩ := BlockPtr.findFork_eq_ok hswitched.fork
  obtain ⟨mempool, hg⟩ := hswitched.globals
  rw [relink_eq] at hg
  have hsame : IndexShows P n.toGlobals n.pindexBest n.txdb.committed.txIndex :=
    h.index.congr h.mapBlockIndex h.files
  -- the node has the tree of `g`
  have htn : n.toGlobals.TreeInv P := ht.congr h.mapBlockIndex h.files
  have hin' : n.toGlobals.InTree q := by
    unfold Globals.InTree
    rw [h.mapBlockIndex]
    exact hin
  refine ⟨?_, ?_, ?_, ?_, ?_, ?_, ?_⟩
  · rw [hg]
    exact h.mapBlockIndex
  · rw [hg]
    exact h.files
  · rw [hg]
    exact h.pindexGenesisBlock
  · rw [hswitched.txdb]
  · rw [hswitched.txdb]
    exact hswitched.hashBestChain
  · rw [hg]
    exact h.linked.relink ht hbest hin hfb hfq hne
  · rw [hswitched.txdb]
    exact (hsame.reorganize htn hin' hfb hfq hne hswitched.index).congr h.mapBlockIndex.symm
      h.files.symm

end ConnectedTo

/-! ### The invariant -/

/-- Memory and disk agree on the best chain: the committed hash is that of the best block, the links
lead from genesis to it, and the committed index is that of its chain. -/
structure Agreement (P : Params) (n : Node) : Prop where
  hashBestChain : n.txdb.committed.hashBestChain = some n.hashBestChain
  pindexBest : n.pindexBest.hash = n.hashBestChain
  linked : Linked n.pnext n.pindexBest
  connected : IndexShows P n.toGlobals n.pindexBest n.txdb.committed.txIndex

/-- The invariant: besides the agreement, what a call of `SetBestChain` relies on. -/
structure Agrees (P : Params) (n : Node) : Prop where
  agreement : Agreement P n
  tree : n.toGlobals.TreeInv P
  best : n.InTree n.pindexBest
  genesis : n.pindexGenesisBlock ≠ []
  vTxn : n.txdb.vTxn = []

/-- Every postponed block of a call connects: from the state `Reorganize` leaves, the loop over them
goes to its end. -/
def PostponedConnect (P : Params) (H : Host) (pindexNew : BlockPtr) (n : Node) : Prop :=
  ∀ n₁, reorganize P H (pindexNew.postpone n.pindexBest.bnChainTrust).2
      { n with txdb := n.txdb.txnBegin } = (.ok (), n₁) →
    (connectPostponed P H (pindexNew.postpone n.pindexBest.bnChainTrust).1.reverse n₁).1 = .ok true

namespace Agrees

variable {P : Params} {H : Host} {block : CBlock} {pindex : CBlockIndex} {pprev pindexNew : BlockPtr}
  {n n' : Node}

/-- The state agrees with its own best chain. -/
theorem connectedTo (h : Agrees P n) : ConnectedTo P n.toGlobals n.pindexBest n :=
  ⟨rfl, rfl, rfl, h.vTxn, by rw [h.agreement.hashBestChain, h.agreement.pindexBest],
    h.agreement.linked, h.agreement.connected⟩

/-- "New best block" restores the agreement. -/
theorem newBest (h : Agrees P n) (hin : n.InTree pindexNew)
    (hn' : ConnectedTo P n.toGlobals pindexNew n') :
    Agrees P (n'.newBest pindexNew.hash pindexNew) := by
  have htree := h.tree.congr hn'.mapBlockIndex hn'.files
  refine ⟨⟨hn'.hashBestChain, rfl, hn'.linked, ?_⟩, htree.congr rfl rfl, ?_, ?_, hn'.vTxn⟩
  · exact hn'.index.congr hn'.mapBlockIndex hn'.files
  · change n'.mapBlockIndex.lookup pindexNew.hash = some pindexNew
    rw [hn'.mapBlockIndex]
    exact hin
  · change n'.pindexGenesisBlock ≠ []
    rw [hn'.pindexGenesisBlock]
    exact h.genesis

/-- A rejected call changes nothing that matters. -/
theorem rejected (h : Agrees P n) (hrej : Rejected n.txdb.committed n n') :
    Agrees P n'.closeTxDb := by
  obtain ⟨bnBestInvalidTrust, hg⟩ := hrej.globals
  obtain ⟨⟨hdisk, hhash, hlinked, hindex⟩, htree, hbest, hgenesis, -⟩ := h
  have hglobals : n'.closeTxDb.toGlobals = { n.toGlobals with bnBestInvalidTrust } := hg
  have hcommitted : n'.closeTxDb.txdb.committed = n.txdb.committed := hrej.holds.committed
  refine ⟨⟨?_, ?_, ?_, ?_⟩, ?_, ?_, ?_, rfl⟩
  · rw [hcommitted, hglobals]
    exact hdisk
  · rw [hglobals]
    exact hhash
  · rw [hglobals]
    exact hlinked
  · rw [hcommitted, hglobals]
    exact hindex.congr rfl rfl
  · rw [hglobals]
    exact htree.congr rfl rfl
  · rw [hglobals]
    exact hbest
  · rw [hglobals]
    exact hgenesis

/-- The loop over the postponed blocks ends at the new best block. -/
theorem connectPostponed (h : Agrees P n) (hin : n.InTree pindexNew) {q : BlockPtr}
    (hs : q <:+ pindexNew) (hn' : ConnectedTo P n.toGlobals q n') :
    Triple (connectPostponed P H (BlockPtr.above q pindexNew).reverse) n'
      (fun fComplete n'' => fComplete = true → ConnectedTo P n.toGlobals pindexNew n'')
      (fun _ _ => True) := by
  -- while `row` is left to connect, the node is connected up to the block below it
  refine (connectPostponed_rule (F := fun _ => True) (X := fun _ _ => True)
    (I := fun row n₁ => ∃ q : BlockPtr, q <:+ pindexNew ∧
      row = (BlockPtr.above q pindexNew).reverse ∧ ConnectedTo P n.toGlobals q n₁)
    (fun _ _ _ _ => trivial) ?_ ⟨q, hs, rfl, hn'⟩).mono ?_ (fun _ _ _ => trivial)
  · rintro pindex pprev row n₁ block ⟨q, hs, hrow, hn₁⟩ hread
    rcases BlockPtr.above_reverse_cases hs with ⟨-, heq⟩ | ⟨e, hes, heq⟩
    · rw [heq] at hrow
      exact absurd hrow (by simp)
    · rw [heq] at hrow
      cases hrow
      have hs₁ : Store.InTxn { n₁.toStore with txdb := n₁.txdb.txnBegin } n₁.txdb.committed
          n₁.txdb.committed := by
        unfold Store.InTxn CTxDB.txnBegin CTxDB.view
        rw [hn₁.vTxn]
        rfl
      refine (setBestChainInner_spec hs₁).mono ?_ (fun e _ _ => ?_)
      · rintro _ n₂ ⟨d', hne, hg, htxdb, hbest, hindex, hw⟩
        rw [hn₁.files] at hread
        obtain ⟨hstored, hhash⟩ := readFromDisk_eq_ok hread
        exact ⟨pindex :: pprev, hes, rfl, hn₁.extend h.tree (h.tree.suffix hin hes (by simp))
          hstored hhash ⟨hne, hg, htxdb, hbest, hindex, hw⟩⟩
      · split_ifs
  · rintro fComplete n₂ hI rfl
    obtain ⟨q, hs, hrow, hn₂⟩ := hI
    rcases BlockPtr.above_reverse_cases hs with ⟨rfl, -⟩ | ⟨e, -, heq⟩
    · exact hn₂
    · rw [heq] at hrow
      exact absurd hrow (by simp)

/-- **One call of `SetBestChain`** on a block of the tree keeps the invariant. -/
theorem setBestChain (h : Agrees P n) (hin : n.InTree (pindex :: pprev))
    (hread : n.files.readBlock pindex.nFile pindex.nBlockPos = some block)
    (hconnect : PostponedConnect P H (pindex :: pprev) n) :
    Triple (setBestChain P H block (pindex :: pprev)) n (fun _ n' => Agrees P n')
      (fun e n' => e ≠ .assertion → Agrees P n'.closeTxDb) := by
  have htxdb : n.txdb = ⟨n.txdb.committed, []⟩ := by
    rw [← h.vTxn]
  have hhash := h.tree.getHash_eq hin hread
  refine setBestChain_rule htxdb ?_ ?_ ?_ ?_ ?_
  · -- the genesis block is never connected again
    intro n' hstarted
    exact absurd hstarted.genesis.1 h.genesis
  · rintro _ _ n' d' hnew hprev hext
    cases hnew
    -- the parent is the best block
    have hpprev := h.tree.closed _ _ hin hext.pprev_ne
    obtain ⟨hstored, -⟩ := h.tree.stored _ _ _ hin hext.pprev_ne hread
    have hbest : pprev = n.pindexBest :=
      hpprev.unique h.best (hstored.symm.trans (hprev.trans h.agreement.pindexBest.symm))
    subst hbest
    rw [hhash]
    exact h.newBest hin (h.connectedTo.extend h.tree hin hread hhash hext)
  · -- the switch to the intermediate block, and then the postponed ones
    intro q pfork n' d' hq hrun hswitched
    obtain ⟨hsuffix, hqne⟩ := BlockPtr.postpone_suffix n.pindexBest.bnChainTrust (pindex :: pprev)
    rw [← hq] at hsuffix hqne
    have hqin := h.tree.suffix hin hsuffix (hqne (by simp))
    have hn' := h.connectedTo.switch h.tree h.best hqin hswitched
    have hall := hconnect n' (by rw [← hq]; exact hrun)
    rw [BlockPtr.postpone_eq, ← hq] at hall
    -- none of them was refused
    refine (Triple.run.and (h.connectPostponed hin hsuffix hn')).mono ?_ ?_
    · rintro fComplete n₂ ⟨hrun₂, hconnected⟩
      rw [hrun₂] at hall
      rw [hhash]
      exact h.newBest hin (hconnected (Except.ok.inj hall))
    · rintro e n₂ ⟨hrun₂, -⟩
      rw [hrun₂] at hall
      exact absurd hall (by simp)
  · -- a failed switch leaves the chain as it was
    intro e n' hrej _
    exact h.rejected hrej.1
  · intro n' hne
    exact absurd rfl hne

end Agrees

/-! ### Runs of a node -/

namespace Node

/-- What the rest of the program does between two calls leaves the tree, the block files, the best
chain and its index alone. The memory pool, the wallets, the checkpoints, the trust of invalid chains
and every other record of the database may change. -/
structure SameChain (n n' : Node) : Prop where
  mapBlockIndex : n'.mapBlockIndex = n.mapBlockIndex
  files : n'.files = n.files
  pnext : n'.pnext = n.pnext
  pindexGenesisBlock : n'.pindexGenesisBlock = n.pindexGenesisBlock
  pindexBest : n'.pindexBest = n.pindexBest
  hashBestChain : n'.hashBestChain = n.hashBestChain
  vTxn : n'.txdb.vTxn = []
  committed : SameIndex n.txdb.committed n'.txdb.committed

/-- One step of a node. -/
inductive Step (P : Params) (n : Node) : Node → Prop where
  /-- `AcceptBlock` writes a block and `AddToBlockIndex` makes its entry. -/
  | insert {pprev : BlockPtr} {block : CBlock} {files : BlockFiles} {nFile nBlockPos : ℕ}
      {nBestHeight nAdjustedTime nAdjustedTime' : Int}
      (hprev : n.mapBlockIndex.lookup block.hashPrevBlock = some pprev)
      (hnew : n.mapBlockIndex.lookup (block.getHash P) = none)
      (hcheck : block.checkBlock P nAdjustedTime = .ok ())
      (hcontext : block.acceptBlockContext P nBestHeight nAdjustedTime' pprev = .ok ())
      (hwrite : n.files.writeToDisk block = some (files, nFile, nBlockPos)) :
      Step P n { n with
        files
        mapBlockIndex := n.mapBlockIndex.insert (block.getHash P)
          (block.newIndex P pprev nFile nBlockPos :: pprev) }
  /-- `AcceptBlock` writes a block, but no entry is made. -/
  | store {block : CBlock} {files : BlockFiles} {nFile nBlockPos : ℕ}
      (hwrite : n.files.writeToDisk block = some (files, nFile, nBlockPos)) :
      Step P n { n with files }
  /-- `SetBestChain` is called on a block of the tree, with any outcome that does not end the
  process; every postponed block connects. -/
  | call {H : Host} {block : CBlock} {pindex : CBlockIndex} {pprev : BlockPtr} {r : Result Bool}
      {n' : Node} (hin : n.InTree (pindex :: pprev))
      (hread : n.files.readBlock pindex.nFile pindex.nBlockPos = some block)
      (hconnect : PostponedConnect P H (pindex :: pprev) n)
      (hrun : setBestChain P H block (pindex :: pprev) n = (r, n')) (halive : r ≠ .error .assertion) :
      Step P n n'.closeTxDb
  /-- Anything else. -/
  | other {n' : Node} (hsame : SameChain n n') : Step P n n'

/-- The states of a node that has started with an empty database. Genesis was written as the best
block, a result `SetBestChain` does not look at. -/
inductive Run (P : Params) : Node → Prop where
  | start {H : Host} {n : Node} (hload : loadGenesis P H {} = (.ok (), n))
      (hgenesis : H.io (.writeHashBestChain P.hashGenesisBlock) = true) : Run P n
  | step {n n' : Node} (hrun : Run P n) (hstep : Step P n n') : Run P n'

end Node

section Runs

variable {P : Params} {n n' : Node}

/-- At the start only the genesis block is there. -/
theorem Agrees.start {H : Host} (hload : loadGenesis P H {} = (.ok (), n))
    (hgenesis : H.io (.writeHashBestChain P.hashGenesisBlock) = true) : Agrees P n := by
  obtain ⟨hglobals, hvTxn, htx, hbest, -⟩ := (loadGenesis_spec P H).of_ok hload
  rw [if_pos hgenesis] at hbest
  -- the index is empty, and genesis is the whole chain
  have hindex : IndexShows P P.genesisGlobals [P.genesisIndex] ∅ := by
    refine ⟨ChainState.init P, Relation.ReflTransGen.refl, rfl, ?_, rfl, rfl⟩
    intro p
    rw [inTree_genesisGlobals]
    exact List.mem_singleton
  refine ⟨⟨?_, ?_, ?_, ?_⟩, ?_, ?_, ?_, hvTxn⟩
  · rw [hbest, hglobals]
    rfl
  · rw [hglobals]
    rfl
  · rw [hglobals]
    exact Linked.singleton _ _
  · rw [hglobals, htx]
    exact hindex
  · rw [hglobals]
    exact genesisGlobals_treeInv P
  · rw [hglobals]
    exact inTree_genesisGlobals.mpr rfl
  · rw [hglobals]
    exact List.cons_ne_nil _ _

/-- **One step keeps the invariant.** -/
theorem Agrees.step (h : Agrees P n) (hstep : Node.Step P n n') : Agrees P n' := by
  obtain ⟨⟨hdisk, hhash, hlinked, hindex⟩, htree, hbest, hgenesis, hvTxn⟩ := id h
  cases hstep with
  | insert hprev hnew hcheck hcontext hwrite =>
    have htree' := htree.insert hprev hnew hcheck hcontext hwrite
    refine ⟨⟨hdisk, hhash, hlinked, ?_⟩, htree', ?_, hgenesis, hvTxn⟩
    · exact hindex.insert htree hprev hnew hcheck hcontext hwrite
    · unfold Globals.InTree
      rw [Map.lookup_insert_eq, if_neg]
      · exact hbest
      · intro heq
        have hin := hbest
        unfold Globals.InTree at hin
        rw [heq, hnew] at hin
        exact absurd hin (by simp)
  | store hwrite =>
    exact ⟨⟨hdisk, hhash, hlinked, hindex.store hwrite⟩, htree.store hwrite, hbest, hgenesis, hvTxn⟩
  | @call H block pindex pprev r n₁ hin hread hconnect hrun halive =>
    -- one call, which ended or threw; the node goes on unless it died
    have hcall := h.setBestChain hin hread hconnect
    cases r with
    | ok fComplete =>
      have hn₁ := hcall.of_ok hrun
      have htxdb : n₁.txdb = ⟨n₁.txdb.committed, []⟩ := by
        rw [← hn₁.vTxn]
      rw [closeTxDb_eq htxdb]
      exact hn₁
    | error e => exact hcall.of_error hrun (fun heq => halive (by rw [heq]))
  | other hsame =>
    obtain ⟨hmap, hfiles, hpnext, hgen, hpbest, hhbest, hclosed, hcommitted⟩ := hsame
    refine ⟨⟨?_, ?_, ?_, ?_⟩, htree.congr hmap hfiles, ?_, ?_, hclosed⟩
    · rw [hcommitted.hashBestChain, hhbest]
      exact hdisk
    · rw [hpbest, hhbest]
      exact hhash
    · rw [hpnext, hpbest]
      exact hlinked
    · rw [hcommitted.txIndex, hpbest]
      exact hindex.congr hmap hfiles
    · unfold Globals.InTree
      rw [hmap, hpbest]
      exact hbest
    · rw [hgen]
      exact hgenesis

/-- And in every state of a run, by induction on the run. -/
theorem Agrees.of_run (hrun : Node.Run P n) : Agrees P n := by
  induction hrun with
  | start hload hgenesis => exact Agrees.start hload hgenesis
  | step _ hstep ih => exact ih.step hstep

/-- A call that returns has made its block the best in memory. -/
theorem pindexBest_of_setBestChain {H : Host} {block : CBlock} {pindexNew : BlockPtr}
    {fComplete : Bool} (h : setBestChain P H block pindexNew n = (.ok fComplete, n')) :
    n'.pindexBest = pindexNew := by
  unfold setBestChain at h
  obtain ⟨_, n₁, -, h⟩ := bind_eq_ok.mp h
  obtain ⟨_, n₂, -, h⟩ := bind_eq_ok.mp h
  obtain ⟨_, n₃, hbest, h⟩ := bind_eq_ok.mp h
  cases h
  cases hbest
  rfl

/-- **Memory and disk agree.** In every state of a run, and after every call of `SetBestChain` that
returns, the committed hash is that of the best block in memory, the links lead from genesis to it,
and the committed index is that of its chain: every block above genesis has been connected. -/
theorem Node.Run.agreement (hrun : Node.Run P n) :
    Agreement P n ∧
    ∀ (H : Host) (block : CBlock) (pindex : CBlockIndex) (pprev : BlockPtr) (fComplete : Bool)
      (n' : Node), n.InTree (pindex :: pprev) →
      n.files.readBlock pindex.nFile pindex.nBlockPos = some block →
      PostponedConnect P H (pindex :: pprev) n →
      setBestChain P H block (pindex :: pprev) n = (.ok fComplete, n') →
      Agreement P n' ∧ n'.pindexBest = pindex :: pprev := by
  have hagrees := Agrees.of_run hrun
  refine ⟨hagrees.agreement, ?_⟩
  intro H block pindex pprev fComplete n' hin hread hconnect hcall
  exact ⟨((hagrees.setBestChain hin hread hconnect).of_ok hcall).agreement,
    pindexBest_of_setBestChain hcall⟩

end Runs

/-! ### Running a node -/

/-- Nothing is postponed, so nothing postponed can fail. -/
theorem postponedConnect_of_nil {P : Params} {H : Host} {pindexNew : BlockPtr} {n : Node}
    (h : (pindexNew.postpone n.pindexBest.bnChainTrust).1 = []) : PostponedConnect P H pindexNew n := by
  intro n₁ _
  rw [h]
  rfl

namespace Node

/-- A block passes all checks and gets its entry, at clock time `nAdjustedTime`: a step, computed. -/
def insertBlock (P : Params) (nAdjustedTime : Int) (block : CBlock) (n : Node) : Option Node :=
  match n.mapBlockIndex.lookup block.hashPrevBlock, n.mapBlockIndex.lookup (block.getHash P),
    n.files.writeToDisk block with
  | some pprev, none, some (files, nFile, nBlockPos) =>
    match block.checkBlock P nAdjustedTime,
      block.acceptBlockContext P n.nBestHeight nAdjustedTime pprev with
    | .ok (), .ok () => some { n with
        files
        mapBlockIndex := n.mapBlockIndex.insert (block.getHash P)
          (block.newIndex P pprev nFile nBlockPos :: pprev) }
    | _, _ => none
  | _, _, _ => none

/-- `SetBestChain` on the block with this hash, when nothing is postponed and the call returns: a
step, computed. -/
def setBest (P : Params) (H : Host) (hash : Uint256) (n : Node) : Option Node :=
  match n.mapBlockIndex.lookup hash with
  | some (pindex :: pprev) =>
    match n.files.readBlock pindex.nFile pindex.nBlockPos with
    | some block =>
      if pindex.hashBlock = hash
          ∧ (BlockPtr.postpone n.pindexBest.bnChainTrust (pindex :: pprev)).1 = [] then
        match setBestChain P H block (pindex :: pprev) n with
        | (.ok _, n') => some n'.closeTxDb
        | (.error _, _) => none
      else none
    | none => none
  | _ => none

variable {P : Params} {n n' : Node}

/-- A block of the tree is a step. -/
theorem Run.insertBlock {nAdjustedTime : Int} {block : CBlock} (h : Run P n)
    (hins : n.insertBlock P nAdjustedTime block = some n') : Run P n' := by
  unfold Node.insertBlock at hins
  split at hins
  · next pprev files nFile nBlockPos hprev hnew hwrite =>
    split at hins
    · next hcheck hcontext =>
      cases hins
      exact h.step (Step.insert hprev hnew hcheck hcontext hwrite)
    · exact absurd hins (by simp)
  · exact absurd hins (by simp)

/-- A switch of the chain is a step. -/
theorem Run.setBest {H : Host} {hash : Uint256} (h : Run P n)
    (hset : n.setBest P H hash = some n') : Run P n' := by
  unfold Node.setBest at hset
  split at hset
  · next pindex pprev hlookup =>
    split at hset
    · next block hread =>
      split_ifs at hset with hcond
      have hin : n.InTree (pindex :: pprev) := by
        unfold Globals.InTree
        rw [show BlockPtr.hash (pindex :: pprev) = hash from hcond.1]
        exact hlookup
      split at hset
      · next r n₁ hrun =>
        cases hset
        exact h.step (Step.call hin hread (postponedConnect_of_nil hcond.2) hrun (by simp))
      · exact absurd hset (by simp)
    · exact absurd hset (by simp)
  · exact absurd hset (by simp)

end Node

namespace Sample

/-- A host whose disk never fails. -/
def host : Host := { nAdjustedTime := 2000000000 }

/-- The hash of the block `n` seconds after genesis. -/
def hashAt (n : ℕ) : Uint256 := params.nTimeGenesis + n

/-- A transaction whose input does not exist. -/
def spendMissing : CTransaction where
  nTime := params.nTimeGenesis + 4
  vin := [⟨⟨77, 0⟩, [], UINT_MAX⟩]
  vout := [⟨1900000, keyScript⟩]

/-- A block arrives, `n` seconds after genesis, on the block `parent` seconds after genesis. -/
def arrive (parent n : ℕ) (vtx : List CTransaction) (s : Node) : Option Node :=
  s.insertBlock params 2000000000 (blockOn (s.blockPtr (hashAt parent)) n vtx)

/-- A block with nothing but a coinbase arrives and becomes the best. -/
def arriveBest (parent n : ℕ) (s : Node) : Option Node :=
  (arrive parent n [coinBase n] s).bind (Node.setBest params host (hashAt n))

/-- The sample blocks arrive one by one. -/
theorem run_arrive {parent n : ℕ} {vtx : List CTransaction} {s s' : Node}
    (h : Node.Run params s) (ha : arrive parent n vtx s = some s') : Node.Run params s' :=
  h.insertBlock ha

/-- And may become the best chain. -/
theorem run_arriveBest {parent n : ℕ} {s s' : Node} (h : Node.Run params s)
    (ha : arriveBest parent n s = some s') : Node.Run params s' := by
  obtain ⟨s₁, hs₁, hset⟩ := Option.bind_eq_some_iff.mp ha
  exact (run_arrive h hs₁).setBest hset

/-- Blocks 1 and 2 become the best chain, and then block 3, which stands on genesis: a checkpoint on
it does that. Block 4 stands on block 2. -/
def switchedBack (vtx : List CTransaction) : Option Node := do
  let s ← arriveBest 0 1 (loadGenesis params host {}).2
  let s ← arriveBest 1 2 s
  let s ← arriveBest 0 3 s
  arrive 2 4 vtx s

/-- A chain that was left and taken again. -/
theorem run_switchedBack {vtx : List CTransaction} {s : Node} (h : switchedBack vtx = some s) :
    Node.Run params s := by
  simp only [switchedBack, Option.bind_eq_bind, Option.bind_eq_some_iff] at h
  obtain ⟨s₁, h₁, s₂, h₂, s₃, h₃, h₄⟩ := h
  have hstart : Node.Run params (loadGenesis params host {}).2 := Node.Run.start (H := host) rfl rfl
  exact run_arrive (run_arriveBest (run_arriveBest (run_arriveBest hstart h₁) h₂) h₃) h₄

/-- A value computed from the last state and the block `n` seconds after genesis in it. -/
def atBlock {α : Type} (n : ℕ) (f : Node → CBlock → BlockPtr → α) (s : Node) : Option α :=
  match s.mapBlockIndex.lookup (hashAt n) with
  | some (pindex :: pprev) =>
    (s.files.readBlock pindex.nFile pindex.nBlockPos).map (fun block => f s block (pindex :: pprev))
  | _ => none

/-- A block of the sample tree with its branch. -/
theorem atBlock_eq_some {α : Type} {n : ℕ} {f : Node → CBlock → BlockPtr → α} {s : Node} {a : α}
    (hrun : Node.Run params s) (h : atBlock n f s = some a) :
    ∃ block pindex pprev, s.InTree (pindex :: pprev) ∧
      s.files.readBlock pindex.nFile pindex.nBlockPos = some block ∧
      f s block (pindex :: pprev) = a := by
  unfold atBlock at h
  split at h
  · next pindex pprev hlookup =>
    obtain ⟨block, hread, ha⟩ := Option.map_eq_some_iff.mp h
    have hkeyed := (Agrees.of_run hrun).tree.keyed _ _ hlookup
    refine ⟨block, pindex, pprev, ?_, hread, ha⟩
    unfold Globals.InTree
    rw [hkeyed]
    exact hlookup
  · exact absurd h (by simp)

end Sample

/-- Block 4, when it does connect: it is postponed while the node goes back to block 2. -/
theorem agreement_switchedBack :
    ∃ (n n' : Node) (block : CBlock) (pindex : CBlockIndex) (pprev : BlockPtr),
      Node.Run Sample.params n ∧
      setBestChain Sample.params Sample.host block (pindex :: pprev) n = (.ok true, n') ∧
      (BlockPtr.postpone n.pindexBest.bnChainTrust (pindex :: pprev)).1 ≠ [] ∧
      Agreement Sample.params n' ∧ n'.pindexBest = pindex :: pprev := by
  have hcall : (Sample.switchedBack [Sample.coinBase 4]).bind
      (Sample.atBlock 4 (fun s block p =>
        let r := reorganize Sample.params Sample.host (p.postpone s.pindexBest.bnChainTrust).2
          { s with txdb := s.txdb.txnBegin }
        ((setBestChain Sample.params Sample.host block p s).1.toOption, r.1.toOption,
          (connectPostponed Sample.params Sample.host
            (p.postpone s.pindexBest.bnChainTrust).1.reverse r.2).1.toOption,
          (p.postpone s.pindexBest.bnChainTrust).1.isEmpty))) =
      some (some true, some (), some true, false) := by
    decide +kernel
  obtain ⟨n, hn, hat⟩ := Option.bind_eq_some_iff.mp hcall
  have hrun := Sample.run_switchedBack hn
  obtain ⟨block, pindex, pprev, hin, hread, heq⟩ := Sample.atBlock_eq_some hrun hat
  simp only [Prod.mk.injEq] at heq
  obtain ⟨hok, -, hpostponed, hsome⟩ := heq
  -- the postponed block connects
  have hconnect : PostponedConnect Sample.params Sample.host (pindex :: pprev) n := by
    intro n₁ hr
    rw [hr] at hpostponed
    exact Result.eq_ok_of_toOption hpostponed
  cases hr : setBestChain Sample.params Sample.host block (pindex :: pprev) n with
  | mk r n' =>
    rw [hr] at hok
    have hr' : r = .ok true := Result.eq_ok_of_toOption hok
    subst hr'
    exact ⟨n, n', block, pindex, pprev, hrun, hr, by simpa using hsome,
      hrun.agreement.2 _ _ _ _ _ _ hin hread hconnect hr⟩

/-- Block 4 is made the best in memory although it does not connect and the database stays at block 2;
and the transaction of genesis is in no index. -/
theorem setBestChain_disagrees :
    ∃ (n n' : Node) (block : CBlock) (pindex : CBlockIndex) (pprev : BlockPtr) (fComplete : Bool),
      Node.Run Sample.params n ∧ n.InTree (pindex :: pprev) ∧
      n.files.readBlock pindex.nFile pindex.nBlockPos = some block ∧
      setBestChain Sample.params Sample.host block (pindex :: pprev) n = (.ok fComplete, n') ∧
      n'.hashBestChain = Sample.hashAt 4 ∧
      n'.txdb.committed.hashBestChain = some (Sample.hashAt 2) ∧
      n'.txdb.committed.txIndex.lookup (Sample.params.hashTx Sample.params.txGenesis) = none := by
  have hcall : (Sample.switchedBack [Sample.coinBase 4, Sample.spendMissing]).bind
      (Sample.atBlock 4 (fun s block p =>
        let r := setBestChain Sample.params Sample.host block p s
        (r.1.toOption, r.2.hashBestChain, r.2.txdb.committed.hashBestChain,
          (r.2.txdb.committed.txIndex.lookup
            (Sample.params.hashTx Sample.params.txGenesis)).isNone))) =
      some (some false, Sample.hashAt 4, some (Sample.hashAt 2), true) := by
    decide +kernel
  obtain ⟨n, hn, hat⟩ := Option.bind_eq_some_iff.mp hcall
  have hrun := Sample.run_switchedBack hn
  obtain ⟨block, pindex, pprev, hin, hread, heq⟩ := Sample.atBlock_eq_some hrun hat
  -- the call has returned, with the tip in memory and on disk apart
  cases hr : setBestChain Sample.params Sample.host block (pindex :: pprev) n with
  | mk r n' =>
    rw [hr] at heq
    simp only [Prod.mk.injEq, Option.isNone_iff_eq_none] at heq
    obtain ⟨hok, hmemory, hdisk, hgenesis⟩ := heq
    cases r with
    | error e => exact absurd hok (by simp [Except.toOption])
    | ok fComplete =>
      exact ⟨n, n', block, pindex, pprev, fComplete, hrun, hin, hread, hr, hmemory, hdisk, hgenesis⟩

end Peershares
