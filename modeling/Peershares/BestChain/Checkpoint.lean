import Mathlib.Logic.Encodable.Basic
import Mathlib.Logic.Equiv.List
import Peershares.BestChain.Exceptions
import Peershares.BestChain.Tree

/-!
# The synchronized checkpoint stays in the main chain

On the main network `CheckSync` lets only descendants of the checkpoint into the tree, and a new
checkpoint is taken only when it descends from the current one and its block is in the main chain or
has just been made the best. So the checkpointed block is always in the main chain, in any order of
blocks and checkpoint messages.

`IsInMainChain` asks for a link `pnext`, so the invariant says that only blocks below the best one are
linked (`LinkedBelow`). An exception in the middle of `SetBestChain` would break that; there is none
(`setBestChainInner_returns`).

A block that is `Admitted` to the tree has passed `CheckSync`, so the checkpoint is below it, and a switch to it
leaves the checkpoint in the main chain. `SyncInv` is the whole invariant. `Advances` is what an event may do to a
state in which it holds, unless an assertion ends the process: the invariant holds again, no block leaves the tree,
and the checkpoint stays or moves to a descendant.

* `ChainInv.setBestChain` — what a call of `SetBestChain` does to the links and the best block
* `validateSyncCheckpoint_spec` — the answers of the check for a new checkpoint
* `takeCheckpoint_advances`, `acceptBlock_advances` — a message and a block
* `Checkpoints.Step`, `Checkpoints.Run` — the events, in any order
* `Checkpoints.Run.descendant` — the checkpoint is in the main chain and moves to descendants
-/

open Framework Framework.Command

namespace Peershares

/-! ### Links below the best block -/

/-- The part of the state a call of `SetBestChain` leaves alone. -/
structure SameTree (n n' : Node) : Prop where
  mapBlockIndex : n'.mapBlockIndex = n.mapBlockIndex
  files : n'.files = n.files
  pindexGenesisBlock : n'.pindexGenesisBlock = n.pindexGenesisBlock
  hashSyncCheckpoint : n'.hashSyncCheckpoint = n.hashSyncCheckpoint
  hashPendingCheckpoint : n'.hashPendingCheckpoint = n.hashPendingCheckpoint

/-- Nothing has changed. -/
theorem SameTree.refl (n : Node) : SameTree n n := ⟨rfl, rfl, rfl, rfl, rfl⟩

/-- Two changes outside the tree are one. -/
theorem SameTree.trans {n n₁ n₂ : Node} (h : SameTree n n₁) (h' : SameTree n₁ n₂) : SameTree n n₂ :=
  ⟨h'.1.trans h.1, h'.2.trans h.2, h'.3.trans h.3, h'.4.trans h.4, h'.5.trans h.5⟩

/-- The best block is no part of the tree. -/
theorem SameTree.newBest {n n' : Node} (h : SameTree n n') (hash : Uint256) (pindexNew : BlockPtr) :
    SameTree n (n'.newBest hash pindexNew) :=
  ⟨h.1, h.2, h.3, h.4, h.5⟩

/-- In the middle of a call: only blocks below `q` are linked, and nothing but links, the memory
pool, the wallets and the database has changed. -/
structure LinkedTo (P : Params) (n : Node) (q : BlockPtr) (n' : Node) : Prop where
  same : SameTree n n'
  pindexBest : n'.pindexBest = n.pindexBest
  nBestHeight : n'.nBestHeight = n.nBestHeight
  linked : LinkedBelow n'.pnext q
  vTxn : n'.txdb.vTxn = []
  keyed : NodeKeyed P n'

/-- The links of a part of the chain. -/
theorem LinkedBelow.mono {pnext : Uint256 → BlockPtr} {p q : BlockPtr} (h : LinkedBelow pnext q)
    (hs : q <:+ p) : LinkedBelow pnext p := by
  intro hash hnext
  obtain ⟨e, r, hr, hne, hhash⟩ := h hash hnext
  exact ⟨e, r, hr.trans hs, hne, hhash⟩

/-- The invariant of the best chain in memory. -/
structure ChainInv (P : Params) (n : Node) : Prop where
  tree : n.toGlobals.TreeInv P
  best : n.InTree n.pindexBest
  hashBestChain : n.pindexBest.hash = n.hashBestChain
  nBestHeight : 0 ≤ n.nBestHeight
  genesis : n.pindexGenesisBlock ≠ []
  linked : LinkedBelow n.pnext n.pindexBest
  vTxn : n.txdb.vTxn = []
  keyed : NodeKeyed P n

section Links

variable {P : Params} {H : Host} {n n' n₁ : Node} {block : CBlock} {pindex : CBlockIndex}
  {pprev pindexNew q : BlockPtr}

/-- A failed switch leaves the links. -/
theorem LinkedTo.rejected (h : LinkedTo P n q n') (hrej : Rejected n'.txdb.committed n' n₁)
    (hvTxn : n₁.txdb.vTxn = []) (hkeyed : NodeKeyed P n₁) : LinkedTo P n q n₁ := by
  obtain ⟨bnBestInvalidTrust, hg⟩ := hrej.globals
  have hsame : SameTree n' n₁ := by
    constructor
    all_goals rw [hg]
  refine ⟨h.same.trans hsame, ?_, ?_, ?_, hvTxn, hkeyed⟩
  · rw [hg]
    exact h.pindexBest
  · rw [hg]
    exact h.nBestHeight
  · rw [hg]
    exact h.linked

/-- A connected block is linked. -/
theorem LinkedTo.extend {d' : TxDbData} {txIndex : TxIndexMap} (h : LinkedTo P n pprev n')
    (hext : Extended P H block pindex pprev n' txIndex n₁ d') (hkeyed : NodeKeyed P n₁) :
    LinkedTo P n (pindex :: pprev) n₁ := by
  have hg := hext.globals
  unfold Globals.setNext at hg
  rw [if_neg (by simpa using hext.pprev_ne)] at hg
  have hsame : SameTree n' n₁ := by
    constructor
    all_goals rw [hg]
  refine ⟨h.same.trans hsame, ?_, ?_, ?_, ?_, hkeyed⟩
  · rw [hg]
    exact h.pindexBest
  · rw [hg]
    exact h.nBestHeight
  · rw [hg]
    exact h.linked.extend hext.pprev_ne
  · rw [hext.txdb]

namespace ChainInv

/-- The best chain is linked to itself. -/
theorem linkedTo (h : ChainInv P n) : LinkedTo P n n.pindexBest n :=
  ⟨SameTree.refl n, rfl, rfl, h.linked, h.vTxn, h.keyed⟩

/-- A switch links the new branch. -/
theorem switch {pfork : BlockPtr} {d' : TxDbData} {txIndex : TxIndexMap} (h : ChainInv P n)
    (hswitched : Switched P H q pfork n txIndex n' d') (hkeyed : NodeKeyed P n') :
    LinkedTo P n q n' := by
  obtain ⟨hfb, hfq, hne⟩ := BlockPtr.findFork_eq_ok hswitched.fork
  obtain ⟨mempool, hg⟩ := hswitched.globals
  rw [relink_eq] at hg
  refine ⟨?_, ?_, ?_, ?_, ?_, hkeyed⟩
  · constructor
    all_goals rw [hg]
  · rw [hg]
  · rw [hg]
  · rw [hg]
    exact h.linked.relink h.tree h.best hfb hfq hne
  · rw [hswitched.txdb]

/-- "New best block". -/
theorem newBest (h : ChainInv P n) (hin : n.InTree pindexNew) (hn' : LinkedTo P n q n')
    (hs : q <:+ pindexNew) :
    ChainInv P (n'.newBest pindexNew.hash pindexNew) := by
  have htree := h.tree.congr hn'.same.mapBlockIndex hn'.same.files
  refine ⟨htree.congr rfl rfl, ?_, rfl, Int.natCast_nonneg _, ?_, hn'.linked.mono hs, hn'.vTxn,
    hn'.keyed⟩
  · change n'.mapBlockIndex.lookup pindexNew.hash = some pindexNew
    rw [hn'.same.mapBlockIndex]
    exact hin
  · change n'.pindexGenesisBlock ≠ []
    rw [hn'.same.pindexGenesisBlock]
    exact h.genesis

/-- A rejected call. -/
theorem rejected (h : ChainInv P n) (hrej : Rejected n.txdb.committed n n')
    (hkeyed : NodeKeyed P n') :
    ChainInv P n'.closeTxDb ∧ SameTree n n'.closeTxDb ∧ n'.closeTxDb.pindexBest = n.pindexBest := by
  obtain ⟨bnBestInvalidTrust, hg⟩ := hrej.globals
  have hglobals : n'.closeTxDb.toGlobals = { n.toGlobals with bnBestInvalidTrust } := hg
  refine ⟨⟨?_, ?_, ?_, ?_, ?_, ?_, rfl, hkeyed⟩, ?_, by rw [hglobals]⟩
  · rw [hglobals]
    exact h.tree.congr rfl rfl
  · rw [hglobals]
    exact h.best
  · rw [hglobals]
    exact h.hashBestChain
  · rw [hglobals]
    exact h.nBestHeight
  · rw [hglobals]
    exact h.genesis
  · rw [hglobals]
    exact h.linked
  · constructor
    all_goals rw [hglobals]

/-- The loop over the postponed blocks. It may stop at any of them, but it returns. -/
theorem connectPostponed (hP : CollisionFree P) (h : ChainInv P n) (hin : n.InTree pindexNew)
    (hs : q <:+ pindexNew) (hne : q ≠ []) (hn' : LinkedTo P n q n') :
    Triple (connectPostponed P H (BlockPtr.above q pindexNew).reverse) n'
      (fun _ n'' => ∃ q, q <:+ pindexNew ∧ LinkedTo P n q n'') (fun _ _ => False) := by
  refine (connectPostponed_rule (F := fun n₁ => ∃ q, q <:+ pindexNew ∧ LinkedTo P n q n₁)
    (X := fun _ _ => False) (I := fun row n₁ => ∃ q : BlockPtr, q <:+ pindexNew ∧ q ≠ [] ∧
      row = (BlockPtr.above q pindexNew).reverse ∧ LinkedTo P n q n₁)
    ?_ ?_ ⟨q, hs, hne, rfl, hn'⟩).mono ?_ (fun _ _ h => h)
  · rintro x row n₁ ⟨q, hs, -, -, hn₁⟩
    exact ⟨q, hs, hn₁⟩
  · rintro pindex pprev row n₁ block ⟨q, hs, hne, hrow, hn₁⟩ hread
    rcases BlockPtr.above_reverse_cases hs with ⟨-, heq⟩ | ⟨e, hes, heq⟩
    · rw [heq] at hrow
      exact absurd hrow (by simp)
    · rw [heq] at hrow
      cases hrow
      -- each block opens a transaction of its own
      have hs₁ : Store.InTxn { n₁.toStore with txdb := n₁.txdb.txnBegin } n₁.txdb.committed
          n₁.txdb.committed := by
        unfold Store.InTxn CTxDB.txnBegin CTxDB.view
        rw [hn₁.vTxn]
        rfl
      have hheight : 0 ≤ n₁.nBestHeight := by
        rw [hn₁.nBestHeight]
        exact h.nBestHeight
      rw [hn₁.same.files] at hread
      have hin' := h.tree.suffix hin hes (by simp)
      obtain ⟨-, nAdjustedTime, hcheck⟩ :=
        h.tree.stored _ _ _ hin' hne (readFromDisk_eq_ok hread).1
      have hkeyed : NodeKeyed P { n₁ with toStore := { n₁.toStore with txdb := n₁.txdb.txnBegin } } :=
        hn₁.keyed
      refine (((setBestChainInner_spec hs₁).and (keeps_setBestChainInner block pindex pprev _
        hkeyed)).and (setBestChainInner_returns hP hheight hcheck hne hkeyed)).mono ?_ ?_
      · rintro _ n₂ ⟨⟨⟨d', hne', hg, htxdb, hbest, hindex, hw⟩, hkeyed₂⟩, -⟩
        -- connected: the chain is one block longer
        exact ⟨pindex :: pprev, hes, by simp, rfl,
          hn₁.extend ⟨hne', hg, htxdb, hbest, hindex, hw⟩ hkeyed₂⟩
      · rintro e n₂ ⟨⟨hfail, hkeyed₂⟩, hret⟩
        -- rejected: the loop ends, and the chain is as it was
        rw [hret, if_pos rfl]
        rcases hfail with ⟨rfl, -⟩ | ⟨⟨hholds, hg⟩, hclosed⟩
        · exact absurd hret (by simp [Failure.isReturn])
        · exact ⟨_, hs, hn₁.rejected ⟨hholds, hg⟩ (hclosed hret).1 hkeyed₂⟩
  · -- at the end of the loop
    intro fComplete n₂ hI
    split_ifs at hI
    · obtain ⟨q, hs, -, -, hn₂⟩ := hI
      exact ⟨q, hs, hn₂⟩
    · exact hI

/-- **One call of `SetBestChain`** on a block of the tree: the block is the best, or the best block
is the same. -/
theorem setBestChain (hP : CollisionFree P) (h : ChainInv P n) (hin : n.InTree (pindex :: pprev))
    (hread : n.files.readBlock pindex.nFile pindex.nBlockPos = some block) :
    Triple (setBestChain P H block (pindex :: pprev)) n
      (fun _ n' => ChainInv P n' ∧ SameTree n n' ∧ n'.pindexBest = pindex :: pprev)
      (fun e n' => e ≠ .assertion → ChainInv P n'.closeTxDb ∧ SameTree n n'.closeTxDb ∧
        n'.closeTxDb.pindexBest = n.pindexBest) := by
  have htxdb : n.txdb = ⟨n.txdb.committed, []⟩ := by
    rw [← h.vTxn]
  have hhash := h.tree.getHash_eq hin hread
  have hkeeps := keeps_setBestChain (H := H) block (pindex :: pprev) n h.keyed
  -- the wallets are known to be keyed at the end, and are left out of the three branches
  refine (Triple.and hkeeps (setBestChain_rule htxdb
    (Q := fun _ n' => NodeKeyed P n' → ChainInv P n' ∧ SameTree n n' ∧
      n'.pindexBest = pindex :: pprev)
    (E := fun e n' => NodeKeyed P n' → e ≠ .assertion → ChainInv P n'.closeTxDb ∧
      SameTree n n'.closeTxDb ∧ n'.closeTxDb.pindexBest = n.pindexBest) ?_ ?_ ?_ ?_ ?_)).mono
    (fun _ _ h => h.2 h.1) (fun _ _ h => h.2 h.1)
  · -- the genesis block is never connected again
    intro n' hstarted
    exact absurd hstarted.genesis.1 h.genesis
  · rintro _ _ n' d' hnew hprev hext hkeyed
    cases hnew
    -- the parent is the best block
    have hpprev := h.tree.closed _ _ hin hext.pprev_ne
    obtain ⟨hstored, -⟩ := h.tree.stored _ _ _ hin hext.pprev_ne hread
    have hbest : pprev = n.pindexBest :=
      hpprev.unique h.best (hstored.symm.trans (hprev.trans h.hashBestChain.symm))
    subst hbest
    have hn' := h.linkedTo.extend hext hkeyed
    rw [hhash]
    exact ⟨h.newBest hin hn' List.suffix_rfl, hn'.same.newBest _ _, rfl⟩
  · -- a reorganization, and then the postponed blocks
    intro q pfork n' d' hq hrun hswitched
    obtain ⟨hsuffix, hqne⟩ := BlockPtr.postpone_suffix n.pindexBest.bnChainTrust (pindex :: pprev)
    rw [← hq] at hsuffix hqne
    have hkeyed : NodeKeyed P { n with txdb := n.txdb.txnBegin } := h.keyed
    have hn' := h.switch hswitched ((keeps_reorganize q _ hkeyed).of_ok hrun)
    refine (h.connectPostponed hP hin hsuffix (hqne (by simp)) hn').mono ?_ (fun _ _ h => h.elim)
    rintro fComplete n₂ ⟨q', hs', hn₂⟩ _
    rw [hhash]
    exact ⟨h.newBest hin hn₂ hs', hn₂.same.newBest _ _, rfl⟩
  · -- a failed switch leaves the chain as it was
    intro e n' hrej hkeyed _
    exact h.rejected hrej.1 hkeyed
  · intro n' _ hne
    exact absurd rfl hne

end ChainInv

end Links

/-! ### The checkpoint and its descendants -/

/-- The block with this hash is in the tree and in the chain of the best block. -/
def Node.InMainChain (n : Node) (hash : Uint256) : Prop :=
  ∃ p, n.mapBlockIndex.lookup hash = some p ∧ p <:+ n.pindexBest

/-- The invariant: the checkpointed block is in the main chain. -/
structure SyncInv (P : Params) (n : Node) : Prop where
  chain : ChainInv P n
  sync : n.InMainChain n.hashSyncCheckpoint

section Checks

variable {P : Params} {n n' : Node} {p q ps : BlockPtr} {hash : Uint256}

/-- Walking down from a block finds the checkpoint by its hash. -/
theorem Globals.TreeInv.eq_of_lowerTo {g : Globals} (ht : g.TreeInv P) (hp : g.InTree p)
    (hsync : g.mapBlockIndex.lookup hash = some ps) {nHeight : ℕ}
    (hlower : p.lowerTo nHeight = some q) (hhash : q.hash = hash) : ps <:+ p := by
  obtain ⟨hs, hne, -⟩ := BlockPtr.lowerTo_eq_some hlower
  have hq := ht.suffix hp hs hne
  unfold Globals.InTree at hq
  rw [hhash, hsync] at hq
  rw [Option.some.inj hq]
  exact hs

/-- **`CheckSync`** lets a new block in only on top of a descendant of the checkpoint. -/
theorem checkSync_eq_true {g : Globals} (ht : g.TreeInv P) (hnet : P.fTestNet = false)
    (hsync : g.mapBlockIndex.lookup g.hashSyncCheckpoint = some ps)
    (hnew : g.mapBlockIndex.lookup hash = none) (hp : g.InTree p)
    (h : g.checkSync P hash p = .ok true) : ps <:+ p := by
  unfold Globals.checkSync at h
  rw [hnet, hsync] at h
  simp only [Bool.false_eq_true, if_false] at h
  -- the new block is not the checkpoint, which is in the index
  have hne : hash ≠ g.hashSyncCheckpoint := by
    rintro rfl
    rw [hsync] at hnew
    exact absurd hnew (by simp)
  split_ifs at h with habove hsame hbelow
  · exact absurd h (by simp)
  · exact absurd h (by simp)
  · exact absurd h (by simp)
  · -- at the height of the checkpoint or below nothing new is let in
    have hheight : ps.nHeight < p.nHeight + 1 := by
      by_contra hle
      rcases Nat.lt_or_eq_of_le (not_lt.mp hle) with hlt | heq
      · exact hbelow (by simp [hlt, hnew])
      · exact hsame (by simp [heq, hne])
    -- above it the branch has to go through the checkpoint
    have hancestor : p.ancestorHasHash ps.nHeight g.hashSyncCheckpoint = true := by
      by_contra hfalse
      exact habove (by simp [hheight, hfalse])
    unfold BlockPtr.ancestorHasHash at hancestor
    split at hancestor
    · exact absurd hancestor (by simp)
    · next q hlower =>
      simp only [Bool.and_eq_true, decide_eq_true_eq] at hancestor
      exact ht.eq_of_lowerTo hp hsync hlower hancestor.2

/-- **`ValidateSyncCheckpoint`** changes nothing but `hashInvalidCheckpoint`, and accepts only a strict
descendant of the current checkpoint. -/
theorem validateSyncCheckpoint_spec {g g' : Globals} {fValid : Bool} (ht : g.TreeInv P)
    (h : g.validateSyncCheckpoint hash = (fValid, g')) :
    (∃ hashInvalidCheckpoint, g' = { g with hashInvalidCheckpoint }) ∧
    (fValid = true → ∃ ps p, g.mapBlockIndex.lookup g.hashSyncCheckpoint = some ps ∧
      g.mapBlockIndex.lookup hash = some p ∧ ps <:+ p ∧ ps ≠ p) := by
  unfold Globals.validateSyncCheckpoint at h
  -- one of both hashes is unknown
  split at h
  · cases h
    exact ⟨⟨_, rfl⟩, by simp⟩
  · cases h
    exact ⟨⟨_, rfl⟩, by simp⟩
  · next ps p hsync hrecv =>
    -- a block that is no higher than the checkpoint is never accepted, ancestor or not
    split_ifs at h with hheight
    · split at h
      · cases h
        exact ⟨⟨_, rfl⟩, by simp⟩
      · split_ifs at h
        · cases h
          exact ⟨⟨_, rfl⟩, by simp⟩
        · cases h
          exact ⟨⟨_, rfl⟩, by simp⟩
    · -- a higher block is followed down to the height of the checkpoint
      split at h
      · cases h
        exact ⟨⟨_, rfl⟩, by simp⟩
      · next q hlower =>
        split_ifs at h with hhash
        · cases h
          exact ⟨⟨_, rfl⟩, by simp⟩
        · cases h
          refine ⟨⟨_, rfl⟩, fun _ => ⟨ps, p, hsync, hrecv, ?_, ?_⟩⟩
          · -- going down from the new block has come to the checkpoint
            have hkeyed := ht.keyed _ _ hrecv
            have hp : g.InTree p := by
              unfold Globals.InTree
              rw [hkeyed]
              exact hrecv
            exact ht.eq_of_lowerTo hp hsync hlower (not_not.mp hhash)
          · rintro rfl
            exact hheight (le_refl _)

/-- **`IsInMainChain`** tells the truth: only blocks below the best one are linked. -/
theorem ChainInv.suffix_of_isInMainChain (h : ChainInv P n) (hp : n.InTree p)
    (hmain : n.isInMainChain p = true) : p <:+ n.pindexBest := by
  simp only [Globals.isInMainChain, Bool.or_eq_true, Bool.not_eq_true', decide_eq_true_eq,
    List.isEmpty_eq_false_iff] at hmain
  rcases hmain with hnext | rfl
  · obtain ⟨e, q, hs, hne, hhash⟩ := h.linked p.hash hnext
    have hq := h.tree.suffix h.best ((List.suffix_cons e q).trans hs) hne
    rw [← hq.unique hp hhash]
    exact (List.suffix_cons e q).trans hs
  · exact List.suffix_rfl

end Checks

/-! ### Moving the checkpoint -/

/-- What an event may do: the invariant holds again, no block leaves the tree, and the checkpoint is
the same or has moved to a strict descendant. -/
structure Advanced (P : Params) (n n' : Node) : Prop where
  inv : SyncInv P n'
  tree : ∀ hash p, n.mapBlockIndex.lookup hash = some p → n'.mapBlockIndex.lookup hash = some p
  sync : n'.hashSyncCheckpoint = n.hashSyncCheckpoint ∨
    ∃ p p', n.mapBlockIndex.lookup n.hashSyncCheckpoint = some p ∧
      n'.mapBlockIndex.lookup n'.hashSyncCheckpoint = some p' ∧ p <:+ p' ∧ p ≠ p'

/-- A command whose every outcome that leaves the process alive is an advance. -/
def Advances {α : Type} (P : Params) (x : Command Node Failure α) (n : Node) : Prop :=
  Triple x n (fun _ n' => Advanced P n n') (fun e n' => e ≠ .assertion → Advanced P n n')

section Moves

variable {P : Params} {H : Host} {n n' n₁ : Node} {p ps : BlockPtr} {hash : Uint256}

/-- Two advances are one. -/
theorem Advanced.trans (h₀ : SyncInv P n) (h : Advanced P n n₁) (h' : Advanced P n₁ n') :
    Advanced P n n' := by
  refine ⟨h'.inv, fun hash p hp => h'.tree hash p (h.tree hash p hp), ?_⟩
  obtain ⟨p₀, hp₀, -⟩ := h₀.sync
  rcases h'.sync with hsame' | ⟨p₁, p', hp₁, hp', hs', hne'⟩
  · rcases h.sync with hsame | ⟨p, p₁, hp, hp₁, hs, hne⟩
    · exact Or.inl (hsame'.trans hsame)
    · rw [hsame']
      exact Or.inr ⟨p, p₁, hp, h'.tree _ _ hp₁, hs, hne⟩
  · right
    rcases h.sync with hsame | ⟨p, p₂, hp, hp₂, hs, hne⟩
    · -- the first half has not moved the checkpoint
      have hsame₀ := h.tree _ _ hp₀
      rw [← hsame, hp₁] at hsame₀
      rw [Option.some.inj hsame₀] at hs' hne'
      exact ⟨p₀, p', hp₀, hp', hs', hne'⟩
    · rw [hp₂] at hp₁
      cases hp₁
      refine ⟨p, p', hp, hp', hs.trans hs', ?_⟩
      rintro rfl
      exact hne (hs.eq_of_length_le hs'.length_le)

/-- The same tree, and a best block above the checkpoint. -/
theorem Advanced.of_sameTree (h : SyncInv P n) (hsame : SameTree n n') (hchain : ChainInv P n')
    (hbest : ∀ p, n.mapBlockIndex.lookup n.hashSyncCheckpoint = some p → p <:+ n'.pindexBest) :
    Advanced P n n' := by
  obtain ⟨p, hp, -⟩ := h.sync
  refine ⟨⟨hchain, p, ?_, hbest p hp⟩, ?_, Or.inl hsame.hashSyncCheckpoint⟩
  · rw [hsame.mapBlockIndex, hsame.hashSyncCheckpoint]
    exact hp
  · intro hash p hp
    rw [hsame.mapBlockIndex]
    exact hp

/-- No advance. -/
theorem Advanced.refl (h : SyncInv P n) : Advanced P n n := by
  obtain ⟨p, hp, hs⟩ := h.sync
  refine Advanced.of_sameTree h (SameTree.refl n) h.chain (fun p' hp' => ?_)
  rw [hp] at hp'
  cases hp'
  exact hs

/-- The block of a checkpoint is made the best unless it is in the main chain. -/
theorem setBestToCheckpoint_spec (hP : CollisionFree P) (h : ChainInv P n)
    (hp : n.mapBlockIndex.lookup hash = some p) {msgRead msgSet : String} {onInvalid : Node → Node}
    (hclean : ∀ n', ∃ hashInvalidCheckpoint, onInvalid n' = { n' with hashInvalidCheckpoint }) :
    Triple (setBestToCheckpoint P H hash msgRead msgSet onInvalid) n
      (fun _ n' => ChainInv P n' ∧ SameTree n n' ∧ p <:+ n'.pindexBest ∧
        (n'.pindexBest = n.pindexBest ∨ n'.pindexBest = p))
      (fun e n' => e ≠ .assertion → ChainInv P n' ∧ SameTree n n' ∧
        n'.pindexBest = n.pindexBest) := by
  have hin : n.InTree p := by
    unfold Globals.InTree
    rw [h.tree.keyed _ _ hp]
    exact hp
  refine Triple.get_bind ?_
  have hptr : n.blockPtr hash = p := by
    unfold Globals.blockPtr
    rw [hp]
    rfl
  rw [hptr]
  dsimp only
  split_ifs with hmain
  · -- in the main chain already: nothing is done
    exact ⟨h, SameTree.refl n, h.suffix_of_isInMainChain hin hmain, Or.inl rfl⟩
  · -- `SetBestChain` makes the checkpoint the best block
    obtain ⟨pindex, pprev, rfl⟩ := List.exists_cons_of_ne_nil (h.tree.ne_nil hin)
    refine readFromDisk_bind (fun block hread => ?_) (fun e _ _ => ⟨h, SameTree.refl n, rfl⟩)
    refine Triple.onFailure (E := fun e n' => e ≠ .assertion → ChainInv P n' ∧ SameTree n n' ∧
      n'.pindexBest = n.pindexBest) (withTxDb_spec (Triple.bind (h.setBestChain hP hin
      (readFromDisk_eq_ok hread).1) ?_)) ?_ ?_
    · rintro _ n' ⟨hchain, hsame, hbest⟩
      have htxdb : n'.txdb = ⟨n'.txdb.committed, []⟩ := by
        rw [← hchain.vTxn]
      change ChainInv P n'.closeTxDb ∧ SameTree n n'.closeTxDb ∧ _
      rw [closeTxDb_eq htxdb, hbest]
      exact ⟨hchain, hsame, List.suffix_rfl, Or.inr rfl⟩
    · -- `SetBestChain` returned false, and the hash of the invalid checkpoint is remembered
      intro e n' hfail he _
      obtain ⟨hashInvalidCheckpoint, hclean'⟩ := hclean n'
      rw [hclean']
      obtain ⟨hchain, hsame, hbest⟩ := hfail (by
        rintro rfl
        exact absurd he (by simp [Failure.isReturn]))
      exact ⟨⟨hchain.tree.congr rfl rfl, hchain.best, hchain.hashBestChain, hchain.nBestHeight,
        hchain.genesis, hchain.linked, hchain.vTxn, hchain.keyed⟩,
        ⟨hsame.1, hsame.2, hsame.3, hsame.4, hsame.5⟩, hbest⟩
    · -- it threw
      intro e n' hfail _ hne
      exact hfail hne

/-- The end of both functions that take a checkpoint: its block is made the best, and its hash is
written. -/
theorem takeCheckpoint_advances (hP : CollisionFree P) (h : SyncInv P n)
    (hps : n.mapBlockIndex.lookup n.hashSyncCheckpoint = some ps)
    (hp : n.mapBlockIndex.lookup hash = some p) (hs : ps <:+ p) (hne : ps ≠ p)
    {msgRead msgSet msgWrite : String} :
    Advances P (do
      setBestToCheckpoint P H hash msgRead msgSet
        (fun n => { n with hashInvalidCheckpoint := hash })
      (writeSyncCheckpoint H hash).onFailure Failure.isReturn id (.error 0 msgWrite)
      Command.modify (fun n => { n with hashPendingCheckpoint := 0 })) n := by
  have hpsBest : ps <:+ n.pindexBest := by
    obtain ⟨p', hp', hs'⟩ := h.sync
    rw [hps] at hp'
    cases hp'
    exact hs'
  refine Triple.bind ((setBestToCheckpoint_spec hP h.chain hp (fun n' => ⟨hash, rfl⟩)).mono
    (fun _ _ h => h) ?_) ?_
  · -- the chain was not switched, so the old checkpoint is in it
    rintro e n' hfail hne'
    obtain ⟨hchain, hsame, hbest⟩ := hfail hne'
    refine Advanced.of_sameTree h hsame hchain (fun p' hp' => ?_)
    rw [hps] at hp'
    cases hp'
    rw [hbest]
    exact hpsBest
  · rintro _ n' ⟨hchain, hsame, hpBest, -⟩
    -- the old checkpoint is below the new one, so it is in the new main chain
    have hkept : Advanced P n n' := by
      refine Advanced.of_sameTree h hsame hchain (fun p' hp' => ?_)
      rw [hps] at hp'
      cases hp'
      exact hs.trans hpBest
    refine Triple.bind (Q := fun _ n₁ => ∃ txdb, txdb.vTxn = [] ∧
      n₁ = { n' with hashSyncCheckpoint := hash, txdb := txdb }) ?_ ?_
    · refine Triple.onFailure (E := fun _ n₁ => n₁ = n') (Host.require_bind (fun _ =>
        Host.require_bind (fun _ => ?_) (fun _ => rfl)) (fun _ => rfl)) ?_ ?_
      · exact ⟨{ n'.txdb with
          committed := { n'.txdb.committed with hashSyncCheckpoint := some hash } }, hchain.vTxn, rfl⟩
      · rintro e n₁ rfl _ _
        exact hkept
      · rintro e n₁ rfl _ _
        exact hkept
    · -- the new checkpoint is written
      rintro _ n₁ ⟨txdb, hvTxn, rfl⟩
      have hp' : n'.mapBlockIndex.lookup hash = some p := by
        rw [hsame.mapBlockIndex]
        exact hp
      refine ⟨⟨⟨hchain.tree.congr rfl rfl, hchain.best, hchain.hashBestChain, hchain.nBestHeight,
        hchain.genesis, hchain.linked, hvTxn, hchain.keyed⟩, p, hp', hpBest⟩, hkept.tree, ?_⟩
      exact Or.inr ⟨ps, p, hps, hp', hs, hne⟩

/-- `ValidateSyncCheckpoint` in front of a command that needs a valid checkpoint. -/
theorem validate_bind {α : Type} {k : Bool → Command Node Failure α} (h : SyncInv P n)
    (hvalid : ∀ n' ps p, SyncInv P n' → Advanced P n n' → SameTree n n' →
      n'.mapBlockIndex.lookup n'.hashSyncCheckpoint = some ps →
      n'.mapBlockIndex.lookup hash = some p → ps <:+ p → ps ≠ p → Advances P (k true) n')
    (hinvalid : ∀ n', SyncInv P n' → Advances P (k false) n') :
    Advances P (validateSyncCheckpoint hash >>= k) n := by
  cases hrun : n.toGlobals.validateSyncCheckpoint hash with
  | mk fValid g =>
    obtain ⟨⟨hashInvalidCheckpoint, rfl⟩, hspec⟩ := validateSyncCheckpoint_spec h.chain.tree hrun
    have hchain := h.chain
    obtain ⟨p₀, hp₀, hs₀⟩ := h.sync
    -- the field that was written is not in the invariant
    have hinv : SyncInv P { n with hashInvalidCheckpoint } :=
      ⟨⟨hchain.tree.congr rfl rfl, hchain.best, hchain.hashBestChain, hchain.nBestHeight,
        hchain.genesis, hchain.linked, hchain.vTxn, hchain.keyed⟩, p₀, hp₀, hs₀⟩
    have hadv : Advanced P n { n with hashInvalidCheckpoint } :=
      ⟨hinv, fun _ _ h => h, Or.inl rfl⟩
    refine Triple.bind (Q := fun b n' => b = fValid ∧ n' = { n with hashInvalidCheckpoint }) ?_ ?_
    · unfold Triple validateSyncCheckpoint
      rw [hrun]
      exact ⟨rfl, rfl⟩
    · rintro b n' ⟨rfl, rfl⟩
      have hrest : Advances P (k b) { n with hashInvalidCheckpoint } := by
        cases b with
        -- the command goes on with either answer
        | false => exact hinvalid _ hinv
        | true =>
          obtain ⟨ps, p, hps, hp, hs, hne⟩ := hspec rfl
          exact hvalid _ ps p hinv hadv ⟨rfl, rfl, rfl, rfl, rfl⟩ hps hp hs hne
      exact hrest.mono (fun _ _ h' => hadv.trans h h') (fun _ _ h' he => hadv.trans h (h' he))

/-- **A checkpoint message.** -/
theorem processSyncCheckpoint_advances (hP : CollisionFree P) (h : SyncInv P n) :
    Advances P (processSyncCheckpoint P H hash) n := by
  have hchain := h.chain
  obtain ⟨p₀, hp₀, hs₀⟩ := h.sync
  refine Triple.get_bind ?_
  split_ifs with hmissing
  · -- the message is kept as pending
    refine Triple.modify_bind (fun _ => ⟨⟨⟨hchain.tree.congr rfl rfl, hchain.best,
      hchain.hashBestChain, hchain.nBestHeight, hchain.genesis, hchain.linked, hchain.vTxn,
      hchain.keyed⟩, p₀, hp₀, hs₀⟩, fun _ _ h => h, Or.inl rfl⟩)
  · refine validate_bind h ?_ ?_
    · intro n' ps p hinv _ _ hps hp hs hne
      exact takeCheckpoint_advances hP hinv hps hp hs hne
    · intro n' hinv _
      exact Advanced.refl hinv

/-- **`AcceptPendingSyncCheckpoint`.** -/
theorem acceptPendingSyncCheckpoint_advances (hP : CollisionFree P) (h : SyncInv P n) :
    Advances P (acceptPendingSyncCheckpoint P H) n := by
  refine Triple.get_bind (Triple.lift_bind (fun _ _ => ?_) (fun e he => ?_))
  · refine validate_bind h ?_ ?_
    · intro n' ps p hinv _ _ hps hp hs hne
      exact takeCheckpoint_advances hP hinv hps hp hs hne
    · intro n' hinv
      have hchain := hinv.chain
      obtain ⟨p₀, hp₀, hs₀⟩ := hinv.sync
      refine Triple.modify_bind (fun _ => ⟨⟨⟨hchain.tree.congr rfl rfl, hchain.best,
        hchain.hashBestChain, hchain.nBestHeight, hchain.genesis, hchain.linked, hchain.vTxn,
        hchain.keyed⟩, p₀, hp₀, hs₀⟩, fun _ _ h => h, Or.inl rfl⟩)
  · intro _
    exact Advanced.refl h

end Moves

/-! ### The arrival of a block -/

section Arrival

variable {P : Params} {H H' : Host} {n n' : Node} {block : CBlock}

/-- What `AcceptBlock` has checked of a block before it writes it. -/
structure Admitted (P : Params) (n : Node) (block : CBlock) (pprev : BlockPtr) : Prop where
  prev : n.mapBlockIndex.lookup block.hashPrevBlock = some pprev
  fresh : n.mapBlockIndex.lookup (block.getHash P) = none
  context : ∃ nBestHeight nAdjustedTime,
    block.acceptBlockContext P nBestHeight nAdjustedTime pprev = .ok ()
  sync : n.checkSync P (block.getHash P) pprev = .ok true

/-- `AcceptBlock` up to the write: the block fits its parent and is in the files. -/
theorem acceptBlockWrite_spec :
    Triple (acceptBlockWrite P H block) n
      (fun pos n' => ∃ pprev files, Admitted P n block pprev ∧
        n.files.writeToDisk block = some (files, pos.1, pos.2) ∧ n' = { n with files })
      (fun _ n' => n' = n) := by
  refine Triple.get_bind (Triple.lift_bind (fun _ hfresh => ?_) (fun _ _ => rfl))
  have hnone : n.mapBlockIndex.lookup (block.getHash P) = none := by
    simpa using require_eq_ok.mp hfresh
  cases hprev : n.mapBlockIndex.lookup block.hashPrevBlock with
  | none => exact Triple.fail rfl
  | some pprev =>
    dsimp only
    -- the tests are named, as each of them decides what comes behind it
    generalize hcontext : block.acceptBlockContext P n.nBestHeight H.nAdjustedTime pprev = context
    generalize hsync : n.checkSync P (block.getHash P) pprev = sync
    refine Triple.lift_bind (fun _ hok => Triple.lift_bind (fun fSync hfSync => ?_) (fun _ _ => rfl))
      (fun _ _ => rfl)
    refine Triple.lift_bind (fun _ htrue => Host.require_bind (fun _ => ?_) (fun _ => rfl))
      (fun _ _ => rfl)
    rw [hok] at hcontext
    rw [hfSync, require_eq_ok.mp htrue] at hsync
    cases hwrite : n.files.writeToDisk block with
    | none => exact Triple.fail rfl
    | some r => exact ⟨pprev, r.1, ⟨hprev, hnone, ⟨_, _, hcontext⟩, hsync⟩, rfl, rfl⟩

/-- The node with the block written and its entry made. -/
theorem Advanced.indexed (h : SyncInv P n) {pprev : BlockPtr} {files : BlockFiles}
    {nFile nBlockPos : ℕ} {nAdjustedTime : Int} {c : TxDbData}
    (hcheck : block.checkBlock P nAdjustedTime = .ok ()) (hadmitted : Admitted P n block pprev)
    (hwrite : n.files.writeToDisk block = some (files, nFile, nBlockPos)) :
    Advanced P n (Node.indexed (block.newIndex P pprev nFile nBlockPos :: pprev) c
      { n with files }) := by
  obtain ⟨hprev, hfresh, ⟨nBestHeight, nAdjustedTime', hcontext⟩, -⟩ := hadmitted
  have hchain := h.chain
  -- the hash is new, so nothing else is found anew
  have hold : ∀ hash p, n.mapBlockIndex.lookup hash = some p →
      (n.mapBlockIndex.insert (block.getHash P)
        (block.newIndex P pprev nFile nBlockPos :: pprev)).lookup hash = some p := by
    intro hash p hp
    rw [Map.lookup_insert_eq, if_neg]
    · exact hp
    · rintro rfl
      rw [hfresh] at hp
      exact absurd hp (by simp)
  obtain ⟨p₀, hp₀, hs₀⟩ := h.sync
  have htree := hchain.tree.insert hprev hfresh hcheck hcontext hwrite
  refine ⟨⟨⟨htree.congr rfl rfl, ?_, hchain.hashBestChain, hchain.nBestHeight, hchain.genesis,
    hchain.linked, rfl, hchain.keyed⟩, p₀, hold _ _ hp₀, hs₀⟩, hold, Or.inl rfl⟩
  exact hold _ _ hchain.best

/-- A block that is only written. -/
theorem Advanced.stored (h : SyncInv P n) {files : BlockFiles} {nFile nBlockPos : ℕ}
    (hwrite : n.files.writeToDisk block = some (files, nFile, nBlockPos)) :
    Advanced P n { n with files } := by
  have hchain := h.chain
  obtain ⟨p₀, hp₀, hs₀⟩ := h.sync
  exact ⟨⟨⟨hchain.tree.store hwrite, hchain.best, hchain.hashBestChain, hchain.nBestHeight,
    hchain.genesis, hchain.linked, hchain.vTxn, hchain.keyed⟩, p₀, hp₀, hs₀⟩, fun _ _ h => h,
    Or.inl rfl⟩

/-- `AddToBlockIndex` of a block that `AcceptBlock` has written. -/
theorem addToBlockIndex_advances (hP : CollisionFree P) (hnet : P.fTestNet = false)
    (h : SyncInv P n) {pprev : BlockPtr} {files : BlockFiles} {nFile nBlockPos : ℕ}
    {nAdjustedTime : Int} (hcheck : block.checkBlock P nAdjustedTime = .ok ())
    (hadmitted : Admitted P n block pprev)
    (hwrite : n.files.writeToDisk block = some (files, nFile, nBlockPos)) :
    Triple (addToBlockIndex P H nFile nBlockPos block) { n with files }
      (fun _ n' => Advanced P n n') (fun e n' => e ≠ .assertion → Advanced P n n') := by
  -- `AcceptBlock` has written the block; the database has no transaction open
  have htxdb : ({ n with files } : Node).txdb = ⟨n.txdb.committed, []⟩ := by
    change n.txdb = _
    rw [← h.chain.vTxn]
  have hpprev : pprev = (({ n with files } : Node).mapBlockIndex.lookup
      block.hashPrevBlock).getD [] := by
    change pprev = (n.mapBlockIndex.lookup block.hashPrevBlock).getD []
    rw [hadmitted.prev]
    rfl
  -- the first three cases fail before the chain changes
  refine addToBlockIndex_rule htxdb hpprev rfl ?_ ?_ ?_ ?_
  · intro nDoS msg _
    exact Advanced.stored h hwrite
  · intro c' _ _ _
    exact Advanced.indexed h hcheck hadmitted hwrite
  · intro c' _ _ _
    exact Advanced.indexed h hcheck hadmitted hwrite
  · intro c' _ _ _
    -- in the last one the entry is in the index and `SetBestChain` begins
    have hind := Advanced.indexed (c := c') h hcheck hadmitted hwrite
    set pindexNew := block.newIndex P pprev nFile nBlockPos with hpindexNew
    set m := Node.indexed (pindexNew :: pprev) c' { n with files } with hm
    have hin : m.InTree (pindexNew :: pprev) := by
      change (n.mapBlockIndex.insert (block.getHash P) (pindexNew :: pprev)).lookup
        (block.getHash P) = _
      rw [Map.lookup_insert_eq, if_pos rfl]
    have hread : m.files.readBlock pindexNew.nFile pindexNew.nBlockPos = some block :=
      ChainState.readBlock_of_writeToDisk h.chain.tree.files hwrite
    -- the new block is above the checkpoint
    obtain ⟨ps, hps, hsBest⟩ := h.sync
    have hprevIn : n.InTree pprev := by
      unfold Globals.InTree
      rw [h.chain.tree.keyed _ _ hadmitted.prev]
      exact hadmitted.prev
    have hs := checkSync_eq_true h.chain.tree hnet hps hadmitted.fresh hprevIn hadmitted.sync
    -- what does not switch the chain leaves the checkpoint where it is
    have hfail : ∀ n', ChainInv P n' ∧ SameTree m n' ∧ n'.pindexBest = m.pindexBest →
        Advanced P n n' := by
      rintro n' ⟨hchain, hsame, hbest⟩
      refine hind.trans h (Advanced.of_sameTree hind.inv hsame hchain (fun p hp => ?_))
      have hp' := hind.tree _ _ hps
      rw [show n.hashSyncCheckpoint = m.hashSyncCheckpoint from rfl, hp] at hp'
      rw [Option.some.inj hp', hbest]
      exact hsBest
    refine (hind.inv.chain.setBestChain hP hin hread).mono ?_ ?_
    · -- the new block is the tip, so the checkpoint lies below it
      rintro _ n' ⟨hchain, hsame, hbest⟩
      have htxdb' : n'.txdb = ⟨n'.txdb.committed, []⟩ := by
        rw [← hchain.vTxn]
      rw [closeTxDb_eq htxdb']
      refine hind.trans h (Advanced.of_sameTree hind.inv hsame hchain (fun p hp => ?_))
      have hp' := hind.tree _ _ hps
      rw [show n.hashSyncCheckpoint = m.hashSyncCheckpoint from rfl, hp] at hp'
      rw [Option.some.inj hp', hbest]
      exact hs.trans (List.suffix_cons _ _)
    · intro e n' he
      split_ifs with hret
      · intro _
        refine hfail _ (he ?_)
        rintro rfl
        exact absurd hret (by simp [Failure.isReturn])
      · intro hne
        exact hfail _ (he hne)

/-- **The arrival of a block.** -/
theorem acceptBlock_advances (hP : CollisionFree P) (hnet : P.fTestNet = false) (h : SyncInv P n)
    {nAdjustedTime : Int} (hcheck : block.checkBlock P nAdjustedTime = .ok ()) :
    Advances P (acceptBlock P H H' block) n := by
  refine Triple.bind (acceptBlockWrite_spec.mono (fun _ _ h => h) ?_) ?_
  · rintro e n' rfl _
    exact Advanced.refl h
  · rintro ⟨nFile, nBlockPos⟩ n₁ ⟨pprev, files, hadmitted, hwrite, rfl⟩
    refine Triple.bind (Triple.onFailure (addToBlockIndex_advances hP hnet h hcheck hadmitted
      hwrite) ?_ ?_) ?_
    · intro e n' he hret _
      refine he ?_
      rintro rfl
      exact absurd hret (by simp [Failure.isReturn])
    · intro e n' he _ hne
      exact he hne
    · intro _ n₂ hadv
      -- what `AcceptPendingSyncCheckpoint` returns is thrown away, but not what it does
      have hpending := acceptPendingSyncCheckpoint_advances (H := H') hP hadv.inv
      unfold Advances Triple at hpending
      unfold Triple
      cases hrun : acceptPendingSyncCheckpoint P H' n₂ with
      | mk r n₃ =>
        rw [hrun] at hpending
        cases r with
        | ok u =>
          simp only [hrun]
          exact hadv.trans h hpending
        | error e =>
          cases hret : e.isReturn with
          | true =>
            simp only [hrun, hret, if_true]
            refine hadv.trans h (hpending ?_)
            rintro rfl
            exact absurd hret (by simp [Failure.isReturn])
          | false =>
            simp only [hrun, hret, Bool.false_eq_true, if_false]
            intro hne
            exact hadv.trans h (hpending hne)

end Arrival

/-! ### Resetting -/

section Reset

variable {P : Params} {H : Host} {n n' : Node}

/-- The loop of `ResetSyncCheckpoint` takes only a block in the main chain. -/
theorem resetToHardened_spec (h : ChainInv P n) (checkpoints : List (ℕ × Uint256)) :
    Triple (resetToHardened H checkpoints) n (fun _ n' => SyncInv P n') (fun _ _ => True) := by
  induction checkpoints with
  | nil => exact Triple.fail trivial
  | cons c checkpoints ih =>
    obtain ⟨nHeight, hash⟩ := c
    refine Triple.get_bind ?_
    split_ifs with hmain
    · rw [Bool.and_eq_true] at hmain
      obtain ⟨p, hp⟩ := Option.isSome_iff_exists.mp hmain.1
      -- the block is in the tree, and the pointer leads to it
      have hin : n.InTree p := by
        unfold Globals.InTree
        rw [h.tree.keyed _ _ hp]
        exact hp
      have hptr : n.blockPtr hash = p := by
        unfold Globals.blockPtr
        rw [hp]
        rfl
      rw [hptr] at hmain
      -- it is in the main chain, so the tip is its descendant
      have hs := h.suffix_of_isInMainChain hin hmain.2
      refine Triple.onFailure (E := fun _ _ => True) (Host.require_bind (fun _ =>
        Host.require_bind (fun _ => ?_) (fun _ => trivial)) (fun _ => trivial))
        (fun _ _ _ _ => trivial) (fun _ _ _ _ => trivial)
      exact ⟨⟨h.tree.congr rfl rfl, h.best, h.hashBestChain, h.nBestHeight, h.genesis, h.linked,
        h.vTxn, h.keyed⟩, p, hp, hs⟩
    · exact ih

/-- **`ResetSyncCheckpoint`**, when it returns `true`. -/
theorem resetSyncCheckpoint_spec (hP : CollisionFree P) (h : ChainInv P n) :
    Triple (resetSyncCheckpoint P H) n (fun _ n' => SyncInv P n') (fun _ _ => True) := by
  unfold resetSyncCheckpoint
  split
  · exact Triple.fail trivial
  · next hash _ =>
    refine Triple.bind (Q := fun _ n' => ChainInv P n') ?_ (fun _ n' h' => resetToHardened_spec h' _)
    refine Triple.get_bind ?_
    split_ifs with hsome
    · obtain ⟨p, hp⟩ := Option.isSome_iff_exists.mp hsome
      exact (setBestToCheckpoint_spec hP h hp (fun n' => ⟨n'.hashInvalidCheckpoint, rfl⟩)).mono
        (fun _ _ h' => h'.1) (fun _ _ _ => trivial)
    · exact ⟨h.tree.congr rfl rfl, h.best, h.hashBestChain, h.nBestHeight, h.genesis, h.linked,
        h.vTxn, h.keyed⟩

end Reset

/-! ### Any order of events -/

namespace Checkpoints

/-- The events of a node but for `ResetSyncCheckpoint`. An event that ends the process (a failed
assertion) has no state after it. -/
inductive Step (P : Params) (n : Node) : Node → Prop where
  /-- A block arrives that has passed `CheckBlock`, now or as an orphan. -/
  | acceptBlock {H H' : Host} {block : CBlock} {nAdjustedTime : Int} {r : Result Unit} {n' : Node}
      (hcheck : block.checkBlock P nAdjustedTime = .ok ())
      (hrun : Peershares.acceptBlock P H H' block n = (r, n')) (halive : r ≠ .error .assertion) :
      Step P n n'
  /-- A checkpoint message arrives whose signature is good. -/
  | processSyncCheckpoint {H : Host} {hashCheckpoint : Uint256} {r : Result Unit} {n' : Node}
      (hrun : Peershares.processSyncCheckpoint P H hashCheckpoint n = (r, n'))
      (halive : r ≠ .error .assertion) : Step P n n'
  | acceptPending {H : Host} {r : Result Unit} {n' : Node}
      (hrun : acceptPendingSyncCheckpoint P H n = (r, n')) (halive : r ≠ .error .assertion) :
      Step P n n'
  /-- The rest of the program changes the memory pool, the wallets and the database. -/
  | other {mempool : CTxMemPool} {wallets : List CWallet} {txdb : CTxDB}
      (hkeyed : WalletsKeyed P wallets) (hclosed : txdb.vTxn = []) :
      Step P n { n with mempool, wallets, txdb }

/-- The states of a node that has started with an empty database. `ResetSyncCheckpoint` is called by
`LoadBlockIndex`, which gives up when it fails. -/
inductive Run (P : Params) : Node → Prop where
  | start {H : Host} {n : Node} (hload : loadGenesis P H {} = (.ok (), n)) : Run P n
  | step {n n' : Node} (hrun : Run P n) (hstep : Step P n n') : Run P n'
  | reset {H : Host} {n n' : Node} (hrun : Run P n)
      (hreset : resetSyncCheckpoint P H n = (.ok (), n')) : Run P n'

end Checkpoints

section Runs

variable {P : Params} {n n' : Node}

/-- The invariant at the start. -/
theorem SyncInv.start {H : Host} (hload : loadGenesis P H {} = (.ok (), n)) : SyncInv P n := by
  obtain ⟨hglobals, hvTxn, -, -, hwallets⟩ := (loadGenesis_spec P H).of_ok hload
  have hbest : n.pindexBest = [P.genesisIndex] := by
    rw [hglobals]
    rfl
  have hlookup : n.mapBlockIndex.lookup P.hashGenesisBlock = some [P.genesisIndex] := by
    rw [hglobals]
    exact inTree_genesisGlobals.mpr rfl
  refine ⟨⟨?_, ?_, ?_, ?_, ?_, ?_, hvTxn, ?_⟩, [P.genesisIndex], ?_, ?_⟩
  · rw [hglobals]
    exact genesisGlobals_treeInv P
  · rw [hbest]
    exact hlookup
  · rw [hglobals]
    rfl
  · rw [hglobals]
    exact le_refl _
  · rw [hglobals]
    exact List.cons_ne_nil _ _
  · rw [hglobals]
    intro hash hnext
    exact absurd rfl hnext
  · unfold NodeKeyed
    rw [hwallets]
    intro w hw
    exact absurd hw (by simp)
  · rw [show n.hashSyncCheckpoint = P.hashGenesisBlock by rw [hglobals]; rfl]
    exact hlookup
  · rw [hbest]

/-- A run of a command that advances. -/
theorem Advances.of_run {α : Type} {x : Command Node Failure α} (h : Advances P x n)
    {r : Result α} (hrun : x n = (r, n')) (halive : r ≠ .error .assertion) : Advanced P n n' := by
  unfold Advances at h
  cases r with
  | ok a => exact h.of_ok hrun
  | error e => exact h.of_error hrun (fun heq => halive (by rw [heq]))

/-- **One event.** -/
theorem SyncInv.step (hP : CollisionFree P) (hnet : P.fTestNet = false) (h : SyncInv P n)
    (hstep : Checkpoints.Step P n n') : Advanced P n n' := by
  cases hstep with
  | acceptBlock hcheck hrun halive => exact (acceptBlock_advances hP hnet h hcheck).of_run hrun halive
  | processSyncCheckpoint hrun halive => exact (processSyncCheckpoint_advances hP h).of_run hrun halive
  | acceptPending hrun halive => exact (acceptPendingSyncCheckpoint_advances hP h).of_run hrun halive
  | other hkeyed hclosed =>
    have hchain := h.chain
    obtain ⟨p₀, hp₀, hs₀⟩ := h.sync
    exact ⟨⟨⟨hchain.tree.congr rfl rfl, hchain.best, hchain.hashBestChain, hchain.nBestHeight,
      hchain.genesis, hchain.linked, hclosed, hkeyed⟩, p₀, hp₀, hs₀⟩, fun _ _ h => h, Or.inl rfl⟩

/-- And in every state of a run, by induction on the run. -/
theorem SyncInv.of_run (hP : CollisionFree P) (hnet : P.fTestNet = false)
    (hrun : Checkpoints.Run P n) : SyncInv P n := by
  induction hrun with
  | start hload => exact SyncInv.start hload
  | step _ hstep ih => exact (ih.step hP hnet hstep).inv
  | reset _ hreset ih => exact (resetSyncCheckpoint_spec hP ih.chain).of_ok hreset

/-- **The checkpoint stays in the main chain.** On the main network, in every state of any order of
events the checkpointed block is in the tree and in the chain of the best block, and every event but
a reset leaves the checkpoint where it is or moves it to a strict descendant. -/
theorem Checkpoints.Run.descendant (hP : CollisionFree P) (hnet : P.fTestNet = false)
    (hrun : Checkpoints.Run P n) :
    n.InMainChain n.hashSyncCheckpoint ∧
    ∀ n', Checkpoints.Step P n n' → n'.InMainChain n'.hashSyncCheckpoint ∧
      (n'.hashSyncCheckpoint = n.hashSyncCheckpoint ∨
        ∃ p p', n.mapBlockIndex.lookup n.hashSyncCheckpoint = some p ∧
          n'.mapBlockIndex.lookup n'.hashSyncCheckpoint = some p' ∧ p <:+ p' ∧ p ≠ p') := by
  have hinv := SyncInv.of_run hP hnet hrun
  refine ⟨hinv.sync, fun n' hstep => ?_⟩
  have hadv := hinv.step hP hnet hstep
  exact ⟨hadv.inv.sync, hadv.sync⟩

end Runs

namespace Sample

/-- A script as a list of numbers, and a transaction as a tuple of such. -/
def txCode (tx : CTransaction) : ℤ × ℕ × List ((ℕ × ℕ) × List ℕ × ℕ) × List (ℤ × List ℕ) × ℕ :=
  (tx.nVersion, tx.nTime,
    tx.vin.map (fun txin => ((txin.prevout.hash, txin.prevout.n),
      txin.scriptSig.map UInt8.toNat, txin.nSequence)),
    tx.vout.map (fun txout => (txout.nValue, txout.scriptPubKey.map UInt8.toNat)), tx.nLockTime)

/-- The sample coding of transactions. -/
theorem txCode_injective : Function.Injective txCode := by
  have hbytes : Function.Injective (List.map UInt8.toNat) :=
    List.map_injective_iff.mpr (fun _ _ h => UInt8.toNat_inj.mp h)
  rintro ⟨v, t, vin, vout, l⟩ ⟨v', t', vin', vout', l'⟩ h
  simp only [txCode, Prod.mk.injEq] at h
  obtain ⟨rfl, rfl, hin, hout, rfl⟩ := h
  have hvin : vin = vin' := by
    refine List.map_injective_iff.mpr ?_ hin
    rintro ⟨⟨h₁, n₁⟩, s₁, q₁⟩ ⟨⟨h₂, n₂⟩, s₂, q₂⟩ heq
    simp only [Prod.mk.injEq] at heq
    obtain ⟨⟨rfl, rfl⟩, hs, rfl⟩ := heq
    rw [hbytes hs]
  have hvout : vout = vout' := by
    refine List.map_injective_iff.mpr ?_ hout
    rintro ⟨v₁, s₁⟩ ⟨v₂, s₂⟩ heq
    simp only [Prod.mk.injEq] at heq
    obtain ⟨rfl, hs⟩ := heq
    rw [hbytes hs]
  rw [hvin, hvout]

/-- The coinbase of a block on the main network. -/
def mainCoinBase : CTransaction where
  nTime := 1510339533
  vin := [⟨COutPoint.null, [1, 1], UINT_MAX⟩]
  vout := [⟨2000000, keyScript⟩]

/-- The main network, with a hash that has no collisions. -/
def mainParams : Params :=
  { params with
    fTestNet := false
    hashTx := fun tx => if tx = mainCoinBase then 1 else 2 + Encodable.encode (txCode tx) }

/-- The sample hash has no collisions. -/
theorem mainParams_collisionFree : CollisionFree mainParams := by
  constructor
  · intro tx tx' h
    change (if tx = mainCoinBase then 1 else 2 + Encodable.encode (txCode tx)) =
      (if tx' = mainCoinBase then 1 else 2 + Encodable.encode (txCode tx')) at h
    split_ifs at h with h₁ h₂ h₂
    · rw [h₁, h₂]
    · omega
    · omega
    · exact txCode_injective (Encodable.encode_injective (by omega))
  · intro tx
    change (if tx = mainCoinBase then 1 else 2 + Encodable.encode (txCode tx)) ≠ 0
    split_ifs <;> omega

/-- The first block of the main network. -/
def mainBlock : CBlock where
  hashPrevBlock := 1510339532
  hashMerkleRoot := 1
  nTime := 1510339533
  nBits := getNextTargetRequired mainParams [mainParams.genesisIndex] false
  nNonce := 0
  vtx := [mainCoinBase]
  vchBlockSig := [1]

def mainHost : Host := { nAdjustedTime := 2000000000 }

/-- The node with its genesis block, then with a block on it, then with a checkpoint on that block. -/
def mainStart : Node := (loadGenesis mainParams mainHost {}).2

def mainArrived : Node := (acceptBlock mainParams mainHost mainHost mainBlock mainStart).2

def checkpointed : Node := (processSyncCheckpoint mainParams mainHost 1510339533 mainArrived).2

/-- A command that is seen to return leaves the pair that its run is. -/
theorem run_eq {x : Command Node Failure Unit} {n : Node} (h : (x n).1.toOption = some ()) :
    x n = (.ok (), (x n).2) := by
  rw [← Result.eq_ok_of_toOption h]

/-- The sample run with its checkpoint. -/
theorem run_checkpointed : Checkpoints.Run mainParams checkpointed := by
  have hcheck : (mainBlock.checkBlock mainParams 2000000000).toOption = some () := by
    decide
  have hload : (loadGenesis mainParams mainHost {}).1.toOption = some () := by
    decide
  have haccept : (acceptBlock mainParams mainHost mainHost mainBlock mainStart).1.toOption =
      some () := by
    decide
  have hsync : (processSyncCheckpoint mainParams mainHost 1510339533 mainArrived).1.toOption =
      some () := by
    decide
  have hstart : Checkpoints.Run mainParams mainStart := .start (run_eq hload)
  have harrived : Checkpoints.Run mainParams mainArrived :=
    hstart.step (.acceptBlock (Result.eq_ok_of_toOption hcheck) (run_eq haccept) (by simp))
  exact harrived.step (.processSyncCheckpoint (run_eq hsync) (by simp))

end Sample

/-- The checkpoint has moved to the block, and the block is in the main chain. -/
theorem descendant_checkpointed :
    Sample.checkpointed.InMainChain Sample.checkpointed.hashSyncCheckpoint ∧
      Sample.checkpointed.hashSyncCheckpoint = 1510339533 := by
  refine ⟨?_, by decide⟩
  exact (Checkpoints.Run.descendant Sample.mainParams_collisionFree rfl Sample.run_checkpointed).1

end Peershares
