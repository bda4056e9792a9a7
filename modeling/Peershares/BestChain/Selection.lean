import Peershares.BestChain.Branch

/-!
# What `SetBestChain` does

The fork and the branches as lists of blocks, the links `pnext` after a reorganisation, and the two
ways a call of `SetBestChain` can end: the new block is the best, or the call was rejected and
memory and the committed data are as they were.

A call has three ways to go. The new block is on top of the best one and is connected (`Extended`). It is on another
branch, which is switched to in one transaction of the database (`Switched`). Or the new branch is long: then the
switch is to an intermediate block, and the blocks above it are postponed and connected one by one, each in a
transaction of its own; the first of these that fails ends the loop, without failing the call.

So a result about `SetBestChain` has a goal for each of these steps. `setBestChain_rule` asks for an invariant of the
postponed part and for what is to hold in each of the ends, and hands over what is known there; no other module looks
into `SetBestChain` itself.

* `BlockPtr.findFork_eq_ok`, `BlockPtr.mem_above`, `BlockPtr.postpone_eq` — the branches
* `linkNext_eq_next`, `linkNext_eq_old` — the links after a branch has been linked
* `setBestChainInner_spec`, `reorganize_spec` — the two kinds of steps
* `setBestChain_rule`, `addToBlockIndex_rule` — the whole call, with one goal for each way it can go
-/

open Framework Framework.Command

namespace Peershares

/-! ### Branches -/

namespace BlockPtr

/-- The loop of `Reorganize` that goes down to a height. -/
theorem lowerTo_eq_some {nHeight : ℕ} {p q : BlockPtr} (h : lowerTo nHeight p = some q) :
    q <:+ p ∧ q ≠ [] ∧ q.nHeight ≤ nHeight := by
  induction p with
  | nil => exact absurd h (by simp [lowerTo])
  | cons e p ih =>
    rw [lowerTo] at h
    split_ifs at h with hlt
    · obtain ⟨hs, hne, hle⟩ := ih h
      exact ⟨hs.trans (List.suffix_cons e p), hne, hle⟩
    · cases h
      exact ⟨List.suffix_rfl, by simp, Nat.le_of_not_lt hlt⟩

/-- The fork is below both blocks. -/
theorem findFork_eq_ok {p q pfork : BlockPtr} (h : findFork p q = .ok pfork) :
    pfork <:+ p ∧ pfork <:+ q ∧ pfork ≠ [] := by
  induction p generalizing q with
  | nil => exact absurd h (by simp [findFork])
  | cons e p ih =>
    rw [findFork] at h
    split_ifs at h with heq
    · cases h
      exact ⟨List.suffix_rfl, heq ▸ List.suffix_rfl, by simp⟩
    · split at h
      · exact absurd h (by simp)
      · next q' hlower =>
        obtain ⟨hq', -, -⟩ := lowerTo_eq_some hlower
        split_ifs at h with heq'
        · cases h
          exact ⟨List.suffix_rfl, heq' ▸ hq', by simp⟩
        · obtain ⟨hp, hq, hne⟩ := ih h
          exact ⟨hp.trans (List.suffix_cons e p), hq.trans hq', hne⟩

/-- Nothing lies above the tip. -/
theorem above_self (p : BlockPtr) : above p p = [] := by
  cases p with
  | nil => rfl
  | cons e p => rw [above, if_pos rfl]

/-- The blocks above the fork, one more. -/
theorem above_cons {pfork p : BlockPtr} (e : CBlockIndex) (h : pfork <:+ p) :
    above pfork (e :: p) = (e, p) :: above pfork p := by
  rw [above, if_neg]
  intro heq
  have hlen := h.length_le
  rw [← heq, List.length_cons] at hlen
  omega

/-- Every block above the fork stands on one that is not below the fork. -/
theorem mem_above {pfork p : BlockPtr} (hs : pfork <:+ p) (hne : pfork ≠ [])
    {x : CBlockIndex × BlockPtr} :
    x ∈ above pfork p ↔ x.1 :: x.2 <:+ p ∧ pfork <:+ x.2 := by
  induction p with
  | nil => exact absurd (List.suffix_nil.mp hs) hne
  | cons e p ih =>
    rcases List.suffix_cons_iff.mp hs with rfl | hs
    · -- the fork is the chain: nothing is above it
      rw [above_self]
      constructor
      · intro hx
        exact absurd hx (by simp)
      · rintro ⟨hx, hfork⟩
        have hlen := (hfork.trans ((List.suffix_cons x.1 x.2).trans hx)).length_le
        have := hfork.length_le
        have := hx.length_le
        simp only [List.length_cons] at *
        omega
    · -- the last block, or one that was above the fork before it
      rw [above_cons e hs, List.mem_cons, ih hs]
      constructor
      · rintro (rfl | ⟨hx, hfork⟩)
        · exact ⟨List.suffix_rfl, hs⟩
        · exact ⟨hx.trans (List.suffix_cons e p), hfork⟩
      · rintro ⟨hx, hfork⟩
        rcases List.suffix_cons_iff.mp hx with heq | hx
        · left
          cases heq
          rfl
        · exact Or.inr ⟨hx, hfork⟩

/-- The postponed blocks are taken off the tip. -/
theorem postpone_suffix (bnBestTrust : Int) (p : BlockPtr) :
    (postpone bnBestTrust p).2 <:+ p ∧ (p ≠ [] → (postpone bnBestTrust p).2 ≠ []) := by
  induction p with
  | nil => exact ⟨List.suffix_rfl, fun h => h⟩
  | cons e p ih =>
    rw [postpone]
    split_ifs with hcond
    · exact ⟨ih.1.trans (List.suffix_cons e p), fun _ => ih.2 hcond.1⟩
    · exact ⟨List.suffix_rfl, fun h => h⟩

/-- The postponed blocks are those above the intermediate one. -/
theorem postpone_eq (bnBestTrust : Int) (p : BlockPtr) :
    (postpone bnBestTrust p).1 = above (postpone bnBestTrust p).2 p := by
  induction p with
  | nil => rfl
  | cons e p ih =>
    rw [postpone]
    split_ifs with hcond
    · rw [above_cons e (postpone_suffix bnBestTrust p).1, ih]
    · exact (above_self _).symm

end BlockPtr

/-! ### Links -/

/-- The links after the parents of a row of blocks have been given new successors. -/
def linkNext (next : CBlockIndex → BlockPtr → BlockPtr) (row : List (CBlockIndex × BlockPtr))
    (pnext : Uint256 → BlockPtr) : Uint256 → BlockPtr :=
  row.foldl (fun pnext x =>
    if x.2.isEmpty then pnext else Function.update pnext (BlockPtr.hash x.2) (next x.1 x.2)) pnext

/-- The loops that write `pnext`. -/
theorem foldl_setNext (next : CBlockIndex → BlockPtr → BlockPtr)
    (row : List (CBlockIndex × BlockPtr)) (g : Globals) :
    row.foldl (fun g x => g.setNext x.2 (next x.1 x.2)) g =
      { g with pnext := linkNext next row g.pnext } := by
  induction row generalizing g with
  | nil => rfl
  | cons x row ih =>
    rw [List.foldl_cons, ih]
    unfold Globals.setNext linkNext
    rw [List.foldl_cons]
    split_ifs <;> rfl

/-- The links after a reorganisation. -/
theorem relink_eq (vDisconnect vConnect : List (CBlockIndex × BlockPtr)) (g : Globals) :
    g.relink vDisconnect vConnect = { g with
      pnext := linkNext (fun e p => e :: p) vConnect
        (linkNext (fun _ _ => []) vDisconnect g.pnext) } := by
  unfold Globals.relink
  rw [foldl_setNext (fun _ _ => []), foldl_setNext (fun e p => e :: p)]

/-- A hash that names no parent of the row keeps its link. -/
theorem linkNext_eq_old {next : CBlockIndex → BlockPtr → BlockPtr}
    {row : List (CBlockIndex × BlockPtr)} {pnext : Uint256 → BlockPtr} {hash : Uint256}
    (h : ∀ x ∈ row, x.2 ≠ [] → BlockPtr.hash x.2 ≠ hash) : linkNext next row pnext hash = pnext hash := by
  induction row generalizing pnext with
  | nil => rfl
  | cons x row ih =>
    obtain ⟨hx, hrow⟩ := List.forall_mem_cons.mp h
    unfold linkNext at ih ⊢
    rw [List.foldl_cons, ih hrow]
    split_ifs with hempty
    · rfl
    · exact Function.update_of_ne (hx (by simpa using hempty)).symm _ _

/-- A hash that names one parent of the row is linked to its successor. -/
theorem linkNext_eq_next {next : CBlockIndex → BlockPtr → BlockPtr}
    {row : List (CBlockIndex × BlockPtr)} {pnext : Uint256 → BlockPtr} {e : CBlockIndex}
    {p : BlockPtr} (hmem : (e, p) ∈ row) (hne : p ≠ [])
    (hunique : ∀ x ∈ row, BlockPtr.hash x.2 = p.hash → x = (e, p)) :
    linkNext next row pnext p.hash = next e p := by
  induction row generalizing pnext with
  | nil => exact absurd hmem (by simp)
  | cons x row ih =>
    obtain ⟨hx, hrow⟩ := List.forall_mem_cons.mp hunique
    -- a later block of the row may have the same parent
    by_cases hin : (e, p) ∈ row
    · unfold linkNext at ih ⊢
      rw [List.foldl_cons]
      exact ih hin hrow
    · -- otherwise the link made here is kept by the rest
      have heq : x = (e, p) := ((List.mem_cons.mp hmem).resolve_right hin).symm
      subst heq
      have hrest : linkNext next row (Function.update pnext p.hash (next e p)) p.hash =
          Function.update pnext p.hash (next e p) p.hash :=
        linkNext_eq_old (fun x hx' _ hhash => hin (hrow x hx' hhash ▸ hx'))
      unfold linkNext at hrest ⊢
      rw [List.foldl_cons, if_neg (by simpa using hne), hrest, Function.update_self]

/-! ### The parts of `SetBestChain` -/

/-- A call that was rejected: what was committed stays, and so does memory, but for the trust of the
best invalid chain. -/
structure Rejected (c : TxDbData) (n n' : Node) : Prop where
  holds : n'.toStore.Holds c
  globals : ∃ bnBestInvalidTrust, n'.toGlobals = { n.toGlobals with bnBestInvalidTrust }

/-- `SetBestChainInner` took the node from `n`, with the index `txIndex`, to `n'`, with `d'`
committed. -/
structure Extended (P : Params) (H : Host) (block : CBlock) (pindex : CBlockIndex) (pprev : BlockPtr)
    (n : Node) (txIndex : TxIndexMap) (n' : Node) (d' : TxDbData) : Prop where
  pprev_ne : pprev ≠ []
  globals : n'.toGlobals = { n.toGlobals.setNext pprev (pindex :: pprev) with
    mempool := n.mempool.removeTxs P block.vtx }
  txdb : n'.txdb = ⟨d', []⟩
  hashBestChain : d'.hashBestChain = some (block.getHash P)
  index : connectedIndex P H n.toGlobals block pindex pprev txIndex = some d'.txIndex
  wallets : Runs (forList (syncWithWallets P true) block.vtx) n.wallets n'.wallets

/-- `Reorganize` took the node from `n`, with the index `txIndex`, to `n'`, with `d'` committed. -/
structure Switched (P : Params) (H : Host) (pindexNew pfork : BlockPtr) (n : Node)
    (txIndex : TxIndexMap) (n' : Node) (d' : TxDbData) : Prop where
  fork : BlockPtr.findFork n.pindexBest pindexNew = .ok pfork
  globals : ∃ mempool, n'.toGlobals = { n.toGlobals.relink (BlockPtr.above pfork n.pindexBest)
    (BlockPtr.above pfork pindexNew).reverse with mempool }
  txdb : n'.txdb = ⟨d', []⟩
  hashBestChain : d'.hashBestChain = some pindexNew.hash
  index : (reorganizeProgress P H n.toGlobals (BlockPtr.above pfork n.pindexBest)
    (BlockPtr.above pfork pindexNew).reverse txIndex).2.2 = some d'.txIndex
  wallets : ∃ disconnected connected, Synced P disconnected connected n.wallets n'.wallets

/-- The blocks `SetBestChainInner` connects. -/
def innerProgress (P : Params) (H : Host) (g : Globals) (block : CBlock) (pindex : CBlockIndex)
    (pprev : BlockPtr) (txIndex : TxIndexMap) : List CBlock :=
  if (connectedIndex P H g block pindex pprev txIndex).isSome then [block] else []

/-- The blocks `Reorganize` disconnects and connects. -/
def switchProgress (P : Params) (H : Host) (g : Globals) (pindexNew : BlockPtr)
    (txIndex : TxIndexMap) : List CBlock × List CBlock :=
  match BlockPtr.findFork g.pindexBest pindexNew with
  | .error _ => ([], [])
  | .ok pfork =>
    let r := reorganizeProgress P H g (BlockPtr.above pfork g.pindexBest)
      (BlockPtr.above pfork pindexNew).reverse txIndex
    (r.1, r.2.1)

section Parts

variable {P : Params} {H : Host} {block : CBlock} {pindex : CBlockIndex} {pprev pindexNew : BlockPtr}
  {n : Node} {c d : TxDbData}

/-- A triple about the store is one about the node. -/
theorem onStore_spec {α : Type} {x : Globals → Command Store Failure α} {Q : α → Node → Prop}
    {E : Failure → Node → Prop}
    (h : Triple (x n.toGlobals) n.toStore (fun a s => Q a { n with toStore := s })
      (fun e s => E e { n with toStore := s })) : Triple (onStore x) n Q E :=
  Triple.onPart h

/-- A switch that failed and was recorded as invalid. -/
theorem rejected_invalidChain {n' : Node} (pindexNew : BlockPtr) (hholds : n'.toStore.Holds c)
    (hglobals : n'.toGlobals = n.toGlobals) :
    Rejected c n (n'.invalidChain pindexNew) ∧ (n'.invalidChain pindexNew).txdb.vTxn = [] := by
  obtain ⟨habort, hvTxn⟩ := hholds.txnAbort
  refine ⟨⟨habort, ?_⟩, hvTxn⟩
  unfold Node.invalidChain Globals.invalidChainFound
  rw [hglobals]
  dsimp only
  split_ifs
  · exact ⟨_, rfl⟩
  · exact ⟨n.bnBestInvalidTrust, rfl⟩

/-- No blocks, nothing synced. -/
theorem synced_nil (ws : List CWallet) : Synced P [] [] ws ws := ⟨ws, rfl, rfl⟩

/-- A block that could not be connected is not synced. -/
theorem synced_innerProgress_of_none {g : Globals} {txIndex : TxIndexMap} (ws : List CWallet)
    (h : connectedIndex P H g block pindex pprev txIndex = none) :
    Synced P [] (innerProgress P H g block pindex pprev txIndex) ws ws := by
  unfold innerProgress
  rw [h]
  exact synced_nil ws

/-- A connected block is. -/
theorem synced_innerProgress_of_some {g : Globals} {txIndex txIndex' : TxIndexMap}
    {ws ws' : List CWallet} (h : connectedIndex P H g block pindex pprev txIndex = some txIndex')
    (hruns : Runs (forList (syncWithWallets P true) block.vtx) ws ws') :
    Synced P [] (innerProgress P H g block pindex pprev txIndex) ws ws' := by
  unfold innerProgress
  rw [h]
  refine ⟨ws, rfl, ?_⟩
  simpa using hruns

/-- The transaction of `SetBestChainInner`, up to the commit. -/
theorem connectTip_spec {g : Globals} {s : Store} (hs : s.InTxn c d) :
    Triple (do
        block.connectBlock P H g pindex pprev
        Store.writeHashBestChain H (block.getHash P) "") s
      (fun _ s' => Runs (forList (syncWithWallets P true) block.vtx) s.wallets s'.wallets ∧
        ∃ d', s'.InTxn c d' ∧ d'.hashBestChain = some (block.getHash P) ∧
          connectedIndex P H g block pindex pprev d.txIndex = some d'.txIndex)
      (fun e s' => s'.Holds c ∧ (e.isReturn = true →
        Synced P [] (innerProgress P H g block pindex pprev d.txIndex) s.wallets s'.wallets)) := by
  -- `ConnectBlock`, and then the hash of the new best block
  refine Triple.bind ((connectBlock_spec s c d hs).mono (fun _ _ h => h) ?_) ?_
  · rintro e s' ⟨hholds, hret⟩
    refine ⟨hholds, fun he => ?_⟩
    obtain ⟨hnone, hw⟩ := hret he
    rw [hw]
    exact synced_innerProgress_of_none s.wallets hnone
  · rintro _ s₁ ⟨d₁, hs₁, -, hindex, hruns⟩
    refine Host.require_bind (fun _ => ?_) (fun _ => ?_)
    · refine hs₁.write _ (fun s' hs' hw => ?_)
      rw [hw]
      exact ⟨hruns, _, hs', rfl, hindex⟩
    · exact ⟨hs₁.holds, fun _ => synced_innerProgress_of_some hindex hruns⟩

/-- **`SetBestChainInner`** in an open transaction. -/
theorem setBestChainInner_spec (hs : n.toStore.InTxn c d) :
    Triple (setBestChainInner P H block pindex pprev) n
      (fun _ n' => ∃ d', Extended P H block pindex pprev n d.txIndex n' d')
      (fun e n' => (e = .assertion ∧ pprev = []) ∨
        (Rejected c n n' ∧ (e.isReturn = true → n'.txdb.vTxn = [] ∧
          Synced P [] (innerProgress P H n.toGlobals block pindex pprev d.txIndex)
            n.wallets n'.wallets))) := by
  refine Triple.bind (Q := fun _ n₁ => n₁.toGlobals = n.toGlobals ∧
    Runs (forList (syncWithWallets P true) block.vtx) n.wallets n₁.wallets ∧
    ∃ d', n₁.toStore.InTxn c d' ∧ d'.hashBestChain = some (block.getHash P) ∧
      connectedIndex P H n.toGlobals block pindex pprev d.txIndex = some d'.txIndex) ?_ ?_
  · -- `ConnectBlock` and the write of the best hash
    refine Triple.onFailure (E := fun e n' => n'.toGlobals = n.toGlobals ∧ n'.toStore.Holds c ∧
      (e.isReturn = true → Synced P [] (innerProgress P H n.toGlobals block pindex pprev d.txIndex)
        n.wallets n'.wallets)) (onStore_spec ((connectTip_spec hs).mono ?_ ?_)) ?_ ?_
    · rintro _ s' ⟨hruns, d', hs', hbest, hindex⟩
      exact ⟨rfl, hruns, d', hs', hbest, hindex⟩
    · rintro e s' ⟨hholds, hret⟩
      exact ⟨rfl, hholds, hret⟩
    · -- what fails there is aborted and recorded as invalid
      rintro e n' ⟨hglobals, hholds, hret⟩ he
      obtain ⟨hrej, hvTxn⟩ := rejected_invalidChain (pindex :: pprev) hholds hglobals
      exact Or.inr ⟨hrej, fun _ => ⟨hvTxn, hret he⟩⟩
    · rintro e n' ⟨hglobals, hholds, -⟩ he
      refine Or.inr ⟨⟨hholds, n.bnBestInvalidTrust, hglobals⟩, fun hret => ?_⟩
      exact absurd hret (by simp [he])
  · -- the commit, and the link from the parent
    rintro _ n₁ ⟨hglobals, hruns, d', hs₁, hbest, hindex⟩
    refine Triple.bind (Q := fun _ n₂ => n₂.toGlobals = n.toGlobals ∧ n₂.txdb = ⟨d', []⟩ ∧
      n₂.wallets = n₁.wallets) ?_ ?_
    · refine onStore_spec (hs₁.txnCommit (fun s' hs' hw => ⟨hglobals, hs', hw⟩)
        (fun s' hs' hv hw => ?_))
      refine Or.inr ⟨⟨hs', n.bnBestInvalidTrust, hglobals⟩, fun _ => ⟨hv, ?_⟩⟩
      change Synced P [] _ n.wallets s'.wallets
      rw [hw]
      exact synced_innerProgress_of_some hindex hruns
    · rintro _ n₂ ⟨hglobals₂, htxdb, hw⟩
      cases pprev with
      | nil => exact Or.inl ⟨rfl, rfl⟩
      | cons e p =>
        rw [← hw] at hruns
        refine ⟨d', by simp, ?_, htxdb, hbest, hindex, hruns⟩
        change { n₂.toGlobals.setNext (e :: p) (pindex :: e :: p) with
          mempool := n₂.toGlobals.mempool.removeTxs P block.vtx } = _
        rw [hglobals₂]

/-- `Reorganize` took the node from `n`, with the index `txIndex`, to `n'`, with `d'` committed, and
these are the blocks of the two branches. -/
structure Reorganized (P : Params) (H : Host) (pindexNew pfork : BlockPtr)
    (disconnected connected : List CBlock) (n : Node) (txIndex : TxIndexMap) (n' : Node)
    (d' : TxDbData) : Prop where
  fork : BlockPtr.findFork n.pindexBest pindexNew = .ok pfork
  globals : n'.toGlobals = n.toGlobals.reorganized P (BlockPtr.above pfork n.pindexBest)
    (BlockPtr.above pfork pindexNew).reverse disconnected connected
  txdb : n'.txdb = ⟨d', []⟩
  hashBestChain : d'.hashBestChain = some pindexNew.hash
  progress : reorganizeProgress P H n.toGlobals (BlockPtr.above pfork n.pindexBest)
    (BlockPtr.above pfork pindexNew).reverse txIndex = (disconnected, connected, some d'.txIndex)
  wallets : Synced P disconnected connected n.wallets n'.wallets

/-- A reorganization is a switch. -/
theorem Reorganized.switched {pfork : BlockPtr} {disconnected connected : List CBlock}
    {txIndex : TxIndexMap} {n' : Node} {d' : TxDbData}
    (h : Reorganized P H pindexNew pfork disconnected connected n txIndex n' d') :
    Switched P H pindexNew pfork n txIndex n' d' where
  fork := h.fork
  globals := ⟨n.mempool.reorganized P disconnected connected, h.globals⟩
  txdb := h.txdb
  hashBestChain := h.hashBestChain
  index := by rw [h.progress]
  wallets := ⟨disconnected, connected, h.wallets⟩

/-- **`Reorganize`** in an open transaction, with the blocks of the two branches. -/
theorem reorganize_blocks_spec (hs : n.toStore.InTxn c d) :
    Triple (reorganize P H pindexNew) n
      (fun _ n' => ∃ pfork disconnected connected d',
        Reorganized P H pindexNew pfork disconnected connected n d.txIndex n' d')
      (fun e n' => n'.toGlobals = n.toGlobals ∧ n'.toStore.Holds c ∧ (e.isReturn = true →
        Synced P (switchProgress P H n.toGlobals pindexNew d.txIndex).1
          (switchProgress P H n.toGlobals pindexNew d.txIndex).2 n.wallets n'.wallets)) := by
  refine Triple.get_bind (Triple.lift_bind (fun pfork hfork => ?_) (fun e he => ?_))
  · refine Triple.bind (Q := fun blocks n₁ => n₁.toGlobals = n.toGlobals ∧
      Synced P blocks.1 blocks.2 n.wallets n₁.wallets ∧ ∃ d',
      n₁.txdb = ⟨d', []⟩ ∧ d'.hashBestChain = some pindexNew.hash ∧
      reorganizeProgress P H n.toGlobals (BlockPtr.above pfork n.pindexBest)
        (BlockPtr.above pfork pindexNew).reverse d.txIndex =
          (blocks.1, blocks.2, some d'.txIndex)) ?_ ?_
    · -- the disk part goes on to the commit
      refine onStore_spec ((reorganizeStore_spec hs).mono ?_ ?_)
      · rintro blocks s' ⟨d', hs', hbest, hprogress, hsynced⟩
        exact ⟨rfl, hsynced, d', hs', hbest, hprogress⟩
      · rintro e s' ⟨hholds, hret⟩
        refine ⟨rfl, hholds, fun he => ?_⟩
        unfold switchProgress
        rw [hfork]
        exact hret he
    · -- then the links are set in memory
      rintro ⟨disconnected, connected⟩ n₁ ⟨hglobals, hsynced, d', htxdb, hbest, hprogress⟩
      refine ⟨pfork, disconnected, connected, d', hfork, ?_, htxdb, hbest, hprogress, hsynced⟩
      change n₁.toGlobals.reorganized P _ _ disconnected connected = _
      rw [hglobals]
  · -- without a fork nothing has been touched
    refine ⟨rfl, hs.holds, fun _ => ?_⟩
    unfold switchProgress
    rw [he]
    exact synced_nil n.wallets

/-- **`Reorganize`** in an open transaction. -/
theorem reorganize_spec (hs : n.toStore.InTxn c d) :
    Triple (reorganize P H pindexNew) n
      (fun _ n' => ∃ pfork d', Switched P H pindexNew pfork n d.txIndex n' d')
      (fun e n' => n'.toGlobals = n.toGlobals ∧ n'.toStore.Holds c ∧ (e.isReturn = true →
        Synced P (switchProgress P H n.toGlobals pindexNew d.txIndex).1
          (switchProgress P H n.toGlobals pindexNew d.txIndex).2 n.wallets n'.wallets)) := by
  refine (reorganize_blocks_spec hs).mono ?_ (fun _ _ h => h)
  rintro _ n' ⟨pfork, disconnected, connected, d', h⟩
  exact ⟨pfork, d', h.switched⟩

end Parts

/-! ### Rules for the whole call -/

section Rules

variable {P : Params} {H : Host}

/-- **The loop over the postponed blocks.** `I row` holds while `row` is left to connect, and `F` when
the loop has been left early. -/
theorem connectPostponed_rule {I : List (CBlockIndex × BlockPtr) → Node → Prop} {F : Node → Prop}
    {X : Failure → Node → Prop} (hstop : ∀ x row n, I (x :: row) n → F n)
    (hinner : ∀ pindex pprev row n block, I ((pindex, pprev) :: row) n →
      readFromDisk P H n.files pindex = .ok block →
      Triple (setBestChainInner P H block pindex pprev)
        { n with toStore := { n.toStore with txdb := n.txdb.txnBegin } } (fun _ n' => I row n')
        (fun e n' => if e.isReturn then F n' else X e n'))
    {row : List (CBlockIndex × BlockPtr)} {n : Node} (h : I row n) :
    Triple (connectPostponed P H row) n (fun fComplete n' => if fComplete then I [] n' else F n') X := by
  -- induction on the row
  induction row generalizing n with
  | nil => exact h
  | cons x row ih =>
    obtain ⟨pindex, pprev⟩ := x
    have hF := hstop _ _ _ h
    unfold Triple connectPostponed
    -- a block that cannot be read ends the loop
    cases hread : readFromDisk P H n.files pindex with
    | error e =>
      have hret := readFromDisk_noThrow n.files pindex e hread
      simp only [hret, if_true]
      exact hF
    | ok block =>
      have hin := hinner pindex pprev row n block h hread
      unfold Triple at hin
      cases hio : H.io (.txnBegin2 pindex.hashBlock) with
      | false => exact hF
      | true =>
        simp only [Bool.not_true, Bool.false_eq_true, if_false]
        -- so does one that cannot be connected
        cases hrun : setBestChainInner P H block pindex pprev
            { n with toStore := { n.toStore with txdb := n.txdb.txnBegin } } with
        | mk r n' =>
          rw [hrun] at hin
          cases r with
          | ok u => exact ih hin
          | error e =>
            simp only at hin ⊢
            cases hret : e.isReturn with
            | true =>
              rw [hret] at hin
              exact hin
            | false =>
              rw [hret] at hin
              exact hin

/-- The loop never returns `false`. -/
theorem connectPostponed_isReturn (row : List (CBlockIndex × BlockPtr)) (n : Node) :
    Triple (connectPostponed P H row) n (fun _ _ => True) (fun e _ => e.isReturn = false) := by
  refine (connectPostponed_rule (I := fun _ _ => True) (F := fun _ => True)
    (fun _ _ _ _ => trivial) ?_ trivial).mono (fun _ _ _ => trivial) (fun _ _ h => h)
  intro pindex pprev row n block _ _
  unfold Triple
  split
  · trivial
  · next e n' _ =>
    change if e.isReturn then True else e.isReturn = false
    cases he : e.isReturn with
    | true => trivial
    | false => rfl

/-- The blocks a call of `SetBestChain` that returns `false` has disconnected and connected. -/
def setBestChainProgress (P : Params) (H : Host) (g : Globals) (txIndex : TxIndexMap) (block : CBlock)
    (pindexNew : BlockPtr) : List CBlock × List CBlock :=
  if H.io .txnBegin = false then ([], [])
  else if g.pindexGenesisBlock = [] ∧ block.getHash P = P.hashGenesisBlock then ([], [])
  else if block.hashPrevBlock = g.hashBestChain then
    match pindexNew with
    | [] => ([], [])
    | pindex :: pprev => ([], innerProgress P H g block pindex pprev txIndex)
  else switchProgress P H g (pindexNew.postpone g.pindexBest.bnChainTrust).2 txIndex

/-- What is known of a rejected call. -/
def RejectedCall (P : Params) (H : Host) (block : CBlock) (pindexNew : BlockPtr) (c : TxDbData)
    (n : Node) (e : Failure) (n' : Node) : Prop :=
  Rejected c n n' ∧ (e.isReturn = true → n'.txdb.vTxn = [] ∧
    Synced P (setBestChainProgress P H n.toGlobals c.txIndex block pindexNew).1
      (setBestChainProgress P H n.toGlobals c.txIndex block pindexNew).2 n.wallets n'.wallets)

/-- Genesis is made the best block. -/
structure Started (P : Params) (H : Host) (block : CBlock) (pindexNew : BlockPtr) (c : TxDbData)
    (n n' : Node) : Prop where
  genesis : n.pindexGenesisBlock = [] ∧ block.getHash P = P.hashGenesisBlock
  globals : n'.toGlobals = { n.toGlobals with pindexGenesisBlock := pindexNew }
  txdb : n'.txdb = ⟨{ c with
    hashBestChain := if H.io (.writeHashBestChain (block.getHash P)) then some (block.getHash P)
      else c.hashBestChain }, []⟩
  wallets : n'.wallets = n.wallets

variable {block : CBlock} {pindexNew : BlockPtr} {n : Node} {c : TxDbData}

/-- The first way of `SetBestChain`: the genesis block. -/
theorem setBestChainGenesis_spec (hs : n.toStore.InTxn c c)
    (hgen : n.pindexGenesisBlock = [] ∧ block.getHash P = P.hashGenesisBlock) :
    Triple (setBestChainGenesis H (block.getHash P) pindexNew) n
      (fun fComplete n' => fComplete = H.io (.writeHashBestChain (block.getHash P)) ∧
        Started P H block pindexNew c n n')
      (fun _ n' => n'.toGlobals = n.toGlobals ∧ n'.toStore.Holds c ∧ n'.txdb.vTxn = [] ∧
        n'.wallets = n.wallets) := by
  -- what the transaction shows after the write whose result is ignored
  set d : TxDbData := { c with
    hashBestChain := if H.io (.writeHashBestChain (block.getHash P)) then some (block.getHash P)
      else c.hashBestChain } with hd
  refine Triple.bind (Q := fun _ (n₁ : Node) => n₁.toGlobals = n.toGlobals ∧
    n₁.toStore.InTxn c d ∧ n₁.wallets = n.wallets) ?_ ?_
  · exact onStore_spec (hs.write _ (fun s' hs' hw => ⟨rfl, hs', hw⟩))
  · rintro _ n₁ ⟨hglobals, hs₁, hw₁⟩
    refine Triple.bind (Q := fun _ n₂ => n₂.toGlobals = n.toGlobals ∧ n₂.txdb = ⟨d, []⟩ ∧
      n₂.wallets = n.wallets) ?_ ?_
    · refine onStore_spec (hs₁.txnCommit (fun s' hs' hw => ⟨hglobals, hs', hw.trans hw₁⟩)
        (fun s' hs' hv hw => ?_))
      exact ⟨hglobals, hs', hv, hw.trans hw₁⟩
    · rintro _ n₂ ⟨hglobals₂, htxdb, hw₂⟩
      refine ⟨rfl, hgen, ?_, htxdb, hw₂⟩
      change { n₂.toGlobals with pindexGenesisBlock := pindexNew } = _
      rw [hglobals₂]

/-- **The three branches**, in an open transaction. -/
theorem setBestChainBranch_rule {Q : Bool → Node → Prop} {E : Failure → Node → Prop}
    (hs : n.toStore.InTxn c c) (hio : H.io .txnBegin = true)
    (hgenesis : ∀ n', Started P H block pindexNew c n n' →
      Q (H.io (.writeHashBestChain (block.getHash P))) n')
    (hinner : ∀ pindex pprev n' d', pindexNew = pindex :: pprev →
      block.hashPrevBlock = n.hashBestChain →
      Extended P H block pindex pprev n c.txIndex n' d' → Q true n')
    (hswitch : ∀ pindexIntermediate pfork n' d',
      pindexIntermediate = (pindexNew.postpone n.pindexBest.bnChainTrust).2 →
      reorganize P H pindexIntermediate n = (.ok (), n') →
      Switched P H pindexIntermediate pfork n c.txIndex n' d' →
      Triple (connectPostponed P H (BlockPtr.above pindexIntermediate pindexNew).reverse) n' Q E)
    (hrejected : ∀ e n', RejectedCall P H block pindexNew c n e n' → E e n')
    (hcrash : ∀ n', E .assertion n') :
    Triple (setBestChainBranch P H block pindexNew) n Q E := by
  have hio' : ¬H.io .txnBegin = false := by simp [hio]
  refine Triple.get_bind ?_
  -- the three ways of `SetBestChain`
  split_ifs with hgen hnext
  · -- the genesis block
    refine (setBestChainGenesis_spec hs hgen).mono ?_ ?_
    · rintro _ n' ⟨rfl, hstarted⟩
      exact hgenesis n' hstarted
    · rintro e n' ⟨hglobals, hholds, hv, hw⟩
      refine hrejected e n' ⟨⟨hholds, n.bnBestInvalidTrust, hglobals⟩, fun _ => ⟨hv, ?_⟩⟩
      unfold setBestChainProgress
      rw [if_neg hio', if_pos hgen, hw]
      exact synced_nil n.wallets
  · -- the block follows on the best one
    cases pindexNew with
    | nil => exact hcrash n
    | cons pindex pprev =>
      refine Triple.bind (Q := fun _ n' => Q true n') ?_ (fun _ _ h => h)
      have hprogress : setBestChainProgress P H n.toGlobals c.txIndex block (pindex :: pprev) =
          ([], innerProgress P H n.toGlobals block pindex pprev c.txIndex) := by
        unfold setBestChainProgress
        rw [if_neg hio', if_neg hgen, if_pos hnext]
      -- a block that cannot be connected is recorded as invalid
      refine Triple.onFailure ((setBestChainInner_spec hs).mono ?_ (fun _ _ h => h)) ?_ ?_
      · rintro _ n' ⟨d', hext⟩
        exact hinner pindex pprev n' d' rfl hnext hext
      · rintro e n' (⟨rfl, -⟩ | ⟨hrej, hret⟩) he
        · exact absurd he (by simp [Failure.isReturn])
        · refine hrejected _ _ ⟨hrej, fun _ => ?_⟩
          rw [hprogress]
          exact hret he
      · rintro e n' (⟨rfl, -⟩ | ⟨hrej, hret⟩) he
        · exact hcrash n'
        · refine hrejected _ _ ⟨hrej, fun he' => ?_⟩
          exact absurd he' (by simp [he])
  · refine Triple.get_bind ?_
    -- a reorganisation; the blocks that were put off are connected after the commit
    have hprogress : setBestChainProgress P H n.toGlobals c.txIndex block pindexNew =
        switchProgress P H n.toGlobals (pindexNew.postpone n.pindexBest.bnChainTrust).2 c.txIndex := by
      unfold setBestChainProgress
      rw [if_neg hio', if_neg hgen, if_neg hnext]
    -- up to the intermediate block; what fails there takes everything back
    refine Triple.bind (Triple.onFailure (Triple.run.and (reorganize_spec hs)) ?_ ?_) ?_
    · rintro e n' ⟨-, hglobals, hholds, hret⟩ he
      obtain ⟨hrej, hv⟩ := rejected_invalidChain pindexNew hholds hglobals
      refine hrejected _ _ ⟨hrej, fun _ => ⟨hv, ?_⟩⟩
      rw [hprogress]
      exact hret he
    · rintro e n' ⟨-, hglobals, hholds, -⟩ he
      refine hrejected _ _ ⟨⟨hholds, n.bnBestInvalidTrust, hglobals⟩, fun he' => ?_⟩
      exact absurd he' (by simp [he])
    · -- the rest of the branch is connected block by block
      rintro _ n' ⟨hrun, pfork, d', hswitched⟩
      have hrow := hswitch _ pfork n' d' rfl hrun hswitched
      rw [← BlockPtr.postpone_eq] at hrow
      exact hrow

/-- The node with the new best block. -/
def Node.newBest (hash : Uint256) (pindexNew : BlockPtr) (n : Node) : Node :=
  { n with toGlobals := n.toGlobals.newBest hash pindexNew }

/-- **The whole call**, for a database handle without open transactions. One goal for each way it can
go: genesis, the next block, another branch, a rejection, and a parent that is missing. -/
theorem setBestChain_rule {Q : Bool → Node → Prop} {E : Failure → Node → Prop}
    (hn : n.txdb = ⟨c, []⟩)
    (hgenesis : ∀ n', Started P H block pindexNew c n n' →
      Q (H.io (.writeHashBestChain (block.getHash P))) (n'.newBest (block.getHash P) pindexNew))
    (hinner : ∀ pindex pprev n' d', pindexNew = pindex :: pprev →
      block.hashPrevBlock = n.hashBestChain →
      Extended P H block pindex pprev n c.txIndex n' d' →
      Q true (n'.newBest (block.getHash P) pindexNew))
    (hswitch : ∀ pindexIntermediate pfork n' d',
      pindexIntermediate = (pindexNew.postpone n.pindexBest.bnChainTrust).2 →
      reorganize P H pindexIntermediate { n with txdb := n.txdb.txnBegin } = (.ok (), n') →
      Switched P H pindexIntermediate pfork n c.txIndex n' d' →
      Triple (connectPostponed P H (BlockPtr.above pindexIntermediate pindexNew).reverse) n'
        (fun fComplete n'' => Q fComplete (n''.newBest (block.getHash P) pindexNew)) E)
    (hrejected : ∀ e n', RejectedCall P H block pindexNew c n e n' → E e n')
    (hcrash : ∀ n', E .assertion n') :
    Triple (setBestChain P H block pindexNew) n Q E := by
  have hs : Store.InTxn { n.toStore with txdb := n.txdb.txnBegin } c c := by
    unfold Store.InTxn
    rw [hn]
    rfl
  refine Triple.bind (Q := fun _ n₁ => n₁ = { n with txdb := n.txdb.txnBegin } ∧
    H.io .txnBegin = true) ?_ ?_
  · -- the transaction cannot be opened
    refine onStore_spec (Host.require_bind (fun hio => ⟨rfl, hio⟩) (fun hio => ?_))
    have hholds : n.toStore.Holds c := ⟨by rw [hn], by rw [hn]; rfl⟩
    refine hrejected _ _ ⟨⟨hholds, n.bnBestInvalidTrust, rfl⟩, fun _ => ⟨by rw [hn], ?_⟩⟩
    unfold setBestChainProgress
    rw [if_pos hio]
    exact synced_nil n.wallets
  · -- the branch of `SetBestChain`, and then what it writes of the new best block
    rintro _ n₁ ⟨rfl, hio⟩
    refine Triple.bind (setBestChainBranch_rule (E := E)
      (Q := fun fComplete n' => Q fComplete (n'.newBest (block.getHash P) pindexNew))
      hs hio ?_ ?_ ?_ ?_ hcrash) (fun _ _ h => h)
    · rintro n' ⟨hgen, hg, htxdb, hws⟩
      exact hgenesis n' ⟨hgen, hg, htxdb, hws⟩
    · rintro pindex pprev n' d' hnew hprev ⟨hne, hg, htxdb, hbest, hindex, hws⟩
      exact hinner pindex pprev n' d' hnew hprev ⟨hne, hg, htxdb, hbest, hindex, hws⟩
    · rintro pindexIntermediate pfork n' d' hint hrun ⟨hfork, hg, htxdb, hbest, hindex, hws⟩
      exact hswitch pindexIntermediate pfork n' d' hint hrun
        ⟨hfork, hg, htxdb, hbest, hindex, hws⟩
    · rintro e n' ⟨⟨hholds, hg⟩, hret⟩
      exact hrejected e n' ⟨⟨hholds, hg⟩, hret⟩

/-! ### New blocks -/

/-- Closing a database without a transaction. -/
theorem closeTxDb_eq (h : n.txdb = ⟨c, []⟩) : n.closeTxDb = n := by
  have hclosed : ({ n.txdb with vTxn := [] } : CTxDB) = n.txdb := by
    rw [h]
  unfold Node.closeTxDb
  rw [hclosed]

/-- A triple inside an open database. -/
theorem withTxDb_spec {α : Type} {x : Command Node Failure α} {Q : α → Node → Prop}
    {E : Failure → Node → Prop}
    (h : Triple x n (fun a n' => Q a n'.closeTxDb) (fun e n' => E e n'.closeTxDb)) :
    Triple (withTxDb x) n Q E := by
  unfold Triple withTxDb
  unfold Triple at h
  split at h
  · next hrun =>
    rw [hrun]
    exact h
  · next hrun =>
    rw [hrun]
    exact h

/-- The record `AddToBlockIndex` writes leaves the index and the best chain alone. -/
structure SameIndex (c c' : TxDbData) : Prop where
  txIndex : c'.txIndex = c.txIndex
  hashBestChain : c'.hashBestChain = c.hashBestChain

/-- The node with a new block in the tree and another record in the database. -/
def Node.indexed (pindexNew : BlockPtr) (c : TxDbData) (n : Node) : Node :=
  { n.insertBlockIndex pindexNew with txdb := ⟨c, []⟩ }

/-- **`AddToBlockIndex`**, for a database handle without open transactions: it is refused, the block
is only put into the tree, or `SetBestChain` is called on the tree with the block. -/
theorem addToBlockIndex_rule {nFile nBlockPos : ℕ} {Q : Unit → Node → Prop}
    {E : Failure → Node → Prop} {pprev : BlockPtr} {pindexNew : CBlockIndex}
    (hn : n.txdb = ⟨c, []⟩) (hprev : pprev = (n.mapBlockIndex.lookup block.hashPrevBlock).getD [])
    (hindex : pindexNew = block.newIndex P pprev nFile nBlockPos)
    (hrefused : ∀ nDoS msg, E (.error nDoS msg) n)
    (hadded : ∀ c', SameIndex c c' → n.mapBlockIndex.lookup (block.getHash P) = none →
      E (.error 0 "") (n.indexed (pindexNew :: pprev) c'))
    (hnotBest : ∀ c', SameIndex c c' → n.mapBlockIndex.lookup (block.getHash P) = none →
      pindexNew.bnChainTrust ≤ n.bnBestChainTrust → Q () (n.indexed (pindexNew :: pprev) c'))
    (hcall : ∀ c', SameIndex c c' → n.mapBlockIndex.lookup (block.getHash P) = none →
      n.bnBestChainTrust < pindexNew.bnChainTrust →
      Triple (setBestChain P H block (pindexNew :: pprev)) (n.indexed (pindexNew :: pprev) c')
        (fun _ n' => Q () n'.closeTxDb)
        (fun e n' => if e.isReturn then E (.error 0 "") n'.closeTxDb else E e n'.closeTxDb)) :
    Triple (addToBlockIndex P H nFile nBlockPos block) n Q E := by
  subst hprev hindex
  set pprev := (n.mapBlockIndex.lookup block.hashPrevBlock).getD [] with hpprev
  set pindexNew := block.newIndex P pprev nFile nBlockPos with hpindexNew
  -- a block that is known, or that is refused, leaves the node alone
  refine Triple.get_bind (Triple.lift_bind (fun _ hnew => ?_) (fun e he => ?_))
  · have hnone : n.mapBlockIndex.lookup (block.getHash P) = none := by
      simpa using require_eq_ok.mp hnew
    refine Triple.lift_bind (fun _ _ => ?_) (fun e he => ?_)
    · refine Triple.modify_bind (withTxDb_spec ?_)
      set n₁ := n.insertBlockIndex (pindexNew :: pprev) with hn₁
      have htxdb : n₁.txdb = ⟨c, []⟩ := hn
      -- the transaction is open; the record is written; the transaction is committed
      refine Triple.bind (Q := fun _ n₂ => n₂ = { n₁ with txdb := ⟨c, [c]⟩ }) ?_ ?_
      · refine onStore_spec (Host.require_bind (fun _ => ?_) (fun _ => ?_))
        · change { n₁ with txdb := n₁.txdb.txnBegin } = _
          rw [htxdb]
          rfl
        · change E _ n₁.closeTxDb
          have hsame := hadded c ⟨rfl, rfl⟩ hnone
          unfold Node.indexed at hsame
          rw [← hn₁, ← htxdb] at hsame
          rw [closeTxDb_eq htxdb]
          exact hsame
      · rintro _ n₂ rfl
        -- `WriteBlockIndex`, the record of the parent included
        refine Triple.bind (Q := fun _ n₂ => ∃ c', SameIndex c c' ∧
          n₂ = { n₁ with txdb := ⟨c, [c']⟩ }) ?_ ?_
        · refine onStore_spec (Triple.get_bind ?_)
          set blockindex := Store.diskIndex n₁.toGlobals { n₁.toStore with txdb := ⟨c, [c]⟩ }
            pindexNew pprev with hblockindex
          exact ⟨{ c with blockIndex := c.blockIndex.insert blockindex.index.hashBlock blockindex },
            ⟨rfl, rfl⟩, rfl⟩
        · -- only more trust than the best chain has calls `SetBestChain`
          rintro _ n₂ ⟨c', hsame, rfl⟩
          cases hio : H.io .addTxnCommit with
          | false => exact hadded c ⟨rfl, rfl⟩ hnone
          | true =>
            refine Triple.modify_bind (Triple.get_bind ?_)
            change Triple (if n.bnBestChainTrust < pindexNew.bnChainTrust then _ else _)
              (n.indexed (pindexNew :: pprev) c') _ _
            split_ifs with hbest
            · refine Triple.onFailure (Triple.bind (hcall c' hsame hnone hbest)
                (fun _ _ h => h)) ?_ ?_
              · intro e n' h he
                rw [he] at h
                exact h
              · intro e n' h he
                rw [he] at h
                exact h
            · exact hnotBest c' hsame hnone (not_lt.mp hbest)
    · -- the stake of the block was refused
      cases hstake : H.stakeError block with
      | none => exact absurd he (by simp [hstake])
      | some msg =>
        simp only [hstake, Except.error.injEq] at he
        rw [← he]
        exact hrefused 0 msg
  · unfold require at he
    split_ifs at he
    cases he
    exact hrefused _ _

end Rules

end Peershares
