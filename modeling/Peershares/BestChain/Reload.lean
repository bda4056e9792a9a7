import Peershares.BestChain.Frame
import Peershares.BestChain.Records
import Peershares.Framework.RankOrder
import Peershares.Model.LoadBlockIndex

/-!
# Starting again

`LoadBlockIndex` starts a node on what another one has committed. It rebuilds the tree that was in memory: every entry
with its height and the trust of its chain, the links, and the best chain, which is the one whose index is committed. So
a node that starts again is in a state of the same kind as a node that went on, also when the call in which it stopped
had connected a part of its blocks only.

* `Node.Durable` — what is left on disk when a node stops
* `Node.Consistent.durable_call` — every call of `SetBestChain` leaves that, whichever way it ends
* `IndexObjects.exists_shows`, `IndexObjects.exists_chainTrust`, `Node.withIndex_eq` — the records give back the tree
* `verifyBlocks_spec` — the blocks that are checked again pass unless the clock is behind
* `loadBlockIndex_restores` — `LoadBlockIndex` on a durable state
-/

open Framework Framework.Command

namespace Peershares

/-! ### What a call leaves on disk -/

section Calls

variable {P : Params} {H : Host} {g : Globals} {n n' : Node} {block : CBlock} {pindex : CBlockIndex}
  {pprev pindexNew q : BlockPtr}

/-- The links, the committed hash and the committed index are those of one block of the tree. -/
def Settled (P : Params) (g : Globals) (n : Node) : Prop :=
  ∃ q, g.InTree q ∧ ConnectedTo P g q n ∧ LinkedBelow n.pnext q

/-- A rejected call leaves the node connected to its block. -/
theorem Settled.rejected (hin : g.InTree q) (h : ConnectedTo P g q n) (hb : LinkedBelow n.pnext q)
    (hrej : Rejected n.txdb.committed n n') : Settled P g n'.closeTxDb := by
  obtain ⟨bnBestInvalidTrust, hg⟩ := hrej.globals
  have hglobals : n'.closeTxDb.toGlobals = { n.toGlobals with bnBestInvalidTrust } := hg
  have hcommitted : n'.closeTxDb.txdb.committed = n.txdb.committed := hrej.holds.committed
  refine ⟨q, hin, ⟨?_, ?_, ?_, rfl, ?_, ?_, ?_⟩, ?_⟩
  · rw [hglobals]
    exact h.mapBlockIndex
  · rw [hglobals]
    exact h.files
  · rw [hglobals]
    exact h.pindexGenesisBlock
  · rw [hcommitted]
    exact h.hashBestChain
  · rw [hglobals]
    exact h.linked
  · rw [hcommitted]
    exact h.index
  · rw [hglobals]
    exact hb

/-- Closing a database without a transaction. -/
theorem closeTxDb_of_vTxn (h : n.txdb.vTxn = []) : n.closeTxDb = n := by
  refine closeTxDb_eq (c := n.txdb.committed) ?_
  rw [← h]

/-- The loop over the postponed blocks, wherever it stops. -/
theorem settled_connectPostponed (h : Agrees P n) (hin : n.InTree pindexNew) (hs : q <:+ pindexNew) (hne : q ≠ [])
    (hn' : ConnectedTo P n.toGlobals q n') (hb : LinkedBelow n'.pnext q) :
    Triple (connectPostponed P H (BlockPtr.above q pindexNew).reverse) n'
      (fun _ n'' => Settled P n.toGlobals n'')
      (fun e n'' => e ≠ .assertion → Settled P n.toGlobals n''.closeTxDb) := by
  -- while `row` is left to connect, the node is connected to the block below it
  refine (connectPostponed_rule (F := Settled P n.toGlobals)
    (X := fun e n'' => e ≠ .assertion → Settled P n.toGlobals n''.closeTxDb)
    (I := fun row n₁ => ∃ q : BlockPtr, q <:+ pindexNew ∧ q ≠ [] ∧ row = (BlockPtr.above q pindexNew).reverse ∧
      ConnectedTo P n.toGlobals q n₁ ∧ LinkedBelow n₁.pnext q) ?_ ?_ ⟨q, hs, hne, rfl, hn', hb⟩).mono ?_ (fun _ _ h => h)
  · rintro x row n₁ ⟨q, hs, hne, -, hn₁, hb₁⟩
    exact ⟨q, h.tree.suffix hin hs hne, hn₁, hb₁⟩
  · rintro pindex pprev row n₁ block ⟨q, hs, hne, hrow, hn₁, hb₁⟩ hread
    rcases BlockPtr.above_reverse_cases hs with ⟨-, heq⟩ | ⟨e, hes, heq⟩
    · rw [heq] at hrow
      exact absurd hrow (by simp)
    · rw [heq] at hrow
      cases hrow
      have hs₁ : Store.InTxn { n₁.toStore with txdb := n₁.txdb.txnBegin } n₁.txdb.committed
          n₁.txdb.committed := by
        unfold Store.InTxn CTxDB.txnBegin CTxDB.view
        rw [hn₁.vTxn]
        rfl
      -- one block of the row
      refine (setBestChainInner_spec hs₁).mono ?_ ?_
      · rintro _ n₂ ⟨d', hne', hg, htxdb, hbest, hindex, hw⟩
        rw [hn₁.files] at hread
        obtain ⟨hstored, hhash⟩ := readFromDisk_eq_ok hread
        have hext : Extended P H block pindex pprev n₁ n₁.txdb.committed.txIndex n₂ d' :=
          ⟨hne', hg, htxdb, hbest, hindex, hw⟩
        exact ⟨pindex :: pprev, hes, by simp, rfl,
          hn₁.extend h.tree (h.tree.suffix hin hes (by simp)) hstored hhash hext, hb₁.extended hext⟩
      · rintro e n₂ (⟨rfl, -⟩ | ⟨hrej, hret⟩)
        · exact fun hne => absurd rfl hne
        · have hsettled : Settled P n.toGlobals n₂.closeTxDb :=
            Settled.rejected (h.tree.suffix hin hs hne) hn₁ hb₁ ⟨hrej.holds, hrej.globals⟩
          split_ifs with he
          · rw [closeTxDb_of_vTxn (hret he).1] at hsettled
            exact hsettled
          · exact fun _ => hsettled
  · -- at the end of the loop
    rintro fComplete n₂ hI
    split_ifs at hI
    · obtain ⟨q, hs, hne, -, hn₂, hb₂⟩ := hI
      exact ⟨q, h.tree.suffix hin hs hne, hn₂, hb₂⟩
    · exact hI

/-- **A call of `SetBestChain`**, whichever way it ends and however many of its blocks it has connected. -/
theorem settled_setBestChain (h : Agrees P n) (hb : LinkedBelow n.pnext n.pindexBest)
    (hin : n.InTree (pindex :: pprev)) (hread : n.files.readBlock pindex.nFile pindex.nBlockPos = some block) :
    Triple (setBestChain P H block (pindex :: pprev)) n (fun _ n' => Settled P n.toGlobals n')
      (fun e n' => e ≠ .assertion → Settled P n.toGlobals n'.closeTxDb) := by
  have htxdb : n.txdb = ⟨n.txdb.committed, []⟩ := by
    rw [← h.vTxn]
  -- "new best block" changes neither the links nor the database
  have hnewBest : ∀ (n' : Node) (hash : Uint256), Settled P n.toGlobals n' →
      Settled P n.toGlobals (n'.newBest hash (pindex :: pprev)) := by
    rintro n' hash ⟨q, hq, hn', hb'⟩
    exact ⟨q, hq, ⟨hn'.mapBlockIndex, hn'.files, hn'.pindexGenesisBlock, hn'.vTxn, hn'.hashBestChain, hn'.linked,
      hn'.index⟩, hb'⟩
  refine setBestChain_rule htxdb ?_ ?_ ?_ ?_ ?_
  · intro n' hstarted
    exact absurd hstarted.genesis.1 h.genesis
  · rintro _ _ n' d' hnew hprev hext
    cases hnew
    have hpprev := h.tree.closed _ _ hin hext.pprev_ne
    obtain ⟨hstored, -⟩ := h.tree.stored _ _ _ hin hext.pprev_ne hread
    -- its parent is the best block, as there is one block under a hash
    have hbest : pprev = n.pindexBest :=
      hpprev.unique h.best (hstored.symm.trans (hprev.trans h.agreement.pindexBest.symm))
    subst hbest
    exact hnewBest n' _ ⟨_, hin, h.connectedTo.extend h.tree hin hread (h.tree.getHash_eq hin hread) hext,
      hb.extended hext⟩
  · intro q pfork n' d' hq _ hswitched
    obtain ⟨hsuffix, hqne⟩ := BlockPtr.postpone_suffix n.pindexBest.bnChainTrust (pindex :: pprev)
    rw [← hq] at hsuffix hqne
    have hqin := h.tree.suffix hin hsuffix (hqne (by simp))
    have hn' := h.connectedTo.switch h.tree h.best hqin hswitched
    refine (settled_connectPostponed h hin hsuffix (hqne (by simp)) hn'
      (hb.switched h.tree h.best hswitched)).mono ?_ (fun _ _ h' => h')
    exact fun fComplete n₂ hn₂ => hnewBest n₂ _ hn₂
  · intro e n' hrej _
    exact Settled.rejected h.best h.connectedTo hb hrej.1
  · intro n' hne
    exact absurd rfl hne

end Calls

/-! ### The objects -/

/-- The objects are those of the tree, with its links; the trust of a chain is not in the records. -/
structure IndexObjects.Shows (g : Globals) (m : IndexObjects) : Prop where
  found : ∀ (e : CBlockIndex) (p : BlockPtr), g.InTree (e :: p) → ∃ o, m.lookup e.hashBlock = some o ∧
    o.pprev = p.hash ∧ o.pnext = (g.pnext e.hashBlock).hash ∧ o.entry e.hashBlock e.bnChainTrust = e
  only : ∀ hash, (m.lookup hash).isSome → ∃ e p, g.InTree (e :: p) ∧ e.hashBlock = hash

/-- What the records hold of the fields that only the kernel uses, by the hash of the block. Those of genesis are what
`AddToBlockIndex` has computed on an empty index. -/
structure StakeRecords (P : Params) (K : KernelHash) where
  fields : Uint256 → StakeFields
  genesis : P.genesisBlock.newStake P K {} (fun _ => {}) none = .ok (fields P.hashGenesisBlock)

/-- Genesis has passed the checkpoint of the stake modifiers. -/
theorem StakeRecords.passes {P : Params} {K : KernelHash} (stake : StakeRecords P K) :
    checkStakeModifierCheckpoints P 0 (K.hashChecksum none
      ((stake.fields P.hashGenesisBlock).nFlags P.genesisIndex.fProofOfStake)
      (stake.fields P.hashGenesisBlock).hashProofOfStake (stake.fields P.hashGenesisBlock).nStakeModifier
        / 2 ^ 224 % 2 ^ 32) = true := by
  set fields : StakeFields :=
    { stakeEntropyBit := P.genesisBlock.getStakeEntropyBit P, generatedStakeModifier := true } with hfields
  have hnew : P.genesisBlock.newStake P K {} (fun _ => {}) none = (do
      let nStakeModifierChecksum ← getStakeModifierChecksum P K P.hashGenesisBlock false none fields
      require (checkStakeModifierCheckpoints P 0 nStakeModifierChecksum) 0
        "AddToBlockIndex() : Rejected by stake modifier checkpoint height=%d, modifier=0x%016x"
      pure { fields with nStakeModifierChecksum }) := rfl
  have hgenesis := stake.genesis
  rw [hnew] at hgenesis
  simp only [Result.bind_eq_ok, require_eq_ok, getStakeModifierChecksum, ne_eq, not_true_eq_false, and_false,
    if_false, Except.ok.injEq] at hgenesis
  obtain ⟨_, rfl, _, hcheck, heq⟩ := hgenesis
  rw [← Except.ok.inj heq]
  exact hcheck

/-- What the tree of a node satisfies for its records to be readable: `0` is not the hash of a block, and the hash of a
proof-of-work block meets its target. -/
structure Globals.Readable (g : Globals) : Prop where
  hash_ne : ∀ e p, g.InTree (e :: p) → e.hashBlock ≠ 0
  work : ∀ e p, g.InTree (e :: p) → e.fProofOfStake = false → (checkProofOfWork e.hashBlock e.nBits).isOk

section Objects

variable {P : Params} {g : Globals} {m : IndexObjects} {d : TxDbData} {e : CBlockIndex} {p : BlockPtr}

namespace IndexObjects

/-- `InsertBlockIndex` makes a new object unless there is one, and none for the hash zero. -/
theorem lookup_insertBlockIndex (hash hash' : Uint256) (m : IndexObjects) :
    (insertBlockIndex hash m).lookup hash' =
      if (m.lookup hash').isNone ∧ hash' = hash ∧ hash ≠ 0 then some {} else m.lookup hash' := by
  unfold insertBlockIndex
  by_cases hskip : hash = 0 ∨ (m.lookup hash).isSome
  · rw [if_pos hskip, if_neg]
    rintro ⟨hnone, rfl, hne⟩
    exact absurd (hskip.resolve_left hne) (by rw [Option.isNone_iff_eq_none.mp hnone]; simp)
  · rw [not_or] at hskip
    rw [if_neg (by rw [not_or]; exact hskip), Map.lookup_insert_eq]
    by_cases heq : hash' = hash
    · subst heq
      rw [if_pos rfl, if_pos ⟨by simpa using hskip.2, rfl, hskip.1⟩]
    · rw [if_neg heq, if_neg (fun h => heq h.2.1)]

/-- The records in `done` have been read. -/
structure Partly (blockIndex : Map Uint256 CDiskBlockIndex) (done : List CDiskBlockIndex) (m : IndexObjects) : Prop where
  read : ∀ r ∈ done, m.lookup r.index.hashBlock = some r.toObject
  only : ∀ hash, (m.lookup hash).isSome → (blockIndex.lookup hash).isSome

/-- An object for a neighbour is made when it has a record that will be read. -/
theorem Partly.insertBlockIndex {blockIndex : Map Uint256 CDiskBlockIndex} {done : List CDiskBlockIndex}
    (h : Partly blockIndex done m) (hash : Uint256) (hrec : hash ≠ 0 → (blockIndex.lookup hash).isSome) :
    Partly blockIndex done (IndexObjects.insertBlockIndex hash m) := by
  refine ⟨fun r hr => ?_, fun hash' hsome => ?_⟩
  · have hread := h.read r hr
    rw [lookup_insertBlockIndex, if_neg, hread]
    rintro ⟨hnone, -⟩
    rw [hread] at hnone
    exact absurd hnone (by simp)
  · rw [lookup_insertBlockIndex] at hsome
    split_ifs at hsome with hnew
    · obtain ⟨-, rfl, hne⟩ := hnew
      exact hrec hne
    · exact h.only hash' hsome

/-- **All records are read** when the hashes in them are those of other records. -/
theorem exists_loadRecords {blockIndex : Map Uint256 CDiskBlockIndex}
    (hkey : ∀ hash r, blockIndex.lookup hash = some r → r.index.hashBlock = hash ∧ hash ≠ 0)
    (hprev : ∀ hash r, blockIndex.lookup hash = some r → r.hashPrev ≠ 0 → (blockIndex.lookup r.hashPrev).isSome)
    (hnext : ∀ hash r, blockIndex.lookup hash = some r → r.hashNext ≠ 0 → (blockIndex.lookup r.hashNext).isSome)
    (hcheck : ∀ hash r, blockIndex.lookup hash = some r →
      (r.index.fProofOfStake || (checkProofOfWork r.index.hashBlock r.index.nBits).isOk) = true) :
    ∃ m, loadRecords blockIndex = .ok m ∧
      ∀ hash, m.lookup hash = (blockIndex.lookup hash).map CDiskBlockIndex.toObject := by
  -- induction on the records that are left, with those before read
  have hloop : ∀ (rest done : List CDiskBlockIndex) (m : IndexObjects),
      (∀ r ∈ rest, blockIndex.lookup r.index.hashBlock = some r) →
      (∀ r ∈ done, blockIndex.lookup r.index.hashBlock = some r) → Partly blockIndex done m →
      ∃ m', rest.foldlM loadRecord m = .ok m' ∧ Partly blockIndex (rest.reverse ++ done) m' := by
    intro rest
    induction rest with
    | nil => exact fun done m _ _ hm => ⟨m, rfl, hm⟩
    | cons r rest ih =>
      intro done m hrest hdone hm
      have hr := hrest r List.mem_cons_self
      -- the record makes objects for itself, its parent and its child
      have hm₁ := ((hm.insertBlockIndex r.index.hashBlock (fun _ => by rw [hr]; rfl)).insertBlockIndex
        r.hashPrev (hprev _ r hr)).insertBlockIndex r.hashNext (hnext _ r hr)
      set m₁ := insertBlockIndex r.hashNext (insertBlockIndex r.hashPrev (insertBlockIndex r.index.hashBlock m)) with hm₁'
      have hload : loadRecord m r = .ok (m₁.insert r.index.hashBlock r.toObject) := by
        unfold loadRecord
        rw [if_neg (hkey _ r hr).2, hcheck _ r hr]
        rfl
      -- what was read before is not written again
      have hm₂ : Partly blockIndex (r :: done) (m₁.insert r.index.hashBlock r.toObject) := by
        refine ⟨fun r' hr' => ?_, fun hash hsome => ?_⟩
        · rw [Map.lookup_insert_eq]
          rcases List.mem_cons.mp hr' with rfl | hr'
          · rw [if_pos rfl]
          · -- two records of one hash are one record
            split_ifs with heq
            · have hsame : r' = r := Option.some.inj ((hdone r' hr').symm.trans (heq ▸ hr))
              rw [hsame]
            · exact hm₁.read r' hr'
        · rw [Map.lookup_insert_eq] at hsome
          split_ifs at hsome with heq
          · rw [heq, hr]
            rfl
          · exact hm₁.only hash hsome
      -- the records that are left
      obtain ⟨m', hfold, hm'⟩ := ih (r :: done) _ (fun r' hr' => hrest r' (List.mem_cons_of_mem r hr'))
        (List.forall_mem_cons.mpr ⟨hr, hdone⟩) hm₂
      refine ⟨m', ?_, ?_⟩
      · rw [List.foldlM_cons, hload]
        exact hfold
      · rw [List.reverse_cons, List.append_assoc]
        exact hm'
  have hentries : ∀ r ∈ blockIndex.entries.map Sigma.snd, blockIndex.lookup r.index.hashBlock = some r := by
    intro r hr
    obtain ⟨⟨hash, r'⟩, hmem, rfl⟩ := List.mem_map.mp hr
    have hlook : blockIndex.lookup hash = some r' := AList.mem_lookup_iff.mpr hmem
    rw [(hkey hash r' hlook).1]
    exact hlook
  -- all the records, from an empty map
  obtain ⟨m, hfold, hm⟩ := hloop _ [] ∅ hentries (by simp) ⟨by simp, by simp⟩
  refine ⟨m, hfold, fun hash => ?_⟩
  -- an object without a record would belong to a parent or a child that has none
  cases hlook : blockIndex.lookup hash with
  | none =>
    rw [Option.map_none, ← Option.not_isSome_iff_eq_none]
    intro hsome
    have hrec := hm.only hash hsome
    rw [hlook] at hrec
    exact absurd hrec (by simp)
  | some r =>
    have hmem : r ∈ blockIndex.entries.map Sigma.snd := List.mem_map.mpr ⟨⟨hash, r⟩, AList.mem_lookup_iff.mp hlook, rfl⟩
    have hread := hm.read r (by simpa using hmem)
    rw [(hkey hash r hlook).1] at hread
    exact hread

/-- **The records of a tree** are read, and the objects are those of the tree. -/
theorem exists_shows (ht : g.TreeInv P) (hread : g.Readable)
    (hlinked : ∀ hash, g.pnext hash ≠ [] → g.InTree (g.pnext hash))
    (hrec : g.RecordedAs g.pnext d) : ∃ m, loadRecords d.blockIndex = .ok m ∧ m.Shows g := by
  -- every record is that of a block of the tree
  have hrecord : ∀ hash r, d.blockIndex.lookup hash = some r → ∃ e p, g.InTree (e :: p) ∧ e.hashBlock = hash ∧
      r.index = e ∧ r.hashPrev = BlockPtr.hash p ∧ r.hashNext = (g.pnext hash).hash := by
    intro hash r hr
    obtain ⟨p, hp, hhash⟩ := hrec.only hash r hr
    obtain ⟨e, p, rfl⟩ := List.exists_cons_of_ne_nil (ht.ne_nil hp)
    obtain ⟨r', hr', hindex, hprev, hnext⟩ := hrec.found e p hp
    change e.hashBlock = hash at hhash
    rw [hhash] at hr' hnext
    obtain rfl : r = r' := Option.some.inj (hr.symm.trans hr')
    exact ⟨e, p, hp, hhash, hindex, hprev, hnext⟩
  have hsome : ∀ p : BlockPtr, g.InTree p → (d.blockIndex.lookup p.hash).isSome := by
    intro p hp
    obtain ⟨e, p, rfl⟩ := List.exists_cons_of_ne_nil (ht.ne_nil hp)
    obtain ⟨r, hr, -⟩ := hrec.found e p hp
    exact Option.isSome_iff_exists.mpr ⟨r, hr⟩
  -- so it stands under its hash, with its parent and its child
  have hkey : ∀ hash r, d.blockIndex.lookup hash = some r → r.index.hashBlock = hash ∧ hash ≠ 0 := by
    intro hash r hr
    obtain ⟨e, p, hin, hhash, hindex, -⟩ := hrecord hash r hr
    exact ⟨by rw [hindex, hhash], hhash ▸ hread.hash_ne e p hin⟩
  have hprev : ∀ hash r, d.blockIndex.lookup hash = some r → r.hashPrev ≠ 0 →
      (d.blockIndex.lookup r.hashPrev).isSome := by
    intro hash r hr hne
    obtain ⟨e, p, hin, -, -, hprev, -⟩ := hrecord hash r hr
    rw [hprev] at hne ⊢
    exact hsome p (ht.closed e p hin (fun hnil => hne (by rw [hnil]; rfl)))
  have hnext : ∀ hash r, d.blockIndex.lookup hash = some r → r.hashNext ≠ 0 →
      (d.blockIndex.lookup r.hashNext).isSome := by
    intro hash r hr hne
    obtain ⟨e, p, -, -, -, -, hnext⟩ := hrecord hash r hr
    rw [hnext] at hne ⊢
    exact hsome _ (hlinked hash (fun hnil => hne (by rw [hnil]; rfl)))
  -- a work block has its work
  have hcheck : ∀ hash r, d.blockIndex.lookup hash = some r →
      (r.index.fProofOfStake || (checkProofOfWork r.index.hashBlock r.index.nBits).isOk) = true := by
    intro hash r hr
    obtain ⟨e, p, hin, -, rfl, -⟩ := hrecord hash r hr
    cases hstake : r.index.fProofOfStake with
    | true => rfl
    | false => exact hread.work _ p hin hstake
  obtain ⟨m, hload, hm⟩ := exists_loadRecords hkey hprev hnext hcheck
  refine ⟨m, hload, fun e p hin => ?_, fun hash hsome' => ?_⟩
  · obtain ⟨r, hr, rfl, hprev, hnext⟩ := hrec.found e p hin
    exact ⟨r.toObject, by rw [hm, hr, Option.map_some], hprev, hnext, rfl⟩
  · rw [hm, Option.isSome_map] at hsome'
    obtain ⟨r, hr⟩ := Option.isSome_iff_exists.mp hsome'
    obtain ⟨e, p, hin, hhash, -⟩ := hrecord hash r hr
    exact ⟨e, p, hin, hhash⟩

end IndexObjects

end Objects

/-! ### Trust and pointers -/

section Pointers

variable {P : Params} {g : Globals} {m : IndexObjects} {sums : Map Uint256 ChainSums} {p : BlockPtr} {n : Node}
  {K : KernelHash}

/-- The trust of a chain is added up from the parent's. -/
theorem TreeOk.bnChainTrust_eq {files : BlockFiles} {e : CBlockIndex} (h : TreeOk P files (e :: p)) :
    e.bnChainTrust = p.bnChainTrust + getBlockTrust e.nBits e.fProofOfStake := by
  cases h with
  | genesis _ => rfl
  | accepted _ _ _ _ _ => rfl

/-- Only genesis has no parent. -/
theorem TreeOk.hashBlock_of_singleton {files : BlockFiles} {e : CBlockIndex} (h : TreeOk P files [e]) :
    e.hashBlock = P.hashGenesisBlock := by
  cases h with
  | genesis _ => rfl
  | accepted hprev _ _ _ _ => exact absurd rfl hprev.ne_nil

namespace IndexObjects

/-- No object has the hash zero. -/
theorem Shows.lookup_zero (hm : m.Shows g) (hread : g.Readable) : m.lookup 0 = none := by
  rw [← Option.not_isSome_iff_eq_none]
  intro hsome
  obtain ⟨e, p, hin, hhash⟩ := hm.only 0 hsome
  exact hread.hash_ne e p hin hhash

/-- Every block of the tree has its object. -/
theorem Shows.mem_keys (hm : m.Shows g) {e : CBlockIndex} (hin : g.InTree (e :: p)) : e.hashBlock ∈ m.keys := by
  obtain ⟨o, ho, -⟩ := hm.found e p hin
  exact AList.mem_keys.mp (AList.lookup_isSome.mp (by rw [ho]; rfl))

/-- And every object is that of a block. -/
theorem Shows.of_mem_keys (hm : m.Shows g) {hash : Uint256} (h : hash ∈ m.keys) :
    ∃ e p, g.InTree (e :: p) ∧ e.hashBlock = hash :=
  hm.only hash (AList.lookup_isSome.mpr (AList.mem_keys.mpr h))

variable (K) in
/-- The checksum of the stake modifiers along a chain. -/
def stakeChecksum (stake : Uint256 → StakeFields) : BlockPtr → ℕ
  | [] => 0
  | e :: p =>
    K.hashChecksum (if p = [] then none else some (stakeChecksum stake p)) ((stake e.hashBlock).nFlags e.fProofOfStake)
      (stake e.hashBlock).hashProofOfStake (stake e.hashBlock).nStakeModifier / 2 ^ 224 % 2 ^ 32

/-- A block has the checkpoint of its height behind it: genesis because `AddToBlockIndex` has tested it, and all others
because there is none. -/
theorem checkStakeModifierCheckpoints_of_inTree (ht : g.TreeInv P) (stake : StakeRecords P K) {e : CBlockIndex}
    (hin : g.InTree (e :: p)) :
    checkStakeModifierCheckpoints P e.nHeight (stakeChecksum K stake.fields (e :: p)) = true := by
  have hheight : e.nHeight = p.length := (ht.treeOk _ hin).heightsOk.1
  rw [hheight]
  by_cases hnil : p = []
  · subst hnil
    have hgenesis := (ht.treeOk _ hin).rooted
    rw [List.suffix_cons_iff] at hgenesis
    obtain rfl : P.genesisIndex = e := by simpa using hgenesis
    exact stake.passes
  · exact checkStakeModifierCheckpoints_of_pos P (List.length_pos_iff.mpr hnil) _

/-- **The sums along every chain** are what they were, though they are not in the records: the blocks come in the order
of their heights, so that those of the parent are there. -/
theorem exists_chainTrust (ht : g.TreeInv P) (hread : g.Readable) (hm : m.Shows g) (stake : StakeRecords P K) :
    ∃ sums, m.chainTrust P K stake.fields = .ok sums ∧
      ∀ e p, g.InTree (e :: p) → (sums.lookup e.hashBlock).map ChainSums.bnChainTrust = some e.bnChainTrust := by
  set dep : Uint256 → Option Uint256 := fun hash =>
    (m.lookup hash).bind (fun o => if o.pprev = 0 then none else some o.pprev) with hdep
  set val : Uint256 → ChainSums := fun hash =>
    { bnChainTrust := BlockPtr.bnChainTrust ((g.mapBlockIndex.lookup hash).getD [])
      nStakeModifierChecksum := stakeChecksum K stake.fields ((g.mapBlockIndex.lookup hash).getD []) } with hval
  have hvalue : ∀ p : BlockPtr, g.InTree p → val p.hash = ⟨p.bnChainTrust, stakeChecksum K stake.fields p⟩ := by
    intro p hp
    unfold Globals.InTree at hp
    rw [hval]
    dsimp only
    rw [hp, Option.getD_some]
  -- the rounds go over all the objects in the order of their heights
  have hperm : m.sortedByHeight.Perm m.keys := List.perm_insertionSort _ _
  -- a parent has an object, and a smaller height
  have hparent : ∀ hash hash', dep hash = some hash' → m.height hash' < m.height hash ∧ hash' ∈ m.sortedByHeight := by
    intro hash hash' hd
    obtain ⟨o, ho, hd⟩ := Option.bind_eq_some_iff.mp hd
    split_ifs at hd with hzero
    cases hd
    obtain ⟨e, p, hin, rfl⟩ := hm.only hash (by rw [ho]; rfl)
    obtain ⟨o', ho', hprev, -, hentry⟩ := hm.found e p hin
    obtain rfl : o = o' := Option.some.inj (ho.symm.trans ho')
    have hne : p ≠ [] := by
      rintro rfl
      exact hzero hprev
    have hp := ht.closed e p hin hne
    obtain ⟨e', p', rfl⟩ := List.exists_cons_of_ne_nil hne
    obtain ⟨o₁, ho₁, -, -, hentry₁⟩ := hm.found e' p' hp
    have hheight : ∀ (e : CBlockIndex) (o : IndexObject), o.entry e.hashBlock e.bnChainTrust = e → o.nHeight = e.nHeight :=
      fun e o h => congrArg CBlockIndex.nHeight h
    have hok := (ht.treeOk _ hin).heightsOk
    rw [hprev]
    refine ⟨?_, hperm.mem_iff.mpr (hm.mem_keys hp)⟩
    unfold height
    rw [BlockPtr.hash_cons, ho₁, ho, Option.map_some, Option.map_some, Option.getD_some, Option.getD_some,
      hheight e' o₁ hentry₁, hheight e o hentry, hok.1, hok.2.1, List.length_cons]
    omega
  -- so the parent of a block comes first
  have hsorted : m.sortedByHeight.Pairwise (fun hash hash' => m.height hash ≤ m.height hash') := by
    have htotal : Std.Total (fun hash hash' : Uint256 => m.height hash ≤ m.height hash') := ⟨fun a b => le_total _ _⟩
    have htrans : IsTrans Uint256 (fun hash hash' => m.height hash ≤ m.height hash') := ⟨fun a b c => le_trans⟩
    exact List.pairwise_insertionSort _ _
  have hfirst : DepsFirst dep [] m.sortedByHeight :=
    depsFirst_of_pairwise hsorted (fun hash _ hash' hd => ⟨(hparent hash hash' hd).1, .inr (hparent hash hash' hd).2⟩)
  -- one round finds the sums of the parent and adds those of the block
  have hstep : ∀ hash ∈ m.sortedByHeight, ∀ sums : Map Uint256 ChainSums,
      (∀ hash', dep hash = some hash' → sums.lookup hash' = some (val hash')) →
      m.addChainTrust P K stake.fields sums hash = .ok (sums.insert hash (val hash)) := by
    intro hash hmem sums hdone
    obtain ⟨e, p, hin, rfl⟩ := hm.of_mem_keys (hperm.mem_iff.mp hmem)
    obtain ⟨o, ho, hprev, -, hentry⟩ := hm.found e p hin
    have hkind : o.fProofOfStake = e.fProofOfStake := congrArg CBlockIndex.fProofOfStake hentry
    have hbits : o.nBits = e.nBits := congrArg CBlockIndex.nBits hentry
    have hheight : o.nHeight = e.nHeight := congrArg CBlockIndex.nHeight hentry
    have hown := hvalue (e :: p) hin
    change val e.hashBlock = ⟨e.bnChainTrust, _⟩ at hown
    -- what the round finds of the parent
    have hthere : (if o.pprev = 0 then none else some ((sums.lookup o.pprev).getD {})) =
        if p = [] then none else some (⟨BlockPtr.bnChainTrust p, stakeChecksum K stake.fields p⟩ : ChainSums) := by
      by_cases hnil : p = []
      · rw [if_pos hnil, hprev, hnil]
        rfl
      · have hp := ht.closed e p hin hnil
        have hne : BlockPtr.hash p ≠ 0 := by
          obtain ⟨e', p', rfl⟩ := List.exists_cons_of_ne_nil hnil
          exact hread.hash_ne e' p' hp
        have hlook := hdone (BlockPtr.hash p) (by
          rw [hdep]
          dsimp only
          rw [ho, Option.bind_some, hprev, if_neg hne])
        rw [if_neg hnil, hprev, if_neg hne, hlook, Option.getD_some, hvalue p hp]
    -- the genesis block has no parent, and its checksum is without one
    have hchecksum : getStakeModifierChecksum P K e.hashBlock e.fProofOfStake
        (if p = [] then none else some (stakeChecksum K stake.fields p)) (stake.fields e.hashBlock) =
          .ok (stakeChecksum K stake.fields (e :: p)) := by
      unfold getStakeModifierChecksum
      rw [if_neg]
      · rfl
      · rintro ⟨hnone, hne⟩
        split_ifs at hnone with hnil
        · subst hnil
          exact hne (ht.treeOk _ hin).hashBlock_of_singleton
        · cases hnone
    have htrust : (((if p = [] then none
        else some (⟨BlockPtr.bnChainTrust p, stakeChecksum K stake.fields p⟩ : ChainSums)).map
        ChainSums.bnChainTrust).getD 0) + getBlockTrust e.nBits e.fProofOfStake = e.bnChainTrust := by
      rw [(ht.treeOk _ hin).bnChainTrust_eq]
      split_ifs with hnil
      · rw [hnil]
        rfl
      · rfl
    have hmap : (if p = [] then none else some (⟨BlockPtr.bnChainTrust p, stakeChecksum K stake.fields p⟩ : ChainSums)).map
        ChainSums.nStakeModifierChecksum = if p = [] then none else some (stakeChecksum K stake.fields p) := by
      split_ifs
      · rfl
      · rfl
    -- all that the round reads is now known
    unfold addChainTrust
    rw [ho]
    dsimp only
    rw [hthere, hkind, hbits, hheight, hmap, hchecksum, Result.ok_bind,
      checkStakeModifierCheckpoints_of_inTree ht stake hin, htrust, hown]
    rfl
  obtain ⟨sums, hfold, hall⟩ := hfirst.foldlM_eq_ok hstep (m := ∅) (by simp)
  refine ⟨sums, hfold, fun e p hin => ?_⟩
  rw [hall e.hashBlock (.inr (hperm.mem_iff.mpr (hm.mem_keys hin)))]
  exact congrArg (fun v => some v.bnChainTrust) (hvalue (e :: p) hin)

/-- **Following `pprev`** from the object of a block gives the block, in enough rounds. -/
theorem blockPtr_eq (ht : g.TreeInv P) (hread : g.Readable) (hm : m.Shows g)
    (htrust : ∀ e p, g.InTree (e :: p) → (sums.lookup e.hashBlock).map ChainSums.bnChainTrust = some e.bnChainTrust)
    (hin : g.InTree p) {nRounds : ℕ} (hlen : p.length ≤ nRounds) : m.blockPtr sums nRounds p.hash = p := by
  induction p generalizing nRounds with
  | nil => exact absurd rfl (ht.ne_nil hin)
  | cons e p ih =>
    obtain ⟨nRounds, rfl⟩ := Nat.exists_eq_add_of_le' (le_trans (by simp) hlen : 1 ≤ nRounds)
    obtain ⟨o, ho, hprev, -, hentry⟩ := hm.found e p hin
    have hrest : m.blockPtr sums nRounds (BlockPtr.hash p) = p := by
      by_cases hnil : p = []
      · -- genesis: `NULL` is no object
        subst hnil
        cases nRounds with
        | zero => rfl
        | succ nRounds =>
          change m.blockPtr sums (nRounds + 1) 0 = []
          rw [blockPtr, hm.lookup_zero hread]
      · exact ih (ht.closed e p hin hnil) (by rw [List.length_cons] at hlen; omega)
    rw [BlockPtr.hash_cons, blockPtr, ho]
    dsimp only
    rw [htrust e p hin, Option.getD_some, hentry, hprev, hrest]

/-- A chain has no more blocks than there are objects. -/
theorem Shows.length_le (ht : g.TreeInv P) (hm : m.Shows g) (hin : g.InTree p) : p.length ≤ m.keys.length := by
  -- the hashes along a chain are different, and each has an object
  have hnodup : ∀ p : BlockPtr, g.InTree p → (p.map CBlockIndex.hashBlock).Nodup ∧
      ∀ hash ∈ p.map CBlockIndex.hashBlock, ∃ q, q <:+ p ∧ q ≠ [] ∧ BlockPtr.hash q = hash := by
    intro p
    induction p with
    | nil => exact fun _ => ⟨List.nodup_nil, by simp⟩
    | cons e p ih =>
      intro hin
      have hrest : (p.map CBlockIndex.hashBlock).Nodup ∧
          ∀ hash ∈ p.map CBlockIndex.hashBlock, ∃ q, q <:+ p ∧ q ≠ [] ∧ BlockPtr.hash q = hash := by
        by_cases hnil : p = []
        · subst hnil
          exact ⟨List.nodup_nil, by simp⟩
        · exact ih (ht.closed e p hin hnil)
      rw [List.map_cons]
      refine ⟨List.nodup_cons.mpr ⟨fun hmem => ?_, hrest.1⟩, fun hash hmem => ?_⟩
      · obtain ⟨q, hs, hne, hhash⟩ := hrest.2 _ hmem
        have hq := ht.suffix hin (hs.trans (List.suffix_cons e p)) hne
        have hlen := hs.length_le
        rw [hq.unique hin hhash, List.length_cons] at hlen
        omega
      · rcases List.mem_cons.mp hmem with rfl | hmem
        · exact ⟨e :: p, List.suffix_rfl, by simp, rfl⟩
        · obtain ⟨q, hs, hne, hhash⟩ := hrest.2 hash hmem
          exact ⟨q, hs.trans (List.suffix_cons e p), hne, hhash⟩
  obtain ⟨hdistinct, hsuffix⟩ := hnodup p hin
  have hsub : p.map CBlockIndex.hashBlock ⊆ m.keys := by
    intro hash hmem
    obtain ⟨q, hs, hne, rfl⟩ := hsuffix hash hmem
    obtain ⟨e, q, rfl⟩ := List.exists_cons_of_ne_nil hne
    exact hm.mem_keys (ht.suffix hin hs (by simp))
  have hle := (List.subperm_of_subset hdistinct hsub).length_le
  rwa [List.length_map] at hle

/-- The pointers read back are the branches of the tree. -/
theorem pointer_eq (ht : g.TreeInv P) (hread : g.Readable) (hm : m.Shows g)
    (htrust : ∀ e p, g.InTree (e :: p) → (sums.lookup e.hashBlock).map ChainSums.bnChainTrust = some e.bnChainTrust)
    (hin : g.InTree p) :
    m.pointer sums p.hash = p :=
  blockPtr_eq ht hread hm htrust hin (hm.length_le ht hin)

end IndexObjects

/-- The links of a node lead from blocks of the tree to blocks of the tree. -/
structure Globals.LinksInTree (g : Globals) : Prop where
  source : ∀ hash, g.pnext hash ≠ [] → ∃ p, g.InTree p ∧ p.hash = hash
  target : ∀ hash, g.pnext hash ≠ [] → g.InTree (g.pnext hash)

/-- **The tree in memory** after the objects have been put together: every block, the links and genesis. -/
theorem Node.withIndex_eq (ht : g.TreeInv P) (hread : g.Readable) (hlinks : g.LinksInTree) (hm : m.Shows g)
    (htrust : ∀ e p, g.InTree (e :: p) → (sums.lookup e.hashBlock).map ChainSums.bnChainTrust = some e.bnChainTrust)
    (hne : ∃ p, g.InTree p) :
    (∀ hash, (n.withIndex P m sums).mapBlockIndex.lookup hash = g.mapBlockIndex.lookup hash) ∧
      (n.withIndex P m sums).pnext = g.pnext ∧
      (n.withIndex P m sums).pindexGenesisBlock = [P.genesisIndex] := by
  -- a pointer is made from the hash of the block that it points to
  have hpointer : ∀ p : BlockPtr, g.InTree p → m.pointer sums p.hash = p :=
    fun p hp => IndexObjects.pointer_eq ht hread hm htrust hp
  refine ⟨fun hash => ?_, ?_, ?_⟩
  · change (m.keys.foldl (fun (m' : Map Uint256 BlockPtr) hash => m'.insert hash (m.pointer sums hash)) ∅).lookup
      hash = _
    rw [Map.lookup_foldl_insert_fun, Map.lookup_empty]
    split_ifs with hmem
    · -- a block with an object has its branch as pointer
      obtain ⟨e, p, hin, rfl⟩ := hm.of_mem_keys hmem
      exact (congrArg some (hpointer (e :: p) hin)).trans hin.symm
    · -- a block of the tree has an object
      cases hlook : g.mapBlockIndex.lookup hash with
      | none => rfl
      | some p =>
        have hhash := ht.keyed hash p hlook
        have hin : g.InTree p := by
          unfold Globals.InTree
          rw [hhash]
          exact hlook
        obtain ⟨e, p, rfl⟩ := List.exists_cons_of_ne_nil (ht.ne_nil hin)
        exact absurd (hhash ▸ hm.mem_keys hin) hmem
  · -- `pnext` is the hash of the child in the record
    funext hash
    change m.next sums hash = _
    unfold IndexObjects.next
    cases hlook : m.lookup hash with
    -- a block without an object has no child
    | none =>
      dsimp only
      by_contra hnext
      obtain ⟨p, hin, rfl⟩ := hlinks.source hash (Ne.symm hnext)
      obtain ⟨e, p, rfl⟩ := List.exists_cons_of_ne_nil (ht.ne_nil hin)
      obtain ⟨o, ho, -⟩ := hm.found e p hin
      exact absurd (hlook.symm.trans ho) (by simp)
    | some o =>
      dsimp only
      obtain ⟨e, p, hin, rfl⟩ := hm.only hash (by rw [hlook]; rfl)
      obtain ⟨o', ho', -, hnext, -⟩ := hm.found e p hin
      obtain rfl : o = o' := Option.some.inj (hlook.symm.trans ho')
      rw [hnext]
      by_cases hnil : g.pnext e.hashBlock = []
      · rw [hnil]
        -- no object stands under `0`
        have hzero := hm.lookup_zero hread
        change m.blockPtr sums m.keys.length 0 = []
        cases m.keys.length with
        | zero => rfl
        | succ nRounds =>
          rw [IndexObjects.blockPtr, hzero]
      · exact hpointer _ (hlinks.target _ hnil)
  · -- the genesis block is the last of any branch
    obtain ⟨p, hp⟩ := hne
    have hgenesis := ht.suffix hp (ht.treeOk p hp).rooted (by simp)
    exact hpointer [P.genesisIndex] hgenesis

end Pointers

/-! ### What the checks find -/

/-- `0` stands for `NULL` and is not the hash of a block; genesis meets its target, as `LoadBlockIndex` asserts when it
writes it. -/
structure Params.Loadable (P : Params) : Prop where
  hash_ne : ∀ block : CBlock, block.getHash P ≠ 0
  genesis : (checkProofOfWork P.hashGenesisBlock P.genesisBlock.nBits).isOk = true

/-- No block has a negative trust. -/
theorem getBlockTrust_nonneg (nBits : ℕ) (fProofOfStake : Bool) : 0 ≤ getBlockTrust nBits fProofOfStake := by
  unfold getBlockTrust
  dsimp only
  split_ifs with hle
  · exact le_refl _
  · exact Int.tdiv_nonneg (by norm_num) (by omega)
  · exact zero_le_one

/-- A later block of a chain has no less trust. -/
theorem TreeOk.bnChainTrust_le {P : Params} {files : BlockFiles} {p q : BlockPtr} (h : TreeOk P files p) (hs : q <:+ p)
    (hne : q ≠ []) : q.bnChainTrust ≤ p.bnChainTrust := by
  induction h with
  | genesis hread =>
    rcases List.suffix_cons_iff.mp hs with rfl | hs
    · exact le_refl _
    · exact absurd (List.suffix_nil.mp hs) hne
  | @accepted pprev nFile nBlockPos block hprev hread hchecked hkind htime ih =>
    rcases List.suffix_cons_iff.mp hs with rfl | hs
    · exact le_refl _
    · have hnonneg := getBlockTrust_nonneg block.nBits block.isProofOfStake
      calc q.bnChainTrust ≤ pprev.bnChainTrust := ih hs
        _ ≤ pprev.bnChainTrust + getBlockTrust block.nBits block.isProofOfStake := by omega

namespace CBlock

variable {P : Params} {nAdjustedTime nAdjustedTime' : Int} {block : CBlock} {u : Unit}

/-- `CheckBlock` asks for the time once. -/
theorem checkBlock_of_time (h : block.checkBlock P nAdjustedTime = .ok u)
    (htime : block.getBlockTime ≤ nAdjustedTime' + nMaxClockDrift) : block.checkBlock P nAdjustedTime' = .ok () := by
  unfold checkBlock at h ⊢
  cases hvtx : block.vtx with
  | nil =>
    rw [hvtx] at h
    exact absurd h (by simp)
  | cons txCoinBase vtx =>
    simp only [hvtx, Result.bind_eq_ok, require_eq_ok] at h ⊢
    obtain ⟨u₁, hsize, u₂, hwork, u₃, -, hrest⟩ := h
    exact ⟨u₁, hsize, u₂, hwork, u₃, decide_eq_true htime, hrest⟩

/-- A block that has passed `CheckBlock` is a stake or has its work. -/
theorem work_of_checkBlock (h : block.checkBlock P nAdjustedTime = .ok u) :
    (block.isProofOfStake || (checkProofOfWork (block.getHash P) block.nBits).isOk) = true := by
  unfold checkBlock at h
  cases hvtx : block.vtx with
  | nil =>
    rw [hvtx] at h
    exact absurd h (by simp)
  | cons txCoinBase vtx =>
    simp only [hvtx, Result.bind_eq_ok, require_eq_ok] at h
    obtain ⟨-, -, -, hwork, -⟩ := h
    exact hwork

end CBlock

section Checks

variable {P : Params} {H : Host} {g : Globals} {p : BlockPtr} {e : CBlockIndex}

/-- What is known of a block above genesis: it is stored, under its hash, and has passed `CheckBlock`. -/
theorem Globals.TreeInv.exists_block (ht : g.TreeInv P) (hin : g.InTree (e :: p)) (hne : p ≠ []) :
    ∃ block : CBlock, g.files.readBlock e.nFile e.nBlockPos = some block ∧ e = block.newIndex P p e.nFile e.nBlockPos ∧
      ∃ nAdjustedTime, block.checkBlock P nAdjustedTime = .ok () := by
  obtain ⟨block, hread, -, hindex, -⟩ := (ht.treeOk _ hin).cons_inv hne
  obtain ⟨-, hcheck⟩ := ht.stored e p block hin hne hread
  exact ⟨block, hread, hindex, hcheck⟩

/-- The tree of a node can be read back. -/
theorem Globals.TreeInv.readable (ht : g.TreeInv P) (hP : P.Loadable) : g.Readable := by
  refine ⟨fun e p hin => ?_, fun e p hin hstake => ?_⟩
  · have htree := ht.treeOk _ hin
    cases htree with
    | genesis _ => exact hP.hash_ne P.genesisBlock
    | accepted _ _ _ _ _ => exact hP.hash_ne _
  · by_cases hnil : p = []
    · subst hnil
      have htree := ht.treeOk _ hin
      cases htree with
      | genesis _ => exact hP.genesis
      | accepted hprev _ _ _ _ => exact absurd rfl hprev.ne_nil
    · obtain ⟨block, -, hindex, nAdjustedTime, hcheck⟩ := ht.exists_block hin hnil
      have hwork := CBlock.work_of_checkBlock hcheck
      have hkind : block.isProofOfStake = false := by
        rw [hindex] at hstake
        exact hstake
      rw [hkind, Bool.false_or] at hwork
      rw [hindex]
      exact hwork

/-- A block above genesis is read unless the disk fails. -/
theorem readFromDisk_of_inTree (ht : g.TreeInv P) (hin : g.InTree (e :: p)) (hne : p ≠ []) :
    H.io (.readFromDisk e.hashBlock) = false ∨ ∃ block nAdjustedTime, readFromDisk P H g.files e = .ok block ∧
      block.checkBlock P nAdjustedTime = .ok () ∧ block.getBlockTime = e.nTime := by
  obtain ⟨block, hread, hindex, nAdjustedTime, hcheck⟩ := ht.exists_block hin hne
  cases hio : H.io (.readFromDisk e.hashBlock) with
  | false => exact .inl rfl
  | true =>
    refine .inr ⟨block, nAdjustedTime, ?_, hcheck, ?_⟩
    · unfold readFromDisk
      rw [hread]
      simp only [Result.bind_eq_ok, require_eq_ok]
      exact ⟨(), hio, (), CBlock.work_of_checkBlock hcheck, (), decide_eq_true (ht.getHash_eq hin hread), rfl⟩
    · rw [hindex]
      rfl

/-- **The walk down the best chain** stops at a block that is not read. Otherwise it ends with the parent of a block whose
`CheckBlock` fails now, or with what it started from when none does; only the clock can make it fail. -/
theorem verifyBlocks_spec (ht : g.TreeInv P) (hin : g.InTree p) (nCheckLevel nLowest : Int) (pindexFork : BlockPtr) :
    ((∃ err, verifyBlocks P H g.files nCheckLevel nLowest p pindexFork = .error err) ∧
        ∃ hash, H.io (.readFromDisk hash) = false) ∨
      ∃ pindexFork', verifyBlocks P H g.files nCheckLevel nLowest p pindexFork = .ok pindexFork' ∧
        (pindexFork' = pindexFork ∨ (pindexFork' ≠ [] ∧ pindexFork' <:+ p ∧
          ∃ e ∈ p, H.nAdjustedTime + nMaxClockDrift < (e.nTime : Int))) := by
  induction p generalizing pindexFork with
  | nil => exact absurd rfl (ht.ne_nil hin)
  | cons e p ih =>
    rw [verifyBlocks]
    -- the walk stops at the genesis block or at its depth
    by_cases hstop : p = [] ∨ (e.nHeight : Int) < nLowest
    · rw [if_pos hstop]
      exact .inr ⟨pindexFork, rfl, .inl rfl⟩
    rw [if_neg hstop]
    rw [not_or] at hstop
    have hp := ht.closed e p hin hstop.1
    -- what the rest of the walk finds holds of the whole walk
    have hrest : ∀ pindexFork', (pindexFork' ≠ [] ∧ pindexFork' <:+ p ∧
        ∃ e ∈ p, H.nAdjustedTime + nMaxClockDrift < (e.nTime : Int)) → (pindexFork' ≠ [] ∧ pindexFork' <:+ e :: p ∧
        ∃ e' ∈ e :: p, H.nAdjustedTime + nMaxClockDrift < (e'.nTime : Int)) := by
      rintro pindexFork' ⟨hne, hs, e', hmem, hlt⟩
      exact ⟨hne, hs.trans (List.suffix_cons e p), e', List.mem_cons_of_mem e hmem, hlt⟩
    -- the block of the record is in the files unless the disk fails
    obtain hio | ⟨block, nAdjustedTime, hread, hcheck, htime⟩ := readFromDisk_of_inTree (H := H) ht hin hstop.1
    · have hfailed : readFromDisk P H g.files e = .error (.error 0 "CBlock::ReadFromDisk() : OpenBlockFile failed") := by
        unfold readFromDisk
        rw [hio]
        rfl
      rw [hfailed]
      exact .inl ⟨⟨_, rfl⟩, _, hio⟩
    rw [hread]
    dsimp only
    have hsame : ((∃ err, verifyBlocks P H g.files nCheckLevel nLowest p pindexFork = .error err) ∧
          ∃ hash, H.io (.readFromDisk hash) = false) ∨
        ∃ pindexFork', verifyBlocks P H g.files nCheckLevel nLowest p pindexFork = .ok pindexFork' ∧
          (pindexFork' = pindexFork ∨ (pindexFork' ≠ [] ∧ pindexFork' <:+ e :: p ∧
            ∃ e' ∈ e :: p, H.nAdjustedTime + nMaxClockDrift < (e'.nTime : Int))) := by
      obtain hio | ⟨pindexFork', hwalk, hfound⟩ := ih hp pindexFork
      · exact .inl hio
      · exact .inr ⟨pindexFork', hwalk, hfound.imp id (hrest pindexFork')⟩
    -- level 0 checks nothing
    by_cases hlevel : nCheckLevel ≤ 0
    · rw [if_pos hlevel]
      exact hsame
    rw [if_neg hlevel]
    -- a block accepted once can fail now through its time only
    cases hnow : block.checkBlock P H.nAdjustedTime with
    | ok u => exact hsame
    | error err =>
      have hreturn := CBlock.checkBlock_noThrow hcheck H.nAdjustedTime err hnow
      have hlate : H.nAdjustedTime + nMaxClockDrift < (e.nTime : Int) := by
        by_contra hle
        rw [← htime, not_lt] at hle
        rw [CBlock.checkBlock_of_time hcheck hle] at hnow
        exact absurd hnow (by simp)
      dsimp only
      rw [if_pos hreturn]
      -- the fork is then the parent, or a block further down
      obtain hio | ⟨pindexFork', hwalk, heq | hfound⟩ := ih hp p
      · exact .inl hio
      · refine .inr ⟨pindexFork', hwalk, .inr ⟨?_, ?_, e, List.mem_cons_self, hlate⟩⟩
        · rw [heq]
          exact hstop.1
        · rw [heq]
          exact List.suffix_cons e p
      · exact .inr ⟨pindexFork', hwalk, .inr (hrest pindexFork' hfound)⟩

end Checks

/-! ### Nodes that stop and start -/

/-- What a node leaves behind when it stops: the committed hash, index and records and the block files are those of its
tree, with `q` as the best block. -/
structure Node.Durable (P : Params) (q : BlockPtr) (n : Node) : Prop where
  tree : n.toGlobals.TreeInv P
  best : n.InTree q
  hashBestChain : n.txdb.committed.hashBestChain = some q.hash
  linked : Linked n.pnext q
  below : LinkedBelow n.pnext q
  index : IndexShows P n.toGlobals q n.txdb.committed.txIndex
  records : n.toGlobals.RecordedAs n.pnext n.txdb.committed

/-- A node between two calls: memory, the committed index and the committed records agree on the best chain. -/
structure Node.Consistent (P : Params) (n : Node) : Prop where
  agrees : Agrees P n
  below : LinkedBelow n.pnext n.pindexBest
  records : n.toGlobals.RecordedAs n.pnext n.txdb.committed

/-- A new process has what `n` had, with `q` as the best block. -/
structure Node.Restores (q : BlockPtr) (n n' : Node) : Prop where
  lookup : ∀ hash, n'.mapBlockIndex.lookup hash = n.mapBlockIndex.lookup hash
  files : n'.files = n.files
  pnext : n'.pnext = n.pnext
  genesis : n'.pindexGenesisBlock ≠ []
  pindexBest : n'.pindexBest = q
  hashBestChain : n'.hashBestChain = q.hash
  txdb : n'.txdb = ⟨n.txdb.committed, []⟩

section Restart

variable {P : Params} {H : Host} {g g' : Globals} {n n' : Node} {q : BlockPtr}

/-- The invariant of the tree is about look-ups. -/
theorem Globals.TreeInv.of_lookup (h : g.TreeInv P)
    (hmap : ∀ hash, g'.mapBlockIndex.lookup hash = g.mapBlockIndex.lookup hash) (hfiles : g'.files = g.files) :
    g'.TreeInv P := by
  have hin : ∀ p : BlockPtr, g'.InTree p → g.InTree p := fun p hp => (hmap _).symm.trans hp
  refine ⟨?_, fun hash p hp => h.keyed hash p ((hmap hash).symm.trans hp), fun p hp => ?_, fun e p hp hne => ?_,
    fun e p block hp hne hread => ?_⟩
  · rw [hfiles]
    exact h.files
  · rw [hfiles]
    exact h.treeOk p (hin p hp)
  · exact (hmap _).trans (h.closed e p (hin _ hp) hne)
  · rw [hfiles] at hread
    exact h.stored e p block (hin _ hp) hne hread

/-- A consistent node can be read back. -/
theorem Node.Consistent.durable (h : n.Consistent P) : n.Durable P n.pindexBest where
  tree := h.agrees.tree
  best := h.agrees.best
  hashBestChain := by rw [h.agrees.agreement.hashBestChain, h.agrees.agreement.pindexBest]
  linked := h.agrees.agreement.linked
  below := h.below
  index := h.agrees.agreement.connected
  records := h.records

/-- **A new process with what the old one left** is a node between two calls. -/
theorem Node.Restores.consistent (h : n.Durable P q) (hr : Node.Restores q n n') : n'.Consistent P := by
  obtain ⟨hlook, hfiles, hnext, hgenesis, hbest, hhash, htxdb⟩ := hr
  refine ⟨⟨⟨?_, ?_, ?_, ?_⟩, h.tree.of_lookup hlook hfiles, ?_, hgenesis, ?_⟩, ?_, ?_⟩
  · rw [htxdb, hhash]
    exact h.hashBestChain
  · rw [hbest, hhash]
  · rw [hnext, hbest]
    exact h.linked
  · obtain ⟨c, hreach, hcfiles, htree, htip, hindex⟩ := h.index
    rw [hbest, htxdb]
    refine ⟨c, hreach, hcfiles.trans hfiles.symm, fun p => ?_, htip, hindex⟩
    unfold Globals.InTree
    rw [hlook]
    exact htree p
  · rw [hbest]
    exact (hlook _).trans h.best
  · rw [htxdb]
  · rw [hnext, hbest]
    exact h.below
  · rw [hnext, htxdb]
    exact h.records.tree hlook

/-- The links of a chain lead from its blocks to its blocks. -/
theorem Node.Durable.linksInTree (h : n.Durable P q) : n.LinksInTree := by
  have hlink : ∀ hash, n.pnext hash ≠ [] → ∃ (e : CBlockIndex) (p : BlockPtr), e :: p <:+ q ∧ p ≠ [] ∧ p.hash = hash ∧
      n.pnext hash = e :: p := by
    intro hash hne
    obtain ⟨e, p, hs, hpne, rfl⟩ := h.below hash hne
    exact ⟨e, p, hs, hpne, rfl, h.linked e p hs hpne⟩
  refine ⟨fun hash hne => ?_, fun hash hne => ?_⟩
  · obtain ⟨e, p, hs, hpne, hhash, -⟩ := hlink hash hne
    exact ⟨p, h.tree.suffix h.best ((List.suffix_cons e p).trans hs) hpne, hhash⟩
  · obtain ⟨e, p, hs, -, -, heq⟩ := hlink hash hne
    rw [heq]
    exact h.tree.suffix h.best hs (by simp)

/-- **Every call of `SetBestChain`** leaves a durable state behind, whichever way it ends and wherever it stops. -/
theorem Node.Consistent.durable_call (h : n.Consistent P) {block : CBlock} {pindex : CBlockIndex} {pprev : BlockPtr}
    (hin : n.InTree (pindex :: pprev)) (hread : n.files.readBlock pindex.nFile pindex.nBlockPos = some block) :
    Triple (setBestChain P H block (pindex :: pprev)) n (fun _ n' => ∃ q, n'.closeTxDb.Durable P q)
      (fun e n' => e ≠ .assertion → ∃ q, n'.closeTxDb.Durable P q) := by
  have hrec : n.Recorded n.toGlobals := ⟨rfl, rfl, h.records⟩
  -- a settled state with its records is durable
  have hdurable : ∀ n' : Node, Settled P n.toGlobals n' → n'.Recorded n.toGlobals → ∃ q, n'.Durable P q := by
    rintro n' ⟨q, hq, hn', hb'⟩ ⟨hmap, hfiles, hrec'⟩
    refine ⟨q, h.agrees.tree.congr hmap hfiles, ?_, hn'.hashBestChain, hn'.linked, hb',
      hn'.index.congr hmap hfiles, hrec'.tree fun _ => by rw [hmap]⟩
    unfold Globals.InTree
    rw [hmap]
    exact hq
  refine ((settled_setBestChain h.agrees h.below hin hread).and (setBestChain_records h.agrees.tree hrec h.agrees.vTxn
    h.agrees.genesis h.agrees.best hin)).mono ?_ ?_
  · rintro fComplete n' ⟨hsettled, hrec'⟩
    -- no transaction is open when the call returns
    have hclosed : n'.closeTxDb = n' := by
      obtain ⟨q, -, hn', -⟩ := hsettled
      exact closeTxDb_of_vTxn hn'.vTxn
    rw [hclosed]
    exact hdurable n' hsettled hrec'
  · rintro e n' ⟨hsettled, hrec'⟩ hne
    exact hdurable n'.closeTxDb (hsettled hne) ((hrec' hne).congr rfl rfl rfl rfl)

/-- A call that connects all its postponed blocks leaves the node consistent. -/
theorem Node.Consistent.call (h : n.Consistent P) {block : CBlock} {pindex : CBlockIndex} {pprev : BlockPtr}
    (hin : n.InTree (pindex :: pprev)) (hread : n.files.readBlock pindex.nFile pindex.nBlockPos = some block)
    (hconnect : PostponedConnect P H (pindex :: pprev) n) :
    Triple (setBestChain P H block (pindex :: pprev)) n (fun _ n' => n'.closeTxDb.Consistent P)
      (fun e n' => e ≠ .assertion → n'.closeTxDb.Consistent P) := by
  have hrec : n.Recorded n.toGlobals := ⟨rfl, rfl, h.records⟩
  refine ((h.agrees.setBestChain hin hread hconnect).and ((linkedBelow_setBestChain h.agrees h.below hin hread
    hconnect).and (setBestChain_records h.agrees.tree hrec h.agrees.vTxn h.agrees.genesis h.agrees.best hin))).mono ?_ ?_
  · rintro fComplete n' ⟨hagrees, hbelow, hmap, hfiles, hrec'⟩
    rw [closeTxDb_of_vTxn hagrees.vTxn]
    exact ⟨hagrees, hbelow, hrec'.tree fun _ => by rw [hmap]⟩
  · rintro e n' ⟨hagrees, hbelow, hrec'⟩ hne
    obtain ⟨hmap, hfiles, hrec'⟩ := hrec' hne
    exact ⟨hagrees hne, hbelow hne, hrec'.tree fun _ => by rw [← hmap]; rfl⟩

end Restart

/-! ### `LoadBlockIndex` -/

/-- A node between two calls on the tree and the files of `n`. -/
structure Node.OnTreeOf (P : Params) (n n' : Node) : Prop where
  consistent : n'.Consistent P
  lookup : ∀ hash, n'.mapBlockIndex.lookup hash = n.mapBlockIndex.lookup hash
  files : n'.files = n.files

section Load

variable {P : Params} {H : Host} {n n' : Node} {q : BlockPtr}

/-- A command whose result is not looked at. -/
theorem ignoreReturn_spec {α : Type} {x : Command Node Failure α} {Q : Node → Prop} {E : Failure → Node → Prop}
    (h : Triple x n (fun _ n' => Q n') (fun e n' => if e.isReturn then Q n' else E e n')) :
    Triple (ignoreReturn x) n (fun _ n' => Q n') E := by
  unfold Triple ignoreReturn
  unfold Triple at h
  cases hrun : x n with
  | mk r n' =>
    rw [hrun] at h
    cases r with
    | ok a => exact h
    | error e =>
      dsimp only at h ⊢
      split_ifs at h ⊢
      · exact h
      · exact h

/-- Every block of the tree is read unless the disk fails. -/
theorem Globals.TreeInv.exists_readFromDisk {g : Globals} (ht : g.TreeInv P) (hP : P.Loadable) {e : CBlockIndex}
    {p : BlockPtr} (hin : g.InTree (e :: p)) :
    H.io (.readFromDisk e.hashBlock) = false ∨ ∃ block, readFromDisk P H g.files e = .ok block := by
  by_cases hnil : p = []
  · subst hnil
    have htree := ht.treeOk _ hin
    cases htree with
    -- genesis has no parent, so no accepted block stands there
    | accepted hprev _ _ _ _ => exact absurd rfl hprev.ne_nil
    | genesis hread =>
      cases hio : H.io (.readFromDisk P.genesisIndex.hashBlock) with
      | false => exact .inl rfl
      | true =>
        -- genesis is in the files, and meets its target
        refine .inr ⟨P.genesisBlock, ?_⟩
        have hwork : (P.genesisBlock.isProofOfStake ||
            (checkProofOfWork (P.genesisBlock.getHash P) P.genesisBlock.nBits).isOk) = true := by
          rw [Bool.or_eq_true]
          exact .inr hP.genesis
        have hstored : g.files.readBlock P.genesisIndex.nFile P.genesisIndex.nBlockPos = some P.genesisBlock := hread
        unfold readFromDisk
        rw [hstored]
        simp only [Result.bind_eq_ok, require_eq_ok]
        exact ⟨(), hio, (), hwork, (), decide_eq_true rfl, rfl⟩
  · obtain hio | ⟨block, -, hread, -⟩ := readFromDisk_of_inTree (H := H) ht hin hnil
    · exact .inl hio
    · exact .inr ⟨block, hread⟩

/-- An ancestor of the best block has no more trust, so none of its blocks is put off. -/
theorem Node.Consistent.postponedConnect (h : n.Consistent P) {pindexFork : BlockPtr} (hs : pindexFork <:+ n.pindexBest) :
    PostponedConnect P H pindexFork n := by
  refine postponedConnect_of_nil ?_
  cases pindexFork with
  | nil => rfl
  | cons e p =>
    rw [BlockPtr.postpone, if_neg]
    rintro ⟨hne, hlt⟩
    have hle := (h.agrees.tree.treeOk _ h.agrees.best).bnChainTrust_le ((List.suffix_cons e p).trans hs) hne
    exact absurd hlt (not_lt.mpr hle)

/-- **"Reorg back to the fork"**: the node is moved to an ancestor of its best block, or stays where it is. -/
theorem moveBack_spec (hP : P.Loadable) (h : n.OnTreeOf P n') {pindexFork : BlockPtr} (hs : pindexFork <:+ n'.pindexBest)
    (hne : pindexFork ≠ []) :
    Triple (moveBack P H pindexFork) n' (fun _ n'' => n.OnTreeOf P n'')
      (fun e _ => (∃ hash, H.io (.readFromDisk hash) = false) ∨ e.isReturn = false) := by
  obtain ⟨hcons, hlook, hfiles⟩ := h
  obtain ⟨e, p, rfl⟩ := List.exists_cons_of_ne_nil hne
  have hin := hcons.agrees.tree.suffix hcons.agrees.best hs hne
  refine Triple.get_bind (readFromDisk_bind (fun block hread => ?_) (fun err herr => .inl ?_))
  · -- the tree and the files stay, and the call keeps the node consistent
    have hcall := (hcons.call (H := H) hin (readFromDisk_eq_ok hread).1 (hcons.postponedConnect hs)).and
      (keeps_frame_setBestChain (P := P) (H := H) block (e :: p) n' (Globals.Frame.refl _))
    have hon : ∀ n₁ : Node, n₁.closeTxDb.Consistent P → InFrame n'.toGlobals n₁ → n.OnTreeOf P n₁.closeTxDb := by
      intro n₁ hn₁ hframe
      refine ⟨hn₁, fun hash => ?_, hframe.files.trans hfiles⟩
      change n₁.mapBlockIndex.lookup hash = _
      rw [hframe.mapBlockIndex]
      exact hlook hash
    refine ignoreReturn_spec (withTxDb_spec (hcall.mono ?_ ?_))
    · rintro fComplete n₁ ⟨hn₁, hframe⟩
      exact hon n₁ hn₁ hframe
    · rintro err n₁ ⟨hn₁, hframe⟩
      split_ifs with hreturn
      · refine hon n₁ (hn₁ ?_) hframe
        rintro rfl
        exact absurd hreturn (by simp [Failure.isReturn])
      · exact .inr (by simpa using hreturn)
  · obtain hio | ⟨block, hread⟩ := hcons.agrees.tree.exists_readFromDisk (H := H) hP hin
    · exact ⟨_, hio⟩
    · rw [hread] at herr
      exact absurd herr (by simp)

/-- What follows when the index has been put together, on the best chain that was committed. -/
theorem loadBestChain_spec (hP : P.Loadable) (h : n.Durable P q) (args : CheckArgs)
    (hr : Node.Restores q n { n' with hashBestChain := q.hash, pindexBest := q }) :
    Triple (loadBestChain P H args q.hash q) n'
      (fun _ n'' => n.OnTreeOf P n'' ∧ ((∀ e ∈ q, (e.nTime : Int) ≤ H.nAdjustedTime + nMaxClockDrift) →
        Node.Restores q n n''))
      (fun e _ => (∃ hash, H.io (.readFromDisk hash) = false) ∨
        (e.isReturn = false ∧ ∃ e ∈ q, H.nAdjustedTime + nMaxClockDrift < (e.nTime : Int))) := by
  refine Triple.modify_bind (Triple.get_bind ?_)
  obtain ⟨hashSyncCheckpoint, hsync⟩ := Option.isSome_iff_exists.mp h.records.checkpoint
  -- the checkpoint is read back
  have hview : n'.txdb.view.hashSyncCheckpoint = some hashSyncCheckpoint := by
    have htxdb : n'.txdb = ⟨n.txdb.committed, []⟩ := hr.txdb
    rw [htxdb]
    exact hsync
  dsimp only
  rw [hview]
  refine Triple.modify_bind ?_
  set n₁ : Node := { n' with
    hashBestChain := q.hash
    pindexBest := q
    nBestHeight := q.nHeight
    bnBestChainTrust := q.bnChainTrust
    hashSyncCheckpoint := hashSyncCheckpoint } with hn₁
  have hrestores : Node.Restores q n n₁ := ⟨hr.lookup, hr.files, hr.pnext, hr.genesis, rfl, rfl, hr.txdb⟩
  have hon : n.OnTreeOf P n₁ := ⟨hrestores.consistent h, hr.lookup, hr.files⟩
  -- the walk over the last blocks
  have hwalk := verifyBlocks_spec (H := H) hon.consistent.agrees.tree hon.consistent.agrees.best args.nCheckLevel
    (q.nHeight - checkDepth q.nHeight args.nCheckBlocks) []
  refine Triple.lift_bind (fun pindexFork hfork => ?_) (fun e he => .inl ?_)
  · obtain ⟨⟨e, hfailed⟩, -⟩ | ⟨pindexFork', hverify, hfound⟩ := hwalk
    · exact absurd (hfork.symm.trans hfailed) (by simp)
    obtain rfl : pindexFork = pindexFork' := Except.ok.inj (hfork.symm.trans hverify)
    obtain rfl | ⟨hne, hs, e, hmem, hlate⟩ := hfound
    · -- nothing to move back to
      exact ⟨hon, fun _ => hrestores⟩
    · -- a block from the future moves the chain back
      refine (moveBack_spec hP hon hs hne).mono ?_ ?_
      · intro _ n₂ hn₂
        exact ⟨hn₂, fun hclock => absurd (hclock e hmem) (not_le.mpr hlate)⟩
      · rintro err n₂ (hio | hthrow)
        · exact .inl hio
        · exact .inr ⟨hthrow, e, hmem, hlate⟩
  · -- or the disk has failed
    obtain ⟨-, hio⟩ | ⟨pindexFork', hverify, -⟩ := hwalk
    · exact hio
    · exact absurd (hverify.symm.trans he) (by simp)

/-- **Starting again.** On what a node leaves behind `LoadBlockIndex` puts the tree together as it was in memory: every
block with its height and the trust of its chain, and every link. The best block is the one whose hash, index and records
were committed, unless the clock is behind a block of its chain; then it may be an ancestor. In both cases the new node
is a node between two calls. It is refused only when a block cannot be read. -/
theorem loadBlockIndex_restores (P : Params) (hP : P.Loadable) (H : Host) (args : CheckArgs)
    {K : KernelHash} (stake : StakeRecords P K) (n : Node) (q : BlockPtr) (h : n.Durable P q) :
    Triple (loadBlockIndex P K H args stake.fields) n.afterExit
      (fun _ n' => n.OnTreeOf P n' ∧ ((∀ e ∈ q, (e.nTime : Int) ≤ H.nAdjustedTime + nMaxClockDrift) →
        Node.Restores q n n'))
      (fun e _ => (∃ hash, H.io (.readFromDisk hash) = false) ∨
        (e.isReturn = false ∧ ∃ e ∈ q, H.nAdjustedTime + nMaxClockDrift < (e.nTime : Int))) := by
  -- the records make the objects, and the objects the tree
  have hread := h.tree.readable hP
  have hlinks := h.linksInTree
  obtain ⟨m, hload, hm⟩ := IndexObjects.exists_shows h.tree hread hlinks.target h.records
  obtain ⟨sums, htrust, hall⟩ := IndexObjects.exists_chainTrust h.tree hread hm stake
  obtain ⟨hlook, hnext, hgenesis⟩ := Node.withIndex_eq (n := n.afterExit) h.tree hread hlinks hm hall ⟨q, h.best⟩
  obtain ⟨e, p, rfl⟩ := List.exists_cons_of_ne_nil (h.tree.ne_nil h.best)
  obtain ⟨o, ho, -⟩ := hm.found e p h.best
  refine Triple.get_bind ?_
  change Triple (Command.lift (IndexObjects.loadRecords n.txdb.committed.blockIndex) >>= _) _ _ _
  rw [hload]
  refine Triple.lift_bind (fun m' hm' => ?_) (fun _ he => absurd he (by simp))
  cases hm'
  rw [htrust]
  refine Triple.lift_bind (fun t ht => ?_) (fun _ he => absurd he (by simp))
  cases ht
  refine Triple.modify_bind ?_
  have hhash : n.afterExit.txdb.view.hashBestChain = some e.hashBlock := h.hashBestChain
  rw [hhash]
  dsimp only
  rw [ho, if_neg (by simp)]
  -- the best hash leads to the best block
  have hpointer : m.pointer sums e.hashBlock = e :: p := IndexObjects.pointer_eq h.tree hread hm hall h.best
  rw [hpointer]
  refine loadBestChain_spec hP h args ⟨hlook, rfl, hnext, ?_, rfl, rfl, rfl⟩
  change (n.afterExit.withIndex P m sums).pindexGenesisBlock ≠ []
  rw [hgenesis]
  exact List.cons_ne_nil _ _

end Load

end Peershares
