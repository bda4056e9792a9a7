import Peershares.BestChain.Reload
import Peershares.Ledger.BlockFile

/-!
# Runs that stop and start

A node takes blocks, may stop between two calls or in any way a call of `SetBestChain` can end, and is started again on
what it left. However often this happens, what it leaves is a database from which `LoadBlockIndex` puts together the tree
that was in memory, with the best chain that was committed.

One thing has to go right: the transaction in which `AddToBlockIndex` writes the record of a new block. The entry in
memory is made before it and stays when it fails.

* `Node.withRecord`, `addToBlockIndex_record` — a new block with its record
* `BlockFiles.writeToDisk_fromFirst` — counting the block files from the first one again changes nothing
* `Restarts.Run.restores` — every run, every way to stop
-/

open Framework Framework.Command

namespace Peershares

/-! ### A new block -/

/-- The node with a new block in the tree and its record in the database. -/
def Node.withRecord (pindexNew : CBlockIndex) (pprev : BlockPtr) (n : Node) : Node :=
  n.indexed (pindexNew :: pprev) { n.txdb.committed with
    blockIndex := n.txdb.committed.blockIndex.insert pindexNew.hashBlock
      (n.toStore.diskIndex n.toGlobals pindexNew pprev) }

section Added

variable {P : Params} {H : Host} {n n' : Node} {block : CBlock} {pprev : BlockPtr} {pindexNew : CBlockIndex}
  {nFile nBlockPos : ℕ}

/-- **`AddToBlockIndex` with the record it writes.** `hunrecorded` is the way in which an entry stays without a record. -/
theorem addToBlockIndex_record {Q : Unit → Node → Prop} {E : Failure → Node → Prop} (hv : n.txdb.vTxn = [])
    (hprev : pprev = (n.mapBlockIndex.lookup block.hashPrevBlock).getD [])
    (hindex : pindexNew = block.newIndex P pprev nFile nBlockPos) (hrefused : ∀ nDoS msg, E (.error nDoS msg) n)
    (hunrecorded : H.io .addTxnBegin = false ∨ H.io .addTxnCommit = false →
      E (.error 0 "") (n.indexed (pindexNew :: pprev) n.txdb.committed))
    (hnotBest : n.mapBlockIndex.lookup (block.getHash P) = none → pindexNew.bnChainTrust ≤ n.bnBestChainTrust →
      Q () (n.withRecord pindexNew pprev))
    (hcall : n.mapBlockIndex.lookup (block.getHash P) = none → n.bnBestChainTrust < pindexNew.bnChainTrust →
      Triple (setBestChain P H block (pindexNew :: pprev)) (n.withRecord pindexNew pprev) (fun _ n' => Q () n'.closeTxDb)
        (fun e n' => if e.isReturn then E (.error 0 "") n'.closeTxDb else E e n'.closeTxDb)) :
    Triple (addToBlockIndex P H nFile nBlockPos block) n Q E := by
  subst hprev hindex
  set pprev := (n.mapBlockIndex.lookup block.hashPrevBlock).getD [] with hpprev
  set pindexNew := block.newIndex P pprev nFile nBlockPos with hpindexNew
  have htxdb : n.txdb = ⟨n.txdb.committed, []⟩ := by
    rw [← hv]
  -- a known hash, or a stake that is not good, refuses the block
  refine Triple.get_bind (Triple.lift_bind (fun _ hnew => ?_) (fun e he => ?_))
  · -- the entry is new; its record is written inside a transaction
    have hnone : n.mapBlockIndex.lookup (block.getHash P) = none := by
      simpa using require_eq_ok.mp hnew
    refine Triple.lift_bind (fun _ _ => ?_) (fun e he => ?_)
    · refine Triple.modify_bind (withTxDb_spec (Triple.bind (Q := fun _ n₂ =>
        n₂ = { n.insertBlockIndex (pindexNew :: pprev) with txdb := ⟨n.txdb.committed, [n.txdb.committed]⟩ }) ?_ ?_))
      · refine onStore_spec (Host.require_bind (fun _ => ?_) (fun hio => hunrecorded (.inl hio)))
        change { n.insertBlockIndex (pindexNew :: pprev) with txdb := n.txdb.txnBegin } = _
        rw [htxdb]
        rfl
      · rintro _ n₂ rfl
        refine Triple.bind (Q := fun _ n₂ => n₂ = { n.insertBlockIndex (pindexNew :: pprev) with
          txdb := ⟨n.txdb.committed, [(n.withRecord pindexNew pprev).txdb.committed]⟩ }) ?_ ?_
        · exact onStore_spec (Triple.get_bind rfl)
        · rintro _ n₂ rfl
          cases hio : H.io .addTxnCommit with
          | false => exact hunrecorded (.inr hio)
          | true =>
            refine Triple.modify_bind (Triple.get_bind ?_)
            change Triple (if n.bnBestChainTrust < pindexNew.bnChainTrust then _ else _) (n.withRecord pindexNew pprev) _ _
            split_ifs with hbest
            · refine Triple.onFailure (Triple.bind (hcall hnone hbest) (fun _ _ h => h)) ?_ ?_
              · intro e n' h he
                rw [he] at h
                exact h
              · intro e n' h he
                rw [he] at h
                exact h
            · exact hnotBest hnone (not_lt.mp hbest)
    · -- the stake of the block was refused
      cases hstake : H.stakeError block with
      | none => exact absurd he (by simp [hstake])
      | some msg =>
        simp only [hstake, Except.error.injEq] at he
        rw [← he]
        exact hrefused 0 msg
  · unfold require at he
    split_ifs at he
    cases he
    exact hrefused _ _

/-- The record of the new block shows its entry and no link. -/
theorem Node.Consistent.recordedAs_withRecord (h : n.Consistent P) (pindexNew : CBlockIndex) (pprev : BlockPtr)
    (files : BlockFiles) :
    (Node.withRecord pindexNew pprev { n with files }).toGlobals.RecordedAs n.pnext
      (Node.withRecord pindexNew pprev { n with files }).txdb.committed := by
  have hrec := h.records
  -- the tree has the new block and, under other hashes, the old ones
  have hin : ∀ p : BlockPtr, (Node.withRecord pindexNew pprev { n with files }).InTree p →
      p = pindexNew :: pprev ∨ (p.hash ≠ pindexNew.hashBlock ∧ n.InTree p) := by
    intro p hp
    change (n.mapBlockIndex.insert pindexNew.hashBlock (pindexNew :: pprev)).lookup p.hash = some p at hp
    rw [Map.lookup_insert_eq] at hp
    split_ifs at hp with heq
    · exact .inl (Option.some.inj hp).symm
    · exact .inr ⟨heq, hp⟩
  refine ⟨fun e p hp => ?_, fun hash r hr => ?_, hrec.checkpoint⟩
  · change ∃ r, (n.txdb.committed.blockIndex.insert pindexNew.hashBlock
      (n.toStore.diskIndex n.toGlobals pindexNew pprev)).lookup e.hashBlock = some r ∧ _
    rw [Map.lookup_insert_eq]
    obtain heq | ⟨hne, hp⟩ := hin (e :: p) hp
    · obtain ⟨rfl, rfl⟩ := List.cons.inj heq
      rw [if_pos rfl]
      exact ⟨_, rfl, rfl, rfl, rfl⟩
    · change e.hashBlock ≠ pindexNew.hashBlock at hne
      rw [if_neg hne]
      exact hrec.found e p hp
  · -- conversely every record is that of a block in the tree
    change (n.txdb.committed.blockIndex.insert pindexNew.hashBlock
      (n.toStore.diskIndex n.toGlobals pindexNew pprev)).lookup hash = some r at hr
    rw [Map.lookup_insert_eq] at hr
    split_ifs at hr with heq
    · refine ⟨pindexNew :: pprev, ?_, heq.symm⟩
      change (n.mapBlockIndex.insert pindexNew.hashBlock (pindexNew :: pprev)).lookup pindexNew.hashBlock = _
      rw [Map.lookup_insert_eq, if_pos rfl]
    · obtain ⟨p, hp, rfl⟩ := hrec.only hash r hr
      refine ⟨p, ?_, rfl⟩
      change (n.mapBlockIndex.insert pindexNew.hashBlock (pindexNew :: pprev)).lookup p.hash = some p
      rw [Map.lookup_insert_eq, if_neg heq]
      exact hp

/-- **A new block** with its record. -/
theorem Node.Consistent.withRecord (h : n.Consistent P) {files : BlockFiles}
    {nBestHeight nAdjustedTime nAdjustedTime' : Int}
    (hprev : n.mapBlockIndex.lookup block.hashPrevBlock = some pprev)
    (hnew : n.mapBlockIndex.lookup (block.getHash P) = none) (hcheck : block.checkBlock P nAdjustedTime = .ok ())
    (hcontext : block.acceptBlockContext P nBestHeight nAdjustedTime' pprev = .ok ())
    (hwrite : n.files.writeToDisk block = some (files, nFile, nBlockPos))
    (hindex : pindexNew = block.newIndex P pprev nFile nBlockPos) :
    (Node.withRecord pindexNew pprev { n with files }).Consistent P := by
  have hinserted := h.agrees.step (.insert hprev hnew hcheck hcontext hwrite)
  refine ⟨hinserted.step (.other ⟨?_, rfl, rfl, rfl, rfl, rfl, rfl, rfl, rfl⟩), h.below,
    h.recordedAs_withRecord pindexNew pprev files⟩
  rw [hindex]
  rfl

/-- A block that is only written. -/
theorem Node.Consistent.stored (h : n.Consistent P) {files : BlockFiles}
    (hwrite : n.files.writeToDisk block = some (files, nFile, nBlockPos)) :
    Node.Consistent P { n with files } :=
  ⟨h.agrees.step (.store hwrite), h.below, h.records.tree (fun _ => rfl)⟩

/-- **`AddToBlockIndex`** on a block that `AcceptBlock` has written, whichever way it ends, when its record is committed
and the postponed blocks connect. -/
theorem Node.Consistent.addToBlockIndex (h : n.Consistent P) {files : BlockFiles}
    {nBestHeight nAdjustedTime nAdjustedTime' : Int}
    (hprev : n.mapBlockIndex.lookup block.hashPrevBlock = some pprev)
    (hnew : n.mapBlockIndex.lookup (block.getHash P) = none) (hcheck : block.checkBlock P nAdjustedTime = .ok ())
    (hcontext : block.acceptBlockContext P nBestHeight nAdjustedTime' pprev = .ok ())
    (hwrite : n.files.writeToDisk block = some (files, nFile, nBlockPos))
    (hindex : pindexNew = block.newIndex P pprev nFile nBlockPos) (hbegin : H.io .addTxnBegin = true)
    (hcommit : H.io .addTxnCommit = true)
    (hconnect : PostponedConnect P H (pindexNew :: pprev) (Node.withRecord pindexNew pprev { n with files })) :
    Triple (addToBlockIndex P H nFile nBlockPos block) { n with files } (fun _ n' => n'.Consistent P)
      (fun e n' => e ≠ .assertion → n'.Consistent P) := by
  -- with its record committed the node with the new block is consistent
  have hrecorded := h.withRecord hprev hnew hcheck hcontext hwrite hindex
  refine addToBlockIndex_record h.agrees.vTxn (by rw [hprev]; rfl) hindex (fun _ _ _ => h.stored hwrite) ?_
    (fun _ _ => hrecorded) (fun _ _ => ?_)
  · -- the record was begun and committed
    rintro (hio | hio)
    · exact absurd (hbegin.symm.trans hio) (by simp)
    · exact absurd (hcommit.symm.trans hio) (by simp)
  · -- and then the chain is switched from there
    have hin : (Node.withRecord pindexNew pprev { n with files }).InTree (pindexNew :: pprev) := by
      change (n.mapBlockIndex.insert pindexNew.hashBlock (pindexNew :: pprev)).lookup pindexNew.hashBlock = _
      rw [Map.lookup_insert_eq, if_pos rfl]
    have hread : files.readBlock pindexNew.nFile pindexNew.nBlockPos = some block := by
      rw [hindex]
      exact ChainState.readBlock_of_writeToDisk h.agrees.tree.files hwrite
    refine (hrecorded.call hin hread hconnect).mono (fun _ _ hn' => hn') (fun e n' hn' => ?_)
    split_ifs with hreturn
    · exact fun _ => hn' (fun heq => absurd hreturn (by rw [heq]; simp [Failure.isReturn]))
    · exact hn'

end Added

/-! ### The block files -/

namespace BlockFiles

variable {files files' : BlockFiles} {block : CBlock} {nFile nBlockPos : ℕ}

/-- The files before the current one are full. -/
structure FullBelow (files : BlockFiles) : Prop where
  one_le : 1 ≤ files.nCurrentBlockFile
  le : files.nCurrentBlockFile ≤ UINT_MAX
  full : ∀ k, 1 ≤ k → k < files.nCurrentBlockFile → maxFileSize ≤ files.fileSize k

/-- **A new process counts the files from the first one again** and writes the next block where the old one would have
written it. -/
theorem writeToDisk_fromFirst (h : files.FullBelow) (block : CBlock) :
    writeToDisk { files with nCurrentBlockFile := 1 } block = files.writeToDisk block := by
  have hfile : appendBlockFile { files with nCurrentBlockFile := 1 } files.blocks.length 1 =
      files.appendBlockFile files.blocks.length files.nCurrentBlockFile := by
    apply Option.ext
    intro nFile
    calc appendBlockFile { files with nCurrentBlockFile := 1 } files.blocks.length 1 = some nFile
        ↔ FirstGood (fun k => k = UINT_MAX) (fun k => files.fileSize k < maxFileSize) 1 nFile :=
          @BlockFileBytes.appendBlockFile_eq_some_iff { files with nCurrentBlockFile := 1 } 1 nFile
      _ ↔ FirstGood (fun k => k = UINT_MAX) (fun k => files.fileSize k < maxFileSize) files.nCurrentBlockFile nFile := by
          refine firstGood_skip h.one_le (fun k hk hk' => ⟨?_, ?_⟩)
          · exact decide_eq_false (hk'.trans_le h.le).ne
          · exact decide_eq_false (not_lt.mpr (h.full k hk hk'))
      _ ↔ files.appendBlockFile files.blocks.length files.nCurrentBlockFile = some nFile :=
          BlockFileBytes.appendBlockFile_eq_some_iff.symm
  unfold writeToDisk
  rw [hfile]
  rfl

/-- The first block file that has room is the current one after a write. -/
theorem FullBelow.writeToDisk (h : files.FullBelow)
    (hwrite : files.writeToDisk block = some (files', nFile, nBlockPos)) : files'.FullBelow := by
  simp only [BlockFiles.writeToDisk, Option.map_eq_some_iff, Prod.mk.injEq] at hwrite
  obtain ⟨nFile', hfile, rfl, rfl, rfl⟩ := hwrite
  obtain ⟨hle, -, hfirst, hgo⟩ := BlockFileBytes.appendBlockFile_eq_some_iff.mp hfile
  refine ⟨h.one_le.trans hle, ?_, fun k hk hk' => ?_⟩
  · -- the search has passed every number up to this one
    by_contra hlt
    exact absurd (hgo UINT_MAX h.le (not_le.mp hlt).le) (by simp)
  · -- a file before the one that was written to
    have hother : fileSize ⟨nFile', ⟨nFile', files.fileSize nFile' + 8, block⟩ :: files.blocks⟩ k = files.fileSize k := by
      unfold fileSize
      rw [List.find?_cons_of_neg (by simpa using hk'.ne')]
    rw [hother]
    by_cases hcur : k < files.nCurrentBlockFile
    · exact h.full k hk hcur
    · exact not_lt.mp (of_decide_eq_false (hfirst k (not_lt.mp hcur) hk'))

end BlockFiles

/-! ### The first start -/

section Start

variable {P : Params} {H : Host} {n : Node}

/-- Genesis has its record, and is the checkpoint. -/
theorem loadGenesis_records (P : Params) (H : Host) :
    Triple (loadGenesis P H) {} (fun _ n => n.txdb.committed.hashSyncCheckpoint.isSome ∧
      ∃ r : CDiskBlockIndex, n.txdb.committed.blockIndex = (∅ : Map Uint256 CDiskBlockIndex).insert P.hashGenesisBlock r ∧
        r.index = P.genesisIndex ∧ r.hashPrev = 0 ∧ r.hashNext = 0) (fun _ _ => True) := by
  set Genesis : Node → Prop := fun n => ∃ r : CDiskBlockIndex,
    n.txdb.committed.blockIndex = (∅ : Map Uint256 CDiskBlockIndex).insert P.hashGenesisBlock r ∧
      r.index = P.genesisIndex ∧ r.hashPrev = 0 ∧ r.hashNext = 0 with hGenesis
  -- `AddToBlockIndex` writes the record of genesis, and the rest leaves the records
  have hadd : Triple (addToBlockIndex P H 1 8 P.genesisBlock) { ({} : Node) with files := P.genesisFiles }
      (fun _ n => Genesis n) (fun _ _ => True) := by
    refine addToBlockIndex_record rfl rfl rfl (fun _ _ => trivial) (fun _ => trivial) ?_ ?_
    · intro _ _
      exact ⟨_, rfl, rfl, rfl, rfl⟩
    · intro _ _
      refine setBestChain_rule rfl ?_ ?_ ?_ ?_ ?_
      · rintro n' ⟨-, -, htxdb, -⟩
        refine ⟨Store.diskIndex { ({} : Globals) with files := P.genesisFiles } {} P.genesisIndex [], ?_, rfl, rfl, rfl⟩
        change n'.txdb.committed.blockIndex = _
        rw [htxdb]
        rfl
      · intro pindex pprev n' d' hnew _ hext
        cases hnew
        exact absurd rfl hext.pprev_ne
      · intro p pfork n' d' _ _ hswitched
        exact absurd hswitched.fork (by simp [Node.withRecord, Node.indexed, Node.insertBlockIndex, BlockPtr.findFork])
      · intro e n' _
        split_ifs
      · intro n'
        split_ifs
  refine Triple.get_bind ?_
  rw [writeToDisk_genesis P]
  refine Triple.modify_bind (Triple.bind (Triple.onFailure hadd (fun _ _ _ _ => trivial) (fun _ _ _ _ => trivial)) ?_)
  rintro _ n hn
  refine Triple.onFailure (E := fun _ _ => True) ?_ (fun _ _ _ _ => trivial) (fun _ _ _ _ => trivial)
  exact Host.require_bind (fun _ => Host.require_bind (fun _ => ⟨rfl, hn⟩) (fun _ => trivial)) (fun _ => trivial)

theorem Node.Consistent.start (hload : loadGenesis P H {} = (.ok (), n))
    (hgenesis : H.io (.writeHashBestChain P.hashGenesisBlock) = true) : n.Consistent P := by
  obtain ⟨hglobals, -⟩ := (loadGenesis_spec P H).of_ok hload
  obtain ⟨hsync, r, hindex, hr, hprev, hnext⟩ := (loadGenesis_records P H).of_ok hload
  refine ⟨Agrees.start hload hgenesis, ?_, ⟨fun e p hp => ?_, fun hash r' hr' => ?_, hsync⟩⟩
  · rw [hglobals]
    intro hash hne
    exact absurd rfl hne
  · rw [hglobals] at hp ⊢
    obtain ⟨rfl, rfl⟩ := List.cons.inj (inTree_genesisGlobals.mp hp)
    refine ⟨r, ?_, hr, hprev, hnext⟩
    rw [hindex, Map.lookup_insert_eq]
    exact if_pos rfl
  · rw [hindex, Map.lookup_insert_eq] at hr'
    split_ifs at hr' with heq
    · rw [hglobals]
      exact ⟨[P.genesisIndex], inTree_genesisGlobals.mpr rfl, heq.symm⟩
    · exact absurd hr' (by simp)

end Start

/-! ### Runs -/

namespace Restarts

/-- The ways in which a node stops: between two calls, or in a call of `SetBestChain`, however much of it was done. -/
inductive Stops (P : Params) (n : Node) : Node → Prop where
  | idle : Stops P n n
  | call {H : Host} {block : CBlock} {pindex : CBlockIndex} {pprev : BlockPtr} {r : Result Bool} {n' : Node}
      (hin : n.InTree (pindex :: pprev)) (hread : n.files.readBlock pindex.nFile pindex.nBlockPos = some block)
      (hrun : setBestChain P H block (pindex :: pprev) n = (r, n')) (halive : r ≠ .error .assertion) :
      Stops P n n'.closeTxDb

/-- One step. -/
inductive Step (P : Params) (K : KernelHash) (n : Node) : Node → Prop where
  /-- `AcceptBlock` has written a block and calls `AddToBlockIndex`, with any outcome that does not end the process. The
  transaction of the record is committed, and every postponed block connects. -/
  | accept {H : Host} {block : CBlock} {pprev : BlockPtr} {files : BlockFiles} {nFile nBlockPos : ℕ}
      {nBestHeight nAdjustedTime nAdjustedTime' : Int} {r : Result Unit} {n' : Node}
      (hprev : n.mapBlockIndex.lookup block.hashPrevBlock = some pprev)
      (hnew : n.mapBlockIndex.lookup (block.getHash P) = none)
      (hcheck : block.checkBlock P nAdjustedTime = .ok ())
      (hcontext : block.acceptBlockContext P nBestHeight nAdjustedTime' pprev = .ok ())
      (hwrite : n.files.writeToDisk block = some (files, nFile, nBlockPos))
      (hbegin : H.io .addTxnBegin = true) (hcommit : H.io .addTxnCommit = true)
      (hconnect : PostponedConnect P H (block.newIndex P pprev nFile nBlockPos :: pprev)
        (Node.withRecord (block.newIndex P pprev nFile nBlockPos) pprev { n with files }))
      (hrun : addToBlockIndex P H nFile nBlockPos block { n with files } = (r, n'))
      (halive : r ≠ .error .assertion) : Step P K n n'
  /-- A block is written, and nothing more. -/
  | store {block : CBlock} {files : BlockFiles} {nFile nBlockPos : ℕ}
      (hwrite : n.files.writeToDisk block = some (files, nFile, nBlockPos)) : Step P K n { n with files }
  /-- `SetBestChain` is called on a block of the tree; every postponed block connects. -/
  | call {H : Host} {block : CBlock} {pindex : CBlockIndex} {pprev : BlockPtr} {r : Result Bool} {n' : Node}
      (hin : n.InTree (pindex :: pprev)) (hread : n.files.readBlock pindex.nFile pindex.nBlockPos = some block)
      (hconnect : PostponedConnect P H (pindex :: pprev) n)
      (hrun : setBestChain P H block (pindex :: pprev) n = (r, n')) (halive : r ≠ .error .assertion) :
      Step P K n n'.closeTxDb
  /-- Anything else leaves the chain and the records of the blocks alone. -/
  | other {n' : Node} (hsame : n.SameChain n') (hindex : n'.txdb.committed.blockIndex = n.txdb.committed.blockIndex)
      (hsync : n'.txdb.committed.hashSyncCheckpoint.isSome) : Step P K n n'
  /-- The node stops, and `LoadBlockIndex` starts the next one. -/
  | restart {H : Host} {args : CheckArgs} {stake : StakeRecords P K} {n₁ n' : Node} (hstop : Stops P n n₁)
      (hload : loadBlockIndex P K H args stake.fields n₁.afterExit = (.ok (), n')) : Step P K n n'

/-- The states of a node that has started with an empty database. -/
inductive Run (P : Params) (K : KernelHash) : Node → Prop where
  | start {H : Host} {n : Node} (hload : loadGenesis P H {} = (.ok (), n))
      (hgenesis : H.io (.writeHashBestChain P.hashGenesisBlock) = true) : Run P K n
  | step {n n' : Node} (hrun : Run P K n) (hstep : Step P K n n') : Run P K n'

section

variable {P : Params} {K : KernelHash} {n n' n₁ : Node}

/-- **Whichever way a node stops**, what it leaves is durable. -/
theorem Stops.durable (hstop : Stops P n n₁) (h : n.Consistent P) : ∃ q, n₁.Durable P q := by
  cases hstop with
  | idle => exact ⟨_, h.durable⟩
  | @call H block pindex pprev r n' hin hread hrun halive =>
    have hcall := h.durable_call (H := H) hin hread
    cases r with
    | ok fComplete => exact hcall.of_ok hrun
    | error e => exact hcall.of_error hrun (fun heq => halive (by rw [heq]))

/-- The block files are those of the node that stopped. -/
theorem Stops.files (hstop : Stops P n n₁) : n₁.files = n.files := by
  cases hstop with
  | idle => rfl
  | @call H block pindex pprev r n' hin hread hrun halive =>
    have hframe := keeps_frame_setBestChain (P := P) (H := H) block (pindex :: pprev) n (Globals.Frame.refl _)
    cases r with
    | ok fComplete => exact (hframe.of_ok hrun).files
    | error e => exact (hframe.of_error hrun).files

/-- **One step keeps a node consistent.** -/
theorem consistent_step (hP : P.Loadable) (h : n.Consistent P) (hstep : Step P K n n') : n'.Consistent P := by
  cases hstep with
  | @accept H block pprev files nFile nBlockPos _ _ _ r _ hprev hnew hcheck hcontext hwrite hbegin hcommit hconnect hrun
      halive =>
    -- a call that ends in an assertion is no step
    have hadd := h.addToBlockIndex hprev hnew hcheck hcontext hwrite rfl hbegin hcommit hconnect
    cases r with
    | ok u => exact hadd.of_ok hrun
    | error e => exact hadd.of_error hrun (fun heq => halive (by rw [heq]))
  | store hwrite => exact h.stored hwrite
  | @call H block pindex pprev r n₁ hin hread hconnect hrun halive =>
    have hcall := h.call hin hread hconnect
    cases r with
    | ok fComplete => exact hcall.of_ok hrun
    | error e => exact hcall.of_error hrun (fun heq => halive (by rw [heq]))
  | other hsame hindex hsync =>
    have hrec : n'.RecordedAs n.pnext n.txdb.committed := h.records.tree (fun _ => by rw [hsame.mapBlockIndex])
    refine ⟨h.agrees.step (.other hsame), ?_, fun e p hin => ?_, fun hash r hr => ?_, hsync⟩
    · rw [hsame.pnext, hsame.pindexBest]
      exact h.below
    · rw [hindex, hsame.pnext]
      exact hrec.found e p hin
    · rw [hindex] at hr
      exact hrec.only hash r hr
  -- the node is stopped in a durable state, from which `LoadBlockIndex` starts
  | @restart H args stake n₁ _ hstop hload =>
    obtain ⟨q, hq⟩ := hstop.durable h
    exact ((loadBlockIndex_restores P hP H args stake n₁ q hq).of_ok hload).1.consistent

/-- The block files before the current one stay full. -/
theorem fullBelow_step (hP : P.Loadable) (hcons : n.Consistent P) (h : n.files.FullBelow) (hstep : Step P K n n') :
    n'.files.FullBelow := by
  cases hstep with
  | @accept H block pprev files nFile nBlockPos _ _ _ r _ hprev hnew hcheck hcontext hwrite hbegin hcommit hconnect hrun
      halive =>
    have hkeeps : Triple (addToBlockIndex P H nFile nBlockPos block) { n with files } (fun _ n' => n'.files = files)
        (fun _ n' => n'.files = files) := by
      refine addToBlockIndex_record hcons.agrees.vTxn rfl rfl (fun _ _ => rfl) (fun _ => rfl) (fun _ _ => rfl)
        (fun _ _ => ?_)
      refine (keeps_frame_setBestChain _ _ _ (Globals.Frame.refl _)).mono (fun _ _ hframe => hframe.files) ?_
      intro e n' hframe
      split_ifs
      · exact hframe.files
      · exact hframe.files
    -- behind the write the files stay
    have hfiles : n'.files = files := by
      cases r with
      | ok u => exact hkeeps.of_ok hrun
      | error e => exact hkeeps.of_error hrun
    rw [hfiles]
    exact h.writeToDisk hwrite
  | store hwrite => exact h.writeToDisk hwrite
  | call hin hread hconnect hrun halive =>
    rw [(Stops.call hin hread hrun halive).files]
    exact h
  | other hsame hindex hsync =>
    rw [hsame.files]
    exact h
  | @restart H args stake n₁ _ hstop hload =>
    obtain ⟨q, hq⟩ := hstop.durable hcons
    rw [((loadBlockIndex_restores P hP H args stake n₁ q hq).of_ok hload).1.files, hstop.files]
    exact h

/-- What holds in every state of a run. -/
theorem Run.consistent (hP : P.Loadable) (hrun : Run P K n) : n.Consistent P ∧ n.files.FullBelow := by
  induction hrun with
  | start hload hgenesis =>
    refine ⟨.start hload hgenesis, ?_⟩
    rw [((loadGenesis_spec P _).of_ok hload).globals]
    exact ⟨le_refl 1, (by decide : 1 ≤ UINT_MAX), fun k hk hk' => absurd hk (not_le.mpr hk')⟩
  | step _ hstep ih => exact ⟨consistent_step hP ih.1 hstep, fullBelow_step hP ih.1 ih.2 hstep⟩

/-- **A node that has stopped can be started again**, however often it was before and whichever way it stopped: the
committed hash is that of a block `q` of its tree, the committed index is that of the chain of `q`, and `LoadBlockIndex`
gives a node between two calls on the same tree and files. Its best block is `q` unless the clock is behind a block of
the chain, and it is refused only when a block cannot be read. Counting the block files from the first one makes no
difference to what is written next. -/
theorem Run.restores (hP : P.Loadable) (hrun : Run P K n) (hstop : Stops P n n₁) (H : Host) (args : CheckArgs)
    (stake : StakeRecords P K) :
    ∃ q, n₁.InTree q ∧ n₁.txdb.committed.hashBestChain = some q.hash ∧
      IndexShows P n₁.toGlobals q n₁.txdb.committed.txIndex ∧
      (∀ block, BlockFiles.writeToDisk { n₁.files with nCurrentBlockFile := 1 } block = n₁.files.writeToDisk block) ∧
      Triple (loadBlockIndex P K H args stake.fields) n₁.afterExit
        (fun _ n' => n₁.OnTreeOf P n' ∧ ((∀ e ∈ q, (e.nTime : Int) ≤ H.nAdjustedTime + nMaxClockDrift) →
          Node.Restores q n₁ n'))
        (fun e _ => (∃ hash, H.io (.readFromDisk hash) = false) ∨
          (e.isReturn = false ∧ ∃ e ∈ q, H.nAdjustedTime + nMaxClockDrift < (e.nTime : Int))) := by
  obtain ⟨hcons, hfull⟩ := hrun.consistent hP
  obtain ⟨q, hq⟩ := hstop.durable hcons
  refine ⟨q, hq.best, hq.hashBestChain, hq.index, fun block => ?_,
    loadBlockIndex_restores P hP H args stake n₁ q hq⟩
  rw [hstop.files]
  exact BlockFiles.writeToDisk_fromFirst hfull block

end

end Restarts

/-- `AcceptBlock` writes a block and adds it to the index, when nothing is postponed and the call returns: a step,
computed. -/
def Node.acceptRecorded (P : Params) (H : Host) (block : CBlock) (n : Node) : Option Node :=
  match n.mapBlockIndex.lookup block.hashPrevBlock, n.mapBlockIndex.lookup (block.getHash P),
    n.files.writeToDisk block with
  | some pprev, none, some (files, nFile, nBlockPos) =>
    match block.checkBlock P H.nAdjustedTime, block.acceptBlockContext P n.nBestHeight H.nAdjustedTime pprev with
    | .ok (), .ok () =>
      if H.io .addTxnBegin = true ∧ H.io .addTxnCommit = true ∧
          (BlockPtr.postpone n.pindexBest.bnChainTrust (block.newIndex P pprev nFile nBlockPos :: pprev)).1 = [] then
        match addToBlockIndex P H nFile nBlockPos block { n with files } with
        | (.ok (), n') => some n'
        | (.error _, _) => none
      else none
    | _, _ => none
  | _, _, _ => none

theorem Restarts.Run.acceptRecorded {P : Params} {K : KernelHash} {H : Host} {block : CBlock} {n n' : Node}
    (h : Run P K n) (haccept : n.acceptRecorded P H block = some n') : Run P K n' := by
  unfold Node.acceptRecorded at haccept
  split at haccept
  · next pprev files nFile nBlockPos hprev hnew hwrite =>
    split at haccept
    · next hcheck hcontext =>
      split_ifs at haccept with hcond
      obtain ⟨hbegin, hcommit, hnone⟩ := hcond
      split at haccept
      · next n₁ hrun =>
        cases haccept
        exact h.step (.accept hprev hnew hcheck hcontext hwrite hbegin hcommit (postponedConnect_of_nil hnone) hrun
          (by simp))
      · exact absurd haccept (by simp)
    · exact absurd haccept (by simp)
  · exact absurd haccept (by simp)

namespace Sample

theorem loadable_treeParams : treeParams.Loadable := by
  refine ⟨fun block => ?_, by decide +kernel⟩
  exact Nat.succ_ne_zero (block.hashPrevBlock * 2 ^ 33 + block.nTime % 2 ^ 32)

/-- Hashes of the kernel that nothing is read off. -/
def zeroHash : KernelHash where
  hashSelection _ _ := 0
  hashKernel _ := 0
  hashChecksum _ _ _ _ := 0

def stakeRecords : StakeRecords treeParams zeroHash where
  fields _ := { generatedStakeModifier := true }
  genesis := by decide +kernel

/-- The block `n` seconds after genesis on the block with the given hash is accepted. -/
def takeBlock (hash : Uint256) (n : ℕ) (s : Node) : Option Node :=
  s.acceptRecorded treeParams host (blockOn (s.blockPtr hash) n [coinBase n])

/-- Block 1 becomes the best. Blocks 2 and 3 are a branch of their own, and the node switches to it at block 3. -/
def switchedNode : Option Node := do
  let s ← takeBlock genesisHash 1 (loadGenesis treeParams host {}).2
  let s ← takeBlock genesisHash 2 s
  takeBlock (hashOn genesisHash 2) 3 s

/-- It is stopped and started again. -/
def restartedNode : Option Node := do
  let s ← switchedNode
  match loadBlockIndex treeParams zeroHash host {} stakeRecords.fields s.afterExit with
  | (.ok (), n) => some n
  | (.error _, _) => none

theorem run_restartedNode {n : Node} (h : restartedNode = some n) : Restarts.Run treeParams zeroHash n := by
  simp only [restartedNode, switchedNode, Option.bind_eq_bind, Option.bind_eq_some_iff] at h
  obtain ⟨s, ⟨s₁, h₁, s₂, h₂, h₃⟩, hrestart⟩ := h
  have hstart : Restarts.Run treeParams zeroHash (loadGenesis treeParams host {}).2 := .start (H := host) rfl rfl
  have hswitched := ((hstart.acceptRecorded h₁).acceptRecorded h₂).acceptRecorded h₃
  split at hrestart
  · next hload =>
    cases hrestart
    have hstop : Restarts.Stops treeParams s s := .idle
    exact hswitched.step (@Restarts.Step.restart _ _ _ host {} stakeRecords _ _ hstop hload)
  · exact absurd hrestart (by simp)

end Sample

/-- A node that has switched its chain is stopped, started, and stopped and started once more. -/
theorem restores_restarted : ∃ n q, Restarts.Run Sample.treeParams Sample.zeroHash n ∧
    n.mapBlockIndex.entries.length = 4 ∧ n.hashBestChain = Sample.hashOn (Sample.hashOn Sample.genesisHash 2) 3 ∧
    n.InTree q ∧ n.txdb.committed.hashBestChain = some q.hash ∧
    IndexShows Sample.treeParams n.toGlobals q n.txdb.committed.txIndex ∧
    (∀ block, BlockFiles.writeToDisk { n.files with nCurrentBlockFile := 1 } block = n.files.writeToDisk block) ∧
    Triple (loadBlockIndex Sample.treeParams Sample.zeroHash Sample.host {} Sample.stakeRecords.fields) n.afterExit
      (fun _ n' => n.OnTreeOf Sample.treeParams n' ∧
        ((∀ e ∈ q, (e.nTime : Int) ≤ Sample.host.nAdjustedTime + nMaxClockDrift) → Node.Restores q n n'))
      (fun e _ => (∃ hash, Sample.host.io (.readFromDisk hash) = false) ∨
        (e.isReturn = false ∧ ∃ e ∈ q, Sample.host.nAdjustedTime + nMaxClockDrift < (e.nTime : Int))) := by
  have heval : Sample.restartedNode.map (fun n => (n.mapBlockIndex.entries.length, n.hashBestChain)) =
      some (4, Sample.hashOn (Sample.hashOn Sample.genesisHash 2) 3) := by
    decide +kernel
  obtain ⟨n, hn, heq⟩ := Option.map_eq_some_iff.mp heval
  obtain ⟨hlength, hbest⟩ := Prod.mk.inj heq
  have hrun := Sample.run_restartedNode hn
  obtain ⟨q, hrestores⟩ := Restarts.Run.restores Sample.loadable_treeParams hrun .idle Sample.host {}
    Sample.stakeRecords
  exact ⟨n, q, hrun, hlength, hbest, hrestores⟩

end Peershares
