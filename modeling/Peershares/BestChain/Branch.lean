import Peershares.BestChain.Wallets
import Peershares.Model.Node

/-!
# What connecting and disconnecting a branch does

`Reorganize` and `SetBestChainInner` work inside one database transaction. This module says what
their parts do there: which index they leave in the open transaction, which wallets they have told,
and that the committed data stays as it was until the commit.

Everything is stated against functions of the index alone (`connectedIndex`, `disconnectedIndex`,
`progress`), which say how far a branch gets.

* `connectBlock_spec`, `disconnectBlock_spec` — one block
* `forBranch_spec` — a branch
* `reorganizeStore_spec` — the transaction of `Reorganize`
-/

open Framework Framework.Command

namespace Peershares

/-! ### Open transactions -/

namespace Store

/-- One transaction is open: it shows `d`, and `c` is committed. -/
def InTxn (s : Store) (c d : TxDbData) : Prop := s.txdb = ⟨c, [d]⟩

/-- Still `c` is committed, and at most one transaction is open. -/
structure Holds (c : TxDbData) (s : Store) : Prop where
  committed : s.txdb.committed = c
  vTxn : s.txdb.vTxn.tail = []

variable {s : Store} {c d : TxDbData}

/-- Inside its transaction the committed data are untouched. -/
theorem InTxn.holds (h : s.InTxn c d) : s.Holds c := by
  unfold InTxn at h
  constructor
  · rw [h]
  · rw [h]
    rfl

/-- What is read is what was written. -/
theorem InTxn.view (h : s.InTxn c d) : s.txdb.view = d := by
  unfold InTxn at h
  rw [h]
  rfl

/-- An aborted transaction leaves the committed data. -/
theorem Holds.txnAbort (h : s.Holds c) : s.txnAbort.Holds c ∧ s.txnAbort.txdb.vTxn = [] := by
  refine ⟨⟨h.committed, ?_⟩, h.vTxn⟩
  change s.txdb.vTxn.tail.tail = []
  rw [h.vTxn]
  rfl

/-- A write changes what the transaction shows. -/
theorem InTxn.write (h : s.InTxn c d) (f : TxDbData → TxDbData) {R : Unit → Store → Prop}
    {E : Failure → Store → Prop} (hR : ∀ s', s'.InTxn c (f d) → s'.wallets = s.wallets → R () s') :
    Triple (Store.write f) s R E := by
  refine hR _ ?_ rfl
  unfold InTxn at h ⊢
  change s.txdb.update f = _
  rw [h]
  rfl

/-- A write, and what follows. -/
theorem InTxn.write_bind {α : Type} (h : s.InTxn c d) {f : TxDbData → TxDbData}
    {k : Unit → Command Store Failure α} {R : α → Store → Prop} {E : Failure → Store → Prop}
    (hk : ∀ s', s'.InTxn c (f d) → s'.wallets = s.wallets → Triple (k ()) s' R E) :
    Triple (Store.write f >>= k) s R E := by
  refine Triple.bind (Q := fun _ s' => s'.InTxn c (f d) ∧ s'.wallets = s.wallets) ?_ ?_
  · exact h.write f (fun s' hs' hw => ⟨hs', hw⟩)
  · rintro _ s' ⟨hs', hw⟩
    exact hk s' hs' hw

/-- `TxnCommit` commits what the transaction shows, or drops it. -/
theorem InTxn.txnCommit (h : s.InTxn c d) {H : Host} {hash : Uint256} {msg : String}
    {R : Unit → Store → Prop} {E : Failure → Store → Prop}
    (hok : ∀ s', s'.txdb = ⟨d, []⟩ → s'.wallets = s.wallets → R () s')
    (herr : ∀ s', s'.Holds c → s'.txdb.vTxn = [] → s'.wallets = s.wallets → E (.error 0 msg) s') :
    Triple (Store.txnCommit H hash msg) s R E := by
  unfold Triple Store.txnCommit
  split_ifs
  · refine hok _ ?_ rfl
    unfold InTxn at h
    change s.txdb.txnCommit = _
    rw [h]
    rfl
  · exact herr _ h.holds.txnAbort.1 h.holds.txnAbort.2 rfl

end Store

/-! ### Progress -/

/-- The index after `ConnectBlock`, when its checks pass and its writes succeed. -/
def connectedIndex (P : Params) (H : Host) (g : Globals) (block : CBlock) (pindex : CBlockIndex)
    (pprev : BlockPtr) (txIndex : TxIndexMap) : Option TxIndexMap :=
  match block.connectChecks P (g.connectEnv txIndex) H.nAdjustedTime pindex pprev with
  | .error _ => none
  | .ok st =>
    if H.io (.writeBlockIndex pindex.hashBlock) && H.io (.updateTxIndex pindex.hashBlock)
        && (pprev.isEmpty || H.io (.writeBlockIndexPrev pindex.hashBlock)) then
      some (st.writeQueued txIndex)
    else none

/-- The index after `DisconnectBlock`, when its writes succeed. -/
def disconnectedIndex (P : Params) (H : Host) (block : CBlock) (pindex : CBlockIndex)
    (pprev : BlockPtr) (txIndex : TxIndexMap) : Option TxIndexMap :=
  match block.disconnectIndex P txIndex with
  | .error _ => none
  | .ok txIndex =>
    if H.io (.updateTxIndex pindex.hashBlock)
        && (pprev.isEmpty || H.io (.writeBlockIndexPrev pindex.hashBlock)) then
      some txIndex
    else none

/-- How far a branch gets: the blocks in front of the first failure, and the index behind the last
block when there is no failure. -/
def progress (P : Params) (H : Host) (files : BlockFiles)
    (index : CBlock → CBlockIndex → BlockPtr → TxIndexMap → Option TxIndexMap) :
    List (CBlockIndex × BlockPtr) → TxIndexMap → List CBlock × Option TxIndexMap
  | [], txIndex => ([], some txIndex)
  | (pindex, pprev) :: branch, txIndex =>
    match readFromDisk P H files pindex with
    | .error _ => ([], none)
    | .ok block =>
      match index block pindex pprev txIndex with
      | none => ([], none)
      | some txIndex =>
        (block :: (progress P H files index branch txIndex).1,
          (progress P H files index branch txIndex).2)

/-! ### One block -/

/-- What a command does with one block in an open transaction: it either takes the index where
`index` says and tells the wallets about every transaction, or it returns `false` with the wallets
as they were. -/
def BlockSpec (P : Params) (fConnect : Bool) (block : CBlock)
    (index : TxIndexMap → Option TxIndexMap) (x : Command Store Failure Unit) : Prop :=
  ∀ (s : Store) (c d : TxDbData), s.InTxn c d → Triple x s
    (fun _ s' => ∃ d', s'.InTxn c d' ∧ d'.hashBestChain = d.hashBestChain ∧
      index d.txIndex = some d'.txIndex ∧
      Runs (forList (syncWithWallets P fConnect) block.vtx) s.wallets s'.wallets)
    (fun e s' => s'.Holds c ∧
      (e.isReturn = true → index d.txIndex = none ∧ s'.wallets = s.wallets))

section Block

variable {P : Params} {H : Host} {g : Globals} {block : CBlock} {pindex : CBlockIndex}
  {pprev : BlockPtr} {s : Store} {c d : TxDbData}

/-- The write of the index entry of the block before. -/
theorem writeBlockIndexPrev_spec {hashNext : Uint256} {msg : String} (h : s.InTxn c d) :
    Triple (Store.writeBlockIndexPrev H g pindex pprev hashNext msg) s
      (fun _ s' => (pprev.isEmpty || H.io (.writeBlockIndexPrev pindex.hashBlock)) = true ∧
        s'.wallets = s.wallets ∧
        ∃ d', s'.InTxn c d' ∧ d'.txIndex = d.txIndex ∧ d'.hashBestChain = d.hashBestChain)
      (fun _ s' => (pprev.isEmpty || H.io (.writeBlockIndexPrev pindex.hashBlock)) = false ∧
        s' = s) := by
  cases pprev with
  | nil => exact ⟨rfl, rfl, d, h, rfl, rfl⟩
  | cons pindexPrev pprevPrev =>
    refine Host.require_bind (fun hio => ?_) (fun hio => ⟨by simp [hio], rfl⟩)
    refine Triple.get_bind (h.write _ (fun s' hs' hw => ?_))
    exact ⟨by simp [hio], hw, _, hs', rfl, rfl⟩

/-- The wallets are told of the transactions of a block. -/
theorem syncBlock_spec {fConnect : Bool} {R : Unit → Store → Prop} {E : Store → Prop}
    (h : s.InTxn c d)
    (hR : ∀ s', s'.InTxn c d →
      Runs (forList (syncWithWallets P fConnect) block.vtx) s.wallets s'.wallets → R () s') :
    Triple (Store.syncBlock P fConnect block) s R
      (fun e s' => s'.Holds c ∧ (e.isReturn = true → E s')) := by
  refine Triple.onPart ?_
  have hthrows := CWallet.onlyThrows_forList
    (fun tx => CWallet.onlyThrows_syncWithWallets (P := P) fConnect tx) block.vtx s.wallets
  unfold Triple at hthrows ⊢
  split at hthrows
  · next ws hrun => exact hR _ h hrun
  · next e ws hrun =>
    exact ⟨Store.InTxn.holds (s := { s with wallets := ws }) h, fun hret => absurd hret (by simp [hthrows])⟩

/-- The end of both functions: the record of the parent is written and the wallets are told. -/
theorem writePrev_syncBlock_spec {fConnect : Bool} {hashNext : Uint256} {msg : String}
    {s₀ : Store} {d₀ : TxDbData} {index : Option TxIndexMap} (h : s.InTxn c d)
    (hbest : d.hashBestChain = d₀.hashBestChain) (hwallets : s.wallets = s₀.wallets)
    (hindex : index = if (pprev.isEmpty || H.io (.writeBlockIndexPrev pindex.hashBlock)) then
      some d.txIndex else none) :
    Triple (do
        Store.writeBlockIndexPrev H g pindex pprev hashNext msg
        Store.syncBlock P fConnect block) s
      (fun _ s' => ∃ d', s'.InTxn c d' ∧ d'.hashBestChain = d₀.hashBestChain ∧
        index = some d'.txIndex ∧
        Runs (forList (syncWithWallets P fConnect) block.vtx) s₀.wallets s'.wallets)
      (fun e s' => s'.Holds c ∧ (e.isReturn = true → index = none ∧ s'.wallets = s₀.wallets)) := by
  refine Triple.bind ((writeBlockIndexPrev_spec h).mono (fun _ _ h => h) ?_) ?_
  · rintro e s' ⟨hio, rfl⟩
    refine ⟨h.holds, fun _ => ⟨?_, hwallets⟩⟩
    rw [hindex, hio]
    rfl
  · rintro _ s' ⟨hio, hw, d', hs', htx, hbest'⟩
    rw [hio, if_pos rfl, ← htx] at hindex
    rw [← hwallets, ← hw, ← hbest, ← hbest']
    exact syncBlock_spec hs' (fun _ hs'' hruns => ⟨d', hs'', rfl, hindex, hruns⟩)

/-- **`ConnectBlock`.** -/
theorem connectBlock_spec :
    BlockSpec P true block (connectedIndex P H g block pindex pprev)
      (block.connectBlock P H g pindex pprev) := by
  intro s c d hs
  refine Triple.get_bind (Triple.lift_bind (fun st hst => ?_) (fun e he => ?_))
  · rw [hs.view] at hst
    have hindex : connectedIndex P H g block pindex pprev d.txIndex =
        if H.io (.writeBlockIndex pindex.hashBlock) && H.io (.updateTxIndex pindex.hashBlock)
            && (pprev.isEmpty || H.io (.writeBlockIndexPrev pindex.hashBlock)) then
          some (st.writeQueued d.txIndex) else none := by
      unfold connectedIndex
      rw [hst]
    have hs₁ : (Store.setSupply pindex pprev st s).InTxn c d := hs
    refine Triple.modify_bind (Host.require_bind (fun hio₁ => ?_) (fun hio₁ => ?_))
    · refine Triple.get_bind (hs₁.write_bind (fun s₂ hs₂ hw₂ => ?_))
      refine Host.require_bind (fun hio₂ => ?_) (fun hio₂ => ?_)
      · refine hs₂.write_bind (fun s₃ hs₃ hw₃ => ?_)
        refine writePrev_syncBlock_spec hs₃ rfl (hw₃.trans hw₂) ?_
        rw [hindex, hio₁, hio₂]
        rfl
      · refine ⟨hs₂.holds, fun _ => ⟨?_, hw₂⟩⟩
        rw [hindex, hio₁, hio₂]
        rfl
    · refine ⟨hs₁.holds, fun _ => ⟨?_, rfl⟩⟩
      rw [hindex, hio₁]
      rfl
  · refine ⟨hs.holds, fun _ => ⟨?_, rfl⟩⟩
    rw [hs.view] at he
    unfold connectedIndex
    rw [he]

/-- **`DisconnectBlock`.** -/
theorem disconnectBlock_spec :
    BlockSpec P false block (disconnectedIndex P H block pindex pprev)
      (block.disconnectBlock P H g pindex pprev) := by
  intro s c d hs
  refine Triple.get_bind (Triple.lift_bind (fun txIndex htxIndex => ?_) (fun e he => ?_))
  · rw [hs.view] at htxIndex
    have hindex : disconnectedIndex P H block pindex pprev d.txIndex =
        if H.io (.updateTxIndex pindex.hashBlock)
            && (pprev.isEmpty || H.io (.writeBlockIndexPrev pindex.hashBlock)) then
          some txIndex else none := by
      unfold disconnectedIndex
      rw [htxIndex]
    refine Host.require_bind (fun hio => ?_) (fun hio => ?_)
    · refine hs.write_bind (fun s₁ hs₁ hw₁ => ?_)
      refine writePrev_syncBlock_spec hs₁ rfl hw₁ ?_
      rw [hindex, hio]
      rfl
    · refine ⟨hs.holds, fun _ => ⟨?_, rfl⟩⟩
      rw [hindex, hio]
      rfl
  · refine ⟨hs.holds, fun _ => ⟨?_, rfl⟩⟩
    rw [hs.view] at he
    unfold disconnectedIndex
    rw [he]

end Block

/-! ### A branch -/

/-- What a loop over a branch does in an open transaction. -/
def BranchSpec (P : Params) (H : Host) (files : BlockFiles) (fConnect : Bool)
    (index : CBlock → CBlockIndex → BlockPtr → TxIndexMap → Option TxIndexMap)
    (branch : List (CBlockIndex × BlockPtr)) (x : Command Store Failure (List CBlock)) : Prop :=
  ∀ (s : Store) (c d : TxDbData), s.InTxn c d → Triple x s
    (fun blocks s' => ∃ d', s'.InTxn c d' ∧ d'.hashBestChain = d.hashBestChain ∧
      progress P H files index branch d.txIndex = (blocks, some d'.txIndex) ∧
      Runs (forList (syncWithWallets P fConnect) (blocks.flatMap CBlock.vtx)) s.wallets s'.wallets)
    (fun e s' => s'.Holds c ∧ (e.isReturn = true →
      (progress P H files index branch d.txIndex).2 = none ∧
      Runs (forList (syncWithWallets P fConnect)
        ((progress P H files index branch d.txIndex).1.flatMap CBlock.vtx)) s.wallets s'.wallets))

section Branch

variable {P : Params} {H : Host} {g : Globals} {fConnect : Bool} {msgRead : String}
  {index : CBlock → CBlockIndex → BlockPtr → TxIndexMap → Option TxIndexMap}
  {step : CBlock → CBlockIndex → BlockPtr → Command Store Failure Unit}

/-- `ReadFromDisk` never throws. -/
theorem readFromDisk_noThrow (files : BlockFiles) (pindex : CBlockIndex) :
    (readFromDisk P H files pindex).NoThrow := by
  refine (Result.noThrow_require _ _ _).bind (fun _ _ => ?_)
  cases files.readBlock pindex.nFile pindex.nBlockPos with
  | none => exact Result.noThrow_error _ _
  | some block =>
    refine (Result.noThrow_require _ _ _).bind (fun _ _ => ?_)
    exact (Result.noThrow_require _ _ _).bind (fun _ _ => Result.noThrow_ok _)

/-- Reading the block in front of a loop body. -/
theorem readFromDisk_bind {σ α : Type} {files : BlockFiles} {pindex : CBlockIndex} {s : σ}
    {k : CBlock → Command σ Failure α} {R : α → σ → Prop} {E : Failure → σ → Prop}
    (hok : ∀ block, readFromDisk P H files pindex = .ok block → Triple (k block) s R E)
    (herr : ∀ e, readFromDisk P H files pindex = .error e → E (.error 0 msgRead) s) :
    Triple ((Command.lift (readFromDisk P H files pindex)).onFailure Failure.isReturn id
      (.error 0 msgRead) >>= k) s R E := by
  cases hread : readFromDisk P H files pindex with
  | ok block => exact hok block hread
  | error e =>
    have hret := readFromDisk_noThrow files pindex e hread
    have hE := herr e hread
    change Triple (Command.onFailure (Command.lift (.error e)) _ _ _ >>= k) s R E
    refine Triple.bind (Q := fun _ _ => False) ?_ (fun _ _ h => h.elim)
    unfold Triple Command.onFailure Command.lift
    simp only [hret, if_true]
    exact hE

/-- **A loop over a branch** gets as far as `progress` says. -/
theorem forBranch_spec
    (hstep : ∀ block pindex pprev, BlockSpec P fConnect block (index block pindex pprev)
      (step block pindex pprev)) (branch : List (CBlockIndex × BlockPtr)) :
    BranchSpec P H g.files fConnect index branch (forBranch P H g msgRead step branch) := by
  intro s c d hs
  -- induction on the branch, whose first block is read and done
  induction branch generalizing s d with
  | nil => exact ⟨d, hs, rfl, rfl, rfl⟩
  | cons entry branch ih =>
    obtain ⟨pindex, pprev⟩ := entry
    refine readFromDisk_bind (fun block hread => ?_) (fun e hread => ?_)
    · refine Triple.bind ((hstep block pindex pprev s c d hs).mono (fun _ _ h => h) ?_) ?_
      · rintro e s' ⟨hholds, hret⟩
        refine ⟨hholds, fun he => ?_⟩
        obtain ⟨hnone, hw⟩ := hret he
        have hprogress : progress P H g.files index ((pindex, pprev) :: branch) d.txIndex =
            ([], none) := by
          rw [progress, hread]
          simp only [hnone]
        -- the block fails: the branch has come so far
        rw [hprogress, hw]
        exact ⟨rfl, rfl⟩
      · rintro _ s₁ ⟨d₁, hs₁, hbest₁, hindex, hruns₁⟩
        -- the block is done, and the rest starts from its index
        have hprogress : progress P H g.files index ((pindex, pprev) :: branch) d.txIndex =
            (block :: (progress P H g.files index branch d₁.txIndex).1,
              (progress P H g.files index branch d₁.txIndex).2) := by
          rw [progress, hread]
          simp only [hindex]
        refine Triple.bind ((ih s₁ d₁ hs₁).mono (fun _ _ h => h) ?_) ?_
        · rintro e s' ⟨hholds, hret⟩
          refine ⟨hholds, fun he => ?_⟩
          obtain ⟨hnone, hruns⟩ := hret he
          rw [hprogress, List.flatMap_cons]
          exact ⟨hnone, runs_forList_append.mpr ⟨_, hruns₁, hruns⟩⟩
        · rintro blocks s' ⟨d', hs', hbest, hrest, hruns⟩
          refine ⟨d', hs', hbest.trans hbest₁, ?_, ?_⟩
          · rw [hprogress, hrest]
          · rw [List.flatMap_cons]
            exact runs_forList_append.mpr ⟨_, hruns₁, hruns⟩
    · -- the block cannot be read
      refine ⟨hs.holds, fun _ => ?_⟩
      have hprogress : progress P H g.files index ((pindex, pprev) :: branch) d.txIndex =
          ([], none) := by
        rw [progress, hread]
      rw [hprogress]
      exact ⟨rfl, rfl⟩

/-- Another text and another state of the transaction do not matter when a block fails. -/
theorem BlockSpec.onFailure {block : CBlock} {idx : TxIndexMap → Option TxIndexMap}
    {x : Command Store Failure Unit} (h : BlockSpec P fConnect block idx x) {cleanup : Store → Store}
    {msg : String} (hclean : ∀ s, (cleanup s).wallets = s.wallets ∧
      ∀ c, s.Holds c → (cleanup s).Holds c) :
    BlockSpec P fConnect block idx (x.onFailure Failure.isReturn cleanup (.error 0 msg)) := by
  intro s c d hs
  refine Triple.onFailure (h s c d hs) ?_ ?_
  · rintro e s' ⟨hholds, hret⟩ he
    refine ⟨(hclean s').2 c hholds, fun _ => ?_⟩
    rw [(hclean s').1]
    exact hret he
  · rintro e s' hE -
    exact hE

/-- The loop of `Reorganize` that disconnects. -/
theorem disconnectBranch_spec (branch : List (CBlockIndex × BlockPtr)) :
    BranchSpec P H g.files false (disconnectedIndex P H) branch (disconnectBranch P H g branch) := by
  refine forBranch_spec (fun block pindex pprev => ?_) branch
  exact disconnectBlock_spec.onFailure (fun s => ⟨rfl, fun c h => h⟩)

/-- And the one that connects. -/
theorem connectBranch_spec (branch : List (CBlockIndex × BlockPtr)) :
    BranchSpec P H g.files true (connectedIndex P H g) branch (connectBranch P H g branch) := by
  refine forBranch_spec (fun block pindex pprev => ?_) branch
  refine BlockSpec.onFailure connectBlock_spec (fun s => ⟨rfl, fun c h => ?_⟩)
  exact h.txnAbort.1

end Branch

/-! ### The transaction of `Reorganize` -/

section Reorganize

variable {P : Params} {H : Host} {g : Globals} {vDisconnect vConnect : List (CBlockIndex × BlockPtr)}
  {pindexNew : BlockPtr} {s : Store} {c d : TxDbData}

/-- The blocks a reorganisation gets through: those it disconnects, and, when these are all, those it
connects. -/
def reorganizeProgress (P : Params) (H : Host) (g : Globals)
    (vDisconnect vConnect : List (CBlockIndex × BlockPtr)) (txIndex : TxIndexMap) :
    List CBlock × List CBlock × Option TxIndexMap :=
  match progress P H g.files (disconnectedIndex P H) vDisconnect txIndex with
  | (disconnected, none) => (disconnected, [], none)
  | (disconnected, some txIndex) =>
    (disconnected, progress P H g.files (connectedIndex P H g) vConnect txIndex)

/-- What was disconnected when the first loop fails. -/
theorem reorganizeProgress_of_none {txIndex : TxIndexMap}
    (h : (progress P H g.files (disconnectedIndex P H) vDisconnect txIndex).2 = none) :
    reorganizeProgress P H g vDisconnect vConnect txIndex =
      ((progress P H g.files (disconnectedIndex P H) vDisconnect txIndex).1, [], none) := by
  unfold reorganizeProgress
  cases hp : progress P H g.files (disconnectedIndex P H) vDisconnect txIndex with
  | mk disconnected r =>
    rw [hp] at h
    cases h
    rfl

/-- And what was connected when it does not. -/
theorem reorganizeProgress_of_some {txIndex txIndex' : TxIndexMap} {disconnected : List CBlock}
    (h : progress P H g.files (disconnectedIndex P H) vDisconnect txIndex =
      (disconnected, some txIndex')) :
    reorganizeProgress P H g vDisconnect vConnect txIndex =
      (disconnected, progress P H g.files (connectedIndex P H g) vConnect txIndex') := by
  unfold reorganizeProgress
  rw [h]

/-- The wallets have been told of these blocks. -/
def Synced (P : Params) (disconnected connected : List CBlock) (ws ws' : List CWallet) : Prop :=
  ∃ ws₁, Runs (forList (syncWithWallets P false) (disconnected.flatMap CBlock.vtx)) ws ws₁ ∧
    Runs (forList (syncWithWallets P true) (connected.flatMap CBlock.vtx)) ws₁ ws'

/-- **The transaction of `Reorganize`** is committed with the index behind both branches, or what
was committed stays. -/
theorem reorganizeStore_spec (hs : s.InTxn c d) :
    Triple (reorganizeStore P H vDisconnect vConnect pindexNew g) s
      (fun blocks s' => ∃ d', s'.txdb = ⟨d', []⟩ ∧ d'.hashBestChain = some pindexNew.hash ∧
        reorganizeProgress P H g vDisconnect vConnect d.txIndex =
          (blocks.1, blocks.2, some d'.txIndex) ∧
        Synced P blocks.1 blocks.2 s.wallets s'.wallets)
      (fun e s' => s'.Holds c ∧ (e.isReturn = true →
        Synced P (reorganizeProgress P H g vDisconnect vConnect d.txIndex).1
          (reorganizeProgress P H g vDisconnect vConnect d.txIndex).2.1 s.wallets s'.wallets)) := by
  -- the first loop disconnects
  refine Triple.bind ((disconnectBranch_spec vDisconnect s c d hs).mono (fun _ _ h => h) ?_) ?_
  · rintro e s' ⟨hholds, hret⟩
    refine ⟨hholds, fun he => ?_⟩
    obtain ⟨hnone, hruns⟩ := hret he
    rw [reorganizeProgress_of_none hnone]
    exact ⟨s'.wallets, hruns, rfl⟩
  rintro disconnected s₁ ⟨d₁, hs₁, hbest₁, hprogress₁, hruns₁⟩
  rw [reorganizeProgress_of_some hprogress₁]
  -- the second one connects
  refine Triple.bind ((connectBranch_spec vConnect s₁ c d₁ hs₁).mono (fun _ _ h => h) ?_) ?_
  · rintro e s' ⟨hholds, hret⟩
    exact ⟨hholds, fun he => ⟨s₁.wallets, hruns₁, (hret he).2⟩⟩
  rintro connected s₂ ⟨d₂, hs₂, hbest₂, hprogress₂, hruns₂⟩
  rw [hprogress₂]
  have hsynced : Synced P disconnected connected s.wallets s₂.wallets := ⟨s₁.wallets, hruns₁, hruns₂⟩
  -- only the hash of the best chain and the commit are left
  refine Triple.bind (Q := fun _ s₃ => s₃.wallets = s₂.wallets ∧
    s₃.InTxn c { d₂ with hashBestChain := some pindexNew.hash }) ?_ ?_
  · refine Host.require_bind (fun _ => ?_) (fun _ => ⟨hs₂.holds, fun _ => hsynced⟩)
    exact hs₂.write _ (fun s₃ hs₃ hw => ⟨hw, hs₃⟩)
  rintro _ s₃ ⟨hw, hs₃⟩
  refine Triple.bind
    (Q := fun _ s' => s'.txdb = ⟨{ d₂ with hashBestChain := some pindexNew.hash }, []⟩ ∧
      s'.wallets = s₂.wallets)
    (hs₃.txnCommit (fun s' hs' hw' => ⟨hs', hw'.trans hw⟩) (fun s' hs' _ hw' => ?_)) ?_
  · refine ⟨hs', fun _ => ?_⟩
    rw [hw', hw]
    exact hsynced
  rintro _ s' ⟨hs', hw'⟩
  refine ⟨_, hs', rfl, rfl, ?_⟩
  change Synced P disconnected connected s.wallets s'.wallets
  rw [hw']
  exact hsynced

end Reorganize

end Peershares
