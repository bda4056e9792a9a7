import Peershares.BestChain.Agreement

/-!
# A call of `SetBestChain` that returns `false`

The database, the links, the best block and the memory pool are as before the call. The wallets are
not in general: `DisconnectBlock` and `ConnectBlock` have told them about every block that went
through before the failure, and nothing takes that back.

* `setBestChain_untouched_iff` — exactly when the wallets are as before, too
* `setBestChain_touched` — a node where they are not
-/

open Framework Framework.Command

namespace Peershares

/-- Nothing the node keeps about its best chain has changed. -/
structure Untouched (n n' : Node) : Prop where
  committed : n'.txdb.committed = n.txdb.committed
  pnext : n'.pnext = n.pnext
  hashBestChain : n'.hashBestChain = n.hashBestChain
  pindexBest : n'.pindexBest = n.pindexBest
  mempool : n'.mempool = n.mempool
  /-- The registered wallets have the same transactions and the same flags. -/
  wallets : List.Forall₂ CWallet.Unchanged n.wallets n'.wallets

/-- Two rows of runs, read wallet by wallet. -/
theorem forall₂_iff_of_comp {α : Type} {R S U : α → α → Prop} {V : α → Prop} {as bs cs : List α}
    (hR : List.Forall₂ R as bs) (hS : List.Forall₂ S bs cs)
    (h : ∀ a b c, R a b → S b c → (U a c ↔ V a)) :
    List.Forall₂ U as cs ↔ ∀ a ∈ as, V a := by
  induction hR generalizing cs with
  | nil =>
    cases hS
    simp
  | cons hab _ ih =>
    cases hS with
    | cons hbc hS => rw [List.forall₂_cons, List.forall_mem_cons, h _ _ _ hab hbc, ih hS]

/-- The wallets after they have been told of some blocks are the ones before exactly when each was
unaffected. -/
theorem Synced.unchanged_iff {P : Params} {disconnected connected : List CBlock}
    {ws ws' : List CWallet} (h : Synced P disconnected connected ws ws') :
    List.Forall₂ CWallet.Unchanged ws ws' ↔ ∀ w ∈ ws,
      w.Unaffected P (disconnected.flatMap CBlock.vtx) (connected.flatMap CBlock.vtx) := by
  obtain ⟨ws₁, hdisconnected, hconnected⟩ := h
  have hD : List.Forall₂
      (Runs (forList CWallet.syncDisconnected (disconnected.flatMap CBlock.vtx))) ws ws₁ :=
    forall₂_of_runs_forList_forEach hdisconnected
  have hC : List.Forall₂
      (Runs (forList (CWallet.syncConnected P) (connected.flatMap CBlock.vtx))) ws₁ ws' :=
    forall₂_of_runs_forList_forEach hconnected
  exact forall₂_iff_of_comp hD hC (fun w w₁ w' hw hw' => CWallet.unchanged_iff hw hw')

theorem Rejected.untouched_iff {c : TxDbData} {n n' : Node} (h : Rejected c n n')
    (hc : c = n.txdb.committed) :
    Untouched n n' ↔ List.Forall₂ CWallet.Unchanged n.wallets n'.wallets := by
  constructor
  · intro hun
    exact hun.wallets
  · intro hwallets
    obtain ⟨bnBestInvalidTrust, hglobals⟩ := h.globals
    refine ⟨?_, ?_, ?_, ?_, ?_, hwallets⟩
    · rw [h.holds.committed, hc]
    all_goals rw [hglobals]

/-- **When a failed call leaves everything as it was.** A call of `SetBestChain` that returns
`false`, or of `Reorganize` inside the transaction `SetBestChain` has begun, leaves the committed
data, the links, the best block, the memory pool and the wallets as they were if and only if no
wallet is affected by the blocks the call had disconnected and connected before it failed. -/
theorem setBestChain_untouched_iff (P : Params) (H : Host) (n : Node) (pindexNew : BlockPtr)
    (hn : n.txdb.vTxn = []) :
    (∀ block e n', setBestChain P H block pindexNew n = (.error e, n') → e.isReturn = true →
      (Untouched n n' ↔ ∀ w ∈ n.wallets, w.Unaffected P
        ((setBestChainProgress P H n.toGlobals n.txdb.committed.txIndex block
          pindexNew).1.flatMap CBlock.vtx)
        ((setBestChainProgress P H n.toGlobals n.txdb.committed.txIndex block
          pindexNew).2.flatMap CBlock.vtx))) ∧
    (∀ e n', reorganize P H pindexNew { n with txdb := n.txdb.txnBegin } = (.error e, n') →
      e.isReturn = true →
      (Untouched n n' ↔ ∀ w ∈ n.wallets, w.Unaffected P
        ((switchProgress P H n.toGlobals pindexNew n.txdb.committed.txIndex).1.flatMap CBlock.vtx)
        ((switchProgress P H n.toGlobals pindexNew n.txdb.committed.txIndex).2.flatMap
          CBlock.vtx))) := by
  have htxdb : n.txdb = ⟨n.txdb.committed, []⟩ := by
    rw [← hn]
  constructor
  · -- `SetBestChain`: what fails before the switch is undone up to the wallets
    intro block e n' hrun he
    have htriple : Triple (setBestChain P H block pindexNew) n (fun _ _ => True)
        (fun e n' => e.isReturn = true →
          RejectedCall P H block pindexNew n.txdb.committed n e n') := by
      refine setBestChain_rule htxdb (fun _ _ => trivial) (fun _ _ _ _ _ _ _ => trivial) ?_ ?_ ?_
      · -- once the reorganisation is through, the loop over the postponed blocks returns or throws
        intro pindexIntermediate pfork n₁ d' _ _ _
        refine (connectPostponed_isReturn _ n₁).mono (fun _ _ _ => trivial) ?_
        intro e n₂ hthrow he
        exact absurd he (by simp [hthrow])
      · intro e n' hrejected _
        exact hrejected
      · intro n' he
        exact absurd he (by simp [Failure.isReturn])
    obtain ⟨hrejected, hret⟩ := htriple.of_error hrun he
    rw [hrejected.untouched_iff rfl]
    exact (hret he).2.unchanged_iff
  · -- `Reorganize` by itself
    intro e n' hrun he
    have hs : Store.InTxn { n.toStore with txdb := n.txdb.txnBegin } n.txdb.committed
        n.txdb.committed := by
      unfold Store.InTxn
      change n.txdb.txnBegin = _
      rw [htxdb]
      rfl
    obtain ⟨hglobals, hholds, hret⟩ := (reorganize_spec hs).of_error hrun
    have hrejected : Rejected n.txdb.committed n n' :=
      ⟨hholds, n.bnBestInvalidTrust, hglobals⟩
    rw [hrejected.untouched_iff rfl]
    exact (hret he).unchanged_iff

/-! ### A call that fails halfway -/

theorem map_knows_of_unchanged (P : Params) (tx : CTransaction) {ws ws' : List CWallet}
    (h : List.Forall₂ CWallet.Unchanged ws ws') :
    ws'.map (CWallet.knows P · tx) = ws.map (CWallet.knows P · tx) := by
  induction h with
  | nil => rfl
  | cons hw _ ih => rw [List.map_cons, List.map_cons, ih, CWallet.knows, hw.members, CWallet.knows]

namespace Sample

/-- Block 1 is the best. Blocks 3 and 4 are another branch, which has more trust; block 4 does not
connect. The wallets are registered. -/
def forked (wallets : List CWallet) : Option Node := do
  let s ← arriveBest 0 1 (loadGenesis params host {}).2
  let s ← arrive 0 3 [coinBase 3] s
  let s ← arrive 3 4 [coinBase 4, spendMissing] s
  pure { s with wallets }

theorem run_forked {wallets : List CWallet} {s : Node} (h : forked wallets = some s) :
    Node.Run params s := by
  simp only [forked, Option.bind_eq_bind, Option.bind_eq_some_iff, Option.pure_def,
    Option.some.injEq] at h
  obtain ⟨s₁, h₁, s₂, h₂, s₃, h₃, rfl⟩ := h
  have hstart : Node.Run params (loadGenesis params host {}).2 := Node.Run.start (H := host) rfl rfl
  have hrun := run_arrive (run_arrive (run_arriveBest hstart h₁) h₂) h₃
  exact hrun.step (Node.Step.other ⟨rfl, rfl, rfl, rfl, rfl, rfl, (Agrees.of_run hrun).vTxn, rfl, rfl⟩)

theorem wallets_forked {wallets : List CWallet} {s : Node} (h : forked wallets = some s) :
    s.wallets = wallets := by
  simp only [forked, Option.bind_eq_bind, Option.bind_eq_some_iff, Option.pure_def,
    Option.some.injEq] at h
  obtain ⟨s₁, -, s₂, -, s₃, -, rfl⟩ := h
  rfl

/-- A wallet that has the key of the coinbases. -/
def keyWallet : CWallet := ⟨fun script => script = keyScript, ∅⟩

/-- A wallet without keys. -/
def emptyWallet : CWallet := ⟨fun _ => false, ∅⟩

theorem unaffected_emptyWallet (disconnected connected : List CTransaction) :
    emptyWallet.Unaffected params disconnected connected := by
  have howns : ∀ o, emptyWallet.owns o = false := fun o => rfl
  have hdebit : ∀ tx, emptyWallet.isOwnSpend tx = false := by
    intro tx
    have hloop : ∀ vin, CWallet.getDebit.loop emptyWallet vin 0 = .ok 0 := by
      intro vin
      induction vin with
      | nil => rfl
      | cons txin vin ih => exact ih
    unfold CWallet.isOwnSpend CWallet.isFromMe CWallet.getDebit
    rw [hloop]
    rfl
  refine ⟨fun tx _ => Or.inr ⟨?_, hdebit tx⟩, fun _ _ o _ ho => ?_, fun _ _ _ _ o _ ho => ?_⟩
  · simp [CWallet.isMineTx, emptyWallet]
  · exact absurd ho (by simp [howns])
  · exact absurd ho (by simp [howns])

end Sample

/-- The wallet has the coinbase of block 3 after the call, and not before it. -/
theorem setBestChain_touched :
    ∃ (n n' : Node) (block : CBlock) (pindex : CBlockIndex) (pprev : BlockPtr) (e : Failure),
      Node.Run Sample.params n ∧ n.InTree (pindex :: pprev) ∧
      n.files.readBlock pindex.nFile pindex.nBlockPos = some block ∧
      setBestChain Sample.params Sample.host block (pindex :: pprev) n = (.error e, n') ∧
      e.isReturn = true ∧ ¬Untouched n n' := by
  have hcall : (Sample.forked [Sample.keyWallet]).bind (Sample.atBlock 4 (fun s block p =>
      let r := setBestChain Sample.params Sample.host block p s
      (match r.1 with | .ok _ => false | .error e => e.isReturn,
        s.wallets.map (CWallet.knows Sample.params · (Sample.coinBase 3)),
        r.2.wallets.map (CWallet.knows Sample.params · (Sample.coinBase 3))))) =
      some (true, [false], [true]) := by
    decide +kernel
  obtain ⟨n, hn, hat⟩ := Option.bind_eq_some_iff.mp hcall
  have hrun := Sample.run_forked hn
  obtain ⟨block, pindex, pprev, hin, hread, heq⟩ := Sample.atBlock_eq_some hrun hat
  cases hr : setBestChain Sample.params Sample.host block (pindex :: pprev) n with
  | mk r n' =>
    rw [hr] at heq
    simp only [Prod.mk.injEq] at heq
    obtain ⟨hret, hbefore, hafter⟩ := heq
    cases r with
    | ok fComplete => exact absurd hret (by simp)
    | error e =>
      refine ⟨n, n', block, pindex, pprev, e, hrun, hin, hread, hr, hret, ?_⟩
      intro huntouched
      have hsame := map_knows_of_unchanged Sample.params (Sample.coinBase 3) huntouched.wallets
      rw [hbefore, hafter] at hsame
      exact absurd hsame (by decide)

/-- The same call when the wallet has no keys. -/
theorem untouched_forked :
    ∃ (n n' : Node) (block : CBlock) (pindex : CBlockIndex) (pprev : BlockPtr) (e : Failure),
      n.wallets = [Sample.emptyWallet] ∧
      setBestChain Sample.params Sample.host block (pindex :: pprev) n = (.error e, n') ∧
      e.isReturn = true ∧ Untouched n n' := by
  have hcall : (Sample.forked [Sample.emptyWallet]).bind (Sample.atBlock 4 (fun s block p =>
      match (setBestChain Sample.params Sample.host block p s).1 with
      | .ok _ => false
      | .error e => e.isReturn)) = some true := by
    decide +kernel
  obtain ⟨n, hn, hat⟩ := Option.bind_eq_some_iff.mp hcall
  have hrun := Sample.run_forked hn
  have hwallets := Sample.wallets_forked hn
  obtain ⟨block, pindex, pprev, -, -, heq⟩ := Sample.atBlock_eq_some hrun hat
  cases hr : setBestChain Sample.params Sample.host block (pindex :: pprev) n with
  | mk r n' =>
    rw [hr] at heq
    cases r with
    | ok fComplete => exact absurd heq (by simp)
    | error e =>
      refine ⟨n, n', block, pindex, pprev, e, hwallets, hr, heq, ?_⟩
      refine ((setBestChain_untouched_iff Sample.params Sample.host n (pindex :: pprev)
        (Agrees.of_run hrun).vTxn).1 block e n' hr heq).mpr ?_
      rw [hwallets]
      intro w hw
      rw [List.mem_singleton.mp hw]
      exact Sample.unaffected_emptyWallet _ _

end Peershares
