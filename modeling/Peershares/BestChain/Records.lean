import Peershares.BestChain.Fork
import Peershares.BestChain.Locator

/-!
# The records of the block tree

`ConnectBlock` writes the record of its block and that of the parent, `DisconnectBlock` that of the parent, and the links
in memory follow when the transaction is committed. So between two calls the "blockindex" records are those of the tree
in memory, links included, however the calls before ended.

Inside a transaction the records run ahead of memory. They are compared with links of their own, which take the same steps
as the links in memory take afterwards (`linkNext`). What has to be seen is that a block is connected before its own link
is touched, since its record is written with the link in memory.

* `Globals.RecordedAs` — the records are those of the tree, with these links
* `reorganizeStore_records` — the transaction of `Reorganize`
* `setBestChain_records` — a call of `SetBestChain`, whichever way it ends
-/

open Framework Framework.Command

namespace Peershares

/-- What `LoadBlockIndex` finds: one record for every block of the tree and no other, with the hashes of its neighbours,
where `next` are the links; and a checkpoint. -/
structure Globals.RecordedAs (g : Globals) (next : Uint256 → BlockPtr) (d : TxDbData) : Prop where
  found : ∀ (e : CBlockIndex) (p : BlockPtr), g.InTree (e :: p) → ∃ r, d.blockIndex.lookup e.hashBlock = some r ∧
    r.index = e ∧ r.hashPrev = p.hash ∧ r.hashNext = (next e.hashBlock).hash
  only : ∀ hash r, d.blockIndex.lookup hash = some r → ∃ p, g.InTree p ∧ p.hash = hash
  checkpoint : d.hashSyncCheckpoint.isSome

/-! ### One block -/

section Block

variable {P : Params} {H : Host} {g : Globals} {next : Uint256 → BlockPtr} {s : Store} {c d d' : TxDbData}
  {e : CBlockIndex} {p q : BlockPtr} {block : CBlock}

/-- Only the records and the checkpoint matter. -/
theorem Globals.RecordedAs.congr (h : g.RecordedAs next d) (hindex : d'.blockIndex = d.blockIndex)
    (hsync : d'.hashSyncCheckpoint = d.hashSyncCheckpoint) : g.RecordedAs next d' := by
  refine ⟨fun e p hin => ?_, fun hash r hr => ?_, ?_⟩
  · rw [hindex]
    exact h.found e p hin
  · rw [hindex] at hr
    exact h.only hash r hr
  · rw [hsync]
    exact h.checkpoint

/-- A record is written: the link of its block is now the one in the record. -/
theorem Globals.RecordedAs.write (h : g.RecordedAs next d) (hin : g.InTree (e :: p)) {r : CDiskBlockIndex}
    (hindex : r.index = e) (hprev : r.hashPrev = p.hash) (hnext : r.hashNext = q.hash) :
    g.RecordedAs (Function.update next e.hashBlock q)
      { d with blockIndex := d.blockIndex.insert r.index.hashBlock r } := by
  refine ⟨fun e' p' hin' => ?_, fun hash r' hr' => ?_, h.checkpoint⟩
  · rw [Map.lookup_insert_eq, hindex]
    split_ifs with heq
    · -- a hash names one block
      obtain ⟨rfl, rfl⟩ := List.cons.inj (Globals.InTree.unique hin' hin heq)
      exact ⟨r, rfl, hindex, hprev, by rw [Function.update_self, hnext]⟩
    · rw [Function.update_of_ne heq]
      exact h.found e' p' hin'
  · rw [Map.lookup_insert_eq, hindex] at hr'
    split_ifs at hr' with heq
    · exact ⟨e :: p, hin, heq.symm⟩
    · exact h.only hash r' hr'

/-- The end of both functions: the record of the parent is written with the new link. -/
theorem writePrev_syncBlock_records (hs : s.InTxn c d) (hrec : g.RecordedAs next d) (hp : p ≠ [] → g.InTree p)
    {fConnect : Bool} {hashNext : Uint256} {msg : String} (hnext : hashNext = q.hash) :
    Triple (do
        Store.writeBlockIndexPrev H g e p hashNext msg
        Store.syncBlock P fConnect block) s
      (fun _ s' => ∃ d', s'.InTxn c d' ∧ g.RecordedAs (linkNext (fun _ _ => q) [(e, p)] next) d')
      (fun _ _ => True) := by
  refine Triple.bind (Q := fun _ s' => ∃ d', s'.InTxn c d' ∧
    g.RecordedAs (linkNext (fun _ _ => q) [(e, p)] next) d') ?_ ?_
  · cases p with
    | nil => exact ⟨d, hs, hrec⟩
    | cons e' p' =>
      refine Host.require_bind (fun _ => Triple.get_bind ?_) (fun _ => trivial)
      refine hs.write _ (fun s' hs' _ => ⟨_, hs', ?_⟩)
      exact hrec.write (hp (List.cons_ne_nil e' p')) rfl rfl hnext
  · rintro _ s' ⟨d', hs', hrec'⟩
    refine (syncBlock_spec (E := fun _ => True) hs' (fun _ hs'' _ => ?_)).mono (fun _ _ h => h) (fun _ _ _ => trivial)
    exact ⟨d', hs'', hrec'⟩

/-- **`ConnectBlock`** on a block whose link is the one in memory. -/
theorem connectBlock_records (hs : s.InTxn c d) (hrec : g.RecordedAs next d) (hin : g.InTree (e :: p))
    (hp : p ≠ [] → g.InTree p) (hlink : next e.hashBlock = g.pnext e.hashBlock) :
    Triple (block.connectBlock P H g e p) s
      (fun _ s' => ∃ d', s'.InTxn c d' ∧ g.RecordedAs (linkNext (fun e p => e :: p) [(e, p)] next) d')
      (fun _ _ => True) := by
  refine Triple.get_bind (Triple.lift_bind (fun st _ => ?_) (fun _ _ => trivial))
  have hs₁ : (Store.setSupply e p st s).InTxn c d := hs
  refine Triple.modify_bind (Host.require_bind (fun _ => Triple.get_bind ?_) (fun _ => trivial))
  refine hs₁.write_bind (fun s₂ hs₂ _ => ?_)
  -- the record of the block shows the link that it had
  have hsame : Function.update next e.hashBlock (g.pnext e.hashBlock) = next := by
    rw [← hlink]
    exact Function.update_eq_self _ _
  have hrec₂ := hrec.write (r := Store.diskIndex g (Store.setSupply e p st s) e p) hin rfl rfl rfl
  rw [hsame] at hrec₂
  refine Host.require_bind (fun _ => hs₂.write_bind (fun s₃ hs₃ _ => ?_)) (fun _ => trivial)
  exact writePrev_syncBlock_records (q := e :: p) hs₃ (hrec₂.congr rfl rfl) hp rfl

/-- **`DisconnectBlock`**. -/
theorem disconnectBlock_records (hs : s.InTxn c d) (hrec : g.RecordedAs next d) (hp : p ≠ [] → g.InTree p) :
    Triple (block.disconnectBlock P H g e p) s
      (fun _ s' => ∃ d', s'.InTxn c d' ∧ g.RecordedAs (linkNext (fun _ _ => []) [(e, p)] next) d')
      (fun _ _ => True) := by
  refine Triple.get_bind (Triple.lift_bind (fun txIndex _ => ?_) (fun _ _ => trivial))
  refine Host.require_bind (fun _ => hs.write_bind (fun s₁ hs₁ _ => ?_)) (fun _ => trivial)
  exact writePrev_syncBlock_records (q := []) hs₁ (hrec.congr rfl rfl) hp rfl

end Block

/-! ### A branch -/

section Branch

variable {P : Params} {H : Host} {g : Globals} {nx : CBlockIndex → BlockPtr → BlockPtr} {next : Uint256 → BlockPtr}
  {s : Store} {c d : TxDbData}

/-- **A loop over a branch** takes the links of the records through `linkNext`. `Ready` is what a step asks of the links
it starts from. -/
theorem forBranch_records {msgRead : String} {step : CBlock → CBlockIndex → BlockPtr → Command Store Failure Unit}
    (Ready : (Uint256 → BlockPtr) → CBlockIndex × BlockPtr → Prop) {branch : List (CBlockIndex × BlockPtr)}
    (hstep : ∀ block, ∀ x ∈ branch, ∀ (s : Store) (d : TxDbData) (next : Uint256 → BlockPtr), s.InTxn c d →
      g.RecordedAs next d → Ready next x → Triple (step block x.1 x.2) s
        (fun _ s' => ∃ d', s'.InTxn c d' ∧ g.RecordedAs (linkNext nx [x] next) d') (fun _ _ => True))
    (hready : ∀ before x after, branch = before ++ x :: after → Ready (linkNext nx before next) x)
    (hs : s.InTxn c d) (hrec : g.RecordedAs next d) :
    Triple (forBranch P H g msgRead step branch) s
      (fun _ s' => ∃ d', s'.InTxn c d' ∧ g.RecordedAs (linkNext nx branch next) d') (fun _ _ => True) := by
  induction branch generalizing s d next with
  | nil => exact ⟨d, hs, hrec⟩
  | cons x branch ih =>
    refine readFromDisk_bind (fun block _ => ?_) (fun _ _ => trivial)
    have hfirst := hstep block x List.mem_cons_self s d next hs hrec (hready [] x branch rfl)
    refine Triple.bind hfirst ?_
    rintro _ s₁ ⟨d₁, hs₁, hrec₁⟩
    -- a step is ready for the links its predecessors made
    have hready₁ : ∀ before y after, branch = before ++ y :: after →
        Ready (linkNext nx before (linkNext nx [x] next)) y :=
      fun before y after heq => hready (x :: before) y after (by rw [heq, List.cons_append])
    have hrest := ih (fun block y hy => hstep block y (List.mem_cons_of_mem x hy)) hready₁ hs₁ hrec₁
    refine Triple.bind hrest ?_
    rintro blocks s₂ ⟨d₂, hs₂, hrec₂⟩
    exact ⟨d₂, hs₂, hrec₂⟩

theorem disconnectBranch_records {branch : List (CBlockIndex × BlockPtr)}
    (htree : ∀ x ∈ branch, x.2 ≠ [] → g.InTree x.2) (hs : s.InTxn c d) (hrec : g.RecordedAs next d) :
    Triple (disconnectBranch P H g branch) s
      (fun _ s' => ∃ d', s'.InTxn c d' ∧ g.RecordedAs (linkNext (fun _ _ => []) branch next) d') (fun _ _ => True) := by
  refine forBranch_records (fun _ _ => True) ?_ (fun _ _ _ _ => trivial) hs hrec
  rintro block ⟨e, p⟩ hx s d next hs hrec -
  refine Triple.onFailure (disconnectBlock_records hs hrec (htree _ hx)) ?_ ?_
  · exact fun _ _ _ _ => trivial
  · exact fun _ _ _ _ => trivial

theorem connectBranch_records {branch : List (CBlockIndex × BlockPtr)}
    (hblock : ∀ x ∈ branch, g.InTree (x.1 :: x.2)) (htree : ∀ x ∈ branch, x.2 ≠ [] → g.InTree x.2)
    (hlink : ∀ before x after, branch = before ++ x :: after →
      linkNext (fun e p => e :: p) before next x.1.hashBlock = g.pnext x.1.hashBlock)
    (hs : s.InTxn c d) (hrec : g.RecordedAs next d) :
    Triple (connectBranch P H g branch) s
      (fun _ s' => ∃ d', s'.InTxn c d' ∧ g.RecordedAs (linkNext (fun e p => e :: p) branch next) d')
      (fun _ _ => True) := by
  refine forBranch_records (fun next x => next x.1.hashBlock = g.pnext x.1.hashBlock) ?_ hlink hs hrec
  rintro block ⟨e, p⟩ hx s d next hs hrec hready
  refine Triple.onFailure (connectBlock_records hs hrec (hblock _ hx) (htree _ hx) hready) ?_ ?_
  · exact fun _ _ _ _ => trivial
  · exact fun _ _ _ _ => trivial

end Branch

/-! ### The two branches of a reorganisation -/

section Reorganize

variable {P : Params} {H : Host} {g : Globals} {pbest pfork pnew : BlockPtr} {s : Store} {c d : TxDbData}

/-- Every block of a branch above a fork is in the tree, and so is its parent. -/
theorem inTree_above (ht : g.TreeInv P) (hp : g.InTree pnew) (hs : pfork <:+ pnew) (hne : pfork ≠ [])
    {x : CBlockIndex × BlockPtr} (hx : x ∈ BlockPtr.above pfork pnew) : g.InTree (x.1 :: x.2) ∧ g.InTree x.2 := by
  obtain ⟨hxs, hxf⟩ := (BlockPtr.mem_above hs hne).mp hx
  have hxne : x.2 ≠ [] := by
    intro hnil
    rw [hnil] at hxf
    exact hne (List.suffix_nil.mp hxf)
  exact ⟨ht.suffix hp hxs (by simp), ht.suffix hp ((List.suffix_cons x.1 x.2).trans hxs) hxne⟩

/-- Disconnecting the branch of the best block touches no link of the new branch. -/
theorem disconnected_link (ht : g.TreeInv P) (hbest : g.InTree pbest) (hnew : g.InTree pnew)
    (hfork : BlockPtr.IsFork pfork pbest pnew) (hne : pfork ≠ []) {x : CBlockIndex × BlockPtr}
    (hx : x ∈ BlockPtr.above pfork pnew) (pnext : Uint256 → BlockPtr) :
    linkNext (fun _ _ => []) (BlockPtr.above pfork pbest) pnext x.1.hashBlock = pnext x.1.hashBlock := by
  refine linkNext_eq_old (fun y hy _ hhash => ?_)
  have hyin := (inTree_above ht hbest hfork.left hne hy).2
  have heq : y.2 = x.1 :: x.2 := hyin.unique (inTree_above ht hnew hfork.right hne hx).1 hhash
  -- a block of the new branch that is on the best chain is not above the fork
  obtain ⟨hxs, hxf⟩ := (BlockPtr.mem_above hfork.right hne).mp hx
  obtain ⟨hys, -⟩ := (BlockPtr.mem_above hfork.left hne).mp hy
  rw [heq] at hys
  have hle := ((hfork _).mpr ⟨(List.suffix_cons y.1 _).trans hys, hxs⟩).length_le
  have hle' := hxf.length_le
  rw [List.length_cons] at hle
  omega

/-- A block of the new branch is connected before its link is made. -/
theorem connected_link (ht : g.TreeInv P) (hnew : g.InTree pnew) (hs : pfork <:+ pnew) (hne : pfork ≠ [])
    {before after : List (CBlockIndex × BlockPtr)} {x : CBlockIndex × BlockPtr}
    (hrow : (BlockPtr.above pfork pnew).reverse = before ++ x :: after) (pnext : Uint256 → BlockPtr) :
    linkNext (fun e p => e :: p) before pnext x.1.hashBlock = pnext x.1.hashBlock := by
  have hmem : ∀ y ∈ before ++ x :: after, y ∈ BlockPtr.above pfork pnew := by
    intro y hy
    rw [← hrow] at hy
    exact List.mem_reverse.mp hy
  have hsorted : (before ++ x :: after).Pairwise (fun x y => x.1.nHeight < y.1.nHeight) := by
    rw [← hrow, List.pairwise_reverse]
    exact (BlockPtr.pairwise_above (ht.treeOk _ hnew).heightsOk pfork).1
  refine linkNext_eq_old (fun y hy _ hhash => ?_)
  obtain ⟨hyc, hyin⟩ := inTree_above ht hnew hs hne (hmem y (List.mem_append_left _ hy))
  obtain ⟨hxc, -⟩ := inTree_above ht hnew hs hne (hmem x (by simp))
  have heq : y.2 = x.1 :: x.2 := hyin.unique hxc hhash
  -- `y` would stand on `x`, but is lower
  have hlt := (List.pairwise_append.mp hsorted).2.2 y hy x List.mem_cons_self
  have hyh := (ht.treeOk _ hyc).heightsOk.1
  have hxh := (ht.treeOk _ hxc).heightsOk.1
  rw [heq, List.length_cons] at hyh
  omega

/-- **The transaction of `Reorganize`**: what is committed are the records with the links that memory gets afterwards. -/
theorem reorganizeStore_records (ht : g.TreeInv P) (hbest : g.InTree pbest) (hnew : g.InTree pnew)
    (hfork : BlockPtr.IsFork pfork pbest pnew) (hne : pfork ≠ []) (hs : s.InTxn c d)
    (hrec : g.RecordedAs g.pnext d) :
    Triple (reorganizeStore P H (BlockPtr.above pfork pbest) (BlockPtr.above pfork pnew).reverse pnew g) s
      (fun _ s' => g.RecordedAs (linkNext (fun e p => e :: p) (BlockPtr.above pfork pnew).reverse
        (linkNext (fun _ _ => []) (BlockPtr.above pfork pbest) g.pnext)) s'.txdb.committed)
      (fun _ _ => True) := by
  refine Triple.bind (disconnectBranch_records ?_ hs hrec) ?_
  · exact fun x hx _ => (inTree_above ht hbest hfork.left hne hx).2
  rintro _ s₁ ⟨d₁, hs₁, hrec₁⟩
  refine Triple.bind (connectBranch_records ?_ ?_ ?_ hs₁ hrec₁) ?_
  · exact fun x hx => (inTree_above ht hnew hfork.right hne (List.mem_reverse.mp hx)).1
  · exact fun x hx _ => (inTree_above ht hnew hfork.right hne (List.mem_reverse.mp hx)).2
  · intro before x after hrow
    have hx : x ∈ BlockPtr.above pfork pnew := by
      rw [← List.mem_reverse, hrow]
      simp
    calc linkNext (fun e p => e :: p) before (linkNext (fun _ _ => []) (BlockPtr.above pfork pbest) g.pnext)
          x.1.hashBlock
        = linkNext (fun _ _ => []) (BlockPtr.above pfork pbest) g.pnext x.1.hashBlock :=
          connected_link ht hnew hfork.right hne hrow _
      _ = g.pnext x.1.hashBlock := disconnected_link ht hbest hnew hfork hne hx _
  rintro _ s₂ ⟨d₂, hs₂, hrec₂⟩
  -- the hash of the best chain is written, and the transaction committed
  refine Triple.bind (Q := fun _ s₃ => s₃.InTxn c { d₂ with hashBestChain := some pnew.hash }) ?_ ?_
  · exact Host.require_bind (fun _ => hs₂.write _ (fun s₃ hs₃ _ => hs₃)) (fun _ => trivial)
  rintro _ s₃ hs₃
  refine Triple.bind (Q := fun _ s' => s'.txdb = ⟨{ d₂ with hashBestChain := some pnew.hash }, []⟩) ?_ ?_
  · exact hs₃.txnCommit (fun s' hs' _ => hs') (fun _ _ _ _ => trivial)
  rintro _ s' hs'
  change g.RecordedAs _ s'.txdb.committed
  rw [hs']
  exact hrec₂.congr rfl rfl

end Reorganize

/-! ### A call of `SetBestChain` -/

/-- The node is on the tree of `g`, and the committed records are those of the tree with the links in memory. -/
structure Node.Recorded (g : Globals) (n : Node) : Prop where
  mapBlockIndex : n.mapBlockIndex = g.mapBlockIndex
  files : n.files = g.files
  records : g.RecordedAs n.pnext n.txdb.committed

section Calls

variable {P : Params} {H : Host} {g : Globals} {n : Node} {block : CBlock} {pindex : CBlockIndex}
  {pprev pindexNew : BlockPtr} {d : TxDbData}

/-- Memory and the committed records are what matters. -/
theorem Node.Recorded.congr {n' : Node} (h : n.Recorded g) (hmap : n'.mapBlockIndex = n.mapBlockIndex)
    (hfiles : n'.files = n.files) (hnext : n'.pnext = n.pnext) (hcommitted : n'.txdb.committed = n.txdb.committed) :
    n'.Recorded g := by
  refine ⟨hmap.trans h.mapBlockIndex, hfiles.trans h.files, ?_⟩
  rw [hnext, hcommitted]
  exact h.records

theorem Node.Recorded.rejected {n' : Node} (h : n.Recorded g) (hrej : Rejected n.txdb.committed n n') :
    n'.Recorded g := by
  obtain ⟨bnBestInvalidTrust, hg⟩ := hrej.globals
  refine h.congr ?_ ?_ ?_ hrej.holds.committed
  all_goals rw [hg]

/-- The records of two nodes with one tree. -/
theorem Globals.RecordedAs.tree {g' : Globals} {next : Uint256 → BlockPtr} (h : g.RecordedAs next d)
    (hmap : ∀ hash, g'.mapBlockIndex.lookup hash = g.mapBlockIndex.lookup hash) : g'.RecordedAs next d := by
  refine ⟨fun e p hin => h.found e p ?_, fun hash r hr => ?_, h.checkpoint⟩
  · exact (hmap _).symm.trans hin
  · obtain ⟨p, hp, hhash⟩ := h.only hash r hr
    exact ⟨p, (hmap _).trans hp, hhash⟩

/-- **`SetBestChainInner`**: the link that is made afterwards is the one that was committed. -/
theorem setBestChainInner_records (h : n.Recorded g) (hs : n.toStore.InTxn n.txdb.committed n.txdb.committed)
    (hin : g.InTree (pindex :: pprev)) (hp : pprev ≠ [] → g.InTree pprev) :
    Triple (setBestChainInner P H block pindex pprev) n (fun _ n' => n'.Recorded g) (fun _ _ => True) := by
  have hinTree : ∀ p : BlockPtr, g.InTree p → n.toGlobals.InTree p := by
    intro p hp
    unfold Globals.InTree
    rw [h.mapBlockIndex]
    exact hp
  refine Triple.bind (Q := fun _ n₁ => n₁.toGlobals = n.toGlobals ∧ ∃ d', n₁.toStore.InTxn n.txdb.committed d' ∧
    n.toGlobals.RecordedAs (linkNext (fun e p => e :: p) [(pindex, pprev)] n.pnext) d') ?_ ?_
  · -- the disk part links the record of the parent
    refine Triple.onFailure (E := fun _ _ => True) (onStore_spec ?_) (fun _ _ _ _ => trivial) (fun _ _ _ _ => trivial)
    refine Triple.bind (connectBlock_records hs (h.records.tree fun _ => by rw [h.mapBlockIndex]) (hinTree _ hin)
      (fun hne => hinTree _ (hp hne)) rfl) ?_
    rintro _ s' ⟨d', hs', hrec'⟩
    refine Host.require_bind (fun _ => hs'.write _ (fun s'' hs'' _ => ?_)) (fun _ => trivial)
    exact ⟨rfl, _, hs'', hrec'.congr rfl rfl⟩
  · -- the commit keeps it, and then the link is made in memory
    rintro _ n₁ ⟨hglobals, d', hs₁, hrec₁⟩
    refine Triple.bind (Q := fun _ n₂ => n₂.toGlobals = n.toGlobals ∧ n₂.txdb = ⟨d', []⟩) ?_ ?_
    · exact onStore_spec (hs₁.txnCommit (fun s' hs' _ => ⟨hglobals, hs'⟩) (fun _ _ _ _ => trivial))
    · rintro _ n₂ ⟨hglobals₂, htxdb⟩
      cases pprev with
      | nil => trivial
      | cons e p =>
        refine ⟨?_, ?_, ?_⟩
        · change (n₂.toGlobals.setNext (e :: p) (pindex :: e :: p)).mapBlockIndex = _
          rw [hglobals₂]
          exact h.mapBlockIndex
        · change (n₂.toGlobals.setNext (e :: p) (pindex :: e :: p)).files = _
          rw [hglobals₂]
          exact h.files
        · change g.RecordedAs (n₂.toGlobals.setNext (e :: p) (pindex :: e :: p)).pnext n₂.txdb.committed
          rw [hglobals₂, htxdb]
          exact hrec₁.tree fun _ => by rw [h.mapBlockIndex]

/-- **`Reorganize`**: the links that are made afterwards are those that were committed. -/
theorem reorganize_records (h : n.Recorded g) (hs : n.toStore.InTxn n.txdb.committed n.txdb.committed)
    (ht : g.TreeInv P) (hbest : g.InTree n.pindexBest) (hnew : g.InTree pindexNew) :
    Triple (reorganize P H pindexNew) n (fun _ n' => n'.Recorded g) (fun _ _ => True) := by
  have hinTree : ∀ p : BlockPtr, g.InTree p → n.toGlobals.InTree p := by
    intro p hp
    unfold Globals.InTree
    rw [h.mapBlockIndex]
    exact hp
  -- the search for the fork ends at the lowest common ancestor
  have hroot := ht.rootedTree.rooted
  obtain ⟨pfork, hfind, hfork⟩ := BlockPtr.findFork_isFork (ht.treeOk _ hbest).heightsOk (ht.treeOk _ hnew).heightsOk
    (hroot _ hbest) (hroot _ hnew)
  obtain ⟨-, -, hne⟩ := BlockPtr.findFork_eq_ok hfind
  refine Triple.get_bind (Triple.lift_bind (fun pfork' hfind' => ?_) (fun _ _ => trivial))
  obtain rfl : pfork = pfork' := Except.ok.inj (hfind.symm.trans hfind')
  refine Triple.bind (Q := fun _ n₁ => n₁.toGlobals = n.toGlobals ∧ n.toGlobals.RecordedAs
    (linkNext (fun e p => e :: p) (BlockPtr.above pfork pindexNew).reverse
      (linkNext (fun _ _ => []) (BlockPtr.above pfork n.pindexBest) n.pnext)) n₁.txdb.committed) ?_ ?_
  · -- the loops of `Reorganize` write the records
    refine onStore_spec ((reorganizeStore_records (ht.congr h.mapBlockIndex h.files) (hinTree _ hbest)
      (hinTree _ hnew) hfork hne hs (h.records.tree fun _ => by rw [h.mapBlockIndex])).mono ?_ (fun _ _ _ => trivial))
    exact fun _ s' hrec' => ⟨rfl, hrec'⟩
  · -- and then the links in memory
    rintro ⟨disconnected, connected⟩ n₁ ⟨hglobals, hrec₁⟩
    have hrelink : n₁.toGlobals.reorganized P (BlockPtr.above pfork n.pindexBest)
        (BlockPtr.above pfork pindexNew).reverse disconnected connected =
          { n.toGlobals with
            pnext := linkNext (fun e p => e :: p) (BlockPtr.above pfork pindexNew).reverse
              (linkNext (fun _ _ => []) (BlockPtr.above pfork n.pindexBest) n.pnext)
            mempool := n.mempool.reorganized P disconnected connected } := by
      unfold Globals.reorganized
      rw [relink_eq, hglobals]
    refine ⟨?_, ?_, ?_⟩
    · change (n₁.toGlobals.reorganized P _ _ disconnected connected).mapBlockIndex = _
      rw [hrelink]
      exact h.mapBlockIndex
    · change (n₁.toGlobals.reorganized P _ _ disconnected connected).files = _
      rw [hrelink]
      exact h.files
    · change g.RecordedAs (n₁.toGlobals.reorganized P _ _ disconnected connected).pnext n₁.txdb.committed
      rw [hrelink]
      exact hrec₁.tree fun _ => by rw [h.mapBlockIndex]

/-- What a call that has begun its transaction starts from. -/
theorem Node.Recorded.txnBegin (h : n.Recorded g) (hv : n.txdb.vTxn = []) :
    Node.Recorded g { n with txdb := n.txdb.txnBegin } ∧
      Store.InTxn { n.toStore with txdb := n.txdb.txnBegin } n.txdb.committed n.txdb.committed := by
  refine ⟨h.congr rfl rfl rfl rfl, ?_⟩
  unfold Store.InTxn CTxDB.txnBegin CTxDB.view
  rw [hv]
  rfl

/-- **The loop over the postponed blocks**, wherever it stops. -/
theorem connectPostponed_records (ht : g.TreeInv P) (hin : g.InTree pindexNew) {row : List (CBlockIndex × BlockPtr)}
    (hrow : ∀ x ∈ row, x.1 :: x.2 <:+ pindexNew) (h : n.Recorded g) (hv : n.txdb.vTxn = []) :
    Triple (connectPostponed P H row) n (fun _ n' => n'.Recorded g)
      (fun e n' => e ≠ .assertion → n'.Recorded g) := by
  refine (connectPostponed_rule (I := fun row n => (∀ x ∈ row, x.1 :: x.2 <:+ pindexNew) ∧ n.Recorded g ∧
    n.txdb.vTxn = []) (F := fun n => n.Recorded g) (X := fun e n => e ≠ .assertion → n.Recorded g)
    (fun _ _ _ hI => hI.2.1) ?_ ⟨hrow, h, hv⟩).mono ?_ (fun _ _ h => h)
  · -- a round starts on what the last one committed
    rintro pindex pprev row n₁ block ⟨hrow, hn₁, hv₁⟩ -
    obtain ⟨hrec, hs⟩ := hn₁.txnBegin hv₁
    have hblock := hrow _ List.mem_cons_self
    have hpprev : pprev ≠ [] → g.InTree pprev :=
      fun hne => ht.suffix hin ((List.suffix_cons pindex pprev).trans hblock) hne
    refine ((setBestChainInner_spec hs).and (setBestChainInner_records hrec hs
      (ht.suffix hin hblock (by simp)) hpprev)).mono ?_ ?_
    · rintro _ n₂ ⟨⟨d', hext⟩, hrec₂⟩
      refine ⟨fun x hx => hrow x (List.mem_cons_of_mem _ hx), hrec₂, ?_⟩
      rw [hext.txdb]
    · rintro e n₂ ⟨⟨rfl, -⟩ | ⟨hrej, -⟩, -⟩
      · exact fun hne => absurd rfl hne
      · split_ifs
        · exact hrec.rejected hrej
        · exact fun _ => hrec.rejected hrej
  · -- at the end nothing is open
    rintro fComplete n₂ hI
    split_ifs at hI
    · exact hI.2.1
    · exact hI

/-- The three branches of `SetBestChain`, on a node that has a genesis block. -/
theorem setBestChainBranch_records (ht : g.TreeInv P) (h : n.Recorded g)
    (hs : n.toStore.InTxn n.txdb.committed n.txdb.committed) (hgen : n.pindexGenesisBlock ≠ [])
    (hbest : g.InTree n.pindexBest) (hin : g.InTree (pindex :: pprev)) :
    Triple (setBestChainBranch P H block (pindex :: pprev)) n (fun _ n' => n'.Recorded g)
      (fun e n' => e ≠ .assertion → n'.Recorded g) := by
  refine Triple.get_bind ?_
  rw [if_neg (fun hgen' => hgen hgen'.1)]
  split_ifs with hnext
  · -- the block follows on the best one
    refine Triple.bind (Triple.onFailure ((setBestChainInner_spec hs).and (setBestChainInner_records h hs hin
      (ht.closed pindex pprev hin))) ?_ ?_) (fun _ _ h' => h'.2)
    · rintro e n' ⟨⟨rfl, -⟩ | ⟨hrej, -⟩, -⟩ he
      · exact absurd he (by simp [Failure.isReturn])
      · exact fun _ => h.rejected hrej
    · rintro e n' ⟨⟨rfl, -⟩ | ⟨hrej, -⟩, -⟩ he
      · exact fun hne => absurd rfl hne
      · exact fun _ => h.rejected hrej
  · -- a reorganisation, and the blocks that were put off
    refine Triple.get_bind ?_
    obtain ⟨hsuffix, hne⟩ := BlockPtr.postpone_suffix n.pindexBest.bnChainTrust (pindex :: pprev)
    have hint := ht.suffix hin hsuffix (hne (by simp))
    refine Triple.bind (Triple.onFailure ((reorganize_spec hs).and (reorganize_records h hs ht hbest hint)) ?_ ?_) ?_
    · rintro e n' ⟨⟨hglobals, hholds, -⟩, -⟩ -
      exact fun _ => h.rejected (rejected_invalidChain (n := n) (pindex :: pprev) hholds hglobals).1
    · rintro e n' ⟨⟨hglobals, hholds, -⟩, -⟩ -
      exact fun _ => h.rejected ⟨hholds, n.bnBestInvalidTrust, hglobals⟩
    · rintro _ n' ⟨⟨pfork, d', hswitched⟩, hrec'⟩
      have hrow := congrArg List.reverse (BlockPtr.postpone_eq n.pindexBest.bnChainTrust (pindex :: pprev))
      refine connectPostponed_records ht hin (fun x hx => ?_) hrec' (by rw [hswitched.txdb])
      have hmem : x ∈ (BlockPtr.postpone n.pindexBest.bnChainTrust (pindex :: pprev)).1.reverse := hx
      rw [hrow, List.mem_reverse] at hmem
      exact ((BlockPtr.mem_above hsuffix (hne (by simp))).mp hmem).1

/-- **A call of `SetBestChain`**, whichever way it ends: the committed records are those of the tree with the links in
memory. -/
theorem setBestChain_records (ht : g.TreeInv P) (h : n.Recorded g) (hv : n.txdb.vTxn = [])
    (hgen : n.pindexGenesisBlock ≠ []) (hbest : g.InTree n.pindexBest) (hin : g.InTree (pindex :: pprev)) :
    Triple (setBestChain P H block (pindex :: pprev)) n (fun _ n' => n'.Recorded g)
      (fun e n' => e ≠ .assertion → n'.Recorded g) := by
  obtain ⟨hrec, hs⟩ := h.txnBegin hv
  refine Triple.bind (Q := fun _ n₁ => n₁ = { n with txdb := n.txdb.txnBegin }) ?_ ?_
  · exact onStore_spec (Host.require_bind (fun _ => rfl) (fun _ _ => h))
  rintro _ n₁ rfl
  refine Triple.bind (setBestChainBranch_records ht hrec hs hgen hbest hin) ?_
  intro fComplete n' hrec'
  exact hrec'.congr rfl rfl rfl rfl

end Calls

end Peershares
