import Peershares.BestChain.Selection
import Peershares.Ledger.Chain
import Peershares.Model.Checkpoints

/-!
# The block tree of a node

What holds of `mapBlockIndex` and the block files in every state: the tree is closed under `pprev`, a
hash names one block, and every block is stored where its entry says. The links `pnext` are compared
with the chain below a block.

* `Globals.TreeInv` — the invariant, with `insert` and `store`
* `Linked`, `LinkedBelow` — the links of a chain are there, and there are no others
* `loadGenesis_spec` — the state `LoadBlockIndex` starts with
-/

open Framework Framework.Command

namespace Peershares

/-! ### Branches of one tree -/

namespace BlockPtr

/-- The lowest block above the fork comes last. -/
theorem above_concat {p q : BlockPtr} {e : CBlockIndex} (h : e :: q <:+ p) :
    above q p = above (e :: q) p ++ [(e, q)] := by
  induction p with
  | nil => exact absurd (List.suffix_nil.mp h) (by simp)
  | cons e' p ih =>
    rcases List.suffix_cons_iff.mp h with heq | hs
    · cases heq
      rw [above_cons e List.suffix_rfl, above_self, above_self]
      rfl
    · rw [above_cons e' ((List.suffix_cons e q).trans hs), above_cons e' hs, ih hs]
      rfl

/-- A branch to connect is empty or starts on the fork. -/
theorem above_reverse_cases {p q : BlockPtr} (h : q <:+ p) :
    (p = q ∧ (above q p).reverse = []) ∨
    ∃ e, e :: q <:+ p ∧ (above q p).reverse = (e, q) :: (above (e :: q) p).reverse := by
  by_cases heq : p = q
  · subst heq
    exact Or.inl ⟨rfl, by rw [above_self, List.reverse_nil]⟩
  · obtain ⟨front, rfl⟩ := h
    rcases List.eq_nil_or_concat front with rfl | ⟨front, e, rfl⟩
    · exact absurd (List.nil_append q) heq
    · have hs : e :: q <:+ front.concat e ++ q := ⟨front, by simp⟩
      refine Or.inr ⟨e, hs, ?_⟩
      rw [above_concat hs, List.reverse_append]
      rfl

end BlockPtr

/-! ### The tree -/

/-- The block is in `mapBlockIndex`. -/
def Globals.InTree (g : Globals) (p : BlockPtr) : Prop := g.mapBlockIndex.lookup p.hash = some p

/-- A hash names one block of the tree. -/
theorem Globals.InTree.unique {g : Globals} {p q : BlockPtr} (hp : g.InTree p) (hq : g.InTree q)
    (h : p.hash = q.hash) : p = q := by
  unfold Globals.InTree at hp hq
  rw [h, hq] at hp
  exact (Option.some.inj hp).symm

/-- What `ReadFromDisk` returned is stored, under the hash it was asked for. -/
theorem readFromDisk_eq_ok {P : Params} {H : Host} {files : BlockFiles} {pindex : CBlockIndex}
    {block : CBlock} (h : readFromDisk P H files pindex = .ok block) :
    files.readBlock pindex.nFile pindex.nBlockPos = some block ∧
      block.getHash P = pindex.hashBlock := by
  unfold readFromDisk at h
  simp only [Result.bind_eq_ok, require_eq_ok] at h
  obtain ⟨_, -, h⟩ := h
  cases hread : files.readBlock pindex.nFile pindex.nBlockPos with
  | none =>
    rw [hread] at h
    exact absurd h (by simp)
  | some block' =>
    rw [hread] at h
    simp only [Result.bind_eq_ok, require_eq_ok] at h
    obtain ⟨_, -, _, hhash, hpure⟩ := h
    cases hpure
    exact ⟨rfl, by simpa using hhash⟩

/-- The invariant of the block tree and the block files. -/
structure Globals.TreeInv (P : Params) (g : Globals) : Prop where
  files : g.files.WellFormed
  keyed : ∀ hash p, g.mapBlockIndex.lookup hash = some p → p.hash = hash
  treeOk : ∀ p, g.InTree p → TreeOk P g.files p
  closed : ∀ e p, g.InTree (e :: p) → p ≠ [] → g.InTree p
  /-- A block above genesis is stored with the hash of its parent, and has passed `CheckBlock`. -/
  stored : ∀ (e : CBlockIndex) (p : BlockPtr) (block : CBlock), g.InTree (e :: p) → p ≠ [] →
    g.files.readBlock e.nFile e.nBlockPos = some block →
    block.hashPrevBlock = p.hash ∧ ∃ nAdjustedTime, block.checkBlock P nAdjustedTime = .ok ()

namespace Globals.TreeInv

variable {P : Params} {g g' : Globals} {p q : BlockPtr}

/-- A part of a branch of the tree is in the tree. -/
theorem suffix (h : g.TreeInv P) (hp : g.InTree p) (hs : q <:+ p) (hne : q ≠ []) : g.InTree q := by
  induction p with
  | nil => exact absurd (List.suffix_nil.mp hs) hne
  | cons e p ih =>
    rcases List.suffix_cons_iff.mp hs with rfl | hs
    · exact hp
    · refine ih (h.closed e p hp ?_) hs
      rintro rfl
      exact hne (List.suffix_nil.mp hs)

/-- A branch of the tree has its genesis block. -/
theorem ne_nil (h : g.TreeInv P) (hp : g.InTree p) : p ≠ [] := (h.treeOk p hp).ne_nil

/-- The hash of a stored block is that of its entry. -/
theorem getHash_eq (h : g.TreeInv P) {pindex : CBlockIndex} {pprev : BlockPtr} {block : CBlock}
    (hin : g.InTree (pindex :: pprev))
    (hread : g.files.readBlock pindex.nFile pindex.nBlockPos = some block) :
    block.getHash P = pindex.hashBlock := by
  have htree := h.treeOk _ hin
  cases htree with
  | genesis hgen =>
    have heq : block = P.genesisBlock := Option.some.inj (hread.symm.trans hgen)
    rw [heq]
    rfl
  | accepted hprev hread' _ _ _ =>
    have heq := Option.some.inj (hread.symm.trans hread')
    rw [heq]
    rfl

/-- Only the tree and the files matter. -/
theorem congr (h : g.TreeInv P) (hmap : g'.mapBlockIndex = g.mapBlockIndex)
    (hfiles : g'.files = g.files) : g'.TreeInv P := by
  obtain ⟨hwf, hkeyed, htree, hclosed, hstored⟩ := h
  refine ⟨?_, ?_, ?_, ?_, ?_⟩
  · rw [hfiles]
    exact hwf
  all_goals
    unfold InTree at *
    rw [hmap]
    try rw [hfiles]
    assumption

/-- Writing a block to disk keeps the tree. -/
theorem store (h : g.TreeInv P) {block : CBlock} {files : BlockFiles} {nFile nBlockPos : ℕ}
    (hwrite : g.files.writeToDisk block = some (files, nFile, nBlockPos)) :
    Globals.TreeInv P { g with files } := by
  have hwf := h.files.writeToDisk hwrite
  have hsub := ChainState.writeToDisk_sub hwrite
  refine ⟨hwf, h.keyed, fun p hp => (h.treeOk p hp).mono hwf hsub, h.closed, ?_⟩
  intro e p block' hp hne hread
  obtain ⟨block₀, hread₀, -⟩ := (h.treeOk _ hp).cons_inv hne
  have hread₁ := ChainState.readBlock_mono hwf hsub hread₀
  rw [hread₁] at hread
  cases hread
  exact h.stored e p _ hp hne hread₀

/-- A new block that passed the checks of `AcceptBlock` keeps the invariant. -/
theorem insert (h : g.TreeInv P) {block : CBlock} {files : BlockFiles} {nFile nBlockPos : ℕ}
    {pprev : BlockPtr} {nBestHeight nAdjustedTime nAdjustedTime' : Int}
    (hprev : g.mapBlockIndex.lookup block.hashPrevBlock = some pprev)
    (hnew : g.mapBlockIndex.lookup (block.getHash P) = none)
    (hcheck : block.checkBlock P nAdjustedTime = .ok ())
    (hcontext : block.acceptBlockContext P nBestHeight nAdjustedTime' pprev = .ok ())
    (hwrite : g.files.writeToDisk block = some (files, nFile, nBlockPos)) :
    Globals.TreeInv P { g with
      files
      mapBlockIndex := g.mapBlockIndex.insert (block.getHash P)
        (block.newIndex P pprev nFile nBlockPos :: pprev) } := by
  -- the branch of the parent is in the old tree
  have hprevHash := h.keyed _ _ hprev
  have hprevIn : g.InTree pprev := by
    unfold InTree
    rw [hprevHash]
    exact hprev
  have hstore := h.store hwrite
  have hread := ChainState.readBlock_of_writeToDisk h.files hwrite
  obtain ⟨hkind, htime⟩ := CBlock.acceptBlockContext_eq_ok hcontext
  set pindexNew := block.newIndex P pprev nFile nBlockPos with hpindex
  -- a block of the new tree is the new block or one of the old tree
  have hcases : ∀ p : BlockPtr,
      ((g.mapBlockIndex.insert (block.getHash P) (pindexNew :: pprev)).lookup p.hash = some p) →
        p = pindexNew :: pprev ∨ g.InTree p := by
    intro p hp
    rw [Map.lookup_insert_eq] at hp
    split_ifs at hp with heq
    · exact Or.inl (Option.some.inj hp).symm
    · exact Or.inr hp
  -- no block of the old tree is replaced, as the hash is new
  have hold : ∀ p : BlockPtr, g.InTree p →
      (g.mapBlockIndex.insert (block.getHash P) (pindexNew :: pprev)).lookup p.hash = some p := by
    intro p hp
    rw [Map.lookup_insert_eq, if_neg]
    · exact hp
    · intro heq
      unfold InTree at hp
      rw [heq, hnew] at hp
      exact absurd hp (by simp)
  refine ⟨hstore.files, ?_, ?_, ?_, ?_⟩
  · -- every branch stands under its own hash
    intro hash p hp
    rw [Map.lookup_insert_eq] at hp
    split_ifs at hp with heq
    · cases hp
      exact heq.symm
    · exact h.keyed hash p hp
  · -- every branch is good
    intro p hp
    rcases hcases p hp with rfl | hp
    · exact TreeOk.accepted (hstore.treeOk pprev hprevIn) hread
        (CBlock.checked_of_checkBlock hcheck) hkind htime
    · exact hstore.treeOk p hp
  · -- the tree is closed under parents
    intro e p hp hne
    rcases hcases _ hp with heq | hp
    · cases heq
      exact hold pprev hprevIn
    · exact hold p (h.closed e p hp hne)
  · -- and its blocks have been checked
    intro e p block' hp hne hread'
    rcases hcases _ hp with heq | hp
    · cases heq
      have hsame : block' = block := Option.some.inj (hread'.symm.trans hread)
      rw [hsame]
      exact ⟨hprevHash.symm, nAdjustedTime, hcheck⟩
    · exact hstore.stored e p block' hp hne hread'

end Globals.TreeInv

/-! ### Links -/

/-- Every block of the chain below `p` is linked to its successor. -/
def Linked (pnext : Uint256 → BlockPtr) (p : BlockPtr) : Prop :=
  ∀ (e : CBlockIndex) (q : BlockPtr), e :: q <:+ p → q ≠ [] → pnext q.hash = e :: q

/-- Only blocks of the chain below `p` are linked. -/
def LinkedBelow (pnext : Uint256 → BlockPtr) (p : BlockPtr) : Prop :=
  ∀ hash, pnext hash ≠ [] → ∃ (e : CBlockIndex) (q : BlockPtr), e :: q <:+ p ∧ q ≠ [] ∧ q.hash = hash

section Links

variable {P : Params} {g : Globals} {p q : BlockPtr} {e : CBlockIndex} {pnext : Uint256 → BlockPtr}

/-- The link `SetBestChainInner` makes. -/
theorem Linked.extend (h : Linked pnext q) (ht : g.TreeInv P) (hin : g.InTree (e :: q))
    (hne : q ≠ []) : Linked (Function.update pnext q.hash (e :: q)) (e :: q) := by
  intro e' q' hs hne'
  have hq := ht.closed e q hin hne
  rcases List.suffix_cons_iff.mp hs with heq | hs
  · cases heq
    exact Function.update_self _ _ _
  · rw [Function.update_of_ne, h e' q' hs hne']
    intro hhash
    have hq' := ht.suffix hq ((List.suffix_cons e' q').trans hs) hne'
    have hlen := hs.length_le
    rw [hq'.unique hq hhash, List.length_cons] at hlen
    omega

/-- A new tip is linked to the block before. -/
theorem LinkedBelow.extend (h : LinkedBelow pnext q) (hne : q ≠ []) :
    LinkedBelow (Function.update pnext q.hash (e :: q)) (e :: q) := by
  intro hash hnext
  by_cases heq : hash = q.hash
  · exact ⟨e, q, List.suffix_rfl, hne, heq.symm⟩
  · rw [Function.update_of_ne heq] at hnext
    obtain ⟨e', q', hs, hne', hhash⟩ := h hash hnext
    exact ⟨e', q', hs.trans (List.suffix_cons e q), hne', hhash⟩

/-- The links after the row above a fork has been linked: the parents of the row have new links. -/
theorem linkNext_above {pfork : BlockPtr} {next : CBlockIndex → BlockPtr → BlockPtr}
    {row : List (CBlockIndex × BlockPtr)} (hrow : ∀ x, x ∈ row ↔ x ∈ BlockPtr.above pfork p)
    (ht : g.TreeInv P) (hp : g.InTree p) (hfork : pfork <:+ p) (hne : pfork ≠ [])
    (hs : e :: q <:+ p) (hq : pfork <:+ q) : linkNext next row pnext q.hash = next e q := by
  have hqne : q ≠ [] := by
    rintro rfl
    exact hne (List.suffix_nil.mp hq)
  refine linkNext_eq_next ((hrow _).mpr ((BlockPtr.mem_above hfork hne).mpr ⟨hs, hq⟩)) hqne ?_
  intro x hx hhash
  obtain ⟨hxs, hxq⟩ := (BlockPtr.mem_above hfork hne).mp ((hrow x).mp hx)
  have hxne : x.2 ≠ [] := by
    intro hnil
    rw [hnil] at hxq
    exact hne (List.suffix_nil.mp hxq)
  have hxin := ht.suffix hp ((List.suffix_cons x.1 x.2).trans hxs) hxne
  have hqin := ht.suffix hp ((List.suffix_cons e q).trans hs) hqne
  have heq := hxin.unique hqin hhash
  -- both successors are the part of the chain that is one longer
  have hlen : (x.1 :: x.2).length = (e :: q).length := by simp [heq]
  have hcons := List.suffix_of_suffix_length_le hxs hs (le_of_eq hlen)
  have hsame : x.1 :: x.2 = e :: q := hcons.eq_of_length hlen
  cases x
  cases hsame
  rfl

/-- A block strictly below the fork is no parent of the row above it. -/
theorem linkNext_below {pfork : BlockPtr} {next : CBlockIndex → BlockPtr → BlockPtr}
    {row : List (CBlockIndex × BlockPtr)} (hrow : ∀ x, x ∈ row ↔ x ∈ BlockPtr.above pfork p)
    (ht : g.TreeInv P) (hp : g.InTree p) (hfork : pfork <:+ p) (hne : pfork ≠ [])
    (hs : e :: q <:+ pfork) (hqne : q ≠ []) : linkNext next row pnext q.hash = pnext q.hash := by
  refine linkNext_eq_old (fun x hx hxne hhash => ?_)
  obtain ⟨hxs, hxq⟩ := (BlockPtr.mem_above hfork hne).mp ((hrow x).mp hx)
  have hxin := ht.suffix hp ((List.suffix_cons x.1 x.2).trans hxs) hxne
  have hqin := ht.suffix hp (((List.suffix_cons e q).trans hs).trans hfork) hqne
  have hlen := (hs.trans hxq).length_le
  rw [hxin.unique hqin hhash, List.length_cons] at hlen
  omega

/-- **The links after a reorganisation** are those of the new chain. -/
theorem Linked.relink {pbest pfork pnew : BlockPtr} (h : Linked pnext pbest) (ht : g.TreeInv P)
    (hbest : g.InTree pbest) (hnew : g.InTree pnew) (hfb : pfork <:+ pbest) (hfn : pfork <:+ pnew)
    (hne : pfork ≠ []) :
    Linked (linkNext (fun e p => e :: p) (BlockPtr.above pfork pnew).reverse
      (linkNext (fun _ _ => []) (BlockPtr.above pfork pbest) pnext)) pnew := by
  intro e q hs hqne
  have hrow : ∀ x, x ∈ (BlockPtr.above pfork pnew).reverse ↔ x ∈ BlockPtr.above pfork pnew :=
    fun x => List.mem_reverse
  -- above the fork a block is linked by the new branch
  rcases List.suffix_or_suffix_of_suffix hfn ((List.suffix_cons e q).trans hs) with hq | hq
  · exact linkNext_above hrow ht hnew hfn hne hs hq
  · by_cases heq : q = pfork
    · exact linkNext_above hrow ht hnew hfn hne hs (heq ▸ List.suffix_rfl)
    · -- strictly below the fork nothing is cut and nothing is linked
      have hs' : e :: q <:+ pfork := by
        rcases List.suffix_or_suffix_of_suffix hfn hs with hsub | hsub
        · rcases List.suffix_cons_iff.mp hsub with hcons | hsub
          · exact hcons ▸ List.suffix_rfl
          · exact absurd (hq.eq_of_length_le hsub.length_le) heq
        · exact hsub
      rw [linkNext_below hrow ht hnew hfn hne hs' hqne,
        linkNext_below (fun x => Iff.rfl) ht hbest hfb hne hs' hqne]
      exact h e q (hs'.trans hfb) hqne

/-- The loops of `Reorganize` link the new branch. -/
theorem LinkedBelow.relink {pbest pfork pnew : BlockPtr} (h : LinkedBelow pnext pbest)
    (ht : g.TreeInv P) (hbest : g.InTree pbest) (hfb : pfork <:+ pbest) (hfn : pfork <:+ pnew)
    (hne : pfork ≠ []) :
    LinkedBelow (linkNext (fun e p => e :: p) (BlockPtr.above pfork pnew).reverse
      (linkNext (fun _ _ => []) (BlockPtr.above pfork pbest) pnext)) pnew := by
  intro hash hnext
  -- the link was made by the new branch
  by_cases hlinked : ∃ x ∈ BlockPtr.above pfork pnew, x.2 ≠ [] ∧ BlockPtr.hash x.2 = hash
  · obtain ⟨x, hx, hxne, hxhash⟩ := hlinked
    exact ⟨x.1, x.2, ((BlockPtr.mem_above hfn hne).mp hx).1, hxne, hxhash⟩
  · -- the link was there before it
    have hold : linkNext (fun e p => e :: p) (BlockPtr.above pfork pnew).reverse
        (linkNext (fun _ _ => []) (BlockPtr.above pfork pbest) pnext) hash =
          linkNext (fun _ _ => []) (BlockPtr.above pfork pbest) pnext hash := by
      refine linkNext_eq_old (fun x hx hxne hhash => hlinked ⟨x, ?_, hxne, hhash⟩)
      exact List.mem_reverse.mp hx
    rw [hold] at hnext
    by_cases hcut : ∃ x ∈ BlockPtr.above pfork pbest, x.2 ≠ [] ∧ BlockPtr.hash x.2 = hash
    · -- a link of the branch that was left has been cut
      obtain ⟨x, hx, -, rfl⟩ := hcut
      obtain ⟨hxs, hxq⟩ := (BlockPtr.mem_above hfb hne).mp hx
      rw [linkNext_above (fun x => Iff.rfl) ht hbest hfb hne hxs hxq] at hnext
      exact absurd rfl hnext
    · rw [linkNext_eq_old (fun x hx hxne hhash => hcut ⟨x, hx, hxne, hhash⟩)] at hnext
      obtain ⟨e, q, hs, hqne, rfl⟩ := h hash hnext
      have hnq : ¬pfork <:+ q := fun hq =>
        hcut ⟨(e, q), (BlockPtr.mem_above hfb hne).mpr ⟨hs, hq⟩, hqne, rfl⟩
      -- and what is below the fork belongs to both chains
      rcases List.suffix_or_suffix_of_suffix hfb hs with hsub | hsub
      · rcases List.suffix_cons_iff.mp hsub with hcons | hsub
        · exact ⟨e, q, (hcons ▸ List.suffix_rfl : e :: q <:+ pfork).trans hfn, hqne, rfl⟩
        · exact absurd hsub hnq
      · exact ⟨e, q, hsub.trans hfn, hqne, rfl⟩

end Links

/-! ### The first state -/

/-- The globals with genesis as the only block. -/
def Params.genesisGlobals (P : Params) : Globals where
  mapBlockIndex := (∅ : Map Uint256 BlockPtr).insert P.hashGenesisBlock [P.genesisIndex]
  pindexGenesisBlock := [P.genesisIndex]
  pindexBest := [P.genesisIndex]
  hashBestChain := P.hashGenesisBlock
  nBestHeight := 0
  bnBestChainTrust := P.genesisIndex.bnChainTrust
  files := P.genesisFiles
  hashSyncCheckpoint := P.hashGenesisBlock

/-- The state `LoadBlockIndex` leaves on an empty database. -/
structure Loaded (P : Params) (H : Host) (n : Node) : Prop where
  globals : n.toGlobals = P.genesisGlobals
  vTxn : n.txdb.vTxn = []
  txIndex : n.txdb.committed.txIndex = ∅
  hashBestChain : n.txdb.committed.hashBestChain =
    if H.io (.writeHashBestChain P.hashGenesisBlock) then some P.hashGenesisBlock else none
  wallets : n.wallets = []

/-- The genesis block is the first of the first file. -/
theorem writeToDisk_genesis (P : Params) :
    ({} : Node).files.writeToDisk P.genesisBlock = some (P.genesisFiles, 1, 8) := rfl

/-- It has a positive trust. -/
theorem genesisIndex_trust_pos (P : Params) : 0 < P.genesisIndex.bnChainTrust := by
  change 0 < (0 : Int) + getBlockTrust (getCompact bnProofOfWorkLimit) P.genesisBlock.isProofOfStake
  have hkind : P.genesisBlock.isProofOfStake = false := rfl
  rw [hkind]
  decide

/-- And is alone in the tree. -/
theorem inTree_genesisGlobals {P : Params} {p : BlockPtr} :
    P.genesisGlobals.InTree p ↔ p = [P.genesisIndex] := by
  unfold Globals.InTree Params.genesisGlobals
  rw [Map.lookup_insert_eq]
  constructor
  · intro h
    split_ifs at h
    · exact (Option.some.inj h).symm
    · exact absurd h (by simp)
  · rintro rfl
    exact if_pos rfl

/-- Which is a tree. -/
theorem genesisGlobals_treeInv (P : Params) : P.genesisGlobals.TreeInv P := by
  refine ⟨ChainState.genesisFiles_wellFormed P, ?_, ?_, ?_, ?_⟩
  · intro hash p h
    unfold Params.genesisGlobals at h
    rw [Map.lookup_insert_eq] at h
    split_ifs at h with heq
    · cases h
      exact heq.symm
    · exact absurd h (by simp)
  · intro p hp
    rw [inTree_genesisGlobals.mp hp]
    exact TreeOk.genesis rfl
  · intro e p hp hne
    exact absurd (List.cons.inj (inTree_genesisGlobals.mp hp)).2 hne
  · intro e p block hp hne _
    exact absurd (List.cons.inj (inTree_genesisGlobals.mp hp)).2 hne

/-- A chain of one block has no links. -/
theorem Linked.singleton (pnext : Uint256 → BlockPtr) (e : CBlockIndex) : Linked pnext [e] := by
  intro e' q hs hne
  have hlen := hs.length_le
  have hpos := List.length_pos_of_ne_nil hne
  simp only [List.length_cons, List.length_nil] at hlen
  omega

/-- **The state `LoadBlockIndex` starts with.** -/
theorem loadGenesis_spec (P : Params) (H : Host) :
    Triple (loadGenesis P H) {} (fun _ n => Loaded P H n) (fun _ _ => True) := by
  refine Triple.get_bind ?_
  rw [writeToDisk_genesis P]
  refine Triple.modify_bind (Triple.bind (Triple.onFailure (addToBlockIndex_rule
    (E := fun _ _ => True)
    (Q := fun _ n => n.toGlobals = { P.genesisGlobals with hashSyncCheckpoint := 0 } ∧
      n.txdb.vTxn = [] ∧ n.txdb.committed.txIndex = ∅ ∧ n.txdb.committed.hashBestChain =
        (if H.io (.writeHashBestChain P.hashGenesisBlock) then some P.hashGenesisBlock else none) ∧
      n.wallets = [])
    rfl rfl rfl (fun _ _ => trivial) (fun _ _ _ => trivial) ?_ ?_)
    (fun _ _ _ _ => trivial) (fun _ _ _ _ => trivial)) ?_)
  · -- genesis has more trust than nothing
    intro c' _ _ hle
    exact absurd hle (not_le.mpr (genesisIndex_trust_pos P))
  · rintro c' ⟨htx, hbest⟩ _ _
    refine setBestChain_rule rfl ?_ ?_ ?_ ?_ ?_
    · -- the genesis block is the best one
      rintro n' ⟨-, hglobals, htxdb, hwallets⟩
      refine ⟨?_, rfl, ?_, ?_, hwallets⟩
      · change n'.toGlobals.newBest _ _ = _
        rw [hglobals]
        rfl
      · change n'.txdb.committed.txIndex = _
        rw [htxdb]
        exact htx
      · change n'.txdb.committed.hashBestChain = _
        rw [htxdb]
        change (if _ then _ else c'.hashBestChain) = _
        rw [hbest]
        rfl
    · -- there is no chain to extend, or to leave
      intro pindex pprev n' d' hnew hprev hext
      cases hnew
      exact absurd rfl hext.pprev_ne
    · intro p pfork n' d' _ _ hswitched
      exact absurd hswitched.fork (by simp [Node.indexed, Node.insertBlockIndex, BlockPtr.findFork])
    · intro e n' _
      split_ifs
    · intro n'
      trivial
  · -- then the checkpoint is written
    rintro _ n ⟨hglobals, hvTxn, htx, hbest, hwallets⟩
    refine Triple.onFailure (E := fun _ _ => True) ?_ (fun _ _ _ _ => trivial) (fun _ _ _ _ => trivial)
    refine Host.require_bind (fun _ => Host.require_bind (fun _ => ?_) (fun _ => trivial))
      (fun _ => trivial)
    refine ⟨?_, hvTxn, htx, hbest, hwallets⟩
    change { n.toGlobals with hashSyncCheckpoint := P.hashGenesisBlock } = _
    rw [hglobals]
    rfl
end Peershares
