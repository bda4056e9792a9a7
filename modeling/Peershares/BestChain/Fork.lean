import Peershares.BestChain.Ancestry

/-!
# The fork of two branches

`Reorganize` walks down from both blocks: the new branch to the height where the best one stands, then the best one
by a block, until they meet. In a tree with one genesis block they do meet, at the lowest common ancestor, and the lists
of blocks to disconnect and to connect are the two branches above it.

* `BlockPtr.IsFork` — the lowest common ancestor
* `BlockPtr.findFork_isFork` — the walk ends there
* `reorganize_fork` — the fork and both lists
-/

open Framework

namespace Peershares

namespace BlockPtr

/-- The ancestors of `pfork` are those that both blocks have. -/
def IsFork (pfork p q : BlockPtr) : Prop := ∀ r : BlockPtr, r <:+ pfork ↔ r <:+ p ∧ r <:+ q

/-- The fork lies on the one chain. -/
theorem IsFork.left {pfork p q : BlockPtr} (h : IsFork pfork p q) : pfork <:+ p :=
  ((h pfork).mp List.suffix_rfl).1

/-- And on the other. -/
theorem IsFork.right {pfork p q : BlockPtr} (h : IsFork pfork p q) : pfork <:+ q :=
  ((h pfork).mp List.suffix_rfl).2

/-- The fork of a block and an ancestor is the ancestor. -/
theorem isFork_of_suffix {p q : BlockPtr} (h : p <:+ q) : IsFork p p q :=
  fun _ => ⟨fun hr => ⟨hr, hr.trans h⟩, fun hr => hr.1⟩

/-- Two ancestors of one block with one length are the same. -/
theorem suffix_unique {p q r : BlockPtr} (hp : p <:+ r) (hq : q <:+ r) (hlen : p.length = q.length) : p = q :=
  (List.suffix_of_suffix_length_le hp hq hlen.le).eq_of_length hlen

/-- A round of the search: the new branch comes down to `q'`, the best one by a block, and no common ancestor is
passed. -/
theorem isFork_step {e : CBlockIndex} {p q q' pfork : BlockPtr} (hs : q' <:+ q)
    (hlen : q'.length = min q.length (p.length + 1)) (hne : e :: p ≠ q') (h : IsFork pfork p q') :
    IsFork pfork (e :: p) q := by
  intro r
  rw [h r]
  constructor
  · rintro ⟨hp, hq⟩
    exact ⟨hp.trans (List.suffix_cons e p), hq.trans hs⟩
  · rintro ⟨hp, hq⟩
    have hle := hq.length_le
    rcases List.suffix_cons_iff.mp hp with rfl | hp
    · -- the best branch stands on the new one, so the new one has come down to it
      refine absurd (suffix_unique hq hs ?_) hne
      rw [List.length_cons] at hle ⊢
      omega
    · have hle' := hp.length_le
      exact ⟨hp, List.suffix_of_suffix_length_le hq hs (by omega)⟩

/-- **The search ends at the fork** when the heights count down and both branches have one genesis block. -/
theorem findFork_isFork {p q : BlockPtr} {genesis : CBlockIndex} (hp : p.HeightsOk) (hq : q.HeightsOk)
    (hroot : [genesis] <:+ p) (hroot' : [genesis] <:+ q) :
    ∃ pfork, findFork p q = .ok pfork ∧ IsFork pfork p q := by
  induction p generalizing q with
  | nil => exact absurd (List.suffix_nil.mp hroot) (by simp)
  | cons e p ih =>
    have hne : q ≠ [] := by
      rintro rfl
      exact absurd (List.suffix_nil.mp hroot') (by simp)
    rw [findFork]
    split_ifs with heq
    · exact ⟨e :: p, rfl, isFork_of_suffix (heq ▸ List.suffix_rfl)⟩
    · obtain ⟨q', hlower, hs, hlen⟩ := lowerTo_of_heightsOk hq hne e.nHeight
      rw [hlower]
      dsimp only
      rw [hp.1] at hlen
      have hge := hroot'.length_le
      rw [List.length_singleton] at hge
      split_ifs with heq'
      · exact ⟨e :: p, rfl, isFork_of_suffix (heq' ▸ hs)⟩
      · have hgenesis : [genesis] <:+ q' := by
          refine List.suffix_of_suffix_length_le hroot' hs ?_
          rw [List.length_singleton]
          omega
        rcases List.suffix_cons_iff.mp hroot with heq₀ | hroot
        · -- at genesis the new branch has come down to it too
          obtain ⟨rfl, rfl⟩ := List.cons.inj heq₀
          refine absurd (suffix_unique hroot' hs ?_) heq'
          rw [hlen, List.length_nil, List.length_singleton]
          omega
        · obtain ⟨pfork, hfind, hfork⟩ := ih hp.2 (hq.suffix hs) hroot hgenesis
          exact ⟨pfork, hfind, isFork_step hs hlen heq' hfork⟩

/-- A height is below the number of blocks. -/
theorem HeightsOk.lt_length {p : BlockPtr} (h : p.HeightsOk) : ∀ e ∈ p, e.nHeight < p.length := by
  intro e he
  have hle := h.le e he
  have hlen := h.length_eq (List.ne_nil_of_mem he)
  omega

/-- The blocks of a branch stand from the highest to the lowest. -/
theorem pairwise_above {p : BlockPtr} (hp : p.HeightsOk) (pfork : BlockPtr) :
    (above pfork p).Pairwise (fun x y => y.1.nHeight < x.1.nHeight) ∧ ∀ x ∈ above pfork p, x.1 ∈ p := by
  induction p with
  | nil => exact ⟨List.Pairwise.nil, by simp [above]⟩
  | cons e p ih =>
    obtain ⟨hsorted, hmem⟩ := ih hp.2
    rw [above]
    split_ifs
    · exact ⟨List.Pairwise.nil, by simp⟩
    · refine ⟨List.Pairwise.cons (fun x hx => ?_) hsorted, ?_⟩
      · rw [hp.1]
        exact hp.2.lt_length x.1 (hmem x hx)
      · refine List.forall_mem_cons.mpr ⟨by simp, fun x hx => ?_⟩
        exact List.mem_cons_of_mem e (hmem x hx)

end BlockPtr

/-- A well-formed tree with one genesis block. -/
structure Globals.RootedTree (g : Globals) (genesis : CBlockIndex) : Prop extends g.TreeShape where
  rooted : ∀ p, g.InTree p → [genesis] <:+ p

/-- Every branch ends at the genesis block. -/
theorem TreeOk.rooted {P : Params} {files : BlockFiles} {p : BlockPtr} (h : TreeOk P files p) :
    [P.genesisIndex] <:+ p := by
  induction h with
  | genesis _ => exact List.suffix_rfl
  | accepted _ _ _ _ _ ih => exact ih.trans (List.suffix_cons _ _)

/-- The tree of a running node has one genesis block. -/
theorem Globals.TreeInv.rootedTree {P : Params} {g : Globals} (h : g.TreeInv P) : g.RootedTree P.genesisIndex :=
  ⟨h.treeShape, fun p hp => (h.treeOk p hp).rooted⟩

/-- **The fork and the branches** of two blocks of a tree. The search returns no error; `pfork` is their lowest common
ancestor; the lists hold the blocks strictly above it, the best branch from its top, the new one from its bottom. -/
theorem reorganize_fork {g : Globals} {genesis : CBlockIndex} {pindexBest pindexNew : BlockPtr}
    (h : g.RootedTree genesis) (hbest : g.InTree pindexBest) (hnew : g.InTree pindexNew) :
    ∃ pfork, BlockPtr.findFork pindexBest pindexNew = .ok pfork ∧ g.InTree pfork ∧
      BlockPtr.IsFork pfork pindexBest pindexNew ∧
      (∀ x, x ∈ BlockPtr.above pfork pindexBest ↔ x.1 :: x.2 <:+ pindexBest ∧ pfork <:+ x.2) ∧
      (BlockPtr.above pfork pindexBest).Pairwise (fun x y => y.1.nHeight < x.1.nHeight) ∧
      (∀ x, x ∈ (BlockPtr.above pfork pindexNew).reverse ↔ x.1 :: x.2 <:+ pindexNew ∧ pfork <:+ x.2) ∧
      (BlockPtr.above pfork pindexNew).reverse.Pairwise (fun x y => x.1.nHeight < y.1.nHeight) := by
  have hbest' := h.heights pindexBest hbest
  have hnew' := h.heights pindexNew hnew
  obtain ⟨pfork, hfind, hfork⟩ := BlockPtr.findFork_isFork hbest' hnew' (h.rooted _ hbest) (h.rooted _ hnew)
  obtain ⟨-, -, hne⟩ := BlockPtr.findFork_eq_ok hfind
  refine ⟨pfork, hfind, h.toTreeShape.suffix hbest hfork.left hne, hfork, ?_, ?_, ?_, ?_⟩
  · intro x
    exact BlockPtr.mem_above hfork.left hne
  · exact (BlockPtr.pairwise_above hbest' pfork).1
  · intro x
    rw [List.mem_reverse]
    exact BlockPtr.mem_above hfork.right hne
  · rw [List.pairwise_reverse]
    exact (BlockPtr.pairwise_above hnew' pfork).1

namespace Sample

/-- A rival of the upper block, which is lower than the block on top of that. -/
def rivalBlock : BlockPtr := indexOf 3 1 :: lowerBlock

def thirdBlock : BlockPtr := indexOf 4 2 :: upperBlock

/-- A tree with two branches. -/
def forkedTree : Globals :=
  { mapBlockIndex := (twoBlocks.mapBlockIndex.insert (3 : ℕ) rivalBlock).insert (4 : ℕ) thirdBlock }

/-- The sample index with two branches. -/
theorem lookup_forkedTree {hash : Uint256} {p : BlockPtr} (h : forkedTree.mapBlockIndex.lookup hash = some p) :
    (hash = 4 ∧ p = thirdBlock) ∨ (hash = 3 ∧ p = rivalBlock) ∨ (hash = 2 ∧ p = upperBlock) ∨
      (hash = 1 ∧ p = lowerBlock) := by
  unfold forkedTree at h
  rw [Map.lookup_insert_eq, Map.lookup_insert_eq] at h
  split_ifs at h with hfour hthree
  · exact Or.inl ⟨hfour, (Option.some.inj h).symm⟩
  · exact Or.inr (Or.inl ⟨hthree, (Option.some.inj h).symm⟩)
  · exact Or.inr (Or.inr (lookup_twoBlocks h))

/-- Its four blocks. -/
theorem inTree_forkedTree : ∀ p ∈ [thirdBlock, rivalBlock, upperBlock, lowerBlock], forkedTree.InTree p := by
  unfold Globals.InTree
  decide

/-- It is a tree. -/
theorem rootedTree_forkedTree : forkedTree.RootedTree (indexOf 1 0) := by
  refine ⟨⟨?_, ?_, ?_⟩, ?_⟩
  · intro hash p h
    obtain ⟨rfl, rfl⟩ | ⟨rfl, rfl⟩ | ⟨rfl, rfl⟩ | ⟨rfl, rfl⟩ := lookup_forkedTree h <;> exact ⟨rfl, by decide⟩
  · intro e p hin hne
    obtain ⟨-, heq⟩ | ⟨-, heq⟩ | ⟨-, heq⟩ | ⟨-, heq⟩ := lookup_forkedTree hin
    · cases heq
      exact inTree_forkedTree upperBlock (by simp)
    · cases heq
      exact inTree_forkedTree lowerBlock (by simp)
    · cases heq
      exact inTree_forkedTree lowerBlock (by simp)
    · cases heq
      exact absurd rfl hne
  · intro p hin
    obtain ⟨-, rfl⟩ | ⟨-, rfl⟩ | ⟨-, rfl⟩ | ⟨-, rfl⟩ := lookup_forkedTree hin
    · exact ⟨rfl, rfl, rfl, trivial⟩
    · exact ⟨rfl, rfl, trivial⟩
    · exact ⟨rfl, rfl, trivial⟩
    · exact ⟨rfl, trivial⟩
  · intro p hin
    obtain ⟨-, rfl⟩ | ⟨-, rfl⟩ | ⟨-, rfl⟩ | ⟨-, rfl⟩ := lookup_forkedTree hin <;> decide

end Sample

/-- The new branch is the shorter one. -/
theorem reorganize_fork_shorter :
    ∃ pfork, BlockPtr.findFork Sample.thirdBlock Sample.rivalBlock = .ok pfork ∧ Sample.forkedTree.InTree pfork ∧
      BlockPtr.IsFork pfork Sample.thirdBlock Sample.rivalBlock ∧
      (∀ x, x ∈ BlockPtr.above pfork Sample.thirdBlock ↔ x.1 :: x.2 <:+ Sample.thirdBlock ∧ pfork <:+ x.2) ∧
      (BlockPtr.above pfork Sample.thirdBlock).Pairwise (fun x y => y.1.nHeight < x.1.nHeight) ∧
      (∀ x, x ∈ (BlockPtr.above pfork Sample.rivalBlock).reverse ↔
        x.1 :: x.2 <:+ Sample.rivalBlock ∧ pfork <:+ x.2) ∧
      (BlockPtr.above pfork Sample.rivalBlock).reverse.Pairwise (fun x y => x.1.nHeight < y.1.nHeight) :=
  reorganize_fork Sample.rootedTree_forkedTree (Sample.inTree_forkedTree _ (by simp))
    (Sample.inTree_forkedTree _ (by simp))

end Peershares
