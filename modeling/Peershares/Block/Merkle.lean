import Mathlib.Data.Nat.Pairing
import Peershares.Framework.Merkle
import Peershares.Model.Check
import Peershares.Model.Merkle

/-!
# Merkle roots and branches

The flat array `vMerkleTree` is the levels of the Merkle tree one after another. Its accesses stay in
range, the branch of a transaction verifies, and the root commits to the transactions.

* `pushMerkleRows_eq` — `BuildMerkleTree` appends the levels above the one it is at
* `merkleBranchFrom_eq` — `GetMerkleBranch` collects the siblings
* `getMerkleBranch_verifies` — a branch verifies
* `merkleRoot_commits` — one root, one list of transaction hashes
-/

open Framework

namespace Peershares

section Index

variable {α : Type} {front hs rest : List α}

/-- The array from the level at offset `front.length` on. -/
theorem atIndex_append {i : ℕ} (hi : i < hs.length) :
    atIndex (front ++ hs ++ rest) ((front.length : Int) + i) = hs[i]? := by
  unfold atIndex
  rw [if_neg (by omega), show ((front.length : Int) + i).toNat = front.length + i by omega, List.append_assoc,
    List.getElem?_append_right (Nat.le_add_right _ _), Nat.add_sub_cancel_left, List.getElem?_append_left hi]

end Index

namespace CBlock

variable {P : Params} {block : CBlock} {front hs : List Uint256}

/-- The rest of a level is appended, from node `i` on. -/
theorem pushMerkleRow_eq (rest : List Uint256) (i : ℕ) :
    pushMerkleRow P front.length hs.length i (front ++ hs ++ rest) =
      some (front ++ hs ++ rest ++ Merkle.level P.hashPair (hs.drop i)) := by
  induction hn : hs.length - i using Nat.strongRecOn generalizing rest i with
  | ind n ih =>
    rw [pushMerkleRow]
    by_cases hlt : i < hs.length
    · have hleft := List.getElem?_eq_getElem hlt
      -- the last node is its own sibling
      obtain ⟨right, hright⟩ : ∃ right, hs[min (i + 1) (hs.length - 1)]? = some right :=
        ⟨_, List.getElem?_eq_getElem (by omega)⟩
      have hi2 : min ((i : Int) + 1) ((hs.length : Int) - 1) = ((min (i + 1) (hs.length - 1) : ℕ) : Int) := by
        omega
      rw [if_pos (by exact_mod_cast hlt), hi2, Merkle.level_drop P.hashPair hleft hright]
      dsimp only
      rw [atIndex_append hlt, atIndex_append (by omega), hleft, hright]
      simp only [Option.bind_eq_bind, Option.bind_some]
      have hrow := ih _ (by omega) (rest ++ [P.hashPair hs[i] right]) (i + 2) rfl
      rw [Nat.cast_add, Nat.cast_ofNat] at hrow
      rw [List.append_assoc, hrow]
      simp
    · rw [if_neg (by exact_mod_cast hlt), List.drop_eq_nil_of_le (by omega)]
      simp [Merkle.level]

/-- **`BuildMerkleTree`** appends all the levels, without an access out of range. -/
theorem pushMerkleRows_eq :
    pushMerkleRows P front.length hs.length (front ++ hs) =
      some (front ++ (Merkle.levels P.hashPair hs).flatten) := by
  induction hs using Merkle.levels.induct P.hashPair generalizing front with
  | case1 hs hlt ih =>
    have hrow := @pushMerkleRow_eq P front hs [] 0
    rw [List.append_nil, List.drop_zero] at hrow
    rw [pushMerkleRows, if_pos (by exact_mod_cast hlt), Merkle.levels, if_pos hlt]
    simp only [Nat.cast_zero] at hrow
    simp only [hrow, Option.bind_eq_bind, Option.bind_some]
    have hsize : ((hs.length : Int) + 1).tdiv 2 = ((Merkle.level P.hashPair hs).length : ℕ) := by
      rw [Merkle.length_level, Int.tdiv_eq_ediv_of_nonneg (by omega)]
      omega
    have hoffset : (front.length : Int) + hs.length = ((front ++ hs).length : ℕ) := by simp
    rw [hsize, hoffset, ih]
    simp
  | case2 hs hle =>
    rw [pushMerkleRows, if_neg (by exact_mod_cast hle), Merkle.levels, if_neg hle]
    simp

/-- `BuildMerkleTree` lists the levels one after the other. -/
theorem vMerkleTree_eq :
    block.vMerkleTree P = some (Merkle.levels P.hashPair (block.vtx.map P.hashTx)).flatten := by
  unfold vMerkleTree
  have hrows := @pushMerkleRows_eq P [] (block.vtx.map P.hashTx)
  rw [List.length_map, List.nil_append, List.nil_append] at hrows
  exact hrows

/-- **`GetMerkleBranch`** collects the siblings, without an access out of range. -/
theorem merkleBranchFrom_eq (i : ℕ) :
    merkleBranchFrom (front ++ (Merkle.levels P.hashPair hs).flatten) front.length hs.length i =
      Merkle.branch P.hashPair i hs := by
  induction hs using Merkle.levels.induct P.hashPair generalizing front i with
  | case1 hs hlt ih =>
    -- sizes, offsets and indices are those of the list
    have hsize : ((hs.length : Int) + 1).tdiv 2 = ((Merkle.level P.hashPair hs).length : ℕ) := by
      rw [Merkle.length_level, Int.tdiv_eq_ediv_of_nonneg (by omega)]
      omega
    have hoffset : (front.length : Int) + hs.length = ((front ++ hs).length : ℕ) := by simp
    have hsibling : min (flipLowBit i) ((hs.length : Int) - 1) =
        ((min (Merkle.sibling i) (hs.length - 1) : ℕ) : Int) := by
      unfold flipLowBit lowBit Merkle.sibling
      split_ifs <;> omega
    have hhalf : (i : Int) / 2 = ((i / 2 : ℕ) : Int) := by omega
    rw [merkleBranchFrom, if_pos (by exact_mod_cast hlt), Merkle.branch, if_pos hlt, hsibling, hsize, hoffset,
      hhalf, Merkle.levels, if_pos hlt, List.flatten_cons, ← List.append_assoc]
    dsimp only
    rw [atIndex_append (by omega), ih]
  | case2 hs hle =>
    rw [merkleBranchFrom, if_neg (by exact_mod_cast hle), Merkle.branch, if_neg hle]

/-- The loop of `CheckMerkleBranch` climbs. -/
theorem climbMerkleBranch_eq (i : ℕ) (hash : Uint256) (vMerkleBranch : List Uint256) :
    climbMerkleBranch P i hash vMerkleBranch = Merkle.climb P.hashPair i hash vMerkleBranch := by
  induction vMerkleBranch generalizing i hash with
  | nil => rfl
  | cons otherside rest ih =>
    have hhalf : (i : Int) / 2 = ((i / 2 : ℕ) : Int) := by omega
    rw [climbMerkleBranch, Merkle.climb, hhalf, ih]
    unfold lowBit
    congr 1
    by_cases hodd : i % 2 = 1
    · rw [if_pos (by omega), if_pos hodd]
    · rw [if_neg (by omega), if_neg hodd]

/-- The levels of the array, against the root that `CheckBlock` compares. -/
theorem merkleLevel_eq (hs : List Uint256) : merkleLevel P hs = Merkle.level P.hashPair hs := by
  induction hs using merkleLevel.induct with
  | case1 => rfl
  | case2 a => rfl
  | case3 a b hs ih => rw [merkleLevel, Merkle.level, ih]

/-- The last hash of the loop is the root. -/
theorem merkleRoot_eq {nRounds : ℕ} (hle : hs.length ≤ nRounds + 1) :
    merkleRoot P nRounds hs = Merkle.root P.hashPair 0 hs := by
  induction nRounds generalizing hs with
  | zero =>
    rcases hs with _ | ⟨h, _ | ⟨h', hs⟩⟩
    · simp [merkleRoot, Merkle.root]
    · simp [merkleRoot, Merkle.root]
    · simp at hle
  | succ nRounds ih =>
    rcases hs with _ | ⟨a, _ | ⟨b, hs⟩⟩
    · simp [merkleRoot, Merkle.root]
    · simp [merkleRoot, Merkle.root]
    · have hlen := Merkle.length_level P.hashPair (a :: b :: hs)
      simp only [List.length_cons] at hle hlen
      rw [merkleRoot, merkleLevel_eq, ih (by omega), Merkle.root.eq_def P.hashPair 0 (a :: b :: hs),
        if_pos (by simp)]
      all_goals simp

/-- So `BuildMerkleTree` returns the root of the hashes. -/
theorem buildMerkleTree_eq_root :
    block.buildMerkleTree P = Merkle.root P.hashPair 0 (block.vtx.map P.hashTx) := by
  unfold buildMerkleTree
  exact merkleRoot_eq (by simp)

/-- What is left at the end of the array is the root that `CheckBlock` compares. -/
theorem merkleBack_vMerkleTree {tree : List Uint256} (h : block.vMerkleTree P = some tree) :
    merkleBack tree = block.buildMerkleTree P := by
  rw [vMerkleTree_eq] at h
  rw [← Option.some.inj h, buildMerkleTree_eq_root]
  exact Merkle.getLastD_levels _

/-- **Branches verify.** `BuildMerkleTree` stays in range, and so does `GetMerkleBranch` for a transaction
of the block, whether the array is there or has to be built; with the branch, the hash of the transaction
leads to the root. -/
theorem getMerkleBranch_verifies (P : Params) (block : CBlock) {i : ℕ} {tx : CTransaction}
    (htx : block.vtx[i]? = some tx) :
    ∃ tree vMerkleBranch, block.vMerkleTree P = some tree ∧
      (∀ cached, cached = [] ∨ cached = tree → block.getMerkleBranch P cached i = some vMerkleBranch) ∧
      checkMerkleBranch P (P.hashTx tx) vMerkleBranch i = merkleBack tree ∧
      merkleBack tree = block.buildMerkleTree P := by
  have hhash : (block.vtx.map P.hashTx)[i]? = some (P.hashTx tx) := by
    rw [List.getElem?_map, htx]
    rfl
  obtain ⟨vMerkleBranch, hbranch, hclimb⟩ : ∃ b, Merkle.branch P.hashPair i (block.vtx.map P.hashTx) = some b ∧
      Merkle.climb P.hashPair i (P.hashTx tx) b = Merkle.root P.hashPair 0 (block.vtx.map P.hashTx) :=
    Merkle.exists_branch hhash
  have hback := merkleBack_vMerkleTree (@vMerkleTree_eq P block)
  refine ⟨_, vMerkleBranch, vMerkleTree_eq, ?_, ?_, hback⟩
  · have hfrom := @merkleBranchFrom_eq P [] (block.vtx.map P.hashTx) i
    rw [List.nil_append, List.length_map, hbranch] at hfrom
    -- the cached array is missing, or is the one that would be built
    intro cached hcached
    unfold getMerkleBranch
    rcases hcached with rfl | rfl
    · simp only [List.isEmpty_nil, if_true, vMerkleTree_eq, Option.bind_eq_bind, Option.bind_some]
      exact hfrom
    · split_ifs
      · simp only [vMerkleTree_eq, Option.bind_eq_bind, Option.bind_some]
        exact hfrom
      · simp only [Option.bind_eq_bind, Option.bind_some]
        exact hfrom
  · unfold checkMerkleBranch
    rw [if_neg (by omega), climbMerkleBranch_eq, hclimb, hback, buildMerkleTree_eq_root]

/-! ### The root commits to the transactions -/

/-- **One root, one list.** Pairing is injective and no transaction hash is the hash of a pair. Then two
blocks without duplicate transactions that have the same root have the same transaction hashes, or one of
them is empty and the root of the other is the `0` that stands for no root. -/
theorem merkleRoot_commits (P : Params) (hpair : Function.Injective2 P.hashPair) (block block' : CBlock)
    (hleaf : ∀ tx ∈ block.vtx, ∀ a b, P.hashTx tx ≠ P.hashPair a b)
    (hleaf' : ∀ tx ∈ block'.vtx, ∀ a b, P.hashTx tx ≠ P.hashPair a b)
    (hunique : (block.vtx.map P.hashTx).Nodup) (hunique' : (block'.vtx.map P.hashTx).Nodup)
    (hroot : block.buildMerkleTree P = block'.buildMerkleTree P) :
    block.vtx.map P.hashTx = block'.vtx.map P.hashTx ∨
      block.vtx = [] ∧ block'.vtx ≠ [] ∧ block'.buildMerkleTree P = 0 ∨
      block'.vtx = [] ∧ block.vtx ≠ [] ∧ block.buildMerkleTree P = 0 := by
  -- an empty block has the root `0`
  have hzero : ∀ b : CBlock, b.vtx = [] → b.buildMerkleTree P = 0 := by
    intro b hb
    unfold buildMerkleTree
    rw [hb]
    rfl
  by_cases hne : block.vtx = []
  · by_cases hne' : block'.vtx = []
    · exact Or.inl (by rw [hne, hne'])
    · exact Or.inr (Or.inl ⟨hne, hne', by rw [← hroot, hzero block hne]⟩)
  · by_cases hne' : block'.vtx = []
    · exact Or.inr (Or.inr ⟨hne', hne, by rw [hroot, hzero block' hne']⟩)
    · -- both have transactions: their hashes are leaves of one root
      refine Or.inl ?_
      rw [buildMerkleTree_eq_root, buildMerkleTree_eq_root] at hroot
      refine Merkle.root_injective hpair (by simpa using hne) (by simpa using hne') ?_ ?_ hunique hunique' hroot
      · intro x hx
        obtain ⟨tx, htx, rfl⟩ := List.mem_map.mp hx
        exact hleaf tx htx
      · intro x hx
        obtain ⟨tx, htx, rfl⟩ := List.mem_map.mp hx
        exact hleaf' tx htx

section Sample

/-- Transactions hash to even numbers, pairs to odd ones. -/
def evenParams : Params where
  fTestNet := false
  hashTx tx := 2 * tx.nTime
  hashHeader _ _ _ _ _ nNonce := nNonce
  hashPair a b := 2 * Nat.pair a b + 1
  hash160 _ := List.replicate 20 0
  hash160_length _ := List.length_replicate
  verifyKey _ _ _ := true
  verifyScript _ _ _ _ _ := true

/-- The sample hash of pairs is injective. -/
theorem evenParams_injective : Function.Injective2 evenParams.hashPair := by
  intro a a' b b' h
  exact Nat.pair_eq_pair.mp (by simpa [evenParams] using h)

/-- And gives no transaction's hash. -/
theorem evenParams_leaf (tx : CTransaction) (a b : Uint256) : evenParams.hashTx tx ≠ evenParams.hashPair a b := by
  change 2 * tx.nTime ≠ 2 * Nat.pair a b + 1
  omega

/-- A block with transactions of these times. -/
def timedBlock (nNonce : ℕ) (times : List ℕ) : CBlock where
  hashPrevBlock := 0
  hashMerkleRoot := 0
  nTime := 0
  nBits := 0
  nNonce := nNonce
  vtx := times.map fun nTime => { nTime, vin := [], vout := [] }
  vchBlockSig := []

end Sample

/-- The second of three transactions: the levels have three nodes, two and one. -/
theorem getMerkleBranch_verifies_second :
    ∃ tree vMerkleBranch, (timedBlock 0 [1, 2, 3]).vMerkleTree evenParams = some tree ∧
      (∀ cached, cached = [] ∨ cached = tree →
        (timedBlock 0 [1, 2, 3]).getMerkleBranch evenParams cached (1 : ℕ) = some vMerkleBranch) ∧
      checkMerkleBranch evenParams 4 vMerkleBranch (1 : ℕ) = merkleBack tree ∧
      merkleBack tree = (timedBlock 0 [1, 2, 3]).buildMerkleTree evenParams :=
  @getMerkleBranch_verifies evenParams (timedBlock 0 [1, 2, 3]) 1 { nTime := 2, vin := [], vout := [] } rfl

/-- Two blocks with the same three transactions. -/
theorem merkleRoot_commits_three :
    (timedBlock 0 [1, 2, 3]).vtx.map evenParams.hashTx = (timedBlock 1 [1, 2, 3]).vtx.map evenParams.hashTx ∨
      (timedBlock 0 [1, 2, 3]).vtx = [] ∧ (timedBlock 1 [1, 2, 3]).vtx ≠ [] ∧
        (timedBlock 1 [1, 2, 3]).buildMerkleTree evenParams = 0 ∨
      (timedBlock 1 [1, 2, 3]).vtx = [] ∧ (timedBlock 0 [1, 2, 3]).vtx ≠ [] ∧
        (timedBlock 0 [1, 2, 3]).buildMerkleTree evenParams = 0 :=
  merkleRoot_commits evenParams evenParams_injective (timedBlock 0 [1, 2, 3]) (timedBlock 1 [1, 2, 3])
    (fun tx _ => evenParams_leaf tx) (fun tx _ => evenParams_leaf tx) (by decide) (by decide) rfl

/-- The root of a block whose one transaction hashes to `0` is that of a block without transactions. -/
theorem merkleRoot_empty :
    ¬ ∀ (P : Params), Function.Injective2 P.hashPair → ∀ block block' : CBlock,
      (∀ tx ∈ block.vtx, ∀ a b, P.hashTx tx ≠ P.hashPair a b) →
      (∀ tx ∈ block'.vtx, ∀ a b, P.hashTx tx ≠ P.hashPair a b) →
      (block.vtx.map P.hashTx).Nodup → (block'.vtx.map P.hashTx).Nodup →
      block.buildMerkleTree P = block'.buildMerkleTree P →
      block.vtx.map P.hashTx = block'.vtx.map P.hashTx := by
  intro hcommits
  have heq := hcommits evenParams evenParams_injective (timedBlock 0 []) (timedBlock 0 [0])
    (fun tx _ => evenParams_leaf tx) (fun tx _ => evenParams_leaf tx) (by decide) (by decide) rfl
  exact absurd heq (by decide)

end CBlock

end Peershares
