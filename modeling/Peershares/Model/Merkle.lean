import Mathlib.Data.List.GetD
import Peershares.Model.Basic

/-!
# The Merkle tree of a block

`CBlock::BuildMerkleTree`, `GetMerkleBranch` and `CheckMerkleBranch` on the array `vMerkleTree`, which
holds the levels one after another. An access `vMerkleTree[..]` out of range is `none`.
-/

namespace Peershares

/-- `n & 1` of an `int`. -/
def lowBit (n : Int) : Int := n % 2

/-- `n ^ 1` of an `int`. -/
def flipLowBit (n : Int) : Int := if lowBit n = 0 then n + 1 else n - 1

/-- `v[i]`, for an `int` index. -/
def atIndex {α : Type} (v : List α) (i : Int) : Option α := if i < 0 then none else v[i.toNat]?

namespace CBlock

/-- `for (int i = 0; i < nSize; i += 2)`, from `i` on. -/
def pushMerkleRow (P : Params) (j nSize i : Int) (vMerkleTree : List Uint256) : Option (List Uint256) :=
  if i < nSize then do
    let i2 := min (i + 1) (nSize - 1)
    let left ← atIndex vMerkleTree (j + i)
    let right ← atIndex vMerkleTree (j + i2)
    pushMerkleRow P j nSize (i + 2) (vMerkleTree ++ [P.hashPair left right])
  else some vMerkleTree
termination_by (nSize - i).toNat
decreasing_by omega

/-- `for (int nSize = vtx.size(); nSize > 1; nSize = (nSize + 1) / 2)` of `BuildMerkleTree`. -/
def pushMerkleRows (P : Params) (j nSize : Int) (vMerkleTree : List Uint256) : Option (List Uint256) :=
  if 1 < nSize then do
    let vMerkleTree ← pushMerkleRow P j nSize 0 vMerkleTree
    pushMerkleRows P (j + nSize) ((nSize + 1).tdiv 2) vMerkleTree
  else some vMerkleTree
termination_by nSize.toNat
decreasing_by
  rw [Int.tdiv_eq_ediv_of_nonneg (by omega)]
  omega

/-- `vMerkleTree` after `BuildMerkleTree`. -/
def vMerkleTree (P : Params) (block : CBlock) : Option (List Uint256) :=
  pushMerkleRows P 0 block.vtx.length (block.vtx.map P.hashTx)

/-- What `BuildMerkleTree` returns: `vMerkleTree.empty() ? 0 : vMerkleTree.back()`. -/
def merkleBack (vMerkleTree : List Uint256) : Uint256 := vMerkleTree.getLastD 0

/-- The loop of `GetMerkleBranch`. -/
def merkleBranchFrom (vMerkleTree : List Uint256) (j nSize nIndex : Int) : Option (List Uint256) :=
  if 1 < nSize then do
    let i := min (flipLowBit nIndex) (nSize - 1)
    let otherside ← atIndex vMerkleTree (j + i)
    let vMerkleBranch ← merkleBranchFrom vMerkleTree (j + nSize) ((nSize + 1).tdiv 2) (nIndex / 2)
    return otherside :: vMerkleBranch
  else some []
termination_by nSize.toNat
decreasing_by
  rw [Int.tdiv_eq_ediv_of_nonneg (by omega)]
  omega

/-- `GetMerkleBranch`, with the array that an earlier call has left in the block, if any. -/
def getMerkleBranch (P : Params) (block : CBlock) (vMerkleTree : List Uint256) (nIndex : Int) :
    Option (List Uint256) := do
  let vMerkleTree ← if vMerkleTree.isEmpty then block.vMerkleTree P else some vMerkleTree
  merkleBranchFrom vMerkleTree 0 block.vtx.length nIndex

/-- The loop of `CheckMerkleBranch`; `nIndex >>= 1` rounds down. -/
def climbMerkleBranch (P : Params) : Int → Uint256 → List Uint256 → Uint256
  | _, hash, [] => hash
  | nIndex, hash, otherside :: vMerkleBranch =>
    climbMerkleBranch P (nIndex / 2)
      (if lowBit nIndex ≠ 0 then P.hashPair otherside hash else P.hashPair hash otherside) vMerkleBranch

def checkMerkleBranch (P : Params) (hash : Uint256) (vMerkleBranch : List Uint256) (nIndex : Int) : Uint256 :=
  if nIndex = -1 then 0 else climbMerkleBranch P nIndex hash vMerkleBranch

end CBlock

end Peershares
