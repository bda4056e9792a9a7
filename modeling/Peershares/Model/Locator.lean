import Peershares.Framework.Loop
import Peershares.Model.Checkpoints

/-!
# Block locators

`CBlockLocator`: the hashes a node sends so that another one finds a recent common block. The counters
`nStep` and `nDistance` are `int`s; on the locator of a chain they stay below twice its length.
-/

open Framework

namespace Peershares

structure CBlockLocator where
  vHave : List Uint256
deriving DecidableEq, Repr

namespace CBlockLocator

/-- The variables of `Set`. -/
structure SetState where
  pindex : BlockPtr
  nStep : Nat := 1
  vHave : List Uint256 := []
deriving DecidableEq, Repr

/-- One round of `while (pindex)`. The inner loop `pindex && i < nStep` goes `nStep` blocks back and
stops at `NULL`. -/
def setRound (s : SetState) : SetState ⊕ List Uint256 :=
  match s.pindex with
  | [] => .inr s.vHave
  | pindex :: pprev =>
    let vHave := s.vHave ++ [pindex.hashBlock]
    .inl {
      pindex := (pindex :: pprev).drop s.nStep
      nStep := if 10 < vHave.length then s.nStep * 2 else s.nStep
      vHave }

/-- `CBlockLocator::Set`. -/
def set (P : Params) (fuel : Nat) (pindex : BlockPtr) : Option CBlockLocator :=
  (loop setRound fuel { pindex }).map fun vHave => ⟨vHave ++ [P.hashGenesisBlock]⟩

/-- The loop of `GetDistanceBack`. -/
def distanceBackFrom (g : Globals) : List Uint256 → Nat → Nat → Nat
  | [], nDistance, _ => nDistance
  | hash :: vHave, nDistance, nStep =>
    match g.mapBlockIndex.lookup hash with
    | some pindex =>
      if g.isInMainChain pindex then nDistance
      else distanceBackFrom g vHave (nDistance + nStep) (if 10 < nDistance + nStep then nStep * 2 else nStep)
    | none =>
      distanceBackFrom g vHave (nDistance + nStep) (if 10 < nDistance + nStep then nStep * 2 else nStep)

def getDistanceBack (g : Globals) (locator : CBlockLocator) : Nat := distanceBackFrom g locator.vHave 0 1

/-- The loop of `GetBlockIndex`. -/
def blockIndexFrom (g : Globals) : List Uint256 → BlockPtr
  | [] => g.pindexGenesisBlock
  | hash :: vHave =>
    match g.mapBlockIndex.lookup hash with
    | some pindex => if g.isInMainChain pindex then pindex else blockIndexFrom g vHave
    | none => blockIndexFrom g vHave

def getBlockIndex (g : Globals) (locator : CBlockLocator) : BlockPtr := blockIndexFrom g locator.vHave

end CBlockLocator

end Peershares
