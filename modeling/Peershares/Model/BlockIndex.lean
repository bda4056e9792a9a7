import Mathlib.Data.List.Sort
import Peershares.Model.Basic

/-!
# The block tree

`CBlockIndex`, the difficulty rules and the timestamp rules of `main.h` and `main.cpp`.

`pprev` is set when an index entry is made and never changes, so a pointer `CBlockIndex*` is
modelled by everything it reaches through `pprev`: the list of entries from the block down to
genesis (`BlockPtr`). `NULL` is `[]`, `pindex->pprev` is the tail, and a loop
`pindex = pindex->pprev` is a structural recursion. Being an ancestor is being a suffix. The
fields that do change (`pnext`, `nMint`, `nMoneySupply`) live in the node's state, keyed by hash.
-/

namespace Peershares

/-- The fixed part of a `CBlockIndex`. -/
structure CBlockIndex where
  /-- `*phashBlock`. -/
  hashBlock : Uint256
  nFile : Nat
  nBlockPos : Nat
  bnChainTrust : Int
  nHeight : Nat
  /-- The flag `BLOCK_PROOF_OF_STAKE`. -/
  fProofOfStake : Bool
  nTime : Nat
  nBits : Nat
deriving DecidableEq, Repr

/-- A `CBlockIndex*` with all it reaches through `pprev`. -/
abbrev BlockPtr := List CBlockIndex

namespace BlockPtr

/-- `pindex->GetBlockHash()`; `0` for `NULL`, as `CDiskBlockIndex` writes it. -/
def hash : BlockPtr → Uint256
  | [] => 0
  | pindex :: _ => pindex.hashBlock

/-- `pindex->nHeight`. -/
def nHeight : BlockPtr → Nat
  | [] => 0
  | pindex :: _ => pindex.nHeight

/-- `pindex->bnChainTrust`, read as `0` below genesis. -/
def bnChainTrust : BlockPtr → Int
  | [] => 0
  | pindex :: _ => pindex.bnChainTrust

/-- `pindex->GetBlockTime()`. -/
def getBlockTime : BlockPtr → Int
  | [] => 0
  | pindex :: _ => pindex.nTime

@[simp] theorem hash_cons (e : CBlockIndex) (p : BlockPtr) : hash (e :: p) = e.hashBlock := rfl
@[simp] theorem nHeight_cons (e : CBlockIndex) (p : BlockPtr) : nHeight (e :: p) = e.nHeight := rfl

/-- The heights of the entries a pointer reaches count down to zero. -/
def HeightsOk : BlockPtr → Prop
  | [] => True
  | e :: p => e.nHeight = p.length ∧ HeightsOk p

theorem HeightsOk.suffix {p q : BlockPtr} (h : HeightsOk q) (hs : p <:+ q) : HeightsOk p := by
  induction q with
  | nil =>
    rw [List.suffix_nil.mp hs]
    trivial
  | cons e q ih =>
    rcases List.suffix_cons_iff.mp hs with rfl | hs
    · exact h
    · exact ih h.2 hs

theorem HeightsOk.le {p : BlockPtr} (h : HeightsOk p) : ∀ e ∈ p, e.nHeight ≤ nHeight p := by
  induction p with
  | nil => simp
  | cons x p ih =>
    refine List.forall_mem_cons.mpr ⟨le_refl _, fun e he => ?_⟩
    have hle := ih h.2 e he
    obtain ⟨y, q, rfl⟩ := List.exists_cons_of_ne_nil (List.ne_nil_of_mem he)
    have hx := h.1
    have hy := h.2.1
    simp only [nHeight_cons, List.length_cons] at *
    omega

/-! ### Timestamps -/

def nMedianTimeSpan : Nat := 11

/-- `GetMedianTimePast`: the middle of the sorted times of the last eleven blocks. -/
def getMedianTimePast (pindex : BlockPtr) : Int :=
  let pmedian := ((pindex.take nMedianTimeSpan).map (fun e => (e.nTime : Int))).insertionSort (· ≤ ·)
  (pmedian[pmedian.length / 2]?).getD 0

/-- The median of the past times is the time of one of the last eleven blocks. -/
theorem getMedianTimePast_mem_take {pindex : BlockPtr} (hne : pindex ≠ []) :
    ∃ e ∈ pindex.take nMedianTimeSpan, pindex.getMedianTimePast = e.nTime := by
  unfold getMedianTimePast
  set times := (pindex.take nMedianTimeSpan).map (fun e : CBlockIndex => (e.nTime : Int)) with htimes
  have hpos : 0 < times.length := by
    cases pindex with
    | nil => exact absurd rfl hne
    | cons e p => simp [htimes, nMedianTimeSpan]
  have hlen : (times.insertionSort (· ≤ ·)).length = times.length :=
    (List.perm_insertionSort _ _).length_eq
  have hlt : (times.insertionSort (· ≤ ·)).length / 2 < (times.insertionSort (· ≤ ·)).length := by
    omega
  have hmem := (List.perm_insertionSort _ _).mem_iff.mp (List.getElem_mem hlt)
  obtain ⟨e, he, heq⟩ := List.mem_map.mp hmem
  refine ⟨e, he, ?_⟩
  simp only [List.getElem?_eq_getElem hlt, Option.getD_some]
  exact heq.symm

theorem getMedianTimePast_mem {pindex : BlockPtr} (hne : pindex ≠ []) :
    ∃ e ∈ pindex, pindex.getMedianTimePast = e.nTime := by
  obtain ⟨e, he, heq⟩ := getMedianTimePast_mem_take hne
  exact ⟨e, List.mem_of_mem_take he, heq⟩

/-! ### Targets -/

end BlockPtr

/-- `CBigNum::SetCompact`: the value of the compact form. The size byte counts the bytes of the
MPI number, of which the first three are given; the top bit of the first one is the sign. -/
def setCompact (nCompact : Nat) : Int :=
  let nSize := nCompact / 2 ^ 24
  let vch4 := nCompact / 2 ^ 16 % 256
  let vch5 := nCompact / 2 ^ 8 % 256
  let vch6 := nCompact % 256
  let magnitude : Nat :=
    (if 1 ≤ nSize then vch4 % 128 * 256 ^ (nSize - 1) else 0)
      + (if 2 ≤ nSize then vch5 * 256 ^ (nSize - 2) else 0)
      + (if 3 ≤ nSize then vch6 * 256 ^ (nSize - 3) else 0)
  if 1 ≤ nSize ∧ 128 ≤ vch4 then -(magnitude : Int) else magnitude

/-- `CBigNum::GetCompact`: the size of the MPI number and its first three bytes. A number whose top
bit is set gets a zero byte in front, and the sign is the top bit of the first byte. -/
def getCompact (bn : Int) : Nat :=
  let magnitude := bn.natAbs
  let nSize := if magnitude = 0 then 0 else (Nat.log2 magnitude + 1) / 8 + 1
  nSize * 2 ^ 24
    + (if nSize ≤ 3 then magnitude * 256 ^ (3 - nSize) else magnitude / 256 ^ (nSize - 3))
    + (if bn < 0 then 2 ^ 23 else 0)

/-- `bnProofOfWorkLimit`: `~uint256(0) >> 20` on both networks. -/
def bnProofOfWorkLimit : Int := 2 ^ 236 - 1

namespace Params

variable (P : Params)

/-- `bnInitialHashTarget`. -/
def bnInitialHashTarget : Int := if P.fTestNet then 2 ^ 236 - 1 else 2 ^ 232 - 1

/-- `bnInitialProofOfStakeHashTarget`. -/
def bnInitialProofOfStakeHashTarget : Int := if P.fTestNet then 2 ^ 240 - 1 else 2 ^ 236 - 1

end Params

/-- `GetLastBlockIndex`: the last block of the given kind at or below `pindex`, or genesis. -/
def getLastBlockIndex (fProofOfStake : Bool) : BlockPtr → BlockPtr
  | [] => []
  | pindex :: pprev =>
    if pprev ≠ [] ∧ pindex.fProofOfStake ≠ fProofOfStake then getLastBlockIndex fProofOfStake pprev
    else pindex :: pprev

def getInitialTarget (P : Params) (fProofOfStake : Bool) : Nat :=
  if fProofOfStake then getCompact P.bnInitialProofOfStakeHashTarget
  else getCompact P.bnInitialHashTarget

def nTargetTimespan : Int := 7 * 24 * 60 * 60
def nTargetSpacingWorkMax : Int := 12 * STAKE_TARGET_SPACING

/-- `GetNextTargetRequired`. -/
def getNextTargetRequired (P : Params) (pindexLast : BlockPtr) (fProofOfStake : Bool) : Nat :=
  match pindexLast, getLastBlockIndex fProofOfStake pindexLast with
  | [], _ => getCompact bnProofOfWorkLimit
  | _ :: _, [] => getInitialTarget P fProofOfStake
  | _ :: _, [_] => getInitialTarget P fProofOfStake
  | pindexLast :: _, pindexPrev :: pprev =>
    match getLastBlockIndex fProofOfStake pprev with
    | [] => getInitialTarget P fProofOfStake
    | [_] => getInitialTarget P fProofOfStake
    | pindexPrevPrev :: _ =>
      let nActualSpacing : Int := pindexPrev.nTime - pindexPrevPrev.nTime
      let nTargetSpacing : Int :=
        if fProofOfStake then STAKE_TARGET_SPACING
        else min nTargetSpacingWorkMax
          (STAKE_TARGET_SPACING * (1 + (pindexLast.nHeight : Int) - pindexPrev.nHeight))
      let nInterval := nTargetTimespan.tdiv nTargetSpacing
      let bnNew := (setCompact pindexPrev.nBits
        * ((nInterval - 1) * nTargetSpacing + nActualSpacing + nActualSpacing)).tdiv
          ((nInterval + 1) * nTargetSpacing)
      getCompact (if bnProofOfWorkLimit < bnNew then bnProofOfWorkLimit else bnNew)

/-- `CheckProofOfWork`. -/
def checkProofOfWork (hash : Uint256) (nBits : Nat) : Result Unit := do
  let bnTarget := setCompact nBits
  require (0 < bnTarget && bnTarget ≤ bnProofOfWorkLimit) 0
    "CheckProofOfWork() : nBits below minimum work"
  require ((hash : Int) ≤ bnTarget) 0 "CheckProofOfWork() : hash doesn't match nBits"

/-- `GetBlockTrust`: a proof-of-work block counts one, a proof-of-stake block what its target is
worth. -/
def getBlockTrust (nBits : Nat) (fProofOfStake : Bool) : Int :=
  let bnTarget := setCompact nBits
  if bnTarget ≤ 0 then 0 else if fProofOfStake then Int.tdiv (2 ^ 256) (bnTarget + 1) else 1

/-- The limits in compact form. -/
example : getCompact bnProofOfWorkLimit = 0x1e0fffff ∧ setCompact 0x1e0fffff = 0xfffff * 2 ^ 216 := by
  decide

end Peershares
