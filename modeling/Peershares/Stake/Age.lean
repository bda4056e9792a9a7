import Peershares.Model.Connect
import Peershares.Model.Kernel
import Peershares.Target.MinWork

/-!
# The minimum age of a stake

`CheckStakeKernelHash` and `GetCoinAge` both ask that the block of a coin be old enough. The first adds the
minimum age to the block time as an `unsigned int`, the second as an `int64`.

* `kernelMinAge_iff` — below the top of the range the tests are the same
* `minAge_agree` — what passes the kernel's test is counted, and the range of the time weight
-/

namespace Peershares

section Age

variable {P : Params} {nTimeBlockFrom nTimeTx : Nat}

theorem nStakeMinAge_bounds (P : Params) : 0 ≤ P.nStakeMinAge ∧ P.nStakeMinAge ≤ STAKE_MIN_AGE := by
  unfold Params.nStakeMinAge STAKE_MIN_AGE
  split_ifs <;> omega

/-- As long as the sum fits, the kernel's test is that of the integers. -/
theorem kernelMinAge_iff (htop : (nTimeBlockFrom : Int) + P.nStakeMinAge < 2 ^ 32) :
    kernelMinAge P nTimeBlockFrom nTimeTx = true ↔ (nTimeBlockFrom : Int) + P.nStakeMinAge ≤ nTimeTx := by
  have hnonneg := (nStakeMinAge_bounds P).1
  have hfits : nTimeBlockFrom + P.nStakeMinAge.toNat < 2 ^ 32 := by omega
  unfold kernelMinAge
  rw [Nat.mod_eq_of_lt hfits, decide_eq_true_eq]
  omega

/-- Where the outputs and the block are found, `GetCoinAge` counts the input when it passes the test. -/
theorem coinAgeOf_counted {env : ConnectEnv} {tx txPrev : CTransaction} {txin : CTxIn} {txindex : CTxIndex}
    {txout : CTxOut} {blockFrom : CBlock} (hindex : env.txIndex.lookup txin.prevout.hash = some txindex)
    (hread : env.files.readTx txindex.pos = some txPrev) (hout : txPrev.vout[txin.prevout.n]? = some txout)
    (hblock : env.files.readBlock txindex.pos.nFile txindex.pos.nBlockPos = some blockFrom)
    (htime : txPrev.nTime ≤ tx.nTime) (hage : blockFrom.getBlockTime + P.nStakeMinAge ≤ tx.nTime) :
    coinAgeOf P env tx txin = some ((txout.nValue * ((tx.nTime : Int) - txPrev.nTime)).tdiv CENT) := by
  have hnot : ¬tx.nTime < txPrev.nTime := not_lt.mpr htime
  have hold : ¬(tx.nTime : Int) < blockFrom.getBlockTime + P.nStakeMinAge := not_lt.mpr hage
  unfold coinAgeOf
  rw [hindex]
  simp only
  rw [hread]
  simp only
  rw [hout]
  simp only [if_neg hnot]
  rw [hblock]
  simp only [if_neg hold]

/-- An input that passes the kernel's test is counted by `GetCoinAge`, and its time weight is between zero
and what the maximum age leaves, for every block time that leaves room for the minimum age. On the main
network all blocks are under the new protocol. -/
theorem minAge_agree {p : BlockPtr} (hchain : AcceptedChain P p) {pindexFrom : CBlockIndex}
    (hmem : pindexFrom ∈ p) {blockFrom : CBlock} (hchecked : blockFrom.Checked P)
    (hfrom : blockFrom.nTime = pindexFrom.nTime) {txPrev : CTransaction} (htxPrev : txPrev ∈ blockFrom.vtx)
    (htop : blockFrom.getBlockTime + P.nStakeMinAge < 2 ^ 32)
    (hkernel : kernelMinAge P blockFrom.nTime nTimeTx = true) :
    (∀ (env : ConnectEnv) (tx : CTransaction) (txin : CTxIn) (txindex : CTxIndex) (txout : CTxOut),
        tx.nTime = nTimeTx → env.txIndex.lookup txin.prevout.hash = some txindex →
        env.files.readTx txindex.pos = some txPrev → txPrev.vout[txin.prevout.n]? = some txout →
        env.files.readBlock txindex.pos.nFile txindex.pos.nBlockPos = some blockFrom →
          coinAgeOf P env tx txin = some ((txout.nValue * ((tx.nTime : Int) - txPrev.nTime)).tdiv CENT))
      ∧ 0 ≤ kernelTimeWeight P txPrev.nTime nTimeTx
      ∧ kernelTimeWeight P txPrev.nTime nTimeTx
          ≤ STAKE_MAX_AGE - (if isProtocolV03 nTimeTx then P.nStakeMinAge else 0)
      ∧ (P.fTestNet = false →
          kernelTimeWeight P txPrev.nTime nTimeTx ≤ STAKE_MAX_AGE - STAKE_MIN_AGE) := by
  have htxTime : (txPrev.nTime : Int) ≤ blockFrom.nTime := hchecked.nTime_le txPrev htxPrev
  have hage : (blockFrom.nTime : Int) + P.nStakeMinAge ≤ nTimeTx := (kernelMinAge_iff htop).mp hkernel
  obtain ⟨hnonneg, hmax⟩ := nStakeMinAge_bounds P
  have hvalues : STAKE_MIN_AGE ≤ STAKE_MAX_AGE := by decide
  have hweight : kernelTimeWeight P txPrev.nTime nTimeTx
      ≤ STAKE_MAX_AGE - (if isProtocolV03 nTimeTx then P.nStakeMinAge else 0) := by
    unfold kernelTimeWeight
    have := min_le_right ((nTimeTx : Int) - txPrev.nTime) STAKE_MAX_AGE
    linarith
  refine ⟨?_, ?_, hweight, ?_⟩
  · -- `GetCoinAge` counts the input
    intro env tx txin txindex txout htime hindex hread hout hblock
    refine coinAgeOf_counted hindex hread hout hblock ?_ ?_
    · omega
    · rw [htime]
      exact hage
  · -- the weight is not negative
    unfold kernelTimeWeight
    split_ifs <;> omega
  · intro hmain
    -- genesis is at the switch time
    have hgenesis := hchain.nTimeGenesis_le pindexFrom hmem
    have hv03 : isProtocolV03 nTimeTx = true := by
      have htime : P.nTimeGenesis = 1510339532 := by simp [Params.nTimeGenesis, hmain]
      unfold isProtocolV03
      rw [decide_eq_true_eq]
      omega
    have hmin : P.nStakeMinAge = STAKE_MIN_AGE := by
      unfold Params.nStakeMinAge
      rw [hmain]
      rfl
    rw [if_pos hv03, hmin] at hweight
    exact hweight

end Age

namespace AgeSample

open RetargetSample MinWorkSample

/-- The first block of the main network's sample, which holds a coinbase only. -/
theorem firstBlock_checked : (blockAfter [params.genesisIndex] 1800).Checked params where
  shape := by
    refine ⟨coinBase (1510339532 + 1800), [], rfl, rfl, ?_, ?_, ?_⟩
    · intro tx htx
      exact absurd htx List.not_mem_nil
    · intro tx htx
      exact absurd htx List.not_mem_nil
    · decide
  checked := by
    intro tx htx
    obtain rfl := List.mem_singleton.mp htx
    exact ⟨by simp [coinBase], by simp [coinBase], by decide, by decide, fun h => absurd h (by decide)⟩
  nTime_le := by
    intro tx htx
    obtain rfl := List.mem_singleton.mp htx
    exact le_refl _
  txids_nodup := List.nodup_singleton _

/-- A block at the end of the 32-bit times. -/
def topChain : BlockPtr :=
  (blockAfter [params.genesisIndex] (2 ^ 32 - 1000 - 1510339532)).newIndex params [params.genesisIndex] 1 8
    :: [params.genesisIndex]

theorem topChain_accepted : AcceptedChain params topChain := by
  have h : Accepted (blockAfter [params.genesisIndex] (2 ^ 32 - 1000 - 1510339532)) [params.genesisIndex] := by
    decide
  exact .block 1 8 .genesis h

/-- The test network, which began before the switch to the new protocol. -/
def testParams : Params := { params with fTestNet := true }

def testBlock : CBlock where
  hashPrevBlock := testParams.genesisIndex.hashBlock
  hashMerkleRoot := testParams.hashTx (coinBase (1396491392 + 1800))
  nTime := 1396491392 + 1800
  nBits := getNextTargetRequired testParams [testParams.genesisIndex] false
  nNonce := 0
  vtx := [coinBase (1396491392 + 1800)]
  vchBlockSig := []

def testChain : BlockPtr := testBlock.newIndex testParams [testParams.genesisIndex] 1 8 :: [testParams.genesisIndex]

theorem testChain_accepted : AcceptedChain testParams testChain := by
  have h : testBlock.acceptBlockContext testParams 0 1520000000 [testParams.genesisIndex] = .ok () := by
    decide
  exact .block 1 8 .genesis h

end AgeSample

open AgeSample RetargetSample MinWorkSample in
/-- The coinbase of the first block, five days later. -/
theorem minAge_agree_fiveDays :
    kernelMinAge params (1510339532 + 1800) (1510339532 + 1800 + 432000) = true
      ∧ 0 ≤ kernelTimeWeight params (1510339532 + 1800) (1510339532 + 1800 + 432000)
      ∧ kernelTimeWeight params (1510339532 + 1800) (1510339532 + 1800 + 432000)
          ≤ STAKE_MAX_AGE - STAKE_MIN_AGE := by
  have hkernel : kernelMinAge params (1510339532 + 1800) (1510339532 + 1800 + 432000) = true := by
    decide
  obtain ⟨-, hnonneg, -, hmain⟩ := minAge_agree firstChain_accepted List.mem_cons_self firstBlock_checked rfl
    List.mem_cons_self (by decide) hkernel
  exact ⟨hkernel, hnonneg, hmain rfl⟩

open AgeSample RetargetSample MinWorkSample in
/-- Where the 32-bit sum wraps around, the kernel takes a coin of five minutes that has no coin age, with a
negative weight. And on the test network, where the minimum age is shorter and was not subtracted under the
old protocol, the weight reaches the whole maximum age. -/
theorem minAge_parts :
    (AcceptedChain params topChain
        ∧ (∃ e ∈ topChain, e.nTime = 2 ^ 32 - 1000)
        ∧ kernelMinAge params (2 ^ 32 - 1000) (2 ^ 32 - 700) = true
        ∧ ¬((2 ^ 32 - 1000 : Nat) : Int) + params.nStakeMinAge ≤ (2 ^ 32 - 700 : Nat)
        ∧ kernelTimeWeight params (2 ^ 32 - 1000) (2 ^ 32 - 700) < 0)
      ∧ AcceptedChain testParams testChain
        ∧ (∃ e ∈ testChain, e.nTime = 1396491392 + 1800)
        ∧ kernelMinAge testParams (1396491392 + 1800) (1396491392 + 1800 + 7776000) = true
        ∧ STAKE_MAX_AGE - STAKE_MIN_AGE
          < kernelTimeWeight testParams (1396491392 + 1800) (1396491392 + 1800 + 7776000) := by
  refine ⟨⟨topChain_accepted, ⟨_, List.mem_cons_self, by decide⟩, ?_, ?_, ?_⟩, testChain_accepted,
    ⟨_, List.mem_cons_self, by decide⟩, ?_, ?_⟩
  all_goals decide

end Peershares
