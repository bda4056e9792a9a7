import Mathlib.Analysis.Complex.Exponential
import Peershares.Model.ProcessBlock
import Peershares.Target.Retarget

/-!
# The work demanded of a block that is not on top of the best chain

`ProcessBlock` asks of such a block that its target be at most what `ComputeMinWork` makes of the target
at the checkpoint: twice that target, doubled again for each day begun since. The target itself follows
`GetNextTargetRequired`, whose factor grows with the time between two blocks. From the checkpoint on the
product of the factors stays below the doublings; but the first factor belongs to the time before the
checkpoint, for which `ComputeMinWork` makes no allowance.

A block eases its target by a factor that is linear in the time since its predecessor (`easing`). The product over
many blocks is at most an exponential of the whole time, and that is what the doublings are compared with
(`eased_le_exp`, `eased_le_pow`). The comparison has room for one factor more, as long as it is no larger than
`easing nMaxCheckpointGap`; this is where the condition on the checkpoint comes from.

Both kinds of blocks have targets of their own. A chain has proof-of-work blocks up to a height and stake blocks
above it, so the blocks of one kind above a checkpoint of that kind are all blocks above it (`kinds_above`).

* `AcceptedChain` — the chains of the block tree
* `computeMinWork_eq` — what `ComputeMinWork` demands, in closed form
* `AcceptedChain.eased` — how far targets are eased above a checkpoint
* `AllowsEasing` — the checkpoint followed its predecessor soon enough, or its target is near the limit
* `hasMinWork_of_allowsEasing` — blocks pass then
* `hasMinWork_rejects_valid` — a block that is refused although its target is the one required
-/

namespace Peershares

/-! ### The chains of the block tree -/

/-- Genesis, and blocks that passed the contextual checks of `AcceptBlock` on top of their parent. -/
inductive AcceptedChain (P : Params) : BlockPtr → Prop
  | genesis : AcceptedChain P [P.genesisIndex]
  | block {pprev : BlockPtr} {block : CBlock} {nBestHeight nAdjustedTime : Int} {u : Unit}
      (nFile nBlockPos : Nat) (hprev : AcceptedChain P pprev)
      (haccept : block.acceptBlockContext P nBestHeight nAdjustedTime pprev = .ok u) :
      AcceptedChain P (block.newIndex P pprev nFile nBlockPos :: pprev)

/-- The contextual checks on kind, target and time. -/
theorem accepted_checks {P : Params} {block : CBlock} {nBestHeight nAdjustedTime : Int} {pprev : BlockPtr}
    {u : Unit} (h : block.acceptBlockContext P nBestHeight nAdjustedTime pprev = .ok u) :
    (block.isProofOfStake = false ↔ ((pprev.nHeight + 1 : Nat) : Int) ≤ PROOF_OF_WORK_BLOCKS)
      ∧ block.nBits = getNextTargetRequired P pprev block.isProofOfStake
      ∧ pprev.getBlockTime ≤ block.getBlockTime + nMaxClockDrift := by
  simp only [CBlock.acceptBlockContext, Result.bind_eq_ok, require_eq_ok, decide_eq_true_eq] at h
  obtain ⟨_, hkind, _, hbits, _, htime, -⟩ := h
  have hswitch := CBlock.checkSwitch_eq_ok.mp hkind
  rw [Bool.and_eq_true, decide_eq_true_eq, decide_eq_true_eq] at htime
  refine ⟨?_, hbits, htime.2⟩
  rw [← hswitch, CBlock.isProofOfWork, Bool.not_eq_true']

namespace AcceptedChain

variable {P : Params} {p q : BlockPtr} {e : CBlockIndex}

/-- An accepted chain has its genesis block. -/
theorem ne_nil (h : AcceptedChain P p) : p ≠ [] := by
  cases h <;> exact List.cons_ne_nil _ _

/-- The chain below its tip is accepted. -/
theorem tail (h : AcceptedChain P (e :: p)) (hne : p ≠ []) : AcceptedChain P p := by
  cases h with
  | genesis => exact absurd rfl hne
  | block _ _ hprev _ => exact hprev

/-- And so is every part down to the genesis block. -/
theorem suffix (h : AcceptedChain P q) (hs : p <:+ q) (hne : p ≠ []) : AcceptedChain P p := by
  induction q with
  | nil => exact absurd (List.suffix_nil.mp hs) hne
  | cons e q ih =>
    rcases List.suffix_cons_iff.mp hs with rfl | hs
    · exact h
    · have hq : q ≠ [] := by
        rintro rfl
        exact hne (List.suffix_nil.mp hs)
      exact ih (h.tail hq) hs

/-- The heights of an accepted chain. -/
theorem heightsOk (h : AcceptedChain P p) : p.HeightsOk := by
  induction h with
  | genesis => exact ⟨rfl, trivial⟩
  | @block pprev block nBest nAdj u nFile nBlockPos hprev haccept ih =>
    refine ⟨?_, ih⟩
    obtain ⟨e, rest, rfl⟩ := List.exists_cons_of_ne_nil hprev.ne_nil
    simp [CBlock.newIndex, ih.1]

/-- And its times. -/
theorem timesOk (h : AcceptedChain P p) : p.TimesOk := by
  induction h with
  | genesis => trivial
  | block _ _ _ haccept ih => exact ih.accept haccept rfl

/-- A chain of one block is the genesis block. -/
theorem eq_genesis (h : AcceptedChain P [e]) : e = P.genesisIndex := by
  cases h with
  | genesis => rfl
  | block _ _ hprev _ => exact absurd rfl hprev.ne_nil

/-- Above genesis the kind of a block is decided by its height, and its target by its ancestors. -/
theorem checks (h : AcceptedChain P (e :: p)) (hne : p ≠ []) :
    (e.fProofOfStake = false ↔ (e.nHeight : Int) ≤ PROOF_OF_WORK_BLOCKS)
      ∧ e.nBits = getNextTargetRequired P p e.fProofOfStake := by
  cases h with
  | genesis => exact absurd rfl hne
  | block nFile nBlockPos hprev haccept =>
    obtain ⟨hkind, hbits, -⟩ := accepted_checks haccept
    obtain ⟨e', rest, rfl⟩ := List.exists_cons_of_ne_nil hne
    exact ⟨hkind, hbits⟩

/-- No block is earlier than genesis: it is later than a median of times. -/
theorem nTimeGenesis_le (h : AcceptedChain P p) : ∀ x ∈ p, P.nTimeGenesis ≤ x.nTime := by
  induction h with
  | genesis =>
    intro x hx
    rw [List.mem_singleton.mp hx]
    exact le_refl _
  | block nFile nBlockPos hprev haccept ih =>
    have htime := (CBlock.acceptBlockContext_eq_ok haccept).2
    obtain ⟨m, hm, hmedian⟩ := BlockPtr.getMedianTimePast_mem hprev.ne_nil
    refine List.forall_mem_cons.mpr ⟨?_, ih⟩
    have hle := ih m hm
    rw [hmedian, CBlock.getBlockTime] at htime
    show P.nTimeGenesis ≤ CBlock.nTime _
    omega

/-- The blocks above a block are higher. -/
theorem nHeight_lt (h : AcceptedChain P (q ++ e :: p)) {x : CBlockIndex} (hx : x ∈ q) :
    e.nHeight < x.nHeight := by
  obtain ⟨q₁, q₂, rfl⟩ := List.append_of_mem hx
  have hs : x :: (q₂ ++ e :: p) <:+ q₁ ++ x :: q₂ ++ e :: p := ⟨q₁, by simp⟩
  have hheights := h.heightsOk.suffix hs
  have hx := hheights.1
  have he := (hheights.2.suffix (List.suffix_append q₂ (e :: p))).1
  rw [hx, he, List.length_append, List.length_cons]
  omega

end AcceptedChain

/-! ### `ComputeMinWork` in closed form -/

/-- The days begun in a time. -/
def startedDays (nTime : Int) : Nat := ((nTime + 86399) / 86400).toNat

/-- The loop of `ComputeMinWork` doubles the target once for every started day. -/
theorem computeMinWorkLoop_eq {nRounds : Nat} {nTime bnResult : Int} (hnonneg : 0 ≤ bnResult)
    (hrounds : startedDays nTime ≤ nRounds) :
    min bnProofOfWorkLimit (computeMinWorkLoop nRounds nTime bnResult)
      = min bnProofOfWorkLimit (bnResult * 2 ^ startedDays nTime) := by
  induction nRounds generalizing nTime bnResult with
  | zero =>
    have hzero : startedDays nTime = 0 := by omega
    rw [computeMinWorkLoop, hzero, pow_zero, mul_one]
  | succ nRounds ih =>
    unfold computeMinWorkLoop
    split_ifs with hcond
    · -- a round takes one started day
      have hdays : startedDays nTime = startedDays (nTime - 24 * 60 * 60) + 1 := by
        unfold startedDays
        omega
      rw [ih (by omega) (by omega), hdays, pow_succ]
      ring_nf
    · by_cases htime : 0 < nTime
      · -- at the limit further doublings change nothing
        have hlimit : bnProofOfWorkLimit ≤ bnResult := by
          by_contra hlt
          exact hcond ⟨htime, not_le.mp hlt⟩
        have hpow : (1 : Int) ≤ 2 ^ startedDays nTime := one_le_pow₀ (by norm_num)
        have hmore : bnProofOfWorkLimit ≤ bnResult * 2 ^ startedDays nTime := by nlinarith
        rw [min_eq_left hlimit, min_eq_left hmore]
      · -- no day is left
        have hzero : startedDays nTime = 0 := by
          unfold startedDays
          omega
        rw [hzero, pow_zero, mul_one]

/-- `ComputeMinWork` doubles once, and once more for each day begun, up to the limit. -/
theorem computeMinWork_eq {nBase : Nat} {nTime : Int} (hnonneg : 0 ≤ setCompact nBase) :
    computeMinWork nBase nTime
      = getCompact (min bnProofOfWorkLimit (setCompact nBase * 2 ^ (1 + startedDays nTime))) := by
  have hrounds : startedDays nTime ≤ nTime.toNat / (24 * 60 * 60) + 1 := by
    unfold startedDays
    omega
  have hmin : ∀ a b : Int, (if a < b then a else b) = min a b := by
    intro a b
    split_ifs <;> omega
  unfold computeMinWork
  simp only
  rw [hmin, computeMinWorkLoop_eq (by omega) hrounds, pow_add, pow_one, mul_assoc]

/-- The test of `ProcessBlock`, against the last block of the kind at or below the checkpoint. -/
def hasMinWork (pcheckpoint : BlockPtr) (block : CBlock) : Bool :=
  match getLastBlockIndex block.isProofOfStake pcheckpoint with
  | [] => true
  | pindex :: _ =>
    setCompact block.nBits ≤
      setCompact (computeMinWork pindex.nBits (block.getBlockTime - pcheckpoint.getBlockTime))

/-- `ProcessBlock` makes the test when the checkpoint is in the index, for a block that neither extends the
best chain nor is waited for by a checkpoint. -/
theorem hasEnoughWork_eq {P : Params} {s : BlockStore} {block : CBlock} {pcheckpoint : BlockPtr}
    (hsync : s.node.mapBlockIndex.lookup s.node.hashSyncCheckpoint = some pcheckpoint) :
    s.hasEnoughWork P block =
      (decide (block.hashPrevBlock = s.node.hashBestChain) || s.wantedByPendingSyncCheckpoint (block.getHash P)
        || hasMinWork pcheckpoint block) := by
  unfold BlockStore.hasEnoughWork hasMinWork
  rw [hsync]
  dsimp only
  by_cases hbest : block.hashPrevBlock = s.node.hashBestChain
  · -- a block on the best chain is not tested
    simp [hbest]
  · cases hwanted : s.wantedByPendingSyncCheckpoint (block.getHash P) with
    | true => simp
    | false =>
      have hother : (decide (block.hashPrevBlock ≠ s.node.hashBestChain) && !false) = true := by simp [hbest]
      have hor : ∀ b : Bool, (decide (block.hashPrevBlock = s.node.hashBestChain) || false || b) = b := by
        intro b
        rw [decide_eq_false hbest, Bool.false_or, Bool.false_or]
      refine (if_pos hother).trans ?_
      -- both sides compare with the last block of the kind before the checkpoint
      refine Eq.trans ?_ (hor _).symm
      cases getLastBlockIndex block.isProofOfStake pcheckpoint with
      | nil => exact Eq.refl true
      | cons pindex p => exact Eq.refl (decide _)

/-! ### Targets above a block -/

section Above

variable {P : Params} {fProofOfStake : Bool} {p r : BlockPtr} {e b pindexPrev pindexPrevPrev : CBlockIndex}

/-- The last block of a kind may be the tip. -/
theorem getLastBlockIndex_self (h : e.fProofOfStake = fProofOfStake) :
    getLastBlockIndex fProofOfStake (e :: p) = e :: p := by
  unfold getLastBlockIndex
  rw [if_neg]
  rintro ⟨-, hkind⟩
  exact hkind h

/-- Two blocks of the kind on top determine the next target. -/
theorem retargetsFrom_top (he : e.fProofOfStake = fProofOfStake) (hb : b.fProofOfStake = fProofOfStake)
    (hr : r ≠ []) : RetargetsFrom fProofOfStake (e :: b :: r) e b :=
  ⟨⟨b :: r, getLastBlockIndex_self he, r, getLastBlockIndex_self hb, hr⟩⟩

/-- The spacing is the least one when the last block is of the kind. -/
theorem targetSpacing_self : targetSpacing fProofOfStake e e = 1800 := by
  unfold targetSpacing nTargetSpacingWorkMax STAKE_TARGET_SPACING
  split_ifs <;> omega

/-- How a target is eased by a block that follows the one before it after `nActualSpacing`. -/
noncomputable def easing (nActualSpacing : ℤ) : ℝ := 1 + (nActualSpacing - 1800) / 303300

/-- The last two blocks of the kind ease the target by their distance. -/
theorem retarget_le {T : ℝ} (hbits : (setCompact e.nBits : ℝ) ≤ T)
    (hnonneg : 0 ≤ setCompact e.nBits) (hspacing : -BlockPtr.nMaxTimeDrop ≤ (e.nTime : ℤ) - b.nTime) :
    0 ≤ retarget fProofOfStake e e b
      ∧ (retarget fProofOfStake e e b : ℝ) ≤ T * easing ((e.nTime : ℤ) - b.nTime) := by
  -- two blocks of one kind have half an hour as their spacing
  have hfactor : retargetFactor 1800 ((e.nTime : ℤ) - b.nTime) = 603000 + 2 * ((e.nTime : ℤ) - b.nTime) := by
    have hinterval : (nTargetTimespan.tdiv 1800 - 1) * 1800 = 603000 := by decide
    unfold retargetFactor
    rw [hinterval]
    ring
  have hdivisor : retargetDivisor 1800 = 606600 := by decide
  have hdrop : BlockPtr.nMaxTimeDrop = 72000 := rfl
  have hpos : 0 < retargetFactor 1800 ((e.nTime : ℤ) - b.nTime) := by omega
  have hproduct : 0 ≤ setCompact e.nBits * retargetFactor 1800 ((e.nTime : ℤ) - b.nTime) :=
    mul_nonneg hnonneg hpos.le
  unfold retarget
  rw [targetSpacing_self, hdivisor, Int.tdiv_eq_ediv_of_nonneg hproduct]
  refine ⟨Int.ediv_nonneg hproduct (by norm_num), ?_⟩
  have hdiv := Int.ediv_mul_le (setCompact e.nBits * retargetFactor 1800 ((e.nTime : ℤ) - b.nTime))
    (show (606600 : ℤ) ≠ 0 by norm_num)
  -- the division rounds down, so the target is at most the real one
  have hreal : ((setCompact e.nBits * retargetFactor 1800 ((e.nTime : ℤ) - b.nTime) / 606600 : ℤ) : ℝ) * 606600
      ≤ setCompact e.nBits * (603000 + 2 * ((e.nTime : ℝ) - b.nTime)) := by
    rw [hfactor] at hdiv ⊢
    exact_mod_cast hdiv
  have hscale : setCompact e.nBits * (603000 + 2 * ((e.nTime : ℝ) - b.nTime))
      ≤ T * (603000 + 2 * ((e.nTime : ℝ) - b.nTime)) := by
    refine mul_le_mul_of_nonneg_right hbits ?_
    have : (-72000 : ℝ) ≤ (e.nTime : ℝ) - b.nTime := by exact_mod_cast hspacing
    linarith
  have heasing : T * easing ((e.nTime : ℤ) - b.nTime) * 606600
      = T * (603000 + 2 * ((e.nTime : ℝ) - b.nTime)) := by
    unfold easing
    push_cast
    ring
  linarith

/-- The targets of a chain are not negative. -/
theorem AcceptedChain.nextTarget_nonneg (h : AcceptedChain P p) (fProofOfStake : Bool)
    (hall : ∀ x ∈ p, 0 ≤ setCompact x.nBits) :
    ∃ X : ℤ, getNextTargetRequired P p fProofOfStake = getCompact X ∧ 0 ≤ X := by
  obtain ⟨e, q, rfl⟩ := List.exists_cons_of_ne_nil h.ne_nil
  by_cases hfrom : ∃ a b, RetargetsFrom fProofOfStake (e :: q) a b
  · obtain ⟨a, b, hfrom⟩ := hfrom
    refine ⟨_, getNextTargetRequired_eq hfrom, le_min bnProofOfWorkLimit_pos.le ?_⟩
    obtain ⟨hlow, hhigh⟩ := @targetSpacing_bounds fProofOfStake _ _
      (hfrom.heights_le h.heightsOk)
    have hfactor := hfrom.factor_gt h.heightsOk h.timesOk
    obtain ⟨pprev, hprev, -⟩ := hfrom.last
    have hs := getLastBlockIndex_suffix fProofOfStake (e :: q)
    rw [hprev] at hs
    have ha := hall a (hs.subset List.mem_cons_self)
    exact Int.tdiv_nonneg (mul_nonneg ha (by linarith)) (retargetDivisor_bounds hlow hhigh).1.le
  · rw [getNextTargetRequired_initial (fun a b hab => hfrom ⟨a, b, hab⟩)]
    unfold getInitialTarget Params.bnInitialProofOfStakeHashTarget Params.bnInitialHashTarget
    split_ifs
    all_goals exact ⟨_, rfl, by norm_num⟩

/-- A target that was not negative is not negative after the compact form. -/
theorem setCompact_getCompact_nonneg' {bn : ℤ} (h : 0 ≤ bn) : 0 ≤ setCompact (getCompact bn) := by
  obtain ⟨n, rfl⟩ := Int.eq_ofNat_of_zero_le h
  exact setCompact_getCompact_nonneg n

/-- No target of an accepted chain is negative. -/
theorem AcceptedChain.target_nonneg (h : AcceptedChain P p) : ∀ x ∈ p, 0 ≤ setCompact x.nBits := by
  induction h with
  | genesis =>
    intro x hx
    rw [List.mem_singleton] at hx
    subst hx
    show 0 ≤ setCompact (getCompact bnProofOfWorkLimit)
    rw [setCompact_getCompact_limit]
    norm_num
  | block nFile nBlockPos hprev haccept ih =>
    obtain ⟨-, hbits, -⟩ := accepted_checks haccept
    refine List.forall_mem_cons.mpr ⟨?_, ih⟩
    obtain ⟨X, hX, hnonneg⟩ := hprev.nextTarget_nonneg _ ih
    show 0 ≤ setCompact (CBlock.nBits _)
    rw [hbits, hX]
    exact setCompact_getCompact_nonneg' hnonneg

/-! ### Easing over many blocks -/

/-- The bound on the targets after `k` blocks that end `nElapsed` after the first one. The second case is
the exact factor of one block. -/
noncomputable def eased (k : ℕ) (nElapsed : ℤ) : ℝ :=
  if k = 0 then 1 else if k = 1 then easing nElapsed else Real.exp ((nElapsed - 1800 * k) / 303300)

/-- One retarget eases by less than an exponential of the spacing. -/
theorem easing_le_exp (nActualSpacing : ℤ) :
    easing nActualSpacing ≤ Real.exp ((nActualSpacing - 1800) / 303300) := by
  have h := Real.add_one_le_exp (((nActualSpacing : ℝ) - 1800) / 303300)
  unfold easing
  linarith

/-- So `k` of them do, by induction on `k`. -/
theorem eased_le_exp (k : ℕ) (nElapsed : ℤ) (hzero : k = 0 → nElapsed = 0) :
    eased k nElapsed ≤ Real.exp ((nElapsed - 1800 * k) / 303300) := by
  unfold eased
  split_ifs with h₀ h₁
  · rw [hzero h₀, h₀]
    norm_num
  · rw [h₁]
    have h := easing_le_exp nElapsed
    norm_num at h ⊢
    exact h
  · exact le_refl _

/-- One more block multiplies the bound by its easing. -/
theorem eased_mul_easing {k : ℕ} {nElapsed nSpacing : ℤ} (hzero : k = 0 → nElapsed = 0)
    (hspacing : -BlockPtr.nMaxTimeDrop ≤ nSpacing) :
    eased k nElapsed * easing nSpacing ≤ eased (k + 1) (nElapsed + nSpacing) := by
  rcases Nat.eq_zero_or_pos k with rfl | hk
  · rw [hzero rfl]
    simp [eased]
  · have hdrop : BlockPtr.nMaxTimeDrop = 72000 := rfl
    have hreal : (-72000 : ℝ) ≤ nSpacing := by exact_mod_cast hspacing
    have hnonneg : 0 ≤ easing nSpacing := by
      unfold easing
      linarith
    have hexp : eased (k + 1) (nElapsed + nSpacing)
        = Real.exp ((nElapsed - 1800 * k) / 303300) * Real.exp ((nSpacing - 1800) / 303300) := by
      rw [← Real.exp_add]
      unfold eased
      rw [if_neg (by omega), if_neg (by omega)]
      congr 1
      push_cast
      ring
    rw [hexp]
    exact mul_le_mul (eased_le_exp k nElapsed hzero) (easing_le_exp nSpacing) hnonneg (Real.exp_pos _).le

/-- The longest time by which the checkpoint may follow its predecessor. -/
def nMaxCheckpointGap : ℤ := 294488

/-- A longer spacing eases more. -/
theorem easing_mono {a b : ℤ} (h : a ≤ b) : easing a ≤ easing b := by
  have : (a : ℝ) ≤ b := by exact_mod_cast h
  unfold easing
  linarith

/-- The doublings of `ComputeMinWork` dominate: a day of blocks eases the target by less than half of a
doubling, and what is left of the first doubling pays for the two hours that the last block may be after
the one to come. -/
theorem eased_le_pow {k : ℕ} {nElapsed nTime : ℤ} (hzero : k = 0 → nElapsed = 0)
    (htime : nElapsed ≤ nTime + nMaxClockDrift ∨ k = 0) :
    easing nMaxCheckpointGap * eased k nElapsed ≤ 2 ^ (1 + startedDays nTime) := by
  have hgap : easing nMaxCheckpointGap = 595988 / 303300 := by
    unfold easing nMaxCheckpointGap
    norm_num
  -- without a retarget nothing is eased
  rcases Nat.eq_zero_or_pos k with rfl | hk
  · have hone : (1 : ℝ) ≤ 2 ^ startedDays nTime := one_le_pow₀ (by norm_num)
    have hid : eased 0 nElapsed = 1 := by simp [eased]
    rw [hgap, hid, pow_add, pow_one]
    linarith
  have hdrift : nElapsed ≤ nTime + 7200 := by
    rcases htime with h | h
    · exact h
    · omega
  have hk1 : (1 : ℝ) ≤ k := by exact_mod_cast hk
  rcases Nat.eq_zero_or_pos (startedDays nTime) with hdays | hdays
  · -- no day has begun
    have hpast : nTime ≤ 0 := by
      unfold startedDays at hdays
      omega
    have hshort : nElapsed ≤ 7200 := by omega
    rw [hdays, hgap]
    norm_num
    -- one retarget within two hours
    rcases Nat.lt_or_ge k 2 with hone | htwo
    · have hk : k = 1 := by omega
      have heased : eased k nElapsed = easing nElapsed := by simp [eased, hk]
      have hmono := easing_mono hshort
      have hval : easing 7200 = 308700 / 303300 := by
        unfold easing
        norm_num
      rw [heased]
      linarith
    · -- or several of them, whose easing is below an exponential
      have hk2 : (2 : ℝ) ≤ k := by exact_mod_cast htwo
      have helapsed : (nElapsed : ℝ) ≤ 7200 := by exact_mod_cast hshort
      have hexp : eased k nElapsed ≤ Real.exp (3600 / 303300) := by
        refine (eased_le_exp k nElapsed hzero).trans (Real.exp_le_exp.mpr ?_)
        linarith
      have hbound := Real.exp_bound_div_one_sub_of_interval (x := 3600 / 303300) (by norm_num) (by norm_num)
      norm_num at hbound hexp
      linarith
  · -- after `d` days the last block is at most `d` days and two hours after the first
    set d := startedDays nTime with hd
    have hd1 : (1 : ℝ) ≤ d := by exact_mod_cast hdays
    have htotal : nTime ≤ 86400 * d := by
      rw [hd]
      unfold startedDays
      omega
    have helapsed : (nElapsed : ℝ) ≤ 86400 * d + 7200 := by
      have : nElapsed ≤ 86400 * d + 7200 := by omega
      exact_mod_cast this
    have hexp : eased k nElapsed ≤ Real.exp (91800 / 303300) ^ d := by
      rw [← Real.exp_nat_mul]
      refine (eased_le_exp k nElapsed hzero).trans (Real.exp_le_exp.mpr ?_)
      linarith
    -- a day, drift included, eases by less than two
    have hday : Real.exp (91800 / 303300) ≤ 2 := by
      refine (Real.exp_bound_div_one_sub_of_interval (by norm_num) (by norm_num)).trans ?_
      norm_num
    have hpow : Real.exp (91800 / 303300) ^ d ≤ 2 ^ d := pow_le_pow_left₀ (Real.exp_pos _).le hday d
    have hpos : (0 : ℝ) < 2 ^ d := by positivity
    rw [hgap, pow_add, pow_one]
    linarith

/-! ### Above the checkpoint -/

/-- The last two blocks of the kind at the checkpoint are not too far apart. -/
def FollowsSoon (fProofOfStake : Bool) (pcheckpoint : BlockPtr) : Prop :=
  ∀ pindexPrev pindexPrevPrev, RetargetsFrom fProofOfStake pcheckpoint pindexPrev pindexPrevPrev →
    (pindexPrev.nTime : ℤ) - pindexPrevPrev.nTime ≤ nMaxCheckpointGap

/-- A bound on the number behind the next target, as a multiple of the target of `b`. -/
def NextWithin (P : Params) (fProofOfStake : Bool) (b : CBlockIndex) (p : BlockPtr) (bound : ℝ) : Prop :=
  ∃ X : ℤ, getNextTargetRequired P p fProofOfStake = getCompact X ∧ 0 ≤ X ∧ X ≤ bnProofOfWorkLimit
    ∧ (X : ℝ) ≤ setCompact b.nBits * bound

/-- The longest spacing does ease. -/
theorem one_le_easing_gap : 1 ≤ easing nMaxCheckpointGap := by
  unfold easing nMaxCheckpointGap
  norm_num

/-- Right above the checkpoint: its own distance to its predecessor eases the target. -/
theorem AcceptedChain.eased_base (h : AcceptedChain P (b :: r)) (hr : r ≠ [])
    (hb : b.fProofOfStake = fProofOfStake) (hsoon : FollowsSoon fProofOfStake (b :: r))
    (hlow : 2 * setCompact b.nBits ≤ bnProofOfWorkLimit) :
    NextWithin P fProofOfStake b (b :: r) (easing nMaxCheckpointGap) := by
  have hnonneg := h.target_nonneg b List.mem_cons_self
  have hreal : (0 : ℝ) ≤ setCompact b.nBits := by exact_mod_cast hnonneg
  by_cases hfrom : ∃ a a', RetargetsFrom fProofOfStake (b :: r) a a'
  · -- the chain has two blocks of the kind, and the target is taken from the last one
    obtain ⟨a, a', hfrom⟩ := hfrom
    have hself : a = b := by
      obtain ⟨pprev, hprev, -⟩ := hfrom.last
      rw [getLastBlockIndex_self hb] at hprev
      exact (List.cons.inj hprev).1.symm
    subst hself
    obtain ⟨hpos, hle⟩ := @retarget_le fProofOfStake _ _ _ (le_refl _) hnonneg
      (hfrom.spacing_ge h.timesOk)
    refine ⟨_, getNextTargetRequired_eq hfrom, le_min bnProofOfWorkLimit_pos.le hpos, min_le_left _ _, ?_⟩
    have hmin : ((min bnProofOfWorkLimit (retarget fProofOfStake a a a') : ℤ) : ℝ)
        ≤ retarget fProofOfStake a a a' := by exact_mod_cast min_le_right _ _
    calc ((min bnProofOfWorkLimit (retarget fProofOfStake a a a') : ℤ) : ℝ)
        ≤ setCompact a.nBits * easing ((a.nTime : ℤ) - a'.nTime) := hmin.trans hle
      _ ≤ setCompact a.nBits * easing nMaxCheckpointGap :=
          mul_le_mul_of_nonneg_left (easing_mono (hsoon a a' hfrom)) hreal
  · -- the second block of a kind has the initial target, as the first one has
    obtain ⟨e, q, rfl⟩ := List.exists_cons_of_ne_nil hr
    have hfrom' : ∀ a a', ¬RetargetsFrom fProofOfStake (e :: q) a a' := by
      intro a a' hbelow
      obtain ⟨pprev, hprev, rest, hprevprev, hrest⟩ := hbelow.last
      have hne : pprev ≠ [] := by
        rintro rfl
        simp [getLastBlockIndex] at hprevprev
      exact hfrom ⟨b, a, ⟨⟨e :: q, getLastBlockIndex_self hb, pprev, hprev, hne⟩⟩⟩
    have hbits := (h.checks hr).2
    rw [hb, getNextTargetRequired_initial hfrom'] at hbits
    obtain ⟨X, hX, hXnonneg⟩ := (h.tail hr).nextTarget_nonneg fProofOfStake
      (h.tail hr).target_nonneg
    rw [getNextTargetRequired_initial hfrom', ← hbits] at hX
    obtain ⟨n, rfl⟩ := Int.eq_ofNat_of_zero_le hXnonneg
    refine ⟨setCompact b.nBits, ?_, hnonneg, by omega, ?_⟩
    · rw [getNextTargetRequired_initial (fun a a' hab => hfrom ⟨a, a', hab⟩), ← hbits, hX]
      exact (getCompact_setCompact_getCompact n).symm
    · exact le_mul_of_one_le_right hreal one_le_easing_gap

/-- From there on each block of the kind eases the target by its distance to the one before. -/
theorem AcceptedChain.eased (hr : r ≠ []) (hb : b.fProofOfStake = fProofOfStake)
    (hsoon : FollowsSoon fProofOfStake (b :: r)) (hlow : 2 * setCompact b.nBits ≤ bnProofOfWorkLimit) :
    ∀ u : List CBlockIndex, AcceptedChain P (u ++ b :: r) → (∀ x ∈ u, x.fProofOfStake = fProofOfStake) →
      NextWithin P fProofOfStake b (u ++ b :: r)
        (easing nMaxCheckpointGap
          * eased u.length (BlockPtr.getBlockTime (u ++ b :: r) - b.nTime)) := by
  intro u
  -- induction on the blocks of the kind above `b`
  induction u with
  | nil =>
    intro h _
    have hid : Peershares.eased 0 (BlockPtr.getBlockTime ([] ++ b :: r) - b.nTime) = 1 := by
      simp [Peershares.eased]
    rw [List.length_nil, hid, mul_one]
    exact h.eased_base hr hb hsoon hlow
  | cons e u ih =>
    intro h hkinds
    obtain ⟨he, hu⟩ := List.forall_mem_cons.mp hkinds
    rw [List.cons_append] at h ⊢
    have hne : u ++ b :: r ≠ [] := by simp
    obtain ⟨X, hX, hnonneg, -, hbound⟩ := ih (h.tail hne) hu
    -- the block below `e` is of the kind too, and above genesis
    obtain ⟨b', q, hq⟩ := List.exists_cons_of_ne_nil hne
    have hb' : b'.fProofOfStake = fProofOfStake := by
      have hmem : b' ∈ u ++ b :: r := hq ▸ List.mem_cons_self
      cases u with
      | nil =>
        have := (List.cons.inj hq).1
        rw [← this, hb]
      | cons x u =>
        have := (List.cons.inj hq).1
        rw [← this]
        exact hu x List.mem_cons_self
    have hq0 : q ≠ [] := by
      rintro rfl
      have hlen := congrArg List.length hq
      have hr0 : r.length ≠ 0 := fun hzero => hr (List.length_eq_zero_iff.mp hzero)
      simp at hlen
      omega
    -- the target of `e` is the one required of it
    have hbits := (h.checks hne).2
    rw [he, hX] at hbits
    rw [hq] at h hbound ⊢
    have hfrom : RetargetsFrom fProofOfStake (e :: b' :: q) e b' := retargetsFrom_top he hb' hq0
    have hspacing := hfrom.spacing_ge h.timesOk
    have hcompact : (setCompact e.nBits : ℝ) ≤ X := by
      rw [hbits]
      obtain ⟨n, rfl⟩ := Int.eq_ofNat_of_zero_le hnonneg
      exact_mod_cast setCompact_getCompact_le n
    -- and the next one is a retarget from it
    obtain ⟨hpos, hle⟩ := @retarget_le fProofOfStake _ _ _ (hcompact.trans hbound)
      (h.target_nonneg e List.mem_cons_self) hspacing
    refine ⟨_, getNextTargetRequired_eq hfrom, le_min bnProofOfWorkLimit_pos.le hpos, min_le_left _ _, ?_⟩
    have hmin : ((min bnProofOfWorkLimit (retarget fProofOfStake e e b') : ℤ) : ℝ)
        ≤ retarget fProofOfStake e e b' := by exact_mod_cast min_le_right _ _
    have hT : (0 : ℝ) ≤ setCompact b.nBits := by
      have hmem : b ∈ e :: b' :: q := by
        rw [← hq]
        simp
      exact_mod_cast h.target_nonneg b hmem
    have hzero : u.length = 0 → BlockPtr.getBlockTime (b' :: q) - (b.nTime : ℤ) = 0 := by
      intro hlen
      rw [← hq, List.length_eq_zero_iff.mp hlen]
      exact sub_self _
    have hgap : (0 : ℝ) ≤ easing nMaxCheckpointGap := le_trans zero_le_one one_le_easing_gap
    -- the easing of the blocks below, times that of `e`
    have hstep := eased_mul_easing hzero hspacing
    have htime : BlockPtr.getBlockTime (b' :: q) - (b.nTime : ℤ) + ((e.nTime : ℤ) - b'.nTime)
        = BlockPtr.getBlockTime (e :: b' :: q) - b.nTime := by
      simp only [BlockPtr.getBlockTime]
      ring
    rw [htime] at hstep
    calc ((min bnProofOfWorkLimit (retarget fProofOfStake e e b') : ℤ) : ℝ)
        ≤ setCompact b.nBits * (easing nMaxCheckpointGap
            * Peershares.eased u.length (BlockPtr.getBlockTime (b' :: q) - b.nTime))
            * easing ((e.nTime : ℤ) - b'.nTime) := hmin.trans hle
      _ = setCompact b.nBits * (easing nMaxCheckpointGap
            * (Peershares.eased u.length (BlockPtr.getBlockTime (b' :: q) - b.nTime)
              * easing ((e.nTime : ℤ) - b'.nTime))) := by ring
      _ ≤ setCompact b.nBits * (easing nMaxCheckpointGap
            * Peershares.eased (e :: u).length (BlockPtr.getBlockTime (e :: b' :: q) - b.nTime)) :=
          mul_le_mul_of_nonneg_left (mul_le_mul_of_nonneg_left hstep hgap) hT

/-! ### The kinds above a block -/

/-- The search for the last block of a kind ends at the genesis block. -/
theorem getLastBlockIndex_ne_nil (hne : p ≠ []) : getLastBlockIndex fProofOfStake p ≠ [] := by
  induction p with
  | nil => exact absurd rfl hne
  | cons e p ih =>
    unfold getLastBlockIndex
    split_ifs with h
    · exact ih h.1
    · exact List.cons_ne_nil e p

/-- The walk ends at genesis or at a block of the kind. -/
theorem kind_of_getLastBlockIndex (h : getLastBlockIndex fProofOfStake p = b :: r) (hr : r ≠ []) :
    b.fProofOfStake = fProofOfStake := by
  induction p with
  | nil => simp [getLastBlockIndex] at h
  | cons e p ih =>
    unfold getLastBlockIndex at h
    split_ifs at h with hcond
    · exact ih h
    · obtain ⟨rfl, rfl⟩ := List.cons.inj h
      by_contra hkind
      exact hcond ⟨hr, hkind⟩

/-- Up to height 400 there are work blocks only, above it stake blocks only. -/
theorem AcceptedChain.kind_of_mem (h : AcceptedChain P p) {x : CBlockIndex} (hx : x ∈ p)
    (hpos : 0 < x.nHeight) : x.fProofOfStake = false ↔ (x.nHeight : Int) ≤ PROOF_OF_WORK_BLOCKS := by
  obtain ⟨q₁, q₂, rfl⟩ := List.append_of_mem hx
  have hs : x :: q₂ <:+ q₁ ++ x :: q₂ := List.suffix_append _ _
  have hchain := h.suffix hs (List.cons_ne_nil _ _)
  have hlen : x.nHeight = q₂.length := hchain.heightsOk.1
  have hne : q₂ ≠ [] := by
    rintro rfl
    rw [hlen] at hpos
    exact absurd hpos (by simp)
  exact (hchain.checks hne).1

/-- Proof-of-work blocks come first, so the last block of a kind at the checkpoint is the checkpoint itself
when a block of that kind comes above, and all blocks between are of the kind. -/
theorem AcceptedChain.kinds_above {u : List CBlockIndex} {pcheckpoint : BlockPtr}
    (h : AcceptedChain P (u ++ pcheckpoint)) (hbase : getLastBlockIndex fProofOfStake pcheckpoint = b :: r)
    (hr : r ≠ [])
    (hkind : fProofOfStake = false ↔
      ((BlockPtr.nHeight (u ++ pcheckpoint) + 1 : ℕ) : ℤ) ≤ PROOF_OF_WORK_BLOCKS) :
    pcheckpoint = b :: r ∧ ∀ x ∈ u, x.fProofOfStake = fProofOfStake := by
  have hb := kind_of_getLastBlockIndex hbase hr
  have hs : b :: r <:+ pcheckpoint := hbase ▸ getLastBlockIndex_suffix fProofOfStake pcheckpoint
  have hmem : b ∈ u ++ pcheckpoint := List.mem_append_right u (hs.subset List.mem_cons_self)
  -- it is not the genesis block
  have hbheight : 0 < b.nHeight := by
    have hlen := (h.heightsOk.suffix (hs.trans (List.suffix_append u pcheckpoint))).1
    rw [hlen]
    exact List.length_pos_of_ne_nil hr
  -- between two blocks of a kind lie only blocks of that kind
  have hbetween : ∀ x ∈ u ++ pcheckpoint, b.nHeight ≤ x.nHeight → x.fProofOfStake = fProofOfStake := by
    intro x hx hle
    have hxb := h.kind_of_mem hmem hbheight
    have hxx := h.kind_of_mem hx (by omega)
    have htop := h.heightsOk.le x hx
    rw [hb] at hxb
    cases fProofOfStake with
    | false =>
      have := hkind.mp rfl
      exact hxx.mpr (by omega)
    | true =>
      have hnot : ¬(b.nHeight : ℤ) ≤ PROOF_OF_WORK_BLOCKS := fun hcon => absurd (hxb.mpr hcon) (by simp)
      cases hx : x.fProofOfStake with
      | true => rfl
      | false => exact absurd (hxx.mp hx) (by omega)
  -- so the checkpoint is of the kind itself
  have hcheckpoint : pcheckpoint = b :: r := by
    obtain ⟨c, rc, rfl⟩ := List.exists_cons_of_ne_nil (show pcheckpoint ≠ [] by
      rintro rfl
      simp [getLastBlockIndex] at hbase)
    have hc : c.fProofOfStake = fProofOfStake := by
      refine hbetween c (by simp) ?_
      exact (h.heightsOk.suffix (List.suffix_append u (c :: rc))).le b (hs.subset List.mem_cons_self)
    rw [← hbase, getLastBlockIndex_self hc]
  refine ⟨hcheckpoint, fun x hx => hbetween x (List.mem_append_left _ hx) ?_⟩
  rw [hcheckpoint] at h
  exact (h.nHeight_lt hx).le

/-! ### The test -/

/-- The compact form keeps the order. -/
theorem setCompact_getCompact_mono' {m n : ℤ} (h : m ≤ n) (hn : 0 ≤ n) :
    setCompact (getCompact m) ≤ setCompact (getCompact n) := by
  rcases lt_or_ge m 0 with hneg | hpos
  · have hle := setCompact_getCompact_le_max m
    rw [max_eq_right hneg.le] at hle
    exact hle.trans (setCompact_getCompact_nonneg' hn)
  · obtain ⟨m, rfl⟩ := Int.eq_ofNat_of_zero_le hpos
    obtain ⟨n, rfl⟩ := Int.eq_ofNat_of_zero_le hn
    exact setCompact_getCompact_mono (by exact_mod_cast h)

/-- When the chain of the block, or of the checkpoint, does not go beyond what the test allows for. -/
structure AllowsEasing (P : Params) (fProofOfStake : Bool) (pcheckpoint p : BlockPtr) : Prop where
  /-- The initial proof-of-stake target of the test network is above the limit. -/
  started : P.fTestNet = true → fProofOfStake = true →
    ∃ pindexPrev pindexPrevPrev, RetargetsFrom fProofOfStake p pindexPrev pindexPrevPrev
  /-- The checkpoint did not ease the target much, or the test already allows the limit. -/
  soon : FollowsSoon fProofOfStake pcheckpoint ∨
    ∀ pindex rest, getLastBlockIndex fProofOfStake pcheckpoint = pindex :: rest →
      bnProofOfWorkLimit ≤ 2 * setCompact pindex.nBits

/-- No target but the initial one of the test network is above the limit. -/
theorem nextTarget_le_limit (hne : p ≠ [])
    (hstarted : P.fTestNet = true → fProofOfStake = true → ∃ a a', RetargetsFrom fProofOfStake p a a') :
    setCompact (getNextTargetRequired P p fProofOfStake) ≤ setCompact (getCompact bnProofOfWorkLimit) := by
  have hlimit : (0 : ℤ) ≤ bnProofOfWorkLimit := bnProofOfWorkLimit_pos.le
  obtain ⟨e, q, rfl⟩ := List.exists_cons_of_ne_nil hne
  by_cases hfrom : ∃ a a', RetargetsFrom fProofOfStake (e :: q) a a'
  · obtain ⟨a, a', hfrom⟩ := hfrom
    rw [getNextTargetRequired_eq hfrom]
    exact setCompact_getCompact_mono' (min_le_left _ _) hlimit
  · rw [getNextTargetRequired_initial (fun a a' hab => hfrom ⟨a, a', hab⟩)]
    unfold getInitialTarget Params.bnInitialProofOfStakeHashTarget Params.bnInitialHashTarget
    split_ifs with hstake htest htest
    · exact absurd (hstarted htest hstake) hfrom
    · exact setCompact_getCompact_mono' (le_refl _) hlimit
    · exact setCompact_getCompact_mono' (le_refl _) hlimit
    · exact setCompact_getCompact_mono' (by norm_num [bnProofOfWorkLimit]) hlimit

/-- The test never rejects a valid block, as long as the checkpoint followed its predecessor of the kind
within three days and a half, or the target there is at least half the limit, and the first two
proof-of-stake blocks of the test network are left out. -/
theorem hasMinWork_of_allowsEasing {pcheckpoint : BlockPtr} (hp : AcceptedChain P p)
    (hs : pcheckpoint <:+ p) (hne : pcheckpoint ≠ []) {block : CBlock} {nBestHeight nAdjustedTime : Int}
    {w : Unit} (haccept : block.acceptBlockContext P nBestHeight nAdjustedTime p = .ok w)
    (hallows : AllowsEasing P block.isProofOfStake pcheckpoint p) : hasMinWork pcheckpoint block = true := by
  obtain ⟨hkind, hbits, htime⟩ := accepted_checks haccept
  obtain ⟨b, r, hbase⟩ := List.exists_cons_of_ne_nil
    (@getLastBlockIndex_ne_nil block.isProofOfStake _ hne)
  have hbs : b :: r <:+ pcheckpoint := hbase ▸ getLastBlockIndex_suffix _ pcheckpoint
  have hchain := hp.suffix (hbs.trans hs) (List.cons_ne_nil b r)
  have hnonneg := hchain.target_nonneg b List.mem_cons_self
  have hpow : (1 : ℤ) ≤ 2 ^ startedDays (block.getBlockTime - pcheckpoint.getBlockTime) :=
    one_le_pow₀ (by norm_num)
  unfold hasMinWork
  simp only [hbase, decide_eq_true_eq]
  rw [computeMinWork_eq hnonneg]
  by_cases hhigh : bnProofOfWorkLimit ≤ 2 * setCompact b.nBits
  · -- the limit itself is demanded
    have hmin : min bnProofOfWorkLimit
        (setCompact b.nBits * 2 ^ (1 + startedDays (block.getBlockTime - pcheckpoint.getBlockTime)))
          = bnProofOfWorkLimit := by
      refine min_eq_left (hhigh.trans ?_)
      rw [pow_add, pow_one]
      nlinarith
    rw [hmin, hbits]
    exact nextTarget_le_limit hp.ne_nil hallows.started
  · -- the limit is not reached, so the checkpoint is not the first block of its kind
    have hr : r ≠ [] := by
      rintro rfl
      rw [hchain.eq_genesis] at hhigh
      refine hhigh ?_
      show bnProofOfWorkLimit ≤ 2 * setCompact (getCompact bnProofOfWorkLimit)
      rw [setCompact_getCompact_limit]
      unfold bnProofOfWorkLimit
      norm_num
    have hsoon := hallows.soon.resolve_right (fun hcon => hhigh (hcon b r hbase))
    -- all blocks since the checkpoint are of the kind, and each eases the target
    obtain ⟨u, rfl⟩ := hs
    obtain ⟨rfl, hkinds⟩ := hp.kinds_above hbase hr hkind
    have hb := kind_of_getLastBlockIndex hbase hr
    obtain ⟨X, hX, hXnonneg, hXlimit, hXbound⟩ :=
      AcceptedChain.eased hr hb hsoon (not_le.mp hhigh).le u hp hkinds
    have hT : (0 : ℝ) ≤ setCompact b.nBits := by exact_mod_cast hnonneg
    have hzero : u.length = 0 → BlockPtr.getBlockTime (u ++ b :: r) - (b.nTime : ℤ) = 0 := by
      intro hlen
      rw [List.length_eq_zero_iff.mp hlen]
      exact sub_self _
    have hcheckpoint : BlockPtr.getBlockTime (b :: r) = b.nTime := rfl
    -- the days since the checkpoint allow for it
    have hdominates := @eased_le_pow _ _ (block.getBlockTime - BlockPtr.getBlockTime (b :: r)) hzero
      (Or.inl (by rw [hcheckpoint]; linarith))
    have hXpow : X ≤ setCompact b.nBits
        * 2 ^ (1 + startedDays (block.getBlockTime - BlockPtr.getBlockTime (b :: r))) := by
      have := hXbound.trans (mul_le_mul_of_nonneg_left hdominates hT)
      exact_mod_cast this
    have hle := le_min hXlimit hXpow
    rw [hbits, hX]
    exact setCompact_getCompact_mono' hle (hXnonneg.trans hle)

end Above

namespace MinWorkSample

open RetargetSample

/-- The coinbase of a block. -/
def coinBase (nTime : Nat) : CTransaction where
  nTime
  vin := [⟨COutPoint.null, [0, 0], UINT_MAX⟩]
  vout := [⟨CENT, [0x51]⟩]

/-- A proof-of-work block `nSeconds` after genesis, with the target its parents demand. -/
def blockAfter (pprev : BlockPtr) (nSeconds : Nat) : CBlock where
  hashPrevBlock := pprev.hash
  hashMerkleRoot := params.hashTx (coinBase (1510339532 + nSeconds))
  nTime := 1510339532 + nSeconds
  nBits := getNextTargetRequired params pprev false
  nNonce := 0
  vtx := [coinBase (1510339532 + nSeconds)]
  vchBlockSig := []

/-- The first block above genesis. -/
def firstChain : BlockPtr :=
  (blockAfter [params.genesisIndex] 1800).newIndex params [params.genesisIndex] 1 8 :: [params.genesisIndex]

/-- A second block, `nGap` seconds after the first. -/
def chainWithGap (nGap : Nat) : BlockPtr :=
  (blockAfter firstChain (1800 + nGap)).newIndex params firstChain 1 8 :: firstChain

/-- A third block, half an hour after the second. -/
def blockAfterGap (nGap : Nat) : CBlock := blockAfter (chainWithGap nGap) (1800 + nGap + 1800)

/-- The blocks pass the contextual checks, with a clock past them all. -/
abbrev Accepted (block : CBlock) (pprev : BlockPtr) : Prop :=
  block.acceptBlockContext params 0 1520000000 pprev = .ok ()

/-- The sample chain is accepted. -/
theorem firstChain_accepted : AcceptedChain params firstChain := by
  have h : Accepted (blockAfter [params.genesisIndex] 1800) [params.genesisIndex] := by decide
  exact .block 1 8 .genesis h

/-- Two blocks half an hour apart. -/
theorem chainWithGap_accepted : AcceptedChain params (chainWithGap 1800) := by
  have h : Accepted (blockAfter firstChain (1800 + 1800)) firstChain := by decide
  exact .block 1 8 firstChain_accepted h

/-- Two blocks twenty days apart. -/
theorem chainWithGap_accepted_long : AcceptedChain params (chainWithGap 1728000) := by
  have h : Accepted (blockAfter firstChain (1800 + 1728000)) firstChain := by decide
  exact .block 1 8 firstChain_accepted h

/-- The next block after half an hour. -/
theorem blockAfterGap_accepted : Accepted (blockAfterGap 1800) (chainWithGap 1800) := by decide

/-- And after twenty days. -/
theorem blockAfterGap_accepted_long : Accepted (blockAfterGap 1728000) (chainWithGap 1728000) := by
  decide

end MinWorkSample

open MinWorkSample in
/-- The third block passes, against a checkpoint at the second. -/
theorem hasMinWork_of_allowsEasing_halfHour : hasMinWork (chainWithGap 1800) (blockAfterGap 1800) = true := by
  refine hasMinWork_of_allowsEasing chainWithGap_accepted List.suffix_rfl (List.cons_ne_nil _ _)
    blockAfterGap_accepted ⟨?_, Or.inl ?_⟩
  · intro htest
    exact absurd htest (by decide)
  · intro a a' hfrom
    obtain ⟨pprev, hprev, rest, hprevprev, hrest⟩ := hfrom.last
    have h₁ : getLastBlockIndex (blockAfterGap 1800).isProofOfStake (chainWithGap 1800) = chainWithGap 1800 :=
      getLastBlockIndex_self rfl
    have h₂ : getLastBlockIndex (blockAfterGap 1800).isProofOfStake firstChain = firstChain :=
      getLastBlockIndex_self rfl
    obtain ⟨rfl, rfl⟩ := List.cons.inj (h₁.symm.trans hprev)
    obtain ⟨rfl, rfl⟩ := List.cons.inj (h₂.symm.trans hprevprev)
    decide

open MinWorkSample in
/-- Twenty days between the two blocks before ease the target of the third more than sixfold, but the test
allows four times the target of the second, half an hour later. -/
theorem hasMinWork_rejects_valid :
    ¬∀ (P : Params) (p pcheckpoint : BlockPtr) (block : CBlock) (nBestHeight nAdjustedTime : Int),
      AcceptedChain P p → pcheckpoint <:+ p → pcheckpoint ≠ [] →
        block.acceptBlockContext P nBestHeight nAdjustedTime p = .ok () → hasMinWork pcheckpoint block = true := by
  intro h
  have htest := h RetargetSample.params (chainWithGap 1728000) (chainWithGap 1728000) (blockAfterGap 1728000) 0
    1520000000 chainWithGap_accepted_long List.suffix_rfl (List.cons_ne_nil _ _) blockAfterGap_accepted_long
  exact absurd htest (by decide)

end Peershares
