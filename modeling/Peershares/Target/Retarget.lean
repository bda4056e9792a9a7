import Peershares.Model.Check
import Peershares.Target.Compact

/-!
# Retargeting

`GetNextTargetRequired` multiplies the previous target of the same proof type by a factor that depends
on the time between two blocks of that type. Block times are only loosely ordered, so this time may be
negative; how far it can be is what the timestamp rules of `AcceptBlock` decide.

* `BlockPtr.TimesOk` — the timestamp rules along a chain
* `BlockPtr.TimesOk.nTime_le` — no block is more than twenty hours before an ancestor
* `RetargetsFrom.factor_gt` — the factor is positive
* `retarget_inRange` — the next target is in range
-/

namespace Peershares

namespace BlockPtr

/-- Every block above genesis is later than the median of the last eleven, and at most two hours before
its parent. -/
def TimesOk : BlockPtr → Prop
  | [] => True
  | [_] => True
  | pindex :: pprev :: rest =>
    getMedianTimePast (pprev :: rest) < pindex.nTime ∧ (pprev.nTime : Int) ≤ pindex.nTime + nMaxClockDrift
      ∧ TimesOk (pprev :: rest)

/-- The times below the tip. -/
theorem TimesOk.tail {e : CBlockIndex} {p : BlockPtr} (h : TimesOk (e :: p)) : TimesOk p := by
  cases p with
  | nil => trivial
  | cons q rest => exact h.2.2

/-- And of every part of the chain. -/
theorem TimesOk.suffix {p q : BlockPtr} (h : TimesOk q) (hs : p <:+ q) : TimesOk p := by
  induction q with
  | nil =>
    rw [List.suffix_nil.mp hs]
    trivial
  | cons e q ih =>
    rcases List.suffix_cons_iff.mp hs with rfl | hs
    · exact h
    · exact ih h.tail hs

/-- The rules are those `AcceptBlock` checks. -/
theorem TimesOk.accept {P : Params} {nBestHeight nAdjustedTime : Int} {pindexPrev : BlockPtr} {block : CBlock}
    {e : CBlockIndex} {u : Unit} (h : TimesOk pindexPrev)
    (haccept : block.acceptBlockContext P nBestHeight nAdjustedTime pindexPrev = .ok u)
    (htime : (e.nTime : Int) = block.getBlockTime) : TimesOk (e :: pindexPrev) := by
  simp only [CBlock.acceptBlockContext, Result.bind_eq_ok, require_eq_ok] at haccept
  obtain ⟨_, -, -, -, -, htimes, -⟩ := haccept
  rw [Bool.and_eq_true, decide_eq_true_eq, decide_eq_true_eq] at htimes
  cases pindexPrev with
  | nil => trivial
  | cons q rest =>
    refine ⟨?_, ?_, h⟩
    · rw [htime]
      exact htimes.1
    · rw [htime]
      exact htimes.2

/-- How far a block may be before an ancestor: ten steps of two hours. From the eleventh block on, the
median is that of descendants. -/
def nMaxTimeDrop : Int := 10 * nMaxClockDrift

/-- The blocks above `a` are not much earlier than it: the first ten lose two hours each, and a later one
is above the median of blocks that are all above `a`. -/
theorem TimesOk.above {a : CBlockIndex} {rest : BlockPtr} :
    ∀ u : List CBlockIndex, TimesOk (u ++ a :: rest) →
      (∀ e ∈ u, (a.nTime : Int) ≤ e.nTime + nMaxTimeDrop)
        ∧ (u.length ≤ 10 → (a.nTime : Int) ≤ getBlockTime (u ++ a :: rest) + nMaxClockDrift * u.length) := by
  intro u
  -- induction on the blocks above `a`
  induction u with
  | nil =>
    intro _
    refine ⟨fun e he => absurd he List.not_mem_nil, fun _ => ?_⟩
    simp [getBlockTime]
  | cons e u ih =>
    intro h
    rw [List.cons_append] at h
    obtain ⟨hall, hhead⟩ := ih h.tail
    -- a block is at most one drift older than its parent
    have hstep : getBlockTime (u ++ a :: rest) ≤ e.nTime + nMaxClockDrift := by
      cases u with
      | nil => exact h.2.1
      | cons e' u' => exact h.2.1
    have hdrift : u.length ≤ 9 → (a.nTime : Int) ≤ e.nTime + nMaxClockDrift * (u.length + 1) := by
      intro hlen
      have := hhead (by omega)
      linarith
    have hnew : (a.nTime : Int) ≤ e.nTime + nMaxTimeDrop := by
      -- up to ten blocks the drifts add up
      rcases Nat.lt_or_ge u.length 10 with hshort | hlong
      · have hd := hdrift (by omega)
        have hle : nMaxClockDrift * ((u.length : Int) + 1) ≤ nMaxTimeDrop := by
          unfold nMaxTimeDrop nMaxClockDrift
          omega
        linarith
      · -- the last eleven blocks are `a` and blocks above it
        have hmedian : getMedianTimePast (u ++ a :: rest) < e.nTime := by
          cases u with
          | nil => exact h.1
          | cons e' u' => exact h.1
        obtain ⟨m, hm, heq⟩ := @getMedianTimePast_mem_take (u ++ a :: rest) (by simp)
        -- so the median is that of one of them
        have hmem : m ∈ u ∨ m = a := by
          rw [List.take_append, List.mem_append] at hm
          rcases hm with hm | hm
          · exact Or.inl (List.mem_of_mem_take hm)
          · have hone : nMedianTimeSpan - u.length ≤ 1 := by
              unfold nMedianTimeSpan
              omega
            have hfirst : m ∈ (a :: rest).take 1 := (List.take_subset_take_left _ hone) hm
            exact Or.inr (by simpa using hfirst)
        have hlow : (a.nTime : Int) ≤ m.nTime + nMaxTimeDrop := by
          rcases hmem with hm | rfl
          · exact hall m hm
          · unfold nMaxTimeDrop nMaxClockDrift
            omega
        rw [heq] at hmedian
        linarith
    refine ⟨?_, ?_⟩
    · intro x hx
      rcases List.mem_cons.mp hx with rfl | hx
      · exact hnew
      · exact hall x hx
    · intro hlen
      rw [List.length_cons] at hlen
      have := hdrift (by omega)
      simpa [getBlockTime] using this

/-- A block is at most `nMaxTimeDrop` older than one below it. -/
theorem TimesOk.nTime_le {e a : CBlockIndex} {p rest : BlockPtr} (h : TimesOk (e :: p))
    (hs : a :: rest <:+ p) : (a.nTime : Int) ≤ e.nTime + nMaxTimeDrop := by
  obtain ⟨u, rfl⟩ := hs
  exact (TimesOk.above (e :: u) h).1 e List.mem_cons_self

end BlockPtr

/-! ### The next target -/

/-- The last block of a kind lies on the chain. -/
theorem getLastBlockIndex_suffix (fProofOfStake : Bool) (p : BlockPtr) :
    getLastBlockIndex fProofOfStake p <:+ p := by
  induction p with
  | nil => exact List.suffix_rfl
  | cons e p ih =>
    unfold getLastBlockIndex
    split_ifs
    · exact ih.trans (List.suffix_cons e p)
    · exact List.suffix_rfl

/-- `nTargetSpacing`. -/
def targetSpacing (fProofOfStake : Bool) (pindexLast pindexPrev : CBlockIndex) : Int :=
  if fProofOfStake then STAKE_TARGET_SPACING
  else min nTargetSpacingWorkMax
    (STAKE_TARGET_SPACING * (1 + (pindexLast.nHeight : Int) - pindexPrev.nHeight))

/-- What the previous target is multiplied by, for a target spacing and an actual one. -/
def retargetFactor (nTargetSpacing nActualSpacing : Int) : Int :=
  (nTargetTimespan.tdiv nTargetSpacing - 1) * nTargetSpacing + nActualSpacing + nActualSpacing

/-- What the product is divided by. -/
def retargetDivisor (nTargetSpacing : Int) : Int :=
  (nTargetTimespan.tdiv nTargetSpacing + 1) * nTargetSpacing

/-- The blocks a target is computed from: the last two of the kind, both above genesis. -/
structure RetargetsFrom (fProofOfStake : Bool) (p : BlockPtr) (pindexPrev pindexPrevPrev : CBlockIndex) :
    Prop where
  last : ∃ pprev, getLastBlockIndex fProofOfStake p = pindexPrev :: pprev
    ∧ ∃ rest, getLastBlockIndex fProofOfStake pprev = pindexPrevPrev :: rest ∧ rest ≠ []

/-- `bnNew` before the limit is applied. -/
def retarget (fProofOfStake : Bool) (pindexLast pindexPrev pindexPrevPrev : CBlockIndex) : Int :=
  (setCompact pindexPrev.nBits
      * retargetFactor (targetSpacing fProofOfStake pindexLast pindexPrev)
          (pindexPrev.nTime - pindexPrevPrev.nTime)).tdiv
    (retargetDivisor (targetSpacing fProofOfStake pindexLast pindexPrev))

section Retarget

variable {P : Params} {fProofOfStake : Bool} {p : BlockPtr} {pindexLast pindexPrev pindexPrevPrev : CBlockIndex}

/-- From the third block of a kind on the target is computed. -/
theorem getNextTargetRequired_eq
    (h : RetargetsFrom fProofOfStake (pindexLast :: p) pindexPrev pindexPrevPrev) :
    getNextTargetRequired P (pindexLast :: p) fProofOfStake
      = getCompact (min bnProofOfWorkLimit (retarget fProofOfStake pindexLast pindexPrev pindexPrevPrev)) := by
  obtain ⟨pprev, hprev, rest, hprevprev, hrest⟩ := h.last
  obtain ⟨e, rest, rfl⟩ := List.exists_cons_of_ne_nil hrest
  have hpprev : ∃ e' q, pprev = e' :: q := by
    cases pprev with
    | nil => simp [getLastBlockIndex] at hprevprev
    | cons e' q => exact ⟨e', q, rfl⟩
  obtain ⟨e', q, rfl⟩ := hpprev
  unfold getNextTargetRequired
  simp only [hprev, hprevprev]
  congr 1
  unfold retarget retargetFactor retargetDivisor targetSpacing
  split_ifs <;> omega

/-- Otherwise the target is the initial one. -/
theorem getNextTargetRequired_initial
    (h : ∀ pindexPrev pindexPrevPrev, ¬RetargetsFrom fProofOfStake (pindexLast :: p) pindexPrev pindexPrevPrev) :
    getNextTargetRequired P (pindexLast :: p) fProofOfStake = getInitialTarget P fProofOfStake := by
  match hprev : getLastBlockIndex fProofOfStake (pindexLast :: p) with
  | [] => simp [getNextTargetRequired, hprev]
  | [_] => simp [getNextTargetRequired, hprev]
  | pindexPrev :: e :: q =>
    match hprevprev : getLastBlockIndex fProofOfStake (e :: q) with
    | [] => simp [getNextTargetRequired, hprev, hprevprev]
    | [_] => simp [getNextTargetRequired, hprev, hprevprev]
    | pindexPrevPrev :: e' :: rest =>
      exact absurd ⟨e :: q, hprev, e' :: rest, hprevprev, List.cons_ne_nil _ _⟩
        (fun hcon => h pindexPrev pindexPrevPrev ⟨hcon⟩)

/-! ### Bounds -/

/-- The target spacing lies between half an hour and twelve times that. -/
theorem targetSpacing_bounds (h : pindexPrev.nHeight ≤ pindexLast.nHeight) :
    STAKE_TARGET_SPACING ≤ targetSpacing fProofOfStake pindexLast pindexPrev
      ∧ targetSpacing fProofOfStake pindexLast pindexPrev ≤ nTargetSpacingWorkMax := by
  unfold targetSpacing nTargetSpacingWorkMax STAKE_TARGET_SPACING
  split_ifs <;> omega

section Factor

variable {nTargetSpacing nActualSpacing : Int} (hlow : STAKE_TARGET_SPACING ≤ nTargetSpacing)
  (hhigh : nTargetSpacing ≤ nTargetSpacingWorkMax)

include hlow in
/-- The interval counts the target spacings in a week, rounded down. -/
theorem interval_mul_bounds :
    nTargetTimespan.tdiv nTargetSpacing * nTargetSpacing ≤ nTargetTimespan
      ∧ nTargetTimespan < nTargetTimespan.tdiv nTargetSpacing * nTargetSpacing + nTargetSpacing := by
  have hpos : 0 < nTargetSpacing := lt_of_lt_of_le (by decide) hlow
  have hweek : (0 : Int) ≤ nTargetTimespan := by decide
  rw [Int.tdiv_eq_ediv_of_nonneg hweek]
  have hmod := Int.emod_lt_of_pos nTargetTimespan hpos
  have hnonneg := Int.emod_nonneg nTargetTimespan hpos.ne'
  have hsplit := Int.mul_ediv_add_emod nTargetTimespan nTargetSpacing
  rw [mul_comm] at hsplit
  constructor <;> linarith

include hlow hhigh in
/-- A drop of twenty hours leaves most of the week. -/
theorem le_retargetFactor (hspacing : -BlockPtr.nMaxTimeDrop ≤ nActualSpacing) :
    417600 < retargetFactor nTargetSpacing nActualSpacing := by
  obtain ⟨-, hweek⟩ := interval_mul_bounds hlow
  have hdrop : BlockPtr.nMaxTimeDrop = 72000 := rfl
  have hmax : nTargetSpacingWorkMax = 21600 := rfl
  have htimespan : nTargetTimespan = 604800 := rfl
  unfold retargetFactor
  rw [sub_mul, one_mul]
  linarith

include hlow hhigh in
/-- So the divisor is positive and small. -/
theorem retargetDivisor_bounds :
    0 < retargetDivisor nTargetSpacing ∧ retargetDivisor nTargetSpacing ≤ 626400 := by
  obtain ⟨hle, hweek⟩ := interval_mul_bounds hlow
  have hmax : nTargetSpacingWorkMax = 21600 := rfl
  have htimespan : nTargetTimespan = 604800 := rfl
  unfold retargetDivisor
  rw [add_mul, one_mul]
  constructor <;> linarith

end Factor

/-- The block before is not higher. -/
theorem RetargetsFrom.heights_le (h : RetargetsFrom fProofOfStake (pindexLast :: p) pindexPrev pindexPrevPrev)
    (hheights : BlockPtr.HeightsOk (pindexLast :: p)) : pindexPrev.nHeight ≤ pindexLast.nHeight := by
  obtain ⟨pprev, hprev, -⟩ := h.last
  have hs := getLastBlockIndex_suffix fProofOfStake (pindexLast :: p)
  rw [hprev] at hs
  exact hheights.le pindexPrev (hs.subset List.mem_cons_self)

/-- The blocks a target is computed from are a block and one of its ancestors. -/
theorem RetargetsFrom.spacing_ge (h : RetargetsFrom fProofOfStake p pindexPrev pindexPrevPrev)
    (htimes : p.TimesOk) : -BlockPtr.nMaxTimeDrop ≤ (pindexPrev.nTime : Int) - pindexPrevPrev.nTime := by
  obtain ⟨pprev, hprev, rest, hprevprev, -⟩ := h.last
  have hs := getLastBlockIndex_suffix fProofOfStake p
  have hs' := getLastBlockIndex_suffix fProofOfStake pprev
  rw [hprev] at hs
  rw [hprevprev] at hs'
  have := (htimes.suffix hs).nTime_le hs'
  linarith

/-- The factor is positive: the time between two blocks of a kind may be negative, but never so far as to
outweigh the week. -/
theorem RetargetsFrom.factor_gt (h : RetargetsFrom fProofOfStake (pindexLast :: p) pindexPrev pindexPrevPrev)
    (hheights : BlockPtr.HeightsOk (pindexLast :: p)) (htimes : BlockPtr.TimesOk (pindexLast :: p)) :
    417600 < retargetFactor (targetSpacing fProofOfStake pindexLast pindexPrev)
      (pindexPrev.nTime - pindexPrevPrev.nTime) := by
  obtain ⟨hlow, hhigh⟩ := targetSpacing_bounds (h.heights_le hheights)
  exact le_retargetFactor hlow hhigh (h.spacing_ge htimes)

/-! ### Compact targets of any sign -/

/-- A set top bit makes the number that `SetCompact` reads negative. -/
theorem setCompact_nonpos {size M : Nat} (hsize : 0 < size) (hlow : 2 ^ 23 ≤ M) (hhigh : M < 2 ^ 24) :
    setCompact (size * 2 ^ 24 + M) ≤ 0 := by
  have hshift : (size * 2 ^ 24 + M) / 2 ^ 24 = size := by omega
  have h4 : (size * 2 ^ 24 + M) / 2 ^ 16 % 256 = M / 2 ^ 16 := by omega
  have hsign : 1 ≤ size ∧ 128 ≤ M / 2 ^ 16 := by omega
  unfold setCompact
  simp only [hshift, h4, if_pos hsign]
  omega

/-- Compact forms round towards zero. -/
theorem setCompact_getCompact_le_max (bn : Int) : setCompact (getCompact bn) ≤ max bn 0 := by
  rcases lt_or_ge bn 0 with hneg | hnonneg
  · have hform : getCompact bn
        = Framework.width 256 2 bn.natAbs * 2 ^ 24 + (mantissa bn.natAbs + 2 ^ 23) := by
      have h := getCompact_natCast (n := bn.natAbs)
      have hsign : ¬((bn.natAbs : Int) < 0) := by omega
      unfold getCompact at h ⊢
      rw [Int.natAbs_natCast, if_neg hsign, add_zero] at h
      simp only at h ⊢
      rw [h, if_pos hneg, add_assoc]
    have hwidth : 0 < Framework.width 256 2 bn.natAbs := Framework.width_pos (by norm_num) (by omega)
    have hmantissa := mantissa_lt (n := bn.natAbs)
    rw [hform]
    exact (setCompact_nonpos hwidth (by omega) (by omega)).trans (le_max_right bn 0)
  · obtain ⟨n, rfl⟩ := Int.eq_ofNat_of_zero_le hnonneg
    exact (setCompact_getCompact_le n).trans (le_max_left _ _)

/-- The compact form keeps a target positive. -/
theorem setCompact_getCompact_pos {bn : Int} (hpos : 0 < bn) : 0 < setCompact (getCompact bn) := by
  obtain ⟨n, rfl⟩ := Int.eq_ofNat_of_zero_le hpos.le
  have hn : 0 < n := by omega
  have hlow := Framework.pow_width_le_lead (b := 256) (c := 2) (p := 3) (n := n) (by norm_num) (by norm_num)
    (by norm_num) hn
  have hpow : 0 < 256 ^ (Framework.width 256 2 n - 1) := Nat.pow_pos (by norm_num)
  have hlead : 0 < Framework.lead 256 2 3 n := by omega
  show 0 < setCompact (getCompact (n : Int))
  rw [setCompact_getCompact]
  exact_mod_cast hlead

/-! ### The range of the next target -/

/-- The greatest target is positive. -/
theorem bnProofOfWorkLimit_pos : 0 < bnProofOfWorkLimit := by
  unfold bnProofOfWorkLimit
  norm_num

/-- The limit loses its low bits in compact form. -/
theorem setCompact_getCompact_limit : setCompact (getCompact bnProofOfWorkLimit) = 0xfffff * 2 ^ 216 := by
  decide

/-- No target is above it. -/
theorem getNextTargetRequired_le (hmain : P.fTestNet = false) (q : BlockPtr) :
    setCompact (getNextTargetRequired P q fProofOfStake) ≤ bnProofOfWorkLimit := by
  have hlimit : max bnProofOfWorkLimit 0 = bnProofOfWorkLimit := max_eq_left bnProofOfWorkLimit_pos.le
  cases q with
  -- the genesis block has the limit
  | nil =>
    show setCompact (getCompact bnProofOfWorkLimit) ≤ bnProofOfWorkLimit
    exact (setCompact_getCompact_le_max _).trans hlimit.le
  | cons pindexLast p =>
    -- two blocks of the kind give a target, which is capped
    by_cases h : ∃ pindexPrev pindexPrevPrev,
        RetargetsFrom fProofOfStake (pindexLast :: p) pindexPrev pindexPrevPrev
    · obtain ⟨pindexPrev, pindexPrevPrev, h⟩ := h
      rw [getNextTargetRequired_eq h]
      refine (setCompact_getCompact_le_max _).trans ?_
      rw [max_le_iff]
      exact ⟨min_le_left _ _, bnProofOfWorkLimit_pos.le⟩
    · -- otherwise it is an initial one
      rw [getNextTargetRequired_initial (fun a b hab => h ⟨a, b, hab⟩)]
      unfold getInitialTarget Params.bnInitialProofOfStakeHashTarget Params.bnInitialHashTarget
      simp only [hmain, Bool.false_eq_true, if_false]
      split_ifs
      · exact (setCompact_getCompact_le_max _).trans (max_le (by norm_num [bnProofOfWorkLimit]) bnProofOfWorkLimit_pos.le)
      · exact (setCompact_getCompact_le_max _).trans (max_le (by norm_num [bnProofOfWorkLimit]) bnProofOfWorkLimit_pos.le)

/-- A target that is not too small stays positive. -/
theorem RetargetsFrom.retarget_pos
    (h : RetargetsFrom fProofOfStake (pindexLast :: p) pindexPrev pindexPrevPrev)
    (hheights : BlockPtr.HeightsOk (pindexLast :: p)) (htimes : BlockPtr.TimesOk (pindexLast :: p))
    (htarget : 2 ^ 24 ≤ setCompact pindexPrev.nBits) :
    0 < retarget fProofOfStake pindexLast pindexPrev pindexPrevPrev := by
  obtain ⟨hlow, hhigh⟩ := @targetSpacing_bounds fProofOfStake _ _ (h.heights_le hheights)
  obtain ⟨hpos, hdivisor⟩ := retargetDivisor_bounds hlow hhigh
  have hfactor := h.factor_gt hheights htimes
  set factor := retargetFactor (targetSpacing fProofOfStake pindexLast pindexPrev)
    (pindexPrev.nTime - pindexPrevPrev.nTime)
  have hproduct : 626400 ≤ setCompact pindexPrev.nBits * factor := by nlinarith
  unfold retarget
  rw [Int.tdiv_eq_ediv_of_nonneg (by linarith)]
  exact Int.le_ediv_of_mul_le hpos (by linarith)

/-- Retargeting stays in range on the main network: the factor is positive, a target of at least `2 ^ 24`
is followed by a positive one, and no target is above the proof-of-work limit. -/
theorem retarget_inRange {P : Params} (hmain : P.fTestNet = false) (fProofOfStake : Bool)
    {pindexLast : CBlockIndex} {p : BlockPtr} (hheights : BlockPtr.HeightsOk (pindexLast :: p))
    (htimes : BlockPtr.TimesOk (pindexLast :: p)) :
    setCompact (getNextTargetRequired P (pindexLast :: p) fProofOfStake) ≤ bnProofOfWorkLimit
      ∧ ∀ pindexPrev pindexPrevPrev,
        RetargetsFrom fProofOfStake (pindexLast :: p) pindexPrev pindexPrevPrev →
          getNextTargetRequired P (pindexLast :: p) fProofOfStake
              = getCompact (min bnProofOfWorkLimit (retarget fProofOfStake pindexLast pindexPrev pindexPrevPrev))
            ∧ 0 < retargetFactor (targetSpacing fProofOfStake pindexLast pindexPrev)
                (pindexPrev.nTime - pindexPrevPrev.nTime)
            ∧ (2 ^ 24 ≤ setCompact pindexPrev.nBits →
                0 < retarget fProofOfStake pindexLast pindexPrev pindexPrevPrev
                  ∧ 0 < setCompact (getNextTargetRequired P (pindexLast :: p) fProofOfStake)) := by
  refine ⟨getNextTargetRequired_le hmain _, fun pindexPrev pindexPrevPrev h => ?_⟩
  refine ⟨getNextTargetRequired_eq h, by linarith [h.factor_gt hheights htimes], fun htarget => ?_⟩
  have hpos := h.retarget_pos hheights htimes htarget
  refine ⟨hpos, ?_⟩
  rw [getNextTargetRequired_eq h]
  exact setCompact_getCompact_pos (lt_min bnProofOfWorkLimit_pos hpos)

end Retarget

namespace RetargetSample

/-- The main network, with hash functions that are easy to compute. -/
def params : Params where
  fTestNet := false
  hashTx tx := tx.nTime
  hashHeader _ _ _ nTime _ _ := nTime
  hashPair a b := a + b
  hash160 _ := List.replicate 20 0
  hash160_length := length_zeroHash160
  verifyKey _ _ _ := true
  verifyScript _ _ _ _ _ := true

/-- A proof-of-work block. -/
def workBlock (nHeight nTime nBits : Nat) : CBlockIndex where
  hashBlock := nTime
  nFile := 1
  nBlockPos := 0
  bnChainTrust := nHeight
  nHeight
  fProofOfStake := false
  nTime
  nBits

/-- The last block is an hour before its parent. -/
def backwards : BlockPtr :=
  [workBlock 3 1510340000 0x1d00ffff, workBlock 2 1510343600 0x1d00ffff, workBlock 1 1510339533 0x1d00ffff,
    workBlock 0 1510339532 0x1e0fffff]

/-- The sample chain, whose times run backwards, has allowed times. -/
theorem backwards_timesOk : backwards.TimesOk := by
  refine ⟨?_, ?_, ?_, ?_, ?_, ?_, trivial⟩ <;> decide

/-- And its target is computed. -/
theorem backwards_retargetsFrom :
    RetargetsFrom false backwards (workBlock 3 1510340000 0x1d00ffff) (workBlock 2 1510343600 0x1d00ffff) :=
  ⟨⟨_, rfl, _, rfl, List.cons_ne_nil _ _⟩⟩

end RetargetSample

open RetargetSample in
/-- A block that is earlier than its parent makes the next target smaller, and leaves it in range. -/
theorem retarget_inRange_backwards :
    0 < setCompact (getNextTargetRequired params backwards false)
      ∧ setCompact (getNextTargetRequired params backwards false) ≤ bnProofOfWorkLimit
      ∧ 0 < retargetFactor STAKE_TARGET_SPACING (-3600) := by
  obtain ⟨hle, hfrom⟩ := retarget_inRange (P := params) rfl false
    (show BlockPtr.HeightsOk backwards from ⟨rfl, rfl, rfl, rfl, trivial⟩) backwards_timesOk
  obtain ⟨-, hfactor, hpos⟩ := hfrom _ _ backwards_retargetsFrom
  exact ⟨(hpos (by decide)).2, hle, hfactor⟩

end Peershares
