import Peershares.Framework.Median
import Peershares.Model.TimeData

/-!
# How far the peers can move the clock

`AddTimeData` takes one sample from each address, and while the filter has an odd number of values, from
five on, sets `nTimeOffset` to their median or to zero. The filter starts with the value zero, our own
clock, and becomes full at an even number, so it never forgets a value that a later median would need.

The bound of seventy minutes is tested with `abs64`, which is negative at the least `int64`. So the offset
is bounded exactly as long as the least `int64` is not the value of more than half of the samples.

* `TimeData.Inv`, `TimeData.Inv.addTimeData`, `TimeData.Inv.run` — what the state says about the samples
* `timeOffset_bounded_iff` — the bound
-/

open Framework

namespace Peershares

/-- No 64-bit integer is below the least one. -/
theorem Int64.le_bmod (n : ℤ) : -2 ^ 63 ≤ n.bmod (2 ^ 64) := by
  have h := Int.le_bmod (x := n) (m := 2 ^ 64) (by norm_num)
  norm_num at h ⊢
  omega

/-- The test with `abs64` lets the least `int64` pass. -/
theorem abs64_lt_iff {m nBound : ℤ} (hlow : -2 ^ 63 ≤ m) (hpos : 0 < nBound) :
    abs64 m < nBound ↔ m = -2 ^ 63 ∨ |m| < nBound := by
  unfold abs64
  split_ifs with hnonneg
  · rw [abs_of_nonneg hnonneg]
    omega
  · rw [abs_of_neg (not_le.mp hnonneg)]
    rcases hlow.eq_or_lt with heq | hlt
    · rw [← heq]
      have hwrap : (-(-2 ^ 63) : ℤ).bmod (2 ^ 64) = -2 ^ 63 := by decide
      rw [hwrap]
      constructor
      · intro _
        exact Or.inl rfl
      · intro _
        omega
    · have hfits : (-m).bmod (2 ^ 64) = -m := Int.bmod_eq_of_le_mul_two (by omega) (by omega)
      rw [hfits]
      omega

namespace TimeData

variable {A : Type}

/-- One call of `AddTimeData`: the peer, its time, and our own. -/
structure Call (A : Type) where
  ip : A
  nTime : Int
  nNow : Int

/-- `nOffsetSample`. -/
def Call.sample (c : Call A) : Int := (c.nTime - c.nNow).bmod (2 ^ 64)

/-- The calls, one after the other. -/
def run [DecidableEq A] (s : TimeData A) (calls : List (Call A)) : Result (TimeData A) :=
  calls.foldlM (fun s c => addTimeData c.ip c.nTime c.nNow s) s

/-- The samples that count: the first one of each address that is not known yet. -/
def firstSamples [DecidableEq A] (known : List A) : List (Call A) → List Int
  | [] => []
  | c :: calls =>
    if c.ip ∈ known then firstSamples known calls
    else c.sample :: firstSamples (c.ip :: known) calls

/-- What has gone into the filter: the value it starts with, and the samples. -/
def accepted [DecidableEq A] (calls : List (Call A)) : List Int := 0 :: firstSamples [] calls

/-- A number of values at which the offset is set. -/
def IsUpdate (n : ℕ) : Prop := 5 ≤ n ∧ n ≤ 199 ∧ n % 2 = 1

/-- The number of values at the last update. -/
def LastUpdate (n : ℕ) (v : List Int) : Prop :=
  IsUpdate n ∧ n ≤ v.length ∧ ∀ n', IsUpdate n' → n' ≤ v.length → n' ≤ n

/-- The offset after the values `v`: zero before the first update, and then the median, unless the test
refuses it. -/
def OffsetAfter (v : List Int) (nTimeOffset : Int) : Prop :=
  ((∀ n, IsUpdate n → v.length < n) ∧ nTimeOffset = 0) ∨
    ∃ n m, LastUpdate n v ∧ IsMedian m (v.take n) ∧
      nTimeOffset = if abs64 m < 70 * 60 then m else 0

/-- What the state says about the values that have gone in. -/
structure Inv (v : List Int) (s : TimeData A) : Prop where
  ne_nil : v ≠ []
  least : ∀ x ∈ v, -2 ^ 63 ≤ x
  size : s.vTimeOffsets.nSize = 200
  values : s.vTimeOffsets.vValues = v.drop (v.length - 200)
  offset : OffsetAfter v s.nTimeOffset

/-- The clock begins with the one offset zero. -/
theorem Inv.start : Inv [0] ({} : TimeData A) := by
  refine ⟨by simp, by simp, rfl, rfl, Or.inl ⟨?_, rfl⟩⟩
  intro n hn
  rw [List.length_singleton]
  have := hn.1
  omega

/-- A value that is no update leaves the last one in force. -/
theorem OffsetAfter.append {v : List Int} {o x : Int} (h : OffsetAfter v o) (hno : ¬IsUpdate (v.length + 1)) :
    OffsetAfter (v ++ [x]) o := by
  have hlen : (v ++ [x]).length = v.length + 1 := by simp
  rcases h with ⟨hfirst, rfl⟩ | ⟨n, m, ⟨hupdate, hle, hlast⟩, hmedian, ho⟩
  · refine Or.inl ⟨?_, rfl⟩
    intro n hn
    rw [hlen]
    refine lt_of_le_of_ne (hfirst n hn) ?_
    intro heq
    exact hno (heq ▸ hn)
  · refine Or.inr ⟨n, m, ⟨hupdate, by omega, ?_⟩, ?_, ho⟩
    · intro n' hn' hle'
      rw [hlen] at hle'
      rcases Nat.lt_or_eq_of_le hle' with hlt | heq
      · exact hlast n' hn' (by omega)
      · exact absurd (heq ▸ hn') hno
    · rwa [List.take_append_of_le_length hle]

/-- A value that is an update makes a new median. -/
theorem offsetAfter_update {v : List Int} {m : Int} (hupdate : IsUpdate v.length) (hmedian : IsMedian m v) :
    OffsetAfter v (if abs64 m < 70 * 60 then m else 0) := by
  refine Or.inr ⟨v.length, m, ⟨hupdate, le_rfl, fun n' _ hle => hle⟩, ?_, rfl⟩
  rwa [List.take_length]

/-- The filter after one more value. -/
theorem Inv.input {v : List Int} {s : TimeData A} (h : Inv v s) (x : Int) :
    (s.vTimeOffsets.input x).vValues = (v ++ [x]).drop ((v ++ [x]).length - 200) := by
  have hlen : s.vTimeOffsets.vValues.length = min v.length 200 := by
    rw [h.values, List.length_drop]
    omega
  unfold CMedianFilter.input
  simp only [h.size, hlen]
  rw [h.values, List.length_append, List.length_singleton]
  split_ifs with hfull
  · -- a full filter forgets one value
    have hnext : v.length - 200 + 1 = v.length + 1 - 200 := by omega
    rw [List.tail_drop, hnext, List.drop_append_of_le_length (by omega)]
  · have hzero : v.length - 200 = 0 := by omega
    have hzero' : v.length + 1 - 200 = 0 := by omega
    rw [hzero, hzero', List.drop_zero, List.drop_zero]

/-- The warning does not touch the offsets. -/
@[simp] theorem warn_vTimeOffsets (s : TimeData A) : s.warn.vTimeOffsets = s.vTimeOffsets := by
  unfold warn
  split_ifs <;> rfl

/-- Nor the one in use. -/
@[simp] theorem warn_nTimeOffset (s : TimeData A) : s.warn.nTimeOffset = s.nTimeOffset := by
  unfold warn
  split_ifs <;> rfl

/-- Nor the addresses. -/
@[simp] theorem warn_setKnown (s : TimeData A) : s.warn.setKnown = s.setKnown := by
  unfold warn
  split_ifs <;> rfl

variable [DecidableEq A]

/-- **One call** of an address that is not known gives the filter one value. -/
theorem Inv.addTimeData {v : List Int} {s : TimeData A} (h : Inv v s) (c : Call A)
    (hnew : c.ip ∉ s.setKnown) :
    ∃ s', addTimeData c.ip c.nTime c.nNow s = .ok s' ∧ Inv (v ++ [c.sample]) s' ∧
      s'.setKnown = c.ip :: s.setKnown := by
  -- the filter keeps the last 200 values
  have hvalues := h.input c.sample
  have hlenv : (v ++ [c.sample]).length = v.length + 1 := by simp
  have hsize : (s.vTimeOffsets.input c.sample).size = min (v.length + 1) 200 := by
    unfold CMedianFilter.size
    rw [hvalues, List.length_drop, hlenv]
    omega
  have hleast : ∀ x ∈ v ++ [c.sample], -2 ^ 63 ≤ x := by
    intro x hx
    rcases List.mem_append.mp hx with hx | hx
    · exact h.least x hx
    · rw [List.mem_singleton.mp hx]
      exact Int64.le_bmod _
  -- a new address is noted and its offset put into the filter
  unfold TimeData.addTimeData
  simp only
  rw [if_neg hnew]
  change ∃ s', (if (decide (5 ≤ (s.vTimeOffsets.input c.sample).size) &&
    decide ((s.vTimeOffsets.input c.sample).size % 2 = 1)) = true then _ else _) = _ ∧ _
  -- below 200 values the filter has all of them, so its median is that of the calls
  by_cases hupdate : IsUpdate (v.length + 1)
  · obtain ⟨hge, hle, hodd⟩ := hupdate
    have hall : (s.vTimeOffsets.input c.sample).vValues = v ++ [c.sample] := by
      have hzero : v.length + 1 - 200 = 0 := by omega
      rw [hvalues, hlenv, hzero, List.drop_zero]
    obtain ⟨m, hmiddle, hmedian⟩ := isMedian_middle (v := v ++ [c.sample]) (by simp)
    have hsorted : (s.vTimeOffsets.input c.sample).vSorted = (v ++ [c.sample]).insertionSort (· ≤ ·) := by
      rw [← hall]
      rfl
    have hmed : (s.vTimeOffsets.input c.sample).median = .ok m := by
      unfold CMedianFilter.median
      simp only [hsorted, List.length_insertionSort, hlenv]
      -- no update: an even number, too few, or the filter has started to forget
      rw [if_neg (by omega), if_pos hodd, ← hlenv, hmiddle]
      rfl
    have hoffset := offsetAfter_update (by rw [hlenv]; exact ⟨hge, hle, hodd⟩) hmedian
    rw [if_pos (by rw [hsize]; simp; omega)]
    change ∃ s', ((s.vTimeOffsets.input c.sample).median >>= _) = _ ∧ _
    rw [hmed, Result.ok_bind]
    split_ifs with hbound
    · -- the median is within bounds, and becomes the offset
      rw [if_pos hbound] at hoffset
      exact ⟨_, rfl, ⟨by simp, hleast, h.size, hvalues, hoffset⟩, rfl⟩
    · -- it is not: the offset is zero, and a warning is all that is left to do
      rw [if_neg hbound] at hoffset
      refine ⟨_, rfl, ⟨by simp, hleast, ?_, ?_, ?_⟩, ?_⟩
      · rw [warn_vTimeOffsets]
        exact h.size
      · rw [warn_vTimeOffsets]
        exact hvalues
      · rw [warn_nTimeOffset]
        exact hoffset
      · rw [warn_setKnown]
  · -- no update, and the offset stays
    rw [if_neg (by
      rw [hsize]
      simp only [Bool.and_eq_true, decide_eq_true_eq, not_and]
      intro hge hodd
      exact hupdate ⟨by omega, by omega, by omega⟩)]
    exact ⟨_, rfl, ⟨by simp, hleast, h.size, hvalues, h.offset.append hupdate⟩, rfl⟩

/-- **Any number of calls.** -/
theorem Inv.run {v : List Int} {s : TimeData A} (h : Inv v s) (calls : List (Call A)) :
    ∃ s', run s calls = .ok s' ∧ Inv (v ++ firstSamples s.setKnown calls) s' := by
  induction calls generalizing v s with
  | nil =>
    refine ⟨s, rfl, ?_⟩
    rwa [firstSamples, List.append_nil]
  | cons c calls ih =>
    unfold TimeData.run at ih ⊢
    rw [List.foldlM_cons, firstSamples]
    by_cases hknown : c.ip ∈ s.setKnown
    · -- the address has given its sample already
      rw [if_pos hknown]
      have hsame : TimeData.addTimeData c.ip c.nTime c.nNow s = .ok s := by
        unfold TimeData.addTimeData
        simp only
        rw [if_pos hknown]
      rw [hsame, Result.ok_bind]
      exact ih h
    · -- a new address gives its sample
      rw [if_neg hknown]
      obtain ⟨s₁, hstep, hinv, hset⟩ := h.addTimeData c hknown
      rw [hstep, Result.ok_bind]
      obtain ⟨s', hrun, hinv'⟩ := ih hinv
      rw [hset, List.append_assoc] at hinv'
      exact ⟨s', hrun, hinv'⟩

/-! ### The samples of a part of the calls -/

/-- More calls add samples at the end. -/
theorem firstSamples_append (known : List A) (cs cs' : List (Call A)) :
    firstSamples known cs <+: firstSamples known (cs ++ cs') := by
  induction cs generalizing known with
  | nil => exact List.nil_prefix
  | cons c cs ih =>
    rw [List.cons_append, firstSamples, firstSamples]
    split_ifs
    · exact ih known
    · exact List.prefix_cons_inj c.sample |>.mpr (ih (c.ip :: known))

/-- And so for what is accepted of them. -/
theorem accepted_prefix {cs calls : List (Call A)} (h : cs <+: calls) : accepted cs <+: accepted calls := by
  obtain ⟨cs', rfl⟩ := h
  exact (List.prefix_cons_inj 0).mpr (firstSamples_append [] cs cs')

/-- Every number of samples up to the last one is reached on the way. -/
theorem exists_firstSamples_eq_take (known : List A) (calls : List (Call A)) {k : ℕ}
    (hk : k ≤ (firstSamples known calls).length) :
    ∃ cs, cs <+: calls ∧ firstSamples known cs = (firstSamples known calls).take k := by
  induction calls generalizing known k with
  | nil => exact ⟨[], List.nil_prefix, by simp [firstSamples]⟩
  | cons c calls ih =>
    rw [firstSamples] at hk ⊢
    split_ifs at hk ⊢ with hknown
    · obtain ⟨cs, hcs, heq⟩ := ih known hk
      refine ⟨c :: cs, (List.prefix_cons_inj c).mpr hcs, ?_⟩
      rw [firstSamples, if_pos hknown, heq]
    · cases k with
      | zero => exact ⟨[], List.nil_prefix, rfl⟩
      | succ k =>
        obtain ⟨cs, hcs, heq⟩ := ih (c.ip :: known) (by simpa using hk)
        refine ⟨c :: cs, (List.prefix_cons_inj c).mpr hcs, ?_⟩
        rw [firstSamples, if_neg hknown, heq, List.take_succ_cons]

/-! ### The bound -/

/-- What the offset should be after the values `v`: less than seventy minutes, and zero or the median at
the last update. The difference of the two times is taken as the code takes it, as an `int64`; away from
the ends of its range it is the difference of the numbers. -/
structure OffsetRight (v : List Int) (s : TimeData A) : Prop where
  bound : |s.nTimeOffset| < 70 * 60
  median : s.nTimeOffset = 0 ∨ ∃ n, LastUpdate n v ∧ IsMedian s.nTimeOffset (v.take n)
  adjusted : ∀ nNow, |(s.getAdjustedTime nNow - nNow).bmod (2 ^ 64)| < 70 * 60
  exact : ∀ nNow, |nNow| ≤ 2 ^ 63 - 70 * 60 → |s.getAdjustedTime nNow - nNow| < 70 * 60

omit [DecidableEq A] in

/-- An offset in use is bounded, and the median of the samples up to the last update. -/
theorem offsetRight_of_bound {v : List Int} {s : TimeData A} (hbound : |s.nTimeOffset| < 70 * 60)
    (hmedian : s.nTimeOffset = 0 ∨ ∃ n, LastUpdate n v ∧ IsMedian s.nTimeOffset (v.take n)) :
    OffsetRight v s := by
  obtain ⟨hlow, hhigh⟩ := abs_lt.mp hbound
  refine ⟨hbound, hmedian, ?_, ?_⟩
  · intro nNow
    have hfits : s.nTimeOffset.bmod (2 ^ 64) = s.nTimeOffset :=
      Int.bmod_eq_of_le_mul_two (by omega) (by omega)
    unfold getAdjustedTime
    rw [Int.bmod_sub_bmod, add_sub_cancel_left, hfits]
    exact hbound
  · intro nNow hnow
    obtain ⟨hmin, hmax⟩ := abs_le.mp hnow
    have hfits : (nNow + s.nTimeOffset).bmod (2 ^ 64) = nNow + s.nTimeOffset :=
      Int.bmod_eq_of_le_mul_two (by omega) (by omega)
    unfold getAdjustedTime
    rw [hfits, add_sub_cancel_left]
    exact hbound

end TimeData

open TimeData in
/-- **The offset is bounded** in every state on the way exactly when at no update the least `int64` is the
value of more than half of the samples. -/
theorem timeOffset_bounded_iff {A : Type} [DecidableEq A] (calls : List (TimeData.Call A)) :
    (∀ cs, cs <+: calls → ∃ s, TimeData.run {} cs = .ok s ∧ OffsetRight (accepted cs) s) ↔
      ∀ n, IsUpdate n → n ≤ (accepted calls).length →
        2 * ((accepted calls).take n).count (-2 ^ 63) < n := by
  constructor
  · -- the calls up to the `n`th sample, in whose state the offset is that of the `n` samples
    intro h n hupdate hn
    have hk : n - 1 ≤ (firstSamples [] calls).length := by
      rw [accepted, List.length_cons] at hn
      omega
    obtain ⟨cs, hcs, htake⟩ := exists_firstSamples_eq_take [] calls hk
    have hv : accepted cs = (accepted calls).take n := by
      obtain ⟨k, rfl⟩ : ∃ k, n = k + 1 := ⟨n - 1, by have := hupdate.1; omega⟩
      rw [accepted, accepted, htake, List.take_succ_cons, Nat.add_sub_cancel]
    have hlen : (accepted cs).length = n := by
      rw [hv, List.length_take]
      omega
    obtain ⟨s, hrun, hright⟩ := h cs hcs
    obtain ⟨s', hrun', hinv⟩ := Inv.start.run cs
    rw [hrun] at hrun'
    cases hrun'
    -- some update was the last one
    rcases hinv.offset with ⟨hfirst, -⟩ | ⟨n', m, ⟨hupdate', hle', hlast⟩, hmedian, ho⟩
    · exact absurd (hfirst n hupdate) (by rw [← hlen]; exact lt_irrefl _)
    · -- the last update is the one of these values
      have hn' : n' = (accepted cs).length :=
        le_antisymm hle' (by rw [hlen]; exact hlast n hupdate hlen.ge)
      have htakeall : (accepted cs).take n' = accepted cs := by rw [hn', List.take_length]
      change IsMedian m ((accepted cs).take n') at hmedian
      rw [htakeall] at hmedian
      rw [← hv]
      by_contra hmore
      have hodd : (accepted cs).length % 2 = 1 := by
        rw [hlen]
        exact hupdate.2.2
      -- if half of the samples are the least number, so is the median
      have hextreme : m = -2 ^ 63 := by
        refine (hmedian.eq_least_iff hinv.least hodd).mpr ?_
        have := hupdate.2.2
        omega
      rw [hextreme, if_pos (by decide)] at ho
      -- and its `abs64` is negative, so it becomes the offset
      have hbound := hright.bound
      rw [ho] at hbound
      exact absurd hbound (by decide)
  · -- conversely, an offset in use is a median within bounds, or zero
    intro h cs hcs
    obtain ⟨s, hrun, hinv⟩ := Inv.start.run cs
    refine ⟨s, hrun, ?_⟩
    rcases hinv.offset with ⟨-, ho⟩ | ⟨n, m, ⟨hupdate, hle, hlast⟩, hmedian, ho⟩
    · exact offsetRight_of_bound (by rw [ho]; norm_num) (Or.inl ho)
    · change n ≤ (accepted cs).length at hle
      change IsMedian m ((accepted cs).take n) at hmedian
      have hvals := accepted_prefix hcs
      have htake : (accepted cs).take n = (accepted calls).take n := by
        obtain ⟨rest, hrest⟩ := hvals
        rw [← hrest, List.take_append_of_le_length hle]
      have hlen : ((accepted cs).take n).length = n := by
        rw [List.length_take]
        omega
      have hleast : ∀ x ∈ (accepted cs).take n, -2 ^ 63 ≤ x :=
        fun x hx => hinv.least x (List.mem_of_mem_take hx)
      -- it is not the least number, as too few samples are
      have hne : m ≠ -2 ^ 63 := by
        intro heq
        have hodd : ((accepted cs).take n).length % 2 = 1 := by
          rw [hlen]
          exact hupdate.2.2
        have hmore := (hmedian.eq_least_iff hleast hodd).mp heq
        rw [hlen, htake] at hmore
        have hfew := h n hupdate (hle.trans hvals.length_le)
        omega
      split_ifs at ho with hbound
      · refine offsetRight_of_bound ?_ (Or.inr ⟨n, ⟨hupdate, hle, hlast⟩, ho ▸ hmedian⟩)
        rw [ho]
        exact ((abs64_lt_iff (hleast m hmedian.1) (by norm_num)).mp hbound).resolve_left hne
      · exact offsetRight_of_bound (by rw [ho]; norm_num) (Or.inl ho)

namespace Sample

/-- Four peers whose clocks are as far back as an `int64` can say. -/
def farBack : List (TimeData.Call ℕ) := [⟨1, -2 ^ 63, 0⟩, ⟨2, -2 ^ 63, 0⟩, ⟨3, -2 ^ 63, 0⟩, ⟨4, -2 ^ 63, 0⟩]

end Sample

/-- The least `int64` passes the test and becomes the offset. -/
theorem timeOffset_farBack : ¬ ∀ cs, cs <+: Sample.farBack →
    ∃ s, TimeData.run {} cs = .ok s ∧ TimeData.OffsetRight (TimeData.accepted cs) s := by
  intro h
  obtain ⟨s, hrun, hright⟩ := h Sample.farBack List.prefix_rfl
  have hoffset : (TimeData.run {} Sample.farBack).toOption.map TimeData.nTimeOffset = some (-2 ^ 63) := by
    decide
  rw [hrun] at hoffset
  have hbound := hright.bound
  rw [Option.some.inj hoffset] at hbound
  exact absurd hbound (by decide)

end Peershares
