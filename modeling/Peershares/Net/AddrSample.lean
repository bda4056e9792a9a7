import Peershares.Framework.Draw
import Peershares.Net.AddrCalls

/-!
# The entry that makes room in a tried bucket

`SelectTried` draws up to four entries of a bucket by exchanging them to its front, and remembers the position
from which the least recently tried of them was drawn. By then another entry is at this position, and a later
round may exchange it once more.

* `foldlM_selectTriedStep_range` — what the loop has after each round
* `not_selectTried_least` — the entry at the position that is returned can be another one
* `selectTried_least_iff` — when it is the least of those that were drawn
-/

open Framework

namespace Peershares

namespace CAddrMan

variable (am : CAddrMan) (b : ℕ) (rnd : ℕ → ℕ)

/-! ### What is looked at -/

/-- How many entries of the bucket `SelectTried` looks at. -/
def inspections : ℕ := min ADDRMAN_TRIED_ENTRIES_INSPECT_ON_EVICT (am.triedBucket b).length

/-- The position that is drawn for the `i`-th of them. -/
def triedDraw (i : ℕ) : ℕ := getRandInt (rnd i) ((am.triedBucket b).length - i) + i

/-- The `i`-th entry that is looked at. -/
def inspected (i : ℕ) : ℤ := (drawnAt (am.triedDraw b rnd) (am.triedBucket b) i).getD 0

def lastSuccess (nId : ℤ) : ℤ := (am.info nId).nLastSuccess.toInt

/-- At this position there is an entry that was looked at, and none of those that were looked at has a lesser
`nLastSuccess`. -/
def LeastInspected (vTried : List ℤ) (nPos : ℤ) : Prop :=
  ∃ i < am.inspections b, 0 ≤ nPos ∧ vTried[nPos.toNat]? = some (am.inspected b rnd i) ∧
    ∀ j < am.inspections b, am.lastSuccess (am.inspected b rnd i) ≤ am.lastSuccess (am.inspected b rnd j)

/-- The draw for the first of the least entries fell on a position that is exchanged to the front itself, and the
entry that gets there is as old. It is so when the draw fell on the position of its own round. -/
def DrawStays : Prop :=
  ∃ k, FirstLeast (fun i => am.lastSuccess (am.inspected b rnd i)) (am.inspections b) k ∧
    am.triedDraw b rnd k < am.inspections b ∧
    am.lastSuccess (am.inspected b rnd (am.triedDraw b rnd k)) = am.lastSuccess (am.inspected b rnd k)

variable {am} {b} {rnd}

theorem triedDraw_inRange : InRange (am.triedDraw b rnd) (am.triedBucket b) (am.inspections b) := by
  intro r hr
  have hlen : r < (am.triedBucket b).length := hr.trans_le (min_le_right _ _)
  have hlt := @getRandInt_lt (rnd r) ((am.triedBucket b).length - r) (by omega)
  unfold triedDraw
  omega

theorem drawnAt_eq {i : ℕ} (hi : i < am.inspections b) :
    drawnAt (am.triedDraw b rnd) (am.triedBucket b) i = some (am.inspected b rnd i) := by
  have hrange := @triedDraw_inRange am b rnd
  have hperm := @shuffle_perm _ (am.triedBucket b) i (am.triedDraw b rnd)
    fun r hr => hrange r (hr.trans hi)
  have hlt : am.triedDraw b rnd i < (shuffle (am.triedDraw b rnd) (am.triedBucket b) i).length := by
    rw [hperm.length_eq]
    exact (hrange i hi).2
  unfold inspected drawnAt
  rw [List.getElem?_eq_getElem hlt, Option.getD_some]

theorem inspected_mem {i : ℕ} (hi : i < am.inspections b) : am.inspected b rnd i ∈ am.triedBucket b := by
  have hrange := @triedDraw_inRange am b rnd
  have hperm := @shuffle_perm _ (am.triedBucket b) i (am.triedDraw b rnd)
    fun r hr => hrange r (hr.trans hi)
  exact hperm.mem_iff.mp (List.mem_of_getElem? (drawnAt_eq hi))

/-! ### The loop -/

/-- One round exchanges two entries, and remembers the entry that it draws when it is the first or older. -/
theorem selectTriedStep_shuffle (hhas : ∀ n ∈ am.triedBucket b, am.has n = true) {m : ℕ}
    (hm : m < am.inspections b) {scan : TriedScan}
    (hscan : scan.vTried = shuffle (am.triedDraw b rnd) (am.triedBucket b) m) :
    am.selectTriedStep rnd scan m = some (
      let vTried := shuffle (am.triedDraw b rnd) (am.triedBucket b) (m + 1)
      if scan.nOldest = -1 ∨
          (am.info (am.inspected b rnd m)).nLastSuccess < (am.info scan.nOldest).nLastSuccess then
        { vTried, nOldest := am.inspected b rnd m, nOldestPos := am.triedDraw b rnd m }
      else { scan with vTried }) := by
  have hrange := @triedDraw_inRange am b rnd
  have hlen := (@shuffle_perm _ (am.triedBucket b) m (am.triedDraw b rnd)
    fun r hr => hrange r (hr.trans hm)).length_eq
  have hmlen : m < (shuffle (am.triedDraw b rnd) (am.triedBucket b) m).length := by
    rw [hlen]
    exact hm.trans_le (min_le_right _ _)
  have hdraw : getRandInt (rnd m) (scan.vTried.length - m) + m = am.triedDraw b rnd m := by
    rw [hscan, hlen]
    rfl
  have hget : scan.vTried[am.triedDraw b rnd m]? = some (am.inspected b rnd m) := by
    rw [hscan]
    exact drawnAt_eq hm
  have hexchange : (scan.vTried.set (am.triedDraw b rnd m) (scan.vTried.getD m 0)).set m
      (am.inspected b rnd m) = shuffle (am.triedDraw b rnd) (am.triedBucket b) (m + 1) := by
    rw [hscan] at hget ⊢
    rw [shuffle, exchange, hget, List.getElem?_eq_getElem hmlen, List.getD_eq_getElem?_getD,
      List.getElem?_eq_getElem hmlen]
    rfl
  unfold selectTriedStep
  simp only [hdraw, List.getD_eq_getElem?_getD, hget, Option.getD_some, hhas _ (inspected_mem hm), or_true,
    guard_true, Option.pure_def, Option.bind_eq_bind, Option.bind_some]
  rw [← List.getD_eq_getElem?_getD, hexchange]
  split_ifs <;> rfl

/-- **After each round** the first of the least entries so far is remembered, with the position from which it was
drawn. An id is not `-1`, which stands for none. -/
theorem foldlM_selectTriedStep_range (hhas : ∀ n ∈ am.triedBucket b, am.has n = true)
    (hid : ∀ n ∈ am.triedBucket b, 0 ≤ n) {m : ℕ} (hm : m < am.inspections b) :
    ∃ k, FirstLeast (fun i => am.lastSuccess (am.inspected b rnd i)) (m + 1) k ∧
      (List.range (m + 1)).foldlM (am.selectTriedStep rnd) { vTried := am.triedBucket b } =
        some { vTried := shuffle (am.triedDraw b rnd) (am.triedBucket b) (m + 1)
               nOldest := am.inspected b rnd k
               nOldestPos := am.triedDraw b rnd k } := by
  induction m with
  | zero =>
    refine ⟨0, ⟨Nat.one_pos, fun i hi => absurd hi (Nat.not_lt_zero i), fun i hi => ?_⟩, ?_⟩
    · rw [Nat.lt_one_iff.mp hi]
    · have hfirst := @selectTriedStep_shuffle am b rnd hhas _ hm { vTried := am.triedBucket b } rfl
      rw [List.range_one, List.foldlM_cons, hfirst]
      rfl
  | succ m ih =>
    obtain ⟨k, hk, hfold⟩ := ih ((Nat.lt_succ_self m).trans hm)
    have hknown : am.inspected b rnd k ≠ -1 := by
      have := hid _ (@inspected_mem am b rnd _ (lt_of_lt_of_le hk.lt hm.le))
      omega
    have hsucc := hk.succ
    rw [List.range_succ, List.foldlM_append, hfold, Option.bind_eq_bind, Option.bind_some, List.foldlM_cons,
      selectTriedStep_shuffle hhas hm rfl]
    by_cases hless : am.lastSuccess (am.inspected b rnd (m + 1)) < am.lastSuccess (am.inspected b rnd k)
    · have htaken : am.inspected b rnd k = -1 ∨
          (am.info (am.inspected b rnd (m + 1))).nLastSuccess < (am.info (am.inspected b rnd k)).nLastSuccess :=
        .inr (Int64.lt_iff_toInt_lt.mpr hless)
      rw [if_pos hless] at hsucc
      refine ⟨m + 1, hsucc, ?_⟩
      rw [if_pos htaken]
      rfl
    · have hkept : ¬ (am.inspected b rnd k = -1 ∨
          (am.info (am.inspected b rnd (m + 1))).nLastSuccess <
            (am.info (am.inspected b rnd k)).nLastSuccess) :=
        not_or.mpr ⟨hknown, fun h => hless (Int64.lt_iff_toInt_lt.mp h)⟩
      rw [if_neg hless] at hsucc
      refine ⟨k, hsucc, ?_⟩
      rw [if_neg hkept]
      rfl

/-! ### The result -/

/-- `SelectTried` permutes the bucket and returns the position of a draw. -/
theorem selectTried_eq (hne : am.triedBucket b ≠ []) (hhas : ∀ n ∈ am.triedBucket b, am.has n = true)
    (hid : ∀ n ∈ am.triedBucket b, 0 ≤ n) :
    ∃ k, FirstLeast (fun i => am.lastSuccess (am.inspected b rnd i)) (am.inspections b) k ∧
      am.selectTried b rnd = some
        ({ am with
            vvTried := am.vvTried.set b (shuffle (am.triedDraw b rnd) (am.triedBucket b) (am.inspections b)) },
          (am.triedDraw b rnd k : ℤ)) := by
  have hpos : 0 < am.inspections b := lt_min (by decide) (List.length_pos_of_ne_nil hne)
  obtain ⟨m, hm⟩ : ∃ m, am.inspections b = m + 1 := ⟨am.inspections b - 1, by omega⟩
  obtain ⟨k, hk, hfold⟩ := @foldlM_selectTriedStep_range am b rnd hhas hid m (by omega)
  rw [← hm] at hk hfold
  refine ⟨k, hk, ?_⟩
  unfold selectTried
  unfold inspections at hfold
  simp only [Option.bind_eq_bind]
  rw [hfold]
  rfl

/-- In the states of the address manager the entries of a bucket are different and have information. -/
theorem Inv.triedBucket_nodup {hash64 : List UInt8 → UInt64} {p : Pending} (h : Inv hash64 p am)
    (hb : b < am.vvTried.length) :
    (am.triedBucket b).Nodup ∧ ∀ n ∈ am.triedBucket b, am.has n = true := by
  refine ⟨List.nodup_iff_count_le_one.mpr fun n => ?_, fun n hn => ?_⟩
  · by_cases hn : n ∈ am.triedBucket b
    · obtain ⟨-, -, -, -, -, -, hone⟩ := h.tried_of_mem hb hn
      have hsub : (am.triedBucket b).Sublist am.vvTried.flatten :=
        List.sublist_flatten_of_mem (List.mem_of_getElem? (triedBucket_eq hb))
      exact (hsub.count_le n).trans hone.le
    · exact (List.count_eq_zero_of_not_mem hn).le.trans (Nat.zero_le 1)
  · obtain ⟨info, hlookup, -⟩ := h.tried_of_mem hb hn
    exact has_eq_true hlookup

/-- **What comes back.** The bucket is permuted, and at the position that is returned there is the least recently
tried of the entries that were looked at exactly when the draw for it stays where it was. -/
theorem selectTried_least_iff (hne : am.triedBucket b ≠ []) (hnodup : (am.triedBucket b).Nodup)
    (hhas : ∀ n ∈ am.triedBucket b, am.has n = true) (hid : ∀ n ∈ am.triedBucket b, 0 ≤ n) :
    ∃ vTried nPos, am.selectTried b rnd = some ({ am with vvTried := am.vvTried.set b vTried }, nPos) ∧
      vTried.Perm (am.triedBucket b) ∧ (am.LeastInspected b rnd vTried nPos ↔ am.DrawStays b rnd) := by
  obtain ⟨k, hk, hselect⟩ := @selectTried_eq am b rnd hne hhas hid
  have hrange := @triedDraw_inRange am b rnd
  refine ⟨_, _, hselect, shuffle_perm hrange, ?_⟩
  have hstays := @least_stays_iff _ _ _ _ _ _ _ hnodup hrange (fun n => am.lastSuccess (n.getD 0)) hk
  constructor
  · rintro ⟨i, hi, -, hfound, hleast⟩
    rw [Int.toNat_natCast, ← drawnAt_eq hi] at hfound
    exact ⟨k, hk, hstays.mp ⟨i, hi, hfound, hleast⟩⟩
  · rintro ⟨k', hk', hdraw⟩
    obtain rfl := hk.unique hk'
    obtain ⟨i, hi, hfound, hleast⟩ := hstays.mpr hdraw
    refine ⟨i, hi, Int.natCast_nonneg _, ?_, hleast⟩
    rw [Int.toNat_natCast, hfound, drawnAt_eq hi]

end CAddrMan

/-! ### Two entries -/

namespace Sample

/-- The second of two tried entries is the older one. -/
def triedPair : CAddrMan where
  nKey := []
  mapInfo := (OrderedMap.empty.put 0 { CAddrInfo.none with nLastSuccess := 200, fInTried := true }).put 1
    { CAddrInfo.none with nLastSuccess := 100, fInTried := true }
  vvTried := [[0, 1]]

/-- It is drawn first, and gets to the front; the position where it was is returned. -/
theorem triedPair_selectTried :
    ((triedPair.selectTried 0 fun _ => 1).map fun p => (p.1.vvTried.getD 0 [], p.2)) = some ([1, 0], 1) := by
  decide

theorem triedPair_inspected : triedPair.inspections 0 = 2 ∧ triedPair.inspected 0 (fun _ => 1) 0 = 1 ∧
    triedPair.inspected 0 (fun _ => 1) 1 = 0 ∧ triedPair.lastSuccess 1 < triedPair.lastSuccess 0 := by
  decide

end Sample

namespace CAddrMan

/-- The entry at the position that is returned is the newer one. -/
theorem not_selectTried_least : ¬ ∀ (am : CAddrMan) (b : ℕ) (rnd : ℕ → ℕ), am.triedBucket b ≠ [] →
    (am.triedBucket b).Nodup → (∀ n ∈ am.triedBucket b, am.has n = true) →
    (∀ n ∈ am.triedBucket b, 0 ≤ n) →
    ∃ vTried nPos, am.selectTried b rnd = some ({ am with vvTried := am.vvTried.set b vTried }, nPos) ∧
      vTried.Perm (am.triedBucket b) ∧ am.LeastInspected b rnd vTried nPos := by
  intro h
  obtain ⟨vTried, nPos, hselect, -, i, hi, -, hfound, hleast⟩ :=
    h Sample.triedPair 0 (fun _ => 1) (by decide) (by decide) (by decide) (by decide)
  have hvalue := Sample.triedPair_selectTried
  rw [hselect, Option.map_some, Option.some_inj, Prod.mk.injEq] at hvalue
  obtain ⟨hvTried, rfl⟩ := hvalue
  obtain rfl : vTried = [1, 0] := hvTried
  obtain ⟨hrounds, hfirst, hsecond, hless⟩ := Sample.triedPair_inspected
  have hzero : Sample.triedPair.inspected 0 (fun _ => 1) i = 0 := (Option.some_inj.mp hfound).symm
  have hle := hleast 0 (by rw [hrounds]; decide)
  rw [hzero, hfirst] at hle
  exact absurd hless (not_lt.mpr hle)

/-- When each round draws the position of its own, the least of all stays. -/
theorem selectTried_least_iff_still : ∃ vTried nPos,
    Sample.triedPair.selectTried 0 (fun _ => 0) =
      some ({ Sample.triedPair with vvTried := Sample.triedPair.vvTried.set 0 vTried }, nPos) ∧
      vTried.Perm [0, 1] ∧
        (Sample.triedPair.LeastInspected 0 (fun _ => 0) vTried nPos ↔ Sample.triedPair.DrawStays 0 fun _ => 0) :=
  selectTried_least_iff (by decide) (by decide) (by decide) (by decide)

end CAddrMan

end Peershares
