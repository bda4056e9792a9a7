import Peershares.Framework.Median
import Peershares.Ledger.Chain

/-!
# Median time past never goes back

The median of the last eleven times is not lowered by a new time above it: the new time is not below the
old median, and neither the block that leaves the window nor a longer window makes room for more times
below it.

* `getMedianTimePast_le_cons` — one more block
* `getMedianTimePast_mono` — along a chain
* `TreeOk.getMedianTimePast_le` — the chains that `AcceptBlock` builds are of this kind
-/

open Framework

namespace Peershares

namespace BlockPtr

variable {p q : BlockPtr} {e : CBlockIndex}

/-- The times that `GetMedianTimePast` sorts. -/
def pmedian (p : BlockPtr) : List Int := (p.take nMedianTimeSpan).map fun e => (e.nTime : Int)

theorem length_pmedian (p : BlockPtr) : p.pmedian.length = min nMedianTimeSpan p.length := by
  unfold pmedian
  rw [List.length_map, List.length_take]

/-- The middle of the sorted times, with the upper one of two for an even number. -/
theorem getElem?_getMedianTimePast (hne : p ≠ []) :
    (p.pmedian.insertionSort (· ≤ ·))[p.pmedian.length / 2]? = some p.getMedianTimePast := by
  have hpos : 0 < p.pmedian.length := by
    rw [length_pmedian]
    have hlen := List.length_pos_iff.mpr hne
    unfold nMedianTimeSpan
    omega
  obtain ⟨m, hm, -⟩ := isMedian_middle (List.length_pos_iff.mp hpos)
  have hlen : (p.pmedian.insertionSort (· ≤ ·)).length = p.pmedian.length :=
    (List.perm_insertionSort _ _).length_eq
  rw [hm]
  unfold getMedianTimePast
  change some m = some (((p.pmedian.insertionSort (· ≤ ·))[
    (p.pmedian.insertionSort (· ≤ ·)).length / 2]?).getD 0)
  rw [hlen, hm]
  rfl

/-- No more than half of the times are below the median. -/
theorem countP_lt_getMedianTimePast (hne : p ≠ []) :
    p.pmedian.countP (fun t => decide (t < p.getMedianTimePast)) ≤ p.pmedian.length / 2 := by
  have htimes : p.pmedian ≠ [] := by
    intro hnil
    have hmem := getElem?_getMedianTimePast hne
    rw [hnil] at hmem
    exact absurd hmem (by simp)
  obtain ⟨m, hm, -, hbelow, -⟩ := isMedian_middle htimes
  rw [getElem?_getMedianTimePast hne] at hm
  rw [Option.some.inj hm]
  omega

/-- The window of the next block: its time and the last ten or fewer of the window before. -/
theorem pmedian_cons : pmedian (e :: p) = (e.nTime : Int) :: (p.pmedian.take (nMedianTimeSpan - 1)) := by
  unfold pmedian nMedianTimeSpan
  rw [List.take_succ_cons, List.map_cons, ← List.map_take, List.take_take]
  rfl

/-- **One more block**, with a time above the median. -/
theorem getMedianTimePast_le_cons (hne : p ≠ []) (htime : p.getMedianTimePast < e.nTime) :
    p.getMedianTimePast ≤ getMedianTimePast (e :: p) := by
  refine le_middle (v := pmedian (e :: p)) ?_ (getElem?_getMedianTimePast (by simp))
  calc (pmedian (e :: p)).countP (fun t => decide (t < p.getMedianTimePast))
      = (p.pmedian.take (nMedianTimeSpan - 1)).countP (fun t => decide (t < p.getMedianTimePast)) := by
        -- the new time does not count
        rw [pmedian_cons, List.countP_cons, if_neg (by simpa using le_of_lt htime), Nat.add_zero]
    _ ≤ p.pmedian.countP (fun t => decide (t < p.getMedianTimePast)) :=
        (List.take_sublist _ _).countP_le
    _ ≤ p.pmedian.length / 2 := countP_lt_getMedianTimePast hne
    _ ≤ (pmedian (e :: p)).length / 2 := by
        rw [length_pmedian, length_pmedian, List.length_cons]
        omega

/-- **Median time past never goes back** along a chain in which each block's time is above the median of
the blocks before it, from genesis on. -/
theorem getMedianTimePast_mono (pindex : BlockPtr)
    (htimes : ∀ (e : CBlockIndex) (q : BlockPtr), e :: q <:+ pindex → q ≠ [] → q.getMedianTimePast < e.nTime)
    (p q : BlockPtr) (hp : p <:+ pindex) (hq : q <:+ p) (hne : q ≠ []) :
    q.getMedianTimePast ≤ p.getMedianTimePast := by
  induction p with
  | nil => exact absurd (List.suffix_nil.mp hq) hne
  | cons e p ih =>
    rcases List.suffix_cons_iff.mp hq with rfl | hq
    · exact le_refl _
    · have hpne : p ≠ [] := by
        rintro rfl
        exact hne (List.suffix_nil.mp hq)
      calc q.getMedianTimePast ≤ getMedianTimePast p := ih ((List.suffix_cons e p).trans hp) hq
        _ ≤ getMedianTimePast (e :: p) := getMedianTimePast_le_cons hpne (htimes e p hp hpne)

/-- Four blocks: the window grows from one time to four, and the median takes the upper one of two. -/
theorem getMedianTimePast_mono_four :
    getMedianTimePast [⟨1, 1, 0, 0, 0, false, 10, 0⟩] ≤
      getMedianTimePast [⟨4, 1, 0, 0, 3, false, 20, 0⟩, ⟨3, 1, 0, 0, 2, false, 15, 0⟩,
        ⟨2, 1, 0, 0, 1, false, 14, 0⟩, ⟨1, 1, 0, 0, 0, false, 10, 0⟩] := by
  refine getMedianTimePast_mono [⟨4, 1, 0, 0, 3, false, 20, 0⟩, ⟨3, 1, 0, 0, 2, false, 15, 0⟩,
    ⟨2, 1, 0, 0, 1, false, 14, 0⟩, ⟨1, 1, 0, 0, 0, false, 10, 0⟩] ?_ _ _ List.suffix_rfl ?_ (by simp)
  · intro e q hs hne
    simp only [List.suffix_cons_iff, List.cons.injEq, List.suffix_nil] at hs
    rcases hs with ⟨rfl, rfl⟩ | ⟨rfl, rfl⟩ | ⟨rfl, rfl⟩ | ⟨rfl, rfl⟩ | hs
    · decide
    · decide
    · decide
    · exact absurd rfl hne
    · exact absurd hs (by simp)
  · exact ⟨[⟨4, 1, 0, 0, 3, false, 20, 0⟩, ⟨3, 1, 0, 0, 2, false, 15, 0⟩, ⟨2, 1, 0, 0, 1, false, 14, 0⟩], rfl⟩

end BlockPtr

/-- The tree of a node: the median of a block is at least that of each block before it. -/
theorem TreeOk.getMedianTimePast_le {P : Params} {files : BlockFiles} {p q : BlockPtr} (h : TreeOk P files p)
    (hq : q <:+ p) (hne : q ≠ []) : q.getMedianTimePast ≤ p.getMedianTimePast := by
  induction h with
  | genesis hread =>
    rcases List.suffix_cons_iff.mp hq with rfl | hq
    · exact le_refl _
    · exact absurd (List.suffix_nil.mp hq) hne
  | @accepted pprev nFile nBlockPos block hprev hread hchecked hkind htime ih =>
    rcases List.suffix_cons_iff.mp hq with rfl | hq
    · exact le_refl _
    · exact (ih hq).trans (BlockPtr.getMedianTimePast_le_cons hprev.ne_nil htime)

end Peershares
