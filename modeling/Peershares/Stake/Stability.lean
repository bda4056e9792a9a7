import Peershares.Model.Kernel
import Peershares.Target.Retarget

/-!
# The modifier of a kernel does not change

`GetKernelStakeModifier` walks up the main chain from the block that holds the coins. Its clock moves only
when a block generated a modifier, so where it stops is the first block that did so late enough; blocks
above that one, and the local clock, make no difference.

* `StakeView.OfChain` — a view of the index with a given main chain
* `kernelModifierLoop_eq` — where the walk stops
* `kernelModifier_stable` — what is found, and that it stays in every extension
-/

namespace Peershares

/-- The main chain, from genesis up: each entry is in the index, and `pnext` leads to those above it. -/
def StakeView.OfChain (view : StakeView) (chain : List StakeIndex) : Prop :=
  ∀ below pindex above, chain = below ++ pindex :: above →
    view.mapBlockIndex pindex.hashBlock = some pindex ∧ view.pnext pindex.hashBlock = above

/-- The entry generated a modifier at this time or later. -/
def StakeIndex.generatedFrom (nTime : Int) (pindex : StakeIndex) : Bool :=
  pindex.generatedStakeModifier && decide (nTime ≤ pindex.nTime)

theorem StakeIndex.generatedFrom_iff {nTime : Int} {pindex : StakeIndex} :
    pindex.generatedFrom nTime = true ↔ pindex.generatedStakeModifier = true ∧ nTime ≤ pindex.nTime := by
  simp [StakeIndex.generatedFrom]

section Loop

variable {nDeadline : Int} {reachedBest : StakeIndex → Result (Nat × Nat × Int)}

/-- A time that is late enough ends the walk. -/
theorem kernelModifierLoop_stop {pindex : StakeIndex} {above : List StakeIndex} {nHeight : Nat} {nTime : Int}
    (h : nDeadline ≤ nTime) :
    kernelModifierLoop nDeadline reachedBest pindex above nHeight nTime
      = .ok (pindex.nStakeModifier, nHeight, nTime) := by
  have hlt : ¬nTime < nDeadline := not_lt.mpr h
  cases above <;> simp [kernelModifierLoop, hlt]

/-- The walk stops at the first entry that generated a modifier late enough, or at the tip. Until then the
moving time stays before the deadline. -/
theorem kernelModifierLoop_eq {pindex : StakeIndex} {above : List StakeIndex} {nHeight : Nat} {nTime : Int}
    (h : nTime < nDeadline) :
    kernelModifierLoop nDeadline reachedBest pindex above nHeight nTime
      = match above.find? (StakeIndex.generatedFrom nDeadline) with
        | some b => .ok (b.nStakeModifier, b.nHeight, b.nTime)
        | none => reachedBest ((pindex :: above).getLast (List.cons_ne_nil _ _)) := by
  induction above generalizing pindex nHeight nTime with
  | nil => simp [kernelModifierLoop, h]
  | cons next above ih =>
    rw [kernelModifierLoop, if_pos h, List.find?_cons, List.getLast_cons_cons]
    cases hgen : next.generatedStakeModifier with
    | false =>
      have hnot : next.generatedFrom nDeadline = false := by simp [StakeIndex.generatedFrom, hgen]
      rw [hnot, if_neg (by simp)]
      exact ih h
    | true =>
      rw [if_pos rfl]
      rcases lt_or_ge (next.nTime : Int) nDeadline with hearly | hlate
      · have hnot : next.generatedFrom nDeadline = false := by
          simp [StakeIndex.generatedFrom, hgen, not_le.mpr hearly]
        rw [hnot]
        exact ih hearly
      · have hyes : next.generatedFrom nDeadline = true := StakeIndex.generatedFrom_iff.mpr ⟨hgen, hlate⟩
        rw [hyes]
        exact kernelModifierLoop_stop hlate

end Loop

section Stable

variable {P : Params} {view view' : StakeView} {chain below above : List StakeIndex} {pindexFrom : StakeIndex}
  {fPrint : Bool}

theorem selectionInterval_pos (P : Params) : 0 < getStakeModifierSelectionInterval P := by
  unfold getStakeModifierSelectionInterval getStakeModifierSelectionIntervalSection Params.nModifierInterval
  cases P.fTestNet <;> decide

/-- The time from which a modifier may be used for a kernel in the block. -/
def modifierDeadline (P : Params) (pindexFrom : StakeIndex) : Int :=
  pindexFrom.nTime + getStakeModifierSelectionInterval P

/-- On a main chain the call succeeds exactly when some block above generated a modifier late enough. -/
theorem getKernelStakeModifier_eq_ok (hview : view.OfChain chain) (hchain : chain = below ++ pindexFrom :: above)
    {r : Nat × Nat × Int} :
    getKernelStakeModifier P view pindexFrom.hashBlock fPrint = .ok r ↔
      ∃ b, above.find? (StakeIndex.generatedFrom (modifierDeadline P pindexFrom)) = some b
        ∧ r = (b.nStakeModifier, b.nHeight, (b.nTime : Int)) := by
  obtain ⟨hindex, hnext⟩ := hview below pindexFrom above hchain
  have hpos := selectionInterval_pos P
  unfold getKernelStakeModifier
  rw [hindex, hnext]
  simp only
  rw [kernelModifierLoop_eq (by omega)]
  show (match above.find? (StakeIndex.generatedFrom (modifierDeadline P pindexFrom)) with
    | some b => _
    | none => _) = _ ↔ _
  cases above.find? (StakeIndex.generatedFrom (modifierDeadline P pindexFrom)) with
  | none =>
    simp only [reduceCtorEq, false_and, exists_false, iff_false]
    split_ifs <;> simp
  | some b => simp [eq_comm]

/-- The modifier of a kernel is that of the first block above which generated one at least a selection
interval later, and it is the same in every extension of the main chain, whatever the clock says. -/
theorem kernelModifier_stable (hview : view.OfChain chain) (hchain : chain = below ++ pindexFrom :: above)
    {nStakeModifier nStakeModifierHeight : Nat} {nStakeModifierTime : Int}
    (hok : getKernelStakeModifier P view pindexFrom.hashBlock fPrint
      = .ok (nStakeModifier, nStakeModifierHeight, nStakeModifierTime)) :
    (∃ before b after, above = before ++ b :: after
        ∧ b.generatedStakeModifier = true ∧ modifierDeadline P pindexFrom ≤ b.nTime
        ∧ (∀ x ∈ before, ¬(x.generatedStakeModifier = true ∧ modifierDeadline P pindexFrom ≤ x.nTime))
        ∧ nStakeModifier = b.nStakeModifier ∧ nStakeModifierHeight = b.nHeight ∧ nStakeModifierTime = b.nTime)
      ∧ ∀ (view' : StakeView) (fPrint' : Bool) (extension : List StakeIndex),
        view'.OfChain (chain ++ extension) →
          getKernelStakeModifier P view' pindexFrom.hashBlock fPrint'
            = .ok (nStakeModifier, nStakeModifierHeight, nStakeModifierTime) := by
  obtain ⟨b, hfind, hr⟩ := (getKernelStakeModifier_eq_ok hview hchain).mp hok
  constructor
  · obtain ⟨hb, before, after, habove, hbefore⟩ := List.find?_eq_some_iff_append.mp hfind
    obtain ⟨hgen, htime⟩ := StakeIndex.generatedFrom_iff.mp hb
    obtain ⟨rfl, hrest⟩ := Prod.mk.inj hr
    obtain ⟨rfl, rfl⟩ := Prod.mk.inj hrest
    refine ⟨before, b, after, habove, hgen, htime, fun x hx hlate => ?_, rfl, rfl, rfl⟩
    have hnot := hbefore x hx
    rw [StakeIndex.generatedFrom_iff.mpr hlate] at hnot
    exact absurd hnot (by simp)
  · intro view' fPrint' extension hview'
    have hextended : chain ++ extension = below ++ pindexFrom :: (above ++ extension) := by
      rw [hchain, List.append_assoc, List.cons_append]
    refine (getKernelStakeModifier_eq_ok hview' hextended).mpr ⟨b, ?_, hr⟩
    -- what is found in a list is found in every longer one
    rw [List.find?_append, hfind]
    rfl

end Stable

/-- The index that holds just a main chain. -/
def StakeView.ofChain (chain : List StakeIndex) (nAdjustedTime : Int) : StakeView where
  mapBlockIndex hash := chain.find? (fun pindex => pindex.hashBlock = hash)
  pnext hash := (chain.dropWhile (fun pindex => pindex.hashBlock ≠ hash)).tail
  nAdjustedTime

theorem StakeView.ofChain_ofChain {chain : List StakeIndex} (hnodup : (chain.map (·.hashBlock)).Nodup)
    (nAdjustedTime : Int) : (StakeView.ofChain chain nAdjustedTime).OfChain chain := by
  intro below pindex above hchain
  have hbelow : ∀ x ∈ below, x.hashBlock ≠ pindex.hashBlock := by
    intro x hx heq
    rw [hchain, List.map_append, List.map_cons] at hnodup
    have hdisjoint := (List.nodup_append.mp hnodup).2.2
    exact hdisjoint x.hashBlock (List.mem_map_of_mem hx) pindex.hashBlock List.mem_cons_self heq
  constructor
  · show chain.find? _ = some pindex
    rw [hchain, List.find?_append]
    have hnone : below.find? (fun x => decide (x.hashBlock = pindex.hashBlock)) = none := by
      rw [List.find?_eq_none]
      intro x hx
      simpa using hbelow x hx
    rw [hnone]
    simp
  · show (chain.dropWhile _).tail = above
    rw [hchain, List.dropWhile_append_of_pos (by simpa using hbelow)]
    simp

namespace StabilitySample

open RetargetSample

/-- A block that generated a modifier, ten days above the one before. -/
def entry (n : Nat) : StakeIndex where
  toCBlockIndex := workBlock n (1510339532 + 864000 * n) 0x1d00ffff
  stakeEntropyBit := false
  generatedStakeModifier := true
  nStakeModifier := 100 + n
  hashProofOfStake := 0

end StabilitySample

open StabilitySample RetargetSample in
/-- The modifier of block 1 is used for coins in genesis, before and after block 2 arrives. -/
theorem kernelModifier_stable_sample :
    getKernelStakeModifier params (.ofChain [entry 0, entry 1] 0) 1510339532 false = .ok (101, 1, 1511203532)
      ∧ getKernelStakeModifier params (.ofChain [entry 0, entry 1, entry 2] 1520000000) 1510339532 true
        = .ok (101, 1, 1511203532) := by
  have hok : getKernelStakeModifier params (.ofChain [entry 0, entry 1] 0) 1510339532 false
      = .ok (101, 1, 1511203532) := by decide
  have hsplit : [entry 0, entry 1] = [] ++ entry 0 :: [entry 1] := rfl
  have hview : (StakeView.ofChain [entry 0, entry 1] 0).OfChain [entry 0, entry 1] :=
    StakeView.ofChain_ofChain (by decide) 0
  obtain ⟨-, hext⟩ := kernelModifier_stable hview hsplit hok
  exact ⟨hok, hext _ true [entry 2] (StakeView.ofChain_ofChain (by decide) 1520000000)⟩

end Peershares
