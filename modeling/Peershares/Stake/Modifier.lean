import Peershares.Framework.Draw
import Peershares.Model.Kernel
import Peershares.Target.Retarget

/-!
# Computing the stake modifier

`ComputeNextStakeModifier` draws up to 64 blocks among the recent ancestors, one a round, and each gives its
entropy bit. A round takes the block with the least selection hash among those up to a stop time, or the
first block left when there is none.

The source goes through the candidates with a flag and a running minimum, and leaves the loop at the first one that is
too late once it has found something. On a list sorted by time this is a minimum over a filtered list
(`selectLoop_some`), which is what `roundChoice` says without a loop.

A round never fails while a candidate is left, and the rounds end when none is or after 64 of them, so the number of
blocks drawn is known beforehand (`roundsDone`). The bits are added to the modifier from the lowest one up
(`ModifierBits`).

* `roundChoice` — what a round takes
* `selectBlockFromCandidates_eq` — `SelectBlockFromCandidates` makes this choice
* `modifierCandidates` — the blocks that are drawn from
* `computeNextStakeModifier_spec` — which blocks are drawn, and the modifier they make
-/

namespace Peershares

open Framework

/-- The least selection hash up to the stop time, the first one of several; else the first block. -/
def roundChoice (selectionHash : StakeIndex → Uint256) (nStop : Int) (left : List StakeIndex) :
    Option StakeIndex :=
  match left.filter (fun e => decide ((e.nTime : Int) ≤ nStop)) with
  | [] => left.head?
  | eligible => eligible.argmin selectionHash

/-- A round chooses a candidate while one is left. -/
theorem roundChoice_mem {selectionHash : StakeIndex → Uint256} {nStop : Int} {left : List StakeIndex}
    (hne : left ≠ []) : ∃ e ∈ left, roundChoice selectionHash nStop left = some e := by
  unfold roundChoice
  split
  · obtain ⟨e, rest, rfl⟩ := List.exists_cons_of_ne_nil hne
    exact ⟨e, List.mem_cons_self, rfl⟩
  · rename_i eligible hnonempty
    cases hmin : (left.filter (fun e => decide ((e.nTime : Int) ≤ nStop))).argmin selectionHash with
    | none => exact absurd (List.argmin_eq_none.mp hmin) hnonempty
    | some e => exact ⟨e, List.mem_of_mem_filter (List.argmin_mem hmin), rfl⟩

/-! ### One round -/

section Round

variable {K : StakeHash} {mapBlockIndex : Uint256 → Option StakeIndex} {mapSelectedBlocks : List Uint256}
  {nStop : Int} {nModifier : Nat} {candidates : List StakeIndex}

/-- The pair a candidate is sorted by. -/
def StakeIndex.timeHash (e : StakeIndex) : Int × Uint256 := (e.nTime, e.hashBlock)

/-- The candidates that are not selected yet. -/
def unselected (mapSelectedBlocks : List Uint256) (candidates : List StakeIndex) : List StakeIndex :=
  candidates.filter (fun e => decide (e.hashBlock ∉ mapSelectedBlocks))

/-- Once a block is selected, the loop keeps the minimum of the blocks up to the stop time. Behind the first
block past it all others are past it too, so nothing is lost by leaving there. -/
theorem selectLoop_some (hindex : ∀ e ∈ candidates, mapBlockIndex e.hashBlock = some e)
    (hsorted : candidates.Pairwise (fun a b => a.nTime ≤ b.nTime)) {seen : List StakeIndex} {best : StakeIndex}
    (hbest : seen.argmin (K.selectionHash nModifier) = some best) :
    selectLoop K mapBlockIndex mapSelectedBlocks nStop nModifier (candidates.map StakeIndex.timeHash)
        (some (K.selectionHash nModifier best, best))
      = .ok ((seen ++ (unselected mapSelectedBlocks candidates).filter
          (fun e => decide ((e.nTime : Int) ≤ nStop))).argmin (K.selectionHash nModifier)) := by
  induction candidates generalizing seen best with
  | nil => simp [selectLoop, unselected, hbest]
  | cons e candidates ih =>
    obtain ⟨he, hrest⟩ := List.forall_mem_cons.mp hindex
    obtain ⟨hfirst, hsorted⟩ := List.pairwise_cons.mp hsorted
    rw [List.map_cons, selectLoop]
    simp only [StakeIndex.timeHash, he, Option.isSome_some, true_and]
    by_cases hpast : nStop < e.nTime
    · rw [if_pos hpast]
      -- the break: the others are past the stop time as well
      have hnone : (unselected mapSelectedBlocks (e :: candidates)).filter
          (fun e => decide ((e.nTime : Int) ≤ nStop)) = [] := by
        rw [List.filter_eq_nil_iff]
        intro x hx
        have hle : (e.nTime : Int) ≤ x.nTime := by
          rcases List.mem_cons.mp (List.mem_of_mem_filter hx) with rfl | hx
          · exact le_refl _
          · exact_mod_cast hfirst x hx
        simp only [decide_eq_true_eq]
        omega
      rw [hnone, List.append_nil, hbest]
      rfl
    rw [if_neg hpast]
    by_cases hselected : e.hashBlock ∈ mapSelectedBlocks
    · have hskip : unselected mapSelectedBlocks (e :: candidates) = unselected mapSelectedBlocks candidates := by
        simp [unselected, hselected]
      rw [if_pos hselected, hskip]
      exact ih hrest hsorted hbest
    · have hkeep : (unselected mapSelectedBlocks (e :: candidates)).filter
          (fun e => decide ((e.nTime : Int) ≤ nStop))
            = e :: (unselected mapSelectedBlocks candidates).filter
              (fun e => decide ((e.nTime : Int) ≤ nStop)) := by
        simp [unselected, hselected, not_lt.mp hpast]
      rw [if_neg hselected, hkeep, List.append_cons]
      have hmin := argmin_concat_eq (a := e) hbest
      split_ifs with hless
      · rw [if_pos hless] at hmin
        exact ih hrest hsorted hmin
      · rw [if_neg hless] at hmin
        exact ih hrest hsorted hmin

/-- `SelectBlockFromCandidates` on candidates in the order of their times. -/
theorem selectBlockFromCandidates_eq (hindex : ∀ e ∈ candidates, mapBlockIndex e.hashBlock = some e)
    (hsorted : candidates.Pairwise (fun a b => a.nTime ≤ b.nTime)) :
    selectBlockFromCandidates K mapBlockIndex (candidates.map StakeIndex.timeHash) mapSelectedBlocks nStop
        nModifier
      = .ok (roundChoice (K.selectionHash nModifier) nStop (unselected mapSelectedBlocks candidates)) := by
  unfold selectBlockFromCandidates
  induction candidates with
  -- without a candidate nothing is selected
  | nil => simp [selectLoop, unselected, roundChoice]
  | cons e candidates ih =>
    obtain ⟨he, hrest⟩ := List.forall_mem_cons.mp hindex
    obtain ⟨hfirst, hsorted⟩ := List.pairwise_cons.mp hsorted
    rw [List.map_cons, selectLoop]
    simp only [StakeIndex.timeHash, he, Option.isSome_none, Bool.false_eq_true, false_and, if_false]
    split_ifs with hselected
    · -- a selected block is passed over
      have hskip : unselected mapSelectedBlocks (e :: candidates) = unselected mapSelectedBlocks candidates := by
        simp [unselected, hselected]
      rw [hskip]
      exact ih hrest hsorted
    · -- the first block that is left is taken in any case
      have hkeep : unselected mapSelectedBlocks (e :: candidates)
          = e :: unselected mapSelectedBlocks candidates := by
        simp [unselected, hselected]
      have hloop := @selectLoop_some K mapBlockIndex mapSelectedBlocks nStop nModifier candidates hrest hsorted [e] e
        (List.argmin_singleton (f := K.selectionHash nModifier) (a := e))
      rw [hkeep]
      refine hloop.trans ?_
      unfold roundChoice
      by_cases hstop : (e.nTime : Int) ≤ nStop
      · rw [List.filter_cons_of_pos (by simpa using hstop)]
        rfl
      · have hnone : (unselected mapSelectedBlocks candidates).filter
            (fun e => decide ((e.nTime : Int) ≤ nStop)) = [] := by
          rw [List.filter_eq_nil_iff]
          intro x hx
          have hle : (e.nTime : Int) ≤ x.nTime := by
            exact_mod_cast hfirst x (List.mem_of_mem_filter hx)
          simp only [decide_eq_true_eq]
          omega
        rw [List.filter_cons_of_neg (by simpa using hstop), hnone]
        simp

end Round

/-! ### All rounds -/

/-- The stop time of a round. -/
def roundStop (P : Params) (nSelectionIntervalStart : Int) (nRound : ℕ) : Int :=
  nSelectionIntervalStart + (((List.range (nRound + 1)).map (getStakeModifierSelectionIntervalSection P)).sum : ℕ)

section Rounds

variable {P : Params} {K : StakeHash} {mapBlockIndex : Uint256 → Option StakeIndex} {nStart : Int}
  {nModifier : Nat} {candidates sel : List StakeIndex}

/-- What is left are the candidates not yet chosen. -/
theorem unselected_eq (hnodup : (candidates.map (·.hashBlock)).Nodup) (hsub : ∀ e ∈ sel, e ∈ candidates) :
    unselected (sel.map (·.hashBlock)).reverse candidates = remaining candidates sel := by
  refine List.filter_congr fun e he => ?_
  have hinj := List.inj_on_of_nodup_map hnodup
  simp only [List.mem_reverse, List.mem_map, decide_eq_decide, not_iff_not]
  constructor
  · rintro ⟨x, hx, heq⟩
    exact hinj (hsub x hx) he heq ▸ hx
  · intro hmem
    exact ⟨e, hmem, rfl⟩

/-- The bits of the new modifier are the entropy bits of the drawn blocks. -/
def ModifierBits (nStakeModifier : Nat) (sel : List StakeIndex) : Prop :=
  ∀ r, nStakeModifier.testBit r = ((sel[r]?).map StakeIndex.stakeEntropyBit).getD false

/-- One more bit of the modifier. -/
theorem ModifierBits.concat {nNew : Nat} (h : ModifierBits nNew sel) (e : StakeIndex) :
    ModifierBits (nNew ||| (e.stakeEntropyBit.toNat <<< sel.length)) (sel ++ [e]) := by
  intro r
  rw [Nat.testBit_or, Nat.testBit_shiftLeft, h r]
  rcases lt_trichotomy r sel.length with hlt | rfl | hgt
  · rw [List.getElem?_append_left hlt]
    simp [not_le.mpr hlt]
  · cases hbit : e.stakeEntropyBit <;> simp [hbit]
  · have hbeyond : (sel ++ [e])[r]? = none := List.getElem?_eq_none (by simp; omega)
    have hbefore : sel[r]? = none := List.getElem?_eq_none hgt.le
    obtain ⟨k, hk⟩ : ∃ k, r - sel.length = k + 1 := ⟨r - sel.length - 1, by omega⟩
    rw [hbeyond, hbefore, hk]
    cases e.stakeEntropyBit <;> simp [Nat.testBit_succ]

/-- What the rounds have done after `n` of them. -/
structure RoundsDone (P : Params) (K : StakeHash) (nStart : Int) (nModifier : Nat)
    (candidates sel : List StakeIndex) (s : RoundState) : Prop where
  drawn : Drawn (fun r => roundChoice (K.selectionHash nModifier) (roundStop P nStart r)) candidates sel
  selected : s.mapSelectedBlocks = (sel.map (·.hashBlock)).reverse
  stop : s.nSelectionIntervalStop
    = nStart + (((List.range sel.length).map (getStakeModifierSelectionIntervalSection P)).sum : ℕ)
  bits : ModifierBits s.nStakeModifierNew sel

/-- A round finds a block as long as one is left. -/
theorem RoundsDone.round {s : RoundState} (h : RoundsDone P K nStart nModifier candidates sel s)
    (hindex : ∀ e ∈ candidates, mapBlockIndex e.hashBlock = some e)
    (hsorted : candidates.Pairwise (fun a b => a.nTime ≤ b.nTime))
    (hnodup : (candidates.map (·.hashBlock)).Nodup) (hlt : sel.length < candidates.length) :
    ∃ e s', selectRound P K mapBlockIndex (candidates.map StakeIndex.timeHash) nModifier s sel.length = .ok s'
      ∧ RoundsDone P K nStart nModifier candidates (sel ++ [e]) s' := by
  have hleft := remaining_ne_nil (List.Nodup.of_map _ hnodup) hlt
  obtain ⟨e, hmem, hchoice⟩ := @roundChoice_mem (K.selectionHash nModifier)
    (roundStop P nStart sel.length) _ hleft
  have hstop : s.nSelectionIntervalStop + getStakeModifierSelectionIntervalSection P sel.length
      = roundStop P nStart sel.length := by
    rw [h.stop, roundStop, List.range_succ, List.map_append, List.sum_append]
    push_cast
    simp [add_assoc]
  have hselect : selectBlockFromCandidates K mapBlockIndex (candidates.map StakeIndex.timeHash)
      s.mapSelectedBlocks (s.nSelectionIntervalStop + getStakeModifierSelectionIntervalSection P sel.length)
      nModifier = .ok (some e) := by
    rw [selectBlockFromCandidates_eq hindex hsorted, h.selected, unselected_eq hnodup h.drawn.sub, hstop, hchoice]
  set s' : RoundState :=
    { nStakeModifierNew := s.nStakeModifierNew ||| (e.stakeEntropyBit.toNat <<< sel.length)
      nSelectionIntervalStop :=
        s.nSelectionIntervalStop + getStakeModifierSelectionIntervalSection P sel.length
      mapSelectedBlocks := e.hashBlock :: s.mapSelectedBlocks } with hs'
  refine ⟨e, s', ?_, h.drawn.concat hmem hchoice, ?_, ?_, h.bits.concat e⟩
  · unfold selectRound
    simp only [hselect, Result.ok_bind, hs']
  · simp [hs', h.selected]
  · rw [List.length_append, List.length_singleton]
    exact hstop

/-- The rounds draw as many blocks as there are rounds. -/
theorem roundsDone (hindex : ∀ e ∈ candidates, mapBlockIndex e.hashBlock = some e)
    (hsorted : candidates.Pairwise (fun a b => a.nTime ≤ b.nTime))
    (hnodup : (candidates.map (·.hashBlock)).Nodup) {n : ℕ} (hn : n ≤ candidates.length) :
    ∃ sel s, (List.range n).foldlM
        (selectRound P K mapBlockIndex (candidates.map StakeIndex.timeHash) nModifier)
        { nSelectionIntervalStop := nStart } = .ok s
      ∧ sel.length = n ∧ RoundsDone P K nStart nModifier candidates sel s := by
  induction n with
  | zero =>
    refine ⟨[], _, rfl, rfl, Drawn.nil, rfl, ?_, ?_⟩
    · simp
    · intro r
      simp
  | succ n ih =>
    obtain ⟨sel, s, hfold, hlen, hdone⟩ := ih (by omega)
    obtain ⟨e, s', hround, hdone'⟩ := hdone.round hindex hsorted hnodup
      (by omega)
    refine ⟨sel ++ [e], s', ?_, by simp [hlen], hdone'⟩
    rw [hlen] at hround
    rw [List.range_succ, List.foldlM_append, hfold, Result.ok_bind, List.foldlM_cons, hround]
    rfl

end Rounds

/-! ### The next modifier -/

/-- The order of the candidates: by time, then by hash. -/
def StakeIndex.before (a b : StakeIndex) : Prop := candidateLe a.timeHash b.timeHash

instance : DecidableRel StakeIndex.before := fun a b =>
  inferInstanceAs (Decidable (candidateLe a.timeHash b.timeHash))

/-- The candidates are ordered by time and then by hash. -/
theorem StakeIndex.before_iff {a b : StakeIndex} :
    a.before b ↔ a.nTime < b.nTime ∨ a.nTime = b.nTime ∧ a.hashBlock ≤ b.hashBlock := by
  simp [StakeIndex.before, candidateLe, StakeIndex.timeHash]

instance : Std.Total StakeIndex.before where
  total a b := by
    rw [StakeIndex.before_iff, StakeIndex.before_iff]
    rcases lt_trichotomy a.nTime b.nTime with h | h | h
    · exact Or.inl (Or.inl h)
    · rcases le_total a.hashBlock b.hashBlock with hle | hle
      · exact Or.inl (Or.inr ⟨h, hle⟩)
      · exact Or.inr (Or.inr ⟨h.symm, hle⟩)
    · exact Or.inr (Or.inl h)

instance : IsTrans StakeIndex StakeIndex.before where
  trans a b c h₁ h₂ := by
    rw [StakeIndex.before_iff] at *
    rcases h₁ with h₁ | ⟨h₁, hle₁⟩ <;> rcases h₂ with h₂ | ⟨h₂, hle₂⟩
    · exact Or.inl (h₁.trans h₂)
    · exact Or.inl (h₂ ▸ h₁)
    · exact Or.inl (h₁ ▸ h₂)
    · exact Or.inr ⟨h₁.trans h₂, hle₁.trans hle₂⟩

/-- The blocks that are drawn from: `pindexPrev` and its ancestors, down to the first one before the start of
the selection interval, by time and hash. -/
def modifierCandidates (P : Params) (prev : StakeIndex) (pprev : StakePtr) : List StakeIndex :=
  (((prev :: pprev).takeWhile
    (fun e => decide (selectionIntervalStart P prev.nTime ≤ e.nTime))).reverse).insertionSort StakeIndex.before

section Next

variable {P : Params} {K : StakeHash} {mapBlockIndex : Uint256 → Option StakeIndex} {prev : StakeIndex}
  {pprev : StakePtr}

/-- A candidate lies on the chain. -/
theorem mem_modifierCandidates {e : StakeIndex} (h : e ∈ modifierCandidates P prev pprev) : e ∈ prev :: pprev := by
  have hmem := (List.perm_insertionSort _ _).mem_iff.mp h
  exact (List.takeWhile_sublist _).subset (List.mem_reverse.mp hmem)

/-- They stand in the order of their times. -/
theorem modifierCandidates_sorted :
    (modifierCandidates P prev pprev).Pairwise (fun a b => a.nTime ≤ b.nTime) := by
  refine (List.pairwise_insertionSort StakeIndex.before _).imp fun {a b} h => ?_
  rcases StakeIndex.before_iff.mp h with h | ⟨h, -⟩
  · exact h.le
  · exact h.le

/-- None of them twice. -/
theorem modifierCandidates_nodup (hnodup : ((prev :: pprev).map (·.hashBlock)).Nodup) :
    ((modifierCandidates P prev pprev).map (·.hashBlock)).Nodup := by
  have hperm := (List.perm_insertionSort StakeIndex.before
    (((prev :: pprev).takeWhile
      (fun e => decide (selectionIntervalStart P prev.nTime ≤ e.nTime))).reverse)).map (·.hashBlock)
  refine hperm.nodup_iff.mpr ?_
  rw [List.map_reverse, List.nodup_reverse]
  exact hnodup.sublist ((List.takeWhile_sublist _).map _)

/-- The pairs that `ComputeNextStakeModifier` sorts. -/
theorem map_timeHash_candidates :
    (((prev :: pprev).takeWhile (fun e => decide (selectionIntervalStart P prev.nTime ≤ e.nTime))).map
      (fun e => ((e.nTime : Int), e.hashBlock))).reverse.insertionSort candidateLe
        = (modifierCandidates P prev pprev).map StakeIndex.timeHash := by
  unfold modifierCandidates
  rw [List.map_insertionSort StakeIndex.before candidateLe StakeIndex.timeHash _ (fun _ _ _ _ => Iff.rfl),
    List.map_reverse]
  rfl

/-- A chain whose genesis generated a modifier has a last one. -/
theorem lastGenerated_isSome {p : StakePtr} (hne : p ≠ [])
    (hgenesis : (p.getLast hne).generatedStakeModifier = true) :
    ∃ last, lastGenerated p = some last ∧ last.generatedStakeModifier = true := by
  induction p with
  | nil => exact absurd rfl hne
  | cons e p ih =>
    unfold lastGenerated
    split_ifs with h
    · rw [List.getLast_cons h.1] at hgenesis
      exact ih h.1 hgenesis
    · refine ⟨e, rfl, ?_⟩
      by_cases hp : p = []
      · subst hp
        exact hgenesis
      · cases hgen : e.generatedStakeModifier with
        | true => rfl
        | false => exact absurd ⟨hp, hgen⟩ h

/-- The previous modifier is kept exactly when it was generated in the interval of the last block, or later.
Otherwise 64 of the candidates, or all of them, are drawn, no round is without a block, and the new modifier
consists of their entropy bits. -/
theorem computeNextStakeModifier_spec (hindex : ∀ e ∈ prev :: pprev, mapBlockIndex e.hashBlock = some e)
    (hnodup : ((prev :: pprev).map (·.hashBlock)).Nodup)
    (hgenesis : ((prev :: pprev).getLast (List.cons_ne_nil _ _)).generatedStakeModifier = true) :
    ∃ last, lastGenerated (prev :: pprev) = some last
      ∧ (computeNextStakeModifier P K mapBlockIndex (prev :: pprev) = .ok (last.nStakeModifier, false)
          ↔ prev.nTime / P.nModifierInterval ≤ last.nTime / P.nModifierInterval)
      ∧ (last.nTime / P.nModifierInterval < prev.nTime / P.nModifierInterval →
          ∃ sel nStakeModifierNew,
            computeNextStakeModifier P K mapBlockIndex (prev :: pprev) = .ok (nStakeModifierNew, true)
              ∧ sel.length = min 64 (modifierCandidates P prev pprev).length
              ∧ Drawn (fun r => roundChoice (K.selectionHash last.nStakeModifier)
                  (roundStop P (selectionIntervalStart P prev.nTime) r)) (modifierCandidates P prev pprev) sel
              ∧ ModifierBits nStakeModifierNew sel) := by
  -- the last block that generated a modifier
  obtain ⟨last, hlast, hgen⟩ := lastGenerated_isSome (List.cons_ne_nil prev pprev) hgenesis
  have hget : getLastStakeModifier (prev :: pprev) = .ok (last.nStakeModifier, (last.nTime : Int)) := by
    unfold getLastStakeModifier
    rw [hlast]
    simp only
    rw [if_pos hgen]
  -- `/` of the source is on `int64`, and the times are not negative
  have hdiv : ∀ a b : Nat, ((a : Int).tdiv P.nModifierInterval ≤ (b : Int).tdiv P.nModifierInterval
      ↔ a / P.nModifierInterval ≤ b / P.nModifierInterval) := by
    intro a b
    rw [Int.tdiv_eq_ediv_of_nonneg (Int.natCast_nonneg a), Int.tdiv_eq_ediv_of_nonneg (Int.natCast_nonneg b)]
    norm_cast
  have hcandidates : ∀ e ∈ modifierCandidates P prev pprev, mapBlockIndex e.hashBlock = some e :=
    fun e he => hindex e (mem_modifierCandidates he)
  -- all rounds are done, since there are no more rounds than candidates
  obtain ⟨sel, s, hfold, hlen, hdone⟩ := @roundsDone P K mapBlockIndex
    (selectionIntervalStart P prev.nTime) last.nStakeModifier _ hcandidates modifierCandidates_sorted
    (modifierCandidates_nodup hnodup) _ (min_le_right 64 _)
  have hcompute : computeNextStakeModifier P K mapBlockIndex (prev :: pprev)
      = if prev.nTime / P.nModifierInterval ≤ last.nTime / P.nModifierInterval then
          .ok (last.nStakeModifier, false)
        else .ok (s.nStakeModifierNew, true) := by
    unfold computeNextStakeModifier
    simp only [hget, Result.ok_bind, hdiv]
    rw [map_timeHash_candidates, List.length_map, hfold]
    rfl
  refine ⟨last, hlast, ?_, ?_⟩
  · -- the modifier stays
    rw [hcompute]
    split_ifs with h
    · simp [h]
    · simp [h]
  · -- a new one is made
    intro hlater
    rw [if_neg (not_le.mpr hlater)] at hcompute
    exact ⟨sel, s.nStakeModifierNew, hcompute, hlen, hdone.drawn, hdone.bits⟩

end Next

namespace ModifierSample

open RetargetSample

/-- A block with entropy bit one, two hours above the one before; genesis generated a modifier. -/
def entry (n : Nat) : StakeIndex where
  toCBlockIndex := workBlock n (1510339532 + 7200 * n) 0x1d00ffff
  stakeEntropyBit := true
  generatedStakeModifier := n = 0
  nStakeModifier := 0
  hashProofOfStake := 0

/-- Hashes that are easy to compute. -/
def stakeHash : StakeHash where
  hashSelection hash nModifier := hash + nModifier
  hashKernel stream := stream.seed

def mapBlockIndex (hash : Uint256) : Option StakeIndex :=
  [entry 3, entry 2, entry 1, entry 0].find? (fun e => e.hashBlock = hash)

end ModifierSample

open ModifierSample RetargetSample in
/-- Six hours after genesis all four blocks are drawn. -/
theorem computeNextStakeModifier_spec_sample :
    ∃ sel nStakeModifierNew,
      computeNextStakeModifier params stakeHash mapBlockIndex [entry 3, entry 2, entry 1, entry 0]
          = .ok (nStakeModifierNew, true)
        ∧ sel.length = 4 ∧ ModifierBits nStakeModifierNew sel := by
  have hindex : ∀ e ∈ entry 3 :: [entry 2, entry 1, entry 0], mapBlockIndex e.hashBlock = some e := by decide
  obtain ⟨last, hlast, -, hnew⟩ := @computeNextStakeModifier_spec params stakeHash _ _ _ hindex (by decide) rfl
  obtain rfl : entry 0 = last := Option.some.inj hlast
  obtain ⟨sel, nStakeModifierNew, hcompute, hlen, -, hbits⟩ := hnew (by decide)
  exact ⟨sel, nStakeModifierNew, hcompute, hlen.trans (by decide), hbits⟩

end Peershares
