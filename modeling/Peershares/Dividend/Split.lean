import Peershares.Dividend.Payment

/-!
# Splitting a dividend into transactions

`GetTransactionCount` says how many transactions there are, and `GenerateOutputs` deals the
distributions out to them in turn. Dealing is even: the transactions in front of the next one have one
output more than the rest (`Dealt`). With a count of one more than the quotient no transaction gets too
many outputs, but with a maximum of one output the count is larger than the number of distributions, and
`GenerateOutputs` refuses it.

* `Dealt.dealOut` — how many outputs each transaction gets
* `perm_dealOut` — every distribution gets one output
* `split_iff` — when a split is right
-/

open Framework

namespace Peershares

variable {D : Type}

/-- The output of a distribution. -/
def Distribution.output (x : Distribution D) : CBase58Data × D := (x.addrPeercoin, x.dDividendAmount)

/-! ### Dealing out -/

/-- The transactions have `q` outputs each, those in front of `i` one more. -/
def Dealt (i q : ℕ) (outs : List (Outputs D)) : Prop :=
  ∀ j out, outs[j]? = some out → out.length = if j < i then q + 1 else q

/-- Nothing dealt. -/
theorem Dealt.replicate (n : ℕ) : Dealt 0 0 (List.replicate n ([] : Outputs D)) := by
  intro j out h
  rw [List.getElem?_replicate] at h
  split_ifs at h
  cases h
  rfl

/-- One more output; behind the last transaction comes the first one again. -/
theorem Dealt.modify {i q : ℕ} {outs : List (Outputs D)} (h : Dealt i q outs) (hi : i < outs.length)
    (o : CBase58Data × D) :
    ∃ q', Dealt ((i + 1) % outs.length) q' (outs.modify i (· ++ [o])) ∧
      outs.length * q' + (i + 1) % outs.length = outs.length * q + i + 1 := by
  have hlen : ∀ j out, (outs.modify i (· ++ [o]))[j]? = some out →
      j < outs.length ∧ out.length = if j < i + 1 then q + 1 else q := by
    intro j out hout
    rw [List.getElem?_modify] at hout
    obtain ⟨out₀, hout₀, heq⟩ := Option.map_eq_some_iff.mp hout
    refine ⟨(List.getElem?_eq_some_iff.mp hout₀).1, ?_⟩
    have hq := h j out₀ hout₀
    by_cases hij : i = j
    · subst hij
      rw [if_pos rfl] at heq
      rw [if_neg (lt_irrefl i)] at hq
      rw [← heq, List.length_append, hq, if_pos (Nat.lt_succ_self i)]
      rfl
    · rw [if_neg hij] at heq
      rw [← heq, hq]
      split_ifs <;> omega
  by_cases hlast : i + 1 = outs.length
  · refine ⟨q + 1, fun j out hout => ?_, ?_⟩
    · obtain ⟨hj, hq⟩ := hlen j out hout
      rw [hq, if_pos (by omega), if_neg (by rw [hlast, Nat.mod_self]; omega)]
    · rw [hlast, Nat.mod_self, Nat.mul_add]
      omega
  · have hmod : (i + 1) % outs.length = i + 1 := Nat.mod_eq_of_lt (by omega)
    refine ⟨q, fun j out hout => ?_, ?_⟩
    · rw [hmod]
      exact (hlen j out hout).2
    · rw [hmod]
      omega

/-- **The lengths of the transactions** after the distributions have been dealt out. -/
theorem Dealt.dealOut {n i q : ℕ} {vDistribution : List (Distribution D)} {outs : List (Outputs D)}
    (h : Dealt i q outs) (hlen : outs.length = n) (hi : i < n) :
    ∃ i' q', Dealt i' q' (DividendDistributor.dealOut n vDistribution i outs) ∧ i' < n ∧
      n * q' + i' = n * q + i + vDistribution.length := by
  induction vDistribution generalizing i q outs with
  | nil => exact ⟨i, q, h, hi, rfl⟩
  | cons distribution vDistribution ih =>
    obtain ⟨q₁, hdealt, htotal⟩ := h.modify (by omega) distribution.output
    rw [hlen] at hdealt htotal
    have hnext : (i + 1) % n < n := Nat.mod_lt _ (by omega)
    obtain ⟨i', q', hrest, hi', htotal'⟩ := ih hdealt (by rw [List.length_modify, hlen]) hnext
    refine ⟨i', q', hrest, hi', ?_⟩
    rw [htotal', htotal, List.length_cons]
    omega

/-- One more output at one place. -/
theorem perm_flatten_modify {outs : List (Outputs D)} {i : ℕ} (hi : i < outs.length)
    (o : CBase58Data × D) : ((outs.modify i (· ++ [o])).flatten).Perm (o :: outs.flatten) := by
  induction outs generalizing i with
  | nil => exact absurd hi (by simp)
  | cons out outs ih =>
    cases i with
    | zero =>
      rw [List.modify_zero_cons, List.flatten_cons, List.flatten_cons, List.append_assoc]
      exact List.perm_middle
    | succ i =>
      rw [List.modify_succ_cons, List.flatten_cons, List.flatten_cons]
      exact ((ih (Nat.lt_of_succ_lt_succ hi)).append_left out).trans List.perm_middle

/-- **Every distribution gets one output**, in one of the transactions. -/
theorem perm_dealOut {n i : ℕ} {vDistribution : List (Distribution D)} {outs : List (Outputs D)}
    (hlen : outs.length = n) (hi : i < n) :
    ((DividendDistributor.dealOut n vDistribution i outs).flatten).Perm
      (vDistribution.map Distribution.output ++ outs.flatten) := by
  induction vDistribution generalizing i outs with
  | nil => exact List.Perm.refl _
  | cons distribution vDistribution ih =>
    have hnext : (i + 1) % n < n := Nat.mod_lt _ (by omega)
    have hdealt : (outs.modify i (· ++ [distribution.output])).length = n := by
      rw [List.length_modify, hlen]
    have hrest := ih hdealt hnext
    rw [List.map_cons, List.cons_append]
    exact hrest.trans (((perm_flatten_modify (by omega) _).append_left _).trans List.perm_middle)

/-! ### The count -/

/-- The split of a distribution is right: it does not throw, every distribution has its output in exactly
one transaction, and no transaction has more than `nMax` outputs. -/
def SplitsRight (nMax : Int) (d : DividendDistributor D) : Prop :=
  ∃ vOutputs, d.split nMax = .ok vOutputs ∧
    (vOutputs.flatten).Perm (d.vDistribution.map Distribution.output) ∧
    ∀ out ∈ vOutputs, (out.length : Int) ≤ nMax

/-- Short rows together are not long. -/
theorem length_flatten_le {outs : List (Outputs D)} {m : ℕ} (h : ∀ out ∈ outs, out.length ≤ m) :
    outs.flatten.length ≤ outs.length * m := by
  induction outs with
  | nil => simp
  | cons out outs ih =>
    obtain ⟨hfirst, hrest⟩ := List.forall_mem_cons.mp h
    rw [List.flatten_cons, List.length_append, List.length_cons, Nat.succ_mul]
    have := ih hrest
    omega

/-- A count that does not fit into an `int` comes out as a smaller one. -/
theorem bmod_count_lt {k : ℕ} (h : (k : Int).bmod (2 ^ 32) ≠ k) : (k : Int).bmod (2 ^ 32) + 2 ≤ k := by
  rw [Int.bmod_def] at h ⊢
  norm_num at h ⊢
  split_ifs at h ⊢ <;> omega

/-- A count as an `int`. -/
theorem bmod_count_le (k : ℕ) : (k : Int).bmod (2 ^ 32) < 2 ^ 31 := by
  rw [Int.bmod_def]
  norm_num
  split_ifs <;> omega

/-- A small one is itself. -/
theorem bmod_count_eq {k : ℕ} (h : (k : Int) < 2 ^ 31) : (k : Int).bmod (2 ^ 32) = k :=
  Int.bmod_eq_of_le_mul_two (by omega) (by norm_num at h ⊢; omega)

section Count

variable {d : DividendDistributor D} {m n : ℕ}

/-- A count that leaves room for every distribution is enough, unless there are more transactions than
distributions. -/
theorem generateOutputs_right (hn : 0 < n) (hle : n ≤ d.vDistribution.length)
    (hroom : d.vDistribution.length < m * n) :
    ∃ vOutputs, d.generateOutputs n = .ok vOutputs ∧
      (vOutputs.flatten).Perm (d.vDistribution.map Distribution.output) ∧
      ∀ out ∈ vOutputs, (out.length : Int) ≤ m := by
  refine ⟨DividendDistributor.dealOut n d.vDistribution 0 (List.replicate n []), ?_, ?_, ?_⟩
  · have hne : d.vDistribution ≠ [] := by
      rw [← List.length_pos_iff]
      omega
    unfold DividendDistributor.generateOutputs
    rw [if_neg (by omega), if_neg (by simpa using hne), if_neg (by omega), Int.toNat_natCast]
  · have hempty : (List.replicate n ([] : Outputs D)).length = n := List.length_replicate
    have hperm : ((DividendDistributor.dealOut n d.vDistribution 0 (List.replicate n [])).flatten).Perm
        (d.vDistribution.map Distribution.output ++ (List.replicate n []).flatten) :=
      perm_dealOut hempty hn
    simpa using hperm
  · intro out hout
    obtain ⟨j, hj⟩ := List.mem_iff_getElem?.mp hout
    have hempty : (List.replicate n ([] : Outputs D)).length = n := List.length_replicate
    have hdeal : ∃ i' q', Dealt i' q' (DividendDistributor.dealOut n d.vDistribution 0 (List.replicate n []))
        ∧ i' < n ∧ n * q' + i' = n * 0 + 0 + d.vDistribution.length :=
      (Dealt.replicate n).dealOut hempty hn
    obtain ⟨i', q', hdealt, hi', htotal⟩ := hdeal
    have hlen := hdealt j out hj
    -- `q'` full rounds fit, so `q'` is below the maximum
    have hfull : q' < m := by
      by_contra hge
      have hmul : n * m ≤ n * q' := Nat.mul_le_mul_left n (by omega)
      rw [Nat.mul_comm m] at hroom
      omega
    split_ifs at hlen <;> omega

/-- When the split is right, the count is positive, not above the number of distributions, and leaves
room for all of them. -/
theorem room_of_generateOutputs {c : Int} {vOutputs : List (Outputs D)}
    (hok : d.generateOutputs c = .ok vOutputs) (hmax : ∀ out ∈ vOutputs, (out.length : Int) ≤ m)
    (hperm : (vOutputs.flatten).Perm (d.vDistribution.map Distribution.output)) :
    0 < c ∧ c ≤ d.vDistribution.length ∧ d.vDistribution.length ≤ c.toNat * m := by
  unfold DividendDistributor.generateOutputs at hok
  split_ifs at hok with hpos hempty hmany
  cases hok
  have hflat := length_flatten_le (m := m) (fun out hout => by exact_mod_cast hmax out hout)
  rw [hperm.length_eq, List.length_map, length_dealOut, List.length_replicate] at hflat
  exact ⟨not_le.mp hpos, not_lt.mp hmany, hflat⟩

end Count

/-- The number of transactions is computed as an `int`. -/
theorem split_eq {nMax : ℕ} (d : DividendDistributor D) (hpos : 0 < nMax) (hint : nMax < 2 ^ 31) :
    d.split nMax =
      d.generateOutputs (((1 + d.vDistribution.length / nMax : ℕ) : Int).bmod (2 ^ 32)) := by
  have hsize : ((nMax : Int) % 2 ^ 64).toNat = nMax := by omega
  have hcount : d.getTransactionCount nMax =
      .ok (((1 + d.vDistribution.length / nMax : ℕ) : Int).bmod (2 ^ 32)) := by
    unfold DividendDistributor.getTransactionCount
    rw [if_neg (by omega), hsize]
  unfold DividendDistributor.split
  rw [hcount, Result.ok_bind]

/-- **When a dividend is split right**: the maximum is more than one output, and the count is an `int`. -/
theorem split_iff {nMax : Int} {d : DividendDistributor D} (hne : d.vDistribution ≠ []) (hpos : 1 ≤ nMax)
    (hint : nMax < 2 ^ 31) :
    SplitsRight nMax d ↔ 2 ≤ nMax ∧ 1 + (d.vDistribution.length : Int) / nMax < 2 ^ 31 := by
  obtain ⟨m, rfl⟩ := Int.eq_ofNat_of_zero_le (by omega : 0 ≤ nMax)
  have hm : 0 < m := by omega
  have hsize : 0 < d.vDistribution.length := List.length_pos_of_ne_nil hne
  have hsplit := split_eq d hm (by exact_mod_cast hint)
  have hcast : 1 + (d.vDistribution.length : Int) / m = ((1 + d.vDistribution.length / m : ℕ) : Int) := by
    push_cast
    rfl
  -- one transaction more than the quotient has room for all, and one less would not
  have hroom : d.vDistribution.length < m * (1 + d.vDistribution.length / m) := by
    rw [Nat.add_comm]
    exact Nat.lt_mul_div_succ _ hm
  have hquot : m * (d.vDistribution.length / m) ≤ d.vDistribution.length := Nat.mul_div_le _ m
  unfold SplitsRight
  rw [hsplit, hcast]
  generalize hk : d.vDistribution.length / m = k at *
  constructor
  · -- a right split needs room for the number of transactions as an `int`
    rintro ⟨vOutputs, hok, hperm, hmax⟩
    obtain ⟨hcpos, hcle, hcroom⟩ := room_of_generateOutputs hok hmax hperm
    have hexact : (((1 + k : ℕ) : Int)).bmod (2 ^ 32) = ((1 + k : ℕ) : Int) := by
      by_contra hcut
      have hlt := bmod_count_lt hcut
      have hless : (((1 + k : ℕ) : Int).bmod (2 ^ 32)).toNat ≤ k - 1 := by omega
      have hstep := Nat.mul_le_mul_right m hless
      rw [Nat.sub_mul, Nat.one_mul, Nat.mul_comm k m] at hstep
      omega
    have hbound := bmod_count_le (1 + k)
    rw [hexact] at hcle hbound
    refine ⟨?_, hbound⟩
    -- with one output each, there would be a transaction more than distributions
    by_contra hone
    obtain rfl : m = 1 := by omega
    rw [Nat.div_one] at hk
    omega
  · -- and has it under the condition
    rintro ⟨htwo, hbound⟩
    rw [bmod_count_eq hbound]
    have htwice : 2 * k ≤ m * k := Nat.mul_le_mul_right k (by omega)
    have hle : 1 + k ≤ d.vDistribution.length := by
      rcases Nat.eq_zero_or_pos k with hzero | hkpos
      · omega
      · omega
    exact generateOutputs_right (by omega) hle hroom

namespace Sample

/-- The three holders of `dividend`, with one output in a transaction: four transactions are refused. -/
theorem split_one_throws : Sample.dividend.split 1 =
    .error (.exception "Output split in too many transactions") := by
  decide

end Sample

/-- One output for each transaction. -/
theorem splitsRight_one : ¬ ∀ (d : DividendDistributor ℚ) (nMax : Int), d.vDistribution ≠ [] → 1 ≤ nMax →
    nMax < 2 ^ 31 → SplitsRight nMax d := by
  intro h
  obtain ⟨vOutputs, hok, -⟩ := h Sample.dividend 1 (by decide) (by norm_num) (by norm_num)
  rw [Sample.split_one_throws] at hok
  exact absurd hok (by simp)

/-- Two outputs for each transaction. -/
theorem splitsRight_two : SplitsRight 2 Sample.dividend :=
  (split_iff (by decide) (by norm_num) (by norm_num)).mpr ⟨le_refl _, by decide⟩

end Peershares
