import Mathlib.Data.List.TakeWhile
import Peershares.Framework.Limbs
import Peershares.Model.Uint256

/-!
# Wide integers are numbers modulo a power of two

Each loop over the words of a `base_uint` is the operation on the number that the words stand for. The other modules
have these numbers in place of a `uint256`.

The operations go through the words in three ways, and each has its own kind of invariant. Addition carries from the
lowest word up, so the words done so far and the carry together are the sum so far (`valOf_addLoop`). A comparison
goes down from the highest word and is decided by the first difference (`compareLoop_lt`). A shift puts the parts of
each word into two words of the result with an or; there the numbers are compared bit by bit, since which word a bit
of the result comes from depends on its place (`bit_shiftLeftStep`, `bit_shiftRightStep`).

* `val_add`, `val_neg`, `val_sub`, `val_inc`, `val_dec` — the carry
* `val_shiftLeft`, `val_shiftRight` — each bit
* `lt_iff`, `eq_iff` — from the highest word
* `setHex_getHex` — the text
* `baseUint_refines` — all of them
-/

open Framework

namespace Peershares

namespace BaseUint

variable {WIDTH : ℕ} {a b : BaseUint WIDTH}

/-! ### The number -/

/-- The number of words. -/
def valOf (pn : List UInt32) : ℕ := Nat.ofDigits (2 ^ 32) (pn.map UInt32.toNat)

/-- The number that a `base_uint` stands for. -/
def val (a : BaseUint WIDTH) : ℕ := valOf a.pn

/-- The lowest word first. -/
theorem valOf_cons (x : UInt32) (xs : List UInt32) : valOf (x :: xs) = x.toNat + 2 ^ 32 * valOf xs := by
  unfold valOf
  rw [List.map_cons, Nat.ofDigits_cons]

/-- A word is a digit to the base `2 ^ 32`. -/
theorem toNat_lt_of_mem {pn : List UInt32} : ∀ d ∈ pn.map UInt32.toNat, d < 2 ^ 32 := by
  intro d hd
  obtain ⟨x, -, rfl⟩ := List.mem_map.mp hd
  exact x.toNat_lt

/-- The value of a row of words. -/
theorem valOf_lt (pn : List UInt32) : valOf pn < (2 ^ 32) ^ pn.length := by
  have h := ofDigits_lt (l := pn.map UInt32.toNat) toNat_lt_of_mem (by norm_num)
  rwa [List.length_map] at h

/-- The value of a `base_uint`. -/
theorem val_lt (a : BaseUint WIDTH) : a.val < 2 ^ (32 * WIDTH) := by
  have h := valOf_lt a.pn
  rwa [a.length_pn, ← pow_mul] at h

/-- Rows of one length with equal values are equal. -/
theorem valOf_inj {xs ys : List UInt32} (hlen : xs.length = ys.length) (h : valOf xs = valOf ys) : xs = ys := by
  have hdigits := Nat.ofDigits_inj_of_len_eq (b := 2 ^ 32) (by norm_num) (by simpa using hlen) toNat_lt_of_mem
    toNat_lt_of_mem h
  exact (List.map_injective_iff.mpr fun x y => UInt32.toNat_inj.mp) hdigits

/-- The value determines the number. -/
theorem val_inj : a.val = b.val ↔ a = b := by
  refine ⟨fun h => ?_, congrArg val⟩
  have hpn := valOf_inj (a.length_pn.trans b.length_pn.symm) h
  cases a
  cases b
  simp_all

/-! ### Carries -/

/-- The loop of `operator+=`, carry included. -/
theorem valOf_addLoop {carry : UInt64} (hcarry : carry.toNat ≤ 1) {xs ys : List UInt32}
    (hlen : xs.length = ys.length) :
    valOf (addLoop carry xs ys) = (carry.toNat + valOf xs + valOf ys) % (2 ^ 32) ^ xs.length := by
  induction xs generalizing carry ys with
  | nil =>
    cases ys with
    | nil =>
      rw [List.length_nil, pow_zero, Nat.mod_one]
      rfl
    | cons y ys => cases hlen
  | cons x xs ih =>
    cases ys with
    | nil => cases hlen
    | cons y ys =>
      have hx := x.toNat_lt
      have hy := y.toNat_lt
      -- three summands below `2 ^ 32` are within the 64 bits of `n`
      have hn : (carry + x.toUInt64 + y.toUInt64).toNat = carry.toNat + x.toNat + y.toNat := by
        simp only [UInt64.toNat_add, UInt32.toNat_toUInt64]
        omega
      -- the low half is the word, and the high half carries
      have hlow : ((carry + x.toUInt64 + y.toUInt64) &&& 0xffffffff).toUInt32.toNat =
          (carry.toNat + x.toNat + y.toNat) % 2 ^ 32 := by
        rw [UInt64.toNat_toUInt32, UInt64.toNat_and, hn]
        have hmask : (0xffffffff : UInt64).toNat = 2 ^ 32 - 1 := by decide
        rw [hmask, Nat.and_two_pow_sub_one_eq_mod, Nat.mod_mod]
      have hhigh : ((carry + x.toUInt64 + y.toUInt64) >>> 32).toNat =
          (carry.toNat + x.toNat + y.toNat) / 2 ^ 32 := by
        rw [UInt64.toNat_shiftRight, hn]
        have hshift : (32 : UInt64).toNat % 64 = 32 := by decide
        rw [hshift, Nat.shiftRight_eq_div_pow]
      have hcarry' : ((carry + x.toUInt64 + y.toUInt64) >>> 32).toNat ≤ 1 := by
        rw [hhigh]
        omega
      rw [addLoop, valOf_cons, ih hcarry' (Nat.succ.inj hlen), hlow, hhigh, valOf_cons, valOf_cons, List.length_cons,
        pow_succ' (2 ^ 32), Nat.add_assoc (_ / _), mod_carry (by norm_num)]
      congr 1
      ring

/-- `operator+=`. -/
theorem val_add (a b : BaseUint WIDTH) : (a.add b).val = (a.val + b.val) % 2 ^ (32 * WIDTH) := by
  have h := @valOf_addLoop 0 (by decide) _ _ (a.length_pn.trans b.length_pn.symm)
  rw [a.length_pn, ← pow_mul] at h
  unfold val add
  rw [h]
  simp

/-- The loop of `operator++`. -/
theorem valOf_incLoop (xs : List UInt32) : valOf (incLoop xs) = (valOf xs + 1) % (2 ^ 32) ^ xs.length := by
  induction xs with
  | nil =>
    rw [List.length_nil, pow_zero, Nat.mod_one]
    rfl
  | cons x xs ih =>
    have hx := x.toNat_lt
    -- the first word, with what it carries
    have hcarry := mod_carry (B := 2 ^ 32) (by norm_num) (x.toNat + 1) (valOf xs) ((2 ^ 32) ^ xs.length)
    have hsum : x.toNat + 1 + 2 ^ 32 * valOf xs = valOf (x :: xs) + 1 := by
      rw [valOf_cons]
      ring
    have hword : (x + 1).toNat = (x.toNat + 1) % 2 ^ 32 := UInt32.toNat_add x 1
    rw [List.length_cons, pow_succ' (2 ^ 32), ← hsum, ← hcarry, incLoop]
    split_ifs with hzero
    · -- the word was the largest one, so it carries
      have hover : x.toNat + 1 = 2 ^ 32 := by
        have := congrArg UInt32.toNat hzero
        rw [hword, UInt32.toNat_zero] at this
        omega
      rw [valOf_cons, ih, hword, hover, Nat.div_self (by norm_num), Nat.add_comm 1]
    · have hover : x.toNat + 1 < 2 ^ 32 := by
        by_contra hnot
        have heq : x.toNat + 1 = 2 ^ 32 := by omega
        refine hzero (UInt32.toNat_inj.mp ?_)
        rw [hword, heq]
        rfl
      rw [valOf_cons, hword, Nat.div_eq_of_lt hover, Nat.zero_add, Nat.mod_eq_of_lt (valOf_lt xs)]

/-- `operator++`. -/
theorem val_inc (a : BaseUint WIDTH) : a.inc.val = (a.val + 1) % 2 ^ (32 * WIDTH) := by
  rw [pow_mul]
  exact (valOf_incLoop a.pn).trans (by rw [a.length_pn]; rfl)

/-- One less is what one more leads back from. -/
theorem valOf_decLoop (xs : List UInt32) : (valOf (decLoop xs) + 1) % (2 ^ 32) ^ xs.length = valOf xs := by
  induction xs with
  | nil =>
    rw [List.length_nil, pow_zero, Nat.mod_one]
    rfl
  | cons x xs ih =>
    have hx := x.toNat_lt
    have hlt := valOf_lt (x :: xs)
    rw [List.length_cons] at hlt ⊢
    rw [decLoop]
    by_cases hzero : x = 0
    · -- zero borrows from the next word
      subst hzero
      have hword : ((0 : UInt32) - 1).toNat = 2 ^ 32 - 1 := by decide
      have hsum : 2 ^ 32 - 1 + 2 ^ 32 * valOf (decLoop xs) + 1 = 2 ^ 32 * (valOf (decLoop xs) + 1) := by
        have : (1 : ℕ) ≤ 2 ^ 32 := by norm_num
        omega
      rw [if_pos (by decide), valOf_cons, hword, hsum, pow_succ' (2 ^ 32), Nat.mul_mod_mul_left, ih, valOf_cons,
        UInt32.toNat_zero, Nat.zero_add]
    · have hpos : 0 < x.toNat := Nat.pos_of_ne_zero fun h => hzero (UInt32.toNat_inj.mp h)
      -- any other word has one less, and the loop stops
      have hword : (x - 1).toNat = x.toNat - 1 := by
        rw [UInt32.toNat_sub_of_le]
        · rfl
        · exact UInt32.le_iff_toNat_le.mpr hpos
      have hmax : x - 1 ≠ 0xffffffff := by
        intro h
        have := congrArg UInt32.toNat h
        rw [hword] at this
        have hval : (0xffffffff : UInt32).toNat = 2 ^ 32 - 1 := by decide
        omega
      have hsum : x.toNat - 1 + 2 ^ 32 * valOf xs + 1 = valOf (x :: xs) := by
        rw [valOf_cons]
        omega
      rw [if_neg hmax, valOf_cons, hword, hsum, Nat.mod_eq_of_lt hlt]

/-- `operator--`. -/
theorem val_dec (a : BaseUint WIDTH) : a.dec.val = (a.val + (2 ^ (32 * WIDTH) - 1)) % 2 ^ (32 * WIDTH) := by
  have hback : (a.dec.val + 1) % 2 ^ (32 * WIDTH) = a.val := by
    have h := valOf_decLoop a.pn
    rwa [a.length_pn, ← pow_mul] at h
  have hlt := a.dec.val_lt
  have hpos : 0 < 2 ^ (32 * WIDTH) := Nat.two_pow_pos _
  rw [← hback, Nat.mod_add_mod, Nat.add_assoc, Nat.add_sub_cancel' hpos, Nat.add_mod_right,
    Nat.mod_eq_of_lt hlt]

/-- `operator~`. -/
theorem val_not (a : BaseUint WIDTH) : a.not.val + a.val + 1 = 2 ^ (32 * WIDTH) := by
  have h := ofDigits_map_sub (B := 2 ^ 32) (l := a.pn.map UInt32.toNat) toNat_lt_of_mem
  rw [List.map_map, List.length_map, a.length_pn, ← pow_mul] at h
  rw [← h]
  unfold val valOf not
  rw [List.map_map]
  congr 3
  exact List.map_congr_left fun x _ => UInt32.toNat_not x

/-- `operator-` of one number. -/
theorem val_neg (a : BaseUint WIDTH) : a.neg.val = (2 ^ (32 * WIDTH) - a.val) % 2 ^ (32 * WIDTH) := by
  have hnot := a.val_not
  have heq : a.not.val + 1 = 2 ^ (32 * WIDTH) - a.val := by omega
  unfold neg
  rw [val_inc, heq]

/-- `operator-=`. -/
theorem val_sub (a b : BaseUint WIDTH) :
    (a.sub b).val = (a.val + (2 ^ (32 * WIDTH) - b.val)) % 2 ^ (32 * WIDTH) := by
  unfold sub
  rw [val_add, val_neg, Nat.add_mod_mod]

/-- `operator=(uint64)`. -/
theorem val_ofUInt64 (b : UInt64) : (ofUInt64 b : BaseUint (WIDTH + 2)).val = b.toNat := by
  have hb := b.toNat_lt
  have hzero : ∀ n : ℕ, valOf (List.replicate n 0) = 0 := by
    intro n
    induction n with
    | zero => rfl
    | succ n ih => rw [List.replicate_succ, valOf_cons, ih, UInt32.toNat_zero, Nat.mul_zero]
  have hhigh : (b >>> 32).toUInt32.toNat = b.toNat / 2 ^ 32 := by
    have hshift : (32 : UInt64).toNat % 64 = 32 := by decide
    rw [UInt64.toNat_toUInt32, UInt64.toNat_shiftRight, hshift, Nat.shiftRight_eq_div_pow]
    exact Nat.mod_eq_of_lt (by omega)
  unfold val ofUInt64
  rw [valOf_cons, valOf_cons, hzero, hhigh, UInt64.toNat_toUInt32, Nat.mul_zero, Nat.add_zero]
  exact Nat.mod_add_div _ _

/-! ### Comparisons -/

/-- Words from the highest are compared like the number. -/
theorem compareLoop_lt (equal : Bool) {xs ys : List UInt32} (hlen : xs.length = ys.length) :
    compareLoop (fun x y => x < y) equal xs.reverse ys.reverse =
      if valOf xs < valOf ys then true else if valOf ys < valOf xs then false else equal := by
  induction xs using List.reverseRecOn generalizing ys with
  | nil =>
    obtain rfl : ys = [] := List.length_eq_zero_iff.mp hlen.symm
    rfl
  | append_singleton xs x ih =>
    obtain rfl | ⟨ys, y, rfl⟩ := ys.eq_nil_or_concat
    · simp at hlen
    · have hlen' : xs.length = ys.length := by simpa using hlen
      have hmap : (xs.map UInt32.toNat).length = (ys.map UInt32.toNat).length := by simpa using hlen'
      have hless := ofDigits_concat_lt hmap toNat_lt_of_mem toNat_lt_of_mem (by norm_num) x.toNat y.toNat
      have hmore := ofDigits_concat_lt hmap.symm toNat_lt_of_mem toNat_lt_of_mem (by norm_num) y.toNat x.toNat
      have hval : ∀ (zs : List UInt32) (z : UInt32),
          valOf (zs ++ [z]) = Nat.ofDigits (2 ^ 32) (zs.map UInt32.toNat ++ [z.toNat]) := by
        intro zs z
        unfold valOf
        rw [List.map_append, List.map_singleton]
      -- the highest words decide, and the lower ones if these are equal
      rw [← hval, ← hval] at hless hmore
      rw [List.concat_eq_append, List.reverse_append, List.reverse_append, List.reverse_singleton,
        List.reverse_singleton, List.singleton_append, List.singleton_append, compareLoop, ih hlen']
      change _ ↔ _ ∨ _ ∧ valOf xs < valOf ys at hless
      change _ ↔ _ ∨ _ ∧ valOf ys < valOf xs at hmore
      simp only [hless, hmore, decide_eq_true_eq, UInt32.lt_iff_toNat_lt]
      split_ifs <;> first | rfl | omega

/-- `operator<` compares the values. -/
theorem lt_iff : a.lt b = true ↔ a.val < b.val := by
  unfold lt
  rw [compareLoop_lt false (a.length_pn.trans b.length_pn.symm)]
  change (if a.val < b.val then _ else if b.val < a.val then _ else _) = _ ↔ _
  split_ifs with h <;> simp [h]

/-- So does `operator<=`. -/
theorem le_iff : a.le b = true ↔ a.val ≤ b.val := by
  unfold le
  rw [compareLoop_lt true (a.length_pn.trans b.length_pn.symm)]
  change (if a.val < b.val then _ else if b.val < a.val then _ else _) = _ ↔ _
  split_ifs <;> simp <;> omega

/-- Comparing the other way is comparing with the numbers exchanged. -/
theorem compareLoop_gt (equal : Bool) (xs ys : List UInt32) :
    compareLoop (fun x y => x > y) equal xs ys = compareLoop (fun x y => x < y) equal ys xs := by
  induction xs generalizing ys with
  | nil => cases ys <;> rfl
  | cons x xs ih =>
    cases ys with
    | nil => rfl
    | cons y ys =>
      rw [compareLoop, compareLoop, ih]

/-- And `operator>`. -/
theorem gt_iff : a.gt b = true ↔ b.val < a.val := by
  unfold gt
  rw [compareLoop_gt]
  exact lt_iff

/-- And `operator>=`. -/
theorem ge_iff : a.ge b = true ↔ b.val ≤ a.val := by
  unfold ge
  rw [compareLoop_gt]
  exact le_iff

/-- The loop of `operator==`. -/
theorem equalLoop_iff {xs ys : List UInt32} (hlen : xs.length = ys.length) :
    equalLoop xs ys = true ↔ xs = ys := by
  induction xs generalizing ys with
  | nil => simp [equalLoop, List.length_eq_zero_iff.mp hlen.symm]
  | cons x xs ih =>
    cases ys with
    | nil => cases hlen
    | cons y ys =>
      rw [equalLoop, List.cons.injEq, ← ih (Nat.succ.inj hlen)]
      split_ifs with hne
      · simp [hne]
      · simp [not_not.mp hne]

/-- `operator==` compares the values. -/
theorem eq_iff : a.eq b = true ↔ a.val = b.val := by
  unfold eq
  rw [equalLoop_iff (a.length_pn.trans b.length_pn.symm), val_inj]
  refine ⟨fun h => ?_, congrArg pn⟩
  cases a
  cases b
  simp_all

/-- And `operator!=`. -/
theorem ne_iff : a.ne b = true ↔ a.val ≠ b.val := by
  unfold ne
  rw [Bool.not_eq_true', ← Bool.not_eq_true, eq_iff]

/-- The comparison with a `uint64` looks at two words and at all others for zero. -/
theorem eqUInt64_iff {a : BaseUint (WIDTH + 2)} {b : UInt64} : a.eqUInt64 b = true ↔ a.val = b.toNat := by
  rw [← @val_ofUInt64 WIDTH b, val_inj]
  obtain ⟨pn, hlen⟩ := a
  obtain ⟨x, y, zs, rfl⟩ : ∃ x y zs, pn = x :: y :: zs := by
    match pn, hlen with
    | x :: y :: zs, _ => exact ⟨x, y, zs, rfl⟩
  have hzs : (∀ z ∈ zs, z = 0) ↔ zs = List.replicate WIDTH 0 := by
    rw [List.eq_replicate_iff]
    have : zs.length = WIDTH := by simpa using hlen
    exact (and_iff_right this).symm
  unfold eqUInt64 ofUInt64
  simp only [List.getD_cons_zero, List.getD_cons_succ, List.drop_succ_cons, List.drop_zero, BaseUint.mk.injEq,
    List.cons.injEq, ← hzs]
  split_ifs with hx hy
  · simp [hx]
  · simp [hy]
  · simp [not_not.mp hx, not_not.mp hy]

/-- And its negation. -/
theorem neUInt64_iff {a : BaseUint (WIDTH + 2)} {b : UInt64} : a.neUInt64 b = true ↔ a.val ≠ b.toNat := by
  unfold neUInt64
  rw [Bool.not_eq_true', ← Bool.not_eq_true, eqUInt64_iff]

/-! ### Bits -/

/-- A bit of a word. -/
def bit (pn : List UInt32) (j t : ℕ) : Bool := (pn.getD j 0).toNat.testBit t

/-- The bits of the value are those of the words. -/
theorem testBit_valOf (pn : List UInt32) (p : ℕ) : (valOf pn).testBit p = bit pn (p / 32) (p % 32) := by
  have h := testBit_ofDigits (w := 32) (by norm_num) (l := pn.map UInt32.toNat) toNat_lt_of_mem p
  have hget : (pn.map UInt32.toNat).getD (p / 32) 0 = (pn.getD (p / 32) 0).toNat := by
    rw [List.getD_eq_getElem?_getD, List.getD_eq_getElem?_getD, List.getElem?_map]
    cases pn[p / 32]? <;> rfl
  rw [hget] at h
  exact h

/-- The bits after `pn[i] |= x`. -/
theorem bit_orAt {pn : List UInt32} {i : ℕ} (hi : i < pn.length) (x : UInt32) (j t : ℕ) :
    bit (orAt pn i x) j t = (bit pn j t || (decide (j = i) && x.toNat.testBit t)) := by
  unfold bit orAt
  rw [List.getD_eq_getElem?_getD, List.getD_eq_getElem?_getD, List.getElem?_modify]
  by_cases hj : j = i
  · subst hj
    rw [List.getElem?_eq_getElem hi]
    simp
  · simp [hj, Ne.symm hj]

/-- A loop whose rounds set bits. -/
theorem bit_foldl {step : List UInt32 → ℕ → List UInt32} {f : ℕ → Bool} {n j t : ℕ} {is : List ℕ}
    (hlen : ∀ pn i, (step pn i).length = pn.length)
    (hbit : ∀ pn i, pn.length = n → i ∈ is → bit (step pn i) j t = (bit pn j t || f i)) {pn : List UInt32}
    (hpn : pn.length = n) : bit (is.foldl step pn) j t = (bit pn j t || is.any f) := by
  induction is generalizing pn with
  | nil => simp
  | cons i is ih =>
    rw [List.foldl_cons, ih (fun pn i hpn hi => hbit pn i hpn (List.mem_cons_of_mem _ hi))
      ((hlen pn i).trans hpn), hbit pn i hpn List.mem_cons_self, List.any_cons, Bool.or_assoc]

/-- Zero has no bits. -/
theorem bit_replicate (n j t : ℕ) : bit (List.replicate n 0) j t = false := by
  unfold bit
  rw [List.getD_eq_getElem?_getD, List.getElem?_replicate]
  split_ifs <;> simp

/-- A word has 32 bits. -/
theorem testBit_toNat_eq_false (x : UInt32) {t : ℕ} (ht : 32 ≤ t) : x.toNat.testBit t = false :=
  Nat.testBit_lt_two_pow (x.toNat_lt.trans_le (Nat.pow_le_pow_right (by norm_num) ht))

/-- The bits of a word shifted to the right. -/
theorem testBit_shiftRight_word (x : UInt32) {s : ℕ} (hs : s < 32) (t : ℕ) :
    (x >>> UInt32.ofNat s).toNat.testBit t = x.toNat.testBit (s + t) := by
  have hof : (UInt32.ofNat s).toNat = s := UInt32.toNat_ofNat_of_lt' (hs.trans (by decide))
  rw [UInt32.toNat_shiftRight, hof, Nat.mod_eq_of_lt hs, Nat.testBit_shiftRight]

/-- The bits of a word shifted to the left, of which those above 31 are lost. -/
theorem testBit_shiftLeft_word (x : UInt32) {s : ℕ} (hs : s < 32) {t : ℕ} (ht : t < 32) :
    (x <<< UInt32.ofNat s).toNat.testBit t = (decide (s ≤ t) && x.toNat.testBit (t - s)) := by
  have hof : (UInt32.ofNat s).toNat = s := UInt32.toNat_ofNat_of_lt' (hs.trans (by decide))
  rw [UInt32.toNat_shiftLeft, hof, Nat.mod_eq_of_lt hs, Nat.testBit_mod_two_pow, Nat.testBit_shiftLeft,
    decide_eq_true ht, Bool.true_and]

/-- A bit that is set lies in the row. -/
theorem lt_length_of_bit {pn : List UInt32} {j t : ℕ} (h : bit pn j t = true) : j < pn.length := by
  by_contra hnot
  unfold bit at h
  rw [List.getD_eq_getElem?_getD, List.getElem?_eq_none (not_lt.mp hnot)] at h
  simp at h

/-- What a round of `operator<<=` sets. -/
theorem bit_shiftLeftStep {as pn : List UInt32} (hlen : pn.length = as.length) (k s i j t : ℕ) :
    bit (shiftLeftStep as k s pn i) j t = (bit pn j t ||
      ((decide (i + k + 1 < as.length ∧ s ≠ 0 ∧ j = i + k + 1) &&
          (as.getD i 0 >>> UInt32.ofNat (32 - s)).toNat.testBit t) ||
        (decide (i + k < as.length ∧ j = i + k) && (as.getD i 0 <<< UInt32.ofNat s).toNat.testBit t))) := by
  unfold shiftLeftStep
  dsimp only
  by_cases hlow : i + k < as.length
  · rw [if_pos hlow]
    by_cases hhigh : i + k + 1 < as.length ∧ s ≠ 0
    · rw [if_pos hhigh, bit_orAt (by rw [length_orAt]; omega), bit_orAt (by omega)]
      simp [hlow, hhigh, Bool.or_assoc]
    · rw [if_neg hhigh, bit_orAt (by omega)]
      have hnot : ¬ (i + k + 1 < as.length ∧ s ≠ 0 ∧ j = i + k + 1) := fun h => hhigh ⟨h.1, h.2.1⟩
      simp only [hlow, true_and, decide_eq_false hnot, Bool.false_and, Bool.false_or]
  · have hhigh : ¬ (i + k + 1 < as.length ∧ s ≠ 0) := fun h => hlow (Nat.lt_of_succ_lt h.1)
    have hnot : ¬ (i + k + 1 < as.length ∧ s ≠ 0 ∧ j = i + k + 1) := fun h => hhigh ⟨h.1, h.2.1⟩
    rw [if_neg hlow, if_neg hhigh]
    simp only [hlow, false_and, decide_eq_false hnot, decide_false, Bool.false_and, Bool.or_false]

/-- `operator<<=`. -/
theorem val_shiftLeft (a : BaseUint WIDTH) (shift : ℕ) :
    (a.shiftLeft shift).val = (a.val * 2 ^ shift) % 2 ^ (32 * WIDTH) := by
  -- bit by bit
  refine Nat.eq_of_testBit_eq fun p => ?_
  have hs : shift % 32 < 32 := Nat.mod_lt _ (by norm_num)
  have ht : p % 32 < 32 := Nat.mod_lt _ (by norm_num)
  have hlen : (List.replicate WIDTH (0 : UInt32)).length = a.pn.length := by
    rw [List.length_replicate, a.length_pn]
  unfold val shiftLeft
  rw [testBit_valOf, bit_foldl (length_shiftLeftStep _ _ _) (fun pn i hpn _ => bit_shiftLeftStep hpn _ _ i _ _) hlen,
    bit_replicate, Bool.false_or, Nat.testBit_mod_two_pow, Nat.testBit_mul_two_pow, testBit_valOf, Bool.eq_iff_iff]
  simp only [List.any_eq_true, List.mem_range, Bool.or_eq_true, Bool.and_eq_true, decide_eq_true_eq,
    testBit_shiftLeft_word _ hs ht, a.length_pn]
  constructor
  · rintro ⟨i, hi, ⟨⟨hlt, hne, hj⟩, hset⟩ | ⟨⟨hlt, hj⟩, hle, hset⟩⟩
    · -- the bit comes from the high end of word `i`
      rw [testBit_shiftRight_word _ (by omega)] at hset
      have hbelow : 32 - shift % 32 + p % 32 < 32 := by
        by_contra hnot
        rw [testBit_toNat_eq_false _ (not_lt.mp hnot)] at hset
        cases hset
      have hdiv : (p - shift) / 32 = i := by omega
      have hmod : (p - shift) % 32 = 32 - shift % 32 + p % 32 := by omega
      refine ⟨by omega, by omega, ?_⟩
      unfold bit
      rwa [hdiv, hmod]
    · -- it comes from the low end
      have hdiv : (p - shift) / 32 = i := by omega
      have hmod : (p - shift) % 32 = p % 32 - shift % 32 := by omega
      refine ⟨by omega, by omega, ?_⟩
      unfold bit
      rwa [hdiv, hmod]
  · rintro ⟨hp, hle, hset⟩
    refine ⟨(p - shift) / 32, by omega, ?_⟩
    unfold bit at hset
    -- whether the bit stays within its word
    by_cases hword : (p - shift) % 32 + shift % 32 < 32
    · refine .inr ⟨⟨by omega, by omega⟩, by omega, ?_⟩
      have hbit : p % 32 - shift % 32 = (p - shift) % 32 := by omega
      rwa [hbit]
    · refine .inl ⟨⟨by omega, by omega, by omega⟩, ?_⟩
      have hbit : 32 - shift % 32 + p % 32 = (p - shift) % 32 := by omega
      rwa [testBit_shiftRight_word _ (by omega), hbit]

/-- What a round of `operator>>=` sets. -/
theorem bit_shiftRightStep {as pn : List UInt32} (k s : ℕ) {i : ℕ} (hi : i < pn.length) (j t : ℕ) :
    bit (shiftRightStep as k s pn i) j t = (bit pn j t ||
      ((decide ((k + 1 ≤ i ∧ s ≠ 0) ∧ j = i - k - 1) &&
          (as.getD i 0 <<< UInt32.ofNat (32 - s)).toNat.testBit t) ||
        (decide (k ≤ i ∧ j = i - k) && (as.getD i 0 >>> UInt32.ofNat s).toNat.testBit t))) := by
  unfold shiftRightStep
  dsimp only
  by_cases hlow : k ≤ i
  · rw [if_pos hlow]
    by_cases hhigh : k + 1 ≤ i ∧ s ≠ 0
    · rw [if_pos hhigh, bit_orAt (by rw [length_orAt]; omega), bit_orAt (by omega)]
      simp [hlow, hhigh, Bool.or_assoc]
    · rw [if_neg hhigh, bit_orAt (by omega)]
      simp only [hlow, hhigh, true_and, false_and, decide_false, Bool.false_and, Bool.false_or]
  · have hhigh : ¬ (k + 1 ≤ i ∧ s ≠ 0) := fun h => hlow (Nat.le_of_succ_le h.1)
    rw [if_neg hlow, if_neg hhigh]
    simp only [hlow, hhigh, false_and, decide_false, Bool.false_and, Bool.or_false]

/-- `operator>>=`. -/
theorem val_shiftRight (a : BaseUint WIDTH) (shift : ℕ) : (a.shiftRight shift).val = a.val / 2 ^ shift := by
  refine Nat.eq_of_testBit_eq fun p => ?_
  have hs : shift % 32 < 32 := Nat.mod_lt _ (by norm_num)
  have ht : p % 32 < 32 := Nat.mod_lt _ (by norm_num)
  have hlen : (List.replicate WIDTH (0 : UInt32)).length = WIDTH := List.length_replicate
  unfold val shiftRight
  rw [testBit_valOf, bit_foldl (length_shiftRightStep _ _ _)
    (fun pn i hpn hi => bit_shiftRightStep _ _ (by rw [hpn]; exact List.mem_range.mp hi) _ _) hlen,
    bit_replicate, Bool.false_or, Nat.testBit_div_two_pow, testBit_valOf, Bool.eq_iff_iff]
  simp only [List.any_eq_true, List.mem_range, Bool.or_eq_true, Bool.and_eq_true, decide_eq_true_eq,
    testBit_shiftRight_word _ hs]
  constructor
  · rintro ⟨i, -, ⟨⟨⟨hk, hne⟩, hj⟩, hset⟩ | ⟨⟨hk, hj⟩, hset⟩⟩
    · rw [testBit_shiftLeft_word _ (by omega) ht, Bool.and_eq_true, decide_eq_true_eq] at hset
      have hdiv : (p + shift) / 32 = i := by omega
      have hmod : (p + shift) % 32 = p % 32 - (32 - shift % 32) := by omega
      unfold bit
      rw [hdiv, hmod]
      exact hset.2
    · have hbelow : shift % 32 + p % 32 < 32 := by
        by_contra hnot
        rw [testBit_toNat_eq_false _ (not_lt.mp hnot)] at hset
        cases hset
      have hdiv : (p + shift) / 32 = i := by omega
      have hmod : (p + shift) % 32 = shift % 32 + p % 32 := by omega
      unfold bit
      rwa [hdiv, hmod]
  · intro hset
    have hlt : (p + shift) / 32 < WIDTH := (lt_length_of_bit hset).trans_eq a.length_pn
    refine ⟨(p + shift) / 32, hlt, ?_⟩
    unfold bit at hset
    -- as above
    by_cases hword : shift % 32 + p % 32 < 32
    · refine .inr ⟨⟨by omega, by omega⟩, ?_⟩
      have hbit : shift % 32 + p % 32 = (p + shift) % 32 := by omega
      rwa [hbit]
    · refine .inl ⟨⟨⟨by omega, by omega⟩, by omega⟩, ?_⟩
      have hbit : p % 32 - (32 - shift % 32) = (p + shift) % 32 := by omega
      rw [testBit_shiftLeft_word _ (by omega) ht, hbit, hset, Bool.and_true, decide_eq_true_eq]
      omega

/-! ### Text -/

/-- Four bytes a word. -/
theorem length_bytesOf (pn : List UInt32) : (bytesOf pn).length = 4 * pn.length := by
  induction pn with
  | nil => rfl
  | cons x xs ih =>
    have hbytes : bytesOf (x :: xs) = toLeBytes 4 x.toNat ++ bytesOf xs := List.flatMap_cons
    rw [hbytes, List.length_append, length_toLeBytes, ih, List.length_cons]
    ring

/-- The bytes give the words back. -/
theorem wordsOf_bytesOf (pn : List UInt32) : wordsOf pn.length (bytesOf pn) = pn := by
  induction pn with
  | nil => rfl
  | cons x xs ih =>
    have hbytes : bytesOf (x :: xs) = toLeBytes 4 x.toNat ++ bytesOf xs := List.flatMap_cons
    have hlen : (toLeBytes 4 x.toNat).length = 4 := length_toLeBytes 4 _
    rw [List.length_cons, wordsOf, hbytes, List.take_left' hlen, List.drop_left' hlen, ih,
      ofLeBytes_toLeBytes (by simpa using x.toNat_lt), UInt32.ofNat_toNat]

/-- The digits are read back. -/
theorem phexdigit_hexDigit {n : UInt8} (h : n < 16) :
    phexdigit (hexDigit n) = n ∧ hexDigit n ≠ 0 ∧ isSpace (hexDigit n) = false ∧ hexDigit n ≠ 120 ∧
      hexDigit n ≠ 88 ∧ (n = 0 → hexDigit n = 48) := by
  have hall : ∀ k : Fin 16, phexdigit (hexDigit (UInt8.ofNat k)) = UInt8.ofNat k ∧
      hexDigit (UInt8.ofNat k) ≠ 0 ∧ isSpace (hexDigit (UInt8.ofNat k)) = false ∧
      hexDigit (UInt8.ofNat k) ≠ 120 ∧ hexDigit (UInt8.ofNat k) ≠ 88 ∧
      (UInt8.ofNat k = 0 → hexDigit (UInt8.ofNat k) = 48) := by decide
  have hn := hall ⟨n.toNat, UInt8.lt_iff_toNat_lt.mp h⟩
  rwa [UInt8.ofNat_toNat] at hn

/-- The two halves of a byte. -/
theorem or_halves (b : UInt8) : (b % (16 : UInt8)) ||| (b / (16 : UInt8)) <<< (4 : UInt8) = b := by
  refine UInt8.toNat_inj.mp ?_
  have hb := b.toNat_lt
  have hshift : (4 : UInt8).toNat % 8 = 4 := by decide
  have hsixteen : (16 : UInt8).toNat = 2 ^ 4 := by decide
  have hhigh : (b.toNat / 2 ^ 4) <<< 4 % 2 ^ 8 = 2 ^ 4 * (b.toNat / 2 ^ 4) := by
    rw [Nat.shiftLeft_eq]
    omega
  rw [UInt8.toNat_or, UInt8.toNat_shiftLeft, UInt8.toNat_mod, UInt8.toNat_div, hshift, hsixteen, hhigh, Nat.or_comm,
    ← Nat.two_pow_add_eq_or_of_lt (Nat.mod_lt _ (by norm_num))]
  exact Nat.div_add_mod _ _

/-- The digits of bytes. -/
def digitsOf (bytes : List UInt8) : List UInt8 := bytes.flatMap fun b => [hexDigit (b / 16), hexDigit (b % 16)]

/-- Every digit of `GetHex` is one of the sixteen. -/
theorem mem_digitsOf {bytes : List UInt8} {c : UInt8} (h : c ∈ digitsOf bytes) : ∃ n < 16, hexDigit n = c := by
  obtain ⟨b, -, hc⟩ := List.mem_flatMap.mp h
  have hb := b.toNat_lt
  have hsixteen : (16 : UInt8).toNat = 16 := by decide
  obtain rfl | hc := List.mem_cons.mp hc
  · refine ⟨b / 16, UInt8.lt_iff_toNat_lt.mpr ?_, rfl⟩
    rw [UInt8.toNat_div, hsixteen]
    omega
  · refine ⟨b % 16, UInt8.lt_iff_toNat_lt.mpr ?_, (List.mem_singleton.mp hc).symm⟩
    rw [UInt8.toNat_mod, hsixteen]
    omega

/-- Read backwards, the text has the low digit of each byte first. -/
theorem reverse_digitsOf_reverse (bytes : List UInt8) : (digitsOf bytes.reverse).reverse =
    bytes.flatMap fun b => [hexDigit (b % 16), hexDigit (b / 16)] := by
  unfold digitsOf
  rw [List.reverse_flatMap, List.reverse_reverse]
  rfl

/-- Which is the order in which `SetHex` reads them. -/
theorem setHexLoop_digits (bytes : List UInt8) :
    setHexLoop (bytes.flatMap fun b => [hexDigit (b % 16), hexDigit (b / 16)]) bytes.length = bytes := by
  induction bytes with
  | nil => rfl
  | cons b bs ih =>
    have hb := b.toNat_lt
    have hsixteen : (16 : UInt8).toNat = 16 := by decide
    have hlow : b % 16 < 16 := by
      rw [UInt8.lt_iff_toNat_lt, UInt8.toNat_mod, hsixteen]
      omega
    have hhigh : b / 16 < 16 := by
      rw [UInt8.lt_iff_toNat_lt, UInt8.toNat_div, hsixteen]
      omega
    rw [List.flatMap_cons, List.length_cons]
    change (phexdigit (hexDigit (b % 16)) ||| phexdigit (hexDigit (b / 16)) <<< 4) :: setHexLoop _ _ = _
    rw [(phexdigit_hexDigit hlow).1, (phexdigit_hexDigit hhigh).1, or_halves]
    exact congrArg (b :: ·) ih

/-- **`SetHex` reads what `GetHex` writes.** -/
theorem setHex_getHex (a : BaseUint WIDTH) : (setHex a.getHex : BaseUint WIDTH) = a := by
  have hdigit : ∀ c ∈ a.getHex, ∃ n < 16, hexDigit n = c := fun c hc => mem_digitsOf hc
  -- nothing is skipped in front of the digits, and nothing is cut off behind them
  have hnul : a.getHex.takeWhile (· ≠ 0) = a.getHex := by
    refine List.takeWhile_eq_self_iff.mpr fun c hc => ?_
    obtain ⟨n, hn, rfl⟩ := hdigit c hc
    exact decide_eq_true (phexdigit_hexDigit hn).2.1
  have hspace : a.getHex.dropWhile isSpace = a.getHex := by
    refine List.dropWhile_eq_self_iff.mpr fun hpos => ?_
    obtain ⟨n, hn, hc⟩ := hdigit _ (List.getElem_mem hpos)
    rw [← hc, (phexdigit_hexDigit hn).2.2.1]
    exact Bool.false_ne_true
  -- no digit is an `x`
  have hmark : ¬ (a.getHex.getD 0 0 = 48 ∧ (a.getHex.getD 1 0 = 120 ∨ a.getHex.getD 1 0 = 88)) := by
    rintro ⟨-, hx⟩
    rw [List.getD_eq_getElem?_getD] at hx
    cases hget : a.getHex[1]? with
    | none =>
      rw [hget] at hx
      revert hx
      decide
    | some c =>
      rw [hget] at hx
      obtain ⟨n, hn, rfl⟩ := hdigit c (List.mem_of_getElem? hget)
      exact hx.elim (phexdigit_hexDigit hn).2.2.2.1 (phexdigit_hexDigit hn).2.2.2.2.1
  have hall : a.getHex.takeWhile (fun c => phexdigit c ≠ 0 ∨ c = 48) = a.getHex := by
    refine List.takeWhile_eq_self_iff.mpr fun c hc => decide_eq_true ?_
    obtain ⟨n, hn, rfl⟩ := hdigit c hc
    obtain ⟨hread, -, -, -, -, hzero⟩ := phexdigit_hexDigit hn
    rw [hread]
    exact (ne_or_eq n 0).imp_right hzero
  have hpn : (setHex a.getHex : BaseUint WIDTH).pn = a.pn := by
    unfold setHex
    dsimp only
    rw [hnul, hspace, if_neg hmark, hall]
    have hrev : a.getHex.reverse = (bytesOf a.pn).flatMap fun b => [hexDigit (b % 16), hexDigit (b / 16)] :=
      reverse_digitsOf_reverse _
    have hlen : (bytesOf a.pn).length = 4 * WIDTH := by rw [length_bytesOf, a.length_pn]
    rw [hrev, ← hlen, setHexLoop_digits]
    have hwords := wordsOf_bytesOf a.pn
    rwa [a.length_pn] at hwords
  cases a
  exact BaseUint.mk.injEq .. |>.mpr hpn

/-- **Wide integers are numbers modulo a power of two.** For every number of words, and so for `base_uint<160>` and
`base_uint<256>`, each operation is the one on the numbers; those with a `uint64` need two words. -/
theorem baseUint_refines :
    (∀ {WIDTH : ℕ} (a b : BaseUint WIDTH),
      (a.add b).val = (a.val + b.val) % 2 ^ (32 * WIDTH) ∧
      (a.sub b).val = (a.val + (2 ^ (32 * WIDTH) - b.val)) % 2 ^ (32 * WIDTH) ∧
      a.neg.val = (2 ^ (32 * WIDTH) - a.val) % 2 ^ (32 * WIDTH) ∧
      a.inc.val = (a.val + 1) % 2 ^ (32 * WIDTH) ∧
      a.dec.val = (a.val + (2 ^ (32 * WIDTH) - 1)) % 2 ^ (32 * WIDTH) ∧
      (∀ shift, (a.shiftLeft shift).val = (a.val * 2 ^ shift) % 2 ^ (32 * WIDTH)) ∧
      (∀ shift, (a.shiftRight shift).val = a.val / 2 ^ shift) ∧
      ((a.lt b = true ↔ a.val < b.val) ∧ (a.le b = true ↔ a.val ≤ b.val) ∧ (a.gt b = true ↔ a.val > b.val) ∧
        (a.ge b = true ↔ a.val ≥ b.val) ∧ (a.eq b = true ↔ a.val = b.val) ∧ (a.ne b = true ↔ a.val ≠ b.val)) ∧
      setHex a.getHex = a) ∧
    ∀ {WIDTH : ℕ} (a : BaseUint (WIDTH + 2)) (b64 : UInt64),
      (a.addUInt64 b64).val = (a.val + b64.toNat) % 2 ^ (32 * (WIDTH + 2)) ∧
      (a.subUInt64 b64).val = (a.val + (2 ^ (32 * (WIDTH + 2)) - b64.toNat)) % 2 ^ (32 * (WIDTH + 2)) ∧
      (a.eqUInt64 b64 = true ↔ a.val = b64.toNat) ∧ (a.neUInt64 b64 = true ↔ a.val ≠ b64.toNat) := by
  refine ⟨fun a b => ⟨val_add a b, val_sub a b, val_neg a, val_inc a, val_dec a, val_shiftLeft a, val_shiftRight a,
    ⟨lt_iff, le_iff, gt_iff, ge_iff, eq_iff, ne_iff⟩, setHex_getHex a⟩, fun a b64 => ?_⟩
  refine ⟨?_, ?_, eqUInt64_iff, neUInt64_iff⟩
  · exact (val_add a _).trans (by rw [val_ofUInt64])
  · exact (val_sub a (ofUInt64 b64)).trans (by rw [val_ofUInt64])

end BaseUint

end Peershares
