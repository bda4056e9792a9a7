import Peershares.Model.Units
import Peershares.Wallet.Money

/-!
# Amounts in the units of the user and back

What is written always has a point and at least one digit behind it, also in the unit that has no decimals. So what is
written in that unit is never read, while in the other two units the amount comes back. What is read is exact in every
unit.

* `BitcoinUnits.parse_eq` — what is read of digits with at most one point
* `BitcoinUnits.format_eq` — what is written
* `BitcoinUnits.roundTrip_iff` — in which units amounts come back
-/

namespace Peershares

namespace BitcoinUnits

/-! ### Reading -/

/-- A digit is no blank. -/
theorem isSpace_of_isDigit {c : UInt8} (hc : isDigit c = true) : isSpace c = false := by
  have hrange := isDigit_iff.mp hc
  unfold isSpace
  simp only [Bool.or_eq_false_iff, Bool.and_eq_false_iff, decide_eq_false_iff_not, UInt8.le_iff_toNat_le,
    ← UInt8.toNat_inj]
  have h32 : (32 : UInt8).toNat = 32 := by decide
  have h13 : (13 : UInt8).toNat = 13 := by decide
  have h85 : (0x85 : UInt8).toNat = 133 := by decide
  have ha0 : (0xa0 : UInt8).toNat = 160 := by decide
  omega

/-- There is nothing to skip in front of digits. -/
theorem dropWhile_digits {ds : List UInt8} (hds : ∀ c ∈ ds, isDigit c = true) : ds.dropWhile isSpace = ds := by
  cases ds with
  | nil => rfl
  | cons c ds =>
    refine List.dropWhile_cons_of_neg ?_
    rw [isSpace_of_isDigit (hds c List.mem_cons_self)]
    exact Bool.false_ne_true

/-- At most eighteen digits are read as their number. -/
theorem toLongLong_digits {ds : List UInt8} (hds : ∀ c ∈ ds, isDigit c = true) (hne : ds ≠ []) (hlen : ds.length ≤ 18) :
    toLongLong ds = some ((digitsValue ds : ℕ) : ℤ) := by
  have hrev : ∀ c ∈ ds.reverse, isDigit c = true := fun c hc => hds c (List.mem_reverse.mp hc)
  have hread : readDigits false ds = some ((digitsValue ds : ℕ) : ℤ) := by
    have hall : ds.all isDigit = true := List.all_eq_true.mpr hds
    have hlt : digitsValue ds < 10 ^ 18 := (digitsValue_lt hds).trans_le (Nat.pow_le_pow_right (by decide) hlen)
    rw [readDigits, if_neg (by simp [hne, hall])]
    exact if_pos ⟨by change (-2 ^ 63 : ℤ) ≤ (digitsValue ds : ℕ); omega, by
      change ((digitsValue ds : ℕ) : ℤ) < 2 ^ 63; omega⟩
  unfold toLongLong
  dsimp only
  rw [dropWhile_digits hds, dropWhile_digits hrev, List.reverse_reverse]
  split
  · exact absurd (hds 45 List.mem_cons_self) (by decide)
  · exact absurd (hds 43 List.mem_cons_self) (by decide)
  · exact hread

/-- Digits with at most one point, as they stand in front of it and behind it. -/
structure IsDecimal (value whole frac : List UInt8) : Prop where
  text : value = whole ++ 46 :: frac ∨ (value = whole ∧ frac = [])
  whole_digits : ∀ c ∈ whole, isDigit c = true
  frac_digits : ∀ c ∈ frac, isDigit c = true

/-- Nor a point. -/
theorem not_mem_point {ds : List UInt8} (hds : ∀ c ∈ ds, isDigit c = true) : (46 : UInt8) ∉ ds :=
  fun hmem => absurd (hds 46 hmem) (by decide)

/-- The digits behind the point are filled up to the decimals of the unit. -/
theorem joinParts_eq {value whole frac : List UInt8} (h : IsDecimal value whole frac) (num_decimals : ℕ) :
    joinParts num_decimals value =
      if num_decimals < frac.length then none
      else some (whole ++ (frac ++ List.replicate (num_decimals - frac.length) 48)) := by
  have hwhole := not_mem_point h.whole_digits
  obtain rfl | ⟨rfl, rfl⟩ := h.text
  · rw [joinParts, List.splitOn_append_cons_self_of_not_mem hwhole,
      List.splitOn_eq_singleton (not_mem_point h.frac_digits)]
  · rw [joinParts, List.splitOn_eq_singleton hwhole, if_neg (by simp)]
    rfl

/-- **What is read**: the digits have to fit, and the value is exact. -/
theorem parse_eq {unit : ℤ} {value whole frac : List UInt8} (h : IsDecimal value whole frac)
    (hunit : valid unit = true) (hne : value ≠ []) :
    parse unit value =
      if frac.length ≤ decimals unit ∧ whole.length + decimals unit ≤ 18 ∧ 0 < whole.length + decimals unit then
        some ((digitsValue whole * 10 ^ decimals unit +
          digitsValue frac * 10 ^ (decimals unit - frac.length) : ℕ) : ℤ)
      else none := by
  rw [parse, if_neg (by simp [hunit, hne]), joinParts_eq h]
  -- more digits than the unit has
  by_cases hfrac : decimals unit < frac.length
  · rw [if_pos hfrac, if_neg (by omega)]
  · rw [if_neg hfrac]
    dsimp only
    set str := whole ++ (frac ++ List.replicate (decimals unit - frac.length) 48) with hstr
    have hlen : str.length = whole.length + decimals unit := by
      simp only [hstr, List.length_append, List.length_replicate]
      omega
    have hdigits : ∀ c ∈ str, isDigit c = true := by
      intro c hc
      simp only [hstr, List.mem_append] at hc
      obtain hc | hc | hc := hc
      · exact h.whole_digits c hc
      · exact h.frac_digits c hc
      · rw [List.eq_of_mem_replicate hc]
        decide
    have hvalue : digitsValue str =
        digitsValue whole * 10 ^ decimals unit + digitsValue frac * 10 ^ (decimals unit - frac.length) := by
      rw [hstr, digitsValue_append, digitsValue_append, digitsValue_replicate, List.length_append,
        List.length_replicate, Nat.add_zero]
      congr 3
      omega
    -- more than eighteen in all
    by_cases hlong : 18 < str.length
    · rw [if_pos hlong, if_neg (by omega)]
    · rw [if_neg hlong]
      by_cases hnil : str = []
      · rw [hnil, if_neg (by rw [hnil, List.length_nil] at hlen; omega)]
        rfl
      · have hpos := List.length_pos_of_ne_nil hnil
        rw [toLongLong_digits hdigits hnil (by omega), if_pos ⟨by omega, by omega, by omega⟩, hvalue]

/-! ### Writing -/

/-- The loop that cuts leading zeros off. -/
theorem trimLoop_spec (ds : List UInt8) :
    trimLoop ds ≤ ds.length ∧ ds.take (trimLoop ds) = List.replicate (trimLoop ds) 48 := by
  induction ds with
  | nil => exact ⟨Nat.le_refl _, rfl⟩
  | cons c ds ih =>
    match ds with
    | [] => exact ⟨Nat.zero_le _, rfl⟩
    | [_] => exact ⟨Nat.zero_le _, rfl⟩
    | c₁ :: c₂ :: str =>
      rw [trimLoop]
      split_ifs with hzero
      · refine ⟨Nat.succ_le_succ ih.1, ?_⟩
        rw [List.take_succ_cons, ih.2, List.replicate_succ, hzero]
      · exact ⟨Nat.zero_le _, rfl⟩

/-- It leaves one digit. -/
theorem trimLoop_lt {ds : List UInt8} (hne : ds ≠ []) : trimLoop ds < ds.length := by
  induction ds with
  | nil => exact absurd rfl hne
  | cons c ds ih =>
    match ds with
    | [] => exact Nat.one_pos
    | [_] => exact Nat.two_pos
    | c₁ :: c₂ :: str =>
      rw [trimLoop]
      split_ifs
      · exact Nat.succ_lt_succ (ih (List.cons_ne_nil _ _))
      · exact Nat.succ_pos _

/-- **What is written**: the digits of the quotient, a point, and those of the remainder without some zeroes, but at
least one. -/
theorem format_eq {unit n : ℤ} (hunit : valid unit = true) (hn : 0 ≤ n) : ∃ frac k, frac ≠ [] ∧
    frac ++ List.replicate k 48 = decimalPadded (decimals unit) (n.natAbs % factor unit) ∧
    format unit n false = decimal (n.natAbs / factor unit) ++ 46 :: frac := by
  set padded := decimalPadded (decimals unit) (n.natAbs % factor unit) with hpadded
  have hne : padded ≠ [] := by
    rw [hpadded, decimalPadded]
    exact List.append_ne_nil_of_right_ne_nil _ (decimal_ne_nil _)
  obtain ⟨hle, htake⟩ := trimLoop_spec padded.reverse
  have hlt := @trimLoop_lt padded.reverse (by simpa using hne)
  rw [List.length_reverse] at hle hlt
  refine ⟨padded.take (padded.length - trimLoop padded.reverse), trimLoop padded.reverse, ?_, ?_, ?_⟩
  · -- one digit is left
    intro hnil
    have hlen := congrArg List.length hnil
    rw [List.length_take, List.length_nil] at hlen
    omega
  · -- only zeroes are cut off
    have hback := congrArg List.reverse htake
    rw [List.reverse_take, List.reverse_reverse, List.reverse_replicate, List.length_reverse] at hback
    rw [← hback, List.take_append_drop]
  · unfold format
    rw [if_neg (by simp [hunit])]
    dsimp only
    rw [if_neg (not_lt.mpr hn), if_neg (by simp), List.append_assoc, List.singleton_append]

/-! ### There and back -/

/-- The three units. -/
theorem mem_availableUnits {unit : ℤ} : unit ∈ availableUnits ↔ unit = BTC ∨ unit = mBTC ∨ unit = uBTC := by
  simp [availableUnits]

/-- They are valid. -/
theorem valid_of_mem {unit : ℤ} (h : unit ∈ availableUnits) : valid unit = true := by
  rcases mem_availableUnits.mp h with rfl | rfl | rfl <;> rfl

/-- The factor of a unit has its decimals as zeros. -/
theorem factor_eq {unit : ℤ} (h : unit ∈ availableUnits) : factor unit = 10 ^ decimals unit := by
  rcases mem_availableUnits.mp h with rfl | rfl | rfl <;> rfl

/-- In a unit with decimals the amount comes back. -/
theorem parse_format {unit n : ℤ} (hunit : unit ∈ availableUnits) (hdec : 0 < decimals unit)
    (hdec' : decimals unit ≤ 6) (hn : 0 ≤ n) (hmax : n ≤ MAX_MONEY) : parse unit (format unit n false) = some n := by
  obtain ⟨frac, k, -, hpad, htext⟩ := format_eq (valid_of_mem hunit) hn
  rw [factor_eq hunit] at hpad htext
  obtain ⟨hlen, hvalue⟩ := digitsValue_of_trimmed hdec (Nat.mod_lt _ (by positivity)) hpad
  -- the whole part has few digits
  have hquotient : n.natAbs / 10 ^ decimals unit < 10 ^ (16 - decimals unit) := by
    have hmax' : n ≤ 2000000000 * 1000000 := hmax
    have hpow : 10 ^ decimals unit * 10 ^ (16 - decimals unit) = 10 ^ 16 := by
      rw [← pow_add]
      congr 1
      omega
    rw [Nat.div_lt_iff_lt_mul (by positivity), Nat.mul_comm, hpow]
    omega
  have hwhole := length_decimal_le (by omega) hquotient
  have hform : IsDecimal (format unit n false) (decimal (n.natAbs / 10 ^ decimals unit)) frac := by
    refine ⟨Or.inl htext, fun c hc => isDigit_of_mem_decimal hc, fun c hc => ?_⟩
    exact isDigit_of_mem_decimalPadded (hpad ▸ List.mem_append_left _ hc)
  rw [parse_eq hform (valid_of_mem hunit) (by rw [htext]; simp), if_pos ⟨by omega, by omega, by omega⟩]
  have hk : decimals unit - frac.length = k := by omega
  rw [digitsValue_decimal, hk, hvalue, Nat.div_add_mod', Int.natAbs_of_nonneg hn]

/-- In the unit without decimals it never does. -/
theorem parse_format_uBTC {n : ℤ} (hn : 0 ≤ n) : parse uBTC (format uBTC n false) = none := by
  obtain ⟨frac, k, hne, hpad, htext⟩ := @format_eq uBTC n rfl hn
  have hform : IsDecimal (format uBTC n false) (decimal (n.natAbs / factor uBTC)) frac := by
    refine ⟨Or.inl htext, fun c hc => isDigit_of_mem_decimal hc, fun c hc => ?_⟩
    exact isDigit_of_mem_decimalPadded (hpad ▸ List.mem_append_left _ hc)
  have hpos := List.length_pos_of_ne_nil hne
  have hdec : decimals uBTC = 0 := rfl
  rw [parse_eq hform rfl (by rw [htext]; simp), if_neg (by omega)]

/-- The value of digits with at most one point, in units of `unit`. -/
theorem parse_exact {unit v : ℤ} {value whole frac : List UInt8} (hunit : unit ∈ availableUnits)
    (h : IsDecimal value whole frac) (hread : parse unit value = some v) :
    (v : ℚ) = (digitsValue whole + digitsValue frac / 10 ^ frac.length) * factor unit := by
  have hne : value ≠ [] := by
    rintro rfl
    rw [parse, if_pos (Or.inr rfl)] at hread
    cases hread
  rw [parse_eq h (valid_of_mem hunit) hne] at hread
  split_ifs at hread with hfits
  obtain rfl := Option.some.inj hread
  have hpow : (10 : ℚ) ^ decimals unit = 10 ^ frac.length * 10 ^ (decimals unit - frac.length) := by
    rw [← pow_add, Nat.add_sub_cancel' hfits.1]
  rw [factor_eq hunit]
  push_cast
  rw [add_mul, hpow]
  field_simp

/-- **Amounts in the units of the user**: what is read is exact, and the amount that was written is read, in every unit
but the one without decimals. -/
theorem roundTrip_iff {unit n : ℤ} (hunit : unit ∈ availableUnits) (hn : 0 ≤ n) (hmax : n ≤ MAX_MONEY) :
    (parse unit (format unit n false) = some n ∧
      ∀ (value whole frac : List UInt8) (v : ℤ), IsDecimal value whole frac → parse unit value = some v →
        (v : ℚ) = (digitsValue whole + digitsValue frac / 10 ^ frac.length) * factor unit) ↔ unit ≠ uBTC := by
  constructor
  · rintro ⟨hback, -⟩ rfl
    rw [parse_format_uBTC hn] at hback
    cases hback
  · intro hne
    refine ⟨?_, fun value whole frac v h hread => parse_exact hunit h hread⟩
    rcases mem_availableUnits.mp hunit with rfl | rfl | rfl
    · exact parse_format hunit (by decide) (by decide) hn hmax
    · exact parse_format hunit (by decide) (by decide) hn hmax
    · exact absurd rfl hne

/-- A coin and a half. -/
theorem roundTrip_iff_BTC :
    (parse BTC (format BTC 1500000 false) = some 1500000 ∧
      ∀ (value whole frac : List UInt8) (v : ℤ), IsDecimal value whole frac → parse BTC value = some v →
        (v : ℚ) = (digitsValue whole + digitsValue frac / 10 ^ frac.length) * factor BTC) ↔ BTC ≠ uBTC :=
  roundTrip_iff (by decide) (by decide) (by decide)

/-- One unit is written as `1.0`, which is refused. -/
theorem not_roundTrip_uBTC : ¬ ∀ unit ∈ availableUnits, ∀ n : ℤ, 0 ≤ n → n ≤ MAX_MONEY →
    parse unit (format unit n false) = some n := by
  intro h
  have hback := h uBTC (by decide) 1 (by decide) (by decide)
  rw [parse_format_uBTC (by decide)] at hback
  cases hback

end BitcoinUnits

end Peershares
