import Mathlib.Algebra.Order.Field.Rat
import Mathlib.Data.List.TakeWhile
import Mathlib.Data.Nat.Digits.Lemmas
import Mathlib.Tactic.FieldSimp
import Mathlib.Tactic.IntervalCases
import Mathlib.Tactic.NormNum
import Peershares.Model.Money

/-!
# Amounts as text and back

`ParseMoney` reads a decimal with at most ten digits in front of the point and at most six behind it, and computes
its units exactly. `FormatMoney` writes six digits behind the point and takes up to four zeroes off.

* `parseMoneyPsz_eq` — what is computed for a text of this form
* `exists_of_parseMoneyPsz` — every text that is accepted is of this form
* `formatMoney_eq` — what is written is of this form, too
* `money_roundTrip` — the amount comes back
-/

namespace Peershares

/-! ### Digits -/

section Digits

variable {ds es : List UInt8}

/-- The number of a text of digits. -/
def digitsValue (ds : List UInt8) : ℕ := ds.foldl (fun n c => 10 * n + (c.toNat - 48)) 0

/-- The loop of `atoi64`. -/
theorem foldl_digitsValue (ds : List UInt8) (n : ℕ) :
    ds.foldl (fun n c => 10 * n + (c.toNat - 48)) n = n * 10 ^ ds.length + digitsValue ds := by
  unfold digitsValue
  induction ds generalizing n with
  | nil => simp
  | cons c ds ih =>
    rw [List.foldl_cons, List.foldl_cons, ih, ih (10 * 0 + _), List.length_cons, pow_succ]
    ring

/-- The value of two rows of digits. -/
theorem digitsValue_append (ds es : List UInt8) :
    digitsValue (ds ++ es) = digitsValue ds * 10 ^ es.length + digitsValue es := by
  rw [digitsValue, List.foldl_append, foldl_digitsValue es]
  rfl

/-- The value of one more digit in front. -/
theorem digitsValue_cons (c : UInt8) (ds : List UInt8) :
    digitsValue (c :: ds) = (c.toNat - 48) * 10 ^ ds.length + digitsValue ds := by
  rw [digitsValue, List.foldl_cons, foldl_digitsValue, Nat.mul_zero, Nat.zero_add]

/-- The ten digits. -/
theorem isDigit_iff {c : UInt8} : isDigit c = true ↔ 48 ≤ c.toNat ∧ c.toNat ≤ 57 := by
  unfold isDigit
  simp only [Bool.and_eq_true, decide_eq_true_eq, UInt8.le_iff_toNat_le]
  rfl

/-- A row of digits has a bounded value. -/
theorem digitsValue_lt (h : ∀ c ∈ ds, isDigit c = true) : digitsValue ds < 10 ^ ds.length := by
  induction ds with
  | nil => exact Nat.one_pos
  | cons c ds ih =>
    have hc := (isDigit_iff.mp (h c List.mem_cons_self)).2
    have hds := ih fun d hd => h d (List.mem_cons_of_mem _ hd)
    have hle : (c.toNat - 48) * 10 ^ ds.length ≤ 9 * 10 ^ ds.length := Nat.mul_le_mul_right _ (by omega)
    rw [digitsValue_cons, List.length_cons, pow_succ]
    omega

/-- Zeros are worth nothing. -/
theorem digitsValue_replicate (k : ℕ) : digitsValue (List.replicate k 48) = 0 := by
  induction k with
  | zero => rfl
  | succ k ih =>
    rw [List.replicate_succ, digitsValue_cons, ih, Nat.add_zero]
    exact Nat.zero_mul _

/-- `%lld` writes the number. -/
theorem digitsValue_decimal (n : ℕ) : digitsValue (decimal n) = n := by
  unfold decimal
  split_ifs with hn
  · rw [hn]
    rfl
  · -- a digit is written as its character and read back
    have hdigit : ∀ d ∈ Nat.digits 10 n, (48 + UInt8.ofNat d).toNat - 48 = d := by
      intro d hd
      have hlt := Nat.digits_lt_base (by decide) hd
      rw [UInt8.toNat_add, UInt8.toNat_ofNat']
      have h48 : (48 : UInt8).toNat = 48 := by decide
      omega
    -- the most significant digit stands first
    have hvalue : ∀ l : List ℕ, (∀ d ∈ l, (48 + UInt8.ofNat d).toNat - 48 = d) →
        digitsValue (l.reverse.map fun d => 48 + UInt8.ofNat d) = Nat.ofDigits 10 l := by
      intro l hl
      induction l with
      | nil => rfl
      | cons d l ih =>
        rw [List.reverse_cons, List.map_append, digitsValue_append, ih fun d' hd' => hl d' (List.mem_cons_of_mem _ hd'),
          Nat.ofDigits_cons, List.map_singleton, digitsValue_cons, hl d List.mem_cons_self]
        simp [digitsValue]
        ring
    rw [hvalue _ hdigit, Nat.ofDigits_digits]

/-- A number is printed with digits. -/
theorem isDigit_of_mem_decimal {n : ℕ} {c : UInt8} (h : c ∈ decimal n) : isDigit c = true := by
  unfold decimal at h
  split_ifs at h
  · rw [List.mem_singleton.mp h]
    decide
  · obtain ⟨d, hd, rfl⟩ := List.mem_map.mp h
    have hlt := Nat.digits_lt_base (by decide) (List.mem_reverse.mp hd)
    rw [isDigit_iff, UInt8.toNat_add, UInt8.toNat_ofNat']
    have h48 : (48 : UInt8).toNat = 48 := by decide
    omega

/-- With at least one. -/
theorem decimal_ne_nil (n : ℕ) : decimal n ≠ [] := by
  unfold decimal
  split_ifs with hn
  · exact List.cons_ne_nil _ _
  · simpa [Nat.digits_eq_nil_iff_eq_zero] using hn

/-- And with few for a small number. -/
theorem length_decimal_le {n k : ℕ} (hk : 0 < k) (h : n < 10 ^ k) : (decimal n).length ≤ k := by
  unfold decimal
  split_ifs with hn
  · exact hk
  · rw [List.length_map, List.length_reverse]
    exact (Nat.digits_length_le_iff (by decide) n).mpr h

end Digits

/-! ### Reading -/

section Reading

/-- The factor that is left when `m` more digits count: ten to the power of one less, and zero at the end. -/
def multiplier (m : ℕ) : Int64 := Int64.ofNat (10 ^ m / 10)

/-- The loop over the decimals stops when its multiplier is zero. -/
theorem multiplier_pos_iff {m : ℕ} (hm : m ≤ 6) : 0 < multiplier m ↔ 0 < m := by
  interval_cases m <;> decide

/-- The multiplier of the next decimal. -/
theorem multiplier_div {m : ℕ} (hm : m < 6) : multiplier (m + 1) / 10 = multiplier m := by
  interval_cases m <;> decide

/-- Digits behind the point, as many as count. -/
theorem readUnits_append {frac rest : List UInt8} (hfrac : ∀ c ∈ frac, isDigit c = true) {m : ℕ} (hm : m ≤ 6)
    (hlen : frac.length ≤ m) (hrest : frac.length = m ∨ ∀ c ∈ rest.head?, isDigit c = false) (u : ℕ) :
    readUnits (frac ++ rest) (Int64.ofNat u) (multiplier m) =
      (Int64.ofNat (u + digitsValue frac * 10 ^ (m - frac.length)), rest) := by
  induction frac generalizing m u with
  | nil =>
    rw [List.nil_append, show digitsValue [] = 0 from rfl, Nat.zero_mul, Nat.add_zero]
    cases rest with
    | nil => rfl
    | cons c rest =>
      rw [readUnits, if_neg]
      rintro ⟨hdigit, hpos⟩
      -- the reading stops when six digits are read, or at what is no digit
      obtain hzero | hnot := hrest
      · rw [← hzero] at hpos
        exact absurd ((multiplier_pos_iff (by decide)).mp hpos) (lt_irrefl 0)
      · rw [hnot c rfl] at hdigit
        cases hdigit
  | cons c frac ih =>
    obtain ⟨m, rfl⟩ : ∃ k, m = k + 1 := ⟨m - 1, by rw [List.length_cons] at hlen; omega⟩
    -- one more digit counts as the multiplier says
    have hstep : Int64.ofNat u + multiplier (m + 1) * Int64.ofNat (c.toNat - 48) =
        Int64.ofNat (u + 10 ^ m * (c.toNat - 48)) := by
      rw [Int64.ofNat_add, Int64.ofNat_mul, multiplier, pow_succ, Nat.mul_div_cancel _ (by decide)]
    rw [List.length_cons, Nat.add_le_add_iff_right] at hlen
    rw [List.length_cons, Nat.add_right_cancel_iff] at hrest
    rw [List.cons_append, readUnits,
      if_pos ⟨hfrac c List.mem_cons_self, (multiplier_pos_iff hm).mpr (Nat.succ_pos m)⟩, hstep,
      multiplier_div (by omega), ih (fun d hd => hfrac d (List.mem_cons_of_mem _ hd)) (by omega) hlen hrest,
      List.length_cons, Nat.add_sub_add_right, digitsValue_cons]
    have hpow : 10 ^ m = 10 ^ frac.length * 10 ^ (m - frac.length) := by
      rw [← pow_add, Nat.add_sub_cancel' hlen]
    congr 2
    rw [hpow]
    ring

/-- A digit is no blank. -/
theorem isSpace_eq_false_of_isDigit {c : UInt8} (hc : isDigit c = true) : isSpace c = false := by
  have hrange := isDigit_iff.mp hc
  unfold isSpace
  simp only [Bool.or_eq_false_iff, Bool.and_eq_false_iff, decide_eq_false_iff_not, UInt8.le_iff_toNat_le,
    ← UInt8.toNat_inj]
  have h32 : (32 : UInt8).toNat = 32 := by decide
  have h13 : (13 : UInt8).toNat = 13 := by decide
  omega

/-- And a blank no digit. -/
theorem isDigit_eq_false_of_isSpace {c : UInt8} (hc : isSpace c = true) : isDigit c = false := by
  by_contra hdigit
  rw [Bool.not_eq_false] at hdigit
  rw [isSpace_eq_false_of_isDigit hdigit] at hc
  cases hc

/-- Digits in front of the point. -/
theorem readWhole_append {whole : List UInt8} (hwhole : ∀ c ∈ whole, isDigit c = true) (rest strWhole : List UInt8) :
    readWhole (whole ++ rest) strWhole = readWhole rest (strWhole ++ whole) := by
  induction whole generalizing strWhole with
  | nil => rw [List.nil_append, List.append_nil]
  | cons c whole ih =>
    have hc := hwhole c List.mem_cons_self
    have hpoint : c ≠ 46 := by
      rintro rfl
      exact absurd hc (by decide)
    rw [List.cons_append, readWhole, if_neg hpoint, isSpace_eq_false_of_isDigit hc, hc, if_neg Bool.false_ne_true,
      if_neg (by decide), ih fun d hd => hwhole d (List.mem_cons_of_mem _ hd), List.append_assoc, List.singleton_append]

/-- Optional whitespace, at most ten digits, an optional point with at most six digits, optional whitespace. -/
structure IsMoney (psz whole frac : List UInt8) : Prop where
  text : ∃ before point after, psz = before ++ (whole ++ (point ++ after)) ∧ (∀ c ∈ before, isSpace c = true) ∧
    (point = 46 :: frac ∨ (point = [] ∧ frac = [])) ∧ ∀ c ∈ after, isSpace c = true
  whole_digits : ∀ c ∈ whole, isDigit c = true
  frac_digits : ∀ c ∈ frac, isDigit c = true
  length_whole : whole.length ≤ 10
  length_frac : frac.length ≤ 6

/-- What is behind the digits in front of the point. -/
theorem readWhole_point {point frac after : List UInt8} (hpoint : point = 46 :: frac ∨ (point = [] ∧ frac = []))
    (hfrac : ∀ c ∈ frac, isDigit c = true) (hlen : frac.length ≤ 6)
    (hafter : frac.length = 6 ∨ ∀ c ∈ after.head?, isDigit c = false)
    (hspace : point = [] → ∀ c ∈ after.head?, isSpace c = true) (strWhole : List UInt8) :
    readWhole (point ++ after) strWhole =
      some (strWhole, Int64.ofNat (digitsValue frac * 10 ^ (6 - frac.length)), after) := by
  obtain rfl | ⟨rfl, rfl⟩ := hpoint
  · have hunits := @readUnits_append _ after hfrac _ le_rfl hlen hafter 0
    have hfirst : Int64.ofInt CENT * 10 = multiplier 6 := by decide
    rw [Nat.zero_add] at hunits
    rw [List.cons_append, readWhole, if_pos rfl, hfirst]
    exact congrArg (fun r : Int64 × List UInt8 => some (strWhole, r.1, r.2)) hunits
  · cases after with
    | nil => rfl
    | cons c after =>
      have hc : isSpace c = true := hspace rfl c rfl
      have hpoint : c ≠ 46 := by
        rintro rfl
        exact absurd hc (by decide)
      rw [List.nil_append, readWhole, if_neg hpoint, if_pos hc]
      rfl

/-- Whitespace in front is skipped. -/
theorem dropWhile_isSpace {before whole point after frac : List UInt8} (hbefore : ∀ c ∈ before, isSpace c = true)
    (hwhole : ∀ c ∈ whole, isDigit c = true) (hpoint : point = 46 :: frac ∨ (point = [] ∧ frac = []))
    (hafter : ∀ c ∈ after, isSpace c = true) :
    (before ++ (whole ++ (point ++ after))).dropWhile isSpace = whole ++ (point ++ after) ∨
      (whole = [] ∧ point = [] ∧ frac = [] ∧ (before ++ (whole ++ (point ++ after))).dropWhile isSpace = []) := by
  rw [List.dropWhile_append_of_pos hbefore]
  cases whole with
  | cons c whole =>
    refine .inl (List.dropWhile_cons_of_neg ?_)
    rw [isSpace_eq_false_of_isDigit (hwhole c List.mem_cons_self)]
    exact Bool.false_ne_true
  | nil =>
    obtain rfl | ⟨rfl, rfl⟩ := hpoint
    · exact .inl (List.dropWhile_cons_of_neg (by decide))
    · exact .inr ⟨rfl, rfl, rfl, List.dropWhile_eq_nil_iff.mpr fun c hc => hafter c hc⟩

/-- The guards do not refuse a text of this form, and the units are exact. -/
theorem parseMoney_guards {strWhole : List UInt8} (hwhole : ∀ c ∈ strWhole, isDigit c = true)
    (hlen : strWhole.length ≤ 10) {units : ℕ} (hunits : units < 10 ^ 6) {after : List UInt8}
    (hafter : ∀ c ∈ after, isSpace c = true) :
    (if !after.all isSpace then none
      else if 10 < strWhole.length then none
      else if Int64.ofNat units < 0 ∨ Int64.ofInt COIN < Int64.ofNat units then none
      else some (atoi64 strWhole * Int64.ofInt COIN + Int64.ofNat units)) =
      some (Int64.ofNat (digitsValue strWhole * 10 ^ 6 + units)) := by
  have hall : after.all isSpace = true := List.all_eq_true.mpr hafter
  have hint : (Int64.ofNat units).toInt = units := Int64.toInt_ofNat_of_lt (by omega)
  have hcoin : Int64.ofInt COIN = Int64.ofNat (10 ^ 6) := by decide
  have hcoin' : (Int64.ofInt COIN).toInt = 10 ^ 6 := by decide
  -- the units are less than a coin, so no guard refuses them
  have hrange : ¬ (Int64.ofNat units < 0 ∨ Int64.ofInt COIN < Int64.ofNat units) := by
    rw [Int64.lt_iff_toInt_lt, Int64.lt_iff_toInt_lt, hint, hcoin', Int64.toInt_zero]
    omega
  have hvalue : digitsValue strWhole < 10 ^ 10 :=
    (digitsValue_lt hwhole).trans_le (Nat.pow_le_pow_right (by decide) hlen)
  -- ten digits are within the range of `atoi64`
  have hatoi : atoi64 strWhole = Int64.ofNat (digitsValue strWhole) := by
    have hle : digitsValue strWhole ≤ 2 ^ 63 - 1 := by omega
    exact congrArg Int64.ofNat (min_eq_right hle)
  rw [hall, if_neg (by decide), if_neg (not_lt.mpr hlen), if_neg hrange, hatoi, hcoin, Int64.ofNat_add,
    Int64.ofNat_mul]

/-- At most ten digits stand before the point. -/
theorem IsMoney.whole_lt {psz whole frac : List UInt8} (h : IsMoney psz whole frac) :
    digitsValue whole < 10 ^ 10 :=
  (digitsValue_lt h.whole_digits).trans_le (Nat.pow_le_pow_right (by decide) h.length_whole)

/-- And at most six behind it. -/
theorem IsMoney.pow_eq {psz whole frac : List UInt8} (h : IsMoney psz whole frac) :
    10 ^ 6 = 10 ^ frac.length * 10 ^ (6 - frac.length) := by
  rw [← pow_add, Nat.add_sub_cancel' h.length_frac]

/-- Which are worth less than one coin. -/
theorem IsMoney.units_lt {psz whole frac : List UInt8} (h : IsMoney psz whole frac) :
    digitsValue frac * 10 ^ (6 - frac.length) < 10 ^ 6 := by
  rw [h.pow_eq]
  exact Nat.mul_lt_mul_of_pos_right (digitsValue_lt h.frac_digits) (by positivity)

/-- **A text of this form is read.** -/
theorem parseMoneyPsz_eq {psz whole frac : List UInt8} (h : IsMoney psz whole frac) :
    parseMoneyPsz psz =
      some (Int64.ofNat (digitsValue whole * 10 ^ 6 + digitsValue frac * 10 ^ (6 - frac.length))) := by
  obtain ⟨before, point, after, rfl, hbefore, hpoint, hafter⟩ := h.text
  have hread : ∃ rest, (∀ c ∈ rest, isSpace c = true) ∧
      readWhole ((before ++ (whole ++ (point ++ after))).dropWhile isSpace) [] =
        some (whole, Int64.ofNat (digitsValue frac * 10 ^ (6 - frac.length)), rest) := by
    obtain hdrop | ⟨rfl, rfl, rfl, hdrop⟩ := dropWhile_isSpace hbefore h.whole_digits hpoint hafter
    · refine ⟨after, hafter, ?_⟩
      have hhead : ∀ c ∈ after.head?, isSpace c = true := fun c hc => hafter c (List.mem_of_mem_head? hc)
      rw [hdrop, readWhole_append h.whole_digits, List.nil_append]
      exact readWhole_point hpoint h.frac_digits h.length_frac
        (.inr fun c hc => isDigit_eq_false_of_isSpace (hhead c hc)) (fun _ => hhead) whole
    · refine ⟨[], fun c hc => absurd hc List.not_mem_nil, ?_⟩
      rw [hdrop]
      rfl
  obtain ⟨rest, hrest, hread⟩ := hread
  unfold parseMoneyPsz
  rw [hread]
  exact parseMoney_guards h.whole_digits h.length_whole h.units_lt hrest

/-- Behind the first digits there is a point, whitespace or the end, or the text is refused. -/
theorem exists_point {rest : List UInt8} (hrest : ∀ c ∈ rest.head?, isDigit c = false) (strWhole : List UInt8) :
    readWhole rest strWhole = none ∨ ∃ point frac after, rest = point ++ after ∧
      (point = 46 :: frac ∨ (point = [] ∧ frac = [])) ∧ (∀ c ∈ frac, isDigit c = true) ∧ frac.length ≤ 6 ∧
      (frac.length = 6 ∨ ∀ c ∈ after.head?, isDigit c = false) ∧
      (point = [] → ∀ c ∈ after.head?, isSpace c = true) := by
  cases rest with
  | nil => exact .inr ⟨[], [], [], rfl, .inr ⟨rfl, rfl⟩, by simp, by simp, by simp, by simp⟩
  | cons c rest =>
    by_cases hpoint : c = 46
    · subst hpoint
      -- at most six digits behind the point are taken
      have hdigits : ∀ c ∈ (rest.takeWhile isDigit).take 6, isDigit c = true := fun c hc =>
        List.mem_takeWhile_imp (List.mem_of_mem_take hc)
      have hlen : ((rest.takeWhile isDigit).take 6).length ≤ 6 := List.length_take_le _ _
      refine .inr ⟨46 :: (rest.takeWhile isDigit).take 6, (rest.takeWhile isDigit).take 6,
        (rest.takeWhile isDigit).drop 6 ++ rest.dropWhile isDigit, ?_, .inl rfl, hdigits, hlen, ?_, by simp⟩
      · rw [List.cons_append, ← List.append_assoc, List.take_append_drop, List.takeWhile_append_dropWhile]
      · by_cases hsix : 6 ≤ (rest.takeWhile isDigit).length
        · exact .inl (by rw [List.length_take, min_eq_left hsix])
        · -- all the digits are taken
          rw [List.drop_eq_nil_of_le (by omega), List.nil_append]
          refine .inr fun c hc => ?_
          have hnot := List.head?_dropWhile_not isDigit rest
          rw [Option.mem_def.mp hc] at hnot
          exact hnot
    · cases hspace : isSpace c with
      | true =>
        refine .inr ⟨[], [], c :: rest, rfl, .inr ⟨rfl, rfl⟩, by simp, by simp, .inr hrest, fun _ d hd => ?_⟩
        rw [← Option.some_inj.mp hd]
        exact hspace
      | false =>
        refine .inl ?_
        rw [readWhole, if_neg hpoint, hspace, hrest c rfl]
        rfl

/-- **What is read is of this form.** -/
theorem exists_of_parseMoneyPsz {psz : List UInt8} {nRet : Int64} (h : parseMoneyPsz psz = some nRet) :
    ∃ whole frac, IsMoney psz whole frac := by
  have hbefore : ∀ c ∈ psz.takeWhile isSpace, isSpace c = true := fun c hc => List.mem_takeWhile_imp hc
  have hwhole : ∀ c ∈ (psz.dropWhile isSpace).takeWhile isDigit, isDigit c = true :=
    fun c hc => List.mem_takeWhile_imp hc
  have hnot : ∀ c ∈ ((psz.dropWhile isSpace).dropWhile isDigit).head?, isDigit c = false := fun c hc => by
    have hhead := List.head?_dropWhile_not isDigit (psz.dropWhile isSpace)
    rw [Option.mem_def.mp hc] at hhead
    exact hhead
  have hread := readWhole_append hwhole ((psz.dropWhile isSpace).dropWhile isDigit) []
  rw [List.takeWhile_append_dropWhile, List.nil_append] at hread
  unfold parseMoneyPsz at h
  rw [hread] at h
  -- the whole digits come first, and then what `exists_point` says
  obtain hnone | ⟨point, frac, after, heq, hpoint, hfrac, hlen, hend, hspace⟩ :=
    exists_point hnot ((psz.dropWhile isSpace).takeWhile isDigit)
  · rw [hnone] at h
    cases h
  · rw [heq, readWhole_point hpoint hfrac hlen hend hspace] at h
    dsimp only at h
    split_ifs at h with hall hlong hrange
    refine ⟨_, frac, ⟨psz.takeWhile isSpace, point, after, ?_, hbefore, hpoint, ?_⟩, hwhole, hfrac, not_lt.mp hlong,
      hlen⟩
    · rw [← heq, List.takeWhile_append_dropWhile, List.takeWhile_append_dropWhile]
    · rw [Bool.not_eq_true', Bool.not_eq_false] at hall
      exact List.all_eq_true.mp hall

end Reading

/-! ### Writing -/

section Writing

/-- At most all but two of the digits behind a point are taken off, and they are zeroes. -/
theorem trimLoop_digits {ds rest : List UInt8} (hds : ∀ c ∈ ds, isDigit c = true) (hlen : 2 ≤ ds.length) :
    trimLoop (ds ++ 46 :: rest) ≤ ds.length ∧
      ds.take (trimLoop (ds ++ 46 :: rest)) = List.replicate (trimLoop (ds ++ 46 :: rest)) 48 := by
  induction ds with
  | nil => simp at hlen
  | cons d ds ih =>
    obtain ⟨e, ds, rfl⟩ : ∃ e es, ds = e :: es := by
      cases ds with
      | nil => simp at hlen
      | cons e es => exact ⟨e, es, rfl⟩
    cases ds with
    | nil =>
      -- the two digits in front of the point stay
      have hstop : trimLoop ([d, e] ++ 46 :: rest) = 0 := if_neg fun h => absurd h.2 (by decide)
      rw [hstop]
      exact ⟨Nat.zero_le _, rfl⟩
    | cons f ds =>
      obtain ⟨hle, htake⟩ := ih (fun c hc => hds c (List.mem_cons_of_mem _ hc)) (by simp)
      by_cases hzero : d = 48 ∧ isDigit f
      · -- a zero goes when a digit stands behind it
        have hgo : trimLoop (d :: e :: f :: ds ++ 46 :: rest) = trimLoop (e :: f :: ds ++ 46 :: rest) + 1 :=
          if_pos hzero
        rw [hgo]
        refine ⟨Nat.succ_le_succ hle, ?_⟩
        rw [List.take_succ_cons, htake, List.replicate_succ, hzero.1]
      · have hstop : trimLoop (d :: e :: f :: ds ++ 46 :: rest) = 0 := if_neg hzero
        rw [hstop]
        exact ⟨Nat.zero_le _, rfl⟩

/-- A number with leading zeros is printed with digits. -/
theorem isDigit_of_mem_decimalPadded {nWidth n : ℕ} {c : UInt8} (h : c ∈ decimalPadded nWidth n) :
    isDigit c = true := by
  obtain h | h := List.mem_append.mp h
  · rw [List.eq_of_mem_replicate h]
    decide
  · exact isDigit_of_mem_decimal h

/-- In its whole width. -/
theorem length_decimalPadded {nWidth n : ℕ} (hpos : 0 < nWidth) (h : n < 10 ^ nWidth) :
    (decimalPadded nWidth n).length = nWidth := by
  have hle := length_decimal_le hpos h
  unfold decimalPadded
  rw [List.length_append, List.length_replicate]
  omega

/-- The digits of a padded number without some zeroes at the end. -/
theorem digitsValue_of_trimmed {frac : List UInt8} {k nWidth n : ℕ} (hpos : 0 < nWidth) (hn : n < 10 ^ nWidth)
    (h : frac ++ List.replicate k 48 = decimalPadded nWidth n) :
    frac.length + k = nWidth ∧ digitsValue frac * 10 ^ k = n := by
  have hlen := congrArg List.length h
  rw [List.length_append, List.length_replicate, length_decimalPadded hpos hn] at hlen
  have hvalue := congrArg digitsValue h
  rw [digitsValue_append, digitsValue_replicate, Nat.add_zero, List.length_replicate, decimalPadded,
    digitsValue_append, digitsValue_replicate, Nat.zero_mul, Nat.zero_add, digitsValue_decimal] at hvalue
  exact ⟨hlen, hvalue⟩

/-- **What is written**: the digits of the quotient, and those of the remainder without some zeroes. -/
theorem formatMoney_eq {n : ℤ} (hn : 0 ≤ n) : ∃ frac k, frac ++ List.replicate k 48 = decimalPadded 6 (n.natAbs % 10 ^ 6) ∧
    formatMoney n false = decimal (n.natAbs / 10 ^ 6) ++ 46 :: frac := by
  have hlen : (decimalPadded 6 (n.natAbs % 10 ^ 6)).length = 6 :=
    length_decimalPadded (by decide) (Nat.mod_lt _ (by decide))
  have hdigits : ∀ c ∈ (decimalPadded 6 (n.natAbs % 10 ^ 6)).reverse, isDigit c = true := fun c hc =>
    isDigit_of_mem_decimalPadded (List.mem_reverse.mp hc)
  obtain ⟨hle, htake⟩ := @trimLoop_digits _ (decimal (n.natAbs / 10 ^ 6)).reverse hdigits
    (by rw [List.length_reverse, hlen]; decide)
  set nTrim := trimLoop ((decimalPadded 6 (n.natAbs % 10 ^ 6)).reverse ++ 46 :: (decimal (n.natAbs / 10 ^ 6)).reverse)
    with hnTrim
  rw [List.length_reverse, hlen] at hle
  refine ⟨(decimalPadded 6 (n.natAbs % 10 ^ 6)).take (6 - nTrim), nTrim, ?_, ?_⟩
  · -- what was taken off are zeroes
    have hback := congrArg List.reverse htake
    rw [List.reverse_take, List.reverse_reverse, List.reverse_replicate, List.length_reverse, hlen] at hback
    rw [← hback, List.take_append_drop]
  · have hcoin : COIN.toNat = 10 ^ 6 := by decide
    have hreverse : (decimal (n.natAbs / 10 ^ 6) ++ 46 :: decimalPadded 6 (n.natAbs % 10 ^ 6)).reverse =
        (decimalPadded 6 (n.natAbs % 10 ^ 6)).reverse ++ 46 :: (decimal (n.natAbs / 10 ^ 6)).reverse := by
      simp
    unfold formatMoney
    simp only [hcoin, hreverse, ← hnTrim, if_neg (not_lt.mpr hn), Bool.false_eq_true, false_and, if_false]
    -- the quotient, the point and the digits that are kept
    have hkeep : (decimal (n.natAbs / 10 ^ 6) ++ 46 :: decimalPadded 6 (n.natAbs % 10 ^ 6)).length - nTrim =
        (decimal (n.natAbs / 10 ^ 6)).length + (1 + (6 - nTrim)) := by
      rw [List.length_append, List.length_cons, hlen]
      omega
    rw [hkeep, List.take_length_add_append, Nat.add_comm 1, List.take_succ_cons]

end Writing

/-! ### There and back -/

/-- Nothing but blanks, digits and one point. -/
theorem IsMoney.mem {psz whole frac : List UInt8} (h : IsMoney psz whole frac) {c : UInt8} (hc : c ∈ psz) :
    isSpace c = true ∨ isDigit c = true ∨ c = 46 := by
  obtain ⟨before, point, after, rfl, hbefore, hpoint, hafter⟩ := h.text
  simp only [List.mem_append] at hc
  obtain hc | hc | hc | hc := hc
  · exact .inl (hbefore c hc)
  · exact .inr (.inl (h.whole_digits c hc))
  · obtain rfl | ⟨rfl, -⟩ := hpoint
    · exact (List.mem_cons.mp hc).elim (fun heq => .inr (.inr heq)) fun hc => .inr (.inl (h.frac_digits c hc))
    · exact absurd hc List.not_mem_nil
  · exact .inl (hafter c hc)

/-- The text of an amount, and the number that its digits are. -/
theorem isMoney_formatMoney {n : ℤ} (hn : 0 ≤ n) (hmax : n ≤ MAX_MONEY) : ∃ whole frac,
    IsMoney (formatMoney n false) whole frac ∧
      digitsValue whole * 10 ^ 6 + digitsValue frac * 10 ^ (6 - frac.length) = n.natAbs := by
  obtain ⟨frac, k, hpad, htext⟩ := formatMoney_eq hn
  obtain ⟨hlen, hvalue⟩ := digitsValue_of_trimmed (by decide) (Nat.mod_lt _ (by decide)) hpad
  have hquotient : n.natAbs / 10 ^ 6 < 10 ^ 10 := by
    have hmax' : n ≤ 2000000000 * 1000000 := hmax
    omega
  refine ⟨decimal (n.natAbs / 10 ^ 6), frac, ⟨⟨[], 46 :: frac, [], ?_, by simp, .inl rfl, by simp⟩,
    fun c hc => isDigit_of_mem_decimal hc, fun c hc => ?_, length_decimal_le (by decide) hquotient, by omega⟩, ?_⟩
  · rw [htext, List.append_nil, List.nil_append]
  · exact isDigit_of_mem_decimalPadded (hpad ▸ List.mem_append_left _ hc)
  · have hk : 6 - frac.length = k := by omega
    rw [digitsValue_decimal, hk, hvalue]
    exact Nat.div_add_mod' _ _

/-- `ParseMoney` of a `std::string` does not see what is behind a zero. -/
theorem not_parseMoney_form : ¬ ∀ (str : List UInt8) (nRet : Int64), parseMoney str = some nRet →
    ∃ whole frac, IsMoney str whole frac ∧
      (nRet.toInt : ℚ) = (digitsValue whole + digitsValue frac / 10 ^ frac.length) * COIN := by
  intro h
  obtain ⟨whole, frac, hform, -⟩ := h [49, 0, 120] 1000000 (by decide)
  obtain hspace | hdigit | heq := hform.mem (c := 120) (by decide)
  · exact absurd hspace (by decide)
  · exact absurd hdigit (by decide)
  · exact absurd heq (by decide)

/-- **Amounts as text.** Every amount of the money range comes back. What is accepted is, up to the first zero,
optional whitespace, at most ten digits, an optional point with at most six digits and optional whitespace, and the
value is that of the decimal in units, which an `int64` holds. -/
theorem money_roundTrip :
    (∀ n : ℤ, 0 ≤ n → n ≤ MAX_MONEY → ∃ nRet, parseMoney (formatMoney n false) = some nRet ∧ nRet.toInt = n) ∧
    ∀ (str : List UInt8) (nRet : Int64), parseMoney str = some nRet →
      ∃ whole frac, IsMoney (str.takeWhile (· ≠ 0)) whole frac ∧
        (nRet.toInt : ℚ) = (digitsValue whole + digitsValue frac / 10 ^ frac.length) * COIN := by
  refine ⟨fun n hn hmax => ?_, fun str nRet h => ?_⟩
  · obtain ⟨whole, frac, hform, hvalue⟩ := isMoney_formatMoney hn hmax
    -- no character of an amount is the terminating zero
    have hnul : (formatMoney n false).takeWhile (· ≠ 0) = formatMoney n false := by
      refine List.takeWhile_eq_self_iff.mpr fun c hc => decide_eq_true ?_
      rintro rfl
      have hmem := hform.mem hc
      revert hmem
      decide
    have hmax' : n ≤ 2000000000 * 1000000 := hmax
    refine ⟨Int64.ofNat n.natAbs, ?_, ?_⟩
    · unfold parseMoney
      rw [hnul, parseMoneyPsz_eq hform, hvalue]
    · rw [Int64.toInt_ofNat_of_lt (by omega), Int.natAbs_of_nonneg hn]
  · obtain ⟨whole, frac, hform⟩ := exists_of_parseMoneyPsz h
    refine ⟨whole, frac, hform, ?_⟩
    have hread := parseMoneyPsz_eq hform
    unfold parseMoney at h
    rw [h, Option.some_inj] at hread
    have hwhole := hform.whole_lt
    have hunits := hform.units_lt
    rw [hread, Int64.toInt_ofNat_of_lt (by omega)]
    -- the units are the fraction of a coin
    have hpowQ : (10 : ℚ) ^ 6 = 10 ^ frac.length * 10 ^ (6 - frac.length) := by exact_mod_cast hform.pow_eq
    have hcoin : ((COIN : ℤ) : ℚ) = 10 ^ 6 := by norm_num [COIN]
    have hfrac : (digitsValue frac : ℚ) / 10 ^ frac.length * 10 ^ 6 = digitsValue frac * 10 ^ (6 - frac.length) := by
      rw [hpowQ]
      field_simp
    rw [hcoin, add_mul, hfrac]
    push_cast
    rfl

/-- The greatest amount. -/
theorem money_roundTrip_max : ∃ nRet, parseMoney (formatMoney MAX_MONEY false) = some nRet ∧
    nRet.toInt = MAX_MONEY :=
  money_roundTrip.1 MAX_MONEY (by decide) le_rfl

end Peershares
