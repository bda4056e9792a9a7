import Mathlib.Data.Nat.Digits.Lemmas
import Mathlib.Tactic.Common
import Mathlib.Tactic.GCongr
import Mathlib.Tactic.Ring

/-!
# The leading digits of a number

A number in base `b` is shortened to its first `p` digits by zeroing the others. The digits are counted
on `c` times the number, so that a representation which keeps room in front of the first digit (a sign
bit, a guard digit) is covered too: `c = 1` counts the digits themselves.

* `lead_le`, `sub_lead_mul_lt` — shortening rounds down, and by how much
* `width_lead` — it keeps the number of digits
* `lead_mono` — it is monotone
* `bigEndian_zeroTail` — on the list of digits it zeroes the tail
-/

namespace Framework

section Leading

/-- The number of digits of `c * n`. -/
def width (b c n : ℕ) : ℕ := (Nat.digits b (c * n)).length

/-- The weight of the last digit that is kept. -/
def unit (b c p n : ℕ) : ℕ := b ^ (width b c n - p)

/-- The number with all but its first `p` digits zeroed. -/
def lead (b c p n : ℕ) : ℕ := n / unit b c p n * unit b c p n

variable {b c p n m s : ℕ}

/-- Zero has no digits. -/
@[simp] theorem width_zero : width b c 0 = 0 := by simp [width]

/-- And leads with zero. -/
@[simp] theorem lead_zero : lead b c p 0 = 0 := by simp [lead]

/-- A number has as many digits as its width says. -/
theorem lt_pow_width (hb : 1 < b) : c * n < b ^ width b c n :=
  Nat.lt_base_pow_length_digits hb

/-- A positive number has one. -/
theorem width_pos (hc : 0 < c) (hn : 0 < n) : 0 < width b c n := by
  have hne : c * n ≠ 0 := (Nat.mul_pos hc hn).ne'
  exact List.length_pos_of_ne_nil (Nat.digits_ne_nil_iff_ne_zero.mpr hne)

/-- And no fewer. -/
theorem pow_width_le (hb : 1 < b) (hc : 0 < c) (hn : 0 < n) : b ^ (width b c n - 1) ≤ c * n := by
  have hne : c * n ≠ 0 := (Nat.mul_pos hc hn).ne'
  exact (Nat.lt_digits_length_iff hb (c * n)).mp (Nat.sub_lt (width_pos hc hn) one_pos)

/-- The powers a number lies between determine its width. -/
theorem width_eq (hb : 1 < b) (hlow : b ^ (s - 1) ≤ c * n) (hhigh : c * n < b ^ s) (hs : 0 < s) :
    width b c n = s := by
  have hle : width b c n ≤ s := (Nat.digits_length_le_iff hb (c * n)).mpr hhigh
  have hlt : s - 1 < width b c n := (Nat.lt_digits_length_iff hb (c * n)).mpr hlow
  omega

/-- A larger number is not shorter. -/
theorem width_mono (h : n ≤ m) : width b c n ≤ width b c m :=
  Nat.le_length_digits_le b _ _ (Nat.mul_le_mul_left c h)

/-- The unit of the last digit kept. -/
theorem unit_pos (hb : 1 < b) : 0 < unit b c p n := Nat.pow_pos (by omega)

/-- Cutting digits off makes no number larger. -/
theorem lead_le : lead b c p n ≤ n := Nat.div_mul_le_self n _

/-- The loss is below one unit. -/
theorem sub_lead_lt (hb : 1 < b) : n - lead b c p n < unit b c p n := by
  have hmod := Nat.mod_lt n (unit_pos (c := c) (p := p) (n := n) hb)
  have hsplit := Nat.div_add_mod' n (unit b c p n)
  unfold lead
  omega

/-- A short number loses nothing. -/
theorem lead_eq_self (h : width b c n ≤ p) : lead b c p n = n := by
  have hunit : unit b c p n = 1 := by simp [unit, Nat.sub_eq_zero_of_le h]
  simp [lead, hunit]

/-- The relative error of shortening. -/
theorem sub_lead_mul_lt (hb : 1 < b) (hc : 0 < c) (hp : 0 < p) (hn : 0 < n) :
    (n - lead b c p n) * b ^ (p - 1) < c * n := by
  rcases Nat.lt_or_ge p (width b c n) with hlt | hge
  · have hpow : unit b c p n * b ^ (p - 1) = b ^ (width b c n - 1) := by
      rw [unit, ← pow_add]
      congr 1
      omega
    calc (n - lead b c p n) * b ^ (p - 1) < unit b c p n * b ^ (p - 1) :=
          Nat.mul_lt_mul_of_pos_right (sub_lead_lt hb) (Nat.pow_pos (by omega))
      _ = b ^ (width b c n - 1) := hpow
      _ ≤ c * n := pow_width_le hb hc hn
  · rw [lead_eq_self hge]
    simpa using Nat.mul_pos hc hn

/-- Shortening keeps a multiple of the unit in place. -/
theorem le_lead_of_dvd (hdvd : unit b c p n ∣ m) (h : m ≤ n) : m ≤ lead b c p n := by
  obtain ⟨k, rfl⟩ := hdvd
  rcases Nat.eq_zero_or_pos (unit b c p n) with hzero | hpos
  · simp [hzero]
  · have hk : k ≤ n / unit b c p n := (Nat.le_div_iff_mul_le hpos).mpr (by rw [mul_comm]; exact h)
    unfold lead
    rw [mul_comm]
    exact Nat.mul_le_mul_right _ hk

variable (hb : 1 < b) (hcb : c ∣ b) (hp : 2 ≤ p)

include hb hcb hp in
/-- What is kept still reaches the least number of the same width. -/
theorem pow_width_le_lead (hn : 0 < n) : b ^ (width b c n - 1) ≤ c * lead b c p n := by
  obtain ⟨d, rfl⟩ := hcb
  have hc : 0 < c := Nat.pos_of_ne_zero (by rintro rfl; simp at hb)
  rcases Nat.lt_or_ge p (width (c * d) c n) with hlt | hge
  · -- the least number is `d` times a power, and the unit divides that power
    have hpow : (c * d) ^ (width (c * d) c n - 1) = c * (d * (c * d) ^ (width (c * d) c n - 2)) := by
      rw [← mul_assoc, ← pow_succ']
      congr 1
      omega
    have hdvd : unit (c * d) c p n ∣ d * (c * d) ^ (width (c * d) c n - 2) :=
      Dvd.dvd.mul_left (pow_dvd_pow _ (by omega)) d
    have hle : d * (c * d) ^ (width (c * d) c n - 2) ≤ n := by
      have := pow_width_le (n := n) hb hc hn
      rw [hpow] at this
      exact Nat.le_of_mul_le_mul_left this hc
    rw [hpow]
    exact Nat.mul_le_mul_left c (le_lead_of_dvd hdvd hle)
  · rw [lead_eq_self hge]
    exact pow_width_le hb hc hn

include hb hcb hp in
/-- The width stays. -/
theorem width_lead (hc : 0 < c) : width b c (lead b c p n) = width b c n := by
  rcases Nat.eq_zero_or_pos n with rfl | hn
  · simp
  · have hupper : c * lead b c p n < b ^ width b c n :=
      lt_of_le_of_lt (Nat.mul_le_mul_left c lead_le) (lt_pow_width hb)
    exact width_eq hb (pow_width_le_lead hb hcb hp hn) hupper (width_pos hc hn)

include hb hcb hp in
/-- Cutting keeps the order. -/
theorem lead_mono (h : n ≤ m) : lead b c p n ≤ lead b c p m := by
  rcases Nat.eq_zero_or_pos m with rfl | hm
  · rw [Nat.le_zero.mp h]
  rcases (width_mono (b := b) (c := c) h).lt_or_eq with hlt | heq
  · -- a wider number keeps more than the whole of a narrower one
    have hpow : c * n < c * lead b c p m :=
      calc c * n < b ^ width b c n := lt_pow_width hb
        _ ≤ b ^ (width b c m - 1) := Nat.pow_le_pow_right (by omega) (by omega)
        _ ≤ c * lead b c p m := pow_width_le_lead hb hcb hp hm
    exact lead_le.trans (Nat.lt_of_mul_lt_mul_left hpow).le
  · have hunit : unit b c p n = unit b c p m := by rw [unit, unit, heq]
    unfold lead
    rw [hunit]
    exact Nat.mul_le_mul_right _ (Nat.div_le_div_right h)

end Leading

/-! ### Lists of digits -/

section Digits

/-- The value of a list of digits, the most significant one first. -/
def bigEndian (b : ℕ) (digits : List ℕ) : ℕ := Nat.ofDigits b digits.reverse

/-- The list with all but its first `p` digits zeroed. -/
def zeroTail (p : ℕ) (digits : List ℕ) : List ℕ :=
  digits.take p ++ List.replicate (digits.length - p) 0

variable {b p : ℕ} {u v digits : List ℕ}

/-- No digits. -/
@[simp] theorem bigEndian_nil : bigEndian b [] = 0 := rfl

/-- The value of two rows. -/
theorem bigEndian_append : bigEndian b (u ++ v) = bigEndian b u * b ^ v.length + bigEndian b v := by
  simp [bigEndian, Nat.ofDigits_append, add_comm, mul_comm]

/-- One more digit in front. -/
theorem bigEndian_cons {d : ℕ} : bigEndian b (d :: v) = d * b ^ v.length + bigEndian b v := by
  have h := bigEndian_append (b := b) (u := [d]) (v := v)
  simpa [bigEndian] using h

/-- Zeros are worth nothing. -/
theorem bigEndian_replicate_zero (k : ℕ) : bigEndian b (List.replicate k 0) = 0 := by
  induction k with
  | zero => rfl
  | succ k ih => rw [List.replicate_succ, bigEndian_cons, ih, zero_mul, zero_add]

/-- A row of digits has a bounded value. -/
theorem bigEndian_lt (hdigits : ∀ d ∈ v, d < b) : bigEndian b v < b ^ v.length := by
  induction v with
  | nil =>
    rw [bigEndian_nil]
    exact Nat.one_pos
  | cons d v ih =>
    have hd : d + 1 ≤ b := hdigits d List.mem_cons_self
    have hrest := ih (fun x hx => hdigits x (List.mem_cons_of_mem d hx))
    rw [bigEndian_cons, List.length_cons, pow_succ']
    calc d * b ^ v.length + bigEndian b v < d * b ^ v.length + b ^ v.length := by gcongr
      _ = (d + 1) * b ^ v.length := by ring
      _ ≤ b * b ^ v.length := Nat.mul_le_mul_right _ hd

/-- The first digits are the quotient by the weight of the others. -/
theorem bigEndian_take (hdigits : ∀ d ∈ digits, d < b) :
    bigEndian b (digits.take p) = bigEndian b digits / b ^ (digits.length - p) := by
  have hrest : bigEndian b (digits.drop p) < b ^ (digits.length - p) := by
    have h := bigEndian_lt (b := b) (v := digits.drop p) (fun d hd => hdigits d (List.mem_of_mem_drop hd))
    rwa [List.length_drop] at h
  have hsplit : bigEndian b digits
      = bigEndian b (digits.take p) * b ^ (digits.length - p) + bigEndian b (digits.drop p) := by
    conv_lhs => rw [← List.take_append_drop p digits]
    rw [bigEndian_append, List.length_drop]
  have hpos : 0 < b ^ (digits.length - p) := by omega
  rw [hsplit, mul_comm, Nat.mul_add_div hpos, Nat.div_eq_of_lt hrest, add_zero]

/-- Zeroing the tail shortens the value. -/
theorem bigEndian_zeroTail (hdigits : ∀ d ∈ digits, d < b) :
    bigEndian b (zeroTail p digits)
      = bigEndian b digits / b ^ (digits.length - p) * b ^ (digits.length - p) := by
  rw [zeroTail, bigEndian_append, bigEndian_replicate_zero, List.length_replicate, add_zero,
    bigEndian_take hdigits]

end Digits

end Framework
