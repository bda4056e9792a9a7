import Mathlib.Tactic.IntervalCases
import Mathlib.Tactic.Linarith
import Peershares.Framework.Leading
import Peershares.Model.BlockIndex

/-!
# Compact targets

`CBigNum::GetCompact` writes the number in OpenSSL's MPI format and keeps the number of its bytes and
the first three of them; `CBigNum::SetCompact` reads such a form back, with zeros for the other bytes.
The model computes both by arithmetic on the number. Here the arithmetic is compared with the bytes, and
what a target keeps on the way through its compact form follows from shortening numbers to their leading
digits.

* `getCompact_eq_bytes`, `setCompact_eq_mpi2bn` — the arithmetic is that of the bytes
* `setCompact_getCompact` — the way through the compact form keeps the three leading bytes
* `compact_leading` — what this means for targets
-/

namespace Peershares

open Framework

/-- `BN_bn2mpi` of a non-negative number, after its size field: the bytes with the most significant one
first, and a zero byte in front of them when the top bit would be read as the sign. -/
def bn2mpi (bn : Nat) : List Nat :=
  let vch := (Nat.digits 256 bn).reverse
  if 128 ≤ vch.headD 0 then 0 :: vch else vch

/-- `BN_mpi2bn`, after the size field: the top bit of the first byte is the sign. -/
def mpi2bn (vch : List Nat) : Int :=
  if 128 ≤ vch.headD 0 then -((bigEndian 256 vch : Int) - 128 * 256 ^ (vch.length - 1))
  else bigEndian 256 vch

section Bytes

variable {n m : Nat}

/-- The MPI bytes of a number are its digits. -/
theorem bigEndian_bn2mpi : bigEndian 256 (bn2mpi n) = n := by
  have hdigits : bigEndian 256 (Nat.digits 256 n).reverse = n := by
    rw [bigEndian, List.reverse_reverse, Nat.ofDigits_digits]
  unfold bn2mpi
  simp only
  split_ifs
  · rw [bigEndian_cons, zero_mul, zero_add, hdigits]
  · exact hdigits

/-- Each below 256. -/
theorem bn2mpi_lt : ∀ d ∈ bn2mpi n, d < 256 := by
  intro d hd
  have hdigit : ∀ x ∈ (Nat.digits 256 n).reverse, x < 256 := by
    intro x hx
    exact Nat.digits_lt_base (by norm_num) (List.mem_reverse.mp hx)
  unfold bn2mpi at hd
  simp only at hd
  split_ifs at hd
  · rcases List.mem_cons.mp hd with rfl | hd
    · norm_num
    · exact hdigit d hd
  · exact hdigit d hd

/-- The zero byte in front makes room for the sign: the bytes are as many as the doubled number has. -/
theorem length_bn2mpi : (bn2mpi n).length = width 256 2 n := by
  rcases Nat.eq_zero_or_pos n with rfl | hn
  · simp [bn2mpi]
  obtain ⟨d, v, hcons⟩ : ∃ d v, (Nat.digits 256 n).reverse = d :: v := by
    refine List.exists_cons_of_ne_nil ?_
    rw [Ne, List.reverse_eq_nil_iff]
    exact Nat.digits_ne_nil_iff_ne_zero.mpr hn.ne'
  have hlt : ∀ x ∈ d :: v, x < 256 := by
    intro x hx
    rw [← hcons] at hx
    exact Nat.digits_lt_base (by norm_num) (List.mem_reverse.mp hx)
  have hvalue : n = d * 256 ^ v.length + bigEndian 256 v := by
    rw [← bigEndian_cons, ← hcons, bigEndian, List.reverse_reverse, Nat.ofDigits_digits]
  have hrest : bigEndian 256 v < 256 ^ v.length :=
    bigEndian_lt (fun x hx => hlt x (List.mem_cons_of_mem d hx))
  have hd : d < 256 := hlt d List.mem_cons_self
  -- the first digit of a number is not zero
  have hd0 : 1 ≤ d := by
    have hlen : v.length + 1 = (Nat.digits 256 n).length := by
      have h := congrArg List.length hcons
      rw [List.length_reverse, List.length_cons] at h
      exact h.symm
    have hlow : 256 ^ v.length ≤ n :=
      (Nat.lt_digits_length_iff (by norm_num) n).mp (by omega)
    by_contra hzero
    have : d = 0 := by omega
    subst this
    omega
  have hpow : 256 ^ (v.length + 1) = 256 * 256 ^ v.length := pow_succ' 256 _
  have hpow2 : 256 ^ (v.length + 2) = 256 * (256 * 256 ^ v.length) := by rw [pow_succ', hpow]
  symm
  unfold bn2mpi
  simp only [hcons, List.headD_cons]
  split_ifs with h
  · refine width_eq (by norm_num) ?_ ?_ (by simp)
    · show 256 ^ (v.length + 1) ≤ 2 * n
      nlinarith
    · show 2 * n < 256 ^ (v.length + 2)
      nlinarith
  · refine width_eq (by norm_num) ?_ ?_ (by simp)
    · show 256 ^ v.length ≤ 2 * n
      nlinarith
    · show 2 * n < 256 ^ (v.length + 1)
      nlinarith

end Bytes

/-! ### The arithmetic and the bytes -/

section Compact

variable {n m : Nat}

/-- The size byte of `getCompact` counts the bytes of the MPI number. -/
theorem compactSize_eq (hn : 0 < n) : (Nat.log2 n + 1) / 8 + 1 = width 256 2 n := by
  have hlow : 2 ^ Nat.log2 n ≤ n := Nat.log2_self_le hn.ne'
  have hhigh : n < 2 ^ (Nat.log2 n + 1) := Nat.lt_log2_self
  symm
  refine width_eq (by norm_num) ?_ ?_ (by simp)
  · calc 256 ^ ((Nat.log2 n + 1) / 8 + 1 - 1) = 2 ^ (8 * ((Nat.log2 n + 1) / 8)) := by
          rw [Nat.add_sub_cancel, pow_mul]; norm_num
      _ ≤ 2 ^ (Nat.log2 n + 1) := Nat.pow_le_pow_right (by norm_num) (Nat.mul_div_le _ _)
      _ ≤ 2 * n := by rw [pow_succ']; exact Nat.mul_le_mul_left 2 hlow
  · calc 2 * n < 2 * 2 ^ (Nat.log2 n + 1) := by omega
      _ = 2 ^ (Nat.log2 n + 2) := (pow_succ' 2 _).symm
      _ ≤ 2 ^ (8 * ((Nat.log2 n + 1) / 8 + 1)) := Nat.pow_le_pow_right (by norm_num) (by omega)
      _ = 256 ^ ((Nat.log2 n + 1) / 8 + 1) := by rw [pow_mul]; norm_num

/-- The three bytes of the compact form, as one number. -/
def mantissa (n : Nat) : Nat :=
  if width 256 2 n ≤ 3 then n * 256 ^ (3 - width 256 2 n) else n / 256 ^ (width 256 2 n - 3)

/-- The size in the highest byte and the mantissa below it. -/
theorem getCompact_natCast : getCompact (n : Int) = width 256 2 n * 2 ^ 24 + mantissa n := by
  have hsign : ¬(n : Int) < 0 := by omega
  rcases Nat.eq_zero_or_pos n with rfl | hn
  · simp [getCompact, mantissa]
  · simp only [getCompact, Int.natAbs_natCast, if_neg hn.ne', compactSize_eq hn, if_neg hsign, add_zero,
      mantissa]

/-- The top bit of the three bytes is clear. -/
theorem mantissa_lt : mantissa n < 2 ^ 23 := by
  have hupper : 2 * n < 256 ^ width 256 2 n := lt_pow_width (by norm_num)
  unfold mantissa
  split_ifs with h
  · have hpow : 256 ^ width 256 2 n * 256 ^ (3 - width 256 2 n) = 2 ^ 24 := by
      rw [← pow_add, Nat.add_sub_cancel' h]
      norm_num
    have hpos : 0 < 256 ^ (3 - width 256 2 n) := Nat.pow_pos (by norm_num)
    have := Nat.mul_lt_mul_of_pos_right hupper hpos
    rw [hpow, mul_assoc] at this
    omega
  · have hpow : 2 ^ 23 * 256 ^ (width 256 2 n - 3) * 2 = 256 ^ width 256 2 n := by
      calc 2 ^ 23 * 256 ^ (width 256 2 n - 3) * 2 = 256 ^ 3 * 256 ^ (width 256 2 n - 3) := by ring
        _ = 256 ^ width 256 2 n := by
          rw [← pow_add]
          congr 1
          omega
    refine Nat.div_lt_of_lt_mul ?_
    rw [mul_comm]
    omega

/-- The first three bytes of a list as one number; what is missing is zero. -/
theorem first_bytes (vch : List Nat) :
    (if vch.length ≤ 3 then bigEndian 256 vch * 256 ^ (3 - vch.length) else bigEndian 256 (vch.take 3))
      = vch.getD 0 0 * 2 ^ 16 + vch.getD 1 0 * 2 ^ 8 + vch.getD 2 0 := by
  match vch with
  | [] => simp
  | [a] => simp [bigEndian_cons]
  | [a, b] =>
    simp [bigEndian_cons]
    ring
  | [a, b, c] =>
    simp [bigEndian_cons]
    ring
  | a :: b :: c :: d :: v =>
    have hlong : ¬(a :: b :: c :: d :: v).length ≤ 3 := by simp
    rw [if_neg hlong]
    simp [bigEndian_cons]
    ring

/-- `GetCompact` on the bytes of the MPI number. -/
theorem getCompact_eq_bytes :
    getCompact (n : Int) = (bn2mpi n).length * 2 ^ 24 + (bn2mpi n).getD 0 0 * 2 ^ 16
      + (bn2mpi n).getD 1 0 * 2 ^ 8 + (bn2mpi n).getD 2 0 := by
  have htake := bigEndian_take (p := 3) (bn2mpi_lt (n := n))
  have hfirst := first_bytes (bn2mpi n)
  rw [htake, bigEndian_bn2mpi, length_bn2mpi] at hfirst
  rw [getCompact_natCast, mantissa, hfirst, length_bn2mpi]
  ring

/-- `SetCompact` on the bytes it writes. -/
theorem setCompact_eq_mpi2bn (nCompact : Nat) :
    setCompact nCompact = mpi2bn
      ([nCompact / 2 ^ 16 % 256, nCompact / 2 ^ 8 % 256, nCompact % 256].take (nCompact / 2 ^ 24)
        ++ List.replicate (nCompact / 2 ^ 24 - 3) 0) := by
  have h4 : nCompact / 2 ^ 16 % 256 < 256 := Nat.mod_lt _ (by norm_num)
  unfold setCompact
  simp only
  generalize nCompact / 2 ^ 24 = nSize
  generalize nCompact / 2 ^ 16 % 256 = vch4 at h4 ⊢
  generalize nCompact / 2 ^ 8 % 256 = vch5
  generalize nCompact % 256 = vch6
  -- a set top bit is taken out of the first byte
  have hsign : 128 ≤ vch4 → vch4 % 128 + 128 = vch4 := by omega
  have hplain : ¬128 ≤ vch4 → vch4 % 128 = vch4 := by omega
  match nSize with
  | 0 => simp [mpi2bn]
  | 1 =>
    by_cases h : 128 ≤ vch4
    · have := hsign h
      simp [mpi2bn, h, bigEndian_cons]
      omega
    · simp [mpi2bn, h, bigEndian_cons, hplain h]
  | 2 =>
    by_cases h : 128 ≤ vch4
    · have := hsign h
      simp [mpi2bn, h, bigEndian_cons]
      omega
    · simp [mpi2bn, h, bigEndian_cons, hplain h]
  | k + 3 =>
    by_cases h : 128 ≤ vch4
    · have hcast : (vch4 : Int) = ((vch4 % 128 : Nat) : Int) + 128 := by
        have := hsign h
        omega
      generalize vch4 % 128 = low at hcast ⊢
      simp [mpi2bn, h, bigEndian_cons, bigEndian_replicate_zero]
      rw [hcast]
      ring
    · simp [mpi2bn, h, bigEndian_cons, bigEndian_replicate_zero, hplain h]
      ring

/-- What `SetCompact` makes of a size and three bytes with a clear top bit. -/
theorem setCompact_of_bytes {size M : Nat} (hM : M < 2 ^ 23) :
    setCompact (size * 2 ^ 24 + M)
      = if size ≤ 3 then ((M / 256 ^ (3 - size) : Nat) : Int) else ((M * 256 ^ (size - 3) : Nat) : Int) := by
  have hsize : (size * 2 ^ 24 + M) / 2 ^ 24 = size := by omega
  have h4 : (size * 2 ^ 24 + M) / 2 ^ 16 % 256 = M / 2 ^ 16 := by omega
  have h5 : (size * 2 ^ 24 + M) / 2 ^ 8 % 256 = M / 2 ^ 8 % 256 := by omega
  have h6 : (size * 2 ^ 24 + M) % 256 = M % 256 := by omega
  have htop : M / 2 ^ 16 < 128 := by omega
  have hbytes : M = M / 2 ^ 16 % 128 * 65536 + M / 2 ^ 8 % 256 * 256 + M % 256 := by omega
  have hsign : ¬(1 ≤ size ∧ 128 ≤ M / 2 ^ 16) := by omega
  unfold setCompact
  simp only [hsize, h4, h5, h6, if_neg hsign]
  clear hsize h4 h5 h6 hsign htop
  rcases size with _ | _ | _ | _ | k
  · simp
    omega
  · simp
    omega
  · simp
    omega
  · simp
    omega
  · have hlong : ¬k + 4 ≤ 3 := by omega
    simp only [if_neg hlong, show 1 ≤ k + 4 by omega, show 2 ≤ k + 4 by omega, show 3 ≤ k + 4 by omega,
      if_true]
    congr 1
    conv_rhs => rw [hbytes]
    show _ * 256 ^ (k + 3) + _ * 256 ^ (k + 2) + _ * 256 ^ (k + 1) = _ * 256 ^ (k + 1)
    ring

/-- The way through the compact form keeps the three leading bytes. -/
theorem setCompact_getCompact (n : Nat) : setCompact (getCompact (n : Int)) = lead 256 2 3 n := by
  rw [getCompact_natCast, setCompact_of_bytes mantissa_lt]
  unfold mantissa
  split_ifs with h
  · have hpos : 0 < 256 ^ (3 - width 256 2 n) := Nat.pow_pos (by norm_num)
    rw [lead_eq_self h, Nat.mul_div_cancel _ hpos]
  · rw [lead, unit]

/-- The sign is not lost. -/
theorem setCompact_getCompact_nonneg (n : Nat) : 0 ≤ setCompact (getCompact (n : Int)) := by
  rw [setCompact_getCompact]
  exact Int.natCast_nonneg _

/-- The compact form rounds down. -/
theorem setCompact_getCompact_le (n : Nat) : setCompact (getCompact (n : Int)) ≤ n := by
  rw [setCompact_getCompact]
  exact_mod_cast lead_le

/-- It keeps the order. -/
theorem setCompact_getCompact_mono (h : n ≤ m) :
    setCompact (getCompact (n : Int)) ≤ setCompact (getCompact (m : Int)) := by
  rw [setCompact_getCompact, setCompact_getCompact]
  exact_mod_cast lead_mono (by norm_num) (by norm_num) (by norm_num) h

/-- And is a fixed point of itself. -/
theorem getCompact_setCompact_getCompact (n : Nat) :
    getCompact (setCompact (getCompact (n : Int))) = getCompact (n : Int) := by
  have hwidth : width 256 2 (lead 256 2 3 n) = width 256 2 n :=
    width_lead (by norm_num) (by norm_num) (by norm_num) (by norm_num)
  rw [setCompact_getCompact, getCompact_natCast, getCompact_natCast, hwidth]
  congr 1
  unfold mantissa
  rw [hwidth]
  split_ifs with h
  · rw [lead_eq_self h]
  · have hpos : 0 < 256 ^ (width 256 2 n - 3) := Nat.pow_pos (by norm_num)
    rw [lead, unit, Nat.mul_div_cancel _ hpos]

/-- A compact form fits in 32 bits as long as its size fits in a byte. -/
theorem getCompact_lt (hn : n < 2 ^ (8 * 252)) : getCompact (n : Int) < 2 ^ 32 := by
  have hwidth : width 256 2 n ≤ 253 := by
    refine (Nat.digits_length_le_iff (by norm_num) (2 * n)).mpr ?_
    have hdouble : ∀ k : ℕ, 2 * 2 ^ k = 2 ^ (k + 1) := fun k => (pow_succ' 2 k).symm
    have hmono : ∀ j k : ℕ, j ≤ k → 2 ^ j ≤ 2 ^ k := fun _ _ hjk => Nat.pow_le_pow_right (by norm_num) hjk
    calc 2 * n < 2 * 2 ^ (8 * 252) := Nat.mul_lt_mul_of_pos_left hn (by norm_num)
      _ = 2 ^ (8 * 252 + 1) := hdouble (8 * 252)
      _ ≤ 2 ^ (8 * 253) := hmono _ _ (by norm_num)
      _ = 256 ^ 253 := by rw [pow_mul]; norm_num
  have hmantissa := mantissa_lt (n := n)
  rw [getCompact_natCast]
  omega

/-- Targets in compact form: the three most significant MPI bytes are kept, which rounds down by less
than one part in `2 ^ 15`, a second time changes nothing, and the order of targets is kept. -/
theorem compact_leading {n : Nat} (hn : n < 2 ^ (8 * 252)) :
    getCompact (n : Int) < 2 ^ 32
      ∧ setCompact (getCompact (n : Int)) = bigEndian 256 (zeroTail 3 (bn2mpi n))
      ∧ setCompact (getCompact (n : Int)) ≤ n
      ∧ (0 < n → (n - setCompact (getCompact (n : Int))) * 2 ^ 15 < n)
      ∧ getCompact (setCompact (getCompact (n : Int))) = getCompact (n : Int)
      ∧ ∀ m : Nat, n ≤ m → m < 2 ^ (8 * 252)
        → setCompact (getCompact (n : Int)) ≤ setCompact (getCompact (m : Int)) := by
  refine ⟨getCompact_lt hn, ?_, setCompact_getCompact_le n, ?_, getCompact_setCompact_getCompact n,
    fun m h _ => setCompact_getCompact_mono h⟩
  · rw [setCompact_getCompact, bigEndian_zeroTail bn2mpi_lt, bigEndian_bn2mpi, length_bn2mpi]
    rfl
  · intro hpos
    have herror := sub_lead_mul_lt (b := 256) (c := 2) (p := 3) (n := n) (by norm_num) (by norm_num)
      (by norm_num) hpos
    have hle : lead 256 2 3 n ≤ n := lead_le
    rw [setCompact_getCompact]
    zify [hle] at herror
    norm_num at herror ⊢
    linarith

/-- The proof-of-work limit loses the lower bytes of its compact form. -/
theorem compact_leading_limit :
    getCompact ((2 ^ 236 - 1 : Nat) : Int) < 2 ^ 32
      ∧ setCompact (getCompact ((2 ^ 236 - 1 : Nat) : Int))
        = bigEndian 256 (zeroTail 3 (bn2mpi (2 ^ 236 - 1)))
      ∧ setCompact (getCompact ((2 ^ 236 - 1 : Nat) : Int)) ≤ ((2 ^ 236 - 1 : Nat) : Int) := by
  have hpow : ∀ k : ℕ, 236 < k → 2 ^ 236 - 1 < 2 ^ k := fun k hk =>
    (Nat.sub_le _ _).trans_lt (Nat.pow_lt_pow_right (by norm_num) hk)
  have hlt : 2 ^ 236 - 1 < 2 ^ (8 * 252) := hpow (8 * 252) (by norm_num)
  obtain ⟨hfits, hbytes, hle, -⟩ := compact_leading hlt
  exact ⟨hfits, hbytes, hle⟩

end Compact

end Peershares
