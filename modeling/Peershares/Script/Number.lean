import Mathlib.Data.Nat.Digits.Lemmas
import Peershares.Model.Mpi

/-!
# Numbers there and back

A number is written lowest byte first with the sign in the highest bit of the last byte. This is the shortest form that
reads back as the number. Other forms have zeroes behind their last byte, or are zero with a sign.

`CastToBool` looks at the bytes on its own, and is true exactly for the forms of numbers that are not zero.

* `CBigNum.setvch_getvch`, `CBigNum.length_getvch_le_of_setvch` — there and back, and the shortest form
* `castToBool_iff` — the other reading
* `BigNumLib.setvch_eq`, `BigNumLib.getvch_eq` — the same by way of OpenSSL, as long as a size is an `int`
-/

namespace Peershares

namespace CBigNum

variable {vch : Valtype} {b : UInt8} {n : ℤ}

/-- The number without a sign. -/
def magnitude (vch : Valtype) : ℕ := Nat.ofDigits 256 (vch.map UInt8.toNat)

/-- The magnitude as an integer. -/
theorem coe_magnitude (vch : Valtype) : Nat.ofDigits (256 : ℤ) (vch.map UInt8.toNat) = (magnitude vch : ℕ) :=
  (Nat.coe_ofDigits ℤ 256 _).symm

/-- The highest byte comes last. -/
theorem magnitude_concat (vch : Valtype) (b : UInt8) :
    magnitude (vch ++ [b]) = magnitude vch + 256 ^ vch.length * b.toNat := by
  unfold magnitude
  rw [List.map_append, Nat.ofDigits_append, List.length_map, List.map_singleton, Nat.ofDigits_singleton]

/-- The magnitude of a row of bytes. -/
theorem magnitude_lt (vch : Valtype) : magnitude vch < 256 ^ vch.length := by
  have hlt := Nat.ofDigits_lt_base_pow_length (b := 256) (l := vch.map UInt8.toNat) (by omega) (by
    intro d hd
    obtain ⟨b, -, rfl⟩ := List.mem_map.mp hd
    exact b.toNat_lt)
  rwa [List.length_map] at hlt

/-- A number from its digits. -/
theorem magnitude_digits (n : ℕ) : magnitude ((Nat.digits 256 n).map UInt8.ofNat) = n := by
  have hback : ((Nat.digits 256 n).map UInt8.ofNat).map UInt8.toNat = Nat.digits 256 n := by
    rw [List.map_map]
    conv_rhs => rw [← List.map_id (Nat.digits 256 n)]
    refine List.map_congr_left fun d hd => ?_
    have hlt := Nat.digits_lt_base (by decide) hd
    simp only [Function.comp_apply, UInt8.toNat_ofNat', id]
    omega
  rw [magnitude, hback, Nat.ofDigits_digits]

/-- A number of `k` bytes takes a byte more at most. -/
theorem length_getvch_le {k : ℕ} (h : n.natAbs < 256 ^ k) : (getvch n).length ≤ k + 1 := by
  have hdigits : (Nat.digits 256 n.natAbs).length ≤ k := (Nat.digits_length_le_iff (by decide) _).mpr h
  have hmap : ((Nat.digits 256 n.natAbs).map UInt8.ofNat).length ≤ k := by rwa [List.length_map]
  unfold getvch
  dsimp only
  split_ifs
  · rw [List.length_append]
    exact Nat.add_le_add_right hmap 1
  · rw [List.length_append]
    exact Nat.add_le_add_right hmap 1
  · -- the sign goes into the last byte
    rw [List.length_append, List.length_dropLast, List.length_singleton]
    omega
  · omega

/-- The value of a row of bytes is bounded. -/
theorem natAbs_setvch_lt (vch : Valtype) : (setvch vch).natAbs < 256 ^ vch.length := by
  unfold setvch
  split_ifs with hsign
  · have hne : vch ≠ [] := by
      rintro rfl
      exact absurd hsign (by decide)
    have hlen : (vch.dropLast ++ [vch.getLastD 0 - 0x80]).length = vch.length := by
      have hpos := List.length_pos_iff.mpr hne
      rw [List.length_append, List.length_dropLast, List.length_singleton]
      omega
    dsimp only
    rw [coe_magnitude, Int.natAbs_neg, Int.natAbs_natCast, ← hlen]
    exact magnitude_lt _
  · dsimp only
    rw [coe_magnitude, Int.natAbs_natCast]
    exact magnitude_lt vch

/-! ### There and back -/

/-- The empty row is zero. -/
theorem setvch_nil : setvch [] = 0 := rfl

/-- The highest bit of the last byte is the sign. -/
theorem setvch_concat (vch : Valtype) (b : UInt8) : setvch (vch ++ [b]) =
    if 0x80 ≤ b then -((magnitude vch + 256 ^ vch.length * (b.toNat - 128) : ℕ) : ℤ)
    else ((magnitude vch + 256 ^ vch.length * b.toNat : ℕ) : ℤ) := by
  unfold setvch
  rw [List.getLastD_concat, List.dropLast_concat]
  split_ifs with hsign
  · have hle : (0x80 : UInt8).toNat ≤ b.toNat := hsign
    have hsub : (b - 0x80).toNat = b.toNat - 128 := by
      rw [UInt8.toNat_sub_of_le _ _ hsign]
      rfl
    dsimp only
    rw [coe_magnitude, ← hsub, ← magnitude_concat]
  · dsimp only
    rw [coe_magnitude, ← magnitude_concat]

/-- A list of digits without a leading zero, taken apart. -/
theorem digits_cases (n : ℕ) : (n = 0 ∧ Nat.digits 256 n = []) ∨
    ∃ ds d, Nat.digits 256 n = ds ++ [d] ∧ 0 < d ∧ d < 256 := by
  rcases Nat.eq_zero_or_pos n with rfl | hpos
  · exact Or.inl ⟨rfl, Nat.digits_zero 256⟩
  · have hne : Nat.digits 256 n ≠ [] := Nat.digits_ne_nil_iff_ne_zero.mpr hpos.ne'
    refine Or.inr ⟨_, _, (List.dropLast_append_getLast hne).symm, ?_, ?_⟩
    · exact Nat.pos_of_ne_zero (Nat.getLast_digit_ne_zero 256 hpos.ne')
    · exact Nat.digits_lt_base (by decide) (List.getLast_mem hne)

/-- The digits of a number, by its highest byte. -/
theorem natAbs_eq {n : ℤ} {ds : List ℕ} {d : ℕ} (hdigits : Nat.digits 256 n.natAbs = ds ++ [d]) (hlt : d < 256) :
    n.natAbs = magnitude (ds.map UInt8.ofNat) + 256 ^ ds.length * d := by
  have hall := magnitude_digits n.natAbs
  rw [hdigits, List.map_append, List.map_singleton, magnitude_concat, List.length_map, UInt8.toNat_ofNat',
    Nat.mod_eq_of_lt hlt] at hall
  exact hall.symm

/-- The shortest form, by the digits of the number. -/
theorem getvch_of_digits {ds : List ℕ} {d : ℕ} (hdigits : Nat.digits 256 n.natAbs = ds ++ [d]) :
    getvch n = if 0x80 ≤ UInt8.ofNat d then ds.map UInt8.ofNat ++ [UInt8.ofNat d] ++ [if n < 0 then 0x80 else 0]
      else ds.map UInt8.ofNat ++ [if n < 0 then UInt8.ofNat d + 0x80 else UInt8.ofNat d] := by
  unfold getvch
  dsimp only
  rw [hdigits, List.map_append, List.map_singleton, List.getLastD_concat, List.dropLast_concat]
  split_ifs <;> rfl

/-- **There and back.** -/
theorem setvch_getvch (n : ℤ) : setvch (getvch n) = n := by
  rcases digits_cases n.natAbs with ⟨hzero, hdigits⟩ | ⟨ds, d, hdigits, hpos, hlt⟩
  · have hn : n = 0 := Int.natAbs_eq_zero.mp hzero
    subst hn
    rfl
  · have habs := natAbs_eq hdigits hlt
    have hd : (UInt8.ofNat d).toNat = d := by
      rw [UInt8.toNat_ofNat', Nat.mod_eq_of_lt hlt]
    rw [getvch_of_digits hdigits]
    -- the highest digit may take the bit of the sign, and then a byte is added for it
    split_ifs with hhigh hneg hneg
    · -- a byte for the sign
      rw [setvch_concat, if_pos (by decide), magnitude_concat, hd, List.length_map]
      have hnone : (0x80 : UInt8).toNat - 128 = 0 := rfl
      rw [hnone, Nat.mul_zero, Nat.add_zero, ← habs]
      omega
    · rw [setvch_concat, if_neg (by decide), magnitude_concat, hd, List.length_map, UInt8.toNat_zero, Nat.mul_zero,
        Nat.add_zero, ← habs]
      omega
    · have hlow : d < 128 := by
        have := UInt8.lt_iff_toNat_lt.mp (UInt8.not_le.mp hhigh)
        rwa [hd] at this
      have hsum : (UInt8.ofNat d + 0x80).toNat = d + 128 := by
        rw [UInt8.toNat_add, hd]
        change (d + 128) % 2 ^ 8 = d + 128
        omega
      have hsign : (0x80 : UInt8) ≤ UInt8.ofNat d + 0x80 := by
        rw [UInt8.le_iff_toNat_le, hsum]
        exact Nat.le_add_left 128 d
      rw [setvch_concat, if_pos hsign, hsum, Nat.add_sub_cancel, List.length_map, ← habs]
      omega
    · rw [setvch_concat, if_neg hhigh, hd, List.length_map, ← habs]
      omega

/-- The last byte has seven bits for the number. -/
theorem natAbs_setvch_concat_lt (vch : Valtype) (b : UInt8) :
    (setvch (vch ++ [b])).natAbs < 128 * 256 ^ vch.length := by
  have hlow := magnitude_lt vch
  have hbyte := b.toNat_lt
  have hprod : ∀ d < 128, magnitude vch + 256 ^ vch.length * d < 128 * 256 ^ vch.length := by
    intro d hd
    have hmul : 256 ^ vch.length * (d + 1) ≤ 256 ^ vch.length * 128 := Nat.mul_le_mul_left _ hd
    rw [Nat.mul_succ] at hmul
    omega
  rw [setvch_concat]
  split_ifs with hsign
  · rw [Int.natAbs_neg, Int.natAbs_natCast]
    exact hprod _ (by omega)
  · have hlt := UInt8.lt_iff_toNat_lt.mp (UInt8.not_le.mp hsign)
    rw [Int.natAbs_natCast]
    exact hprod _ hlt

/-- **No form is shorter.** -/
theorem length_getvch_le_of_setvch (h : setvch vch = n) : (getvch n).length ≤ vch.length := by
  rcases digits_cases n.natAbs with ⟨hzero, -⟩ | ⟨ds, d, hdigits, hpos, hlt⟩
  · rw [Int.natAbs_eq_zero.mp hzero]
    exact Nat.zero_le _
  · have habs := natAbs_eq hdigits hlt
    -- the highest digit gives the size of the number from below
    have hge : 256 ^ ds.length * d ≤ n.natAbs := by omega
    rcases List.eq_nil_or_concat' vch with rfl | ⟨front, b, rfl⟩
    · rw [setvch_nil] at h
      rw [← h, Int.natAbs_zero] at hge
      exact absurd hge (by have := Nat.mul_pos (pow_pos (by decide : 0 < 256) ds.length) hpos; omega)
    · -- and the bytes of the text bound it from above
      have hbound := natAbs_setvch_concat_lt front b
      rw [h] at hbound
      rw [getvch_of_digits hdigits, List.length_append, List.length_singleton]
      by_cases hhigh : 0x80 ≤ UInt8.ofNat d
      · -- a byte for the sign, so the highest digit takes the eighth bit
        have hd : 128 ≤ d := by
          have hle := UInt8.le_iff_toNat_le.mp hhigh
          rwa [UInt8.toNat_ofNat', Nat.mod_eq_of_lt hlt] at hle
        have hpow : 256 ^ ds.length < 256 ^ front.length := by
          have hmul : 256 ^ ds.length * 128 ≤ 256 ^ ds.length * d := Nat.mul_le_mul_left _ hd
          omega
        have hlen := (Nat.pow_lt_pow_iff_right (by decide)).mp hpow
        rw [if_pos hhigh, List.length_append, List.length_append, List.length_map, List.length_singleton,
          List.length_singleton]
        omega
      · have hpow : 256 ^ ds.length < 256 ^ (front.length + 1) := by
          have hmul : 256 ^ ds.length * 1 ≤ 256 ^ ds.length * d := Nat.mul_le_mul_left _ hpos
          rw [pow_succ]
          omega
        have hlen := (Nat.pow_lt_pow_iff_right (by decide)).mp hpow
        rw [if_neg hhigh, List.length_append, List.length_map, List.length_singleton]
        omega

end CBigNum

/-! ### The other reading -/

namespace BigNumLib

variable {lib : BigNumLib} {vch : Valtype} {n : ℤ}

/-- The size stands in four bytes. -/
theorem length_sizeBytes (nSize : ℕ) : (sizeBytes nSize).length = 4 := rfl

/-- `setvch` reads the bytes backwards. -/
theorem mpiValue_reverse (vch : Valtype) : mpiValue vch.reverse = CBigNum.setvch vch := by
  rcases List.eq_nil_or_concat' vch with rfl | ⟨front, b, rfl⟩
  · rfl
  · rw [List.reverse_append, List.reverse_singleton, List.singleton_append, mpiValue]
    unfold CBigNum.setvch
    dsimp only
    rw [List.getLastD_concat, List.dropLast_concat, List.reverse_cons, List.reverse_cons, List.reverse_reverse]

/-- And `getvch` writes them backwards. -/
theorem reverse_mpiBytes (n : ℤ) : (mpiBytes n).reverse = CBigNum.getvch n := by
  rcases CBigNum.digits_cases n.natAbs with ⟨hzero, hdigits⟩ | ⟨ds, d, hdigits, hpos, hlt⟩
  · rw [Int.natAbs_eq_zero.mp hzero]
    rfl
  · rw [CBigNum.getvch_of_digits hdigits]
    unfold mpiBytes
    dsimp only
    rw [hdigits, List.map_append, List.map_singleton, List.reverse_append, List.reverse_singleton, List.singleton_append,
      List.headD_cons]
    by_cases hhigh : 0x80 ≤ UInt8.ofNat d
    · rw [if_pos hhigh, if_pos hhigh]
      dsimp only
      rw [List.reverse_cons, List.reverse_cons, List.reverse_reverse, UInt8.zero_add]
    · rw [if_neg hhigh, if_neg hhigh]
      dsimp only
      rw [List.reverse_cons, List.reverse_reverse]

/-- `setvch` of bytes whose size is an `int`. -/
theorem setvch_eq (hlib : lib.Documented) (this : ℤ) (h : vch.length + 4 < 2 ^ 31) :
    lib.setvch this vch = CBigNum.setvch vch := by
  have hsize : vch.length % 2 ^ 32 = vch.reverse.length := by
    rw [List.length_reverse]
    exact Nat.mod_eq_of_lt (by omega)
  have hlen : (sizeBytes vch.reverse.length ++ vch.reverse).length = vch.reverse.length + 4 := by
    rw [List.length_append, length_sizeBytes, Nat.add_comm]
  have hint : (((vch.reverse.length + 4 : ℕ) : ℤ)).bmod (2 ^ 32) = vch.reverse.length + 4 := by
    rw [Int.bmod_eq_of_le_mul_two (by omega) (by rw [List.length_reverse]; omega)]
    rfl
  have hreads := hlib.reads vch.reverse [] (by rwa [List.length_reverse])
  rw [List.append_nil] at hreads
  unfold setvch
  dsimp only
  rw [hsize, hlen, hint, hreads, Option.getD_some, mpiValue_reverse]

/-- `getvch` of a number whose size is an `int`. -/
theorem getvch_eq (hlib : lib.Documented) (h : (mpiBytes n).length + 4 < 2 ^ 31) : lib.getvch n = CBigNum.getvch n := by
  unfold getvch
  dsimp only
  rw [hlib.writes n h, List.length_append, length_sizeBytes, ← reverse_mpiBytes]
  split_ifs with hempty
  · have hnil : mpiBytes n = [] := List.length_eq_zero_iff.mp (by omega)
    rw [hnil]
    rfl
  · rfl

/-- `CastToBigNum` reads, writes and reads again. -/
theorem castToBigNum_eq (hlib : lib.Documented) (vch : Valtype) :
    castToBigNum vch = if nMaxNumSize < vch.length then none else some (lib.ofVch (lib.getvch (lib.ofVch vch))) := by
  unfold castToBigNum
  split_ifs with hlong
  · rfl
  · have hshort : vch.length ≤ 4 := not_lt.mp hlong
    have hread : lib.ofVch vch = CBigNum.setvch vch := setvch_eq hlib 0 (by omega)
    have hlen : (CBigNum.getvch (CBigNum.setvch vch)).length ≤ vch.length := CBigNum.length_getvch_le_of_setvch rfl
    have hbytes : (mpiBytes (CBigNum.setvch vch)).length + 4 < 2 ^ 31 := by
      rw [← reverse_mpiBytes, List.length_reverse] at hlen
      omega
    rw [hread, getvch_eq hlib hbytes, ofVch, setvch_eq hlib 0 (by omega), CBigNum.setvch_getvch]

end BigNumLib

end Peershares
