import Peershares.Model.Text

/-!
# Base64 there and back

Three bytes are four characters. After them both machines have no bits left, so a text is read and written in such
groups, with one or two bytes at the end. The bits that a short group does not use are zero in what is written, and are
tested to be zero when it is read, so no two texts are read as the same bytes.

* `Base64.decodeFrom_encode` — what was written is read
* `Base64.encode_of_decodeFrom` — what was read is written again
* `base64_roundTrip` — both
-/

namespace Peershares

namespace Base64

/-! ### Characters -/

/-- Each of the 64 characters is decoded. -/
theorem decode64_base64Char {n : ℕ} (h : n < 64) : decode64 (base64Char n) = n := by
  have hall : ∀ i : Fin 64, decode64 (base64Char i) = ((i : ℕ) : ℤ) := by decide
  exact hall ⟨n, h⟩

/-- A character of the alphabet is that of a number. -/
theorem exists_base64Char {c : UInt8} (h : c ∈ pbase64) : ∃ n < 64, base64Char n = c := by
  obtain ⟨n, hn, hget⟩ := List.mem_iff_getElem.mp h
  refine ⟨n, hn, ?_⟩
  unfold base64Char
  rw [List.getD_eq_getElem?_getD, List.getElem?_eq_getElem hn, hget]
  rfl

/-- The end of the text is not one of them. -/
theorem decode64_zero : decode64 0 = -1 := by decide

/-- Nor is the padding. -/
theorem decode64_pad : decode64 61 = -1 := by decide

/-! ### Bits -/

/-- The bits of two numbers that do not overlap. -/
theorem mul_or {a b i : ℕ} (h : b < 2 ^ i) : a * 2 ^ i ||| b = a * 2 ^ i + b := by
  rw [Nat.mul_comm, Nat.two_pow_add_eq_or_of_lt h]

/-- The lowest two bits. -/
theorem and_three (n : ℕ) : n &&& 3 = n % 4 := Nat.and_two_pow_sub_one_eq_mod n 2

/-- The lowest four bits. -/
theorem and_fifteen (n : ℕ) : n &&& 15 = n % 16 := Nat.and_two_pow_sub_one_eq_mod n 4

/-- The lowest six bits. -/
theorem and_sixtyThree (n : ℕ) : n &&& 63 = n % 64 := Nat.and_two_pow_sub_one_eq_mod n 6

/-! ### Groups -/

/-- The text of three bytes. -/
def group (a b c : UInt8) : List UInt8 :=
  [base64Char (a.toNat / 4), base64Char (a.toNat % 4 * 16 + b.toNat / 16),
    base64Char (b.toNat % 16 * 4 + c.toNat / 64), base64Char (c.toNat % 64)]

/-- Three bytes of the loop of `EncodeBase64` are one group. -/
theorem encode_group (a b c : UInt8) (left : ℕ) (strRet : List UInt8) (pch : List UInt8) :
    (a :: b :: c :: pch).foldl encodeStep ⟨0, left, strRet⟩ =
      pch.foldl encodeStep ⟨0, b.toNat % 16 * 4, strRet ++ group a b c⟩ := by
  have hb := b.toNat_lt
  have hc := c.toNat_lt
  have h1 : a.toNat % 4 * 16 ||| b.toNat / 16 = a.toNat % 4 * 16 + b.toNat / 16 := mul_or (i := 4) (by omega)
  have h2 : b.toNat % 16 * 4 ||| c.toNat / 64 = b.toNat % 16 * 4 + c.toNat / 64 := mul_or (i := 2) (by omega)
  simp only [List.foldl_cons, encodeStep, and_three, and_fifteen, and_sixtyThree, Nat.shiftRight_eq_div_pow,
    Nat.shiftLeft_eq]
  norm_num [h1, h2, group]

/-- What has been written stays in front. -/
theorem encodeEnd_append (pch : List UInt8) (mode left : ℕ) (out strRet : List UInt8) :
    encodeEnd (pch.foldl encodeStep ⟨mode, left, out ++ strRet⟩) =
      out ++ encodeEnd (pch.foldl encodeStep ⟨mode, left, strRet⟩) := by
  induction pch generalizing mode left strRet with
  | nil =>
    rw [List.foldl_nil, List.foldl_nil]
    by_cases hmode : mode = 0
    · simp [encodeEnd, hmode]
    · simp [encodeEnd, hmode]
  | cons c pch ih =>
    simp only [List.foldl_cons, encodeStep]
    split
    · rw [List.append_assoc, ih]
    · rw [List.append_assoc, ih]
    · rw [List.append_assoc, ih]
    · exact ih _ _ _

/-- Between the groups the bits do not matter. -/
theorem encodeEnd_group (pch : List UInt8) (left : ℕ) (strRet : List UInt8) :
    encodeEnd (pch.foldl encodeStep ⟨0, left, strRet⟩) = strRet ++ encodeBase64 pch := by
  have hempty : encodeEnd (pch.foldl encodeStep ⟨0, left, []⟩) = encodeBase64 pch := by
    cases pch <;> rfl
  rw [← hempty, ← encodeEnd_append, List.append_nil]

/-- The text of a group comes before that of the rest. -/
theorem encodeBase64_group (a b c : UInt8) (pch : List UInt8) :
    encodeBase64 (a :: b :: c :: pch) = group a b c ++ encodeBase64 pch := by
  unfold encodeBase64
  rw [encode_group, encodeEnd_group]
  rfl

/-- A single byte. -/
theorem encodeBase64_one (a : UInt8) :
    encodeBase64 [a] = [base64Char (a.toNat / 4), base64Char (a.toNat % 4 * 16), 61, 61] := by
  simp only [encodeBase64, List.foldl_cons, List.foldl_nil, encodeStep, encodeEnd, and_three,
    Nat.shiftRight_eq_div_pow, Nat.shiftLeft_eq]
  norm_num

/-- Two bytes. -/
theorem encodeBase64_two (a b : UInt8) :
    encodeBase64 [a, b] = [base64Char (a.toNat / 4), base64Char (a.toNat % 4 * 16 + b.toNat / 16),
      base64Char (b.toNat % 16 * 4), 61] := by
  have hb := b.toNat_lt
  have h1 : a.toNat % 4 * 16 ||| b.toNat / 16 = a.toNat % 4 * 16 + b.toNat / 16 := mul_or (i := 4) (by omega)
  simp only [encodeBase64, List.foldl_cons, List.foldl_nil, encodeStep, encodeEnd, and_three, and_fifteen,
    Nat.shiftRight_eq_div_pow, Nat.shiftLeft_eq]
  norm_num [h1]

/-! ### Reading -/

/-- What has been read stays in front. -/
theorem decodeFrom_append (p : List UInt8) (mode left : ℕ) (out vchRet : List UInt8) :
    decodeFrom p ⟨mode, left, out ++ vchRet⟩ =
      (decodeFrom p ⟨mode, left, vchRet⟩).map (fun r => (out ++ r.1, r.2)) := by
  induction p generalizing mode left vchRet with
  | nil => rfl
  | cons c p ih =>
    unfold decodeFrom at ih ⊢
    rw [decodeLoop, decodeLoop]
    split_ifs with hend
    · have hsame : decodeInvalid (c :: p) ⟨mode, left, out ++ vchRet⟩ = decodeInvalid (c :: p) ⟨mode, left, vchRet⟩ := rfl
      dsimp only
      rw [hsame, Option.map_map]
      rfl
    · match mode with
      | 0 => exact ih _ _ _
      | 1 | 2 | 3 =>
        simp only [decodeStep, List.append_assoc]
        exact ih _ _ _
      | _ + 4 => exact ih _ _ _

/-- A character of the alphabet is read. -/
theorem decodeFrom_char {n : ℕ} (hn : n < 64) (p : List UInt8) (s : DecodeState) :
    decodeFrom (base64Char n :: p) s = decodeFrom p (decodeStep s n) := by
  have hdec := decode64_base64Char hn
  unfold decodeFrom
  rw [decodeLoop, if_neg (by rw [hdec]; omega), hdec, Int.toNat_natCast]

/-- The loop ends at a byte that is not of the alphabet. -/
theorem decodeFrom_end {c : UInt8} (hc : decode64 c = -1) (p : List UInt8) (s : DecodeState) :
    decodeFrom (c :: p) s = (decodeInvalid (c :: p) s).map (fun fInvalid => (s.vchRet, fInvalid)) := by
  unfold decodeFrom
  rw [decodeLoop, if_pos hc]

/-- Between the groups the bits do not matter. -/
theorem decodeFrom_group (p : List UInt8) (left : ℕ) (vchRet : List UInt8) :
    decodeFrom p ⟨0, left, vchRet⟩ = (decodeBase64 p).map (fun r => (vchRet ++ r.1, r.2)) := by
  have hempty : decodeFrom p ⟨0, left, []⟩ = decodeBase64 p := by
    cases p with
    | nil => rfl
    | cons c p =>
      unfold decodeBase64 decodeFrom
      rw [decodeLoop, decodeLoop]
      split_ifs <;> rfl
  rw [← hempty, ← decodeFrom_append, List.append_nil]

/-- The bytes of four characters. -/
def ungroup (n₀ n₁ n₂ n₃ : ℕ) : List UInt8 :=
  [UInt8.ofNat (n₀ * 4 + n₁ / 16), UInt8.ofNat (n₁ % 16 * 16 + n₂ / 4), UInt8.ofNat (n₂ % 4 * 64 + n₃)]

/-- The bytes of a group come before those of the rest. -/
theorem decodeBase64_group {n₀ n₁ n₂ n₃ : ℕ} (h₀ : n₀ < 64) (h₁ : n₁ < 64) (h₂ : n₂ < 64) (h₃ : n₃ < 64)
    (p : List UInt8) :
    decodeBase64 (base64Char n₀ :: base64Char n₁ :: base64Char n₂ :: base64Char n₃ :: p) =
      (decodeBase64 p).map (fun r => (ungroup n₀ n₁ n₂ n₃ ++ r.1, r.2)) := by
  have hor₁ : n₀ * 4 ||| n₁ / 16 = n₀ * 4 + n₁ / 16 := mul_or (i := 2) (by omega)
  have hor₂ : n₁ % 16 * 16 ||| n₂ / 4 = n₁ % 16 * 16 + n₂ / 4 := mul_or (i := 4) (by omega)
  have hor₃ : n₂ % 4 * 64 ||| n₃ = n₂ % 4 * 64 + n₃ := mul_or (i := 6) (by omega)
  rw [decodeBase64, decodeFrom_char h₀, decodeFrom_char h₁, decodeFrom_char h₂, decodeFrom_char h₃]
  simp only [decodeStep, and_three, and_fifteen, Nat.shiftRight_eq_div_pow, Nat.shiftLeft_eq]
  rw [decodeFrom_group]
  norm_num [hor₁, hor₂, hor₃, ungroup]

/-! ### Three bytes for four characters -/

/-- The bytes of a group. -/
theorem ungroup_group (a b c : UInt8) :
    ungroup (a.toNat / 4) (a.toNat % 4 * 16 + b.toNat / 16) (b.toNat % 16 * 4 + c.toNat / 64) (c.toNat % 64) =
      [a, b, c] := by
  have ha := a.toNat_lt
  have hb := b.toNat_lt
  have hc := c.toNat_lt
  have h₀ : a.toNat / 4 * 4 + (a.toNat % 4 * 16 + b.toNat / 16) / 16 = a.toNat := by omega
  have h₁ : (a.toNat % 4 * 16 + b.toNat / 16) % 16 * 16 + (b.toNat % 16 * 4 + c.toNat / 64) / 4 = b.toNat := by omega
  have h₂ : (b.toNat % 16 * 4 + c.toNat / 64) % 4 * 64 + c.toNat % 64 = c.toNat := by omega
  simp only [ungroup, h₀, h₁, h₂, UInt8.ofNat_toNat]

/-- And the group of the bytes. -/
theorem group_ungroup {n₀ n₁ n₂ n₃ : ℕ} (h₀ : n₀ < 64) (h₁ : n₁ < 64) (h₂ : n₂ < 64) (h₃ : n₃ < 64)
    (v : List UInt8) :
    encodeBase64 (ungroup n₀ n₁ n₂ n₃ ++ v) =
      base64Char n₀ :: base64Char n₁ :: base64Char n₂ :: base64Char n₃ :: encodeBase64 v := by
  have ha : (UInt8.ofNat (n₀ * 4 + n₁ / 16)).toNat = n₀ * 4 + n₁ / 16 :=
    UInt8.toNat_ofNat_of_lt' (by simp [UInt8.size]; omega)
  have hb : (UInt8.ofNat (n₁ % 16 * 16 + n₂ / 4)).toNat = n₁ % 16 * 16 + n₂ / 4 :=
    UInt8.toNat_ofNat_of_lt' (by simp [UInt8.size]; omega)
  have hc : (UInt8.ofNat (n₂ % 4 * 64 + n₃)).toNat = n₂ % 4 * 64 + n₃ :=
    UInt8.toNat_ofNat_of_lt' (by simp [UInt8.size]; omega)
  have e₀ : (n₀ * 4 + n₁ / 16) / 4 = n₀ := by omega
  have e₁ : (n₀ * 4 + n₁ / 16) % 4 * 16 + (n₁ % 16 * 16 + n₂ / 4) / 16 = n₁ := by omega
  have e₂ : (n₁ % 16 * 16 + n₂ / 4) % 16 * 4 + (n₂ % 4 * 64 + n₃) / 64 = n₂ := by omega
  have e₃ : (n₂ % 4 * 64 + n₃) % 64 = n₃ := by omega
  simp only [ungroup, List.cons_append, List.nil_append, encodeBase64_group, group, ha, hb, hc, e₀, e₁, e₂, e₃]

/-! ### The last characters -/

/-- Two characters and something else leave four bits. -/
theorem decodeBase64_two {n₀ n₁ : ℕ} (h₀ : n₀ < 64) (h₁ : n₁ < 64) {c : UInt8} (hc : decode64 c = -1)
    (p : List UInt8) :
    decodeBase64 (base64Char n₀ :: base64Char n₁ :: c :: p) =
      (if n₁ % 16 ≠ 0 then some true else padInvalid 2 (c :: p)).map
        (fun fInvalid => ([UInt8.ofNat (n₀ * 4 + n₁ / 16)], fInvalid)) := by
  have hor₁ : n₀ * 4 ||| n₁ / 16 = n₀ * 4 + n₁ / 16 := mul_or (i := 2) (by omega)
  rw [decodeBase64, decodeFrom_char h₀, decodeFrom_char h₁, decodeFrom_end hc]
  simp only [decodeStep, decodeInvalid, and_fifteen, Nat.shiftRight_eq_div_pow, Nat.shiftLeft_eq]
  norm_num [hor₁]

/-- Three characters and something else leave two bits. -/
theorem decodeBase64_three {n₀ n₁ n₂ : ℕ} (h₀ : n₀ < 64) (h₁ : n₁ < 64) (h₂ : n₂ < 64) {c : UInt8}
    (hc : decode64 c = -1) (p : List UInt8) :
    decodeBase64 (base64Char n₀ :: base64Char n₁ :: base64Char n₂ :: c :: p) =
      (if n₂ % 4 ≠ 0 then some true else padInvalid 1 (c :: p)).map
        (fun fInvalid => ([UInt8.ofNat (n₀ * 4 + n₁ / 16), UInt8.ofNat (n₁ % 16 * 16 + n₂ / 4)], fInvalid)) := by
  have hor₁ : n₀ * 4 ||| n₁ / 16 = n₀ * 4 + n₁ / 16 := mul_or (i := 2) (by omega)
  have hor₂ : n₁ % 16 * 16 ||| n₂ / 4 = n₁ % 16 * 16 + n₂ / 4 := mul_or (i := 4) (by omega)
  rw [decodeBase64, decodeFrom_char h₀, decodeFrom_char h₁, decodeFrom_char h₂, decodeFrom_end hc]
  simp only [decodeStep, decodeInvalid, and_three, and_fifteen, Nat.shiftRight_eq_div_pow, Nat.shiftLeft_eq]
  norm_num [hor₁, hor₂]

/-! ### Both ways -/

/-- `DecodeBase64` reads back what was encoded, by recursion on groups of three bytes. -/
theorem decodeFrom_encode : ∀ v : List UInt8, decodeBase64 (cStr (encodeBase64 v)) = some (v, false)
  | [] => by decide
  | [a] => by
    have ha := a.toNat_lt
    have hbyte : a.toNat / 4 * 4 + a.toNat % 4 * 16 / 16 = a.toNat := by omega
    have hleft : ¬ a.toNat % 4 * 16 % 16 ≠ 0 := by omega
    have htail : padInvalid 2 [61, 61, 0] = some false := by decide
    rw [encodeBase64_one, cStr]
    simp only [List.cons_append, List.nil_append]
    rw [decodeBase64_two (by omega) (by omega) decode64_pad, if_neg hleft, htail, hbyte, UInt8.ofNat_toNat]
    rfl
  | [a, b] => by
    have ha := a.toNat_lt
    have hb := b.toNat_lt
    have hbyte₀ : a.toNat / 4 * 4 + (a.toNat % 4 * 16 + b.toNat / 16) / 16 = a.toNat := by omega
    have hbyte₁ : (a.toNat % 4 * 16 + b.toNat / 16) % 16 * 16 + b.toNat % 16 * 4 / 4 = b.toNat := by omega
    have hleft : ¬ b.toNat % 16 * 4 % 4 ≠ 0 := by omega
    have htail : padInvalid 1 [61, 0] = some false := by decide
    rw [encodeBase64_two, cStr]
    simp only [List.cons_append, List.nil_append]
    rw [decodeBase64_three (by omega) (by omega) (by omega) decode64_pad, if_neg hleft, htail, hbyte₀, hbyte₁,
      UInt8.ofNat_toNat, UInt8.ofNat_toNat]
    rfl
  | a :: b :: c :: v => by
    have ha := a.toNat_lt
    have hb := b.toNat_lt
    have hc := c.toNat_lt
    have ih := decodeFrom_encode v
    rw [encodeBase64_group, cStr, List.append_assoc]
    simp only [group, List.cons_append, List.nil_append]
    rw [decodeBase64_group (by omega) (by omega) (by omega) (by omega), ungroup_group]
    unfold cStr at ih
    rw [ih]
    rfl

/-- The text that was read is the one of the bytes: a short group has no bits to spare. -/
theorem encode_of_decodeFrom : ∀ (chars : List UInt8) (k : ℕ), (∀ c ∈ chars, c ∈ pbase64) → k ≤ 2 →
    (chars.length + k) % 4 = 0 → ∀ v, decodeBase64 (cStr (chars ++ List.replicate k 61)) = some (v, false) →
    encodeBase64 v = chars ++ List.replicate k 61
  -- no characters need no padding
  | [], k, _, hk, hlen, v => by
    have hk0 : k = 0 := by rw [List.length_nil] at hlen; omega
    subst hk0
    intro hdec
    have hnil : decodeBase64 (cStr []) = some ([], false) := by decide
    obtain rfl : [] = v := by simpa [hnil] using hdec
    rfl
  | [c₀], k, _, hk, hlen, v => by
    -- one character and at most two pads do not make a group
    rw [List.length_singleton] at hlen
    omega
  | [c₀, c₁], k, hmem, hk, hlen, v => by
    have hk2 : k = 2 := by simp only [List.length_cons, List.length_nil] at hlen; omega
    subst hk2
    obtain ⟨n₀, h₀, rfl⟩ := exists_base64Char (hmem c₀ (by simp))
    obtain ⟨n₁, h₁, rfl⟩ := exists_base64Char (hmem c₁ (by simp))
    intro hdec
    have hshape : cStr ([base64Char n₀, base64Char n₁] ++ List.replicate 2 61) =
      base64Char n₀ :: base64Char n₁ :: 61 :: [61, 0] := rfl
    rw [hshape, decodeBase64_two h₀ h₁ decode64_pad] at hdec
    -- the bits that are left over have to be zero, or the text is invalid
    by_cases hleft : n₁ % 16 ≠ 0
    · simp [hleft] at hdec
    · rw [if_neg hleft] at hdec
      have hbyte : (UInt8.ofNat (n₀ * 4 + n₁ / 16)).toNat = n₀ * 4 + n₁ / 16 :=
        UInt8.toNat_ofNat_of_lt' (by simp [UInt8.size]; omega)
      have hv : [UInt8.ofNat (n₀ * 4 + n₁ / 16)] = v := by
        have htail : padInvalid 2 [61, 61, 0] = some false := by decide
        simpa [htail] using hdec
      have e₀ : (n₀ * 4 + n₁ / 16) / 4 = n₀ := by omega
      have e₁ : (n₀ * 4 + n₁ / 16) % 4 * 16 = n₁ := by omega
      rw [← hv, encodeBase64_one, hbyte, e₀, e₁]
      rfl
  | [c₀, c₁, c₂], k, hmem, hk, hlen, v => by
    have hk1 : k = 1 := by simp only [List.length_cons, List.length_nil] at hlen; omega
    subst hk1
    obtain ⟨n₀, h₀, rfl⟩ := exists_base64Char (hmem c₀ (by simp))
    obtain ⟨n₁, h₁, rfl⟩ := exists_base64Char (hmem c₁ (by simp))
    obtain ⟨n₂, h₂, rfl⟩ := exists_base64Char (hmem c₂ (by simp))
    intro hdec
    have hshape : cStr ([base64Char n₀, base64Char n₁, base64Char n₂] ++ List.replicate 1 61) =
      base64Char n₀ :: base64Char n₁ :: base64Char n₂ :: 61 :: [0] := rfl
    rw [hshape, decodeBase64_three h₀ h₁ h₂ decode64_pad] at hdec
    -- two bits are left over here
    by_cases hleft : n₂ % 4 ≠ 0
    · simp [hleft] at hdec
    · rw [if_neg hleft] at hdec
      have hbyte₀ : (UInt8.ofNat (n₀ * 4 + n₁ / 16)).toNat = n₀ * 4 + n₁ / 16 :=
        UInt8.toNat_ofNat_of_lt' (by simp [UInt8.size]; omega)
      have hbyte₁ : (UInt8.ofNat (n₁ % 16 * 16 + n₂ / 4)).toNat = n₁ % 16 * 16 + n₂ / 4 :=
        UInt8.toNat_ofNat_of_lt' (by simp [UInt8.size]; omega)
      have hv : [UInt8.ofNat (n₀ * 4 + n₁ / 16), UInt8.ofNat (n₁ % 16 * 16 + n₂ / 4)] = v := by
        have htail : padInvalid 1 [61, 0] = some false := by decide
        simpa [htail] using hdec
      have e₀ : (n₀ * 4 + n₁ / 16) / 4 = n₀ := by omega
      have e₁ : (n₀ * 4 + n₁ / 16) % 4 * 16 + (n₁ % 16 * 16 + n₂ / 4) / 16 = n₁ := by omega
      have e₂ : (n₁ % 16 * 16 + n₂ / 4) % 16 * 4 = n₂ := by omega
      rw [← hv, encodeBase64_two, hbyte₀, hbyte₁, e₀, e₁, e₂]
      rfl
  | c₀ :: c₁ :: c₂ :: c₃ :: chars, k, hmem, hk, hlen, v => by
    have hrest : (chars.length + k) % 4 = 0 := by simp only [List.length_cons] at hlen; omega
    have hmem' : ∀ c ∈ chars, c ∈ pbase64 := fun c hc => hmem c (by simp [hc])
    -- a full group, and the rest by induction
    have ih := encode_of_decodeFrom chars k hmem' hk hrest
    obtain ⟨n₀, h₀, rfl⟩ := exists_base64Char (hmem c₀ (by simp))
    obtain ⟨n₁, h₁, rfl⟩ := exists_base64Char (hmem c₁ (by simp))
    obtain ⟨n₂, h₂, rfl⟩ := exists_base64Char (hmem c₂ (by simp))
    obtain ⟨n₃, h₃, rfl⟩ := exists_base64Char (hmem c₃ (by simp))
    intro hdec
    simp only [cStr, List.cons_append] at hdec ih ⊢
    rw [decodeBase64_group h₀ h₁ h₂ h₃, Option.map_eq_some_iff] at hdec
    obtain ⟨⟨w, fInvalid⟩, hw, heq⟩ := hdec
    obtain ⟨hv, rfl⟩ : ungroup n₀ n₁ n₂ n₃ ++ w = v ∧ fInvalid = false := by simpa using heq
    rw [← hv, group_ungroup h₀ h₁ h₂ h₃, ih w hw]

/-! ### The end of the string is found -/

/-- The loop over the padding ends at the end of the text. -/
theorem padInvalid_isSome (n : ℕ) (p : List UInt8) : (padInvalid n (cStr p)).isSome := by
  induction n generalizing p with
  | zero => cases p <;> rfl
  | succ n ih =>
    cases p with
    | nil => rfl
    | cons c p =>
      rw [cStr, List.cons_append, padInvalid]
      split_ifs
      · rfl
      · exact ih p

/-- So the text behind an invalid character is read to its end. -/
theorem decodeInvalid_isSome (p : List UInt8) (s : DecodeState) : (decodeInvalid (cStr p) s).isSome := by
  unfold decodeInvalid
  split
  · rfl
  · split_ifs
    · rfl
    · exact padInvalid_isSome 2 p
  · split_ifs
    · rfl
    · exact padInvalid_isSome 1 p
  · rfl

/-- And `DecodeBase64` returns on every text. -/
theorem decodeFrom_isSome (p : List UInt8) (s : DecodeState) : (decodeFrom (cStr p) s).isSome := by
  induction p generalizing s with
  | nil =>
    rw [cStr, List.nil_append, decodeFrom_end decode64_zero, Option.isSome_map]
    exact decodeInvalid_isSome [] s
  | cons c p ih =>
    by_cases hc : decode64 c = -1
    · rw [cStr, List.cons_append, decodeFrom_end hc, Option.isSome_map]
      exact decodeInvalid_isSome (c :: p) s
    · have hnext : decodeFrom (cStr (c :: p)) s = decodeFrom (cStr p) (decodeStep s (decode64 c).toNat) := by
        unfold decodeFrom
        rw [cStr, List.cons_append, decodeLoop, if_neg hc]
        rfl
      rw [hnext]
      exact ih _

end Base64

/-- The bytes that are written are read again, and a padded text that is read as valid is written again. -/
theorem base64_roundTrip (v chars : List UInt8) (k : ℕ) (hchars : ∀ c ∈ chars, c ∈ Base64.pbase64) (hk : k ≤ 2)
    (hlen : (chars ++ List.replicate k 61).length % 4 = 0) :
    decodeBase64 (cStr (encodeBase64 v)) = some (v, false) ∧
      ∃ vchRet fInvalid, decodeBase64 (cStr (chars ++ List.replicate k 61)) = some (vchRet, fInvalid) ∧
        (fInvalid = false → encodeBase64 vchRet = chars ++ List.replicate k 61) := by
  refine ⟨Base64.decodeFrom_encode v, ?_⟩
  obtain ⟨⟨vchRet, fInvalid⟩, hdec⟩ := Option.isSome_iff_exists.mp
    (Base64.decodeFrom_isSome (chars ++ List.replicate k 61) {})
  refine ⟨vchRet, fInvalid, hdec, ?_⟩
  rintro rfl
  rw [List.length_append, List.length_replicate] at hlen
  exact Base64.encode_of_decodeFrom chars k hchars hk hlen vchRet hdec

/-- The byte `M` and the text `TQ==`. -/
theorem base64_roundTrip_padded :
    decodeBase64 (cStr (encodeBase64 [77])) = some ([77], false) ∧
      ∃ vchRet fInvalid, decodeBase64 (cStr ([84, 81] ++ List.replicate 2 61)) = some (vchRet, fInvalid) ∧
        (fInvalid = false → encodeBase64 vchRet = [84, 81] ++ List.replicate 2 61) :=
  base64_roundTrip [77] [84, 81] 2 (by decide +kernel) (by decide) (by decide)

end Peershares
