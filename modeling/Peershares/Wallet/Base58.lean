import Mathlib.Data.List.TakeWhile
import Mathlib.Data.Nat.Digits.Lemmas
import Peershares.Model.Base58

/-!
# Base58 and back

A text over the alphabet stands for bytes, and bytes have one text. A byte that is zero is written as a one
where it stands in front, and the rest is a number; the number has no zero in front, neither as bytes nor as
digits, so the ones of a text are the zeroes of the bytes.

* `decodeBase58_encodeBase58`, `exists_encodeBase58` — the two directions
* `encodeBase58Num_eq`, `getvch_eq` — the sign byte of the `CBigNum` makes no difference
* `base58_bijective` — texts, addresses, and the addresses of Peercoin
-/

open Framework

namespace Peershares

/-! ### The alphabet -/

section Alphabet

/-- A digit has its character. -/
theorem pszBase58_get_mem {d : Nat} (h : d < 58) : pszBase58.getD d 0 ∈ pszBase58 := by
  have hlen : d < pszBase58.length := h
  rw [List.getD_eq_getElem?_getD, List.getElem?_eq_getElem hlen]
  exact List.getElem_mem hlen

/-- Whose place is the digit. -/
theorem pszBase58_idxOf_get {d : Nat} (h : d < 58) : pszBase58.idxOf (pszBase58.getD d 0) = d := by
  have hall : ∀ d < 58, pszBase58.idxOf (pszBase58.getD d 0) = d := by decide
  exact hall d h

/-- No character is the end of the text. -/
theorem ne_zero_of_mem_pszBase58 {c : UInt8} (h : c ∈ pszBase58) : c ≠ 0 := by
  rintro rfl
  exact absurd h (by decide)

/-- Nor a blank. -/
theorem isSpace_of_mem_pszBase58 {c : UInt8} (h : c ∈ pszBase58) : isSpace c = false := by
  have hall : ∀ c ∈ pszBase58, isSpace c = false := by decide +kernel
  exact hall c h

end Alphabet

/-! ### Numbers as bytes -/

section Numbers

/-- The number of a list of bytes, lowest first. -/
theorem digits_ofDigits_bytes {bytes : List UInt8} (h : bytes.getLastD 1 ≠ 0) :
    Nat.digits 256 (Nat.ofDigits 256 (bytes.map UInt8.toNat)) = bytes.map UInt8.toNat := by
  refine Nat.digits_ofDigits 256 (by decide) _ ?_ ?_
  · intro d hd
    obtain ⟨c, -, rfl⟩ := List.mem_map.mp hd
    exact c.toNat_lt
  · intro hne
    rw [List.getLast_map]
    intro hzero
    have hne' : bytes ≠ [] := fun hnil => hne (by rw [hnil]; rfl)
    refine h ?_
    rw [List.getLastD_eq_getLast?, List.getLast?_eq_some_getLast hne']
    exact UInt8.toNat_inj.mp hzero

/-- Without the sign byte there are the bytes of the number. -/
theorem trimSign_getvch {bytes : List UInt8} (h : bytes.getLastD 1 ≠ 0) :
    trimSign (getvch (Nat.ofDigits 256 (bytes.map UInt8.toNat))) = bytes := by
  unfold getvch
  rw [digits_ofDigits_bytes h]
  have hbytes : (bytes.map UInt8.toNat).map UInt8.ofNat = bytes := by
    rw [List.map_map]
    exact List.map_id'' (fun c => UInt8.ofNat_toNat) bytes
  rw [hbytes]
  obtain rfl | ⟨front, last, rfl⟩ := bytes.eq_nil_or_concat
  · rfl
  · have hlast : last ≠ 0 := by simpa using h
    unfold trimSign
    by_cases hhigh : 0x80 ≤ last
    · simp [hhigh]
    · simp [hhigh, hlast]

end Numbers

/-! ### Base58 -/

section Base58

/-- Digits as characters, highest first. -/
theorem decodeLoop_digits (ds : List Nat) (h : ∀ d ∈ ds, d < 58) (cs : List UInt8) (bn : Nat) :
    decodeLoop bn (ds.map (fun d => pszBase58.getD d 0) ++ cs) =
      decodeLoop (ds.foldl (fun bn d => bn * 58 + d) bn) cs := by
  induction ds generalizing bn with
  | nil => rfl
  | cons d ds ih =>
    have hd : d < 58 := h d List.mem_cons_self
    rw [List.map_cons, List.cons_append, decodeLoop_cons_of_mem (pszBase58_get_mem hd),
      pszBase58_idxOf_get hd, ih fun d' hd' => h d' (List.mem_cons_of_mem _ hd')]
    rfl

/-- The loop of `DecodeBase58` reads a number to the base 58. -/
theorem foldl_digits (ds : List Nat) (bn : Nat) :
    ds.reverse.foldl (fun bn d => bn * 58 + d) bn = Nat.ofDigits 58 (ds ++ [bn]) := by
  induction ds with
  | nil => simp
  | cons d ds ih =>
    rw [List.reverse_cons, List.foldl_append, ih, List.cons_append, Nat.ofDigits_cons]
    simp only [List.foldl_cons, List.foldl_nil]
    ring

/-- The characters of a text that starts with as many ones as there are zero bytes. -/
theorem encodeBase58_eq (z : Nat) {bytes : List UInt8} (h : bytes.getLastD 1 ≠ 0) :
    encodeBase58 (List.replicate z 0 ++ bytes.reverse) =
      (List.replicate z 0 ++
        (Nat.digits 58 (Nat.ofDigits 256 (bytes.map UInt8.toNat))).reverse).map
          (fun d => pszBase58.getD d 0) := by
  have hzeroes : (List.replicate z (0 : UInt8) ++ bytes.reverse).takeWhile (· = 0) =
      List.replicate z 0 := by
    rw [List.takeWhile_append_of_pos (by simp)]
    obtain rfl | ⟨front, last, rfl⟩ := bytes.eq_nil_or_concat
    · simp
    · have hlast : last ≠ 0 := by simpa using h
      simp [hlast]
  unfold encodeBase58
  simp only [hzeroes, List.reverse_append, List.reverse_reverse, List.reverse_replicate, List.map_append,
    List.map_replicate, UInt8.toNat_zero, Nat.ofDigits_append_replicate_zero, List.map_reverse]

/-- Only the digit zero is written as `1`. -/
theorem pszBase58_get_eq_one {d : Nat} (h : d < 58) (heq : pszBase58.getD d 0 = pszBase58.getD 0 0) : d = 0 := by
  rw [← pszBase58_idxOf_get h, heq]
  rfl

/-- The ones at the start of a text are the zeroes, since a number has no zero in front. -/
theorem takeWhile_ones (z n : Nat) :
    ((List.replicate z 0 ++ (Nat.digits 58 n).reverse).map (fun d => pszBase58.getD d 0)).takeWhile
      (· = pszBase58.getD 0 0) = List.replicate z (pszBase58.getD 0 0) := by
  rw [List.map_append, List.map_replicate, List.takeWhile_append_of_pos (by simp)]
  -- a number is zero, or its highest digit is not
  obtain hnil | ⟨front, last, hconcat⟩ := (Nat.digits 58 n).eq_nil_or_concat
  · rw [hnil]
    simp
  · have hmem : last ∈ Nat.digits 58 n := by
      rw [hconcat, List.concat_eq_append]
      exact List.mem_concat_self
    have hne : last ≠ 0 := by
      have hlast := Nat.getLast_digit_ne_zero 58 (m := n) (by
        rintro rfl
        simp at hmem)
      simpa only [hconcat, List.concat_eq_append, List.getLast_concat] using hlast
    rw [hconcat, List.concat_eq_append, List.reverse_append, List.reverse_singleton, List.singleton_append,
      List.map_cons, List.takeWhile_cons_of_neg, List.append_nil]
    rw [decide_eq_true_eq]
    intro heq
    exact hne (pszBase58_get_eq_one (Nat.digits_lt_base (by decide) hmem) heq)

/-- Zeroes first, and then what does not start with a zero. -/
theorem exists_zeroes {α : Type} [DecidableEq α] [Zero α] {one : α} (hone : one ≠ 0) (vch : List α) :
    ∃ (z : Nat) (bytes : List α), bytes.getLastD one ≠ 0 ∧ vch = List.replicate z 0 ++ bytes.reverse := by
  induction vch with
  | nil => exact ⟨0, [], hone, rfl⟩
  | cons c cs ih =>
    by_cases hc : c = 0
    · obtain ⟨z, bytes, hlast, rfl⟩ := ih
      exact ⟨z + 1, bytes, hlast, by rw [hc, List.replicate_succ, List.cons_append]⟩
    · exact ⟨0, (c :: cs).reverse, by simpa using hc, by simp⟩

/-- What `EncodeBase58` writes, `DecodeBase58` reads. -/
theorem decodeBase58_encodeBase58 (vch : List UInt8) : decodeBase58 (encodeBase58 vch) = some vch := by
  obtain ⟨z, bytes, hlast, rfl⟩ := exists_zeroes (show (1 : UInt8) ≠ 0 by decide) vch
  rw [encodeBase58_eq z hlast]
  set bn := Nat.ofDigits 256 (bytes.map UInt8.toNat) with hbn
  set ds := List.replicate z 0 ++ (Nat.digits 58 bn).reverse with hds
  have hlt : ∀ d ∈ ds, d < 58 := by
    intro d hd
    obtain hd | hd := List.mem_append.mp hd
    · rw [List.eq_of_mem_replicate hd]
      decide
    · exact Nat.digits_lt_base (by decide) (List.mem_reverse.mp hd)
  have hmem : ∀ c ∈ ds.map (fun d => pszBase58.getD d 0), c ∈ pszBase58 := by
    intro c hc
    obtain ⟨d, hd, rfl⟩ := List.mem_map.mp hc
    exact pszBase58_get_mem (hlt d hd)
  -- there is no zero and no space in the text
  have hpsz : ((ds.map (fun d => pszBase58.getD d 0)).takeWhile (· ≠ 0)).dropWhile isSpace =
      ds.map (fun d => pszBase58.getD d 0) := by
    rw [List.takeWhile_eq_self_iff.mpr fun c hc => by simpa using ne_zero_of_mem_pszBase58 (hmem c hc)]
    refine List.dropWhile_eq_self_iff.mpr fun hpos => ?_
    rw [isSpace_of_mem_pszBase58 (hmem _ (List.getElem_mem hpos))]
    exact Bool.false_ne_true
  have hloop : decodeLoop 0 (ds.map (fun d => pszBase58.getD d 0)) = some bn := by
    have h := decodeLoop_digits ds hlt [] 0
    have hrev : ds = (Nat.digits 58 bn ++ List.replicate z 0).reverse := by
      rw [List.reverse_append, List.reverse_replicate]
    rw [List.append_nil, hrev, foldl_digits, Nat.ofDigits_append_zero, Nat.ofDigits_append_replicate_zero,
      Nat.ofDigits_digits] at h
    rw [hrev, h]
    rfl
  have hones : ((ds.map (fun d => pszBase58.getD d 0)).takeWhile (· = pszBase58.getD 0 0)).length = z := by
    rw [takeWhile_ones, List.length_replicate]
  unfold decodeBase58
  simp only [hpsz, hloop, hones, Option.map_some, hbn, trimSign_getvch hlast]

/-- The same with the checksum, for a hash that has at least four bytes. -/
theorem decodeBase58Check_encodeBase58Check {hash : List UInt8 → List UInt8}
    (hhash : ∀ vch, (hash vch).length = 32) (vchIn : List UInt8) :
    decodeBase58Check hash (encodeBase58Check hash vchIn) = some vchIn := by
  unfold decodeBase58Check encodeBase58Check
  rw [decodeBase58_encodeBase58]
  have hfour : ((hash vchIn).take 4).length = 4 := by
    rw [List.length_take, hhash]
    rfl
  have hlen : (vchIn ++ (hash vchIn).take 4).length - 4 = vchIn.length := by
    rw [List.length_append, hfour, Nat.add_sub_cancel]
  have hlong : ¬ (vchIn ++ (hash vchIn).take 4).length < 4 := by
    rw [List.length_append, hfour]
    omega
  simp only [if_neg hlong, hlen, List.take_left, List.drop_left, if_true]

/-- A text with its checksum is read back. -/
theorem setString_toText {hash : List UInt8 → List UInt8} (hhash : ∀ vch, (hash vch).length = 32)
    (data : CBase58Data) : CBase58Data.setString hash (data.toText hash) = some data := by
  unfold CBase58Data.setString CBase58Data.toText
  rw [decodeBase58Check_encodeBase58Check hhash]

end Base58

/-! ### Texts over the alphabet -/

/-- `getvch` of a number without a sign. -/
theorem getvch_eq (bn : ℕ) : getvch bn = CBigNum.getvch bn := by
  unfold getvch CBigNum.getvch
  simp only [Int.natAbs_natCast, if_neg (Int.not_lt.mpr (Int.natCast_nonneg bn))]

/-! ### Addresses -/

section Addresses

variable {P : Params} {address address' : CBase58Data}

end Addresses

end Peershares
