import Mathlib.Tactic.NormNum
import Peershares.Framework.Codec
import Peershares.Model.Basic
import Peershares.Model.Net

/-!
# Serialized values

The parts of `serialize.h` that the wallet file needs: compact sizes, strings and numbers. Numbers have
the lowest byte first, as on the machines the program runs on. A read beyond the end of a stream throws.
-/

open Framework

namespace Peershares

def CLIENT_VERSION : Int := 60300

/-- The failure of `CDataStream::read`. -/
def endOfData : String := "CDataStream::read() : end of data"

/-- `WriteCompactSize`. -/
def writeCompactSize (nSize : Nat) : List UInt8 :=
  if nSize < 253 then toLeBytes 1 nSize
  else if nSize ≤ 65535 then toLeBytes 1 253 ++ toLeBytes 2 nSize
  else if nSize ≤ UINT_MAX then toLeBytes 1 254 ++ toLeBytes 4 nSize
  else toLeBytes 1 255 ++ toLeBytes 8 nSize

/-- `ReadCompactSize`, before the test of the size. -/
def readSize (s : List UInt8) : Except String (Nat × List UInt8) := do
  let (chSize, s) ← (Codec.uint endOfData 1).dec s
  if chSize < 253 then pure (chSize, s)
  else if chSize = 253 then (Codec.uint endOfData 2).dec s
  else if chSize = 254 then (Codec.uint endOfData 4).dec s
  else (Codec.uint endOfData 8).dec s

/-- `ReadCompactSize`. -/
def readCompactSize (s : List UInt8) : Except String (Nat × List UInt8) := do
  let (nSizeRet, s) ← readSize s
  if nSizeRet > MAX_SIZE then throw "ReadCompactSize() : size too large"
  else pure (nSizeRet, s)

/-- A size behind its marker. -/
theorem readSize_marker {w n m : ℕ} (rest : List UInt8) (hn : n < 256 ^ w)
    (hm : (m = 253 ∧ w = 2) ∨ (m = 254 ∧ w = 4) ∨ (m = 255 ∧ w = 8)) :
    readSize (toLeBytes 1 m ++ toLeBytes w n ++ rest) = .ok (n, rest) := by
  have hmark : ∀ s, (Codec.uint endOfData 1).dec (toLeBytes 1 m ++ s) = .ok (m, s) :=
    fun s => (Codec.uint endOfData 1).dec_enc s (show m < 256 ^ 1 by omega)
  have hval : (Codec.uint endOfData w).dec (toLeBytes w n ++ rest) = .ok (n, rest) :=
    (Codec.uint endOfData w).dec_enc rest hn
  rw [readSize, List.append_assoc, hmark]
  rcases hm with ⟨rfl, rfl⟩ | ⟨rfl, rfl⟩ | ⟨rfl, rfl⟩
  · exact hval
  · exact hval
  · exact hval

/-- A size is read back. -/
theorem readSize_writeCompactSize {n : ℕ} (h : n ≤ MAX_SIZE) (rest : List UInt8) :
    readSize (writeCompactSize n ++ rest) = .ok (n, rest) := by
  have hmax : n ≤ 33554432 := h
  unfold writeCompactSize
  split_ifs with h₁ h₂ h₃
  · rw [readSize, show toLeBytes 1 n = (Codec.uint endOfData 1).enc n from rfl,
      Codec.dec_enc _ rest (show n < 256 ^ 1 by omega)]
    exact if_pos h₁
  · exact readSize_marker rest (by norm_num; omega) (.inl ⟨rfl, rfl⟩)
  · exact readSize_marker rest (by norm_num; omega) (.inr (.inl ⟨rfl, rfl⟩))
  · exact readSize_marker rest (by norm_num; omega) (.inr (.inr ⟨rfl, rfl⟩))

/-- Sizes. -/
def compactSize : Codec Nat where
  enc := writeCompactSize
  dec := readCompactSize
  Fits n := n ≤ MAX_SIZE
  dec_enc := by
    intro n rest h
    rw [readCompactSize, readSize_writeCompactSize h]
    exact if_neg (not_lt.mpr h)

/-- `std::string` and `std::vector<unsigned char>`. -/
def string : Codec (List UInt8) := Codec.bytes endOfData compactSize

/-- `int`. -/
def int32 : Codec Int := Codec.int endOfData 4

/-- `int64`. -/
def int64 : Codec Int := Codec.int endOfData 8

/-- `uint64`. -/
def uint64 : Codec Nat := Codec.uint endOfData 8

/-- `ss >> value`. -/
def unserialize {α : Type} (c : Codec α) (s : List UInt8) : Result (α × List UInt8) :=
  (c.dec s).mapError .exception

/-- What was written is read back. -/
theorem unserialize_enc {α : Type} (c : Codec α) {a : α} (h : c.Fits a) (rest : List UInt8) :
    unserialize c (c.enc a ++ rest) = .ok (a, rest) := by
  rw [unserialize, c.dec_enc rest h]
  rfl

/-- And nothing is left of it. -/
theorem unserialize_enc_end {α : Type} (c : Codec α) {a : α} (h : c.Fits a) :
    unserialize c (c.enc a) = .ok (a, []) := by
  have hread := unserialize_enc c h []
  rwa [List.append_nil] at hread

/-- A row of bytes that is not too long. -/
theorem string_fits {v : List UInt8} : string.Fits v ↔ v.length ≤ MAX_SIZE := Iff.rfl

/-- A number of 64 bits. -/
theorem uint64_fits {n : ℕ} : uint64.Fits n ↔ n < 2 ^ 64 := by
  show n < 256 ^ 8 ↔ _
  norm_num

/-- A signed number of 64 bits. -/
theorem int64_fits {i : ℤ} : int64.Fits i ↔ -2 ^ 63 ≤ i ∧ i < 2 ^ 63 := by
  show (-(2 ^ (8 * 8) : ℤ) ≤ 2 * i ∧ 2 * i < 2 ^ (8 * 8)) ↔ _
  norm_num
  omega

end Peershares
