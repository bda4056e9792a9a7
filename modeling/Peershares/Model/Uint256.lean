import Mathlib.Data.Nat.Digits.Defs
import Peershares.Framework.Codec
import Peershares.Model.Base58

/-!
# Wide integers

`base_uint` of `uint256.h`: a number of `WIDTH` words with 32 bits, the lowest first. A loop over the words that
goes on to the next higher word is a recursion on the list of words. The bitwise operators other than `~` are
left out.

The bytes of the words are in the order of the machines the program runs on, the lowest first.
-/

namespace Peershares

/-- `base_uint<BITS>`, where `BITS` is `32 * WIDTH`. -/
structure BaseUint (WIDTH : ℕ) where
  pn : List UInt32
  length_pn : pn.length = WIDTH
deriving DecidableEq

namespace BaseUint

variable {WIDTH : ℕ}

/-! ### Arithmetic -/

/-- The loop of `operator+=`. -/
def addLoop : UInt64 → List UInt32 → List UInt32 → List UInt32
  | carry, x :: xs, y :: ys =>
    let n := carry + x.toUInt64 + y.toUInt64
    (n &&& 0xffffffff).toUInt32 :: addLoop (n >>> 32) xs ys
  | _, _, _ => []

/-- The loop of `operator++`: `while (++pn[i] == 0 && i < WIDTH-1)`. -/
def incLoop : List UInt32 → List UInt32
  | [] => []
  | x :: xs => if x + 1 = 0 then (x + 1) :: incLoop xs else (x + 1) :: xs

/-- The loop of `operator--`: `while (--pn[i] == -1 && i < WIDTH-1)`. -/
def decLoop : List UInt32 → List UInt32
  | [] => []
  | x :: xs => if x - 1 = 0xffffffff then (x - 1) :: decLoop xs else (x - 1) :: xs

/-- The loop of `operator+=` writes every word. -/
theorem length_addLoop (carry : UInt64) {xs ys : List UInt32} (h : xs.length = ys.length) :
    (addLoop carry xs ys).length = xs.length := by
  induction xs generalizing carry ys with
  | nil => cases ys <;> rfl
  | cons x xs ih =>
    cases ys with
    | nil => cases h
    | cons y ys => exact congrArg (· + 1) (ih _ (Nat.succ.inj h))

/-- And that of `operator++`. -/
theorem length_incLoop (xs : List UInt32) : (incLoop xs).length = xs.length := by
  induction xs with
  | nil => rfl
  | cons x xs ih =>
    rw [incLoop]
    split_ifs
    · exact congrArg (· + 1) ih
    · rfl

/-- And that of `operator--`. -/
theorem length_decLoop (xs : List UInt32) : (decLoop xs).length = xs.length := by
  induction xs with
  | nil => rfl
  | cons x xs ih =>
    rw [decLoop]
    split_ifs
    · exact congrArg (· + 1) ih
    · rfl

/-- `operator+=`. -/
def add (a b : BaseUint WIDTH) : BaseUint WIDTH where
  pn := addLoop 0 a.pn b.pn
  length_pn := (length_addLoop 0 (a.length_pn.trans b.length_pn.symm)).trans a.length_pn

/-- `operator++`. -/
def inc (a : BaseUint WIDTH) : BaseUint WIDTH where
  pn := incLoop a.pn
  length_pn := (length_incLoop a.pn).trans a.length_pn

/-- `operator--`. -/
def dec (a : BaseUint WIDTH) : BaseUint WIDTH where
  pn := decLoop a.pn
  length_pn := (length_decLoop a.pn).trans a.length_pn

/-- `operator~`. -/
def not (a : BaseUint WIDTH) : BaseUint WIDTH where
  pn := a.pn.map (~~~ ·)
  length_pn := (List.length_map _).trans a.length_pn

/-- `operator-`, of one number. -/
def neg (a : BaseUint WIDTH) : BaseUint WIDTH := a.not.inc

/-- `operator-=`. -/
def sub (a b : BaseUint WIDTH) : BaseUint WIDTH := a.add b.neg

/-- `operator=(uint64 b)`; there are at least two words. -/
def ofUInt64 (b : UInt64) : BaseUint (WIDTH + 2) where
  pn := b.toUInt32 :: (b >>> 32).toUInt32 :: List.replicate WIDTH 0
  length_pn := by simp

/-- `operator+=(uint64 b64)`. -/
def addUInt64 (a : BaseUint (WIDTH + 2)) (b64 : UInt64) : BaseUint (WIDTH + 2) := a.add (ofUInt64 b64)

/-- `operator-=(uint64 b64)`. -/
def subUInt64 (a : BaseUint (WIDTH + 2)) (b64 : UInt64) : BaseUint (WIDTH + 2) := a.add (neg (ofUInt64 b64))

/-! ### Shifts -/

/-- `pn[i] |= x`. -/
def orAt (pn : List UInt32) (i : ℕ) (x : UInt32) : List UInt32 := pn.modify i (· ||| x)

/-- One word is changed. -/
theorem length_orAt (pn : List UInt32) (i : ℕ) (x : UInt32) : (orAt pn i x).length = pn.length :=
  List.length_modify _ _ _

/-- The body of the loop of `operator<<=`. -/
def shiftLeftStep (a : List UInt32) (k shift : ℕ) (pn : List UInt32) (i : ℕ) : List UInt32 :=
  let pn := if i + k + 1 < a.length ∧ shift ≠ 0 then
      orAt pn (i + k + 1) (a.getD i 0 >>> UInt32.ofNat (32 - shift))
    else pn
  if i + k < a.length then orAt pn (i + k) (a.getD i 0 <<< UInt32.ofNat shift) else pn

/-- The body of the loop of `operator>>=`. -/
def shiftRightStep (a : List UInt32) (k shift : ℕ) (pn : List UInt32) (i : ℕ) : List UInt32 :=
  let pn := if k + 1 ≤ i ∧ shift ≠ 0 then
      orAt pn (i - k - 1) (a.getD i 0 <<< UInt32.ofNat (32 - shift))
    else pn
  if k ≤ i then orAt pn (i - k) (a.getD i 0 >>> UInt32.ofNat shift) else pn

/-- So the length stays in a loop of such changes. -/
theorem length_foldl_step {step : List UInt32 → ℕ → List UInt32} (h : ∀ pn i, (step pn i).length = pn.length)
    (is : List ℕ) (pn : List UInt32) : (is.foldl step pn).length = pn.length := by
  induction is generalizing pn with
  | nil => rfl
  | cons i is ih => rw [List.foldl_cons, ih, h]

/-- One step of `operator<<=`. -/
theorem length_shiftLeftStep (a : List UInt32) (k shift : ℕ) (pn : List UInt32) (i : ℕ) :
    (shiftLeftStep a k shift pn i).length = pn.length := by
  unfold shiftLeftStep
  split_ifs <;> simp only [length_orAt]

/-- One step of `operator>>=`. -/
theorem length_shiftRightStep (a : List UInt32) (k shift : ℕ) (pn : List UInt32) (i : ℕ) :
    (shiftRightStep a k shift pn i).length = pn.length := by
  unfold shiftRightStep
  split_ifs <;> simp only [length_orAt]

/-- `operator<<=`. -/
def shiftLeft (a : BaseUint WIDTH) (shift : ℕ) : BaseUint WIDTH where
  pn := (List.range WIDTH).foldl (shiftLeftStep a.pn (shift / 32) (shift % 32)) (List.replicate WIDTH 0)
  length_pn := (length_foldl_step (length_shiftLeftStep _ _ _) _ _).trans List.length_replicate

/-- `operator>>=`. -/
def shiftRight (a : BaseUint WIDTH) (shift : ℕ) : BaseUint WIDTH where
  pn := (List.range WIDTH).foldl (shiftRightStep a.pn (shift / 32) (shift % 32)) (List.replicate WIDTH 0)
  length_pn := (length_foldl_step (length_shiftRightStep _ _ _) _ _).trans List.length_replicate

/-! ### Comparisons -/

/-- The loop of a comparison, on the words from the highest: it ends at the first that differ. -/
def compareLoop (less : UInt32 → UInt32 → Bool) (equal : Bool) : List UInt32 → List UInt32 → Bool
  | x :: xs, y :: ys => if less x y then true else if less y x then false else compareLoop less equal xs ys
  | _, _ => equal

def lt (a b : BaseUint WIDTH) : Bool := compareLoop (fun x y => x < y) false a.pn.reverse b.pn.reverse
def le (a b : BaseUint WIDTH) : Bool := compareLoop (fun x y => x < y) true a.pn.reverse b.pn.reverse
def gt (a b : BaseUint WIDTH) : Bool := compareLoop (fun x y => x > y) false a.pn.reverse b.pn.reverse
def ge (a b : BaseUint WIDTH) : Bool := compareLoop (fun x y => x > y) true a.pn.reverse b.pn.reverse

/-- The loop of `operator==`. -/
def equalLoop : List UInt32 → List UInt32 → Bool
  | x :: xs, y :: ys => if x ≠ y then false else equalLoop xs ys
  | _, _ => true

def eq (a b : BaseUint WIDTH) : Bool := equalLoop a.pn b.pn
def ne (a b : BaseUint WIDTH) : Bool := !a.eq b

/-- `operator==(a, uint64 b)`. -/
def eqUInt64 (a : BaseUint WIDTH) (b : UInt64) : Bool :=
  if a.pn.getD 0 0 ≠ b.toUInt32 then false
  else if a.pn.getD 1 0 ≠ (b >>> 32).toUInt32 then false
  else (a.pn.drop 2).all (· = 0)

/-- `operator!=(a, uint64 b)`. -/
def neUInt64 (a : BaseUint WIDTH) (b : UInt64) : Bool := !a.eqUInt64 b

/-! ### Text -/

/-- The bytes of words. -/
def bytesOf (pn : List UInt32) : List UInt8 := pn.flatMap fun x => Framework.toLeBytes 4 x.toNat

/-- A number of words with these bytes. -/
def wordsOf : ℕ → List UInt8 → List UInt32
  | 0, _ => []
  | n + 1, bytes => UInt32.ofNat (Framework.ofLeBytes (bytes.take 4)) :: wordsOf n (bytes.drop 4)

/-- The words of some bytes. -/
theorem length_wordsOf (n : ℕ) (bytes : List UInt8) : (wordsOf n bytes).length = n := by
  induction n generalizing bytes with
  | zero => rfl
  | succ n ih => exact congrArg (· + 1) (ih _)

/-- A digit of `%x`. -/
def hexDigit (n : UInt8) : UInt8 := if n < 10 then 48 + n else 87 + n

/-- `GetHex`: `%02x` of each byte, the highest first. -/
def getHex (a : BaseUint WIDTH) : List UInt8 :=
  (bytesOf a.pn).reverse.flatMap fun b => [hexDigit (b / 16), hexDigit (b % 16)]

/-- `phexdigit`: zero for what is not a digit. -/
def phexdigit (c : UInt8) : UInt8 :=
  if 48 ≤ c ∧ c ≤ 57 then c - 48
  else if 65 ≤ c ∧ c ≤ 70 then c - 55
  else if 97 ≤ c ∧ c ≤ 102 then c - 87
  else 0

/-- The loop that writes the bytes: the digits from the last, and how many bytes there still are. -/
def setHexLoop : List UInt8 → ℕ → List UInt8
  | _, 0 => []
  | [], n => List.replicate n 0
  | [d], n + 1 => phexdigit d :: List.replicate n 0
  | d :: e :: ds, n + 1 => (phexdigit d ||| phexdigit e <<< 4) :: setHexLoop ds n

/-- `SetHex`. A `char*` ends at the first zero. -/
def setHex (psz : List UInt8) : BaseUint WIDTH :=
  let psz := (psz.takeWhile (· ≠ 0)).dropWhile isSpace
  let psz := if psz.getD 0 0 = 48 ∧ (psz.getD 1 0 = 120 ∨ psz.getD 1 0 = 88) then psz.drop 2 else psz
  let digits := psz.takeWhile fun c => phexdigit c ≠ 0 ∨ c = 48
  { pn := wordsOf WIDTH (setHexLoop digits.reverse (4 * WIDTH))
    length_pn := length_wordsOf _ _ }

end BaseUint

end Peershares
