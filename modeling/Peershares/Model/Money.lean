import Mathlib.Data.Nat.Digits.Defs
import Peershares.Model.Base58

/-!
# Amounts as text

`FormatMoney` and `ParseMoney` of `util.cpp`. Characters are ASCII codes. `ParseMoney` computes with `int64`;
`FormatMoney` takes the absolute value of an `int64`, which the least one does not have.
-/

namespace Peershares

/-- `isdigit`. -/
def isDigit (c : UInt8) : Bool := 48 ≤ c && c ≤ 57

/-- `%lld` of a number that is not negative. -/
def decimal (n : ℕ) : List UInt8 :=
  if n = 0 then [48] else (Nat.digits 10 n).reverse.map fun d => 48 + UInt8.ofNat d

/-- `%0nlld`. -/
def decimalPadded (nWidth n : ℕ) : List UInt8 := List.replicate (nWidth - (decimal n).length) 48 ++ decimal n

/-- `for (int i = str.size()-1; (str[i] == '0' && isdigit(str[i-2])); --i)`: how often, on the text from its end. -/
def trimLoop : List UInt8 → ℕ
  | c :: c₁ :: c₂ :: str => if c = 48 ∧ isDigit c₂ then trimLoop (c₁ :: c₂ :: str) + 1 else 0
  | _ => 0

/-- `FormatMoney`. -/
def formatMoney (n : Int) (fPlus : Bool) : List UInt8 :=
  let n_abs := n.natAbs
  let quotient := n_abs / COIN.toNat
  let remainder := n_abs % COIN.toNat
  let str := decimal quotient ++ 46 :: decimalPadded 6 remainder
  let nTrim := trimLoop str.reverse
  let str := str.take (str.length - nTrim)
  if n < 0 then 45 :: str
  else if fPlus ∧ 0 < n then 43 :: str
  else str

/-- `atoi64` of digits: `strtoll` stops at the greatest `int64`. -/
def atoi64 (str : List UInt8) : Int64 :=
  Int64.ofNat (min (2 ^ 63 - 1) (str.foldl (fun n c => 10 * n + (c.toNat - 48)) 0))

/-- The loop over the digits behind the point: the units, and the text behind them. -/
def readUnits : List UInt8 → Int64 → Int64 → Int64 × List UInt8
  | c :: p, nUnits, nMult =>
    if isDigit c ∧ 0 < nMult then readUnits p (nUnits + nMult * Int64.ofNat (c.toNat - 48)) (nMult / 10)
    else (nUnits, c :: p)
  | [], nUnits, _ => (nUnits, [])

/-- The loop over the digits in front of the point: `strWhole`, the units, and the text behind them. `none` when the
function returns `false`. -/
def readWhole : List UInt8 → List UInt8 → Option (List UInt8 × Int64 × List UInt8)
  | [], strWhole => some (strWhole, 0, [])
  | c :: p, strWhole =>
    if c = 46 then
      let (nUnits, p) := readUnits p 0 (Int64.ofInt CENT * 10)
      some (strWhole, nUnits, p)
    else if isSpace c then some (strWhole, 0, c :: p)
    else if !isDigit c then none
    else readWhole p (strWhole ++ [c])

/-- `ParseMoney` of a `char*`, without the zero at its end; `none` when it returns `false`. -/
def parseMoneyPsz (pszIn : List UInt8) : Option Int64 :=
  match readWhole (pszIn.dropWhile isSpace) [] with
  | none => none
  | some (strWhole, nUnits, p) =>
    if !p.all isSpace then none
    -- "guard against 63 bit overflow"
    else if 10 < strWhole.length then none
    else if nUnits < 0 ∨ Int64.ofInt COIN < nUnits then none
    else some (atoi64 strWhole * Int64.ofInt COIN + nUnits)

/-- `ParseMoney` of a `std::string`: a `char*` ends at the first zero. -/
def parseMoney (str : List UInt8) : Option Int64 := parseMoneyPsz (str.takeWhile (· ≠ 0))

end Peershares
