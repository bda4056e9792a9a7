import Peershares.Model.Money

/-!
# Amounts in the units of the user

`BitcoinUnits` of `qt/bitcoinunits.cpp`: the units, and how an amount is written and read in one of them. A
`QString` is a text of Latin-1 characters here, and `toLongLong` is that of the locale `C`.
-/

namespace Peershares

namespace BitcoinUnits

/-! ### Units -/

def BTC : Int := 0
def mBTC : Int := 1
def uBTC : Int := 2

def availableUnits : List Int := [BTC, mBTC, uBTC]

def valid (unit : Int) : Bool := unit = BTC || unit = mBTC || unit = uBTC

/-- How many of the smallest unit one `unit` is. -/
def factor (unit : Int) : ℕ :=
  if unit = BTC then 1000000
  else if unit = mBTC then 1000
  else if unit = uBTC then 1
  else 1000000

def decimals (unit : Int) : ℕ :=
  if unit = BTC then 6
  else if unit = mBTC then 3
  else if unit = uBTC then 0
  else 0

/-! ### Writing -/

/-- `for (int i = remainder_str.size()-1; i>=2 && (remainder_str.at(i) == '0'); --i)`: how often, on the text from its
end. -/
def trimLoop : List UInt8 → ℕ
  | c :: c₁ :: c₂ :: str => if c = 48 then trimLoop (c₁ :: c₂ :: str) + 1 else 0
  | _ => 0

/-- `format`. -/
def format (unit n : Int) (fPlus : Bool) : List UInt8 :=
  if !valid unit then [] -- Refuse to format invalid unit
  else
    let n_abs := n.natAbs
    let quotient := n_abs / factor unit
    let remainder := n_abs % factor unit
    let quotient_str := decimal quotient
    let remainder_str := decimalPadded (decimals unit) remainder
    let remainder_str := remainder_str.take (remainder_str.length - trimLoop remainder_str.reverse)
    let quotient_str :=
      if n < 0 then 45 :: quotient_str
      else if fPlus ∧ 0 < n then 43 :: quotient_str
      else quotient_str
    quotient_str ++ [46] ++ remainder_str

/-! ### Reading -/

/-- `QChar::isSpace`. -/
def isSpace (c : UInt8) : Bool := c = 32 || (9 ≤ c && c ≤ 13) || c = 0x85 || c = 0xa0

/-- The digits behind the sign, in the range of `qint64`. -/
def readDigits (negative : Bool) (digits : List UInt8) : Option Int :=
  if digits = [] ∨ !digits.all isDigit then none
  else
    let n : Int := (digits.foldl (fun n c => 10 * n + (c.toNat - 48)) 0 : ℕ)
    let n := if negative then -n else n
    if -2 ^ 63 ≤ n ∧ n < 2 ^ 63 then some n else none

/-- `QString::toLongLong`; `none` when it is not ok. -/
def toLongLong (str : List UInt8) : Option Int :=
  let str := ((str.dropWhile isSpace).reverse.dropWhile isSpace).reverse
  match str with
  | 45 :: digits => readDigits true digits
  | 43 :: digits => readDigits false digits
  | digits => readDigits false digits

/-- The text to read: the digits of both sides of the point, those behind it padded to `num_decimals`. `none` when the
text is refused. -/
def joinParts (num_decimals : ℕ) (value : List UInt8) : Option (List UInt8) :=
  match value.splitOn 46 with
  | [] => none
  | [whole] => some (whole ++ List.replicate num_decimals 48)
  | [whole, decimals] =>
    if num_decimals < decimals.length then none -- Exceeds max precision
    else some (whole ++ (decimals ++ List.replicate (num_decimals - decimals.length) 48))
  | _ => none -- More than one dot

/-- `parse`, with what it writes to `val_out`; `none` when it returns `false`. -/
def parse (unit : Int) (value : List UInt8) : Option Int :=
  if !valid unit ∨ value = [] then none -- Refuse to parse invalid unit or empty string
  else
    match joinParts (decimals unit) value with
    | none => none
    | some str =>
      if 18 < str.length then none -- Longer numbers will exceed 63 bits
      else toLongLong str

end BitcoinUnits

end Peershares
