import Mathlib.Data.Nat.Digits.Defs
import Peershares.Model.Basic

/-!
# Numbers on the stack

`CBigNum::getvch` and `setvch`, and the casts of `script.cpp`. A number is stored with its lowest byte
first; the highest bit of the last byte is the sign.
-/

namespace Peershares

/-- `valtype`. -/
abbrev Valtype := List UInt8

namespace CBigNum

/-- `getvch`: the shortest form, with a byte more when the highest bit is taken. -/
def getvch (bn : Int) : Valtype :=
  let vch := (Nat.digits 256 bn.natAbs).map UInt8.ofNat
  if 0x80 ≤ vch.getLastD 0 then vch ++ [if bn < 0 then 0x80 else 0]
  else if bn < 0 then vch.dropLast ++ [vch.getLastD 0 + 0x80]
  else vch

/-- `setvch`. -/
def setvch (vch : Valtype) : Int :=
  let magnitude (v : Valtype) : Int := Nat.ofDigits 256 (v.map UInt8.toNat)
  if 0x80 ≤ vch.getLastD 0 then -magnitude (vch.dropLast ++ [vch.getLastD 0 - 0x80]) else magnitude vch

/-- `getint`: the nearest `int`. -/
def getint (bn : Int) : Int := max (-2 ^ 31) (min (2 ^ 31 - 1) bn)

end CBigNum

/-- `nMaxNumSize`. -/
def nMaxNumSize : Nat := 4

/-- `CastToBigNum`; `none` when it throws "overflow". -/
def castToBigNum (vch : Valtype) : Option Int := if nMaxNumSize < vch.length then none else some (CBigNum.setvch vch)

/-- `CastToBool`: some byte is not zero, and it is not only the sign of a negative zero. -/
def castToBool : Valtype → Bool
  | [] => false
  | [b] => b ≠ 0 && b ≠ 0x80
  | b :: vch => b ≠ 0 || castToBool vch

def vchFalse : Valtype := []
def vchTrue : Valtype := [1]

end Peershares
