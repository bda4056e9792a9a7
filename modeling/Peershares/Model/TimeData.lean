import Mathlib.Data.List.Sort
import Peershares.Model.Basic

/-!
# The network time

`CMedianFilter` of `util.h`, and `AddTimeData` and `GetAdjustedTime` of `util.cpp`. The values are `int64`:
a result that does not fit wraps around. What is printed and shown to the user is left out, but for
`strMiscWarning`, which `GetWarnings` reads.
-/

namespace Peershares

/-- `abs64`: the negation of the least `int64` wraps around to itself. -/
def abs64 (n : Int) : Int := if 0 ≤ n then n else (-n).bmod (2 ^ 64)

/-- `CMedianFilter<int64>`. -/
structure CMedianFilter where
  vValues : List Int
  vSorted : List Int
  nSize : Nat
deriving DecidableEq, Repr

namespace CMedianFilter

/-- `CMedianFilter(size, initial_value)`. -/
def new (size : Nat) (initialValue : Int) : CMedianFilter where
  vValues := [initialValue]
  vSorted := [initialValue]
  nSize := size

/-- `input`: a full filter forgets its first value. -/
def input (filter : CMedianFilter) (value : Int) : CMedianFilter :=
  let vValues :=
    (if filter.vValues.length = filter.nSize then filter.vValues.tail else filter.vValues) ++ [value]
  { filter with vValues, vSorted := vValues.insertionSort (· ≤ ·) }

/-- `median`. -/
def median (filter : CMedianFilter) : Result Int :=
  let size := filter.vSorted.length
  if size = 0 then .error .assertion
  else if size % 2 = 1 then .ok (filter.vSorted[size / 2]?.getD 0)
  else
    .ok (((filter.vSorted[size / 2 - 1]?.getD 0 + filter.vSorted[size / 2]?.getD 0).bmod (2 ^ 64)).tdiv 2)

/-- `median` of `CMedianFilter<int>`: the values are `int`, and their sum wraps around as one. -/
def medianInt (filter : CMedianFilter) : Result Int :=
  let size := (filter.vSorted.length : Int).bmod (2 ^ 32)
  if size ≤ 0 then .error .assertion
  else if size % 2 = 1 then .ok (filter.vSorted[size.toNat / 2]?.getD 0)
  else
    .ok (((filter.vSorted[size.toNat / 2 - 1]?.getD 0 + filter.vSorted[size.toNat / 2]?.getD 0).bmod
      (2 ^ 32)).tdiv 2)

/-- `sorted`. -/
def sorted (filter : CMedianFilter) : List Int := filter.vSorted

/-- `size`. -/
def size (filter : CMedianFilter) : Nat := filter.vValues.length

end CMedianFilter

/-- The globals and the static variables of `AddTimeData`, over the addresses `A`. -/
structure TimeData (A : Type) where
  setKnown : List A := []
  vTimeOffsets : CMedianFilter := .new 200 0
  nTimeOffset : Int := 0
  fDone : Bool := false
  strMiscWarning : String := ""
deriving DecidableEq

namespace TimeData

variable {A : Type} [DecidableEq A]

/-- `GetAdjustedTime`, when `GetTime()` is `nNow`. -/
def getAdjustedTime (s : TimeData A) (nNow : Int) : Int := (nNow + s.nTimeOffset).bmod (2 ^ 64)

/-- The check that tells the user about a clock nobody agrees with. -/
def warn (s : TimeData A) : TimeData A :=
  if s.fDone then s
  else if s.vTimeOffsets.vSorted.any (fun nOffset => nOffset ≠ 0 && abs64 nOffset < 5 * 60) then s
  else { s with
    fDone := true
    strMiscWarning := "Warning: Please check that your computer's date and time are correct.  " ++
      "If your clock is wrong Peershares will not work properly." }

/-- `AddTimeData(ip, nTime)`, when `GetTime()` is `nNow`. -/
def addTimeData (ip : A) (nTime nNow : Int) (s : TimeData A) : Result (TimeData A) :=
  let nOffsetSample := (nTime - nNow).bmod (2 ^ 64)
  -- Ignore duplicates
  if ip ∈ s.setKnown then .ok s
  else
    let s := { s with
      setKnown := ip :: s.setKnown
      vTimeOffsets := s.vTimeOffsets.input nOffsetSample }
    if 5 ≤ s.vTimeOffsets.size && s.vTimeOffsets.size % 2 = 1 then do
      let nMedian ← s.vTimeOffsets.median
      -- Only let other nodes change our time by so much
      if abs64 nMedian < 70 * 60 then pure { s with nTimeOffset := nMedian }
      else pure (warn { s with nTimeOffset := 0 })
    else .ok s

end TimeData

end Peershares
