import Peershares.Model.BigNum

/-!
# Bytes of numbers by way of OpenSSL

`CBigNum::setvch` and `CBigNum::getvch` go through the MPI format of OpenSSL: the size in four bytes, and the bytes of
the number, both with the highest byte first. The highest bit of the number is the sign, so a number that has it set
itself gets a zero in front. What OpenSSL does with other bytes is not used.
-/

namespace Peershares

/-- `BN_bn2mpi(this, ..)`, and `BN_mpi2bn(d, n, ..)`, which looks at the first `n` bytes; `none` stands for `NULL`, and
leaves the number as it is. -/
structure BigNumLib where
  bn2mpi : Int → List UInt8
  mpi2bn : List UInt8 → Int → Option Int

namespace BigNumLib

/-- A size in four bytes. -/
def sizeBytes (nSize : Nat) : List UInt8 :=
  [UInt8.ofNat (nSize / 2 ^ 24), UInt8.ofNat (nSize / 2 ^ 16), UInt8.ofNat (nSize / 2 ^ 8), UInt8.ofNat nSize]

/-- The number of the bytes behind the size. -/
def mpiValue : List UInt8 → Int
  | [] => 0
  | b :: rest =>
    let magnitude (vch : List UInt8) : Int := Nat.ofDigits 256 (vch.reverse.map UInt8.toNat)
    if 0x80 ≤ b then -magnitude ((b - 0x80) :: rest) else magnitude (b :: rest)

/-- The bytes of a number, to stand behind the size. -/
def mpiBytes (bn : Int) : List UInt8 :=
  let digits := ((Nat.digits 256 bn.natAbs).map UInt8.ofNat).reverse
  match (if 0x80 ≤ digits.headD 0 then 0 :: digits else digits) with
  | [] => []
  | b :: rest => (if bn < 0 then b + 0x80 else b) :: rest

/-- The format, as OpenSSL documents it. A size is an `int`. -/
structure Documented (lib : BigNumLib) : Prop where
  reads : ∀ vch rest : List UInt8, vch.length + 4 < 2 ^ 31 →
    lib.mpi2bn (sizeBytes vch.length ++ vch ++ rest) (vch.length + 4) = some (mpiValue vch)
  writes : ∀ bn, (mpiBytes bn).length + 4 < 2 ^ 31 →
    lib.bn2mpi bn = sizeBytes (mpiBytes bn).length ++ mpiBytes bn

/-- `setvch` of the number `this`: `nSize` is an `unsigned int`, and `BN_mpi2bn` takes an `int`. -/
def setvch (lib : BigNumLib) (this : Int) (vch : Valtype) : Int :=
  let nSize := vch.length % 2 ^ 32
  let vch2 := sizeBytes nSize ++ vch.reverse
  (lib.mpi2bn vch2 ((vch2.length : Int).bmod (2 ^ 32))).getD this

/-- `getvch`. -/
def getvch (lib : BigNumLib) (bn : Int) : Valtype :=
  let vch := lib.bn2mpi bn
  if vch.length ≤ 4 then [] else (vch.drop 4).reverse

/-- `CBigNum(vch)`, which starts with zero. -/
def ofVch (lib : BigNumLib) (vch : Valtype) : Int := lib.setvch 0 vch

/-- Reads and writes what is documented, and refuses the rest. -/
def format : BigNumLib where
  bn2mpi bn := sizeBytes (mpiBytes bn).length ++ mpiBytes bn
  mpi2bn d n :=
    if n < 4 ∨ d.take 4 ≠ sizeBytes (n - 4).toNat then none else some (mpiValue ((d.take n.toNat).drop 4))

end BigNumLib

end Peershares
