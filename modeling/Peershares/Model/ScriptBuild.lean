import Peershares.Framework.Loop
import Peershares.Model.BigNum
import Peershares.Model.Check

/-!
# Building scripts, and reading them by position

The functions `operator<<` of `CScript`, and `GetOp2` as it is written: an iterator is a position in the script,
and a read beyond the end is a result of its own (`none`), which `Model.Script` cannot express.
-/

open Framework

namespace Peershares

/-! ### `operator<<` -/

/-- What can be appended to a script. -/
inductive ScriptItem where
  | opcode (opcode : Int)
  | data (b : List UInt8)
  | int64 (n : Int)
  | uint64 (n : Nat)
  | bignum (bn : Int)
  | uint160 (b : { b : List UInt8 // b.length = 20 })
  | uint256 (b : { b : List UInt8 // b.length = 32 })

/-- What `push_int64` appends. -/
def pushInt64 (n : Int) : CScript :=
  if n = -1 ∨ (1 ≤ n ∧ n ≤ 16) then [UInt8.ofNat (n + 0x50).toNat] else pushData (CBigNum.getvch n)

/-- What `push_uint64` appends. -/
def pushUint64 (n : Nat) : CScript :=
  if 1 ≤ n ∧ n ≤ 16 then [UInt8.ofNat (n + 0x50)] else pushData (CBigNum.getvch n)

/-- `script << item`. -/
def CScript.append (script : CScript) : ScriptItem → Result CScript
  | .opcode opcode =>
    if opcode < 0 ∨ 0xff < opcode then .error (.exception "CScript::operator<<() : invalid opcode")
    else .ok (script ++ [UInt8.ofNat opcode.toNat])
  | .data b => .ok (script ++ pushData b)
  | .int64 n => .ok (script ++ pushInt64 n)
  | .uint64 n => .ok (script ++ pushUint64 n)
  | .bignum bn => .ok (script ++ pushData (CBigNum.getvch bn))
  | .uint160 b => .ok (script ++ 20 :: b.1)
  | .uint256 b => .ok (script ++ 32 :: b.1)

/-- `CScript() << item << .. << item`. -/
def CScript.build (items : List ScriptItem) : Result CScript := items.foldlM CScript.append []

/-! ### `GetOp2` by position -/

/-- The `n` bytes at a position; `none` when one of them is beyond the end. -/
def bytesAt (script : CScript) (pc n : Nat) : Option (List UInt8) :=
  if pc + n ≤ script.length then some ((script.drop pc).take n) else none

/-- What `GetOp2` returns, and where it leaves the iterator. -/
structure GetOpResult where
  fRet : Bool
  opcodeRet : UInt8
  vchRet : List UInt8
  pc : Nat
deriving DecidableEq, Repr

/-- `return false`. -/
def GetOpResult.fail (pc : Nat) : GetOpResult := ⟨false, OP_INVALIDOPCODE, [], pc⟩

/-- `if (end() - pc < n) return false;`, and a number of `n` bytes, the lowest first. -/
def sizeAt (script : CScript) (pc n : Nat) : Option (Option Nat × Nat) :=
  if script.length - pc < n then some (none, pc)
  else do
    let v ← bytesAt script pc n
    some (some (v.foldr (fun b nSize => b.toNat + 256 * nSize) 0), pc + n)

/-- The size of the operand. -/
def operandSizeAt (script : CScript) (opcode : UInt8) (pc : Nat) : Option (Option Nat × Nat) :=
  if opcode < OP_PUSHDATA1 then some (some opcode.toNat, pc)
  else if opcode = OP_PUSHDATA1 then sizeAt script pc 1
  else if opcode = OP_PUSHDATA2 then sizeAt script pc 2
  else sizeAt script pc 4

/-- `GetOp2`; `none` when it reads beyond the end. -/
def getOp2 (script : CScript) (pc : Nat) : Option GetOpResult :=
  if script.length ≤ pc then some (.fail pc)
  else do
    let opcode ← script[pc]?
    let pc := pc + 1
    if opcode ≤ OP_PUSHDATA4 then
      match ← operandSizeAt script opcode pc with
      | (none, pc) => some (.fail pc)
      | (some nSize, pc) =>
        if script.length - pc < nSize then some (.fail pc)
        else do
          let vch ← bytesAt script pc nSize
          some ⟨true, opcode, vch, pc + nSize⟩
    else some ⟨true, opcode, [], pc⟩

/-- A round of `while (GetOp(pc, opcode, vch))`: what was read so far and the position. The loop is left with what
was read and the position at which there was no operation. -/
def getOpRound (script : CScript) (s : List (UInt8 × List UInt8) × Nat) :
    (List (UInt8 × List UInt8) × Nat) ⊕ Option (List (UInt8 × List UInt8) × Nat) :=
  match getOp2 script s.2 with
  | none => .inr none
  | some r => if r.fRet then .inl (s.1 ++ [(r.opcodeRet, r.vchRet)], r.pc) else .inr (some s)

/-- `pc = begin(); while (GetOp(pc, opcode, vch)) ..`, up to a number of rounds. -/
def getOps (script : CScript) (fuel : Nat) : Option (Option (List (UInt8 × List UInt8) × Nat)) :=
  loop (getOpRound script) fuel ([], 0)

end Peershares
