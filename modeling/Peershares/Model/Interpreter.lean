import Peershares.Framework.Command
import Peershares.Model.BigNum
import Peershares.Model.Check
import Peershares.Model.Script

/-!
# The script interpreter

`EvalScript` and `VerifyScript` of `script.cpp`. `EvalScript` works on local variables and on the caller's
stack and can return in the middle, so it is a command; every way it can end early is a failure of its own.

A stack is a list with the top in front, so `stacktop(-i)` is the element at position `i - 1`. Accesses
outside of the stack, which `vector::at` or an invalid iterator would turn up, are failures
(`EvalFailure.outOfRange`). The opcodes that are disabled before the switch (`OP_CAT`, `OP_MUL`, ..) have no
case in it here: the function has returned by then.

`nCheckSig` is not in the source: it counts the calls of `CheckSig`.
-/

open Framework

namespace Peershares

/-! ### More opcodes -/

def OP_1NEGATE : UInt8 := 0x4f
def OP_NOP : UInt8 := 0x61
def OP_IF : UInt8 := 0x63
def OP_NOTIF : UInt8 := 0x64
def OP_ELSE : UInt8 := 0x67
def OP_ENDIF : UInt8 := 0x68
def OP_VERIFY : UInt8 := 0x69
def OP_TOALTSTACK : UInt8 := 0x6b
def OP_FROMALTSTACK : UInt8 := 0x6c
def OP_2DROP : UInt8 := 0x6d
def OP_2DUP : UInt8 := 0x6e
def OP_3DUP : UInt8 := 0x6f
def OP_2OVER : UInt8 := 0x70
def OP_2ROT : UInt8 := 0x71
def OP_2SWAP : UInt8 := 0x72
def OP_IFDUP : UInt8 := 0x73
def OP_DEPTH : UInt8 := 0x74
def OP_DROP : UInt8 := 0x75
def OP_NIP : UInt8 := 0x77
def OP_OVER : UInt8 := 0x78
def OP_PICK : UInt8 := 0x79
def OP_ROLL : UInt8 := 0x7a
def OP_ROT : UInt8 := 0x7b
def OP_SWAP : UInt8 := 0x7c
def OP_TUCK : UInt8 := 0x7d
def OP_CAT : UInt8 := 0x7e
def OP_SUBSTR : UInt8 := 0x7f
def OP_LEFT : UInt8 := 0x80
def OP_RIGHT : UInt8 := 0x81
def OP_SIZE : UInt8 := 0x82
def OP_INVERT : UInt8 := 0x83
def OP_AND : UInt8 := 0x84
def OP_OR : UInt8 := 0x85
def OP_XOR : UInt8 := 0x86
def OP_1ADD : UInt8 := 0x8b
def OP_1SUB : UInt8 := 0x8c
def OP_2MUL : UInt8 := 0x8d
def OP_2DIV : UInt8 := 0x8e
def OP_NEGATE : UInt8 := 0x8f
def OP_ABS : UInt8 := 0x90
def OP_NOT : UInt8 := 0x91
def OP_0NOTEQUAL : UInt8 := 0x92
def OP_ADD : UInt8 := 0x93
def OP_SUB : UInt8 := 0x94
def OP_MUL : UInt8 := 0x95
def OP_DIV : UInt8 := 0x96
def OP_MOD : UInt8 := 0x97
def OP_LSHIFT : UInt8 := 0x98
def OP_RSHIFT : UInt8 := 0x99
def OP_BOOLAND : UInt8 := 0x9a
def OP_BOOLOR : UInt8 := 0x9b
def OP_NUMEQUAL : UInt8 := 0x9c
def OP_NUMEQUALVERIFY : UInt8 := 0x9d
def OP_NUMNOTEQUAL : UInt8 := 0x9e
def OP_LESSTHAN : UInt8 := 0x9f
def OP_GREATERTHAN : UInt8 := 0xa0
def OP_LESSTHANOREQUAL : UInt8 := 0xa1
def OP_GREATERTHANOREQUAL : UInt8 := 0xa2
def OP_MIN : UInt8 := 0xa3
def OP_MAX : UInt8 := 0xa4
def OP_WITHIN : UInt8 := 0xa5
def OP_RIPEMD160 : UInt8 := 0xa6
def OP_SHA1 : UInt8 := 0xa7
def OP_SHA256 : UInt8 := 0xa8
def OP_HASH256 : UInt8 := 0xaa
def OP_CODESEPARATOR : UInt8 := 0xab
def OP_NOP1 : UInt8 := 0xb0
def OP_NOP10 : UInt8 := 0xb9

/-- The opcodes that `EvalScript` refuses, executed or not. -/
def disabledOpcodes : List UInt8 :=
  [OP_CAT, OP_SUBSTR, OP_LEFT, OP_RIGHT, OP_INVERT, OP_AND, OP_OR, OP_XOR, OP_2MUL, OP_2DIV, OP_MUL, OP_DIV,
    OP_MOD, OP_LSHIFT, OP_RSHIFT]

/-! ### `FindAndDelete` -/

/-- `while (.. memcmp(&pc[0], &b[0], b.size()) == 0) erase(pc, pc + b.size());` -/
def eraseFront (b : CScript) : Nat → CScript → CScript
  | 0, pc => pc
  | nRounds + 1, pc => if b.isPrefixOf pc then eraseFront b nRounds (pc.drop b.length) else pc

/-- The loop of `FindAndDelete`: what it makes of the script from `pc` on. -/
def findAndDeleteFrom (b : CScript) : Nat → CScript → CScript
  | 0, pc => pc
  | nRounds + 1, pc =>
    let pc := eraseFront b pc.length pc
    match getOp pc with
    | none => pc
    | some (_, _, rest) => pc.take (pc.length - rest.length) ++ findAndDeleteFrom b nRounds rest

/-- `FindAndDelete`. -/
def findAndDelete (script b : CScript) : CScript :=
  if b.isEmpty then script else findAndDeleteFrom b (script.length + 1) script

/-! ### The state -/

/-- The code that `EvalScript` calls: hash functions, which fill a buffer of 20 or 32 bytes, and
`CheckSig`. -/
structure ScriptEnv where
  ripemd160 : Valtype → Valtype
  sha1 : Valtype → Valtype
  sha256 : Valtype → Valtype
  hash160 : Valtype → Valtype
  hash256 : Valtype → Valtype
  ripemd160_length : ∀ vch, (ripemd160 vch).length = 20
  sha1_length : ∀ vch, (sha1 vch).length = 20
  sha256_length : ∀ vch, (sha256 vch).length = 32
  hash160_length : ∀ vch, (hash160 vch).length = 20
  hash256_length : ∀ vch, (hash256 vch).length = 32
  /-- `CheckSig(vchSig, vchPubKey, scriptCode, txTo, nIn, nHashType)`. -/
  checkSig : Valtype → Valtype → CScript → CTransaction → Nat → Int → Bool

/-- How `EvalScript` ends early. -/
inductive EvalFailure where
  | returnFalse
  /-- The `runtime_error` of `CastToBigNum`. -/
  | overflow
  /-- The `runtime_error` of `popstack`. -/
  | stackEmpty
  /-- `stack.at(..)`, or an iterator of `erase` or `insert`, outside of the stack. -/
  | outOfRange
deriving DecidableEq, Repr

/-- The variables of `EvalScript`; a position in the script is the rest of the script from there on. -/
structure EvalState where
  stack : List Valtype
  altstack : List Valtype := []
  vfExec : List Bool := []
  pc : CScript
  pbegincodehash : CScript
  nOpCount : Int := 0
  nCheckSig : Nat := 0
deriving DecidableEq, Repr

abbrev EvalCommand := Command EvalState EvalFailure

namespace EvalCommand

/-- `return false;` -/
def returnFalse {α : Type} : EvalCommand α := Command.fail .returnFalse

/-- `if (cond) return false;` -/
def returnIf (cond : Bool) : EvalCommand Unit := if cond then returnFalse else pure ()

/-- `if (stack.size() < i) return false;` -/
def needStack (i : Nat) : EvalCommand Unit := fun s =>
  if s.stack.length < i then (.error .returnFalse, s) else (.ok (), s)

/-- `stacktop(-i)`. -/
def stacktop : Nat → EvalCommand Valtype
  | 0 => Command.fail .outOfRange
  | i + 1 => fun s =>
    match s.stack[i]? with
    | some vch => (.ok vch, s)
    | none => (.error .outOfRange, s)

/-- `stack.push_back(vch)`. -/
def push (vch : Valtype) : EvalCommand Unit := Command.modify fun s => { s with stack := vch :: s.stack }

/-- `popstack(stack)`. -/
def popstack : EvalCommand Unit := fun s =>
  match s.stack with
  | [] => (.error .stackEmpty, s)
  | _ :: stack => (.ok (), { s with stack })

/-- `altstacktop(-i)`. -/
def altstacktop : Nat → EvalCommand Valtype
  | 0 => Command.fail .outOfRange
  | i + 1 => fun s =>
    match s.altstack[i]? with
    | some vch => (.ok vch, s)
    | none => (.error .outOfRange, s)

/-- `popstack(altstack)`. -/
def popAltstack : EvalCommand Unit := fun s =>
  match s.altstack with
  | [] => (.error .stackEmpty, s)
  | _ :: altstack => (.ok (), { s with altstack })

/-- `while (i-- > 0) popstack(stack);` -/
def popstacks : Nat → EvalCommand Unit
  | 0 => pure ()
  | i + 1 => do
    popstack
    popstacks i

/-- `swap(stacktop(-i), stacktop(-j))`. -/
def swap (i j : Nat) : EvalCommand Unit := do
  let vchi ← stacktop i
  let vchj ← stacktop j
  Command.modify fun s => { s with stack := (s.stack.set (i - 1) vchj).set (j - 1) vchi }

/-- `stack.erase(stack.end() - first, stack.end() - last)`. -/
def erase (first last : Nat) : EvalCommand Unit := fun s =>
  if last ≤ first ∧ first ≤ s.stack.length then
    (.ok (), { s with stack := s.stack.take last ++ s.stack.drop first })
  else (.error .outOfRange, s)

/-- `stack.insert(stack.end() - i, vch)`. -/
def insert (i : Nat) (vch : Valtype) : EvalCommand Unit := fun s =>
  if i ≤ s.stack.length then (.ok (), { s with stack := s.stack.take i ++ vch :: s.stack.drop i })
  else (.error .outOfRange, s)

/-- `CastToBigNum(stacktop(-i))`. -/
def bignumtop (i : Nat) : EvalCommand Int := do
  let vch ← stacktop i
  match castToBigNum vch with
  | some bn => return bn
  | none => Command.fail .overflow

/-! ### Control -/

/-- `OP_1NEGATE`, `OP_1`, .. `OP_16`. -/
def opNumber (opcode : UInt8) : EvalCommand Unit := push (CBigNum.getvch ((opcode.toNat : Int) - 0x50))

/-- The value that `OP_IF` and `OP_NOTIF` branch on. -/
def popBool (fNot : Bool) : EvalCommand Bool := do
  needStack 1
  let vch ← stacktop 1
  popstack
  return if fNot then !castToBool vch else castToBool vch

/-- `OP_IF` and `OP_NOTIF`. -/
def opIf (fNot fExec : Bool) : EvalCommand Unit := do
  let fValue ← (if fExec then popBool fNot else pure false)
  Command.modify fun s => { s with vfExec := fValue :: s.vfExec }

def opElse : EvalCommand Unit := fun s =>
  match s.vfExec with
  | [] => (.error .returnFalse, s)
  | fValue :: vfExec => (.ok (), { s with vfExec := (!fValue) :: vfExec })

def opEndif : EvalCommand Unit := fun s =>
  match s.vfExec with
  | [] => (.error .returnFalse, s)
  | _ :: vfExec => (.ok (), { s with vfExec })

def opVerify : EvalCommand Unit := do
  needStack 1
  let vch ← stacktop 1
  if castToBool vch then popstack else returnFalse

/-! ### Stack operations -/

def opToAltstack : EvalCommand Unit := do
  needStack 1
  let vch ← stacktop 1
  Command.modify fun s => { s with altstack := vch :: s.altstack }
  popstack

def opFromAltstack : EvalCommand Unit := do
  let s ← Command.get
  returnIf (s.altstack.length < 1)
  let vch ← altstacktop 1
  push vch
  popAltstack

def op2Drop : EvalCommand Unit := do
  needStack 2
  popstack
  popstack

def op2Dup : EvalCommand Unit := do
  needStack 2
  let vch1 ← stacktop 2
  let vch2 ← stacktop 1
  push vch1
  push vch2

def op3Dup : EvalCommand Unit := do
  needStack 3
  let vch1 ← stacktop 3
  let vch2 ← stacktop 2
  let vch3 ← stacktop 1
  push vch1
  push vch2
  push vch3

def op2Over : EvalCommand Unit := do
  needStack 4
  let vch1 ← stacktop 4
  let vch2 ← stacktop 3
  push vch1
  push vch2

def op2Rot : EvalCommand Unit := do
  needStack 6
  let vch1 ← stacktop 6
  let vch2 ← stacktop 5
  erase 6 4
  push vch1
  push vch2

def op2Swap : EvalCommand Unit := do
  needStack 4
  swap 4 2
  swap 3 1

def opIfdup : EvalCommand Unit := do
  needStack 1
  let vch ← stacktop 1
  if castToBool vch then push vch

/-- `CBigNum(size_t)`. -/
def ofSize (nSize : Nat) : Int := (nSize % 2 ^ 64 : Nat)

def opDepth : EvalCommand Unit := do
  let s ← Command.get
  push (CBigNum.getvch (ofSize s.stack.length))

def opDrop : EvalCommand Unit := do
  needStack 1
  popstack

def opDup : EvalCommand Unit := do
  needStack 1
  let vch ← stacktop 1
  push vch

def opNip : EvalCommand Unit := do
  needStack 2
  erase 2 1

def opOver : EvalCommand Unit := do
  needStack 2
  let vch ← stacktop 2
  push vch

/-- `OP_PICK` and `OP_ROLL`. -/
def opPick (fRoll : Bool) : EvalCommand Unit := do
  needStack 2
  let bn ← bignumtop 1
  let n := CBigNum.getint bn
  popstack
  let s ← Command.get
  returnIf (n < 0 || (s.stack.length : Int) ≤ n)
  let vch ← stacktop (n.toNat + 1)
  (if fRoll then erase (n.toNat + 1) n.toNat else pure ())
  push vch

def opRot : EvalCommand Unit := do
  needStack 3
  swap 3 2
  swap 2 1

def opSwap : EvalCommand Unit := do
  needStack 2
  swap 2 1

def opTuck : EvalCommand Unit := do
  needStack 2
  let vch ← stacktop 1
  insert 2 vch

def opSize : EvalCommand Unit := do
  needStack 1
  let vch ← stacktop 1
  push (CBigNum.getvch (ofSize vch.length))

/-- The end of an operation with a verifying form: the result is taken off again. -/
def verifyResult (fVerify fValue : Bool) : EvalCommand Unit := do
  push (if fValue then vchTrue else vchFalse)
  if fVerify then if fValue then popstack else returnFalse

def opEqual (fVerify : Bool) : EvalCommand Unit := do
  needStack 2
  let vch1 ← stacktop 2
  let vch2 ← stacktop 1
  popstack
  popstack
  verifyResult fVerify (vch1 = vch2)

/-! ### Numbers -/

/-- `OP_1ADD`, `OP_1SUB`, `OP_NEGATE`, `OP_ABS`, `OP_NOT`, `OP_0NOTEQUAL`. -/
def opUnary (f : Int → Int) : EvalCommand Unit := do
  needStack 1
  let bn ← bignumtop 1
  popstack
  push (CBigNum.getvch (f bn))

/-- `OP_ADD`, `OP_SUB`, `OP_BOOLAND`, .. `OP_MAX`. -/
def opBinary (fVerify : Bool) (f : Int → Int → Int) : EvalCommand Unit := do
  needStack 2
  let bn1 ← bignumtop 2
  let bn2 ← bignumtop 1
  popstack
  popstack
  push (CBigNum.getvch (f bn1 bn2))
  if fVerify then do
    let vch ← stacktop 1
    if castToBool vch then popstack else returnFalse

/-- A `bool` as a number. -/
def ofBool (b : Bool) : Int := if b then 1 else 0

def opWithin : EvalCommand Unit := do
  needStack 3
  let bn1 ← bignumtop 3
  let bn2 ← bignumtop 2
  let bn3 ← bignumtop 1
  popstack
  popstack
  popstack
  push (if bn2 ≤ bn1 ∧ bn1 < bn3 then vchTrue else vchFalse)

/-! ### Hashes and signatures -/

def opHash (f : Valtype → Valtype) : EvalCommand Unit := do
  needStack 1
  let vch ← stacktop 1
  popstack
  push (f vch)

/-- Hash starts after the code separator. -/
def opCodeSeparator : EvalCommand Unit := Command.modify fun s => { s with pbegincodehash := s.pc }

/-- A call of `CheckSig`, counted. -/
def callCheckSig (check : Valtype → Valtype → CScript → Bool) (vchSig vchPubKey : Valtype) (scriptCode : CScript) :
    EvalCommand Bool := fun s =>
  (.ok (check vchSig vchPubKey scriptCode), { s with nCheckSig := s.nCheckSig + 1 })

def opCheckSig (check : Valtype → Valtype → CScript → Bool) (fVerify : Bool) : EvalCommand Unit := do
  needStack 2
  let vchSig ← stacktop 2
  let vchPubKey ← stacktop 1
  let s ← Command.get
  -- drop the signature, since there's no way for a signature to sign itself
  let scriptCode := findAndDelete s.pbegincodehash (pushData vchSig)
  let fSuccess ← callCheckSig check vchSig vchPubKey scriptCode
  popstack
  popstack
  verifyResult fVerify fSuccess

/-- `for (int k = 0; k < nSigsCount; k++)`: drop the signatures. -/
def dropSigs (isig : Nat) : Nat → CScript → EvalCommand CScript
  | 0, scriptCode => return scriptCode
  | nSigsCount + 1, scriptCode => do
    let vchSig ← stacktop isig
    dropSigs (isig + 1) nSigsCount (findAndDelete scriptCode (pushData vchSig))

/-- `while (fSuccess && nSigsCount > 0)`: the value of `fSuccess` at the end. There are never more signatures
left than keys, so a round with a signature has a key. -/
def checkMultisigLoop (check : Valtype → Valtype → CScript → Bool) (scriptCode : CScript) (isig nSigsCount ikey : Nat) :
    Nat → EvalCommand Bool
  | 0 => return nSigsCount = 0
  | nKeysCount + 1 =>
    if nSigsCount = 0 then return true
    else do
      let vchSig ← stacktop isig
      let vchPubKey ← stacktop ikey
      let fOk ← callCheckSig check vchSig vchPubKey scriptCode
      let isig := if fOk then isig + 1 else isig
      let nSigsCount := if fOk then nSigsCount - 1 else nSigsCount
      -- more signatures left than keys: too many have failed
      if nKeysCount < nSigsCount then return false
      else checkMultisigLoop check scriptCode isig nSigsCount (ikey + 1) nKeysCount

def opCheckMultisig (check : Valtype → Valtype → CScript → Bool) (fVerify : Bool) : EvalCommand Unit := do
  needStack 1
  let bnKeys ← bignumtop 1
  let nKeysCount := CBigNum.getint bnKeys
  returnIf (nKeysCount < 0 || 20 < nKeysCount)
  Command.modify fun s => { s with nOpCount := s.nOpCount + nKeysCount }
  let s ← Command.get
  returnIf (201 < s.nOpCount)
  let ikey := 2
  let i := ikey + nKeysCount.toNat
  needStack i
  let bnSigs ← bignumtop i
  let nSigsCount := CBigNum.getint bnSigs
  returnIf (nSigsCount < 0 || nKeysCount < nSigsCount)
  let isig := i + 1
  let i := isig + nSigsCount.toNat
  needStack i
  let scriptCode ← dropSigs isig nSigsCount.toNat s.pbegincodehash
  let fSuccess ← checkMultisigLoop check scriptCode isig nSigsCount.toNat ikey nKeysCount.toNat
  popstacks i
  verifyResult fVerify fSuccess

/-! ### The switch -/

/-- `switch (opcode)`, from `OP_NOP` on; an opcode that is not in the table is the default case. -/
def cases (E : ScriptEnv) (check : Valtype → Valtype → CScript → Bool) (fExec : Bool) :
    List (UInt8 × EvalCommand Unit) :=
  [(OP_NOP, pure ()),
   (OP_IF, opIf false fExec), (OP_NOTIF, opIf true fExec), (OP_ELSE, opElse), (OP_ENDIF, opEndif),
   (OP_VERIFY, opVerify), (OP_RETURN, returnFalse),
   (OP_TOALTSTACK, opToAltstack), (OP_FROMALTSTACK, opFromAltstack), (OP_2DROP, op2Drop), (OP_2DUP, op2Dup),
   (OP_3DUP, op3Dup), (OP_2OVER, op2Over), (OP_2ROT, op2Rot), (OP_2SWAP, op2Swap), (OP_IFDUP, opIfdup),
   (OP_DEPTH, opDepth), (OP_DROP, opDrop), (OP_DUP, opDup), (OP_NIP, opNip), (OP_OVER, opOver),
   (OP_PICK, opPick false), (OP_ROLL, opPick true), (OP_ROT, opRot), (OP_SWAP, opSwap), (OP_TUCK, opTuck),
   (OP_SIZE, opSize), (OP_EQUAL, opEqual false), (OP_EQUALVERIFY, opEqual true),
   (OP_1ADD, opUnary fun bn => bn + 1), (OP_1SUB, opUnary fun bn => bn - 1), (OP_NEGATE, opUnary fun bn => -bn),
   (OP_ABS, opUnary fun bn => if bn < 0 then -bn else bn), (OP_NOT, opUnary fun bn => ofBool (bn = 0)),
   (OP_0NOTEQUAL, opUnary fun bn => ofBool (bn ≠ 0)),
   (OP_ADD, opBinary false fun bn1 bn2 => bn1 + bn2), (OP_SUB, opBinary false fun bn1 bn2 => bn1 - bn2),
   (OP_BOOLAND, opBinary false fun bn1 bn2 => ofBool (bn1 ≠ 0 && bn2 ≠ 0)),
   (OP_BOOLOR, opBinary false fun bn1 bn2 => ofBool (bn1 ≠ 0 || bn2 ≠ 0)),
   (OP_NUMEQUAL, opBinary false fun bn1 bn2 => ofBool (bn1 = bn2)),
   (OP_NUMEQUALVERIFY, opBinary true fun bn1 bn2 => ofBool (bn1 = bn2)),
   (OP_NUMNOTEQUAL, opBinary false fun bn1 bn2 => ofBool (bn1 ≠ bn2)),
   (OP_LESSTHAN, opBinary false fun bn1 bn2 => ofBool (bn1 < bn2)),
   (OP_GREATERTHAN, opBinary false fun bn1 bn2 => ofBool (bn2 < bn1)),
   (OP_LESSTHANOREQUAL, opBinary false fun bn1 bn2 => ofBool (bn1 ≤ bn2)),
   (OP_GREATERTHANOREQUAL, opBinary false fun bn1 bn2 => ofBool (bn2 ≤ bn1)),
   (OP_MIN, opBinary false fun bn1 bn2 => if bn1 < bn2 then bn1 else bn2),
   (OP_MAX, opBinary false fun bn1 bn2 => if bn2 < bn1 then bn1 else bn2),
   (OP_WITHIN, opWithin),
   (OP_RIPEMD160, opHash E.ripemd160), (OP_SHA1, opHash E.sha1), (OP_SHA256, opHash E.sha256),
   (OP_HASH160, opHash E.hash160), (OP_HASH256, opHash E.hash256), (OP_CODESEPARATOR, opCodeSeparator),
   (OP_CHECKSIG, opCheckSig check false), (OP_CHECKSIGVERIFY, opCheckSig check true),
   (OP_CHECKMULTISIG, opCheckMultisig check false), (OP_CHECKMULTISIGVERIFY, opCheckMultisig check true)]

/-- `switch (opcode)`: the numbers `-1`, `1`, .. `16`, the no-operations `OP_NOP1`, .. `OP_NOP10`, and the
rest. -/
def execOp (E : ScriptEnv) (check : Valtype → Valtype → CScript → Bool) (fExec : Bool) (opcode : UInt8) :
    EvalCommand Unit :=
  if opcode = OP_1NEGATE ∨ OP_1 ≤ opcode ∧ opcode ≤ OP_16 then opNumber opcode
  else if OP_NOP1 ≤ opcode ∧ opcode ≤ OP_NOP10 then pure ()
  else ((cases E check fExec).lookup opcode).getD returnFalse

/-! ### `EvalScript` -/

/-- `if (opcode > OP_16 && ++nOpCount > 201) return false;` -/
def countOp (opcode : UInt8) : EvalCommand Unit :=
  if OP_16 < opcode then do
    Command.modify fun s => { s with nOpCount := s.nOpCount + 1 }
    let s ← Command.get
    returnIf (201 < s.nOpCount)
  else pure ()

/-- "Read instruction": the operation at `pc`, and what makes `EvalScript` return at once. -/
def readOp : EvalCommand (UInt8 × Valtype) := do
  let s ← Command.get
  match getOp s.pc with
  | none => returnFalse
  | some (opcode, vchPushValue, pc) => do
    Command.modify fun s => { s with pc }
    returnIf (520 < vchPushValue.length)
    countOp opcode
    returnIf (disabledOpcodes.contains opcode)
    return (opcode, vchPushValue)

/-- `if (stack.size() + altstack.size() > 1000) return false;` -/
def checkSize : EvalCommand Unit := fun s =>
  if 1000 < s.stack.length + s.altstack.length then (.error .returnFalse, s) else (.ok (), s)

/-- One round of `while (pc < pend)`. -/
def evalRound (E : ScriptEnv) (check : Valtype → Valtype → CScript → Bool) : EvalCommand Unit := do
  let s ← Command.get
  let fExec := !s.vfExec.contains false
  let (opcode, vchPushValue) ← readOp
  (if fExec && opcode ≤ OP_PUSHDATA4 then push vchPushValue
    else if fExec || (OP_IF ≤ opcode && opcode ≤ OP_ENDIF) then execOp E check fExec opcode
    else pure ())
  checkSize

/-- `while (pc < pend)`; every round takes at least one byte of the script. -/
def evalLoop (E : ScriptEnv) (check : Valtype → Valtype → CScript → Bool) : Nat → EvalCommand Unit
  | 0 => pure ()
  | nRounds + 1 => do
    let s ← Command.get
    if s.pc.isEmpty then pure ()
    else do
      evalRound E check
      evalLoop E check nRounds

/-- The body of `EvalScript`. -/
def evalBody (E : ScriptEnv) (check : Valtype → Valtype → CScript → Bool) (script : CScript) : EvalCommand Unit := do
  returnIf (10000 < script.length)
  evalLoop E check script.length
  let s ← Command.get
  returnIf !s.vfExec.isEmpty

end EvalCommand

/-- The run of `EvalScript`: how it ends, and the variables then. -/
def evalRun (E : ScriptEnv) (stack : List Valtype) (script : CScript) (txTo : CTransaction) (nIn : Nat) (nHashType : Int) :
    Except EvalFailure Unit × EvalState :=
  EvalCommand.evalBody E (fun vchSig vchPubKey scriptCode => E.checkSig vchSig vchPubKey scriptCode txTo nIn nHashType)
    script { stack, pc := script, pbegincodehash := script }

/-- `EvalScript`: an exception counts as `false`. The stack is the caller's, and is left as it is then. -/
def evalScript (E : ScriptEnv) (stack : List Valtype) (script : CScript) (txTo : CTransaction) (nIn : Nat)
    (nHashType : Int) : Bool × List Valtype :=
  match evalRun E stack script txTo nIn nHashType with
  | (.ok (), s) => (true, s.stack)
  | (.error _, s) => (false, s.stack)

/-! ### `VerifyScript` -/

/-- `VerifyScript`. The `back()` of an empty `stackCopy` would be undefined: it is `none`. -/
def verifyScript (E : ScriptEnv) (scriptSig scriptPubKey : CScript) (txTo : CTransaction) (nIn : Nat)
    (fValidatePayToScriptHash : Bool) (nHashType : Int) : Option Bool :=
  match evalScript E [] scriptSig txTo nIn nHashType with
  | (false, _) => some false
  | (true, stack) =>
    let stackCopy := stack
    match evalScript E stack scriptPubKey txTo nIn nHashType with
    | (false, _) => some false
    | (true, []) => some false
    | (true, top :: _) =>
      if castToBool top = false then some false
      else if fValidatePayToScriptHash && isPayToScriptHash scriptPubKey then
        if !isPushOnly scriptSig then some false
        else
          match stackCopy with
          | [] => none
          | pubKeySerialized :: stackCopy =>
            match evalScript E stackCopy pubKeySerialized txTo nIn nHashType with
            | (false, _) => some false
            | (true, []) => some false
            | (true, top :: _) => some (castToBool top)
      else some true

end Peershares
