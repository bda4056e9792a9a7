import Peershares.Model.Basic

/-!
# Reading scripts

`CScript::GetOp2`, the signature-operation counts and `Solver`, from `script.h` and `script.cpp`.

A script iterator is the rest of the script from that position on, so `GetOp` maps a rest to the
operation in front of it and the rest behind. Loops over a script take the script's length as a
bound on the number of rounds: every `GetOp` that succeeds consumes at least one byte
(`length_lt_of_getOp`).
-/

namespace Peershares

/-! ### Opcodes -/

def OP_0 : UInt8 := 0x00
def OP_PUSHDATA1 : UInt8 := 0x4c
def OP_PUSHDATA2 : UInt8 := 0x4d
def OP_PUSHDATA4 : UInt8 := 0x4e
def OP_1 : UInt8 := 0x51
def OP_16 : UInt8 := 0x60
def OP_RETURN : UInt8 := 0x6a
def OP_DUP : UInt8 := 0x76
def OP_EQUAL : UInt8 := 0x87
def OP_EQUALVERIFY : UInt8 := 0x88
def OP_HASH160 : UInt8 := 0xa9
def OP_CHECKSIG : UInt8 := 0xac
def OP_CHECKSIGVERIFY : UInt8 := 0xad
def OP_CHECKMULTISIG : UInt8 := 0xae
def OP_CHECKMULTISIGVERIFY : UInt8 := 0xaf
def OP_SMALLDATA : UInt8 := 0xf9
def OP_SMALLINTEGER : UInt8 := 0xfa
def OP_PUBKEYS : UInt8 := 0xfb
def OP_PUBKEYHASH : UInt8 := 0xfd
def OP_PUBKEY : UInt8 := 0xfe
def OP_INVALIDOPCODE : UInt8 := 0xff

/-! ### `GetOp` -/

/-- The operand size of a push and the rest behind the size bytes. -/
def getOpSize (opcode : UInt8) (pc : CScript) : Option (Nat × CScript) :=
  if opcode < OP_PUSHDATA1 then some (opcode.toNat, pc)
  else if opcode = OP_PUSHDATA1 then
    match pc with
    | b :: pc => some (b.toNat, pc)
    | [] => none
  else if opcode = OP_PUSHDATA2 then
    match pc with
    | b₀ :: b₁ :: pc => some (b₀.toNat + 256 * b₁.toNat, pc)
    | _ => none
  else
    match pc with
    | b₀ :: b₁ :: b₂ :: b₃ :: pc =>
      some (b₀.toNat + 256 * (b₁.toNat + 256 * (b₂.toNat + 256 * b₃.toNat)), pc)
    | _ => none

/-- `GetOp2`: the opcode in front, its operand, and the rest of the script. -/
def getOp : CScript → Option (UInt8 × List UInt8 × CScript)
  | [] => none
  | opcode :: pc =>
    if opcode ≤ OP_PUSHDATA4 then
      match getOpSize opcode pc with
      | none => none
      | some (nSize, pc) =>
        if pc.length < nSize then none else some (opcode, pc.take nSize, pc.drop nSize)
    else some (opcode, [], pc)

theorem length_le_of_getOpSize {opcode : UInt8} {pc rest : CScript} {nSize : Nat}
    (h : getOpSize opcode pc = some (nSize, rest)) : rest.length ≤ pc.length := by
  unfold getOpSize at h
  split_ifs at h
  · simp only [Option.some.injEq, Prod.mk.injEq] at h
    rw [h.2]
  all_goals
    split at h <;> simp only [Option.some.injEq, Prod.mk.injEq, reduceCtorEq] at h
    rw [← h.2]
    simp only [List.length_cons]
    omega

/-- Every operation consumes at least its opcode. -/
theorem length_lt_of_getOp {script rest : CScript} {opcode : UInt8} {vch : List UInt8}
    (h : getOp script = some (opcode, vch, rest)) : rest.length < script.length := by
  cases script with
  | nil => simp [getOp] at h
  | cons op pc =>
    simp only [getOp] at h
    split at h
    · split at h
      · exact absurd h (by simp)
      · next nSize pc' hs =>
        have hle := length_le_of_getOpSize hs
        split at h
        · exact absurd h (by simp)
        · simp only [Option.some.injEq, Prod.mk.injEq] at h
          rw [← h.2.2, List.length_drop, List.length_cons]
          omega
    · simp only [Option.some.injEq, Prod.mk.injEq] at h
      rw [← h.2.2, List.length_cons]
      omega

/-- `DecodeOP_N` on a small-integer opcode. -/
def decodeOP_N (opcode : UInt8) : Nat := if opcode = OP_0 then 0 else opcode.toNat - 0x50

/-- `OP_0` or one of `OP_1 .. OP_16`. -/
def isSmallInteger (opcode : UInt8) : Bool := opcode = OP_0 || (OP_1 ≤ opcode && opcode ≤ OP_16)

/-! ### Signature-operation counts -/

/-- The loop of `GetSigOpCount(fAccurate)`. -/
def getSigOpCount.loop (fAccurate : Bool) : Nat → CScript → UInt8 → Nat → Nat
  | 0, _, _, n => n
  | nRounds + 1, pc, lastOpcode, n =>
    match getOp pc with
    | none => n
    | some (opcode, _, pc) =>
      let n :=
        if opcode = OP_CHECKSIG || opcode = OP_CHECKSIGVERIFY then n + 1
        else if opcode = OP_CHECKMULTISIG || opcode = OP_CHECKMULTISIGVERIFY then
          if fAccurate && OP_1 ≤ lastOpcode && lastOpcode ≤ OP_16 then n + decodeOP_N lastOpcode
          else n + 20
        else n
      loop fAccurate nRounds pc opcode n

def getSigOpCount (script : CScript) (fAccurate : Bool) : Nat :=
  getSigOpCount.loop fAccurate script.length script OP_INVALIDOPCODE 0

/-- `IsPayToScriptHash`: `OP_HASH160`, a push of 20 bytes, `OP_EQUAL`. -/
def isPayToScriptHash (script : CScript) : Bool :=
  script.length = 23 && script[0]? = some OP_HASH160 && script[1]? = some 0x14
    && script[22]? = some OP_EQUAL

/-- The last item a push-only script leaves, as `GetSigOpCount(scriptSig)` finds it; `none` when
the script does not parse or holds an operation other than a push. -/
def lastPush : Nat → CScript → List UInt8 → Option (List UInt8)
  | _, [], data => some data
  | 0, _ :: _, _ => none
  | nRounds + 1, pc, _ =>
    match getOp pc with
    | none => none
    | some (opcode, data, pc) => if OP_16 < opcode then none else lastPush nRounds pc data

/-- `scriptPubKey.GetSigOpCount(scriptSig)`. -/
def getSigOpCountP2SH (scriptPubKey scriptSig : CScript) : Nat :=
  if !isPayToScriptHash scriptPubKey then getSigOpCount scriptPubKey true
  else
    match lastPush scriptSig.length scriptSig [] with
    | none => 0
    | some subscript => getSigOpCount subscript true

/-- `GetLegacySigOpCount`. -/
def CTransaction.getLegacySigOpCount (tx : CTransaction) : Nat :=
  (tx.vin.map (fun txin => getSigOpCount txin.scriptSig false)).sum
    + (tx.vout.map (fun txout => getSigOpCount txout.scriptPubKey false)).sum

/-- `IsPushOnly`. -/
def isPushOnly (script : CScript) : Bool := (lastPush script.length script []).isSome

/-! ### `Solver` -/

inductive TxnOutType where
  | TX_NONSTANDARD
  | TX_PUBKEY
  | TX_PUBKEYHASH
  | TX_SCRIPTHASH
  | TX_MULTISIG
  | TX_NULL_DATA
deriving DecidableEq, Repr

/-- `mTemplates`, in the order of the `std::map`: by `txnouttype`. -/
def mTemplates : List (TxnOutType × CScript) :=
  [(.TX_PUBKEY, [OP_PUBKEY, OP_CHECKSIG]),
   (.TX_PUBKEYHASH, [OP_DUP, OP_HASH160, OP_PUBKEYHASH, OP_EQUALVERIFY, OP_CHECKSIG]),
   (.TX_MULTISIG, [OP_SMALLINTEGER, OP_PUBKEYS, OP_SMALLINTEGER, OP_CHECKMULTISIG]),
   (.TX_NULL_DATA, [OP_RETURN, OP_SMALLDATA])]

/-- The inner loop of `OP_PUBKEYS`: keys are collected as long as the operand has the size of a
public key. The last opcode read and its operand are returned; when the script ends they are
`OP_INVALIDOPCODE` and empty. -/
def matchPubKeys : Nat → UInt8 → List UInt8 → CScript → List (List UInt8) →
    UInt8 × List UInt8 × CScript × List (List UInt8)
  | 0, opcode1, vch1, pc1, vSolutions => (opcode1, vch1, pc1, vSolutions)
  | nRounds + 1, opcode1, vch1, pc1, vSolutions =>
    if 33 ≤ vch1.length && vch1.length ≤ 120 then
      match getOp pc1 with
      | none => (OP_INVALIDOPCODE, [], pc1, vSolutions ++ [vch1])
      | some (opcode1, vch1', pc1) => matchPubKeys nRounds opcode1 vch1' pc1 (vSolutions ++ [vch1])
    else (opcode1, vch1, pc1, vSolutions)

/-- The template matching opcodes: what `opcode2` accepts of the script's operation, with the
solution it records. -/
def matchOp (opcode2 : UInt8) (vch2 : List UInt8) (opcode1 : UInt8) (vch1 : List UInt8)
    (vSolutions : List (List UInt8)) : Option (List (List UInt8)) :=
  if opcode2 = OP_PUBKEY then
    if vch1.length < 33 || 120 < vch1.length then none else some (vSolutions ++ [vch1])
  else if opcode2 = OP_PUBKEYHASH then
    if vch1.length ≠ 20 then none else some (vSolutions ++ [vch1])
  else if opcode2 = OP_SMALLINTEGER then
    if isSmallInteger opcode1 then some (vSolutions ++ [[UInt8.ofNat (decodeOP_N opcode1)]])
    else none
  else if opcode2 = OP_SMALLDATA then
    if 80 < vch1.length then none else some vSolutions
  else if opcode1 ≠ opcode2 || vch1 ≠ vch2 then none
  else some vSolutions

/-- The comparison of one script with one template. -/
def matchTemplate : Nat → CScript → CScript → List (List UInt8) → Option (List (List UInt8))
  | _, [], [], vSolutions => some vSolutions
  | 0, _, _, _ => none
  | nRounds + 1, pc1, pc2, vSolutions =>
    match getOp pc1, getOp pc2 with
    | some (opcode1, vch1, pc1), some (opcode2, vch2, pc2) =>
      if opcode2 = OP_PUBKEYS then
        match matchPubKeys (pc1.length + 1) opcode1 vch1 pc1 vSolutions, getOp pc2 with
        | (opcode1, vch1, pc1, vSolutions), some (opcode2, vch2, pc2) =>
          match matchOp opcode2 vch2 opcode1 vch1 vSolutions with
          | none => none
          | some vSolutions => matchTemplate nRounds pc1 pc2 vSolutions
        | _, none => none
      else
        match matchOp opcode2 vch2 opcode1 vch1 vSolutions with
        | none => none
        | some vSolutions => matchTemplate nRounds pc1 pc2 vSolutions
    | _, _ => none

/-- The extra checks on a script that matched the multisignature template: `1 ≤ m ≤ n` and as many
keys as `n` says. -/
def multisigOk (vSolutions : List (List UInt8)) : Bool :=
  match vSolutions.head?.bind List.head?, vSolutions.getLast?.bind List.head? with
  | some m, some n => 1 ≤ m && 1 ≤ n && m ≤ n && vSolutions.length - 2 = n.toNat
  | _, _ => false

/-- The template scan of `Solver`. -/
def solverScan (script : CScript) :
    List (TxnOutType × CScript) → Bool × TxnOutType × List (List UInt8)
  | [] => (false, .TX_NONSTANDARD, [])
  | (typeRet, tplate) :: templates =>
    match matchTemplate (script.length + 1) script tplate [] with
    | some vSolutions => (typeRet ≠ .TX_MULTISIG || multisigOk vSolutions, typeRet, vSolutions)
    | none => solverScan script templates

/-- `Solver`: whether the script has a standard form, which, and the keys or hashes in it. -/
def solver (scriptPubKey : CScript) : Bool × TxnOutType × List (List UInt8) :=
  if isPayToScriptHash scriptPubKey then
    (true, .TX_SCRIPTHASH, [(scriptPubKey.drop 2).take 20])
  else solverScan scriptPubKey mTemplates

/-- `::IsStandard(scriptPubKey, whichType)`. -/
def isStandardScript (scriptPubKey : CScript) : Bool × TxnOutType :=
  match solver scriptPubKey with
  | (false, whichType, _) => (false, whichType)
  | (true, .TX_MULTISIG, vSolutions) =>
    match vSolutions.head?.bind List.head?, vSolutions.getLast?.bind List.head? with
    | some m, some n => (1 ≤ n && n ≤ 3 && 1 ≤ m && m ≤ n, .TX_MULTISIG)
    | _, _ => (false, .TX_MULTISIG)
  | (true, whichType, _) => (whichType ≠ .TX_NONSTANDARD, whichType)

/-- `CTransaction::IsStandard`. -/
def CTransaction.isStandard (tx : CTransaction) : Bool :=
  tx.vin.all (fun txin => txin.scriptSig.length ≤ 500 && isPushOnly txin.scriptSig)
    && tx.vout.all (fun txout => (isStandardScript txout.scriptPubKey).1)
    && (tx.vout.filter (fun txout =>
        (isStandardScript txout.scriptPubKey).2 = .TX_NULL_DATA)).length ≤ 1

/-- A pay-to-address script. -/
example : solver ([OP_DUP, OP_HASH160, 20] ++ List.replicate 20 7 ++ [OP_EQUALVERIFY, OP_CHECKSIG])
    = (true, .TX_PUBKEYHASH, [List.replicate 20 7]) := by decide

end Peershares
