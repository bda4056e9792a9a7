import Peershares.Model.Interpreter
import Peershares.Script.Number
import Peershares.Script.Push

/-!
# The interpreter stays on its stack

A small logic for the opcodes: a state is followed by how many elements are known to be on the stack
(`Within`), every access asks for as many as it needs, and `needStack` provides them. Along the way it is
kept that an element of the stacks is short or was there before (`Fit`), and how often `CheckSig` is called.

An access is written as the source writes it, with an index from the top, and it fails with an error of its
own when the index is out of range. That no run ends with this error is what is to be shown. An operation may
still end in one of two ways besides success: it refuses, or `CastToBigNum` throws.

* `Safe` — an operation ends within the stack, or refuses; the rules for `push`, `popstack`, `erase`, `insert`
  and `swap` say how the known depth changes
* `safe_op2Rot`, `safe_opPick`, … — one lemma for each operation, by these rules
* `opCheckMultisig_safe` — the one operation whose depth depends on what it reads from the stack: first the
  number of keys, then the number of signatures, each one compared with the size before it is used

`OP_CHECKMULTISIG` calls `CheckSig` once for each key at most. So a case of the switch is safe up to a number of
calls (`SafeAt`), and that number covers the keys that the stack asks for (`Covers`).

* `execOp_safe` — every case of the switch is safe
* `evalRound_safe` — so is a round, whose limits are checked before and after
* `evalLoop_fits` — what holds after any number of rounds
* `evalScript_safe` — no access out of range, and the limits of a script that returns `true`
-/

open Framework Framework.Command

namespace Peershares

/-- A number that is cast has four bytes. -/
theorem natAbs_lt_of_castToBigNum {vch : Valtype} {bn : Int} (h : castToBigNum vch = some bn) :
    bn.natAbs < 256 ^ 4 := by
  unfold castToBigNum nMaxNumSize at h
  split_ifs at h with hlen
  cases h
  exact (CBigNum.natAbs_setvch_lt vch).trans_le (Nat.pow_le_pow_right (by omega) (by omega))

namespace EvalCommand

/-! ### Following the depth of the stack -/

/-- An element that was on the stacks, or is short enough to be pushed. -/
def Fit (s₀ : EvalState) (vch : Valtype) : Prop := vch ∈ s₀.stack ++ s₀.altstack ∨ vch.length ≤ 520

/-- Since `s₀` the script position is the same, `CheckSig` was called at most `c` times, and nothing that
does not fit was put on the stacks; `k` elements are there. -/
structure Within (s₀ : EvalState) (c k : ℕ) (s : EvalState) : Prop where
  depth : k ≤ s.stack.length
  stack : ∀ vch ∈ s.stack, Fit s₀ vch
  altstack : ∀ vch ∈ s.altstack, Fit s₀ vch
  pc : s.pc = s₀.pc
  nCheckSig : s.nCheckSig ≤ s₀.nCheckSig + c

/-- The function returns `false`, or a number is too long; no access was out of range. -/
def Refused (s₀ : EvalState) (c : ℕ) (e : EvalFailure) (s : EvalState) : Prop :=
  (e = .returnFalse ∨ e = .overflow) ∧ s.nCheckSig ≤ s₀.nCheckSig + c

/-- From every state the operation ends within the stack, or refuses. -/
def Safe (c : ℕ) (x : EvalCommand Unit) : Prop :=
  ∀ s₀, Triple x s₀ (fun _ s => Within s₀ c 0 s) (Refused s₀ c)

section Rules

variable {s₀ s : EvalState} {c k i n : ℕ} {vch : Valtype}

/-- At the start of an operation nothing is known of the stack yet. -/
theorem Within.start (s₀ : EvalState) (c : ℕ) : Within s₀ c 0 s₀ :=
  ⟨Nat.zero_le _, fun _ h => Or.inl (List.mem_append_left _ h), fun _ h => Or.inl (List.mem_append_right _ h),
    rfl, Nat.le_add_right _ _⟩

/-- Every state inside the frame may fail the script. -/
theorem Within.refuse (h : Within s₀ c k s) : Refused s₀ c .returnFalse s := ⟨Or.inl rfl, h.nCheckSig⟩

/-- A stack with `k` elements has any fewer. -/
theorem Within.weaken (h : Within s₀ c k s) (hi : i ≤ k) : Within s₀ c i s :=
  ⟨hi.trans h.depth, h.stack, h.altstack, h.pc, h.nCheckSig⟩

/-- An operation ends by asking nothing of the stack. -/
theorem Within.zero (h : Within s₀ c k s) : Within s₀ c 0 s := h.weaken (Nat.zero_le k)

/-- `return false` under a condition, and nothing is changed when it does not hold. -/
theorem returnIf_safe {cond : Bool} (h : Within s₀ c k s) :
    Triple (returnIf cond) s (fun _ s' => cond = false ∧ s' = s) (Refused s₀ c) := by
  unfold returnIf
  cases cond with
  | true => exact h.refuse
  | false => exact ⟨rfl, rfl⟩

/-- After the check of the size the stack is known to have `i` elements. -/
theorem needStack_safe (h : Within s₀ c k s) :
    Triple (needStack i) s (fun _ s' => Within s₀ c i s' ∧ s' = s) (Refused s₀ c) := by
  unfold Triple needStack
  split_ifs with hlt
  · exact h.refuse
  · exact ⟨⟨not_lt.mp hlt, h.stack, h.altstack, h.pc, h.nCheckSig⟩, rfl⟩

/-- `stacktop(-i)` reads the `i`th element from the top. -/
theorem stacktop_eq (h : s.stack[i]? = some vch) : stacktop (i + 1) s = (.ok vch, s) := by
  simp only [stacktop, h]

/-- Below the known depth it never throws. -/
theorem stacktop_safe (h : Within s₀ c k s) (hpos : 0 < i) (hi : i ≤ k) :
    Triple (stacktop i) s (fun vch s' => Fit s₀ vch ∧ s.stack[i - 1]? = some vch ∧ s' = s) (Refused s₀ c) := by
  obtain ⟨i, rfl⟩ : ∃ j, i = j + 1 := ⟨i - 1, by omega⟩
  have hlt : i < s.stack.length := by
    have := h.depth
    omega
  have hget := List.getElem?_eq_getElem hlt
  unfold Triple
  rw [stacktop_eq hget]
  exact ⟨h.stack _ (List.getElem_mem hlt), hget, rfl⟩

/-- A push adds one element, which has to fit. -/
theorem push_safe (h : Within s₀ c k s) (hfit : Fit s₀ vch) :
    Triple (push vch) s (fun _ s' => Within s₀ c (k + 1) s') (Refused s₀ c) := by
  refine Triple.modify ⟨?_, ?_, h.altstack, h.pc, h.nCheckSig⟩
  · exact Nat.succ_le_succ h.depth
  · intro v hv
    rcases List.mem_cons.mp hv with rfl | hv
    · exact hfit
    · exact h.stack v hv

/-- A push as the last thing an operation does. -/
theorem push_ends (h : Within s₀ c k s) (hfit : Fit s₀ vch) :
    Triple (push vch) s (fun _ s' => Within s₀ c 0 s') (Refused s₀ c) :=
  (push_safe h hfit).mono (fun _ _ h => h.zero) (fun _ _ h => h)

/-- `popstack` takes off one of the known elements. -/
theorem popstack_safe (h : Within s₀ c (k + 1) s) :
    Triple popstack s (fun _ s' => Within s₀ c k s') (Refused s₀ c) := by
  have hdepth := h.depth
  unfold Triple popstack
  cases hs : s.stack with
  | nil =>
    rw [hs] at hdepth
    exact absurd hdepth (by simp)
  | cons top stack =>
    rw [hs, List.length_cons] at hdepth
    refine ⟨Nat.le_of_succ_le_succ hdepth, fun v hv => h.stack v ?_, h.altstack, h.pc, h.nCheckSig⟩
    rw [hs]
    exact List.mem_cons_of_mem top hv

/-- Several of them, one after the other. -/
theorem popstacks_safe (h : Within s₀ c (k + n) s) :
    Triple (popstacks n) s (fun _ s' => Within s₀ c k s') (Refused s₀ c) := by
  induction n generalizing s with
  | zero => exact Triple.pure h
  | succ n ih => exact (popstack_safe (k := k + n) h).bind fun _ s' h' => ih h'

/-- `stack.erase` of a range inside the known depth. -/
theorem erase_safe {first last : ℕ} (h : Within s₀ c k s) (hle : last ≤ first) (hk : first ≤ k) :
    Triple (erase first last) s (fun _ s' => Within s₀ c (k - (first - last)) s') (Refused s₀ c) := by
  have hdepth := h.depth
  unfold Triple erase
  rw [if_pos ⟨hle, hk.trans hdepth⟩]
  refine ⟨?_, ?_, h.altstack, h.pc, h.nCheckSig⟩
  · rw [List.length_append, List.length_take, List.length_drop]
    omega
  · intro v hv
    rcases List.mem_append.mp hv with hv | hv
    · exact h.stack v (List.mem_of_mem_take hv)
    · exact h.stack v (List.mem_of_mem_drop hv)

/-- `stack.insert` at a place inside the known depth. -/
theorem insert_safe (h : Within s₀ c k s) (hi : i ≤ k) (hfit : Fit s₀ vch) :
    Triple (insert i vch) s (fun _ s' => Within s₀ c (k + 1) s') (Refused s₀ c) := by
  have hdepth := h.depth
  unfold Triple insert
  rw [if_pos (hi.trans hdepth)]
  refine ⟨?_, ?_, h.altstack, h.pc, h.nCheckSig⟩
  · rw [List.length_append, List.length_cons, List.length_take, List.length_drop]
    omega
  · intro v hv
    rcases List.mem_append.mp hv with hv | hv
    · exact h.stack v (List.mem_of_mem_take hv)
    · rcases List.mem_cons.mp hv with rfl | hv
      · exact hfit
      · exact h.stack v (List.mem_of_mem_drop hv)

/-- `swap` of two elements inside the known depth. -/
theorem swap_safe {j : ℕ} (h : Within s₀ c k s) (hpos : 0 < i) (hi : i ≤ k) (hpos' : 0 < j) (hj : j ≤ k) :
    Triple (swap i j) s (fun _ s' => Within s₀ c k s') (Refused s₀ c) := by
  unfold swap
  refine (stacktop_safe h hpos hi).bind ?_
  rintro vchi s ⟨hfiti, -, rfl⟩
  refine (stacktop_safe h hpos' hj).bind ?_
  rintro vchj s ⟨hfitj, -, rfl⟩
  refine Triple.modify ⟨?_, ?_, h.altstack, h.pc, h.nCheckSig⟩
  · simpa using h.depth
  · intro v hv
    rcases List.mem_or_eq_of_mem_set hv with hv | rfl
    · rcases List.mem_or_eq_of_mem_set hv with hv | rfl
      · exact h.stack v hv
      · exact hfitj
    · exact hfiti

/-- A number read from the stack has at most four bytes. -/
theorem bignumtop_safe (h : Within s₀ c k s) (hpos : 0 < i) (hi : i ≤ k) :
    Triple (bignumtop i) s
      (fun bn s' => bn.natAbs < 256 ^ 4 ∧ (s.stack[i - 1]?).bind castToBigNum = some bn ∧ s' = s)
      (Refused s₀ c) := by
  unfold bignumtop
  refine (stacktop_safe h hpos hi).bind ?_
  rintro vch s ⟨-, hget, rfl⟩
  cases hcast : castToBigNum vch with
  | none => exact ⟨Or.inr rfl, h.nCheckSig⟩
  | some bn =>
    refine Triple.pure ⟨natAbs_lt_of_castToBigNum hcast, ?_, rfl⟩
    rw [hget]
    exact hcast

/-! ### What may be pushed -/

/-- What has at most 520 bytes may be pushed. -/
theorem fit_of_length_le (h : vch.length ≤ 520) : Fit s₀ vch := Or.inr h

/-- The bytes of a number below `256 ^ 8` may be pushed. -/
theorem fit_getvch {bn : Int} (h : bn.natAbs < 256 ^ 8) : Fit s₀ (CBigNum.getvch bn) :=
  fit_of_length_le ((CBigNum.length_getvch_le h).trans (by omega))

/-- A truth value may be pushed. -/
theorem fit_bool (b : Bool) : Fit s₀ (if b then vchTrue else vchFalse) := by
  refine fit_of_length_le ?_
  cases b <;> decide

/-- The size of something may be pushed. -/
theorem fit_ofSize (nSize : ℕ) : Fit s₀ (CBigNum.getvch (ofSize nSize)) := by
  refine fit_getvch ?_
  unfold ofSize
  rw [Int.natAbs_natCast]
  exact (Nat.mod_lt _ (Nat.two_pow_pos 64)).trans_le (by norm_num)

/-- The `VERIFY` part of an operation: it takes off a true value or fails. -/
theorem verifyResult_safe {fVerify fValue : Bool} (h : Within s₀ c k s) :
    Triple (verifyResult fVerify fValue) s (fun _ s' => Within s₀ c 0 s') (Refused s₀ c) := by
  unfold verifyResult
  refine (push_safe h (fit_bool fValue)).bind fun _ s h => ?_
  split_ifs
  · exact (popstack_safe h).mono (fun _ _ h => h.zero) (fun _ _ h => h)
  · exact h.refuse
  · exact Triple.pure h.zero

end Rules

/-! ### The operations -/

section Operations

/-- A disabled or unknown operation fails. -/
theorem safe_returnFalse {c : ℕ} : Safe c returnFalse := fun s₀ => (Within.start s₀ c).refuse

/-- `OP_NOP` does nothing. -/
theorem safe_pure {c : ℕ} : Safe c (pure ()) := fun s₀ => Triple.pure (Within.start s₀ c)

/-- `OP_1NEGATE` and `OP_1` to `OP_16` push a number. -/
theorem opNumber_safe (opcode : UInt8) : Safe 0 (opNumber opcode) := by
  intro s₀
  refine (push_safe (Within.start s₀ 0) (fit_getvch ?_)).mono (fun _ _ h => h.zero) (fun _ _ h => h)
  have hlt := opcode.toNat_lt
  have hbound : ((opcode.toNat : Int) - 0x50).natAbs < 256 := by omega
  exact hbound.trans_le (by norm_num)

/-- `OP_IF` and `OP_NOTIF` take their condition off the stack. -/
theorem safe_opIf (fNot fExec : Bool) : Safe 0 (opIf fNot fExec) := by
  intro s₀
  have hpop : Triple (if fExec then popBool fNot else pure false) s₀ (fun _ s => Within s₀ 0 0 s) (Refused s₀ 0) := by
    split_ifs
    · unfold popBool
      refine (needStack_safe (Within.start s₀ 0)).bind ?_
      rintro _ s ⟨h, rfl⟩
      refine (stacktop_safe h Nat.one_pos le_rfl).bind ?_
      rintro vch s ⟨-, -, rfl⟩
      exact (popstack_safe h).bind fun _ s h => Triple.pure h
    · exact Triple.pure (Within.start s₀ 0)
  unfold opIf
  exact hpop.bind fun fValue s h => Triple.modify ⟨h.depth, h.stack, h.altstack, h.pc, h.nCheckSig⟩

/-- `OP_ELSE` touches `vfExec` alone. -/
theorem safe_opElse : Safe 0 opElse := by
  intro s₀
  have h := Within.start s₀ 0
  unfold Triple opElse
  cases s₀.vfExec with
  | nil => exact h.refuse
  | cons fValue vfExec => exact ⟨h.depth, h.stack, h.altstack, h.pc, h.nCheckSig⟩

/-- `OP_ENDIF` touches `vfExec` alone. -/
theorem safe_opEndif : Safe 0 opEndif := by
  intro s₀
  have h := Within.start s₀ 0
  unfold Triple opEndif
  cases s₀.vfExec with
  | nil => exact h.refuse
  | cons fValue vfExec => exact ⟨h.depth, h.stack, h.altstack, h.pc, h.nCheckSig⟩

/-- `OP_VERIFY` pops what it has tested. -/
theorem safe_opVerify : Safe 0 opVerify := by
  intro s₀
  refine (needStack_safe (Within.start s₀ 0)).bind ?_
  rintro _ s ⟨h, rfl⟩
  refine (stacktop_safe h Nat.one_pos le_rfl).bind ?_
  rintro vch s ⟨-, -, rfl⟩
  split_ifs
  · exact popstack_safe h
  · exact h.refuse

/-- `OP_TOALTSTACK` moves an element of the stack. -/
theorem safe_opToAltstack : Safe 0 opToAltstack := by
  intro s₀
  refine (needStack_safe (Within.start s₀ 0)).bind ?_
  rintro _ s ⟨h, rfl⟩
  refine (stacktop_safe h Nat.one_pos le_rfl).bind ?_
  rintro vch s ⟨hfit, -, rfl⟩
  refine Triple.modify_bind (popstack_safe ⟨h.depth, h.stack, ?_, h.pc, h.nCheckSig⟩)
  intro v hv
  rcases List.mem_cons.mp hv with rfl | hv
  · exact hfit
  · exact h.altstack v hv

/-- `OP_FROMALTSTACK` brings back one that fitted when it left. -/
theorem safe_opFromAltstack : Safe 0 opFromAltstack := by
  intro s₀
  have h := Within.start s₀ 0
  refine Triple.get_bind ((returnIf_safe h).bind ?_)
  rintro _ s ⟨hcond, rfl⟩
  -- an empty stack has been refused
  cases halt : s.altstack with
  | nil =>
    rw [halt] at hcond
    exact absurd hcond (by simp)
  | cons vch altstack =>
    have hfit : Fit s vch := h.altstack vch (by rw [halt]; exact List.mem_cons_self)
    have htop : altstacktop 1 s = (.ok vch, s) := by
      have hhead : s.altstack[0]? = some vch := by
        rw [halt]
        rfl
      simp only [altstacktop, hhead]
    have hpop : popAltstack { s with stack := vch :: s.stack } =
        (.ok (), { s with stack := vch :: s.stack, altstack }) := by
      unfold popAltstack
      simp only [halt]
    unfold Triple
    rw [bind_of_ok htop, bind_of_ok (show push vch s = (.ok (), { s with stack := vch :: s.stack }) from rfl), hpop]
    refine ⟨Nat.zero_le _, ?_, fun v hv => h.altstack v ?_, rfl, h.nCheckSig⟩
    · intro v hv
      rcases List.mem_cons.mp hv with rfl | hv
      · exact hfit
      · exact h.stack v hv
    · rw [halt]
      exact List.mem_cons_of_mem vch hv

/-- `OP_2DROP` asks for the two elements it pops. -/
theorem safe_op2Drop : Safe 0 op2Drop := by
  intro s₀
  refine (needStack_safe (Within.start s₀ 0)).bind ?_
  rintro _ s ⟨h, rfl⟩
  exact (popstack_safe h).bind fun _ s h => popstack_safe h

/-- `OP_2DUP` reads both elements before it pushes. -/
theorem safe_op2Dup : Safe 0 op2Dup := by
  intro s₀
  refine (needStack_safe (Within.start s₀ 0)).bind ?_
  rintro _ s ⟨h, rfl⟩
  refine (stacktop_safe h (i := 2) (by decide) (by decide)).bind ?_
  rintro vch1 s ⟨hfit1, -, rfl⟩
  refine (stacktop_safe h (i := 1) (by decide) (by decide)).bind ?_
  rintro vch2 s ⟨hfit2, -, rfl⟩
  refine (push_safe h hfit1).bind fun _ s h => ?_
  exact push_ends h hfit2

/-- `OP_3DUP` reads all three elements before it pushes. -/
theorem safe_op3Dup : Safe 0 op3Dup := by
  intro s₀
  refine (needStack_safe (Within.start s₀ 0)).bind ?_
  rintro _ s ⟨h, rfl⟩
  refine (stacktop_safe h (i := 3) (by decide) (by decide)).bind ?_
  rintro vch1 s ⟨hfit1, -, rfl⟩
  refine (stacktop_safe h (i := 2) (by decide) (by decide)).bind ?_
  rintro vch2 s ⟨hfit2, -, rfl⟩
  refine (stacktop_safe h (i := 1) (by decide) (by decide)).bind ?_
  rintro vch3 s ⟨hfit3, -, rfl⟩
  refine (push_safe h hfit1).bind fun _ s h => ?_
  refine (push_safe h hfit2).bind fun _ s h => ?_
  exact push_ends h hfit3

/-- `OP_2OVER` asks for four elements and copies the lower pair. -/
theorem safe_op2Over : Safe 0 op2Over := by
  intro s₀
  refine (needStack_safe (Within.start s₀ 0)).bind ?_
  rintro _ s ⟨h, rfl⟩
  refine (stacktop_safe h (i := 4) (by decide) (by decide)).bind ?_
  rintro vch1 s ⟨hfit1, -, rfl⟩
  refine (stacktop_safe h (i := 3) (by decide) (by decide)).bind ?_
  rintro vch2 s ⟨hfit2, -, rfl⟩
  refine (push_safe h hfit1).bind fun _ s h => ?_
  exact push_ends h hfit2

/-- `OP_2ROT` asks for six elements, of which it erases two and pushes them again. -/
theorem safe_op2Rot : Safe 0 op2Rot := by
  intro s₀
  refine (needStack_safe (Within.start s₀ 0)).bind ?_
  rintro _ s ⟨h, rfl⟩
  refine (stacktop_safe h (i := 6) (by decide) (by decide)).bind ?_
  rintro vch1 s ⟨hfit1, -, rfl⟩
  refine (stacktop_safe h (i := 5) (by decide) (by decide)).bind ?_
  rintro vch2 s ⟨hfit2, -, rfl⟩
  refine (erase_safe h (by decide) (by decide)).bind fun _ s h => ?_
  refine (push_safe h hfit1).bind fun _ s h => ?_
  exact push_ends h hfit2

/-- `OP_2SWAP` asks for four elements and swaps inside them. -/
theorem safe_op2Swap : Safe 0 op2Swap := by
  intro s₀
  refine (needStack_safe (Within.start s₀ 0)).bind ?_
  rintro _ s ⟨h, rfl⟩
  refine (swap_safe h (by decide) (by decide) (by decide) (by decide)).bind fun _ s h => ?_
  exact (swap_safe h (by decide) (by decide) (by decide) (by decide)).mono (fun _ _ h => h.zero) (fun _ _ h => h)

/-- `OP_IFDUP` may push the element it has read. -/
theorem safe_opIfdup : Safe 0 opIfdup := by
  intro s₀
  refine (needStack_safe (Within.start s₀ 0)).bind ?_
  rintro _ s ⟨h, rfl⟩
  refine (stacktop_safe h (i := 1) (by decide) (by decide)).bind ?_
  rintro vch s ⟨hfit, -, rfl⟩
  split_ifs
  · exact push_ends h hfit
  · exact Triple.pure h.zero

/-- `OP_DEPTH` pushes the size of the stack. -/
theorem safe_opDepth : Safe 0 opDepth := by
  intro s₀
  exact Triple.get_bind (push_ends (Within.start s₀ 0) (fit_ofSize _))

/-- `OP_DROP` pops the element it asks for. -/
theorem safe_opDrop : Safe 0 opDrop := by
  intro s₀
  refine (needStack_safe (Within.start s₀ 0)).bind ?_
  rintro _ s ⟨h, rfl⟩
  exact popstack_safe h

/-- `OP_DUP` pushes the element it asks for. -/
theorem safe_opDup : Safe 0 opDup := by
  intro s₀
  refine (needStack_safe (Within.start s₀ 0)).bind ?_
  rintro _ s ⟨h, rfl⟩
  refine (stacktop_safe h (i := 1) (by decide) (by decide)).bind ?_
  rintro vch s ⟨hfit, -, rfl⟩
  exact push_ends h hfit

/-- `OP_NIP` erases the second of two elements. -/
theorem safe_opNip : Safe 0 opNip := by
  intro s₀
  refine (needStack_safe (Within.start s₀ 0)).bind ?_
  rintro _ s ⟨h, rfl⟩
  exact (erase_safe h (by decide) (by decide)).mono (fun _ _ h => h.zero) (fun _ _ h => h)

/-- `OP_OVER` pushes the second of two elements. -/
theorem safe_opOver : Safe 0 opOver := by
  intro s₀
  refine (needStack_safe (Within.start s₀ 0)).bind ?_
  rintro _ s ⟨h, rfl⟩
  refine (stacktop_safe h (i := 2) (by decide) (by decide)).bind ?_
  rintro vch s ⟨hfit, -, rfl⟩
  exact push_ends h hfit

/-- The operand is not negative and below the size of the stack. -/
theorem safe_opPick (fRoll : Bool) : Safe 0 (opPick fRoll) := by
  intro s₀
  refine (needStack_safe (Within.start s₀ 0)).bind ?_
  rintro _ s₀ ⟨h, rfl⟩
  refine (bignumtop_safe h (by decide) (by decide)).bind ?_
  rintro bn s₀ ⟨-, -, rfl⟩
  refine (popstack_safe h).bind fun _ s h => Triple.get_bind ?_
  refine (returnIf_safe h).bind ?_
  rintro _ s ⟨hrange, rfl⟩
  -- a negative depth and one beyond the stack have been refused
  simp only [Bool.or_eq_false_iff, decide_eq_false_iff_not, not_lt, not_le] at hrange
  have hdepth : Within s₀ 0 ((CBigNum.getint bn).toNat + 1) s :=
    ⟨by omega, h.stack, h.altstack, h.pc, h.nCheckSig⟩
  refine (stacktop_safe hdepth (Nat.succ_pos _) le_rfl).bind ?_
  rintro vch s ⟨hfit, -, rfl⟩
  have herase : Triple (if fRoll then erase ((CBigNum.getint bn).toNat + 1) (CBigNum.getint bn).toNat else pure ()) s
      (fun _ s => Within s₀ 0 0 s) (Refused s₀ 0) := by
    split_ifs
    · exact (erase_safe hdepth (Nat.le_succ _) le_rfl).mono (fun _ _ h => h.zero) (fun _ _ h => h)
    · exact Triple.pure h.zero
  exact herase.bind fun _ s h => push_ends h hfit

/-- `OP_ROT` swaps inside three elements. -/
theorem safe_opRot : Safe 0 opRot := by
  intro s₀
  refine (needStack_safe (Within.start s₀ 0)).bind ?_
  rintro _ s ⟨h, rfl⟩
  refine (swap_safe h (by decide) (by decide) (by decide) (by decide)).bind fun _ s h => ?_
  exact (swap_safe h (by decide) (by decide) (by decide) (by decide)).mono (fun _ _ h => h.zero) (fun _ _ h => h)

/-- `OP_SWAP` swaps the two elements it asks for. -/
theorem safe_opSwap : Safe 0 opSwap := by
  intro s₀
  refine (needStack_safe (Within.start s₀ 0)).bind ?_
  rintro _ s ⟨h, rfl⟩
  exact (swap_safe h (by decide) (by decide) (by decide) (by decide)).mono (fun _ _ h => h.zero) (fun _ _ h => h)

/-- `OP_TUCK` inserts below the two elements it asks for. -/
theorem safe_opTuck : Safe 0 opTuck := by
  intro s₀
  refine (needStack_safe (Within.start s₀ 0)).bind ?_
  rintro _ s ⟨h, rfl⟩
  refine (stacktop_safe h (i := 1) (by decide) (by decide)).bind ?_
  rintro vch s ⟨hfit, -, rfl⟩
  exact (insert_safe h (by decide) hfit).mono (fun _ _ h => h.zero) (fun _ _ h => h)

/-- `OP_SIZE` pushes a length. -/
theorem safe_opSize : Safe 0 opSize := by
  intro s₀
  refine (needStack_safe (Within.start s₀ 0)).bind ?_
  rintro _ s ⟨h, rfl⟩
  refine (stacktop_safe h (i := 1) (by decide) (by decide)).bind ?_
  rintro vch s ⟨hfit, -, rfl⟩
  exact push_ends h (fit_ofSize _)

/-- `OP_EQUAL` and `OP_EQUALVERIFY` pop two elements and push a truth value. -/
theorem safe_opEqual (fVerify : Bool) : Safe 0 (opEqual fVerify) := by
  intro s₀
  refine (needStack_safe (Within.start s₀ 0)).bind ?_
  rintro _ s ⟨h, rfl⟩
  refine (stacktop_safe h (i := 2) (by decide) (by decide)).bind ?_
  rintro vch1 s ⟨-, -, rfl⟩
  refine (stacktop_safe h (i := 1) (by decide) (by decide)).bind ?_
  rintro vch2 s ⟨-, -, rfl⟩
  refine (popstack_safe h).bind fun _ s h => (popstack_safe h).bind fun _ s h => ?_
  exact verifyResult_safe h

/-! Numbers: an operand has four bytes, so a result has no more than eight. -/

/-- The operations on one number, whose result still fits. -/
theorem safe_opUnary {f : Int → Int} (hf : ∀ bn : Int, bn.natAbs < 256 ^ 4 → (f bn).natAbs < 256 ^ 8) :
    Safe 0 (opUnary f) := by
  intro s₀
  refine (needStack_safe (Within.start s₀ 0)).bind ?_
  rintro _ s ⟨h, rfl⟩
  refine (bignumtop_safe h (by decide) (by decide)).bind ?_
  rintro bn s ⟨hbn, -, rfl⟩
  refine (popstack_safe h).bind fun _ s h => ?_
  exact push_ends h (fit_getvch (hf bn hbn))

/-- The operations on two numbers, whose result still fits. -/
theorem safe_opBinary {fVerify : Bool} {f : Int → Int → Int}
    (hf : ∀ bn1 bn2 : Int, bn1.natAbs < 256 ^ 4 → bn2.natAbs < 256 ^ 4 → (f bn1 bn2).natAbs < 256 ^ 8) :
    Safe 0 (opBinary fVerify f) := by
  intro s₀
  refine (needStack_safe (Within.start s₀ 0)).bind ?_
  rintro _ s ⟨h, rfl⟩
  -- both operands have four bytes at most
  refine (bignumtop_safe h (i := 2) (by decide) (by decide)).bind ?_
  rintro bn1 s ⟨hbn1, -, rfl⟩
  refine (bignumtop_safe h (i := 1) (by decide) (by decide)).bind ?_
  rintro bn2 s ⟨hbn2, -, rfl⟩
  refine (popstack_safe h).bind fun _ s h => (popstack_safe h).bind fun _ s h => ?_
  -- so the result has eight at most
  refine (push_safe h (fit_getvch (hf bn1 bn2 hbn1 hbn2))).bind fun _ s h => ?_
  split_ifs
  · refine (stacktop_safe h (by decide) (by decide)).bind ?_
    rintro vch s ⟨-, -, rfl⟩
    split_ifs
    · exact popstack_safe h
    · exact h.refuse
  · exact Triple.pure h.zero

/-- `OP_WITHIN` reads three numbers and pushes a truth value. -/
theorem safe_opWithin : Safe 0 opWithin := by
  intro s₀
  refine (needStack_safe (Within.start s₀ 0)).bind ?_
  rintro _ s ⟨h, rfl⟩
  refine (bignumtop_safe h (i := 3) (by decide) (by decide)).bind ?_
  rintro bn1 s ⟨-, -, rfl⟩
  refine (bignumtop_safe h (i := 2) (by decide) (by decide)).bind ?_
  rintro bn2 s ⟨-, -, rfl⟩
  refine (bignumtop_safe h (i := 1) (by decide) (by decide)).bind ?_
  rintro bn3 s ⟨-, -, rfl⟩
  refine (popstack_safe h).bind fun _ s h => (popstack_safe h).bind fun _ s h =>
    (popstack_safe h).bind fun _ s h => ?_
  refine push_ends h ?_
  split_ifs
  · exact fit_bool true
  · exact fit_bool false

/-- The hashes, all of at most 32 bytes. -/
theorem safe_opHash {f : Valtype → Valtype} (hf : ∀ vch, (f vch).length ≤ 32) : Safe 0 (opHash f) := by
  intro s₀
  refine (needStack_safe (Within.start s₀ 0)).bind ?_
  rintro _ s ⟨h, rfl⟩
  refine (stacktop_safe h (i := 1) (by decide) (by decide)).bind ?_
  rintro vch s ⟨-, -, rfl⟩
  refine (popstack_safe h).bind fun _ s h => ?_
  exact push_ends h (fit_of_length_le ((hf vch).trans (by decide)))

/-- `OP_CODESEPARATOR` sets `pbegincodehash`. -/
theorem safe_opCodeSeparator : Safe 0 opCodeSeparator := by
  intro s₀
  have h := Within.start s₀ 0
  exact Triple.modify ⟨h.depth, h.stack, h.altstack, h.pc, h.nCheckSig⟩

end Operations

/-! ### Signature checks -/

section Checks

variable {s₀ s : EvalState} {c k : ℕ} {check : Valtype → Valtype → CScript → Bool}

/-- Only `CheckSig` counts. -/
theorem callCheckSig_safe {vchSig vchPubKey : Valtype} {scriptCode : CScript} (h : Within s₀ c k s)
    (hc : s.nCheckSig + 1 ≤ s₀.nCheckSig + c) :
    Triple (callCheckSig check vchSig vchPubKey scriptCode) s
      (fun _ s' => Within s₀ c k s' ∧ s'.nCheckSig = s.nCheckSig + 1) (Refused s₀ c) :=
  ⟨⟨h.depth, h.stack, h.altstack, h.pc, hc⟩, rfl⟩

/-- `OP_CHECKSIG` counts one signature check. -/
theorem safe_opCheckSig (fVerify : Bool) : Safe 1 (opCheckSig check fVerify) := by
  intro s₀
  refine (needStack_safe (Within.start s₀ 1)).bind ?_
  rintro _ s ⟨h, rfl⟩
  refine (stacktop_safe h (i := 2) (by decide) (by decide)).bind ?_
  rintro vchSig s ⟨-, -, rfl⟩
  refine (stacktop_safe h (i := 1) (by decide) (by decide)).bind ?_
  rintro vchPubKey s ⟨-, -, rfl⟩
  refine Triple.get_bind ((callCheckSig_safe h le_rfl).bind ?_)
  rintro fSuccess s ⟨h, -⟩
  refine (popstack_safe h).bind fun _ s h => (popstack_safe h).bind fun _ s h => ?_
  exact verifyResult_safe h

/-- The signatures are at the positions from `isig` on. -/
theorem dropSigs_safe {isig nSigsCount : ℕ} {scriptCode : CScript} (h : Within s₀ c k s) (hpos : 0 < isig)
    (hk : isig + nSigsCount ≤ k + 1) :
    Triple (dropSigs isig nSigsCount scriptCode) s (fun _ s' => s' = s) (Refused s₀ c) := by
  induction nSigsCount generalizing isig scriptCode with
  | zero => exact Triple.pure rfl
  | succ nSigsCount ih =>
    refine (stacktop_safe h hpos (by omega)).bind ?_
    rintro vchSig s ⟨-, -, rfl⟩
    exact ih (Nat.succ_pos isig) (by omega)

/-- Every round has a key of its own, so there are no more checks than keys. The signatures are still there:
there are never more of them than keys. -/
theorem checkMultisigLoop_safe {scriptCode : CScript} {isig nSigsCount ikey nKeysCount : ℕ} (h : Within s₀ c k s)
    (hsigpos : 0 < isig) (hkeypos : 0 < ikey) (hsig : isig + nSigsCount ≤ k + 1) (hkey : ikey + nKeysCount ≤ k + 1)
    (hc : s.nCheckSig + nKeysCount ≤ s₀.nCheckSig + c) :
    Triple (checkMultisigLoop check scriptCode isig nSigsCount ikey nKeysCount) s
      (fun _ s' => Within s₀ c k s') (Refused s₀ c) := by
  induction nKeysCount generalizing isig nSigsCount ikey s with
  | zero => exact Triple.pure h
  | succ nKeysCount ih =>
    unfold checkMultisigLoop
    by_cases hdone : nSigsCount = 0
    · rw [if_pos hdone]
      exact Triple.pure h
    · rw [if_neg hdone]
      -- a round reads one signature and one key
      refine (stacktop_safe h hsigpos (by omega)).bind ?_
      rintro vchSig s ⟨-, -, rfl⟩
      refine (stacktop_safe h hkeypos (by omega)).bind ?_
      rintro vchPubKey s ⟨-, -, rfl⟩
      refine (callCheckSig_safe h (by omega)).bind ?_
      rintro fOk s ⟨h, hcount⟩
      -- the next key comes in any case, the next signature after a match
      cases fOk with
      | true =>
        simp only [if_true]
        split_ifs
        · exact Triple.pure h
        · exact ih h (by omega) (by omega) (by omega) (by omega) (by omega)
      | false =>
        simp only [Bool.false_eq_true, if_false]
        split_ifs
        · exact Triple.pure h
        · exact ih h hsigpos (by omega) (by omega) (by omega) (by omega)

/-- `c` is enough for a multisignature check with the number of keys on top of the stack. -/
def CoversKeys (c : ℕ) (stack : List Valtype) : Prop :=
  20 ≤ c ∨ ∀ bn, stack[0]?.bind castToBigNum = some bn → (CBigNum.getint bn).toNat ≤ c

/-- `OP_CHECKMULTISIG` counts at most one signature check for each of its keys. -/
theorem opCheckMultisig_safe {fVerify : Bool} (hc : CoversKeys c s₀.stack) :
    Triple (opCheckMultisig check fVerify) s₀ (fun _ s => Within s₀ c 0 s) (Refused s₀ c) := by
  -- the number of keys
  refine (needStack_safe (Within.start s₀ c)).bind ?_
  rintro _ s ⟨h, rfl⟩
  refine (bignumtop_safe h (by decide) (by decide)).bind ?_
  rintro bnKeys s ⟨-, htop, rfl⟩
  refine (returnIf_safe h).bind ?_
  rintro _ s ⟨hkeys, rfl⟩
  simp only [Bool.or_eq_false_iff, decide_eq_false_iff_not, not_lt] at hkeys
  -- `c` covers the keys, either as the greatest number there can be or by what is on the stack
  have hcount : (CBigNum.getint bnKeys).toNat ≤ c := by
    rcases hc with hc | hc
    · omega
    · exact hc bnKeys htop
  obtain ⟨nKeysCount, hnKeysCount⟩ := Int.eq_ofNat_of_zero_le hkeys.1
  rw [hnKeysCount, Int.toNat_natCast] at hcount
  simp only [hnKeysCount, Int.toNat_natCast]
  -- each key counts as an operation
  refine Triple.modify_bind (Triple.get_bind ?_)
  have hops : Within s c 1 { s with nOpCount := s.nOpCount + nKeysCount } :=
    ⟨h.depth, h.stack, h.altstack, h.pc, h.nCheckSig⟩
  refine (returnIf_safe hops).bind ?_
  rintro _ _ ⟨-, rfl⟩
  -- the number of signatures
  refine (needStack_safe hops).bind ?_
  rintro _ _ ⟨h, rfl⟩
  refine (bignumtop_safe h (by omega) le_rfl).bind ?_
  rintro bnSigs _ ⟨-, -, rfl⟩
  refine (returnIf_safe h).bind ?_
  rintro _ _ ⟨hsigs, rfl⟩
  simp only [Bool.or_eq_false_iff, decide_eq_false_iff_not, not_lt] at hsigs
  obtain ⟨nSigsCount, hnSigsCount⟩ := Int.eq_ofNat_of_zero_le hsigs.1
  simp only [hnSigsCount, Int.toNat_natCast]
  -- the signatures are taken out of the script
  refine (needStack_safe h).bind ?_
  rintro _ _ ⟨h, rfl⟩
  refine (dropSigs_safe h (by omega) (by omega)).bind ?_
  rintro scriptCode _ rfl
  -- every round of the loop checks one key at most
  refine (checkMultisigLoop_safe h (by omega) (by omega) (by omega) (by omega) ?_).bind ?_
  · exact Nat.add_le_add_left hcount s.nCheckSig
  · intro fSuccess s' h'
    -- everything is popped, and the answer is pushed
    refine (popstacks_safe (k := 0) (by rwa [Nat.zero_add])).bind fun _ s' h' => ?_
    exact verifyResult_safe h'

end Checks

/-! ### The switch -/

section Switch

variable {s₀ s : EvalState} {c : ℕ} {E : ScriptEnv} {check : Valtype → Valtype → CScript → Bool} {fExec : Bool}
  {opcode : UInt8}

/-- More signature checks are allowed. -/
theorem Within.mono {c' k : ℕ} (h : Within s₀ c k s) (hc : c ≤ c') : Within s₀ c' k s :=
  ⟨h.depth, h.stack, h.altstack, h.pc, h.nCheckSig.trans (Nat.add_le_add_left hc _)⟩

/-- The same for the failures. -/
theorem Refused.mono {c' : ℕ} {e : EvalFailure} (h : Refused s₀ c e s) (hc : c ≤ c') : Refused s₀ c' e s :=
  ⟨h.1, h.2.trans (Nat.add_le_add_left hc _)⟩

/-- The operation is safe in the state `s₀`, with at most `c` signature checks. -/
def SafeAt (s₀ : EvalState) (c : ℕ) (x : EvalCommand Unit) : Prop :=
  Triple x s₀ (fun _ s => Within s₀ c 0 s) (Refused s₀ c)

/-- A safe operation is safe at every state, with any allowance above its own. -/
theorem Safe.safeAt {c' : ℕ} {x : EvalCommand Unit} (h : Safe c' x) (hc : c' ≤ c) : SafeAt s₀ c x :=
  (h s₀).mono (fun _ _ h => h.mono hc) (fun _ _ h => h.mono hc)

/-- `c` is at least the number of signature checks that `opcode` makes on the stack. -/
structure Covers (c : ℕ) (opcode : UInt8) (stack : List Valtype) : Prop where
  checkSig : opcode = OP_CHECKSIG ∨ opcode = OP_CHECKSIGVERIFY → 1 ≤ c
  checkMultisig : opcode = OP_CHECKMULTISIG ∨ opcode = OP_CHECKMULTISIGVERIFY → CoversKeys c stack

/-! The results of arithmetic on four bytes. -/

/-- A truth value is a small number. -/
theorem natAbs_ofBool_lt (b : Bool) : (ofBool b).natAbs < 256 ^ 8 := by
  cases b <;> decide

/-- A comparison, or another operation with a `bool` as its result. -/
theorem safe_opBinary_ofBool {fVerify : Bool} (f : Int → Int → Bool) :
    Safe 0 (opBinary fVerify fun bn1 bn2 => ofBool (f bn1 bn2)) :=
  safe_opBinary fun bn1 bn2 _ _ => natAbs_ofBool_lt (f bn1 bn2)

/-- Every case of the switch is safe. -/
theorem cases_safe (hc : Covers c opcode s₀.stack) :
    ∀ p ∈ cases E check fExec, p.1 = opcode → SafeAt s₀ c p.2 := by
  have hnone : ∀ {x : EvalCommand Unit}, Safe 0 x → SafeAt s₀ c x := fun h => h.safeAt (Nat.zero_le c)
  have hunary : ∀ {f : Int → Int}, (∀ bn : Int, bn.natAbs < 256 ^ 4 → (f bn).natAbs < 256 ^ 8) →
      SafeAt s₀ c (opUnary f) := fun hf => hnone (safe_opUnary hf)
  have hcompare : ∀ {fVerify : Bool} (f : Int → Int → Bool),
      SafeAt s₀ c (opBinary fVerify fun bn1 bn2 => ofBool (f bn1 bn2)) := fun f => hnone (safe_opBinary_ofBool f)
  have hhash : ∀ {f : Valtype → Valtype} {n : ℕ}, (∀ vch, (f vch).length = n) → n ≤ 32 → SafeAt s₀ c (opHash f) :=
    fun hf hn => hnone (safe_opHash fun vch => (hf vch).trans_le hn)
  unfold cases
  simp only [List.forall_mem_cons, List.not_mem_nil, false_implies, implies_true, and_true]
  exact ⟨fun _ => hnone safe_pure,
    fun _ => hnone (safe_opIf false fExec), fun _ => hnone (safe_opIf true fExec), fun _ => hnone safe_opElse,
    fun _ => hnone safe_opEndif, fun _ => hnone safe_opVerify, fun _ => hnone safe_returnFalse,
    -- the stack
    fun _ => hnone safe_opToAltstack, fun _ => hnone safe_opFromAltstack, fun _ => hnone safe_op2Drop,
    fun _ => hnone safe_op2Dup, fun _ => hnone safe_op3Dup, fun _ => hnone safe_op2Over, fun _ => hnone safe_op2Rot,
    fun _ => hnone safe_op2Swap, fun _ => hnone safe_opIfdup, fun _ => hnone safe_opDepth, fun _ => hnone safe_opDrop,
    fun _ => hnone safe_opDup, fun _ => hnone safe_opNip, fun _ => hnone safe_opOver,
    fun _ => hnone (safe_opPick false), fun _ => hnone (safe_opPick true), fun _ => hnone safe_opRot,
    fun _ => hnone safe_opSwap, fun _ => hnone safe_opTuck, fun _ => hnone safe_opSize,
    fun _ => hnone (safe_opEqual false), fun _ => hnone (safe_opEqual true),
    -- numbers
    fun _ => hunary fun bn h => by omega, fun _ => hunary fun bn h => by omega, fun _ => hunary fun bn h => by omega,
    fun _ => hunary fun bn h => by split_ifs <;> omega, fun _ => hunary fun bn _ => natAbs_ofBool_lt _,
    fun _ => hunary fun bn _ => natAbs_ofBool_lt _,
    fun _ => hnone (safe_opBinary fun bn1 bn2 h1 h2 => by omega),
    fun _ => hnone (safe_opBinary fun bn1 bn2 h1 h2 => by omega),
    fun _ => hcompare _, fun _ => hcompare _, fun _ => hcompare _, fun _ => hcompare _, fun _ => hcompare _,
    fun _ => hcompare _, fun _ => hcompare _, fun _ => hcompare _, fun _ => hcompare _,
    fun _ => hnone (safe_opBinary fun bn1 bn2 h1 h2 => by split_ifs <;> omega),
    fun _ => hnone (safe_opBinary fun bn1 bn2 h1 h2 => by split_ifs <;> omega),
    fun _ => hnone safe_opWithin,
    -- hashes
    fun _ => hhash E.ripemd160_length (by decide), fun _ => hhash E.sha1_length (by decide),
    fun _ => hhash E.sha256_length (by decide), fun _ => hhash E.hash160_length (by decide),
    fun _ => hhash E.hash256_length (by decide), fun _ => hnone safe_opCodeSeparator,
    -- signatures
    fun h => (safe_opCheckSig false).safeAt (hc.checkSig (Or.inl h.symm)),
    fun h => (safe_opCheckSig true).safeAt (hc.checkSig (Or.inr h.symm)),
    fun h => opCheckMultisig_safe (hc.checkMultisig (Or.inl h.symm)),
    fun h => opCheckMultisig_safe (hc.checkMultisig (Or.inr h.symm))⟩

/-- An entry that the table has for an opcode is one of its cases. -/
theorem mem_of_lookup {α β : Type} [BEq α] [LawfulBEq α] {l : List (α × β)} {a : α} {b : β} (h : l.lookup a = some b) :
    (a, b) ∈ l := by
  obtain ⟨front, after, rfl, -⟩ := List.lookup_eq_some_iff.mp h
  exact List.mem_append_right front List.mem_cons_self

/-- Every operation of the `switch`: the case split is the one of `execOp`. -/
theorem execOp_safe (hc : Covers c opcode s₀.stack) : SafeAt s₀ c (execOp E check fExec opcode) := by
  unfold execOp
  split_ifs
  · exact (opNumber_safe opcode).safeAt (Nat.zero_le c)
  · exact safe_pure.safeAt (Nat.zero_le c)
  · cases hx : (cases E check fExec).lookup opcode with
    | none => exact safe_returnFalse.safeAt (Nat.zero_le c)
    | some x => exact cases_safe hc (opcode, x) (mem_of_lookup hx) rfl

end Switch

/-! ### One round -/

section Round

variable {s₀ s : EvalState} {c : ℕ} {E : ScriptEnv} {check : Valtype → Valtype → CScript → Bool} {opcode : UInt8}
  {vch pc : List UInt8}

/-- Reading an operation takes it off the script; nothing else of the state changes but the count. -/
theorem readOp_spec (s : EvalState) :
    Triple readOp s
      (fun r s' => ∃ pc nOpCount, getOp s.pc = some (r.1, r.2, pc) ∧ s' = { s with pc, nOpCount } ∧
        r.2.length ≤ 520 ∧ r.1 ∉ disabledOpcodes)
      (fun e s' => e = .returnFalse ∧ s'.nCheckSig = s.nCheckSig) := by
  unfold readOp
  refine Triple.get_bind ?_
  cases hget : getOp s.pc with
  | none => exact ⟨rfl, rfl⟩
  | some r =>
    obtain ⟨opcode, vchPushValue, pc⟩ := r
    refine Triple.modify_bind ?_
    -- a test that refuses leaves the state as it is
    have hreturnIf : ∀ (cond : Bool) (nOpCount : Int),
        Triple (returnIf cond) { s with pc, nOpCount } (fun _ s' => cond = false ∧ s' = { s with pc, nOpCount })
          (fun e s' => e = .returnFalse ∧ s'.nCheckSig = s.nCheckSig) := by
      intro cond nOpCount
      cases cond with
      | true => exact ⟨rfl, rfl⟩
      | false => exact ⟨rfl, rfl⟩
    -- the count of operations is the only other field that moves
    have hcount : Triple (countOp opcode) { s with pc } (fun _ s' => ∃ nOpCount, s' = { s with pc, nOpCount })
        (fun e s' => e = .returnFalse ∧ s'.nCheckSig = s.nCheckSig) := by
      unfold countOp
      split_ifs
      · refine Triple.modify_bind (Triple.get_bind ((hreturnIf _ (s.nOpCount + 1)).mono ?_ fun _ _ h => h))
        rintro _ s' ⟨-, rfl⟩
        exact ⟨_, rfl⟩
      · exact ⟨s.nOpCount, rfl⟩
    -- the tests come in the order of the source: the size, the count, the disabled operations
    refine (hreturnIf _ s.nOpCount).bind ?_
    rintro _ _ ⟨hlen, rfl⟩
    refine hcount.bind ?_
    rintro _ _ ⟨nOpCount, rfl⟩
    refine (hreturnIf _ nOpCount).bind ?_
    rintro _ _ ⟨hdisabled, rfl⟩
    refine Triple.pure ⟨pc, nOpCount, rfl, rfl, ?_, ?_⟩
    · simpa using hlen
    · simpa using hdisabled

/-- What holds after a round that began with `s`. -/
structure RoundFits (s : EvalState) (c : ℕ) (s' : EvalState) : Prop where
  stack : ∀ vch ∈ s'.stack, Fit s vch
  altstack : ∀ vch ∈ s'.altstack, Fit s vch
  pc : ∃ opcode vch, getOp s.pc = some (opcode, vch, s'.pc)
  nCheckSig : s'.nCheckSig ≤ s.nCheckSig + c
  size : s'.stack.length + s'.altstack.length ≤ 1000

/-- A round ends within the stack, or refuses. Only an operation that is executed can check signatures. -/
theorem evalRound_safe
    (hc : ∀ opcode vch pc, getOp s.pc = some (opcode, vch, pc) → s.vfExec.contains false = false →
      Covers c opcode s.stack) :
    Triple (evalRound E check) s (fun _ s' => RoundFits s c s') (Refused s c) := by
  unfold evalRound
  refine Triple.get_bind (((readOp_spec s).mono (fun _ _ h => h) ?_).bind ?_)
  · rintro e s' ⟨rfl, hcount⟩
    exact ⟨Or.inl rfl, hcount.le.trans (Nat.le_add_right _ _)⟩
  rintro ⟨opcode, vchPushValue⟩ _ ⟨pc, nOpCount, hget, rfl, hlen, -⟩
  have hstart := Within.start { s with pc, nOpCount } c
  have hop : SafeAt { s with pc, nOpCount } c
      (if (!s.vfExec.contains false) && opcode ≤ OP_PUSHDATA4 then push vchPushValue
        else if (!s.vfExec.contains false) || (OP_IF ≤ opcode && opcode ≤ OP_ENDIF) then
          execOp E check (!s.vfExec.contains false) opcode
        else pure ()) := by
    split_ifs with hpush hexec
    · exact push_ends hstart (fit_of_length_le hlen)
    · refine execOp_safe ?_
      cases hfExec : s.vfExec.contains false with
      | false => exact hc opcode vchPushValue pc hget hfExec
      | true =>
        -- the flow of control is followed in a branch that is not executed
        have hflow : OP_IF ≤ opcode ∧ opcode ≤ OP_ENDIF := by
          rw [hfExec] at hexec
          simpa using hexec
        refine ⟨?_, ?_⟩
        · rintro (rfl | rfl) <;> exact absurd hflow (by decide)
        · rintro (rfl | rfl) <;> exact absurd hflow (by decide)
    · exact Triple.pure hstart
  refine Triple.bind hop fun _ s' h => ?_
  unfold Triple checkSize
  split_ifs with hsize
  · exact ⟨Or.inl rfl, h.nCheckSig⟩
  · have hpc : s'.pc = pc := h.pc
    exact ⟨h.stack, h.altstack, ⟨opcode, vchPushValue, by rw [hpc]; exact hget⟩, h.nCheckSig, not_lt.mp hsize⟩

end Round

/-! ### The loop -/

section Loop

variable {s₀ s s' : EvalState} {c n : ℕ} {E : ScriptEnv} {check : Valtype → Valtype → CScript → Bool}

/-- No operation counts more than twenty signature checks. -/
theorem Covers.twenty {opcode : UInt8} {stack : List Valtype} : Covers 20 opcode stack :=
  ⟨fun _ => by decide, fun _ => Or.inl le_rfl⟩

/-- What fits after a part of the script fits at its start. -/
theorem Fit.trans {vch : Valtype} (h : Fit s vch) (hstack : ∀ vch ∈ s.stack, Fit s₀ vch)
    (haltstack : ∀ vch ∈ s.altstack, Fit s₀ vch) : Fit s₀ vch := by
  rcases h with h | h
  · rcases List.mem_append.mp h with h | h
    · exact hstack vch h
    · exact haltstack vch h
  · exact Or.inr h

/-- What holds after rounds that began with `s₀`. -/
structure LoopFits (s₀ : EvalState) (n : ℕ) (s : EvalState) : Prop where
  stack : ∀ vch ∈ s.stack, Fit s₀ vch
  altstack : ∀ vch ∈ s.altstack, Fit s₀ vch
  size : (n = 0 ∨ s₀.pc = []) ∧ s = s₀ ∨ s.stack.length + s.altstack.length ≤ 1000

/-- The loop of `EvalScript` begins with nothing counted. -/
theorem LoopFits.start (h : n = 0 ∨ s.pc = []) : LoopFits s n s :=
  ⟨(Within.start s 0).stack, (Within.start s 0).altstack, Or.inl ⟨h, rfl⟩⟩

/-- After any number of rounds the elements fit; if there was a round, there are at most 1000. -/
theorem evalLoop_fits (s : EvalState) (n : ℕ) :
    Triple (evalLoop E check n) s (fun _ s' => LoopFits s n s') (fun e _ => e = .returnFalse ∨ e = .overflow) := by
  induction n generalizing s with
  | zero => exact Triple.pure (LoopFits.start (Or.inl rfl))
  | succ n ih =>
    unfold evalLoop
    refine Triple.get_bind ?_
    split_ifs with hempty
    · exact Triple.pure (LoopFits.start (Or.inr (List.isEmpty_iff.mp hempty)))
    · have hround : Triple (evalRound E check) s (fun _ s' => RoundFits s 20 s') (Refused s 20) :=
        evalRound_safe fun _ _ _ _ _ => Covers.twenty
      refine (hround.mono (fun _ _ h => h) fun e s' h => h.1).bind fun _ s₁ h₁ => ?_
      refine (ih s₁).mono (fun _ s₂ h₂ => ?_) fun _ _ h => h
      refine ⟨fun vch hvch => (h₂.stack vch hvch).trans h₁.stack h₁.altstack,
        fun vch hvch => (h₂.altstack vch hvch).trans h₁.stack h₁.altstack, Or.inr ?_⟩
      -- without a further round the bound is that of this one
      rcases h₂.size with ⟨-, rfl⟩ | hsize
      · exact h₁.size
      · exact hsize

/-- The body of `EvalScript` adds two tests to the loop. -/
theorem evalBody_rule {script : CScript} {Q : EvalState → Prop} {R : EvalFailure → EvalState → Prop}
    (hloop : Triple (evalLoop E check script.length) s (fun _ s' => Q s') R) (hfirst : R .returnFalse s)
    (hlast : ∀ s', Q s' → R .returnFalse s') : Triple (evalBody E check script) s (fun _ s' => Q s') R := by
  have hreturnIf : ∀ {cond : Bool} {s : EvalState}, R .returnFalse s → Triple (returnIf cond) s (fun _ s' => s' = s) R := by
    intro cond s h
    cases cond with
    | true => exact h
    | false => exact rfl
  unfold evalBody
  refine (hreturnIf hfirst).bind ?_
  rintro _ _ rfl
  refine hloop.bind fun _ s' h => Triple.get_bind ((hreturnIf (hlast s' h)).mono ?_ fun _ _ h => h)
  rintro _ _ rfl
  exact h

end Loop

end EvalCommand

/-! ### Whole scripts -/

section Scripts

open EvalCommand

variable (E : ScriptEnv) (txTo : CTransaction) (nIn : ℕ) (nHashType : Int)

/-- What `EvalScript` begins with. -/
def EvalState.start (stack : List Valtype) (script : CScript) : EvalState :=
  { stack, pc := script, pbegincodehash := script }

/-- The whole loop: what is on the stacks at its end is small or was there before. -/
theorem evalRun_fits (stack : List Valtype) (script : CScript) :
    Triple (evalBody E (fun vchSig vchPubKey scriptCode => E.checkSig vchSig vchPubKey scriptCode txTo nIn nHashType)
        script) (EvalState.start stack script)
      (fun _ s' => LoopFits (EvalState.start stack script) script.length s')
      (fun e _ => e = .returnFalse ∨ e = .overflow) :=
  evalBody_rule (evalLoop_fits _ _) (Or.inl rfl) fun _ _ => Or.inl rfl

/-- On an empty stack it fails, as there is nothing to hash. -/
theorem evalScript_nil_of_isPayToScriptHash {script : CScript} (h : isPayToScriptHash script) :
    (evalScript E [] script txTo nIn nHashType).1 = false := by
  obtain ⟨hash, hlen, rfl⟩ := isPayToScriptHash_iff.mp h
  have hrun : (evalRun E [] (OP_HASH160 :: 20 :: (hash ++ [OP_EQUAL])) txTo nIn nHashType).1 = .error .returnFalse := by
    unfold evalRun evalBody
    rw [List.length_cons, List.length_cons, List.length_append, hlen]
    rfl
  unfold evalScript
  generalize evalRun E [] (OP_HASH160 :: 20 :: (hash ++ [OP_EQUAL])) txTo nIn nHashType = r at hrun
  obtain ⟨r, s⟩ := r
  cases hrun
  rfl

/-- `VerifyScript` always returns, whatever both scripts are. -/
theorem isSome_verifyScript (scriptSig scriptPubKey : CScript) (fValidatePayToScriptHash : Bool) :
    (verifyScript E scriptSig scriptPubKey txTo nIn fValidatePayToScriptHash nHashType).isSome := by
  unfold verifyScript
  split
  · rfl
  · next stack hsig =>
    split
    · rfl
    · rfl
    · next top rest hpub =>
      split_ifs with hcast hp2sh hpush
      · rfl
      · rfl
      · -- the stack that `OP_HASH160` has worked on is not empty
        cases stack with
        | nil =>
          have hfalse := evalScript_nil_of_isPayToScriptHash E txTo nIn nHashType (Bool.and_eq_true_iff.mp hp2sh).2
          rw [hpub] at hfalse
          exact absurd hfalse (by simp)
        | cons pubKeySerialized stackCopy =>
          dsimp only
          split <;> rfl
      · rfl

/-- No access of `EvalScript` or `VerifyScript` is out of range; what a script pushes is short or a copy of an
element of the initial stack, after any number of rounds, and from the first round on there are at most 1000
elements. -/
theorem evalScript_safe :
    (∀ stack script, (evalRun E stack script txTo nIn nHashType).1 = .ok () ∨
      (evalRun E stack script txTo nIn nHashType).1 = .error .returnFalse ∨
      (evalRun E stack script txTo nIn nHashType).1 = .error .overflow) ∧
    (∀ stack script check nRounds s,
      evalLoop E check nRounds (EvalState.start stack script) = (.ok (), s) →
      (∀ vch ∈ s.stack ++ s.altstack, vch.length ≤ 520 ∨ vch ∈ stack) ∧
      (nRounds = 0 ∨ script = [] ∨ s.stack.length + s.altstack.length ≤ 1000)) ∧
    (∀ stack script s, evalRun E stack script txTo nIn nHashType = (.ok (), s) →
      (∀ vch ∈ s.stack ++ s.altstack, vch.length ≤ 520 ∨ vch ∈ stack) ∧
      (script = [] ∨ s.stack.length + s.altstack.length ≤ 1000)) ∧
    ∀ scriptSig scriptPubKey fValidatePayToScriptHash,
      (verifyScript E scriptSig scriptPubKey txTo nIn fValidatePayToScriptHash nHashType).isSome := by
  -- an element that was there before is one of the initial stack
  have hfit : ∀ {stack script n s}, LoopFits (EvalState.start stack script) n s →
      ∀ vch ∈ s.stack ++ s.altstack, vch.length ≤ 520 ∨ vch ∈ stack := by
    intro stack script n s h vch hvch
    have hor : Fit (EvalState.start stack script) vch := by
      rcases List.mem_append.mp hvch with hvch | hvch
      · exact h.stack vch hvch
      · exact h.altstack vch hvch
    rcases hor with hmem | hlen
    · exact Or.inr (by simpa [EvalState.start] using hmem)
    · exact Or.inl hlen
  refine ⟨fun stack script => ?_, fun stack script check nRounds s hrun => ?_, fun stack script s hrun => ?_,
    isSome_verifyScript E txTo nIn nHashType⟩
  · -- a run ends without an error, or with one of two
    have h := evalRun_fits E txTo nIn nHashType stack script
    change Triple _ _ _ _ at h
    cases hrun : evalRun E stack script txTo nIn nHashType with
    | mk r s =>
      cases r with
      | ok u => exact Or.inl rfl
      | error e =>
        rcases h.of_error hrun with rfl | rfl
        · exact Or.inr (Or.inl rfl)
        · exact Or.inr (Or.inr rfl)
  · -- the stack after the rounds
    have h := (evalLoop_fits (EvalState.start stack script) nRounds).of_ok hrun
    refine ⟨hfit h, ?_⟩
    rcases h.size with ⟨hn | hpc, -⟩ | hsize
    · exact Or.inl hn
    · exact Or.inr (Or.inl hpc)
    · exact Or.inr (Or.inr hsize)
  · -- the stack after a run that succeeds
    have h := (evalRun_fits E txTo nIn nHashType stack script).of_ok hrun
    refine ⟨hfit h, ?_⟩
    rcases h.size with ⟨hn | hpc, -⟩ | hsize
    · exact Or.inl (List.length_eq_zero_iff.mp hn)
    · exact Or.inl hpc
    · exact Or.inr hsize

end Scripts

/-- Hash functions that know only one value, and a `CheckSig` that takes a signature for the key it equals. -/
def Sample.scriptEnv : ScriptEnv where
  ripemd160 _ := List.replicate 20 0
  sha1 _ := List.replicate 20 0
  sha256 _ := List.replicate 32 0
  hash160 _ := List.replicate 20 0
  hash256 _ := List.replicate 32 0
  ripemd160_length _ := rfl
  sha1_length _ := rfl
  sha256_length _ := rfl
  hash160_length _ := rfl
  hash256_length _ := rfl
  checkSig vchSig vchPubKey _ _ _ _ := vchSig = vchPubKey

/-- A transaction with one input and no outputs. -/
def Sample.spending : CTransaction :=
  { nTime := 0, vin := [{ prevout := { hash := 0, n := 0 }, scriptSig := [] }], vout := [] }

/-- A push and `OP_DUP`. -/
theorem evalScript_safe_dup :
    (∀ vch ∈ [[7], [7]] ++ ([] : List Valtype), vch.length ≤ 520 ∨ vch ∈ ([] : List Valtype)) ∧
      (([1, 7, OP_DUP] : CScript) = [] ∨ ([[7], [7]] : List Valtype).length + ([] : List Valtype).length ≤ 1000) :=
  (evalScript_safe Sample.scriptEnv Sample.spending 0 0).2.2.1 [] [1, 7, OP_DUP]
    { stack := [[7], [7]], pc := [], pbegincodehash := [1, 7, OP_DUP], nOpCount := 1 } rfl

/-- `OP_DUP` pushes a copy of an element of 521 bytes that the caller has left, and the empty script leaves 1001
elements. -/
theorem evalScript_keeps_large :
    evalScript Sample.scriptEnv [List.replicate 521 0] [OP_DUP] Sample.spending 0 0 =
      (true, [List.replicate 521 0, List.replicate 521 0]) ∧
    evalScript Sample.scriptEnv (List.replicate 1001 []) [] Sample.spending 0 0 = (true, List.replicate 1001 []) :=
  ⟨rfl, rfl⟩

end Peershares
