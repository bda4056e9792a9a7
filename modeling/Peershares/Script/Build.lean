import Peershares.Model.ScriptBuild
import Peershares.Script.Number
import Peershares.Script.Push

/-!
# Building and parsing

What is built with `operator<<` is read back by `GetOp`, an operation for each item, and `GetOp` never leaves the
script.

Two kinds of items do not come back: an opcode that announces data takes what is appended after it for its data,
and of the size of a push only four bytes are written.

* `getOp2_none`, `getOp2_some` — `GetOp2` on positions does what `getOp` does on the rest of a script
* `getOp_code` — an item is read as its operation
* `build_parses` — built, and read back; and the loop over any script ends inside of it
-/

open Framework

namespace Peershares

variable {script rest vch : CScript} {opcode : UInt8} {pc n nSize : ℕ} {ops acc : List (UInt8 × List UInt8)}

/-! ### `GetOp2` by position -/

/-- Some bytes at a place of the script. -/
theorem bytesAt_of_drop {v : List UInt8} (hpc : pc ≤ script.length) (h : script.drop pc = v ++ rest) :
    bytesAt script pc v.length = some v ∧ pc + v.length ≤ script.length ∧ script.drop (pc + v.length) = rest := by
  have hlen := congrArg List.length h
  rw [List.length_drop, List.length_append] at hlen
  have hle : pc + v.length ≤ script.length := by omega
  refine ⟨?_, hle, ?_⟩
  · unfold bytesAt
    rw [if_pos hle, h, List.take_left]
  · rw [← List.drop_drop, h, List.drop_left]

/-- The bytes of a size. -/
theorem sizeAt_of_drop {v : List UInt8} (hpc : pc ≤ script.length) (h : script.drop pc = v ++ rest) :
    sizeAt script pc v.length = some (some (v.foldr (fun b nSize => b.toNat + 256 * nSize) 0), pc + v.length) := by
  obtain ⟨hbytes, hle, -⟩ := bytesAt_of_drop hpc h
  unfold sizeAt
  rw [if_neg (by omega), hbytes]
  rfl

/-- Too few bytes for a size. -/
theorem sizeAt_short (h : (script.drop pc).length < n) : sizeAt script pc n = some (none, pc) := by
  rw [List.length_drop] at h
  unfold sizeAt
  rw [if_pos h]

/-- An operand without its size. -/
theorem operandSizeAt_none (h : getOpSize opcode (script.drop pc) = none) :
    operandSizeAt script opcode pc = some (none, pc) := by
  unfold getOpSize at h
  unfold operandSizeAt
  split_ifs at h ⊢ with h₀ h₁ h₂
  · -- one byte, two or four
    split at h
    · cases h
    · next hdrop =>
      refine sizeAt_short ?_
      rw [hdrop]
      decide
  · split at h
    · cases h
    · next hshort =>
      refine sizeAt_short ?_
      match hdrop : script.drop pc with
      | [] => decide
      | [b] => simp
      | b₀ :: b₁ :: l => exact absurd hdrop (hshort b₀ b₁ l)
  · split at h
    · cases h
    · next hshort =>
      refine sizeAt_short ?_
      match hdrop : script.drop pc with
      | [] => decide
      | [b] => simp
      | [b₀, b₁] => simp
      | [b₀, b₁, b₂] => simp
      | b₀ :: b₁ :: b₂ :: b₃ :: l => exact absurd hdrop (hshort b₀ b₁ b₂ b₃ l)

/-- An operand with its size. -/
theorem operandSizeAt_some (hpc : pc ≤ script.length) (h : getOpSize opcode (script.drop pc) = some (nSize, rest)) :
    ∃ pc', operandSizeAt script opcode pc = some (some nSize, pc') ∧ pc ≤ pc' ∧ pc' ≤ script.length ∧
      script.drop pc' = rest := by
  -- the bytes of the size, in each of the four encodings
  suffices hsize : ∃ v, script.drop pc = v ++ rest ∧ operandSizeAt script opcode pc = some (some nSize, pc + v.length) by
    obtain ⟨v, hdrop, hat⟩ := hsize
    obtain ⟨-, hle, hrest⟩ := bytesAt_of_drop hpc hdrop
    exact ⟨pc + v.length, hat, Nat.le_add_right _ _, hle, hrest⟩
  unfold getOpSize at h
  unfold operandSizeAt
  split_ifs at h ⊢ with h₀ h₁ h₂
  · cases h
    exact ⟨[], rfl, rfl⟩
  · split at h
    · next b l hdrop =>
      cases h
      exact ⟨[b], hdrop, @sizeAt_of_drop script _ pc [b] hpc hdrop⟩
    · cases h
  · split at h
    · next b₀ b₁ l hdrop =>
      cases h
      exact ⟨[b₀, b₁], hdrop, @sizeAt_of_drop script _ pc [b₀, b₁] hpc hdrop⟩
    · cases h
  · split at h
    · next b₀ b₁ b₂ b₃ l hdrop =>
      cases h
      exact ⟨[b₀, b₁, b₂, b₃], hdrop, @sizeAt_of_drop script _ pc [b₀, b₁, b₂, b₃] hpc hdrop⟩
    · cases h

/-- Where `getOp` finds no operation, `GetOp2` fails inside of the script. -/
theorem getOp2_none (hpc : pc ≤ script.length) (h : getOp (script.drop pc) = none) :
    ∃ pc', getOp2 script pc = some (.fail pc') ∧ pc ≤ pc' ∧ pc' ≤ script.length := by
  unfold getOp2
  split_ifs with hend
  · exact ⟨pc, rfl, le_rfl, hpc⟩
  have hlt : pc < script.length := not_le.mp hend
  rw [List.drop_eq_getElem_cons hlt] at h
  rw [List.getElem?_eq_getElem hlt]
  simp only [getOp, Option.bind_eq_bind, Option.bind_some] at h ⊢
  split_ifs at h ⊢ with hop
  cases hsize : getOpSize script[pc] (script.drop (pc + 1)) with
  | none =>
    -- the size itself is cut off
    rw [operandSizeAt_none hsize]
    exact ⟨pc + 1, rfl, Nat.le_succ pc, hlt⟩
  | some r =>
    obtain ⟨nSize, rest⟩ := r
    obtain ⟨pc', hat, hle, hle', hrest⟩ := operandSizeAt_some hlt hsize
    rw [hsize] at h
    simp only at h
    split_ifs at h with hshort
    -- the operand is
    rw [← hrest, List.length_drop] at hshort
    rw [hat]
    simp only [Option.bind_some]
    rw [if_pos hshort]
    exact ⟨pc', rfl, (Nat.le_succ pc).trans hle, hle'⟩

/-- Where `getOp` finds an operation, `GetOp2` returns it and goes to the end of it. -/
theorem getOp2_some (h : getOp (script.drop pc) = some (opcode, vch, rest)) :
    ∃ pc', getOp2 script pc = some ⟨true, opcode, vch, pc'⟩ ∧ pc < pc' ∧ pc' ≤ script.length ∧
      script.drop pc' = rest := by
  unfold getOp2
  split_ifs with hend
  · rw [List.drop_eq_nil_of_le hend] at h
    cases h
  have hlt : pc < script.length := not_le.mp hend
  rw [List.drop_eq_getElem_cons hlt] at h
  rw [List.getElem?_eq_getElem hlt]
  simp only [getOp, Option.bind_eq_bind, Option.bind_some] at h ⊢
  split_ifs at h ⊢ with hop
  · cases hsize : getOpSize script[pc] (script.drop (pc + 1)) with
    | none =>
      rw [hsize] at h
      cases h
    | some r =>
      obtain ⟨nSize, after⟩ := r
      obtain ⟨pc', hat, hle, hle', hrest⟩ := operandSizeAt_some hlt hsize
      rw [hsize] at h
      simp only at h
      split_ifs at h with hshort
      -- the operand is complete
      have hlen : nSize ≤ script.length - pc' := by
        rw [← hrest, List.length_drop] at hshort
        exact not_lt.mp hshort
      have hsplit : script.drop pc' = after.take nSize ++ after.drop nSize := by rw [hrest, List.take_append_drop]
      have htake : (after.take nSize).length = nSize := List.length_take_of_le (not_lt.mp hshort)
      obtain ⟨hbytes, hin, hdrop⟩ := bytesAt_of_drop hle' hsplit
      rw [htake] at hbytes hin hdrop
      obtain ⟨rfl, rfl, rfl⟩ : script[pc] = opcode ∧ after.take nSize = vch ∧ after.drop nSize = rest := by
        simpa using h
      rw [hat]
      simp only [Option.bind_some]
      rw [if_neg (not_lt.mpr hlen), hbytes]
      exact ⟨pc' + nSize, rfl, by omega, hin, hdrop⟩
  · obtain ⟨rfl, rfl, rfl⟩ : script[pc] = opcode ∧ [] = vch ∧ script.drop (pc + 1) = rest := by simpa using h
    exact ⟨pc + 1, rfl, Nat.lt_succ_self pc, hlt, rfl⟩

/-! ### The loop over a script -/

/-- The operations of a script that can be read to its end. -/
inductive Parses : List (UInt8 × List UInt8) → CScript → Prop
  | nil : Parses [] []
  | cons {opcode : UInt8} {vch : List UInt8} {script rest : CScript} {ops : List (UInt8 × List UInt8)}
      (hop : getOp script = some (opcode, vch, rest)) (hrest : Parses ops rest) : Parses ((opcode, vch) :: ops) script

/-- There are at most as many operations as bytes. -/
theorem Parses.length_le (h : Parses ops script) : ops.length ≤ script.length := by
  induction h with
  | nil => exact le_rfl
  | cons hop _ ih =>
    have hlt := length_lt_of_getOp hop
    rw [List.length_cons]
    omega

/-- Such a script is read, and the loop is left at its end. -/
theorem loop_of_parses (hpc : pc ≤ script.length) (h : Parses ops (script.drop pc)) {fuel : ℕ}
    (hfuel : ops.length < fuel) : loop (getOpRound script) fuel (acc, pc) = some (some (acc ++ ops, script.length)) := by
  induction fuel generalizing ops acc pc with
  | zero => exact absurd hfuel (Nat.not_lt_zero _)
  | succ fuel ih =>
    generalize hdrop : script.drop pc = after at h
    cases h with
    | nil =>
      -- at the end of the script the loop stops
      have hend : pc = script.length := le_antisymm hpc (List.drop_eq_nil_iff.mp hdrop)
      subst hend
      obtain ⟨pc', hget, -⟩ := @getOp2_none script _ le_rfl (by rw [List.drop_length]; rfl)
      have hround : getOpRound script (acc, script.length) = .inr (some (acc, script.length)) := by
        unfold getOpRound
        rw [hget]
        rfl
      rw [loop_break hround, List.append_nil]
    | @cons opcode vch _ _ ops hop hrest =>
      rw [← hdrop] at hop
      obtain ⟨pc', hget, -, hle, hdrop'⟩ := getOp2_some hop
      rw [← hdrop'] at hrest
      have hround : getOpRound script (acc, pc) = .inl (acc ++ [(opcode, vch)], pc') := by
        unfold getOpRound
        rw [hget]
        rfl
      rw [loop_continue hround, ih hle hrest (Nat.lt_of_succ_lt_succ hfuel), List.append_assoc]
      rfl

/-- `GetOp2` stays in the script, and goes forward when it finds an operation. -/
theorem getOp2_within (hpc : pc ≤ script.length) : ∃ r, getOp2 script pc = some r ∧ pc ≤ r.pc ∧ r.pc ≤ script.length ∧
    (r.fRet = true → pc < r.pc) := by
  cases hop : getOp (script.drop pc) with
  | none =>
    obtain ⟨pc', hget, hle, hle'⟩ := getOp2_none hpc hop
    exact ⟨_, hget, hle, hle', fun hret => absurd hret Bool.false_ne_true⟩
  | some op =>
    obtain ⟨opcode, vch, rest⟩ := op
    obtain ⟨pc', hget, hlt, hle', -⟩ := getOp2_some hop
    exact ⟨_, hget, hlt.le, hle', fun _ => hlt⟩

/-- The loop ends on every script, without a read beyond the end. -/
theorem getOps_terminates (script : CScript) :
    ∃ ops pc, pc ≤ script.length ∧ ∀ fuel, script.length < fuel → getOps script fuel = some (some (ops, pc)) := by
  -- a round that goes on moves forward
  have hstep : ∀ s s', s.2 ≤ script.length → getOpRound script s = .inl s' →
      s'.2 ≤ script.length ∧ script.length - s'.2 < script.length - s.2 := by
    intro s s' hs hround
    obtain ⟨r, hget, -, hle, hforward⟩ := getOp2_within hs
    unfold getOpRound at hround
    rw [hget] at hround
    simp only at hround
    split_ifs at hround with hret
    cases hround
    have hlt := hforward hret
    exact ⟨hle, by omega⟩
  obtain ⟨result, hresult⟩ := loop_terminates hstep (show ([], 0).2 ≤ script.length from Nat.zero_le _)
  obtain ⟨s, hreach, hlast⟩ := loop_last (hresult (script.length + 1) (Nat.lt_succ_of_le (Nat.sub_le _ _)))
  have hs : s.2 ≤ script.length :=
    @Reaches.invariant _ _ _ _ _ (fun s => s.2 ≤ script.length) (fun s s' h hround => (hstep s s' h hround).1)
      (Nat.zero_le _) hreach
  -- the last round failed, or stopped at the end
  obtain ⟨r, hget, -⟩ := getOp2_within hs
  unfold getOpRound at hlast
  rw [hget] at hlast
  simp only at hlast
  split_ifs at hlast with hret
  cases hlast
  exact ⟨s.1, s.2, hs, fun fuel hfuel => hresult fuel ((Nat.sub_le _ _).trans_lt hfuel)⟩

/-! ### Items -/

/-- The opcode in front of a push. -/
def pushOpcode (vch : List UInt8) : UInt8 :=
  if vch.length < 0x4c then UInt8.ofNat vch.length
  else if vch.length ≤ 0xff then OP_PUSHDATA1
  else if vch.length ≤ 0xffff then OP_PUSHDATA2
  else OP_PUSHDATA4

/-- The operation that an item stands for. -/
def ScriptItem.op : ScriptItem → UInt8 × List UInt8
  | .opcode opcode => (UInt8.ofNat opcode.toNat, [])
  | .data b => (pushOpcode b, b)
  | .int64 n =>
    if n = -1 ∨ (1 ≤ n ∧ n ≤ 16) then (UInt8.ofNat (n + 0x50).toNat, [])
    else (pushOpcode (CBigNum.getvch n), CBigNum.getvch n)
  | .uint64 n =>
    if 1 ≤ n ∧ n ≤ 16 then (UInt8.ofNat (n + 0x50), []) else (pushOpcode (CBigNum.getvch n), CBigNum.getvch n)
  | .bignum bn => (pushOpcode (CBigNum.getvch bn), CBigNum.getvch bn)
  | .uint160 b => (20, b.1)
  | .uint256 b => (32, b.1)

/-- The values that come back: opcodes that announce no data, data whose size has four bytes, and numbers in the
range of their types. -/
def ScriptItem.Readable : ScriptItem → Prop
  | .opcode opcode => opcode = 0 ∨ (0x4e < opcode ∧ opcode ≤ 0xff)
  | .data b => b.length < 2 ^ 32
  | .int64 n => -2 ^ 63 ≤ n ∧ n < 2 ^ 63
  | .uint64 n => n < 2 ^ 64
  | .bignum bn => (CBigNum.getvch bn).length < 2 ^ 32
  | .uint160 _ => True
  | .uint256 _ => True

/-- An operation begins with its code. -/
theorem head_of_getOp {op : UInt8} {pc : CScript} (h : getOp (op :: pc) = some (opcode, vch, rest)) : op = opcode := by
  simp only [getOp] at h
  split_ifs at h
  · split at h
    · cases h
    · split_ifs at h
      exact (Prod.mk.inj (Option.some.inj h)).1
  · exact (Prod.mk.inj (Option.some.inj h)).1

/-- A push that was built is read back, whichever of the four encodings it has. -/
theorem getOp_pushData (h : vch.length < 2 ^ 32) (rest : CScript) :
    getOp (pushData vch ++ rest) = some (pushOpcode vch, vch, rest) := by
  obtain ⟨opcode, -, hget⟩ := (push_pushData h).getOp rest
  have hhead : ∃ after, pushData vch = pushOpcode vch :: after := by
    unfold pushData pushOpcode
    split_ifs <;> exact ⟨_, rfl⟩
  obtain ⟨after, hafter⟩ := hhead
  rw [hafter, List.cons_append] at hget ⊢
  rw [hget, head_of_getOp hget]

/-- An opcode that announces no data. -/
theorem getOp_opcode {n : ℕ} (h : n = 0 ∨ (0x4e < n ∧ n ≤ 0xff)) (rest : CScript) :
    getOp (UInt8.ofNat n :: rest) = some (UInt8.ofNat n, [], rest) := by
  rcases h with rfl | ⟨hlow, hhigh⟩
  · exact getOp_of_getOpSize (by decide) rfl
  · refine getOp_cons ?_ rest
    intro hle
    have hle' : (UInt8.ofNat n).toNat ≤ 0x4e := hle
    rw [UInt8.toNat_ofNat', Nat.mod_eq_of_lt (by omega)] at hle'
    omega

/-- A number is short. -/
theorem length_getvch_lt {bn : ℤ} (h : bn.natAbs < 256 ^ 8) : (CBigNum.getvch bn).length < 2 ^ 32 :=
  (CBigNum.length_getvch_le h).trans_lt (by norm_num)

/-- An item that can be read is appended as bytes that `GetOp` reads as its operation. -/
theorem getOp_code {item : ScriptItem} (h : item.Readable) :
    ∃ code, (∀ script, CScript.append script item = .ok (script ++ code)) ∧
    ∀ rest, getOp (code ++ rest) = some (item.op.1, item.op.2, rest) := by
  cases item with
  -- an opcode is its own byte
  | opcode opcode =>
    refine ⟨[UInt8.ofNat opcode.toNat], fun script => if_neg ?_, fun rest => getOp_opcode ?_ rest⟩
    · rcases h with rfl | ⟨hlow, hhigh⟩ <;> omega
    · rcases h with rfl | ⟨hlow, hhigh⟩
      · exact .inl rfl
      · exact .inr (by omega)
  -- data is pushed
  | data b => exact ⟨pushData b, fun _ => rfl, getOp_pushData h⟩
  -- a number is one of the small opcodes, or it is pushed
  | int64 n =>
    refine ⟨pushInt64 n, fun _ => rfl, fun rest => ?_⟩
    by_cases hsmall : n = -1 ∨ (1 ≤ n ∧ n ≤ 16)
    · -- one byte, which is no push
      rw [show pushInt64 n = [UInt8.ofNat (n + 0x50).toNat] from if_pos hsmall,
        show (ScriptItem.int64 n).op = (UInt8.ofNat (n + 0x50).toNat, []) from if_pos hsmall]
      have hop : (n + 0x50).toNat = 0 ∨ (0x4e < (n + 0x50).toNat ∧ (n + 0x50).toNat ≤ 0xff) := by omega
      exact getOp_opcode hop rest
    · rw [show pushInt64 n = pushData (CBigNum.getvch n) from if_neg hsmall,
        show (ScriptItem.int64 n).op = (pushOpcode (CBigNum.getvch n), CBigNum.getvch n) from if_neg hsmall]
      have hrange : -2 ^ 63 ≤ n ∧ n < 2 ^ 63 := h
      have hlen : n.natAbs < 256 ^ 8 := by
        norm_num
        omega
      exact getOp_pushData (length_getvch_lt hlen) rest
  | uint64 n =>
    refine ⟨pushUint64 n, fun _ => rfl, fun rest => ?_⟩
    by_cases hsmall : 1 ≤ n ∧ n ≤ 16
    · -- as above
      rw [show pushUint64 n = [UInt8.ofNat (n + 0x50)] from if_pos hsmall,
        show (ScriptItem.uint64 n).op = (UInt8.ofNat (n + 0x50), []) from if_pos hsmall]
      have hop : n + 0x50 = 0 ∨ (0x4e < n + 0x50 ∧ n + 0x50 ≤ 0xff) := by omega
      exact getOp_opcode hop rest
    · rw [show pushUint64 n = pushData (CBigNum.getvch n) from if_neg hsmall,
        show (ScriptItem.uint64 n).op = (pushOpcode (CBigNum.getvch n), CBigNum.getvch n) from if_neg hsmall]
      have hrange : n < 2 ^ 64 := h
      have hlen : (n : ℤ).natAbs < 256 ^ 8 := by
        norm_num
        omega
      exact getOp_pushData (length_getvch_lt hlen) rest
  | bignum bn => exact ⟨pushData (CBigNum.getvch bn), fun _ => rfl, getOp_pushData h⟩
  | uint160 b =>
    refine ⟨20 :: b.1, fun _ => rfl, fun rest => ?_⟩
    -- the size is the opcode itself
    have hsize : getOpSize 20 (b.1 ++ rest) = some (b.1.length, b.1 ++ rest) := by
      rw [b.2]
      rfl
    exact getOp_of_getOpSize (by decide) hsize
  | uint256 b =>
    refine ⟨32 :: b.1, fun _ => rfl, fun rest => ?_⟩
    have hsize : getOpSize 32 (b.1 ++ rest) = some (b.1.length, b.1 ++ rest) := by
      rw [b.2]
      rfl
    exact getOp_of_getOpSize (by decide) hsize

/-- A row of items, behind a script. -/
theorem foldlM_append {items : List ScriptItem} (h : ∀ item ∈ items, item.Readable) (script : CScript) :
    ∃ codes, items.foldlM CScript.append script = .ok (script ++ codes) ∧ Parses (items.map ScriptItem.op) codes := by
  induction items generalizing script with
  | nil => exact ⟨[], by rw [List.append_nil]; rfl, .nil⟩
  | cons item items ih =>
    obtain ⟨code, happend, hget⟩ := getOp_code (h item List.mem_cons_self)
    obtain ⟨codes, hfold, hparses⟩ := ih (fun i hi => h i (List.mem_cons_of_mem item hi)) (script ++ code)
    refine ⟨code ++ codes, ?_, .cons (hget codes) hparses⟩
    rw [List.foldlM_cons, happend, Result.ok_bind, hfold, List.append_assoc]

/-! ### Built and read back -/

/-- **Building and parsing are inverse**: a row of items is read as its operations, up to the end of the script.
And from every position in a script `GetOp` stays inside and goes forward, so that the loop over it ends. -/
theorem build_parses :
    (∀ items : List ScriptItem, (∀ item ∈ items, item.Readable) → ∃ script, CScript.build items = .ok script ∧
      ∀ fuel, script.length < fuel → getOps script fuel = some (some (items.map ScriptItem.op, script.length))) ∧
    (∀ (script : CScript) (pc : ℕ), pc ≤ script.length → ∃ r, getOp2 script pc = some r ∧ pc ≤ r.pc ∧
      r.pc ≤ script.length ∧ (r.fRet = true → pc < r.pc)) ∧
    ∀ script : CScript, ∃ ops pc, pc ≤ script.length ∧
      ∀ fuel, script.length < fuel → getOps script fuel = some (some (ops, pc)) := by
  refine ⟨?_, fun script pc hpc => getOp2_within hpc, getOps_terminates⟩
  intro items hitems
  obtain ⟨codes, hbuild, hparses⟩ := foldlM_append hitems []
  refine ⟨codes, hbuild, fun fuel hfuel => ?_⟩
  exact loop_of_parses (Nat.zero_le _) hparses (hparses.length_le.trans_lt hfuel)

namespace Sample

/-- An opcode, data of the four sizes that a push can have, and numbers. -/
def pushes : List ScriptItem :=
  [.opcode 0x76, .data (List.replicate 75 1), .data (List.replicate 76 1), .data (List.replicate 256 1),
    .data (List.replicate 65536 1), .int64 (-1), .uint64 (2 ^ 40), .bignum (-255), .uint160 ⟨List.replicate 20 0, rfl⟩]

/-- The sample items can be read back. -/
theorem readable_pushes : ∀ item ∈ pushes, item.Readable := by
  have hsize : ∀ n : ℕ, n < 2 ^ 32 → (ScriptItem.data (List.replicate n 1)).Readable := fun n hn => by
    show (List.replicate n 1).length < 2 ^ 32
    rwa [List.length_replicate]
  unfold pushes
  simp only [List.forall_mem_cons]
  exact ⟨Or.inr (by decide), hsize 75 (by decide), hsize 76 (by decide), hsize 256 (by decide),
    hsize 65536 (by decide), ⟨by decide, by decide⟩, show 2 ^ 40 < 2 ^ 64 by decide,
    show (CBigNum.getvch (-255)).length < 2 ^ 32 by decide, trivial, List.forall_mem_nil _⟩

/-- All four encodings of a push are there. -/
theorem op_pushes : pushes.map (fun item => item.op.1) =
    [0x76, 75, OP_PUSHDATA1, OP_PUSHDATA2, OP_PUSHDATA4, 0x4f, 6, 2, 20] := by
  have hpush : ∀ n, pushOpcode (List.replicate n 1) = if n < 0x4c then UInt8.ofNat n
      else if n ≤ 0xff then OP_PUSHDATA1 else if n ≤ 0xffff then OP_PUSHDATA2 else OP_PUSHDATA4 := by
    intro n
    unfold pushOpcode
    rw [List.length_replicate]
  simp only [pushes, List.map_cons, List.map_nil, ScriptItem.op, hpush]
  decide

end Sample

/-- A script with all four encodings. -/
theorem build_parses_pushes : ∃ script, CScript.build Sample.pushes = .ok script ∧
    (∀ fuel, script.length < fuel →
      getOps script fuel = some (some (Sample.pushes.map ScriptItem.op, script.length))) ∧
    Sample.pushes.map (fun item => item.op.1) =
      [0x76, 75, OP_PUSHDATA1, OP_PUSHDATA2, OP_PUSHDATA4, 0x4f, 6, 2, 20] := by
  obtain ⟨script, hbuild, hget⟩ := build_parses.1 Sample.pushes Sample.readable_pushes
  exact ⟨script, hbuild, hget, Sample.op_pushes⟩

/-- What was read stays in front. -/
theorem prefix_of_loop {script : CScript} {acc ops : List (UInt8 × List UInt8)} {pc stop fuel : ℕ}
    (h : loop (getOpRound script) fuel (acc, pc) = some (some (ops, stop))) : acc <+: ops := by
  obtain ⟨s, hreach, hlast⟩ := loop_last h
  have hacc : acc <+: s.1 := by
    refine @Reaches.invariant _ _ _ _ _ (fun s => acc <+: s.1) (fun s s' hs hround => ?_) List.prefix_rfl hreach
    unfold getOpRound at hround
    split at hround
    · cases hround
    · split_ifs at hround
      cases hround
      exact hs.trans (List.prefix_append _ _)
  unfold getOpRound at hlast
  split at hlast
  · cases hlast
  · split_ifs at hlast
    cases hlast
    exact hacc

/-- An opcode that announces data is not read without it; and of a size only the lowest four bytes are written, so
that 2^32 bytes are announced as none. -/
theorem not_build_parses :
    (¬ ∃ script, CScript.build [.opcode 0x4c] = .ok script ∧ ∀ fuel, script.length < fuel →
      getOps script fuel = some (some ([.opcode 0x4c].map ScriptItem.op, script.length))) ∧
    ¬ ∃ script, CScript.build [.data (List.replicate (2 ^ 32) 0)] = .ok script ∧ ∀ fuel, script.length < fuel →
      getOps script fuel = some (some ([.data (List.replicate (2 ^ 32) 0)].map ScriptItem.op, script.length)) := by
  refine ⟨?_, ?_⟩
  · rintro ⟨script, hbuild, hget⟩
    cases hbuild
    exact absurd (hget 2 (by decide)) (by decide)
  · rintro ⟨script, hbuild, hget⟩
    -- of the size the lowest four bytes are written, which are zero
    have hpush :
        pushData (List.replicate (2 ^ 32) 0) = OP_PUSHDATA4 :: 0 :: 0 :: 0 :: 0 :: List.replicate (2 ^ 32) 0 := by
      unfold pushData
      rw [List.length_replicate, if_neg (by norm_num), if_neg (by norm_num), if_neg (by norm_num)]
      rfl
    have hone : ∀ b, CScript.build [.data b] = .ok (pushData b) := fun b => rfl
    rw [hone, hpush] at hbuild
    have hscript := (Except.ok.inj hbuild).symm
    have hop : getOp (script.drop 0) = some (OP_PUSHDATA4, [], List.replicate (2 ^ 32) 0) := by
      rw [hscript]
      exact getOp_of_getOpSize (by decide) rfl
    obtain ⟨pc, hfirst, -⟩ := getOp2_some hop
    have hround : getOpRound script ([], 0) = .inl ([(OP_PUSHDATA4, [])], pc) := by
      unfold getOpRound
      rw [hfirst]
      rfl
    have hloop := hget (script.length + 1) (Nat.lt_succ_self _)
    unfold getOps at hloop
    rw [loop_continue hround] at hloop
    -- the loop keeps what it has read first
    obtain ⟨after, hafter⟩ := prefix_of_loop hloop
    have hempty : [] = List.replicate (2 ^ 32) (0 : UInt8) := congrArg Prod.snd (List.cons.inj hafter).1
    have hlen := congrArg List.length hempty
    rw [List.length_replicate] at hlen
    norm_num at hlen

end Peershares
