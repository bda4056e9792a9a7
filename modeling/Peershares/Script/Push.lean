import Mathlib.Data.List.Forall2
import Mathlib.Tactic.Common
import Peershares.Model.Check
import Peershares.Model.Script

/-!
# Pushes

The bytes that `GetOp` reads as a push of given data, and what it reads otherwise.

* `Push` — the encodings of a push
* `Push.getOp`, `push_of_getOp` — these are what `GetOp` reads
* `push_pushData` — `operator<<` writes one of them
-/

namespace Peershares

variable {vch push rest script : List UInt8} {opcode : UInt8}

/-- The encodings of a push of `vch`: the size in the opcode, or in one, two or four bytes behind it. -/
inductive Push : List UInt8 → CScript → Prop
  | direct {vch : List UInt8} (h : vch.length < 0x4c) : Push vch (UInt8.ofNat vch.length :: vch)
  | pushData1 {vch : List UInt8} (b : UInt8) (h : b.toNat = vch.length) : Push vch (OP_PUSHDATA1 :: b :: vch)
  | pushData2 {vch : List UInt8} (b₀ b₁ : UInt8) (h : b₀.toNat + 256 * b₁.toNat = vch.length) :
      Push vch (OP_PUSHDATA2 :: b₀ :: b₁ :: vch)
  | pushData4 {vch : List UInt8} (b₀ b₁ b₂ b₃ : UInt8)
      (h : b₀.toNat + 256 * (b₁.toNat + 256 * (b₂.toNat + 256 * b₃.toNat)) = vch.length) :
      Push vch (OP_PUSHDATA4 :: b₀ :: b₁ :: b₂ :: b₃ :: vch)

/-- A push has its code. -/
theorem Push.ne_nil (h : Push vch push) : push ≠ [] := by
  cases h <;> simp

/-- There are at most five bytes in front of the data. -/
theorem Push.length_le (h : Push vch push) : push.length ≤ 5 + vch.length := by
  cases h <;> simp only [List.length_cons] <;> omega

/-- A row of pushes of at most `k` bytes each. -/
theorem length_flatten_le_of_push {items encodings : List (List UInt8)} {k : ℕ} (h : List.Forall₂ Push items encodings)
    (hsize : ∀ vch ∈ items, vch.length ≤ k) : encodings.flatten.length ≤ items.length * (5 + k) := by
  induction h with
  | nil => exact Nat.zero_le _
  | @cons vch push items encodings hpush _ ih =>
    have hfirst := hpush.length_le
    have hvch := hsize vch List.mem_cons_self
    have hrest := ih fun v hv => hsize v (List.mem_cons_of_mem vch hv)
    rw [List.flatten_cons, List.length_append, List.length_cons, Nat.succ_mul]
    omega

/-- The size of the operand is read off the bytes in front of it. -/
theorem getOp_of_getOpSize {pc : CScript} (hop : opcode ≤ OP_PUSHDATA4)
    (hsize : getOpSize opcode pc = some (vch.length, vch ++ rest)) : getOp (opcode :: pc) = some (opcode, vch, rest) := by
  have hlong : ¬ (vch ++ rest).length < vch.length := by
    rw [List.length_append]
    omega
  simp only [getOp]
  rw [if_pos hop, hsize]
  simp only
  rw [if_neg hlong, List.take_left, List.drop_left]

/-- A push is read back. -/
theorem Push.getOp (h : Push vch push) (rest : CScript) :
    ∃ opcode, opcode ≤ OP_PUSHDATA4 ∧ getOp (push ++ rest) = some (opcode, vch, rest) := by
  cases h with
  | direct h =>
    have htoNat : (UInt8.ofNat vch.length).toNat = vch.length := by
      rw [UInt8.toNat_ofNat']
      exact Nat.mod_eq_of_lt (by omega)
    have hlt : UInt8.ofNat vch.length < OP_PUSHDATA1 := by
      change (UInt8.ofNat vch.length).toNat < 0x4c
      omega
    have hle : UInt8.ofNat vch.length ≤ OP_PUSHDATA4 := by
      change (UInt8.ofNat vch.length).toNat ≤ 0x4e
      omega
    refine ⟨_, hle, getOp_of_getOpSize hle ?_⟩
    unfold getOpSize
    rw [if_pos hlt, htoNat]
    rfl
  | pushData1 b h =>
    refine ⟨_, by decide, getOp_of_getOpSize (by decide) ?_⟩
    rw [← h]
    rfl
  | pushData2 b₀ b₁ h =>
    refine ⟨_, by decide, getOp_of_getOpSize (by decide) ?_⟩
    rw [← h]
    rfl
  | pushData4 b₀ b₁ b₂ b₃ h =>
    refine ⟨_, by decide, getOp_of_getOpSize (by decide) ?_⟩
    rw [← h]
    rfl

/-- What is read as a push is one. -/
theorem push_of_getOp (h : getOp script = some (opcode, vch, rest)) (hop : opcode ≤ OP_PUSHDATA4) :
    ∃ push, Push vch push ∧ script = push ++ rest := by
  cases script with
  | nil => cases h
  -- the first byte is the opcode
  | cons op pc =>
    simp only [Peershares.getOp] at h
    split_ifs at h with hpush
    · cases hsize : getOpSize op pc with
      | none =>
        rw [hsize] at h
        cases h
      | some r =>
        obtain ⟨nSize, pc'⟩ := r
        rw [hsize] at h
        simp only at h
        split_ifs at h with hshort
        cases h
        have hlen : (pc'.take nSize).length = nSize := List.length_take_of_le (not_lt.mp hshort)
        have hsplit : pc' = pc'.take nSize ++ pc'.drop nSize := (List.take_append_drop nSize pc').symm
        -- one form for each of the four sizes
        unfold getOpSize at hsize
        split_ifs at hsize with hdirect hone htwo
        · cases hsize
          have hlt : opcode.toNat < 0x4c := hdirect
          refine ⟨opcode :: pc.take opcode.toNat, ?_, congrArg (opcode :: ·) hsplit⟩
          have hdirect' : Push (pc.take opcode.toNat)
              (UInt8.ofNat (pc.take opcode.toNat).length :: pc.take opcode.toNat) := Push.direct (hlen.trans_lt hlt)
          rwa [hlen, UInt8.ofNat_toNat] at hdirect'
        · split at hsize
          · next b pc =>
            cases hsize
            subst hone
            exact ⟨_, Push.pushData1 b hlen.symm, congrArg (OP_PUSHDATA1 :: b :: ·) hsplit⟩
          · cases hsize
        · split at hsize
          · next b₀ b₁ pc =>
            cases hsize
            subst htwo
            exact ⟨_, Push.pushData2 b₀ b₁ hlen.symm, congrArg (OP_PUSHDATA2 :: b₀ :: b₁ :: ·) hsplit⟩
          · cases hsize
        · split at hsize
          · next b₀ b₁ b₂ b₃ pc =>
            cases hsize
            -- it is a push and none of the smaller ones
            obtain rfl : opcode = OP_PUSHDATA4 := by
              have hle : opcode.toNat ≤ 0x4e := hpush
              have hnot : ¬ opcode.toNat < 0x4c := hdirect
              have hnot₁ : opcode.toNat ≠ 0x4c := fun heq => hone (UInt8.toNat_inj.mp heq)
              have hnot₂ : opcode.toNat ≠ 0x4d := fun heq => htwo (UInt8.toNat_inj.mp heq)
              exact UInt8.toNat_inj.mp (show opcode.toNat = 0x4e by omega)
            exact ⟨_, Push.pushData4 b₀ b₁ b₂ b₃ hlen.symm, congrArg (OP_PUSHDATA4 :: b₀ :: b₁ :: b₂ :: b₃ :: ·) hsplit⟩
          · cases hsize
    · cases h
      exact absurd hop hpush

/-! ### Other operations -/

/-- Any other operation is its code. -/
theorem getOp_cons (hop : ¬ opcode ≤ OP_PUSHDATA4) (rest : CScript) : getOp (opcode :: rest) = some (opcode, [], rest) := by
  simp only [getOp]
  exact if_neg hop

/-- And what is read as one is. -/
theorem eq_cons_of_getOp (h : getOp script = some (opcode, vch, rest)) (hop : ¬ opcode ≤ OP_PUSHDATA4) :
    script = opcode :: rest ∧ vch = [] := by
  cases script with
  | nil => cases h
  | cons op pc =>
    simp only [getOp] at h
    split_ifs at h with hpush
    · split at h
      · cases h
      · split_ifs at h
        cases h
        exact absurd hpush hop
    · cases h
      exact ⟨rfl, rfl⟩

/-- A small integer has no operand. -/
theorem getOp_smallInteger (hop : isSmallInteger opcode) (rest : CScript) :
    getOp (opcode :: rest) = some (opcode, [], rest) := by
  unfold isSmallInteger at hop
  simp only [Bool.or_eq_true, Bool.and_eq_true, decide_eq_true_eq] at hop
  rcases hop with rfl | ⟨hlow, -⟩
  · exact getOp_of_getOpSize (by decide) rfl
  · refine getOp_cons ?_ rest
    intro hle
    have hle' : opcode.toNat ≤ 0x4e := hle
    have hlow' : 0x51 ≤ opcode.toNat := hlow
    omega

/-- A small integer is one byte. -/
theorem eq_cons_of_smallInteger (h : getOp script = some (opcode, vch, rest)) (hop : isSmallInteger opcode) :
    script = opcode :: rest ∧ vch = [] := by
  cases script with
  | nil => cases h
  | cons op pc =>
    have hfirst : op = opcode := by
      simp only [getOp] at h
      split_ifs at h
      · split at h
        · cases h
        · split_ifs at h
          exact (Prod.mk.inj (Option.some.inj h)).1
      · exact (Prod.mk.inj (Option.some.inj h)).1
    subst hfirst
    rw [getOp_smallInteger hop] at h
    cases h
    exact ⟨rfl, rfl⟩

/-! ### Writing a push -/

/-- `operator<<` writes a push. -/
theorem push_pushData (h : vch.length < 2 ^ 32) : Push vch (pushData vch) := by
  have htoNat : ∀ n, (UInt8.ofNat n).toNat = n % 256 := fun n => UInt8.toNat_ofNat'
  unfold pushData
  split_ifs with h₁ h₂ h₃
  · exact Push.direct h₁
  · refine Push.pushData1 _ ?_
    rw [htoNat]
    omega
  · refine Push.pushData2 _ _ ?_
    rw [htoNat, htoNat]
    omega
  · refine Push.pushData4 _ _ _ _ ?_
    rw [htoNat, htoNat, htoNat, htoNat]
    omega

/-! ### Payments to a script hash -/

/-- The form of `P2SH`. -/
theorem isPayToScriptHash_iff :
    isPayToScriptHash script ↔
      ∃ hash : List UInt8, hash.length = 20 ∧ script = OP_HASH160 :: 20 :: (hash ++ [OP_EQUAL]) := by
  unfold isPayToScriptHash
  simp only [Bool.and_eq_true, decide_eq_true_eq]
  constructor
  · rintro ⟨⟨⟨hlen, hfirst⟩, hsecond⟩, hlast⟩
    match script, hlen, hfirst, hsecond, hlast with
    | b₀ :: b₁ :: after, hlen, hfirst, hsecond, hlast =>
      have hlen' : after.length = 21 := by simpa using hlen
      have hsplit := List.take_append_drop 20 after
      have hend : after.drop 20 = [OP_EQUAL] := by
        have hget : after[20]? = some OP_EQUAL := hlast
        obtain ⟨hlt, hget⟩ := List.getElem?_eq_some_iff.mp hget
        rw [List.drop_eq_getElem_cons hlt, hget, List.drop_eq_nil_of_le hlen'.le]
      refine ⟨after.take 20, List.length_take_of_le (by omega), ?_⟩
      rw [← hend, hsplit, Option.some.inj hfirst, Option.some.inj hsecond]
  · rintro ⟨hash, hlen, rfl⟩
    refine ⟨⟨⟨by simp [hlen], rfl⟩, rfl⟩, ?_⟩
    change (hash ++ [OP_EQUAL])[20]? = some OP_EQUAL
    rw [List.getElem?_append_right hlen.le, hlen]
    rfl

end Peershares
