import Peershares.Framework.Memo
import Peershares.Model.CheckSig
import Peershares.Script.Stack

/-!
# The signature cache is transparent

The cache holds a signature hash, a signature and a key when the signature is valid for them. The hash type is
not in it: it goes into the hash. So a call of `CheckSig` is a test behind a cache, and the answer is that of the
test, whatever has been evicted.

* `checkSig_eq_memoize` — `CheckSig` as a test behind a cache
* `length_evict_le`, `evict_eq_of_le` — the loop of the eviction ends at the limit
* `checkSigs_transparent` — over all calls
-/

open Framework

namespace Peershares

namespace CSignatureCache

variable {k e : SigData} {setValid : List SigData} {nMaxCacheSize : Int} {randomHash : ℕ → Uint256}

/-! ### Entries -/

/-- An entry after an insertion. -/
theorem mem_insert (h : e ∈ insert k setValid) : e = k ∨ e ∈ setValid := by
  induction setValid with
  | nil => exact Or.inl (List.mem_singleton.mp h)
  | cons a setValid ih =>
    unfold insert at h
    split_ifs at h
    · exact List.mem_cons.mp h
    · rcases List.mem_cons.mp h with rfl | h
      · exact Or.inr List.mem_cons_self
      · exact (ih h).imp_right (List.mem_cons_of_mem a)
    · exact Or.inr h

theorem length_insert_le : (insert k setValid).length ≤ setValid.length + 1 := by
  induction setValid with
  | nil => exact le_rfl
  | cons a setValid ih =>
    unfold insert
    split_ifs
    · exact le_rfl
    · exact Nat.succ_le_succ ih
    · exact Nat.le_succ _

/-- Evicting adds nothing. -/
theorem mem_of_mem_evictOne {r : Uint256} (h : e ∈ evictOne r setValid) : e ∈ setValid := by
  unfold evictOne at h
  split at h
  · exact List.mem_of_mem_erase h
  · exact List.mem_of_mem_tail h

/-- One entry is taken away. -/
theorem length_evictOne {r : Uint256} : (evictOne r setValid).length = setValid.length - 1 := by
  unfold evictOne
  split
  · next e he => exact List.length_erase_of_mem (List.mem_of_find?_eq_some he)
  · exact List.length_tail

/-! ### The loop of the eviction -/

/-- And neither does the loop of it. -/
theorem mem_of_mem_evict {nRounds : ℕ} (h : e ∈ evict nMaxCacheSize nRounds randomHash setValid) : e ∈ setValid := by
  induction nRounds generalizing randomHash setValid with
  | zero => exact h
  | succ nRounds ih =>
    unfold evict at h
    split_ifs at h
    · exact mem_of_mem_evictOne (ih h)
    · exact h

/-- As many rounds as there are entries are enough: the limit is not negative. -/
theorem length_evict_le {nRounds : ℕ} (hlimit : 0 ≤ nMaxCacheSize) (hrounds : setValid.length ≤ nRounds) :
    ((evict nMaxCacheSize nRounds randomHash setValid).length : Int) ≤ nMaxCacheSize := by
  induction nRounds generalizing randomHash setValid with
  | zero =>
    unfold evict
    omega
  | succ nRounds ih =>
    unfold evict
    split_ifs with hfull
    · refine ih ?_
      rw [length_evictOne]
      omega
    · exact not_lt.mp hfull

/-- More rounds change nothing. -/
theorem evict_eq_of_le {nRounds : ℕ} (hlimit : 0 ≤ nMaxCacheSize) (hrounds : setValid.length ≤ nRounds) :
    evict nMaxCacheSize nRounds randomHash setValid = evict nMaxCacheSize setValid.length randomHash setValid := by
  induction nRounds generalizing randomHash setValid with
  | zero => rw [Nat.le_zero.mp hrounds]
  | succ nRounds ih =>
    cases hlen : setValid.length with
    | zero =>
      unfold evict
      rw [if_neg (by omega)]
    | succ n =>
      have hone : (evictOne (randomHash 0) setValid).length = setValid.length - 1 := length_evictOne
      rw [hlen, Nat.add_sub_cancel] at hone
      unfold evict
      split_ifs
      · rw [ih (by omega), hone]
      · rfl

/-! ### `Set` -/

/-- So `Set` adds its own entry only. -/
theorem mem_set (h : e ∈ set nMaxCacheSize randomHash k setValid) : e = k ∨ e ∈ setValid := by
  unfold set at h
  split_ifs at h
  · exact Or.inr h
  · exact (mem_insert h).imp_right mem_of_mem_evict

/-- After an entry was added, there is no more than one entry above the limit. -/
theorem length_set_le (hlimit : 0 < nMaxCacheSize) :
    ((set nMaxCacheSize randomHash k setValid).length : Int) ≤ nMaxCacheSize + 1 := by
  unfold set
  rw [if_neg (not_le.mpr hlimit)]
  have hevict : ((evict nMaxCacheSize setValid.length randomHash setValid).length : Int) ≤ nMaxCacheSize :=
    length_evict_le hlimit.le le_rfl
  have hinsert : (insert k (evict nMaxCacheSize setValid.length randomHash setValid)).length ≤
      (evict nMaxCacheSize setValid.length randomHash setValid).length + 1 := length_insert_le
  omega

end CSignatureCache

/-! ### `CheckSig` -/

section CheckSig

variable {env : SigEnv} {setValid : List SigData} {call : CheckSigCall}

/-- What the cache remembers of an entry. -/
def SigEnv.valid (env : SigEnv) (k : SigData) : Bool := env.setPubKey k.2.2 && env.verify k.2.2 k.1 k.2.1

/-- The entry of a call. -/
def SigEnv.sigData (env : SigEnv) (call : CheckSigCall) (nHashType : Int) : SigData :=
  (env.signatureHash call.scriptCode call.txTo call.nIn nHashType, call.vchSig.dropLast, call.vchPubKey)

/-- `CheckSig` is the test with a memory of what was valid. -/
theorem SigEnv.checkSig_eq_memoize {nHashType : Int} (h : sigHashType call.vchSig call.nHashType = some nHashType) :
    env.checkSig setValid call =
      memoize env.valid (CSignatureCache.set call.nMaxCacheSize call.randomHash) (env.sigData call nHashType) setValid := by
  unfold SigEnv.checkSig memoize SigEnv.valid SigEnv.sigData
  rw [h]
  simp only
  cases env.setPubKey call.vchPubKey with
  | true =>
    cases env.verify call.vchPubKey (env.signatureHash call.scriptCode call.txTo call.nIn nHashType)
        call.vchSig.dropLast <;> rfl
  | false => rfl

/-- A signature without a hash type never reaches the cache. -/
theorem SigEnv.checkSig_of_none (h : sigHashType call.vchSig call.nHashType = none) :
    env.checkSig setValid call = (false, setValid) := by
  unfold SigEnv.checkSig
  rw [h]

/-- A call with a sound cache answers as with an empty one, and leaves the cache sound. -/
theorem SigEnv.checkSig_sound (h : Sound env.valid setValid) :
    (env.checkSig setValid call).1 = (env.checkSig [] call).1 ∧ Sound env.valid (env.checkSig setValid call).2 := by
  cases htype : sigHashType call.vchSig call.nHashType with
  | none =>
    rw [checkSig_of_none htype, checkSig_of_none htype]
    exact ⟨rfl, h⟩
  | some nHashType =>
    rw [checkSig_eq_memoize htype, checkSig_eq_memoize htype, memoize_fst h, memoize_fst sound_nil]
    exact ⟨rfl, h.memoize fun k' hk' => CSignatureCache.mem_set hk'⟩

/-- A call leaves the cache as it is, or adds an entry under its own limit. -/
theorem SigEnv.length_checkSig :
    (env.checkSig setValid call).2 = setValid ∨
      ((env.checkSig setValid call).2.length : Int) ≤ call.nMaxCacheSize + 1 := by
  cases htype : sigHashType call.vchSig call.nHashType with
  | none =>
    rw [checkSig_of_none htype]
    exact Or.inl rfl
  | some nHashType =>
    rw [checkSig_eq_memoize htype]
    let add := CSignatureCache.set call.nMaxCacheSize call.randomHash
    have hsnd : (memoize env.valid add (env.sigData call nHashType) setValid).2 = setValid ∨
        (memoize env.valid add (env.sigData call nHashType) setValid).2 = add (env.sigData call nHashType) setValid :=
      memoize_snd
    rcases hsnd with heq | heq
    · exact Or.inl heq
    · rw [heq]
      by_cases hlimit : 0 < call.nMaxCacheSize
      · exact Or.inr (CSignatureCache.length_set_le hlimit)
      · left
        change CSignatureCache.set call.nMaxCacheSize call.randomHash (env.sigData call nHashType) setValid = setValid
        unfold CSignatureCache.set
        rw [if_pos (not_lt.mp hlimit)]

end CheckSig

/-! ### All calls -/

section Calls

variable (env : SigEnv)

/-- A row of calls, one more. -/
theorem SigEnv.checkSigs_cons (setValid : List SigData) (call : CheckSigCall) (calls : List CheckSigCall) :
    env.checkSigs setValid (call :: calls) =
      ((env.checkSig setValid call).1 :: (env.checkSigs (env.checkSig setValid call).2 calls).1,
        (env.checkSigs (env.checkSig setValid call).2 calls).2) := rfl

/-- With a sound cache every answer is that of an empty one. -/
theorem SigEnv.checkSigs_sound {setValid : List SigData} (h : Sound env.valid setValid) (calls : List CheckSigCall) :
    (env.checkSigs setValid calls).1 = calls.map fun call => (env.checkSig [] call).1 := by
  induction calls generalizing setValid with
  | nil => rfl
  | cons call calls ih =>
    obtain ⟨hfst, hsound⟩ : (env.checkSig setValid call).1 = (env.checkSig [] call).1 ∧
        Sound env.valid (env.checkSig setValid call).2 := env.checkSig_sound h
    rw [checkSigs_cons, List.map_cons, ih hsound, hfst]

/-- The cache has at most one entry more than its limit. -/
theorem SigEnv.length_checkSigs {setValid : List SigData} {M : Int} (h : (setValid.length : Int) ≤ M + 1)
    {calls : List CheckSigCall} (hM : ∀ call ∈ calls, call.nMaxCacheSize ≤ M) :
    ((env.checkSigs setValid calls).2.length : Int) ≤ M + 1 := by
  induction calls generalizing setValid with
  | nil => exact h
  | cons call calls ih =>
    obtain ⟨hcall, hcalls⟩ := List.forall_mem_cons.mp hM
    rw [checkSigs_cons]
    refine ih ?_ hcalls
    have hor : (env.checkSig setValid call).2 = setValid ∨
        ((env.checkSig setValid call).2.length : Int) ≤ call.nMaxCacheSize + 1 := env.length_checkSig
    rcases hor with heq | hle
    · rw [heq]
      exact h
    · omega

/-- Two rows of calls. -/
theorem SigEnv.checkSigs_append (setValid : List SigData) (calls calls' : List CheckSigCall) :
    (env.checkSigs setValid (calls ++ calls')).2 = (env.checkSigs (env.checkSigs setValid calls).2 calls').2 := by
  induction calls generalizing setValid with
  | nil => rfl
  | cons call calls ih =>
    rw [List.cons_append, checkSigs_cons, checkSigs_cons]
    exact ih _

/-- In every sequence of calls each one returns what it would return with an empty cache; the loop of the eviction
ends at the limit; a call that changes the cache leaves no more than one entry above its limit, and so there is
never more than one above the largest limit there was. -/
theorem checkSigs_transparent :
    (∀ calls, (env.checkSigs [] calls).1 = calls.map fun call => (env.checkSig [] call).1) ∧
    (∀ (setValid : List SigData) (nMaxCacheSize : Int) (randomHash : ℕ → Uint256), 0 < nMaxCacheSize →
      ((CSignatureCache.evict nMaxCacheSize setValid.length randomHash setValid).length : Int) ≤ nMaxCacheSize ∧
      ∀ nRounds ≥ setValid.length, CSignatureCache.evict nMaxCacheSize nRounds randomHash setValid =
        CSignatureCache.evict nMaxCacheSize setValid.length randomHash setValid) ∧
    (∀ calls call, (env.checkSigs [] (calls ++ [call])).2 = (env.checkSigs [] calls).2 ∨
      ((env.checkSigs [] (calls ++ [call])).2.length : Int) ≤ call.nMaxCacheSize + 1) ∧
    ∀ calls (M : Int), 0 ≤ M → (∀ call ∈ calls, call.nMaxCacheSize ≤ M) →
      ((env.checkSigs [] calls).2.length : Int) ≤ M + 1 := by
  refine ⟨env.checkSigs_sound sound_nil, ?_, ?_, ?_⟩
  · intro setValid nMaxCacheSize randomHash hlimit
    exact ⟨CSignatureCache.length_evict_le hlimit.le le_rfl, fun nRounds h => CSignatureCache.evict_eq_of_le hlimit.le h⟩
  · intro calls call
    rw [env.checkSigs_append]
    exact env.length_checkSig
  · intro calls M hpos hM
    have hempty : ((([] : List SigData).length : ℕ) : Int) ≤ M + 1 := by
      rw [List.length_nil]
      omega
    exact env.length_checkSigs hempty hM

end Calls

/-- Every signature is valid. -/
def Sample.sigEnv : SigEnv where
  hash _ _ := 7
  setPubKey _ := true
  verify _ _ _ := true

/-- A call with the signature `b`, and its hash type. -/
def Sample.call (b : UInt8) (nMaxCacheSize : Int) : CheckSigCall :=
  { vchSig := [b, 1], vchPubKey := [], scriptCode := [], txTo := Sample.spending, nIn := 0, nHashType := 0,
    nMaxCacheSize }

/-- Three signatures with room for one. -/
theorem checkSigs_transparent_three :
    (Sample.sigEnv.checkSigs [] [Sample.call 5 1, Sample.call 6 1, Sample.call 7 1]).2.length ≤ (1 : Int) + 1 :=
  (checkSigs_transparent Sample.sigEnv).2.2.2 [Sample.call 5 1, Sample.call 6 1, Sample.call 7 1] 1 (by decide)
    (by decide)

/-- With the limit lowered to one after three signatures, a signature that is found leaves all of them; and with a
limit below zero there is nothing to hold that would not be too much. -/
theorem checkSigs_above_limit :
    ¬ ((Sample.sigEnv.checkSigs [] [Sample.call 5 3, Sample.call 6 3, Sample.call 7 3, Sample.call 5 1]).2.length : Int) ≤
        1 + 1 ∧
      ¬ ((Sample.sigEnv.checkSigs [] [Sample.call 5 (-2)]).2.length : Int) ≤ -2 + 1 := by
  decide

end Peershares
