import Peershares.Ledger.Chain
import Peershares.Model.KeyPool

/-!
# Reservations of keys

A key from the pool should be with one holder only, until it comes back. The set `setKeyPool` has the
free indices, and not those that are with a holder, so the pool issues an index anew that is still
with a holder when the set was drained, or when a new pool is made. Then the record of the holder is
overwritten. And when the pool has no key, because the wallet is locked and drained, a holder gets the
default key of the wallet, and so does the next one.

`Sound` is the invariant of the calls as long as no index is issued that is with a holder, and the default
key is handed out only while nobody has it (`IssuesApart`). It has the free indices, those that are with a
holder and the records apart, and says of each key of a record who can have it. The loops of
`TopUpKeyPool` and `NewKeyPool` keep it round by round (`Sound.issue`), and the calls of a holder keep it
because each of them moves one index: from the set to the holder (`Sound.take`, `Sound.hand`), from the
holder to nobody (`Sound.drop`), or back (`Sound.giveBack`). The results are

* `KeyPoolRun.safe` — the holders, the keys and the records, over the runs in which that is so
* `getReservedKey_sameIndex` — a run in which two holders have one index
-/

open Framework Framework.Command

namespace Peershares

variable {ι : Type}

/-! ### Histories -/

/-- The key went to the holder and did not come back. -/
def Taken (c : ι) (key : List UInt8) : List (KeyEvent ι) → Prop
  | [] => False
  | .handed c' key' :: history => (c' = c ∧ key' = key) ∨ Taken c key history
  | .returned c' key' :: history => ¬ (c' = c ∧ key' = key) ∧ Taken c key history

/-- Between two hand-outs of a key, the first holder returned it. Histories have the last event first. -/
def ReturnedBetween (history : List (KeyEvent ι)) : Prop :=
  ∀ newer middle older c c' key,
    history = newer ++ .handed c' key :: (middle ++ .handed c key :: older) →
      KeyEvent.returned c key ∈ middle

/-- A key that was handed out and is no longer taken was returned. -/
theorem returned_of_not_taken {c : ι} {key : List UInt8} {middle older : List (KeyEvent ι)}
    (h : ¬ Taken c key (middle ++ .handed c key :: older)) : KeyEvent.returned c key ∈ middle := by
  induction middle with
  | nil => exact absurd (.inl ⟨rfl, rfl⟩) h
  | cons e middle ih =>
    cases e with
    | handed c' key' => exact List.mem_cons_of_mem _ (ih (fun ht => h (.inr ht)))
    | returned c' key' =>
      by_cases heq : c' = c ∧ key' = key
      · obtain ⟨rfl, rfl⟩ := heq
        exact List.mem_cons_self
      · exact List.mem_cons_of_mem _ (ih (fun ht => h ⟨heq, ht⟩))

/-- The empty history. -/
theorem ReturnedBetween.nil : ReturnedBetween ([] : List (KeyEvent ι)) := by
  intro newer middle older c c' key heq
  exact absurd heq (by simp)

/-- A key may be handed out when nobody holds it. -/
theorem ReturnedBetween.handed {history : List (KeyEvent ι)} {c : ι} {key : List UInt8}
    (h : ReturnedBetween history) (hfree : ∀ c', ¬ Taken c' key history) :
    ReturnedBetween (.handed c key :: history) := by
  intro newer middle older c₁ c₂ key' heq
  cases newer with
  | nil =>
    cases heq
    exact returned_of_not_taken (hfree c₁)
  | cons e newer => exact h newer middle older c₁ c₂ key' (List.cons.inj heq).2

/-- A key may be returned at any time. -/
theorem ReturnedBetween.returned {history : List (KeyEvent ι)} (h : ReturnedBetween history) (c : ι)
    (key : List UInt8) : ReturnedBetween (.returned c key :: history) := by
  intro newer middle older c₁ c₂ key' heq
  cases newer with
  | nil => cases heq
  | cons e newer => exact h newer middle older c₁ c₂ key' (List.cons.inj heq).2

/-! ### The invariant -/

/-- The keys from `i` up to `n` are not known, and are different. -/
def KeyEnv.Fresh (env : KeyEnv) (vchKeys : List (List UInt8)) (i n : ℕ) : Prop :=
  ∀ j, i ≤ j → j < n → env.makeNewKey j ∉ vchKeys ∧
    ∀ j', i ≤ j' → j' < j → env.makeNewKey j' ≠ env.makeNewKey j

/-- After one new key the following ones are still new. -/
theorem KeyEnv.Fresh.next {env : KeyEnv} {vchKeys : List (List UInt8)} {i n : ℕ}
    (h : env.Fresh vchKeys i n) : env.Fresh (env.makeNewKey i :: vchKeys) (i + 1) n := by
  intro j hi hn
  obtain ⟨hnew, hne⟩ := h j (by omega) hn
  refine ⟨?_, fun j' hi' hj' => hne j' (by omega) hj'⟩
  rw [List.mem_cons, not_or]
  exact ⟨(hne i le_rfl (by omega)).symm, hnew⟩

namespace KeyPoolState

/-- Free indices and indices with a holder are apart; each has a record; and the key of a record is
with nobody but the holder of the index. -/
structure Sound (s : KeyPoolState ι) : Prop where
  pos_free : ∀ i ∈ s.wallet.setKeyPool, 0 < i
  pos_held : ∀ c, (s.holder c).nIndex ≠ -1 → 0 < (s.holder c).nIndex
  held_not_free : ∀ c, (s.holder c).nIndex ∉ s.wallet.setKeyPool
  held_once : ∀ c c', (s.holder c).nIndex ≠ -1 → (s.holder c).nIndex = (s.holder c').nIndex → c = c'
  recorded_free : ∀ i ∈ s.wallet.setKeyPool, (s.wallet.pool.lookup i).isSome
  recorded_held : ∀ c, (s.holder c).nIndex ≠ -1 → (s.wallet.pool.lookup (s.holder c).nIndex).isSome
  known : ∀ i e, s.wallet.pool.lookup i = some e → e.vchPubKey ∈ s.wallet.vchKeys
  records_once : ∀ i j e e', s.wallet.pool.lookup i = some e → s.wallet.pool.lookup j = some e' →
    e.vchPubKey = e'.vchPubKey → i = j
  taken_known : ∀ c key, Taken c key s.history → key ∈ s.wallet.vchKeys
  free_not_taken : ∀ i ∈ s.wallet.setKeyPool, ∀ e, s.wallet.pool.lookup i = some e →
    ∀ c, ¬ Taken c e.vchPubKey s.history
  held_taken : ∀ c e, (s.holder c).nIndex ≠ -1 → s.wallet.pool.lookup (s.holder c).nIndex = some e →
    ∀ c', Taken c' e.vchPubKey s.history → c' = c ∧ (s.holder c).vchPubKey = e.vchPubKey
  default_known : s.wallet.vchDefaultKey ≠ [] → s.wallet.vchDefaultKey ∈ s.wallet.vchKeys
  between : ReturnedBetween s.history

variable {s : KeyPoolState ι}

/-- An index that is not with a holder is issued with a new key. -/
theorem Sound.issue (h : s.Sound) {nIndex : ℤ} {e : CKeyPool} (hpos : 0 < nIndex)
    (hheld : ∀ c, (s.holder c).nIndex ≠ nIndex) (hnew : e.vchPubKey ∉ s.wallet.vchKeys) :
    ({ s with wallet := { s.wallet with
      vchKeys := e.vchPubKey :: s.wallet.vchKeys
      pool := s.wallet.pool.insert nIndex e
      setKeyPool := insert nIndex s.wallet.setKeyPool } } : KeyPoolState ι).Sound := by
  -- the records are the new one and the old ones
  have hrecord : ∀ {i e'}, (s.wallet.pool.insert nIndex e).lookup i = some e' →
      (i = nIndex ∧ e' = e) ∨ (i ≠ nIndex ∧ s.wallet.pool.lookup i = some e') := by
    intro i e' hl
    rw [Map.lookup_insert_eq] at hl
    split_ifs at hl with hi
    · exact .inl ⟨hi, (Option.some.inj hl).symm⟩
    · exact .inr ⟨hi, hl⟩
  -- a record that was there has a known key, the new one has not
  have hold : ∀ {i e'}, s.wallet.pool.lookup i = some e' → e'.vchPubKey ≠ e.vchPubKey := by
    intro i e' hl heq
    exact hnew (heq ▸ h.known i e' hl)
  refine
    { pos_free := ?_, pos_held := h.pos_held, held_not_free := ?_, held_once := h.held_once
      recorded_free := ?_, recorded_held := ?_, known := ?_, records_once := ?_, taken_known := ?_
      free_not_taken := ?_, held_taken := ?_
      default_known := fun hne => List.mem_cons_of_mem _ (h.default_known hne), between := h.between }
  · -- the indices of the pool are positive, and nobody holds them
    intro i hi
    rcases Finset.mem_insert.mp hi with rfl | hi
    · exact hpos
    · exact h.pos_free i hi
  · intro c hc
    rcases Finset.mem_insert.mp hc with hi | hi
    · exact hheld c hi
    · exact h.held_not_free c hi
  · -- each of them has a record
    intro i hi
    rw [Map.lookup_insert_eq]
    split_ifs with heq
    · rfl
    · exact h.recorded_free i (Finset.mem_of_mem_insert_of_ne hi heq)
  · intro c hc
    rw [Map.lookup_insert_eq, if_neg (hheld c)]
    exact h.recorded_held c hc
  · -- all recorded keys are the wallet's
    intro i e' hl
    rcases hrecord hl with ⟨rfl, rfl⟩ | ⟨-, hl⟩
    · exact List.mem_cons_self
    · exact List.mem_cons_of_mem _ (h.known i e' hl)
  · -- and no key is recorded twice
    intro i j e₁ e₂ h₁ h₂ heq
    rcases hrecord h₁ with ⟨hi, he₁⟩ | ⟨-, hold₁⟩
    · rcases hrecord h₂ with ⟨hj, -⟩ | ⟨-, hold₂⟩
      · rw [hi, hj]
      · rw [he₁] at heq
        exact absurd heq.symm (hold hold₂)
    · rcases hrecord h₂ with ⟨-, he₂⟩ | ⟨-, hold₂⟩
      · rw [he₂] at heq
        exact absurd heq (hold hold₁)
      · exact h.records_once i j e₁ e₂ hold₁ hold₂ heq
  · intro c key ht
    exact List.mem_cons_of_mem _ (h.taken_known c key ht)
  · -- the new key was never handed out
    intro i hi e' hl c ht
    rcases hrecord hl with ⟨rfl, rfl⟩ | ⟨hne, hl⟩
    · exact hnew (h.taken_known c _ ht)
    · exact h.free_not_taken i (Finset.mem_of_mem_insert_of_ne hi hne) e' hl c ht
  · intro c e' hc hl c' ht
    rcases hrecord hl with ⟨hi, -⟩ | ⟨-, hl⟩
    · exact absurd hi (hheld c)
    · exact h.held_taken c e' hc hl c' ht

/-- The key store grows, free indices go away, and records go away that nobody has an index of. -/
theorem Sound.shrink (h : s.Sound) {w : KeyWallet} (hkeys : s.wallet.vchKeys ⊆ w.vchKeys)
    (hdefault : w.vchDefaultKey = s.wallet.vchDefaultKey) (hset : w.setKeyPool ⊆ s.wallet.setKeyPool)
    (hpool : ∀ i e, w.pool.lookup i = some e → s.wallet.pool.lookup i = some e)
    (hlive : ∀ i, i ∈ w.setKeyPool ∨ (∃ c, (s.holder c).nIndex = i ∧ i ≠ -1) →
      w.pool.lookup i = s.wallet.pool.lookup i) :
    ({ s with wallet := w } : KeyPoolState ι).Sound where
  pos_free := fun i hi => h.pos_free i (hset hi)
  pos_held := h.pos_held
  held_not_free := fun c hc => h.held_not_free c (hset hc)
  held_once := h.held_once
  recorded_free := by
    intro i hi
    rw [hlive i (.inl hi)]
    exact h.recorded_free i (hset hi)
  recorded_held := by
    intro c hc
    rw [hlive _ (.inr ⟨c, rfl, hc⟩)]
    exact h.recorded_held c hc
  known := fun i e hl => hkeys (h.known i e (hpool i e hl))
  records_once := fun i j e e' hi hj => h.records_once i j e e' (hpool i e hi) (hpool j e' hj)
  taken_known := fun c key ht => hkeys (h.taken_known c key ht)
  free_not_taken := fun i hi e hl => h.free_not_taken i (hset hi) e (hpool i e hl)
  held_taken := fun c e hc hl => h.held_taken c e hc (hpool _ e hl)
  default_known := by
    change w.vchDefaultKey ≠ [] → w.vchDefaultKey ∈ w.vchKeys
    rw [hdefault]
    exact fun hne => hkeys (h.default_known hne)
  between := h.between

/-- The fields of the wallet that the invariant does not read. -/
theorem Sound.congr (h : s.Sound) {w : KeyWallet} (hkeys : w.vchKeys = s.wallet.vchKeys)
    (hdefault : w.vchDefaultKey = s.wallet.vchDefaultKey) (hset : w.setKeyPool = s.wallet.setKeyPool)
    (hpool : w.pool = s.wallet.pool) : ({ s with wallet := w } : KeyPoolState ι).Sound := by
  refine h.shrink ?_ hdefault ?_ ?_ ?_
  · rw [hkeys]
    exact fun _ h => h
  · rw [hset]
  · intro i e hl
    rw [← hpool]
    exact hl
  · intro i _
    rw [hpool]

/-- A new key of the wallet that is not yet in the pool. -/
theorem Sound.addKey (h : s.Sound) (key : List UInt8) :
    ({ s with wallet := { s.wallet with vchKeys := key :: s.wallet.vchKeys } } : KeyPoolState ι).Sound :=
  h.shrink (List.subset_cons_self _ _) rfl (fun _ h => h) (fun _ _ h => h) (fun _ _ => rfl)

end KeyPoolState

/-! ### Making keys -/

namespace KeyWallet

variable {s : KeyPoolState ι} {w : KeyWallet} {env : KeyEnv} {nKeypool : ℤ}

/-- No index of the pool is above the end. -/
theorem le_of_mem_setKeyPool {i : ℤ} (hi : i ∈ w.setKeyPool) : i < w.nEnd := by
  unfold nEnd
  rw [dif_pos ⟨i, hi⟩]
  exact Int.lt_add_one_of_le (Finset.le_max' _ i hi)

/-- The end of the pool is positive. -/
theorem nEnd_pos (h : ∀ i ∈ w.setKeyPool, 0 < i) : 0 < w.nEnd := by
  unfold nEnd
  split_ifs with hne
  · exact Int.add_pos (h _ (Finset.max'_mem _ hne)) Int.one_pos
  · exact Int.one_pos

/-- And is free. -/
theorem nEnd_notMem : w.nEnd ∉ w.setKeyPool :=
  fun h => absurd (le_of_mem_setKeyPool h) (lt_irrefl _)

/-- Only the set matters. -/
theorem nEnd_congr {w' : KeyWallet} (h : w'.setKeyPool = w.setKeyPool) : w'.nEnd = w.nEnd := by
  unfold nEnd
  simp only [h]

/-- Using it moves the end on by one. -/
theorem nEnd_insertIndex : (w.insertIndex w.nEnd).nEnd = w.nEnd + 1 := by
  unfold insertIndex
  conv_lhs => unfold nEnd
  rw [dif_pos (Finset.insert_nonempty _ _)]
  congr 1
  refine le_antisymm (Finset.max'_le _ _ _ ?_) (Finset.le_max' _ _ (Finset.mem_insert_self _ _))
  intro i hi
  rcases Finset.mem_insert.mp hi with rfl | hi
  · exact le_rfl
  · exact (le_of_mem_setKeyPool hi).le

/-- And adds one key to the pool. -/
theorem card_insertIndex : (w.insertIndex w.nEnd).setKeyPool.card = w.setKeyPool.card + 1 :=
  Finset.card_insert_of_notMem nEnd_notMem

/-- A key is made and its record written, or the call throws. -/
theorem generateNewKey_spec (env : KeyEnv) (i : ℕ) (w : KeyWallet) :
    Triple (generateNewKey env i) w
      (fun key w' => key = env.makeNewKey i ∧
        w' = { w with vchKeys := env.makeNewKey i :: w.vchKeys })
      (fun _ w' => w' = w ∨ w' = { w with vchKeys := env.makeNewKey i :: w.vchKeys }) := by
  unfold Triple generateNewKey
  by_cases hstore : env.storeKey i
  · by_cases hwrite : env.writeKey i
    · simp [hstore, hwrite]
    · simp [hstore, hwrite]
  · simp [hstore]

/-- The state with another wallet is sound, whichever way a command on the wallet ends. -/
def KeepsSound (s : KeyPoolState ι) {α : Type} (x : Command KeyWallet Failure α) (w : KeyWallet) : Prop :=
  Triple x w (fun _ w' => ({ s with wallet := w' } : KeyPoolState ι).Sound)
    (fun _ w' => ({ s with wallet := w' } : KeyPoolState ι).Sound)

/-- `GenerateNewKey` is followed by the rest of the command. -/
theorem KeepsSound.generateNewKey_bind {α : Type} {f : List UInt8 → Command KeyWallet Failure α} {i : ℕ}
    (h : ({ s with wallet := w } : KeyPoolState ι).Sound)
    (hf : KeepsSound s (f (env.makeNewKey i)) { w with vchKeys := env.makeNewKey i :: w.vchKeys }) :
    KeepsSound s (generateNewKey env i >>= f) w := by
  refine Triple.bind ((generateNewKey_spec env i w).mono (fun _ _ h => h) ?_) ?_
  · rintro _ w' (rfl | rfl)
    · exact h
    · exact h.addKey _
  · rintro _ _ ⟨rfl, rfl⟩
    exact hf

/-- One round of either loop: the index that is issued is not with a holder. -/
theorem sound_issue (h : ({ s with wallet := w } : KeyPoolState ι).Sound) {i n : ℕ} (nIndex : ℤ)
    (hfresh : env.Fresh w.vchKeys i (n + 1)) (hi : i ≤ n) (hpos : 0 < nIndex)
    (hheld : ∀ c, (s.holder c).nIndex ≠ nIndex) :
    ({ s with wallet := insertIndex nIndex { w with
      vchKeys := env.makeNewKey i :: w.vchKeys
      pool := w.pool.insert nIndex ⟨env.nTime, env.makeNewKey i⟩ } } : KeyPoolState ι).Sound :=
  h.issue (e := ⟨env.nTime, env.makeNewKey i⟩) hpos hheld (hfresh i le_rfl (by omega)).1

/-- The loop of `TopUpKeyPool`, by induction on the number of keys still missing. -/
theorem topUpLoop_sound {nTarget : ℕ} (n i : ℕ) (w : KeyWallet)
    (h : ({ s with wallet := w } : KeyPoolState ι).Sound) (hn : n = nTarget - w.setKeyPool.card)
    (hfresh : env.Fresh w.vchKeys i (i + n))
    (hspace : ∀ c, (s.holder c).nIndex < w.nEnd ∨ w.nEnd + n ≤ (s.holder c).nIndex) :
    KeepsSound s (topUpLoop nTarget env n i) w := by
  -- the index of a round is one more than that of the round before
  induction n generalizing i w with
  | zero => exact h
  | succ n ih =>
    unfold topUpLoop
    refine Triple.get_bind ?_
    rw [if_pos (by omega)]
    -- a key is made, and its record written
    refine KeepsSound.generateNewKey_bind h ?_
    refine Triple.bind (Q := fun fWritten w' =>
      (fWritten = true ∧ w' = { w with
        vchKeys := env.makeNewKey i :: w.vchKeys
        pool := w.pool.insert w.nEnd ⟨env.nTime, env.makeNewKey i⟩ }) ∨
      (fWritten = false ∧ w' = { w with vchKeys := env.makeNewKey i :: w.vchKeys })) ?_ ?_
    · unfold Triple writePool
      by_cases hwrite : env.writePool i
      · simp [hwrite]
      · simp [hwrite]
    · rintro fWritten w' (⟨rfl, rfl⟩ | ⟨rfl, rfl⟩)
      · -- the record was written
        refine Triple.lift_bind (fun _ _ => Triple.modify_bind ?_) (fun _ he => absurd he (by simp))
        have hissued := sound_issue h (n := i + n) w.nEnd hfresh (by omega) (nEnd_pos h.pos_free) (by
          intro c heq
          rcases hspace c with hlt | hle
          · omega
          · omega)
        refine ih (i + 1) _ hissued ?_ ?_ ?_
        · change n = nTarget - (w.insertIndex w.nEnd).setKeyPool.card
          rw [card_insertIndex]
          omega
        · rw [show i + 1 + n = i + (n + 1) by omega]
          exact hfresh.next
        · intro c
          have hnext : (insertIndex w.nEnd { w with
              vchKeys := env.makeNewKey i :: w.vchKeys
              pool := w.pool.insert w.nEnd ⟨env.nTime, env.makeNewKey i⟩ }).nEnd = w.nEnd + 1 := by
            rw [← nEnd_insertIndex]
            exact nEnd_congr rfl
          rw [hnext]
          rcases hspace c with hlt | hle
          · exact .inl (by omega)
          · exact .inr (by push_cast at hle; omega)
      · -- it was not, and the loop throws
        refine Triple.lift_bind (fun _ he => absurd he (by simp)) (fun _ _ => ?_)
        exact h.addKey _

/-- The loop of `NewKeyPool`, by induction on the number of keys. -/
theorem newKeys_sound (n i : ℕ) (w : KeyWallet)
    (h : ({ s with wallet := w } : KeyPoolState ι).Sound) (hfresh : env.Fresh w.vchKeys i (i + n))
    (hwritten : ∀ j, i ≤ j → j < i + n → env.writePool j = true)
    (hspace : ∀ c, (s.holder c).nIndex ≤ i ∨ i + n < (s.holder c).nIndex) :
    KeepsSound s (newKeys env n i) w := by
  induction n generalizing i w with
  | zero => exact h
  | succ n ih =>
    unfold newKeys
    refine KeepsSound.generateNewKey_bind h ?_
    -- every write succeeds, so the loop cannot stop here
    have hwrite : writePool env i (i + 1) ⟨env.nTime, env.makeNewKey i⟩
        { w with vchKeys := env.makeNewKey i :: w.vchKeys } = (.ok true, { w with
          vchKeys := env.makeNewKey i :: w.vchKeys
          pool := w.pool.insert (i + 1) ⟨env.nTime, env.makeNewKey i⟩ }) := by
      unfold writePool
      rw [if_pos (hwritten i le_rfl (by omega))]
    refine Triple.bind (Triple.run.mono (fun _ _ h => h) (fun e w' hrun => ?_)) ?_
    · rw [hwrite] at hrun
      cases hrun
    · intro _ w' hrun
      rw [hwrite] at hrun
      cases hrun
      -- no holder has the index that is issued
      have hissued := sound_issue h (n := i + n) (i + 1) hfresh (by omega) (by omega) (by
        intro c heq
        rcases hspace c with hle | hlt
        · omega
        · omega)
      refine Triple.modify_bind (ih (i + 1) _ hissued ?_ ?_ ?_)
      · rw [show i + 1 + n = i + (n + 1) by omega]
        exact hfresh.next
      · exact fun j hj hlt => hwritten j (by omega) (by omega)
      · intro c
        rcases hspace c with hle | hlt
        · exact .inl (by push_cast; omega)
        · exact .inr (by push_cast at hlt ⊢; omega)

/-- `TopUpKeyPool`, which does nothing in a locked wallet. -/
theorem topUpKeyPool_sound (h : ({ s with wallet := w } : KeyPoolState ι).Sound)
    (hfresh : w.fLocked = false → env.Fresh w.vchKeys 0 (w.missingKeys nKeypool))
    (hspace : w.fLocked = false → ∀ c, (s.holder c).nIndex < w.nEnd ∨
      w.nEnd + w.missingKeys nKeypool ≤ (s.holder c).nIndex) :
    KeepsSound s (topUpKeyPool nKeypool env) w := by
  refine Triple.get_bind ?_
  cases hlocked : w.fLocked with
  | true =>
    rw [if_pos rfl]
    exact h
  | false =>
    rw [if_neg (by simp)]
    refine Triple.bind (topUpLoop_sound _ 0 w h rfl ?_ (hspace hlocked)) (fun _ _ h' => h')
    rw [Nat.zero_add]
    exact hfresh hlocked

/-- When the loop comes to its end, the set has as many free indices as are wanted. -/
theorem topUpLoop_fills {nTarget : ℕ} (n i : ℕ) (w : KeyWallet) (hn : nTarget ≤ n + w.setKeyPool.card) :
    Triple (topUpLoop nTarget env n i) w (fun _ w' => nTarget ≤ w'.setKeyPool.card) (fun _ _ => True) := by
  induction n generalizing i w with
  | zero =>
    rw [Nat.zero_add] at hn
    exact hn
  | succ n ih =>
    unfold topUpLoop
    refine Triple.get_bind ?_
    split_ifs with hlt
    swap
    · exact not_lt.mp hlt
    refine Triple.bind ((generateNewKey_spec env i w).mono (fun _ _ h => h) (fun _ _ _ => trivial)) ?_
    rintro _ _ ⟨rfl, rfl⟩
    -- writing the record leaves the set as it is
    refine Triple.bind (Q := fun _ w' => w'.setKeyPool = w.setKeyPool) ?_ ?_
    · unfold Triple writePool
      by_cases hwrite : env.writePool i
      · simp [hwrite]
      · simp [hwrite]
    · intro fWritten w' hset
      refine Triple.lift_bind (fun _ _ => Triple.modify_bind (ih (i + 1) _ ?_)) (fun _ _ => trivial)
      -- the set has one index more for the next round
      rw [← nEnd_congr hset, card_insertIndex, hset]
      omega

/-- `TopUpKeyPool` on an unlocked wallet: a wallet that has no free index after it wants none. -/
theorem topUpKeyPool_fills (hlocked : w.fLocked = false) :
    Triple (topUpKeyPool nKeypool env) w
      (fun _ w' => w'.setKeyPool = ∅ → targetSize nKeypool = 0 ∧ w' = w) (fun _ _ => True) := by
  refine Triple.get_bind ?_
  rw [hlocked, if_neg (by simp)]
  have henough : targetSize nKeypool ≤ w.missingKeys nKeypool + w.setKeyPool.card := by
    unfold missingKeys
    omega
  refine Triple.bind ((Triple.run.and (topUpLoop_fills _ 0 w henough)).mono (fun _ _ h => h)
    (fun _ _ _ => trivial)) ?_
  rintro _ w' ⟨hrun, hcard⟩ hempty
  have hzero : targetSize nKeypool = 0 := by
    rw [hempty, Finset.card_empty] at hcard
    exact Nat.le_zero.mp hcard
  refine ⟨hzero, ?_⟩
  -- the loop has no round
  rw [missingKeys, hzero, Nat.zero_sub] at hrun
  cases hrun
  rfl

/-! ### A new pool -/

/-- Erasing rows of the pool touches neither the keys nor the default key. -/
theorem foldl_erasePool (env : KeyEnv) (l : List ℤ) (w : KeyWallet) :
    (l.foldl (erasePool env) w).vchKeys = w.vchKeys ∧ (l.foldl (erasePool env) w).fLocked = w.fLocked ∧
      (l.foldl (erasePool env) w).vchDefaultKey = w.vchDefaultKey ∧
      (∀ i e, (l.foldl (erasePool env) w).pool.lookup i = some e → w.pool.lookup i = some e) ∧
      ∀ i, i ∉ l → (l.foldl (erasePool env) w).pool.lookup i = w.pool.lookup i := by
  induction l generalizing w with
  | nil => exact ⟨rfl, rfl, rfl, fun _ _ h => h, fun _ _ => rfl⟩
  | cons a l ih =>
    obtain ⟨hkeys, hlocked, hdefault, hpool, hother⟩ := ih (erasePool env w a)
    rw [List.foldl_cons]
    -- one erasure takes its own record away at most
    have hlookup : ∀ i, (erasePool env w a).pool.lookup i = w.pool.lookup i ∨
        (i = a ∧ (erasePool env w a).pool.lookup i = none) := by
      intro i
      unfold erasePool
      split_ifs with herase
      · rw [Map.lookup_erase_eq]
        split_ifs with hi
        · exact .inr ⟨hi, rfl⟩
        · exact .inl rfl
      · exact .inl rfl
    refine ⟨?_, ?_, ?_, ?_, ?_⟩
    · rw [hkeys]
      unfold erasePool
      split_ifs <;> rfl
    · rw [hlocked]
      unfold erasePool
      split_ifs <;> rfl
    · rw [hdefault]
      unfold erasePool
      split_ifs <;> rfl
    · -- what is left was there before
      intro i e hl
      rcases hlookup i with heq | ⟨-, hnone⟩
      · rw [← heq]
        exact hpool i e hl
      · rw [hpool i e hl] at hnone
        cases hnone
    · -- other records stay
      intro i hi
      rw [List.mem_cons, not_or] at hi
      rw [hother i hi.2]
      rcases hlookup i with heq | ⟨hia, -⟩
      · exact heq
      · exact absurd hia hi.1

/-- So a pool that was cleared is sound. -/
theorem sound_clearPool (h : ({ s with wallet := w } : KeyPoolState ι).Sound) :
    ({ s with wallet := w.clearPool env } : KeyPoolState ι).Sound := by
  obtain ⟨hkeys, -, hdefault, hpool, hother⟩ := foldl_erasePool env w.setKeyPool.sort w
  refine h.shrink ?_ hdefault (Finset.empty_subset _) hpool ?_
  · change w.vchKeys ⊆ (w.setKeyPool.sort.foldl (erasePool env) w).vchKeys
    rw [hkeys]
    exact fun _ h => h
  · rintro i (hi | ⟨c, rfl, -⟩)
    · exact absurd hi (Finset.notMem_empty i)
    · exact hother _ (by
        rw [Finset.mem_sort]
        exact h.held_not_free c)

/-- `NewKeyPool` clears the pool and fills it again. -/
theorem newKeyPool_sound (h : ({ s with wallet := w } : KeyPoolState ι).Sound)
    (hfresh : w.fLocked = false → env.Fresh w.vchKeys 0 (max nKeypool 0).toNat)
    (hwritten : w.fLocked = false → ∀ j < (max nKeypool 0).toNat, env.writePool j = true)
    (hspace : w.fLocked = false → ∀ c, (s.holder c).nIndex ≤ 0 ∨ max nKeypool 0 < (s.holder c).nIndex) :
    KeepsSound s (newKeyPool nKeypool env) w := by
  -- clearing the pool erases records and nothing else
  obtain ⟨hkeys, hlocked, -⟩ := foldl_erasePool env w.setKeyPool.sort w
  refine Triple.modify_bind (Triple.get_bind ?_)
  have hcleared : (w.clearPool env).fLocked = w.fLocked := hlocked
  rw [hcleared]
  cases hcase : w.fLocked with
  | true =>
    rw [if_pos rfl]
    exact sound_clearPool h
  | false =>
    rw [if_neg (by simp)]
    refine Triple.bind (newKeys_sound _ 0 _ (sound_clearPool h) ?_ ?_ ?_) (fun _ _ h' => h')
    · rw [Nat.zero_add, show (w.clearPool env).vchKeys = w.vchKeys from hkeys]
      exact hfresh hcase
    · rw [Nat.zero_add]
      exact fun j _ hlt => hwritten hcase j hlt
    · intro c
      rcases hspace hcase c with hle | hlt
      · exact .inl hle
      · exact .inr (by omega)

end KeyWallet

/-! ### Holders -/

namespace KeyPoolState

variable [DecidableEq ι] {s : KeyPoolState ι} {c : ι}

/-- Each holder has its own reserved key. -/
theorem holder_setHolder (s : KeyPoolState ι) (c : ι) (key : CReserveKey) (c' : ι) :
    (s.setHolder c key).holder c' = if c' = c then key else s.holder c' :=
  Function.update_apply _ _ _ _

/-- A holder gives up its index. -/
theorem Sound.drop (h : s.Sound) (c : ι) (key : List UInt8) : (s.setHolder c ⟨-1, key⟩).Sound := by
  -- who still has an index has the one it had
  have hother : ∀ {c'}, ((s.setHolder c ⟨-1, key⟩).holder c').nIndex ≠ -1 →
      (s.setHolder c ⟨-1, key⟩).holder c' = s.holder c' := by
    intro c' hne
    rw [holder_setHolder] at hne ⊢
    split_ifs at hne ⊢ with heq
    · exact absurd rfl hne
    · rfl
  refine
    { pos_free := h.pos_free, pos_held := ?_, held_not_free := ?_, held_once := ?_
      recorded_free := h.recorded_free, recorded_held := ?_, known := h.known
      records_once := h.records_once, taken_known := h.taken_known
      free_not_taken := h.free_not_taken, held_taken := ?_, default_known := h.default_known
      between := h.between }
  · intro c' hc'
    have heq := hother hc'
    rw [heq] at hc' ⊢
    exact h.pos_held c' hc'
  · intro c' hmem
    by_cases hc' : ((s.setHolder c ⟨-1, key⟩).holder c').nIndex = -1
    · rw [hc'] at hmem
      exact absurd (h.pos_free (-1) hmem) (by decide)
    · rw [hother hc'] at hmem
      exact h.held_not_free c' hmem
  · intro c₁ c₂ hc₁ heq
    have hc₂ := hc₁
    rw [heq] at hc₂
    rw [hother hc₁, hother hc₂] at heq
    rw [hother hc₁] at hc₁
    exact h.held_once c₁ c₂ hc₁ heq
  · intro c' hc'
    have heq := hother hc'
    rw [heq] at hc' ⊢
    exact h.recorded_held c' hc'
  · intro c' e hc' hl
    have heq := hother hc'
    rw [heq] at hc' hl ⊢
    exact h.held_taken c' e hc' hl

/-- A holder takes a free index. -/
theorem Sound.take (h : s.Sound) {nIndex : ℤ} (hfree : nIndex ∈ s.wallet.setKeyPool)
    (key : List UInt8) :
    ({ s with wallet := { s.wallet with setKeyPool := s.wallet.setKeyPool.erase nIndex } }.setHolder c
      ⟨nIndex, key⟩).Sound := by
  have hne : nIndex ≠ -1 := by
    rintro rfl
    exact absurd (h.pos_free _ hfree) (by decide)
  -- no other holder has a free index
  have hapart : ∀ c', (s.holder c').nIndex ≠ nIndex := fun c' heq => h.held_not_free c' (heq ▸ hfree)
  refine
    { pos_free := fun i hi => h.pos_free i (Finset.mem_of_mem_erase hi), pos_held := ?_
      held_not_free := ?_, held_once := ?_
      recorded_free := fun i hi => h.recorded_free i (Finset.mem_of_mem_erase hi)
      recorded_held := ?_, known := h.known, records_once := h.records_once
      taken_known := h.taken_known
      free_not_taken := fun i hi => h.free_not_taken i (Finset.mem_of_mem_erase hi)
      held_taken := ?_, default_known := h.default_known, between := h.between }
  · -- indices that are held are positive
    intro c' hc'
    rw [holder_setHolder] at hc' ⊢
    split_ifs at hc' ⊢ with heq
    · exact h.pos_free nIndex hfree
    · exact h.pos_held c' hc'
  · -- they are not free
    intro c' hmem
    rw [holder_setHolder] at hmem
    split_ifs at hmem with heq
    · exact Finset.notMem_erase _ _ hmem
    · exact h.held_not_free c' (Finset.mem_of_mem_erase hmem)
  · -- no two holders have one index
    intro c₁ c₂ hc₁ heq
    rw [holder_setHolder] at hc₁ heq
    rw [holder_setHolder] at heq
    split_ifs at hc₁ heq with h₁ h₂ h₂
    · rw [h₁, h₂]
    · exact absurd heq.symm (hapart c₂)
    · exact absurd heq (hapart c₁)
    · exact h.held_once c₁ c₂ hc₁ heq
  · -- the record of an index that is held is there
    intro c' hc'
    rw [holder_setHolder] at hc' ⊢
    by_cases heq : c' = c
    · rw [if_pos heq]
      exact h.recorded_free nIndex hfree
    · rw [if_neg heq] at hc' ⊢
      exact h.recorded_held c' hc'
  · -- and its key was handed to this holder only
    intro c' e hc' hl c₁ ht
    rw [holder_setHolder] at hc' hl ⊢
    by_cases heq : c' = c
    · rw [if_pos heq] at hl
      exact absurd ht (h.free_not_taken nIndex hfree e hl c₁)
    · rw [if_neg heq] at hc' hl ⊢
      exact h.held_taken c' e hc' hl c₁ ht

omit [DecidableEq ι] in
/-- The key of its index goes to the holder. -/
theorem Sound.hand (h : s.Sound) {e : CKeyPool} (hne : (s.holder c).nIndex ≠ -1)
    (hl : s.wallet.pool.lookup (s.holder c).nIndex = some e) (hkey : (s.holder c).vchPubKey = e.vchPubKey)
    (hfree : ∀ c', ¬ Taken c' e.vchPubKey s.history) :
    ({ s with history := .handed c e.vchPubKey :: s.history } : KeyPoolState ι).Sound := by
  refine
    { pos_free := h.pos_free, pos_held := h.pos_held, held_not_free := h.held_not_free
      held_once := h.held_once, recorded_free := h.recorded_free, recorded_held := h.recorded_held
      known := h.known, records_once := h.records_once, taken_known := ?_, free_not_taken := ?_
      held_taken := ?_, default_known := h.default_known, between := h.between.handed hfree }
  · rintro c' key (⟨-, rfl⟩ | ht)
    · exact h.known _ e hl
    · exact h.taken_known c' key ht
  · rintro i hi e' hl' c' (⟨-, heq⟩ | ht)
    · exact h.held_not_free c (h.records_once _ _ e e' hl hl' heq ▸ hi)
    · exact h.free_not_taken i hi e' hl' c' ht
  · rintro c' e' hc' hl' c₁ (⟨rfl, heq⟩ | ht)
    · have hindex := h.records_once _ _ e e' hl hl' heq
      obtain rfl := h.held_once c c' hne hindex
      exact ⟨rfl, hkey.trans heq⟩
    · exact h.held_taken c' e' hc' hl' c₁ ht

/-- A holder returns its index. -/
theorem Sound.giveBack (h : s.Sound) (hne : (s.holder c).nIndex ≠ -1) :
    ({ s with
      wallet := s.wallet.insertIndex (s.holder c).nIndex
      history := .returned c (s.holder c).vchPubKey :: s.history }.setHolder c {}).Sound := by
  -- the holder has nothing afterwards, and its index is free
  have hdrop := h.drop c []
  refine
    { pos_free := ?_, pos_held := hdrop.pos_held, held_not_free := ?_, held_once := hdrop.held_once
      recorded_free := ?_, recorded_held := hdrop.recorded_held, known := h.known
      records_once := h.records_once, taken_known := fun c' key ht => h.taken_known c' key ht.2
      free_not_taken := ?_, held_taken := fun c' e hc' hl c₁ ht => hdrop.held_taken c' e hc' hl c₁ ht.2
      default_known := h.default_known, between := h.between.returned _ _ }
  · intro i hi
    rcases Finset.mem_insert.mp hi with rfl | hi
    · exact h.pos_held c hne
    · exact h.pos_free i hi
  · intro c' hmem
    rcases Finset.mem_insert.mp hmem with heq | hmem
    · rw [holder_setHolder] at heq
      split_ifs at heq with hcase
      · exact hne heq.symm
      · exact hcase (h.held_once c c' hne heq.symm).symm
    · exact hdrop.held_not_free c' hmem
  · intro i hi
    rcases Finset.mem_insert.mp hi with rfl | hi
    · exact h.recorded_held c hne
    · exact h.recorded_free i hi
  · rintro i hi e hl c' ⟨hnot, ht⟩
    rcases Finset.mem_insert.mp hi with rfl | hi
    · obtain ⟨rfl, hkey⟩ := h.held_taken c e hne hl c' ht
      exact hnot ⟨rfl, hkey⟩
    · exact h.free_not_taken i hi e hl c' ht

omit [DecidableEq ι] in
/-- A key comes back that is not that of an index. -/
theorem Sound.release (h : s.Sound) (c : ι) (key : List UInt8) :
    ({ s with history := .returned c key :: s.history } : KeyPoolState ι).Sound where
  pos_free := h.pos_free
  pos_held := h.pos_held
  held_not_free := h.held_not_free
  held_once := h.held_once
  recorded_free := h.recorded_free
  recorded_held := h.recorded_held
  known := h.known
  records_once := h.records_once
  taken_known := fun c' key' ht => h.taken_known c' key' ht.2
  free_not_taken := fun i hi e hl c' ht => h.free_not_taken i hi e hl c' ht.2
  held_taken := fun c' e hc hl c₁ ht => h.held_taken c' e hc hl c₁ ht.2
  default_known := h.default_known
  between := h.between.returned c key

/-- The default key is with nobody, and no record of the pool has it. -/
def DefaultFree (s : KeyPoolState ι) : Prop :=
  (∀ c, ¬ Taken c s.wallet.vchDefaultKey s.history) ∧
    ∀ i e, s.wallet.pool.lookup i = some e → e.vchPubKey ≠ s.wallet.vchDefaultKey

/-- A holder falls back on the default key, which it has already or which nobody has. -/
theorem Sound.handDefault (h : s.Sound)
    (hfree : (s.holder c).vchPubKey = s.wallet.vchDefaultKey ∨ s.DefaultFree) :
    (s.handDefault c).Sound := by
  unfold KeyPoolState.handDefault
  split_ifs with hcase
  · exact h.drop c _
  -- nobody has the default key, and no record has it
  rw [not_or] at hcase
  obtain ⟨hnobody, hrecords⟩ := hfree.resolve_left hcase.2
  have hdrop := h.drop c s.wallet.vchDefaultKey
  refine
    { pos_free := h.pos_free, pos_held := hdrop.pos_held, held_not_free := hdrop.held_not_free
      held_once := hdrop.held_once, recorded_free := h.recorded_free, recorded_held := hdrop.recorded_held
      known := h.known, records_once := h.records_once, taken_known := ?_, free_not_taken := ?_
      held_taken := ?_, default_known := h.default_known, between := h.between.handed hnobody }
  · rintro c' key (⟨-, rfl⟩ | ht)
    · exact h.default_known hcase.1
    · exact h.taken_known c' key ht
  · rintro i hi e hl c' (⟨-, heq⟩ | ht)
    · exact hrecords i e hl heq.symm
    · exact h.free_not_taken i hi e hl c' ht
  · rintro c' e hc' hl c₁ (⟨-, heq⟩ | ht)
    · exact absurd heq.symm (hrecords _ e hl)
    · exact hdrop.held_taken c' e hc' hl c₁ ht

/-! ### The calls -/

/-- The top-up issues no index that is with a holder. -/
def TopUpApart (nKeypool : ℤ) (s : KeyPoolState ι) : Prop :=
  s.wallet.fLocked = false → ∀ c, (s.holder c).nIndex < s.wallet.nEnd ∨
    s.wallet.nEnd + s.wallet.missingKeys nKeypool ≤ (s.holder c).nIndex

/-- A holder that asks for a key gets none from the pool: no index is free, and no key is made. -/
def FallsBack (nKeypool : ℤ) (s : KeyPoolState ι) : Prop :=
  s.wallet.setKeyPool = ∅ ∧ (s.wallet.fLocked = true ∨ KeyWallet.targetSize nKeypool = 0)

/-- The keys that a call makes are new. -/
def MakesNew (nKeypool : ℤ) (s : KeyPoolState ι) : KeyAction ι → Prop
  | .topUpKeyPool env => env.Fresh s.wallet.vchKeys 0 (s.wallet.missingKeys nKeypool)
  | .getReservedKey env _ => env.Fresh s.wallet.vchKeys 0 (s.wallet.missingKeys nKeypool)
  | .newKeyPool env => env.Fresh s.wallet.vchKeys 0 (max nKeypool 0).toNat
  | _ => True

/-- The call issues no index that is with a holder, hands the default key out only while nobody else can
get it, and writes a new pool. -/
def IssuesApart (nKeypool : ℤ) (s : KeyPoolState ι) : KeyAction ι → Prop
  | .topUpKeyPool _ => s.TopUpApart nKeypool
  | .getReservedKey _ c => (s.holder c).nIndex = -1 → s.TopUpApart nKeypool ∧
      (s.FallsBack nKeypool → (s.holder c).vchPubKey = s.wallet.vchDefaultKey ∨ s.DefaultFree)
  | .newKeyPool env => s.wallet.fLocked = false →
      (∀ c, (s.holder c).nIndex ≤ 0 ∨ max nKeypool 0 < (s.holder c).nIndex) ∧
      ∀ j < (max nKeypool 0).toNat, env.writePool j = true
  | _ => True

/-- What `ReserveKeyFromKeyPool` leaves: nothing for the holder, with `NoKey` if the call returned, or an
index, with its key if the call returned. -/
def Reserved (s : KeyPoolState ι) (c : ι) (NoKey : KeyWallet → Prop) (key? : Option (List UInt8))
    (p : KeyWallet × ℤ) : Prop :=
  (p.2 = -1 ∧ ({ s with wallet := p.1 } : KeyPoolState ι).Sound ∧ (key?.isSome → NoKey p.1)) ∨
  (p.2 ≠ -1 ∧ ∀ key, ({ s with wallet := p.1 }.setHolder c ⟨p.2, key⟩).Sound ∧
    (key? = some key →
      ({ s with
        wallet := p.1
        history := .handed c key :: s.history }.setHolder c ⟨p.2, key⟩).Sound))

variable {P : Params} {nKeypool : ℤ} {env : KeyEnv}

/-- The oldest key is taken from the wallet `w`. -/
theorem takeOldestKey_spec {w : KeyWallet} {n : ℤ}
    (h : ({ s with wallet := w } : KeyPoolState ι).Sound) (c : ι) {NoKey : KeyWallet → Prop}
    (hnone : w.setKeyPool = ∅ → NoKey w) :
    Triple (takeOldestKey P env) (w, n) (fun keypool p => Reserved s c NoKey (some keypool.vchPubKey) p)
      (fun _ p => Reserved s c NoKey none p) := by
  unfold Triple takeOldestKey
  by_cases hne : w.setKeyPool.Nonempty
  swap
  · simp only [dif_neg hne]
    exact .inl ⟨rfl, h, fun _ => hnone (Finset.not_nonempty_iff_eq_empty.mp hne)⟩
  -- the least free index
  have hfree := Finset.min'_mem w.setKeyPool hne
  -- the pool is not empty: its least index is taken out before the record is read
  have hindex : w.setKeyPool.min' hne ≠ -1 := by
    intro heq
    exact absurd (h.pos_free _ hfree) (by rw [heq]; decide)
  -- when the read or a check fails, the index is held with no key
  have herror : Reserved s c NoKey none
      ({ w with setKeyPool := w.setKeyPool.erase (w.setKeyPool.min' hne) }, w.setKeyPool.min' hne) :=
    .inr ⟨hindex, fun key => ⟨h.take hfree key, fun hkey => absurd hkey (by simp)⟩⟩
  simp only [dif_pos hne]
  cases hread : if env.readPool then w.pool.lookup (w.setKeyPool.min' hne) else none with
  | none => exact herror
  | some keypool =>
    have hl : w.pool.lookup (w.setKeyPool.min' hne) = some keypool := by
      split_ifs at hread
      exact hread
    -- it is read
    have hok : Reserved s c NoKey (some keypool.vchPubKey)
        ({ w with setKeyPool := w.setKeyPool.erase (w.setKeyPool.min' hne) }, w.setKeyPool.min' hne) := by
      refine .inr ⟨hindex, fun key => ⟨h.take hfree key, ?_⟩⟩
      rintro ⟨rfl⟩
      refine (h.take (c := c) hfree keypool.vchPubKey).hand (e := keypool) ?_ ?_ ?_ ?_
      · rw [holder_setHolder, if_pos rfl]
        exact hindex
      · rw [holder_setHolder, if_pos rfl]
        exact hl
      · rw [holder_setHolder, if_pos rfl]
      · exact h.free_not_taken _ hfree keypool hl
    dsimp only
    split_ifs
    · exact herror
    · exact herror
    · exact hok

/-- `ReserveKeyFromKeyPool`. It returns without a key only when the pool is empty and is not filled. -/
theorem reserveKeyFromKeyPool_spec (h : s.Sound) (c : ι) {n : ℤ}
    (hnew : env.Fresh s.wallet.vchKeys 0 (s.wallet.missingKeys nKeypool))
    (hapart : s.TopUpApart nKeypool) :
    Triple (reserveKeyFromKeyPool P nKeypool env) (s.wallet, n)
      (fun keypool p =>
        Reserved s c (fun w => w = s.wallet ∧ s.FallsBack nKeypool) (some keypool.vchPubKey) p)
      (fun _ p => Reserved s c (fun w => w = s.wallet ∧ s.FallsBack nKeypool) none p) := by
  refine Triple.modify_bind (Triple.get_bind ?_)
  simp only
  cases hlocked : s.wallet.fLocked with
  | false =>
    rw [if_pos (by simp)]
    -- filling the pool keeps it sound, and leaves it empty only if nothing is wanted
    have hsound := KeyWallet.topUpKeyPool_sound h (fun _ => hnew) hapart
    refine Triple.bind (Q := fun _ p => ({ s with wallet := p.1 } : KeyPoolState ι).Sound ∧
      (p.1.setKeyPool = ∅ → KeyWallet.targetSize nKeypool = 0 ∧ p.1 = s.wallet))
      (Triple.onPart ((hsound.and (KeyWallet.topUpKeyPool_fills hlocked)).mono (fun _ _ h' => h') ?_)) ?_
    · exact fun _ _ h' => .inl ⟨rfl, h'.1, fun hkey => absurd hkey (by simp)⟩
    · rintro _ p ⟨hp, hfills⟩
      refine takeOldestKey_spec hp c (fun hempty => ?_)
      obtain ⟨hzero, heq⟩ := hfills hempty
      exact ⟨heq, by rw [← heq]; exact hempty, .inr hzero⟩
  | true =>
    rw [if_neg (by simp)]
    exact takeOldestKey_spec h c (fun hempty => ⟨rfl, hempty, .inl hlocked⟩)

/-- `GetReservedKey` takes the first key of the pool, or the default key. -/
theorem Sound.getReservedKey (h : s.Sound) (c : ι)
    (hnew : env.Fresh s.wallet.vchKeys 0 (s.wallet.missingKeys nKeypool))
    (hapart : (s.holder c).nIndex = -1 → s.TopUpApart nKeypool ∧
      (s.FallsBack nKeypool → (s.holder c).vchPubKey = s.wallet.vchDefaultKey ∨ s.DefaultFree)) :
    (s.getReservedKey P nKeypool env c).Sound := by
  unfold KeyPoolState.getReservedKey
  split_ifs with hne
  · exact h
  obtain ⟨htopUp, hdefault⟩ := hapart (not_not.mp hne)
  have hspec := reserveKeyFromKeyPool_spec (P := P) h c (n := (s.holder c).nIndex) hnew htopUp
  split
  · next w nIndex hrun =>
    -- an exception comes before the holder has an index, or behind it
    rcases hspec.of_error hrun with ⟨hnone, hs, -⟩ | ⟨-, hs⟩
    · obtain rfl : nIndex = -1 := hnone
      exact hs.drop c _
    · exact (hs _).1
  · next keypool w nIndex hrun =>
    rcases hspec.of_ok hrun with ⟨hnone, -, hback⟩ | ⟨hsome, hs⟩
    · -- no key from the pool, and the wallet is as it was
      obtain rfl : nIndex = -1 := hnone
      obtain ⟨hwallet, hfalls⟩ := hback rfl
      obtain rfl : w = s.wallet := hwallet
      rw [if_neg (by simp)]
      exact h.handDefault (hdefault hfalls)
    · rw [if_pos hsome]
      exact (hs _).2 rfl

/-- `KeepKey` removes the row from the file. -/
theorem Sound.keepKey (h : s.Sound) (c : ι) : (s.keepKey env c).Sound := by
  have hdrop := h.drop c []
  unfold KeyPoolState.keepKey
  simp only
  split_ifs with hkeep
  swap
  · exact hdrop
  -- the holder has an index, or nothing would be erased
  have hne : (s.holder c).nIndex ≠ -1 := by
    intro heq
    simp [heq] at hkeep
  unfold KeyWallet.erasePool
  split_ifs
  swap
  · exact hdrop
  refine hdrop.shrink (fun _ h => h) rfl (fun _ h => h) ?_ ?_
  · intro i e hl
    rw [Map.lookup_erase_eq] at hl
    split_ifs at hl
    exact hl
  · -- nobody else has the index, and it is not free
    intro i hi
    rw [Map.lookup_erase_eq, if_neg]
    · rfl
    rintro rfl
    rcases hi with hi | ⟨c', heq, -⟩
    · exact h.held_not_free c hi
    · rw [holder_setHolder] at heq
      split_ifs at heq with hcase
      · exact hne heq.symm
      · exact hcase (h.held_once c c' hne heq.symm).symm

/-- `ReturnKey` puts the index back. -/
theorem Sound.returnKey (h : s.Sound) (c : ι) : (s.returnKey c).Sound := by
  unfold KeyPoolState.returnKey
  split_ifs with hne hkey
  · exact h.giveBack hne
  · exact h.drop c []
  · exact (h.release c _).drop c []

/-- **One call** that issues no index which is with a holder. -/
theorem Sound.act (h : s.Sound) {a : KeyAction ι} (hnew : s.MakesNew nKeypool a)
    (hapart : s.IssuesApart nKeypool a) : (s.act P nKeypool a).Sound := by
  cases a with
  | topUpKeyPool env => exact (KeyWallet.topUpKeyPool_sound h (fun _ => hnew) hapart).snd
  | newKeyPool env =>
    exact (KeyWallet.newKeyPool_sound h (fun _ => hnew) (fun hlocked => (hapart hlocked).2)
      (fun hlocked => (hapart hlocked).1)).snd
  | getReservedKey env c => exact h.getReservedKey c hnew hapart
  | keepKey env c => exact h.keepKey c
  | returnKey c => exact h.returnKey c
  | setLocked fLocked => exact h.congr rfl rfl rfl rfl

end KeyPoolState

/-! ### Runs -/

/-- A wallet as it is loaded: the free indices are those that have a record in the file, and the default
key is one of its keys. -/
structure KeyWallet.Loaded (w : KeyWallet) : Prop where
  indexed : ∀ i, i ∈ w.setKeyPool ↔ (w.pool.lookup i).isSome
  pos : ∀ i ∈ w.setKeyPool, 0 < i
  known : ∀ i e, w.pool.lookup i = some e → e.vchPubKey ∈ w.vchKeys
  records_once : ∀ i j e e', w.pool.lookup i = some e → w.pool.lookup j = some e' →
    e.vchPubKey = e'.vchPubKey → i = j
  default_known : w.vchDefaultKey ≠ [] → w.vchDefaultKey ∈ w.vchKeys

/-- The states that are reached from a loaded wallet by calls as `Met` allows them. -/
inductive KeyPoolRun [DecidableEq ι] (P : Params) (nKeypool : ℤ)
    (Met : KeyPoolState ι → KeyAction ι → Prop) : KeyPoolState ι → Prop
  | load {w : KeyWallet} (hload : w.Loaded) : KeyPoolRun P nKeypool Met { wallet := w }
  | act {s : KeyPoolState ι} {a : KeyAction ι} (h : KeyPoolRun P nKeypool Met s)
      (hnew : s.MakesNew nKeypool a) (hmet : Met s a) : KeyPoolRun P nKeypool Met (s.act P nKeypool a)

namespace KeyPoolState

/-- No index is with two holders, no key is handed out twice unless the first holder returned it, and
every free index has a record. -/
structure Safe (s : KeyPoolState ι) : Prop where
  held_once : ∀ c c', c ≠ c' → (s.holder c).nIndex ≠ -1 → (s.holder c).nIndex ≠ (s.holder c').nIndex
  between : ReturnedBetween s.history
  recorded : ∀ i ∈ s.wallet.setKeyPool, (s.wallet.pool.lookup i).isSome

/-- A wallet just loaded, nobody holding a key. -/
theorem Sound.load {w : KeyWallet} (h : w.Loaded) : ({ wallet := w } : KeyPoolState ι).Sound where
  pos_free := h.pos
  pos_held := fun _ hc => absurd rfl hc
  held_not_free := fun _ hmem => absurd (h.pos (-1) hmem) (by decide)
  held_once := fun _ _ hc => absurd rfl hc
  recorded_free := fun i hi => (h.indexed i).mp hi
  recorded_held := fun _ hc => absurd rfl hc
  known := h.known
  records_once := h.records_once
  taken_known := fun _ _ ht => ht.elim
  free_not_taken := fun _ _ _ _ _ ht => ht
  held_taken := fun _ _ hc => absurd rfl hc
  default_known := h.default_known
  between := .nil

/-- A sound state is a safe one. -/
theorem Sound.toSafe {s : KeyPoolState ι} (h : s.Sound) : s.Safe where
  held_once := fun c c' hne hc heq => hne (h.held_once c c' hc heq)
  between := h.between
  recorded := h.recorded_free

end KeyPoolState

/-- **Reservations are safe.** In every run in which no index is issued that is with a holder, no holder
falls back on the default key while it is with another one or in the pool, and every new pool is written. -/
theorem KeyPoolRun.safe [DecidableEq ι] {P : Params} {nKeypool : ℤ} {s : KeyPoolState ι}
    (h : KeyPoolRun P nKeypool (fun s a => s.IssuesApart nKeypool a) s) : s.Safe := by
  have hsound : s.Sound := by
    induction h with
    | load hload => exact KeyPoolState.Sound.load hload
    | act _ hnew hmet ih => exact ih.act hnew hmet
  exact hsound.toSafe

namespace Sample

/-- `Hash160` that tells short keys apart. -/
def keyParams : Params :=
  { params with
    hash160 := fun v => (v ++ List.replicate 20 0).take 20
    hash160_length := by
      intro v
      rw [List.length_take, List.length_append, List.length_replicate]
      omega }

/-- A call in which every answer is good, and the keys have `n` in them. -/
def keyEnv (n : UInt8) : KeyEnv where
  nTime := 1400000000
  makeNewKey i := 2 :: n :: List.replicate 31 (UInt8.ofNat i)
  storeKey _ := true
  writeKey _ := true
  writePool _ := true
  readPool := true
  erasePool _ := true

/-- Two holders of a new wallet each ask for a key. -/
def firstReserved : KeyPoolState Bool :=
  ({ wallet := {} } : KeyPoolState Bool).act keyParams 0 (.getReservedKey (keyEnv 1) true)

def bothReserved : KeyPoolState Bool := firstReserved.act keyParams 0 (.getReservedKey (keyEnv 2) false)

/-- A wallet without a pool. -/
theorem loaded_of_noPool {w : KeyWallet} (hset : w.setKeyPool = ∅) (hpool : w.pool = ∅)
    (hdefault : w.vchDefaultKey ≠ [] → w.vchDefaultKey ∈ w.vchKeys) : w.Loaded where
  indexed := by
    intro i
    rw [hset, hpool]
    simp
  pos := by
    intro i hi
    rw [hset] at hi
    exact absurd hi (Finset.notMem_empty i)
  known := by
    intro i e hl
    rw [hpool, Map.lookup_empty] at hl
    cases hl
  records_once := by
    intro i j e e' hl
    rw [hpool, Map.lookup_empty] at hl
    cases hl
  default_known := hdefault

/-- The keys of one call are different when there are at most two, and new when their number is. -/
theorem fresh_keyEnv {n : UInt8} {vchKeys : List (List UInt8)} {nKeys : ℕ}
    (h : ∀ key ∈ vchKeys, key[1]? ≠ some n) (hkeys : nKeys ≤ 2) : (keyEnv n).Fresh vchKeys 0 nKeys := by
  intro j _ hj
  refine ⟨fun hmem => h _ hmem rfl, ?_⟩
  intro j' _ hj'
  obtain ⟨rfl, rfl⟩ : j' = 0 ∧ j = 1 := by omega
  change (2 :: n :: List.replicate 31 0 : List UInt8) ≠ 2 :: n :: List.replicate 31 1
  intro heq
  have hlast := (List.cons.inj (List.cons.inj heq).2).2
  exact absurd hlast (by decide)

/-- Two holders reserve a key each. -/
theorem run_bothReserved : KeyPoolRun keyParams 0 (fun _ _ => True) bothReserved := by
  refine .act (.act (.load (loaded_of_noPool rfl rfl (by simp))) ?_ trivial) ?_ trivial
  · exact fresh_keyEnv (by simp) (by decide)
  · exact fresh_keyEnv (by decide) (by decide)

end Sample

/-- With `-keypool=0` the set is empty after each reservation, and the next index is again `1`. -/
theorem getReservedKey_sameIndex :
    ¬ ∀ (P : Params) (nKeypool : ℤ) (s : KeyPoolState Bool),
      KeyPoolRun P nKeypool (fun _ _ => True) s → s.Safe := by
  intro h
  have hindices : (Sample.bothReserved.holder true).nIndex = 1 ∧
      (Sample.bothReserved.holder false).nIndex = 1 := by
    decide
  have hsafe := h _ _ _ Sample.run_bothReserved
  refine hsafe.held_once true false (by decide) ?_ ?_
  · rw [hindices.1]
    decide
  · rw [hindices.1, hindices.2]

namespace Sample

def defaultKey : List UInt8 := 2 :: 9 :: List.replicate 31 0

/-- A wallet with a default key, and `-keypool=1`. The first holder takes index 1. -/
def defaultWallet : KeyWallet := { vchKeys := [defaultKey], vchDefaultKey := defaultKey }

def oneTaken : KeyPoolState Bool :=
  ({ wallet := defaultWallet } : KeyPoolState Bool).act keyParams 1 (.getReservedKey (keyEnv 1) true)

/-- The wallet is locked, and the second holder takes index 2, the last one that is free. -/
def bothTaken : KeyPoolState Bool :=
  (oneTaken.act keyParams 1 (.setLocked true)).act keyParams 1 (.getReservedKey (keyEnv 2) false)

/-- The first holder keeps its key and asks for another one. -/
def fellBack : KeyPoolState Bool :=
  (bothTaken.act keyParams 1 (.keepKey (keyEnv 3) true)).act keyParams 1 (.getReservedKey (keyEnv 4) true)

/-- The default key has not been handed out, and the record that is left is that of index 2. -/
theorem defaultFree_bothTaken : (bothTaken.act keyParams 1 (.keepKey (keyEnv 3) true)).DefaultFree := by
  have hhistory : (bothTaken.act keyParams 1 (.keepKey (keyEnv 3) true)).history =
      [.handed false (2 :: 1 :: List.replicate 31 1), .handed true (2 :: 1 :: List.replicate 31 0)] := by
    decide
  have hrecords : (bothTaken.act keyParams 1 (.keepKey (keyEnv 3) true)).wallet.pool.entries.all
      (fun e => e.2.vchPubKey ≠ defaultKey) = true := by
    decide
  constructor
  · intro c ht
    rw [hhistory] at ht
    rcases ht with ⟨-, heq⟩ | ⟨-, heq⟩ | hfalse
    · exact absurd heq (by decide)
    · exact absurd heq (by decide)
    · exact hfalse
  · intro i e hl
    change e.vchPubKey ≠ defaultKey
    simpa using List.all_eq_true.mp hrecords _ (AList.mem_lookup_iff.mp hl)

end Sample

/-- The holders have index 2 and the default key. -/
theorem safe_fellBack : Sample.fellBack.Safe ∧ (Sample.fellBack.holder false).nIndex = 2 ∧
    Sample.fellBack.holder true = ⟨-1, Sample.defaultKey⟩ := by
  have hapart : ∀ {s : KeyPoolState Bool}, (∀ c, (s.holder c).nIndex < s.wallet.nEnd) → s.TopUpApart 1 :=
    fun h _ c => .inl (h c)
  have hload : KeyPoolRun Sample.keyParams 1 (fun (s : KeyPoolState Bool) a => s.IssuesApart 1 a)
      { wallet := Sample.defaultWallet } :=
    .load (Sample.loaded_of_noPool rfl rfl (by decide))
  have hone : KeyPoolRun Sample.keyParams 1 (fun (s : KeyPoolState Bool) a => s.IssuesApart 1 a)
      Sample.oneTaken := by
    -- the pool is not empty, so no default key is handed out
    refine .act hload (Sample.fresh_keyEnv (by decide) (by decide)) (fun _ => ⟨hapart (by decide), ?_⟩)
    rintro ⟨-, hlocked | hzero⟩
    · exact absurd hlocked (by decide)
    · exact absurd hzero (by decide)
  have hboth : KeyPoolRun Sample.keyParams 1 (fun (s : KeyPoolState Bool) a => s.IssuesApart 1 a)
      Sample.bothTaken := by
    refine .act (.act hone trivial trivial) (Sample.fresh_keyEnv (by decide) (by decide))
      (fun _ => ⟨hapart (by decide), ?_⟩)
    rintro ⟨hempty, -⟩
    exact absurd hempty (by decide)
  have hback : KeyPoolRun Sample.keyParams 1 (fun (s : KeyPoolState Bool) a => s.IssuesApart 1 a)
      Sample.fellBack :=
    .act (.act hboth trivial trivial) (Sample.fresh_keyEnv (by decide) (by decide))
      -- it is empty and locked, and the default key is free
      (fun _ => ⟨fun hlocked => absurd hlocked (by decide), fun _ => .inr Sample.defaultFree_bothTaken⟩)
  exact ⟨hback.safe, by decide, by decide⟩

end Peershares
