import Peershares.Model.UnlockTimer

/-!
# The wallet does not stay open longer than asked

The events are the two calls and the steps of the timer threads, in any order. Two things go wrong. The
timeout and the mint-only flag are looked at after the wallet is unlocked, so a call with a wrong type throws
and leaves the wallet open, and with a wrong timeout also without a timer. And a thread that `walletlock`
overtakes before its first step installs its deadline later, in the session of somebody else. A wake time of
zero, which only a negative or huge timeout has, is taken for no deadline at all.

When these are kept out (`TimerEvent.Sound`) there is at most one thread before its first step, the one of
the last call, and while there is one no deadline is set (`TimerInv`).

* `walletpassphrase_cases`, `walletlock_cases` — what a call can do
* `TimerInv.next` — the invariant, for one event
* `unlockTimer_right` — every state of every run
-/

open Framework

namespace Peershares

/-! ### Events and runs -/

/-- What can happen. -/
inductive TimerEvent where
  | walletpassphrase (params : List Json) (fHelp : Bool)
  | walletlock (params : List Json) (fHelp : Bool)
  | thread (i : ℕ) (nNow : ℤ)

/-- The state, and the number of the thread of the last `walletpassphrase` that returned. -/
structure TimerSession where
  state : UnlockState
  last : Option ℕ

section Runs

variable (opens : List UInt8 → Bool)

/-- The state after an event, however a call ends. -/
def TimerSession.next (t : TimerSession) : TimerEvent → TimerSession
  | .walletpassphrase params fHelp =>
    match UnlockState.walletpassphrase opens params fHelp t.state with
    | (.ok .null, s') => ⟨s', some t.state.threads.length⟩
    | (_, s') => ⟨s', t.last⟩
  | .walletlock params fHelp => ⟨(UnlockState.walletlock params fHelp t.state).2, t.last⟩
  | .thread i nNow => ⟨t.state.threadStep i nNow, t.last⟩

theorem TimerSession.next_of_null {t : TimerSession} {params : List Json} {fHelp : Bool} {s' : UnlockState}
    (h : UnlockState.walletpassphrase opens params fHelp t.state = (.ok .null, s')) :
    t.next opens (.walletpassphrase params fHelp) = ⟨s', some t.state.threads.length⟩ := by
  simp only [TimerSession.next, h]

theorem TimerSession.next_of_not_null {t : TimerSession} {params : List Json} {fHelp : Bool}
    {r : Except RpcError Json} {s' : UnlockState}
    (h : UnlockState.walletpassphrase opens params fHelp t.state = (r, s')) (hr : r ≠ .ok .null) :
    t.next opens (.walletpassphrase params fHelp) = ⟨s', t.last⟩ := by
  unfold TimerSession.next
  simp only
  rw [h]
  split
  · next heq =>
    cases heq
    exact absurd rfl hr
  · next heq =>
    cases heq
    rfl

/-- The sessions that events with the property `ok` lead to. -/
inductive TimerSession.Reached (ok : UnlockState → TimerEvent → Prop) : TimerSession → Prop
  | start (fCrypted : Bool) : Reached ok ⟨.start fCrypted, none⟩
  | next {t : TimerSession} {ev : TimerEvent} (h : Reached ok t) (hok : ok t.state ev) :
    Reached ok (t.next opens ev)

end Runs

/-! ### What should hold -/

namespace TimerThread

/-- Has it run its first step? -/
def ran : TimerThread → Bool
  | created _ => false
  | entering _ => false
  | sleeping _ => true
  | ended _ => true

/-- The wake time it has asked for. -/
def wake : TimerThread → Option ℤ
  | created _ => none
  | entering n => some n
  | sleeping n => some n
  | ended n => some n

end TimerThread

namespace UnlockState

/-- The wallet is open. -/
def Unlocked (s : UnlockState) : Prop := s.fCrypted = true ∧ s.fLocked = false

instance (s : UnlockState) : Decidable s.Unlocked :=
  inferInstanceAs (Decidable (s.fCrypted = true ∧ s.fLocked = false))

/-- A step of thread `i` at a time at which it is to be expected: its wake time is one, and `Sleep` does not
return before the deadline. -/
def Timely (s : UnlockState) (i : ℕ) (nNow : ℤ) : Prop :=
  match s.threads[i]? with
  | some (.created nSleepTime) => wakeTime nNow nSleepTime ≠ 0
  | some (.entering _) => True
  | some (.sleeping _) => s.toSleep nNow ≤ 0
  | some (.ended _) => False
  | none => False

/-- Thread `i` will lock the wallet, whenever its steps come. -/
inductive WillLock (i : ℕ) : UnlockState → Prop
  | locked {s : UnlockState} (h : s.fLocked = true) : WillLock i s
  | step {s : UnlockState} (hpending : ∃ nNow, s.Timely i nNow)
      (hnext : ∀ nNow, s.Timely i nNow → WillLock i (s.threadStep i nNow)) : WillLock i s

end UnlockState

/-- What should hold of a session: a call that throws leaves the lock and the mint-only flag as they were, an
open wallet has a thread that will lock it, and when all threads have run their first step the deadline is
the one of the last call. -/
structure TimerRight (opens : List UInt8 → Bool) (ok : UnlockState → TimerEvent → Prop) (t : TimerSession) :
    Prop where
  throws : ∀ params fHelp e s', ok t.state (.walletpassphrase params fHelp) →
    UnlockState.walletpassphrase opens params fHelp t.state = (.error e, s') →
    s'.fLocked = t.state.fLocked ∧ s'.fWalletUnlockMintOnly = t.state.fWalletUnlockMintOnly
  pending : t.state.Unlocked → ∃ i, t.state.WillLock i
  deadline : t.state.Unlocked → (∀ th ∈ t.state.threads, th.ran = true) →
    ∃ i th, t.last = some i ∧ t.state.threads[i]? = some th ∧ th.wake = some t.state.nWalletUnlockTime

/-! ### What a call can do -/

namespace UnlockState

variable {opens : List UInt8 → Bool} {params : List Json} {fHelp : Bool} {s s' : UnlockState}
variable {r : Except RpcError Json}

/-- The call comes to `Unlock`, and the passphrase is right. -/
def Opens (opens : List UInt8 → Bool) (s : UnlockState) (params : List Json) (fHelp : Bool) : Prop :=
  s.fCrypted = true ∧ s.fLocked = true ∧ fHelp = false ∧ 2 ≤ params.length ∧ params.length ≤ 3 ∧
    ∃ strWalletPass, params.getD 0 .null = .str strWalletPass ∧ cStr strWalletPass ≠ [] ∧
      opens (cStr strWalletPass) = true

/-- **`walletpassphrase`** either leaves everything as it was, or goes on from `Unlock`. -/
theorem walletpassphrase_cases (h : walletpassphrase opens params fHelp s = (r, s')) :
    (s' = s ∧ r ≠ .ok .null) ∨ (s.Opens opens params fHelp ∧ startTimer params s = (r, s')) := by
  unfold walletpassphrase at h
  rw [Command.bind_of_ok (rfl : Command.get s = (.ok s, s))] at h
  split_ifs at h with husage hhelp hcrypted hlocked
  · cases h
    exact Or.inl ⟨rfl, by simp⟩
  · cases h
    exact Or.inl ⟨rfl, by simp⟩
  · cases h
    exact Or.inl ⟨rfl, by simp⟩
  · cases h
    exact Or.inl ⟨rfl, by simp⟩
  · -- the usage is right, and the wallet is encrypted and locked
    simp only [Bool.not_eq_true', Bool.not_eq_false, Bool.not_eq_true] at hhelp hcrypted
    simp only [isLocked, hcrypted, Bool.true_and, Bool.not_eq_true', Bool.not_eq_false] at hlocked
    simp only [hcrypted, hhelp, Bool.true_and, Bool.false_or, Bool.or_eq_true, decide_eq_true_eq, not_or,
      not_lt] at husage
    -- a passphrase that is no string throws, as does a wrong one
    cases hpass : params.getD 0 .null with
    | str strWalletPass =>
      rw [hpass, Command.bind_of_ok
        (rfl : Command.lift (Json.str strWalletPass).getStr s = (.ok strWalletPass, s))] at h
      split_ifs at h with hempty hwrong
      · cases h
        exact Or.inl ⟨rfl, by simp⟩
      · cases h
        exact Or.inl ⟨rfl, by simp⟩
      · refine Or.inr ⟨⟨hcrypted, hlocked, hhelp, husage.1, husage.2, strWalletPass, hpass, hempty, ?_⟩, h⟩
        simpa using hwrong
    | _ =>
      rw [hpass] at h
      cases h
      exact Or.inl ⟨rfl, by simp⟩

/-- The parameters behind the passphrase have the right types. -/
def Typed (params : List Json) : Prop :=
  (∃ nSleepTime, params.getD 1 .null = .int nSleepTime) ∧
    (2 < params.length → ∃ fMintOnly, params.getD 2 .null = .bool fMintOnly)

/-- With parameters of the right types the call succeeds from `Unlock` on. -/
theorem startTimer_typed (htyped : Typed params) (h : startTimer params s = (r, s')) :
    r = .ok .null ∧ ∃ nSleepTime fMintOnly, s' = { s with
      fLocked := false
      threads := s.threads ++ [.created nSleepTime]
      fWalletUnlockMintOnly := fMintOnly } := by
  obtain ⟨⟨nSleepTime, hsleep⟩, hflag⟩ := htyped
  have hmint : ∃ fMintOnly, (if 2 < params.length then (params.getD 2 .null).getBool else .ok false) =
      .ok fMintOnly := by
    split_ifs with hlen
    · obtain ⟨fMintOnly, hbool⟩ := hflag hlen
      rw [hbool]
      exact ⟨fMintOnly, rfl⟩
    · exact ⟨false, rfl⟩
  obtain ⟨fMintOnly, hmint⟩ := hmint
  unfold startTimer at h
  rw [hsleep, hmint] at h
  cases h
  exact ⟨rfl, nSleepTime, fMintOnly, rfl⟩

/-- **`walletlock`** either leaves everything as it was, or locks the wallet and forgets the deadline. -/
theorem walletlock_cases (h : walletlock params fHelp s = (r, s')) :
    s' = s ∨ (params = [] ∧ fHelp = false ∧ s' = { s with fLocked := true, nWalletUnlockTime := 0 }) := by
  unfold walletlock at h
  rw [Command.bind_of_ok (rfl : Command.get s = (.ok s, s))] at h
  split_ifs at h with husage hhelp hcrypted
  · cases h
    exact Or.inl rfl
  · cases h
    exact Or.inl rfl
  · cases h
    exact Or.inl rfl
  · cases h
    simp only [Bool.not_eq_true', Bool.not_eq_false, Bool.not_eq_true] at hhelp hcrypted
    simp only [hcrypted, hhelp, Bool.true_and, Bool.false_or, decide_eq_true_eq, not_not,
      List.length_eq_zero_iff] at husage
    exact Or.inr ⟨husage, hhelp, rfl⟩

/-! ### What a thread does -/

section Threads

variable {i : ℕ} {nMyWakeTime nNow : ℤ}

theorem lt_of_thread {th : TimerThread} (h : s.threads[i]? = some th) : i < s.threads.length :=
  (List.getElem?_eq_some_iff.mp h).1

/-- A sleeping thread locks the wallet once the deadline has come. -/
theorem willLock_of_sleeping (h : s.threads[i]? = some (.sleeping nMyWakeTime))
    (htime : s.nWalletUnlockTime ≠ 0) : s.WillLock i := by
  refine .step ⟨s.nWalletUnlockTime, ?_⟩ ?_
  · unfold Timely toSleep
    rw [h, sub_self]
    exact le_of_eq (by simp)
  · intro nNow htimely
    unfold Timely at htimely
    rw [h] at htimely
    refine .locked ?_
    unfold threadStep loop
    rw [h]
    simp only
    rw [if_neg (by simp [not_lt.mpr htimely]), if_pos htime]

/-- A thread that enters while there is no deadline installs its own. -/
theorem willLock_of_entering (h : s.threads[i]? = some (.entering nMyWakeTime))
    (htime : s.nWalletUnlockTime = 0) (hwake : nMyWakeTime ≠ 0) : s.WillLock i := by
  refine .step ⟨0, ?_⟩ ?_
  · unfold Timely
    rw [h]
    trivial
  · intro nNow _
    unfold threadStep
    rw [h]
    simp only
    rw [if_pos htime]
    unfold loop
    split_ifs with hsleep
    · exact willLock_of_sleeping (List.getElem?_set_self (lt_of_thread h)) hwake
    · exact .locked rfl

theorem willLock_of_created {nSleepTime : ℤ} (h : s.threads[i]? = some (.created nSleepTime))
    (htime : s.nWalletUnlockTime = 0) : s.WillLock i := by
  refine .step ?_ ?_
  · -- one of two times gives a wake time
    by_cases hzero : wakeTime 0 nSleepTime = 0
    · refine ⟨1, ?_⟩
      unfold Timely
      rw [h]
      intro hone
      unfold wakeTime at hzero hone
      rw [zero_add, Int.bmod_bmod] at hzero
      rw [hzero] at hone
      exact absurd hone (by decide)
    · refine ⟨0, ?_⟩
      unfold Timely
      rw [h]
      exact hzero
  · intro nNow htimely
    unfold Timely at htimely
    rw [h] at htimely
    -- the thread takes the deadline that it has computed
    unfold threadStep
    rw [h]
    simp only
    exact willLock_of_entering (List.getElem?_set_self (lt_of_thread h)) htime htimely

end Threads

end UnlockState

/-! ### The invariant -/

/-- The condition on an event: the parameters of a call that unlocks have their types, `walletlock` does not
overtake a thread before its first step, and no wake time is zero. -/
def TimerEvent.Sound (opens : List UInt8 → Bool) (s : UnlockState) : TimerEvent → Prop
  | .walletpassphrase params fHelp => s.Opens opens params fHelp → UnlockState.Typed params
  | .walletlock params fHelp => params = [] → fHelp = false → ∀ th ∈ s.threads, th.ran = true
  | .thread i nNow => ∀ nSleepTime, s.threads[i]? = some (.created nSleepTime) →
    UnlockState.wakeTime nNow nSleepTime ≠ 0

/-- Between two events. -/
structure TimerInv (t : TimerSession) : Prop where
  /-- A deadline has a thread that waits for it. -/
  sleeper : t.state.nWalletUnlockTime ≠ 0 → ∃ (i : ℕ) (n : ℤ),
    t.state.threads[i]? = some (TimerThread.sleeping n)
  /-- Only the thread of the last call may be before its first step. -/
  unrun : ∀ i th, t.state.threads[i]? = some th → th.ran = false →
    t.last = some i ∧ t.state.nWalletUnlockTime = 0 ∧ t.state.fLocked = false ∧ th.wake ≠ some 0
  locked : t.state.fLocked = true → t.state.nWalletUnlockTime = 0
  /-- The deadline of an open wallet is that of the last call, unless its thread has not run yet. -/
  opened : t.state.Unlocked → ∃ i th, t.last = some i ∧ t.state.threads[i]? = some th ∧
    (th.ran = false ∨ (th.wake = some t.state.nWalletUnlockTime ∧ t.state.nWalletUnlockTime ≠ 0))

namespace TimerInv

variable {opens : List UInt8 → Bool} {t : TimerSession} {i : ℕ} {nNow : ℤ}

theorem start (fCrypted : Bool) : TimerInv ⟨.start fCrypted, none⟩ := by
  refine ⟨fun h => absurd rfl h, ?_, fun _ => rfl, ?_⟩
  · intro i th hth
    exact absurd hth (by simp [UnlockState.start])
  · rintro ⟨hcrypted, hlocked⟩
    change fCrypted = true at hcrypted
    change fCrypted = false at hlocked
    rw [hcrypted] at hlocked
    exact absurd hlocked (by simp)

/-- The list of threads after a step of thread `i`. -/
theorem getElem?_set {threads : List TimerThread} {th th' : TimerThread} {j : ℕ}
    (h : (threads.set i th')[j]? = some th) : (j = i ∧ th = th') ∨ (j ≠ i ∧ threads[j]? = some th) := by
  by_cases hji : j = i
  · subst hji
    rw [List.getElem?_set_self' ] at h
    refine Or.inl ⟨rfl, ?_⟩
    cases hold : threads[j]? with
    | none =>
      rw [hold] at h
      exact absurd h (by simp)
    | some old =>
      rw [hold] at h
      exact (Option.some.inj h).symm
  · rw [List.getElem?_set_ne (Ne.symm hji)] at h
    exact Or.inr ⟨hji, h⟩

/-- A thread that starts reads the clock. -/
theorem created {nSleepTime : ℤ} (h : TimerInv t) (hth : t.state.threads[i]? = some (.created nSleepTime))
    (hwake : UnlockState.wakeTime nNow nSleepTime ≠ 0) :
    TimerInv ⟨{ t.state with
      threads := t.state.threads.set i (.entering (UnlockState.wakeTime nNow nSleepTime)) }, t.last⟩ := by
  obtain ⟨hlast, htime, hopen, -⟩ := h.unrun i _ hth rfl
  refine ⟨fun hne => absurd htime hne, ?_, h.locked, ?_⟩
  · intro j th hj hran
    obtain ⟨rfl, rfl⟩ | ⟨-, hj⟩ := getElem?_set hj
    · refine ⟨hlast, htime, hopen, ?_⟩
      intro heq
      exact hwake (Option.some.inj heq)
    · exact h.unrun j th hj hran
  · intro _
    refine ⟨i, .entering (UnlockState.wakeTime nNow nSleepTime), hlast, ?_, Or.inl rfl⟩
    exact List.getElem?_set_self (UnlockState.lt_of_thread hth)

/-- Its first step installs its wake time as the deadline, as there is none. -/
theorem entering {nMyWakeTime : ℤ} (h : TimerInv t)
    (hth : t.state.threads[i]? = some (.entering nMyWakeTime)) :
    TimerInv ⟨{ t.state with nWalletUnlockTime := nMyWakeTime }.loop i nMyWakeTime nNow, t.last⟩ := by
  -- the thread that has not run is the last one
  obtain ⟨hlast, htime, hopen, hwake⟩ := h.unrun i _ hth rfl
  have hne : nMyWakeTime ≠ 0 := by
    intro hzero
    exact hwake (congrArg some hzero)
  -- every other thread has run
  have hothers : ∀ j th, t.state.threads[j]? = some th → j ≠ i → th.ran = true := by
    intro j th hj hji
    by_contra hran
    obtain ⟨hlast', -⟩ := h.unrun j th hj (Bool.not_eq_true _ ▸ hran)
    rw [hlast] at hlast'
    exact hji (Option.some.inj hlast').symm
  have hunrun : ∀ (j : ℕ) (th th' : TimerThread), (t.state.threads.set i th')[j]? = some th →
      th'.ran = true → th.ran = true := by
    intro j th th' hj hran
    obtain ⟨-, rfl⟩ | ⟨hji, hj⟩ := getElem?_set hj
    · exact hran
    · exact hothers j th hj hji
  unfold UnlockState.loop
  split_ifs with hsleep
  · -- it sleeps until its time
    refine ⟨?_, ?_, ?_, ?_⟩
    · intro _
      refine ⟨i, nMyWakeTime, ?_⟩
      exact List.getElem?_set_self (UnlockState.lt_of_thread hth)
    · intro j th hj hran
      rw [hunrun j th _ hj rfl] at hran
      exact absurd hran (by simp)
    · intro hlocked
      change t.state.fLocked = true at hlocked
      rw [hopen] at hlocked
      exact absurd hlocked (by simp)
    · intro _
      refine ⟨i, .sleeping nMyWakeTime, hlast, ?_, Or.inr ⟨rfl, hne⟩⟩
      exact List.getElem?_set_self (UnlockState.lt_of_thread hth)
  · -- the time has passed, and the wallet is locked
    refine ⟨fun htime' => absurd rfl htime', ?_, fun _ => rfl, ?_⟩
    · intro j th hj hran
      rw [hunrun j th _ hj rfl] at hran
      exact absurd hran (by simp)
    · rintro ⟨-, hunlocked⟩
      exact absurd hunlocked (by simp)

/-- A thread that wakes up goes on sleeping, or locks the wallet, or finds no deadline any more. -/
theorem sleeping {nMyWakeTime : ℤ} (h : TimerInv t)
    (hth : t.state.threads[i]? = some (.sleeping nMyWakeTime)) :
    TimerInv ⟨t.state.loop i nMyWakeTime nNow, t.last⟩ := by
  unfold UnlockState.loop
  split_ifs with hsleep htime
  · -- it goes on sleeping, with the same wake time
    have hsame : t.state.threads.set i (.sleeping nMyWakeTime) = t.state.threads := by
      obtain ⟨hlt, hval⟩ := List.getElem?_eq_some_iff.mp hth
      rw [← hval, List.set_getElem_self]
    rw [hsame]
    exact h
  · -- it locks the wallet and clears the deadline
    refine ⟨fun htime' => absurd rfl htime', ?_, fun _ => rfl, ?_⟩
    · intro j th hj hran
      obtain ⟨-, rfl⟩ | ⟨-, hj⟩ := getElem?_set hj
      · exact absurd hran (by simp [TimerThread.ran])
      · exact absurd (h.unrun j th hj hran).2.1 htime
    · rintro ⟨-, hunlocked⟩
      exact absurd hunlocked (by simp)
  · refine ⟨fun htime' => absurd htime' htime, ?_, h.locked, ?_⟩
    · intro j th hj hran
      obtain ⟨-, rfl⟩ | ⟨-, hj⟩ := getElem?_set hj
      · exact absurd hran (by simp [TimerThread.ran])
      · exact h.unrun j th hj hran
    · intro hunlocked
      obtain ⟨k, th, hlast, hk, hcase⟩ := h.opened hunlocked
      have hran : th.ran = false := hcase.resolve_right fun hset => htime hset.2
      refine ⟨k, th, hlast, ?_, Or.inl hran⟩
      -- the last thread has not run, so it is another one
      have hki : i ≠ k := by
        rintro rfl
        rw [hth] at hk
        cases hk
        exact absurd hran (by simp [TimerThread.ran])
      simp only
      rw [List.getElem?_set_ne hki]
      exact hk

/-- A step of a thread. -/
theorem threadStep (h : TimerInv t) (hsound : (TimerEvent.thread i nNow).Sound opens t.state) :
    TimerInv ⟨t.state.threadStep i nNow, t.last⟩ := by
  unfold UnlockState.threadStep
  cases hth : t.state.threads[i]? with
  | none => exact h
  | some th =>
    cases th with
    | created nSleepTime => exact h.created hth (hsound nSleepTime hth)
    | entering nMyWakeTime =>
      simp only
      rw [if_pos (h.unrun i _ hth rfl).2.1]
      exact h.entering hth
    | sleeping nMyWakeTime => exact h.sleeping hth
    | ended nMyWakeTime => exact h

/-- `walletlock`. -/
theorem walletlock {params : List Json} {fHelp : Bool} (h : TimerInv t)
    (hsound : (TimerEvent.walletlock params fHelp).Sound opens t.state) :
    TimerInv ⟨(UnlockState.walletlock params fHelp t.state).2, t.last⟩ := by
  cases hrun : UnlockState.walletlock params fHelp t.state with
  | mk r s' =>
    obtain rfl | ⟨hparams, hhelp, rfl⟩ := UnlockState.walletlock_cases hrun
    · exact h
    · refine ⟨fun htime => absurd rfl htime, ?_, fun _ => rfl, ?_⟩
      · intro j th hj hran
        rw [hsound hparams hhelp th (List.mem_of_getElem? hj)] at hran
        exact absurd hran (by simp)
      · rintro ⟨-, hunlocked⟩
        exact absurd hunlocked (by simp)

/-- `walletpassphrase`: a locked wallet has no deadline and no thread before its first step. -/
theorem walletpassphrase {params : List Json} {fHelp : Bool} (h : TimerInv t)
    (hsound : (TimerEvent.walletpassphrase params fHelp).Sound opens t.state) :
    TimerInv (t.next opens (.walletpassphrase params fHelp)) := by
  cases hrun : UnlockState.walletpassphrase opens params fHelp t.state with
  | mk r s' =>
    obtain ⟨rfl, hr⟩ | ⟨hopens, hstart⟩ := UnlockState.walletpassphrase_cases hrun
    · rw [TimerSession.next_of_not_null opens hrun hr]
      exact h
    · obtain ⟨rfl, nSleepTime, fMintOnly, rfl⟩ := UnlockState.startTimer_typed (hsound hopens) hstart
      rw [TimerSession.next_of_null opens hrun]
      -- a locked wallet has no deadline
      have htime := h.locked hopens.2.1
      refine ⟨fun hne => absurd htime hne, ?_, ?_, ?_⟩
      · intro j th hj hran
        have hj' : (t.state.threads ++ [TimerThread.created nSleepTime])[j]? = some th := hj
        -- the threads are the old ones and the new one at the end
        rcases lt_trichotomy j t.state.threads.length with hlt | rfl | hgt
        · rw [List.getElem?_append_left hlt] at hj'
          have hopen := (h.unrun j th hj' hran).2.2.1
          rw [hopens.2.1] at hopen
          exact absurd hopen (by simp)
        · rw [List.getElem?_concat_length] at hj'
          cases hj'
          exact ⟨rfl, htime, rfl, by simp [TimerThread.wake]⟩
        · rw [List.getElem?_eq_none (by simp; omega)] at hj'
          exact absurd hj' (by simp)
      · intro hlocked
        exact absurd hlocked (by simp)
      · intro _
        exact ⟨t.state.threads.length, .created nSleepTime, rfl, List.getElem?_concat_length, Or.inl rfl⟩

/-- **One event.** -/
theorem next {ev : TimerEvent} (h : TimerInv t) (hsound : ev.Sound opens t.state) :
    TimerInv (t.next opens ev) := by
  cases ev with
  | walletpassphrase params fHelp => exact h.walletpassphrase hsound
  | walletlock params fHelp => exact h.walletlock hsound
  | thread i nNow => exact h.threadStep hsound

/-- **Every run.** -/
theorem of_reached (h : TimerSession.Reached opens (fun s ev => ev.Sound opens s) t) : TimerInv t := by
  induction h with
  | start fCrypted => exact start fCrypted
  | next _ hsound ih => exact ih.next hsound

/-- An open wallet has a thread that will lock it. -/
theorem willLock (h : TimerInv t) (hunlocked : t.state.Unlocked) : ∃ i, t.state.WillLock i := by
  obtain ⟨i, th, -, hth, hcase⟩ := h.opened hunlocked
  rcases hcase with hran | ⟨-, htime⟩
  · obtain ⟨-, htime, -, hwake⟩ := h.unrun i th hth hran
    cases th with
    | created nSleepTime => exact ⟨i, UnlockState.willLock_of_created hth htime⟩
    | entering nMyWakeTime =>
      refine ⟨i, UnlockState.willLock_of_entering hth htime ?_⟩
      intro hzero
      exact hwake (congrArg some hzero)
    | sleeping nMyWakeTime => exact absurd hran (by simp [TimerThread.ran])
    | ended nMyWakeTime => exact absurd hran (by simp [TimerThread.ran])
  · obtain ⟨j, n, hj⟩ := h.sleeper htime
    exact ⟨j, UnlockState.willLock_of_sleeping hj htime⟩

end TimerInv

/-- **The unlock timer keeps its promise** in every run whose events are sound. -/
theorem unlockTimer_right {opens : List UInt8 → Bool} {t : TimerSession}
    (h : TimerSession.Reached opens (fun s ev => ev.Sound opens s) t) :
    TimerRight opens (fun s ev => ev.Sound opens s) t := by
  have hinv := TimerInv.of_reached h
  refine ⟨?_, hinv.willLock, ?_⟩
  · intro params fHelp e s' hsound hrun
    obtain ⟨rfl, -⟩ | ⟨hopens, hstart⟩ := UnlockState.walletpassphrase_cases hrun
    · exact ⟨rfl, rfl⟩
    · obtain ⟨hok, -⟩ := UnlockState.startTimer_typed (hsound hopens) hstart
      exact absurd hok (by simp)
  · intro hunlocked hran
    obtain ⟨i, th, hlast, hth, hcase⟩ := hinv.opened hunlocked
    rcases hcase with hfalse | ⟨hwake, -⟩
    · rw [hran th (List.mem_of_getElem? hth)] at hfalse
      exact absurd hfalse (by simp)
    · exact ⟨i, th, hlast, hth, hwake⟩

/-- One call, and its thread up to its first `Sleep`. -/
theorem unlockTimer_right_oneSession :
    let events : List TimerEvent := [.walletpassphrase [.str [112], .int 10] false, .thread 0 0, .thread 0 0]
    let t := events.foldl (TimerSession.next fun _ => true) ⟨.start true, none⟩
    t.state.Unlocked ∧ TimerRight (fun _ => true) (fun s ev => ev.Sound (fun _ => true) s) t := by
  intro events t
  refine ⟨by decide, unlockTimer_right ?_⟩
  have hstart : TimerSession.Reached (fun _ => true) (fun s ev => ev.Sound (fun _ => true) s)
    ⟨.start true, none⟩ := .start true
  have hunlock := @TimerSession.Reached.next _ _ _ (.walletpassphrase [.str [112], .int 10] false) hstart
    (fun _ => ⟨⟨10, rfl⟩, fun hlen => absurd hlen (by decide)⟩)
  have hread := @TimerSession.Reached.next _ _ _ (.thread 0 0) hunlock (by
    intro nSleepTime hth
    obtain rfl : 10 = nSleepTime := TimerThread.created.inj (Option.some.inj hth)
    decide)
  refine @TimerSession.Reached.next _ _ _ (.thread 0 0) hread ?_
  intro nSleepTime hth
  exact absurd (Option.some.inj hth : TimerThread.entering 10000 = .created nSleepTime) (by simp)

/-- What the threads of two sessions do when `walletlock` overtakes the first: the wallet is to be closed
after ten seconds, and stays open for a thousand. -/
def overtaken : List TimerEvent :=
  [.walletpassphrase [.str [112], .int 1000] false, .walletlock [] false,
    .walletpassphrase [.str [112], .int 10] false, .thread 0 5, .thread 0 5, .thread 1 5, .thread 1 5]

/-- Every run of events is one of `Reached`, when nothing is asked of them. -/
theorem TimerSession.reached_foldl (opens : List UInt8 → Bool) (events : List TimerEvent) {t : TimerSession}
    (h : Reached opens (fun _ _ => True) t) :
    Reached opens (fun _ _ => True) (events.foldl (TimerSession.next opens) t) := by
  induction events generalizing t with
  | nil => exact h
  | cons ev events ih => exact ih (h.next trivial)

/-- **A call with a timeout of the wrong type** throws and leaves the wallet open without a thread, **and a
deadline of an earlier session** holds in a later one. -/
theorem unlockTimer_overtaken :
    (∃ t, TimerSession.Reached (fun _ => true) (fun _ _ => True) t ∧
      ¬ (∀ params fHelp e s', UnlockState.walletpassphrase (fun _ => true) params fHelp t.state =
          (.error e, s') → s'.fLocked = t.state.fLocked)) ∧
    (∃ t, TimerSession.Reached (fun _ => true) (fun _ _ => True) t ∧ t.state.Unlocked ∧
      ¬ ∃ i, t.state.WillLock i) ∧
    (∃ t, TimerSession.Reached (fun _ => true) (fun _ _ => True) t ∧ t.state.Unlocked ∧
      (∀ th ∈ t.state.threads, th.ran = true) ∧
      ¬ ∃ i th, t.last = some i ∧ t.state.threads[i]? = some th ∧
        th.wake = some t.state.nWalletUnlockTime) := by
  have hstart : TimerSession.Reached (fun _ => true) (fun _ _ => True) ⟨.start true, none⟩ := .start true
  refine ⟨⟨_, hstart, ?_⟩, ⟨_, TimerSession.reached_foldl _
    [.walletpassphrase [.str [112], .str [49, 48]] false] hstart, by decide, ?_⟩,
    ⟨_, TimerSession.reached_foldl _ overtaken hstart, by decide, by decide, ?_⟩⟩
  · intro hthrows
    exact absurd (hthrows [.str [112], .str [49, 48]] false _ _ rfl) (by decide)
  · rintro ⟨i, hlocked | ⟨⟨nNow, htimely⟩, -⟩⟩
    · exact absurd hlocked (by decide)
    · exact htimely
  · rintro ⟨i, th, hlast, hth, hwake⟩
    obtain rfl : 1 = i := Option.some.inj hlast
    obtain rfl : TimerThread.ended 10005 = th := Option.some.inj hth
    exact absurd hwake (by decide)

end Peershares
