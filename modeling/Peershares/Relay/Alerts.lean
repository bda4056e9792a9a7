import Mathlib.Data.Int.ConditionallyCompleteOrder
import Mathlib.Data.UInt
import Mathlib.Order.Monotone.Basic
import Peershares.Model.Alert

/-!
# Alerts that cancel each other

A new alert takes those that it cancels out of the store, and those that are over, before it is looked at whether
one of those that are left cancels it. The clock does not go back, so what does not cancel an alert now does not
cancel it later.

* `NoneCancelled` — the invariant of the store
* `foldl_cancelStep` — what the first loop leaves
* `not_alertStore_clean` — an alert that is over clears nothing, and an alert can cancel what cancels it
* `alertStore_clean` — what holds after each call
-/

open Framework

namespace Peershares

namespace CAlert

variable {K : AlertCrypto} {now : ℕ → ℤ} {new alert : CAlert} {s s' : AlertStore} {t t' : ℤ} {fRet : Bool}

/-! ### The clock -/

/-- An alert in effect was so before. -/
theorem isInEffect_of_le (ht : t ≤ t') (h : alert.isInEffect t' = true) : alert.isInEffect t = true :=
  decide_eq_true (ht.trans_lt (of_decide_eq_true h))

/-- An alert cancels by its bound and by its set. -/
theorem cancels_iff : new.cancels t alert = true ↔
    new.isInEffect t = true ∧ (alert.nID ≤ new.nCancel ∨ alert.nID ∈ new.setCancel) := by
  unfold cancels
  cases new.isInEffect t <;> simp

/-- It cancels as long as it is in effect. -/
theorem cancels_of_le (ht : t ≤ t') (h : new.cancels t' alert = true) : new.cancels t alert = true := by
  obtain ⟨heffect, hmatch⟩ := cancels_iff.mp h
  exact cancels_iff.mpr ⟨isInEffect_of_le ht heffect, hmatch⟩

/-- No alert in the store is cancelled by another one. -/
def NoneCancelled (t : ℤ) (s : AlertStore) : Prop :=
  ∀ e ∈ s.mapAlerts.entries, ∀ e' ∈ s.mapAlerts.entries, e.1 ≠ e'.1 → e.2.cancels t e'.2 = false

/-- Later, and with fewer alerts, still none is cancelled. -/
theorem NoneCancelled.mono (h : NoneCancelled t s) (ht : t ≤ t')
    (hsub : ∀ e ∈ s'.mapAlerts.entries, e ∈ s.mapAlerts.entries) : NoneCancelled t' s' := by
  intro e he e' he' hne
  refine Bool.eq_false_iff.mpr fun hcancels => ?_
  exact Bool.eq_false_iff.mp (h e (hsub e he) e' (hsub e' he') hne) (cancels_of_le ht hcancels)

/-! ### The two loops -/

/-- An entry is left: it was in effect when it was looked at, and not cancelled. -/
structure Left (now : ℕ → ℤ) (new : CAlert) (first last : ℕ) (alert : CAlert) : Prop where
  inEffect : alert.isInEffect (now first) = true
  notCancelled : new.cancels (now last) alert = false

/-- An alert that is left after a longer time. -/
theorem Left.mono {first first' last last' : ℕ} (hnow : Monotone now) (h : Left now new first last alert)
    (hfirst : first' ≤ first) (hlast : last ≤ last') : Left now new first' last' alert :=
  ⟨isInEffect_of_le (hnow hfirst) h.inEffect, Bool.eq_false_iff.mpr fun hcancels =>
    Bool.eq_false_iff.mp h.notCancelled (cancels_of_le (hnow hlast) hcancels)⟩

/-- The clock is read on. -/
theorem nReads_cancelStep (item : ℕ × CAlert) : s.nReads ≤ (new.cancelStep now s item).nReads := by
  unfold cancelStep
  split_ifs <;> simp

/-- One entry of the first loop: it is erased, or it is left. -/
theorem mem_cancelStep (hnow : Monotone now) {item e : ℕ × CAlert}
    (he : e ∈ (new.cancelStep now s item).mapAlerts.entries) :
    e ∈ s.mapAlerts.entries ∧ (e = item → Left now new s.nReads (new.cancelStep now s item).nReads e.2) := by
  unfold cancelStep at he ⊢
  split_ifs at he ⊢ with hcancels hover
  · obtain ⟨hmem, hne⟩ := OrderedMap.mem_entries_erase_iff.mp he
    exact ⟨hmem, fun heq => absurd (congrArg Prod.fst heq) hne⟩
  · obtain ⟨hmem, hne⟩ := OrderedMap.mem_entries_erase_iff.mp he
    exact ⟨hmem, fun heq => absurd (congrArg Prod.fst heq) hne⟩
  · refine ⟨he, fun heq => ?_⟩
    subst heq
    rw [Bool.not_eq_true', Bool.not_eq_false] at hover
    rw [Bool.not_eq_true] at hcancels
    exact @Left.mono _ _ _ (s.nReads + 1) _ s.nReads _ hnow ⟨hover, hcancels⟩ (Nat.le_succ _)
      (Nat.le_add_right _ _)

/-- An entry that is in effect to the end, and not cancelled, stays. -/
theorem mem_cancelStep_of_left (hnow : Monotone now) {item e : ℕ × CAlert} {last : ℕ}
    (hlast : (new.cancelStep now s item).nReads ≤ last) (hkey : e.1 = item.1 → e = item)
    (he : e ∈ s.mapAlerts.entries) (hleft : Left now new last s.nReads e.2) :
    e ∈ (new.cancelStep now s item).mapAlerts.entries := by
  unfold cancelStep at hlast ⊢
  split_ifs at hlast ⊢ with hcancels hover
  · refine OrderedMap.mem_entries_erase_iff.mpr ⟨he, fun heq => ?_⟩
    rw [← hkey heq, hleft.notCancelled] at hcancels
    exact absurd hcancels (by decide)
  · refine OrderedMap.mem_entries_erase_iff.mpr ⟨he, fun heq => ?_⟩
    have hread : s.nReads + 1 ≤ last := (Nat.le_succ _).trans hlast
    rw [← hkey heq, isInEffect_of_le (hnow hread) hleft.inEffect] at hover
    exact absurd hover (by decide)
  · exact he

/-- **The first loop** leaves the entries that are in effect and not cancelled. -/
theorem foldl_cancelStep (hnow : Monotone now) (items : List (ℕ × CAlert)) (s : AlertStore) :
    s.nReads ≤ (items.foldl (new.cancelStep now) s).nReads ∧
      ∀ e ∈ (items.foldl (new.cancelStep now) s).mapAlerts.entries, e ∈ s.mapAlerts.entries ∧
        (e ∈ items → Left now new s.nReads (items.foldl (new.cancelStep now) s).nReads e.2) := by
  induction items generalizing s with
  | nil => exact ⟨le_rfl, fun e he => ⟨he, fun hmem => absurd hmem List.not_mem_nil⟩⟩
  | cons item items ih =>
    have hstep := @nReads_cancelStep now new s item
    obtain ⟨hreads, hentries⟩ := ih (new.cancelStep now s item)
    refine ⟨hstep.trans hreads, fun e he => ?_⟩
    obtain ⟨hmem, hleft⟩ := hentries e he
    obtain ⟨hmem', hleft'⟩ := mem_cancelStep hnow hmem
    refine ⟨hmem', fun hitems => ?_⟩
    obtain heq | htail := List.mem_cons.mp hitems
    · exact (hleft' heq).mono hnow le_rfl hreads
    · exact (hleft htail).mono hnow hstep le_rfl

/-- The loop over the alerts erases what the new one cancels, or what is out of effect. -/
theorem mem_foldl_cancelStep (hnow : Monotone now) {e : ℕ × CAlert} {last : ℕ} (items : List (ℕ × CAlert))
    (hlast : (items.foldl (new.cancelStep now) s).nReads ≤ last)
    (hkey : ∀ item ∈ items, e.1 = item.1 → e = item) (he : e ∈ s.mapAlerts.entries)
    (hleft : Left now new last s.nReads e.2) :
    e ∈ (items.foldl (new.cancelStep now) s).mapAlerts.entries := by
  induction items generalizing s with
  | nil => exact he
  | cons item items ih =>
    have hreads := (@foldl_cancelStep now new hnow items (new.cancelStep now s item)).1
    refine ih hlast (fun i hi => hkey i (List.mem_cons_of_mem _ hi)) ?_ ?_
    · exact mem_cancelStep_of_left hnow (hreads.trans hlast) (hkey item List.mem_cons_self) he hleft
    · exact hleft.mono hnow le_rfl (nReads_cancelStep item)

/-- **The second loop** finds an entry that cancels the alert, if there is one. -/
theorem isCancelled_cases (hnow : Monotone now) (items : List (ℕ × CAlert)) (nReads : ℕ) :
    nReads ≤ (new.isCancelled now nReads items).2 ∧
      ((new.isCancelled now nReads items).1 = false →
        ∀ e ∈ items, e.2.cancels (now (new.isCancelled now nReads items).2) new = false) := by
  induction items generalizing nReads with
  | nil => exact ⟨le_rfl, fun _ e he => absurd he List.not_mem_nil⟩
  | cons item items ih =>
    obtain ⟨hreads, hnone⟩ := ih (nReads + 1)
    unfold isCancelled
    by_cases hcancels : item.2.cancels (now nReads) new = true
    · rw [if_pos hcancels]
      exact ⟨Nat.le_succ _, fun h => Bool.noConfusion h⟩
    · rw [if_neg hcancels]
      refine ⟨(Nat.le_succ _).trans hreads, fun h e he => ?_⟩
      obtain rfl | htail := List.mem_cons.mp he
      · exact Bool.eq_false_iff.mpr fun hlater =>
          hcancels (cancels_of_le (hnow ((Nat.le_succ _).trans hreads)) hlater)
      · exact hnone h e htail

/-! ### One call -/

/-- What the first loop has left of a store. -/
structure Cleared (now : ℕ → ℤ) (new : CAlert) (s left : AlertStore) : Prop where
  nReads : s.nReads ≤ left.nReads
  stays : ∀ e ∈ left.mapAlerts.entries, e ∈ s.mapAlerts.entries ∧ Left now new s.nReads left.nReads e.2
  keeps : ∀ e ∈ s.mapAlerts.entries, ∀ last, left.nReads ≤ last → Left now new last s.nReads e.2 →
    e ∈ left.mapAlerts.entries

/-- So after the loop the map is cleared. -/
theorem cleared (hnow : Monotone now) : Cleared now new s
    (s.mapAlerts.entries.foldl (new.cancelStep now) { s with nReads := s.nReads + 1 }) := by
  obtain ⟨hreads, hentries⟩ := @foldl_cancelStep now new hnow s.mapAlerts.entries
    { s with nReads := s.nReads + 1 }
  have hfirst : s.nReads ≤ s.nReads + 1 := Nat.le_succ _
  refine ⟨hfirst.trans hreads, fun e he => ?_, fun e he last hlast hleft => ?_⟩
  · obtain ⟨hmem, hleft⟩ := hentries e he
    exact ⟨hmem, (hleft hmem).mono hnow hfirst le_rfl⟩
  · refine mem_foldl_cancelStep hnow s.mapAlerts.entries hlast ?_ he (hleft.mono hnow le_rfl hfirst)
    exact fun item hitem hkey => s.mapAlerts.eq_of_mem_entries he hitem hkey

/-- What a call leaves, for a signed alert that is in effect. -/
structure Processed (K : AlertCrypto) (now : ℕ → ℤ) (new : CAlert) (s s' : AlertStore) : Prop where
  nReads : s.nReads ≤ s'.nReads
  /-- What is stored is the alert, or was there and is left. -/
  stored : ∀ e ∈ s'.mapAlerts.entries, e = (new.getHash K, new) ∨
    (e ∈ s.mapAlerts.entries ∧ Left now new s.nReads s'.nReads e.2)
  /-- Nothing is added, or no other entry cancels the alert. -/
  accepted : (∀ e ∈ s'.mapAlerts.entries, e ∈ s.mapAlerts.entries) ∨
    (∀ e ∈ s'.mapAlerts.entries, e = (new.getHash K, new) ∨ e.2.cancels (now s'.nReads) new = false)
  /-- An entry that is not cancelled by the alert and cancels it keeps it out. -/
  refused : ∀ e ∈ s.mapAlerts.entries, new.cancels (now s.nReads) e.2 = false →
    e.2.cancels (now s'.nReads) new = true → ∀ e' ∈ s'.mapAlerts.entries, e' ∈ s.mapAlerts.entries

/-- The alert is cancelled. -/
theorem Cleared.processed_cancelled {left : AlertStore} (h : Cleared now new s left) (hnow : Monotone now)
    {nReads : ℕ} (hreads : left.nReads ≤ nReads) : Processed K now new s { left with nReads } where
  nReads := h.nReads.trans hreads
  stored e he := .inr ⟨(h.stays e he).1, (h.stays e he).2.mono hnow le_rfl hreads⟩
  accepted := .inl fun e he => (h.stays e he).1
  refused _ _ _ _ e he := (h.stays e he).1

/-- The alert is stored. -/
theorem Cleared.processed_stored {left : AlertStore} (h : Cleared now new s left) (hnow : Monotone now)
    {nReads : ℕ} (hreads : left.nReads ≤ nReads)
    (hnone : ∀ e ∈ left.mapAlerts.entries, e.2.cancels (now nReads) new = false) {m : OrderedMap ℕ CAlert}
    (hm : ∀ e ∈ m.entries, e = (new.getHash K, new) ∨ e ∈ left.mapAlerts.entries) :
    Processed K now new s { mapAlerts := m, nReads := nReads + 1 } := by
  have hlast : left.nReads ≤ nReads + 1 := hreads.trans (Nat.le_succ _)
  have hnone' : ∀ e ∈ left.mapAlerts.entries, e.2.cancels (now (nReads + 1)) new = false := fun e he =>
    Bool.eq_false_iff.mpr fun hcancels =>
      Bool.eq_false_iff.mp (hnone e he) (cancels_of_le (hnow (Nat.le_succ _)) hcancels)
  refine ⟨h.nReads.trans hlast, fun e he => ?_, .inr fun e he => ?_, fun e he hnot hcancels => ?_⟩
  · refine (hm e he).imp_right fun hmem => ?_
    exact ⟨(h.stays e hmem).1, (h.stays e hmem).2.mono hnow le_rfl hlast⟩
  · exact (hm e he).imp_right (hnone' e)
  · -- such an entry is there in the second loop
    have hmem := h.keeps e he (nReads + 1) hlast ⟨(cancels_iff.mp hcancels).1, hnot⟩
    exact absurd hcancels (Bool.eq_false_iff.mp (hnone' e hmem))

/-- The calls end in one of three ways. -/
theorem processAlert_cases (hnow : Monotone now) (h : alert.processAlert K now s = .ok (fRet, s')) :
    (alert.checkSignature K = .ok none ∧ s' = s) ∨
    ∃ new, alert.checkSignature K = .ok (some new) ∧
      ((new.isInEffect (now s.nReads) = false ∧ s' = { s with nReads := s.nReads + 1 }) ∨
        (new.isInEffect (now s.nReads) = true ∧ Processed K now new s s')) := by
  unfold processAlert at h
  cases hsig : alert.checkSignature K with
  | error e =>
    rw [hsig] at h
    cases h
  | ok found =>
    rw [hsig] at h
    cases found with
    -- the signature is wrong, or nothing can be read
    | none =>
      cases h
      exact .inl ⟨rfl, rfl⟩
    | some new =>
      refine .inr ⟨new, rfl, ?_⟩
      cases heffect : new.isInEffect (now s.nReads) with
      -- it is not in effect, and nothing else is done
      | false =>
        simp only [bind, Except.bind, pure, Except.pure, heffect, Bool.not_false, if_true] at h
        cases h
        exact .inl ⟨rfl, rfl⟩
      | true =>
        simp only [bind, Except.bind, pure, Except.pure, heffect, Bool.not_true, Bool.false_eq_true, if_false] at h
        refine .inr ⟨rfl, ?_⟩
        -- the store is gone through twice, and the clock may be ahead the second time
        have hcleared := @cleared now new s hnow
        set left := s.mapAlerts.entries.foldl (new.cancelStep now) { s with nReads := s.nReads + 1 }
        obtain ⟨hreads, hnone⟩ := @isCancelled_cases now new hnow left.mapAlerts.entries left.nReads
        cases hcancelled : new.isCancelled now left.nReads left.mapAlerts.entries with
        | mk fCancelled nReads =>
          rw [hcancelled] at h hreads hnone
          cases fCancelled with
          | true =>
            cases h
            exact hcleared.processed_cancelled hnow hreads
          | false =>
            cases h
            refine hcleared.processed_stored hnow hreads (hnone rfl) ?_
            split_ifs
            · exact fun e he => .inr he
            · exact fun e he => OrderedMap.mem_entries_put he

/-- Only the message can throw. -/
theorem processAlert_isOk {found : Option CAlert} (hsig : alert.checkSignature K = .ok found) :
    ∃ ret, alert.processAlert K now s = .ok ret := by
  unfold processAlert
  rw [hsig]
  cases found with
  | none => exact ⟨_, rfl⟩
  | some new =>
    cases heffect : new.isInEffect (now s.nReads) with
    | false =>
      simp only [bind, Except.bind, pure, Except.pure, heffect, Bool.not_false, if_true]
      exact ⟨_, rfl⟩
    | true =>
      simp only [bind, Except.bind, pure, Except.pure, heffect, Bool.not_true, Bool.false_eq_true, if_false]
      split <;> exact ⟨_, rfl⟩

/-! ### All calls -/

/-- **Each call** keeps the invariant. -/
theorem NoneCancelled.processAlert (hnow : Monotone now) (hs : NoneCancelled (now s.nReads) s)
    (h : alert.processAlert K now s = .ok (fRet, s')) : NoneCancelled (now s'.nReads) s' := by
  obtain ⟨-, rfl⟩ | ⟨new, -, ⟨-, rfl⟩ | ⟨-, hprocessed⟩⟩ := processAlert_cases hnow h
  · exact hs
  · exact hs.mono (hnow (Nat.le_succ _)) fun e he => he
  · have hlater := hnow hprocessed.nReads
    obtain hold | hnone := hprocessed.accepted
    · exact hs.mono hlater hold
    · intro e he e' he' hne
      obtain rfl | ⟨hmem, -⟩ := hprocessed.stored e he
      · obtain rfl | ⟨-, hleft⟩ := hprocessed.stored e' he'
        · exact absurd rfl hne
        · exact hleft.notCancelled
      · obtain rfl | ⟨hmem', -⟩ := hprocessed.stored e' he'
        · exact (hnone e he).resolve_left fun heq => hne (congrArg Prod.fst heq)
        · refine Bool.eq_false_iff.mpr fun hcancels => ?_
          exact Bool.eq_false_iff.mp (hs e hmem e' hmem' hne) (cancels_of_le hlater hcancels)

/-- In every run no alert in the map is cancelled by another, by induction on the calls. -/
theorem noneCancelled_processAlerts (hnow : Monotone now) (calls : List CAlert) :
    NoneCancelled (now (processAlerts K now calls).nReads) (processAlerts K now calls) := by
  unfold processAlerts
  induction calls using List.reverseRecOn with
  | nil => exact fun e he => absurd he List.not_mem_nil
  | append_singleton calls alert ih =>
    rw [List.foldl_append, List.foldl_cons, List.foldl_nil]
    set s := calls.foldl _ _
    cases hcall : alert.processAlert K now s with
    | error e => exact ih
    | ok ret => exact NoneCancelled.processAlert hnow ih hcall

/-- **The alert store.** After each call, and until the next, no stored alert is cancelled by another one. After a
call with a signed alert that is in effect, what is stored besides it was in effect at the beginning of the call
and is not cancelled by it; and it is not stored when it is cancelled by one that it does not cancel in turn. -/
theorem alertStore_clean (K : AlertCrypto) {now : ℕ → ℤ} (hnow : Monotone now) (calls : List CAlert)
    (alert : CAlert) :
    let s := processAlerts K now calls
    let s' := processAlerts K now (calls ++ [alert])
    (∀ t, now s'.nReads ≤ t → NoneCancelled t s') ∧
    ∀ new, alert.checkSignature K = .ok (some new) → new.isInEffect (now s.nReads) = true →
      (∀ e ∈ s'.mapAlerts.entries, e = (new.getHash K, new) ∨
        (e ∈ s.mapAlerts.entries ∧ e.2.isInEffect (now s.nReads) = true ∧
          new.cancels (now s'.nReads) e.2 = false)) ∧
      (∀ e ∈ s.mapAlerts.entries, new.cancels (now s.nReads) e.2 = false →
        e.2.cancels (now s'.nReads) new = true → ∀ e' ∈ s'.mapAlerts.entries, e' ∈ s.mapAlerts.entries) := by
  intro s s'
  refine ⟨fun t ht => (noneCancelled_processAlerts hnow _).mono ht fun e he => he, fun new hsig heffect => ?_⟩
  obtain ⟨⟨fRet, s''⟩, hcall⟩ := @processAlert_isOk _ now _ s _ hsig
  -- the last call of the row starts where the others end
  have hlast : s' = s'' := by
    show processAlerts K now (calls ++ [alert]) = s''
    unfold processAlerts
    rw [List.foldl_append]
    show List.foldl _ s [alert] = s''
    simp only [List.foldl_cons, List.foldl_nil, hcall]
  obtain ⟨hnone, -⟩ | ⟨new', hsome, hcases⟩ := processAlert_cases hnow hcall
  · cases hsig.symm.trans hnone
  · cases hsig.symm.trans hsome
    obtain ⟨hover, -⟩ | ⟨-, hprocessed⟩ := hcases
    · -- the alert is in effect, so the call goes on
      rw [heffect] at hover
      cases hover
    · rw [hlast]
      refine ⟨fun e he => (hprocessed.stored e he).imp_right ?_, hprocessed.refused⟩
      exact fun h => ⟨h.1, h.2.inEffect, h.2.notCancelled⟩

end CAlert

/-! ### Alerts that are over, and alerts that cancel each other -/

namespace Sample

/-- A message with small numbers, and no set of ids. -/
def alertMsg (nExpiration nID nCancel : UInt8) : List UInt8 :=
  List.replicate 12 0 ++ [nExpiration, 0, 0, 0, 0, 0, 0, 0, nID, 0, 0, 0, nCancel, 0, 0, 0] ++ List.replicate 17 0

def alertCrypto : AlertCrypto where
  verify _ _ := true
  serializeHash v := v.length + v.sum.toNat

def alert (nExpiration nID nCancel : UInt8) : CAlert where
  nVersion := 0
  nRelayUntil := 0
  nExpiration := nExpiration.toNat
  nID := nID.toNat
  nCancel := nCancel.toNat
  setCancel := ∅
  nMinVer := 0
  nMaxVer := 0
  setSubVer := ∅
  nPriority := 0
  strComment := []
  strStatusBar := []
  strReserved := []
  vchMsg := alertMsg nExpiration nID nCancel
  vchSig := []

/-- It is five until the first call is over, and twenty after it. -/
def alertClock (k : ℕ) : ℤ := if k < 2 then 5 else 20

/-- The sample clock does not run backwards. -/
theorem alertClock_monotone : Monotone alertClock := by
  intro k k' hk
  unfold alertClock
  split_ifs <;> omega

/-- The sample alerts are signed. -/
theorem checkSignature_alert : ∀ a ∈ [alert 10 1 0, alert 1 2 0, alert 90 5 9, alert 90 7 6],
    a.checkSignature alertCrypto = .ok (some a) := by
  decide +kernel

/-- The second alert is over when it comes, and so is the first one by then. -/
theorem processAlerts_over :
    (CAlert.processAlerts alertCrypto alertClock [alert 10 1 0]).nReads = 2 ∧
      (CAlert.processAlerts alertCrypto alertClock [alert 10 1 0, alert 1 2 0]).mapAlerts.entries.map Prod.snd =
        [alert 10 1 0] := by
  decide +kernel

/-- Each of two alerts cancels the other. -/
theorem processAlerts_both :
    (CAlert.processAlerts alertCrypto alertClock [alert 90 5 9]).mapAlerts.entries.map Prod.snd = [alert 90 5 9] ∧
      (CAlert.processAlerts alertCrypto alertClock [alert 90 5 9, alert 90 7 6]).mapAlerts.entries.map Prod.snd =
        [alert 90 7 6] := by
  decide +kernel

end Sample

namespace CAlert

/-- An alert that is over does not clear the store of others that are over; and an alert is stored although one in
the store that is in effect cancels it, when it cancels that one first. -/
theorem not_alertStore_clean : ¬ (∀ (K : AlertCrypto) (now : ℕ → ℤ), Monotone now → ∀ (calls : List CAlert)
      (alert new : CAlert), (∀ c ∈ calls, ∃ found, c.checkSignature K = .ok (some found)) →
      alert.checkSignature K = .ok (some new) →
      ∀ e ∈ (processAlerts K now (calls ++ [alert])).mapAlerts.entries,
        e.2.isInEffect (now (processAlerts K now calls).nReads) = true) ∧
    ¬ (∀ (K : AlertCrypto) (now : ℕ → ℤ), Monotone now → ∀ (calls : List CAlert) (alert new : CAlert),
      (∀ c ∈ calls, ∃ found, c.checkSignature K = .ok (some found)) →
      alert.checkSignature K = .ok (some new) → new.isInEffect (now (processAlerts K now calls).nReads) = true →
      ∀ e ∈ (processAlerts K now calls).mapAlerts.entries,
        e.2.cancels (now (processAlerts K now (calls ++ [alert])).nReads) new = true →
        ∀ e' ∈ (processAlerts K now (calls ++ [alert])).mapAlerts.entries,
          e' ∈ (processAlerts K now calls).mapAlerts.entries) := by
  -- the samples are signed
  have hsigned := Sample.checkSignature_alert
  simp only [List.forall_mem_cons, List.not_mem_nil, false_imp_iff, implies_true, and_true] at hsigned
  obtain ⟨hfirst, hover, hfirst', hboth⟩ := hsigned
  have hcalls : ∀ {a : CAlert}, a.checkSignature Sample.alertCrypto = .ok (some a) →
      ∀ c ∈ [a], ∃ found, c.checkSignature Sample.alertCrypto = .ok (some found) :=
    fun ha c hc => ⟨_, (List.mem_singleton.mp hc) ▸ ha⟩
  refine ⟨fun h => ?_, fun h => ?_⟩
  · -- the new alert is not in effect, so nothing is cleared
    obtain ⟨hreads, hentries⟩ := Sample.processAlerts_over
    have hmem : Sample.alert 10 1 0 ∈ (processAlerts Sample.alertCrypto Sample.alertClock
        [Sample.alert 10 1 0, Sample.alert 1 2 0]).mapAlerts.entries.map Prod.snd := by
      rw [hentries]
      exact List.mem_singleton_self _
    obtain ⟨e, he, halert⟩ := List.mem_map.mp hmem
    have heffect := h _ _ Sample.alertClock_monotone [Sample.alert 10 1 0] (Sample.alert 1 2 0) _ (hcalls hfirst)
      hover e he
    rw [halert, hreads] at heffect
    exact absurd heffect (by decide)
  · -- each of the two cancels the other, and the one that comes later is stored
    obtain ⟨hbefore, hafter⟩ := Sample.processAlerts_both
    have hmem : Sample.alert 90 5 9 ∈ (processAlerts Sample.alertCrypto Sample.alertClock
        [Sample.alert 90 5 9]).mapAlerts.entries.map Prod.snd := by
      rw [hbefore]
      exact List.mem_singleton_self _
    have hmem' : Sample.alert 90 7 6 ∈ (processAlerts Sample.alertCrypto Sample.alertClock
        [Sample.alert 90 5 9, Sample.alert 90 7 6]).mapAlerts.entries.map Prod.snd := by
      rw [hafter]
      exact List.mem_singleton_self _
    obtain ⟨e, he, halert⟩ := List.mem_map.mp hmem
    obtain ⟨e', he', halert'⟩ := List.mem_map.mp hmem'
    have hcancels : ∀ k, e.2.cancels (Sample.alertClock k) (Sample.alert 90 7 6) = true := by
      intro k
      rw [halert]
      unfold Sample.alertClock
      split_ifs <;> decide
    have hnew := h _ _ Sample.alertClock_monotone [Sample.alert 90 5 9] (Sample.alert 90 7 6) _ (hcalls hfirst') hboth
      (by unfold Sample.alertClock; split_ifs <;> decide) e he (hcancels _) e' he'
    have hold : e'.2 ∈ [Sample.alert 90 5 9] := hbefore ▸ List.mem_map_of_mem hnew
    rw [halert'] at hold
    exact absurd hold (by decide)

end CAlert

namespace Sample

/-- Two alerts are stored; the third one cancels the first of them. -/
theorem processAlerts_cancelled :
    (CAlert.processAlerts alertCrypto alertClock [alert 90 1 0, alert 90 5 0]).mapAlerts.entries.map Prod.snd =
        [alert 90 1 0, alert 90 5 0] ∧
      (CAlert.processAlerts alertCrypto alertClock
        ([alert 90 1 0, alert 90 5 0] ++ [alert 90 7 1])).mapAlerts.entries.map Prod.snd =
        [alert 90 5 0, alert 90 7 1] ∧
      (alert 90 7 1).checkSignature alertCrypto = .ok (some (alert 90 7 1)) := by
  decide +kernel

end Sample

namespace CAlert

/-- An alert that cancels one of two others is stored beside the one that is left. -/
theorem alertStore_clean_cancelled :
    let s := processAlerts Sample.alertCrypto Sample.alertClock [Sample.alert 90 1 0, Sample.alert 90 5 0]
    let s' := processAlerts Sample.alertCrypto Sample.alertClock
      ([Sample.alert 90 1 0, Sample.alert 90 5 0] ++ [Sample.alert 90 7 1])
    s'.mapAlerts.entries.map Prod.snd = [Sample.alert 90 5 0, Sample.alert 90 7 1] ∧ NoneCancelled 20 s' ∧
      ∀ e ∈ s'.mapAlerts.entries, e = ((Sample.alert 90 7 1).getHash Sample.alertCrypto, Sample.alert 90 7 1) ∨
        (e ∈ s.mapAlerts.entries ∧ e.2.isInEffect (Sample.alertClock s.nReads) = true ∧
          (Sample.alert 90 7 1).cancels (Sample.alertClock s'.nReads) e.2 = false) := by
  obtain ⟨-, hentries, hsigned⟩ := Sample.processAlerts_cancelled
  have hclock : ∀ k, Sample.alertClock k ≤ 20 := by
    intro k
    unfold Sample.alertClock
    split_ifs <;> decide
  obtain ⟨hnone, hcall⟩ := alertStore_clean Sample.alertCrypto Sample.alertClock_monotone
    [Sample.alert 90 1 0, Sample.alert 90 5 0] (Sample.alert 90 7 1)
  refine ⟨hentries, hnone 20 (hclock _), (hcall _ hsigned (decide_eq_true ?_)).1⟩
  exact lt_of_le_of_lt (hclock _) (by decide)

end CAlert

end Peershares
