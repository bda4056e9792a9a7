import Mathlib.Data.List.Forall2
import Mathlib.Tactic.Common

/-!
# Commands that keep their changes when they fail

A command runs on a state and either returns a value or fails; in both cases there is a state
after it. A failure does not roll anything back, as with a function that returns an error code
after it has written to globals. `onFailure` runs a clean-up on the state that a failure leaves, and
`onPart` runs a command on a part of a larger state.

There are three ways to speak of a command, from the narrowest to the widest:

* `Command.Runs` — it returns, with this state. The lemmas split a run of a loop into those of its rounds
  (`Command.runs_forList_append`, `Command.forall₂_of_runs_forEach`).
* `Command.Triple` — what holds after it, with one condition for each of the two ways it can end. A failure of
  the first of two commands is one of both, so `Command.Triple.bind` asks for its condition as it stands;
  `Command.Triple.mono` weakens either, and `Command.Triple.onFailure` replaces that of the failure.
* `Command.Keeps` — an invariant of the state, however the command ends. It is a triple with the same condition
  on both sides, and every combinator keeps what its parts keep.

`Command.Triple.of_ok`, `Command.Triple.of_error` and `Command.Triple.snd` read a triple at a given run, which is
how a result about a single call is obtained from the rules.
-/

namespace Framework

variable {σ τ ε α β : Type}

/-- A command on states `σ` with failures `ε`. -/
def Command (σ ε α : Type) : Type := σ → Except ε α × σ

namespace Command

instance : Monad (Command σ ε) where
  pure a := fun s => (.ok a, s)
  bind x f := fun s =>
    match x s with
    | (.ok a, s') => f a s'
    | (.error e, s') => (.error e, s')

/-- The state. -/
def get : Command σ ε σ := fun s => (.ok s, s)

/-- Change the state. -/
def modify (f : σ → σ) : Command σ ε Unit := fun s => (.ok (), f s)

/-- Fail. -/
def fail (e : ε) : Command σ ε α := fun s => (.error e, s)

/-- Take over a result. -/
def lift (r : Except ε α) : Command σ ε α := fun s => (r, s)

/-- Run `x`; on a failure that `handled` selects, run `cleanup` and fail with `e'`. -/
def onFailure (x : Command σ ε α) (handled : ε → Bool) (cleanup : σ → σ) (e' : ε) :
    Command σ ε α := fun s =>
  match x s with
  | (.ok a, s') => (.ok a, s')
  | (.error e, s') => if handled e then (.error e', cleanup s') else (.error e, s')

/-- Run a command on a part of the state; the rest is there to be read. -/
def onPart (part : σ → τ) (put : σ → τ → σ) (x : σ → Command τ ε α) : Command σ ε α := fun s =>
  match x s (part s) with
  | (r, t) => (r, put s t)

/-- Run a command for each element of a list, up to the first failure. -/
def forList (f : β → Command σ ε Unit) : List β → Command σ ε Unit
  | [] => Pure.pure ()
  | b :: bs => do
    f b
    forList f bs

/-- Run a command on each state of a list, up to the first failure. -/
def forEach (x : Command σ ε Unit) : Command (List σ) ε Unit
  | [] => (.ok (), [])
  | s :: ss =>
    match x s with
    | (.ok (), s') =>
      match forEach x ss with
      | (r, ss') => (r, s' :: ss')
    | (.error e, s') => (.error e, s' :: ss)

/-! ### Runs that return -/

/-- The command returns `()` and goes from `s` to `s'`. -/
def Runs (x : Command σ ε Unit) (s s' : σ) : Prop := x s = (.ok (), s')

/-- A sequence succeeds when both of its parts do. -/
theorem bind_eq_ok {x : Command σ ε α} {f : α → Command σ ε β} {s s' : σ} {b : β} :
    (x >>= f) s = (.ok b, s') ↔ ∃ a s₁, x s = (.ok a, s₁) ∧ f a s₁ = (.ok b, s') := by
  change (match x s with | (.ok a, s') => f a s' | (.error e, s') => (.error e, s')) = _ ↔ _
  cases hx : x s with
  | mk r s₁ =>
    cases r with
    | ok a => simp
    | error e => simp

/-- When the first part succeeds, the second goes on from its state. -/
theorem bind_of_ok {x : Command σ ε α} {f : α → Command σ ε β} {s s' : σ} {a : α}
    (h : x s = (.ok a, s')) : (x >>= f) s = f a s' := by
  change (match x s with | (.ok a, s') => f a s' | (.error e, s') => (.error e, s')) = _
  rw [h]

/-- An error of the first part is that of the whole, and so is the state it leaves. -/
theorem bind_of_error {x : Command σ ε α} {f : α → Command σ ε β} {s s' : σ} {e : ε}
    (h : x s = (.error e, s')) : (x >>= f) s = (.error e, s') := by
  change (match x s with | (.ok a, s') => f a s' | (.error e, s') => (.error e, s')) = _
  rw [h]

/-- A loop runs its first round and then the rest. -/
theorem runs_forList_cons {f : β → Command σ ε Unit} {b : β} {bs : List β} {s s' : σ} :
    Runs (forList f (b :: bs)) s s' ↔ ∃ s₁, Runs (f b) s s₁ ∧ Runs (forList f bs) s₁ s' := by
  unfold Runs
  rw [forList, bind_eq_ok]
  constructor
  · rintro ⟨_, s₁, h₁, h₂⟩
    exact ⟨s₁, h₁, h₂⟩
  · rintro ⟨s₁, h₁, h₂⟩
    exact ⟨(), s₁, h₁, h₂⟩

/-- A loop over two lists is two loops. -/
theorem runs_forList_append {f : β → Command σ ε Unit} {bs bs' : List β} {s s' : σ} :
    Runs (forList f (bs ++ bs')) s s' ↔ ∃ s₁, Runs (forList f bs) s s₁ ∧ Runs (forList f bs') s₁ s' := by
  induction bs generalizing s with
  | nil =>
    constructor
    · intro h
      exact ⟨s, rfl, h⟩
    · rintro ⟨s₁, h₁, h₂⟩
      cases h₁
      exact h₂
  | cons b bs ih =>
    rw [List.cons_append, runs_forList_cons]
    constructor
    · rintro ⟨s₁, h₁, h₂⟩
      obtain ⟨s₂, h₂, h₃⟩ := ih.mp h₂
      exact ⟨s₂, runs_forList_cons.mpr ⟨s₁, h₁, h₂⟩, h₃⟩
    · rintro ⟨s₂, h, h₃⟩
      obtain ⟨s₁, h₁, h₂⟩ := runs_forList_cons.mp h
      exact ⟨s₁, h₁, ih.mpr ⟨s₂, h₂, h₃⟩⟩

/-- A loop that has come to the rest of its list. -/
theorem forList_append_of_runs {f : β → Command σ ε Unit} {bs : List β} {s s₁ : σ}
    (h : Runs (forList f bs) s s₁) (bs' : List β) : forList f (bs ++ bs') s = forList f bs' s₁ := by
  induction bs generalizing s with
  | nil =>
    cases h
    rfl
  | cons b bs ih =>
    obtain ⟨s₂, h₂, h₁⟩ := runs_forList_cons.mp h
    calc forList f (b :: bs ++ bs') s
        = (f b >>= fun _ => forList f (bs ++ bs')) s := rfl
      _ = forList f (bs ++ bs') s₂ := bind_of_ok h₂
      _ = forList f bs' s₁ := ih h₁

/-- Every state of the list has been run on. -/
theorem forall₂_of_runs_forEach {x : Command σ ε Unit} {ss ss' : List σ}
    (h : Runs (forEach x) ss ss') : List.Forall₂ (Runs x) ss ss' := by
  induction ss generalizing ss' with
  | nil =>
    cases h
    exact List.Forall₂.nil
  | cons s ss ih =>
    unfold Runs at h
    rw [forEach] at h
    split at h
    · next s' hs =>
      cases hrest : forEach x ss with
      | mk r ss₁ =>
        rw [hrest] at h
        cases h
        exact List.Forall₂.cons hs (ih hrest)
    · exact absurd h (by simp)

/-- A row of such runs is a row of runs on every state. -/
theorem forall₂_of_runs_forList_forEach {f : β → Command σ ε Unit} {bs : List β} {ss ss' : List σ}
    (h : Runs (forList (fun b => forEach (f b)) bs) ss ss') :
    List.Forall₂ (Runs (forList f bs)) ss ss' := by
  induction bs generalizing ss with
  | nil =>
    cases h
    exact List.forall₂_same.mpr (fun _ _ => rfl)
  | cons b bs ih =>
    -- the first command runs on every state, and the others on what it leaves
    obtain ⟨ss₁, h₁, h₂⟩ := runs_forList_cons.mp h
    have hfirst := forall₂_of_runs_forEach h₁
    have hrest := ih h₂
    clear h h₁ h₂ ih
    induction hfirst generalizing ss' with
    | nil =>
      cases hrest
      exact List.Forall₂.nil
    | cons hs _ ih =>
      cases hrest with
      | cons hs' hrest => exact List.Forall₂.cons (runs_forList_cons.mpr ⟨_, hs, hs'⟩) (ih hrest)

/-! ### Triples -/

/-- From state `s` the command ends in `Q` if it returns and in `E` if it fails. -/
def Triple (x : Command σ ε α) (s : σ) (Q : α → σ → Prop) (E : ε → σ → Prop) : Prop :=
  match x s with
  | (.ok a, s') => Q a s'
  | (.error e, s') => E e s'

namespace Triple

variable {x : Command σ ε α} {f : α → Command σ ε β} {s : σ} {Q Q' : α → σ → Prop}
  {R : β → σ → Prop} {E E' : ε → σ → Prop}

/-- The rule for a result. -/
theorem pure {a : α} (h : Q a s) : Triple (Pure.pure a) s Q E := h

/-- The rule for a change of the state. -/
theorem modify {g : σ → σ} {Q : Unit → σ → Prop} (h : Q () (g s)) :
    Triple (Command.modify g) s Q E := h

/-- The rule for an error. -/
theorem fail {e : ε} (h : E e s) : Triple (Command.fail e : Command σ ε α) s Q E := h

/-- The rule for a sequence: what the first part gives is what the second one starts with. -/
theorem bind (hx : Triple x s Q E) (hf : ∀ a s', Q a s' → Triple (f a) s' R E) :
    Triple (x >>= f) s R E := by
  unfold Triple at hx ⊢
  change match (match x s with | (.ok a, s') => f a s' | (.error e, s') => (.error e, s')) with
    | (.ok a, s') => R a s'
    | (.error e, s') => E e s'
  split at hx
  · next a s' hrun =>
    exact hf a s' hx
  · exact hx

/-- The state is read, and the rest is about it. -/
theorem get_bind {f : σ → Command σ ε β} (h : Triple (f s) s R E) :
    Triple (Command.get >>= f) s R E := h

/-- The state is changed, and the rest starts from the new one. -/
theorem modify_bind {g : σ → σ} {f : Unit → Command σ ε β} (h : Triple (f ()) (g s) R E) :
    Triple (Command.modify g >>= f) s R E := h

/-- A pure computation is made; its error leaves the state alone. -/
theorem lift_bind {r : Except ε α} (hok : ∀ a, r = .ok a → Triple (f a) s R E)
    (herr : ∀ e, r = .error e → E e s) : Triple (Command.lift r >>= f) s R E := by
  cases r with
  | ok a => exact hok a rfl
  | error e => exact herr e rfl

/-- The rule of consequence. -/
theorem mono (h : Triple x s Q E) (hQ : ∀ a s', Q a s' → Q' a s') (hE : ∀ e s', E e s' → E' e s') :
    Triple x s Q' E' := by
  unfold Triple at h ⊢
  split at h
  · exact hQ _ _ h
  · exact hE _ _ h

/-- What was shown twice holds together. -/
theorem and (h : Triple x s Q E) (h' : Triple x s Q' E') :
    Triple x s (fun a s' => Q a s' ∧ Q' a s') (fun e s' => E e s' ∧ E' e s') := by
  unfold Triple at h h' ⊢
  split at h
  · next hrun =>
    rw [hrun] at h'
    exact ⟨h, h'⟩
  · next hrun =>
    rw [hrun] at h'
    exact ⟨h, h'⟩

/-- How the command ran is always known. -/
theorem run : Triple x s (fun a s' => x s = (.ok a, s')) (fun e s' => x s = (.error e, s')) := by
  unfold Triple
  split
  · assumption
  · assumption

/-- The rule for a pure computation. -/
theorem lift {r : Except ε α} (hok : ∀ a, r = .ok a → Q a s) (herr : ∀ e, r = .error e → E e s) :
    Triple (Command.lift r) s Q E := by
  unfold Triple Command.lift
  cases r with
  | ok a => exact hok a rfl
  | error e => exact herr e rfl

/-- Handled errors are cleaned up after, and the others go through. -/
theorem onFailure {handled : ε → Bool} {cleanup : σ → σ} {e' : ε} (h : Triple x s Q E)
    (hhandled : ∀ e s', E e s' → handled e = true → E' e' (cleanup s'))
    (hother : ∀ e s', E e s' → handled e = false → E' e s') :
    Triple (x.onFailure handled cleanup e') s Q E' := by
  unfold Triple Command.onFailure
  unfold Triple at h
  split at h
  · exact h
  · next e s' hrun =>
    cases hcase : handled e with
    | true => exact hhandled e s' h hcase
    | false => exact hother e s' h hcase

/-- A command on a part of the state. -/
theorem onPart {part : σ → τ} {put : σ → τ → σ} {x : σ → Command τ ε α}
    (h : Triple (x s) (part s) (fun a t => Q a (put s t)) (fun e t => E e (put s t))) :
    Triple (Command.onPart part put x) s Q E := by
  unfold Triple Command.onPart
  unfold Triple at h
  split at h
  · next hrun =>
    rw [hrun]
    exact h
  · next hrun =>
    rw [hrun]
    exact h

/-- The loop rule: the invariant speaks of the rows that are left. -/
theorem forList {f : β → Command σ ε Unit} {I : List β → σ → Prop}
    (hstep : ∀ b bs s, I (b :: bs) s → Triple (f b) s (fun _ s' => I bs s') E) {bs : List β}
    (h : I bs s) : Triple (Command.forList f bs) s (fun _ s' => I [] s') E := by
  induction bs generalizing s with
  | nil => exact h
  | cons b bs ih => exact (hstep b bs s h).bind (fun _ _ h' => ih h')

/-- Read a triple off a run that returned. -/
theorem of_ok {a : α} {s' : σ} (h : Triple x s Q E) (hrun : x s = (.ok a, s')) : Q a s' := by
  unfold Triple at h
  rw [hrun] at h
  exact h

/-- Read a triple off a run that failed. -/
theorem of_error {e : ε} {s' : σ} (h : Triple x s Q E) (hrun : x s = (.error e, s')) : E e s' := by
  unfold Triple at h
  rw [hrun] at h
  exact h

/-- A command that ends in the same way whatever happens. -/
theorem snd {I : σ → Prop} (h : Triple x s (fun _ s' => I s') (fun _ s' => I s')) : I (x s).2 := by
  unfold Triple at h
  split at h
  · next hrun =>
    rw [hrun]
    exact h
  · next hrun =>
    rw [hrun]
    exact h

/-- The other way round. -/
theorem of_snd {I : σ → Prop} (h : I (x s).2) : Triple x s (fun _ s' => I s') (fun _ s' => I s') := by
  unfold Triple
  split
  · next hrun =>
    rw [hrun] at h
    exact h
  · next hrun =>
    rw [hrun] at h
    exact h

/-- A command on each state of a list: what holds of one failure holds of the first one. -/
theorem forEach {x : Command σ ε Unit} {I : σ → Prop} {E : ε → Prop}
    (hstep : ∀ s, I s → Triple x s (fun _ s' => I s') (fun e s' => E e ∧ I s')) {ss : List σ}
    (h : ∀ s ∈ ss, I s) :
    Triple (Command.forEach x) ss (fun _ ss' => ∀ s ∈ ss', I s)
      (fun e ss' => E e ∧ ∀ s ∈ ss', I s) := by
  induction ss with
  | nil => exact h
  | cons s ss ih =>
    obtain ⟨hs, hss⟩ := List.forall_mem_cons.mp h
    have hx := hstep s hs
    have hrest := ih hss
    unfold Triple at hx hrest ⊢
    rw [Command.forEach]
    -- when `x` fails the states behind this one are as before
    cases hrun : x s with
    | mk r s' =>
      rw [hrun] at hx
      cases r with
      | error e => exact ⟨hx.1, List.forall_mem_cons.mpr ⟨hx.2, hss⟩⟩
      | ok u =>
        -- when it fails further on, this state has changed already
        cases hrun' : Command.forEach x ss with
        | mk r' ss' =>
          rw [hrun'] at hrest
          cases r' with
          | error e => exact ⟨hrest.1, List.forall_mem_cons.mpr ⟨hx, hrest.2⟩⟩
          | ok u' => exact List.forall_mem_cons.mpr ⟨hx, hrest⟩

end Triple

/-! ### What a command keeps -/

/-- The command keeps `I`, whichever way it ends. -/
def Keeps (I : σ → Prop) (x : Command σ ε α) : Prop :=
  ∀ s, I s → Triple x s (fun _ s' => I s') (fun _ s' => I s')

namespace Keeps

variable {I : σ → Prop} {x : Command σ ε α} {f : α → Command σ ε β}

/-- A result changes nothing. -/
theorem pure (a : α) : Keeps I (Pure.pure a : Command σ ε α) := fun _ h => h

/-- Reading changes nothing. -/
theorem get : Keeps I (Command.get : Command σ ε σ) := fun _ h => h

/-- An error changes nothing. -/
theorem fail (e : ε) : Keeps I (Command.fail e : Command σ ε α) := fun _ h => h

/-- A pure computation changes nothing. -/
theorem lift (r : Except ε α) : Keeps I (Command.lift r) := by
  intro s h
  exact Triple.lift (fun _ _ => h) (fun _ _ => h)

/-- A change of the state has to keep the invariant. -/
theorem modify {g : σ → σ} (h : ∀ s, I s → I (g s)) : Keeps I (Command.modify g : Command σ ε Unit) :=
  fun s hs => h s hs

/-- A sequence keeps what both parts keep. -/
theorem bind (hx : Keeps I x) (hf : ∀ a, Keeps I (f a)) : Keeps I (x >>= f) :=
  fun s h => (hx s h).bind (fun a s' h' => hf a s' h')

/-- Cleaning up has to keep the invariant too. -/
theorem onFailure {handled : ε → Bool} {cleanup : σ → σ} {e' : ε} (hx : Keeps I x)
    (hclean : ∀ s, I s → I (cleanup s)) : Keeps I (x.onFailure handled cleanup e') :=
  fun s h => Triple.onFailure (hx s h) (fun _ s' h' _ => hclean s' h') (fun _ _ h' _ => h')

/-- A command on a part keeps an invariant of the whole that follows the part's. -/
theorem onPart {part : σ → τ} {put : σ → τ → σ} {J : τ → Prop} {x : σ → Command τ ε α}
    (hx : ∀ s, Keeps J (x s)) (hpart : ∀ s, I s → J (part s)) (hput : ∀ s t, I s → J t → I (put s t)) :
    Keeps I (Command.onPart part put x) :=
  fun s h => Triple.onPart ((hx s (part s) (hpart s h)).mono (fun _ t ht => hput s t h ht)
    (fun _ t ht => hput s t h ht))

/-- A loop keeps what each round keeps. -/
theorem forList {f : β → Command σ ε Unit} (hf : ∀ b, Keeps I (f b)) (bs : List β) :
    Keeps I (Command.forList f bs) :=
  fun _ h => Triple.forList (I := fun _ => I) (fun b _ s' h' => hf b s' h') h

/-- A row of states is kept state by state. -/
theorem forEach {x : Command σ ε Unit} (hx : Keeps I x) :
    Keeps (fun ss => ∀ s ∈ ss, I s) (Command.forEach x) := by
  intro ss h
  have hstep : ∀ s, I s → Triple x s (fun _ s' => I s') (fun _ s' => True ∧ I s') :=
    fun s hs => (hx s hs).mono (fun _ _ h' => h') (fun _ _ h' => ⟨trivial, h'⟩)
  exact (Triple.forEach (E := fun _ => True) hstep h).mono (fun _ _ h' => h') (fun _ _ h' => h'.2)

end Keeps

end Command

end Framework
