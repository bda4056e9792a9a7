import Peershares.Model.Check
import Peershares.Model.Wallet

/-!
# What a wallet learns from chain selection

A wallet hears of every disconnected and of every connected block. Here its state after a row of
such calls is computed, and with it the exact condition under which the calls leave no trace.

None of the calls takes a transaction out of the wallet or changes one; a disconnected coinstake clears the flags of
the outputs it spends, and a connected transaction sets those that it spends, and is added if the wallet is involved
in it. So a row of calls is described by the flag of each outpoint afterwards (`spentFlag`): it is cleared if an own
coinstake of the disconnected blocks spends it, and set again if one of the connected transactions does.

* `CWallet.updateSpent_spec`, `CWallet.disable_spec` — the flags after one transaction
* `CWallet.runs_disconnected`, `CWallet.runs_connected` — the flags after a row of transactions
* `CWallet.Settled` — the wallet does not have to add the transaction
* `CWallet.unchanged_iff` — the calls leave no trace iff the wallet is `Unaffected`
* `CWallet.onlyThrows_syncWithWallets` — the calls may throw, but they never return an error
-/

open Framework Framework.Command

namespace Peershares

namespace CWalletTx

/-- The flags after one is written. -/
theorem getD_vfSpent_mark (wtx : CWalletTx) (nOut n : ℕ) (fSpent : Bool) :
    (wtx.mark nOut fSpent).vfSpent.getD n false =
      if n < wtx.tx.vout.length then if n = nOut then fSpent else wtx.vfSpent.getD n false
      else false := by
  unfold mark
  simp only [List.getD_eq_getElem?_getD, List.getElem?_set, List.length_map, List.length_range,
    List.getElem?_map]
  by_cases hn : n < wtx.tx.vout.length
  · rw [if_pos hn]
    by_cases heq : nOut = n
    · subst heq
      simp [hn]
    · have hne : n ≠ nOut := fun h => heq h.symm
      simp [heq, hne, hn]
  · rw [if_neg hn]
    by_cases heq : nOut = n
    · subst heq
      simp [hn]
    · simp [heq, hn]

end CWalletTx

namespace CWallet

variable {P : Params} {w w' w'' : CWallet} {tx : CTransaction} {o : COutPoint}

/-! ### Flags and transactions -/

/-- The flag `vfSpent[o.n]` of the wallet transaction with hash `o.hash`. -/
def spentFlag (w : CWallet) (o : COutPoint) : Bool :=
  match w.mapWallet.lookup o.hash with
  | none => false
  | some wtx => o.n < wtx.tx.vout.length && wtx.vfSpent.getD o.n false

/-- Is the output at `o` the wallet's own? -/
def owns (w : CWallet) (o : COutPoint) : Bool := (w.ownOutput o).isSome

/-- Is the transaction in the wallet? -/
def knows (P : Params) (w : CWallet) (tx : CTransaction) : Bool :=
  (w.mapWallet.lookup (P.hashTx tx)).isSome

/-- The transaction the wallet has under the hash of `tx`, or else `tx`. -/
def recorded (P : Params) (w : CWallet) (tx : CTransaction) : CTransaction :=
  ((w.mapWallet.lookup (P.hashTx tx)).map CWalletTx.tx).getD tx

/-- `IsFromMe` returns `true`. -/
def isOwnSpend (w : CWallet) (tx : CTransaction) : Bool :=
  match w.isFromMe tx with
  | .ok fFromMe => fFromMe
  | .error _ => false

/-- The same keys and the same transactions; the flags may differ. -/
structure SameTxs (w w' : CWallet) : Prop where
  isMine : w'.isMine = w.isMine
  txs : ∀ hash, (w'.mapWallet.lookup hash).map CWalletTx.tx =
    (w.mapWallet.lookup hash).map CWalletTx.tx

/-- Nothing has changed. -/
theorem SameTxs.refl (w : CWallet) : SameTxs w w := ⟨rfl, fun _ => rfl⟩

/-- Two changes of flags are one. -/
theorem SameTxs.trans (h : SameTxs w w') (h' : SameTxs w' w'') : SameTxs w w'' :=
  ⟨h'.isMine.trans h.isMine, fun hash => (h'.txs hash).trans (h.txs hash)⟩

/-- An own output is read from the transactions alone. -/
theorem ownOutput_eq (w : CWallet) (o : COutPoint) :
    w.ownOutput o = ((w.mapWallet.lookup o.hash).map CWalletTx.tx).bind
      (fun prev => (prev.vout[o.n]?).filter (fun txout => w.isMine txout.scriptPubKey)) := by
  unfold ownOutput
  cases w.mapWallet.lookup o.hash <;> rfl

/-- So the own outputs are the same. -/
theorem SameTxs.ownOutput (h : SameTxs w w') : w'.ownOutput = w.ownOutput := by
  funext o
  rw [ownOutput_eq, ownOutput_eq, h.txs, h.isMine]

/-- And what is owned. -/
theorem SameTxs.owns (h : SameTxs w w') (o : COutPoint) : w'.owns o = w.owns o := by
  unfold CWallet.owns
  rw [h.ownOutput]

/-- And which transactions are from the wallet. -/
theorem SameTxs.isFromMe (h : SameTxs w w') (tx : CTransaction) : w'.isFromMe tx = w.isFromMe tx := by
  have hin : w'.getDebitIn = w.getDebitIn := by
    funext txin
    unfold getDebitIn
    rw [h.ownOutput]
  have hloop : ∀ vin nDebit, getDebit.loop w' vin nDebit = getDebit.loop w vin nDebit := by
    intro vin
    induction vin with
    | nil =>
      intro nDebit
      rfl
    | cons txin vin ih =>
      intro nDebit
      unfold getDebit.loop
      rw [hin, ih]
  unfold CWallet.isFromMe getDebit
  rw [hloop]

/-- And which of them spend its coins. -/
theorem SameTxs.isOwnSpend (h : SameTxs w w') (tx : CTransaction) :
    w'.isOwnSpend tx = w.isOwnSpend tx := by
  unfold CWallet.isOwnSpend
  rw [h.isFromMe]

/-- And which are known. -/
theorem SameTxs.knows (h : SameTxs w w') (tx : CTransaction) : w'.knows P tx = w.knows P tx := by
  have hsome := congrArg Option.isSome (h.txs (P.hashTx tx))
  rw [Option.isSome_map, Option.isSome_map] at hsome
  exact hsome

/-- And as what. -/
theorem SameTxs.recorded (h : SameTxs w w') (tx : CTransaction) :
    w'.recorded P tx = w.recorded P tx := by
  unfold CWallet.recorded
  rw [h.txs]

/-- An output of the wallet is in range of the transaction that has it. -/
theorem lt_of_owns {wtx : CWalletTx} (h : w.owns o = true)
    (hlookup : w.mapWallet.lookup o.hash = some wtx) : o.n < wtx.tx.vout.length := by
  unfold owns at h
  rw [ownOutput_eq, hlookup, Option.map_some, Option.bind_some] at h
  by_contra hn
  rw [List.getElem?_eq_none (by omega)] at h
  exact absurd h (by simp)

/-- Nothing is owned of a transaction that is not in the wallet. -/
theorem owns_eq_false (h : w.mapWallet.lookup o.hash = none) : w.owns o = false := by
  unfold owns ownOutput
  rw [h]
  rfl

/-- Marking writes one flag. -/
theorem markOutput_spec {wtx : CWalletTx} (fSpent : Bool)
    (hlookup : w.mapWallet.lookup o.hash = some wtx) (hn : o.n < wtx.tx.vout.length) :
    SameTxs w (w.markOutput o wtx fSpent) ∧
    ∀ o', (w.markOutput o wtx fSpent).spentFlag o' = if o' = o then fSpent else w.spentFlag o' := by
  refine ⟨⟨rfl, fun hash => ?_⟩, fun o' => ?_⟩
  · unfold markOutput
    rw [Map.lookup_insert_eq]
    split_ifs with heq
    · rw [heq, hlookup]
      rfl
    · rfl
  · unfold markOutput spentFlag
    rw [Map.lookup_insert_eq]
    -- under another hash nothing is written
    by_cases hhash : o'.hash = o.hash
    · rw [if_pos hhash]
      change (decide (o'.n < wtx.tx.vout.length) && _) = _
      rw [CWalletTx.getD_vfSpent_mark, hhash, hlookup]
      -- of the same transaction only the flag of `o` changes
      by_cases hn' : o'.n = o.n
      · have heq : o' = o := by
          cases o
          cases o'
          simp_all
        simp [heq, hn]
      · have hne : o' ≠ o := fun h => hn' (congrArg COutPoint.n h)
        simp only [hn', hne, if_false]
        by_cases hlt : o'.n < wtx.tx.vout.length <;> simp [hlt]
    · have hne : o' ≠ o := fun h => hhash (congrArg COutPoint.hash h)
      rw [if_neg hhash, if_neg hne]

/-! ### One transaction -/

/-- `WalletUpdateSpent` of one input sets the flag of an own output. -/
theorem updateSpentIn_spec {txin : CTxIn} (h : Runs (updateSpentIn txin) w w') :
    SameTxs w w' ∧
    ∀ o, w'.spentFlag o = (w.spentFlag o || (w.owns o && decide (o = txin.prevout))) := by
  unfold Runs updateSpentIn at h
  cases hlookup : w.mapWallet.lookup txin.prevout.hash with
  | none =>
    rw [hlookup] at h
    cases h
    -- the wallet does not have the transaction, so none of its outputs is its own
    refine ⟨SameTxs.refl _, fun o => ?_⟩
    by_cases heq : o = txin.prevout
    · subst heq
      simp [owns_eq_false hlookup]
    · simp [heq]
  | some wtx =>
    simp only [hlookup] at h
    -- an input without its output throws
    by_cases hn : wtx.tx.vout.length ≤ txin.prevout.n
    · rw [CWalletTx.isSpent, if_pos hn] at h
      exact absurd h (by simp)
    · rw [CWalletTx.isSpent, if_neg hn] at h
      simp only at h
      have hflag : w.spentFlag txin.prevout = wtx.vfSpent.getD txin.prevout.n false := by
        simp [spentFlag, hlookup, Nat.lt_of_not_le hn]
      split_ifs at h with hcond
      · cases h
        -- it is unspent and its own, and is marked
        obtain ⟨hsame, hmark⟩ := markOutput_spec true hlookup (Nat.lt_of_not_le hn)
        refine ⟨hsame, fun o => ?_⟩
        rw [hmark]
        split_ifs with heq
        · have howns : w.owns txin.prevout = true := by
            simp only [Bool.and_eq_true] at hcond
            exact hcond.2
          simp [heq, howns]
        · simp [heq]
      · cases h
        refine ⟨SameTxs.refl _, fun o => ?_⟩
        -- it is spent already, or it is not its own
        by_cases heq : o = txin.prevout
        · subst heq
          rw [← hflag] at hcond
          change ¬(!w.spentFlag txin.prevout && w.owns txin.prevout) = true at hcond
          cases hspent : w.spentFlag txin.prevout with
          | true => rfl
          | false =>
            rw [hspent] at hcond
            simp_all
        · simp [heq]

/-- **`WalletUpdateSpent`**: the own outputs the transaction spends are flagged. -/
theorem updateSpent_spec (h : Runs (walletUpdateSpent tx) w w') :
    SameTxs w w' ∧
    ∀ o, w'.spentFlag o = (w.spentFlag o || (w.owns o && decide (o ∈ tx.prevouts))) := by
  unfold walletUpdateSpent at h
  unfold CTransaction.prevouts
  generalize tx.vin = vin at h ⊢
  induction vin generalizing w with
  | nil =>
    cases h
    exact ⟨SameTxs.refl _, fun o => by simp⟩
  | cons txin vin ih =>
    obtain ⟨w₁, h₁, h₂⟩ := runs_forList_cons.mp h
    obtain ⟨hsame₁, hflag₁⟩ := updateSpentIn_spec h₁
    obtain ⟨hsame₂, hflag₂⟩ := ih h₂
    refine ⟨hsame₁.trans hsame₂, fun o => ?_⟩
    rw [hflag₂, hflag₁, hsame₁.owns, List.map_cons]
    cases w.owns o
    · simp
    · simp [List.mem_cons, Bool.or_assoc, Bool.decide_or]

/-- `DisableTransaction` of one input clears it. -/
theorem disableIn_spec {txin : CTxIn} (h : Runs (disableIn txin) w w') :
    SameTxs w w' ∧
    ∀ o, w'.spentFlag o = (w.spentFlag o && !(w.owns o && decide (o = txin.prevout))) := by
  unfold Runs disableIn at h
  cases hlookup : w.mapWallet.lookup txin.prevout.hash with
  | none =>
    rw [hlookup] at h
    cases h
    refine ⟨SameTxs.refl _, fun o => ?_⟩
    by_cases heq : o = txin.prevout
    · subst heq
      simp [owns_eq_false hlookup]
    · simp [heq]
  | some prev =>
    simp only [hlookup] at h
    -- an output of the wallet is cleared, any other one is left as it is
    split_ifs at h with hcond
    · cases h
      have howns : w.owns txin.prevout = true := hcond
      obtain ⟨hsame, hmark⟩ :=
        markOutput_spec false hlookup (lt_of_owns howns hlookup)
      refine ⟨hsame, fun o => ?_⟩
      rw [hmark]
      split_ifs with heq
      · simp [heq, howns]
      · simp [heq]
    · cases h
      refine ⟨SameTxs.refl _, fun o => ?_⟩
      by_cases heq : o = txin.prevout
      · have howns : w.owns txin.prevout = false := by simpa [owns] using hcond
        simp [heq, howns]
      · simp [heq]

/-- **`DisableTransaction`**: the own outputs the transaction spends lose their flag. -/
theorem disable_spec (h : Runs (forList disableIn tx.vin) w w') :
    SameTxs w w' ∧
    ∀ o, w'.spentFlag o = (w.spentFlag o && !(w.owns o && decide (o ∈ tx.prevouts))) := by
  unfold CTransaction.prevouts
  generalize tx.vin = vin at h ⊢
  induction vin generalizing w with
  | nil =>
    cases h
    exact ⟨SameTxs.refl _, fun o => by simp⟩
  | cons txin vin ih =>
    obtain ⟨w₁, h₁, h₂⟩ := runs_forList_cons.mp h
    obtain ⟨hsame₁, hflag₁⟩ := disableIn_spec h₁
    obtain ⟨hsame₂, hflag₂⟩ := ih h₂
    refine ⟨hsame₁.trans hsame₂, fun o => ?_⟩
    rw [hflag₂, hflag₁, hsame₁.owns, List.map_cons]
    cases w.owns o
    · simp
    · simp [List.mem_cons, Bool.and_assoc, Bool.decide_or]

/-- A disconnected coinstake of the wallet clears the flags of its inputs. -/
theorem syncDisconnected_spec (h : Runs (syncDisconnected tx) w w') :
    SameTxs w w' ∧ ∀ o, w'.spentFlag o = (w.spentFlag o &&
      !(w.owns o && (tx.isCoinStake && w.isOwnSpend tx && decide (o ∈ tx.prevouts)))) := by
  unfold Runs syncDisconnected disableTransaction at h
  unfold isOwnSpend
  cases hstake : tx.isCoinStake with
  | false =>
    simp only [hstake] at h
    cases h
    exact ⟨SameTxs.refl _, fun o => by simp⟩
  | true =>
    simp only [hstake, if_true] at h
    -- `IsFromMe` may throw, which is no run
    cases hfrom : w.isFromMe tx with
    | error e =>
      rw [hfrom] at h
      exact absurd h (by simp)
    | ok fFromMe =>
      cases fFromMe with
      | false =>
        rw [hfrom] at h
        cases h
        exact ⟨SameTxs.refl _, fun o => by simp⟩
      | true =>
        simp only [hfrom] at h
        obtain ⟨hsame, hflag⟩ := disable_spec h
        exact ⟨hsame, fun o => by simpa using hflag o⟩

/-- A transaction the wallet has, or that is none of its business. -/
def Settled (P : Params) (w : CWallet) (tx : CTransaction) : Prop :=
  w.knows P tx = true ∨ (w.isMineTx tx = false ∧ w.isOwnSpend tx = false)

/-- `AddToWalletIfInvolvingMe` of a settled transaction changes flags only. -/
theorem syncConnected_settled (h : Runs (syncConnected P tx) w w') (hsettled : w.Settled P tx) :
    SameTxs w w' ∧
    ∀ o, w'.spentFlag o = (w.spentFlag o || (w.owns o && decide (o ∈ (w.recorded P tx).prevouts))) := by
  unfold Runs syncConnected addToWalletIfInvolvingMe addToWallet at h
  unfold recorded
  -- a known transaction always involves the wallet
  cases hlookup : w.mapWallet.lookup (P.hashTx tx) with
  | some wtx =>
    have hinv : w.involves P tx = .ok true := by simp [CWallet.involves, hlookup]
    simp only [hinv, hlookup] at h
    exact updateSpent_spec h
  | none =>
    have hknows : w.knows P tx = false := by simp [CWallet.knows, hlookup]
    obtain hknown | ⟨hmine, hown⟩ := hsettled
    · exact absurd hknown (by simp [hknows])
    · -- an unknown one is settled when it neither pays the wallet nor spends from it
      have hinv : w.involves P tx = w.isFromMe tx := by simp [CWallet.involves, hlookup, hmine]
      unfold isOwnSpend at hown
      rw [hinv] at h
      cases hfrom : w.isFromMe tx with
      | error e =>
        rw [hfrom] at h
        exact absurd h (by simp)
      | ok fFromMe =>
        rw [hfrom] at h hown
        simp only at hown
        subst hown
        exact updateSpent_spec h

/-- A settled transaction stays settled. -/
theorem Settled.congr (h : SameTxs w w') : w'.Settled P tx ↔ w.Settled P tx := by
  unfold Settled isMineTx
  rw [h.knows, h.isOwnSpend, h.isMine]

/-- The same transactions are in the wallet. -/
theorem SameTxs.isSome (h : SameTxs w w') (hash : Uint256) :
    (w'.mapWallet.lookup hash).isSome = (w.mapWallet.lookup hash).isSome := by
  have hsome := congrArg Option.isSome (h.txs hash)
  rw [Option.isSome_map, Option.isSome_map] at hsome
  exact hsome

/-- Any other transaction is added to the wallet. -/
theorem syncConnected_new (h : Runs (syncConnected P tx) w w') (hnew : ¬w.Settled P tx) :
    ∀ hash, (w'.mapWallet.lookup hash).isSome =
      (decide (hash = P.hashTx tx) || (w.mapWallet.lookup hash).isSome) := by
  unfold Settled at hnew
  rw [not_or, Bool.not_eq_true] at hnew
  obtain ⟨hknows, hnew⟩ := hnew
  have hlookup : w.mapWallet.lookup (P.hashTx tx) = none := by simpa [CWallet.knows] using hknows
  unfold Runs syncConnected addToWalletIfInvolvingMe addToWallet at h
  -- it is unknown and not settled, so it pays the wallet or spends from it
  have hinv : w.involves P tx = .ok true := by
    unfold CWallet.involves at h ⊢
    unfold isOwnSpend at hnew
    cases hmine : w.isMineTx tx with
    | true => simp
    | false =>
      simp only [hlookup, hmine, Option.isSome_none, Bool.or_self, Bool.false_eq_true, if_false]
        at h ⊢
      cases hfrom : w.isFromMe tx with
      | error e =>
        rw [hfrom] at h
        exact absurd h (by simp)
      | ok fFromMe =>
        cases fFromMe with
        | false => exact absurd ⟨hmine, by rw [hfrom]⟩ hnew
        | true => rfl
  simp only [hinv, hlookup] at h
  obtain ⟨hsame, -⟩ := updateSpent_spec h
  intro hash
  rw [hsame.isSome, Map.lookup_insert_eq]
  split_ifs with heq
  · simp [heq]
  · simp [heq]

/-- A wallet never loses a transaction. -/
theorem syncConnected_mono (h : Runs (syncConnected P tx) w w') {hash : Uint256}
    (hsome : (w.mapWallet.lookup hash).isSome = true) : (w'.mapWallet.lookup hash).isSome = true := by
  by_cases hsettled : w.Settled P tx
  · rw [(syncConnected_settled h hsettled).1.isSome]
    exact hsome
  · rw [syncConnected_new h hsettled, hsome, Bool.or_true]

/-! ### Rows of transactions -/

/-- The outputs that own coinstakes of a row spend. -/
def refunded (w : CWallet) (vtx : List CTransaction) (o : COutPoint) : Bool :=
  vtx.any (fun tx => tx.isCoinStake && w.isOwnSpend tx && decide (o ∈ tx.prevouts))

/-- The outputs that the transactions of a row spend, as the wallet has them. -/
def spentBy (P : Params) (w : CWallet) (vtx : List CTransaction) (o : COutPoint) : Bool :=
  vtx.any (fun tx => decide (o ∈ (w.recorded P tx).prevouts))

/-- The transactions of a disconnected block, by induction on the row. -/
theorem runs_disconnected {vtx : List CTransaction} (h : Runs (forList syncDisconnected vtx) w w') :
    SameTxs w w' ∧
    ∀ o, w'.spentFlag o = (w.spentFlag o && !(w.owns o && w.refunded vtx o)) := by
  induction vtx generalizing w with
  | nil =>
    cases h
    exact ⟨SameTxs.refl _, fun o => by simp [refunded]⟩
  | cons tx vtx ih =>
    obtain ⟨w₁, h₁, h₂⟩ := runs_forList_cons.mp h
    obtain ⟨hsame₁, hflag₁⟩ := syncDisconnected_spec h₁
    obtain ⟨hsame₂, hflag₂⟩ := ih h₂
    refine ⟨hsame₁.trans hsame₂, fun o => ?_⟩
    have hrest : w₁.refunded vtx o = w.refunded vtx o := by
      unfold refunded
      simp only [hsame₁.isOwnSpend]
    have hcons : w.refunded (tx :: vtx) o =
        ((tx.isCoinStake && w.isOwnSpend tx && decide (o ∈ tx.prevouts)) || w.refunded vtx o) := rfl
    rw [hflag₂, hflag₁, hsame₁.owns, hrest, hcons]
    cases w.owns o
    · simp
    · simp [Bool.and_assoc]

/-- The transactions of a connected block that the wallet knows already. -/
theorem runs_connected {vtx : List CTransaction} (h : Runs (forList (syncConnected P) vtx) w w')
    (hsettled : ∀ tx ∈ vtx, w.Settled P tx) :
    SameTxs w w' ∧ ∀ o, w'.spentFlag o = (w.spentFlag o || (w.owns o && w.spentBy P vtx o)) := by
  induction vtx generalizing w with
  | nil =>
    cases h
    exact ⟨SameTxs.refl _, fun o => by simp [spentBy]⟩
  | cons tx vtx ih =>
    obtain ⟨w₁, h₁, h₂⟩ := runs_forList_cons.mp h
    obtain ⟨htx, hvtx⟩ := List.forall_mem_cons.mp hsettled
    obtain ⟨hsame₁, hflag₁⟩ := syncConnected_settled h₁ htx
    obtain ⟨hsame₂, hflag₂⟩ := ih h₂ (fun tx' htx' => (Settled.congr hsame₁).mpr (hvtx tx' htx'))
    refine ⟨hsame₁.trans hsame₂, fun o => ?_⟩
    -- flags do not decide what is recorded
    have hrest : w₁.spentBy P vtx o = w.spentBy P vtx o := by
      unfold spentBy
      simp only [hsame₁.recorded]
    have hcons : w.spentBy P (tx :: vtx) o =
        (decide (o ∈ (w.recorded P tx).prevouts) || w.spentBy P vtx o) := rfl
    rw [hflag₂, hflag₁, hsame₁.owns, hrest, hcons]
    cases w.owns o
    · simp
    · simp [Bool.or_assoc]

/-- A row with a transaction that is not settled makes the wallet grow. -/
theorem runs_connected_new {vtx : List CTransaction}
    (h : Runs (forList (syncConnected P) vtx) w w') (hnew : ∃ tx ∈ vtx, ¬w.Settled P tx) :
    ∃ hash, (w.mapWallet.lookup hash).isSome = false ∧
      (w'.mapWallet.lookup hash).isSome = true := by
  -- nothing leaves the wallet
  have hmono : ∀ {vtx : List CTransaction} {w w' : CWallet} {hash : Uint256},
      Runs (forList (syncConnected P) vtx) w w' → (w.mapWallet.lookup hash).isSome = true →
        (w'.mapWallet.lookup hash).isSome = true := by
    intro vtx
    induction vtx with
    | nil =>
      intro w w' hash h hsome
      cases h
      exact hsome
    | cons tx vtx ih =>
      intro w w' hash h hsome
      obtain ⟨w₁, h₁, h₂⟩ := runs_forList_cons.mp h
      exact ih h₂ (syncConnected_mono h₁ hsome)
  induction vtx generalizing w with
  | nil =>
    obtain ⟨tx, htx, -⟩ := hnew
    exact absurd htx (by simp)
  | cons tx vtx ih =>
    obtain ⟨w₁, h₁, h₂⟩ := runs_forList_cons.mp h
    by_cases hsettled : w.Settled P tx
    · -- the first transaction changes no membership, so a later one is new
      have hsame := (syncConnected_settled h₁ hsettled).1
      obtain ⟨tx', htx', hnew'⟩ := hnew
      have hrest : ∃ tx ∈ vtx, ¬w₁.Settled P tx := by
        rcases List.mem_cons.mp htx' with rfl | htx'
        · exact absurd hsettled hnew'
        · exact ⟨tx', htx', fun hs => hnew' ((Settled.congr hsame).mp hs)⟩
      obtain ⟨hash, hnone, hsome⟩ := ih h₂ hrest
      exact ⟨hash, by rw [← hsame.isSome]; exact hnone, hsome⟩
    · refine ⟨P.hashTx tx, ?_, hmono h₂ ?_⟩
      · by_contra hknown
        rw [Bool.not_eq_false] at hknown
        exact hsettled (Or.inl hknown)
      · rw [syncConnected_new h₁ hsettled]
        simp

/-! ### No trace -/

/-- `mapWallet` has the same transactions and every flag is the same. -/
structure Unchanged (w w' : CWallet) : Prop where
  members : ∀ hash, (w'.mapWallet.lookup hash).isSome = (w.mapWallet.lookup hash).isSome
  flags : ∀ o, w'.spentFlag o = w.spentFlag o

/-- The wallet has nothing to learn from disconnecting and connecting these transactions. -/
structure Unaffected (P : Params) (w : CWallet) (disconnected connected : List CTransaction) :
    Prop where
  /-- It has every connected transaction that is its business. -/
  settled : ∀ tx ∈ connected, w.Settled P tx
  /-- It has every own output a connected transaction spends flagged as spent. -/
  spent : ∀ tx ∈ connected, ∀ o ∈ (w.recorded P tx).prevouts, w.owns o = true →
    w.spentFlag o = true
  /-- An own output that an own disconnected coinstake spends is not flagged as spent, unless a
  connected transaction spends it again. -/
  refunded : ∀ tx ∈ disconnected, tx.isCoinStake = true → w.isOwnSpend tx = true →
    ∀ o ∈ tx.prevouts, w.owns o = true → w.spentFlag o = true →
      ∃ tx' ∈ connected, o ∈ (w.recorded P tx').prevouts

/-- **The calls leave no trace in a wallet exactly when it is unaffected.** -/
theorem unchanged_iff {disconnected connected : List CTransaction} {w₁ : CWallet}
    (hdisconnected : Runs (forList syncDisconnected disconnected) w w₁)
    (hconnected : Runs (forList (syncConnected P) connected) w₁ w') :
    Unchanged w w' ↔ Unaffected P w disconnected connected := by
  -- disconnecting writes flags only, so what is settled stays so
  obtain ⟨hsame₁, hflag₁⟩ := runs_disconnected hdisconnected
  have hsettled₁ : ∀ tx, w₁.Settled P tx ↔ w.Settled P tx := fun tx => Settled.congr hsame₁
  -- the flag of an output after both rows, when no transaction is new
  have hflag : (∀ tx ∈ connected, w.Settled P tx) → ∀ o, w'.spentFlag o =
      ((w.spentFlag o && !(w.owns o && w.refunded disconnected o))
        || (w.owns o && w.spentBy P connected o)) := by
    intro hsettled o
    obtain ⟨-, hflag₂⟩ := runs_connected hconnected (fun tx htx => (hsettled₁ tx).mpr (hsettled tx htx))
    have hspent : w₁.spentBy P connected o = w.spentBy P connected o := by
      unfold spentBy
      simp only [hsame₁.recorded]
    rw [hflag₂, hflag₁, hsame₁.owns, hspent]
  constructor
  · -- if nothing has changed, no connected transaction was new
    intro hun
    have hsettled : ∀ tx ∈ connected, w.Settled P tx := by
      by_contra hnew
      simp only [not_forall] at hnew
      obtain ⟨tx, htx, hnew⟩ := hnew
      obtain ⟨hash, hnone, hsome⟩ := runs_connected_new hconnected
        ⟨tx, htx, fun hs => hnew ((hsettled₁ tx).mp hs)⟩
      rw [hun.members, ← hsame₁.isSome, hnone] at hsome
      exact absurd hsome (by simp)
    refine ⟨hsettled, ?_, ?_⟩
    · -- an own output that is spent there was flagged before
      intro tx htx o ho howns
      have hby : w.spentBy P connected o = true := List.any_eq_true.mpr ⟨tx, htx, by simpa using ho⟩
      rw [← hun.flags, hflag hsettled, howns, hby]
      simp
    · -- and one that is given back was spent again
      intro tx htx hstake hown o ho howns hspent
      have hre : w.refunded disconnected o = true :=
        List.any_eq_true.mpr ⟨tx, htx, by simp [hstake, hown, ho]⟩
      have hby := hflag hsettled o
      rw [hun.flags, hspent, howns, hre] at hby
      obtain ⟨tx', htx', ho'⟩ := List.any_eq_true.mp hby.symm
      exact ⟨tx', htx', by simpa using ho'⟩
  · -- conversely the flags agree output by output
    intro hun
    obtain ⟨hsame₂, -⟩ := runs_connected hconnected
      (fun tx htx => (hsettled₁ tx).mpr (hun.settled tx htx))
    refine ⟨(hsame₁.trans hsame₂).isSome, fun o => ?_⟩
    rw [hflag hun.settled]
    cases howns : w.owns o with
    | false => simp
    | true =>
      -- a connected transaction spends it, or a disconnected one gives it back, or neither
      cases hby : w.spentBy P connected o with
      | true =>
        obtain ⟨tx, htx, ho⟩ := List.any_eq_true.mp hby
        rw [hun.spent tx htx o (by simpa using ho) howns]
        simp
      | false =>
        cases hre : w.refunded disconnected o with
        | false => simp
        | true =>
          obtain ⟨tx, htx, hcond⟩ := List.any_eq_true.mp hre
          simp only [Bool.and_eq_true, decide_eq_true_eq] at hcond
          obtain ⟨⟨hstake, hown⟩, ho⟩ := hcond
          cases hspent : w.spentFlag o with
          | false => simp
          | true =>
            obtain ⟨tx', htx', ho'⟩ := hun.refunded tx htx hstake hown o ho howns hspent
            have : w.spentBy P connected o = true :=
              List.any_eq_true.mpr ⟨tx', htx', by simpa using ho'⟩
            rw [hby] at this
            exact absurd this (by simp)

/-! ### A wallet fails by throwing -/

/-- A command that never returns `false`. -/
def OnlyThrows {σ : Type} (x : Command σ Failure Unit) : Prop :=
  ∀ s, Triple x s (fun _ _ => True) (fun e _ => e.isReturn = false)

/-- A loop fails as its steps do. -/
theorem onlyThrows_forList {σ β : Type} {f : β → Command σ Failure Unit}
    (h : ∀ b, OnlyThrows (f b)) (bs : List β) : OnlyThrows (forList f bs) := by
  intro s
  exact Triple.forList (I := fun _ _ => True) (fun b _ s' _ => h b s') trivial

/-- And so does a loop over the wallets. -/
theorem onlyThrows_forEach {σ : Type} {x : Command σ Failure Unit} (h : OnlyThrows x) :
    OnlyThrows (forEach x) := by
  intro ss
  induction ss with
  | nil => trivial
  | cons s ss ih =>
    have hs := h s
    unfold Triple at hs ih ⊢
    rw [forEach]
    cases hx : x s with
    | mk r s' =>
      cases r with
      | error e =>
        rw [hx] at hs
        exact hs
      | ok u =>
        cases hrest : forEach x ss with
        | mk r' ss' =>
          rw [hrest] at ih
          cases r' with
          | error e => exact ih
          | ok u => trivial

/-- `WalletUpdateSpent` has no error of its own. -/
theorem onlyThrows_updateSpent (tx : CTransaction) : OnlyThrows (walletUpdateSpent tx) := by
  refine onlyThrows_forList (fun txin w => ?_) tx.vin
  unfold Triple updateSpentIn
  cases w.mapWallet.lookup txin.prevout.hash with
  | none => trivial
  | some wtx =>
    simp only [CWalletTx.isSpent]
    split_ifs with hn
    · rfl
    · simp only
      split_ifs <;> trivial

/-- `IsFromMe` fails by throwing. -/
theorem isReturn_of_isFromMe {e : Failure} (h : w.isFromMe tx = .error e) : e.isReturn = false := by
  -- the sum of the debits is the only thing that can fail, with an exception
  have hloop : ∀ vin nDebit, getDebit.loop w vin nDebit = .error e → e.isReturn = false := by
    intro vin
    induction vin with
    | nil =>
      intro nDebit hl
      exact absurd hl (by simp [getDebit.loop])
    | cons txin vin ih =>
      intro nDebit hl
      unfold getDebit.loop at hl
      split_ifs at hl
      · exact ih _ hl
      · cases hl
        rfl
  unfold CWallet.isFromMe at h
  cases hdebit : w.getDebit tx with
  | error e' =>
    rw [hdebit] at h
    cases h
    exact hloop _ _ hdebit
  | ok nDebit =>
    rw [hdebit] at h
    exact absurd h (by simp [bind, Except.bind, pure, Except.pure])

/-- Nor has `DisableTransaction`. -/
theorem onlyThrows_disableTransaction (tx : CTransaction) : OnlyThrows (disableTransaction tx) := by
  intro w
  unfold Triple disableTransaction
  split_ifs
  · cases hfrom : w.isFromMe tx with
    | error e => exact isReturn_of_isFromMe hfrom
    | ok fFromMe =>
      cases fFromMe with
      | false => trivial
      | true =>
        refine onlyThrows_forList (fun txin w => ?_) tx.vin w
        unfold Triple disableIn
        cases w.mapWallet.lookup txin.prevout.hash with
        | none => trivial
        | some prev =>
          simp only
          split_ifs <;> trivial
  · trivial

/-- Nor what is done for a disconnected transaction. -/
theorem onlyThrows_syncDisconnected (tx : CTransaction) : OnlyThrows (syncDisconnected tx) := by
  intro w
  unfold Triple syncDisconnected
  split_ifs
  · cases hfrom : w.isFromMe tx with
    | error e => exact isReturn_of_isFromMe hfrom
    | ok fFromMe =>
      cases fFromMe with
      | false => trivial
      | true => exact onlyThrows_disableTransaction tx w
  · trivial

/-- Nor `AddToWalletIfInvolvingMe`. -/
theorem onlyThrows_syncConnected (tx : CTransaction) : OnlyThrows (syncConnected P tx) := by
  intro w
  unfold Triple syncConnected addToWalletIfInvolvingMe
  cases hinv : w.involves P tx with
  | error e =>
    unfold CWallet.involves at hinv
    split_ifs at hinv
    exact isReturn_of_isFromMe hinv
  | ok fInvolved =>
    cases fInvolved with
    | false => exact onlyThrows_updateSpent tx w
    | true =>
      unfold addToWallet
      cases w.mapWallet.lookup (P.hashTx tx) with
      | none => exact onlyThrows_updateSpent tx _
      | some wtx => exact onlyThrows_updateSpent wtx.tx w

/-- So `SyncWithWallets` can only throw. -/
theorem onlyThrows_syncWithWallets (fConnect : Bool) (tx : CTransaction) :
    OnlyThrows (syncWithWallets P fConnect tx) := by
  refine onlyThrows_forEach ?_
  split_ifs
  · exact onlyThrows_syncConnected tx
  · exact onlyThrows_syncDisconnected tx

end CWallet

end Peershares
