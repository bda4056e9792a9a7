import Peershares.Ledger.Undo
import Peershares.Model.WalletCache
import Peershares.Relay.Spendable

/-!
# Spent flags follow the chain

A wallet hears of a block when `ConnectBlock` has connected it and when `DisconnectBlock` has
disconnected it. A flag is set when a transaction that spends an own output is connected, and taken
back only when that transaction is a coinstake and is disconnected.

`FlagInv` ties the flags to the chain, and to the history of all transactions that were connected in
the run. That a disconnected coinstake is found to be the wallet's own rests on `CheckTransaction`: an
output with a script is worth something, and an output without one is nobody's.

* `FlagInv.connect`, `FlagInv.disconnect` — one transaction, one block
* `SyncState.Run.flags_follow` — every sequence of calls
-/

open Framework Framework.Command

namespace Peershares

namespace CWallet

variable {P : Params} {w w' : CWallet} {tx : CTransaction} {o : COutPoint}

/-! ### A connected transaction -/

/-- The same keys, and no transaction less. -/
structure Grows (w w' : CWallet) : Prop where
  isMine : w'.isMine = w.isMine
  txs : ∀ hash wtx, w.mapWallet.lookup hash = some wtx →
    (w'.mapWallet.lookup hash).map CWalletTx.tx = some wtx.tx

/-- A change of flags alone is a growth. -/
theorem SameTxs.grows (h : SameTxs w w') : Grows w w' where
  isMine := h.isMine
  txs := by
    intro hash wtx hlookup
    rw [h.txs, hlookup]
    rfl

/-- What is known stays known. -/
theorem Grows.knows (h : Grows w w') (hknows : w.knows P tx = true) : w'.knows P tx = true := by
  obtain ⟨wtx, hlookup⟩ := Option.isSome_iff_exists.mp hknows
  have hmap := h.txs _ wtx hlookup
  unfold CWallet.knows
  rw [← Option.isSome_map (f := CWalletTx.tx), hmap]
  rfl

/-- A known transaction is recorded as itself. -/
theorem Keyed.recorded (h : w.Keyed P) (hP : CollisionFree P) (tx : CTransaction) :
    w.recorded P tx = tx := by
  unfold CWallet.recorded
  cases hlookup : w.mapWallet.lookup (P.hashTx tx) with
  | none => rfl
  | some wtx => exact hP.injective (h _ wtx hlookup)

/-- **`AddToWalletIfInvolvingMe`**: the wallet may have the transaction now, it has it when an output
is its own, and the own outputs the transaction spends are flagged. -/
theorem syncConnected_spec (hP : CollisionFree P) (hkeyed : w.Keyed P)
    (h : Runs (syncConnected P tx) w w') :
    Grows w w' ∧
    (∀ hash, hash ≠ P.hashTx tx → (w'.mapWallet.lookup hash).map CWalletTx.tx =
      (w.mapWallet.lookup hash).map CWalletTx.tx) ∧
    (∀ wtx, w'.mapWallet.lookup (P.hashTx tx) = some wtx → wtx.tx = tx) ∧
    (w.isMineTx tx = true → w'.knows P tx = true) ∧
    ∀ o, w'.spentFlag o = (w.spentFlag o || (w'.owns o && decide (o ∈ tx.prevouts))) := by
  have hkeyed' : w'.Keyed P := keeps_syncConnected tx w hkeyed |>.of_ok h
  have hself : ∀ wtx, w'.mapWallet.lookup (P.hashTx tx) = some wtx → wtx.tx = tx :=
    fun wtx hlookup => hP.injective (hkeyed' _ wtx hlookup)
  -- a transaction that is known or not the wallet's changes flags only
  by_cases hsettled : w.Settled P tx
  · obtain ⟨hsame, hflag⟩ := syncConnected_settled h hsettled
    refine ⟨hsame.grows, fun hash _ => hsame.txs hash, hself, fun hmine => ?_, fun o => ?_⟩
    · rw [hsame.knows]
      rcases hsettled with hknows | ⟨hnot, -⟩
      · exact hknows
      · exact absurd hmine (by simp [hnot])
    · rw [hflag, hsame.owns, hkeyed.recorded hP]
  · -- the transaction is put into the wallet, with no flag set
    have hmember := syncConnected_new h hsettled
    have hlookup : w.mapWallet.lookup (P.hashTx tx) = none := by
      unfold Settled at hsettled
      rw [not_or, Bool.not_eq_true] at hsettled
      simpa [CWallet.knows] using hsettled.1
    set w₁ : CWallet := { w with mapWallet := w.mapWallet.insert (P.hashTx tx) { tx := tx } } with hw₁
    -- then the flags of its inputs are set
    have hruns : Runs (walletUpdateSpent tx) w₁ w' := by
      unfold Runs syncConnected addToWalletIfInvolvingMe addToWallet at h
      have hinv : w.involves P tx = .ok true := by
        cases hinvolves : w.involves P tx with
        | error e =>
          rw [hinvolves] at h
          exact absurd h (by simp)
        | ok fInvolved =>
          cases fInvolved with
          | true => rfl
          | false =>
            rw [hinvolves] at h
            have hsome := hmember (P.hashTx tx)
            rw [(updateSpent_spec h).1.isSome, hlookup] at hsome
            exact absurd hsome (by simp)
      simp only [hinv, hlookup] at h
      exact h
    obtain ⟨hsame, hflag⟩ := updateSpent_spec hruns
    -- a new transaction has no flag
    have hflag₁ : ∀ o, w₁.spentFlag o = w.spentFlag o := by
      intro o
      unfold spentFlag
      rw [hw₁]
      simp only [Map.lookup_insert_eq]
      split_ifs with heq
      · rw [heq, hlookup]
        simp
      · rfl
    -- and is the only one
    have hother : ∀ hash, hash ≠ P.hashTx tx → (w'.mapWallet.lookup hash).map CWalletTx.tx =
        (w.mapWallet.lookup hash).map CWalletTx.tx := by
      intro hash hne
      rw [hsame.txs, hw₁]
      simp only [Map.lookup_insert_eq, if_neg hne]
    -- what was there is there, and the flags are those before and those of the inputs
    refine ⟨⟨hsame.isMine, fun hash wtx hwtx => ?_⟩, hother, hself, fun _ => ?_, fun o => ?_⟩
    · have hne : hash ≠ P.hashTx tx := by
        rintro rfl
        rw [hlookup] at hwtx
        exact absurd hwtx (by simp)
      rw [hother hash hne, hwtx]
      rfl
    · unfold CWallet.knows
      rw [hmember]
      simp
    · rw [hflag, hflag₁, hsame.owns]

/-! ### A disconnected coinstake -/

/-- An output with a script is worth something. -/
theorem nValue_pos_of_checkOutputs {fUser : Bool} {vout : List CTxOut} {acc : Int} {u : Unit}
    (h : checkOutputs fUser vout acc = .ok u) :
    ∀ txout ∈ vout, txout.scriptPubKey ≠ [] → 0 < txout.nValue := by
  induction vout generalizing acc with
  | nil => simp
  | cons txout₀ vout ih =>
    simp only [checkOutputs, Result.bind_eq_ok, require_eq_ok] at h
    obtain ⟨-, -, -, hmin, -, -, -, -, hrest⟩ := h
    refine List.forall_mem_cons.mpr ⟨fun hne => ?_, ih hrest⟩
    rw [Bool.or_eq_true, decide_eq_true_eq] at hmin
    rcases hmin with hempty | hmin
    · simp only [CTxOut.isEmpty, Bool.and_eq_true, List.isEmpty_iff] at hempty
      exact absurd hempty.2 hne
    · exact lt_of_lt_of_le (by norm_num [MIN_TXOUT_AMOUNT, MIN_TX_FEE, CENT]) hmin

/-- Every transaction of the wallet has passed `CheckTransaction`. -/
def TxsChecked (w : CWallet) : Prop :=
  ∀ hash wtx, w.mapWallet.lookup hash = some wtx → wtx.tx.checkTransaction = .ok ()

/-- An own output is an output of a wallet transaction. -/
theorem ownOutput_eq_some {txout : CTxOut} (h : w.ownOutput o = some txout) :
    ∃ wtx, w.mapWallet.lookup o.hash = some wtx ∧ wtx.tx.vout[o.n]? = some txout ∧
      w.isMine txout.scriptPubKey = true := by
  unfold ownOutput at h
  split at h
  · exact absurd h (by simp)
  · next wtx hlookup =>
    rw [Option.filter_eq_some_iff] at h
    exact ⟨wtx, hlookup, h⟩

/-- A debit is not negative. -/
theorem getDebitIn_nonneg (hchecked : w.TxsChecked) (txin : CTxIn) : 0 ≤ w.getDebitIn txin := by
  unfold getDebitIn
  cases hown : w.ownOutput txin.prevout with
  | none => exact le_refl _
  | some txout =>
    obtain ⟨wtx, hlookup, hout, -⟩ := ownOutput_eq_some hown
    exact (CTransaction.checked_of_checkTransaction (hchecked _ wtx hlookup)).nValue_nonneg txout
      (List.mem_of_getElem? hout)

/-- The debit of an own output is positive: an output of value zero has an empty script. -/
theorem getDebitIn_pos (hchecked : w.TxsChecked) (hempty : w.isMine [] = false) {txin : CTxIn}
    (howns : w.owns txin.prevout = true) : 0 < w.getDebitIn txin := by
  unfold getDebitIn
  obtain ⟨txout, hown⟩ := Option.isSome_iff_exists.mp howns
  obtain ⟨wtx, hlookup, hout, hmine⟩ := ownOutput_eq_some hown
  rw [hown]
  have hcheck := hchecked _ wtx hlookup
  simp only [CTransaction.checkTransaction, Result.bind_eq_ok, require_eq_ok] at hcheck
  obtain ⟨-, -, -, -, -, -, _, houts, -⟩ := hcheck
  refine nValue_pos_of_checkOutputs houts txout (List.mem_of_getElem? hout) ?_
  intro hnil
  rw [hnil, hempty] at hmine
  exact absurd hmine (by simp)

/-- The loop of `GetDebit` adds the debits. -/
theorem getDebit_loop_eq {vin : List CTxIn} {nDebit v : Int} (h : getDebit.loop w vin nDebit = .ok v) :
    v = nDebit + (vin.map w.getDebitIn).sum := by
  induction vin generalizing nDebit with
  | nil =>
    rw [getDebit.loop] at h
    cases h
    simp
  | cons txin vin ih =>
    rw [getDebit.loop] at h
    split_ifs at h
    rw [ih h, List.map_cons, List.sum_cons]
    ring

/-- A transaction that spends an own output is from the wallet, if the question is answered at all. -/
theorem isOwnSpend_of_owns (hchecked : w.TxsChecked) (hempty : w.isMine [] = false) {fFromMe : Bool}
    (hfrom : w.isFromMe tx = .ok fFromMe) (ho : o ∈ tx.prevouts) (howns : w.owns o = true) :
    w.isOwnSpend tx = true := by
  obtain ⟨txin, htxin, rfl⟩ := List.mem_map.mp ho
  obtain ⟨nDebit, hdebit, hpure⟩ := Result.bind_eq_ok.mp hfrom
  have hsum := getDebit_loop_eq hdebit
  have hle : w.getDebitIn txin ≤ (tx.vin.map w.getDebitIn).sum :=
    List.single_le_sum (fun v hv => by
      obtain ⟨txin', -, rfl⟩ := List.mem_map.mp hv
      exact getDebitIn_nonneg hchecked txin') _ (List.mem_map_of_mem htxin)
  have hpos := getDebitIn_pos hchecked hempty howns
  unfold isOwnSpend
  rw [hfrom]
  cases hpure
  exact decide_eq_true (by omega)

/-- When the calls for a disconnected block return, `IsFromMe` has been answered for its coinstakes. -/
theorem isFromMe_of_disconnected {vtx : List CTransaction} (h : Runs (forList syncDisconnected vtx) w w') :
    ∀ tx ∈ vtx, tx.isCoinStake = true → ∃ fFromMe, w.isFromMe tx = .ok fFromMe := by
  induction vtx generalizing w with
  | nil => simp
  | cons tx₀ vtx ih =>
    obtain ⟨w₁, h₁, h₂⟩ := runs_forList_cons.mp h
    have hsame := (syncDisconnected_spec h₁).1
    refine List.forall_mem_cons.mpr ⟨fun hstake => ?_, fun tx htx hstake => ?_⟩
    · unfold Runs syncDisconnected at h₁
      rw [hstake, if_pos rfl] at h₁
      cases hfrom : w.isFromMe tx₀ with
      | ok fFromMe => exact ⟨fFromMe, rfl⟩
      | error e =>
        rw [hfrom] at h₁
        exact absurd h₁ (by simp)
    · rw [← hsame.isFromMe]
      exact ih h₂ tx htx hstake

/-- What is owned depends on the keys and the transactions. -/
theorem owns_congr (hmine : w'.isMine = w.isMine)
    (htxs : (w'.mapWallet.lookup o.hash).map CWalletTx.tx = (w.mapWallet.lookup o.hash).map CWalletTx.tx) :
    w'.owns o = w.owns o := by
  unfold owns
  rw [ownOutput_eq, ownOutput_eq, htxs, hmine]

/-- What is owned stays owned. -/
theorem Grows.owns (h : Grows w w') (howns : w.owns o = true) : w'.owns o = true := by
  obtain ⟨txout, hown⟩ := Option.isSome_iff_exists.mp howns
  obtain ⟨wtx, hlookup, -⟩ := ownOutput_eq_some hown
  rw [owns_congr h.isMine]
  · exact howns
  · rw [h.txs _ wtx hlookup, hlookup]
    rfl

end CWallet

/-! ### The invariant -/

/-- Nobody owns an output without a script. -/
theorem KeyStore.isMine_nil (P : Params) (keystore : KeyStore) : keystore.isMine P [] = false := by
  unfold KeyStore.isMine KeyStore.isMineLoop
  rfl

/-- The flags of a wallet against the chain `txs`, with the entries of the index and all transactions
that were ever connected. -/
structure FlagInv (P : Params) (keystore : KeyStore) (hasEntry : Uint256 → Prop) (txs : List ConnectedTx)
    (history : List CTransaction) (w : CWallet) : Prop where
  keyed : w.Keyed P
  checked : w.TxsChecked
  mine : w.isMine = keystore.isMine P
  /-- The wallet has every transaction of the chain with an own output. -/
  known : ∀ c ∈ txs, w.isMineTx c.tx = true → w.knows P c.tx = true
  /-- An own output of the chain that is spent is flagged. -/
  spent : ∀ o : COutPoint, hasEntry o.hash → w.owns o = true →
    (∃ c ∈ txs, P.hashTx c.tx = o.hash) → replayTxs P txs o.key = none → w.spentFlag o = true
  /-- A flag was set by a transaction that is still in the chain, or that is no coinstake. -/
  unspent : ∀ o : COutPoint, w.spentFlag o = true → w.owns o = true ∧ ∃ tx ∈ history,
    o ∈ tx.prevouts ∧ (tx.isCoinStake = false ∨ ∃ c ∈ txs, c.tx = tx)

namespace FlagInv

variable {P : Params} {keystore : KeyStore} {hasEntry hasEntry' : Uint256 → Prop} {txs new : List ConnectedTx}
  {history : List CTransaction} {w w' : CWallet}

/-- The empty script is nobody's. -/
theorem empty (h : FlagInv P keystore hasEntry txs history w) : w.isMine [] = false := by
  rw [h.mine]
  exact keystore.isMine_nil P

/-- More entries of the index do no harm. -/
theorem mono (h : FlagInv P keystore hasEntry txs history w) (hentry : ∀ hash, hasEntry' hash → hasEntry hash) :
    FlagInv P keystore hasEntry' txs history w :=
  ⟨h.keyed, h.checked, h.mine, h.known, fun o ho => h.spent o (hentry _ ho), h.unspent⟩

/-- One transaction is connected. -/
theorem connectTx {c : ConnectedTx} (hP : CollisionFree P) (h : FlagInv P keystore hasEntry txs history w)
    (hcheck : c.tx.checkTransaction = .ok ()) (hruns : Runs (CWallet.syncConnected P c.tx) w w') :
    FlagInv P keystore (fun hash => hasEntry hash ∨ hash = P.hashTx c.tx) (txs ++ [c]) (history ++ [c.tx]) w' := by
  obtain ⟨hgrows, hother, hself, hmine, hflag⟩ := CWallet.syncConnected_spec hP h.keyed hruns
  have hkeyed' : w'.Keyed P := (CWallet.keeps_syncConnected c.tx w h.keyed).of_ok hruns
  refine ⟨hkeyed', ?_, ?_, ?_, ?_, ?_⟩
  · -- each wallet transaction has been checked
    intro hash wtx hlookup
    by_cases heq : hash = P.hashTx c.tx
    · subst heq
      rw [hself wtx hlookup]
      exact hcheck
    · have htx := hother hash heq
      rw [hlookup, Option.map_some, eq_comm, Option.map_eq_some_iff] at htx
      obtain ⟨wtx₀, hlookup₀, htx₀⟩ := htx
      rw [← htx₀]
      exact h.checked hash wtx₀ hlookup₀
  · rw [hgrows.isMine]
    exact h.mine
  · -- what is the wallet's own is known
    intro c' hc' hmine'
    have hmine₀ : w.isMineTx c'.tx = true := by
      unfold CWallet.isMineTx at hmine' ⊢
      rw [hgrows.isMine] at hmine'
      exact hmine'
    rcases List.mem_append.mp hc' with hc' | hc'
    · exact hgrows.knows (h.known c' hc' hmine₀)
    · rw [List.mem_singleton.mp hc'] at hmine₀ ⊢
      exact hmine hmine₀
  · -- an own output that is spent in the chain is flagged
    intro o hentry howns hchain hnone
    rw [hflag o]
    rw [replayTxs_concat, Ledger.apply_eq] at hnone
    split_ifs at hnone with hid hspends
    · -- an own output of the transaction itself has just been made
      obtain ⟨txout, hown⟩ := Option.isSome_iff_exists.mp howns
      obtain ⟨wtx, hlookup, hout, -⟩ := CWallet.ownOutput_eq_some hown
      have hhash : o.hash = P.hashTx c.tx := hid
      rw [hhash] at hlookup
      rw [hself wtx hlookup] at hout
      simp [ConnectedTx.ledgerTx, COutPoint.key, hout] at hnone
    · -- the transaction spends it
      have ho : o ∈ c.tx.prevouts := by
        unfold ConnectedTx.ledgerTx at hspends
        split_ifs at hspends
        · exact absurd hspends (by simp)
        · exact mem_keys.mp hspends
      simp [howns, ho]
    · -- it was spent before
      have hne : o.hash ≠ P.hashTx c.tx := hid
      have howns₀ : w.owns o = true := by
        rw [← CWallet.owns_congr hgrows.isMine (hother o.hash hne)]
        exact howns
      have hchain₀ : ∃ c ∈ txs, P.hashTx c.tx = o.hash := by
        obtain ⟨c', hc', hhash⟩ := hchain
        rcases List.mem_append.mp hc' with hc' | hc'
        · exact ⟨c', hc', hhash⟩
        · rw [List.mem_singleton.mp hc'] at hhash
          exact absurd hhash.symm hne
      rw [h.spent o (hentry.resolve_right hne) howns₀ hchain₀ hnone, Bool.true_or]
  · -- a flag that is set comes from a transaction that spends the output
    intro o ho
    rw [hflag o, Bool.or_eq_true, Bool.and_eq_true, decide_eq_true_eq] at ho
    rcases ho with ho | ⟨howns, ho⟩
    · obtain ⟨howns, tx, htx, hin, hor⟩ := h.unspent o ho
      refine ⟨hgrows.owns howns, tx, List.mem_append_left _ htx, hin, hor.imp id ?_⟩
      rintro ⟨c', hc', rfl⟩
      exact ⟨c', List.mem_append_left _ hc', rfl⟩
    · exact ⟨howns, c.tx, by simp, ho, Or.inr ⟨c, by simp, rfl⟩⟩

/-- **A block is connected.** -/
theorem connect (hP : CollisionFree P) (h : FlagInv P keystore hasEntry txs history w)
    (hcheck : ∀ c ∈ new, c.tx.checkTransaction = .ok ())
    (hruns : Runs (forList (CWallet.syncConnected P) (new.map ConnectedTx.tx)) w w') :
    FlagInv P keystore (fun hash => hasEntry hash ∨ hash ∈ new.map (fun c => P.hashTx c.tx)) (txs ++ new)
      (history ++ new.map ConnectedTx.tx) w' := by
  induction new generalizing hasEntry txs history w with
  | nil =>
    cases hruns
    simpa using h
  | cons c new ih =>
    obtain ⟨hc, hnew⟩ := List.forall_mem_cons.mp hcheck
    obtain ⟨w₁, h₁, h₂⟩ := runs_forList_cons.mp hruns
    have hrest := ih (h.connectTx hP hc h₁) hnew h₂
    rw [List.append_assoc, List.append_assoc] at hrest
    refine FlagInv.mono hrest (fun hash hor => ?_)
    rw [List.map_cons, List.mem_cons] at hor
    tauto

/-- **A block is disconnected.** -/
theorem disconnect (h : FlagInv P keystore hasEntry (txs ++ new) history w)
    (hvalid : ValidTxs P (txs ++ new))
    (hruns : Runs (forList CWallet.syncDisconnected (new.map ConnectedTx.tx)) w w') :
    FlagInv P keystore (fun hash => hasEntry hash ∧ hash ∉ new.map (fun c => P.hashTx c.tx)) txs history w' := by
  obtain ⟨hsame, hflag⟩ := CWallet.runs_disconnected hruns
  have hfrom := CWallet.isFromMe_of_disconnected hruns
  refine ⟨?_, ?_, ?_, ?_, ?_, ?_⟩
  · -- flags are no part of what is stored and checked
    intro hash wtx hlookup
    have htx := hsame.txs hash
    rw [hlookup, Option.map_some, eq_comm, Option.map_eq_some_iff] at htx
    obtain ⟨wtx₀, hlookup₀, htx₀⟩ := htx
    rw [← htx₀]
    exact h.keyed hash wtx₀ hlookup₀
  · intro hash wtx hlookup
    have htx := hsame.txs hash
    rw [hlookup, Option.map_some, eq_comm, Option.map_eq_some_iff] at htx
    obtain ⟨wtx₀, hlookup₀, htx₀⟩ := htx
    rw [← htx₀]
    exact h.checked hash wtx₀ hlookup₀
  · rw [hsame.isMine]
    exact h.mine
  · -- what is the wallet's own stays known
    intro c hc hmine
    rw [hsame.knows]
    refine h.known c (List.mem_append_left _ hc) ?_
    unfold CWallet.isMineTx at hmine ⊢
    rw [hsame.isMine] at hmine
    exact hmine
  · -- an own output that is still spent keeps its flag
    rintro o ⟨hentry, hnew⟩ howns ⟨c, hc, hhash⟩ hnone
    -- the block makes no output under this hash, so it cannot spend one either
    have hmakes : ¬∃ c ∈ new, P.hashTx c.tx = o.hash ∧ o.n < c.tx.vout.length := by
      rintro ⟨c', hc', hhash', -⟩
      exact hnew (List.mem_map.mpr ⟨c', hc', hhash'⟩)
    have hbefore : replayTxs P (txs ++ new) o.key = none := by
      by_contra hsome
      rcases isSome_replayTxs_of_append (Option.isSome_iff_ne_none.mpr hsome) with hold | hmade
      · rw [hnone] at hold
        exact absurd hold (by simp)
      · exact hmakes hmade
    rw [hsame.owns] at howns
    have hspent := h.spent o hentry howns ⟨c, List.mem_append_left _ hc, hhash⟩ hbefore
    -- no disconnected coinstake has given it back
    have hkept : w.refunded (new.map ConnectedTx.tx) o = false := by
      rw [CWallet.refunded, List.any_eq_false]
      intro tx htx hrefund
      obtain ⟨c', hc', rfl⟩ := List.mem_map.mp htx
      simp only [Bool.and_eq_true, decide_eq_true_eq] at hrefund
      have hcb := CTransaction.isCoinBase_of_isCoinStake hrefund.1.1
      rcases (hvalid.input_of_mem hc' hcb hrefund.2).2 with hold | hmade
      · rw [hnone] at hold
        exact absurd hold (by simp)
      · exact hmakes hmade
    rw [hflag o, hspent, hkept]
    simp
  · -- a flag that is left has a transaction that spends the output
    intro o ho
    rw [hflag o, Bool.and_eq_true, Bool.not_eq_true'] at ho
    obtain ⟨howns, tx, htx, hin, hor⟩ := h.unspent o ho.1
    rw [hsame.owns]
    refine ⟨howns, tx, htx, hin, ?_⟩
    cases hstake : tx.isCoinStake with
    | false => exact Or.inl rfl
    | true =>
      rcases hor with hno | ⟨c, hc, rfl⟩
      · exact absurd hstake (by simp [hno])
      rcases List.mem_append.mp hc with hc | hc
      · exact Or.inr ⟨c, hc, rfl⟩
      · -- an own coinstake of the block would have taken the flag back
        have hmem : c.tx ∈ new.map ConnectedTx.tx := List.mem_map_of_mem hc
        obtain ⟨fFromMe, hfromMe⟩ := hfrom c.tx hmem hstake
        have hown := CWallet.isOwnSpend_of_owns h.checked h.empty hfromMe hin howns
        have hrefund : w.refunded (new.map ConnectedTx.tx) o = true :=
          List.any_eq_true.mpr ⟨c.tx, hmem, by simp [hstake, hown, hin]⟩
        rw [howns, hrefund] at ho
        exact absurd ho.2 (by simp)

end FlagInv

/-! ### Entries of the index -/

section Entries

open IndexView

variable {P : Params} {env : ConnectEnv} {pindex : CBlockIndex} {pprev : BlockPtr} {fStrict : Bool}
  {st st' : ConnectState} {tx : CTransaction} {k : Uint256}

/-- `ConnectInputs` changes entries and makes none. -/
theorem isSome_of_spendInputs {posThisTx : CDiskTxPos} {vin : List CTxIn} {nIn : ℕ}
    {inputs : MapPrevTx} {mapTestPool mapTestPool' : TxIndexMap}
    (hinputs : ∀ h prev, inputs.lookup h = some prev → (queued mapTestPool env.txIndex h).isSome)
    (h : spendInputs P env tx posThisTx true false fStrict vin nIn inputs mapTestPool
      = .ok mapTestPool') (hk : (queued mapTestPool' env.txIndex k).isSome) :
    (queued mapTestPool env.txIndex k).isSome := by
  induction vin generalizing nIn inputs mapTestPool with
  | nil =>
    cases h
    exact hk
  | cons txin vin ih =>
    simp only [spendInputs, Bool.true_or, if_true, Result.bind_eq_ok, require_eq_ok] at h
    obtain ⟨prev, hprev, -, -, -, -, hrest⟩ := h
    -- the entry of an input exists, so writing it back makes none
    have hhash := hinputs _ _ (getPrev_eq_ok hprev)
    have hstep : ∀ k', (queued (mapTestPool.insert txin.prevout.hash
        (prev.1.spend txin.prevout.n posThisTx)) env.txIndex k').isSome ↔
        (queued mapTestPool env.txIndex k').isSome := by
      intro k'
      rw [queued_insert, Function.update_apply]
      split_ifs with heq
      · simp [heq, hhash]
      · exact Iff.rfl
    refine (hstep k).mp (ih (fun h' prev' hlook => ?_) hrest)
    rw [hstep]
    rw [Map.lookup_insert_eq] at hlook
    split_ifs at hlook with heq
    · rw [heq]
      exact hhash
    · exact hinputs h' prev' hlook

/-- One round of `ConnectBlock` makes the entry of its transaction and no other. -/
theorem isSome_of_connectTransaction (h : connectTransaction P env pindex pprev fStrict st tx = .ok st')
    (hk : (queued st'.mapQueuedChanges env.txIndex k).isSome) :
    (queued st.mapQueuedChanges env.txIndex k).isSome ∨ k = P.hashTx tx := by
  obtain ⟨st₁, hvalue, rfl⟩ := connectTransaction_eq_ok h
  rw [queued_insert, Function.update_apply] at hk
  split_ifs at hk with heq
  · exact Or.inr heq
  refine Or.inl ?_
  unfold connectValue at hvalue
  split_ifs at hvalue with hcb
  · obtain ⟨vout, -, hst⟩ := Result.bind_eq_ok.mp hvalue
    cases hst
    exact hk
  · obtain ⟨inputs, hfetch, -, hspend, -⟩ := connectSpending_eq_ok (Bool.not_eq_true _ ▸ hcb) hvalue
    refine isSome_of_spendInputs (fun h prev hlook => ?_) hspend hk
    rw [(CTransaction.fetchInputs_eq_ok rfl hfetch h prev hlook).1]
    rfl

/-- A connected block adds its own hashes to the index. -/
theorem isSome_of_connectTransactions {vtx : List CTransaction}
    (h : connectTransactions P env pindex pprev fStrict vtx st = .ok st')
    (hk : (queued st'.mapQueuedChanges env.txIndex k).isSome) :
    (queued st.mapQueuedChanges env.txIndex k).isSome ∨ k ∈ vtx.map P.hashTx := by
  induction vtx generalizing st with
  | nil =>
    cases h
    exact Or.inl hk
  | cons tx vtx ih =>
    obtain ⟨st₁, hround, hloop⟩ := Result.bind_eq_ok.mp h
    rw [List.map_cons, List.mem_cons]
    rcases ih hloop with hold | hnew
    · rcases isSome_of_connectTransaction hround hold with hold | hthis
      · exact Or.inl hold
      · exact Or.inr (Or.inl hthis)
    · exact Or.inr (Or.inr hnew)

/-- An entry behind `ConnectBlock` was there before, or is that of a transaction of the block. -/
theorem isSome_of_connectedIndex {H : Host} {g : Globals} {block : CBlock} {txIndex txIndex' : TxIndexMap}
    (h : connectedIndex P H g block pindex pprev txIndex = some txIndex')
    (hk : (txIndex'.lookup k).isSome) : (txIndex.lookup k).isSome ∨ k ∈ block.vtx.map P.hashTx := by
  unfold connectedIndex at h
  split at h
  · exact absurd h (by simp)
  · next st hst =>
    split_ifs at h
    cases h
    simp only [CBlock.connectChecks, Result.bind_eq_ok, require_eq_ok] at hst
    obtain ⟨_, -, -, -, hloop⟩ := hst
    have hqueued : (queued st.mapQueuedChanges txIndex k).isSome := by
      rw [← lookup_writeQueued]
      exact hk
    have hor := isSome_of_connectTransactions hloop hqueued
    rw [queued_empty] at hor
    exact hor

/-- A disconnected block takes its hashes out. -/
theorem isSome_of_disconnectRow {vtx : List CTransaction} {txIndex txIndex' : TxIndexMap}
    (h : disconnectTransactions P vtx txIndex = .ok txIndex') (hk : (txIndex'.lookup k).isSome) :
    (txIndex.lookup k).isSome ∧ k ∉ vtx.map P.hashTx := by
  induction vtx generalizing txIndex with
  | nil =>
    cases h
    exact ⟨hk, by simp⟩
  | cons tx vtx ih =>
    obtain ⟨txIndex₁, hstep, hrest⟩ := Result.bind_eq_ok.mp h
    obtain ⟨hk₁, hnot⟩ := ih hrest
    -- the position of the transaction does not matter here
    obtain ⟨hk₀, hne⟩ := (isSome_disconnectInputs_iff (c := ⟨[], CDiskTxPos.null, tx⟩) hstep k).mp hk₁
    rw [List.map_cons, List.mem_cons, not_or]
    exact ⟨hk₀, hne, hnot⟩

/-- An entry behind `DisconnectBlock` was there before, and is that of no transaction of the block. -/
theorem isSome_of_disconnectedIndex {H : Host} {block : CBlock} {txIndex txIndex' : TxIndexMap}
    (h : disconnectedIndex P H block pindex pprev txIndex = some txIndex')
    (hk : (txIndex'.lookup k).isSome) : (txIndex.lookup k).isSome ∧ k ∉ block.vtx.map P.hashTx := by
  unfold disconnectedIndex at h
  split at h
  · exact absurd h (by simp)
  · next txIndex₁ hindex =>
    split_ifs at h
    cases h
    have hboth := isSome_of_disconnectRow hindex hk
    rw [List.map_reverse, List.mem_reverse] at hboth
    exact hboth

end Entries

/-! ### Runs -/

/-- The tree with the block the index is at, the database with the wallets, and every transaction that
was connected so far. -/
structure SyncState where
  g : Globals
  tip : BlockPtr
  store : Store
  history : List CTransaction

namespace SyncState

/-- One successful call, or something that does not touch the wallets. -/
inductive Step (P : Params) (r : SyncState) : SyncState → Prop where
  /-- `ConnectBlock` of a child of the tip. -/
  | connect {H : Host} {block : CBlock} {pindex : CBlockIndex} {s' : Store}
      (hin : r.g.InTree (pindex :: r.tip))
      (hread : r.g.files.readBlock pindex.nFile pindex.nBlockPos = some block)
      (hcall : block.connectBlock P H r.g pindex r.tip r.store = (.ok (), s')) :
      Step P r { r with tip := pindex :: r.tip, store := s', history := r.history ++ block.vtx }
  /-- `DisconnectBlock` of the tip. -/
  | disconnect {H : Host} {block : CBlock} {pindex : CBlockIndex} {pprev : BlockPtr} {s' : Store}
      (htip : r.tip = pindex :: pprev) (hne : pprev ≠ [])
      (hread : r.g.files.readBlock pindex.nFile pindex.nBlockPos = some block)
      (hcall : block.disconnectBlock P H r.g pindex pprev r.store = (.ok (), s')) :
      Step P r { r with tip := pprev, store := s' }
  /-- The transaction of the database is committed, and the next one begins. -/
  | commit {c d : TxDbData} (hopen : r.store.InTxn c d) :
      Step P r { r with store := { r.store with txdb := ⟨d, [d]⟩ } }
  /-- The tree grows by a block. -/
  | insert {pprev : BlockPtr} {block : CBlock} {files : BlockFiles} {nFile nBlockPos : ℕ}
      {nBestHeight nAdjustedTime nAdjustedTime' : Int}
      (hprev : r.g.mapBlockIndex.lookup block.hashPrevBlock = some pprev)
      (hnew : r.g.mapBlockIndex.lookup (block.getHash P) = none)
      (hcheck : block.checkBlock P nAdjustedTime = .ok ())
      (hcontext : block.acceptBlockContext P nBestHeight nAdjustedTime' pprev = .ok ())
      (hwrite : r.g.files.writeToDisk block = some (files, nFile, nBlockPos)) :
      Step P r { r with g := { r.g with
        files
        mapBlockIndex := r.g.mapBlockIndex.insert (block.getHash P)
          (block.newIndex P pprev nFile nBlockPos :: pprev) } }
  /-- Memory pool, links, best block and the rest may change. -/
  | other {g : Globals} (hmap : g.mapBlockIndex = r.g.mapBlockIndex) (hfiles : g.files = r.g.files) :
      Step P r { r with g }

/-- The states of a node with these wallets, from the genesis block on. -/
inductive Run (P : Params) (ws : List CWallet) : SyncState → Prop where
  | start {H : Host} {n : Node} (hload : loadGenesis P H {} = (.ok (), n)) :
      Run P ws ⟨n.toGlobals, [P.genesisIndex],
        { n.toStore with txdb := n.txdb.txnBegin, wallets := ws }, []⟩
  | step {r r' : SyncState} (hrun : Run P ws r) (hstep : Step P r r') : Run P ws r'

end SyncState

/-- A wallet in step with the genesis block: nothing is spent yet. Its transactions, if it has any, are
under their hashes and have passed `CheckTransaction`. -/
structure CWallet.InStep (P : Params) (w : CWallet) : Prop where
  keyed : w.Keyed P
  checked : w.TxsChecked
  unspent : ∀ o, w.spentFlag o = false

/-- What holds along a run, of the chain and of one wallet. -/
structure SyncState.Inv (P : Params) (keystore : KeyStore) (r : SyncState) (w : CWallet) : Prop where
  tree : r.g.TreeInv P
  store : ∃ c d, r.store.InTxn c d ∧ IndexShows P r.g r.tip d.txIndex ∧
    FlagInv P keystore (fun hash => (d.txIndex.lookup hash).isSome)
      (connectedTxs r.g.files r.tip) r.history w

section Runs

variable {P : Params} {keystore : KeyStore} {ws : List CWallet} {r r' : SyncState} {w w₀ : CWallet}
  {i : ℕ}

/-- The transactions behind an index, and that the index shows them. -/
theorem IndexShows.ledger {g : Globals} {q : BlockPtr} {txIndex : TxIndexMap}
    (h : IndexShows P g q txIndex) : g.InTree q ∧
      IndexOk P g.files (connectedTxs g.files q) txIndex.lookup ∧ ValidTxs P (connectedTxs g.files q) := by
  obtain ⟨c, hreach, hfiles, htree, rfl, rfl⟩ := h
  obtain ⟨htreeInv, hindex, hvalid, -, -⟩ := hreach.inv
  rw [← hfiles]
  exact ⟨(htree _).mp htreeInv.tip_mem, hindex, hvalid⟩

/-- A row of runs, read at one wallet. -/
theorem getElem?_of_forall₂ {α : Type} {R : α → α → Prop} {as bs : List α} {a : α}
    (h : List.Forall₂ R as bs) (ha : as[i]? = some a) : ∃ b, bs[i]? = some b ∧ R a b := by
  obtain ⟨hi, rfl⟩ := List.getElem?_eq_some_iff.mp ha
  have hi' : i < bs.length := by
    rw [← h.length_eq]
    exact hi
  exact ⟨bs[i], List.getElem?_eq_getElem hi', h.get hi hi'⟩

/-- The invariant when the genesis block was loaded. -/
theorem SyncState.Inv.start {H : Host} {n : Node} (hload : loadGenesis P H {} = (.ok (), n))
    (hmine : w.isMine = keystore.isMine P) (hstep : w.InStep P) :
    SyncState.Inv P keystore ⟨n.toGlobals, [P.genesisIndex],
      { n.toStore with txdb := n.txdb.txnBegin, wallets := ws }, []⟩ w := by
  obtain ⟨hglobals, hvTxn, htx, -, -⟩ := (loadGenesis_spec P H).of_ok hload
  -- the index is empty, as genesis is in no index
  have hindex : IndexShows P P.genesisGlobals [P.genesisIndex] ∅ := by
    refine ⟨ChainState.init P, Relation.ReflTransGen.refl, rfl, ?_, rfl, rfl⟩
    intro p
    rw [inTree_genesisGlobals]
    exact List.mem_singleton
  refine ⟨?_, n.txdb.committed, n.txdb.committed, ?_, ?_, ?_⟩
  · rw [hglobals]
    exact genesisGlobals_treeInv P
  · unfold Store.InTxn CTxDB.txnBegin CTxDB.view
    rw [hvTxn]
    rfl
  · rw [hglobals, htx]
    exact hindex
  · -- nothing is connected yet, and no flag is set
    refine ⟨hstep.keyed, hstep.checked, hmine, ?_, ?_, ?_⟩
    · intro c hc
      exact absurd hc (by simp [connectedTxs])
    · intro o _ _ hchain
      simp [connectedTxs] at hchain
    · intro o ho
      exact absurd ho (by simp [hstep.unspent o])

/-- The transactions of a connected block have passed `CheckTransaction`. -/
theorem Globals.TreeInv.checkTransaction {g : Globals} (h : g.TreeInv P) {pindex : CBlockIndex}
    {pprev : BlockPtr} {block : CBlock} (hin : g.InTree (pindex :: pprev)) (hne : pprev ≠ [])
    (hread : g.files.readBlock pindex.nFile pindex.nBlockPos = some block) (nTxPos : ℕ) :
    ∀ c ∈ blockTxs pindex pprev nTxPos block.vtx, c.tx.checkTransaction = .ok () := by
  intro c hc
  obtain ⟨-, nAdjustedTime, hcheck⟩ := h.stored pindex pprev block hin hne hread
  refine CBlock.checkTransaction_of_checkBlock hcheck c.tx ?_
  rw [← map_tx_blockTxs pindex pprev nTxPos block.vtx]
  exact List.mem_map_of_mem hc

/-- The hashes of a block. -/
theorem map_hashTx_blockTxs (P : Params) (pindex : CBlockIndex) (pprev : BlockPtr) (nTxPos : ℕ)
    (vtx : List CTransaction) :
    (blockTxs pindex pprev nTxPos vtx).map (fun c => P.hashTx c.tx) = vtx.map P.hashTx := by
  rw [← map_tx_blockTxs pindex pprev nTxPos vtx, List.map_map, map_tx_blockTxs]
  rfl

/-- **One step keeps the invariant.** -/
theorem SyncState.Inv.step (hP : CollisionFree P) (h : r.Inv P keystore w)
    (hw : r.store.wallets[i]? = some w) (hstep : SyncState.Step P r r') :
    ∃ w', r'.store.wallets[i]? = some w' ∧ r'.Inv P keystore w' := by
  obtain ⟨htree, c, d, hopen, hindex, hflags⟩ := h
  obtain ⟨htip, -, hvalid⟩ := hindex.ledger
  cases hstep with
  -- a block is connected, and the wallet is told of its transactions
  | @connect H block pindex s' hin hread hcall =>
    obtain ⟨d', hopen', -, hconnected, hruns⟩ := (connectBlock_spec _ _ _ hopen).of_ok hcall
    obtain ⟨w', hw', hruns'⟩ := getElem?_of_forall₂ (forall₂_of_runs_forList_forEach hruns) hw
    have hne := htree.ne_nil htip
    refine ⟨w', hw', htree, c, d', hopen', hindex.connect hin hread hconnected, ?_⟩
    rw [connectedTxs_cons pindex hne hread]
    have hnext := hflags.connect hP (htree.checkTransaction hin hne hread
      (StoredBlock.firstTxPos ⟨pindex.nFile, pindex.nBlockPos, block⟩)) (by
        rw [map_tx_blockTxs]
        exact hruns')
    rw [map_tx_blockTxs, map_hashTx_blockTxs] at hnext
    exact hnext.mono (fun hash hsome => isSome_of_connectedIndex hconnected hsome)
  -- a block is disconnected, and the wallet is told of its coinstake
  | @disconnect H block pindex pprev s' htip' hne hread hcall =>
    rw [htip'] at hindex hflags hvalid
    rw [connectedTxs_cons pindex hne hread] at hflags hvalid
    obtain ⟨d', hopen', -, hdisconnected, hruns⟩ := (disconnectBlock_spec _ _ _ hopen).of_ok hcall
    obtain ⟨w', hw', hruns'⟩ := getElem?_of_forall₂ (forall₂_of_runs_forList_forEach hruns) hw
    refine ⟨w', hw', htree, c, d', hopen', hindex.disconnect hne hread hdisconnected, ?_⟩
    have hnext := hflags.disconnect hvalid (by
      rw [map_tx_blockTxs]
      exact hruns')
    rw [map_hashTx_blockTxs] at hnext
    exact hnext.mono (fun hash hsome => isSome_of_disconnectedIndex hdisconnected hsome)
  -- what was read is now committed
  | @commit c' d' hopen' =>
    cases hopen.symm.trans hopen'
    exact ⟨w, hw, htree, d, d, rfl, hindex, hflags⟩
  | @insert pprev block files nFile nBlockPos _ _ _ hprev hnew hcheck hcontext hwrite =>
    refine ⟨w, hw, htree.insert hprev hnew hcheck hcontext hwrite, c, d, hopen,
      hindex.insert htree hprev hnew hcheck hcontext hwrite, ?_⟩
    -- the blocks of the chain stay where they are
    change FlagInv P keystore _ (connectedTxs files r.tip) r.history w
    rw [(htree.treeOk _ htip).connectedTxs_mono (htree.files.writeToDisk hwrite)
      (ChainState.writeToDisk_sub hwrite)]
    exact hflags
  -- neither the tree nor the files change
  | @other g hmap hfiles =>
    refine ⟨w, hw, htree.congr hmap hfiles, c, d, hopen, hindex.congr hmap hfiles, ?_⟩
    change FlagInv P keystore _ (connectedTxs g.files r.tip) r.history w
    rw [hfiles]
    exact hflags

/-- And in every state of a run, by induction on the run. -/
theorem SyncState.Run.inv (hP : CollisionFree P) (hw₀ : ws[i]? = some w₀)
    (hmine : w₀.isMine = keystore.isMine P) (hstep : w₀.InStep P) (hrun : SyncState.Run P ws r) :
    ∃ w, r.store.wallets[i]? = some w ∧ r.Inv P keystore w := by
  induction hrun with
  | start hload => exact ⟨w₀, hw₀, SyncState.Inv.start hload hmine hstep⟩
  | step _ hstep' ih =>
    obtain ⟨w, hw, hinv⟩ := ih
    exact hinv.step hP hw hstep'

/-- An own output of a wallet transaction. -/
theorem CWallet.owns_of_lookup {hash : Uint256} {wtx : CWalletTx} {n : ℕ} {txout : CTxOut}
    (hlookup : w.mapWallet.lookup hash = some wtx) (hout : wtx.tx.vout[n]? = some txout)
    (hmine : w.isMine txout.scriptPubKey = true) : w.owns ⟨hash, n⟩ = true := by
  unfold CWallet.owns CWallet.ownOutput
  rw [hlookup]
  simp [hout, hmine]

/-- `IsSpent` reads the flag of the output. -/
theorem CWallet.isSpent_eq {hash : Uint256} {wtx : CWalletTx} {n : ℕ} {txout : CTxOut}
    (hlookup : w.mapWallet.lookup hash = some wtx) (hout : wtx.tx.vout[n]? = some txout) :
    wtx.isSpent n = .ok (w.spentFlag ⟨hash, n⟩) := by
  have hlt : n < wtx.tx.vout.length := (List.getElem?_eq_some_iff.mp hout).1
  unfold CWalletTx.isSpent CWallet.spentFlag
  simp only [hlookup]
  rw [if_neg (not_le.mpr hlt), decide_eq_true hlt, Bool.true_and]

/-- An output whose mark in the index is set is not on the ledger. -/
theorem IndexOk.replayTxs_eq_none {files : BlockFiles} {txs : List ConnectedTx} {txIndex : TxIndexMap}
    (h : IndexOk P files txs txIndex.lookup) {o : COutPoint} {txindex : CTxIndex} {pos : CDiskTxPos}
    (hlookup : txIndex.lookup o.hash = some txindex) (hpos : txindex.vSpent[o.n]? = some pos)
    (hnull : pos.isNull = false) :
    (∃ c ∈ txs, P.hashTx c.tx = o.hash) ∧ replayTxs P txs o.key = none := by
  constructor
  · obtain ⟨c, hlatest, -⟩ := h.entry o.hash txindex hlookup
    refine ⟨c, mem_of_latestTx hlatest, ?_⟩
    exact Ledger.id_of_latest hlatest
  · rw [← h.unspent_eq]
    unfold IndexView.unspent IndexView.nullAt COutPoint.key
    simp [hlookup, hpos, hnull]

/-- **The spent flags follow the chain.** After every sequence of successful calls of `ConnectBlock` and
`DisconnectBlock`, for every transaction of a wallet that started in step with genesis, and every own
output of it: when the index has the output as spent, it is flagged; and when it was spent in the run
only by coinstakes that are disconnected, it is not. -/
theorem SyncState.Run.flags_follow (hP : CollisionFree P) (hw₀ : ws[i]? = some w₀)
    (hmine : w₀.isMine = keystore.isMine P) (hstep : w₀.InStep P) (hrun : SyncState.Run P ws r) :
    ∃ w, r.store.wallets[i]? = some w ∧ w.isMine = keystore.isMine P ∧
      ∀ hash wtx n txout, w.mapWallet.lookup hash = some wtx → wtx.tx.vout[n]? = some txout →
        w.isMine txout.scriptPubKey = true →
        (∀ txindex pos, r.store.txdb.view.txIndex.lookup hash = some txindex →
          txindex.vSpent[n]? = some pos → pos.isNull = false → wtx.isSpent n = .ok true) ∧
        ((∀ tx ∈ r.history, ⟨hash, n⟩ ∈ tx.prevouts → tx.isCoinStake = true ∧
            ∀ c ∈ connectedTxs r.g.files r.tip, c.tx ≠ tx) → wtx.isSpent n = .ok false) := by
  obtain ⟨w, hw, -, c, d, hopen, hindex, hflags⟩ := hrun.inv hP hw₀ hmine hstep
  refine ⟨w, hw, hflags.mine, ?_⟩
  intro hash wtx n txout hlookup hout hown
  have howns := CWallet.owns_of_lookup hlookup hout hown
  rw [CWallet.isSpent_eq hlookup hout]
  constructor
  · intro txindex pos hentry hpos hnull
    -- an output that the index has as spent is one of the chain, and spent there
    rw [hopen.view] at hentry
    obtain ⟨hchain, hnone⟩ := hindex.ledger.2.1.replayTxs_eq_none (o := ⟨hash, n⟩) hentry hpos hnull
    have hsome : (d.txIndex.lookup hash).isSome := by
      rw [hentry]
      rfl
    rw [hflags.spent ⟨hash, n⟩ hsome howns hchain hnone]
  · intro hstakes
    cases hflag : w.spentFlag ⟨hash, n⟩ with
    | false => rfl
    | true =>
      -- a flag has a reason: a transaction of the run that is no coinstake or that is connected
      obtain ⟨-, tx, htx, hin, hor⟩ := hflags.unspent ⟨hash, n⟩ hflag
      obtain ⟨hstake, hgone⟩ := hstakes tx htx hin
      rcases hor with hno | ⟨c', hc', heq⟩
      · exact absurd hstake (by simp [hno])
      · exact absurd heq (hgone c' hc')

end Runs

/-! ### A wallet that is paid -/

/-- A block arrives on the tip and is connected: two steps, computed. -/
def SyncState.extend (P : Params) (H : Host) (block : CBlock) (r : SyncState) : Option SyncState :=
  match r.g.files.writeToDisk block with
  | none => none
  | some (files, nFile, nBlockPos) =>
    let pindex := block.newIndex P r.tip nFile nBlockPos
    let g := { r.g with
      files, mapBlockIndex := r.g.mapBlockIndex.insert (block.getHash P) (pindex :: r.tip) }
    if r.g.mapBlockIndex.lookup block.hashPrevBlock = some r.tip ∧
        r.g.mapBlockIndex.lookup (block.getHash P) = none ∧
        files.readBlock nFile nBlockPos = some block then
      match block.checkBlock P H.nAdjustedTime,
        block.acceptBlockContext P r.g.nBestHeight H.nAdjustedTime r.tip,
        block.connectBlock P H g pindex r.tip r.store with
      | .ok (), .ok (), (.ok (), store) => some ⟨g, pindex :: r.tip, store, r.history ++ block.vtx⟩
      | _, _, _ => none
    else none

/-- A block that extends the chain is a step. -/
theorem SyncState.Run.extend {P : Params} {H : Host} {ws : List CWallet} {r r' : SyncState}
    {block : CBlock} (h : SyncState.Run P ws r) (hext : r.extend P H block = some r') :
    SyncState.Run P ws r' := by
  unfold SyncState.extend at hext
  split at hext
  · exact absurd hext (by simp)
  · next files nFile nBlockPos hwrite =>
    simp only at hext
    split_ifs at hext with hcond
    obtain ⟨hprev, hnew, hread⟩ := hcond
    split at hext
    · next store hcheck hcontext hcall =>
      cases hext
      refine (h.step (.insert hprev hnew hcheck hcontext hwrite)).step (.connect ?_ hread hcall)
      exact AList.lookup_insert _
    · exact absurd hext (by simp)

namespace Sample

/-- The wallet with the key of `keyScript`, and nothing else yet. -/
def paidWallet (P : Params) : CWallet where
  isMine := KeyStore.isMine P (KeyStore.addKey P {} (List.replicate 33 2))

/-- The next block of the chain, `n` seconds after genesis, arrives and is connected. -/
def connectNext (n : ℕ) (vtx : List CTransaction) (r : SyncState) : Option SyncState :=
  r.extend (listParams [rival]) host
    { blockOn r.tip n vtx with
      hashMerkleRoot := CBlock.merkleRoot (listParams [rival]) vtx.length (vtx.map (listHash [rival]))
      nBits := getNextTargetRequired (listParams [rival]) r.tip false }

/-- `n` blocks, each of which pays the wallet. -/
def paidState : ℕ → Option SyncState
  | 0 =>
    let n := (loadGenesis (listParams [rival]) host {}).2
    some ⟨n.toGlobals, [(listParams [rival]).genesisIndex],
      { n.toStore with txdb := n.txdb.txnBegin, wallets := [paidWallet (listParams [rival])] }, []⟩
  | n + 1 => (paidState n).bind (connectNext (n + 1) [coinBase (n + 1)])

/-- The coinbase of the first block has matured, and is spent in block 61. -/
def spentState : Option SyncState := (paidState 60).bind (connectNext 61 [coinBase 61, rival])

/-- The genesis block of the sample chain can be connected. -/
theorem loadGenesis_rival : (loadGenesis (listParams [rival]) host {}).1 = .ok () := rfl

/-- The sample chain of coinbases is a run. -/
theorem run_paidState {n : ℕ} {r : SyncState} (h : paidState n = some r) :
    SyncState.Run (listParams [rival]) [paidWallet (listParams [rival])] r := by
  induction n generalizing r with
  | zero =>
    cases h
    exact SyncState.Run.start (H := host) (Prod.ext loadGenesis_rival rfl)
  | succ n ih =>
    obtain ⟨r₀, hr₀, hext⟩ := Option.bind_eq_some_iff.mp h
    exact (ih hr₀).extend hext

/-- And so is the one that ends with a spend. -/
theorem run_spentState {r : SyncState} (h : spentState = some r) :
    SyncState.Run (listParams [rival]) [paidWallet (listParams [rival])] r := by
  obtain ⟨r₀, hr₀, hext⟩ := Option.bind_eq_some_iff.mp h
  exact (run_paidState hr₀).extend hext

/-- The wallet has the coinbases of blocks 1 and 2. In the index the output of the first one is spent, by the only
transaction of the run that spends something. -/
theorem wallet_spentState : spentState.map (fun r =>
    ((r.store.wallets[0]?).map (fun w => ((w.mapWallet.lookup (listHash [rival] (coinBase 1))).map CWalletTx.tx,
        (w.mapWallet.lookup (listHash [rival] (coinBase 2))).map CWalletTx.tx)),
      (r.store.txdb.view.txIndex.lookup (listHash [rival] (coinBase 1))).map
        (fun txindex => txindex.vSpent.map CDiskTxPos.isNull),
      r.history.all (fun tx => decide (⟨listHash [rival] (coinBase 2), 0⟩ ∉ tx.prevouts)))) =
    some (some (some (coinBase 1), some (coinBase 2)), some [false], true) := by
  decide +kernel

end Sample

/-- The output that was spent is flagged, the other one is not. -/
theorem flags_follow_spentState : ∃ r w wtx wtx', Sample.spentState = some r ∧ r.store.wallets[0]? = some w ∧
    w.mapWallet.lookup (Sample.listHash [Sample.rival] (Sample.coinBase 1)) = some wtx ∧
    w.mapWallet.lookup (Sample.listHash [Sample.rival] (Sample.coinBase 2)) = some wtx' ∧
    wtx.isSpent 0 = .ok true ∧ wtx'.isSpent 0 = .ok false := by
  obtain ⟨r, hr, heq⟩ := Option.map_eq_some_iff.mp Sample.wallet_spentState
  obtain ⟨hwallet, hindex, hhistory⟩ : _ ∧ _ ∧ _ := by simpa only [Prod.mk.injEq] using heq
  obtain ⟨w, hw, htxs⟩ := Option.map_eq_some_iff.mp hwallet
  obtain ⟨htx, htx'⟩ := Prod.mk.inj htxs
  obtain ⟨wtx, hlookup, hcoinBase⟩ := Option.map_eq_some_iff.mp htx
  obtain ⟨wtx', hlookup', hcoinBase'⟩ := Option.map_eq_some_iff.mp htx'
  obtain ⟨txindex, hentry, hspent⟩ := Option.map_eq_some_iff.mp hindex
  obtain ⟨pos, rest, hvSpent, hnull, -⟩ := List.map_eq_cons_iff.mp hspent
  have hstep : (Sample.paidWallet (Sample.listParams [Sample.rival])).InStep (Sample.listParams [Sample.rival]) :=
    ⟨fun hash wtx h => absurd h (by simp [Sample.paidWallet]),
      fun hash wtx h => absurd h (by simp [Sample.paidWallet]), fun _ => rfl⟩
  obtain ⟨w', hw', hmine, hall⟩ := SyncState.Run.flags_follow (i := 0)
    (Sample.listParams_collisionFree [Sample.rival]) rfl rfl hstep (Sample.run_spentState hr)
  cases hw.symm.trans hw'
  have hown : w.isMine Sample.keyScript = true := by
    rw [hmine]
    decide +kernel
  refine ⟨r, w, wtx, wtx', hr, hw, hlookup, hlookup', ?_, ?_⟩
  · have hout : wtx.tx.vout[0]? = some ⟨2000000, Sample.keyScript⟩ := by
      rw [hcoinBase]
      rfl
    refine (hall _ _ 0 _ hlookup hout hown).1 txindex pos hentry ?_ hnull
    rw [hvSpent]
    rfl
  · have hout : wtx'.tx.vout[0]? = some ⟨2000000, Sample.keyScript⟩ := by
      rw [hcoinBase']
      rfl
    -- no transaction of the run spends it
    refine (hall _ _ 0 _ hlookup' hout hown).2 fun tx htx ho => ?_
    exact absurd ho (of_decide_eq_true (List.all_eq_true.mp hhistory tx htx))

end Peershares
