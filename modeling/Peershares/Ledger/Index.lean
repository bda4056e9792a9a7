import Peershares.Framework.Utxo
import Peershares.Model.Connect

/-!
# The transaction index as a ledger

The unspent outputs an index shows (`IndexView.unspent`), and what the loops of `FetchInputs`,
`ConnectInputs` and `DisconnectInputs` do to it. An index is read here as the function its lookup
is; while a block is connected, that is the queue of changes in front of the database
(`IndexView.queued`).

* `fetchInputs_eq_ok`, `checkInputs_eq_ok`, `spendInputs_eq_ok` — what a success of each loop says
* `unspendInputs_eq_ok` — the same for the undo
* `IndexView.Marked` — the only thing the loops change is which outputs are marked as spent
-/

open Framework

namespace Peershares

/-- The outpoint as a ledger names it. -/
def COutPoint.key (o : COutPoint) : Uint256 × ℕ := (o.hash, o.n)

/-- An output point is its key. -/
theorem COutPoint.key_injective : Function.Injective COutPoint.key := by
  rintro ⟨hash, n⟩ ⟨hash', n'⟩ h
  cases h
  rfl

/-- The outpoints of a row of inputs. -/
def keys (vin : List CTxIn) : List (Uint256 × ℕ) := vin.map (fun txin => txin.prevout.key)

/-- The keys of one more input. -/
@[simp] theorem keys_cons (txin : CTxIn) (vin : List CTxIn) :
    keys (txin :: vin) = txin.prevout.key :: keys vin := rfl

/-- The keys of a transaction. -/
theorem keys_vin (tx : CTransaction) : keys tx.vin = tx.prevouts.map COutPoint.key := by
  simp [keys, CTransaction.prevouts, Function.comp_def]

/-- An output with the transaction that made it and where that is stored. -/
structure Coin where
  tx : CTransaction
  pos : CDiskTxPos
  txout : CTxOut
deriving DecidableEq, Repr

def Coin.nValue (c : Coin) : Int := c.txout.nValue

/-- A transaction index, as lookups see it. -/
abbrev IndexView := Uint256 → Option CTxIndex

namespace IndexView

variable {L L' L'' : IndexView} {h : Uint256} {e : CTxIndex} {n : ℕ} {pos : CDiskTxPos}

def posOf (L : IndexView) (h : Uint256) : Option CDiskTxPos := (L h).map CTxIndex.pos

/-- How many outputs the entry of a transaction has. -/
def outputsOf (L : IndexView) (h : Uint256) : Option ℕ := (L h).map (fun e => e.vSpent.length)

/-- The index has an entry for the output, and it is not marked as spent. -/
def nullAt (L : IndexView) (o : Uint256 × ℕ) : Bool :=
  (L o.1).any (fun e => (e.vSpent[o.2]?).any CDiskTxPos.isNull)

/-- The output `n` of the transaction stored at `pos`. -/
def coinAt (files : BlockFiles) (pos : CDiskTxPos) (n : ℕ) : Option Coin :=
  (files.readTx pos).bind (fun tx => (tx.vout[n]?).map (fun txout => ⟨tx, pos, txout⟩))

/-- The unspent outputs of an index. -/
def unspent (files : BlockFiles) (L : IndexView) : Ledger Uint256 Coin := fun o =>
  if L.nullAt o then (L.posOf o.1).bind (fun pos => coinAt files pos o.2) else none

/-- The index behind a queue of changes. -/
def queued (mapTestPool txIndex : TxIndexMap) : IndexView := fun h =>
  (mapTestPool.lookup h).or (txIndex.lookup h)

/-! ### Single changes -/

/-- Spending an output does not move the transaction. -/
theorem posOf_update_spend (hL : L h = some e) :
    posOf (Function.update L h (some (e.spend n pos))) = L.posOf := by
  funext h'
  by_cases heq : h' = h
  · subst heq
    simp [posOf, hL, CTxIndex.spend]
  · simp [posOf, Function.update_of_ne heq]

/-- Nor does it change its outputs. -/
theorem outputsOf_update_spend (hL : L h = some e) :
    outputsOf (Function.update L h (some (e.spend n pos))) = L.outputsOf := by
  funext h'
  by_cases heq : h' = h
  · subst heq
    simp [outputsOf, hL, CTxIndex.spend]
  · simp [outputsOf, Function.update_of_ne heq]

/-- It marks the one output. -/
theorem nullAt_update_spend (hL : L h = some e) (hn : n < e.vSpent.length) (o : Uint256 × ℕ) :
    nullAt (Function.update L h (some (e.spend n pos))) o =
      if o = (h, n) then pos.isNull else L.nullAt o := by
  obtain ⟨h', n'⟩ := o
  by_cases heq : h' = h
  · subst heq
    by_cases hnn : n' = n
    · subst hnn
      simp [nullAt, CTxIndex.spend, hn]
    · simp [nullAt, CTxIndex.spend, hL, hnn, List.getElem?_set_ne (Ne.symm hnn)]
  · simp [nullAt, heq]

/-- An unspent output is one of the transaction. -/
theorem nullAt_lt (hL : L h = some e) (hnull : L.nullAt (h, n) = true) : n < e.vSpent.length := by
  simp only [nullAt, hL, Option.any_some] at hnull
  by_contra hc
  rw [List.getElem?_eq_none (by omega)] at hnull
  exact absurd hnull (by simp)

/-- `L'` is `L` with the outputs `os` marked, as not spent if `fNull` and as spent if not. -/
structure Marked (L L' : IndexView) (os : List (Uint256 × ℕ)) (fNull : Bool) : Prop where
  posOf_eq : L'.posOf = L.posOf
  outputsOf_eq : L'.outputsOf = L.outputsOf
  nullAt_eq : ∀ o, L'.nullAt o = if o ∈ os then fNull else L.nullAt o

/-- Nothing marked. -/
theorem Marked.nil (fNull : Bool) : Marked L L [] fNull := ⟨rfl, rfl, fun o => by simp⟩

/-- One more output marked. -/
theorem Marked.cons {os : List (Uint256 × ℕ)} {fNull : Bool} (hL : L h = some e)
    (hn : n < e.vSpent.length) (hpos : pos.isNull = fNull)
    (hrest : Marked (Function.update L h (some (e.spend n pos))) L' os fNull) :
    Marked L L' ((h, n) :: os) fNull := by
  refine ⟨hrest.posOf_eq.trans (posOf_update_spend hL),
    hrest.outputsOf_eq.trans (outputsOf_update_spend hL), fun o => ?_⟩
  rw [hrest.nullAt_eq, nullAt_update_spend hL hn, hpos]
  by_cases heq : o = (h, n)
  · simp [heq]
  · simp [heq]

/-- What is queued hides what is in the database. -/
theorem queued_insert (mapTestPool txIndex : TxIndexMap) (h : Uint256) (e : CTxIndex) :
    queued (mapTestPool.insert h e) txIndex =
      Function.update (queued mapTestPool txIndex) h (some e) := by
  funext h'
  rw [queued, Map.lookup_insert_eq, Function.update_apply]
  split_ifs
  · rfl
  · rfl

/-- With nothing queued the database is seen. -/
theorem queued_empty (txIndex : TxIndexMap) : queued ∅ txIndex = txIndex.lookup := by
  funext h
  simp [queued]

/-- When the queue is written, the database shows it. -/
theorem lookup_writeQueued (st : ConnectState) (txIndex : TxIndexMap) :
    (st.writeQueued txIndex).lookup = queued st.mapQueuedChanges txIndex := by
  funext h
  exact Map.lookup_union _ _ h

end IndexView

open IndexView

/-! ### `FetchInputs` -/

/-- An entry with its transaction, as `FetchInputs` finds them. -/
def Fetched (env : ConnectEnv) (L : IndexView) (h : Uint256) (prev : CTxIndex × CTransaction) :
    Prop :=
  L h = some prev.1 ∧
    (prev.1.pos ≠ CDiskTxPos.inMempool → env.files.readTx prev.1.pos = some prev.2)

/-- An input that was fetched has its entry and its transaction. -/
theorem fetchPrev_eq_ok {env : ConnectEnv} {mapTestPool : TxIndexMap} {fBlock fMiner : Bool}
    {h : Uint256} {prev : CTxIndex × CTransaction} (hbm : (fBlock || fMiner) = true)
    (hf : fetchPrev env mapTestPool fBlock fMiner h = .ok prev) :
    Fetched env (queued mapTestPool env.txIndex) h prev := by
  unfold fetchPrev fetchIndex at hf
  simp only [hbm, if_true] at hf
  split at hf
  · exact absurd hf (by simp)
  · next txindex hindex =>
    split_ifs at hf with hpool
    · split at hf
      · exact absurd hf (by simp)
      · cases hf
        exact ⟨hindex, fun hne => absurd hpool hne⟩
    · split at hf
      · exact absurd hf (by simp)
      · next txPrev hread =>
        cases hf
        exact ⟨hindex, fun _ => hread⟩

/-- What holds of every entry `FetchInputs` looks up holds of all it returns. -/
theorem fetchLoop_forall {env : ConnectEnv} {mapTestPool : TxIndexMap} {fBlock fMiner : Bool}
    {vin : List CTxIn} {inputs inputs' : MapPrevTx} {R : Uint256 → CTxIndex × CTransaction → Prop}
    (hfetch : ∀ h prev, fetchPrev env mapTestPool fBlock fMiner h = .ok prev → R h prev)
    (hinv : ∀ h prev, inputs.lookup h = some prev → R h prev)
    (hf : fetchLoop env mapTestPool fBlock fMiner vin inputs = .ok inputs') :
    ∀ h prev, inputs'.lookup h = some prev → R h prev := by
  induction vin generalizing inputs with
  | nil =>
    cases hf
    exact hinv
  | cons txin vin ih =>
    rw [fetchLoop] at hf
    split at hf
    · -- the transaction is fetched already
      exact ih hinv hf
    · -- it is looked up, and put with the others
      obtain ⟨prev, hprev, hrest⟩ := Result.bind_eq_ok.mp hf
      refine ih (fun h prev' hlook => ?_) hrest
      rw [Map.lookup_insert_eq] at hlook
      split_ifs at hlook with heq
      · cases hlook
        rw [heq]
        exact hfetch _ _ hprev
      · exact hinv h prev' hlook

/-- What holds of everything fetched holds of the result of `FetchInputs`. -/
theorem CTransaction.fetchInputs_forall {env : ConnectEnv} {mapTestPool : TxIndexMap}
    {fBlock fMiner : Bool} {tx : CTransaction} {inputs : MapPrevTx}
    {R : Uint256 → CTxIndex × CTransaction → Prop}
    (hfetch : ∀ h prev, fetchPrev env mapTestPool fBlock fMiner h = .ok prev → R h prev)
    (hf : tx.fetchInputs env mapTestPool fBlock fMiner = .ok inputs) :
    ∀ h prev, inputs.lookup h = some prev → R h prev := by
  unfold CTransaction.fetchInputs at hf
  have hnil : ∀ h prev, (∅ : MapPrevTx).lookup h = some prev → R h prev := by
    intro h prev hlook
    rw [Map.lookup_empty] at hlook
    exact absurd hlook (by simp)
  split_ifs at hf with hcb
  · cases hf
    exact hnil
  · simp only [Result.bind_eq_ok, require_eq_ok] at hf
    obtain ⟨inputs', hloop, -, -, hpure⟩ := hf
    cases hpure
    exact fetchLoop_forall hfetch hnil hloop

/-- All inputs `FetchInputs` returns are entries of the index in front of it. -/
theorem CTransaction.fetchInputs_eq_ok {env : ConnectEnv} {mapTestPool : TxIndexMap}
    {fBlock fMiner : Bool} {tx : CTransaction} {inputs : MapPrevTx}
    (hbm : (fBlock || fMiner) = true)
    (hf : tx.fetchInputs env mapTestPool fBlock fMiner = .ok inputs) :
    ∀ h prev, inputs.lookup h = some prev →
      Fetched env (queued mapTestPool env.txIndex) h prev :=
  fetchInputs_forall (fun _ _ => fetchPrev_eq_ok hbm) hf

/-! ### `ConnectInputs` -/

/-- The value of an input. -/
def inputValue (inputs : MapPrevTx) (txin : CTxIn) : Int :=
  ((inputs.lookup txin.prevout.hash).bind (fun prev => prev.2.vout[txin.prevout.n]?)).elim 0
    CTxOut.nValue

/-- The output found has the value of the input. -/
theorem getOutputFor_eq_ok {txin : CTxIn} {inputs : MapPrevTx} {txout : CTxOut}
    (h : getOutputFor txin inputs = .ok txout) : txout.nValue = inputValue inputs txin := by
  unfold getOutputFor at h
  split at h
  · exact absurd h (by simp)
  · next prev hprev =>
    split at h
    · exact absurd h (by simp)
    · next out hout =>
      cases h
      simp [inputValue, hprev, hout]

/-- And so have all of them. -/
theorem mapM_getOutputFor_eq_ok {inputs : MapPrevTx} {vin : List CTxIn} {outs : List CTxOut}
    (h : vin.mapM (fun txin => getOutputFor txin inputs) = .ok outs) :
    outs.map CTxOut.nValue = vin.map (inputValue inputs) := by
  induction vin generalizing outs with
  | nil =>
    cases h
    rfl
  | cons txin vin ih =>
    rw [List.mapM_cons] at h
    obtain ⟨txout, htxout, hrest⟩ := Result.bind_eq_ok.mp h
    obtain ⟨outs', houts', hpure⟩ := Result.bind_eq_ok.mp hrest
    cases hpure
    rw [List.map_cons, List.map_cons, ih houts', getOutputFor_eq_ok htxout]

/-- `GetValueIn` is the sum of the input values. -/
theorem CTransaction.getValueIn_eq_ok {tx : CTransaction} {inputs : MapPrevTx} {v : Int}
    (hcb : tx.isCoinBase = false) (h : tx.getValueIn inputs = .ok v) :
    v = (tx.vin.map (inputValue inputs)).sum := by
  unfold CTransaction.getValueIn at h
  rw [if_neg (by simp [hcb])] at h
  obtain ⟨outs, houts, hpure⟩ := Result.bind_eq_ok.mp h
  cases hpure
  rw [mapM_getOutputFor_eq_ok houts]

/-- What the first loop of `ConnectInputs` checks of an input. -/
structure InputOk (P : Params) (pindexBlock : BlockPtr) (tx : CTransaction) (inputs : MapPrevTx)
    (txin : CTxIn) (prev : CTxIndex × CTransaction) (txout : CTxOut) : Prop where
  prev_eq : inputs.lookup txin.prevout.hash = some prev
  out_eq : prev.2.vout[txin.prevout.n]? = some txout
  lt : txin.prevout.n < prev.1.vSpent.length
  mature : prev.2.isGenerated = true →
    isImmature P pindexBlock.nHeight prev.1.pos pindexBlock = false
  nTime_le : prev.2.nTime ≤ tx.nTime

/-- An input that was found was fetched. -/
theorem getPrev_eq_ok {inputs : MapPrevTx} {prevout : COutPoint} {prev : CTxIndex × CTransaction}
    (h : getPrev inputs prevout = .ok prev) : inputs.lookup prevout.hash = some prev := by
  unfold getPrev at h
  split at h
  · exact absurd h (by simp)
  · next p hp =>
    cases h
    exact hp

/-- Its output lies inside both rows. -/
theorem getPrevOut_eq_ok {prev : CTxIndex × CTransaction} {prevout : COutPoint} {txout : CTxOut}
    (h : getPrevOut prev prevout = .ok txout) :
    prev.2.vout[prevout.n]? = some txout ∧ prevout.n < prev.1.vSpent.length := by
  unfold getPrevOut at h
  split at h
  · exact absurd h (by simp)
  · next out hout =>
    split_ifs at h with hlt
    cases h
    exact ⟨hout, hlt⟩

/-- The first loop of `ConnectInputs`, when it is passed. -/
theorem checkInputs_eq_ok {P : Params} {pindexBlock : BlockPtr} {tx : CTransaction}
    {inputs : MapPrevTx} {vin : List CTxIn} {acc v : Int}
    (h : checkInputs P pindexBlock tx inputs vin acc = .ok v) :
    (∀ txin ∈ vin, ∃ prev txout, InputOk P pindexBlock tx inputs txin prev txout) ∧
      v = acc + (vin.map (inputValue inputs)).sum := by
  induction vin generalizing acc with
  | nil =>
    cases h
    simp
  | cons txin vin ih =>
    simp only [checkInputs, Result.bind_eq_ok, require_eq_ok] at h
    -- the tests of one input, and then the rest of the loop
    obtain ⟨prev, hprev, txout, hout, -, hmature, -, htime, -, -, hrest⟩ := h
    have hlook := getPrev_eq_ok hprev
    obtain ⟨hvout, hlt⟩ := getPrevOut_eq_ok hout
    obtain ⟨hall, hv⟩ := ih hrest
    refine ⟨List.forall_mem_cons.mpr ⟨⟨prev, txout, hlook, hvout, hlt, fun hgen => ?_,
      of_decide_eq_true htime⟩, hall⟩, ?_⟩
    · rw [hgen] at hmature
      simpa using hmature
    · have hvalue : inputValue inputs txin = txout.nValue := by
        simp [inputValue, hlook, hvout]
      rw [hv, List.map_cons, List.sum_cons, hvalue]
      ring

/-- The second loop of `ConnectInputs` marks the outputs as spent, and each was unspent before. -/
theorem spendInputs_eq_ok {P : Params} {env : ConnectEnv} {tx : CTransaction}
    {posThisTx : CDiskTxPos} {fBlock fMiner fStrict : Bool} {vin : List CTxIn} {nIn : ℕ}
    {inputs : MapPrevTx} {mapTestPool mapTestPool' : TxIndexMap}
    (hbm : (fBlock || fMiner) = true) (hpos : posThisTx.isNull = false)
    (hinputs : ∀ h prev, inputs.lookup h = some prev →
      queued mapTestPool env.txIndex h = some prev.1)
    (h : spendInputs P env tx posThisTx fBlock fMiner fStrict vin nIn inputs mapTestPool
      = .ok mapTestPool') :
    Marked (queued mapTestPool env.txIndex) (queued mapTestPool' env.txIndex) (keys vin) false ∧
      (keys vin).Nodup ∧ ∀ o ∈ keys vin, (queued mapTestPool env.txIndex).nullAt o = true := by
  -- induction on the inputs, each of which marks its output
  induction vin generalizing nIn inputs mapTestPool with
  | nil =>
    cases h
    exact ⟨Marked.nil false, List.nodup_nil, by simp [keys]⟩
  | cons txin vin ih =>
    simp only [spendInputs, hbm, if_true, Result.bind_eq_ok, require_eq_ok] at h
    -- the first input was fetched and is unspent
    obtain ⟨prev, hprev, -, hnull, -, -, hrest⟩ := h
    have hL := hinputs _ _ (getPrev_eq_ok hprev)
    have hnullAt : (queued mapTestPool env.txIndex).nullAt txin.prevout.key = true := by
      simpa [nullAt, COutPoint.key, hL] using hnull
    have hlt := nullAt_lt hL hnullAt
    have hstep := queued_insert mapTestPool env.txIndex txin.prevout.hash
      (prev.1.spend txin.prevout.n posThisTx)
    obtain ⟨hmarked, hnodup, hrestNull⟩ := ih (fun h' prev' hlook => by
      rw [Map.lookup_insert_eq] at hlook
      rw [hstep, Function.update_apply]
      split_ifs at hlook ⊢ with heq
      · cases hlook
        rfl
      · exact hinputs h' prev' hlook) hrest
    rw [hstep] at hmarked hrestNull
    -- a later input finds an unspent output, so it is another one
    have hother : ∀ o ∈ keys vin,
        o ≠ txin.prevout.key ∧ (queued mapTestPool env.txIndex).nullAt o = true := by
      intro o ho
      have hn := hrestNull o ho
      rw [nullAt_update_spend hL hlt, hpos] at hn
      split_ifs at hn with heq
      exact ⟨heq, hn⟩
    -- so the outputs are marked, different and unspent before
    refine ⟨Marked.cons hL hlt hpos hmarked, ?_, ?_⟩
    · rw [keys_cons, List.nodup_cons]
      exact ⟨fun hmem => (hother _ hmem).1 rfl, hnodup⟩
    · rw [keys_cons]
      exact List.forall_mem_cons.mpr ⟨hnullAt, fun o ho => (hother o ho).2⟩

/-! ### `DisconnectInputs` -/

/-- The loop of `DisconnectInputs` marks the outputs as not spent. -/
theorem unspendInputs_eq_ok {vin : List CTxIn} {txIndex txIndex' : TxIndexMap}
    (h : unspendInputs vin txIndex = .ok txIndex') :
    Marked txIndex.lookup txIndex'.lookup (keys vin) true := by
  induction vin generalizing txIndex with
  | nil =>
    cases h
    exact Marked.nil true
  | cons txin vin ih =>
    rw [unspendInputs] at h
    split at h
    · exact absurd h (by simp)
    · next txindex hlook =>
      split_ifs at h with hlt
      have hrest := ih h
      rw [Map.lookup_insert_update] at hrest
      exact Marked.cons hlook hlt CDiskTxPos.isNull_null hrest

/-- The loop succeeds exactly when the index has an entry for each of the outputs. -/
theorem unspendInputs_isOk_iff {vin : List CTxIn} {txIndex : TxIndexMap} :
    (∃ txIndex', unspendInputs vin txIndex = .ok txIndex') ↔
      ∀ o ∈ keys vin, ∃ n, outputsOf txIndex.lookup o.1 = some n ∧ o.2 < n := by
  induction vin generalizing txIndex with
  | nil => simp [unspendInputs, keys]
  | cons txin vin ih =>
    rw [unspendInputs, keys_cons, List.forall_mem_cons]
    cases hlook : txIndex.lookup txin.prevout.hash with
    | none => simp [outputsOf, COutPoint.key, hlook]
    | some txindex =>
      have hsame : outputsOf (txIndex.insert txin.prevout.hash
          (txindex.spend txin.prevout.n CDiskTxPos.null)).lookup = outputsOf txIndex.lookup := by
        rw [Map.lookup_insert_update]
        exact outputsOf_update_spend hlook
      by_cases hlt : txin.prevout.n < txindex.vSpent.length
      · simp only [hlt, if_true, ih, hsame]
        simp [outputsOf, COutPoint.key, hlook, hlt]
      · simp [outputsOf, COutPoint.key, hlook, hlt]

end Peershares
