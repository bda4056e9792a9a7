import Mathlib.Data.Option.Basic
import Peershares.Ledger.Funded

/-!
# A preview of `ConnectBlock`

`CreateNewBlock` runs `FetchInputs` and `ConnectInputs` with `fMiner` on a test pool, in which every transaction it
has added stands at the position of the memory pool. `ConnectBlock` runs them with `fBlock` when the block is in
its file, one block higher. Here is what one run says about the other.

* `SamePrev` — a previous transaction in both runs: what is unspent in the first is unspent in the second
* `fetchInputs_preview`, `connectInputs_preview` — success goes over
* `Preview` — the relation between the test pool and the queue of `ConnectBlock`, with `Preview.add` for a round
-/

open Framework

namespace Peershares

open IndexView

/-- An entry has an output that is not spent. -/
def CTxIndex.isUnspent (txindex : CTxIndex) (n : ℕ) : Bool := (txindex.vSpent[n]?).any CDiskTxPos.isNull

/-- The outputs of an entry after one is spent. -/
theorem isUnspent_spend {e : CTxIndex} {n k : ℕ} {pos : CDiskTxPos} (hpos : pos.isNull = false) :
    (e.spend n pos).isUnspent k = true ↔ k ≠ n ∧ e.isUnspent k = true := by
  unfold CTxIndex.isUnspent CTxIndex.spend
  rw [List.getElem?_set]
  by_cases hnk : n = k
  · subst hnk
    rw [if_pos rfl]
    split_ifs with hlt
    · simp [hpos]
    · simp
  · simp [hnk, Ne.symm hnk]

/-- An entry with its transaction, first as `CreateNewBlock` finds it on top of `pindexBlock` and then as
`ConnectBlock` does for `pindexBlock'`. Only the outputs that are `Free` are compared: the others are spent by the
coinstake, which is not in the test pool. -/
structure SamePrev (P : Params) (pindexBlock pindexBlock' : BlockPtr) (Free : ℕ → Prop)
    (prev prev' : CTxIndex × CTransaction) : Prop where
  tx_eq : prev'.2 = prev.2
  length_eq : prev'.1.vSpent.length = prev.1.vSpent.length
  unspent : ∀ n, Free n → prev.1.isUnspent n = true → prev'.1.isUnspent n = true
  mature : prev.2.isGenerated = true → isImmature P pindexBlock.nHeight prev.1.pos pindexBlock = false →
    isImmature P pindexBlock'.nHeight prev'.1.pos pindexBlock' = false

/-- The previous transactions of one transaction, in both runs. -/
def SameInputs (P : Params) (pindexBlock pindexBlock' : BlockPtr) (Free : COutPoint → Prop)
    (inputs inputs' : MapPrevTx) : Prop :=
  ∀ h, Option.Rel (SamePrev P pindexBlock pindexBlock' fun n => Free ⟨h, n⟩) (inputs.lookup h) (inputs'.lookup h)

variable {P : Params} {env env' : ConnectEnv} {pindexBlock pindexBlock' : BlockPtr} {Free : COutPoint → Prop}
  {inputs inputs' ret : MapPrevTx} {m m' : TxIndexMap} {tx : CTransaction} {h : Uint256}

/-- Both runs mark the same output as spent. -/
theorem SamePrev.spend {F : ℕ → Prop} {prev prev' : CTxIndex × CTransaction} {n : ℕ} {pos pos' : CDiskTxPos}
    (hsame : SamePrev P pindexBlock pindexBlock' F prev prev') (hpos : pos.isNull = false)
    (hpos' : pos'.isNull = false) :
    SamePrev P pindexBlock pindexBlock' F (prev.1.spend n pos, prev.2) (prev'.1.spend n pos', prev'.2) where
  tx_eq := hsame.tx_eq
  length_eq := by
    unfold CTxIndex.spend
    rw [List.length_set, List.length_set]
    exact hsame.length_eq
  unspent := by
    intro k hk hnull
    obtain ⟨hne, hold⟩ := (isUnspent_spend hpos).mp hnull
    exact (isUnspent_spend hpos').mpr ⟨hne, hsame.unspent k hk hold⟩
  mature := hsame.mature

namespace SameInputs

/-- Nothing fetched yet. -/
theorem empty : SameInputs P pindexBlock pindexBlock' Free ∅ ∅ := by
  intro h
  rw [Map.lookup_empty]
  exact Option.Rel.none

/-- One more entry fetched on both sides. -/
theorem insert (hsame : SameInputs P pindexBlock pindexBlock' Free inputs inputs')
    {prev prev' : CTxIndex × CTransaction}
    (hprev : SamePrev P pindexBlock pindexBlock' (fun n => Free ⟨h, n⟩) prev prev') :
    SameInputs P pindexBlock pindexBlock' Free (inputs.insert h prev) (inputs'.insert h prev') := by
  intro k
  rw [Map.lookup_insert_eq, Map.lookup_insert_eq]
  split_ifs with hk
  · subst hk
    exact Option.Rel.some hprev
  · exact hsame k

/-- What the first run has found, the second has found as well. -/
theorem exists_of_some (hsame : SameInputs P pindexBlock pindexBlock' Free inputs inputs')
    {prev : CTxIndex × CTransaction} (hlook : inputs.lookup h = some prev) :
    ∃ prev', inputs'.lookup h = some prev' ∧
      SamePrev P pindexBlock pindexBlock' (fun n => Free ⟨h, n⟩) prev prev' := by
  have hrel := hsame h
  rw [hlook] at hrel
  cases hlook' : inputs'.lookup h with
  | none =>
    rw [hlook'] at hrel
    cases hrel
  | some prev' =>
    rw [hlook'] at hrel
    cases hrel with
    | some hprev => exact ⟨prev', rfl, hprev⟩

/-- What is missing on one side is missing on the other. -/
theorem none_of_none (hsame : SameInputs P pindexBlock pindexBlock' Free inputs inputs')
    (hlook : inputs.lookup h = none) : inputs'.lookup h = none := by
  have hrel := hsame h
  rw [hlook] at hrel
  cases hlook' : inputs'.lookup h with
  | none => rfl
  | some prev' =>
    rw [hlook'] at hrel
    cases hrel

/-- The outputs are the same. -/
theorem output?_eq (hsame : SameInputs P pindexBlock pindexBlock' Free inputs inputs') (o : COutPoint) :
    inputs'.output? o = inputs.output? o := by
  unfold MapPrevTx.output?
  cases hlook : inputs.lookup o.hash with
  | none => rw [hsame.none_of_none hlook]
  | some prev =>
    obtain ⟨prev', hlook', hprev⟩ := hsame.exists_of_some hlook
    rw [hlook']
    simp only [hprev.tx_eq, hprev.length_eq]

/-- So `GetOutputFor` is. -/
theorem getOutputFor_eq (hsame : SameInputs P pindexBlock pindexBlock' Free inputs inputs') (txin : CTxIn) :
    getOutputFor txin inputs' = getOutputFor txin inputs := by
  unfold getOutputFor
  cases hlook : inputs.lookup txin.prevout.hash with
  | none => rw [hsame.none_of_none hlook]
  | some prev =>
    obtain ⟨prev', hlook', hprev⟩ := hsame.exists_of_some hlook
    rw [hlook']
    simp only [hprev.tx_eq]

/-- And `GetValueIn`. -/
theorem getValueIn_eq (hsame : SameInputs P pindexBlock pindexBlock' Free inputs inputs') :
    tx.getValueIn inputs' = tx.getValueIn inputs := by
  unfold CTransaction.getValueIn
  simp only [hsame.getOutputFor_eq]

/-- And `GetP2SHSigOpCount`. -/
theorem getP2SHSigOpCount_eq (hsame : SameInputs P pindexBlock pindexBlock' Free inputs inputs') :
    tx.getP2SHSigOpCount inputs' = tx.getP2SHSigOpCount inputs := by
  unfold CTransaction.getP2SHSigOpCount
  simp only [hsame.getOutputFor_eq]

end SameInputs

/-! ### `FetchInputs` -/

/-- Every previous transaction that the first run fetches is there for the second. -/
def FetchesSame (P : Params) (env env' : ConnectEnv) (pindexBlock pindexBlock' : BlockPtr) (Free : COutPoint → Prop)
    (m m' : TxIndexMap) (h : Uint256) : Prop :=
  ∀ prev, fetchPrev env m false true h = .ok prev → ∃ prev', fetchPrev env' m' true false h = .ok prev' ∧
    SamePrev P pindexBlock pindexBlock' (fun n => Free ⟨h, n⟩) prev prev'

/-- The loop of `FetchInputs`, by induction on the inputs. -/
theorem fetchLoop_preview {vin : List CTxIn}
    (hfetch : ∀ txin ∈ vin, FetchesSame P env env' pindexBlock pindexBlock' Free m m' txin.prevout.hash)
    (hsame : SameInputs P pindexBlock pindexBlock' Free inputs inputs')
    (hloop : fetchLoop env m false true vin inputs = .ok ret) :
    ∃ ret', fetchLoop env' m' true false vin inputs' = .ok ret' ∧
      SameInputs P pindexBlock pindexBlock' Free ret ret' := by
  induction vin generalizing inputs inputs' with
  | nil =>
    cases hloop
    exact ⟨inputs', rfl, hsame⟩
  | cons txin vin ih =>
    have hrest : ∀ txin' ∈ vin, FetchesSame P env env' pindexBlock pindexBlock' Free m m' txin'.prevout.hash :=
      fun txin' htxin' => hfetch txin' (List.mem_cons_of_mem _ htxin')
    rw [fetchLoop] at hloop ⊢
    cases hlook : inputs.lookup txin.prevout.hash with
    | some prev =>
      -- got it already, in both runs
      obtain ⟨prev', hlook', -⟩ := hsame.exists_of_some hlook
      simp only [hlook] at hloop
      simp only [hlook']
      exact ih hrest hsame hloop
    | none =>
      simp only [hlook] at hloop
      simp only [hsame.none_of_none hlook]
      obtain ⟨prev, hprev, hloop⟩ := Result.bind_eq_ok.mp hloop
      obtain ⟨prev', hprev', hsamePrev⟩ := hfetch txin List.mem_cons_self prev hprev
      obtain ⟨ret', hret', hsameRet⟩ := ih hrest (hsame.insert hsamePrev) hloop
      exact ⟨ret', Result.bind_eq_ok.mpr ⟨prev', hprev', hret'⟩, hsameRet⟩

/-- So `FetchInputs` succeeds again in the block. -/
theorem fetchInputs_preview (hcb : tx.isCoinBase = false)
    (hfetch : ∀ txin ∈ tx.vin, FetchesSame P env env' pindexBlock pindexBlock' Free m m' txin.prevout.hash)
    (hinputs : tx.fetchInputs env m false true = .ok inputs) :
    ∃ inputs', tx.fetchInputs env' m' true false = .ok inputs' ∧
      SameInputs P pindexBlock pindexBlock' Free inputs inputs' := by
  unfold CTransaction.fetchInputs at hinputs ⊢
  rw [if_neg (by simp [hcb])] at hinputs ⊢
  simp only [Result.bind_eq_ok, require_eq_ok] at hinputs ⊢
  obtain ⟨ret, hloop, -, hrange, hret⟩ := hinputs
  cases hret
  obtain ⟨inputs', hloop', hsame⟩ := fetchLoop_preview hfetch SameInputs.empty hloop
  refine ⟨inputs', ⟨inputs', hloop', (), ?_, rfl⟩, hsame⟩
  simpa only [hsame.output?_eq] using hrange

/-! ### `ConnectInputs` -/

/-- An input is found when it was fetched. -/
theorem getPrev_eq_ok_iff {prevout : COutPoint} {prev : CTxIndex × CTransaction} :
    getPrev inputs prevout = .ok prev ↔ inputs.lookup prevout.hash = some prev := by
  refine ⟨getPrev_eq_ok, fun hlook => ?_⟩
  unfold getPrev
  rw [hlook]

/-- With the same output. -/
theorem getPrevOut_of_samePrev {F : ℕ → Prop} {prev prev' : CTxIndex × CTransaction} {prevout : COutPoint}
    (hprev : SamePrev P pindexBlock pindexBlock' F prev prev') :
    getPrevOut prev' prevout = getPrevOut prev prevout := by
  unfold getPrevOut
  rw [hprev.tx_eq, hprev.length_eq]

/-- The first loop of `ConnectInputs`. -/
theorem checkInputs_preview {vin : List CTxIn} {acc v : Int}
    (hsame : SameInputs P pindexBlock pindexBlock' Free inputs inputs')
    (hcheck : checkInputs P pindexBlock tx inputs vin acc = .ok v) :
    checkInputs P pindexBlock' tx inputs' vin acc = .ok v := by
  induction vin generalizing acc with
  | nil => exact hcheck
  | cons txin vin ih =>
    simp only [checkInputs, Result.bind_eq_ok, require_eq_ok] at hcheck ⊢
    obtain ⟨prev, hget, txout, hout, -, hmature, -, htime, -, hrange, hrest⟩ := hcheck
    obtain ⟨prev', hlook', hprev⟩ := hsame.exists_of_some (getPrev_eq_ok hget)
    refine ⟨prev', getPrev_eq_ok_iff.mpr hlook', txout, (getPrevOut_of_samePrev hprev).trans hout, (), ?_, (), ?_,
      (), hrange, ih hrest⟩
    · -- a generated input is mature in the other chain as well
      rw [hprev.tx_eq]
      cases hgen : prev.2.isGenerated with
      | false => rfl
      | true =>
        rw [hgen] at hmature
        rw [hprev.mature hgen (by simpa using hmature)]
        rfl
    · -- its time is the same
      rw [hprev.tx_eq]
      exact htime

/-- A signature that was good is good. -/
theorem verifyInput_preview {txPrev : CTransaction} {nIn : ℕ} {txin : CTxIn}
    (hverify : verifyInput P env txPrev tx nIn txin false true = .ok ()) :
    verifyInput P env' txPrev tx nIn txin true true = .ok () := by
  have hsig : verifySignature P txPrev tx nIn txin true = true := by
    by_contra hbad
    unfold verifyInput at hverify
    simp only [Bool.false_and, Bool.false_eq_true, if_false, hbad] at hverify
    split_ifs at hverify
  unfold verifyInput
  rw [if_pos hsig]
  exact ite_self _

/-- The second loop of `ConnectInputs`, in which the marks are compared too. -/
theorem spendInputs_preview {vin : List CTxIn} {nIn : ℕ} {pos pos' : CDiskTxPos} {out : TxIndexMap}
    (hpos : pos.isNull = false) (hpos' : pos'.isNull = false) (hfree : ∀ txin ∈ vin, Free txin.prevout)
    (hsame : SameInputs P pindexBlock pindexBlock' Free inputs inputs')
    (hspend : spendInputs P env tx pos false true true vin nIn inputs m = .ok out) :
    ∃ out', spendInputs P env' tx pos' true false true vin nIn inputs' m' = .ok out' := by
  induction vin generalizing nIn inputs inputs' m m' with
  | nil => exact ⟨m', rfl⟩
  | cons txin vin ih =>
    simp only [spendInputs, Result.bind_eq_ok, require_eq_ok] at hspend ⊢
    obtain ⟨prev, hget, -, hnull, _, hverify, hrest⟩ := hspend
    obtain ⟨prev', hlook', hprev⟩ := hsame.exists_of_some (getPrev_eq_ok hget)
    obtain ⟨out', hout'⟩ := ih (fun txin' htxin' => hfree txin' (List.mem_cons_of_mem _ htxin'))
      (hsame.insert (hprev.spend hpos hpos')) hrest
    refine ⟨out', prev', getPrev_eq_ok_iff.mpr hlook', (), ?_, (), ?_, hout'⟩
    · exact hprev.unspent _ (hfree txin List.mem_cons_self) hnull
    · rw [hprev.tx_eq]
      exact verifyInput_preview hverify

/-- The comparison of values. -/
theorem checkValue_preview {nValueIn : Int} (hcs : tx.isCoinStake = false)
    (hvalue : checkValue P env tx nValueIn false = .ok ()) : checkValue P env' tx nValueIn true = .ok () := by
  unfold checkValue at hvalue ⊢
  rw [if_neg (by simp [hcs])] at hvalue ⊢
  simp only [checkFees, Result.bind_eq_ok, require_eq_ok] at hvalue ⊢
  exact hvalue

/-- **What the miner could connect, `ConnectBlock` can.** -/
theorem connectInputs_preview {pos pos' : CDiskTxPos} {out : TxIndexMap} (hcb : tx.isCoinBase = false)
    (hcs : tx.isCoinStake = false) (hpos : pos.isNull = false) (hpos' : pos'.isNull = false)
    (hfree : ∀ txin ∈ tx.vin, Free txin.prevout)
    (hsame : SameInputs P pindexBlock pindexBlock' Free inputs inputs')
    (hconnect : tx.connectInputs P env inputs m pos pindexBlock false true true = .ok out) :
    ∃ out', tx.connectInputs P env' inputs' m' pos' pindexBlock' true false true = .ok out' := by
  unfold CTransaction.connectInputs at hconnect ⊢
  rw [if_neg (by simp [hcb])] at hconnect ⊢
  simp only [Result.bind_eq_ok] at hconnect ⊢
  obtain ⟨nValueIn, hcheck, out, hspend, _, hvalue, -⟩ := hconnect
  obtain ⟨out', hspend'⟩ := spendInputs_preview hpos hpos' hfree hsame hspend
  exact ⟨out', nValueIn, checkInputs_preview hsame hcheck, out', hspend', (), checkValue_preview hcs hvalue, rfl⟩
/-! ### Entries -/

section Views

variable {L L' : IndexView} {os : List (Uint256 × ℕ)} {fNull : Bool} {e e₀ : CTxIndex} {n : ℕ}

/-- An output that is not spent. -/
theorem nullAt_eq_isUnspent (hL : L h = some e) : L.nullAt (h, n) = e.isUnspent n := by
  unfold IndexView.nullAt CTxIndex.isUnspent
  rw [hL]
  rfl

/-- An entry before outputs were marked is there afterwards. -/
theorem IndexView.Marked.exists_marked (hm : Marked L L' os fNull) (he₀ : L h = some e₀) :
    ∃ e, L' h = some e ∧ e.pos = e₀.pos ∧ e.vSpent.length = e₀.vSpent.length ∧
      ∀ n, e.isUnspent n = if (h, n) ∈ os then fNull else e₀.isUnspent n := by
  obtain ⟨e, he⟩ := Option.isSome_iff_exists.mp ((hm.isSome_iff h).mpr (by rw [he₀]; rfl))
  obtain ⟨e₁, he₁, hpos, hlen⟩ := hm.entry he
  cases he₁.symm.trans he₀
  refine ⟨e, he, hpos.symm, hlen.symm, fun n => ?_⟩
  rw [← nullAt_eq_isUnspent he, hm.nullAt_eq, nullAt_eq_isUnspent he₀]

end Views

/-! ### The relation -/

/-- The transaction an entry stands for. -/
def readPrev (env : ConnectEnv) (h : Uint256) (pos : CDiskTxPos) : Option CTransaction :=
  if pos = CDiskTxPos.inMempool then env.mempool.lookup h else env.files.readTx pos

/-- In a block and for the miner an input is fetched through its entry of the index. -/
theorem fetchPrev_eq_ok_iff {fBlock fMiner : Bool} {prev : CTxIndex × CTransaction}
    (hbm : (fBlock || fMiner) = true) :
    fetchPrev env m fBlock fMiner h = .ok prev ↔
      queued m env.txIndex h = some prev.1 ∧ readPrev env h prev.1.pos = some prev.2 := by
  obtain ⟨e, txPrev⟩ := prev
  -- the entry comes from the queue, or from the disk
  have hindex : fetchIndex env m fBlock fMiner h = queued m env.txIndex h := by
    unfold fetchIndex
    rw [if_pos hbm]
    rfl
  unfold fetchPrev readPrev
  rw [hindex]
  simp only [hbm, if_true]
  cases queued m env.txIndex h with
  | none => simp
  | some txindex =>
    dsimp only
    by_cases heq : txindex = e
    · subst heq
      -- a transaction of the pool, or one on disk
      by_cases hpool : txindex.pos = CDiskTxPos.inMempool
      · rw [if_pos hpool, if_pos hpool]
        cases env.mempool.lookup h <;> simp
      · rw [if_neg hpool, if_neg hpool]
        cases env.files.readTx txindex.pos <;> simp
    · -- another entry was fetched
      refine iff_of_false (fun hfetch => heq ?_) fun hqueued => heq (Option.some.inj hqueued.1)
      by_cases hpool : txindex.pos = CDiskTxPos.inMempool
      · rw [if_pos hpool] at hfetch
        cases hlook : env.mempool.lookup h <;> simp_all
      · rw [if_neg hpool] at hfetch
        cases hread : env.files.readTx txindex.pos <;> simp_all

/-- The two runs after the same transactions: what has an unspent output in the first is there in the second, with
the same transaction. -/
def Preview (P : Params) (env env' : ConnectEnv) (pindexBlock pindexBlock' : BlockPtr) (Free : COutPoint → Prop)
    (m m' : TxIndexMap) : Prop :=
  ∀ h e txPrev, queued m env.txIndex h = some e → (∃ n, e.isUnspent n = true) → readPrev env h e.pos = some txPrev →
    ∃ e', queued m' env'.txIndex h = some e' ∧ readPrev env' h e'.pos = some txPrev ∧
      SamePrev P pindexBlock pindexBlock' (fun n => Free ⟨h, n⟩) (e, txPrev) (e', txPrev)

namespace Preview

variable {out out' : TxIndexMap}

/-- So both sides fetch the same. -/
theorem fetchesSame (hp : Preview P env env' pindexBlock pindexBlock' Free m m')
    (hunspent : ∃ n, (queued m env.txIndex).nullAt (h, n) = true) :
    FetchesSame P env env' pindexBlock pindexBlock' Free m m' h := by
  intro prev hfetch
  obtain ⟨hL, hread⟩ := (fetchPrev_eq_ok_iff rfl).mp hfetch
  obtain ⟨n, hn⟩ := hunspent
  rw [nullAt_eq_isUnspent hL] at hn
  obtain ⟨e', hL', hread', hsame⟩ := hp h prev.1 prev.2 hL ⟨n, hn⟩ hread
  exact ⟨(e', prev.2), (fetchPrev_eq_ok_iff rfl).mpr ⟨hL', hread'⟩, hsame⟩

/-- Both runs have marked the same outputs, and the transaction is added to both. -/
theorem add {pos' : CDiskTxPos} {os : List (Uint256 × ℕ)}
    (hp : Preview P env env' pindexBlock pindexBlock' Free m m')
    (hm : Marked (queued m env.txIndex) (queued out env.txIndex) os false)
    (hm' : Marked (queued m' env'.txIndex) (queued out' env'.txIndex) os false)
    (hgen : tx.isGenerated = false) (hpool : env.mempool.lookup h = some tx)
    (hread : readPrev env' h pos' = some tx) :
    Preview P env env' pindexBlock pindexBlock' Free
      (out.insert h (CTxIndex.new CDiskTxPos.inMempool tx.vout.length))
      (out'.insert h (CTxIndex.new pos' tx.vout.length)) := by
  intro k e txPrev hk hunspent hreadPrev
  rw [queued_insert, Function.update_apply] at hk ⊢
  split_ifs at hk ⊢ with hkh
  · -- the new transaction: both runs have made the same entry, but for the position
    subst hkh
    cases hk
    have htx : env.mempool.lookup k = some txPrev := hreadPrev
    cases hpool.symm.trans htx
    refine ⟨_, rfl, hread, rfl, rfl, fun n _ hn => hn, fun hgen' => ?_⟩
    rw [hgen] at hgen'
    cases hgen'
  · obtain ⟨e₀, he₀, hpos, hlen⟩ := hm.entry hk
    obtain ⟨e₁, he₁, -, -, hmarked⟩ := hm.exists_marked he₀
    cases he₁.symm.trans hk
    -- what is unspent after the step was unspent before
    have hold : ∀ n, e.isUnspent n = true → (k, n) ∉ os ∧ e₀.isUnspent n = true := by
      intro n hn
      rw [hmarked n] at hn
      split_ifs at hn with hos
      exact ⟨hos, hn⟩
    obtain ⟨e₀', he₀', hread', hsame⟩ := hp k e₀ txPrev he₀ (hunspent.imp fun n hn => (hold n hn).2)
      (by rwa [hpos])
    obtain ⟨e', he', hpos', hlen', hmarked'⟩ := hm'.exists_marked he₀'
    refine ⟨e', he', by rwa [hpos'], rfl, ?_, fun n hfree hn => ?_, fun hgen' hmature => ?_⟩
    · exact hlen'.trans (hsame.length_eq.trans hlen)
    · obtain ⟨hos, hn₀⟩ := hold n hn
      show e'.isUnspent n = true
      rw [hmarked' n, if_neg hos]
      exact hsame.unspent n hfree hn₀
    · show isImmature P pindexBlock'.nHeight e'.pos pindexBlock' = false
      rw [hpos']
      refine hsame.mature hgen' ?_
      show isImmature P pindexBlock.nHeight e₀.pos pindexBlock = false
      rw [hpos]
      exact hmature

end Preview

/-! ### One round -/

section Round

variable {pindex : CBlockIndex} {pprev : BlockPtr} {st : ConnectState} {out : TxIndexMap}

/-- What `CreateNewBlock` has found out about a transaction when it adds it to the block. -/
structure Connectable (P : Params) (env : ConnectEnv) (m : TxIndexMap) (pindexBlock : BlockPtr) (tx : CTransaction)
    (nTxFees : Int) (nP2SHSigOps : ℕ) (out : TxIndexMap) : Prop where
  not_coinBase : tx.isCoinBase = false
  not_coinStake : tx.isCoinStake = false
  connects : ∃ inputs nValueIn nValueOut, tx.fetchInputs env m false true = .ok inputs ∧
    tx.getValueIn inputs = .ok nValueIn ∧ tx.getValueOut = .ok nValueOut ∧ nTxFees = nValueIn - nValueOut ∧
    tx.getP2SHSigOpCount inputs = .ok nP2SHSigOps ∧
    tx.connectInputs P env inputs m CDiskTxPos.inMempool pindexBlock false true true = .ok out

/-- **One round of the preview is one round of `ConnectBlock`.** -/
theorem Preview.round {nTxFees : Int} {nP2SHSigOps : ℕ}
    (hp : Preview P env env' pprev (pindex :: pprev) Free m st.mapQueuedChanges)
    (hconnectable : Connectable P env m pprev tx nTxFees nP2SHSigOps out)
    (hfree : ∀ o ∈ tx.prevouts, Free o) (hpool : env.mempool.lookup (P.hashTx tx) = some tx)
    (hstored : (roundTx pindex pprev st.nTxPos tx).IsStored env'.files)
    (hsigops : st.nSigOps + (tx.getLegacySigOpCount + nP2SHSigOps) ≤ MAX_BLOCK_SIGOPS) :
    ∃ st', connectTransaction P env' pindex pprev true st tx = .ok st' ∧
      Preview P env env' pprev (pindex :: pprev) Free
        (out.insert (P.hashTx tx) (CTxIndex.new CDiskTxPos.inMempool tx.vout.length)) st'.mapQueuedChanges ∧
      st'.nSigOps = st.nSigOps + (tx.getLegacySigOpCount + nP2SHSigOps) ∧
      st'.nFees = st.nFees + nTxFees ∧ st'.nTxPos = st.nTxPos + tx.getSerializeSize := by
  -- what the miner has tested of the transaction
  obtain ⟨hcb, hcs, inputs, nValueIn, nValueOut, hfetch, hvalueIn, hvalueOut, rfl, hp2sh, hconnect⟩ := hconnectable
  obtain ⟨hread, hnotNull, hne⟩ := hstored
  have hfreeIn : ∀ txin ∈ tx.vin, Free txin.prevout := fun txin htxin => hfree _ (List.mem_map_of_mem htxin)
  -- every output the transaction spends is unspent in the test pool
  have hspent : Marked (queued m env.txIndex) (queued out env.txIndex) (keys tx.vin) false ∧
      ∀ o ∈ keys tx.vin, (queued m env.txIndex).nullAt o = true := by
    have hconnect' := hconnect
    unfold CTransaction.connectInputs at hconnect'
    rw [if_neg (by simp [hcb])] at hconnect'
    simp only [Result.bind_eq_ok] at hconnect'
    obtain ⟨_, -, out₁, hspend, _, -, hout⟩ := hconnect'
    cases hout
    obtain ⟨hmarked, -, hnull⟩ := spendInputs_eq_ok rfl (by decide)
      (fun k prev hlook => (CTransaction.fetchInputs_eq_ok rfl hfetch k prev hlook).1) hspend
    exact ⟨hmarked, hnull⟩
  -- `FetchInputs` and `ConnectInputs` succeed again in the block
  obtain ⟨inputs', hfetch', hsame⟩ := fetchInputs_preview hcb (fun txin htxin =>
    hp.fetchesSame ⟨txin.prevout.n, hspent.2 _ (List.mem_map_of_mem htxin)⟩) hfetch
  obtain ⟨out', hconnect'⟩ : ∃ out', tx.connectInputs P env' inputs' st.mapQueuedChanges
      ⟨pindex.nFile, pindex.nBlockPos, st.nTxPos⟩ (pindex :: pprev) true false true = .ok out' :=
    connectInputs_preview hcb hcs (by decide) hnotNull hfreeIn hsame hconnect
  -- and mark the same outputs
  have hmarked' : Marked (queued st.mapQueuedChanges env'.txIndex) (queued out' env'.txIndex) (keys tx.vin)
      false := by
    have hspend := hconnect'
    unfold CTransaction.connectInputs at hspend
    rw [if_neg (by simp [hcb])] at hspend
    simp only [Result.bind_eq_ok] at hspend
    obtain ⟨_, -, out₁, hspend, _, -, hout⟩ := hspend
    cases hout
    exact (spendInputs_eq_ok rfl hnotNull
      (fun k prev hlook => (CTransaction.fetchInputs_eq_ok rfl hfetch' k prev hlook).1) hspend).1
  have hgen : tx.isGenerated = false := by
    unfold CTransaction.isGenerated
    rw [hcb, hcs]
    rfl
  have hreadPrev : readPrev env' (P.hashTx tx) ⟨pindex.nFile, pindex.nBlockPos, st.nTxPos⟩ = some tx := by
    unfold readPrev
    exact (if_neg hne).trans hread
  -- so the round of `ConnectBlock` is passed
  have hround : connectTransaction P env' pindex pprev true st tx = .ok
      { st with
        nSigOps := st.nSigOps + tx.getLegacySigOpCount + nP2SHSigOps
        nTxPos := st.nTxPos + tx.getSerializeSize
        nFees := st.nFees + (nValueIn - nValueOut)
        nValueIn := st.nValueIn + nValueIn
        nValueOut := st.nValueOut + nValueOut
        mapQueuedChanges := out'.insert (P.hashTx tx)
          (CTxIndex.new ⟨pindex.nFile, pindex.nBlockPos, st.nTxPos⟩ tx.vout.length) } := by
    -- the same values and signature operations as the miner has found
    have hvalueIn' : tx.getValueIn inputs' = .ok nValueIn := hsame.getValueIn_eq.trans hvalueIn
    have hp2sh' : tx.getP2SHSigOpCount inputs' = .ok nP2SHSigOps := hsame.getP2SHSigOpCount_eq.trans hp2sh
    have hlegacy : st.nSigOps + tx.getLegacySigOpCount ≤ MAX_BLOCK_SIGOPS := by omega
    have hall : st.nSigOps + tx.getLegacySigOpCount + nP2SHSigOps ≤ MAX_BLOCK_SIGOPS := by omega
    -- the checks of the round
    unfold connectTransaction connectValue connectSpending addP2SHSigOps
    simp only [hcb, hcs, if_true, Bool.false_eq_true, if_false, Result.bind_eq_ok, require_eq_ok]
    exact ⟨(), decide_eq_true hlegacy, _, ⟨inputs', hfetch', _, ⟨_, hp2sh', (), decide_eq_true hall, rfl⟩, _,
      hvalueIn', _, hvalueOut, _, hconnect', rfl⟩, rfl⟩
  exact ⟨_, hround, hp.add hspent.1 hmarked' hgen hpool hreadPrev, Nat.add_assoc _ _ _, rfl, rfl⟩

end Round

/-! ### The start -/

section Start

variable {pindex : CBlockIndex} {pprev : BlockPtr} {fStrict : Bool} {st st' : ConnectState} {e : CTxIndex}

/-- What the outputs of `vtx` spend. -/
def spentBy (vtx : List CTransaction) (o : COutPoint) : Prop := ∃ tx ∈ vtx, tx.isCoinBase = false ∧ o ∈ tx.prevouts

/-- One round of `ConnectBlock` keeps the entry of every other transaction, but for the outputs it spends. -/
theorem entry_of_connectTransaction (hfile : pindex.nFile ≠ UINT_MAX)
    (hround : connectTransaction P env pindex pprev fStrict st tx = .ok st') (hne : h ≠ P.hashTx tx)
    (he : queued st.mapQueuedChanges env.txIndex h = some e) :
    ∃ e', queued st'.mapQueuedChanges env.txIndex h = some e' ∧ e'.pos = e.pos ∧
      e'.vSpent.length = e.vSpent.length ∧
      ∀ n, ¬ spentBy [tx] ⟨h, n⟩ → e.isUnspent n = true → e'.isUnspent n = true := by
  obtain ⟨st₁, hvalue, rfl⟩ := connectTransaction_eq_ok hround
  rw [queued_insert, Function.update_of_ne hne]
  have hnull : CDiskTxPos.isNull ⟨pindex.nFile, pindex.nBlockPos, st.nTxPos⟩ = false := decide_eq_false hfile
  unfold connectValue at hvalue
  split_ifs at hvalue with hcb
  · -- a coinbase spends nothing
    obtain ⟨vout, -, hst⟩ := Result.bind_eq_ok.mp hvalue
    cases hst
    exact ⟨e, he, rfl, rfl, fun _ _ hn => hn⟩
  · rw [Bool.not_eq_true] at hcb
    obtain ⟨inputs, hfetch, -, hspend, -⟩ := connectSpending_eq_ok hcb hvalue
    have hfetched := CTransaction.fetchInputs_eq_ok rfl hfetch
    obtain ⟨hmarked, -⟩ :=
      spendInputs_eq_ok rfl hnull (fun k prev hlook => (hfetched k prev hlook).1) hspend
    obtain ⟨e', he', hpos, hlen, hunspent⟩ := hmarked.exists_marked he
    -- an output that is marked is one that the transaction spends
    refine ⟨e', he', hpos, hlen, fun n hfree hn => ?_⟩
    rw [hunspent n, if_neg, hn]
    intro hmem
    rw [keys_vin] at hmem
    obtain ⟨o, ho, hkey⟩ := List.mem_map.mp hmem
    cases hkey
    exact hfree ⟨tx, List.mem_singleton_self tx, hcb, ho⟩

/-- The loop of `ConnectBlock` as well. -/
theorem entry_of_connectTransactions {vtx : List CTransaction} (hfile : pindex.nFile ≠ UINT_MAX)
    (hloop : connectTransactions P env pindex pprev fStrict vtx st = .ok st') (hne : ∀ tx ∈ vtx, h ≠ P.hashTx tx)
    (he : queued st.mapQueuedChanges env.txIndex h = some e) :
    ∃ e', queued st'.mapQueuedChanges env.txIndex h = some e' ∧ e'.pos = e.pos ∧
      e'.vSpent.length = e.vSpent.length ∧
      ∀ n, ¬ spentBy vtx ⟨h, n⟩ → e.isUnspent n = true → e'.isUnspent n = true := by
  induction vtx generalizing st e with
  | nil =>
    cases hloop
    exact ⟨e, he, rfl, rfl, fun _ _ hn => hn⟩
  | cons tx vtx ih =>
    obtain ⟨st₁, hround, hrest⟩ := Result.bind_eq_ok.mp hloop
    obtain ⟨e₁, he₁, hpos₁, hlen₁, hunspent₁⟩ :=
      entry_of_connectTransaction hfile hround (hne tx List.mem_cons_self) he
    obtain ⟨e', he', hpos', hlen', hunspent'⟩ :=
      ih hrest (fun tx' htx' => hne tx' (List.mem_cons_of_mem _ htx')) he₁
    refine ⟨e', he', hpos'.trans hpos₁, hlen'.trans hlen₁, fun n hfree hn => ?_⟩
    -- what the rest or the first one spends, the row spends
    refine hunspent' n ?_ (hunspent₁ n ?_ hn)
    · rintro ⟨tx', htx', hspends⟩
      exact hfree ⟨tx', List.mem_cons_of_mem _ htx', hspends⟩
    · rintro ⟨tx', htx', hspends⟩
      exact hfree ⟨tx', List.mem_cons.mpr (Or.inl (List.mem_singleton.mp htx')), hspends⟩

/-- What has matured stays so. -/
theorem isImmature_succ {nHeight : ℕ} {pos : CDiskTxPos} {p : BlockPtr} (hmature : isImmature P nHeight pos p = false) :
    isImmature P (nHeight + 1) pos p = false := by
  induction p with
  | nil => rfl
  | cons e p ih =>
    rw [isImmature] at hmature ⊢
    by_cases hnear : ((nHeight + 1 : ℕ) : Int) - e.nHeight < P.nCoinbaseMaturity
    · rw [if_pos (by omega)] at hmature
      split_ifs at hmature with hsame
      rw [if_pos hnear, if_neg hsame]
      exact ih hmature
    · rw [if_neg hnear]

/-- **The test pool starts like the queue of `ConnectBlock`** behind the coinbase and the coinstake. -/
theorem Preview.start {txs : List ConnectedTx} {vtx : List CTransaction}
    (hok : IndexOk P env.files txs env.txIndex.lookup) (hstored : ∀ c ∈ txs, c.IsStored env.files)
    (hstored' : ∀ c ∈ txs, c.IsStored env'.files) (htxIndex : env'.txIndex = env.txIndex)
    (hfile : pindex.nFile ≠ UINT_MAX) (hheight : pindex.nHeight = pprev.nHeight + 1)
    (hplace : ∀ c ∈ txs, ¬ (pindex.nBlockPos = c.pos.nBlockPos ∧ pindex.nFile = c.pos.nFile))
    (hfresh : ∀ tx ∈ vtx, ∀ e, env.txIndex.lookup (P.hashTx tx) = some e → ∀ n, e.isUnspent n = false)
    (hempty : st.mapQueuedChanges = ∅)
    (hloop : connectTransactions P env' pindex pprev fStrict vtx st = .ok st') :
    Preview P env env' pprev (pindex :: pprev) (fun o => ¬ spentBy vtx o) ∅ st'.mapQueuedChanges := by
  intro h e txPrev he hunspent hread
  rw [queued_empty] at he
  -- the entry is that of a transaction of the chain, in a block file that both runs read
  obtain ⟨c, hlatest, hpos, -⟩ := hok.entry h e he
  have hc := mem_of_latestTx hlatest
  have htx : readPrev env' h e.pos = some txPrev := by
    unfold readPrev at hread ⊢
    rw [hpos, if_neg (hstored c hc).ne_inMempool, (hstored c hc).readTx_eq] at hread
    rw [hpos, if_neg (hstored c hc).ne_inMempool, (hstored' c hc).readTx_eq]
    exact hread
  have hne : ∀ tx ∈ vtx, h ≠ P.hashTx tx := by
    rintro tx hmem rfl
    obtain ⟨n, hn⟩ := hunspent
    rw [hfresh tx hmem e he n] at hn
    cases hn
  have hstart : queued st.mapQueuedChanges env'.txIndex h = some e := by
    rw [hempty, queued_empty, htxIndex]
    exact he
  obtain ⟨e', he', hpos', hlen', hkept⟩ := entry_of_connectTransactions hfile hloop hne hstart
  refine ⟨e', he', by rwa [hpos'], rfl, hlen', hkept, fun _ hmature => ?_⟩
  show isImmature P pindex.nHeight e'.pos (pindex :: pprev) = false
  rw [hpos', hheight, isImmature]
  split_ifs with hnear hsame
  · exact absurd hsame (hpos ▸ hplace c hc)
  · exact isImmature_succ hmature
  · rfl

end Start

end Peershares
