import Peershares.Ledger.Index

/-!
# Connecting and disconnecting refine the ledger

The abstract side is the ledger that replays the transactions of a chain. An index is right for a
row of connected transactions when its unspent outputs are those of the replay, and every entry is
the one of the last transaction with that hash (`IndexOk`). Entries may be missing: when a
transaction that had been stored twice is disconnected, its only entry is erased.

One transaction at a time: `ConnectInputs` marks the outputs that are spent and the loop adds an entry for the
transaction itself, which together is one step of the ledger (`IndexOk.apply`). `DisconnectInputs` clears the marks
and erases the entry, which takes the last step back (`IndexOk.undo`). The checks of the loop say that the step
was a valid one, with the values that the sums have counted (`RoundOk`).

A coinbase spends nothing and has a lemma of its own (`IndexOk.connectCoinBase`). Whether the loop can be taken back
depends on one more thing, namely that no transaction comes with a hash from which an output was spent before
(`RespendsHash`); inside a block this cannot happen (`LoopOk.noRespend`).

* `IndexOk.connectTransactions` — a successful loop of `ConnectBlock` is a valid run of the ledger,
  and its sums are the change of the ledger's value
* `IndexOk.disconnectTransactions` — a successful loop of `DisconnectBlock` takes it back
-/

open Framework

namespace Peershares

open IndexView

/-- A connected transaction: the block it is in, where it is stored. -/
structure ConnectedTx where
  pindex : BlockPtr
  pos : CDiskTxPos
  tx : CTransaction
deriving DecidableEq, Repr

namespace ConnectedTx

/-- The transaction on the ledger. A coinbase spends nothing. -/
def ledgerTx (P : Params) (c : ConnectedTx) : LedgerTx Uint256 Coin ConnectedTx where
  id := P.hashTx c.tx
  spends := if c.tx.isCoinBase then [] else keys c.tx.vin
  outputs := c.tx.vout.map (fun txout => ⟨c.tx, c.pos, txout⟩)
  data := c

/-- The transaction is found where its position says, and the position is a real one. -/
structure IsStored (files : BlockFiles) (c : ConnectedTx) : Prop where
  readTx_eq : files.readTx c.pos = some c.tx
  not_null : c.pos.isNull = false
  ne_inMempool : c.pos ≠ CDiskTxPos.inMempool

/-- A stored transaction is read back from its place. -/
theorem IsStored.coinAt {files : BlockFiles} {c : ConnectedTx} (h : c.IsStored files) (P : Params)
    (n : ℕ) : IndexView.coinAt files c.pos n = (c.ledgerTx P).outputs[n]? := by
  simp [IndexView.coinAt, h.readTx_eq, ledgerTx]

/-- What a transaction creates is the value of its outputs. -/
theorem created_ledgerTx (P : Params) (c : ConnectedTx) :
    Ledger.created Coin.nValue (c.ledgerTx P) = c.tx.valueOut := by
  simp [Ledger.created, ledgerTx, CTransaction.valueOut, Coin.nValue, Function.comp_def]

end ConnectedTx

/-- The rules a connected transaction met: it is not older than what it spends, what it spends has
matured, and an ordinary transaction creates no value. -/
structure Policy (P : Params) (u : Ledger Uint256 Coin) (t : LedgerTx Uint256 Coin ConnectedTx) :
    Prop where
  nTime_le : ∀ o ∈ t.spends, ∀ c, u o = some c → c.tx.nTime ≤ t.data.tx.nTime
  mature : ∀ o ∈ t.spends, ∀ c, u o = some c → c.tx.isGenerated = true →
    isImmature P t.data.pindex.nHeight c.pos t.data.pindex = false
  value : t.data.tx.isGenerated = false →
    Ledger.created Coin.nValue t ≤ Ledger.spent Coin.nValue u t

/-- The ledger after a row of connected transactions. -/
def replayTxs (P : Params) (txs : List ConnectedTx) : Ledger Uint256 Coin :=
  Ledger.replay (txs.map (ConnectedTx.ledgerTx P))

/-- The last connected transaction with a hash. -/
def latestTx (P : Params) (txs : List ConnectedTx) (h : Uint256) :
    Option (LedgerTx Uint256 Coin ConnectedTx) :=
  Ledger.latest (txs.map (ConnectedTx.ledgerTx P)) h

/-- Every connected transaction was valid. -/
def ValidTxs (P : Params) (txs : List ConnectedTx) : Prop :=
  Ledger.ValidRun (Policy P) (txs.map (ConnectedTx.ledgerTx P))

section

variable {P : Params} {txs : List ConnectedTx} {c : ConnectedTx}

/-- One more transaction. -/
theorem replayTxs_concat :
    replayTxs P (txs ++ [c]) = (replayTxs P txs).apply (c.ledgerTx P) := by
  simp [replayTxs]

/-- The last one wins its hash. -/
theorem latestTx_concat (h : Uint256) : latestTx P (txs ++ [c]) h =
    if P.hashTx c.tx = h then some (c.ledgerTx P) else latestTx P txs h := by
  simp only [latestTx, List.map_append, List.map_cons, List.map_nil, Ledger.latest_concat,
    ConnectedTx.ledgerTx]

/-- The latest transaction of a hash is one of the row. -/
theorem mem_of_latestTx {h : Uint256} (hl : latestTx P txs h = some (c.ledgerTx P)) : c ∈ txs := by
  obtain ⟨c', hmem, heq⟩ :=
    List.mem_map.mp (List.mem_reverse.mp (List.mem_of_find?_eq_some hl))
  have hdata : c' = c := congrArg LedgerTx.data heq
  exact hdata ▸ hmem

/-- A valid row with one more valid transaction. -/
theorem ValidTxs.concat (h : ValidTxs P txs)
    (hc : Ledger.Valid (Policy P) (replayTxs P txs) (c.ledgerTx P)) : ValidTxs P (txs ++ [c]) := by
  rw [ValidTxs, List.map_append]
  exact Ledger.ValidRun.concat h hc

/-- The beginning of a valid row. -/
theorem ValidTxs.of_append {later : List ConnectedTx} (h : ValidTxs P (txs ++ later)) :
    ValidTxs P txs := by
  rw [ValidTxs, List.map_append] at h
  exact h.of_append

/-- The last transaction of a valid row. -/
theorem ValidTxs.valid_last (h : ValidTxs P (txs ++ [c])) :
    Ledger.Valid (Policy P) (replayTxs P txs) (c.ledgerTx P) := by
  rw [ValidTxs, List.map_append] at h
  exact h.valid_last

end

/-- The index shows the ledger of a row of connected transactions. -/
structure IndexOk (P : Params) (files : BlockFiles) (txs : List ConnectedTx) (L : IndexView) :
    Prop where
  unspent_eq : L.unspent files = replayTxs P txs
  /-- An entry is that of the last transaction with its hash. -/
  entry : ∀ h e, L h = some e → ∃ c : ConnectedTx, latestTx P txs h = some (c.ledgerTx P) ∧
    e.pos = c.pos ∧ e.vSpent.length = c.tx.vout.length

/-- The empty index. -/
theorem IndexOk.empty (P : Params) (files : BlockFiles) : IndexOk P files [] (fun _ => none) := by
  refine ⟨?_, fun h e he => absurd he (by simp)⟩
  funext o
  simp [unspent, nullAt, replayTxs, Ledger.empty]

variable {P : Params} {files : BlockFiles} {txs : List ConnectedTx} {L L' : IndexView}
  {c : ConnectedTx}

/-- Marking outputs changes neither the position nor the size of an entry. -/
theorem IndexView.Marked.entry {os : List (Uint256 × ℕ)} {fNull : Bool} {h : Uint256}
    {e : CTxIndex} (hm : Marked L L' os fNull) (he : L' h = some e) :
    ∃ e₀, L h = some e₀ ∧ e₀.pos = e.pos ∧ e₀.vSpent.length = e.vSpent.length := by
  have hpos := congrFun hm.posOf_eq h
  have hlen := congrFun hm.outputsOf_eq h
  simp only [posOf, outputsOf, he, Option.map_some] at hpos hlen
  cases hL : L h with
  | none => simp [hL] at hpos
  | some e₀ =>
    simp only [hL, Option.map_some, Option.some.injEq] at hpos hlen
    exact ⟨e₀, rfl, hpos.symm, hlen.symm⟩

/-- Marking outputs adds and removes no entry. -/
theorem IndexView.Marked.isSome_iff {os : List (Uint256 × ℕ)} {fNull : Bool}
    (hm : Marked L L' os fNull) (h : Uint256) : (L' h).isSome ↔ (L h).isSome := by
  have hpos := congrFun hm.posOf_eq h
  simp only [posOf] at hpos
  rw [← Option.isSome_map (f := CTxIndex.pos), hpos, Option.isSome_map]

/-- An output that is not spent has an entry. -/
theorem IndexView.isSome_of_nullAt {o : Uint256 × ℕ} (h : L.nullAt o = true) :
    (L o.1).isSome := by
  cases hL : L o.1 with
  | none => simp [nullAt, hL] at h
  | some e => rfl

/-- The unspent outputs after some are marked. -/
theorem IndexView.Marked.unspent {os : List (Uint256 × ℕ)} {fNull : Bool}
    (hm : Marked L L' os fNull) (o : Uint256 × ℕ) :
    L'.unspent files o = if o ∈ os then
      (if fNull then (L.posOf o.1).bind (fun pos => coinAt files pos o.2) else none)
      else L.unspent files o := by
  simp only [IndexView.unspent, hm.nullAt_eq, hm.posOf_eq]
  split_ifs <;> rfl

/-- A new entry shows all the outputs of its transaction. -/
theorem unspent_new_self (hc : c.IsStored files) (n : ℕ) :
    unspent files (Function.update L' (P.hashTx c.tx)
      (some (CTxIndex.new c.pos c.tx.vout.length))) (P.hashTx c.tx, n) =
      (c.ledgerTx P).outputs[n]? := by
  by_cases hn : n < c.tx.vout.length
  · simp [unspent, nullAt, posOf, CTxIndex.new, hc.coinAt P, hn]
  · have hnone : (c.ledgerTx P).outputs[n]? = none := by
      simp [ConnectedTx.ledgerTx]
      omega
    rw [hnone]
    simp [unspent, nullAt, CTxIndex.new, hn]

/-- And leaves all other entries. -/
theorem unspent_update_of_ne {h : Uint256} {o : Uint256 × ℕ} (hne : o.1 ≠ h)
    (e : Option CTxIndex) : unspent files (Function.update L h e) o = unspent files L o := by
  have hnull : nullAt (Function.update L h e) o = L.nullAt o := by simp [nullAt, hne]
  have hpos : posOf (Function.update L h e) o.1 = L.posOf o.1 := by simp [posOf, hne]
  rw [unspent, unspent, hnull, hpos]

/-- Marking the spent outputs and adding an entry is applying the transaction. -/
theorem IndexOk.apply (hok : IndexOk P files txs L) (hc : c.IsStored files)
    (hm : Marked L L' (c.ledgerTx P).spends false) :
    IndexOk P files (txs ++ [c])
      (Function.update L' (P.hashTx c.tx) (some (CTxIndex.new c.pos c.tx.vout.length))) := by
  refine ⟨?_, fun h e he => ?_⟩
  · funext o
    rw [replayTxs_concat, Ledger.apply_eq]
    -- under its own hash the entry is new
    by_cases hid : o.1 = P.hashTx c.tx
    · rw [if_pos (show o.1 = (c.ledgerTx P).id from hid)]
      rw [show o = (P.hashTx c.tx, o.2) from Prod.ext hid rfl]
      exact unspent_new_self hc o.2
    · -- elsewhere the marked outputs are the spent ones
      rw [if_neg (show ¬ o.1 = (c.ledgerTx P).id from hid), unspent_update_of_ne hid, hm.unspent,
        ← hok.unspent_eq]
      rfl
  · by_cases hid : h = P.hashTx c.tx
    · subst hid
      rw [Function.update_self, Option.some.injEq] at he
      subst he
      exact ⟨c, by rw [latestTx_concat, if_pos rfl], rfl, by simp [CTxIndex.new]⟩
    · -- another entry keeps its place and its number of outputs
      rw [Function.update_of_ne hid] at he
      obtain ⟨e₀, hL, hpos, hlen⟩ := hm.entry he
      obtain ⟨c₀, hlatest, hpos₀, hlen₀⟩ := hok.entry h e₀ hL
      refine ⟨c₀, ?_, hpos.symm.trans hpos₀, hlen.symm.trans hlen₀⟩
      rw [latestTx_concat, if_neg (fun heq => hid heq.symm)]
      exact hlatest

/-- Marking the spent outputs as not spent and erasing the entry takes the transaction back. -/
theorem IndexOk.undo (hok : IndexOk P files (txs ++ [c]) L) (hvalid : ValidTxs P (txs ++ [c]))
    (hstored : ∀ c ∈ txs, c.IsStored files)
    (hin : ∀ o ∈ (c.ledgerTx P).spends, (L o.1).isSome)
    (hm : Marked L L' (c.ledgerTx P).spends true) :
    IndexOk P files txs (Function.update L' (P.hashTx c.tx) none) := by
  have hlast := hvalid.valid_last
  refine ⟨?_, fun h e he => ?_⟩
  · rw [← Ledger.undo_apply hlast, ← replayTxs_concat, ← hok.unspent_eq]
    funext o
    rw [Ledger.undo]
    by_cases hid : o.1 = P.hashTx c.tx
    · rw [if_pos (show o.1 = (c.ledgerTx P).id from hid)]
      -- without its entry no output of it is left
      simp [unspent, nullAt, hid]
    · rw [if_neg (show ¬ o.1 = (c.ledgerTx P).id from hid), unspent_update_of_ne hid, hm.unspent,
        if_pos rfl]
      split_ifs with hspent
      · -- the entry is still that of the transaction whose output was spent
        obtain ⟨e, he⟩ := Option.isSome_iff_exists.mp (hin o hspent)
        obtain ⟨c₀, hlatest, hpos, -⟩ := hok.entry o.1 e he
        rw [latestTx_concat, if_neg (fun heq => hid heq.symm)] at hlatest
        obtain ⟨coin, hcoin⟩ := Option.isSome_iff_exists.mp (hlast.unspent o hspent)
        obtain ⟨t, ht, hout⟩ := Ledger.latest_of_replay hcoin
        rw [show t = c₀.ledgerTx P from Option.some.inj (ht.symm.trans hlatest)] at hout
        rw [posOf, he, Option.map_some, Option.bind_some, hpos, (hstored c₀ (mem_of_latestTx hlatest)).coinAt P, hout]
        exact hcoin.symm
      · rfl
  · by_cases hid : h = P.hashTx c.tx
    · rw [hid, Function.update_self] at he
      exact absurd he (by simp)
    · rw [Function.update_of_ne hid] at he
      obtain ⟨e₀, hL, hpos, hlen⟩ := hm.entry he
      obtain ⟨c₀, hlatest, hpos₀, hlen₀⟩ := hok.entry h e₀ hL
      rw [latestTx_concat, if_neg (fun heq => hid heq.symm)] at hlatest
      exact ⟨c₀, hlatest, hpos.symm.trans hpos₀, hlen.symm.trans hlen₀⟩

/-! ### The loop of `ConnectBlock` -/

section Connect

variable {env : ConnectEnv} {pindex : CBlockIndex} {pprev : BlockPtr} {fStrict : Bool}
  {st st' : ConnectState} {tx : CTransaction}

/-- What a fetched input is on the ledger. -/
theorem IndexOk.coin_of_inputOk {inputs : MapPrevTx} {pindexBlock : BlockPtr} {txin : CTxIn}
    {prev : CTxIndex × CTransaction} {txout : CTxOut} (hok : IndexOk P env.files txs L)
    (hstored : ∀ c ∈ txs, c.IsStored env.files)
    (hfetched : ∀ h prev, inputs.lookup h = some prev → Fetched env L h prev)
    (hin : InputOk P pindexBlock tx inputs txin prev txout)
    (hnull : L.nullAt txin.prevout.key = true) :
    replayTxs P txs txin.prevout.key = some ⟨prev.2, prev.1.pos, txout⟩ := by
  obtain ⟨hL, hread⟩ := hfetched _ _ hin.prev_eq
  obtain ⟨c, hlatest, hpos, -⟩ := hok.entry _ _ hL
  have hne : prev.1.pos ≠ CDiskTxPos.inMempool := by
    rw [hpos]
    exact (hstored c (mem_of_latestTx hlatest)).ne_inMempool
  rw [← hok.unspent_eq, unspent, if_pos hnull]
  simp [posOf, COutPoint.key, hL, coinAt, hread hne, hin.out_eq]

/-- A success of the branch for transactions with inputs, taken apart. -/
theorem connectSpending_eq_ok {pindexBlock : BlockPtr} {pos : CDiskTxPos}
    (hcb : tx.isCoinBase = false)
    (h : connectSpending P env pindexBlock fStrict pos st tx = .ok st') :
    ∃ inputs, tx.fetchInputs env st.mapQueuedChanges true false = .ok inputs ∧
      (∀ txin ∈ tx.vin, ∃ prev txout, InputOk P pindexBlock tx inputs txin prev txout) ∧
      spendInputs P env tx pos true false fStrict tx.vin 0 inputs st.mapQueuedChanges
        = .ok st'.mapQueuedChanges ∧
      checkValue P env tx (tx.vin.map (inputValue inputs)).sum true = .ok () ∧
      st'.nTxPos = st.nTxPos ∧
      st'.nValueIn = st.nValueIn + (tx.vin.map (inputValue inputs)).sum ∧
      st'.nValueOut = st.nValueOut + tx.valueOut := by
  simp only [connectSpending, CTransaction.connectInputs, hcb, Bool.false_eq_true, if_false,
    Result.bind_eq_ok] at h
  obtain ⟨inputs, hfetch, nSigOps, -, vin, hvin, vout, hvout, queue, ⟨v, hcheck, queue', hspend, _,
    hvalue, hqueue⟩, hst⟩ := h
  cases hqueue
  cases hst
  -- the two sums are those of the inputs and of the outputs
  obtain ⟨hall, hv⟩ := checkInputs_eq_ok hcheck
  rw [zero_add] at hv
  subst hv
  have hin := CTransaction.getValueIn_eq_ok hcb hvin
  have hout := CTransaction.getValueOut_eq_ok hvout
  subst hin hout
  exact ⟨inputs, hfetch, hall, hspend, hvalue, rfl, rfl, rfl⟩

/-- What a success of one round says, for both kinds of transactions. -/
theorem connectTransaction_eq_ok
    (h : connectTransaction P env pindex pprev fStrict st tx = .ok st') :
    ∃ st₁, connectValue P env (pindex :: pprev) fStrict ⟨pindex.nFile, pindex.nBlockPos, st.nTxPos⟩
        { st with
          nSigOps := st.nSigOps + tx.getLegacySigOpCount
          nTxPos := st.nTxPos + tx.getSerializeSize } tx = .ok st₁ ∧
      st' = { st₁ with
        mapQueuedChanges := st₁.mapQueuedChanges.insert (P.hashTx tx)
          (CTxIndex.new ⟨pindex.nFile, pindex.nBlockPos, st.nTxPos⟩ tx.vout.length) } := by
  simp only [connectTransaction, Result.bind_eq_ok, require_eq_ok] at h
  obtain ⟨-, -, st₁, hvalue, hst⟩ := h
  cases hst
  exact ⟨st₁, hvalue, rfl⟩

/-- What a transaction may add to the money supply: a coinbase its outputs, a coinstake the reward
for its coin age, any other nothing. -/
def allowance (P : Params) (env : ConnectEnv) (tx : CTransaction) : Int :=
  if tx.isCoinBase then tx.valueOut
  else if tx.isCoinStake then getProofOfStakeReward ((tx.getCoinAge P env).getD 0)
  else 0

/-- A transaction that has passed creates no more than it is allowed. -/
theorem checkValue_eq_ok {nValueIn : Int} {fBlock : Bool} {u : Unit} (hcb : tx.isCoinBase = false)
    (h : checkValue P env tx nValueIn fBlock = .ok u) :
    tx.valueOut - nValueIn ≤ allowance P env tx := by
  rw [allowance, if_neg (by simp [hcb])]
  unfold checkValue at h
  split_ifs at h ⊢ with hcs
  · -- a coinstake: the fee in the bound is at least the base fee that is added back
    unfold checkStakeReward at h
    split at h
    · exact absurd h (by simp)
    · next nCoinAge hage =>
      simp only [Result.bind_eq_ok, require_eq_ok, decide_eq_true_eq] at h
      obtain ⟨vout, hvout, hle⟩ := h
      rw [← CTransaction.getValueOut_eq_ok hvout, hage, Option.getD_some]
      have := tx.le_getMinFee
      omega
  · simp only [checkFees, Result.bind_eq_ok, require_eq_ok, decide_eq_true_eq] at h
    obtain ⟨vout, hvout, -, hle, -⟩ := h
    rw [← CTransaction.getValueOut_eq_ok hvout]
    omega

/-- The `ConnectedTx` of one round. -/
def roundTx (pindex : CBlockIndex) (pprev : BlockPtr) (nTxPos : ℕ) (tx : CTransaction) :
    ConnectedTx :=
  ⟨pindex :: pprev, ⟨pindex.nFile, pindex.nBlockPos, nTxPos⟩, tx⟩

/-- One round of `ConnectBlock` is a valid step of the ledger. -/
structure RoundOk (P : Params) (env : ConnectEnv) (txs : List ConnectedTx) (c : ConnectedTx)
    (st st' : ConnectState) : Prop where
  valid : Ledger.Valid (Policy P) (replayTxs P txs) (c.ledgerTx P)
  index : IndexOk P env.files (txs ++ [c]) (queued st'.mapQueuedChanges env.txIndex)
  nTxPos : st'.nTxPos = st.nTxPos + c.tx.getSerializeSize
  supply : st'.nValueOut - st'.nValueIn = st.nValueOut - st.nValueIn + (c.tx.valueOut
    - Ledger.spent Coin.nValue (replayTxs P txs) (c.ledgerTx P))
  bound : c.tx.valueOut - Ledger.spent Coin.nValue (replayTxs P txs) (c.ledgerTx P)
    ≤ allowance P env c.tx
  /-- No entry is lost, and the entries of what was spent are there. -/
  entries : ∀ h, (queued st.mapQueuedChanges env.txIndex h).isSome →
    (queued st'.mapQueuedChanges env.txIndex h).isSome
  spentEntries : ∀ o ∈ (c.ledgerTx P).spends,
    (queued st'.mapQueuedChanges env.txIndex o.1).isSome

/-- Adding an entry loses none. -/
theorem isSome_update_of_marked {os : List (Uint256 × ℕ)} {fNull : Bool} {e : CTxIndex}
    (hm : Marked L L' os fNull) (k h : Uint256) (hL : (L h).isSome) :
    (Function.update L' k (some e) h).isSome := by
  rw [Function.update_apply]
  split_ifs
  · rfl
  · exact (hm.isSome_iff h).mpr hL

/-- A coinbase adds its entry and spends nothing. -/
theorem IndexOk.connectCoinBase
    (hok : IndexOk P env.files txs (queued st.mapQueuedChanges env.txIndex))
    (hc : (roundTx pindex pprev st.nTxPos tx).IsStored env.files)
    (hfresh : ∀ n, replayTxs P txs (P.hashTx tx, n) = none) (hcb : tx.isCoinBase = true)
    (h : connectTransaction P env pindex pprev fStrict st tx = .ok st') :
    RoundOk P env txs (roundTx pindex pprev st.nTxPos tx) st st' := by
  obtain ⟨st₁, hvalue, rfl⟩ := connectTransaction_eq_ok h
  rw [connectValue, if_pos hcb] at hvalue
  obtain ⟨vout, hvout, hst⟩ := Result.bind_eq_ok.mp hvalue
  cases hst
  -- a coinbase spends nothing, so nothing is marked
  have hspends : ((roundTx pindex pprev st.nTxPos tx).ledgerTx P).spends = [] := by
    simp [ConnectedTx.ledgerTx, roundTx, hcb]
  have hspent : Ledger.spent Coin.nValue (replayTxs P txs)
      ((roundTx pindex pprev st.nTxPos tx).ledgerTx P) = 0 := by
    simp [Ledger.spent, hspends]
  have hmarked := Marked.nil (L := queued st.mapQueuedChanges env.txIndex) false
  refine ⟨⟨?_, ?_, hfresh, ⟨?_, ?_, ?_⟩⟩, ?_, rfl, ?_, ?_, ?_, ?_⟩
  · simp [hspends]
  · simp [hspends]
  · simp [hspends]
  · simp [hspends]
  · -- it is generated, so nothing is asked of its inputs
    intro hgen
    simp [ConnectedTx.ledgerTx, roundTx, CTransaction.isGenerated, hcb] at hgen
  · rw [queued_insert]
    exact hok.apply hc (hspends ▸ hmarked)
  · rw [hspent]
    change st.nValueOut + vout - st.nValueIn
      = st.nValueOut - st.nValueIn + (tx.valueOut - 0)
    rw [CTransaction.getValueOut_eq_ok hvout]
    ring
  · rw [hspent, sub_zero]
    exact le_of_eq (if_pos hcb).symm
  · rw [queued_insert]
    exact isSome_update_of_marked hmarked _
  · simp [hspends]

/-- **The step lemma.** A successful round of `ConnectBlock` on an index that shows the ledger. -/
theorem IndexOk.connectTransaction
    (hok : IndexOk P env.files txs (queued st.mapQueuedChanges env.txIndex))
    (hstored : ∀ c ∈ txs, c.IsStored env.files)
    (hc : (roundTx pindex pprev st.nTxPos tx).IsStored env.files)
    (hfresh : ∀ n, replayTxs P txs (P.hashTx tx, n) = none)
    (h : connectTransaction P env pindex pprev fStrict st tx = .ok st') :
    RoundOk P env txs (roundTx pindex pprev st.nTxPos tx) st st' := by
  -- a coinbase spends nothing
  by_cases hcb : tx.isCoinBase = true
  · exact hok.connectCoinBase hc hfresh hcb h
  rw [Bool.not_eq_true] at hcb
  obtain ⟨st₁, hround, rfl⟩ := connectTransaction_eq_ok h
  rw [connectValue, if_neg (by simp [hcb])] at hround
  -- any other transaction has passed `FetchInputs` and `ConnectInputs`
  obtain ⟨inputs, hfetch, hinputs, hspend, hvalue, hpos, hin, hout⟩ :=
    connectSpending_eq_ok hcb hround
  have hfetched := CTransaction.fetchInputs_eq_ok rfl hfetch
  obtain ⟨hmarked, hnodup, hnull⟩ :=
    spendInputs_eq_ok rfl hc.not_null (fun h prev hlook => (hfetched h prev hlook).1) hspend
  have hspends : ((roundTx pindex pprev st.nTxPos tx).ledgerTx P).spends = keys tx.vin := by
    simp [ConnectedTx.ledgerTx, roundTx, hcb]
  -- the coin behind each input, with what was checked of it
  have hcoin : ∀ txin ∈ tx.vin, ∃ prev txout, InputOk P (pindex :: pprev) tx inputs txin prev txout ∧
      replayTxs P txs txin.prevout.key = some ⟨prev.2, prev.1.pos, txout⟩ := by
    intro txin hmem
    obtain ⟨prev, txout, hinput⟩ := hinputs txin hmem
    exact ⟨prev, txout, hinput, hok.coin_of_inputOk hstored hfetched hinput
      (hnull _ (List.mem_map_of_mem hmem))⟩
  -- the value that the ledger finds is the value of the inputs
  have hspent : Ledger.spent Coin.nValue (replayTxs P txs)
      ((roundTx pindex pprev st.nTxPos tx).ledgerTx P) = (tx.vin.map (inputValue inputs)).sum := by
    rw [Ledger.spent, hspends, keys, List.map_map]
    refine congrArg List.sum (List.map_congr_left (fun txin hmem => ?_))
    obtain ⟨prev, txout, hinput, hu⟩ := hcoin txin hmem
    simp [Ledger.valueAt, hu, Coin.nValue, inputValue, hinput.prev_eq, hinput.out_eq]
  have hspentCoin : ∀ o ∈ ((roundTx pindex pprev st.nTxPos tx).ledgerTx P).spends,
      ∃ txin ∈ tx.vin, o = txin.prevout.key := by
    intro o ho
    rw [hspends] at ho
    obtain ⟨txin, hmem, rfl⟩ := List.mem_map.mp ho
    exact ⟨txin, hmem, rfl⟩
  have hbound := checkValue_eq_ok hcb hvalue
  -- the transaction is valid for the ledger, and the round has counted it
  refine ⟨⟨hspends ▸ hnodup, ?_, hfresh, ⟨?_, ?_, ?_⟩⟩, ?_, hpos, ?_, ?_, ?_, ?_⟩
  · intro o ho
    obtain ⟨txin, hmem, rfl⟩ := hspentCoin o ho
    obtain ⟨prev, txout, -, hu⟩ := hcoin txin hmem
    rw [hu]
    rfl
  · -- no input is later than the transaction
    intro o ho coin hcoin'
    obtain ⟨txin, hmem, rfl⟩ := hspentCoin o ho
    obtain ⟨prev, txout, hinput, hu⟩ := hcoin txin hmem
    cases hu.symm.trans hcoin'
    exact hinput.nTime_le
  · -- no input is immature
    intro o ho coin hcoin' hgen
    obtain ⟨txin, hmem, rfl⟩ := hspentCoin o ho
    obtain ⟨prev, txout, hinput, hu⟩ := hcoin txin hmem
    cases hu.symm.trans hcoin'
    exact hinput.mature hgen
  · -- nothing is created but by coinbases and coinstakes
    intro hgen
    have hcs : tx.isCoinStake = false := (Bool.or_eq_false_iff.mp hgen).2
    rw [ConnectedTx.created_ledgerTx, hspent]
    rw [allowance, if_neg (by simp [hcb]), if_neg (by simp [hcs])] at hbound
    exact sub_nonpos.mp hbound
  · -- the index after the round
    rw [queued_insert]
    exact hok.apply hc (hspends ▸ hmarked)
  · rw [hspent]
    simp only [roundTx] at hin hout ⊢
    rw [hin, hout]
    ring
  · rw [hspent]
    exact hbound
  · rw [queued_insert]
    exact isSome_update_of_marked hmarked _
  · intro o ho
    rw [queued_insert]
    exact isSome_update_of_marked hmarked _ _ (isSome_of_nullAt (hnull o (hspends ▸ ho)))

/-- The transactions of a block as they are connected, with their offsets. -/
def blockTxs (pindex : CBlockIndex) (pprev : BlockPtr) : ℕ → List CTransaction → List ConnectedTx
  | _, [] => []
  | nTxPos, tx :: vtx =>
    roundTx pindex pprev nTxPos tx :: blockTxs pindex pprev (nTxPos + tx.getSerializeSize) vtx

/-- The transactions of a block. -/
theorem map_tx_blockTxs (pindex : CBlockIndex) (pprev : BlockPtr) (nTxPos : ℕ)
    (vtx : List CTransaction) : (blockTxs pindex pprev nTxPos vtx).map ConnectedTx.tx = vtx := by
  induction vtx generalizing nTxPos with
  | nil => rfl
  | cons tx vtx ih => rw [blockTxs, List.map_cons, ih, roundTx]

/-- The value of the coins of a ledger. -/
noncomputable def supply (P : Params) (txs : List ConnectedTx) : Int :=
  Ledger.total Coin.nValue (replayTxs P txs)

/-- The supply after one more transaction. -/
theorem supply_concat (h : Ledger.Valid (Policy P) (replayTxs P txs) (c.ledgerTx P)) :
    supply P (txs ++ [c]) = supply P txs + (c.tx.valueOut
      - Ledger.spent Coin.nValue (replayTxs P txs) (c.ledgerTx P)) := by
  have hfin : (replayTxs P txs).Finite := Ledger.Finite.replay _
  rw [supply, supply, replayTxs_concat, Ledger.total_apply Coin.nValue hfin h,
    ConnectedTx.created_ledgerTx]
  ring

/-- The first transaction spends an output under the hash of the second one, which comes later. -/
def RespendsHash (P : Params) (c c' : ConnectedTx) : Prop :=
  ∃ o ∈ (c.ledgerTx P).spends, o.1 = P.hashTx c'.tx

/-- The loop of `ConnectBlock` as a run of the ledger from `txs` over `new`. -/
structure LoopOk (P : Params) (env : ConnectEnv) (txs new : List ConnectedTx)
    (vtx : List CTransaction) (st st' : ConnectState) : Prop where
  valid : ValidTxs P (txs ++ new)
  index : IndexOk P env.files (txs ++ new) (queued st'.mapQueuedChanges env.txIndex)
  supply_eq : supply P (txs ++ new) - supply P txs
    = (st'.nValueOut - st'.nValueIn) - (st.nValueOut - st.nValueIn)
  supply_le : supply P (txs ++ new) - supply P txs ≤ (vtx.map (allowance P env)).sum
  entries : ∀ h, (queued st.mapQueuedChanges env.txIndex h).isSome →
    (queued st'.mapQueuedChanges env.txIndex h).isSome
  spentEntries : ∀ c ∈ new, ∀ o ∈ (c.ledgerTx P).spends,
    (queued st'.mapQueuedChanges env.txIndex o.1).isSome
  /-- Inside a block no hash comes back after an output under it was spent. -/
  noRespend : new.Pairwise (fun c c' => ¬ RespendsHash P c c')

/-- **The run lemma.** A successful loop of `ConnectBlock` over transactions with new and distinct
hashes. -/
theorem IndexOk.connectTransactions {vtx : List CTransaction}
    (hok : IndexOk P env.files txs (queued st.mapQueuedChanges env.txIndex))
    (hvalid : ValidTxs P txs) (hstored : ∀ c ∈ txs, c.IsStored env.files)
    (hc : ∀ c ∈ blockTxs pindex pprev st.nTxPos vtx, c.IsStored env.files)
    (hfresh : ∀ tx ∈ vtx, ∀ n, replayTxs P txs (P.hashTx tx, n) = none)
    (hnodup : (vtx.map P.hashTx).Nodup)
    (h : connectTransactions P env pindex pprev fStrict vtx st = .ok st') :
    LoopOk P env txs (blockTxs pindex pprev st.nTxPos vtx) vtx st st' := by
  induction vtx generalizing txs st with
  | nil =>
    cases h
    rw [blockTxs]
    refine ⟨?_, ?_, ?_, ?_, fun _ h => h, by simp, List.Pairwise.nil⟩
    · rw [List.append_nil]
      exact hvalid
    · rw [List.append_nil]
      exact hok
    · rw [List.append_nil]
      ring
    · simp
  | cons tx vtx ih =>
    rw [blockTxs] at hc ⊢
    obtain ⟨hthis, hrest⟩ := List.forall_mem_cons.mp hc
    obtain ⟨hnew, hnodup'⟩ := List.nodup_cons.mp hnodup
    obtain ⟨st₁, hround, hloop⟩ := Result.bind_eq_ok.mp h
    -- the first round
    obtain ⟨hv, hindex, hpos, hsupply, hbound, hentries, hspent⟩ :=
      hok.connectTransaction hstored hthis (hfresh tx List.mem_cons_self) hround
    have hpos' : st₁.nTxPos = st.nTxPos + tx.getSerializeSize := hpos
    rw [← hpos'] at hrest ⊢
    -- the hashes of the others are still free
    have hfresh' : ∀ t ∈ vtx, ∀ n, replayTxs P (txs ++ [roundTx pindex pprev st.nTxPos tx])
        (P.hashTx t, n) = none := by
      intro t ht n
      have hne : ¬ P.hashTx t = ((roundTx pindex pprev st.nTxPos tx).ledgerTx P).id := fun heq =>
        hnew (List.mem_map.mpr ⟨t, ht, heq⟩)
      rw [replayTxs_concat, Ledger.apply_eq, if_neg hne, hfresh t (List.mem_cons_of_mem _ ht) n,
        ite_self]
    have hstored' : ∀ c ∈ txs ++ [roundTx pindex pprev st.nTxPos tx], c.IsStored env.files := by
      intro c hmem
      rcases List.mem_append.mp hmem with hmem | hmem
      · exact hstored c hmem
      · rw [List.mem_singleton.mp hmem]
        exact hthis
    -- the other rounds, by the induction hypothesis
    obtain ⟨hval, hidx, hsum, hle, hentries', hspent', hnone⟩ :=
      ih hindex (hvalid.concat hv) hstored' hrest hfresh' hnodup' hloop
    rw [supply_concat hv] at hsum hle
    rw [List.append_assoc, List.singleton_append] at hval hidx hsum hle
    refine ⟨hval, hidx, ?_, ?_, fun h hh => hentries' h (hentries h hh), ?_, ?_⟩
    · linarith
    · have hb : (roundTx pindex pprev st.nTxPos tx).tx = tx := rfl
      rw [hb] at hbound hle
      rw [List.map_cons, List.sum_cons]
      linarith
    · exact List.forall_mem_cons.mpr ⟨fun o ho => hentries' o.1 (hspent o ho), hspent'⟩
    · refine List.pairwise_cons.mpr ⟨fun c hc hre => ?_, hnone⟩
      -- what the first transaction spends was there before the block, under a hash no transaction
      -- of the block has
      obtain ⟨o, ho, heq⟩ := hre
      have hmem : c.tx ∈ tx :: vtx := by
        rw [← map_tx_blockTxs pindex pprev st₁.nTxPos vtx]
        exact List.mem_cons_of_mem _ (List.mem_map_of_mem hc)
      have hsome := hv.unspent o ho
      rw [show o = (P.hashTx c.tx, o.2) from Prod.ext heq rfl, hfresh c.tx hmem] at hsome
      exact absurd hsome (by simp)

end Connect

/-! ### The loop of `DisconnectBlock` -/

section Disconnect

variable {txIndex txIndex' : TxIndexMap} {tx : CTransaction}

/-- `DisconnectInputs` clears the marks of its inputs and erases its own entry. -/
theorem disconnectInputs_eq_ok (hc : c.tx = tx)
    (h : tx.disconnectInputs P txIndex = .ok txIndex') :
    ∃ L₁, Marked txIndex.lookup L₁ (c.ledgerTx P).spends true ∧
      txIndex'.lookup = Function.update L₁ (P.hashTx tx) none := by
  subst hc
  simp only [CTransaction.disconnectInputs, Result.bind_eq_ok] at h
  obtain ⟨idx, hunspend, hpure⟩ := h
  cases hpure
  refine ⟨idx.lookup, ?_, ?_⟩
  · have hspends : (c.ledgerTx P).spends = keys (if c.tx.isCoinBase then [] else c.tx.vin) := by
      simp only [ConnectedTx.ledgerTx]
      split_ifs <;> rfl
    rw [hspends]
    exact unspendInputs_eq_ok hunspend
  · exact Map.lookup_erase_update _ _

/-- Every output a transaction spends has an entry when it is disconnected with success. -/
theorem isSome_of_disconnectInputs (h : c.tx.disconnectInputs P txIndex = .ok txIndex') :
    ∀ o ∈ (c.ledgerTx P).spends, (txIndex.lookup o.1).isSome := by
  simp only [CTransaction.disconnectInputs, Result.bind_eq_ok] at h
  obtain ⟨idx, hunspend, -⟩ := h
  have hall := unspendInputs_isOk_iff.mp ⟨idx, hunspend⟩
  intro o ho
  have hmem : o ∈ keys (if c.tx.isCoinBase then [] else c.tx.vin) := by
    simp only [ConnectedTx.ledgerTx] at ho
    split_ifs at ho ⊢ with hcb
    · exact absurd ho (by simp)
    · exact ho
  obtain ⟨n, hn, -⟩ := hall o hmem
  simp only [outputsOf, Option.map_eq_some_iff] at hn
  obtain ⟨e, he, -⟩ := hn
  rw [he]
  rfl

/-- **The step lemma** for the undo. -/
theorem IndexOk.disconnectInputs (hok : IndexOk P files (txs ++ [c]) txIndex.lookup)
    (hvalid : ValidTxs P (txs ++ [c])) (hstored : ∀ c ∈ txs, c.IsStored files)
    (h : c.tx.disconnectInputs P txIndex = .ok txIndex') :
    IndexOk P files txs txIndex'.lookup := by
  obtain ⟨L₁, hmarked, hlook⟩ := disconnectInputs_eq_ok rfl h
  rw [hlook]
  exact hok.undo hvalid hstored (isSome_of_disconnectInputs h) hmarked

/-- **The run lemma** for the undo: the transactions are taken back from the last one on. -/
theorem IndexOk.disconnectTransactions {new : List ConnectedTx}
    (hok : IndexOk P files (txs ++ new) txIndex.lookup) (hvalid : ValidTxs P (txs ++ new))
    (hstored : ∀ c ∈ txs ++ new, c.IsStored files)
    (h : disconnectTransactions P (new.map ConnectedTx.tx).reverse txIndex = .ok txIndex') :
    IndexOk P files txs txIndex'.lookup := by
  induction new using List.reverseRecOn generalizing txIndex with
  | nil =>
    cases h
    simpa using hok
  | append_singleton new c ih =>
    rw [List.map_append, List.reverse_append] at h
    obtain ⟨idx, hstep, hrest⟩ := Result.bind_eq_ok.mp h
    rw [← List.append_assoc] at hok hvalid hstored
    have hstored' : ∀ c ∈ txs ++ new, c.IsStored files :=
      fun c hmem => hstored c (List.mem_append_left _ hmem)
    exact ih (hok.disconnectInputs hvalid hstored' hstep) hvalid.of_append hstored' hrest

end Disconnect

end Peershares
