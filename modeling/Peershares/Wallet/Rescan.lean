import Peershares.Model.Reaccept
import Peershares.Wallet.Flags

/-!
# One pass over a wallet and one scan of the chain

The two halves of a round of `ReacceptWalletTransactions`. The first goes over the entries of the wallet and looks
at the spent markers of the index; the second reads the main chain and offers each transaction to the wallet.

A pass changes nothing but flags. An entry that is passed over keeps its own, and of the others each own output
that the index has as spent gets its flag (`repairs`); no flag is ever cleared. The entries do not depend on each
other, so the pass is computed entry by entry and then as a whole (`foldl_reacceptEntry`).

A scan can change more, since a transaction that the wallet did not have brings a new entry with it and flags what
it spends. `ScanOk` says what is known afterwards, and how often the scan found something new; it is put together
one transaction at a time (`ScanOk.nil`, `ScanOk.cons`), with `Grows` for what has only become more.

* `CWallet.reacceptEntries_spec` — one pass over the entries: which outputs are flagged, and whether one was missing
* `CWallet.ScanOk` — what a scan does to a wallet
* `CWallet.scan_spec` — the scan of funded transactions returns
-/

open Framework Framework.Command

namespace Peershares

/-! ### One entry -/

namespace CWalletTx

variable {P : Params} {txIndex : TxIndexMap} {isMine : CScript → Bool} {wtx : CWalletTx} {i n : ℕ}

/-- The flag of an output. -/
def flag (wtx : CWalletTx) (n : ℕ) : Bool := n < wtx.tx.vout.length && wtx.vfSpent.getD n false

/-- The flags after one is set. -/
theorem flag_mark (hi : i < wtx.tx.vout.length) (n : ℕ) :
    (wtx.mark i true).flag n = (wtx.flag n || decide (n = i)) := by
  unfold flag
  rw [getD_vfSpent_mark]
  change (decide (n < wtx.tx.vout.length) && _) = _
  by_cases heq : n = i
  · simp [heq, hi]
  · by_cases hn : n < wtx.tx.vout.length <;> simp [heq, hn]

/-- The transaction has its own output `n`. -/
def isOwn (isMine : CScript → Bool) (tx : CTransaction) (n : ℕ) : Bool :=
  (tx.vout[n]?).any (fun txout => isMine txout.scriptPubKey)

/-- The entries of `vSpent`, of which the first is for output `i`, have output `n` as spent. -/
def hasSpent (vSpent : List CDiskTxPos) (i n : ℕ) : Bool :=
  decide (i ≤ n) && (vSpent[n - i]?).any (fun pos => !pos.isNull)

/-- Nothing is spent of an empty row. -/
theorem hasSpent_nil (i n : ℕ) : hasSpent [] i n = false := by
  simp [hasSpent]

/-- The first of the row, or one of the others. -/
theorem hasSpent_cons (pos : CDiskTxPos) (vSpent : List CDiskTxPos) (i n : ℕ) :
    hasSpent (pos :: vSpent) i n = if n = i then !pos.isNull else hasSpent vSpent (i + 1) n := by
  unfold hasSpent
  split_ifs with heq
  · simp [heq]
  · by_cases hle : i ≤ n
    · obtain ⟨k, rfl⟩ : ∃ k, n = i + 1 + k := ⟨n - i - 1, by omega⟩
      have hsub : i + 1 + k - i = k + 1 := by omega
      simp [hsub, hle]
    · have hle' : ¬i + 1 ≤ n := by omega
      simp [hle, hle']

/-- What the loop over the outputs does: it flags the own outputs that are spent, and has something to append when
one of them was not flagged. -/
structure Reaccepted (isMine : CScript → Bool) (spent : ℕ → Bool) (wtx : CWalletTx) (r : CWalletTx × List CDiskTxPos) :
    Prop where
  tx : r.1.tx = wtx.tx
  flag : ∀ n, r.1.flag n = (wtx.flag n || (spent n && isOwn isMine wtx.tx n))
  missing : r.2 = [] ↔ ∀ n, spent n = true → isOwn isMine wtx.tx n = true → wtx.flag n = true

/-- An output that is flagged or need not be makes no difference. -/
theorem Reaccepted.cons {pos : CDiskTxPos} {vSpent : List CDiskTxPos} {r : CWalletTx × List CDiskTxPos}
    (h : Reaccepted isMine (hasSpent vSpent (i + 1)) wtx r)
    (hi : (!pos.isNull && isOwn isMine wtx.tx i) = true → wtx.flag i = true) :
    Reaccepted isMine (hasSpent (pos :: vSpent) i) wtx r := by
  refine ⟨h.tx, fun n => ?_, ?_⟩
  · rw [h.flag, hasSpent_cons]
    split_ifs with heq
    · -- the output in front is the one that is looked at
      subst heq
      have hnext : hasSpent vSpent (n + 1) n = false := by simp [hasSpent]
      rw [hnext, Bool.false_and, Bool.or_false]
      cases hneed : !pos.isNull && isOwn isMine wtx.tx n with
      | false => rw [Bool.or_false]
      | true => rw [hi hneed, Bool.true_or]
    · rfl
  · rw [h.missing]
    refine forall_congr' fun n => ?_
    rw [hasSpent_cons]
    -- likewise for what is missing
    split_ifs with heq
    · subst heq
      have hnext : hasSpent vSpent (n + 1) n = false := by simp [hasSpent]
      rw [hnext]
      exact ⟨fun _ hspent hown => hi (by rw [hspent, hown]; rfl), fun _ hfalse => absurd hfalse Bool.false_ne_true⟩
    · rfl

/-- The loop over the outputs, by induction on the row. -/
theorem reaccepted_outputs (vSpent : List CDiskTxPos) (hlen : i + vSpent.length ≤ wtx.tx.vout.length) :
    Reaccepted isMine (hasSpent vSpent i) wtx (wtx.reacceptOutputs isMine i vSpent) := by
  induction vSpent generalizing i wtx with
  | nil =>
    refine ⟨rfl, fun n => ?_, ?_⟩
    · rw [hasSpent_nil, Bool.false_and, Bool.or_false]
      rfl
    · simp [reacceptOutputs, hasSpent_nil]
  | cons pos vSpent ih =>
    rw [List.length_cons] at hlen
    have hi : i < wtx.tx.vout.length := by omega
    rw [reacceptOutputs]
    split_ifs with hflag hspent
    · -- it was flagged before
      refine (ih (by omega)).cons fun _ => ?_
      rw [flag, decide_eq_true hi, hflag]
      rfl
    · -- the output is flagged now
      have hrest := @ih (wtx.mark i true) (i + 1) (show i + 1 + vSpent.length ≤ wtx.tx.vout.length by omega)
      have hnone : wtx.flag i = false := by
        rw [flag, Bool.eq_false_of_not_eq_true hflag, Bool.and_false]
      refine ⟨hrest.tx, fun n => ?_, ?_⟩
      · rw [hrest.flag, flag_mark hi, hasSpent_cons]
        change ((wtx.flag n || decide (n = i)) || (hasSpent vSpent (i + 1) n && isOwn isMine wtx.tx n)) = _
        split_ifs with heq
        · subst heq
          have hneed : (!pos.isNull && isOwn isMine wtx.tx n) = true := hspent
          rw [hneed, decide_eq_true rfl, Bool.or_true, Bool.true_or]
        · rw [decide_eq_false heq, Bool.or_false]
      · refine ⟨fun h => absurd h (List.cons_ne_nil _ _), fun h => ?_⟩
        obtain ⟨hpos, hown⟩ := Bool.and_eq_true_iff.mp hspent
        have hspent' : hasSpent (pos :: vSpent) i i = true := by rw [hasSpent_cons, if_pos rfl, hpos]
        rw [h i hspent' hown] at hnone
        exact absurd hnone (by simp)
    · -- it need not be
      exact (ih (by omega)).cons fun hneed => absurd hneed hspent

/-- The round for this entry flags the output `n`, if it is not flagged. -/
def isRepaired (P : Params) (txIndex : TxIndexMap) (isMine : CScript → Bool) (wtx : CWalletTx) (n : ℕ) : Bool :=
  !wtx.isSkipped && (txIndex.lookup (P.hashTx wtx.tx)).any (fun txindex =>
    decide (txindex.vSpent.length = wtx.tx.vout.length) && hasSpent txindex.vSpent 0 n && isOwn isMine wtx.tx n)

/-- One transaction of `ReacceptWalletTransactions`. -/
theorem reaccept_spec (P : Params) (txIndex : TxIndexMap) (isMine : CScript → Bool) (wtx : CWalletTx) :
    (wtx.reaccept P txIndex isMine).1.tx = wtx.tx ∧
    (∀ n, (wtx.reaccept P txIndex isMine).1.flag n = (wtx.flag n || wtx.isRepaired P txIndex isMine n)) ∧
    ((wtx.reaccept P txIndex isMine).2 = [] ↔ ∀ n, wtx.isRepaired P txIndex isMine n = true → wtx.flag n = true) := by
  unfold reaccept isRepaired
  split_ifs with hskip
  · -- the transaction is skipped
    simp [hskip]
  · rw [Bool.not_eq_true] at hskip
    cases hlook : txIndex.lookup (P.hashTx wtx.tx) with
    | none => simp
    | some txindex =>
      simp only [Option.any_some, hskip, Bool.not_false, Bool.true_and]
      -- the entry has another number of outputs, or the loop runs
      split_ifs with hlen
      · simp [hlen]
      · rw [not_not] at hlen
        obtain ⟨htx, hflag, hmissing⟩ := @reaccepted_outputs isMine wtx 0 txindex.vSpent
          (show 0 + txindex.vSpent.length ≤ wtx.tx.vout.length by omega)
        refine ⟨htx, fun n => ?_, ?_⟩
        · rw [hflag, decide_eq_true hlen, Bool.true_and]
        · rw [hmissing]
          simp [hlen]

end CWalletTx

/-! ### One pass over the entries -/

namespace CWallet

variable {P : Params} {txIndex : TxIndexMap} {w w' u : CWallet} {tx : CTransaction} {vtx : List CTransaction}
  {o : COutPoint}

/-- The flag of an output of the wallet. -/
theorem spentFlag_eq (w : CWallet) (o : COutPoint) :
    w.spentFlag o = (w.mapWallet.lookup o.hash).any (fun wtx => wtx.flag o.n) := by
  unfold spentFlag CWalletTx.flag
  cases w.mapWallet.lookup o.hash with
  | none => rfl
  | some wtx => rfl

/-- One pass flags the output, if it is not flagged. -/
def repairs (P : Params) (txIndex : TxIndexMap) (w : CWallet) (o : COutPoint) : Bool :=
  (w.mapWallet.lookup o.hash).any (fun wtx => wtx.isRepaired P txIndex w.isMine o.n)

/-- The loop over the entries with the hashes `l`. -/
theorem foldl_reacceptEntry {l : List Uint256} (hnodup : l.Nodup) (s : CWallet × List CDiskTxPos) :
    (l.foldl (reacceptEntry P txIndex) s).1.isMine = s.1.isMine ∧
    (∀ hash, (l.foldl (reacceptEntry P txIndex) s).1.mapWallet.lookup hash =
      if hash ∈ l then (s.1.mapWallet.lookup hash).map (fun wtx => (wtx.reaccept P txIndex s.1.isMine).1)
      else s.1.mapWallet.lookup hash) ∧
    ((l.foldl (reacceptEntry P txIndex) s).2 = [] ↔ s.2 = [] ∧ ∀ hash ∈ l, ∀ wtx,
      s.1.mapWallet.lookup hash = some wtx → (wtx.reaccept P txIndex s.1.isMine).2 = []) := by
  induction l generalizing s with
  | nil => simp
  | cons k l ih =>
    obtain ⟨hk, hl⟩ := List.nodup_cons.mp hnodup
    rw [List.foldl_cons]
    obtain ⟨hmine, hlookup, hmissing⟩ := ih hl (reacceptEntry P txIndex s k)
    rw [hmine, hmissing]
    -- the entries behind `k` are other entries, so they are found as they were
    have hne : ∀ hash ∈ l, hash ≠ k := fun hash hmem heq => hk (heq ▸ hmem)
    cases hentry : s.1.mapWallet.lookup k with
    -- there is no such entry
    | none =>
      have hsame : reacceptEntry P txIndex s k = s := by simp [reacceptEntry, hentry]
      rw [hsame] at hlookup ⊢
      refine ⟨rfl, fun hash => ?_, ?_⟩
      · rw [hlookup]
        by_cases heq : hash = k
        · subst heq
          rw [if_neg hk, if_pos List.mem_cons_self, hentry]
          rfl
        · simp [heq]
      · simp [hentry]
    -- the entry is reaccepted
    | some wtx =>
      have hthis : reacceptEntry P txIndex s k =
          ({ s.1 with mapWallet := s.1.mapWallet.insert k (wtx.reaccept P txIndex s.1.isMine).1 },
            s.2 ++ (wtx.reaccept P txIndex s.1.isMine).2) := by simp [reacceptEntry, hentry]
      rw [hthis] at hlookup ⊢
      refine ⟨rfl, fun hash => ?_, ?_⟩
      · rw [hlookup]
        by_cases heq : hash = k
        · subst heq
          rw [if_neg hk, if_pos List.mem_cons_self, hentry, Map.lookup_insert_eq, if_pos rfl]
          rfl
        · simp [heq]
      · simp only [List.append_eq_nil_iff, List.forall_mem_cons, hentry, Option.some.injEq, forall_eq', and_assoc,
          Map.lookup_insert_eq]
        refine and_congr_right fun _ => and_congr_right fun _ => ?_
        refine forall_congr' fun hash => forall_congr' fun hmem => ?_
        rw [if_neg (hne hash hmem)]

/-- **The pass**: the transactions stay, every output that `repairs` names is flagged, and nothing is missing when
all these outputs were flagged before. -/
theorem reacceptEntries_spec (P : Params) (txIndex : TxIndexMap) (w : CWallet) :
    SameTxs w (w.reacceptEntries P txIndex).1 ∧
    (∀ o, (w.reacceptEntries P txIndex).1.spentFlag o = (w.spentFlag o || w.repairs P txIndex o)) ∧
    ((w.reacceptEntries P txIndex).2 = [] ↔ ∀ o, w.repairs P txIndex o = true → w.spentFlag o = true) := by
  obtain ⟨hmine, hlookup, hmissing⟩ := @foldl_reacceptEntry P txIndex _ w.mapWallet.keys_nodup (w, [])
  -- the loop goes over all keys, and a hash that is not one has no entry
  have hafter : ∀ hash, (w.reacceptEntries P txIndex).1.mapWallet.lookup hash =
      (w.mapWallet.lookup hash).map (fun wtx => (wtx.reaccept P txIndex w.isMine).1) := by
    intro hash
    unfold reacceptEntries
    rw [hlookup]
    split_ifs with hmem
    · rfl
    · rw [AList.lookup_eq_none.mpr hmem]
      rfl
  refine ⟨⟨hmine, fun hash => ?_⟩, fun o => ?_, ?_⟩
  · rw [hafter, Option.map_map]
    exact Option.map_congr fun wtx _ => (wtx.reaccept_spec P txIndex w.isMine).1
  · rw [spentFlag_eq, spentFlag_eq, repairs, hafter]
    cases w.mapWallet.lookup o.hash with
    | none => rfl
    | some wtx => exact (wtx.reaccept_spec P txIndex w.isMine).2.1 o.n
  · unfold reacceptEntries
    rw [hmissing]
    constructor
    · rintro ⟨-, hall⟩ o hrepairs
      rw [repairs, Option.any_eq_true] at hrepairs
      obtain ⟨wtx, hentry, hrepaired⟩ := hrepairs
      have hmem : o.hash ∈ w.mapWallet.keys := AList.lookup_isSome.mp (by rw [hentry]; rfl)
      rw [spentFlag_eq, hentry]
      exact (wtx.reaccept_spec P txIndex w.isMine).2.2.mp (hall o.hash hmem wtx hentry) o.n hrepaired
    · refine fun hall => ⟨rfl, fun hash _ wtx hentry => ?_⟩
      refine (wtx.reaccept_spec P txIndex w.isMine).2.2.mpr fun n hrepaired => ?_
      have hflag := hall ⟨hash, n⟩ (by rw [repairs, hentry]; exact hrepaired)
      rw [spentFlag_eq, hentry] at hflag
      exact hflag

/-! ### One scan of the chain -/

/-- A transaction that the wallet does not have is counted when it is added. -/
theorem scanTransaction_unknown (hknows : w.knows P tx = false) (hruns : Runs (syncConnected P tx) w w') :
    ∃ n, (∀ ret, scanTransaction P tx (w, ret) = (.ok (), (w', ret + n))) ∧ (n = 0 ↔ w.Settled P tx) := by
  unfold knows at hknows
  -- what decides is whether it pays to the wallet or spends from it
  have hinvolves : w.involves P tx = if w.isMineTx tx then .ok true else w.isFromMe tx := by
    unfold involves
    rw [hknows, Bool.false_or]
  have hsettled : w.Settled P tx ↔ w.isMineTx tx = false ∧ w.isOwnSpend tx = false := by
    unfold Settled knows
    rw [hknows]
    simp
  unfold Runs syncConnected addToWalletIfInvolvingMe at hruns
  unfold scanTransaction
  simp only [hknows, Bool.false_eq_true, if_false]
  cases hanswer : w.involves P tx with
  -- the question throws
  | error e =>
    rw [hanswer] at hruns
    exact absurd hruns (by simp)
  | ok fInvolved =>
    rw [hanswer] at hruns
    cases fInvolved with
    | true =>
      simp only at hruns
      -- it is added and counted, as it pays to the wallet or spends from it
      refine ⟨1, fun ret => by simp only [hruns], ?_⟩
      rw [hsettled]
      refine iff_of_false one_ne_zero ?_
      rintro ⟨hmine, hown⟩
      rw [hinvolves, hmine, if_neg Bool.false_ne_true] at hanswer
      unfold isOwnSpend at hown
      rw [hanswer] at hown
      exact absurd hown (by simp)
    | false =>
      simp only at hruns
      -- nothing of it is the wallet's
      refine ⟨0, fun ret => by simp only [hruns]; rfl, ?_⟩
      rw [hsettled]
      refine iff_of_true rfl ?_
      cases hmine : w.isMineTx tx with
      | true =>
        rw [hinvolves, hmine, if_pos rfl] at hanswer
        exact absurd hanswer (by simp)
      | false =>
        rw [hinvolves, hmine, if_neg Bool.false_ne_true] at hanswer
        unfold isOwnSpend
        rw [hanswer]
        exact ⟨rfl, rfl⟩

/-- What a scan over `vtx` that counts `n` transactions does to a wallet. -/
structure ScanOk (P : Params) (vtx : List CTransaction) (w w' : CWallet) (n : ℕ) : Prop where
  keyed : w'.Keyed P
  grows : Grows w w'
  member : ∀ hash, (w'.mapWallet.lookup hash).isSome = true →
    (w.mapWallet.lookup hash).isSome = true ∨ ∃ tx ∈ vtx, P.hashTx tx = hash
  nothingNew : n = 0 → ∀ hash, (w'.mapWallet.lookup hash).isSome = true → (w.mapWallet.lookup hash).isSome = true
  somethingNew : n ≠ 0 → ∃ tx ∈ vtx, w.knows P tx = false ∧ w'.knows P tx = true
  mine : ∀ tx ∈ vtx, w.isMineTx tx = true → w'.knows P tx = true
  flagStays : ∀ o, w.spentFlag o = true → w'.spentFlag o = true
  flagOnly : ∀ o, w'.spentFlag o = true → w.spentFlag o = true ∨
    (w'.owns o = true ∧ ∃ tx ∈ vtx, w.knows P tx = false ∧ o ∈ tx.prevouts)
  /-- An own output is flagged that a transaction spends which the wallet did not have, if the wallet has the
  transaction of the output by then. -/
  flagSet : ∀ before tx after o, vtx = before ++ tx :: after → (∀ t ∈ before, P.hashTx t ≠ P.hashTx tx) →
    w.knows P tx = false → o ∈ tx.prevouts → w'.owns o = true →
    ((w.mapWallet.lookup o.hash).isSome = true ∨ ∃ t ∈ before, P.hashTx t = o.hash) → w'.spentFlag o = true

/-- Nothing has changed. -/
theorem Grows.refl (w : CWallet) : Grows w w := ⟨rfl, fun hash wtx hlookup => by rw [hlookup]; rfl⟩

/-- A growth after a growth. -/
theorem Grows.trans {w'' : CWallet} (h : Grows w w') (h' : Grows w' w'') : Grows w w'' := by
  refine ⟨h'.isMine.trans h.isMine, fun hash wtx hlookup => ?_⟩
  obtain ⟨wtx', hlookup', htx⟩ := Option.map_eq_some_iff.mp (h.txs hash wtx hlookup)
  rw [h'.txs hash wtx' hlookup', htx]

/-- What is in the wallet stays there. -/
theorem Grows.isSome (h : Grows w w') {hash : Uint256} (hsome : (w.mapWallet.lookup hash).isSome = true) :
    (w'.mapWallet.lookup hash).isSome = true := by
  obtain ⟨wtx, hlookup⟩ := Option.isSome_iff_exists.mp hsome
  rw [← Option.isSome_map (f := CWalletTx.tx), h.txs hash wtx hlookup]
  rfl

/-- What was the wallet's own output is what is now, as long as the wallet had the transaction. -/
theorem Grows.owns_eq (h : Grows w w') (hsome : (w.mapWallet.lookup o.hash).isSome = true) :
    w'.owns o = w.owns o := by
  obtain ⟨wtx, hlookup⟩ := Option.isSome_iff_exists.mp hsome
  exact owns_congr h.isMine (by rw [h.txs _ wtx hlookup, hlookup]; rfl)

/-- And what is mine. -/
theorem Grows.isMineTx_eq (h : Grows w w') (tx : CTransaction) : w'.isMineTx tx = w.isMineTx tx := by
  unfold isMineTx
  rw [h.isMine]

/-- Nothing to scan. -/
theorem ScanOk.nil (hkeyed : w.Keyed P) : ScanOk P [] w w 0 := by
  refine ⟨hkeyed, Grows.refl w, fun _ h => Or.inl h, fun _ _ h => h, fun h => absurd rfl h, by simp, fun _ h => h,
    fun _ h => Or.inl h, ?_⟩
  intro before tx after o heq
  exact absurd heq (by simp)

/-- One transaction. -/
theorem scanTransaction_spec (hP : CollisionFree P) (hkeyed : w.Keyed P) (hf : tx.Funded P) :
    ∃ w' n, (∀ ret, scanTransaction P tx (w, ret) = (.ok (), (w', ret + n))) ∧ ScanOk P [tx] w w' n := by
  cases hknows : w.knows P tx with
  | true =>
    -- the wallet has it already, and nothing is done, not even for the outputs that it spends
    refine ⟨w, 0, fun ret => ?_, ⟨hkeyed, Grows.refl w, fun _ h => Or.inl h, fun _ _ h => h, fun h => absurd rfl h,
      fun t ht _ => ?_, fun _ h => h, fun _ h => Or.inl h, ?_⟩⟩
    · unfold knows at hknows
      unfold scanTransaction
      rw [if_pos hknows]
      rfl
    · rw [List.mem_singleton.mp ht]
      exact hknows
    · intro before t after o heq _ hunknown
      have hmem : t ∈ [tx] := by
        rw [heq]
        simp
      rw [List.mem_singleton.mp hmem, hknows] at hunknown
      exact absurd hunknown (by simp)
  | false =>
    -- it is taken up as when its block is connected
    have htriple := syncConnected_returns hP hf hkeyed
    obtain ⟨w', hruns⟩ : ∃ w', Runs (syncConnected P tx) w w' := by
      unfold Triple at htriple
      split at htriple
      · next w' hrun => exact ⟨w', hrun⟩
      · exact htriple.1.elim
    obtain ⟨hgrows, hother, -, hmine, hflag⟩ := syncConnected_spec hP hkeyed hruns
    obtain ⟨n, hscan, hcount⟩ := scanTransaction_unknown hknows hruns
    refine ⟨w', n, hscan, ⟨(keeps_syncConnected tx w hkeyed).of_ok hruns, hgrows, ?_, ?_, ?_, ?_, ?_, ?_, ?_⟩⟩
    · -- what is in the wallet was there, or is the transaction
      intro hash hsome
      by_cases heq : hash = P.hashTx tx
      · exact Or.inr ⟨tx, List.mem_singleton_self _, heq.symm⟩
      · left
        rw [← Option.isSome_map (f := CWalletTx.tx), ← hother hash heq, Option.isSome_map]
        exact hsome
    · -- the count is zero when nothing was added
      intro hzero hash hsome
      rw [← (syncConnected_settled hruns (hcount.mp hzero)).1.isSome]
      exact hsome
    · intro hne
      have hnew := syncConnected_new hruns (fun hsettled => hne (hcount.mpr hsettled)) (P.hashTx tx)
      refine ⟨tx, List.mem_singleton_self _, hknows, ?_⟩
      unfold knows
      rw [hnew, decide_eq_true rfl, Bool.true_or]
    · -- the wallet's own transactions are known now
      intro t ht
      rw [List.mem_singleton.mp ht]
      exact hmine
    · -- a flag stays, and a new one is that of an input
      intro o ho
      rw [hflag, ho, Bool.true_or]
    · intro o ho
      rw [hflag, Bool.or_eq_true, Bool.and_eq_true, decide_eq_true_eq] at ho
      exact ho.imp id fun h => ⟨h.1, tx, List.mem_singleton_self _, hknows, h.2⟩
    · intro before t after o heq _ _ ho howns _
      have hmem : t ∈ [tx] := by
        rw [heq]
        simp
      rw [List.mem_singleton.mp hmem] at ho
      rw [hflag, howns, decide_eq_true ho, Bool.and_true, Bool.or_true]

/-- Who has an output of a transaction has a share in it. -/
theorem Keyed.isMineTx_of_owns (h : w.Keyed P) (hP : CollisionFree P) (howns : w.owns o = true)
    (hhash : P.hashTx tx = o.hash) : w.isMineTx tx = true := by
  obtain ⟨txout, hown⟩ := Option.isSome_iff_exists.mp howns
  obtain ⟨wtx, hlookup, hout, hmine⟩ := ownOutput_eq_some hown
  have hsame : wtx.tx = tx := hP.injective ((h _ _ hlookup).trans hhash.symm)
  rw [hsame] at hout
  exact List.any_eq_true.mpr ⟨txout, List.mem_of_getElem? hout, hmine⟩

/-- What is not known afterwards was not known before. -/
theorem Grows.knows_false (h : Grows w w') (hknows : w'.knows P tx = false) : w.knows P tx = false := by
  by_contra hne
  rw [Bool.not_eq_false] at hne
  rw [h.knows hne] at hknows
  exact absurd hknows (by simp)

/-- One more transaction scanned. -/
theorem ScanOk.cons {w₁ : CWallet} {n m : ℕ} (hP : CollisionFree P) (h : ScanOk P [tx] w w₁ n)
    (h' : ScanOk P vtx w₁ w' m) : ScanOk P (tx :: vtx) w w' (n + m) := by
  refine ⟨h'.keyed, h.grows.trans h'.grows, ?_, ?_, ?_, ?_, fun o ho => h'.flagStays o (h.flagStays o ho), ?_, ?_⟩
  · -- what is in the wallet was there, or was scanned
    intro hash hsome
    rcases h'.member hash hsome with hsome | ⟨t, ht, hhash⟩
    · refine (h.member hash hsome).imp id ?_
      rintro ⟨t, ht, hhash⟩
      rw [List.mem_singleton.mp ht] at hhash
      exact ⟨tx, List.mem_cons_self, hhash⟩
    · exact Or.inr ⟨t, List.mem_cons_of_mem _ ht, hhash⟩
  · -- the counts add up
    intro hzero hash hsome
    exact h.nothingNew (by omega) hash (h'.nothingNew (by omega) hash hsome)
  · intro hne
    by_cases hn : n = 0
    · obtain ⟨t, ht, hunknown, hknown⟩ := h'.somethingNew (by omega)
      exact ⟨t, List.mem_cons_of_mem _ ht, h.grows.knows_false hunknown, hknown⟩
    · obtain ⟨t, ht, hunknown, hknown⟩ := h.somethingNew hn
      rw [List.mem_singleton.mp ht] at hunknown hknown
      exact ⟨tx, List.mem_cons_self, hunknown, h'.grows.knows hknown⟩
  · -- the wallet's own transactions are known afterwards
    intro t ht hmine
    rcases List.mem_cons.mp ht with rfl | ht
    · exact h'.grows.knows (h.mine t (List.mem_singleton_self _) hmine)
    · exact h'.mine t ht (by rw [h.grows.isMineTx_eq]; exact hmine)
  · -- a flag was there, or is that of an input
    intro o ho
    rcases h'.flagOnly o ho with ho | ⟨howns, t, ht, hunknown, hin⟩
    · refine (h.flagOnly o ho).imp id ?_
      rintro ⟨howns, t, ht, hunknown, hin⟩
      rw [List.mem_singleton.mp ht] at hunknown hin
      exact ⟨h'.grows.owns howns, tx, List.mem_cons_self, hunknown, hin⟩
    · exact Or.inr ⟨howns, t, List.mem_cons_of_mem _ ht, h.grows.knows_false hunknown, hin⟩
  · -- the inputs of a transaction that was added are flagged; it is the first one, or one of the rest
    intro before t after o heq hother hunknown ho howns hthere
    cases before with
    | nil =>
      cases heq
      have hsome : (w.mapWallet.lookup o.hash).isSome = true := by
        rcases hthere with hsome | ⟨t, ht, -⟩
        · exact hsome
        · exact absurd ht List.not_mem_nil
      have howns₁ : w₁.owns o = true := by
        rw [← h'.grows.owns_eq (h.grows.isSome hsome)]
        exact howns
      exact h'.flagStays o (h.flagSet [] _ [] o rfl (by simp) hunknown ho howns₁ (Or.inl hsome))
    | cons first before =>
      rw [List.cons_append] at heq
      cases heq
      obtain ⟨hne, hother'⟩ := List.forall_mem_cons.mp hother
      refine h'.flagSet before t after o rfl hother' ?_ ho howns ?_
      · -- the first transaction is another one
        by_contra hknown
        rw [Bool.not_eq_false] at hknown
        rcases h.member _ hknown with hsome | ⟨t', ht', hhash⟩
        · unfold knows at hunknown
          rw [hunknown] at hsome
          exact absurd hsome (by simp)
        · rw [List.mem_singleton.mp ht'] at hhash
          exact hne hhash
      · rcases hthere with hsome | ⟨t', ht', hhash⟩
        · exact Or.inl (h.grows.isSome hsome)
        · rcases List.mem_cons.mp ht' with rfl | ht'
          · have hmine := h'.keyed.isMineTx_of_owns hP howns hhash
            rw [h'.grows.isMineTx_eq, h.grows.isMineTx_eq] at hmine
            have hknown := h.mine _ (List.mem_singleton_self _) hmine
            unfold knows at hknown
            rw [hhash] at hknown
            exact Or.inl hknown
          · exact Or.inr ⟨t', ht', hhash⟩

/-- **The scan** of funded transactions returns. -/
theorem scan_spec (hP : CollisionFree P) (hkeyed : w.Keyed P) (hf : ∀ tx ∈ vtx, tx.Funded P) :
    ∃ w' n, scanForWalletTransactions P vtx w = (.ok (), (w', n)) ∧ ScanOk P vtx w w' n := by
  have hrun : ∀ ret, ∃ w' n, forList (scanTransaction P) vtx (w, ret) = (.ok (), (w', ret + n)) ∧
      ScanOk P vtx w w' n := by
    induction vtx generalizing w with
    | nil => exact fun ret => ⟨w, 0, rfl, ScanOk.nil hkeyed⟩
    | cons tx vtx ih =>
      intro ret
      obtain ⟨htx, hvtx⟩ := List.forall_mem_cons.mp hf
      obtain ⟨w₁, n, hfirst, hok⟩ := scanTransaction_spec hP hkeyed htx
      obtain ⟨w', m, hrest, hok'⟩ := ih hok.keyed hvtx (ret + n)
      refine ⟨w', n + m, ?_, hok.cons hP hok'⟩
      rw [forList, bind_of_ok (hfirst ret), hrest, Nat.add_assoc]
  obtain ⟨w', n, hscan, hok⟩ := hrun 0
  rw [Nat.zero_add] at hscan
  exact ⟨w', n, hscan, hok⟩

end CWallet

end Peershares
