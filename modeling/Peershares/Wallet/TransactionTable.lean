import Peershares.Wallet.Records

/-!
# The table of transactions after an update

The table is the rows of all transactions, one row of records for each, in the order of the hashes. An update
exchanges the rows of the hashes it is called with: a new transaction gets its records, one that is gone loses them, and
one that has records keeps them, whatever its decomposition has become.

A row of records is found by two binary searches for its hash. For the searches to find it the whole table has to be in
the order of the hashes, which is why the table is written as a list of rows over sorted hashes throughout; one update
then exchanges a single row (`updateOne_eq`), and a list of updates several of them (`updateRows_eq`). That an update
comes twice does no harm, since it does nothing the second time (`nextRow_nextRow`).

* `recordsOf` — the row of a transaction; `refreshWallet_eq` — the table that is built anew
* `updateOne_eq`, `updateWallet_rows` — one hash, and all of them
* `keptRow` — the row of a transaction after the update
* `updateWallet_eq` — what is in the table after an update, and when that is what would be built anew
* `updateWallet_stale` — a transaction whose decomposition has changed in the meantime
-/

open Framework

namespace Peershares

namespace TransactionRecord

variable {P : Params} {hash : List UInt8 → List UInt8} {wallet : TableWallet P} {wtx : CachedTx}

/-! ### The hash of a record -/

variable (hash wallet wtx) in

/-- A record of what was received has the hash of its transaction. -/
theorem creditRecord_hash (txout : CTxOut) (idx : ℕ) :
    (creditRecord hash wallet wtx txout idx).hash = P.hashTx wtx.tx := by
  unfold creditRecord
  dsimp only
  split_ifs
  · rfl
  · split
    · split_ifs
      · rfl
      · rfl
    · rfl

variable (hash wallet wtx) in

/-- And so has one of what was sent. -/
theorem debitRecord_hash (txout : CTxOut) (nValue : ℤ) (idx : ℕ) :
    (debitRecord hash wallet wtx txout nValue idx).hash = P.hashTx wtx.tx := by
  unfold debitRecord
  dsimp only
  split
  · rfl
  · rfl

/-- All the records of what was received. -/
theorem creditRecords_hash {vout : List CTxOut} {idx : ℕ} :
    ∀ rec ∈ creditRecords hash wallet wtx vout idx, rec.hash = P.hashTx wtx.tx := by
  induction vout generalizing idx with
  | nil => exact fun rec hrec => absurd hrec List.not_mem_nil
  | cons txout vout ih =>
    rw [creditRecords]
    split_ifs
    · exact List.forall_mem_cons.mpr ⟨creditRecord_hash hash wallet wtx txout idx, ih⟩
    · exact ih

/-- And of what was sent. -/
theorem debitRecords_hash {vout : List CTxOut} {idx : ℕ} {nTxFee : ℤ} :
    ∀ rec ∈ debitRecords hash wallet wtx vout idx nTxFee, rec.hash = P.hashTx wtx.tx := by
  induction vout generalizing idx nTxFee with
  | nil => exact fun rec hrec => absurd hrec List.not_mem_nil
  | cons txout vout ih =>
    rw [debitRecords]
    split_ifs
    · exact ih
    · exact List.forall_mem_cons.mpr ⟨debitRecord_hash hash wallet wtx txout _ idx, ih⟩
    · exact List.forall_mem_cons.mpr ⟨debitRecord_hash hash wallet wtx txout _ idx, ih⟩

/-- So all the records of one transaction have its hash. -/
theorem shownRecords_hash {nCredit nDebit : ℤ} {records : List TransactionRecord}
    (h : shownRecords hash wallet wtx nCredit nDebit = .ok records) :
    ∀ rec ∈ records, rec.hash = P.hashTx wtx.tx := by
  unfold shownRecords at h
  dsimp only at h
  split_ifs at h
  · obtain ⟨nValueOut, -, h⟩ := Result.bind_eq_ok.mp h
    obtain rfl := Except.ok.inj h
    simp
  · obtain rfl := Except.ok.inj h
    exact creditRecords_hash
  · obtain ⟨nChange, -, h⟩ := Result.bind_eq_ok.mp h
    obtain rfl := Except.ok.inj h
    simp
  · obtain ⟨nValueOut, -, h⟩ := Result.bind_eq_ok.mp h
    obtain rfl := Except.ok.inj h
    exact debitRecords_hash
  · obtain rfl := Except.ok.inj h
    simp

/-- Every record of a transaction has its hash. -/
theorem decompose_hash {chain : ChainView} {records : List TransactionRecord}
    (h : decomposeTransaction hash wallet chain wtx = .ok records) : ∀ rec ∈ records, rec.hash = P.hashTx wtx.tx := by
  unfold decomposeTransaction at h
  simp only [Result.bind_eq_ok] at h
  obtain ⟨nCredit, -, nDebit, -, h⟩ := h
  split_ifs at h
  · exact shownRecords_hash h
  · obtain rfl := Except.ok.inj h
    exact fun rec hrec => absurd hrec List.not_mem_nil

end TransactionRecord

namespace TransactionTablePriv

open TransactionRecord

variable {P : Params} {hash : List UInt8 → List UInt8} {chain chain' : ChainView} {w w' : TableWallet P}

/-! ### The table that is built anew -/

variable (hash chain w) in
/-- The row of a transaction. -/
def recordsOf (key : Uint256) : List TransactionRecord :=
  match w.mapWallet.lookup key with
  | none => []
  | some wtx => ((decomposeTransaction hash w chain wtx).toOption).getD []

variable (hash chain w) in
/-- No amount of a transaction throws. -/
def Decomposes : Prop :=
  ∀ key wtx, w.mapWallet.lookup key = some wtx → ∃ parts, decomposeTransaction hash w chain wtx = .ok parts

/-- The records of a transaction of the wallet. -/
theorem recordsOf_of_lookup {key : Uint256} {wtx : CachedTx} {parts : List TransactionRecord}
    (hl : w.mapWallet.lookup key = some wtx) (h : decomposeTransaction hash w chain wtx = .ok parts) :
    recordsOf hash chain w key = parts := by
  unfold recordsOf
  rw [hl]
  dsimp only
  rw [h]
  rfl

/-- There are none of any other. -/
theorem recordsOf_of_none {key : Uint256} (hl : w.mapWallet.lookup key = none) : recordsOf hash chain w key = [] := by
  unfold recordsOf
  rw [hl]

/-- The records of a row have its hash. -/
theorem recordsOf_hash (key : Uint256) : ∀ rec ∈ recordsOf hash chain w key, rec.hash = key := by
  intro rec hrec
  cases hl : w.mapWallet.lookup key with
  | none =>
    rw [recordsOf_of_none hl] at hrec
    exact absurd hrec List.not_mem_nil
  | some wtx =>
    cases hparts : decomposeTransaction hash w chain wtx with
    | ok parts =>
      rw [recordsOf_of_lookup hl hparts] at hrec
      rw [decompose_hash hparts rec hrec, w.keyed key wtx hl]
    | error e =>
      unfold recordsOf at hrec
      rw [hl] at hrec
      dsimp only at hrec
      rw [hparts] at hrec
      exact absurd hrec List.not_mem_nil

/-- `refreshWallet` puts the records of all transactions one after the other. -/
theorem appendAll_eq (hok : Decomposes hash chain w) (keys : List Uint256) (cachedWallet : List TransactionRecord) :
    appendAll hash chain w keys cachedWallet = .ok (cachedWallet ++ keys.flatMap (recordsOf hash chain w)) := by
  induction keys generalizing cachedWallet with
  | nil =>
    rw [List.flatMap_nil, List.append_nil]
    rfl
  | cons key keys ih =>
    rw [appendAll, List.flatMap_cons]
    cases hl : w.mapWallet.lookup key with
    | none =>
      dsimp only
      rw [ih, recordsOf_of_none hl, List.nil_append]
    | some wtx =>
      obtain ⟨parts, hparts⟩ := hok key wtx hl
      dsimp only
      rw [hparts, recordsOf_of_lookup hl hparts, ← List.append_assoc]
      exact ih _

variable (w) in
/-- The hashes of the wallet in the order of the map. -/
def hashes : List Uint256 := w.mapWallet.keys.mergeSort (· ≤ ·)

/-- **A refresh** puts the rows of all transactions one after another. -/
theorem refreshWallet_eq (hok : Decomposes hash chain w) :
    refreshWallet hash chain w = .ok ((hashes w).flatMap (recordsOf hash chain w)) := by
  unfold refreshWallet
  rw [appendAll_eq hok, List.nil_append]
  rfl

/-- When it returns, every transaction could be decomposed. -/
theorem appendAll_ok {keys : List Uint256} {cachedWallet result : List TransactionRecord}
    (h : appendAll hash chain w keys cachedWallet = .ok result) :
    ∀ key ∈ keys, ∀ wtx, w.mapWallet.lookup key = some wtx →
      ∃ parts, decomposeTransaction hash w chain wtx = .ok parts := by
  induction keys generalizing cachedWallet with
  | nil => exact fun key hkey => absurd hkey List.not_mem_nil
  | cons key keys ih =>
    rw [appendAll] at h
    cases hl : w.mapWallet.lookup key with
    | none =>
      rw [hl] at h
      refine List.forall_mem_cons.mpr ⟨fun wtx hwtx => ?_, ih h⟩
      rw [hl] at hwtx
      cases hwtx
    | some wtx =>
      rw [hl] at h
      obtain ⟨parts, hparts, h⟩ := Result.bind_eq_ok.mp h
      refine List.forall_mem_cons.mpr ⟨fun wtx' hwtx => ?_, ih h⟩
      rw [hl] at hwtx
      obtain rfl := Option.some.inj hwtx
      exact ⟨parts, hparts⟩

/-- The hashes of the wallet. -/
theorem mem_hashes {key : Uint256} : key ∈ hashes w ↔ (w.mapWallet.lookup key).isSome := by
  rw [hashes, List.mem_mergeSort, AList.lookup_isSome, AList.mem_keys]

/-- A refresh that returns has decomposed every transaction. -/
theorem decomposes_of_refresh {cachedWallet : List TransactionRecord}
    (h : refreshWallet hash chain w = .ok cachedWallet) :
    Decomposes hash chain w ∧ cachedWallet = (hashes w).flatMap (recordsOf hash chain w) := by
  have hok : Decomposes hash chain w := by
    intro key wtx hl
    refine appendAll_ok h key ?_ wtx hl
    exact mem_hashes.mpr (by rw [hl]; rfl)
  refine ⟨hok, ?_⟩
  rw [refreshWallet_eq hok] at h
  exact (Except.ok.inj h).symm

/-! ### One hash -/

/-- An insertion at the end of the first part. -/
theorem insertIdx_length_append (before after : List TransactionRecord) (rec : TransactionRecord) :
    (before ++ after).insertIdx before.length rec = before ++ [rec] ++ after := by
  induction before with
  | nil => rfl
  | cons first before ih => exact congrArg (first :: ·) ih

/-- The loop inserts the records one behind the other. -/
theorem insertRows_append (before after toInsert : List TransactionRecord) :
    insertRows (before ++ after) before.length toInsert = before ++ (toInsert ++ after) := by
  induction toInsert generalizing before with
  | nil => rfl
  | cons rec toInsert ih =>
    have hnext := ih (before ++ [rec])
    rw [List.length_append, List.length_singleton] at hnext
    rw [insertRows, insertIdx_length_append, hnext, List.append_assoc]
    rfl

/-- The bounds of a row between lower and higher hashes. -/
theorem bounds_eq {before row after : List TransactionRecord} {key : Uint256} (hbefore : ∀ rec ∈ before, rec.hash < key)
    (hrow : ∀ rec ∈ row, rec.hash = key) (hafter : ∀ rec ∈ after, key < rec.hash) :
    qLowerBound (before ++ (row ++ after)) key = before.length ∧
      qUpperBound (before ++ (row ++ after)) key = before.length + row.length := by
  constructor
  · -- the records of the hash are not below it
    unfold qLowerBound
    refine bisect_append (fun rec hrec => decide_eq_true (hbefore rec hrec)) (fun rec hrec => ?_) (Nat.zero_le _) ?_ ?_
    · refine decide_eq_false (not_lt.mpr ?_)
      obtain hrec | hrec := List.mem_append.mp hrec
      · exact (hrow rec hrec).ge
      · exact (hafter rec hrec).le
    · simp
    · simp
  · -- the records of the hash are still not above it
    unfold qUpperBound
    rw [← List.append_assoc, ← List.length_append]
    refine bisect_append (fun rec hrec => ?_) (fun rec hrec => ?_) (Nat.zero_le _) ?_ ?_
    · rw [Bool.not_eq_true', decide_eq_false_iff_not, not_lt]
      obtain hrec | hrec := List.mem_append.mp hrec
      · exact (hbefore rec hrec).le
      · exact (hrow rec hrec).le
    · rw [decide_eq_true (hafter rec hrec)]
      rfl
    · simp
    · rw [List.length_append, List.length_append, Nat.zero_add, Nat.add_assoc]

variable (hash chain w) in
/-- The row of a hash after a round: empty when the transaction is gone, as it is when there are records, and the
records of the transaction otherwise. -/
def nextRow (key : Uint256) (row : List TransactionRecord) : List TransactionRecord :=
  if (w.mapWallet.lookup key).isSome then if row = [] then recordsOf hash chain w key else row else []

/-- The same update once more changes nothing. -/
theorem nextRow_nextRow (key : Uint256) (row : List TransactionRecord) :
    nextRow hash chain w key (nextRow hash chain w key row) = nextRow hash chain w key row := by
  unfold nextRow
  split_ifs <;> simp_all

/-- The records of a row keep their hash. -/
theorem nextRow_hash {key : Uint256} {row : List TransactionRecord} (hrow : ∀ rec ∈ row, rec.hash = key) :
    ∀ rec ∈ nextRow hash chain w key row, rec.hash = key := by
  unfold nextRow
  split_ifs
  · exact recordsOf_hash key
  · exact hrow
  · exact fun rec hrec => absurd hrec List.not_mem_nil

section Rounds

variable {ks : List Uint256} {rows : Uint256 → List TransactionRecord}

/-- **A round** exchanges the row of its hash. -/
theorem updateOne_eq (hok : Decomposes hash chain w) (hks : ks.Pairwise (· < ·))
    (hrows : ∀ key, ∀ rec ∈ rows key, rec.hash = key) {key : Uint256} (hkey : key ∈ ks) :
    updateOne hash chain w (ks.flatMap rows) key =
      .ok (ks.flatMap (Function.update rows key (nextRow hash chain w key (rows key)))) := by
  obtain ⟨before, after, hsplit, hbefore, hafter, hupdate⟩ := exists_flatMap_split hks hrows hkey
  obtain ⟨hlower, hupper⟩ := bounds_eq hbefore (hrows key) hafter
  -- the bounds meet exactly when the hash has no record
  have hempty : before.length = before.length + (rows key).length ↔ rows key = [] := by
    rw [← List.length_eq_zero_iff]
    omega
  rw [hupdate, hsplit, updateOne, hlower, hupper]
  unfold nextRow
  cases hl : w.mapWallet.lookup key with
  | none =>
    dsimp only
    rw [Option.isSome_none, if_neg Bool.false_ne_true, List.nil_append]
    by_cases hrow : rows key = []
    · rw [if_neg (not_not.mpr (hempty.mpr hrow)), hrow]
      -- the transaction is gone, so its row is taken out
      rfl
    · rw [if_pos fun heq => hrow (hempty.mp heq), List.take_left, List.drop_length_add_append, List.drop_left]
      rfl
  | some wtx =>
    dsimp only
    rw [Option.isSome_some, if_pos rfl]
    -- its row is put where the bounds meet
    by_cases hrow : rows key = []
    · obtain ⟨parts, hparts⟩ := hok key wtx hl
      rw [if_pos (not_not.mpr (hempty.mpr hrow)), if_pos hrow, hparts, recordsOf_of_lookup hl hparts, hrow,
        List.nil_append]
      exact congrArg Except.ok (insertRows_append before after parts)
    · -- its records are there, and stay
      rw [if_neg (not_not.mpr fun heq => hrow (hempty.mp heq)), if_neg hrow]
      rfl

/-- **All rounds**, in whatever order the hashes come and how often. -/
theorem updateRows_eq (hok : Decomposes hash chain w) (hks : ks.Pairwise (· < ·))
    (hrows : ∀ key, ∀ rec ∈ rows key, rec.hash = key) {updated : List Uint256} (hsub : ∀ key ∈ updated, key ∈ ks) :
    updated.foldlM (updateOne hash chain w) (ks.flatMap rows) =
      .ok (ks.flatMap fun key => if key ∈ updated then nextRow hash chain w key (rows key) else rows key) := by
  induction updated generalizing rows with
  | nil =>
    simp only [List.not_mem_nil, if_false]
    rfl
  | cons first updated ih =>
    -- the changed rows still hold records of their own hash
    have hrows' : ∀ key, ∀ rec ∈ Function.update rows first (nextRow hash chain w first (rows first)) key,
        rec.hash = key := by
      intro key
      by_cases heq : key = first
      · subst heq
        rw [Function.update_self]
        exact nextRow_hash (hrows key)
      · rw [Function.update_of_ne heq]
        exact hrows key
    have hrest := ih hrows' fun key hkey => hsub key (List.mem_cons_of_mem _ hkey)
    rw [List.foldlM_cons, updateOne_eq hok hks hrows (hsub first List.mem_cons_self)]
    refine hrest.trans ?_
    congr 2
    funext key
    by_cases heq : key = first
    · -- a second round of one hash changes nothing
      subst heq
      rw [Function.update_self, nextRow_nextRow, ite_self, if_pos List.mem_cons_self]
    · rw [Function.update_of_ne heq]
      simp only [List.mem_cons, heq, false_or]

end Rounds

/-! ### The update -/

variable (hash chain chain' w w') in
/-- The transaction was added, removed, or changed in its decomposition. -/
def Changed (key : Uint256) : Prop :=
  (w.mapWallet.lookup key).isSome ≠ (w'.mapWallet.lookup key).isSome ∨
    recordsOf hash chain w key ≠ recordsOf hash chain' w' key

variable (hash chain chain' w w') in
/-- The row of a transaction after an update: the records it had, or else its records now. -/
def keptRow (key : Uint256) : List TransactionRecord :=
  if recordsOf hash chain w key = [] then recordsOf hash chain' w' key else recordsOf hash chain w key

/-- Sorting a row without doubles. -/
theorem increasing_mergeSort {l : List Uint256} (hl : l.Nodup) : (l.mergeSort (· ≤ ·)).Pairwise (· < ·) := by
  have hsorted := List.pairwise_mergeSort' (· ≤ ·) l
  have hnodup : (l.mergeSort (· ≤ ·)).Nodup := (List.mergeSort_perm l _).nodup_iff.mpr hl
  exact (hsorted.and hnodup).imp fun h => lt_of_le_of_ne h.1 h.2

/-- The hashes of the wallet in the order of its map. -/
theorem hashes_increasing (w : TableWallet P) : (hashes w).Pairwise (· < ·) :=
  increasing_mergeSort w.mapWallet.keys_nodup

/-- What has records is in the wallet. -/
theorem isSome_of_recordsOf {key : Uint256} (h : recordsOf hash chain w key ≠ []) :
    (w.mapWallet.lookup key).isSome = true := by
  by_contra hnone
  rw [Bool.not_eq_true, Option.isSome_eq_false_iff, Option.isNone_iff_eq_none] at hnone
  exact h (recordsOf_of_none hnone)

/-- A round leaves the row of a transaction that has not changed. -/
theorem nextRow_of_unchanged {key : Uint256}
    (hin : (w.mapWallet.lookup key).isSome = (w'.mapWallet.lookup key).isSome)
    (hrow : recordsOf hash chain w key = recordsOf hash chain' w' key) :
    nextRow hash chain' w' key (recordsOf hash chain w key) = recordsOf hash chain w key := by
  unfold nextRow
  rw [← hrow, ← hin]
  split_ifs with hsome hempty
  · rfl
  · rfl
  · by_contra hne
    exact hsome (isSome_of_recordsOf (Ne.symm hne))

/-- The rows after an update with all that has changed. -/
theorem updateWallet_rows (hok : Decomposes hash chain' w') {updated : List Uint256}
    (hupdated : ∀ key, Changed hash chain chain' w w' key → key ∈ updated) :
    updateWallet hash chain' w' updated ((hashes w).flatMap (recordsOf hash chain w)) =
      .ok ((hashes w').flatMap (keptRow hash chain chain' w w')) := by
  -- the hashes of both wallets and of the update together
  set ks := ((hashes w ++ (hashes w' ++ updated)).dedup).mergeSort (· ≤ ·) with hksdef
  -- sorted, and none of them twice
  have hks : ks.Pairwise (· < ·) := increasing_mergeSort (List.nodup_dedup _)
  have hmem : ∀ key, key ∈ ks ↔ key ∈ hashes w ∨ key ∈ hashes w' ∨ key ∈ updated := by
    intro key
    rw [hksdef, List.mem_mergeSort, List.mem_dedup, List.mem_append, List.mem_append]
  -- a hash without a record adds nothing to the old rows
  have hold : (hashes w).flatMap (recordsOf hash chain w) = ks.flatMap (recordsOf hash chain w) := by
    refine flatMap_eq_of_support (hashes_increasing w) hks fun key hrow => ?_
    have hkey := mem_hashes.mpr (isSome_of_recordsOf hrow)
    exact ⟨hkey, (hmem key).mpr (Or.inl hkey)⟩
  -- a hash that is not in the update has not changed
  have hnew : (fun key => if key ∈ (updated.mergeSort (· ≤ ·)).reverse then
      nextRow hash chain' w' key (recordsOf hash chain w key) else recordsOf hash chain w key) =
      fun key => nextRow hash chain' w' key (recordsOf hash chain w key) := by
    funext key
    split_ifs with hkey
    · rfl
    · rw [List.mem_reverse, List.mem_mergeSort] at hkey
      have hsame := not_or.mp fun h : Changed hash chain chain' w w' key => hkey (hupdated key h)
      exact (nextRow_of_unchanged (not_not.mp hsame.1) (not_not.mp hsame.2)).symm
  rw [hold, updateWallet, updateRows_eq hok hks (fun key => recordsOf_hash key) fun key hkey => ?_, hnew]
  · -- nor does one that is not in the new wallet
    congr 1
    have hsupport : ks.flatMap (fun key => nextRow hash chain' w' key (recordsOf hash chain w key)) =
        (hashes w').flatMap (fun key => nextRow hash chain' w' key (recordsOf hash chain w key)) := by
      refine flatMap_eq_of_support hks (hashes_increasing w') fun key hrow => ?_
      have hkey : key ∈ hashes w' := by
        by_contra hnone
        refine hrow ?_
        unfold nextRow
        rw [if_neg fun h => hnone (mem_hashes.mpr h)]
      exact ⟨(hmem key).mpr (Or.inr (Or.inl hkey)), hkey⟩
    rw [hsupport]
    refine List.flatMap_congr fun key hkey => ?_
    unfold nextRow keptRow
    rw [if_pos (mem_hashes.mp hkey)]
  · rw [List.mem_reverse, List.mem_mergeSort] at hkey
    exact (hmem key).mpr (Or.inr (Or.inr hkey))

/-- The kept records have their hash. -/
theorem keptRow_hash (key : Uint256) : ∀ rec ∈ keptRow hash chain chain' w w' key, rec.hash = key := by
  unfold keptRow
  split_ifs
  · exact recordsOf_hash key
  · exact recordsOf_hash key

variable (hash chain chain' w w') in
/-- No transaction that is still there and had records has changed in its decomposition. -/
def Immutable : Prop :=
  ∀ key, (w'.mapWallet.lookup key).isSome = true → recordsOf hash chain w key ≠ [] →
    recordsOf hash chain' w' key = recordsOf hash chain w key

/-- The kept records are the new ones when no record has changed. -/
theorem keptRows_eq_iff :
    (hashes w').flatMap (keptRow hash chain chain' w w') = (hashes w').flatMap (recordsOf hash chain' w') ↔
      Immutable hash chain chain' w w' := by
  constructor
  · intro heq key hin hrow
    have hkey := mem_hashes.mpr hin
    have hnodup := (hashes_increasing w').imp (fun h => ne_of_lt h)
    have hkept := filter_flatMap_row hnodup (@keptRow_hash P hash chain chain' w w') hkey
    rw [heq, filter_flatMap_row hnodup recordsOf_hash hkey] at hkept
    rw [hkept, keptRow, if_neg hrow]
  · intro himmutable
    refine List.flatMap_congr fun key hkey => ?_
    unfold keptRow
    split_ifs with hrow
    · rfl
    · exact (himmutable key (mem_hashes.mp hkey) hrow).symm

/-- **An update** with all that has changed leaves the rows of the transactions that are there, each with the records it
had, or with its records now if it had none. That is what would be built anew exactly when the records of no transaction
that had some have changed. -/
theorem updateWallet_eq {cachedWallet refreshed : List TransactionRecord} {updated : List Uint256}
    (h : refreshWallet hash chain w = .ok cachedWallet) (h' : refreshWallet hash chain' w' = .ok refreshed)
    (hupdated : ∀ key, Changed hash chain chain' w w' key → key ∈ updated) :
    updateWallet hash chain' w' updated cachedWallet = .ok ((hashes w').flatMap (keptRow hash chain chain' w w')) ∧
      (updateWallet hash chain' w' updated cachedWallet = .ok refreshed ↔ Immutable hash chain chain' w w') := by
  obtain ⟨-, rfl⟩ := decomposes_of_refresh h
  obtain ⟨hok, rfl⟩ := decomposes_of_refresh h'
  rw [updateWallet_rows hok hupdated, ← keptRows_eq_iff]
  exact ⟨rfl, Except.ok.inj, fun heq => congrArg Except.ok heq⟩

/-- Whatever has changed is in one of the wallets. -/
theorem mem_of_changed {key : Uint256} (h : Changed hash chain chain' w w' key) : key ∈ hashes w ++ hashes w' := by
  by_contra hmem
  rw [List.mem_append, not_or, mem_hashes, mem_hashes, Option.not_isSome_iff_eq_none, Option.not_isSome_iff_eq_none] at hmem
  rcases h with hin | hrow
  · exact hin (by rw [hmem.1, hmem.2])
  · exact hrow (by rw [recordsOf_of_none hmem.1, recordsOf_of_none hmem.2])

/-- The condition can be computed over the map. -/
theorem decomposes_of_entries
    (h : w.mapWallet.entries.all (fun entry => (decomposeTransaction hash w chain entry.2).isOk) = true) :
    Decomposes hash chain w := by
  intro key wtx hl
  have hmem := AList.mem_lookup_iff.mp (Option.mem_def.mpr hl)
  have hok := List.all_eq_true.mp h _ hmem
  cases hparts : decomposeTransaction hash w chain wtx with
  | ok parts => exact ⟨parts, rfl⟩
  | error e =>
    dsimp only at hok
    rw [hparts] at hok
    cases hok

end TransactionTablePriv

namespace Sample

/-- The wallet has the parent and one more transaction. -/
theorem eq_of_mem_tableWallet {tx : CTransaction} {key : Uint256}
    (h : ((tableWallet tx).mapWallet.lookup key).isSome = true) :
    key = params.hashTx tx ∨ key = params.hashTx parentTx := by
  unfold tableWallet spendWallet at h
  dsimp only at h
  rw [Map.lookup_insert_eq, Map.lookup_insert_eq] at h
  split_ifs at h with htx hparent
  · exact .inl htx
  · exact .inr hparent
  · exact absurd h (by simp)

end Sample

open Sample TransactionTablePriv in
/-- The coinstake leaves the wallet and the payment to itself comes in; the coinstake is listed twice. -/
theorem updateWallet_replaced : ∃ cachedWallet refreshed,
    refreshWallet id deepChain (tableWallet stakeTx) = .ok cachedWallet ∧
    refreshWallet id deepChain (tableWallet childTx) = .ok refreshed ∧
    updateWallet id deepChain (tableWallet childTx) [params.hashTx stakeTx, params.hashTx childTx, params.hashTx stakeTx]
      cachedWallet = .ok refreshed := by
  have hok : Decomposes id deepChain (tableWallet stakeTx) := decomposes_of_entries (by decide)
  have hok' : Decomposes id deepChain (tableWallet childTx) := decomposes_of_entries (by decide)
  have hparent : recordsOf id deepChain (tableWallet stakeTx) (params.hashTx parentTx) =
      recordsOf id deepChain (tableWallet childTx) (params.hashTx parentTx) := by decide
  have hupdated : ∀ key, Changed id deepChain deepChain (tableWallet stakeTx) (tableWallet childTx) key →
      key ∈ [params.hashTx stakeTx, params.hashTx childTx, params.hashTx stakeTx] := by
    intro key hchanged
    have hmem : key = params.hashTx stakeTx ∨ key = params.hashTx childTx ∨ key = params.hashTx parentTx := by
      rcases List.mem_append.mp (mem_of_changed hchanged) with hin | hin
      · rcases eq_of_mem_tableWallet (mem_hashes.mp hin) with heq | heq
        · exact .inl heq
        · exact .inr (.inr heq)
      · exact .inr (eq_of_mem_tableWallet (mem_hashes.mp hin))
    rcases hmem with rfl | rfl | rfl
    · simp
    · simp
    -- the parent is in both wallets, with the same records
    · rcases hchanged with hin | hrow
      · exact absurd hin (by decide)
      · exact absurd hparent hrow
  have himmutable : Immutable id deepChain deepChain (tableWallet stakeTx) (tableWallet childTx) := by
    intro key hin hrow
    rcases eq_of_mem_tableWallet hin with rfl | rfl
    · exact absurd hrow (by decide)
    · exact hparent.symm
  exact ⟨_, _, refreshWallet_eq hok, refreshWallet_eq hok',
    (updateWallet_eq (refreshWallet_eq hok) (refreshWallet_eq hok') hupdated).2.mpr himmutable⟩

namespace Sample

/-- The wallet before it has its key. -/
def keylessWallet : TableWallet params := { tableWallet childTx with keystore := {} }

end Sample

open Sample TransactionTablePriv in
/-- The wallet gets its key: the parent is a receipt then, and the table still shows it as something else. -/
theorem updateWallet_stale : ¬ ∀ (P : Params) (hash : List UInt8 → List UInt8) (chain chain' : ChainView)
    (w w' : TableWallet P) (cachedWallet refreshed : List TransactionRecord) (updated : List Uint256),
    refreshWallet hash chain w = .ok cachedWallet → refreshWallet hash chain' w' = .ok refreshed →
    (∀ key, Changed hash chain chain' w w' key → key ∈ updated) →
    updateWallet hash chain' w' updated cachedWallet = .ok refreshed := by
  intro h
  have hok : Decomposes id deepChain keylessWallet := decomposes_of_entries (by decide)
  have hok' : Decomposes id deepChain (tableWallet childTx) := decomposes_of_entries (by decide)
  have heq := h params id deepChain deepChain keylessWallet (tableWallet childTx) _ _ _ (refreshWallet_eq hok)
    (refreshWallet_eq hok') fun key => mem_of_changed
  rw [updateWallet_rows hok' fun key => mem_of_changed] at heq
  have himmutable := keptRows_eq_iff.mp (Except.ok.inj heq)
  exact absurd (himmutable (params.hashTx parentTx) (by decide) (by decide)) (by decide)

end Peershares
