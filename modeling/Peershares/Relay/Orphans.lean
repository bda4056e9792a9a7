import Peershares.Relay.Pool

/-!
# The orphan transactions

`mapOrphanTransactions` holds the orphans by their hash, `mapOrphanTransactionsByPrev` holds them
again under the hash of each transaction they spend from. `Mirror` says that the second map shows
the orphans of the first and nothing else; every operation keeps it, and so does the handling of a
whole message.

The operations are loops over the inputs of a transaction, so each has a lemma for the whole loop first
(`lookup_foldl_put`, `lookup_foldl_drop`) and the mirror follows from what can be looked up afterwards
(`Mirror.addOrphanTx`, `Mirror.eraseOrphanTx`). `LimitOrphanTxSize` erases random orphans. It terminates
since each round takes one orphan away (`size_limitLoop`), and it never takes away one that is not there
(`evicted_mem`).

`NoEmpty` says that the second map has no entry without orphans. `AddOrphanTx` and `EraseOrphanTx`
keep it, and `EraseOrphanTx` takes care to. The resolving loop of a message does not: it reads the
map with `operator[]`, so for each transaction that it accepts and no orphan waits for, an empty
entry stays behind. None stays behind when an orphan waits for every transaction that is accepted
(`AllWaitedFor`). `Accepting` names these transactions without running the loop; in the simplest case only
the message itself is among them (`AllWaitedFor.of_stuck`).

* `RelayRun.mirror` — the mirror and the limit, over all runs.
* `RelayRun.mirror_noEmpty` — all of it, over the runs whose messages accept only transactions that
  orphans wait for.
* `processTx_leaves_empty` — the message that leaves an empty entry.
-/

open Framework

namespace Peershares

/-! ### `mapOrphanTransactionsByPrev` -/

namespace ByPrev

variable {byPrev : ByPrev} {hash hashPrev h o : Uint256} {vMsg : TxMsg}

/-- No key has an empty inner map. -/
def NoEmpty (byPrev : ByPrev) : Prop := ∀ h, byPrev.lookup h ≠ some ∅

/-- The row of a previous transaction after it was written. -/
theorem get_insert (inner : Map Uint256 TxMsg) :
    get (byPrev.insert hashPrev inner) h = if h = hashPrev then inner else byPrev.get h := by
  unfold get
  rw [Map.lookup_insert_eq]
  split_ifs <;> rfl

/-- A row that is erased reads as an empty one. -/
theorem get_erase : get (byPrev.erase hashPrev) h = if h = hashPrev then ∅ else byPrev.get h := by
  unfold get
  rw [Map.lookup_erase_eq]
  split_ifs <;> rfl

/-- Looking a row up with `[]` makes an empty one, which reads the same. -/
@[simp] theorem get_touch : get (byPrev.touch hash) h = byPrev.get h := by
  unfold touch
  split
  · rfl
  · next hnone =>
    rw [get_insert]
    split_ifs with heq
    · unfold get
      rw [heq, hnone]
      rfl
    · rfl

/-- It makes none when something waits there. -/
theorem touch_of_waiting (hwait : byPrev.get hash ≠ ∅) : byPrev.touch hash = byPrev := by
  unfold touch
  split
  · rfl
  · next hnone =>
    unfold get at hwait
    rw [hnone] at hwait
    exact absurd rfl hwait

/-- An orphan is put into one row. -/
theorem lookup_put : ((put hash vMsg byPrev hashPrev).get h).lookup o =
    ((byPrev.get h).lookup o).or (if h = hashPrev ∧ o = hash then some vMsg else none) := by
  unfold put
  split
  · -- the row has the hash already, and keeps the older message
    next old hold =>
    split_ifs with heq
    · rw [heq.1, heq.2, hold, Option.some_or]
    · rw [Option.or_none]
  · next hnone =>
    rw [get_insert]
    by_cases hh : h = hashPrev
    · rw [if_pos hh, Map.lookup_insert_eq, hh]
      by_cases ho : o = hash
      · rw [if_pos ho, if_pos ⟨rfl, ho⟩, ho, hnone, Option.none_or]
      · rw [if_neg ho, if_neg (fun heq => ho heq.2), Option.or_none]
    · rw [if_neg hh, if_neg (fun heq => hh heq.1), Option.or_none]

/-- `AddOrphanTx` puts it into the rows of all its previous transactions. -/
theorem lookup_foldl_put (prevs : List Uint256) :
    ((prevs.foldl (put hash vMsg) byPrev).get h).lookup o =
      ((byPrev.get h).lookup o).or (if h ∈ prevs ∧ o = hash then some vMsg else none) := by
  induction prevs generalizing byPrev with
  | nil => simp
  | cons p prevs ih =>
    rw [List.foldl_cons, ih, lookup_put, Option.or_assoc]
    congr 1
    by_cases ho : o = hash
    · by_cases hp : h = p
      · simp [ho, hp]
      · simp [ho, hp]
    · simp [ho]

/-- A map without entries is the empty one. -/
theorem isEmpty_entries_iff (inner : Map Uint256 TxMsg) : inner.entries.isEmpty = true ↔ inner = ∅ := by
  rw [List.isEmpty_iff]
  exact ⟨fun h => AList.ext h, fun h => by rw [h]; rfl⟩

/-- An orphan is taken out of one row, and the row with it when it is empty. -/
theorem get_drop : (drop hash byPrev hashPrev).get h =
    if h = hashPrev then (byPrev.get h).erase hash else byPrev.get h := by
  unfold drop
  split
  · next hempty =>
    rw [get_erase]
    split_ifs with hh
    · rw [hh]
      exact ((isEmpty_entries_iff _).mp hempty).symm
    · rfl
  · rw [get_insert]
    split_ifs with hh
    · rw [hh]
    · rfl

/-- `EraseOrphanTx` takes it out of the rows of all its previous transactions. -/
theorem lookup_foldl_drop (prevs : List Uint256) :
    ((prevs.foldl (drop hash) byPrev).get h).lookup o =
      if h ∈ prevs ∧ o = hash then none else (byPrev.get h).lookup o := by
  induction prevs generalizing byPrev with
  | nil => simp
  | cons p prevs ih =>
    rw [List.foldl_cons, ih, get_drop]
    by_cases hp : h = p
    · rw [if_pos hp, Map.lookup_erase_eq]
      by_cases ho : o = hash
      · simp [ho, hp]
      · simp [ho]
    · simp [hp]

/-- Writing a row that has something leaves no empty row behind. -/
theorem NoEmpty.insert (hne : byPrev.NoEmpty) {inner : Map Uint256 TxMsg} (hinner : inner ≠ ∅) :
    NoEmpty (byPrev.insert hashPrev inner) := by
  intro h
  rw [Map.lookup_insert_eq]
  split_ifs
  · exact fun heq => hinner (Option.some.inj heq)
  · exact hne h

/-- Putting an orphan in leaves no empty row. -/
theorem NoEmpty.put (hne : byPrev.NoEmpty) (hashPrev : Uint256) :
    (ByPrev.put hash vMsg byPrev hashPrev).NoEmpty := by
  unfold ByPrev.put
  split
  · exact hne
  · refine hne.insert (fun hempty => ?_)
    have hlookup := Map.lookup_insert_eq (byPrev.get hashPrev) hash hash vMsg
    rw [hempty, if_pos rfl, Map.lookup_empty] at hlookup
    cases hlookup

/-- Taking one out does not either. -/
theorem NoEmpty.drop (hne : byPrev.NoEmpty) (hashPrev : Uint256) :
    (ByPrev.drop hash byPrev hashPrev).NoEmpty := by
  unfold ByPrev.drop
  split
  · intro h
    rw [Map.lookup_erase_eq]
    split_ifs
    · simp
    · exact hne h
  · next hnonempty => exact hne.insert (fun hempty => hnonempty ((isEmpty_entries_iff _).mpr hempty))

/-- Nor does a whole loop of such steps. -/
theorem NoEmpty.foldl {f : ByPrev → Uint256 → ByPrev}
    (hf : ∀ byPrev h, byPrev.NoEmpty → (f byPrev h).NoEmpty) (hashes : List Uint256)
    (hne : byPrev.NoEmpty) : (hashes.foldl f byPrev).NoEmpty := by
  induction hashes generalizing byPrev with
  | nil => exact hne
  | cons h hashes ih => exact ih (hf byPrev h hne)

theorem NoEmpty.empty : NoEmpty ∅ := by
  intro h
  rw [Map.lookup_empty]
  simp

end ByPrev

/-! ### The mirror -/

namespace Orphans

/-- Under `h` the second map has the orphans that spend from `h`, and no others. -/
structure Mirror (P : Params) (orphans : Orphans) : Prop where
  keyed : ∀ o vMsg, orphans.mapOrphanTransactions.lookup o = some vMsg → P.hashTx vMsg.tx = o
  byPrev_iff : ∀ h o vMsg, (orphans.mapOrphanTransactionsByPrev.get h).lookup o = some vMsg ↔
    orphans.mapOrphanTransactions.lookup o = some vMsg ∧ h ∈ vMsg.tx.prevHashes

variable {P : Params} {orphans : Orphans}

/-- At the start both maps are empty. -/
theorem Mirror.empty (P : Params) : Mirror P {} where
  keyed := fun o vMsg h => absurd h (by rw [Map.lookup_empty]; simp)
  byPrev_iff := by
    intro h o vMsg
    simp only [ByPrev.get, Map.lookup_empty, Option.getD_none, reduceCtorEq, false_and]

/-- `AddOrphanTx` writes both maps, or neither. -/
theorem Mirror.addOrphanTx (h : orphans.Mirror P) (vMsg : TxMsg) :
    (orphans.addOrphanTx P vMsg).Mirror P := by
  unfold Orphans.addOrphanTx
  split_ifs with hhave hbig
  · exact h
  · exact h
  -- the hash is new, and the message is not too large
  have hnew : orphans.mapOrphanTransactions.lookup (P.hashTx vMsg.tx) = none := by
    simpa using hhave
  constructor
  · intro o vMsg' hlookup
    rw [Map.lookup_insert_eq] at hlookup
    split_ifs at hlookup with ho
    · rw [← Option.some.inj hlookup, ho]
    · exact h.keyed o vMsg' hlookup
  · intro hp o vMsg'
    rw [ByPrev.lookup_foldl_put, Map.lookup_insert_eq]
    by_cases ho : o = P.hashTx vMsg.tx
    · -- the hash is new, so nothing was stored under it
      have hnone : (orphans.mapOrphanTransactionsByPrev.get hp).lookup o = none := by
        cases hl : (orphans.mapOrphanTransactionsByPrev.get hp).lookup o with
        | none => rfl
        | some old =>
          have hold := ((h.byPrev_iff hp o old).mp hl).1
          rw [ho, hnew] at hold
          cases hold
      rw [hnone, Option.none_or, if_pos ho]
      simp only [ho, and_true]
      constructor
      · intro hput
        split_ifs at hput with hmem
        exact ⟨hput, Option.some.inj hput ▸ hmem⟩
      · rintro ⟨heq, hmem⟩
        rw [← Option.some.inj heq] at hmem
        rw [if_pos hmem, heq]
    · -- any other orphan stays in its rows
      rw [if_neg ho, if_neg (fun hc => ho hc.2), Option.or_none]
      exact h.byPrev_iff hp o vMsg'

/-- `EraseOrphanTx` takes the orphan out of both. -/
theorem Mirror.eraseOrphanTx (h : orphans.Mirror P) (hash : Uint256) :
    (orphans.eraseOrphanTx hash).Mirror P := by
  unfold Orphans.eraseOrphanTx
  split
  · exact h
  next pvMsg hpv =>
  constructor
  · intro o vMsg hlookup
    rw [Map.lookup_erase_eq] at hlookup
    split_ifs at hlookup
    exact h.keyed o vMsg hlookup
  · intro hp o vMsg
    rw [ByPrev.lookup_foldl_drop, Map.lookup_erase_eq]
    by_cases ho : o = hash
    · subst ho
      simp only [if_true, and_true, reduceCtorEq, false_and, iff_false]
      intro hlookup
      split_ifs at hlookup with hmem
      -- what is left under `hp` would be the erased orphan, which spends from `hp`
      obtain ⟨hold, hin⟩ := (h.byPrev_iff hp o vMsg).mp hlookup
      rw [hpv] at hold
      exact hmem (Option.some.inj hold ▸ hin)
    · rw [if_neg (fun hc => ho hc.2), if_neg ho]
      exact h.byPrev_iff hp o vMsg

/-- The first of the two maps after `EraseOrphanTx`. -/
theorem mapOrphanTransactions_eraseOrphanTx (hash : Uint256) :
    (orphans.eraseOrphanTx hash).mapOrphanTransactions = orphans.mapOrphanTransactions.erase hash := by
  unfold Orphans.eraseOrphanTx
  split
  · next hnone =>
    exact (AList.ext (List.kerase_of_notMem_keys (AList.lookup_eq_none.mp hnone))).symm
  · rfl

/-- `AddOrphanTx` leaves no empty row. -/
theorem noEmpty_addOrphanTx (hne : orphans.mapOrphanTransactionsByPrev.NoEmpty) (vMsg : TxMsg) :
    (orphans.addOrphanTx P vMsg).mapOrphanTransactionsByPrev.NoEmpty := by
  unfold Orphans.addOrphanTx
  split_ifs
  · exact hne
  · exact hne
  · exact ByPrev.NoEmpty.foldl (fun _ h hne => hne.put h) _ hne

/-- `EraseOrphanTx` leaves none. -/
theorem noEmpty_eraseOrphanTx (hne : orphans.mapOrphanTransactionsByPrev.NoEmpty) (hash : Uint256) :
    (orphans.eraseOrphanTx hash).mapOrphanTransactionsByPrev.NoEmpty := by
  unfold Orphans.eraseOrphanTx
  split
  · exact hne
  · exact ByPrev.NoEmpty.foldl (fun _ h hne => hne.drop h) _ hne

/-! ### `LimitOrphanTxSize` -/

/-- The size of the map is the number of its keys. -/
theorem size_eq_keys : orphans.size = orphans.mapOrphanTransactions.keys.length := by
  unfold size AList.keys List.keys
  rw [List.length_map]

/-- The orphan that is thrown out is one of the map. -/
theorem evicted_mem {randomhash hash : Uint256} (h : orphans.evicted randomhash = some hash) :
    hash ∈ orphans.mapOrphanTransactions.keys := by
  unfold evicted at h
  rcases Option.or_eq_some_iff.mp h with hmin | ⟨-, hmin⟩
  · exact List.mem_of_mem_filter (List.min?_mem hmin)
  · exact List.min?_mem hmin

/-- There is always one to throw out, unless the map is empty. -/
theorem evicted_eq_none {randomhash : Uint256} (h : orphans.evicted randomhash = none) :
    orphans.size = 0 := by
  unfold evicted at h
  rw [size_eq_keys, List.min?_eq_none_iff.mp (Option.or_eq_none_iff.mp h).2]
  rfl

/-- Erasing an orphan makes the map smaller by one. -/
theorem size_eraseOrphanTx {hash : Uint256} (h : hash ∈ orphans.mapOrphanTransactions.keys) :
    (orphans.eraseOrphanTx hash).size + 1 = orphans.size := by
  rw [size_eq_keys, size_eq_keys, mapOrphanTransactions_eraseOrphanTx, AList.keys_erase,
    List.length_erase_of_mem h]
  have hpos := List.length_pos_of_mem h
  omega

/-- Each round takes one orphan out, so enough rounds reach the limit. -/
theorem size_limitLoop (nMaxOrphans : ℕ) (rand : ℕ → Uint256) (nRounds : ℕ)
    (h : orphans.size ≤ nMaxOrphans + nRounds) :
    (limitLoop nMaxOrphans rand nRounds orphans).size ≤ nMaxOrphans := by
  induction nRounds generalizing orphans with
  | zero => exact h
  | succ nRounds ih =>
    unfold limitLoop
    split_ifs with hle
    · exact hle
    split
    · next hnone =>
      rw [evicted_eq_none hnone]
      exact Nat.zero_le _
    · next hash hsome =>
      -- an orphan was drawn, so there is one less
      have hsize := size_eraseOrphanTx (evicted_mem hsome)
      exact ih (by omega)

/-- **`LimitOrphanTxSize`** ends with no more orphans than the limit. -/
theorem size_limitOrphanTxSize (nMaxOrphans : ℕ) (rand : ℕ → Uint256) :
    (orphans.limitOrphanTxSize nMaxOrphans rand).size ≤ nMaxOrphans :=
  size_limitLoop nMaxOrphans rand _ (Nat.le_add_left _ _)

/-- Below the limit it does nothing. -/
theorem limitOrphanTxSize_of_le {nMaxOrphans : ℕ} (rand : ℕ → Uint256)
    (h : orphans.size ≤ nMaxOrphans) : orphans.limitOrphanTxSize nMaxOrphans rand = orphans := by
  unfold limitOrphanTxSize
  cases hsize : orphans.size with
  | zero => rfl
  | succ nRounds =>
    unfold limitLoop
    rw [if_pos h]

/-- What every `EraseOrphanTx` keeps, the limit keeps. -/
theorem limitOrphanTxSize_keeps {I : Orphans → Prop}
    (hI : ∀ orphans hash, I orphans → I (orphans.eraseOrphanTx hash)) (nMaxOrphans : ℕ)
    (rand : ℕ → Uint256) (h : I orphans) : I (orphans.limitOrphanTxSize nMaxOrphans rand) := by
  -- over the rounds, from any state of the maps
  have hloop : ∀ nRounds orphans, I orphans → I (limitLoop nMaxOrphans rand nRounds orphans) := by
    intro nRounds
    induction nRounds with
    | zero => exact fun _ h => h
    | succ nRounds ih =>
      intro orphans h
      unfold limitLoop
      split_ifs
      · exact h
      split
      · exact h
      · exact ih _ (hI _ _ h)
  exact hloop _ _ h

/-- What is left after the orphans of the erase queue are gone. -/
theorem lookup_foldl_eraseOrphanTx (vEraseQueue : List Uint256) (hash : Uint256) :
    (vEraseQueue.foldl (fun orphans hash => orphans.eraseOrphanTx hash)
      orphans).mapOrphanTransactions.lookup hash =
        if hash ∈ vEraseQueue then none else orphans.mapOrphanTransactions.lookup hash := by
  have hfold : (vEraseQueue.foldl (fun orphans hash => orphans.eraseOrphanTx hash)
      orphans).mapOrphanTransactions =
        vEraseQueue.foldl (fun m hash => m.erase hash) orphans.mapOrphanTransactions := by
    induction vEraseQueue generalizing orphans with
    | nil => rfl
    | cons h vEraseQueue ih =>
      rw [List.foldl_cons, List.foldl_cons, ih, mapOrphanTransactions_eraseOrphanTx]
  rw [hfold, Map.lookup_foldl_erase]

/-- An invariant of `EraseOrphanTx` holds after the whole queue. -/
theorem foldl_eraseOrphanTx_keeps {I : Orphans → Prop}
    (hI : ∀ orphans hash, I orphans → I (orphans.eraseOrphanTx hash)) (vEraseQueue : List Uint256)
    (h : I orphans) : I (vEraseQueue.foldl (fun orphans hash => orphans.eraseOrphanTx hash) orphans) := by
  induction vEraseQueue generalizing orphans with
  | nil => exact h
  | cons hash vEraseQueue ih => exact ih (hI _ _ h)

end Orphans

/-! ### The "tx" message -/

section Message

variable {P : Params} {env : AcceptEnv} {rand : ℕ → Uint256} {vMsg : TxMsg} {s s' : RelayState}

/-- Trying an orphan does not change the rows; only looking them up does. -/
@[simp] theorem resolveOrphan_byPrev (st : ResolveState) (vMsg : TxMsg) :
    (resolveOrphan P env st vMsg).byPrev = st.byPrev := by
  unfold resolveOrphan
  split
  · rfl
  · split_ifs <;> rfl

/-- The same for all orphans of a row. -/
@[simp] theorem foldl_resolveOrphan_byPrev (vMsgs : List TxMsg) (st : ResolveState) :
    (vMsgs.foldl (resolveOrphan P env) st).byPrev = st.byPrev := by
  induction vMsgs generalizing st with
  | nil => rfl
  | cons vMsg vMsgs ih => rw [List.foldl_cons, ih, resolveOrphan_byPrev]

/-- The loop makes entries, but puts no orphan under any parent. -/
theorem get_resolveLoop (nRounds i : ℕ) (st : ResolveState) (h : Uint256) :
    (resolveLoop P env nRounds i st).byPrev.get h = st.byPrev.get h := by
  induction nRounds generalizing i st with
  | zero => rfl
  | succ nRounds ih =>
    unfold resolveLoop
    split
    · rfl
    · rw [ih, foldl_resolveOrphan_byPrev, ByPrev.get_touch]

/-- Rows that read the same are as good. -/
theorem Orphans.Mirror.congr {orphans : Orphans} (h : orphans.Mirror P) {byPrev : ByPrev}
    (hget : ∀ h, byPrev.get h = orphans.mapOrphanTransactionsByPrev.get h) :
    ({ orphans with mapOrphanTransactionsByPrev := byPrev } : Orphans).Mirror P where
  keyed := h.keyed
  byPrev_iff := by
    intro hp o vMsg
    rw [hget]
    exact h.byPrev_iff hp o vMsg

/-- A message is accepted, parked, or refused. -/
theorem processTx_cases (P : Params) (env : AcceptEnv) (rand : ℕ → Uint256) (vMsg : TxMsg)
    (s : RelayState) :
    (∃ pool, s.pool.acceptTx P env true vMsg.tx = .ok pool ∧
      (processTx P env rand vMsg s).pool = (resolve P env pool s.orphans (P.hashTx vMsg.tx)).pool ∧
      (processTx P env rand vMsg s).orphans =
        (resolve P env pool s.orphans (P.hashTx vMsg.tx)).vEraseQueue.foldl
          (fun orphans hash => orphans.eraseOrphanTx hash)
          { s.orphans with mapOrphanTransactionsByPrev :=
              (resolve P env pool s.orphans (P.hashTx vMsg.tx)).byPrev }) ∨
    (∃ r, s.pool.acceptTx P env true vMsg.tx = .error r ∧ r.fMissingInputs = true ∧
      processTx P env rand vMsg s = { s with
        orphans := (s.orphans.addOrphanTx P vMsg).limitOrphanTxSize MAX_ORPHAN_TRANSACTIONS rand }) ∨
    (∃ r, s.pool.acceptTx P env true vMsg.tx = .error r ∧ r.fMissingInputs = false ∧
      processTx P env rand vMsg s = s) := by
  unfold processTx
  cases haccept : s.pool.acceptTx P env true vMsg.tx with
  | ok pool => exact .inl ⟨pool, rfl, rfl, rfl⟩
  | error r =>
    cases hmissing : r.fMissingInputs with
    | true => exact .inr (.inl ⟨r, rfl, hmissing, by simp only [hmissing, if_true]⟩)
    | false =>
      exact .inr (.inr ⟨r, rfl, hmissing, by simp only [hmissing, Bool.false_eq_true, if_false]⟩)

/-- **A transaction arrives**: the two maps stay each other's mirror. -/
theorem Orphans.Mirror.processTx (h : s.orphans.Mirror P) :
    (processTx P env rand vMsg s).orphans.Mirror P := by
  rcases processTx_cases P env rand vMsg s with ⟨pool, -, -, horphans⟩ | ⟨r, -, -, hs⟩ | ⟨r, -, -, hs⟩
  · rw [horphans]
    refine Orphans.foldl_eraseOrphanTx_keeps (fun _ hash h => h.eraseOrphanTx hash) _ ?_
    exact h.congr (get_resolveLoop _ _ _)
  · rw [hs]
    exact Orphans.limitOrphanTxSize_keeps (fun _ hash h => h.eraseOrphanTx hash) _ _
      (h.addOrphanTx vMsg)
  · rw [hs]
    exact h

/-- The transactions that a message can get accepted one after the other, and the pool they lead to:
first its own, then any orphan that spends from one of them. -/
inductive Accepting (P : Params) (env : AcceptEnv) (vMsg : TxMsg) (s : RelayState) :
    CTxMemPool → List Uint256 → Prop
  | message {pool : CTxMemPool} (h : s.pool.acceptTx P env true vMsg.tx = .ok pool) :
      Accepting P env vMsg s pool [P.hashTx vMsg.tx]
  | orphan {pool pool' : CTxMemPool} {hashes : List Uint256} {hashPrev o : Uint256} {vMsg' : TxMsg}
      (h : Accepting P env vMsg s pool hashes) (hprev : hashPrev ∈ hashes)
      (horphan : (s.orphans.mapOrphanTransactionsByPrev.get hashPrev).lookup o = some vMsg')
      (haccept : pool.acceptTx P env true vMsg'.tx = .ok pool') :
      Accepting P env vMsg s pool' (hashes ++ [P.hashTx vMsg'.tx])

/-- Every transaction the message can get accepted has an orphan waiting for it. -/
def AllWaitedFor (P : Params) (env : AcceptEnv) (vMsg : TxMsg) (s : RelayState) : Prop :=
  ∀ pool hashes, Accepting P env vMsg s pool hashes →
    ∀ hash ∈ hashes, s.orphans.mapOrphanTransactionsByPrev.get hash ≠ ∅

/-- An orphan of a row is found in it under some hash. -/
theorem lookup_of_mem_orphansIn {inner : Map Uint256 TxMsg} (h : vMsg ∈ orphansIn inner) :
    ∃ o, inner.lookup o = some vMsg := by
  unfold orphansIn at h
  obtain ⟨⟨o, vMsg'⟩, hmem, rfl⟩ := List.mem_map.mp h
  have hentry : (⟨o, vMsg'⟩ : Sigma fun _ : Uint256 => TxMsg) ∈ inner.entries :=
    (List.perm_insertionSort _ _).mem_iff.mp hmem
  exact ⟨o, AList.mem_lookup_iff.mpr hentry⟩

/-- And what is found there is one of its orphans. -/
theorem mem_orphansIn_of_lookup {inner : Map Uint256 TxMsg} {o : Uint256}
    (h : inner.lookup o = some vMsg) : vMsg ∈ orphansIn inner := by
  unfold orphansIn
  refine List.mem_map.mpr ⟨⟨o, vMsg⟩, ?_, rfl⟩
  exact (List.perm_insertionSort _ _).mem_iff.mpr (AList.mem_lookup_iff.mp h)

/-- An orphan that is tried joins the accepted ones when the pool takes it. -/
theorem Accepting.resolveOrphan {st : ResolveState} {hashPrev o : Uint256} {vMsg' : TxMsg}
    (h : Accepting P env vMsg s st.pool st.vWorkQueue) (hprev : hashPrev ∈ st.vWorkQueue)
    (horphan : (s.orphans.mapOrphanTransactionsByPrev.get hashPrev).lookup o = some vMsg') :
    Accepting P env vMsg s (resolveOrphan P env st vMsg').pool
        (Peershares.resolveOrphan P env st vMsg').vWorkQueue ∧
      hashPrev ∈ (Peershares.resolveOrphan P env st vMsg').vWorkQueue := by
  unfold Peershares.resolveOrphan
  split
  · next pool haccept =>
    exact ⟨.orphan h hprev horphan haccept, List.mem_append_left _ hprev⟩
  · split_ifs
    · exact ⟨h, hprev⟩
    · exact ⟨h, hprev⟩

/-- The same for all orphans of a row. -/
theorem Accepting.foldl_resolveOrphan {st : ResolveState} {hashPrev : Uint256} {vMsgs : List TxMsg}
    (h : Accepting P env vMsg s st.pool st.vWorkQueue) (hprev : hashPrev ∈ st.vWorkQueue)
    (horphans : ∀ vMsg' ∈ vMsgs, ∃ o,
      (s.orphans.mapOrphanTransactionsByPrev.get hashPrev).lookup o = some vMsg') :
    Accepting P env vMsg s (vMsgs.foldl (Peershares.resolveOrphan P env) st).pool
      (vMsgs.foldl (Peershares.resolveOrphan P env) st).vWorkQueue := by
  induction vMsgs generalizing st with
  | nil => exact h
  | cons vMsg' vMsgs ih =>
    obtain ⟨⟨o, horphan⟩, hrest⟩ := List.forall_mem_cons.mp horphans
    obtain ⟨h', hprev'⟩ := h.resolveOrphan hprev horphan
    exact ih h' hprev' hrest

/-- When orphans wait for all that is accepted, the loop finds every entry that it reads. -/
theorem AllWaitedFor.resolveLoop_byPrev (hall : AllWaitedFor P env vMsg s) (nRounds i : ℕ)
    {st : ResolveState} (h : Accepting P env vMsg s st.pool st.vWorkQueue)
    (hbyPrev : st.byPrev = s.orphans.mapOrphanTransactionsByPrev) :
    (resolveLoop P env nRounds i st).byPrev = s.orphans.mapOrphanTransactionsByPrev := by
  induction nRounds generalizing i st with
  | zero => exact hbyPrev
  | succ nRounds ih =>
    unfold resolveLoop
    split
    · exact hbyPrev
    · next hashPrev hi =>
      have hprev : hashPrev ∈ st.vWorkQueue := List.mem_of_getElem? hi
      -- the row is there, so `operator[]` makes none
      have htouch : st.byPrev.touch hashPrev = st.byPrev := by
        rw [hbyPrev]
        exact ByPrev.touch_of_waiting (hall _ _ h hashPrev hprev)
      simp only [htouch]
      -- the orphans that are tried are those of the row as it was at the beginning
      refine ih (i + 1) (h.foldl_resolveOrphan hprev (fun vMsg' hmem => ?_)) ?_
      · rw [hbyPrev] at hmem
        exact lookup_of_mem_orphansIn hmem
      · rw [foldl_resolveOrphan_byPrev]
        exact hbyPrev

/-- It is enough that orphans wait for the message itself and none of them can be accepted. -/
theorem AllWaitedFor.of_stuck
    (hwait : s.orphans.mapOrphanTransactionsByPrev.get (P.hashTx vMsg.tx) ≠ ∅)
    (hstuck : ∀ pool, s.pool.acceptTx P env true vMsg.tx = .ok pool →
      ∀ e ∈ (s.orphans.mapOrphanTransactionsByPrev.get (P.hashTx vMsg.tx)).entries,
        (pool.acceptTx P env true e.2.tx).isOk = false) : AllWaitedFor P env vMsg s := by
  intro pool hashes hacc
  -- nothing but the message itself is ever accepted
  have honly : s.pool.acceptTx P env true vMsg.tx = .ok pool ∧ hashes = [P.hashTx vMsg.tx] := by
    induction hacc with
    | message h => exact ⟨h, rfl⟩
    | orphan _ hprev horphan haccept ih =>
      obtain ⟨hpool, rfl⟩ := ih
      rw [List.mem_singleton.mp hprev] at horphan
      have hfail := hstuck _ hpool _ (AList.mem_lookup_iff.mp horphan)
      rw [haccept] at hfail
      exact absurd hfail (by simp [Except.isOk, Except.toBool])
  intro hash hmem
  rw [honly.2] at hmem
  rw [List.mem_singleton.mp hmem]
  exact hwait

/-- No empty row is made when every transaction that is looked up is waited for. -/
theorem noEmpty_processTx (hall : AllWaitedFor P env vMsg s)
    (hne : s.orphans.mapOrphanTransactionsByPrev.NoEmpty) :
    (processTx P env rand vMsg s).orphans.mapOrphanTransactionsByPrev.NoEmpty := by
  rcases processTx_cases P env rand vMsg s with
    ⟨pool, haccept, -, horphans⟩ | ⟨r, -, -, hs⟩ | ⟨r, -, -, hs⟩
  · rw [horphans]
    refine Orphans.foldl_eraseOrphanTx_keeps
      (I := fun orphans => orphans.mapOrphanTransactionsByPrev.NoEmpty)
      (fun _ hash hne => Orphans.noEmpty_eraseOrphanTx hne hash) _ ?_
    -- the loop has made no row, and erasing orphans makes none
    have hbyPrev : (resolve P env pool s.orphans (P.hashTx vMsg.tx)).byPrev =
        s.orphans.mapOrphanTransactionsByPrev :=
      hall.resolveLoop_byPrev _ _ (.message haccept) rfl
    rw [hbyPrev]
    exact hne
  · rw [hs]
    exact Orphans.limitOrphanTxSize_keeps
      (I := fun orphans => orphans.mapOrphanTransactionsByPrev.NoEmpty)
      (fun _ hash hne => Orphans.noEmpty_eraseOrphanTx hne hash) _ _
      (Orphans.noEmpty_addOrphanTx hne vMsg)
  · rw [hs]
    exact hne

end Message

/-! ### Runs -/

/-- One call that changes the orphans; the messages are those that `Met` allows. The pool also changes
in other ways. -/
inductive RelayStep (P : Params) (Met : AcceptEnv → TxMsg → RelayState → Prop) :
    RelayState → RelayState → Prop
  | addOrphanTx (s : RelayState) (vMsg : TxMsg) :
      RelayStep P Met s { s with orphans := s.orphans.addOrphanTx P vMsg }
  | eraseOrphanTx (s : RelayState) (hash : Uint256) :
      RelayStep P Met s { s with orphans := s.orphans.eraseOrphanTx hash }
  | limitOrphanTxSize (s : RelayState) (nMaxOrphans : ℕ) (rand : ℕ → Uint256) :
      RelayStep P Met s { s with orphans := s.orphans.limitOrphanTxSize nMaxOrphans rand }
  | tx (s : RelayState) (env : AcceptEnv) (rand : ℕ → Uint256) (vMsg : TxMsg) (h : Met env vMsg s) :
      RelayStep P Met s (processTx P env rand vMsg s)
  | pool (s : RelayState) (pool : CTxMemPool) : RelayStep P Met s { s with pool }

inductive RelayRun (P : Params) (Met : AcceptEnv → TxMsg → RelayState → Prop) : RelayState → Prop
  | start : RelayRun P Met {}
  | step {s s' : RelayState} (h : RelayRun P Met s) (hstep : RelayStep P Met s s') : RelayRun P Met s'

section Runs

variable {P : Params} {Met : AcceptEnv → TxMsg → RelayState → Prop} {s s' : RelayState}

/-- One event keeps the mirror. -/
theorem RelayStep.keeps_mirror (hstep : RelayStep P Met s s') (h : s.orphans.Mirror P) :
    s'.orphans.Mirror P := by
  cases hstep with
  | addOrphanTx vMsg => exact h.addOrphanTx vMsg
  | eraseOrphanTx hash => exact h.eraseOrphanTx hash
  | limitOrphanTxSize nMaxOrphans rand =>
    exact Orphans.limitOrphanTxSize_keeps (fun _ hash h => h.eraseOrphanTx hash) _ _ h
  | tx env rand vMsg _ => exact h.processTx
  | pool pool => exact h

/-- One event that meets the condition makes no empty row. -/
theorem RelayStep.keeps_noEmpty (hstep : RelayStep P (AllWaitedFor P) s s')
    (hne : s.orphans.mapOrphanTransactionsByPrev.NoEmpty) :
    s'.orphans.mapOrphanTransactionsByPrev.NoEmpty := by
  cases hstep with
  | addOrphanTx vMsg => exact Orphans.noEmpty_addOrphanTx hne vMsg
  | eraseOrphanTx hash => exact Orphans.noEmpty_eraseOrphanTx hne hash
  | limitOrphanTxSize nMaxOrphans rand =>
    exact Orphans.limitOrphanTxSize_keeps
      (I := fun orphans => orphans.mapOrphanTransactionsByPrev.NoEmpty)
      (fun _ hash hne => Orphans.noEmpty_eraseOrphanTx hne hash) _ _ hne
  | tx env rand vMsg hall => exact noEmpty_processTx hall hne
  | pool pool => exact hne

/-- **The mirror of the orphans.** In every run the second map shows the orphans of the first. -/
theorem RelayRun.mirror (h : RelayRun P Met s) : s.orphans.Mirror P := by
  induction h with
  | start => exact Orphans.Mirror.empty P
  | step _ hstep ih => exact hstep.keeps_mirror ih

/-- **No empty entries.** In the runs whose messages get only transactions accepted that orphans wait
for, the mirror holds, no entry of the second map is empty, and the limit is kept. -/
theorem RelayRun.mirror_noEmpty (h : RelayRun P (AllWaitedFor P) s) :
    s.orphans.Mirror P ∧ s.orphans.mapOrphanTransactionsByPrev.NoEmpty ∧
      ∀ nMaxOrphans rand, (s.orphans.limitOrphanTxSize nMaxOrphans rand).size ≤ nMaxOrphans := by
  refine ⟨h.mirror, ?_, fun nMaxOrphans rand => Orphans.size_limitOrphanTxSize nMaxOrphans rand⟩
  induction h with
  | start => exact ByPrev.NoEmpty.empty
  | step _ hstep ih => exact hstep.keeps_noEmpty ih

end Runs

/-! ### A message that leaves an empty entry -/

namespace Sample

/-- The node that a message arrives at. -/
def relayEnv (n : Node) : AcceptEnv where
  files := n.files
  txIndex := n.txdb.committed.txIndex
  pindexBest := n.pindexBest
  nBestHeight := n.nBestHeight
  evalScript := fun _ _ => some []
  fRateLimited := false

def relayNode : Option Node := shareChain 61

/-- The state after a message that no orphan waits for. -/
def relayed (n : Node) : RelayState :=
  processTx shareParams (relayEnv n) (fun _ => 0) ⟨toEmpty, toEmpty.getSerializeSize⟩ {}

end Sample

/-- The transaction is accepted, and an empty entry stays under its hash. -/
theorem processTx_leaves_empty :
    ¬ ∀ (P : Params) (s : RelayState), RelayRun P (fun _ _ _ => True) s →
      s.orphans.Mirror P ∧ s.orphans.mapOrphanTransactionsByPrev.NoEmpty ∧
        ∀ nMaxOrphans rand, (s.orphans.limitOrphanTxSize nMaxOrphans rand).size ≤ nMaxOrphans := by
  intro h
  have heval : Sample.relayNode.map (fun n =>
      ((Sample.relayed n).orphans.mapOrphanTransactionsByPrev.lookup 2).map
        (fun inner => inner.entries.isEmpty)) = some (some true) := by
    decide +kernel
  obtain ⟨n, -, heval⟩ := Option.map_eq_some_iff.mp heval
  obtain ⟨inner, hinner, hempty⟩ := Option.map_eq_some_iff.mp heval
  obtain ⟨-, hne, -⟩ := h Sample.shareParams (Sample.relayed n) (.step .start (.tx _ _ _ _ trivial))
  exact hne 2 (by rw [hinner, (ByPrev.isEmpty_entries_iff inner).mp hempty])

namespace Sample

/-- An orphan that waits for `toEmpty` and for a transaction that does not come. -/
def halfOrphan : CTransaction where
  nTime := params.nTimeGenesis + 61
  vin := [⟨⟨2, 0⟩, [], UINT_MAX⟩, ⟨⟨7, 0⟩, [], UINT_MAX⟩]
  vout := [⟨1800000, []⟩]

/-- The orphan is parked. -/
def parked (n : Node) : RelayState :=
  processTx shareParams (relayEnv n) (fun _ => 0) ⟨halfOrphan, halfOrphan.getSerializeSize⟩ {}

/-- The message that it waits for. -/
def resolved (n : Node) : RelayState :=
  processTx shareParams (relayEnv n) (fun _ => 0) ⟨toEmpty, toEmpty.getSerializeSize⟩ (parked n)

/-- An orphan with one parent at hand and one missing is parked. -/
theorem run_parked (n : Node)
    (h : (CTxMemPool.acceptTx shareParams (relayEnv n) true {} halfOrphan).isOk = false) :
    RelayRun shareParams (AllWaitedFor shareParams) (parked n) := by
  refine .step .start (.tx _ _ _ _ ?_)
  intro pool hashes hacc
  exfalso
  induction hacc with
  | message haccept =>
    change CTxMemPool.acceptTx shareParams (relayEnv n) true {} halfOrphan = _ at haccept
    rw [haccept] at h
    exact absurd h (by simp [Except.isOk, Except.toBool])
  | orphan _ _ _ _ ih => exact ih

end Sample

/-- The message is accepted, and the orphan still waits under both of its parents. -/
theorem mirror_noEmpty_resolved : ∃ n, Sample.relayNode = some n ∧
    (Sample.resolved n).orphans.Mirror Sample.shareParams ∧
      (Sample.resolved n).orphans.mapOrphanTransactionsByPrev.NoEmpty ∧
      (Sample.resolved n).pool.mapTx.lookup 2 = some Sample.toEmpty := by
  have heval : Sample.relayNode.map (fun (n : Node) =>
      ((CTxMemPool.acceptTx Sample.shareParams (Sample.relayEnv n) true {} Sample.halfOrphan).isOk,
        ((Sample.parked n).orphans.mapOrphanTransactionsByPrev.get 2).entries.isEmpty,
        ((Sample.parked n).pool.acceptTx Sample.shareParams (Sample.relayEnv n) true
          Sample.toEmpty).toOption.map (fun pool =>
            ((Sample.parked n).orphans.mapOrphanTransactionsByPrev.get 2).entries.all
              (fun e => !(pool.acceptTx Sample.shareParams (Sample.relayEnv n) true e.2.tx).isOk)),
        (Sample.resolved n).pool.mapTx.lookup 2)) =
      some (false, false, some true, some Sample.toEmpty) := by
    decide +kernel
  obtain ⟨n, hn, heval⟩ := Option.map_eq_some_iff.mp heval
  simp only [Prod.mk.injEq] at heval
  obtain ⟨hhalf, hwait, hstuck, hpool⟩ := heval
  have hhash : Sample.shareParams.hashTx Sample.toEmpty = 2 := by decide +kernel
  -- the orphan is stuck, as it also waits for a second parent
  have hall : AllWaitedFor Sample.shareParams (Sample.relayEnv n)
      ⟨Sample.toEmpty, Sample.toEmpty.getSerializeSize⟩ (Sample.parked n) := by
    refine AllWaitedFor.of_stuck ?_ ?_
    · intro hempty
      rw [hhash] at hempty
      rw [hempty] at hwait
      cases hwait
    · intro pool haccept e he
      rw [hhash] at he
      rw [haccept] at hstuck
      have hfail := List.all_eq_true.mp (Option.some.inj hstuck) e he
      simpa using hfail
  obtain ⟨hmirror, hne, -⟩ := ((Sample.run_parked n hhalf).step (.tx _ _ _ _ hall)).mirror_noEmpty
  exact ⟨n, hn, hmirror, hne, hpool⟩

end Peershares
