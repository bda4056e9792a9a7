import Mathlib.Order.WellFoundedSet
import Peershares.Relay.Orphans

/-!
# The order of arrival

A set of transactions that spend from the chain and from each other arrives one by one, in any
order. A transaction that comes before one of its parents is parked as an orphan, and the resolving
loop takes it out again when the last parent is accepted.

`accept` reads the pool at few places: at the hash of the transaction, at its outpoints, and at the
hashes of its parents. So whether a member of the set is accepted depends only on which of its
parents are in the pool already (`Deliverable.acceptTx_ready`, `Deliverable.acceptTx_waiting`).

The resolving loop keeps that an orphan which is not in the pool misses a parent, or spends from a
transaction that is still ahead in the work queue (`Resolving`). When the queue is done, every
orphan misses a parent; when moreover all members have arrived, there can be none, for one of lowest
rank would miss no parent.

* `deliver_all` — every member ends up in the pool, and none in the orphan maps.
-/

open Framework

namespace Peershares

/-! ### What `accept` reads of the pool -/

namespace CTxMemPool

variable {P : Params} {env : AcceptEnv} {pool pool' : CTxMemPool} {tx : CTransaction}

/-- The checks before `FetchInputs` read the pool at the hash and at the inputs only. -/
theorem acceptChecks_congr
    (hhash : pool'.mapTx.lookup (P.hashTx tx) = pool.mapTx.lookup (P.hashTx tx))
    (hfree : ∀ o ∈ tx.prevouts,
      (pool'.mapNextTx.lookup o).isNone = (pool.mapNextTx.lookup o).isNone) :
    pool'.acceptChecks P tx = pool.acceptChecks P tx := by
  have hall : tx.vin.all (fun txin => (pool'.mapNextTx.lookup txin.prevout).isNone) =
      tx.vin.all (fun txin => (pool.mapNextTx.lookup txin.prevout).isNone) := by
    rw [Bool.eq_iff_iff, List.all_eq_true, List.all_eq_true]
    refine forall₂_congr (fun txin htxin => ?_)
    rw [hfree txin.prevout (List.mem_map_of_mem htxin)]
  unfold acceptChecks
  rw [hhash, hall]

/-- Fetching an input reads the pool at its hash only. -/
theorem fetchPrev_congr {hash : Uint256} (h : pool'.mapTx.lookup hash = pool.mapTx.lookup hash) :
    fetchPrev (pool'.connectEnv env) ∅ false false hash =
      fetchPrev (pool.connectEnv env) ∅ false false hash := by
  unfold fetchPrev fetchIndex connectEnv
  simp only [h]

/-- So `FetchInputs` reads it at the hashes of the inputs. -/
theorem fetchLoop_congr {vin : List CTxIn}
    (h : ∀ txin ∈ vin, pool'.mapTx.lookup txin.prevout.hash = pool.mapTx.lookup txin.prevout.hash)
    (inputsRet : MapPrevTx) :
    fetchLoop (pool'.connectEnv env) ∅ false false vin inputsRet =
      fetchLoop (pool.connectEnv env) ∅ false false vin inputsRet := by
  induction vin generalizing inputsRet with
  | nil => rfl
  | cons txin vin ih =>
    obtain ⟨htxin, hvin⟩ := List.forall_mem_cons.mp h
    rw [fetchLoop, fetchLoop, fetchPrev_congr htxin]
    simp only [ih hvin]

/-- The second loop of `ConnectInputs` does not read the pool. -/
theorem spendInputs_connectEnv (vin : List CTxIn) (nIn : ℕ) (inputs : MapPrevTx) :
    spendInputs P (pool'.connectEnv env) tx CDiskTxPos.inMempool false false true vin nIn inputs ∅ =
      spendInputs P (pool.connectEnv env) tx CDiskTxPos.inMempool false false true vin nIn inputs ∅ := by
  induction vin generalizing nIn inputs with
  | nil => rfl
  | cons txin vin ih =>
    rw [spendInputs, spendInputs]
    simp only [Bool.or_self, Bool.false_eq_true, if_false, ih]
    rfl

/-- `ConnectInputs` does not read the pool. -/
theorem connectInputs_connectEnv (inputs : MapPrevTx) :
    tx.connectInputs P (pool'.connectEnv env) inputs ∅ CDiskTxPos.inMempool env.pindexBest false
        false true =
      tx.connectInputs P (pool.connectEnv env) inputs ∅ CDiskTxPos.inMempool env.pindexBest false
        false true := by
  unfold CTransaction.connectInputs
  rw [spendInputs_connectEnv]
  rfl

/-- **The verdict on a transaction** depends on the pool through its parents alone. -/
theorem checkInputs_congr
    (h : ∀ hash ∈ tx.prevHashes, pool'.mapTx.lookup hash = pool.mapTx.lookup hash) :
    pool'.checkInputs P env tx = pool.checkInputs P env tx := by
  have hfetch : tx.fetchInputs (pool'.connectEnv env) ∅ false false =
      tx.fetchInputs (pool.connectEnv env) ∅ false false := by
    unfold CTransaction.fetchInputs
    rw [fetchLoop_congr (fun txin htxin => h _ (List.mem_map_of_mem htxin))]
  have hfetched : ∀ inputs, pool'.checkFetched P env tx inputs = pool.checkFetched P env tx inputs := by
    intro inputs
    unfold checkFetched
    rw [connectInputs_connectEnv]
  unfold checkInputs
  rw [hfetch]
  simp only [hfetched]

/-! ### Missing inputs -/

/-- An input that is not found is an error, not a throw. -/
theorem fetchPrev_error {hash : Uint256} {e : Failure}
    (h : fetchPrev (pool.connectEnv env) ∅ false false hash = .error e) : ∃ msg, e = .error 0 msg := by
  unfold fetchPrev at h
  simp only [Bool.or_self, Bool.false_eq_true, if_false] at h
  split at h
  · split at h
    · exact ⟨_, by cases h; rfl⟩
    · cases h
  · split_ifs at h
    · split at h
      · exact ⟨_, by cases h; rfl⟩
      · cases h
    · split at h
      · exact ⟨_, by cases h; rfl⟩
      · cases h

/-- A parent that is nowhere makes the first loop of `FetchInputs` fail, without a score. -/
theorem fetchLoop_missing {hash : Uint256} {vin : List CTxIn}
    (hindex : env.txIndex.lookup hash = none) (hpool : pool.mapTx.lookup hash = none)
    (hmem : ∃ txin ∈ vin, txin.prevout.hash = hash) {inputsRet : MapPrevTx}
    (hnew : inputsRet.lookup hash = none) :
    ∃ msg, fetchLoop (pool.connectEnv env) ∅ false false vin inputsRet = .error (.error 0 msg) := by
  induction vin generalizing inputsRet with
  | nil =>
    obtain ⟨txin, htxin, -⟩ := hmem
    cases htxin
  | cons txin vin ih =>
    -- another input is the one with the missing parent
    have hrest : txin.prevout.hash ≠ hash → ∃ txin' ∈ vin, txin'.prevout.hash = hash := by
      intro hne
      obtain ⟨txin', htxin', heq⟩ := hmem
      rcases List.mem_cons.mp htxin' with rfl | htail
      · exact absurd heq hne
      · exact ⟨txin', htail, heq⟩
    rw [fetchLoop]
    -- this input is found, or the loop ends with it
    cases hlookup : inputsRet.lookup txin.prevout.hash with
    | some prev =>
      refine ih (hrest ?_) hnew
      rintro rfl
      rw [hnew] at hlookup
      cases hlookup
    | none =>
      cases hfetch : fetchPrev (pool.connectEnv env) ∅ false false txin.prevout.hash with
      | error e =>
        obtain ⟨msg, rfl⟩ := fetchPrev_error hfetch
        exact ⟨msg, rfl⟩
      | ok prev =>
        -- what was found is not the missing parent
        have hne : txin.prevout.hash ≠ hash := by
          rintro rfl
          unfold fetchPrev fetchIndex connectEnv at hfetch
          simp only [Bool.or_self, Bool.false_eq_true, if_false, hindex, hpool] at hfetch
          cases hfetch
        refine ih (hrest hne) ?_
        rw [Map.lookup_insert_eq, if_neg (fun heq => hne heq.symm)]
        exact hnew

/-- A parent that is nowhere gives `fMissingInputs`. -/
theorem checkInputs_missing {hash : Uint256} (hnew : env.txIndex.lookup (P.hashTx tx) = none)
    (hcb : tx.isCoinBase = false) (hmem : hash ∈ tx.prevHashes)
    (hindex : env.txIndex.lookup hash = none) (hpool : pool.mapTx.lookup hash = none) :
    ∃ r, pool.checkInputs P env tx = .error r ∧ r.fMissingInputs = true := by
  obtain ⟨txin, htxin, heq⟩ := List.mem_map.mp hmem
  obtain ⟨msg, hloop⟩ := fetchLoop_missing hindex hpool ⟨txin, htxin, heq⟩ (Map.lookup_empty hash)
  have hfetch : tx.fetchInputs (pool.connectEnv env) ∅ false false = .error (.error 0 msg) := by
    unfold CTransaction.fetchInputs
    rw [if_neg (by simp [hcb]), hloop]
    rfl
  unfold checkInputs
  rw [hnew, hfetch]
  exact ⟨_, rfl, rfl⟩

/-- A transaction is new to the chain when its inputs pass. -/
theorem new_of_checkInputs (h : pool.checkInputs P env tx = .ok ()) :
    env.txIndex.lookup (P.hashTx tx) = none := by
  unfold checkInputs at h
  cases hlookup : env.txIndex.lookup (P.hashTx tx) with
  | none => rfl
  | some txindex =>
    rw [hlookup] at h
    cases h

/-! ### Pools with a list of transactions added -/

/-- `addUnchecked` for each transaction. -/
def addAll (P : Params) (pool : CTxMemPool) (vtx : List CTransaction) : CTxMemPool :=
  vtx.foldl (CTxMemPool.addUnchecked P) pool

/-- The last of a row is added last. -/
theorem addAll_append_singleton (vtx : List CTransaction) (tx : CTransaction) :
    pool.addAll P (vtx ++ [tx]) = (pool.addAll P vtx).addUnchecked P tx := by
  unfold addAll
  rw [List.foldl_append]
  rfl

/-- What is not added is found as before. -/
theorem addAll_mapTx_of_notMem {vtx : List CTransaction} {hash : Uint256}
    (h : hash ∉ vtx.map P.hashTx) : (pool.addAll P vtx).mapTx.lookup hash = pool.mapTx.lookup hash := by
  induction vtx using List.reverseRecOn with
  | nil => rfl
  | append_singleton vtx tx ih =>
    simp only [List.map_append, List.map_cons, List.map_nil, List.mem_append, List.mem_singleton,
      not_or] at h
    rw [addAll_append_singleton, addUnchecked_mapTx, if_neg h.2, ih h.1]

/-- What is added is found under its hash. -/
theorem addAll_mapTx_of_mem {vtx : List CTransaction} {tx : CTransaction} (hmem : tx ∈ vtx)
    (hinj : ∀ tx' ∈ vtx, P.hashTx tx' = P.hashTx tx → tx' = tx) :
    (pool.addAll P vtx).mapTx.lookup (P.hashTx tx) = some tx := by
  induction vtx using List.reverseRecOn with
  | nil => cases hmem
  | append_singleton vtx tx₀ ih =>
    rw [addAll_append_singleton, addUnchecked_mapTx]
    split_ifs with heq
    · rw [hinj tx₀ (by simp) heq.symm]
    · have htail : tx ∈ vtx := by
        rcases List.mem_append.mp hmem with htail | hlast
        · exact htail
        · exact absurd (by rw [List.mem_singleton.mp hlast]) heq
      exact ih htail (fun tx' htx' => hinj tx' (List.mem_append_left _ htx'))

/-- An output that the transaction does not spend. -/
theorem addUnchecked_mapNextTx_of_notMem {o : COutPoint} (ho : o ∉ tx.prevouts) :
    (pool.addUnchecked P tx).mapNextTx.lookup o = pool.mapNextTx.lookup o := by
  rw [addUnchecked_mapNextTx]
  refine Map.lookup_foldl_insert_of_notMem ?_ _
  rw [List.map_map]
  intro hmem
  have hfst := List.zipIdx_map_fst 0 tx.prevouts
  exact ho (hfst ▸ hmem)

/-- An output that none of the row spends. -/
theorem addAll_mapNextTx_of_notMem {vtx : List CTransaction} {o : COutPoint}
    (h : ∀ tx ∈ vtx, o ∉ tx.prevouts) :
    (pool.addAll P vtx).mapNextTx.lookup o = pool.mapNextTx.lookup o := by
  induction vtx using List.reverseRecOn with
  | nil => rfl
  | append_singleton vtx tx ih =>
    rw [addAll_append_singleton, addUnchecked_mapNextTx_of_notMem (h tx (by simp)),
      ih (fun tx' htx' => h tx' (List.mem_append_left _ htx'))]

end CTxMemPool

/-! ### A set of transactions -/

/-- `m` spends from `p`, both members of `S`. -/
def SpendsFrom (P : Params) (S : List TxMsg) (p m : TxMsg) : Prop :=
  p ∈ S ∧ m ∈ S ∧ P.hashTx p.tx ∈ m.tx.prevHashes

/-- The members of `S` that `m` spends from. -/
def parentsIn (P : Params) (S : List TxMsg) (m : TxMsg) : List TxMsg :=
  S.filter (fun p => P.hashTx p.tx ∈ m.tx.prevHashes)

/-- The pool with the transactions of some messages. -/
def poolWith (P : Params) (pool₀ : CTxMemPool) (A : List TxMsg) : CTxMemPool :=
  pool₀.addAll P (A.map TxMsg.tx)

/-- A set of transactions that can be delivered: different and without conflicts, small and not too
many to be parked, without cycles, and each acceptable once its parents are in the pool. That every
input is in the chain, or in the set, is part of being acceptable. -/
structure Deliverable (P : Params) (env : AcceptEnv) (pool₀ : CTxMemPool) (S : List TxMsg) : Prop where
  distinct : (S.map (fun m => P.hashTx m.tx)).Nodup
  conflictFree : ∀ m ∈ S, ∀ m' ∈ S, m ≠ m' → ∀ o ∈ m.tx.prevouts, o ∉ m'.tx.prevouts
  small : ∀ m ∈ S, m.nSize ≤ 5000
  few : S.length ≤ MAX_ORPHAN_TRANSACTIONS
  acyclic : ∀ m, ¬ Relation.TransGen (SpendsFrom P S) m m
  acceptable : ∀ m ∈ S,
    ((poolWith P pool₀ (parentsIn P S m)).acceptTx P env true m.tx).isOk = true

namespace Deliverable

variable {P : Params} {env : AcceptEnv} {pool₀ : CTxMemPool} {S A : List TxMsg} {m p : TxMsg}

/-- The transactions of the set have different hashes. -/
theorem hash_inj (h : Deliverable P env pool₀ S) (hm : m ∈ S) (hp : p ∈ S)
    (heq : P.hashTx m.tx = P.hashTx p.tx) : m = p :=
  List.inj_on_of_nodup_map h.distinct hm hp heq

/-- The parents that are in the set. -/
theorem mem_parentsIn : p ∈ parentsIn P S m ↔ p ∈ S ∧ P.hashTx p.tx ∈ m.tx.prevHashes := by
  simp [parentsIn]

/-- No transaction is its own parent. -/
theorem notMem_parentsIn (h : Deliverable P env pool₀ S) (hm : m ∈ S) : m ∉ parentsIn P S m := by
  intro hmem
  exact h.acyclic m (.single ⟨hm, hm, (mem_parentsIn.mp hmem).2⟩)

/-! What the pool has, with the members `A` added. -/

/-- An accepted transaction of the set is in the pool. -/
theorem lookup_of_mem (h : Deliverable P env pool₀ S) (hA : ∀ m ∈ A, m ∈ S) (hm : m ∈ A) :
    (poolWith P pool₀ A).mapTx.lookup (P.hashTx m.tx) = some m.tx := by
  refine CTxMemPool.addAll_mapTx_of_mem (List.mem_map_of_mem hm) ?_
  intro tx' htx' heq
  obtain ⟨m', hm', rfl⟩ := List.mem_map.mp htx'
  rw [h.hash_inj (hA m' hm') (hA m hm) heq]

/-- One that is not accepted is not. -/
theorem lookup_of_notMem (h : Deliverable P env pool₀ S) (hA : ∀ m ∈ A, m ∈ S) (hm : m ∈ S)
    (hnot : m ∉ A) : (poolWith P pool₀ A).mapTx.lookup (P.hashTx m.tx) =
      pool₀.mapTx.lookup (P.hashTx m.tx) := by
  refine CTxMemPool.addAll_mapTx_of_notMem ?_
  intro hmem
  simp only [List.map_map, List.mem_map, Function.comp] at hmem
  obtain ⟨m', hm', heq⟩ := hmem
  exact hnot (h.hash_inj (hA m' hm') hm heq ▸ hm')

/-- Nothing else of the pool has changed. -/
theorem lookup_of_foreign (hA : ∀ m ∈ A, m ∈ S) {hash : Uint256}
    (hforeign : ∀ p ∈ S, P.hashTx p.tx ≠ hash) :
    (poolWith P pool₀ A).mapTx.lookup hash = pool₀.mapTx.lookup hash := by
  refine CTxMemPool.addAll_mapTx_of_notMem ?_
  intro hmem
  simp only [List.map_map, List.mem_map, Function.comp] at hmem
  obtain ⟨m', hm', heq⟩ := hmem
  exact hforeign m' (hA m' hm') heq

/-- The inputs of one that is not accepted are still free. -/
theorem next_of_notMem (h : Deliverable P env pool₀ S) (hA : ∀ m ∈ A, m ∈ S) (hm : m ∈ S)
    (hnot : m ∉ A) {o : COutPoint} (ho : o ∈ m.tx.prevouts) :
    (poolWith P pool₀ A).mapNextTx.lookup o = pool₀.mapNextTx.lookup o := by
  refine CTxMemPool.addAll_mapNextTx_of_notMem ?_
  intro tx htx
  obtain ⟨m', hm', rfl⟩ := List.mem_map.mp htx
  exact h.conflictFree m hm m' (hA m' hm') (by rintro rfl; exact hnot hm') o ho

/-! What is known of a member because it is acceptable. -/

/-- With its parents in the pool each transaction of the set is accepted. -/
theorem accepts (h : Deliverable P env pool₀ S) (hm : m ∈ S) :
    (poolWith P pool₀ (parentsIn P S m)).acceptChecks P m.tx = .ok () ∧
      (poolWith P pool₀ (parentsIn P S m)).checkInputs P env m.tx = .ok () := by
  have hok := h.acceptable m hm
  cases haccept : (poolWith P pool₀ (parentsIn P S m)).acceptTx P env true m.tx with
  | error r =>
    rw [haccept] at hok
    exact absurd hok (by simp [Except.isOk, Except.toBool])
  | ok pool' =>
    obtain ⟨hchecks, hinputs, -⟩ := CTxMemPool.acceptTx_eq_ok.mp haccept
    exact ⟨hchecks, hinputs rfl⟩

/-- The parents are part of the set. -/
theorem parentsIn_sub : ∀ p ∈ parentsIn P S m, p ∈ S := fun _ hp => (mem_parentsIn.mp hp).1

/-- No transaction of the set is in the chain. -/
theorem not_in_chain (h : Deliverable P env pool₀ S) (hm : m ∈ S) :
    env.txIndex.lookup (P.hashTx m.tx) = none :=
  CTxMemPool.new_of_checkInputs (h.accepts hm).2

/-- Nor in the pool at the start. -/
theorem not_in_pool (h : Deliverable P env pool₀ S) (hm : m ∈ S) :
    pool₀.mapTx.lookup (P.hashTx m.tx) = none := by
  rw [← h.lookup_of_notMem parentsIn_sub hm (h.notMem_parentsIn hm)]
  exact (CTxMemPool.admissible_of_acceptChecks (h.accepts hm).1).absent

/-- The first checks pass for every member that is not in the pool. -/
theorem acceptChecks_ok (h : Deliverable P env pool₀ S) (hA : ∀ m ∈ A, m ∈ S) (hm : m ∈ S)
    (hnot : m ∉ A) : (poolWith P pool₀ A).acceptChecks P m.tx = .ok () := by
  have hself := h.notMem_parentsIn hm
  refine (CTxMemPool.acceptChecks_congr ?_ ?_).trans (h.accepts hm).1
  · rw [h.lookup_of_notMem hA hm hnot, h.lookup_of_notMem parentsIn_sub hm hself]
  · intro o ho
    rw [h.next_of_notMem hA hm hnot ho, h.next_of_notMem parentsIn_sub hm hself ho]

/-- One more transaction accepted. -/
theorem poolWith_append_singleton (A : List TxMsg) (m : TxMsg) :
    poolWith P pool₀ (A ++ [m]) = (poolWith P pool₀ A).addUnchecked P m.tx := by
  unfold poolWith
  rw [List.map_append]
  exact CTxMemPool.addAll_append_singleton _ _

/-- A member whose parents are in the pool is accepted. -/
theorem acceptTx_ready (h : Deliverable P env pool₀ S) (hA : ∀ m ∈ A, m ∈ S) (hm : m ∈ S)
    (hnot : m ∉ A) (hready : ∀ p ∈ S, P.hashTx p.tx ∈ m.tx.prevHashes → p ∈ A) :
    (poolWith P pool₀ A).acceptTx P env true m.tx = .ok (poolWith P pool₀ (A ++ [m])) := by
  refine CTxMemPool.acceptTx_eq_ok.mpr
    ⟨h.acceptChecks_ok hA hm hnot, fun _ => ?_, poolWith_append_singleton A m⟩
  refine (CTxMemPool.checkInputs_congr (fun hash hhash => ?_)).trans (h.accepts hm).2
  by_cases hex : ∃ p ∈ S, P.hashTx p.tx = hash
  · obtain ⟨p, hp, rfl⟩ := hex
    rw [h.lookup_of_mem hA (hready p hp hhash),
      h.lookup_of_mem parentsIn_sub (mem_parentsIn.mpr ⟨hp, hhash⟩)]
  · have hforeign : ∀ p ∈ S, P.hashTx p.tx ≠ hash := fun p hp heq => hex ⟨p, hp, heq⟩
    rw [lookup_of_foreign hA hforeign, lookup_of_foreign parentsIn_sub hforeign]

/-- A member that misses a parent is refused for missing inputs. -/
theorem acceptTx_waiting (h : Deliverable P env pool₀ S) (hA : ∀ m ∈ A, m ∈ S) (hm : m ∈ S)
    (hnot : m ∉ A) (hp : p ∈ S) (hmissing : p ∉ A) (hspends : P.hashTx p.tx ∈ m.tx.prevHashes) :
    ∃ r, (poolWith P pool₀ A).acceptTx P env true m.tx = .error r ∧ r.fMissingInputs = true := by
  have hchecks := h.acceptChecks_ok hA hm hnot
  have hpool : (poolWith P pool₀ A).mapTx.lookup (P.hashTx p.tx) = none := by
    rw [h.lookup_of_notMem hA hp hmissing]
    exact h.not_in_pool hp
  obtain ⟨r, hr, hmiss⟩ := CTxMemPool.checkInputs_missing (h.not_in_chain hm)
    (CTxMemPool.admissible_of_acceptChecks hchecks).not_coinBase hspends (h.not_in_chain hp) hpool
  exact ⟨r, CTxMemPool.acceptTx_eq_error.mpr (.inr ⟨hchecks, rfl, hr⟩), hmiss⟩

/-- A member that is in the pool is refused, and not for missing inputs. -/
theorem acceptTx_again (h : Deliverable P env pool₀ S) (hA : ∀ m ∈ A, m ∈ S) (hm : m ∈ A) :
    ∃ r, (poolWith P pool₀ A).acceptTx P env true m.tx = .error r ∧ r.fMissingInputs = false := by
  cases hchecks : (poolWith P pool₀ A).acceptChecks P m.tx with
  | ok u =>
    have habsent := (CTxMemPool.admissible_of_acceptChecks hchecks).absent
    rw [h.lookup_of_mem hA hm] at habsent
    cases habsent
  | error e =>
    refine ⟨{ failure := e }, CTxMemPool.acceptTx_eq_error.mpr (.inl ?_), rfl⟩
    rw [hchecks]
    rfl

end Deliverable

/-! ### The resolving loop -/

/-- `m` spends from a member that is not accepted yet. -/
def MissesParent (P : Params) (S A : List TxMsg) (m : TxMsg) : Prop :=
  ∃ p ∈ S, p ∉ A ∧ P.hashTx p.tx ∈ m.tx.prevHashes

/-- The resolving loop of the message `m₀` at index `i`. `D` has arrived, `A` was in the pool before the
message, `B` was accepted by it, and `L` is still to be tried in this round. -/
structure Resolving (P : Params) (pool₀ : CTxMemPool) (S D A : List TxMsg) (m₀ : TxMsg) (i : ℕ)
    (L : List TxMsg) (st : ResolveState) (B : List TxMsg) : Prop where
  pool : st.pool = poolWith P pool₀ (A ++ B)
  queue : st.vWorkQueue = B.map (fun m => P.hashTx m.tx)
  le : i ≤ st.vWorkQueue.length
  arrived : ∀ m ∈ B, m ∈ D
  own : m₀ ∈ B
  nodup : (A ++ B).Nodup
  erased : ∀ hash ∈ st.vEraseQueue, ∃ m ∈ A ++ B, P.hashTx m.tx = hash
  erases : ∀ m ∈ B, P.hashTx m.tx ∈ st.vEraseQueue
  /-- Who is left misses a parent, or will be tried. -/
  pending : ∀ m ∈ D, m ∉ A ++ B → MissesParent P S (A ++ B) m ∨
    (∃ j, i ≤ j ∧ ∃ hash, st.vWorkQueue[j]? = some hash ∧ hash ∈ m.tx.prevHashes) ∨ m ∈ L

namespace Resolving

variable {P : Params} {env : AcceptEnv} {pool₀ : CTxMemPool} {S D A L B : List TxMsg} {m m₀ : TxMsg}
  {i : ℕ} {st : ResolveState}

/-- An orphan that is in the pool by now is only queued to be erased. -/
theorem again (h : Resolving P pool₀ S D A m₀ i (m :: L) st B) (hm : m ∈ A ++ B) :
    Resolving P pool₀ S D A m₀ i L
      { st with vEraseQueue := st.vEraseQueue ++ [P.hashTx m.tx] } B where
  pool := h.pool
  queue := h.queue
  le := h.le
  arrived := h.arrived
  own := h.own
  nodup := h.nodup
  erased := by
    intro hash hmem
    rcases List.mem_append.mp hmem with hold | hnew
    · exact h.erased hash hold
    · exact ⟨m, hm, (List.mem_singleton.mp hnew).symm⟩
  erases := fun m' hm' => List.mem_append_left _ (h.erases m' hm')
  pending := by
    intro x hx hnot
    refine (h.pending x hx hnot).imp_right (Or.imp_right (fun hin => ?_))
    rcases List.mem_cons.mp hin with rfl | htail
    · exact absurd hm hnot
    · exact htail

/-- An orphan that misses a parent is left alone. -/
theorem waiting (h : Resolving P pool₀ S D A m₀ i (m :: L) st B) (hm : MissesParent P S (A ++ B) m) :
    Resolving P pool₀ S D A m₀ i L st B where
  pool := h.pool
  queue := h.queue
  le := h.le
  arrived := h.arrived
  own := h.own
  nodup := h.nodup
  erased := h.erased
  erases := h.erases
  pending := by
    intro x hx hnot
    rcases h.pending x hx hnot with hmiss | hqueue | hin
    · exact .inl hmiss
    · exact .inr (.inl hqueue)
    · rcases List.mem_cons.mp hin with rfl | htail
      · exact .inl hm
      · exact .inr (.inr htail)

/-- An orphan that is accepted goes to the end of the work queue; who missed it waits for it there. -/
theorem accepted (h : Resolving P pool₀ S D A m₀ i (m :: L) st B) (hm : m ∈ D) (hnot : m ∉ A ++ B) :
    Resolving P pool₀ S D A m₀ i L
      { st with
        pool := poolWith P pool₀ (A ++ B ++ [m])
        vWorkQueue := st.vWorkQueue ++ [P.hashTx m.tx]
        vEraseQueue := st.vEraseQueue ++ [P.hashTx m.tx] } (B ++ [m]) where
  pool := by rw [List.append_assoc]
  queue := by
    rw [List.map_append, ← h.queue]
    rfl
  le := by
    have hle := h.le
    simp only [List.length_append, List.length_singleton]
    omega
  arrived := by
    -- what was accepted had arrived
    intro x hx
    rcases List.mem_append.mp hx with hold | hnew
    · exact h.arrived x hold
    · exact List.mem_singleton.mp hnew ▸ hm
  own := List.mem_append_left _ h.own
  nodup := by
    rw [← List.append_assoc]
    exact h.nodup.append (List.nodup_singleton m) (by simpa using hnot)
  erased := by
    -- what is to be erased was accepted
    intro hash hmem
    rw [← List.append_assoc]
    rcases List.mem_append.mp hmem with hold | hnew
    · obtain ⟨x, hx, heq⟩ := h.erased hash hold
      exact ⟨x, List.mem_append_left _ hx, heq⟩
    · exact ⟨m, by simp, (List.mem_singleton.mp hnew).symm⟩
  erases := by
    -- and the other way round
    intro x hx
    rcases List.mem_append.mp hx with hold | hnew
    · exact List.mem_append_left _ (h.erases x hold)
    · rw [List.mem_singleton.mp hnew]
      simp
  pending := by
    -- what is left waits for a message still to come, for one in the queue, or for this round
    intro x hx hxnot
    rw [← List.append_assoc] at hxnot ⊢
    have hxold : x ∉ A ++ B := fun hmem => hxnot (List.mem_append_left _ hmem)
    rcases h.pending x hx hxold with ⟨p, hp, hpnot, hspends⟩ | ⟨j, hij, hash, hj, hspends⟩ | hin
    · -- whoever missed `m` waits for it at the new end of the queue
      by_cases hpm : p = m
      · refine .inr (.inl ⟨st.vWorkQueue.length, h.le, P.hashTx m.tx, ?_, hpm ▸ hspends⟩)
        simp
      · refine .inl ⟨p, hp, ?_, hspends⟩
        simpa [hpm] using hpnot
    · refine .inr (.inl ⟨j, hij, hash, ?_, hspends⟩)
      rw [List.getElem?_append_left (List.getElem?_eq_some_iff.mp hj).1]
      exact hj
    · rcases List.mem_cons.mp hin with rfl | htail
      · exact absurd (by simp) hxnot
      · exact .inr (.inr htail)

/-- Everything accepted so far has been delivered. -/
theorem sub (h : Resolving P pool₀ S D A m₀ i L st B) (hD : ∀ m ∈ D, m ∈ S) (hA : ∀ m ∈ A, m ∈ D) :
    ∀ m ∈ A ++ B, m ∈ S := by
  intro m hm
  rcases List.mem_append.mp hm with hold | hnew
  · exact hD m (hA m hold)
  · exact hD m (h.arrived m hnew)

/-- One orphan. -/
theorem resolveOrphan (hS : Deliverable P env pool₀ S) (hD : ∀ m ∈ D, m ∈ S) (hA : ∀ m ∈ A, m ∈ D)
    (h : Resolving P pool₀ S D A m₀ i (m :: L) st B) (hm : m ∈ D) :
    ∃ B', Resolving P pool₀ S D A m₀ i L (Peershares.resolveOrphan P env st m) B' := by
  have hsub := h.sub hD hA
  unfold Peershares.resolveOrphan
  rw [h.pool]
  by_cases hmem : m ∈ A ++ B
  · obtain ⟨r, hr, hmiss⟩ := hS.acceptTx_again hsub hmem
    rw [hr]
    simp only [hmiss, Bool.false_eq_true, if_false, ← h.pool]
    exact ⟨B, h.again hmem⟩
  by_cases hready : ∀ p ∈ S, P.hashTx p.tx ∈ m.tx.prevHashes → p ∈ A ++ B
  · rw [hS.acceptTx_ready hsub (hD m hm) hmem hready]
    exact ⟨B ++ [m], h.accepted hm hmem⟩
  · push Not at hready
    obtain ⟨p, hp, hspends, hpnot⟩ := hready
    obtain ⟨r, hr, hmiss⟩ := hS.acceptTx_waiting hsub (hD m hm) hmem hp hpnot hspends
    rw [hr]
    simp only [hmiss, if_true]
    exact ⟨B, h.waiting ⟨p, hp, hpnot, hspends⟩⟩

/-- The orphans of one round. -/
theorem foldl_resolveOrphan (hS : Deliverable P env pool₀ S) (hD : ∀ m ∈ D, m ∈ S)
    (hA : ∀ m ∈ A, m ∈ D) (h : Resolving P pool₀ S D A m₀ i L st B) (hL : ∀ m ∈ L, m ∈ D) :
    ∃ B', Resolving P pool₀ S D A m₀ i [] (L.foldl (Peershares.resolveOrphan P env) st) B' := by
  induction L generalizing st B with
  | nil => exact ⟨B, h⟩
  | cons m L ih =>
    obtain ⟨hm, hrest⟩ := List.forall_mem_cons.mp hL
    obtain ⟨B', h'⟩ := h.resolveOrphan hS hD hA hm
    exact ih h' hrest

/-- A round tries all orphans that spend from the transaction at index `i`, so the loop can go on at
the next index. -/
theorem start_round (h : Resolving P pool₀ S D A m₀ i [] st B) {hashPrev : Uint256}
    (hi : st.vWorkQueue[i]? = some hashPrev) (byPrev : ByPrev)
    (hL : ∀ m ∈ D, m ∉ A ++ B → hashPrev ∈ m.tx.prevHashes → m ∈ L) :
    Resolving P pool₀ S D A m₀ (i + 1) L { st with byPrev } B where
  pool := h.pool
  queue := h.queue
  le := (List.getElem?_eq_some_iff.mp hi).1
  arrived := h.arrived
  own := h.own
  nodup := h.nodup
  erased := h.erased
  erases := h.erases
  pending := by
    intro m hm hnot
    rcases h.pending m hm hnot with hmiss | ⟨j, hij, hash, hj, hspends⟩ | hin
    · exact .inl hmiss
    · rcases Nat.eq_or_lt_of_le hij with rfl | hlt
      · rw [hi] at hj
        exact .inr (.inr (hL m hm hnot (Option.some.inj hj ▸ hspends)))
      · exact .inr (.inl ⟨j, hlt, hash, hj, hspends⟩)
    · cases hin

/-- **The resolving loop comes to its end**: it has a round for each transaction that is accepted, of
which there are at most `nMax`. -/
theorem resolveLoop (hS : Deliverable P env pool₀ S) (hD : ∀ m ∈ D, m ∈ S) (hA : ∀ m ∈ A, m ∈ D)
    {byPrev : ByPrev} (hin : ∀ hash, ∀ m ∈ orphansIn (byPrev.get hash), m ∈ D)
    (hall : ∀ m ∈ D, m ∉ A → m ≠ m₀ → ∀ hash ∈ m.tx.prevHashes, m ∈ orphansIn (byPrev.get hash))
    {nMax : ℕ} (hmax : ∀ B : List TxMsg, (A ++ B).Nodup → (∀ m ∈ B, m ∈ D) → B.length ≤ nMax)
    (nRounds : ℕ) (h : Resolving P pool₀ S D A m₀ i [] st B)
    (hget : ∀ hash, st.byPrev.get hash = byPrev.get hash) (hrounds : nMax ≤ nRounds + i) :
    ∃ B' i', Resolving P pool₀ S D A m₀ i' [] (Peershares.resolveLoop P env nRounds i st) B' ∧
      (Peershares.resolveLoop P env nRounds i st).vWorkQueue.length ≤ i' := by
  induction nRounds generalizing i st B with
  | zero =>
    refine ⟨B, i, h, ?_⟩
    -- with no rounds left, the queue has no more entries than were accepted
    have hlen := hmax B h.nodup h.arrived
    change st.vWorkQueue.length ≤ i
    rw [h.queue, List.length_map]
    omega
  | succ nRounds ih =>
    unfold Peershares.resolveLoop
    cases hi : st.vWorkQueue[i]? with
    | none => exact ⟨B, i, h, List.getElem?_eq_none_iff.mp hi⟩
    | some hashPrev =>
      -- the orphans that wait for `hashPrev` are those of the maps
      have hgetTouch : (st.byPrev.touch hashPrev).get hashPrev = byPrev.get hashPrev := by
        rw [ByPrev.get_touch, hget]
      have hround := h.start_round hi (st.byPrev.touch hashPrev)
        (L := orphansIn ((st.byPrev.touch hashPrev).get hashPrev)) (fun m hm hnot hspends => ?_)
      · obtain ⟨B', h'⟩ := hround.foldl_resolveOrphan hS hD hA (fun m hm => by
          rw [hgetTouch] at hm
          exact hin hashPrev m hm)
        refine ih h' (fun hash => ?_) (by omega)
        rw [foldl_resolveOrphan_byPrev, ByPrev.get_touch, hget]
      · rw [hgetTouch]
        refine hall m hm (fun hmA => hnot (List.mem_append_left _ hmA)) ?_ hashPrev hspends
        rintro rfl
        exact hnot (List.mem_append_right _ h.own)

end Resolving

/-! ### Messages -/

/-- `D` has arrived and `A` is in the pool; the rest of `D` is parked, and each misses a parent. -/
structure Delivered (P : Params) (pool₀ : CTxMemPool) (S D A : List TxMsg) (s : RelayState) : Prop where
  arrived : ∀ m ∈ D, m ∈ S
  accepted : ∀ m ∈ A, m ∈ D
  nodup : A.Nodup
  pool : s.pool = poolWith P pool₀ A
  mirror : s.orphans.Mirror P
  stored : ∀ hash m, s.orphans.mapOrphanTransactions.lookup hash = some m ↔
    m ∈ D ∧ m ∉ A ∧ P.hashTx m.tx = hash
  stuck : ∀ m ∈ D, m ∉ A → MissesParent P S A m

namespace Delivered

variable {P : Params} {env : AcceptEnv} {rand : ℕ → Uint256} {pool₀ : CTxMemPool}
  {S D A : List TxMsg} {m : TxMsg} {s : RelayState}

/-- What was delivered and not accepted is kept as an orphan. -/
theorem hash_mem_keys (h : Delivered P pool₀ S D A s) (hm : m ∈ D) (hnot : m ∉ A) :
    P.hashTx m.tx ∈ s.orphans.mapOrphanTransactions.keys := by
  have hlookup := (h.stored _ m).mpr ⟨hm, hnot, rfl⟩
  exact AList.mem_keys.mp (AList.lookup_isSome.mp (by rw [hlookup]; rfl))

/-- There are at most as many orphans as messages have arrived. -/
theorem size_le (h : Delivered P pool₀ S D A s) : s.orphans.size ≤ D.length := by
  have hsub : s.orphans.mapOrphanTransactions.keys ⊆ D.map (fun m => P.hashTx m.tx) := by
    intro hash hmem
    obtain ⟨m, hm⟩ := Option.isSome_iff_exists.mp (AList.lookup_isSome.mpr (AList.mem_keys.mpr hmem))
    obtain ⟨hD, -, hhash⟩ := (h.stored hash m).mp hm
    exact List.mem_map.mpr ⟨m, hD, hhash⟩
  have hle := (List.subperm_of_subset (AList.keys_nodup _) hsub).length_le
  rw [Orphans.size_eq_keys]
  simpa using hle

/-- A message adds to the pool at most itself and the orphans. -/
theorem length_le (hS : Deliverable P env pool₀ S) (h : Delivered P pool₀ S D A s) (hm : m ∈ S)
    (B : List TxMsg) (hnodup : (A ++ B).Nodup) (hB : ∀ x ∈ B, x ∈ D ++ [m]) :
    B.length ≤ s.orphans.size + 1 := by
  have hBS : ∀ x ∈ B, x ∈ S := by
    intro x hx
    rcases List.mem_append.mp (hB x hx) with hD | hlast
    · exact h.arrived x hD
    · exact List.mem_singleton.mp hlast ▸ hm
  -- what is accepted was parked or is the message itself
  have hsub : B.map (fun x => P.hashTx x.tx) ⊆
      P.hashTx m.tx :: s.orphans.mapOrphanTransactions.keys := by
    intro hash hmem
    obtain ⟨x, hx, rfl⟩ := List.mem_map.mp hmem
    rcases List.mem_append.mp (hB x hx) with hD | hlast
    · refine List.mem_cons_of_mem _ (h.hash_mem_keys hD (fun hA => ?_))
      exact List.disjoint_of_nodup_append hnodup hA hx
    · rw [List.mem_singleton.mp hlast]
      exact List.mem_cons_self
  -- two messages with one hash are the same message
  have hdistinct : (B.map (fun x => P.hashTx x.tx)).Nodup := by
    refine List.Nodup.map_on (fun x hx y hy heq => ?_) (List.Nodup.of_append_right hnodup)
    exact hS.hash_inj (hBS x hx) (hBS y hy) heq
  have hle := (List.subperm_of_subset hdistinct hsub).length_le
  rw [Orphans.size_eq_keys]
  simpa using hle

/-- A message whose parents are not all in the pool is parked; none is evicted. -/
theorem park (hS : Deliverable P env pool₀ S) (h : Delivered P pool₀ S D A s) (hm : m ∈ S)
    (hnew : m ∉ D) (hlen : D.length + 1 ≤ S.length) (hmiss : MissesParent P S A m) :
    Delivered P pool₀ S (D ++ [m]) A (processTx P env rand m s) := by
  have hmA : m ∉ A := fun hA => hnew (h.accepted m hA)
  have hsub : ∀ x ∈ A, x ∈ S := fun x hx => h.arrived x (h.accepted x hx)
  obtain ⟨p, hp, hpnot, hspends⟩ := hmiss
  -- `accept` fails for want of inputs
  obtain ⟨r, hr, hmissing⟩ := hS.acceptTx_waiting hsub hm hmA hp hpnot hspends
  -- no orphan has its hash, so it is parked
  have hnone : s.orphans.mapOrphanTransactions.lookup (P.hashTx m.tx) = none := by
    cases hl : s.orphans.mapOrphanTransactions.lookup (P.hashTx m.tx) with
    | none => rfl
    | some x =>
      obtain ⟨hx, -, heq⟩ := (h.stored _ x).mp hl
      exact absurd (hS.hash_inj (h.arrived x hx) hm heq ▸ hx) hnew
  have hadd : (s.orphans.addOrphanTx P m).mapOrphanTransactions =
      s.orphans.mapOrphanTransactions.insert (P.hashTx m.tx) m := by
    unfold Orphans.addOrphanTx
    rw [hnone, if_neg (by simp), if_neg (Nat.not_lt.mpr (hS.small m hm))]
  -- there are fewer messages than places, so none is evicted
  have hsize : (s.orphans.addOrphanTx P m).size ≤ MAX_ORPHAN_TRANSACTIONS := by
    have hold := h.size_le
    have hfew := hS.few
    rw [Orphans.size_eq_keys] at hold ⊢
    rw [hadd, AList.keys_insert, List.length_cons]
    have herase := List.length_erase_le (a := P.hashTx m.tx)
      (l := s.orphans.mapOrphanTransactions.keys)
    omega
  -- all that `ProcessMessage` does is to keep the orphan
  have hprocess : processTx P env rand m s = { s with orphans := s.orphans.addOrphanTx P m } := by
    unfold processTx
    rw [h.pool, hr]
    simp only [hmissing, if_true, Orphans.limitOrphanTxSize_of_le rand hsize]
  rw [hprocess]
  constructor
  · intro x hx
    rcases List.mem_append.mp hx with hD | hlast
    · exact h.arrived x hD
    · exact List.mem_singleton.mp hlast ▸ hm
  · exact fun x hx => List.mem_append_left _ (h.accepted x hx)
  · exact h.nodup
  · exact h.pool
  · exact h.mirror.addOrphanTx m
  · -- the orphans are what was delivered and not accepted
    intro hash x
    change (s.orphans.addOrphanTx P m).mapOrphanTransactions.lookup hash = some x ↔ _
    rw [hadd, Map.lookup_insert_eq]
    constructor
    · intro hlookup
      split_ifs at hlookup with heq
      · rw [← Option.some.inj hlookup]
        exact ⟨by simp, hmA, heq.symm⟩
      · obtain ⟨hD, hA, hhash⟩ := (h.stored hash x).mp hlookup
        exact ⟨List.mem_append_left _ hD, hA, hhash⟩
    · rintro ⟨hD, hA, rfl⟩
      rcases List.mem_append.mp hD with hD | hlast
      · rw [if_neg, (h.stored _ x).mpr ⟨hD, hA, rfl⟩]
        intro heq
        exact hnew (hS.hash_inj (h.arrived x hD) hm heq ▸ hD)
      · rw [List.mem_singleton.mp hlast, if_pos rfl]
  · -- and each of them misses a parent
    intro x hx hxA
    rcases List.mem_append.mp hx with hD | hlast
    · exact h.stuck x hD hxA
    · rw [List.mem_singleton.mp hlast]
      exact ⟨p, hp, hpnot, hspends⟩

/-- The orphans under a parent, as the resolving loop sees them. -/
theorem mem_orphansIn (h : Delivered P pool₀ S D A s) (hash : Uint256) (x : TxMsg) :
    x ∈ orphansIn (s.orphans.mapOrphanTransactionsByPrev.get hash) ↔
      x ∈ D ∧ x ∉ A ∧ hash ∈ x.tx.prevHashes := by
  constructor
  · intro hx
    obtain ⟨o, ho⟩ := lookup_of_mem_orphansIn hx
    obtain ⟨hlookup, hspends⟩ := (h.mirror.byPrev_iff hash o x).mp ho
    obtain ⟨hD, hA, -⟩ := (h.stored o x).mp hlookup
    exact ⟨hD, hA, hspends⟩
  · rintro ⟨hD, hA, hspends⟩
    have hlookup := (h.stored _ x).mpr ⟨hD, hA, rfl⟩
    exact mem_orphansIn_of_lookup ((h.mirror.byPrev_iff hash _ x).mpr ⟨hlookup, hspends⟩)

/-- The resolving loop starts with the message in the pool. -/
theorem start_resolving (h : Delivered P pool₀ S D A s) (hnew : m ∉ D) (byPrev : ByPrev) :
    Resolving P pool₀ S (D ++ [m]) A m 0 []
      ⟨poolWith P pool₀ (A ++ [m]), byPrev, [P.hashTx m.tx], [P.hashTx m.tx]⟩ [m] where
  pool := rfl
  queue := rfl
  le := Nat.zero_le _
  arrived := fun x hx => List.mem_append_right _ hx
  own := List.mem_singleton_self m
  nodup := h.nodup.append (List.nodup_singleton m) (by
    simpa using fun hA => hnew (h.accepted m hA))
  erased := fun hash hmem => ⟨m, by simp, (List.mem_singleton.mp hmem).symm⟩
  erases := fun x hx => by
    rw [List.mem_singleton.mp hx]
    exact List.mem_singleton_self _
  pending := by
    intro x hx hxnot
    rcases List.mem_append.mp hx with hD | hlast
    · -- an orphan that had to wait may now wait for the message only
      have hxA : x ∉ A := fun hA => hxnot (List.mem_append_left _ hA)
      obtain ⟨p, hp, hpnot, hspends⟩ := h.stuck x hD hxA
      by_cases hpm : p = m
      · exact .inr (.inl ⟨0, le_refl 0, P.hashTx m.tx, rfl, hpm ▸ hspends⟩)
      · exact .inl ⟨p, hp, by simpa [hpm] using hpnot, hspends⟩
    · exact absurd (List.mem_append_right _ hlast) hxnot

/-- A message whose parents are in the pool is accepted, and with it the orphans that waited for it. -/
theorem accept (hS : Deliverable P env pool₀ S) (h : Delivered P pool₀ S D A s) (hm : m ∈ S)
    (hnew : m ∉ D) (hready : ¬ MissesParent P S A m) :
    ∃ A', Delivered P pool₀ S (D ++ [m]) A' (processTx P env rand m s) := by
  have hmA : m ∉ A := fun hA => hnew (h.accepted m hA)
  have hsub : ∀ x ∈ A, x ∈ S := fun x hx => h.arrived x (h.accepted x hx)
  have hDS : ∀ x ∈ D ++ [m], x ∈ S := by
    intro x hx
    rcases List.mem_append.mp hx with hD | hlast
    · exact h.arrived x hD
    · exact List.mem_singleton.mp hlast ▸ hm
  -- `accept` finds all inputs
  have haccept : s.pool.acceptTx P env true m.tx = .ok (poolWith P pool₀ (A ++ [m])) := by
    rw [h.pool]
    refine hS.acceptTx_ready hsub hm hmA (fun p hp hspends => ?_)
    by_contra hpnot
    exact hready ⟨p, hp, hpnot, hspends⟩
  -- the work queue accepts what was waiting, and nothing that still misses a parent
  obtain ⟨B, i, hres, hend⟩ := (h.start_resolving hnew s.orphans.mapOrphanTransactionsByPrev).resolveLoop
    hS hDS (fun x hx => List.mem_append_left _ (h.accepted x hx))
    (fun hash x hx => List.mem_append_left _ ((h.mem_orphansIn hash x).mp hx).1)
    (fun x hx hxA hxm hash hspends => (h.mem_orphansIn hash x).mpr ⟨by
      rcases List.mem_append.mp hx with hD | hlast
      · exact hD
      · exact absurd (List.mem_singleton.mp hlast) hxm, hxA, hspends⟩)
    (h.length_le hS hm) (s.orphans.size + 1) (fun _ => rfl) (le_refl _)
  have hmirror : (processTx P env rand m s).orphans.Mirror P := h.mirror.processTx
  -- the branch of `ProcessMessage` is the one of an accepted transaction
  rcases processTx_cases P env rand m s with
    ⟨pool, hpool, hprocess, horphans⟩ | ⟨r, hr, -, -⟩ | ⟨r, hr, -, -⟩
  · rw [haccept] at hpool
    cases hpool
    refine ⟨A ++ B, hDS, ?_, hres.nodup, ?_, hmirror, ?_, ?_⟩
    · -- what is accepted has arrived
      intro x hx
      rcases List.mem_append.mp hx with hA | hB
      · exact List.mem_append_left _ (h.accepted x hA)
      · exact hres.arrived x hB
    · rw [hprocess]
      exact hres.pool
    · -- the orphans are what is left
      intro hash x
      rw [horphans, Orphans.lookup_foldl_eraseOrphanTx]
      constructor
      · intro hlookup
        split_ifs at hlookup with hE
        obtain ⟨hD, hA, hhash⟩ := (h.stored hash x).mp hlookup
        refine ⟨List.mem_append_left _ hD, fun hAB => ?_, hhash⟩
        rcases List.mem_append.mp hAB with hA' | hB
        · exact hA hA'
        · exact hE (hhash ▸ hres.erases x hB)
      · rintro ⟨hD, hAB, rfl⟩
        have hxA : x ∉ A := fun hA => hAB (List.mem_append_left _ hA)
        have hxD : x ∈ D := by
          rcases List.mem_append.mp hD with hD | hlast
          · exact hD
          · rw [List.mem_singleton.mp hlast] at hAB
            exact absurd (List.mem_append_right _ hres.own) hAB
        rw [if_neg, (h.stored _ x).mpr ⟨hxD, hxA, rfl⟩]
        -- only hashes of accepted transactions are erased
        intro hE
        obtain ⟨y, hy, heq⟩ := hres.erased _ hE
        have hyS := hres.sub hDS (fun x hx => List.mem_append_left _ (h.accepted x hx)) y hy
        exact hAB (hS.hash_inj hyS (h.arrived x hxD) heq ▸ hy)
    · -- and each of them misses a parent still
      intro x hx hxnot
      rcases hres.pending x hx hxnot with hmiss | ⟨j, hij, hash, hj, -⟩ | hin
      · exact hmiss
      · have hlt := (List.getElem?_eq_some_iff.mp hj).1
        omega
      · cases hin
  · rw [haccept] at hr
    cases hr
  · rw [haccept] at hr
    cases hr

/-- One message. -/
theorem processTx (hS : Deliverable P env pool₀ S) (h : Delivered P pool₀ S D A s) (hm : m ∈ S)
    (hnew : m ∉ D) (hlen : D.length + 1 ≤ S.length) :
    ∃ A', Delivered P pool₀ S (D ++ [m]) A' (Peershares.processTx P env rand m s) := by
  by_cases hmiss : MissesParent P S A m
  · exact ⟨A, h.park hS hm hnew hlen hmiss⟩
  · exact h.accept hS hm hnew hmiss

/-- When all have arrived, all are in the pool: by induction along the spending, since none misses a
parent that is accepted. -/
theorem all_accepted (hS : Deliverable P env pool₀ S) (h : Delivered P pool₀ S D A s)
    (hall : ∀ m ∈ S, m ∈ D) : ∀ m ∈ S, m ∈ A := by
  have : IsStrictOrder TxMsg (Relation.TransGen (SpendsFrom P S)) :=
    { irrefl := hS.acyclic, trans := fun _ _ _ h₁ h₂ => h₁.trans h₂ }
  have hwf : {m | m ∈ S}.WellFoundedOn (Relation.TransGen (SpendsFrom P S)) :=
    Set.Finite.wellFoundedOn (List.finite_toSet S)
  intro m hm
  refine hwf.induction hm (fun x hx ih => ?_)
  by_contra hnot
  obtain ⟨p, hp, hpnot, hspends⟩ := h.stuck x (hall x hx) hnot
  exact hpnot (ih p hp (.single ⟨hp, hx, hspends⟩))

end Delivered

/-! ### Delivery -/

/-- The messages, one after the other. -/
def deliver (P : Params) (env : AcceptEnv) (rand : TxMsg → ℕ → Uint256) (msgs : List TxMsg)
    (s : RelayState) : RelayState :=
  msgs.foldl (fun s m => processTx P env (rand m) m s) s

section Delivery

variable {P : Params} {env : AcceptEnv} {rand : TxMsg → ℕ → Uint256} {pool₀ : CTxMemPool}
  {S D A : List TxMsg} {s : RelayState}

/-- A row of deliveries, by induction on the row. -/
theorem Delivered.deliver (hS : Deliverable P env pool₀ S) (h : Delivered P pool₀ S D A s)
    {msgs : List TxMsg} (hmsgs : ∀ m ∈ msgs, m ∈ S) (hnodup : (D ++ msgs).Nodup)
    (hlen : (D ++ msgs).length ≤ S.length) :
    ∃ A', Delivered P pool₀ S (D ++ msgs) A' (Peershares.deliver P env rand msgs s) := by
  induction msgs generalizing D A s with
  | nil =>
    rw [List.append_nil]
    exact ⟨A, h⟩
  | cons m msgs ih =>
    obtain ⟨hm, hrest⟩ := List.forall_mem_cons.mp hmsgs
    have hnew : m ∉ D := fun hD => List.disjoint_of_nodup_append hnodup hD List.mem_cons_self
    have hstep : D.length + 1 ≤ S.length := by
      rw [List.length_append, List.length_cons] at hlen
      omega
    obtain ⟨A', h'⟩ : ∃ A', Delivered P pool₀ S (D ++ [m]) A'
        (Peershares.processTx P env (rand m) m s) :=
      h.processTx hS hm hnew hstep
    have happend : D ++ m :: msgs = D ++ [m] ++ msgs := by simp
    rw [happend] at hnodup hlen ⊢
    exact ih h' hrest hnodup hlen

/-- **The order of arrival does not matter.** The members of a deliverable set arrive in any order at a
node that has no orphans: each ends up in the pool, and no orphan is left. -/
theorem deliver_all (hrun : RelayRun P (fun _ _ _ => True) s) (hnone : s.orphans.size = 0)
    (hS : Deliverable P env s.pool S) {msgs : List TxMsg} (hmsgs : msgs.Perm S) :
    (∀ m ∈ S, (deliver P env rand msgs s).pool.mapTx.lookup (P.hashTx m.tx) = some m.tx) ∧
      (deliver P env rand msgs s).orphans.size = 0 ∧
      ∀ hash o, ((deliver P env rand msgs s).orphans.mapOrphanTransactionsByPrev.get hash).lookup o =
        none := by
  -- at the start nothing has arrived
  have hstart : Delivered P s.pool S [] [] s := by
    have hempty : ∀ hash, s.orphans.mapOrphanTransactions.lookup hash = none := by
      intro hash
      rw [Orphans.size_eq_keys] at hnone
      refine AList.lookup_eq_none.mpr (fun hmem => ?_)
      have hpos := List.length_pos_of_mem (AList.mem_keys.mp hmem)
      omega
    refine ⟨by simp, by simp, List.nodup_nil, rfl, hrun.mirror, ?_, by simp⟩
    intro hash m
    simp [hempty hash]
  obtain ⟨A, h⟩ : ∃ A, Delivered P s.pool S msgs A (deliver P env rand msgs s) :=
    hstart.deliver hS (fun m hm => hmsgs.mem_iff.mp hm) (hmsgs.nodup_iff.mpr hS.distinct.of_map)
      hmsgs.length_eq.le
  -- at the end everything was accepted
  have hall := h.all_accepted hS (fun m hm => hmsgs.mem_iff.mpr hm)
  have hstored : ∀ hash, (deliver P env rand msgs s).orphans.mapOrphanTransactions.lookup hash =
      none := by
    intro hash
    cases hl : (deliver P env rand msgs s).orphans.mapOrphanTransactions.lookup hash with
    | none => rfl
    | some m =>
      obtain ⟨hD, hA, -⟩ := (h.stored hash m).mp hl
      exact absurd (hall m (h.arrived m hD)) hA
  -- in the pool
  refine ⟨fun m hm => ?_, ?_, fun hash o => ?_⟩
  · rw [h.pool]
    exact hS.lookup_of_mem (fun x hx => h.arrived x (h.accepted x hx)) (hall m hm)
  · -- no orphan is left
    rw [Orphans.size_eq_keys, List.length_eq_zero_iff, List.eq_nil_iff_forall_not_mem]
    intro hash hmem
    have hsome := AList.lookup_isSome.mpr (AList.mem_keys.mpr hmem)
    rw [hstored hash] at hsome
    cases hsome
  · -- and nothing waits for one
    cases hl : ((deliver P env rand msgs s).orphans.mapOrphanTransactionsByPrev.get hash).lookup o with
    | none => rfl
    | some m =>
      have hlookup := ((h.mirror.byPrev_iff hash o m).mp hl).1
      rw [hstored o] at hlookup
      cases hlookup

end Delivery

/-! ### A child before its parent -/

namespace Sample

def parentMsg : TxMsg := ⟨toEmpty, toEmpty.getSerializeSize⟩

def childMsg : TxMsg := ⟨fromEmpty, fromEmpty.getSerializeSize⟩

/-- The two are a deliverable set on the chain of the sample, when `accept` takes them. -/
theorem deliverable_pair {env : AcceptEnv}
    (haccept : ∀ m ∈ [parentMsg, childMsg],
      ((poolWith shareParams {} (parentsIn shareParams [parentMsg, childMsg] m)).acceptTx shareParams
        env true m.tx).isOk = true) :
    Deliverable shareParams env {} [parentMsg, childMsg] where
  distinct := by decide
  conflictFree := by decide
  small := by decide
  few := by decide
  acyclic := by
    -- the parent is spent by the child only, which no one spends
    have hspends : ∀ p m, SpendsFrom shareParams [parentMsg, childMsg] p m → p = parentMsg ∧
        m = childMsg := by
      rintro p m ⟨hp, hm, hmem⟩
      have hpairs : ∀ p ∈ [parentMsg, childMsg], ∀ m ∈ [parentMsg, childMsg],
          shareParams.hashTx p.tx ∈ m.tx.prevHashes → p = parentMsg ∧ m = childMsg := by
        decide
      exact hpairs p hp m hm hmem
    have hends : ∀ p m, Relation.TransGen (SpendsFrom shareParams [parentMsg, childMsg]) p m →
        p = parentMsg ∧ m = childMsg := by
      intro p m h
      induction h with
      | single hpm => exact hspends p _ hpm
      | tail _ hxm ih => exact ⟨ih.1, (hspends _ _ hxm).2⟩
    intro m h
    obtain ⟨h₁, h₂⟩ := hends m m h
    exact absurd (h₁.symm.trans h₂) (by decide)
  acceptable := haccept

end Sample

/-- The child comes first, and both are in the pool in the end. -/
theorem deliver_childFirst : ∃ n, Sample.relayNode = some n ∧
    (deliver Sample.shareParams (Sample.relayEnv n) (fun _ _ => 0) [Sample.childMsg, Sample.parentMsg]
      {}).pool.mapTx.lookup 4 = some Sample.fromEmpty := by
  have haccept : Sample.relayNode.map (fun n => [Sample.parentMsg, Sample.childMsg].all (fun m =>
      ((poolWith Sample.shareParams {} (parentsIn Sample.shareParams
        [Sample.parentMsg, Sample.childMsg] m)).acceptTx Sample.shareParams (Sample.relayEnv n) true
          m.tx).isOk)) = some true := by
    decide +kernel
  obtain ⟨n, hn, haccept⟩ := Option.map_eq_some_iff.mp haccept
  have hS := Sample.deliverable_pair (List.all_eq_true.mp haccept)
  have hhash : Sample.shareParams.hashTx Sample.fromEmpty = 4 := by decide
  refine ⟨n, hn, ?_⟩
  rw [← hhash]
  exact (deliver_all .start rfl hS (List.Perm.swap Sample.parentMsg Sample.childMsg [])).1
    Sample.childMsg (by simp)

end Peershares
