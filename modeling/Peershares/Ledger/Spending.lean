import Peershares.Ledger.Chain

/-!
# Every output is spent at most once

The transactions of a chain in the order they were connected, and which of them an input refers to:
the last one before it with the hash the input names (`Consumes`). A hash can come back once all
outputs under it are spent, so an outpoint alone does not name an output.

* `ChainState.Reachable.consumes` — every input consumes the output of exactly one earlier
  transaction, every output is consumed by at most one input, and the consumer is neither too early
  nor, for a generated output, too low
-/

open Framework

namespace Peershares

/-- The `j`-th transaction of a chain has an input that consumes the output `o.n` of the `i`-th:
the `i`-th transaction has the hash `o.hash` and such an output, and none between the two has that
hash. -/
structure Consumes (P : Params) (txs : List ConnectedTx) (i j : ℕ) (o : COutPoint) : Prop where
  lt : i < j
  creates : ∃ c : ConnectedTx, txs[i]? = some c ∧ P.hashTx c.tx = o.hash ∧ o.n < c.tx.vout.length
  spends : ∃ c : ConnectedTx, txs[j]? = some c ∧ c.tx.isCoinBase = false ∧ o ∈ c.tx.prevouts
  last : ∀ (k : ℕ) (c : ConnectedTx), i < k → k < j → txs[k]? = some c → P.hashTx c.tx ≠ o.hash

variable {P : Params} {txs : List ConnectedTx}

theorem mem_spends_iff {c : ConnectedTx} {o : COutPoint} :
    o.key ∈ (c.ledgerTx P).spends ↔ c.tx.isCoinBase = false ∧ o ∈ c.tx.prevouts := by
  simp only [ConnectedTx.ledgerTx]
  split_ifs with hcb
  · simp [hcb]
  · rw [keys_vin, List.mem_map_of_injective COutPoint.key_injective]
    simp [hcb]

/-- Consumption on the chain is consumption on the ledger. -/
theorem consumes_iff {i j : ℕ} {o : COutPoint} :
    Consumes P txs i j o ↔ Ledger.Consumes (txs.map (ConnectedTx.ledgerTx P)) i j o.key := by
  constructor
  · rintro ⟨hlt, ⟨ci, hi, hid, hn⟩, ⟨cj, hj, hspend⟩, hlast⟩
    refine ⟨hlt, ⟨ci.ledgerTx P, by simp [hi], hid, by simpa [ConnectedTx.ledgerTx, COutPoint.key] using hn⟩,
      ⟨cj.ledgerTx P, by simp [hj], mem_spends_iff.mpr hspend⟩, fun k t hik hkj hk => ?_⟩
    rw [List.getElem?_map] at hk
    obtain ⟨ck, hck, rfl⟩ := Option.map_eq_some_iff.mp hk
    exact hlast k ck hik hkj hck
  · rintro ⟨hlt, ⟨ti, hi, hid, hn⟩, ⟨tj, hj, hspend⟩, hlast⟩
    rw [List.getElem?_map] at hi hj
    obtain ⟨ci, hci, rfl⟩ := Option.map_eq_some_iff.mp hi
    obtain ⟨cj, hcj, rfl⟩ := Option.map_eq_some_iff.mp hj
    refine ⟨hlt, ⟨ci, hci, hid, by simpa [ConnectedTx.ledgerTx, COutPoint.key] using hn⟩,
      ⟨cj, hcj, mem_spends_iff.mp hspend⟩, fun k ck hik hkj hk => ?_⟩
    exact hlast k (ck.ledgerTx P) hik hkj (by simp [hk])

/-! ### Heights -/

/-- The entry of a connected transaction's block holds its position. -/
theorem mem_connectedTxs {files : BlockFiles} {p : BlockPtr} {c : ConnectedTx}
    (h : c ∈ connectedTxs files p) : ∃ e q, c.pindex = e :: q ∧ e :: q <:+ p ∧
      e.nFile = c.pos.nFile ∧ e.nBlockPos = c.pos.nBlockPos := by
  induction p with
  | nil => exact absurd h (by simp [connectedTxs])
  | cons e p ih =>
    cases p with
    | nil => exact absurd h (by simp [connectedTxs])
    | cons e' p' =>
      rw [connectedTxs] at h
      · rcases List.mem_append.mp h with h | h
        · obtain ⟨x, q, hx, hs, hpos⟩ := ih h
          exact ⟨x, q, hx, hs.trans (List.suffix_cons _ _), hpos⟩
        · split at h
          · exact absurd h (by simp)
          · obtain ⟨hindex, before, after, -, hpos⟩ := mem_blockTxs h
            exact ⟨e, e' :: p', hindex, List.suffix_rfl, by rw [hpos], by rw [hpos]⟩
      · simp

/-- Later transactions of a chain are in later blocks or in the same one. -/
theorem connectedTxs_pairwise (files : BlockFiles) (p : BlockPtr) :
    (connectedTxs files p).Pairwise (fun c c' => c.pindex <:+ c'.pindex) := by
  induction p with
  | nil => exact List.Pairwise.nil
  | cons e p ih =>
    cases p with
    | nil => exact List.Pairwise.nil
    | cons e' p' =>
      rw [connectedTxs]
      · cases hread : files.readBlock e.nFile e.nBlockPos with
        | none => simpa using ih
        | some block =>
          refine List.pairwise_append.mpr ⟨ih, ?_, fun c hc c' hc' => ?_⟩
          · rw [List.pairwise_iff_forall_sublist]
            intro c c' hsub
            rw [(mem_blockTxs (hsub.subset (by simp))).1, (mem_blockTxs (hsub.subset (by simp))).1]
          · rw [(mem_blockTxs hc').1]
            obtain ⟨x, q, hx, hs, -⟩ := mem_connectedTxs hc
            rw [hx]
            exact hs.trans (List.suffix_cons _ _)
      · simp

/-- The maturity loop looks at every block that is not deep enough. -/
theorem maturity_le_of_isImmature {nHeight : ℕ} {pos : CDiskTxPos} {p : BlockPtr}
    (hp : p.HeightsOk) (h : isImmature P nHeight pos p = false) {e : CBlockIndex} (he : e ∈ p)
    (hfile : e.nFile = pos.nFile) (hpos : e.nBlockPos = pos.nBlockPos) :
    (e.nHeight : Int) + P.nCoinbaseMaturity ≤ nHeight := by
  induction p with
  | nil => exact absurd he (by simp)
  | cons x p ih =>
    rw [isImmature] at h
    split_ifs at h with hdepth hhere
    · rcases List.mem_cons.mp he with rfl | he
      · exact absurd ⟨hpos, hfile⟩ hhere
      · exact ih hp.2 h he
    · -- the loop stops here, and everything below is deeper still
      have hle := hp.le e he
      rw [BlockPtr.nHeight_cons] at hle
      omega

/-! ### The result -/

namespace ChainState

variable {s : ChainState}

/-- **No double spend.** In every reachable state, for the transactions of the chain in order: every
input consumes the output of exactly one earlier transaction; an output is consumed by at most one
transaction, through one input; the consumer's time is not before the creator's; and the outputs of
a coinbase or coinstake are consumed at least `nCoinbaseMaturity` blocks above it. -/
theorem Reachable.consumes (h : Reachable P s) :
    (∀ (j : ℕ) (c : ConnectedTx) (o : COutPoint), (connectedTxs s.files s.tip)[j]? = some c →
      c.tx.isCoinBase = false → o ∈ c.tx.prevouts →
      ∃! i, Consumes P (connectedTxs s.files s.tip) i j o) ∧
    (∀ (i j j' : ℕ) (o : COutPoint), Consumes P (connectedTxs s.files s.tip) i j o →
      Consumes P (connectedTxs s.files s.tip) i j' o → j = j') ∧
    (∀ c ∈ connectedTxs s.files s.tip, c.tx.isCoinBase = false → c.tx.prevouts.Nodup) ∧
    ∀ (i j : ℕ) (o : COutPoint) (ci cj : ConnectedTx),
      Consumes P (connectedTxs s.files s.tip) i j o →
      (connectedTxs s.files s.tip)[i]? = some ci → (connectedTxs s.files s.tip)[j]? = some cj →
      ci.tx.nTime ≤ cj.tx.nTime ∧ (ci.tx.isGenerated = true →
        (ci.pindex.nHeight : Int) + P.nCoinbaseMaturity ≤ cj.pindex.nHeight) := by
  have hinv := h.inv
  have hvalid := hinv.ledger.valid
  have hheights := (hinv.tree.treeOk _ hinv.tree.tip_mem).heightsOk
  refine ⟨fun j c o hj hcb ho => ?_, fun i j j' o hc hc' => ?_, fun c hc hcb => ?_,
    fun i j o ci cj hc hi hj => ?_⟩
  · -- every input finds one creator
    simp only [consumes_iff]
    exact hvalid.existsUnique_consumes (by simp [hj]; rfl) (mem_spends_iff.mpr ⟨hcb, ho⟩)
  · -- no output is spent twice
    exact hvalid.consumes_injective (consumes_iff.mp hc) (consumes_iff.mp hc')
  · -- nor by one transaction
    obtain ⟨k, hk⟩ := List.mem_iff_getElem?.mp hc
    have hnodup := (hvalid.valid_at (j := k) (by simp [hk]; rfl)).nodup
    simp only [ConnectedTx.ledgerTx, hcb, Bool.false_eq_true, if_false, keys_vin] at hnodup
    exact hnodup.of_map
  · -- the creator is not later, and mature when it is generated
    have hcl := consumes_iff.mp hc
    obtain ⟨hsome, hcoin⟩ := hvalid.replay_of_consumes hcl (by simp [hi]; rfl)
    obtain ⟨coin, hout⟩ := Option.isSome_iff_exists.mp hsome
    rw [hout] at hcoin
    have hpolicy := (hvalid.valid_at (j := j) (by simp [hj]; rfl)).policy
    obtain ⟨cj', hj', hspend⟩ := hc.spends
    cases hj'.symm.trans hj
    have hmem := mem_spends_iff (P := P).mpr hspend
    -- the coin the input finds carries the creator and its position
    have hdata : coin.tx = ci.tx ∧ coin.pos = ci.pos := by
      simp only [ConnectedTx.ledgerTx, List.getElem?_map, Option.map_eq_some_iff] at hout
      obtain ⟨txout, -, rfl⟩ := hout
      exact ⟨rfl, rfl⟩
    refine ⟨?_, fun hgen => ?_⟩
    · rw [← hdata.1]
      exact hpolicy.nTime_le _ hmem _ hcoin
    · have hmature := hpolicy.mature _ hmem _ hcoin (by rw [hdata.1]; exact hgen)
      rw [hdata.2] at hmature
      -- both stand in blocks of one branch
      obtain ⟨ei, qi, hindex, -, hfile, hpos⟩ := mem_connectedTxs (List.mem_of_getElem? hi)
      obtain ⟨ej, qj, hindexj, hsuffix, -⟩ := mem_connectedTxs (List.mem_of_getElem? hj)
      have hle : ci.pindex <:+ cj.pindex := by
        obtain ⟨hilt, hieq⟩ := List.getElem?_eq_some_iff.mp hi
        obtain ⟨hjlt, hjeq⟩ := List.getElem?_eq_some_iff.mp hj
        rw [← hieq, ← hjeq]
        exact List.pairwise_iff_getElem.mp (connectedTxs_pairwise s.files s.tip) i j hilt hjlt hc.lt
      have hmemi : ei ∈ cj.pindex := hle.subset (by rw [hindex]; exact List.mem_cons_self)
      have hok : cj.pindex.HeightsOk := by
        rw [hindexj]
        exact hheights.suffix hsuffix
      rw [hindex, BlockPtr.nHeight_cons]
      exact maturity_le_of_isImmature hok hmature hmemi hfile hpos

/-- On the sample network the first coinbase is spent once, although its hash comes back. -/
theorem consumes_sample : ∃ s₁ s₂ s₃, Sample.reusedHash = some (s₁, s₂, s₃) ∧
    ∃! i, Consumes Sample.params (connectedTxs s₃.files s₃.tip) i 61
      ⟨Sample.params.hashTx (Sample.coinBase 1), 0⟩ := by
  obtain ⟨⟨s₁, s₂, s₃⟩, hrun, hfacts⟩ := Option.map_eq_some_iff.mp Sample.reusedHash_run
  obtain ⟨hreach, h₂, h₃⟩ := Sample.reusedHash_eq_some hrun
  have hreach₃ := Sample.reachable_extendBy (Sample.reachable_extendBy hreach h₂) h₃
  obtain ⟨c, hc, htx⟩ := Option.map_eq_some_iff.mp (Prod.mk.inj hfacts).1
  refine ⟨s₁, s₂, s₃, hrun, (Reachable.consumes hreach₃).1 61 c _ hc ?_ ?_⟩
  · rw [htx]
    decide
  · rw [htx]
    decide

end ChainState

end Peershares
