import Mathlib.Data.Finset.Card
import Peershares.Ledger.Funded
import Peershares.Wallet.Rescan

/-!
# Spent flags after going over the wallet

`ReacceptWalletTransactions` ends, because every further round has found a transaction of the chain that the wallet
did not have. It does not see to all flags: a coinbase whose first output is flagged, and a coinstake whose second
output is flagged, is passed over with all its outputs. Such an output is flagged only when a scan comes upon the
transaction that spends it, which has to be one that the wallet did not have.

When every flag is right at the end is said about the wallet at the start, without running the loop: which entries
are passed over (`skips`), what is spent by a transaction that the wallet does not have (`Elsewhere`), and whether
a scan is made at all (`Rescans`). `ReacceptInv` compares the wallet of a later round with that of the start. It
holds after the first round (`start`), and a pass and a scan keep it (`pass`, `scan`).

* `CWallet.Committed` — the index and the transactions of the main chain
* `CWallet.ReacceptInv` — the wallet after the first round, against the wallet at the start
* `CWallet.newTxs_lt` — a round that goes on has found a new transaction, so the rounds end
* `CWallet.Repairable` — the condition on the wallet at the start
* `CWallet.reacceptWalletTransactions_iff` — the loop ends, and when every spent output is flagged then
* `Reachable.reaccept_iff` — the same on every chain that can be reached
-/

open Framework Framework.Command

namespace Peershares

namespace CWallet

variable {P : Params} {txIndex : TxIndexMap} {w w' u : CWallet} {tx : CTransaction} {vtx : List CTransaction}
  {o : COutPoint}

/-! ### What is passed over -/

/-- The output whose flag lets a pass skip the transaction. -/
def skipOutput (tx : CTransaction) : Option ℕ :=
  if tx.isCoinBase then some 0 else if tx.isCoinStake then some 1 else none

/-- `ReacceptWalletTransactions` passes over a transaction whose flagged output it looks at. -/
theorem isSkipped_iff {wtx : CWalletTx} :
    wtx.isSkipped = true ↔ ∃ n, skipOutput wtx.tx = some n ∧ wtx.flag n = true := by
  unfold CWalletTx.isSkipped skipOutput CWalletTx.flag
  cases hcb : wtx.tx.isCoinBase with
  | true =>
    -- no coinbase is a coinstake
    have hstake : wtx.tx.isCoinStake = false := by
      by_contra hstake
      rw [Bool.not_eq_false] at hstake
      rw [CTransaction.isCoinBase_of_isCoinStake hstake] at hcb
      exact absurd hcb (by simp)
    have hlen : 0 < wtx.tx.vout.length := by
      unfold CTransaction.isCoinBase at hcb
      split at hcb
      · simp only [Bool.and_eq_true, decide_eq_true_eq] at hcb
        exact hcb.2
      · exact absurd hcb (by simp)
    simp [hstake, hlen]
  | false =>
    cases hstake : wtx.tx.isCoinStake with
    | true =>
      -- a coinstake has its empty output and another one
      have hlen : 1 < wtx.tx.vout.length := by
        unfold CTransaction.isCoinStake at hstake
        split at hstake
        · next hvout =>
          rw [hvout]
          simp
        · exact absurd hstake (by simp)
      simp [hlen]
    | false => simp

/-- A pass skips the transaction with this hash. -/
def skips (w : CWallet) (hash : Uint256) : Bool := (w.mapWallet.lookup hash).any CWalletTx.isSkipped

/-- The same over the wallet. -/
theorem skips_iff {hash : Uint256} : w.skips hash = true ↔
    ∃ wtx n, w.mapWallet.lookup hash = some wtx ∧ skipOutput wtx.tx = some n ∧ w.spentFlag ⟨hash, n⟩ = true := by
  unfold skips
  cases hlookup : w.mapWallet.lookup hash with
  | none => simp
  | some wtx =>
    rw [Option.any_some, isSkipped_iff]
    simp [spentFlag_eq, hlookup]

/-- Once it is skipped, it is always. -/
theorem skips_mono (h : Grows w w') (hflags : ∀ o, w.spentFlag o = true → w'.spentFlag o = true) {hash : Uint256}
    (hskip : w.skips hash = true) : w'.skips hash = true := by
  obtain ⟨wtx, n, hlookup, hout, hflag⟩ := skips_iff.mp hskip
  obtain ⟨wtx', hlookup', htx⟩ := Option.map_eq_some_iff.mp (h.txs hash wtx hlookup)
  exact skips_iff.mpr ⟨wtx', n, hlookup', by rw [htx]; exact hout, hflags _ hflag⟩

/-- The index has the output as spent. -/
def spentIn (txIndex : TxIndexMap) (o : COutPoint) : Bool :=
  (txIndex.lookup o.hash).any (fun txindex => CWalletTx.hasSpent txindex.vSpent 0 o.n)

/-- What this needs of the index that is committed and of the transactions of the main chain: these were connected,
so they were funded by what stands before them, and an entry is that of one of them. -/
structure Committed (P : Params) (txIndex : TxIndexMap) (vtx : List CTransaction) : Prop where
  funded : ∀ tx ∈ vtx, tx.Funded P
  entry : ∀ hash txindex, txIndex.lookup hash = some txindex →
    ∃ tx ∈ vtx, P.hashTx tx = hash ∧ txindex.vSpent.length = tx.vout.length
  creator : ∀ before tx after, vtx = before ++ tx :: after → tx.isCoinBase = false → ∀ o ∈ tx.prevouts,
    ∃ t ∈ before, P.hashTx t = o.hash

/-- An own output of a wallet transaction. -/
theorem owns_eq_isOwn {wtx : CWalletTx} (hlookup : w.mapWallet.lookup o.hash = some wtx) :
    w.owns o = CWalletTx.isOwn w.isMine wtx.tx o.n := by
  unfold owns CWalletTx.isOwn
  rw [ownOutput_eq, hlookup, Option.map_some, Option.bind_some]
  cases wtx.tx.vout[o.n]? with
  | none => rfl
  | some txout =>
    rw [Option.filter_some, Option.any_some]
    split_ifs with hmine
    · rw [hmine]
      rfl
    · rw [Bool.eq_false_of_not_eq_true hmine]
      rfl

/-- What is owned is an own output of a known transaction. -/
theorem Keyed.owns_iff (h : w.Keyed P) (hP : CollisionFree P) {n : ℕ} :
    w.owns ⟨P.hashTx tx, n⟩ = true ↔ w.knows P tx = true ∧ CWalletTx.isOwn w.isMine tx n = true := by
  unfold knows
  cases hlookup : w.mapWallet.lookup (P.hashTx tx) with
  | none => simp [owns_eq_false (o := ⟨P.hashTx tx, n⟩) hlookup]
  | some wtx =>
    have hsame : wtx.tx = tx := hP.injective (h _ wtx hlookup)
    rw [owns_eq_isOwn (o := ⟨P.hashTx tx, n⟩) hlookup, hsame]
    simp

/-- In a pass the own outputs are flagged that the index has as spent, unless they are skipped. -/
theorem Committed.repairs_iff (hC : Committed P txIndex vtx) (hP : CollisionFree P) (hkeyed : w.Keyed P) :
    w.repairs P txIndex o = true ↔ w.skips o.hash = false ∧ spentIn txIndex o = true ∧ w.owns o = true := by
  unfold repairs skips CWalletTx.isRepaired spentIn
  cases hlookup : w.mapWallet.lookup o.hash with
  | none => simp [owns_eq_false hlookup]
  | some wtx =>
    have hhash : P.hashTx wtx.tx = o.hash := hkeyed _ wtx hlookup
    rw [Option.any_some, Option.any_some, owns_eq_isOwn hlookup, hhash]
    cases hentry : txIndex.lookup o.hash with
    | none => simp
    | some txindex =>
      obtain ⟨tx, -, htx, hlen⟩ := hC.entry _ _ hentry
      have hsame : tx = wtx.tx := hP.injective (htx.trans hhash.symm)
      rw [hsame] at hlen
      simp [hlen]

/-! ### When the flags are seen to -/

section Rounds

variable (P : Params) (txIndex : TxIndexMap) (vtx : List CTransaction)

/-- A transaction of the chain that the wallet does not have spends the output. -/
def Elsewhere (w : CWallet) (o : COutPoint) : Prop := ∃ tx ∈ vtx, w.knows P tx = false ∧ o ∈ tx.prevouts

/-- An own output that is spent and not flagged. -/
structure Missing (w : CWallet) (o : COutPoint) : Prop where
  owns : w.owns o = true
  spent : spentIn txIndex o = true
  notFlagged : w.spentFlag o = false

/-- The first pass finds an output, so the chain is scanned. -/
def Rescans (w : CWallet) : Prop := ∃ o, w.Missing txIndex o ∧ w.skips o.hash = false

/-- The condition under which no spent output is passed over. -/
structure Repairable (w : CWallet) : Prop where
  /-- A transaction that the wallet has and that is skipped from the start: its missing outputs are spent by
  transactions that the wallet does not have, and there is a scan. -/
  skipped : ∀ o, w.Missing txIndex o → w.skips o.hash = true → w.Rescans txIndex ∧ w.Elsewhere P vtx o
  /-- A transaction that the first scan may add with the flag for which it is skipped: its other spent outputs are
  also spent by transactions that the wallet does not have. -/
  added : w.Rescans txIndex → ∀ tx ∈ vtx, w.knows P tx = false → ∀ n m, skipOutput tx = some n →
    CWalletTx.isOwn w.isMine tx n = true → w.Elsewhere P vtx ⟨P.hashTx tx, n⟩ →
    CWalletTx.isOwn w.isMine tx m = true → spentIn txIndex ⟨P.hashTx tx, m⟩ = true →
    w.Elsewhere P vtx ⟨P.hashTx tx, m⟩

/-- What the loop is for: an own output of a wallet transaction is flagged when its entry in `vSpent` is not null. -/
def SpentFlagged (w : CWallet) : Prop :=
  ∀ hash wtx txindex n txout pos, w.mapWallet.lookup hash = some wtx → txIndex.lookup hash = some txindex →
    wtx.tx.vout[n]? = some txout → w.isMine txout.scriptPubKey = true → txindex.vSpent[n]? = some pos →
    pos.isNull = false → wtx.isSpent n = .ok true

/-- The wallet `u` after the first round, against the wallet `w` at the start. -/
structure ReacceptInv (w u : CWallet) : Prop where
  keyed : u.Keyed P
  grows : Grows w u
  member : ∀ hash, (u.mapWallet.lookup hash).isSome = true →
    (w.mapWallet.lookup hash).isSome = true ∨ ∃ tx ∈ vtx, P.hashTx tx = hash
  mine : ∀ tx ∈ vtx, u.isMineTx tx = true → u.knows P tx = true
  flagStays : ∀ o, w.spentFlag o = true → u.spentFlag o = true
  repaired : ∀ o, w.repairs P txIndex o = true → u.spentFlag o = true
  elsewhere : ∀ o, u.owns o = true → w.Elsewhere P vtx o → u.spentFlag o = true
  skipped : ∀ o, w.skips o.hash = true → u.spentFlag o = true → w.spentFlag o = true ∨ w.Elsewhere P vtx o
  own : ∀ o, w.mapWallet.lookup o.hash = none → u.spentFlag o = true → u.owns o = true
  /-- A transaction that was added with the flag for which it is skipped. -/
  addedSkipped : ∀ tx ∈ vtx, w.knows P tx = false → ∀ n m, skipOutput tx = some n →
    u.owns ⟨P.hashTx tx, n⟩ = true → w.Elsewhere P vtx ⟨P.hashTx tx, n⟩ → u.spentFlag ⟨P.hashTx tx, m⟩ = true →
    w.Elsewhere P vtx ⟨P.hashTx tx, m⟩
  /-- A transaction that was added without it: it has the flag only from a pass, which flags all outputs. -/
  addedPassed : ∀ tx ∈ vtx, w.knows P tx = false → ∀ n m, skipOutput tx = some n →
    ¬w.Elsewhere P vtx ⟨P.hashTx tx, n⟩ → u.spentFlag ⟨P.hashTx tx, n⟩ = true → u.owns ⟨P.hashTx tx, m⟩ = true →
    spentIn txIndex ⟨P.hashTx tx, m⟩ = true → u.spentFlag ⟨P.hashTx tx, m⟩ = true

end Rounds

/-- The condition at the end of the call. -/
theorem spentFlagged_iff : w.SpentFlagged txIndex ↔
    ∀ o, w.owns o = true → spentIn txIndex o = true → w.spentFlag o = true := by
  constructor
  · intro h o howns hspent
    obtain ⟨txout, hown⟩ := Option.isSome_iff_exists.mp howns
    obtain ⟨wtx, hlookup, hout, hmine⟩ := ownOutput_eq_some hown
    obtain ⟨txindex, hentry, hhas⟩ := Option.any_eq_true _ _ |>.mp hspent
    unfold CWalletTx.hasSpent at hhas
    rw [Bool.and_eq_true] at hhas
    obtain ⟨pos, hpos, hnull⟩ := Option.any_eq_true _ _ |>.mp hhas.2
    have hspent := h o.hash wtx txindex o.n txout pos hlookup hentry hout hmine hpos (by simpa using hnull)
    rw [isSpent_eq hlookup hout] at hspent
    exact Except.ok.inj hspent
  · intro h hash wtx txindex n txout pos hlookup hentry hout hmine hpos hnull
    rw [isSpent_eq hlookup hout, h ⟨hash, n⟩ (owns_of_lookup hlookup hout hmine)]
    unfold spentIn CWalletTx.hasSpent
    rw [hentry]
    simp [hpos, hnull]

/-! ### What the rounds keep -/

/-- Flags do not matter for the keys of the map. -/
theorem SameTxs.keyed (h : SameTxs w w') (hkeyed : w.Keyed P) : w'.Keyed P := by
  intro hash wtx' hlookup'
  have htxs := h.txs hash
  rw [hlookup', Option.map_some] at htxs
  obtain ⟨wtx, hlookup, htx⟩ := Option.map_eq_some_iff.mp htxs.symm
  rw [← htx]
  exact hkeyed _ _ hlookup

/-- Nor for what is mine. -/
theorem SameTxs.isMineTx (h : SameTxs w w') (tx : CTransaction) : w'.isMineTx tx = w.isMineTx tx :=
  h.grows.isMineTx_eq tx

/-- An output of no wallet transaction has no flag. -/
theorem spentFlag_eq_false (h : w.mapWallet.lookup o.hash = none) : w.spentFlag o = false := by
  rw [spentFlag_eq, h]
  rfl

/-- A transaction that is not known. -/
theorem lookup_eq_none_of_knows {n : ℕ} (h : w.knows P tx = false) :
    w.mapWallet.lookup (COutPoint.mk (P.hashTx tx) n).hash = none := by
  unfold knows at h
  exact Option.isNone_iff_eq_none.mp (by simpa using h)

/-- The flags after a pass. -/
theorem Committed.spentFlag_pass (hC : Committed P txIndex vtx) (hP : CollisionFree P) (hkeyed : w.Keyed P) :
    (w.reacceptEntries P txIndex).1.spentFlag o = true ↔ w.spentFlag o = true ∨
      (w.skips o.hash = false ∧ spentIn txIndex o = true ∧ w.owns o = true) := by
  rw [(reacceptEntries_spec P txIndex w).2.1, Bool.or_eq_true, hC.repairs_iff hP hkeyed]

/-- When a pass has something to append. -/
theorem Committed.missing_iff (hC : Committed P txIndex vtx) (hP : CollisionFree P) (hkeyed : w.Keyed P) :
    (w.reacceptEntries P txIndex).2 ≠ [] ↔ w.Rescans txIndex := by
  rw [Ne, (reacceptEntries_spec P txIndex w).2.2, not_forall]
  refine exists_congr fun o => ?_
  rw [Classical.not_imp, hC.repairs_iff hP hkeyed, Bool.not_eq_true]
  constructor
  · rintro ⟨⟨hskip, hspent, howns⟩, hflag⟩
    exact ⟨⟨howns, hspent, hflag⟩, hskip⟩
  · rintro ⟨⟨howns, hspent, hflag⟩, hskip⟩
    exact ⟨⟨hskip, hspent, howns⟩, hflag⟩

/-- A transaction whose own output a wallet has that grew: the wallet had it, when it has all its transactions of the
chain. -/
theorem Grows.owns_of_mine (h : Grows u w') (hP : CollisionFree P) (hkeyed : w'.Keyed P)
    (hmine : ∀ tx ∈ vtx, u.isMineTx tx = true → u.knows P tx = true)
    (hmember : (u.mapWallet.lookup o.hash).isSome = true ∨ ∃ tx ∈ vtx, P.hashTx tx = o.hash)
    (howns : w'.owns o = true) : u.owns o = true := by
  have hsome : (u.mapWallet.lookup o.hash).isSome = true := by
    rcases hmember with hsome | ⟨tx, htx, hhash⟩
    · exact hsome
    · have hown := hkeyed.isMineTx_of_owns hP howns hhash
      rw [h.isMineTx_eq] at hown
      have hknows := hmine tx htx hown
      unfold CWallet.knows at hknows
      rwa [hhash] at hknows
  rw [← h.owns_eq hsome]
  exact howns

namespace ReacceptInv

/-- The first round. -/
theorem start (hC : Committed P txIndex vtx) (hP : CollisionFree P) (hkeyed : w.Keyed P) {n : ℕ}
    (hscan : ScanOk P vtx (w.reacceptEntries P txIndex).1 u n) : ReacceptInv P txIndex vtx w u := by
  -- the first pass changes flags only
  obtain ⟨hsame, -, -⟩ := reacceptEntries_spec P txIndex w
  have hpass := fun o => hC.spentFlag_pass (o := o) hP hkeyed
  set p := (w.reacceptEntries P txIndex).1
  have hgrows : Grows w u := hsame.grows.trans hscan.grows
  -- what is flagged in a transaction that the pass did not flag
  have hnew : ∀ o, u.spentFlag o = true → p.spentFlag o = false → u.owns o = true ∧ w.Elsewhere P vtx o := by
    intro o ho hp
    rcases hscan.flagOnly o ho with hp' | ⟨howns, tx, htx, hunknown, hin⟩
    · rw [hp] at hp'
      exact absurd hp' Bool.false_ne_true
    · rw [hsame.knows] at hunknown
      exact ⟨howns, tx, htx, hunknown, hin⟩
  have hnone : ∀ o : COutPoint, w.mapWallet.lookup o.hash = none → p.spentFlag o = false := by
    intro o hlookup
    refine spentFlag_eq_false ?_
    rw [← Option.map_eq_none_iff (f := CWalletTx.tx), hsame.txs, hlookup]
    rfl
  refine ⟨hscan.keyed, hgrows, ?_, ?_, ?_, ?_, ?_, ?_, ?_, ?_, ?_⟩
  · -- what the wallet has, it had or saw in the scan
    intro hash hsome
    refine (hscan.member hash hsome).imp (fun h => ?_) id
    rwa [← hsame.isSome]
  · -- the scan found what pays to the wallet
    intro tx htx hmine
    rw [hscan.grows.isMineTx_eq] at hmine
    exact hscan.mine tx htx hmine
  · exact fun o ho => hscan.flagStays o ((hpass o).mpr (Or.inl ho))
  · exact fun o ho => hscan.flagStays o ((hpass o).mpr (Or.inr ((hC.repairs_iff hP hkeyed).mp ho)))
  · -- the first time the transaction comes that spends the output
    rintro o howns ⟨tx, htx, hunknown, hin⟩
    obtain ⟨before, after, hvtx, hnot⟩ := List.eq_append_cons_of_mem htx
    have hother : ∀ t ∈ before, P.hashTx t ≠ P.hashTx tx := fun t ht heq => hnot (hP.injective heq ▸ ht)
    have hcb : tx.isCoinBase = false := by
      by_contra hcb
      rw [Bool.not_eq_false] at hcb
      obtain ⟨txin, hvin, hzero⟩ := prevout_hash_of_isCoinBase hcb
      rw [CTransaction.prevouts, hvin, List.map_singleton, List.mem_singleton] at hin
      rw [hin, owns_eq_false (by rw [hzero]; exact hscan.keyed.lookup_zero hP)] at howns
      exact absurd howns Bool.false_ne_true
    refine hscan.flagSet before tx after o hvtx hother ?_ hin howns (Or.inr (hC.creator before tx after hvtx hcb o hin))
    rw [hsame.knows]
    exact hunknown
  · -- a transaction that is skipped
    intro o hskip ho
    cases hp : p.spentFlag o with
    | false => exact Or.inr (hnew o ho hp).2
    | true =>
      rcases (hpass o).mp hp with hw | ⟨hskip', -⟩
      · exact Or.inl hw
      · rw [hskip] at hskip'
        exact absurd hskip' (by simp)
  · exact fun o hlookup ho => (hnew o ho (hnone o hlookup)).1
  · exact fun tx _ hunknown n m _ _ _ hm => (hnew _ hm (hnone _ (lookup_eq_none_of_knows hunknown))).2
  · -- what is not spent elsewhere is not flagged
    intro tx _ hunknown n m _ hnot hn
    exact absurd (hnew _ hn (hnone _ (lookup_eq_none_of_knows hunknown))).2 hnot

/-- A further pass. -/
theorem pass (h : ReacceptInv P txIndex vtx w u) (hC : Committed P txIndex vtx) (hP : CollisionFree P) :
    ReacceptInv P txIndex vtx w (u.reacceptEntries P txIndex).1 := by
  obtain ⟨hsame, -, -⟩ := reacceptEntries_spec P txIndex u
  have hpass := fun o => hC.spentFlag_pass (o := o) hP h.keyed
  set p := (u.reacceptEntries P txIndex).1
  -- flags are never cleared
  have hstays : ∀ o, u.spentFlag o = true → p.spentFlag o = true := fun o ho => (hpass o).mpr (Or.inl ho)
  -- a transaction that is skipped has the same flags
  have hskips : ∀ o, u.skips o.hash = true → p.spentFlag o = true → u.spentFlag o = true := by
    intro o hskip ho
    rcases (hpass o).mp ho with hu | ⟨hskip', -⟩
    · exact hu
    · rw [hskip] at hskip'
      exact absurd hskip' (by simp)
  refine ⟨hsame.keyed h.keyed, h.grows.trans hsame.grows, ?_, ?_, fun o ho => hstays o (h.flagStays o ho),
    fun o ho => hstays o (h.repaired o ho), ?_, ?_, ?_, ?_, ?_⟩
  · intro hash hsome
    exact h.member hash (by rwa [← hsame.isSome])
  · intro tx htx hmine
    rw [hsame.isMineTx] at hmine
    rw [hsame.knows]
    exact h.mine tx htx hmine
  · -- what is spent elsewhere stays flagged
    intro o howns helse
    rw [hsame.owns] at howns
    exact hstays o (h.elsewhere o howns helse)
  · intro o hskip ho
    exact h.skipped o hskip (hskips o (skips_mono h.grows h.flagStays hskip) ho)
  · intro o hlookup ho
    rw [hsame.owns]
    rcases (hpass o).mp ho with hu | ⟨-, -, howns⟩
    · exact h.own o hlookup hu
    · exact howns
  · intro tx htx hunknown n m hout howns helse hm
    rw [hsame.owns] at howns
    -- the flag is there since the first scan
    have hflag := h.elsewhere _ howns helse
    obtain ⟨wtx, hlookup, -, -⟩ := ownOutput_eq_some (Option.isSome_iff_exists.mp howns).choose_spec
    have hsame' : wtx.tx = tx := hP.injective (h.keyed _ _ hlookup)
    have hskip : u.skips (P.hashTx tx) = true := skips_iff.mpr ⟨wtx, n, hlookup, by rw [hsame']; exact hout, hflag⟩
    exact h.addedSkipped tx htx hunknown n m hout howns helse (hskips ⟨P.hashTx tx, m⟩ hskip hm)
  · -- what the pass has to flag, it flags
    intro tx htx hunknown n m hout hnot hn howns hspent
    rw [hsame.owns] at howns
    rcases (hpass _).mp hn with hu | ⟨hskip, -, -⟩
    · exact hstays _ (h.addedPassed tx htx hunknown n m hout hnot hu howns hspent)
    · exact (hpass _).mpr (Or.inr ⟨hskip, hspent, howns⟩)

/-- A further scan. -/
theorem scan (h : ReacceptInv P txIndex vtx w u) (hP : CollisionFree P) {n : ℕ} (hscan : ScanOk P vtx u w' n) :
    ReacceptInv P txIndex vtx w w' := by
  -- what is flagged now is spent by a transaction that the wallet did not have at the start either
  have hnew : ∀ o, w'.spentFlag o = true → u.spentFlag o = true ∨ (w'.owns o = true ∧ w.Elsewhere P vtx o) := by
    intro o ho
    refine (hscan.flagOnly o ho).imp id ?_
    rintro ⟨howns, tx, htx, hunknown, hin⟩
    exact ⟨howns, tx, htx, h.grows.knows_false hunknown, hin⟩
  -- each transaction was there before, or is on the chain
  have hmember : ∀ hash, (w'.mapWallet.lookup hash).isSome = true →
      (u.mapWallet.lookup hash).isSome = true ∨ ∃ tx ∈ vtx, P.hashTx tx = hash := hscan.member
  have howns : ∀ o, w'.owns o = true → u.owns o = true := by
    intro o ho
    refine hscan.grows.owns_of_mine hP hscan.keyed h.mine (hmember o.hash ?_) ho
    obtain ⟨wtx, hlookup, -, -⟩ := ownOutput_eq_some (Option.isSome_iff_exists.mp ho).choose_spec
    rw [hlookup]
    rfl
  refine ⟨hscan.keyed, h.grows.trans hscan.grows, ?_, ?_, fun o ho => hscan.flagStays o (h.flagStays o ho),
    fun o ho => hscan.flagStays o (h.repaired o ho), fun o ho helse => hscan.flagStays o (h.elsewhere o (howns o ho) helse),
    ?_, ?_, ?_, ?_⟩
  · intro hash hsome
    rcases hmember hash hsome with hu | hvtx
    · exact h.member hash hu
    · exact Or.inr hvtx
  · intro tx htx hmine
    rw [hscan.grows.isMineTx_eq] at hmine
    exact hscan.mine tx htx hmine
  · -- a transaction that is skipped
    intro o hskip ho
    rcases hnew o ho with hu | ⟨-, helse⟩
    · exact h.skipped o hskip hu
    · exact Or.inr helse
  · intro o hlookup ho
    rcases hnew o ho with hu | ⟨hown, -⟩
    · exact hscan.grows.owns (h.own o hlookup hu)
    · exact hown
  · intro tx htx hunknown n m hout hn helse hm
    rcases hnew _ hm with hu | ⟨-, helse'⟩
    · exact h.addedSkipped tx htx hunknown n m hout (howns _ hn) helse hu
    · exact helse'
  · -- nothing that is not spent elsewhere is flagged by the scan
    intro tx htx hunknown n m hout hnot hn hm hspent
    rcases hnew _ hn with hu | ⟨-, helse⟩
    · exact hscan.flagStays _ (h.addedPassed tx htx hunknown n m hout hnot hu (howns _ hm) hspent)
    · exact absurd helse hnot

end ReacceptInv

/-! ### The loop -/

/-- How many transactions of the chain the wallet does not have. -/
def newTxs (P : Params) (vtx : List CTransaction) (w : CWallet) : ℕ :=
  ((vtx.filter (fun tx => !w.knows P tx)).map P.hashTx).toFinset.card

/-- The loop ends: each round adds a transaction. -/
theorem newTxs_lt (h : Grows w w') (htx : tx ∈ vtx) (hunknown : w.knows P tx = false)
    (hknown : w'.knows P tx = true) : newTxs P vtx w' < newTxs P vtx w := by
  refine Finset.card_lt_card (Finset.ssubset_iff_of_subset ?_ |>.mpr ⟨P.hashTx tx, ?_, ?_⟩)
  · intro hash hmem
    obtain ⟨t, ht, rfl⟩ := List.mem_map.mp (List.mem_toFinset.mp hmem)
    rw [List.mem_filter, Bool.not_eq_true'] at ht
    refine List.mem_toFinset.mpr (List.mem_map_of_mem (List.mem_filter.mpr ⟨ht.1, ?_⟩))
    rw [h.knows_false ht.2]
    rfl
  · refine List.mem_toFinset.mpr (List.mem_map_of_mem (List.mem_filter.mpr ⟨htx, ?_⟩))
    rw [hunknown]
    rfl
  · intro hmem
    obtain ⟨t, ht, hhash⟩ := List.mem_map.mp (List.mem_toFinset.mp hmem)
    rw [List.mem_filter, Bool.not_eq_true'] at ht
    unfold knows at ht hknown
    rw [hhash, hknown] at ht
    exact absurd ht.2 (by simp)

/-- The wallet at the beginning of a round. -/
def AtRound (P : Params) (txIndex : TxIndexMap) (vtx : List CTransaction) (w u : CWallet) : Prop :=
  u = w ∨ (w.Rescans txIndex ∧ ReacceptInv P txIndex vtx w u)

/-- The wallet in the end: after one pass, or with every spent output flagged that is not passed over. -/
def Done (P : Params) (txIndex : TxIndexMap) (vtx : List CTransaction) (w u : CWallet) : Prop :=
  (¬w.Rescans txIndex ∧ u = (w.reacceptEntries P txIndex).1) ∨
    (w.Rescans txIndex ∧ ReacceptInv P txIndex vtx w u ∧
      ∀ o, u.owns o = true → spentIn txIndex o = true → u.skips o.hash = false → u.spentFlag o = true)

/-- A round keeps the wallet transactions under their hashes. -/
theorem AtRound.keyed (h : AtRound P txIndex vtx w u) (hkeyed : w.Keyed P) : u.Keyed P := by
  rcases h with rfl | ⟨-, hinv⟩
  · exact hkeyed
  · exact hinv.keyed

/-- A pass that leaves nothing to scan for. -/
theorem AtRound.done (h : AtRound P txIndex vtx w u) (hC : Committed P txIndex vtx) (hP : CollisionFree P)
    (hnone : ¬u.Rescans txIndex) : Done P txIndex vtx w (u.reacceptEntries P txIndex).1 := by
  rcases h with rfl | ⟨hrescans, hinv⟩
  · exact Or.inl ⟨hnone, rfl⟩
  · obtain ⟨hsame, -, -⟩ := reacceptEntries_spec P txIndex u
    have hpass := fun o => hC.spentFlag_pass (o := o) hP hinv.keyed
    refine Or.inr ⟨hrescans, hinv.pass hC hP, fun o howns hspent hskip => (hpass o).mpr (Or.inr ⟨?_, hspent, ?_⟩)⟩
    · by_contra hskip'
      rw [Bool.not_eq_false] at hskip'
      rw [skips_mono hsame.grows (fun o ho => (hpass o).mpr (Or.inl ho)) hskip'] at hskip
      exact absurd hskip (by simp)
    · rwa [← hsame.owns]

/-- A pass with a scan. -/
theorem AtRound.scan (h : AtRound P txIndex vtx w u) (hC : Committed P txIndex vtx) (hP : CollisionFree P)
    (hkeyed : w.Keyed P) (hrescans : u.Rescans txIndex) {n : ℕ}
    (hscan : ScanOk P vtx (u.reacceptEntries P txIndex).1 w' n) :
    w.Rescans txIndex ∧ ReacceptInv P txIndex vtx w w' := by
  rcases h with rfl | ⟨hrescans', hinv⟩
  · exact ⟨hrescans, ReacceptInv.start hC hP hkeyed hscan⟩
  · exact ⟨hrescans', (hinv.pass hC hP).scan hP hscan⟩

/-- A scan that found no transaction. -/
theorem AtRound.done_scan (h : AtRound P txIndex vtx w u) (hC : Committed P txIndex vtx) (hP : CollisionFree P)
    (hkeyed : w.Keyed P) (hrescans : u.Rescans txIndex)
    (hscan : ScanOk P vtx (u.reacceptEntries P txIndex).1 w' 0) : Done P txIndex vtx w w' := by
  obtain ⟨hsame, -, -⟩ := reacceptEntries_spec P txIndex u
  have hpass := fun o => hC.spentFlag_pass (o := o) hP (h.keyed hkeyed)
  have hstays : ∀ o, u.spentFlag o = true → w'.spentFlag o = true :=
    fun o ho => hscan.flagStays o ((hpass o).mpr (Or.inl ho))
  obtain ⟨hrescans', hinv⟩ := h.scan hC hP hkeyed hrescans hscan
  refine Or.inr ⟨hrescans', hinv, fun o howns hspent hskip => ?_⟩
  refine hscan.flagStays o ((hpass o).mpr (Or.inr ⟨?_, hspent, ?_⟩))
  · by_contra hskip'
    rw [Bool.not_eq_false] at hskip'
    rw [skips_mono (hsame.grows.trans hscan.grows) hstays hskip'] at hskip
    exact absurd hskip (by simp)
  · obtain ⟨wtx, hlookup, -, -⟩ := ownOutput_eq_some (Option.isSome_iff_exists.mp howns).choose_spec
    have hsome := hscan.nothingNew rfl o.hash (by rw [hlookup]; rfl)
    rw [← hsame.owns, ← hscan.grows.owns_eq hsome]
    exact howns

/-- **A round** ends the loop, or the wallet has a transaction of the chain that it did not have. -/
theorem reacceptRound_cases (h : AtRound P txIndex vtx w u) (hC : Committed P txIndex vtx) (hP : CollisionFree P)
    (hkeyed : w.Keyed P) :
    (∃ w', reacceptRound P txIndex vtx u = .inr (.ok (), w') ∧ Done P txIndex vtx w w') ∨
    (∃ w', reacceptRound P txIndex vtx u = .inl w' ∧ AtRound P txIndex vtx w w' ∧
      newTxs P vtx w' < newTxs P vtx u) := by
  obtain ⟨hsame, -, -⟩ := reacceptEntries_spec P txIndex u
  have hmissing := hC.missing_iff hP (h.keyed hkeyed)
  unfold reacceptRound
  by_cases hrescans : u.Rescans txIndex
  · -- a transaction of the wallet is missing, so the chain is scanned
    have hne : (u.reacceptEntries P txIndex).2.isEmpty = false := List.isEmpty_eq_false_iff.mpr (hmissing.mpr hrescans)
    obtain ⟨w', n, hrun, hscan⟩ := scan_spec hP (hsame.keyed (h.keyed hkeyed)) hC.funded
    simp only [hne, hrun, Bool.false_eq_true, if_false]
    split_ifs with hzero
    · subst hzero
      exact Or.inl ⟨w', rfl, h.done_scan hC hP hkeyed hrescans hscan⟩
    · refine Or.inr ⟨w', rfl, Or.inr (h.scan hC hP hkeyed hrescans hscan), ?_⟩
      -- the scan found something, which is one less to be found
      obtain ⟨tx, htx, hunknown, hknown⟩ := hscan.somethingNew hzero
      rw [hsame.knows] at hunknown
      exact newTxs_lt (hsame.grows.trans hscan.grows) htx hunknown hknown
  · -- nothing is missing
    have hempty : (u.reacceptEntries P txIndex).2 = [] := not_not.mp (mt hmissing.mp hrescans)
    simp only [hempty, List.isEmpty_nil, if_true]
    exact Or.inl ⟨_, rfl, h.done hC hP hrescans⟩

/-- What the end says of the flags. -/
theorem Done.spentFlagged_iff (h : Done P txIndex vtx w u) (hC : Committed P txIndex vtx) (hP : CollisionFree P)
    (hkeyed : w.Keyed P) : u.SpentFlagged txIndex ↔ w.Repairable P txIndex vtx := by
  rw [CWallet.spentFlagged_iff]
  rcases h with ⟨hnone, rfl⟩ | ⟨hrescans, hinv, hsettled⟩
  · -- one pass, which found nothing
    obtain ⟨hsame, -, -⟩ := reacceptEntries_spec P txIndex w
    have hpass := fun o => hC.spentFlag_pass (o := o) hP hkeyed
    -- every own output that is spent is flagged, so what was missing was skipped
    constructor
    · intro hall
      refine ⟨fun o hmissing hskip => ?_, fun hrescans => absurd hrescans hnone⟩
      rcases (hpass o).mp (hall o (by rw [hsame.owns]; exact hmissing.owns) hmissing.spent) with hflag | ⟨hskip', -⟩
      · rw [hmissing.notFlagged] at hflag
        exact absurd hflag (by simp)
      · rw [hskip] at hskip'
        exact absurd hskip' (by simp)
    · -- conversely nothing is missing that was not skipped
      intro hrep o howns hspent
      rw [hsame.owns] at howns
      rw [hpass]
      by_contra hnot
      obtain ⟨hflag, hskip⟩ := not_or.mp hnot
      rw [Bool.not_eq_true] at hflag
      refine hnone (hrep.skipped o ⟨howns, hspent, hflag⟩ ?_).1
      by_contra hskip'
      rw [Bool.not_eq_true] at hskip'
      exact hskip ⟨hskip', hspent, howns⟩
  · -- there were several passes
    constructor
    · intro hall
      refine ⟨fun o hmissing hskip => ⟨hrescans, ?_⟩, ?_⟩
      · -- a skipped output had its flag, or got it from another one
        rcases hinv.skipped o hskip (hall o (hinv.grows.owns hmissing.owns) hmissing.spent) with hflag | helse
        · rw [hmissing.notFlagged] at hflag
          exact absurd hflag (by simp)
        · exact helse
      · -- and so for the transactions that were added
        intro _ tx htx hunknown n m hout hn helse hm hspent
        rw [← hinv.grows.isMine] at hn hm
        have howns : ∀ k, CWalletTx.isOwn u.isMine tx k = true → u.owns ⟨P.hashTx tx, k⟩ = true := by
          intro k hk
          refine (hinv.keyed.owns_iff hP).mpr ⟨hinv.mine tx htx ?_, hk⟩
          obtain ⟨txout, hget, hmine⟩ := Option.any_eq_true _ _ |>.mp hk
          exact List.any_eq_true.mpr ⟨txout, List.mem_of_getElem? hget, hmine⟩
        exact hinv.addedSkipped tx htx hunknown n m hout (howns n hn) helse (hall _ (howns m hm) hspent)
    · -- conversely each output was not skipped in the last pass, or has its flag otherwise
      intro hrep o howns hspent
      cases hskip : u.skips o.hash with
      | false => exact hsettled o howns hspent hskip
      | true =>
        obtain ⟨wtx, n, hlookup, hout, hn⟩ := skips_iff.mp hskip
        -- the transaction was there from the start, or was added
        cases hthere : w.mapWallet.lookup o.hash with
        | some wtx₀ =>
          -- a transaction that the wallet has from the start
          have howns₀ : w.owns o = true := by
            rw [← hinv.grows.owns_eq (by rw [hthere]; rfl)]
            exact howns
          cases hskip₀ : w.skips o.hash with
          | false => exact hinv.repaired o ((hC.repairs_iff hP hkeyed).mpr ⟨hskip₀, hspent, howns₀⟩)
          | true =>
            cases hflag : w.spentFlag o with
            | true => exact hinv.flagStays o hflag
            | false => exact hinv.elsewhere o howns (hrep.skipped o ⟨howns₀, hspent, hflag⟩ hskip₀).2
        | none =>
          rcases hinv.member o.hash (by rw [hlookup]; rfl) with hsome | ⟨tx, htx, hhash⟩
          · rw [hthere] at hsome
            exact absurd hsome (by simp)
          · obtain ⟨hash, m⟩ := o
            simp only at hhash hlookup hn hthere
            subst hhash
            have hunknown : w.knows P tx = false := by
              unfold knows
              rw [hthere]
              rfl
            have hsame : wtx.tx = tx := hP.injective (hinv.keyed _ _ hlookup)
            rw [hsame] at hout
            by_cases helse : w.Elsewhere P vtx ⟨P.hashTx tx, n⟩
            · have hown := ((hinv.keyed.owns_iff hP).mp (hinv.own ⟨P.hashTx tx, n⟩ hthere hn)).2
              have hown' := ((hinv.keyed.owns_iff hP).mp howns).2
              rw [hinv.grows.isMine] at hown hown'
              exact hinv.elsewhere _ howns (hrep.added hrescans tx htx hunknown n m hout hown helse hown' hspent)
            · exact hinv.addedPassed tx htx hunknown n m hout helse hn howns hspent

/-- The loop ends after as many rounds as there are transactions to be found, and one. -/
theorem reacceptWalletTransactions_iff (hC : Committed P txIndex vtx) (hP : CollisionFree P) (hkeyed : w.Keyed P) :
    ∃ w', (∀ fuel, newTxs P vtx w < fuel → reacceptWalletTransactions P txIndex vtx fuel w = some (.ok (), w')) ∧
      (w'.SpentFlagged txIndex ↔ w.Repairable P txIndex vtx) := by
  -- every round that goes on finds a transaction of the chain
  have hkeep : ∀ u u', AtRound P txIndex vtx w u → reacceptRound P txIndex vtx u = .inl u' →
      AtRound P txIndex vtx w u' ∧ newTxs P vtx u' < newTxs P vtx u := by
    intro u u' hat hround
    rcases reacceptRound_cases hat hC hP hkeyed with ⟨w', hr, -⟩ | ⟨w', hr, hat', hlt⟩
    · rw [hr] at hround
      cases hround
    · rw [hr] at hround
      cases hround
      exact ⟨hat', hlt⟩
  obtain ⟨r, hr⟩ := loop_terminates hkeep (Or.inl rfl)
  obtain ⟨last, hreach, hlast⟩ := loop_last (hr _ (Nat.lt_succ_self _))
  have hat : AtRound P txIndex vtx w last :=
    hreach.invariant (fun u u' hu hround => (hkeep u u' hu hround).1) (Or.inl rfl)
  -- the round that ends the loop
  rcases reacceptRound_cases hat hC hP hkeyed with ⟨w', hround, hdone⟩ | ⟨w', hround, -, -⟩
  · rw [hlast] at hround
    cases hround
    exact ⟨w', hr, hdone.spentFlagged_iff hC hP hkeyed⟩
  · rw [hlast] at hround
    cases hround

end CWallet

/-! ### On a chain -/

namespace ChainState

variable {P : Params} {s : ChainState} {w : CWallet}

/-- The index of a node and its main chain are as the loop needs them. -/
theorem Reachable.committed (h : Reachable P s) :
    CWallet.Committed P s.txIndex (mainChainTxs s.files s.tip) := by
  obtain ⟨htree, hledger⟩ := h.inv
  rw [mainChainTxs_eq (htree.treeOk _ htree.tip_mem)]
  refine ⟨?_, ?_, ?_⟩
  · refine List.forall_mem_cons.mpr ⟨Or.inl rfl, fun tx htx => ?_⟩
    obtain ⟨c, hc, rfl⟩ := List.mem_map.mp htx
    exact h.funded c hc
  · intro hash txindex hlookup
    obtain ⟨c, hlatest, -, hlen⟩ := hledger.index.entry hash txindex hlookup
    exact ⟨c.tx, List.mem_cons_of_mem _ (List.mem_map_of_mem (mem_of_latestTx hlatest)),
      Ledger.id_of_latest hlatest, hlen⟩
  · intro before tx after heq hcb o ho
    cases before with
    | nil =>
      -- the transaction of genesis is a coinbase
      cases heq
      exact absurd hcb (by simp [show P.txGenesis.isCoinBase = true from rfl])
    | cons first before =>
      rw [List.cons_append] at heq
      obtain ⟨-, heq⟩ := List.cons.inj heq
      obtain ⟨earlier, rest, htxs, rfl, hrest⟩ := List.map_eq_append_iff.mp heq
      obtain ⟨c, later, rfl, rfl, -⟩ := List.map_eq_cons_iff.mp hrest
      have hvalid := hledger.valid
      rw [htxs, List.append_cons] at hvalid
      have hspends : o.key ∈ (c.ledgerTx P).spends := by
        obtain ⟨txin, hin, rfl⟩ := List.mem_map.mp ho
        rw [ConnectedTx.ledgerTx, hcb]
        exact List.mem_map_of_mem hin
      obtain ⟨coin, hcoin⟩ := Option.isSome_iff_exists.mp (hvalid.of_append.valid_last.unspent _ hspends)
      obtain ⟨t, hlatest, -⟩ := Ledger.latest_of_replay hcoin
      obtain ⟨c', hc', hdata⟩ := List.mem_map.mp (List.mem_reverse.mp (List.mem_of_find?_eq_some hlatest))
      refine ⟨c'.tx, List.mem_cons_of_mem _ (List.mem_map_of_mem hc'), ?_⟩
      have hid := Ledger.id_of_latest hlatest
      rw [← hdata] at hid
      exact hid

/-- **Reaccepting ends, and it sees to the flags unless it passes over a spent output.** For a node that has run in any
way and for any wallet, whatever flags it has: `ReacceptWalletTransactions` ends, and the own outputs that the index has
as spent are all flagged then if and only if the wallet was `Repairable`. -/
theorem Reachable.reaccept_iff (h : Reachable P s) (hP : CollisionFree P) (hkeyed : w.Keyed P) :
    ∃ w', (∀ fuel, CWallet.newTxs P (mainChainTxs s.files s.tip) w < fuel →
        CWallet.reacceptWalletTransactions P s.txIndex (mainChainTxs s.files s.tip) fuel w = some (.ok (), w')) ∧
      (w'.SpentFlagged s.txIndex ↔ w.Repairable P s.txIndex (mainChainTxs s.files s.tip)) :=
  CWallet.reacceptWalletTransactions_iff h.committed hP hkeyed

end ChainState

/-! ### A coinbase that is passed over -/

namespace Sample

/-- A coinbase with two outputs. -/
def twoOutputs : CTransaction := { coinBase 1 with vout := [⟨1000000, keyScript⟩, ⟨1000000, keyScript⟩] }

/-- Spends the second output of `twoOutputs`. -/
def spendSecond : CTransaction where
  nTime := params.nTimeGenesis + 61
  vin := [⟨⟨4, 1⟩, [], UINT_MAX⟩]
  vout := [⟨900000, keyScript⟩]

/-- The transactions of the sample with that of genesis; their hashes are 2, 4 and 6. -/
def passedTxs : List CTransaction := [params.txGenesis, twoOutputs, spendSecond]

/-- Extend the chain by a block `n` seconds after genesis. -/
def extendListed (n : ℕ) (vtx : List CTransaction) (s : ChainState) : Option ChainState :=
  s.extend (listParams passedTxs) 2000000000
    { blockOn s.tip n vtx with
      hashMerkleRoot := CBlock.merkleRoot (listParams passedTxs) vtx.length (vtx.map (listHash passedTxs))
      nBits := getNextTargetRequired (listParams passedTxs) s.tip false }

/-- `n` blocks, of which the first has the coinbase with two outputs. -/
def passedChain : ℕ → Option ChainState
  | 0 => some (ChainState.init (listParams passedTxs))
  | n + 1 => (passedChain n).bind (extendListed (n + 1) [if n = 0 then twoOutputs else coinBase (n + 1)])

/-- The sample chain is reachable. -/
theorem reachable_passedChain {n : ℕ} {s : ChainState} (h : passedChain n = some s) :
    ChainState.Reachable (listParams passedTxs) s := by
  induction n generalizing s with
  | zero =>
    cases h
    exact Relation.ReflTransGen.refl
  | succ n ih =>
    obtain ⟨s₀, hs₀, he⟩ := Option.bind_eq_some_iff.mp h
    exact (ih hs₀).extend he

/-- Block 61 spends the second output of the coinbase of block 1. -/
def passedState : Option ChainState := (passedChain 60).bind (extendListed 61 [coinBase 61, spendSecond])

/-- And so is its last state. -/
theorem reachable_passedState {s : ChainState} (h : passedState = some s) :
    ChainState.Reachable (listParams passedTxs) s := by
  obtain ⟨s₀, hs₀, he⟩ := Option.bind_eq_some_iff.mp h
  exact (reachable_passedChain hs₀).extend he

/-- A wallet with the coinbase, of which the first output is flagged. -/
def passedWallet : CWallet where
  mapWallet := (∅ : Map Uint256 CWalletTx).insert 4 { tx := twoOutputs, vfSpent := [true, false] }
  isMine script := decide (script = keyScript)

/-- The sample wallet has its transaction under its hash. -/
theorem passedWallet_keyed : passedWallet.Keyed (listParams passedTxs) := by
  intro hash wtx hlookup
  rw [passedWallet, Map.lookup_insert_eq] at hlookup
  split_ifs at hlookup with hhash
  · cases hlookup
    rw [hhash]
    decide
  · simp at hlookup

/-- Nothing is missing, and the flags are as they were. -/
theorem passedState_run : passedState.map (fun s =>
    let r := CWallet.reacceptEntries (listParams passedTxs) s.txIndex passedWallet
    (r.2, r.1.mapWallet.lookup 4, (s.txIndex.lookup 4).map (fun e => e.vSpent.map CDiskTxPos.isNull))) =
    some ([], some { tx := twoOutputs, vfSpent := [true, false] }, some [true, false]) := by
  decide +kernel

end Sample

/-- The loop on the sample: it ends, and the equivalence holds for what it leaves. -/
theorem reaccept_iff_passedState : ∃ s w', Sample.passedState = some s ∧
    (∀ fuel, CWallet.newTxs (Sample.listParams Sample.passedTxs) (mainChainTxs s.files s.tip) Sample.passedWallet < fuel →
      CWallet.reacceptWalletTransactions (Sample.listParams Sample.passedTxs) s.txIndex (mainChainTxs s.files s.tip)
        fuel Sample.passedWallet = some (.ok (), w')) ∧
    (w'.SpentFlagged s.txIndex ↔ Sample.passedWallet.Repairable (Sample.listParams Sample.passedTxs) s.txIndex
      (mainChainTxs s.files s.tip)) := by
  obtain ⟨s, hs, -⟩ := Option.map_eq_some_iff.mp Sample.passedState_run
  obtain ⟨w', hw⟩ := ChainState.Reachable.reaccept_iff (Sample.reachable_passedState hs)
    (Sample.listParams_collisionFree _) Sample.passedWallet_keyed
  exact ⟨s, w', hs, hw⟩

/-- The second output of the coinbase is spent and stays without its flag. -/
theorem reaccept_passes_over :
    ¬ ∀ (P : Params) (s : ChainState) (w : CWallet), CollisionFree P → ChainState.Reachable P s → w.Keyed P →
      ∃ fuel w', CWallet.reacceptWalletTransactions P s.txIndex (mainChainTxs s.files s.tip) fuel w =
        some (.ok (), w') ∧ w'.SpentFlagged s.txIndex := by
  intro h
  obtain ⟨s, hs, heq⟩ := Option.map_eq_some_iff.mp Sample.passedState_run
  simp only [Prod.mk.injEq] at heq
  obtain ⟨hempty, hlookup, hspent⟩ := heq
  obtain ⟨e, hentry, hnulls⟩ := Option.map_eq_some_iff.mp hspent
  obtain ⟨fuel, w', hloop, hflagged⟩ := h _ s _ (Sample.listParams_collisionFree _) (Sample.reachable_passedState hs)
    Sample.passedWallet_keyed
  -- one round, which finds nothing
  have hround : CWallet.reacceptRound (Sample.listParams Sample.passedTxs) s.txIndex (mainChainTxs s.files s.tip)
      Sample.passedWallet = .inr (.ok (), (CWallet.reacceptEntries (Sample.listParams Sample.passedTxs) s.txIndex
        Sample.passedWallet).1) := by
    unfold CWallet.reacceptRound
    simp only [hempty, List.isEmpty_nil, if_true]
  unfold CWallet.reacceptWalletTransactions at hloop
  cases fuel with
  | zero => cases hloop
  | succ fuel =>
    rw [loop_break hround] at hloop
    cases hloop
    obtain ⟨pos, hpos, hnull⟩ : ∃ pos, e.vSpent[1]? = some pos ∧ pos.isNull = false := by
      have hget := congrArg (fun l => l[1]?) hnulls
      rw [List.getElem?_map] at hget
      exact Option.map_eq_some_iff.mp hget
    have hmine : Sample.passedWallet.isMine Sample.keyScript = true := by decide
    obtain ⟨hsame, -, -⟩ := CWallet.reacceptEntries_spec (Sample.listParams Sample.passedTxs) s.txIndex Sample.passedWallet
    have hflag := hflagged 4 _ e 1 ⟨1000000, Sample.keyScript⟩ pos hlookup hentry rfl (by rw [hsame.isMine]; exact hmine)
      hpos hnull
    exact absurd hflag (by decide)

end Peershares
