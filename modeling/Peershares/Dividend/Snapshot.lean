import Peershares.BestChain.Agreement
import Peershares.BestChain.Frame
import Peershares.Model.Dividend

/-!
# The share balances at a date

`GetAddressBalances` walks the main chain from genesis and keeps a balance per address. The ledger it
should show is the replay of the transactions below the cutoff (`snapshotBalance`).

The scanner has two rules of its own. It skips an output with an empty script when it is created, but
not when it is spent; and it reads what an input spends from the index of the whole chain. So its
balances are those of the ledger less the value of the skipped outputs (`Shows`), and it needs an entry
for every transaction that is spent from.

* `Shows.scanTransaction` — one transaction
* `Shows.scanBlocks` — the walk along the main chain
* `getAddressBalances_iff` — when the snapshot is right
-/

open Framework Framework.Command

namespace Peershares

/-! ### The balance map -/

namespace BalanceMap

variable {m : BalanceMap} {addr : CBase58Data} {v : Int}

/-- An entry of the balance map after `balances[addr] = v`. -/
theorem get_insert (m : BalanceMap) (addr : CBase58Data) (v : Int) (a : CBase58Data) :
    get (m.insert addr v) a = if a = addr then v else m.get a := by
  unfold get
  rw [Map.lookup_insert_eq]
  split_ifs <;> rfl

/-- And after `balances[addr] += v`. -/
theorem get_add (m : BalanceMap) (addr : CBase58Data) (v : Int) (a : CBase58Data) :
    (m.add addr v).get a = m.get a + if a = addr then v else 0 := by
  unfold add
  rw [get_insert]
  split_ifs with h
  · rw [h]
  · rw [add_zero]

/-- And after `balances[addr] -= v`, which may erase the entry. -/
theorem get_sub (m : BalanceMap) (addr : CBase58Data) (v : Int) (a : CBase58Data) :
    (m.sub addr v).get a = m.get a - if a = addr then v else 0 := by
  unfold sub
  split_ifs with hzero h h
  · rw [h, hzero]
    unfold get
    rw [Map.lookup_erase_eq, if_pos rfl]
    rfl
  · unfold get
    rw [Map.lookup_erase_eq, if_neg h, sub_zero]
  · rw [get_insert, if_pos h, h]
  · rw [get_insert, if_neg h, sub_zero]

/-- No entry is zero or negative. -/
def Positive (m : BalanceMap) : Prop := ∀ addr v, m.lookup addr = some v → 0 < v

/-- The empty map has no entries. -/
theorem Positive.empty : Positive ∅ := by
  intro addr v h
  rw [Map.lookup_empty] at h
  exact absurd h (by simp)

/-- No balance is negative. -/
theorem Positive.get_nonneg (h : m.Positive) (addr : CBase58Data) : 0 ≤ m.get addr := by
  unfold get
  cases hl : m.lookup addr with
  | none => exact le_refl _
  | some v => exact (h addr v hl).le

/-- Setting a positive balance. -/
theorem Positive.insert (h : m.Positive) (hv : 0 < v) : Positive (m.insert addr v) := by
  intro a w hl
  rw [Map.lookup_insert_eq] at hl
  split_ifs at hl with heq
  · cases hl
    exact hv
  · exact h a w hl

/-- Adding a positive amount. -/
theorem Positive.add (h : m.Positive) (hv : 0 < v) : (m.add addr v).Positive := by
  have hnonneg := h.get_nonneg addr
  exact h.insert (by omega)

/-- Taking off at most what is there: an entry that reaches zero is erased. -/
theorem Positive.sub (h : m.Positive) (hv : v ≤ m.get addr) : (m.sub addr v).Positive := by
  unfold BalanceMap.sub
  split_ifs with hzero
  · intro a w hl
    rw [Map.lookup_erase_eq] at hl
    split_ifs at hl with heq
    exact h a w hl
  · exact h.insert (by omega)

end BalanceMap

/-! ### What the balances should be -/

/-- What a coin adds to the balance of an address. -/
def Coin.share (P : Params) (addr : CBase58Data) (c : Coin) : Int :=
  if addr = addressOf P c.txout.scriptPubKey then c.nValue else 0

/-- The value of the coins of an address. -/
noncomputable def addressTotal (P : Params) (u : Ledger Uint256 Coin) (addr : CBase58Data) : Int :=
  Ledger.total (Coin.share P addr) u

/-- The value of the outputs with an empty script. -/
def emptyValue (vout : List CTxOut) : Int :=
  (vout.map (fun txo => if txo.scriptPubKey.isEmpty then txo.nValue else 0)).sum

/-- The balances are those of the ledger, less the value `skipped` at the unset address. -/
structure Shows (P : Params) (u : Ledger Uint256 Coin) (skipped : Int) (m : BalanceMap) : Prop where
  get_eq : ∀ addr, m.get addr = addressTotal P u addr - if addr = {} then skipped else 0
  positive : m.Positive

/-- An empty script has no address. -/
theorem addressOf_nil (P : Params) : addressOf P [] = {} := rfl

/-- Before the first block nothing is owned and the map is empty. -/
theorem Shows.empty (P : Params) : Shows P Ledger.empty 0 ∅ := by
  refine ⟨fun addr => ?_, BalanceMap.Positive.empty⟩
  have hget : BalanceMap.get ∅ addr = 0 := by
    unfold BalanceMap.get
    rw [Map.lookup_empty]
    rfl
  rw [hget, addressTotal, Ledger.total_empty]
  split_ifs <;> rfl

section

variable {P : Params} {files : BlockFiles} {txIndex : TxIndexMap} {u : Ledger Uint256 Coin}
  {m m' : BalanceMap} {skipped : Int}

/-- All coins have a value that is not negative. -/
def NonnegCoins (u : Ledger Uint256 Coin) : Prop := ∀ o c, u o = some c → 0 ≤ c.nValue

/-- Spending leaves the values of the coins. -/
theorem NonnegCoins.spend (h : NonnegCoins u) (os : List (Uint256 × ℕ)) :
    NonnegCoins (Ledger.spend u os) := by
  intro o c hc
  unfold Ledger.spend at hc
  split_ifs at hc
  exact h o c hc

/-- No address owns a negative amount. -/
theorem NonnegCoins.addressTotal_nonneg (h : NonnegCoins u) (addr : CBase58Data) :
    0 ≤ addressTotal P u addr := by
  refine finsum_nonneg (fun o => ?_)
  unfold Ledger.valueAt
  cases hc : u o with
  | none => exact le_refl _
  | some c =>
    simp only [Option.elim_some, Coin.share]
    split_ifs
    · exact h o c hc
    · exact le_refl _

/-- Spending one coin. -/
theorem addressTotal_spend (hfin : u.Finite) {o : Uint256 × ℕ} {c : Coin} (hc : u o = some c)
    (addr : CBase58Data) :
    addressTotal P (Ledger.spend u [o]) addr = addressTotal P u addr - c.share P addr := by
  unfold addressTotal
  rw [Ledger.total_spend _ hfin (List.nodup_singleton o)]
  simp [Ledger.valueAt, hc]

/-! ### Inputs -/

/-- What an input spends is a coin of the ledger, and when it is read from the index it is that
coin. -/
def ReadsCoin (files : BlockFiles) (txIndex : TxIndexMap) (u : Ledger Uint256 Coin) (txi : CTxIn)
    (c : Coin) : Prop :=
  u txi.prevout.key = some c ∧
    ∀ ti, readDiskTx files txIndex txi.prevout.hash = some ti →
      ti.vout[txi.prevout.n]? = some c.txout

/-- An input that is scanned takes its coin out of the balances. -/
theorem Shows.scanInput (h : Shows P u skipped m) (hfin : u.Finite) (hnonneg : NonnegCoins u)
    {txi : CTxIn} {c : Coin} (hread : ReadsCoin files txIndex u txi c)
    (hscan : scanInput P files txIndex txi m = .ok m') :
    (readDiskTx files txIndex txi.prevout.hash).isSome ∧
      Shows P (Ledger.spend u [txi.prevout.key]) skipped m' := by
  unfold Peershares.scanInput at hscan
  cases hti : readDiskTx files txIndex txi.prevout.hash with
  | none => simp [hti] at hscan
  | some ti =>
    refine ⟨rfl, ?_⟩
    simp only [hti, hread.2 ti hti] at hscan
    have hvalue := hnonneg _ c hread.1
    have hspend := addressTotal_spend (P := P) hfin hread.1
    -- a coin of value zero is passed over, with the same balances
    split_ifs at hscan with hpos hnone hlt
    · cases hscan
      refine ⟨fun addr => ?_, h.positive.sub (not_lt.mp hlt)⟩
      rw [BalanceMap.get_sub, h.get_eq, hspend]
      simp only [Coin.share, Coin.nValue]
      ring
    · cases hscan
      have hzero : c.txout.nValue = 0 := le_antisymm (not_lt.mp hpos) hvalue
      refine ⟨fun addr => ?_, h.positive⟩
      rw [h.get_eq, hspend]
      simp [Coin.share, Coin.nValue, hzero]

/-- When nothing was skipped, an input whose transaction is in the index can be scanned. -/
theorem Shows.scanInput_isOk (h : Shows P u 0 m) (hfin : u.Finite) (hnonneg : NonnegCoins u)
    {txi : CTxIn} {c : Coin} (hread : ReadsCoin files txIndex u txi c)
    (hsome : (readDiskTx files txIndex txi.prevout.hash).isSome) :
    ∃ m', Peershares.scanInput P files txIndex txi m = .ok m' := by
  obtain ⟨ti, hti⟩ := Option.isSome_iff_exists.mp hsome
  unfold Peershares.scanInput
  simp only [hti, hread.2 ti hti]
  -- the balance of the address is at least the coin
  have hle : c.txout.nValue ≤ m.get (addressOf P c.txout.scriptPubKey) := by
    have hrest := (hnonneg.spend [txi.prevout.key]).addressTotal_nonneg (P := P)
      (addressOf P c.txout.scriptPubKey)
    rw [addressTotal_spend hfin hread.1] at hrest
    rw [h.get_eq]
    simp only [Coin.share, Coin.nValue, if_true] at hrest
    simp only [ite_self, sub_zero]
    linarith
  split_ifs with hpos hnone hlt
  · have hzero : m.get (addressOf P c.txout.scriptPubKey) = 0 := by
      unfold BalanceMap.get
      rw [Option.isNone_iff_eq_none.mp hnone]
      rfl
    omega
  · omega
  · exact ⟨_, rfl⟩
  · exact ⟨_, rfl⟩

/-- Another input can still be read after one is spent. -/
theorem ReadsCoin.spend {txi txi' : CTxIn} {c : Coin} (h : ReadsCoin files txIndex u txi c)
    (hne : txi.prevout.key ≠ txi'.prevout.key) :
    ReadsCoin files txIndex (Ledger.spend u [txi'.prevout.key]) txi c := by
  refine ⟨?_, h.2⟩
  unfold Ledger.spend
  rw [if_neg (by simpa using hne)]
  exact h.1

/-- Once the first input has taken its coin, the others still find theirs. -/
theorem readsCoin_tail {txi : CTxIn} {vin : List CTxIn} (hnodup : (keys (txi :: vin)).Nodup)
    (hread : ∀ txi' ∈ txi :: vin, ∃ c, ReadsCoin files txIndex u txi' c) :
    ∀ txi' ∈ vin, ∃ c, ReadsCoin files txIndex (Ledger.spend u [txi.prevout.key]) txi' c := by
  intro txi' hmem
  obtain ⟨c, hc⟩ := hread txi' (List.mem_cons_of_mem _ hmem)
  refine ⟨c, hc.spend ?_⟩
  intro heq
  have hin : txi'.prevout.key ∈ keys vin := List.mem_map_of_mem hmem
  rw [heq] at hin
  exact (List.nodup_cons.mp hnodup).1 hin

/-- The inputs of a transaction that are scanned take their coins out of the balances. -/
theorem Shows.scanInputs {vin : List CTxIn} (h : Shows P u skipped m) (hfin : u.Finite)
    (hnonneg : NonnegCoins u) (hnodup : (keys vin).Nodup)
    (hread : ∀ txi ∈ vin, ∃ c, ReadsCoin files txIndex u txi c)
    (hscan : scanInputs P files txIndex vin m = .ok m') :
    (∀ txi ∈ vin, (readDiskTx files txIndex txi.prevout.hash).isSome) ∧
      Shows P (Ledger.spend u (keys vin)) skipped m' := by
  induction vin generalizing u m with
  | nil =>
    cases hscan
    refine ⟨by simp, ?_⟩
    have hnil : Ledger.spend u (keys []) = u := by
      funext o
      simp [Ledger.spend, keys]
    rw [hnil]
    exact h
  | cons txi vin ih =>
    obtain ⟨m₁, hfirst, hrest⟩ := Result.bind_eq_ok.mp hscan
    have htail := (List.nodup_cons.mp hnodup).2
    obtain ⟨c, hc⟩ := hread txi List.mem_cons_self
    obtain ⟨hsome, h₁⟩ := h.scanInput hfin hnonneg hc hfirst
    -- the inputs that are left spend other outputs
    have hread₁ := readsCoin_tail hnodup hread
    obtain ⟨hall, h'⟩ := ih h₁ (hfin.spend _) (hnonneg.spend _) htail hread₁ hrest
    rw [Ledger.spend_cons] at h'
    exact ⟨List.forall_mem_cons.mpr ⟨hsome, hall⟩, h'⟩

/-- When nothing was skipped, the inputs of a transaction can be scanned. -/
theorem Shows.scanInputs_isOk {vin : List CTxIn} (h : Shows P u 0 m) (hfin : u.Finite)
    (hnonneg : NonnegCoins u) (hnodup : (keys vin).Nodup)
    (hread : ∀ txi ∈ vin, ∃ c, ReadsCoin files txIndex u txi c)
    (hsome : ∀ txi ∈ vin, (readDiskTx files txIndex txi.prevout.hash).isSome) :
    ∃ m', Peershares.scanInputs P files txIndex vin m = .ok m' := by
  induction vin generalizing u m with
  | nil => exact ⟨m, rfl⟩
  | cons txi vin ih =>
    have htail := (List.nodup_cons.mp hnodup).2
    obtain ⟨c, hc⟩ := hread txi List.mem_cons_self
    obtain ⟨m₁, hfirst⟩ := h.scanInput_isOk hfin hnonneg hc (hsome txi List.mem_cons_self)
    obtain ⟨-, h₁⟩ := h.scanInput hfin hnonneg hc hfirst
    have hread₁ := readsCoin_tail hnodup hread
    obtain ⟨m', hm'⟩ := ih h₁ (hfin.spend _) (hnonneg.spend _) htail hread₁
      (fun txi' hmem => hsome txi' (List.mem_cons_of_mem _ hmem))
    exact ⟨m', Result.bind_eq_ok.mpr ⟨m₁, hfirst, hm'⟩⟩

/-! ### Outputs -/

/-- What a row of outputs adds to the balance of an address. -/
def outputShares (P : Params) (addr : CBase58Data) (vout : List CTxOut) : Int :=
  (vout.map (fun txo => if addr = addressOf P txo.scriptPubKey then txo.nValue else 0)).sum

/-- One step of the loop over the outputs: an empty script is passed over. -/
theorem get_scanOutput {txo : CTxOut} (hvalue : 0 ≤ txo.nValue) (addr : CBase58Data) :
    (scanOutput P m txo).get addr = m.get addr
      + (if addr = addressOf P txo.scriptPubKey then txo.nValue else 0)
      - if addr = {} then (if txo.scriptPubKey.isEmpty then txo.nValue else 0) else 0 := by
  unfold scanOutput
  by_cases hempty : txo.scriptPubKey = []
  · -- added as an output of the unset address, and skipped
    rw [hempty, addressOf_nil]
    simp only [List.isEmpty_nil, Bool.not_true, Bool.and_false, Bool.false_eq_true, if_false, if_true]
    ring
  · have hne : txo.scriptPubKey.isEmpty = false := by simpa using hempty
    simp only [hne, Bool.not_false, Bool.and_true, decide_eq_true_eq, Bool.false_eq_true, if_false,
      ite_self, sub_zero]
    by_cases hpos : 0 < txo.nValue
    · rw [if_pos hpos, BalanceMap.get_add]
    · have hzero : txo.nValue = 0 := le_antisymm (not_lt.mp hpos) hvalue
      rw [if_neg hpos, hzero, ite_self, add_zero]

/-- It keeps the balances positive. -/
theorem positive_scanOutput (h : m.Positive) (txo : CTxOut) : (scanOutput P m txo).Positive := by
  unfold scanOutput
  split_ifs with hcond
  · rw [Bool.and_eq_true, decide_eq_true_eq] at hcond
    exact h.add hcond.1
  · exact h

/-- The outputs of a transaction are added, but for those with an empty script. -/
theorem get_scanOutputs {vout : List CTxOut} (hvalue : ∀ txo ∈ vout, 0 ≤ txo.nValue)
    (addr : CBase58Data) :
    BalanceMap.get (vout.foldl (scanOutput P) m) addr =
      m.get addr + outputShares P addr vout - if addr = {} then emptyValue vout else 0 := by
  induction vout generalizing m with
  | nil => simp [outputShares, emptyValue]
  | cons txo vout ih =>
    obtain ⟨hfirst, hrest⟩ := List.forall_mem_cons.mp hvalue
    rw [List.foldl_cons, ih hrest, get_scanOutput hfirst]
    simp only [outputShares, emptyValue, List.map_cons, List.sum_cons]
    split_ifs <;> ring

/-- And so does the loop. -/
theorem positive_scanOutputs {vout : List CTxOut} (h : m.Positive) :
    BalanceMap.Positive (vout.foldl (scanOutput P) m) := by
  induction vout generalizing m with
  | nil => exact h
  | cons txo vout ih => exact ih (positive_scanOutput h txo)

/-- What is paid to empty scripts is not negative. -/
theorem emptyValue_nonneg {vout : List CTxOut} (hvalue : ∀ txo ∈ vout, 0 ≤ txo.nValue) :
    0 ≤ emptyValue vout := by
  refine List.sum_nonneg (fun x hx => ?_)
  obtain ⟨txo, hmem, rfl⟩ := List.mem_map.mp hx
  split_ifs
  · exact hvalue txo hmem
  · exact le_refl _

end

/-! ### One transaction -/

/-- The row of transactions of a chain, with its index. -/
structure ScanContext (P : Params) (files : BlockFiles) (txIndex : TxIndexMap)
    (txs : List ConnectedTx) : Prop where
  collisionFree : CollisionFree P
  valid : ValidTxs P txs
  index : IndexOk P files txs txIndex.lookup
  stored : ∀ c ∈ txs, c.IsStored files
  nValue_nonneg : ∀ c ∈ txs, ∀ txout ∈ c.tx.vout, 0 ≤ txout.nValue

/-- The value that the scanner skips in a row of transactions. -/
def skippedValue (txs : List ConnectedTx) : Int := (txs.map (fun c => emptyValue c.tx.vout)).sum

/-- Every transaction that is spent from has an entry. -/
def Indexed (txIndex : TxIndexMap) (c : ConnectedTx) : Prop :=
  c.tx.isCoinBase = false → ∀ txi ∈ c.tx.vin, (txIndex.lookup txi.prevout.hash).isSome

namespace ScanContext

variable {P : Params} {files : BlockFiles} {txIndex : TxIndexMap} {txs before after : List ConnectedTx}
  {c : ConnectedTx} {m m' : BalanceMap}

/-- The coins of the ledger come from outputs of the row. -/
theorem coin_of_replay (hsub : ∀ c ∈ before, c ∈ txs) {o : Uint256 × ℕ} {coin : Coin}
    (h : replayTxs P before o = some coin) :
    ∃ c ∈ txs, P.hashTx c.tx = o.1 ∧ c.tx.vout[o.2]? = some coin.txout := by
  obtain ⟨t, hlatest, hout⟩ := Ledger.latest_of_replay h
  obtain ⟨c, hmem, rfl⟩ :=
    List.mem_map.mp (List.mem_reverse.mp (List.mem_of_find?_eq_some hlatest))
  have hid : P.hashTx c.tx = o.1 := Ledger.id_of_latest hlatest
  simp only [ConnectedTx.ledgerTx, List.getElem?_map, Option.map_eq_some_iff] at hout
  obtain ⟨txout, htxout, rfl⟩ := hout
  exact ⟨c, hsub c hmem, hid, htxout⟩

/-- The coins of a checked chain are not negative. -/
theorem nonnegCoins (hctx : ScanContext P files txIndex txs) (hsub : ∀ c ∈ before, c ∈ txs) :
    NonnegCoins (replayTxs P before) := by
  intro o coin h
  obtain ⟨c, hmem, -, hout⟩ := coin_of_replay hsub h
  exact hctx.nValue_nonneg c hmem _ (List.mem_of_getElem? hout)

/-- A transaction that has an entry is read from disk. -/
theorem readDiskTx_isSome_iff (hctx : ScanContext P files txIndex txs) (h : Uint256) :
    (readDiskTx files txIndex h).isSome ↔ (txIndex.lookup h).isSome := by
  unfold readDiskTx
  cases he : txIndex.lookup h with
  | none => simp
  | some e =>
    obtain ⟨c, hlatest, hpos, -⟩ := hctx.index.entry h e he
    rw [Option.bind_some, hpos, (hctx.stored c (mem_of_latestTx hlatest)).readTx_eq]
    simp

/-- What the index has under a hash is the transaction with that hash. -/
theorem hashTx_of_readDiskTx (hctx : ScanContext P files txIndex txs) {h : Uint256} {ti : CTransaction}
    (hread : readDiskTx files txIndex h = some ti) : P.hashTx ti = h := by
  unfold readDiskTx at hread
  obtain ⟨e, he, hti⟩ := Option.bind_eq_some_iff.mp hread
  obtain ⟨c, hlatest, hpos, -⟩ := hctx.index.entry h e he
  rw [hpos, (hctx.stored c (mem_of_latestTx hlatest)).readTx_eq] at hti
  cases hti
  exact Ledger.id_of_latest hlatest

/-- The inputs of a connected transaction read the coins they spend. -/
theorem readsCoin (hctx : ScanContext P files txIndex txs) (htxs : txs = before ++ c :: after)
    (hcb : c.tx.isCoinBase = false) :
    ∀ txi ∈ c.tx.vin, ∃ coin, ReadsCoin files txIndex (replayTxs P before) txi coin := by
  intro txi hmem
  have hvalid := hctx.valid (before.map (ConnectedTx.ledgerTx P)) (c.ledgerTx P)
    (after.map (ConnectedTx.ledgerTx P)) (by rw [htxs]; simp)
  have hspends : txi.prevout.key ∈ (c.ledgerTx P).spends := by
    simp only [ConnectedTx.ledgerTx, hcb]
    exact List.mem_map_of_mem hmem
  obtain ⟨coin, hcoin⟩ := Option.isSome_iff_exists.mp (hvalid.unspent _ hspends)
  refine ⟨coin, hcoin, fun ti hti => ?_⟩
  have hsub : ∀ c' ∈ before, c' ∈ txs := by
    intro c' hc'
    rw [htxs]
    exact List.mem_append_left _ hc'
  obtain ⟨c', -, hhash, hout⟩ := coin_of_replay hsub hcoin
  -- one hash, one transaction
  have heq : ti = c'.tx :=
    hctx.collisionFree.injective ((hctx.hashTx_of_readDiskTx hti).trans hhash.symm)
  rw [heq]
  exact hout

/-- The same for one transaction of the chain. -/
theorem emptyValue_nonneg (hctx : ScanContext P files txIndex txs) (hmem : c ∈ txs) :
    0 ≤ emptyValue c.tx.vout := Peershares.emptyValue_nonneg (hctx.nValue_nonneg c hmem)

/-- And for a part of it. -/
theorem skippedValue_nonneg (hctx : ScanContext P files txIndex txs) (hsub : ∀ c ∈ before, c ∈ txs) :
    0 ≤ skippedValue before := by
  refine List.sum_nonneg (fun x hx => ?_)
  obtain ⟨c, hmem, rfl⟩ := List.mem_map.mp hx
  exact hctx.emptyValue_nonneg (hsub c hmem)

/-- When nothing is skipped in a row, nothing is skipped in its first part. -/
theorem skippedValue_of_append {new : List ConnectedTx} (hctx : ScanContext P files txIndex txs)
    (hsub : ∀ c ∈ before ++ new, c ∈ txs) (h : skippedValue (before ++ new) = 0) :
    skippedValue before = 0 := by
  have hfirst := hctx.skippedValue_nonneg (fun c hc => hsub c (List.mem_append_left new hc))
  have hrest := hctx.skippedValue_nonneg (fun c hc => hsub c (List.mem_append_right before hc))
  simp only [skippedValue, List.map_append, List.sum_append] at h hfirst hrest ⊢
  omega

/-- The outputs of a transaction whose coins have been taken out. -/
theorem shows_outputs (hctx : ScanContext P files txIndex txs) (htxs : txs = before ++ c :: after)
    (h : Shows P (Ledger.spend (replayTxs P before) (c.ledgerTx P).spends) (skippedValue before) m) :
    Shows P (replayTxs P (before ++ [c])) (skippedValue (before ++ [c]))
      (scanTransactionOutputs P c.tx m) := by
  -- a transaction of the chain has valid inputs and values that are not negative
  have hmem : c ∈ txs := by
    rw [htxs]
    simp
  have hvalid := hctx.valid (before.map (ConnectedTx.ledgerTx P)) (c.ledgerTx P)
    (after.map (ConnectedTx.ledgerTx P)) (by rw [htxs]; simp)
  have hfin : (replayTxs P before).Finite := Ledger.Finite.replay _
  have hcreated : ∀ addr, Ledger.created (Coin.share P addr) (c.ledgerTx P)
      = outputShares P addr c.tx.vout := by
    intro addr
    simp [Ledger.created, ConnectedTx.ledgerTx, outputShares, Function.comp_def, Coin.share,
      Coin.nValue]
  refine ⟨fun addr => ?_, positive_scanOutputs h.positive⟩
  rw [scanTransactionOutputs, get_scanOutputs (hctx.nValue_nonneg c hmem), h.get_eq, replayTxs_concat]
  unfold addressTotal
  rw [Ledger.total_apply _ hfin hvalid, Ledger.total_spend _ hfin hvalid.nodup, hcreated]
  simp only [Ledger.spent, skippedValue, List.map_append, List.sum_append, List.map_cons, List.map_nil,
    List.sum_cons, List.sum_nil, add_zero]
  split_ifs <;> ring

/-- **One transaction.** It is scanned only when all it spends from has an entry, and then the
balances are those of the ledger after it. -/
theorem scanTransaction (hctx : ScanContext P files txIndex txs) (htxs : txs = before ++ c :: after)
    (h : Shows P (replayTxs P before) (skippedValue before) m)
    (hscan : scanTransactionInputs P files txIndex c.tx m = .ok m') :
    Indexed txIndex c ∧ Shows P (replayTxs P (before ++ [c])) (skippedValue (before ++ [c]))
      (scanTransactionOutputs P c.tx m') := by
  have hsub : ∀ c' ∈ before, c' ∈ txs := by
    intro c' hc'
    rw [htxs]
    exact List.mem_append_left _ hc'
  have hvalid := hctx.valid (before.map (ConnectedTx.ledgerTx P)) (c.ledgerTx P)
    (after.map (ConnectedTx.ledgerTx P)) (by rw [htxs]; simp)
  have hfin : (replayTxs P before).Finite := Ledger.Finite.replay _
  unfold scanTransactionInputs at hscan
  split_ifs at hscan with hcb
  · -- a coinbase spends nothing, so it is scanned in any case
    cases hscan
    refine ⟨fun hncb => absurd hcb (by simp [hncb]), hctx.shows_outputs htxs ?_⟩
    have hspends : (c.ledgerTx P).spends = [] := by simp [ConnectedTx.ledgerTx, hcb]
    have hnil : Ledger.spend (replayTxs P before) [] = replayTxs P before := by
      funext o
      simp [Ledger.spend]
    rw [hspends, hnil]
    exact h
  · have hncb : c.tx.isCoinBase = false := by simpa using hcb
    have hspends : (c.ledgerTx P).spends = keys c.tx.vin := by simp [ConnectedTx.ledgerTx, hncb]
    obtain ⟨hsome, h'⟩ := h.scanInputs hfin (hctx.nonnegCoins hsub) (hspends ▸ hvalid.nodup)
      (hctx.readsCoin htxs hncb) hscan
    refine ⟨fun _ txi hmem => (hctx.readDiskTx_isSome_iff _).mp (hsome txi hmem),
      hctx.shows_outputs htxs ?_⟩
    rw [hspends]
    exact h'

/-- A transaction can be scanned when nothing was skipped and all it spends from has an entry. -/
theorem scanTransaction_isOk (hctx : ScanContext P files txIndex txs)
    (htxs : txs = before ++ c :: after) (h : Shows P (replayTxs P before) 0 m)
    (hindexed : Indexed txIndex c) : ∃ m', scanTransactionInputs P files txIndex c.tx m = .ok m' := by
  have hsub : ∀ c' ∈ before, c' ∈ txs := by
    intro c' hc'
    rw [htxs]
    exact List.mem_append_left _ hc'
  have hvalid := hctx.valid (before.map (ConnectedTx.ledgerTx P)) (c.ledgerTx P)
    (after.map (ConnectedTx.ledgerTx P)) (by rw [htxs]; simp)
  have hfin : (replayTxs P before).Finite := Ledger.Finite.replay _
  unfold scanTransactionInputs
  split_ifs with hcb
  · exact ⟨m, rfl⟩
  · have hncb : c.tx.isCoinBase = false := by simpa using hcb
    have hspends : (c.ledgerTx P).spends = keys c.tx.vin := by simp [ConnectedTx.ledgerTx, hncb]
    exact h.scanInputs_isOk hfin (hctx.nonnegCoins hsub) (hspends ▸ hvalid.nodup)
      (hctx.readsCoin htxs hncb)
      (fun txi hmem => (hctx.readDiskTx_isSome_iff _).mpr (hindexed hncb txi hmem))

/-! ### A row of transactions -/

/-- **A row of transactions** that is scanned. -/
theorem scanTransactions {new : List ConnectedTx} (hctx : ScanContext P files txIndex txs)
    (htxs : txs = before ++ new ++ after) (h : Shows P (replayTxs P before) (skippedValue before) m)
    (hscan : scanTransactions P files txIndex (new.map ConnectedTx.tx) m = .ok m') :
    (∀ c ∈ new, Indexed txIndex c) ∧
      Shows P (replayTxs P (before ++ new)) (skippedValue (before ++ new)) m' := by
  induction new generalizing before m with
  | nil =>
    cases hscan
    simpa using h
  | cons c new ih =>
    obtain ⟨m₁, hinputs, hrest⟩ := Result.bind_eq_ok.mp hscan
    have hsplit : txs = before ++ c :: (new ++ after) := by
      rw [htxs]
      simp
    obtain ⟨hindexed, h₁⟩ := hctx.scanTransaction hsplit h hinputs
    obtain ⟨hall, h'⟩ := ih (by rw [htxs]; simp) h₁ hrest
    rw [List.append_assoc, List.singleton_append] at h'
    exact ⟨List.forall_mem_cons.mpr ⟨hindexed, hall⟩, h'⟩

/-- A row of transactions can be scanned when nothing in it is skipped and all it spends from has an
entry. -/
theorem scanTransactions_isOk {new : List ConnectedTx} (hctx : ScanContext P files txIndex txs)
    (htxs : txs = before ++ new ++ after) (h : Shows P (replayTxs P before) (skippedValue before) m)
    (hskipped : skippedValue (before ++ new) = 0) (hindexed : ∀ c ∈ new, Indexed txIndex c) :
    ∃ m', Peershares.scanTransactions P files txIndex (new.map ConnectedTx.tx) m = .ok m' := by
  induction new generalizing before m with
  | nil => exact ⟨m, rfl⟩
  | cons c new ih =>
    have hzero : skippedValue before = 0 := by
      refine hctx.skippedValue_of_append (fun c' hc' => ?_) hskipped
      rw [htxs]
      exact List.mem_append_left _ hc'
    obtain ⟨hfirst, hrest⟩ := List.forall_mem_cons.mp hindexed
    have htxs' : txs = before ++ c :: (new ++ after) := by
      rw [htxs]
      simp
    obtain ⟨m₁, hinputs⟩ := hctx.scanTransaction_isOk htxs' (hzero ▸ h) hfirst
    obtain ⟨-, h₁⟩ := hctx.scanTransaction htxs' h hinputs
    obtain ⟨m', hm'⟩ := ih (by rw [htxs]; simp) h₁ (by rw [← hskipped]; simp) hrest
    exact ⟨m', Result.bind_eq_ok.mpr ⟨m₁, hinputs, hm'⟩⟩

end ScanContext

/-! ### The main chain -/

/-- A block below the tip has a successor on the chain. -/
theorem exists_next_of_suffix {p q : BlockPtr} (hs : q <:+ p) (hne : q ≠ p) :
    ∃ e, e :: q <:+ p := by
  obtain ⟨s, rfl⟩ := hs
  rcases List.eq_nil_or_concat' s with rfl | ⟨s, e, rfl⟩
  · exact absurd rfl hne
  · exact ⟨e, s, by simp⟩

/-- The chain of a block is a first part of the chain of its descendants. -/
theorem connectedTxs_of_suffix (files : BlockFiles) {p q : BlockPtr} (hs : q <:+ p) :
    connectedTxs files q <+: connectedTxs files p := by
  induction p with
  | nil =>
    rw [List.suffix_nil.mp hs]
  | cons e p ih =>
    rcases List.suffix_cons_iff.mp hs with rfl | hs
    · exact List.prefix_rfl
    · refine (ih hs).trans ?_
      cases p with
      | nil => exact List.nil_prefix
      | cons e' p' => exact ⟨_, (connectedTxs.eq_3 files e (e' :: p') (by simp)).symm⟩

/-- Every transaction of a branch has been checked. -/
theorem TreeOk.checked_of_mem {P : Params} {files : BlockFiles} {p : BlockPtr} (h : TreeOk P files p) :
    ∀ c ∈ connectedTxs files p, c.tx.Checked := by
  induction h with
  | genesis hread => simp [connectedTxs]
  | @accepted pprev nFile nBlockPos block hprev hread hchecked hkind htime ih =>
    intro c hc
    rw [connectedTxs_cons (block.newIndex P pprev nFile nBlockPos) hprev.ne_nil hread] at hc
    rcases List.mem_append.mp hc with hc | hc
    · exact ih c hc
    · refine hchecked.checked c.tx ?_
      rw [← map_tx_blockTxs (block.newIndex P pprev nFile nBlockPos) pprev
        (StoredBlock.firstTxPos ⟨nFile, nBlockPos, block⟩) block.vtx]
      exact List.mem_map_of_mem hc

/-- The blocks before the first one whose `nTime` is at least the cutoff, highest first. -/
def blocksBefore (cutoffTime : ℕ) (p : BlockPtr) : BlockPtr :=
  (p.reverse.takeWhile (fun e => e.nTime < cutoffTime)).reverse

/-- The scan stops at the first block that is not before the cutoff. -/
theorem blocksBefore_eq {cutoffTime : ℕ} {p q : BlockPtr} {e : CBlockIndex} (hs : e :: q <:+ p)
    (hfirst : cutoffTime ≤ e.nTime) (hbefore : ∀ e' ∈ q, e'.nTime < cutoffTime) :
    blocksBefore cutoffTime p = q := by
  obtain ⟨s, rfl⟩ := hs
  have hq : ∀ e' ∈ q.reverse, decide (e'.nTime < cutoffTime) = true := by
    intro e' he'
    exact decide_eq_true (hbefore e' (List.mem_reverse.mp he'))
  have he : List.takeWhile (fun e : CBlockIndex => decide (e.nTime < cutoffTime)) (e :: s.reverse)
      = [] := List.takeWhile_cons_of_neg (by simpa using hfirst)
  unfold blocksBefore
  rw [List.reverse_append, List.reverse_cons, List.append_assoc, List.takeWhile_append_of_pos hq,
    List.singleton_append, he, List.append_nil, List.reverse_reverse]

/-- The first block that is not before the cutoff. -/
theorem exists_blocksBefore {cutoffTime : ℕ} {p : BlockPtr} (h : ∃ e ∈ p, cutoffTime ≤ e.nTime) :
    ∃ e, e :: blocksBefore cutoffTime p <:+ p ∧ cutoffTime ≤ e.nTime ∧
      ∀ e' ∈ blocksBefore cutoffTime p, e'.nTime < cutoffTime := by
  induction p with
  | nil => simp at h
  | cons e p ih =>
    -- the search goes on below as long as there is such a block
    by_cases hp : ∃ e' ∈ p, cutoffTime ≤ e'.nTime
    · obtain ⟨e', hs, hfirst, hbefore⟩ := ih hp
      have hs' : e' :: blocksBefore cutoffTime p <:+ e :: p := hs.trans (List.suffix_cons _ _)
      rw [blocksBefore_eq hs' hfirst hbefore]
      exact ⟨e', hs', hfirst, hbefore⟩
    · -- `e` is the last one that is not before the cutoff
      have hbefore : ∀ e' ∈ p, e'.nTime < cutoffTime := by
        intro e' he'
        by_contra hle
        exact hp ⟨e', he', not_lt.mp hle⟩
      have hfirst : cutoffTime ≤ e.nTime := by
        obtain ⟨e', he', hle⟩ := h
        rcases List.mem_cons.mp he' with rfl | he'
        · exact hle
        · exact absurd hle (not_le.mpr (hbefore e' he'))
      rw [blocksBefore_eq List.suffix_rfl hfirst hbefore]
      exact ⟨e, List.suffix_rfl, hfirst, hbefore⟩

/-- What the scanner meets: the main chain with its links and its index. -/
structure ScanChain (P : Params) (g : Globals) (txIndex : TxIndexMap) : Prop where
  tree : TreeOk P g.files g.pindexBest
  linked : Linked g.pnext g.pindexBest
  genesis : g.pindexGenesisBlock = [P.genesisIndex]
  context : ScanContext P g.files txIndex (connectedTxs g.files g.pindexBest)

namespace ScanChain

variable {P : Params} {g : Globals} {txIndex : TxIndexMap} {cutoffTime nRounds : ℕ} {e : CBlockIndex}
  {q : BlockPtr} {m m' : BalanceMap}

/-- The transactions that the scanner reads of a block of the chain. -/
def blockVtx (g : Globals) (e : CBlockIndex) : List CTransaction :=
  ((g.files.readBlock e.nFile e.nBlockPos).map CBlock.vtx).getD []

/-- Scanning genesis changes nothing: its only output is empty. -/
theorem scanTransactions_genesis (hread : g.files.readBlock 1 8 = some P.genesisBlock)
    (m : BalanceMap) :
    Peershares.scanTransactions P g.files txIndex (blockVtx g P.genesisIndex) m = .ok m := by
  have hvtx : blockVtx g P.genesisIndex = [P.txGenesis] := by
    unfold blockVtx
    rw [show P.genesisIndex.nFile = 1 from rfl, show P.genesisIndex.nBlockPos = 8 from rfl, hread]
    rfl
  rw [hvtx]
  rfl

/-- The balances at a block of the chain, and that all the chain spends from has an entry. -/
structure At (P : Params) (g : Globals) (txIndex : TxIndexMap) (q : BlockPtr) (m : BalanceMap) :
    Prop where
  indexed : ∀ c ∈ connectedTxs g.files q, Indexed txIndex c
  balances : Shows P (replayTxs P (connectedTxs g.files q)) (skippedValue (connectedTxs g.files q)) m

/-- The transactions of a block above genesis follow those of the chain below. -/
theorem connectedTxs_block (h : ScanChain P g txIndex) (hs : e :: q <:+ g.pindexBest) (hne : q ≠ []) :
    ∃ new : List ConnectedTx, new.map ConnectedTx.tx = blockVtx g e ∧
      connectedTxs g.files (e :: q) = connectedTxs g.files q ++ new := by
  obtain ⟨block, hread, -⟩ := (h.tree.suffix hs (by simp)).cons_inv hne
  refine ⟨_, ?_, connectedTxs_cons e hne hread⟩
  unfold blockVtx
  rw [map_tx_blockTxs, hread]
  rfl

/-- **One block** that is scanned. -/
theorem scanBlock (h : ScanChain P g txIndex) (hs : e :: q <:+ g.pindexBest)
    (hm : At P g txIndex q m)
    (hscan : Peershares.scanTransactions P g.files txIndex (blockVtx g e) m = .ok m') :
    At P g txIndex (e :: q) m' := by
  by_cases hne : q = []
  · -- the outputs of genesis are not in the ledger, and nothing is scanned of it
    subst hne
    cases h.tree.suffix hs (by simp) with
    | genesis hread =>
      rw [scanTransactions_genesis hread] at hscan
      cases hscan
      exact ⟨hm.indexed, hm.balances⟩
    | accepted hprev => exact absurd rfl hprev.ne_nil
  · obtain ⟨new, hnew, heq⟩ := h.connectedTxs_block hs hne
    obtain ⟨after, hafter⟩ := connectedTxs_of_suffix g.files hs
    rw [heq] at hafter
    rw [← hnew] at hscan
    obtain ⟨hindexed, hshows⟩ := h.context.scanTransactions hafter.symm hm.balances hscan
    rw [← heq] at hshows
    -- the transactions below were in the index before
    refine ⟨fun c hc => ?_, hshows⟩
    rw [heq] at hc
    rcases List.mem_append.mp hc with hc | hc
    · exact hm.indexed c hc
    · exact hindexed c hc

/-- A block can be scanned when nothing of the chain up to it is skipped and all it spends from has
an entry. -/
theorem scanBlock_isOk (h : ScanChain P g txIndex) (hs : e :: q <:+ g.pindexBest)
    (hm : At P g txIndex q m) (hskipped : skippedValue (connectedTxs g.files (e :: q)) = 0)
    (hindexed : ∀ c ∈ connectedTxs g.files (e :: q), Indexed txIndex c) :
    ∃ m', Peershares.scanTransactions P g.files txIndex (blockVtx g e) m = .ok m' := by
  by_cases hne : q = []
  · subst hne
    cases h.tree.suffix hs (by simp) with
    | genesis hread => exact ⟨m, scanTransactions_genesis hread m⟩
    | accepted hprev => exact absurd rfl hprev.ne_nil
  · obtain ⟨new, hnew, heq⟩ := h.connectedTxs_block hs hne
    obtain ⟨after, hafter⟩ := connectedTxs_of_suffix g.files hs
    rw [heq] at hafter hskipped hindexed
    rw [← hnew]
    exact h.context.scanTransactions_isOk hafter.symm hm.balances hskipped
      (fun c hc => hindexed c (List.mem_append_right _ hc))

/-- The link of a block below the tip. -/
theorem next (h : ScanChain P g txIndex) (hs : e :: q <:+ g.pindexBest)
    (hne : e :: q ≠ g.pindexBest) :
    ∃ e', e' :: e :: q <:+ g.pindexBest ∧ g.pnext e.hashBlock = e' :: e :: q := by
  obtain ⟨e', hs'⟩ := exists_next_of_suffix hs hne
  exact ⟨e', hs', h.linked e' (e :: q) hs' (by simp)⟩

/-- **The walk** along the main chain, when it comes to an end. -/
theorem scanBlocks (h : ScanChain P g txIndex)
    (hcutoff : ∀ e q, g.pindexBest = e :: q → cutoffTime ≤ e.nTime)
    (hs : e :: q <:+ g.pindexBest) (hbefore : ∀ e' ∈ q, e'.nTime < cutoffTime)
    (hm : At P g txIndex q m)
    (hscan : Peershares.scanBlocks P g txIndex cutoffTime nRounds (e :: q) m = .ok m') :
    At P g txIndex (blocksBefore cutoffTime g.pindexBest) m' := by
  induction nRounds generalizing e q m with
  | zero => exact absurd hscan (by simp [Peershares.scanBlocks])
  | succ nRounds ih =>
    rw [Peershares.scanBlocks] at hscan
    split_ifs at hscan with hbest hstop
    · -- the walk stops at the tip or at the first block that is not before the cutoff
      cases hscan
      rw [blocksBefore_eq hs (hcutoff e q hbest.symm) hbefore]
      exact hm
    · cases hscan
      rw [blocksBefore_eq hs hstop hbefore]
      exact hm
    · obtain ⟨m₁, hblock, hrest⟩ := Result.bind_eq_ok.mp hscan
      obtain ⟨e', hs', hnext⟩ := h.next hs hbest
      rw [hnext] at hrest
      exact ih hs' (List.forall_mem_cons.mpr ⟨not_le.mp hstop, hbefore⟩) (h.scanBlock hs hm hblock)
        hrest

/-- The walk comes to an end when nothing below the cutoff is skipped and all that is spent there has
an entry. -/
theorem scanBlocks_isOk (h : ScanChain P g txIndex)
    (hcutoff : ∃ e ∈ g.pindexBest, cutoffTime ≤ e.nTime)
    (hs : e :: q <:+ g.pindexBest) (hbefore : ∀ e' ∈ q, e'.nTime < cutoffTime)
    (hm : At P g txIndex q m) (hrounds : g.pindexBest.length - q.length ≤ nRounds)
    (hskipped : skippedValue (connectedTxs g.files (blocksBefore cutoffTime g.pindexBest)) = 0)
    (hindexed : ∀ c ∈ connectedTxs g.files (blocksBefore cutoffTime g.pindexBest),
      Indexed txIndex c) :
    ∃ m', Peershares.scanBlocks P g txIndex cutoffTime nRounds (e :: q) m = .ok m' := by
  -- induction on the rounds that are left
  induction nRounds generalizing e q m with
  | zero =>
    have hlen := hs.length_le
    simp only [List.length_cons] at hlen
    omega
  | succ nRounds ih =>
    rw [Peershares.scanBlocks]
    -- the tip, or a block at the cutoff, ends the scan
    split_ifs with hbest hstop
    · exact ⟨m, rfl⟩
    · exact ⟨m, rfl⟩
    · -- the block is below the first one that is not before the cutoff
      have hbefore' : ∀ e' ∈ e :: q, e'.nTime < cutoffTime :=
        List.forall_mem_cons.mpr ⟨not_le.mp hstop, hbefore⟩
      obtain ⟨e₀, hs₀, hfirst, hbefore₀⟩ := exists_blocksBefore hcutoff
      have hbelow : e :: q <:+ blocksBefore cutoffTime g.pindexBest := by
        rcases List.suffix_or_suffix_of_suffix hs hs₀ with hsuf | hsuf
        · rcases List.suffix_cons_iff.mp hsuf with heq | hsuf
          · cases heq
            exact absurd hfirst hstop
          · exact hsuf
        · have hin : e₀ ∈ e :: q := hsuf.subset List.mem_cons_self
          exact absurd hfirst (not_le.mpr (hbefore' e₀ hin))
      have hinit := connectedTxs_of_suffix g.files hbelow
      have hindexed' : ∀ c ∈ connectedTxs g.files (e :: q), Indexed txIndex c :=
        fun c hc => hindexed c (hinit.subset hc)
      have hskipped' : skippedValue (connectedTxs g.files (e :: q)) = 0 := by
        have hall := connectedTxs_of_suffix g.files ((List.suffix_cons _ _).trans hs₀)
        obtain ⟨new, hnew⟩ := hinit
        rw [← hnew] at hskipped hall
        exact h.context.skippedValue_of_append (fun c hc => hall.subset hc) hskipped
      -- the transactions of the block can be scanned, and so the blocks above it
      obtain ⟨m₁, hblock⟩ := h.scanBlock_isOk hs hm hskipped' hindexed'
      obtain ⟨e', hs', hnext⟩ := h.next hs hbest
      have hlen := hs.length_le
      obtain ⟨m', hm'⟩ := ih hs' hbefore' (h.scanBlock hs hm hblock)
        (by simp only [List.length_cons] at hlen ⊢; omega)
      refine ⟨m', Result.bind_eq_ok.mpr ⟨m₁, hblock, ?_⟩⟩
      rw [hnext]
      exact hm'

end ScanChain

/-! ### The snapshot -/

/-- The balance of an address in the ledger of the blocks before the cutoff. Genesis has one output,
of value zero. -/
noncomputable def snapshotBalance (P : Params) (g : Globals) (cutoffTime : ℕ) (addr : CBase58Data) :
    Int :=
  addressTotal P (replayTxs P (connectedTxs g.files (blocksBefore cutoffTime g.pindexBest))) addr

/-- `GetAddressBalances` returns, and the map holds the balances that are not zero. -/
def SnapshotOk (P : Params) (g : Globals) (txIndex : TxIndexMap) (cutoffTime : ℕ) : Prop :=
  ∃ m, getAddressBalances P g txIndex cutoffTime = .ok m ∧
    (∀ addr, m.get addr = snapshotBalance P g cutoffTime addr) ∧ m.Positive

/-- No transaction of the row has an output of value with an empty script. -/
def NoEmptyScripts (txs : List ConnectedTx) : Prop :=
  ∀ c ∈ txs, ∀ txout ∈ c.tx.vout, txout.scriptPubKey = [] → txout.nValue = 0

/-- Every transaction that the row spends from has an entry. -/
def AllIndexed (txIndex : TxIndexMap) (txs : List ConnectedTx) : Prop := ∀ c ∈ txs, Indexed txIndex c

/-- A sum of non-negative amounts is zero when each of them is. -/
theorem sum_map_eq_zero_iff {α : Type} {l : List α} {f : α → Int} (h : ∀ a ∈ l, 0 ≤ f a) :
    (l.map f).sum = 0 ↔ ∀ a ∈ l, f a = 0 := by
  constructor
  · intro hsum a ha
    refine List.all_zero_of_le_zero_le_of_sum_eq_zero (fun x hx => ?_) hsum (List.mem_map_of_mem ha)
    obtain ⟨b, hb, rfl⟩ := List.mem_map.mp hx
    exact h b hb
  · intro hzero
    refine List.sum_eq_zero (fun x hx => ?_)
    obtain ⟨b, hb, rfl⟩ := List.mem_map.mp hx
    exact hzero b hb

/-- Nothing is passed over when no output of value has an empty script. -/
theorem skippedValue_eq_zero_iff {txs : List ConnectedTx}
    (hnonneg : ∀ c ∈ txs, ∀ txout ∈ c.tx.vout, 0 ≤ txout.nValue) :
    skippedValue txs = 0 ↔ NoEmptyScripts txs := by
  unfold skippedValue NoEmptyScripts
  rw [sum_map_eq_zero_iff (fun c hc => emptyValue_nonneg (hnonneg c hc))]
  refine forall_congr' (fun c => forall_congr' (fun hc => ?_))
  unfold emptyValue
  rw [sum_map_eq_zero_iff]
  · refine forall_congr' (fun txout => forall_congr' (fun _ => ?_))
    cases txout.scriptPubKey <;> simp
  · intro txout htxout
    split_ifs
    · exact hnonneg c hc txout htxout
    · exact le_refl _

namespace ScanChain

variable {P : Params} {g : Globals} {txIndex : TxIndexMap} {cutoffTime : ℕ}

/-- `GetAddressBalances` walks along `pnext` from the genesis block. -/
theorem getAddressBalances_eq (h : ScanChain P g txIndex) (e : CBlockIndex) (q : BlockPtr)
    (hbest : g.pindexBest = e :: q) (hcutoff : cutoffTime ≤ e.nTime) :
    getAddressBalances P g txIndex cutoffTime =
      Peershares.scanBlocks P g txIndex cutoffTime g.pindexBest.length [P.genesisIndex] ∅ := by
  unfold getAddressBalances
  rw [h.genesis, hbest]
  simp only [if_neg (not_lt.mpr hcutoff)]

/-- The walk starts at genesis with nothing. -/
theorem start (h : ScanChain P g txIndex) :
    [P.genesisIndex] <:+ g.pindexBest ∧ At P g txIndex [] ∅ := by
  refine ⟨h.tree.genesis_suffix, ⟨by simp [connectedTxs], Shows.empty P⟩⟩

/-- **When the snapshot is right**, on a chain: nothing of value below the cutoff has an empty script,
and all that is spent there has an entry. -/
theorem snapshotOk_iff (h : ScanChain P g txIndex) {e : CBlockIndex} {q : BlockPtr}
    (hbest : g.pindexBest = e :: q) (hcutoff : cutoffTime ≤ e.nTime) :
    SnapshotOk P g txIndex cutoffTime ↔
      NoEmptyScripts (connectedTxs g.files (blocksBefore cutoffTime g.pindexBest)) ∧
      AllIndexed txIndex (connectedTxs g.files (blocksBefore cutoffTime g.pindexBest)) := by
  have hexists : ∃ e ∈ g.pindexBest, cutoffTime ≤ e.nTime :=
    ⟨e, by rw [hbest]; exact List.mem_cons_self, hcutoff⟩
  have hstop : ∀ e' q', g.pindexBest = e' :: q' → cutoffTime ≤ e'.nTime := by
    intro e' q' heq
    rw [hbest] at heq
    cases heq
    exact hcutoff
  obtain ⟨e₀, hs₀, -, -⟩ := exists_blocksBefore hexists
  have hsub := (connectedTxs_of_suffix g.files ((List.suffix_cons _ _).trans hs₀)).subset
  have hskip := skippedValue_eq_zero_iff (fun c hc => h.context.nValue_nonneg c (hsub hc))
  obtain ⟨hgenesis, hempty⟩ := h.start
  unfold SnapshotOk
  rw [h.getAddressBalances_eq e q hbest hcutoff, ← hskip]
  constructor
  · rintro ⟨m, hscan, hget, -⟩
    have hm := h.scanBlocks hstop hgenesis (by simp) hempty hscan
    refine ⟨?_, hm.indexed⟩
    -- the balance of the unset address tells what was skipped
    have hunset := hm.balances.get_eq {}
    rw [hget {}, snapshotBalance, if_pos rfl] at hunset
    omega
  · rintro ⟨hskipped, hindexed⟩
    obtain ⟨m, hscan⟩ := h.scanBlocks_isOk hexists hgenesis (by simp) hempty (Nat.sub_le _ _)
      hskipped hindexed
    have hm := h.scanBlocks hstop hgenesis (by simp) hempty hscan
    refine ⟨m, hscan, fun addr => ?_, hm.balances.positive⟩
    rw [hm.balances.get_eq addr, hskipped, ite_self, sub_zero]
    rfl

end ScanChain

/-! ### Nodes -/

section Nodes

variable {P : Params} {n n' : Node}

/-- `pindexGenesisBlock` is this block. -/
def GenesisIs (p : BlockPtr) (n : Node) : Prop := n.pindexGenesisBlock = p

variable {p : BlockPtr} {H : Host}

/-- The branch of every node of a run starts at the genesis block. -/
theorem genesisIs_of_run (hrun : Node.Run P n) : GenesisIs [P.genesisIndex] n := by
  induction hrun with
  | start hload hgenesis =>
    obtain ⟨hglobals, -⟩ := (loadGenesis_spec P _).of_ok hload
    unfold GenesisIs
    rw [hglobals]
    rfl
  | @step n₀ _ _ hstep ih =>
    cases hstep with
    | insert => exact ih
    | store => exact ih
    | @call H block pindex pprev r n₁ hin hread hconnect hcall halive =>
      have hframe : InFrame n₀.toGlobals n₁ := by
        have hkeeps := keeps_frame_setBestChain (P := P) (H := H) block (pindex :: pprev) n₀
          (Globals.Frame.refl _)
        cases r with
        | ok fComplete => exact hkeeps.of_ok hcall
        | error e => exact hkeeps.of_error hcall
      exact (hframe.pindexGenesisBlock (by rw [ih]; simp)).trans ih
    | other hsame => exact hsame.pindexGenesisBlock.trans ih

/-- The scanner meets the main chain of a node. -/
theorem scanChain_of_run (hP : CollisionFree P) (hrun : Node.Run P n) :
    ScanChain P n.toGlobals n.txdb.committed.txIndex := by
  have hagrees := Agrees.of_run hrun
  obtain ⟨c, hreach, hfiles, -, htip, hindex⟩ := hagrees.agreement.connected
  have hinv := hreach.inv
  have htree := hagrees.tree.treeOk _ hagrees.best
  refine ⟨htree, hagrees.agreement.linked, genesisIs_of_run hrun, hP, ?_, ?_, ?_, ?_⟩
  · have hvalid := hinv.ledger.valid
    rw [hfiles, htip] at hvalid
    exact hvalid
  · have hok := hinv.ledger.index
    rw [hfiles, htip, hindex] at hok
    exact hok
  · exact htree.isStored hagrees.tree.files
  · intro c hc
    exact (htree.checked_of_mem c hc).nValue_nonneg

/-- **When the snapshot is right.** For a main chain whose blocks have all been connected and a cutoff
that is not later than its tip, `GetAddressBalances` returns the balances of the ledger before the
cutoff exactly when nothing of value there has an empty script and every transaction that is spent
there has an entry in the index. -/
theorem getAddressBalances_iff (hP : CollisionFree P) (hrun : Node.Run P n) {pblk1 : CBlockIndex}
    {pprev : BlockPtr} (hbest : n.pindexBest = pblk1 :: pprev) {cutoffTime : ℕ}
    (hcutoff : cutoffTime ≤ pblk1.nTime) :
    SnapshotOk P n.toGlobals n.txdb.committed.txIndex cutoffTime ↔
      NoEmptyScripts (connectedTxs n.files (blocksBefore cutoffTime n.pindexBest)) ∧
      AllIndexed n.txdb.committed.txIndex
        (connectedTxs n.files (blocksBefore cutoffTime n.pindexBest)) :=
  (scanChain_of_run hP hrun).snapshotOk_iff hbest hcutoff

end Nodes

/-! ### A chain with an empty script -/

instance (txs : List ConnectedTx) : Decidable (NoEmptyScripts txs) :=
  inferInstanceAs (Decidable (∀ c ∈ txs, ∀ txout ∈ c.tx.vout, txout.scriptPubKey = [] → txout.nValue = 0))

instance (txIndex : TxIndexMap) (txs : List ConnectedTx) : Decidable (AllIndexed txIndex txs) :=
  inferInstanceAs (Decidable (∀ c ∈ txs, c.tx.isCoinBase = false →
    ∀ txi ∈ c.tx.vin, (txIndex.lookup txi.prevout.hash).isSome))

namespace Sample

/-- The coinbase of the first block goes to an output with an empty script. -/
def toEmpty : CTransaction where
  nTime := params.nTimeGenesis + 61
  vin := [⟨⟨2 * (params.nTimeGenesis + 1) + 1, 0⟩, [], UINT_MAX⟩]
  vout := [⟨1900000, []⟩]

/-- The output with the empty script is spent; `toEmpty` has the hash 2. -/
def fromEmpty : CTransaction where
  nTime := params.nTimeGenesis + 61
  vin := [⟨⟨2, 0⟩, [OP_1], UINT_MAX⟩]
  vout := [⟨1800000, keyScript⟩]

/-- The coinbase of the first block goes to a key. -/
def toKey : CTransaction := { toEmpty with vout := [⟨1900000, keyScript⟩] }

/-- A hash without collisions that is short for the transactions of the sample. -/
def shareHash (tx : CTransaction) : ℕ :=
  if tx = coinBase (tx.nTime - params.nTimeGenesis) then 2 * tx.nTime + 1
  else if tx = toEmpty then 2
  else if tx = fromEmpty then 4
  else if tx = toKey then 6
  else 2 * Encodable.encode (txCode tx) + 8

def shareParams : Params := { params with hashTx := shareHash }

/-- The sample hash has no collisions. -/
theorem shareHash_injective : Function.Injective shareHash := by
  intro tx tx' h
  unfold shareHash at h
  split_ifs at h with h₁ h₂ h₃ h₄ h₅ h₆ h₇ h₈ h₉ h₁₀ h₁₁ h₁₂ h₁₃ h₁₄ h₁₅ h₁₆ h₁₇ h₁₈ h₁₉ h₂₀
  -- different cases have different remainders, or different small numbers
  all_goals first | omega | skip
  · have htime : tx.nTime = tx'.nTime := by omega
    rw [h₁, h₂, htime]
  · rw [h₆, h₈]
  · rw [h₁₁, h₁₄]
  · rw [h₁₆, h₂₀]
  · exact txCode_injective (Encodable.encode_injective (by omega))

/-- So the sample parameters have none. -/
theorem shareParams_collisionFree : CollisionFree shareParams := by
  refine ⟨shareHash_injective, fun tx => ?_⟩
  change shareHash tx ≠ 0
  unfold shareHash
  split_ifs <;> omega

/-- A block on the best one, `n` seconds after genesis, that becomes the best. -/
def extendShare (n : ℕ) (vtx : List CTransaction) (s : Node) : Option Node :=
  (s.insertBlock shareParams 2000000000
    { blockOn s.pindexBest n vtx with
      hashMerkleRoot := CBlock.merkleRoot shareParams vtx.length (vtx.map shareHash)
      nBits := getNextTargetRequired shareParams s.pindexBest false }).bind
    (Node.setBest shareParams host (hashAt n))

def shareChain : ℕ → Option Node
  | 0 => some (loadGenesis shareParams host {}).2
  | n + 1 => (shareChain n).bind (extendShare (n + 1) [coinBase (n + 1)])

/-- An output with an empty script is created and spent in block 61; block 62 is the best. -/
def emptyScript : Option Node := do
  let s ← shareChain 60
  let s ← extendShare 61 [coinBase 61, toEmpty, fromEmpty] s
  extendShare 62 [coinBase 62] s

/-- The coinbase of the first block has matured and is spent in block 61; block 62 is the best. -/
def spendShare : Option Node := do
  let s ← shareChain 60
  let s ← extendShare 61 [coinBase 61, toKey] s
  extendShare 62 [coinBase 62] s

/-- Each block of the sample chain is one step of a run. -/
theorem run_extendShare {n : ℕ} {vtx : List CTransaction} {s s' : Node}
    (h : Node.Run shareParams s) (he : extendShare n vtx s = some s') : Node.Run shareParams s' := by
  obtain ⟨s₁, hs₁, hset⟩ := Option.bind_eq_some_iff.mp he
  exact (h.insertBlock hs₁).setBest hset

/-- So the sample chain is a run. -/
theorem run_shareChain {n : ℕ} {s : Node} (h : shareChain n = some s) : Node.Run shareParams s := by
  induction n generalizing s with
  | zero =>
    cases h
    exact Node.Run.start (H := host) rfl rfl
  | succ n ih =>
    obtain ⟨s₀, hs₀, he⟩ := Option.bind_eq_some_iff.mp h
    exact run_extendShare (ih hs₀) he

/-- And the chain that pays an empty script. -/
theorem run_emptyScript {s : Node} (h : emptyScript = some s) : Node.Run shareParams s := by
  simp only [emptyScript, Option.bind_eq_bind, Option.bind_eq_some_iff] at h
  obtain ⟨s₁, h₁, s₂, h₂, h₃⟩ := h
  exact run_extendShare (run_extendShare (run_shareChain h₁) h₂) h₃

/-- And the chain with a spend. -/
theorem run_spendShare {s : Node} (h : spendShare = some s) : Node.Run shareParams s := by
  simp only [spendShare, Option.bind_eq_bind, Option.bind_eq_some_iff] at h
  obtain ⟨s₁, h₁, s₂, h₂, h₃⟩ := h
  exact run_extendShare (run_extendShare (run_shareChain h₁) h₂) h₃

/-- Does the scan up to the best block return? -/
def scanOk (s : Node) : Bool :=
  (getAddressBalances shareParams s.toGlobals s.txdb.committed.txIndex
    ((s.pindexBest.head?.map CBlockIndex.nTime).getD 0)).isOk

/-- Does the condition hold of the chain up to block 61? -/
def scanCond (s : Node) : Bool :=
  let txs := connectedTxs s.files (blocksBefore (params.nTimeGenesis + 62) s.pindexBest)
  decide (toKey ∈ txs.map ConnectedTx.tx ∧ NoEmptyScripts txs ∧ AllIndexed s.txdb.committed.txIndex txs)

/-- The two runs have the first sixty blocks in common, which are computed once. -/
theorem share_runs :
    emptyScript.map (fun s => (s.pindexBest.isEmpty, scanOk s)) = some (false, false) ∧
      spendShare.map (fun s => (s.pindexBest.head?.map CBlockIndex.nTime, scanCond s)) =
        some (some (params.nTimeGenesis + 62), true) := by
  decide +kernel

end Sample

/-- Spending an output with an empty script, the scan throws: the address was never credited. -/
theorem getAddressBalances_throws :
    ¬ ∀ (P : Params) (n : Node), CollisionFree P → Node.Run P n →
      ∀ (pblk1 : CBlockIndex) (pprev : BlockPtr), n.pindexBest = pblk1 :: pprev →
      ∀ cutoffTime, cutoffTime ≤ pblk1.nTime →
        SnapshotOk P n.toGlobals n.txdb.committed.txIndex cutoffTime := by
  intro h
  obtain ⟨n, hn, hfails⟩ := Option.map_eq_some_iff.mp Sample.share_runs.1
  simp only [Prod.mk.injEq] at hfails
  obtain ⟨pblk1, pprev, hbest⟩ :=
    List.exists_cons_of_ne_nil (List.isEmpty_eq_false_iff.mp hfails.1)
  obtain ⟨m, hm, -⟩ := h _ n Sample.shareParams_collisionFree (Sample.run_emptyScript hn) pblk1 pprev
    hbest pblk1.nTime (le_refl _)
  have hok := hfails.2
  simp only [Sample.scanOk, hbest, List.head?_cons, Option.map_some, Option.getD_some, hm] at hok
  exact absurd hok (by simp [Except.isOk, Except.toBool])

/-- The scan ends with block 61, whose second transaction spends the coinbase of the first block. -/
theorem getAddressBalances_spendShare : ∃ n, Sample.spendShare = some n ∧
    Sample.toKey ∈ (connectedTxs n.files (blocksBefore (Sample.params.nTimeGenesis + 62) n.pindexBest)).map
      ConnectedTx.tx ∧
    SnapshotOk Sample.shareParams n.toGlobals n.txdb.committed.txIndex (Sample.params.nTimeGenesis + 62) := by
  obtain ⟨n, hn, heq⟩ := Option.map_eq_some_iff.mp Sample.share_runs.2
  simp only [Prod.mk.injEq, Sample.scanCond, decide_eq_true_eq] at heq
  obtain ⟨htime, hspent, hempty, hindexed⟩ := heq
  obtain ⟨pblk1, hpblk1, htime⟩ := Option.map_eq_some_iff.mp htime
  obtain ⟨pprev, hbest⟩ := List.head?_eq_some_iff.mp hpblk1
  exact ⟨n, hn, hspent, (getAddressBalances_iff Sample.shareParams_collisionFree (Sample.run_spendShare hn)
    hbest htime.ge).mpr ⟨hempty, hindexed⟩⟩

end Peershares
