import Peershares.Model.ListTransactions
import Peershares.Wallet.Records

/-!
# The pages of the list of transactions

The entries are collected until there are enough of them, a transaction or a movement at a time, and the page is cut out
of what was collected. The sum of the two parameters is an `int`: when it overflows nothing is left out while
collecting, which does no harm, but where the page is cut the sum is taken again, and is below zero.

* `collect_spec` — what was collected
* `cutPage_eq`, `cutPage_eq_none` — the page that is cut
* `listtransactions_iff` — when the page is the one that was asked for
-/

open Framework

namespace Peershares

/-! ### Collecting -/

section Collect

variable {P : Params} {hash : List UInt8 → List UInt8} {chain : ChainView} {wallet : TableWallet P}
  {strAccount : List UInt8}

variable (hash chain wallet strAccount) in
/-- All entries, newest first. -/
def completeList (file : WalletFile) : Result (List Entry) := do
  let acentries ← listAccountCreditDebit file strAccount
  let groups ← (txByTime wallet acentries).reverse.mapM (entriesOf hash chain wallet strAccount)
  pure groups.flatten

/-- **What was collected** starts the list, and is all of it or enough. -/
theorem collect_spec {items : List TxPair} {groups : List (List Entry)}
    (h : items.mapM (entriesOf hash chain wallet strAccount) = .ok groups) (limit : ℕ) (ret : List Entry) :
    ∃ more, collect hash chain wallet strAccount limit items ret = .ok (ret ++ more) ∧ more <+: groups.flatten ∧
      (more = groups.flatten ∨ limit ≤ (ret ++ more).length) := by
  induction items generalizing groups ret with
  | nil =>
    obtain rfl := Except.ok.inj h
    exact ⟨[], by rw [List.append_nil]; rfl, List.prefix_rfl, Or.inl rfl⟩
  | cons item items ih =>
    -- the induction is on the items that are still to come; `ret` has the entries of those before
    rw [List.mapM_cons] at h
    obtain ⟨entries, hentries, h⟩ := Result.bind_eq_ok.mp h
    obtain ⟨rest, hrest, h⟩ := Result.bind_eq_ok.mp h
    obtain rfl := Except.ok.inj h
    rw [collect, hentries]
    by_cases henough : limit ≤ (ret ++ entries).length
    · refine ⟨entries, ?_, ?_, Or.inr henough⟩
      · exact if_pos henough
      · rw [List.flatten_cons]
        exact List.prefix_append _ _
    · obtain ⟨more, hmore, hfront, hend⟩ := ih hrest (ret ++ entries)
      refine ⟨entries ++ more, ?_, ?_, ?_⟩
      · rw [← List.append_assoc, ← hmore]
        exact if_neg henough
      · rw [List.flatten_cons]
        exact (List.prefix_append_right_inj entries).mpr hfront
      · rw [← List.append_assoc, List.flatten_cons]
        exact hend.imp (fun heq => by rw [heq]) id

end Collect

/-! ### Cutting -/

theorem toInt32_of_lt {n : ℤ} (h : -2 ^ 31 ≤ n) (h' : n < 2 ^ 31) : toInt32 n = n := by
  unfold toInt32
  rw [Int.bmod_def]
  omega

theorem toInt32_of_overflow {n : ℤ} (h : 2 ^ 31 ≤ n) (h' : n < 2 ^ 32) : toInt32 n = n - 2 ^ 32 := by
  unfold toInt32
  rw [Int.bmod_def]
  omega

section Cut

variable {α : Type} {ret : List α}

/-- Whatever is behind the end of the list is left out of a page. -/
theorem page_min (ret : List α) (first count : ℕ) :
    (ret.drop (min first ret.length)).take (min (min first ret.length + count) ret.length - min first ret.length) =
      (ret.drop first).take count := by
  by_cases hlong : ret.length ≤ first
  · rw [min_eq_right hlong, List.drop_length, List.drop_eq_nil_of_le hlong, List.take_nil, List.take_nil]
  · rw [min_eq_left (Nat.le_of_not_le hlong)]
    by_cases hend : ret.length ≤ first + count
    · rw [min_eq_right hend, List.take_of_length_le (List.length_drop ▸ le_refl _),
        List.take_of_length_le (by rw [List.length_drop]; omega)]
    · rw [min_eq_left (Nat.le_of_not_le hend), Nat.add_sub_cancel_left]

variable (ret) in
/-- Where the page starts, after the first cut. -/
theorem clip_eq (first : ℕ) :
    (if (ret.length : ℤ) < first then (ret.length : ℤ) else first) = (min first ret.length : ℕ) := by
  split_ifs <;> omega

/-- A page that ends before an `int` does is cut as it was asked for. -/
theorem cutPage_eq {first count : ℕ} (hfirst : first < 2 ^ 31) (hsize : ret.length < 2 ^ 31)
    (hsum : min first ret.length + count < 2 ^ 31) : cutPage ret count first = some ((ret.drop first).take count) := by
  have hsize' : toInt32 (ret.length : ℤ) = ret.length := toInt32_of_lt (by omega) (by omega)
  set start := min first ret.length with hstart
  have hsum' : toInt32 ((start : ℤ) + count) = start + count := toInt32_of_lt (by omega) (by omega)
  have hrest : toInt32 ((ret.length : ℤ) - start) = ret.length - start := toInt32_of_lt (by omega) (by omega)
  have hlast : toInt32 ((start : ℤ) + if (ret.length : ℤ) < start + count then (ret.length : ℤ) - start else count) =
      (min (start + count) ret.length : ℕ) := by
    rw [toInt32_of_lt]
    · split_ifs <;> omega
    · split_ifs <;> omega
    · split_ifs <;> omega
  unfold cutPage
  dsimp only
  rw [hsize', clip_eq, hsum', hrest, hlast, if_pos ⟨by omega, by omega, by omega⟩, Int.toNat_natCast, Int.toNat_natCast,
    List.drop_take, page_min]

/-- A page that ends behind it is not cut at all. -/
theorem cutPage_eq_none {first count : ℕ} (hcount : count < 2 ^ 31) (hfirst : first < 2 ^ 31)
    (hsize : ret.length < 2 ^ 31) (hsum : 2 ^ 31 ≤ min first ret.length + count) : cutPage ret count first = none := by
  have hsize' : toInt32 (ret.length : ℤ) = ret.length := toInt32_of_lt (by omega) (by omega)
  set start := min first ret.length with hstart
  have hsum' : toInt32 ((start : ℤ) + count) = start + count - 2 ^ 32 := toInt32_of_overflow (by omega) (by omega)
  unfold cutPage
  dsimp only
  -- the sum is below the size, so the count stays, and the page would end in front of the list
  have hkeep : ¬ (ret.length : ℤ) < start + count - 2 ^ 32 := by omega
  rw [hsize', clip_eq, hsum', if_neg hkeep, hsum', if_neg (by omega)]

end Cut

/-! ### Pages -/

section Pages

variable {P : Params} {hash : List UInt8 → List UInt8} {chain : ChainView} {wallet : TableWallet P} {file : WalletFile}
  {strAccount : List UInt8} {entries : List Entry}

variable (entries) in
/-- The entries from `first` on, `count` of them, oldest first. -/
def page (first count : ℕ) : List Entry := ((entries.drop first).take count).reverse

/-- A page of the list starts the way a page of its start does, when that is long enough. -/
theorem page_of_front {ret : List Entry} {first count : ℕ} (hfront : ret <+: entries)
    (hend : ret = entries ∨ first + count ≤ ret.length) : page ret first count = page entries first count := by
  rcases hend with rfl | hlen
  · rfl
  · obtain ⟨rest, rfl⟩ := hfront
    unfold page
    rw [List.drop_append_of_le_length (by omega), List.take_append_of_le_length (by rw [List.length_drop]; omega)]

/-- What was collected for a page, and how it is cut. -/
theorem listtransactions_eq (hlist : completeList hash chain wallet strAccount file = .ok entries) (first count : ℕ) :
    ∃ ret, ret <+: entries ∧ (ret = entries ∨ (toInt32 (count + first) % 2 ^ 64).toNat ≤ ret.length) ∧
      listtransactions hash chain wallet file strAccount count first = returnPage ret count first := by
  obtain ⟨acentries, hacentries, hlist⟩ := Result.bind_eq_ok.mp hlist
  obtain ⟨groups, hgroups, hlist⟩ := Result.bind_eq_ok.mp hlist
  obtain rfl := Except.ok.inj hlist
  unfold listtransactions
  rw [if_neg (by omega), if_neg (by omega), hacentries]
  generalize (toInt32 (count + first) % 2 ^ 64).toNat = limit
  obtain ⟨ret, hret, hfront, hend⟩ := collect_spec hgroups limit []
  rw [List.nil_append] at hret hend
  refine ⟨ret, hfront, hend, ?_⟩
  dsimp only
  rw [hret]

/-- **A page is the one that was asked for** exactly when the sum of where it starts in the list and of the count is an
`int`. Otherwise an iterator is advanced out of range. -/
theorem listtransactions_page (hlist : completeList hash chain wallet strAccount file = .ok entries)
    (hsize : entries.length < 2 ^ 31) {first count : ℕ} (hcount : count < 2 ^ 31) (hfirst : first < 2 ^ 31) :
    listtransactions hash chain wallet file strAccount count first =
      if min first entries.length + count < 2 ^ 31 then .ok (page entries first count) else .error .outOfRange := by
  obtain ⟨ret, hfront, hend, heq⟩ := listtransactions_eq hlist first count
  have hlen := hfront.length_le
  rw [heq, returnPage]
  by_cases hsum : count + first < 2 ^ 31
  · -- the entries that are counted are collected
    have hlimit : (toInt32 (count + first) % 2 ^ 64).toNat = count + first := by
      rw [toInt32_of_lt (by omega) (by omega)]
      omega
    rw [hlimit] at hend
    rw [cutPage_eq hfirst (by omega) (by omega), if_pos (by omega)]
    exact congrArg Except.ok (page_of_front hfront (hend.imp id fun h => by omega))
  · -- the limit is beyond every list, and all entries are collected
    have hlimit : 2 ^ 63 ≤ (toInt32 (count + first) % 2 ^ 64).toNat := by
      rw [toInt32_of_overflow (by omega) (by omega)]
      omega
    obtain rfl : ret = entries := hend.resolve_right (by omega)
    split_ifs with hfits
    · rw [cutPage_eq hfirst hsize hfits]
      rfl
    · rw [cutPage_eq_none hcount hfirst hsize (by omega)]

/-- **The pages of the list.** A page is the one that was asked for exactly when the sum of where it starts in the list and
of the count is an `int`; and a page and the next one are together the longer page. -/
theorem listtransactions_iff (hlist : completeList hash chain wallet strAccount file = .ok entries)
    (hsize : entries.length < 2 ^ 31) {first count : ℕ} (hcount : count < 2 ^ 31) (hfirst : first < 2 ^ 31) :
    (listtransactions hash chain wallet file strAccount count first = .ok (page entries first count) ↔
      min first entries.length + count < 2 ^ 31) ∧
      ∀ count', page entries (first + count) count' ++ page entries first count = page entries first (count + count') := by
  constructor
  · rw [listtransactions_page hlist hsize hcount hfirst]
    constructor
    · intro h
      by_contra hover
      rw [if_neg hover] at h
      cases h
    · intro hfits
      rw [if_pos hfits]
  · intro count'
    unfold page
    rw [← List.reverse_append, ← List.drop_drop, ← List.take_add]

end Pages

namespace Sample

/-- A wallet with one transaction, which was received. -/
def receiptWallet : TableWallet params where
  toCacheWallet := { cacheWallet with
    mapWallet := (∅ : Map Uint256 CachedTx).insert (params.hashTx parentTx) { tx := parentTx } }
  names := OrderedMap.empty
  mem_mapAddressBook address := by simp [cacheWallet, OrderedMap.keys, OrderedMap.empty]
  keyed := by
    intro hash wtx hl
    rw [Map.lookup_insert_eq] at hl
    split_ifs at hl with hparent
    · obtain rfl := Option.some.inj hl
      exact hparent.symm
    · exact absurd hl (by simp)

/-- The entry of the transaction. -/
def receiptEntry : Entry :=
  receivedEntry id receiptWallet (CBitcoinAddress.setPubKey params (List.replicate 33 2), 1000000) ++
    walletTxToJSON deepChain receiptWallet { tx := parentTx }

theorem completeList_receipt :
    completeList id deepChain receiptWallet allAccounts OrderedMap.empty = .ok [receiptEntry] := by
  have hkeys : receiptWallet.mapWallet.keys = [params.hashTx parentTx] := rfl
  have hitems : txByTime receiptWallet [] = [.tx { tx := parentTx }] := by
    unfold txByTime
    rw [hkeys, List.mergeSort_singleton]
    exact congrArg (List.map Prod.snd) (List.mergeSort_singleton ((0 : ℤ), TxPair.tx { tx := parentTx }))
  have hentries : entriesOf id deepChain receiptWallet allAccounts (.tx { tx := parentTx }) = .ok [receiptEntry] := by
    decide
  change (do
    let groups ← (txByTime receiptWallet []).reverse.mapM (entriesOf id deepChain receiptWallet allAccounts)
    pure groups.flatten) = _
  rw [hitems, List.reverse_singleton, List.mapM_cons, hentries]
  rfl

end Sample

open Sample in
theorem listtransactions_iff_default :
    listtransactions id deepChain receiptWallet OrderedMap.empty allAccounts (10 : ℕ) (0 : ℕ) = .ok [receiptEntry] :=
  (listtransactions_iff completeList_receipt (by decide) (by decide) (by decide)).1.mpr (by decide)

open Sample in
/-- The greatest count from the second entry on. -/
theorem listtransactions_overflow : ¬ ∀ (P : Params) (hash : List UInt8 → List UInt8) (chain : ChainView)
    (wallet : TableWallet P) (file : WalletFile) (strAccount : List UInt8) (entries : List Entry) (first count : ℕ),
    completeList hash chain wallet strAccount file = .ok entries → count < 2 ^ 31 → first < 2 ^ 31 →
    listtransactions hash chain wallet file strAccount count first = .ok (page entries first count) := by
  intro h
  have heq := h params id deepChain receiptWallet OrderedMap.empty allAccounts [receiptEntry] 1 (2 ^ 31 - 1)
    completeList_receipt (by decide) (by decide)
  rw [listtransactions_page completeList_receipt (by decide) (by decide) (by decide), if_neg (by decide)] at heq
  cases heq

end Peershares
