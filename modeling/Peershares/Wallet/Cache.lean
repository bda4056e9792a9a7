import Peershares.BestChain.Wallets
import Peershares.Ledger.Chain
import Peershares.Model.WalletCache

/-!
# Caches of wallet transactions

A cached amount is right as long as what it was computed from stays the same (`Valid`). `MarkSpent`,
`MarkUnspent` and `UpdateSpent` forget the available credit when they change a flag, and a query puts a
fresh amount into a cache. But a key, a redeem script, an address-book entry or a transaction that is
added later can change the amounts of other wallet transactions, and their caches stay.

What an amount is computed from is made explicit. The debit depends on the transactions that are spent, the
credits on the own outputs and their flags, the change on the keys and the address book (`SameSources`). A step
is harmless for a transaction when none of the amounts that are cached for it counts anything else afterwards
(`Undisturbed`), and the caches are then right again (`Valid.undisturbed`). So each operation is split into two
questions:

* does it change the transaction's own flags? Then it has to make the cache dirty (`Valid.mark`,
  `Valid.updateSpent`, `merge_dirty`)
* does it change what the others are computed from? Then they have to be `Undisturbed` (`AddUndisturbing` for a
  new transaction, `Unpaid` for a new key)

The results are over runs of calls:

* `Undisturbing` — a call does not change what a cached amount counts
* `CacheRun.coherent` — every query returns the fresh amount, over the runs of such calls
* `addToWallet_parentLater` — a run in which a parent arrives after the debit of its child was asked
-/

open Framework Framework.Command

namespace Peershares

/-! ### Sums -/

/-- A sum with a check of the range depends only on the amounts. -/
theorem sumInRange_congr {α : Type} {what : String} {amount amount' : α → Result ℤ} {l : List α}
    (h : ∀ a ∈ l, amount' a = amount a) (n : ℤ) :
    sumInRange what amount' l n = sumInRange what amount l n := by
  induction l generalizing n with
  | nil => rfl
  | cons a l ih =>
    unfold sumInRange
    rw [h a List.mem_cons_self]
    congr 1
    funext v
    rw [ih (fun b hb => h b (List.mem_cons_of_mem _ hb))]

namespace CacheWallet

variable {P : Params} {w w' : CacheWallet}

/-- What is left of the outputs is a part of them. -/
theorem mem_vout_of_mem_unspentOutputs {wtx : CWalletTx} {txout : CTxOut}
    (h : txout ∈ unspentOutputs wtx) : txout ∈ wtx.tx.vout := by
  unfold unspentOutputs at h
  obtain ⟨p, hp, rfl⟩ := List.mem_map.mp h
  exact List.fst_mem_of_mem_zipIdx (List.mem_of_mem_filter hp)

/-- `GetDebit` of a transaction reads the wallet only through its inputs. -/
theorem getDebitTx_congr {tx : CTransaction}
    (h : ∀ txin ∈ tx.vin, w'.getDebitIn P txin = w.getDebitIn P txin) :
    w'.getDebitTx P tx = w.getDebitTx P tx :=
  sumInRange_congr (fun txin htxin => congrArg Except.ok (h txin htxin)) 0

/-- `GetCredit` of an output reads only whether the output is the wallet's own. -/
theorem getCreditOut_congr {txout : CTxOut} (h : w'.isMine P txout = w.isMine P txout) :
    w'.getCreditOut P txout = w.getCreditOut P txout := by
  unfold getCreditOut
  rw [h]

/-- `GetCredit` of a transaction reads the wallet only through its outputs. -/
theorem getCreditTx_congr {tx : CTransaction}
    (h : ∀ txout ∈ tx.vout, w'.isMine P txout = w.isMine P txout) :
    w'.getCreditTx P tx = w.getCreditTx P tx :=
  sumInRange_congr (fun txout htxout => getCreditOut_congr (h txout htxout)) 0

/-- The available credit reads only the outputs that are not flagged. -/
theorem getUnspentCredit_congr {wtx : CWalletTx}
    (h : ∀ txout ∈ unspentOutputs wtx, w'.isMine P txout = w.isMine P txout) :
    w'.getUnspentCredit P wtx = w.getUnspentCredit P wtx :=
  sumInRange_congr (fun txout htxout => getCreditOut_congr (h txout htxout)) 0

/-- `GetChange` of a transaction reads only which outputs are change. -/
theorem getChangeTx_congr {tx : CTransaction}
    (h : ∀ txout ∈ tx.vout, w'.isChange P txout = w.isChange P txout) :
    w'.getChangeTx P tx = w.getChangeTx P tx := by
  refine sumInRange_congr (fun txout htxout => ?_) 0
  unfold getChangeOut
  rw [h txout htxout]

end CacheWallet

/-! ### Caches that are right -/

namespace CachedTx

/-- Every amount in a cache is the fresh one. -/
structure Valid (P : Params) (w : CacheWallet) (wtx : CachedTx) : Prop where
  debit : ∀ n, wtx.nDebitCached = some n → w.getDebitTx P wtx.tx = .ok n
  credit : ∀ n, wtx.nCreditCached = some n → w.getCreditTx P wtx.tx = .ok n
  available : ∀ n, wtx.nAvailableCreditCached = some n →
    w.getUnspentCredit P wtx.toCWalletTx = .ok n
  change : ∀ n, wtx.nChangeCached = some n → w.getChangeTx P wtx.tx = .ok n

/-- What a cached amount counts is the same in the two wallets. -/
structure Undisturbed (P : Params) (w w' : CacheWallet) (wtx : CachedTx) : Prop where
  debit : wtx.nDebitCached.isSome → ∀ txin ∈ wtx.tx.vin, w'.getDebitIn P txin = w.getDebitIn P txin
  credit : wtx.nCreditCached.isSome → ∀ txout ∈ wtx.tx.vout, w'.isMine P txout = w.isMine P txout
  available : wtx.nAvailableCreditCached.isSome →
    ∀ txout ∈ CacheWallet.unspentOutputs wtx.toCWalletTx, w'.isMine P txout = w.isMine P txout
  change : wtx.nChangeCached.isSome → ∀ txout ∈ wtx.tx.vout, w'.isChange P txout = w.isChange P txout

variable {P : Params} {w w' : CacheWallet} {wtx : CachedTx}

/-- A cache stays valid when none of the amounts that it holds has changed. -/
theorem Valid.undisturbed (h : wtx.Valid P w) (hsame : wtx.Undisturbed P w w') : wtx.Valid P w' where
  debit := by
    intro n hn
    rw [CacheWallet.getDebitTx_congr (hsame.debit (by rw [hn]; rfl))]
    exact h.debit n hn
  credit := by
    intro n hn
    rw [CacheWallet.getCreditTx_congr (hsame.credit (by rw [hn]; rfl))]
    exact h.credit n hn
  available := by
    intro n hn
    rw [CacheWallet.getUnspentCredit_congr (hsame.available (by rw [hn]; rfl))]
    exact h.available n hn
  change := by
    intro n hn
    rw [CacheWallet.getChangeTx_congr (hsame.change (by rw [hn]; rfl))]
    exact h.change n hn

/-- A transaction with nothing in its caches is valid in every wallet. -/
theorem Valid.of_dirty (h : wtx.markDirty = wtx) : wtx.Valid P w := by
  rw [← h]
  exact ⟨by simp [markDirty], by simp [markDirty], by simp [markDirty], by simp [markDirty]⟩

/-- A value that is taken from a cache, or put there. -/
theorem cached_fst {fUseCache : Bool} {nCached : Option ℤ} {fresh : Result ℤ} {put : ℤ → CachedTx}
    (h : ∀ n, nCached = some n → fresh = .ok n) : (cached fUseCache nCached fresh put wtx).1 = fresh := by
  unfold cached
  split
  · next n hn =>
    split_ifs at hn
    exact (h n hn).symm
  · cases fresh with
    | ok n => rfl
    | error e => rfl

/-- What is put into a cache is what was computed. -/
theorem cached_snd {fUseCache : Bool} {nCached : Option ℤ} {fresh : Result ℤ} {put : ℤ → CachedTx}
    (hkeep : wtx.Valid P w) (hput : ∀ n, fresh = .ok n → (put n).Valid P w) :
    (cached fUseCache nCached fresh put wtx).2.Valid P w := by
  unfold cached
  split
  · exact hkeep
  · cases hfresh : fresh with
    | ok n => exact hput n hfresh
    | error e => exact hkeep

/-- Filling a cache leaves the transaction alone. -/
theorem cached_tx {fUseCache : Bool} {nCached : Option ℤ} {fresh : Result ℤ} {put : ℤ → CachedTx}
    (hput : ∀ n, (put n).tx = wtx.tx) : (cached fUseCache nCached fresh put wtx).2.tx = wtx.tx := by
  unfold cached
  split
  · rfl
  · cases fresh with
    | ok n => exact hput n
    | error e => rfl

/-! ### Queries -/

/-- `GetDebit` may fill its cache. -/
theorem Valid.getDebit (h : wtx.Valid P w) : (wtx.getDebit P w).2.Valid P w := by
  unfold CachedTx.getDebit
  split_ifs
  · exact h
  · refine cached_snd h (fun n hfresh => ⟨?_, h.credit, h.available, h.change⟩)
    rintro m ⟨rfl⟩
    exact hfresh

/-- `GetCredit` may fill its cache, of a mature transaction. -/
theorem Valid.getCredit (h : wtx.Valid P w) (fUseCache : Bool) (n : ℤ) :
    (wtx.getCredit P w fUseCache n).2.Valid P w := by
  unfold CachedTx.getCredit
  split_ifs
  · exact h
  · refine cached_snd h (fun n hfresh => ⟨h.debit, ?_, h.available, h.change⟩)
    rintro m ⟨rfl⟩
    exact hfresh

/-- `GetAvailableCredit` may fill its cache. -/
theorem Valid.getAvailableCredit (h : wtx.Valid P w) (fUseCache : Bool) (n : ℤ) :
    (wtx.getAvailableCredit P w fUseCache n).2.Valid P w := by
  unfold CachedTx.getAvailableCredit
  split_ifs
  · exact h
  · refine cached_snd h (fun n hfresh => ⟨h.debit, h.credit, ?_, h.change⟩)
    rintro m ⟨rfl⟩
    exact hfresh

/-- `GetChange` may fill its cache. -/
theorem Valid.getChange (h : wtx.Valid P w) : (wtx.getChange P w).2.Valid P w := by
  refine cached_snd h (fun n hfresh => ⟨h.debit, h.credit, h.available, ?_⟩)
  rintro m ⟨rfl⟩
  exact hfresh

theorem getDebit_tx : (wtx.getDebit P w).2.tx = wtx.tx := by
  unfold getDebit
  split_ifs
  · rfl
  · exact cached_tx (fun _ => rfl)

theorem getCredit_tx (fUseCache : Bool) (n : ℤ) : (wtx.getCredit P w fUseCache n).2.tx = wtx.tx := by
  unfold getCredit
  split_ifs
  · rfl
  · exact cached_tx (fun _ => rfl)

theorem getAvailableCredit_tx (fUseCache : Bool) (n : ℤ) :
    (wtx.getAvailableCredit P w fUseCache n).2.tx = wtx.tx := by
  unfold getAvailableCredit
  split_ifs
  · rfl
  · exact cached_tx (fun _ => rfl)

theorem getChange_tx : (wtx.getChange P w).2.tx = wtx.tx := cached_tx (fun _ => rfl)

/-! ### Flags -/

/-- The outputs that are left depend on the transaction and on its flags. -/
theorem unspentOutputs_congr {wtx wtx' : CWalletTx} (htx : wtx'.tx = wtx.tx)
    (hflags : ∀ n < wtx.tx.vout.length, wtx'.vfSpent.getD n false = wtx.vfSpent.getD n false) :
    CacheWallet.unspentOutputs wtx' = CacheWallet.unspentOutputs wtx := by
  unfold CacheWallet.unspentOutputs
  rw [htx]
  congr 1
  refine List.filter_congr (fun p hp => ?_)
  have hlt := List.snd_lt_of_mem_zipIdx hp
  rw [hflags p.2 (by omega)]

/-- `MarkSpent` and `MarkUnspent` empty the one cache that depends on the flags. -/
theorem Valid.mark (h : wtx.Valid P w) {nOut : ℕ} {fSpent : Bool} {what : String} {wtx' : CachedTx}
    (hmark : wtx.mark nOut fSpent what = .ok wtx') : wtx'.Valid P w ∧ wtx'.tx = wtx.tx := by
  unfold CachedTx.mark at hmark
  split_ifs at hmark with hrange hflag
  swap
  · cases hmark
    exact ⟨⟨h.debit, h.credit, fun n hn => absurd hn (by simp), h.change⟩, rfl⟩
  cases hmark
  refine ⟨⟨h.debit, h.credit, ?_, h.change⟩, rfl⟩
  -- the flag was there already, and a longer vector of flags says the same
  have hsame : CacheWallet.unspentOutputs (wtx.toCWalletTx.mark nOut fSpent) =
      CacheWallet.unspentOutputs wtx.toCWalletTx := by
    refine unspentOutputs_congr rfl (fun m hm => ?_)
    rw [CWalletTx.getD_vfSpent_mark, if_pos hm]
    split_ifs with heq
    · rw [heq, hflag]
    · rfl
  intro n hn
  change sumInRange _ _ (CacheWallet.unspentOutputs (wtx.toCWalletTx.mark nOut fSpent)) 0 = _
  rw [hsame]
  exact h.available n hn

/-- `UpdateSpent` empties this cache too, when a flag is new. -/
theorem Valid.updateSpent (h : wtx.Valid P w) (vfNewSpent : List Bool) :
    (wtx.updateSpent vfNewSpent).1.Valid P w := by
  unfold CachedTx.updateSpent
  simp only
  split_ifs
  · exact h
  · exact ⟨h.debit, h.credit, fun n hn => absurd hn (by simp), h.change⟩

theorem updateSpent_tx (vfNewSpent : List Bool) : (wtx.updateSpent vfNewSpent).1.tx = wtx.tx := by
  unfold updateSpent
  simp only
  split_ifs <;> rfl

/-- Merging into a transaction that is dirty leaves it dirty. -/
theorem merge_dirty (wtx wtxIn : CachedTx) :
    (wtx.markDirty.merge wtxIn).1.markDirty = (wtx.markDirty.merge wtxIn).1 ∧
      (wtx.markDirty.merge wtxIn).1.tx = wtx.tx := by
  unfold merge updateSpent
  simp only
  split_ifs <;> exact ⟨rfl, rfl⟩

end CachedTx

/-! ### The wallet -/

namespace CacheWallet

variable {P : Params} {w w' : CacheWallet}

/-- Every cache of the wallet is right. -/
def Valid (P : Params) (w : CacheWallet) : Prop :=
  ∀ hash wtx, w.mapWallet.lookup hash = some wtx → wtx.Valid P w

/-- The two wallets have the same transactions, keys, scripts and addresses. -/
structure SameSources (w w' : CacheWallet) : Prop where
  keystore : w'.keystore = w.keystore
  mapAddressBook : w'.mapAddressBook = w.mapAddressBook
  txs : ∀ hash, (w'.mapWallet.lookup hash).map (fun wtx => wtx.tx) =
    (w.mapWallet.lookup hash).map (fun wtx => wtx.tx)

/-- With the same keys the same outputs are mine. -/
theorem SameSources.isMine (h : SameSources w w') (txout : CTxOut) :
    w'.isMine P txout = w.isMine P txout := by
  unfold CacheWallet.isMine
  rw [h.keystore]

/-- With the same keys and names the same outputs are change. -/
theorem SameSources.isChange (h : SameSources w w') (txout : CTxOut) :
    w'.isChange P txout = w.isChange P txout := by
  unfold CacheWallet.isChange
  rw [h.keystore, h.mapAddressBook]

/-- The debit of an input, from the transaction it spends. -/
theorem getDebitIn_eq (txin : CTxIn) : w.getDebitIn P txin =
    match (w.mapWallet.lookup txin.prevout.hash).map (fun wtx => wtx.tx) with
    | none => 0
    | some tx =>
      match tx.vout[txin.prevout.n]? with
      | none => 0
      | some txout => if w.isMine P txout then txout.nValue else 0 := by
  unfold getDebitIn
  cases w.mapWallet.lookup txin.prevout.hash with
  | none => rfl
  | some wtx => rfl

/-- The debit of an input after a transaction was stored: it is read there when the input spends from it. -/
theorem getDebitIn_insert (hash : Uint256) (wtx : CachedTx) (txin : CTxIn) :
    ({ w with mapWallet := w.mapWallet.insert hash wtx } : CacheWallet).getDebitIn P txin =
      if txin.prevout.hash = hash then
        match wtx.tx.vout[txin.prevout.n]? with
        | none => 0
        | some txout => if w.isMine P txout then txout.nValue else 0
      else w.getDebitIn P txin := by
  unfold getDebitIn
  simp only [Map.lookup_insert_eq]
  split_ifs <;> rfl

/-- With the same keys and transactions an input has the same debit. -/
theorem SameSources.getDebitIn (h : SameSources w w') (txin : CTxIn) :
    w'.getDebitIn P txin = w.getDebitIn P txin := by
  rw [getDebitIn_eq, getDebitIn_eq, h.txs]
  simp only [h.isMine]

/-- So no cache is disturbed by what leaves the sources of the amounts alone. -/
theorem SameSources.undisturbed (h : SameSources w w') (wtx : CachedTx) : wtx.Undisturbed P w w' where
  debit := fun _ txin _ => h.getDebitIn txin
  credit := fun _ txout _ => h.isMine txout
  available := fun _ txout _ => h.isMine txout
  change := fun _ txout _ => h.isChange txout

/-- A change that disturbs no cache keeps the wallet valid. -/
theorem Valid.of_undisturbed (h : w.Valid P) (hmap : w'.mapWallet = w.mapWallet)
    (hsame : ∀ hash wtx, w.mapWallet.lookup hash = some wtx → wtx.Undisturbed P w w') : w'.Valid P := by
  intro hash wtx hl
  rw [hmap] at hl
  exact (h hash wtx hl).undisturbed (hsame hash wtx hl)

/-- A wallet transaction is replaced by one with the same transaction in it. -/
theorem sameSources_insert {hash : Uint256} {wtx wtx' : CachedTx}
    (hl : w.mapWallet.lookup hash = some wtx) (htx : wtx'.tx = wtx.tx) :
    SameSources w { w with mapWallet := w.mapWallet.insert hash wtx' } := by
  refine ⟨rfl, rfl, fun hash' => ?_⟩
  change ((w.mapWallet.insert hash wtx').lookup hash').map _ = _
  rw [Map.lookup_insert_eq]
  split_ifs with heq
  · rw [heq, hl, Option.map_some, Option.map_some, htx]
  · rfl

/-- A valid transaction is put back in the place of an older version of it. -/
theorem Valid.insert (h : w.Valid P) {hash : Uint256} {wtx wtx' : CachedTx}
    (hl : w.mapWallet.lookup hash = some wtx) (htx : wtx'.tx = wtx.tx) (hvalid : wtx'.Valid P w) :
    ({ w with mapWallet := w.mapWallet.insert hash wtx' } : CacheWallet).Valid P := by
  have hsame := sameSources_insert hl htx
  intro hash' wtx₁ hl₁
  change (w.mapWallet.insert hash wtx').lookup hash' = some wtx₁ at hl₁
  rw [Map.lookup_insert_eq] at hl₁
  split_ifs at hl₁ with heq
  · cases hl₁
    exact hvalid.undisturbed (hsame.undisturbed _)
  · exact (h hash' wtx₁ hl₁).undisturbed (hsame.undisturbed _)

/-- A command on one transaction that keeps it valid keeps the wallet valid. -/
theorem Valid.onTx (h : w.Valid P) (hash : Uint256) {f : CacheWallet → CachedTx → CachedTx}
    (hf : ∀ wtx, wtx.Valid P w → (f w wtx).Valid P w ∧ (f w wtx).tx = wtx.tx) :
    (w.onTx hash f).Valid P := by
  unfold CacheWallet.onTx
  split
  · exact h
  · next wtx hl =>
    obtain ⟨hvalid, htx⟩ := hf wtx (h hash wtx hl)
    exact h.insert hl htx hvalid

/-- `MarkDirty` empties all caches. -/
theorem Valid.markDirty (h : w.Valid P) : w.markDirty.Valid P := by
  unfold CacheWallet.markDirty
  generalize w.mapWallet.keys = hashes
  induction hashes generalizing w with
  | nil => exact h
  | cons hash hashes ih =>
    refine ih (h.onTx hash (fun wtx _ => ⟨CachedTx.Valid.of_dirty rfl, rfl⟩))

/-! ### `AddToWallet` -/

variable {env : AddEnv} {wtxIn : CachedTx}

/-- `WalletUpdateSpent` goes over the inputs and marks what they spend. -/
theorem updateSpentIn_keeps (txin : CTxIn) : Keeps (Valid P) (updateSpentIn P env txin) := by
  intro w h
  refine Triple.of_snd ?_
  unfold updateSpentIn
  cases hl : w.mapWallet.lookup txin.prevout.hash with
  | none => exact h
  | some wtx =>
    dsimp only
    split
    · next txout hspent htxout =>
      split_ifs
      swap
      · exact h
      -- `GetCredit` may fill the cache before the output is marked
      have hcredit := (h _ wtx hl).getCredit true (env.nBlocksToMaturity wtx)
      have htx : (wtx.getCredit P w true (env.nBlocksToMaturity wtx)).2.tx = wtx.tx :=
        CachedTx.getCredit_tx true _
      split
      · exact h
      · next n wtx₁ hrun =>
        rw [hrun] at hcredit htx
        cases hmark : wtx₁.markSpent txin.prevout.n with
        | error e => exact h
        | ok wtx₂ =>
          obtain ⟨hvalid, htx₂⟩ := hcredit.mark hmark
          exact h.insert hl (htx₂.trans htx) hvalid
    · exact h
    · exact h

/-- No output of a wallet transaction has to do with the key. -/
def Unpaid (P : Params) (w : CacheWallet) (vchPubKey : List UInt8) : Prop :=
  ∀ hash wtx, w.mapWallet.lookup hash = some wtx → ∀ txout ∈ wtx.tx.vout,
    (∀ keystore : KeyStore, (keystore.addKey P vchPubKey).isMine P txout.scriptPubKey =
      keystore.isMine P txout.scriptPubKey) ∧
    extractAddress P txout.scriptPubKey ≠ some (CBitcoinAddress.setPubKey P vchPubKey)

/-- Whether an address is paid depends on the transactions only. -/
theorem Unpaid.congr {vchPubKey : List UInt8} (h : w.Unpaid P vchPubKey)
    (hmap : w'.mapWallet = w.mapWallet) : w'.Unpaid P vchPubKey := by
  unfold Unpaid
  rw [hmap]
  exact h

/-- Ownership that is the same for every output of the wallet: no amount changes. -/
theorem undisturbed_of_outputs (hmap : w'.mapWallet = w.mapWallet)
    (hmine : ∀ hash wtx, w.mapWallet.lookup hash = some wtx → ∀ txout ∈ wtx.tx.vout,
      w'.isMine P txout = w.isMine P txout ∧ w'.isChange P txout = w.isChange P txout)
    {hash : Uint256} {wtx : CachedTx} (hl : w.mapWallet.lookup hash = some wtx) :
    wtx.Undisturbed P w w' where
  debit := by
    intro _ txin _
    unfold getDebitIn
    rw [hmap]
    -- a debit depends on who owns the output of the previous transaction
    cases hprev : w.mapWallet.lookup txin.prevout.hash with
    | none => rfl
    | some prev =>
      dsimp only
      cases htxout : prev.tx.vout[txin.prevout.n]? with
      | none => rfl
      | some txout =>
        dsimp only
        rw [(hmine _ prev hprev txout (List.mem_of_getElem? htxout)).1]
  credit := fun _ txout htxout => (hmine hash wtx hl txout htxout).1
  available := fun _ txout htxout =>
    (hmine hash wtx hl txout (mem_vout_of_mem_unspentOutputs htxout)).1
  change := fun _ txout htxout => (hmine hash wtx hl txout htxout).2

/-- A new key changes nothing for the outputs of other addresses. -/
theorem isChange_addKey {vchPubKey : List UInt8} {txout : CTxOut}
    (h : extractAddress P txout.scriptPubKey ≠ some (CBitcoinAddress.setPubKey P vchPubKey)) :
    (w.addKey P vchPubKey).isChange P txout = w.isChange P txout := by
  unfold isChange
  cases haddress : extractAddress P txout.scriptPubKey with
  | none => rfl
  | some address =>
    rw [haddress] at h
    have hne : address ≠ CBitcoinAddress.setPubKey P vchPubKey := fun heq => h (congrArg some heq)
    unfold addKey KeyStore.addKey
    simp only [Finset.mem_insert, hne, false_or]

/-- Nor does a new name. -/
theorem isChange_setAddressBookName {address : CBase58Data} {txout : CTxOut}
    (h : extractAddress P txout.scriptPubKey ≠ some address) :
    (w.setAddressBookName address).isChange P txout = w.isChange P txout := by
  unfold isChange
  cases haddress : extractAddress P txout.scriptPubKey with
  | none => rfl
  | some address' =>
    rw [haddress] at h
    have hne : address' ≠ address := fun heq => h (congrArg some heq)
    unfold setAddressBookName
    simp only [Finset.mem_insert, hne, false_or]

/-- A key that nothing pays to disturbs no cache. -/
theorem Valid.addKey (h : w.Valid P) {vchPubKey : List UInt8} (hunpaid : w.Unpaid P vchPubKey) :
    (w.addKey P vchPubKey).Valid P := by
  have hmap : (w.addKey P vchPubKey).mapWallet = w.mapWallet := rfl
  refine h.of_undisturbed hmap (fun hash wtx hl => undisturbed_of_outputs hmap ?_ hl)
  intro hash wtx hl txout htxout
  obtain ⟨hmine, hne⟩ := hunpaid hash wtx hl txout htxout
  exact ⟨hmine w.keystore, isChange_addKey hne⟩

/-- Nor does a name for its address. -/
theorem Valid.setAddressBookName (h : w.Valid P) {vchPubKey : List UInt8}
    (hunpaid : w.Unpaid P vchPubKey) :
    (w.setAddressBookName (CBitcoinAddress.setPubKey P vchPubKey)).Valid P := by
  have hmap : (w.setAddressBookName (CBitcoinAddress.setPubKey P vchPubKey)).mapWallet = w.mapWallet := rfl
  refine h.of_undisturbed hmap (fun hash wtx hl => undisturbed_of_outputs hmap ?_ hl)
  intro hash wtx hl txout htxout
  exact ⟨rfl, isChange_setAddressBookName (hunpaid hash wtx hl txout htxout).2⟩

/-- The default key is not counted anywhere. -/
theorem Valid.setDefaultKey (h : w.Valid P) (key : List UInt8) :
    ({ w with vchDefaultKey := key } : CacheWallet).Valid P :=
  h.of_undisturbed rfl
    (fun _ _ _ => ⟨fun _ _ _ => rfl, fun _ _ _ => rfl, fun _ _ _ => rfl, fun _ _ _ => rfl⟩)

/-- The keys of a top-up, one after the other. -/
theorem Valid.addKeys (h : w.Valid P) {keys : List (List UInt8)} (hunpaid : ∀ key ∈ keys, w.Unpaid P key) :
    (keys.foldl (CacheWallet.addKey P) w).Valid P ∧
      (keys.foldl (CacheWallet.addKey P) w).mapWallet = w.mapWallet := by
  induction keys generalizing w with
  | nil => exact ⟨h, rfl⟩
  | cons key keys ih =>
    obtain ⟨hkey, hkeys⟩ := List.forall_mem_cons.mp hunpaid
    rw [List.foldl_cons]
    exact ih (h.addKey hkey) (fun key' hkey' => (hkeys key' hkey').congr rfl)

/-- The keys of a call of `GetKeyFromPool` are in no output of the wallet. -/
def PoolUnpaid (P : Params) (env : AddEnv) (w : CacheWallet) (i : ℕ) : Prop :=
  (∀ key ∈ (env.getKeyFromPool i).1, w.Unpaid P key) ∧
  ∀ key, (env.getKeyFromPool i).2 = .ok (some key) → w.Unpaid P key

/-- The default key is replaced by an unused one when a transaction pays to it; the new one is named. -/
theorem replaceDefaultKey_spec {i : ℕ} (h : w.Valid P) (hunpaid : w.PoolUnpaid P env i) :
    Triple (replaceDefaultKey P env i) w (fun _ w' => w'.Valid P ∧ w'.mapWallet = w.mapWallet)
      (fun _ w' => w'.Valid P ∧ w'.mapWallet = w.mapWallet) := by
  obtain ⟨hvalid, hmap⟩ := h.addKeys hunpaid.1
  refine Triple.of_snd (I := fun w' : CacheWallet => w'.Valid P ∧ w'.mapWallet = w.mapWallet) ?_
  unfold replaceDefaultKey
  dsimp only
  split
  · exact ⟨hvalid, hmap⟩
  · exact ⟨hvalid, hmap⟩
  · next key hkey =>
    refine ⟨?_, hmap⟩
    exact (hvalid.setDefaultKey key).setAddressBookName ((hunpaid.2 key hkey).congr hmap)

/-- The loop of `AddToWallet` over the outputs. -/
theorem replaceDefaultKeys_spec {l : List ℕ} (h : w.Valid P) (hunpaid : ∀ i ∈ l, w.PoolUnpaid P env i) :
    Triple (Command.forList (replaceDefaultKey P env) l) w (fun _ w' => w'.Valid P)
      (fun _ w' => w'.Valid P) := by
  have hloop : Triple (Command.forList (replaceDefaultKey P env) l) w
      (fun _ w' => w'.Valid P ∧ w'.mapWallet = w.mapWallet ∧ ∀ i ∈ ([] : List ℕ), w'.PoolUnpaid P env i)
      (fun _ w' => w'.Valid P) := by
    -- what is left of the pool stays unpaid, for no transaction of the wallet changes
    refine Triple.forList (I := fun l (w' : CacheWallet) => w'.Valid P ∧ w'.mapWallet = w.mapWallet ∧
      ∀ i ∈ l, w'.PoolUnpaid P env i) ?_ ⟨h, rfl, hunpaid⟩
    rintro i l w₁ ⟨hvalid, hmap, hpool⟩
    obtain ⟨hi, hl⟩ := List.forall_mem_cons.mp hpool
    refine (replaceDefaultKey_spec hvalid hi).mono ?_ (fun _ w₂ h₂ => h₂.1)
    rintro _ w₂ ⟨hvalid₂, hmap₂⟩
    refine ⟨hvalid₂, hmap₂.trans hmap, fun j hj => ⟨fun key hkey => ?_, fun key hkey => ?_⟩⟩
    · exact ((hl j hj).1 key hkey).congr hmap₂
    · exact ((hl j hj).2 key hkey).congr hmap₂
  exact hloop.mono (fun _ _ h' => h'.1) (fun _ _ h' => h')

/-- The wallet with the transaction in it. -/
def withTx (P : Params) (w : CacheWallet) (wtxIn : CachedTx) : CacheWallet :=
  { w with mapWallet := w.mapWallet.insert (P.hashTx wtxIn.tx) (w.insertTx P wtxIn).1 }

/-- A transaction that is new does not have an own output that a debit in a cache should count, and the
keys that replace the default key are in no output of the wallet. -/
structure AddUndisturbing (P : Params) (env : AddEnv) (w : CacheWallet) (wtxIn : CachedTx) : Prop where
  debit : w.mapWallet.lookup (P.hashTx wtxIn.tx) = none → ∀ hash wtx,
    w.mapWallet.lookup hash = some wtx → wtx.nDebitCached.isSome → ∀ txin ∈ wtx.tx.vin,
      txin.prevout.hash = P.hashTx wtxIn.tx → ∀ txout, wtxIn.tx.vout[txin.prevout.n]? = some txout →
        w.isMine P txout = false ∨ txout.nValue = 0
  pool : env.fQtGui = false → ∀ i < w.defaultKeyUses P (w.insertTx P wtxIn).1.tx,
    (w.withTx P wtxIn).PoolUnpaid P env i

/-- A transaction is stored, with its caches empty or merged into an older version. -/
theorem Valid.withTx (h : w.Valid P) (hadd : AddUndisturbing P env w wtxIn) :
    (w.withTx P wtxIn).Valid P := by
  unfold CacheWallet.withTx
  cases hl : w.mapWallet.lookup (P.hashTx wtxIn.tx) with
  -- the wallet has it already
  | some wtx =>
    have hinsert : w.insertTx P wtxIn = wtx.markDirty.merge wtxIn := by
      unfold insertTx
      rw [hl]
    rw [hinsert]
    obtain ⟨hdirty, htx⟩ := CachedTx.merge_dirty wtx wtxIn
    exact h.insert hl htx (CachedTx.Valid.of_dirty hdirty)
  | none =>
    -- it is new
    have hinsert : w.insertTx P wtxIn = (wtxIn.markDirty, true) := by
      unfold insertTx
      rw [hl]
    rw [hinsert]
    intro hash wtx hl'
    change (w.mapWallet.insert (P.hashTx wtxIn.tx) wtxIn.markDirty).lookup hash = some wtx at hl'
    rw [Map.lookup_insert_eq] at hl'
    split_ifs at hl' with heq
    · cases hl'
      exact CachedTx.Valid.of_dirty rfl
    refine (h hash wtx hl').undisturbed ⟨?_, fun _ _ _ => rfl, fun _ _ _ => rfl, fun _ _ _ => rfl⟩
    -- only an input that spends the new transaction can count more
    intro hcached txin htxin
    rw [getDebitIn_insert]
    split_ifs with hspends
    swap
    · rfl
    have hold : w.getDebitIn P txin = 0 := by
      unfold getDebitIn
      rw [hspends, hl]
    rw [hold]
    change (match wtxIn.tx.vout[txin.prevout.n]? with
      | none => 0
      | some txout => if w.isMine P txout then txout.nValue else 0) = 0
    cases htxout : wtxIn.tx.vout[txin.prevout.n]? with
    | none => rfl
    | some txout =>
      dsimp only
      rcases hadd.debit hl hash wtx hl' hcached txin htxin hspends txout htxout with hmine | hzero
      · rw [hmine]
        rfl
      · rw [hzero, ite_self]

/-- **`AddToWallet`** keeps the caches right, when the new transaction disturbs none of the others. -/
theorem Valid.addToWallet (h : w.Valid P) (hadd : AddUndisturbing P env w wtxIn) :
    (CacheWallet.addToWallet P env wtxIn w).2.Valid P := by
  refine Triple.snd (I := Valid P) ?_
  refine Triple.get_bind (Triple.modify_bind ?_)
  have hwith := h.withTx hadd
  split_ifs with hwrite hgui
  · exact hwith
  · refine Triple.bind (Q := fun _ w' => Valid P w') hwith (fun _ w₁ h₁ => ?_)
    exact Triple.bind (Keeps.forList (I := Valid P) updateSpentIn_keeps _ w₁ h₁) (fun _ _ h' => h')
  · refine Triple.bind (replaceDefaultKeys_spec hwith ?_) (fun _ w₁ h₁ => ?_)
    · intro i hi
      exact hadd.pool (Bool.eq_false_iff.mpr hgui) i (List.mem_range.mp hi)
    · exact Triple.bind (Keeps.forList (I := Valid P) updateSpentIn_keeps _ w₁ h₁) (fun _ _ h' => h')

/-! ### Runs -/

/-- The call does not change what a cached amount counts. -/
def Undisturbing (P : Params) (w : CacheWallet) : CacheAction → Prop
  | .addToWallet env wtxIn => AddUndisturbing P env w wtxIn
  | .addKey vchPubKey => ∀ hash wtx, w.mapWallet.lookup hash = some wtx →
      wtx.Undisturbed P w (w.addKey P vchPubKey)
  | .addCScript redeemScript => ∀ hash wtx, w.mapWallet.lookup hash = some wtx →
      wtx.Undisturbed P w (w.addCScript P redeemScript)
  | .setAddressBookName address => ∀ hash wtx, w.mapWallet.lookup hash = some wtx →
      wtx.Undisturbed P w (w.setAddressBookName address)
  | .delAddressBookName address => ∀ hash wtx, w.mapWallet.lookup hash = some wtx →
      wtx.Undisturbed P w (w.delAddressBookName address)
  | _ => True

/-- The loop of `ReacceptWalletTransactions` goes on when a mark fails. -/
theorem mark_getD {wtx : CachedTx} (h : wtx.Valid P w) (nOut : ℕ) (fSpent : Bool) (what : String) :
    (((wtx.mark nOut fSpent what).toOption).getD wtx).Valid P w ∧
      (((wtx.mark nOut fSpent what).toOption).getD wtx).tx = wtx.tx := by
  cases hmark : wtx.mark nOut fSpent what with
  | ok wtx' => exact h.mark hmark
  | error e => exact ⟨h, rfl⟩

/-- **One call** that does not change what a cached amount counts. -/
theorem Valid.act (h : w.Valid P) {a : CacheAction} (ha : w.Undisturbing P a) : (w.act P a).Valid P := by
  cases a with
  | addToWallet env wtxIn => exact h.addToWallet ha
  | markSpent hash nOut => exact h.onTx hash (fun wtx hwtx => mark_getD hwtx nOut true _)
  | markUnspent hash nOut => exact h.onTx hash (fun wtx hwtx => mark_getD hwtx nOut false _)
  | updateSpent hash vfNewSpent =>
    exact h.onTx hash (fun wtx hwtx => ⟨hwtx.updateSpent vfNewSpent, CachedTx.updateSpent_tx vfNewSpent⟩)
  | addKey vchPubKey => exact h.of_undisturbed rfl ha
  | addCScript redeemScript => exact h.of_undisturbed rfl ha
  | setAddressBookName address => exact h.of_undisturbed rfl ha
  | delAddressBookName address => exact h.of_undisturbed rfl ha
  | markDirty => exact h.markDirty
  | getDebit hash => exact h.onTx hash (fun wtx hwtx => ⟨hwtx.getDebit, CachedTx.getDebit_tx⟩)
  | getCredit hash fUseCache n =>
    exact h.onTx hash (fun wtx hwtx => ⟨hwtx.getCredit fUseCache n, CachedTx.getCredit_tx fUseCache n⟩)
  | getAvailableCredit hash fUseCache n =>
    exact h.onTx hash (fun wtx hwtx =>
      ⟨hwtx.getAvailableCredit fUseCache n, CachedTx.getAvailableCredit_tx fUseCache n⟩)
  | getChange hash => exact h.onTx hash (fun wtx hwtx => ⟨hwtx.getChange, CachedTx.getChange_tx⟩)

/-- Every query of every wallet transaction returns what it returns without caches. -/
structure Coherent (P : Params) (w : CacheWallet) : Prop where
  debit : ∀ hash wtx, w.mapWallet.lookup hash = some wtx →
    (wtx.getDebit P w).1 = (wtx.markDirty.getDebit P w).1
  credit : ∀ hash wtx, w.mapWallet.lookup hash = some wtx → ∀ fUseCache n,
    (wtx.getCredit P w fUseCache n).1 = (wtx.markDirty.getCredit P w fUseCache n).1
  available : ∀ hash wtx, w.mapWallet.lookup hash = some wtx → ∀ fUseCache n,
    (wtx.getAvailableCredit P w fUseCache n).1 = (wtx.markDirty.getAvailableCredit P w fUseCache n).1
  change : ∀ hash wtx, w.mapWallet.lookup hash = some wtx →
    (wtx.getChange P w).1 = (wtx.markDirty.getChange P w).1

end CacheWallet

/-- The wallets that are reached from a loaded one, without caches, by calls as `Met` allows them. -/
inductive CacheRun (P : Params) (Met : CacheWallet → CacheAction → Prop) : CacheWallet → Prop
  | load {w : CacheWallet} (hload : ∀ hash wtx, w.mapWallet.lookup hash = some wtx →
      wtx.markDirty = wtx) : CacheRun P Met w
  | act {w : CacheWallet} {a : CacheAction} (h : CacheRun P Met w) (hmet : Met w a) :
      CacheRun P Met (w.act P a)

section

variable {P : Params} {w : CacheWallet} {wtx : CachedTx}

namespace CachedTx.Valid

/-- With a valid cache `GetDebit` returns what it would compute anew. -/
theorem getDebit_fst (h : wtx.Valid P w) :
    (wtx.getDebit P w).1 = if wtx.tx.vin.isEmpty then .ok 0 else w.getDebitTx P wtx.tx := by
  unfold CachedTx.getDebit
  split_ifs
  · rfl
  · exact cached_fst h.debit

/-- So does `GetCredit`, for which an immature transaction counts nothing. -/
theorem getCredit_fst (h : wtx.Valid P w) (fUseCache : Bool) (n : ℤ) : (wtx.getCredit P w fUseCache n).1 =
    if wtx.isImmature n then .ok 0 else w.getCreditTx P wtx.tx := by
  unfold CachedTx.getCredit
  split_ifs
  · rfl
  · exact cached_fst h.credit

/-- So does `GetAvailableCredit`. -/
theorem getAvailableCredit_fst (h : wtx.Valid P w) (fUseCache : Bool) (n : ℤ) :
    (wtx.getAvailableCredit P w fUseCache n).1 =
      if wtx.isImmature n then .ok 0 else w.getUnspentCredit P wtx.toCWalletTx := by
  unfold CachedTx.getAvailableCredit
  split_ifs
  · rfl
  · exact cached_fst h.available

/-- So does `GetChange`. -/
theorem getChange_fst (h : wtx.Valid P w) : (wtx.getChange P w).1 = w.getChangeTx P wtx.tx :=
  cached_fst h.change

end CachedTx.Valid

/-- Validity is what coherence asks for. -/
theorem CacheWallet.Valid.toCoherent (h : w.Valid P) : w.Coherent P := by
  -- what is computed anew is what a wallet without caches answers
  have hdirty : ∀ wtx : CachedTx, wtx.markDirty.Valid P w := fun wtx => .of_dirty rfl
  refine ⟨?_, ?_, ?_, ?_⟩
  · intro hash wtx hl
    rw [(h hash wtx hl).getDebit_fst, (hdirty wtx).getDebit_fst]
    rfl
  · intro hash wtx hl fUseCache n
    rw [(h hash wtx hl).getCredit_fst, (hdirty wtx).getCredit_fst]
    rfl
  · intro hash wtx hl fUseCache n
    rw [(h hash wtx hl).getAvailableCredit_fst, (hdirty wtx).getAvailableCredit_fst]
    rfl
  · intro hash wtx hl
    rw [(h hash wtx hl).getChange_fst, (hdirty wtx).getChange_fst]
    rfl

/-- **The caches are coherent**, in every run in which no call changes what a cached amount counts. -/
theorem CacheRun.coherent (h : CacheRun P (fun w a => w.Undisturbing P a) w) : w.Coherent P := by
  have hvalid : w.Valid P := by
    induction h with
    | load hload => exact fun hash wtx hl => .of_dirty (hload hash wtx hl)
    | act _ hmet ih => exact ih.act hmet
  exact hvalid.toCoherent

end

/-! ### A parent that arrives later -/

namespace Sample

/-- A wallet with one key. -/
def cacheWallet : CacheWallet where
  keystore := { mapKeys := {CBitcoinAddress.setPubKey params (List.replicate 33 2)} }

def parentTx : CTransaction where
  nTime := 1400000000
  vin := [⟨⟨5, 0⟩, [], UINT_MAX⟩]
  vout := [⟨1000000, keyScript⟩]

/-- A transaction that spends the output of the parent and pays to the wallet. -/
def childTx : CTransaction where
  nTime := 1400000001
  vin := [⟨⟨params.hashTx parentTx, 0⟩, [], UINT_MAX⟩]
  vout := [⟨990000, keyScript⟩]

def addEnv : AddEnv where
  fWritten := true
  fQtGui := true
  getKeyFromPool _ := ([], .ok none)
  nBlocksToMaturity _ := 0

def arriveTx (tx : CTransaction) (w : CacheWallet) : CacheWallet :=
  w.act params (.addToWallet addEnv { tx := tx })

/-- The debit of the child is asked for. -/
def askDebit (w : CacheWallet) : CacheWallet := w.act params (.getDebit (params.hashTx childTx))

/-- What `GetDebit` answers for the child, with and without its cache. -/
def childDebits (w : CacheWallet) : Option (Option ℤ × Option ℤ) :=
  (w.mapWallet.lookup (params.hashTx childTx)).map (fun wtx =>
    ((wtx.getDebit params w).1.toOption, (wtx.markDirty.getDebit params w).1.toOption))

/-- The wallet of the sample has just been loaded. -/
theorem loaded_cacheWallet : ∀ hash wtx, cacheWallet.mapWallet.lookup hash = some wtx →
    wtx.markDirty = wtx :=
  fun _ _ hl => absurd hl (by rw [cacheWallet, Map.lookup_empty]; simp)

end Sample

/-- The child arrives first and is asked for its debit. Then the parent arrives. -/
theorem addToWallet_parentLater :
    ¬ ∀ (P : Params) (w : CacheWallet), CacheRun P (fun _ _ => True) w → w.Coherent P := by
  intro h
  have hcoherent := h Sample.params
    (Sample.arriveTx Sample.parentTx (Sample.askDebit (Sample.arriveTx Sample.childTx Sample.cacheWallet)))
    (.act (.act (.act (.load Sample.loaded_cacheWallet) trivial) trivial) trivial)
  have heval : Sample.childDebits (Sample.arriveTx Sample.parentTx
      (Sample.askDebit (Sample.arriveTx Sample.childTx Sample.cacheWallet))) =
        some (some 0, some 1000000) := by
    decide
  obtain ⟨wtx, hl, hdebits⟩ := Option.map_eq_some_iff.mp heval
  have heq := hcoherent.debit _ wtx hl
  rw [Prod.mk.injEq, heq] at hdebits
  exact absurd (hdebits.1.symm.trans hdebits.2) (by decide)

namespace Sample

/-- The parent arrives first. -/
def parentFirst : CacheWallet := askDebit (arriveTx childTx (arriveTx parentTx cacheWallet))

/-- Nothing is disturbed as long as no debit is cached. -/
theorem addUndisturbing_of_uncached {w : CacheWallet} (wtxIn : CachedTx)
    (h : ∀ hash wtx, w.mapWallet.lookup hash = some wtx → wtx.nDebitCached = none) :
    CacheWallet.AddUndisturbing params addEnv w wtxIn where
  debit := by
    intro _ hash wtx hl hcached
    rw [h hash wtx hl] at hcached
    cases hcached
  pool := fun hgui => absurd hgui (by decide)

end Sample

/-- Then the debit is in the cache, and is right. -/
theorem coherent_parentFirst : Sample.parentFirst.Coherent Sample.params ∧
    Sample.childDebits Sample.parentFirst = some (some 1000000, some 1000000) := by
  have hparent : CacheRun Sample.params (fun w a => w.Undisturbing Sample.params a)
      (Sample.arriveTx Sample.parentTx Sample.cacheWallet) := by
    refine .act (.load Sample.loaded_cacheWallet) ?_
    -- no debit is cached when the parent comes
    refine Sample.addUndisturbing_of_uncached _ (fun hash wtx hl => absurd hl ?_)
    rw [Sample.cacheWallet, Map.lookup_empty]
    simp
  have hchild : CacheRun Sample.params (fun w a => w.Undisturbing Sample.params a)
      (Sample.arriveTx Sample.childTx (Sample.arriveTx Sample.parentTx Sample.cacheWallet)) := by
    refine .act hparent (Sample.addUndisturbing_of_uncached _ (fun hash wtx hl => ?_))
    -- nor when the child comes behind it
    have huncached : (Sample.arriveTx Sample.parentTx Sample.cacheWallet).mapWallet.entries.all
        (fun e => e.2.nDebitCached.isNone) = true := by
      decide
    have hmem := AList.mem_lookup_iff.mp (Option.mem_def.mpr hl)
    exact Option.isNone_iff_eq_none.mp (List.all_eq_true.mp huncached _ hmem)
  have hasked : CacheRun Sample.params (fun w a => w.Undisturbing Sample.params a) Sample.parentFirst :=
    .act (a := .getDebit (Sample.params.hashTx Sample.childTx)) hchild trivial
  exact ⟨CacheRun.coherent hasked, by decide⟩

end Peershares
