import Mathlib.Algebra.BigOperators.Group.Finset.Piecewise
import Mathlib.Algebra.BigOperators.Group.List.Basic
import Mathlib.Data.Int.DivMod
import Peershares.Model.Journal

/-!
# The journal is exact

The keys of the journal start with the serialized type, and those of one account with the type and the
account. Such keys are an interval in the order of the file, since no serialized string is the beginning
of another one; so the cursor meets the entries of the account, and only those.

`JournalOk` is the invariant of the file: the records of the journal are the entries that were written,
each one under a number of its own that the counter has passed. A write under a fresh number keeps it
(`JournalOk.put`), other records do not matter to it (`JournalOk.putOther`, `JournalOk.eraseOther`), and a
restart, which reads the largest number back from the file, establishes the counter again
(`JournalOk.loadNumbers`). From there on a sum over the cursor is a sum over the entries written.

`movecmd` writes two entries of opposite amounts in one transaction of the database. `net` counts, for an account,
what such calls have moved into it and out of it. An account that is sent too much leaves the range of `int64`,
which is where the sums and the journal part.

* `JournalOk.listAccountCreditDebit` — what the cursor reads
* `JournalOk.exec`, `JournalOk.foldlM` — one operation and a run of them keep the invariant
* `journal_exact` — the balances over all runs
* `movecmd_atomic` — a move is booked on both accounts or on none, unless just one of its two writes fails
* `movecmd_half_written` — the debit cannot be written, the credit can, and `true` is returned
-/

open Framework Framework.Command

namespace Peershares

/-! ### Keys -/

/-- The words that begin the keys of `wallet.dat` are pairwise different. -/
theorem RecordType.text_injective {ty ty' : RecordType} (h : ty.text = ty'.text) : ty = ty' := by
  cases ty <;> cases ty' <;> first | rfl | exact absurd h (by decide)

/-- And short enough to be written. -/
theorem RecordType.text_fits (ty : RecordType) : string.Fits ty.text := by
  cases ty <;> exact string_fits.mpr (by decide)

/-- The beginning of the keys that `ListAccountCreditDebit` looks for. -/
def journalHead (strAccount : List UInt8) : List UInt8 :=
  string.enc RecordType.acentry.text ++ if strAccount = allAccounts then [] else string.enc strAccount

/-- Does the key belong to the account? -/
def inJournal (strAccount ssKey : List UInt8) : Bool := (journalHead strAccount).isPrefixOf ssKey

/-- The loop of `ListAccountCreditDebit` goes on while the key begins with the head of the account. -/
theorem inJournal_iff {strAccount ssKey : List UInt8} :
    inJournal strAccount ssKey = true ↔ journalHead strAccount <+: ssKey := List.isPrefixOf_iff_prefix

/-- Two record keys are equal only with equal types and equal rests. -/
theorem recordKey_inj {ty ty' : RecordType} {rest rest' : List UInt8}
    (h : recordKey ty rest = recordKey ty' rest') : ty = ty' ∧ rest = rest' := by
  obtain ⟨htext, hrest⟩ := string.append_inj ty.text_fits ty'.text_fits h
  exact ⟨RecordType.text_injective htext, hrest⟩

/-- Two journal keys are equal only with equal accounts and equal numbers. -/
theorem CAccountingEntry.dbKey_inj {a a' : List UInt8} {n n' : ℕ} (ha : string.Fits a)
    (ha' : string.Fits a') (hn : uint64.Fits n) (hn' : uint64.Fits n') (h : dbKey a n = dbKey a' n') :
    a = a' ∧ n = n' := by
  obtain ⟨-, hrest⟩ := recordKey_inj h
  obtain ⟨hname, hnumber⟩ := string.append_inj ha ha' hrest
  refine ⟨hname, ?_⟩
  have hnumber : uint64.enc n ++ [] = uint64.enc n' ++ [] := by rw [hnumber]
  exact (uint64.append_inj hn hn' hnumber).1

/-- Records of other types are not in the journal. -/
theorem inJournal_recordKey {ty : RecordType} (h : ty ≠ .acentry) (strAccount rest : List UInt8) :
    inJournal strAccount (recordKey ty rest) = false := by
  rw [Bool.eq_false_iff]
  intro hin
  obtain ⟨rest', hrest'⟩ := inJournal_iff.mp hin
  unfold journalHead at hrest'
  rw [List.append_assoc] at hrest'
  obtain ⟨htext, -⟩ := string.append_inj RecordType.acentry.text_fits ty.text_fits hrest'
  exact h (RecordType.text_injective htext).symm

/-- A journal key passes the test of the loop for its own account and for `"*"`. -/
theorem inJournal_dbKey {a strAccount : List UInt8} (ha : string.Fits a)
    (hacc : string.Fits strAccount) (n : ℕ) :
    inJournal strAccount (CAccountingEntry.dbKey a n) = true ↔
      strAccount = allAccounts ∨ a = strAccount := by
  rw [inJournal_iff, CAccountingEntry.dbKey, recordKey, journalHead, List.prefix_append_right_inj]
  split_ifs with hall
  · simp [hall]
  · constructor
    · rintro ⟨rest, hrest⟩
      exact .inr (string.append_inj hacc ha hrest).1.symm
    · rintro (h | rfl)
      · exact absurd h hall
      · exact List.prefix_append _ _

/-- A key that is in the journal of an account is in that of all accounts. -/
theorem inJournal_all {strAccount ssKey : List UInt8} (h : inJournal strAccount ssKey = true) :
    inJournal allAccounts ssKey = true := by
  rw [inJournal_iff] at h ⊢
  refine List.IsPrefix.trans ?_ h
  unfold journalHead
  rw [if_pos rfl, List.append_nil]
  exact List.prefix_append _ _

/-- In the order of the keys the records that pass stand together. -/
theorem inJournal_between {strAccount a b c : List UInt8} (ha : inJournal strAccount a = true)
    (hc : inJournal strAccount c = true) (hab : a ≤ b) (hbc : b ≤ c) :
    inJournal strAccount b = true := by
  rw [inJournal_iff] at ha hc ⊢
  exact prefix_between ha hc hab hbc

/-- Where `ListAccountCreditDebit` starts. -/
def journalStart (strAccount : List UInt8) : List UInt8 :=
  CAccountingEntry.dbKey (if strAccount = allAccounts then [] else strAccount) 0

/-- The cursor is set to the head of the account followed by zeros. -/
theorem journalStart_eq (strAccount : List UInt8) : journalStart strAccount =
    journalHead strAccount ++ List.replicate (if strAccount = allAccounts then 9 else 8) 0 := by
  unfold journalStart journalHead CAccountingEntry.dbKey recordKey
  rw [show uint64.enc 0 = List.replicate 8 0 from toLeBytes_zero 8]
  split_ifs with hall
  · rw [show string.enc [] = [0] from rfl, List.append_nil]
    rfl
  · rw [List.append_assoc]

/-- That key would pass itself. -/
theorem inJournal_start (strAccount : List UInt8) :
    inJournal strAccount (journalStart strAccount) = true := by
  rw [inJournal_iff, journalStart_eq]
  exact List.prefix_append _ _

/-- A byte is not below zero. -/
theorem UInt8.zero_le' (b : UInt8) : (0 : UInt8) ≤ b := by
  rw [UInt8.le_iff_toNat_le]
  exact Nat.zero_le _

/-- A string is written with at least one byte. -/
theorem length_enc_string_pos (v : List UInt8) : 0 < (string.enc v).length := by
  show 0 < (writeCompactSize v.length ++ v).length
  unfold writeCompactSize
  split_ifs <;> simp [toLeBytes]

/-- And no journal key of the account stands before it. -/
theorem journalStart_le {a strAccount : List UInt8} (ha : string.Fits a)
    (hacc : string.Fits strAccount) (n : ℕ)
    (h : inJournal strAccount (CAccountingEntry.dbKey a n) = true) :
    journalStart strAccount ≤ CAccountingEntry.dbKey a n := by
  have hnumber : (uint64.enc n).length = 8 := length_toLeBytes 8 n
  rw [journalStart_eq, journalHead, CAccountingEntry.dbKey, recordKey, List.append_assoc,
    append_le_append_iff_lex]
  split_ifs with hall
  · -- the start has the empty name, the number zero, and no bytes but zeros
    refine replicate_le UInt8.zero_le' ?_
    have := length_enc_string_pos a
    rw [List.length_append]
    omega
  · have hname : a = strAccount := ((inJournal_dbKey ha hacc n).mp h).resolve_left hall
    subst hname
    rw [append_le_append_iff_lex]
    exact replicate_le UInt8.zero_le' hnumber.ge

/-! ### Records -/

/-- An entry that can be written: the strings are not longer than a request to the RPC server, and the
numbers are `int64`. -/
structure CAccountingEntry.Fits (e : CAccountingEntry) : Prop where
  strAccount : string.Fits e.strAccount
  fields : CAccountingEntry.fields.Fits e.toFields

/-- An entry and its number, as a record of the file. -/
def toRecord (p : CAccountingEntry × ℕ) : List UInt8 × List UInt8 :=
  (CAccountingEntry.dbKey p.1.strAccount p.2, p.1.dbValue)

/-- The entry of a record. -/
def readRecord (record : List UInt8 × List UInt8) : Result CAccountingEntry := do
  let (_, ssKey) ← unserialize string record.1
  let (account, _) ← unserialize string ssKey
  let (fields, _) ← unserialize CAccountingEntry.fields record.2
  pure (CAccountingEntry.ofFields account fields)

/-- A record that the program writes. -/
inductive Written : List UInt8 × List UInt8 → Prop
  | acentry {e : CAccountingEntry} {n : ℕ} (he : e.Fits) (hn : uint64.Fits n) : Written (toRecord (e, n))
  | other {ty : RecordType} (h : ty ≠ .acentry) (rest value : List UInt8) :
      Written (recordKey ty rest, value)

/-- `ssKey >> strType` reads back the type. -/
theorem unserialize_recordKey (ty : RecordType) (rest : List UInt8) :
    unserialize string (recordKey ty rest) = .ok (ty.text, rest) :=
  unserialize_enc string ty.text_fits rest

/-- `ssKey >> acentry.strAccount` reads back the account. -/
theorem unserialize_account {e : CAccountingEntry} (he : e.Fits) (n : ℕ) :
    unserialize string (string.enc e.strAccount ++ uint64.enc n) = .ok (e.strAccount, uint64.enc n) :=
  unserialize_enc string he.strAccount _

/-- `ssValue >> acentry` reads back the entry. -/
theorem unserialize_dbValue {e : CAccountingEntry} (he : e.Fits) :
    unserialize CAccountingEntry.fields e.dbValue = .ok (e.toFields, []) :=
  unserialize_enc_end CAccountingEntry.fields he.fields

/-- A record that was written is read back. -/
theorem readRecord_toRecord {e : CAccountingEntry} (he : e.Fits) (n : ℕ) :
    readRecord (toRecord (e, n)) = .ok e := by
  unfold readRecord toRecord CAccountingEntry.dbKey
  simp only [unserialize_recordKey, unserialize_account he, unserialize_dbValue he, Result.ok_bind]
  rfl

/-- One step of the loop over a journal record. -/
theorem listEntries_acentry {e : CAccountingEntry} (he : e.Fits) (n : ℕ) (strAccount : List UInt8)
    (records : List (List UInt8 × List UInt8)) :
    listEntries strAccount (toRecord (e, n) :: records) =
      if strAccount ≠ allAccounts ∧ e.strAccount ≠ strAccount then pure []
      else (do let entries ← listEntries strAccount records; pure (e :: entries)) := by
  conv_lhs => unfold toRecord listEntries CAccountingEntry.dbKey
  simp only [unserialize_recordKey, unserialize_account he, unserialize_dbValue he, Result.ok_bind,
    ne_eq, not_true, if_false]
  rfl

/-- The records are read up to the first one that is not in the journal. -/
theorem listEntries_eq {strAccount : List UInt8} (hacc : string.Fits strAccount)
    {records : List (List UInt8 × List UInt8)} (h : ∀ r ∈ records, Written r) :
    listEntries strAccount records =
      (records.takeWhile fun r => inJournal strAccount r.1).mapM readRecord := by
  induction records with
  | nil => rfl
  | cons r records ih =>
    have ih := ih fun r' hr' => h r' (List.mem_cons_of_mem _ hr')
    rw [List.takeWhile_cons]
    cases h r List.mem_cons_self with
    -- a record of another kind ends the journal, as its key begins with another text
    | other hty rest value =>
      rw [inJournal_recordKey hty]
      unfold listEntries
      rw [unserialize_recordKey]
      exact if_pos fun htext => hty (RecordType.text_injective htext)
    | @acentry e n he hn =>
      -- an entry belongs to the list by its account
      have hin : inJournal strAccount (toRecord (e, n)).1 = true ↔
          strAccount = allAccounts ∨ e.strAccount = strAccount := inJournal_dbKey he.strAccount hacc n
      rw [listEntries_acentry he]
      by_cases hmem : strAccount = allAccounts ∨ e.strAccount = strAccount
      · rw [if_neg (by tauto), if_pos (hin.mpr hmem), ih, List.mapM_cons, readRecord_toRecord he]
        rfl
      · rw [if_pos (by tauto), if_neg fun h => hmem (hin.mp h)]
        rfl

/-! ### The invariant -/

/-- The records of the file that are in the journal are those of the entries of the history, each with
a number of its own up to the counter. -/
structure JournalOk (db : WalletDb) (history : List CAccountingEntry) : Prop where
  written : ∀ r ∈ db.file.entries, Written r
  records : ∃ numbered : List (CAccountingEntry × ℕ), (numbered.map Prod.fst).Perm history ∧
    (db.file.entries.filter fun r => inJournal allAccounts r.1) = numbered.map toRecord ∧
    ∀ p ∈ numbered, p.1.Fits ∧ p.2 ≤ db.nAccountingEntryNumber
  number_lt : db.nAccountingEntryNumber < 2 ^ 64

/-- The account `"*"` is an account name. -/
theorem allAccounts_fits : string.Fits allAccounts := string_fits.mpr (by decide)

namespace JournalOk

variable {db : WalletDb} {history : List CAccountingEntry}

/-- An empty file has an empty journal. -/
theorem empty : JournalOk {} [] where
  written r hr := absurd hr List.not_mem_nil
  records := ⟨[], List.Perm.nil, rfl, fun p hp => absurd hp List.not_mem_nil⟩
  number_lt := by decide

/-- No record is at a key with a number that the counter has not reached. -/
theorem fresh (h : JournalOk db history) {a : List UInt8} {n : ℕ} (ha : string.Fits a)
    (hn : db.nAccountingEntryNumber < n) (hlt : n < 2 ^ 64) :
    CAccountingEntry.dbKey a n ∉ db.file.keys := by
  intro hmem
  obtain ⟨numbered, -, hrecords, hnumbers⟩ := h.records
  obtain ⟨r, hr, hkey⟩ := List.mem_map.mp hmem
  have hin : inJournal allAccounts r.1 = true := by
    rw [hkey]
    exact (inJournal_dbKey ha allAccounts_fits n).mpr (.inl rfl)
  have hfilter : r ∈ db.file.entries.filter fun r => inJournal allAccounts r.1 :=
    List.mem_filter.mpr ⟨hr, hin⟩
  rw [hrecords] at hfilter
  obtain ⟨p, hp, rfl⟩ := List.mem_map.mp hfilter
  obtain ⟨hfits, hle⟩ := hnumbers p hp
  have hp64 : uint64.Fits p.2 := uint64_fits.mpr (hle.trans_lt h.number_lt)
  obtain ⟨-, hnum⟩ :=
    CAccountingEntry.dbKey_inj hfits.strAccount ha hp64 (uint64_fits.mpr hlt) hkey
  omega

/-- The counter may go up. -/
theorem raise (h : JournalOk db history) {n : ℕ} (hle : db.nAccountingEntryNumber ≤ n)
    (hlt : n < 2 ^ 64) : JournalOk { db with nAccountingEntryNumber := n } history := by
  obtain ⟨numbered, hperm, hrecords, hnumbers⟩ := h.records
  exact
    { written := h.written
      records := ⟨numbered, hperm, hrecords, fun p hp => ⟨(hnumbers p hp).1, (hnumbers p hp).2.trans hle⟩⟩
      number_lt := hlt }

/-- An entry at a new number. -/
theorem put (h : JournalOk db history) {e : CAccountingEntry} (he : e.Fits)
    (hlt : db.nAccountingEntryNumber + 1 < 2 ^ 64) :
    JournalOk
      { file := db.file.put (CAccountingEntry.dbKey e.strAccount (db.nAccountingEntryNumber + 1)) e.dbValue
        nAccountingEntryNumber := db.nAccountingEntryNumber + 1 } (e :: history) := by
  obtain ⟨numbered, hperm, hrecords, hnumbers⟩ := h.records
  let n := db.nAccountingEntryNumber + 1
  have hfresh := h.fresh he.strAccount (Nat.lt_succ_self _) hlt
  have hin : inJournal allAccounts (CAccountingEntry.dbKey e.strAccount n) = true :=
    (inJournal_dbKey he.strAccount allAccounts_fits n).mpr (.inl rfl)
  -- the new entry stands somewhere among the others
  have hfilter := (OrderedMap.entries_put_perm hfresh e.dbValue).filter fun r => inJournal allAccounts r.1
  rw [List.filter_cons, if_pos hin, hrecords] at hfilter
  change List.Perm _ (((e, n) :: numbered).map toRecord) at hfilter
  obtain ⟨numbered', hrecords', hperm'⟩ := exists_map_eq_of_perm hfilter
  refine
    { written := ?_
      records := ⟨numbered', (hperm'.map Prod.fst).trans (hperm.cons e), ?_, ?_⟩
      number_lt := hlt }
  · intro r hr
    rcases OrderedMap.mem_entries_put hr with rfl | hr
    · exact .acentry he (uint64_fits.mpr hlt)
    · exact h.written r hr
  · exact hrecords'
  · intro p hp
    rcases List.mem_cons.mp (hperm'.mem_iff.mp hp) with rfl | hp
    · exact ⟨he, le_rfl⟩
    · exact ⟨(hnumbers p hp).1, (hnumbers p hp).2.trans (Nat.le_succ _)⟩

/-- A record of another type changes nothing in the journal. -/
theorem of_filter_eq (h : JournalOk db history) {file : WalletFile} (hw : ∀ r ∈ file.entries, Written r)
    (hfilter : (file.entries.filter fun r => inJournal allAccounts r.1) =
      db.file.entries.filter fun r => inJournal allAccounts r.1) :
    JournalOk { db with file := file } history where
  written := hw
  records := by
    obtain ⟨numbered, hperm, hrecords, hnumbers⟩ := h.records
    exact ⟨numbered, hperm, hfilter.trans hrecords, hnumbers⟩
  number_lt := h.number_lt

/-- Writing a record of another type leaves the journal alone. -/
theorem putOther (h : JournalOk db history) {ty : RecordType} (hty : ty ≠ .acentry)
    (rest value : List UInt8) :
    JournalOk { db with file := db.file.put (recordKey ty rest) value } history := by
  refine h.of_filter_eq ?_ (OrderedMap.filter_put (inJournal_recordKey hty allAccounts rest) value)
  intro r hr
  rcases OrderedMap.mem_entries_put hr with rfl | hr
  · exact .other hty rest value
  · exact h.written r hr

/-- So does erasing one. -/
theorem eraseOther (h : JournalOk db history) {ty : RecordType} (hty : ty ≠ .acentry)
    (rest : List UInt8) : JournalOk { db with file := db.file.erase (recordKey ty rest) } history :=
  h.of_filter_eq (fun r hr => h.written r (OrderedMap.mem_entries_erase hr))
    (OrderedMap.filter_erase (inJournal_recordKey hty allAccounts rest))

/-! ### Reading the journal -/

/-- All the records that were written are read back. -/
theorem mapM_readRecord {numbered : List (CAccountingEntry × ℕ)} (h : ∀ p ∈ numbered, p.1.Fits) :
    (numbered.map toRecord).mapM readRecord = .ok (numbered.map Prod.fst) := by
  induction numbered with
  | nil => rfl
  | cons p numbered ih =>
    rw [List.map_cons, List.mapM_cons, readRecord_toRecord (h p List.mem_cons_self),
      ih fun q hq => h q (List.mem_cons_of_mem _ hq)]
    rfl

/-- The cursor gives the records of the account. -/
theorem takeWhile_seek (h : JournalOk db history) {a : List UInt8} (ha : string.Fits a) :
    ((db.file.seek (journalStart a)).takeWhile fun r => inJournal a r.1) =
      db.file.entries.filter fun r => inJournal a r.1 := by
  refine OrderedMap.takeWhile_seek (inJournal_start a) ?_ fun _ _ _ => inJournal_between
  intro r hr hin
  cases h.written r hr with
  | acentry he hn => exact journalStart_le he.strAccount ha _ hin
  | other hty rest value => exact absurd hin (by rw [inJournal_recordKey hty]; exact Bool.false_ne_true)

/-- The entries of the account, each one once. -/
theorem listAccountCreditDebit (h : JournalOk db history) {a : List UInt8} (ha : string.Fits a) :
    ∃ entries, Peershares.listAccountCreditDebit db.file a = .ok entries ∧
      entries.Perm (history.filter fun e => a = allAccounts ∨ e.strAccount = a) := by
  obtain ⟨numbered, hperm, hrecords, hnumbers⟩ := h.records
  have hscan : ∀ r ∈ db.file.seek (journalStart a), Written r :=
    fun r hr => h.written r (List.dropWhile_suffix _ |>.mem hr)
  -- those of the account are among those of all accounts
  have hfilter : (db.file.entries.filter fun r => inJournal a r.1) =
      (numbered.filter fun p => a = allAccounts ∨ p.1.strAccount = a).map toRecord := by
    have hall : (db.file.entries.filter fun r => inJournal a r.1) =
        (db.file.entries.filter fun r => inJournal allAccounts r.1).filter fun r => inJournal a r.1 := by
      rw [List.filter_filter]
      refine List.filter_congr fun r _ => ?_
      by_cases hin : inJournal a r.1 = true
      · simp [hin, inJournal_all hin]
      · simp [hin]
    rw [hall, hrecords, List.filter_map]
    refine congrArg _ (List.filter_congr fun p hp => ?_)
    rw [Bool.eq_iff_iff, decide_eq_true_iff]
    exact inJournal_dbKey (hnumbers p hp).1.strAccount ha p.2
  refine ⟨(numbered.filter fun p => a = allAccounts ∨ p.1.strAccount = a).map Prod.fst, ?_, ?_⟩
  · show listEntries a (db.file.seek (journalStart a)) = _
    rw [listEntries_eq ha hscan, h.takeWhile_seek ha, hfilter]
    exact mapM_readRecord fun p hp => (hnumbers p (List.mem_of_mem_filter hp)).1
  · have hmap : (numbered.filter fun p => a = allAccounts ∨ p.1.strAccount = a).map Prod.fst =
        (numbered.map Prod.fst).filter fun e => a = allAccounts ∨ e.strAccount = a := by
      rw [List.filter_map]
      rfl
    rw [hmap]
    exact hperm.filter _

end JournalOk

/-- `GetAccountCreditDebit` adds with the wrap-around of `int64`. -/
theorem sumCreditDebit_eq (entries : List CAccountingEntry) :
    sumCreditDebit entries = (entries.map CAccountingEntry.nCreditDebit).sum.bmod (2 ^ 64) := by
  have hfold : ∀ (l : List CAccountingEntry) (n : ℤ),
      l.foldl (fun nCreditDebit entry => (nCreditDebit + entry.nCreditDebit).bmod (2 ^ 64)) (n.bmod (2 ^ 64)) =
        (n + (l.map CAccountingEntry.nCreditDebit).sum).bmod (2 ^ 64) := by
    intro l
    induction l with
    | nil =>
      intro n
      simp
    | cons e l ih =>
      intro n
      rw [List.foldl_cons, Int.bmod_add_bmod, ih, List.map_cons, List.sum_cons, add_assoc]
  have h := hfold entries 0
  rwa [Int.zero_bmod, zero_add] at h

/-- What was booked on the account. -/
def booked (a : List UInt8) (history : List CAccountingEntry) : ℤ :=
  ((history.filter fun e => e.strAccount = a).map CAccountingEntry.nCreditDebit).sum

/-- The sum that is read is what was booked, as an `int64`. -/
theorem JournalOk.getAccountCreditDebit {db : WalletDb} {history : List CAccountingEntry}
    (h : JournalOk db history) {a : List UInt8} (ha : string.Fits a) (hname : a ≠ allAccounts) :
    Peershares.getAccountCreditDebit db.file a = .ok ((booked a history).bmod (2 ^ 64)) := by
  obtain ⟨entries, hlist, hperm⟩ := h.listAccountCreditDebit ha
  have hfilter : (history.filter fun e => a = allAccounts ∨ e.strAccount = a) =
      history.filter fun e => e.strAccount = a :=
    List.filter_congr fun e _ => by simp [hname]
  rw [hfilter] at hperm
  rw [Peershares.getAccountCreditDebit, hlist, booked, ← (hperm.map _).sum_eq, ← sumCreditDebit_eq]
  rfl

/-! ### Restarts -/

/-- No journal record has a number above the counter. -/
theorem JournalOk.number_le {db : WalletDb} {history : List CAccountingEntry} (h : JournalOk db history)
    {e : CAccountingEntry} {n : ℕ} (he : e.Fits) (hn : uint64.Fits n)
    (hmem : toRecord (e, n) ∈ db.file.entries) : n ≤ db.nAccountingEntryNumber := by
  by_contra hlt
  exact h.fresh he.strAccount (not_le.mp hlt) (uint64_fits.mp hn) (List.mem_map_of_mem hmem)

/-- `LoadWallet` raises the counter to the number of each journal record. -/
theorem loadNumber_acentry {e : CAccountingEntry} {n : ℕ} (he : e.Fits) (hn : uint64.Fits n) (m : ℕ) :
    loadNumber m (toRecord (e, n)) = .ok (max m n) := by
  unfold loadNumber toRecord CAccountingEntry.dbKey
  simp only [unserialize_recordKey, unserialize_account he, unserialize_enc_end uint64 hn,
    Result.ok_bind, if_true]
  split_ifs with hgt
  · rw [max_eq_right hgt.le]
    rfl
  · rw [max_eq_left (not_lt.mp hgt)]
    rfl

/-- And passes over all other records. -/
theorem loadNumber_other {ty : RecordType} (hty : ty ≠ .acentry) (rest value : List UInt8) (m : ℕ) :
    loadNumber m (recordKey ty rest, value) = .ok m := by
  unfold loadNumber
  rw [unserialize_recordKey]
  exact if_neg fun htext => hty (RecordType.text_injective htext)

/-- The counter passes every number of the file, and none else. -/
theorem foldlM_loadNumber {records : List (List UInt8 × List UInt8)} (h : ∀ r ∈ records, Written r)
    (m N : ℕ) (hm : m ≤ N)
    (hN : ∀ e n, CAccountingEntry.Fits e → uint64.Fits n → toRecord (e, n) ∈ records → n ≤ N) :
    ∃ m', records.foldlM loadNumber m = .ok m' ∧ m ≤ m' ∧ m' ≤ N ∧
      ∀ e n, CAccountingEntry.Fits e → uint64.Fits n → toRecord (e, n) ∈ records → n ≤ m' := by
  induction records generalizing m with
  | nil => exact ⟨m, rfl, le_rfl, hm, fun e n _ _ hr => absurd hr List.not_mem_nil⟩
  | cons r records ih =>
    have hrest := fun r' hr' => h r' (List.mem_cons_of_mem r hr')
    have hNrest := fun e n he hn hr => hN e n he hn (List.mem_cons_of_mem r hr)
    cases h r List.mem_cons_self with
    | @acentry e n he hn =>
      have hle : max m n ≤ N := max_le hm (hN e n he hn List.mem_cons_self)
      obtain ⟨m', hfold, hmax, hm', hall⟩ := ih hrest (max m n) hle hNrest
      refine ⟨m', ?_, (le_max_left _ _).trans hmax, hm', ?_⟩
      · rw [List.foldlM_cons, loadNumber_acentry he hn]
        exact hfold
      · intro e' n' he' hn' hmem
        rcases List.mem_cons.mp hmem with heq | hmem
        · -- the key of the record tells its number
          have hkey := congrArg Prod.fst heq
          obtain ⟨-, rfl⟩ := CAccountingEntry.dbKey_inj he'.strAccount he.strAccount hn' hn hkey
          exact (le_max_right _ _).trans hmax
        · exact hall e' n' he' hn' hmem
    | @other ty hty rest value =>
      obtain ⟨m', hfold, hmax, hm', hall⟩ := ih hrest m hm hNrest
      refine ⟨m', ?_, hmax, hm', ?_⟩
      · rw [List.foldlM_cons, loadNumber_other hty]
        exact hfold
      · intro e' n' he' hn' hmem
        rcases List.mem_cons.mp hmem with heq | hmem
        · -- a record of another kind is no entry
          have hin := (inJournal_dbKey he'.strAccount allAccounts_fits n').mpr (.inl rfl)
          have hkey : CAccountingEntry.dbKey e'.strAccount n' = recordKey ty rest := congrArg Prod.fst heq
          rw [hkey, inJournal_recordKey hty] at hin
          exact absurd hin Bool.false_ne_true
        · exact hall e' n' he' hn' hmem

/-- After a restart the counter has passed all numbers again. -/
theorem JournalOk.loadNumbers {db : WalletDb} {history : List CAccountingEntry}
    (h : JournalOk db history) : ∃ n, Peershares.loadNumbers db.file = .ok n ∧
      n ≤ db.nAccountingEntryNumber ∧ JournalOk { db with nAccountingEntryNumber := n } history := by
  obtain ⟨n, hload, -, hle, hall⟩ := foldlM_loadNumber h.written 0 db.nAccountingEntryNumber
    (Nat.zero_le _) fun e n he hn hr => h.number_le he hn hr
  refine ⟨n, hload, hle, ?_⟩
  obtain ⟨numbered, hperm, hrecords, hnumbers⟩ := h.records
  refine
    { written := h.written
      records := ⟨numbered, hperm, hrecords, fun p hp => ⟨(hnumbers p hp).1, ?_⟩⟩
      number_lt := hle.trans_lt h.number_lt }
  have hrecord : toRecord p ∈ db.file.entries.filter fun r => inJournal allAccounts r.1 := by
    rw [hrecords]
    exact List.mem_map_of_mem hp
  exact hall p.1 p.2 (hnumbers p hp).1 (uint64_fits.mpr ((hnumbers p hp).2.trans_lt h.number_lt))
    (List.mem_of_mem_filter hrecord)

/-! ### Moves -/

/-- The history counts as a multiset. -/
theorem JournalOk.perm {db : WalletDb} {history history' : List CAccountingEntry}
    (h : JournalOk db history) (hperm : history.Perm history') : JournalOk db history' := by
  obtain ⟨numbered, hnumbered, hrest⟩ := h.records
  exact ⟨h.written, ⟨numbered, hnumbered.trans hperm, hrest⟩, h.number_lt⟩

/-- One `WriteAccountingEntry`: written or not, the counter has moved. -/
theorem JournalOk.writeAccountingEntry {db : WalletDb} {history : List CAccountingEntry}
    (h : JournalOk db history) {e : CAccountingEntry} (he : e.Fits)
    (hlt : db.nAccountingEntryNumber + 1 < 2 ^ 64) (io : Bool) :
    JournalOk (Peershares.writeAccountingEntry io e db) (if io then e :: history else history) := by
  unfold Peershares.writeAccountingEntry
  rw [Nat.mod_eq_of_lt hlt]
  cases io with
  | false => exact h.raise (Nat.le_succ _) hlt
  | true => exact h.put he hlt

/-- The counter goes up by one, also when the write fails. -/
theorem writeAccountingEntry_number {db : WalletDb} (hlt : db.nAccountingEntryNumber + 1 < 2 ^ 64)
    (io : Bool) (e : CAccountingEntry) :
    (writeAccountingEntry io e db).nAccountingEntryNumber = db.nAccountingEntryNumber + 1 :=
  Nat.mod_eq_of_lt hlt

namespace MoveParams

/-- The accounts and the amount are taken. -/
def accepted (p : MoveParams) : Bool :=
  p.strFrom ≠ allAccounts && p.strTo ≠ allAccounts && moneyRange p.nAmount

/-- A request has strings of at most `MAX_SIZE` bytes. -/
structure Fits (p : MoveParams) : Prop where
  strFrom : string.Fits p.strFrom
  strTo : string.Fits p.strTo
  strComment : string.Fits p.strComment

/-- The checks of `move` on its parameters. -/
theorem accepted_iff {p : MoveParams} : p.accepted = true ↔
    p.strFrom ≠ allAccounts ∧ p.strTo ≠ allAccounts ∧ 0 ≤ p.nAmount ∧ p.nAmount ≤ MAX_MONEY := by
  simp [accepted, moneyRange_iff, and_assoc]

variable {p : MoveParams} {nNow : ℤ}

/-- Amounts of money are 64-bit integers. -/
theorem int64_fits_of_le {i : ℤ} (h : -MAX_MONEY ≤ i ∧ i ≤ MAX_MONEY) : int64.Fits i := by
  have hmax : MAX_MONEY = 2000000000000000 := rfl
  exact int64_fits.mpr (by omega)

/-- The entries that `move` builds can be written. -/
theorem entry_fits {a b : List UInt8} {i : ℤ} (ha : string.Fits a) (hb : string.Fits b)
    (hc : string.Fits p.strComment) (hi : -MAX_MONEY ≤ i ∧ i ≤ MAX_MONEY) (hnow : int64.Fits nNow) :
    (⟨a, i, nNow, b, p.strComment⟩ : CAccountingEntry).Fits where
  strAccount := ha
  fields := by
    refine ⟨?_, int64_fits_of_le hi, hnow, hb, hc⟩
    show -(2 ^ (8 * 4) : ℤ) ≤ 2 * CLIENT_VERSION ∧ 2 * CLIENT_VERSION < 2 ^ (8 * 4)
    decide

/-- The first of them books minus the amount. -/
theorem debit_fits (h : p.Fits) (hacc : p.accepted = true) (hnow : int64.Fits nNow) :
    (p.debit nNow).Fits := by
  obtain ⟨-, -, h₀, h₁⟩ := accepted_iff.mp hacc
  exact entry_fits h.strFrom h.strTo h.strComment (by omega) hnow

/-- The second books the amount itself. -/
theorem credit_fits (h : p.Fits) (hacc : p.accepted = true) (hnow : int64.Fits nNow) :
    (p.credit nNow).Fits := by
  obtain ⟨-, -, h₀, h₁⟩ := accepted_iff.mp hacc
  exact entry_fits h.strTo h.strFrom h.strComment (by omega) hnow

end MoveParams

/-- A `move` that is refused changes nothing; otherwise it comes to the transaction. -/
theorem movecmd_eq (io : MoveIo) (nNow : ℤ) (p : MoveParams) (db : WalletDb) :
    (p.accepted = true ∧ io.txnBegin = true ∧ movecmd io nNow p db = moveTxn io nNow p db) ∨
    (¬ (p.accepted = true ∧ io.txnBegin = true) ∧ ∃ e, movecmd io nNow p db = (.error e, db)) := by
  unfold movecmd accountFromValue amountFromValue
  by_cases hfrom : p.strFrom = allAccounts
  · refine .inr ⟨fun h => (MoveParams.accepted_iff.mp h.1).1 hfrom, ?_⟩
    rw [if_pos hfrom]
    exact ⟨_, rfl⟩
  by_cases hto : p.strTo = allAccounts
  · refine .inr ⟨fun h => (MoveParams.accepted_iff.mp h.1).2.1 hto, ?_⟩
    rw [if_neg hfrom, if_pos hto]
    exact ⟨_, rfl⟩
  by_cases hrange : moneyRange p.nAmount = true
  · have hacc : p.accepted = true :=
      MoveParams.accepted_iff.mpr ⟨hfrom, hto, moneyRange_iff.mp hrange⟩
    rw [if_neg hfrom, if_neg hto, if_pos hrange]
    cases hbegin : io.txnBegin with
    | true => exact .inl ⟨hacc, rfl, rfl⟩
    | false => exact .inr ⟨fun h => Bool.false_ne_true h.2, _, rfl⟩
  · refine .inr ⟨fun h => hrange (moneyRange_iff.mpr (MoveParams.accepted_iff.mp h.1).2.2), ?_⟩
    rw [if_neg hfrom, if_neg hto, if_neg hrange]
    exact ⟨_, rfl⟩

/-! ### Runs -/

namespace WalletDbOp

/-- What the callers keep to: requests that fit, a time that is an `int64`, and other records of other
types. -/
def Wf : WalletDbOp → Prop
  | .move _ nNow p => p.Fits ∧ int64.Fits nNow
  | .write ty _ _ => ty ≠ .acentry
  | .erase ty _ => ty ≠ .acentry
  | .restart => True

def isMove : WalletDbOp → Bool
  | .move _ _ _ => true
  | _ => false

/-- Is it a `move` that returns `true`? -/
def returns : WalletDbOp → Bool
  | .move io _ p => p.accepted && io.txnBegin && io.txnCommit
  | _ => false

/-- The entries that come into the file. -/
def entries : WalletDbOp → List CAccountingEntry
  | .move io nNow p =>
    if (WalletDbOp.move io nNow p).returns then
      (if io.writeCredit then [p.credit nNow] else []) ++ (if io.writeDebit then [p.debit nNow] else [])
    else []
  | _ => []

/-- The number of `move` commands. -/
def moves (ops : List WalletDbOp) : ℕ := ops.countP isMove

end WalletDbOp

/-- **One `move`** adds its entries to the journal, or none of them. -/
theorem JournalOk.movecmd {db : WalletDb} {history : List CAccountingEntry} (h : JournalOk db history)
    (io : MoveIo) {nNow : ℤ} {p : MoveParams} (hp : p.Fits) (hnow : int64.Fits nNow)
    (hlt : db.nAccountingEntryNumber + 2 < 2 ^ 64) :
    JournalOk (Peershares.movecmd io nNow p db).2 ((WalletDbOp.move io nNow p).entries ++ history) ∧
      (Peershares.movecmd io nNow p db).2.nAccountingEntryNumber ≤ db.nAccountingEntryNumber + 2 := by
  rcases movecmd_eq io nNow p db with ⟨hacc, hbegin, heq⟩ | ⟨hrefused, e, heq⟩
  · have h₁ := h.writeAccountingEntry (p.debit_fits hp hacc hnow) (by omega) io.writeDebit
    have hnum₁ : (Peershares.writeAccountingEntry io.writeDebit (p.debit nNow) db).nAccountingEntryNumber =
        db.nAccountingEntryNumber + 1 := writeAccountingEntry_number (by omega) _ _
    have h₂ := h₁.writeAccountingEntry (p.credit_fits hp hacc hnow) (by omega) io.writeCredit
    have hnum₂ : (Peershares.writeAccountingEntry io.writeCredit (p.credit nNow)
        (Peershares.writeAccountingEntry io.writeDebit (p.debit nNow) db)).nAccountingEntryNumber =
        db.nAccountingEntryNumber + 1 + 1 := by
      rw [writeAccountingEntry_number (by omega), hnum₁]
    have hreturns : (WalletDbOp.move io nNow p).returns = io.txnCommit := by
      simp [WalletDbOp.returns, hacc, hbegin]
    rw [heq, WalletDbOp.entries, hreturns]
    unfold moveTxn
    cases hcommit : io.txnCommit with
    | true =>
      refine ⟨h₂.perm ?_, hnum₂.le⟩
      cases io.writeCredit <;> cases io.writeDebit <;> exact List.Perm.refl _
    | false =>
      -- the records are those from before, the counter is not
      refine ⟨h.raise ?_ ?_, hnum₂.le⟩
      · rw [hnum₂]
        omega
      · rw [hnum₂]
        exact hlt
  · have hreturns : (WalletDbOp.move io nNow p).returns = false := by
      simp only [WalletDbOp.returns, Bool.and_eq_false_iff]
      cases hacc : p.accepted <;> cases hbegin : io.txnBegin <;> simp_all
    rw [heq, WalletDbOp.entries, hreturns]
    exact ⟨h, Nat.le_add_right _ _⟩

/-- One operation. -/
theorem JournalOk.exec {db : WalletDb} {history : List CAccountingEntry} (h : JournalOk db history)
    {op : WalletDbOp} (hwf : op.Wf)
    (hlt : db.nAccountingEntryNumber + 2 * WalletDbOp.moves [op] < 2 ^ 64) :
    ∃ db', op.exec db = .ok db' ∧ JournalOk db' (op.entries ++ history) ∧
      db'.nAccountingEntryNumber ≤ db.nAccountingEntryNumber + 2 * WalletDbOp.moves [op] := by
  cases op with
  | move io nNow p =>
    obtain ⟨hok, hle⟩ := h.movecmd io hwf.1 hwf.2 hlt
    exact ⟨_, rfl, hok, hle⟩
  | write ty rest value => exact ⟨_, rfl, h.putOther hwf rest value, le_rfl⟩
  | erase ty rest => exact ⟨_, rfl, h.eraseOther hwf rest, le_rfl⟩
  | restart =>
    obtain ⟨n, hload, hle, hok⟩ := h.loadNumbers
    refine ⟨_, ?_, hok, hle⟩
    rw [WalletDbOp.exec, hload]
    rfl

/-- A row of operations: the file has the entries of all of them. -/
theorem JournalOk.foldlM {db : WalletDb} {history : List CAccountingEntry} (h : JournalOk db history)
    {ops : List WalletDbOp} (hwf : ∀ op ∈ ops, op.Wf)
    (hlt : db.nAccountingEntryNumber + 2 * WalletDbOp.moves ops < 2 ^ 64) :
    ∃ db', ops.foldlM WalletDbOp.exec db = .ok db' ∧
      JournalOk db' (ops.flatMap WalletDbOp.entries ++ history) ∧
      db'.nAccountingEntryNumber ≤ db.nAccountingEntryNumber + 2 * WalletDbOp.moves ops := by
  induction ops generalizing db history with
  | nil => exact ⟨db, rfl, h, le_rfl⟩
  | cons op ops ih =>
    have hsplit : WalletDbOp.moves ([op] ++ ops) = WalletDbOp.moves [op] + WalletDbOp.moves ops :=
      List.countP_append
    rw [List.singleton_append] at hsplit
    obtain ⟨db₁, hexec, h₁, hle₁⟩ := h.exec (hwf op List.mem_cons_self) (by omega)
    obtain ⟨db₂, hfold, h₂, hle₂⟩ := ih h₁ (fun op' hop' => hwf op' (List.mem_cons_of_mem _ hop')) (by omega)
    refine ⟨db₂, ?_, h₂.perm ?_, by omega⟩
    · rw [List.foldlM_cons, hexec]
      exact hfold
    · rw [List.flatMap_cons, ← List.append_assoc]
      exact List.perm_append_comm.append_right history

/-- Every run from an empty file. -/
theorem runWalletDb_ok {ops : List WalletDbOp} (hwf : ∀ op ∈ ops, op.Wf)
    (hlt : 2 * WalletDbOp.moves ops < 2 ^ 64) :
    ∃ db, runWalletDb ops = .ok db ∧ JournalOk db (ops.flatMap WalletDbOp.entries) ∧
      db.nAccountingEntryNumber ≤ 2 * WalletDbOp.moves ops := by
  obtain ⟨db, hrun, hok, hle⟩ := JournalOk.empty.foldlM hwf (by simpa using hlt)
  rw [List.append_nil] at hok
  exact ⟨db, hrun, hok, by simpa using hle⟩

/-! ### Sums -/

/-- What is booked adds up over two histories. -/
theorem booked_append (a : List UInt8) (l l' : List CAccountingEntry) :
    booked a (l ++ l') = booked a l + booked a l' := by
  unfold booked
  rw [List.filter_append, List.map_append, List.sum_append]

/-- An entry that may be missing. -/
theorem booked_ite (a : List UInt8) (b : Bool) (e : CAccountingEntry) :
    booked a (if b then [e] else []) = if b = true ∧ e.strAccount = a then e.nCreditDebit else 0 := by
  unfold booked
  cases b with
  | false => simp
  | true => by_cases h : e.strAccount = a <;> simp [h]

namespace WalletDbOp

/-- The amount that comes into the account. -/
def into (a : List UInt8) : WalletDbOp → ℤ
  | .move io nNow p => if (WalletDbOp.move io nNow p).returns ∧ p.strTo = a then p.nAmount else 0
  | _ => 0

/-- The amount that goes out of the account. -/
def outOf (a : List UInt8) : WalletDbOp → ℤ
  | .move io nNow p => if (WalletDbOp.move io nNow p).returns ∧ p.strFrom = a then p.nAmount else 0
  | _ => 0

/-- What was moved into the account, less what was moved out of it. -/
def net (a : List UInt8) (ops : List WalletDbOp) : ℤ :=
  (ops.map (into a)).sum - (ops.map (outOf a)).sum

/-- Both entries of a `move` are written, or none is and it moves nothing from one account to another. -/
def Even : WalletDbOp → Prop
  | .move io nNow p => (WalletDbOp.move io nNow p).returns = true →
      (io.writeDebit = true ∧ io.writeCredit = true) ∨ p.nAmount = 0 ∨
        (p.strFrom = p.strTo ∧ io.writeDebit = io.writeCredit)
  | _ => True

/-- An even command books what it moves into the account less what it moves out. -/
theorem booked_entries {op : WalletDbOp} (h : op.Even) (a : List UInt8) :
    booked a op.entries = op.into a - op.outOf a := by
  cases op with
  | write ty rest value => rfl
  | erase ty rest => rfl
  | restart => rfl
  | move io nNow p =>
    cases hreturns : (WalletDbOp.move io nNow p).returns with
    | false => simp [entries, into, outOf, hreturns, booked]
    | true =>
      have hbooked : booked a (entries (.move io nNow p)) =
          (if io.writeCredit = true ∧ p.strTo = a then p.nAmount else 0) -
            (if io.writeDebit = true ∧ p.strFrom = a then p.nAmount else 0) := by
        rw [entries, hreturns, if_pos rfl, booked_append, booked_ite, booked_ite]
        unfold MoveParams.credit MoveParams.debit
        split_ifs <;> ring
      rw [hbooked, into, outOf, hreturns]
      rcases h hreturns with ⟨hdebit, hcredit⟩ | hzero | ⟨heq, hsame⟩
      · simp [hdebit, hcredit]
      · simp [hzero]
      · simp [heq, hsame]

/-- The net amount of a run, command by command. -/
theorem net_cons (a : List UInt8) (op : WalletDbOp) (ops : List WalletDbOp) :
    net a (op :: ops) = (op.into a - op.outOf a) + net a ops := by
  unfold net
  simp only [List.map_cons, List.sum_cons]
  ring

/-- The same for the run as a whole. -/
theorem booked_flatMap {ops : List WalletDbOp} (h : ∀ op ∈ ops, op.Even) (a : List UInt8) :
    booked a (ops.flatMap entries) = net a ops := by
  induction ops with
  | nil => rfl
  | cons op ops ih =>
    rw [List.flatMap_cons, booked_append, booked_entries (h op List.mem_cons_self),
      ih fun op' hop' => h op' (List.mem_cons_of_mem _ hop'), net_cons]

end WalletDbOp

/-- An amount that an `int64` can hold. -/
def InInt64 (n : ℤ) : Prop := -2 ^ 63 ≤ n ∧ n < 2 ^ 63

/-- Reduced modulo `2 ^ 64` exactly the 64-bit integers stay as they are. -/
theorem bmod_eq_self_iff {n : ℤ} : n.bmod (2 ^ 64) = n ↔ InInt64 n := by
  unfold InInt64
  constructor
  · intro h
    have hlow := Int.le_bmod (x := n) (m := 2 ^ 64) (by norm_num)
    have hhigh := Int.bmod_lt (x := n) (m := 2 ^ 64) (by norm_num)
    rw [h] at hlow hhigh
    norm_num at hlow hhigh
    omega
  · rintro ⟨hlow, hhigh⟩
    exact Int.bmod_eq_of_le_mul_two (by push_cast; omega) (by push_cast; omega)

/-! ### Results -/

/-- The database has done all of a `move`. -/
def WalletDbOp.Succeeds : WalletDbOp → Prop
  | .move io _ _ => io = {}
  | _ => True

/-- A `move` that commits both its entries is even. -/
theorem WalletDbOp.Succeeds.even {op : WalletDbOp} (h : op.Succeeds) : op.Even := by
  cases op with
  | move io nNow p =>
    cases h
    exact fun _ => .inl ⟨rfl, rfl⟩
  | write ty rest value => trivial
  | erase ty rest => trivial
  | restart => trivial

/-- The entries of the `move` commands that return `true`. -/
def WalletDbOp.booking : WalletDbOp → List CAccountingEntry
  | .move io nNow p =>
    if (WalletDbOp.move io nNow p).returns then [p.credit nNow, p.debit nNow] else []
  | _ => []

/-- It writes the booking it stands for. -/
theorem WalletDbOp.Succeeds.entries_eq {op : WalletDbOp} (h : op.Succeeds) : op.entries = op.booking := by
  cases op with
  | move io nNow p =>
    cases h
    rfl
  | write ty rest value => rfl
  | erase ty rest => rfl
  | restart => rfl

/-- As long as less than `2 ^ 63` commands were given: an entry is written at a key where nothing is, all
entries are listed, each one once, and the journal of an account has the amount that was moved into it,
less the amount that was moved out, if and only if that is an `int64`. -/
theorem journal_exact {ops : List WalletDbOp} (hwf : ∀ op ∈ ops, op.Wf) (hio : ∀ op ∈ ops, op.Succeeds)
    (hmoves : 2 * WalletDbOp.moves ops < 2 ^ 64) :
    ∃ db, runWalletDb ops = .ok db ∧
      (∀ a n, string.Fits a → db.nAccountingEntryNumber < n → n < 2 ^ 64 →
        CAccountingEntry.dbKey a n ∉ db.file.keys) ∧
      (∃ entries, listAccountCreditDebit db.file allAccounts = .ok entries ∧
        entries.Perm (ops.flatMap WalletDbOp.booking)) ∧
      ∀ a, string.Fits a → a ≠ allAccounts → ∃ nCreditDebit,
        getAccountCreditDebit db.file a = .ok nCreditDebit ∧
        (nCreditDebit = WalletDbOp.net a ops ↔ InInt64 (WalletDbOp.net a ops)) := by
  obtain ⟨db, hrun, hok, -⟩ := runWalletDb_ok hwf hmoves
  refine ⟨db, hrun, fun a n ha hn hlt => hok.fresh ha hn hlt, ?_, ?_⟩
  · obtain ⟨entries, hlist, hperm⟩ := hok.listAccountCreditDebit allAccounts_fits
    refine ⟨entries, hlist, ?_⟩
    rw [List.filter_eq_self.mpr (by simp)] at hperm
    rwa [List.flatMap_congr fun op hop => (hio op hop).entries_eq] at hperm
  · intro a ha hname
    refine ⟨_, hok.getAccountCreditDebit ha hname, ?_⟩
    rw [WalletDbOp.booked_flatMap fun op hop => (hio op hop).even]
    exact bmod_eq_self_iff

namespace Journal.Sample

/-- From the account `a` to the account `b`. -/
def transfer (nAmount : ℤ) : WalletDbOp := .move {} 0 ⟨[97], [98], nAmount, []⟩

/-- The account `b` of the sample runs. -/
theorem fits_b : string.Fits [98] := string_fits.mpr (by decide)

/-- The sample command has parameters that can be written. -/
theorem transfer_wf (nAmount : ℤ) : (transfer nAmount).Wf :=
  ⟨⟨string_fits.mpr (by simp [MAX_SIZE]), fits_b, string_fits.mpr (Nat.zero_le _)⟩,
    int64_fits.mpr (by decide)⟩

/-- A row of equal transfers moves their sum. -/
theorem net_transfers {nAmount : ℤ} (h : moneyRange nAmount = true) (n : ℕ) :
    WalletDbOp.net [98] (List.replicate n (transfer nAmount)) = n * nAmount := by
  have hinto : (transfer nAmount).into [98] = nAmount := by
    simp [transfer, WalletDbOp.into, WalletDbOp.returns, MoveParams.accepted, h, allAccounts]
  have hout : (transfer nAmount).outOf [98] = 0 := by
    simp [transfer, WalletDbOp.outOf]
  unfold WalletDbOp.net
  simp [List.map_replicate, hinto, hout]

/-- And counts as many moves. -/
theorem moves_transfers (nAmount : ℤ) (n : ℕ) :
    WalletDbOp.moves (List.replicate n (transfer nAmount)) = n := by
  unfold WalletDbOp.moves
  rw [List.countP_replicate]
  rfl

end Journal.Sample

open Journal.Sample in

/-- One transfer and a restart. -/
theorem journal_exact_transfer : ∃ db, runWalletDb [transfer 5, .restart] = .ok db ∧
    getAccountCreditDebit db.file [98] = .ok 5 := by
  have hnet : WalletDbOp.net [98] [transfer 5, .restart] = 5 := by decide
  have hops : ∀ op ∈ [transfer 5, .restart], op.Wf ∧ op.Succeeds :=
    List.forall_mem_cons.mpr ⟨⟨transfer_wf 5, rfl⟩, List.forall_mem_singleton.mpr ⟨trivial, trivial⟩⟩
  obtain ⟨db, hrun, -, -, hsums⟩ := journal_exact (fun op hop => (hops op hop).1)
    (fun op hop => (hops op hop).2) (by decide)
  obtain ⟨nCreditDebit, hget, hiff⟩ := hsums [98] fits_b (by decide)
  rw [hnet] at hiff
  rw [hiff.mpr (by unfold InInt64; decide)] at hget
  exact ⟨db, hrun, hget⟩

open Journal.Sample in
/-- With all that there can be moved, again and again, the sum gets too large. -/
theorem getAccountCreditDebit_overflow :
    ∃ ops db, (∀ op ∈ ops, op.Wf ∧ op.Succeeds) ∧ runWalletDb ops = .ok db ∧
      getAccountCreditDebit db.file [98] ≠ .ok (WalletDbOp.net [98] ops) := by
  have hops : ∀ op ∈ List.replicate 4612 (transfer MAX_MONEY), op.Wf ∧ op.Succeeds := by
    intro op hop
    rw [List.eq_of_mem_replicate hop]
    exact ⟨transfer_wf MAX_MONEY, rfl⟩
  obtain ⟨db, hrun, hok, -⟩ := runWalletDb_ok (fun op hop => (hops op hop).1)
    (by rw [moves_transfers]; norm_num)
  refine ⟨_, db, hops, hrun, ?_⟩
  rw [hok.getAccountCreditDebit fits_b (by decide),
    WalletDbOp.booked_flatMap fun op hop => (hops op hop).2.even, net_transfers (by decide)]
  intro heq
  have hfits := bmod_eq_self_iff.mp (Except.ok.inj heq)
  exact absurd hfits.2 (by decide)

/-! ### Moves are atomic -/

namespace WalletDbOp

/-- The accounts of a `move` that returns `true`. -/
def accounts : WalletDbOp → Finset (List UInt8)
  | .move io nNow p => if (WalletDbOp.move io nNow p).returns then {p.strFrom, p.strTo} else ∅
  | _ => ∅

/-- What comes into one account goes out of another one. -/
theorem sum_into_sub_outOf {op : WalletDbOp} {S : Finset (List UInt8)} (h : op.accounts ⊆ S) :
    ∑ a ∈ S, (op.into a - op.outOf a) = 0 := by
  cases op with
  | write ty rest value => simp [into, outOf]
  | erase ty rest => simp [into, outOf]
  | restart => simp [into, outOf]
  | move io nNow p =>
    cases hreturns : (WalletDbOp.move io nNow p).returns with
    | false => simp [into, outOf, hreturns]
    | true =>
      rw [accounts, hreturns, if_pos rfl, Finset.insert_subset_iff, Finset.singleton_subset_iff] at h
      simp only [into, outOf, hreturns, true_and]
      rw [Finset.sum_sub_distrib, Finset.sum_ite_eq, Finset.sum_ite_eq, if_pos h.1, if_pos h.2, sub_self]

/-- Over all accounts together a run moves nothing. -/
theorem sum_net {ops : List WalletDbOp} {S : Finset (List UInt8)} (h : ∀ op ∈ ops, op.accounts ⊆ S) :
    ∑ a ∈ S, net a ops = 0 := by
  induction ops with
  | nil => simp [net]
  | cons op ops ih =>
    simp only [net_cons]
    rw [Finset.sum_add_distrib, sum_into_sub_outOf (h op List.mem_cons_self),
      ih fun op' hop' => h op' (List.mem_cons_of_mem _ hop'), add_zero]

/-- The net amount of a run with one more command. -/
theorem net_append_singleton (a : List UInt8) (ops : List WalletDbOp) (op : WalletDbOp) :
    net a (ops ++ [op]) = net a ops + (op.into a - op.outOf a) := by
  unfold net
  simp only [List.map_append, List.sum_append, List.map_cons, List.map_nil, List.sum_cons, List.sum_nil]
  ring

end WalletDbOp

/-- The database part of `move` commits, or it fails and leaves the file as it was. -/
theorem moveTxn_eq (io : MoveIo) (nNow : ℤ) (p : MoveParams) (db : WalletDb) :
    (io.txnCommit = true ∧ (moveTxn io nNow p db).1 = .ok true) ∨
      (io.txnCommit = false ∧ ∃ e, (moveTxn io nNow p db).1 = .error e ∧ (moveTxn io nNow p db).2.file = db.file) := by
  unfold moveTxn
  cases io.txnCommit with
  | true => exact .inl ⟨rfl, rfl⟩
  | false => exact .inr ⟨rfl, _, rfl, rfl⟩

/-- A `move` returns `true`, or it throws and the file is as before. -/
theorem movecmd_result (io : MoveIo) (nNow : ℤ) (p : MoveParams) (db : WalletDb) :
    ((WalletDbOp.move io nNow p).returns = true ∧ (movecmd io nNow p db).1 = .ok true) ∨
      ((WalletDbOp.move io nNow p).returns = false ∧ ∃ e, (movecmd io nNow p db).1 = .error e ∧
        (movecmd io nNow p db).2.file = db.file) := by
  have hreturns : (WalletDbOp.move io nNow p).returns = (p.accepted && io.txnBegin && io.txnCommit) := rfl
  rw [hreturns]
  rcases movecmd_eq io nNow p db with ⟨hacc, hbegin, heq⟩ | ⟨hrefused, e, heq⟩
  · rw [heq, hacc, hbegin]
    exact moveTxn_eq io nNow p db
  · rw [heq]
    refine .inr ⟨?_, e, rfl, rfl⟩
    rw [← Bool.not_eq_true, Bool.and_eq_true, Bool.and_eq_true]
    exact fun h => hrefused h.1

/-- A run in which each `move` is even, and one more of them. If it throws the sums are as before; if it
returns `true` the amount has gone from the one account to the other. All accounts together have
nothing. -/
theorem movecmd_atomic {ops : List WalletDbOp} (hwf : ∀ op ∈ ops, op.Wf) (heven : ∀ op ∈ ops, op.Even)
    (hmoves : 2 * (WalletDbOp.moves ops + 1) < 2 ^ 64) (hfits : ∀ a, InInt64 (WalletDbOp.net a ops)) :
    ∃ db, runWalletDb ops = .ok db ∧
      (∀ S : Finset (List UInt8), (∀ a ∈ S, string.Fits a ∧ a ≠ allAccounts) →
        (∀ op ∈ ops, op.accounts ⊆ S) → ∃ sums : List UInt8 → ℤ,
          (∀ a ∈ S, getAccountCreditDebit db.file a = .ok (sums a)) ∧ ∑ a ∈ S, sums a = 0) ∧
      ∀ io nNow p, (WalletDbOp.move io nNow p).Wf → (WalletDbOp.move io nNow p).Even →
        (∀ a, InInt64 (WalletDbOp.net a (ops ++ [.move io nNow p]))) →
        ((∃ e, (movecmd io nNow p db).1 = .error e) ∧ ∀ a, string.Fits a → a ≠ allAccounts →
          getAccountCreditDebit (movecmd io nNow p db).2.file a = getAccountCreditDebit db.file a) ∨
        ((movecmd io nNow p db).1 = .ok true ∧ ∀ a, string.Fits a → a ≠ allAccounts → ∃ nCreditDebit,
          getAccountCreditDebit db.file a = .ok nCreditDebit ∧
          getAccountCreditDebit (movecmd io nNow p db).2.file a =
            .ok (nCreditDebit + (if p.strTo = a then p.nAmount else 0)
              - (if p.strFrom = a then p.nAmount else 0))) := by
  obtain ⟨db, hrun, hok, hle⟩ := runWalletDb_ok hwf (by omega)
  -- before the `move` every account has what it was given, for the total fits
  have hget : ∀ a, string.Fits a → a ≠ allAccounts →
      getAccountCreditDebit db.file a = .ok (WalletDbOp.net a ops) := by
    intro a ha hname
    rw [hok.getAccountCreditDebit ha hname, WalletDbOp.booked_flatMap heven]
    rw [bmod_eq_self_iff.mpr (hfits a)]
  refine ⟨db, hrun, ?_, ?_⟩
  · intro S hS hcover
    exact ⟨fun a => WalletDbOp.net a ops, fun a ha => hget a (hS a ha).1 (hS a ha).2,
      WalletDbOp.sum_net hcover⟩
  · intro io nNow p hwf' heven' hfits'
    rcases movecmd_result io nNow p db with ⟨hreturns, hres⟩ | ⟨-, e, hres, hfile⟩
    · refine .inr ⟨hres, fun a ha hname => ⟨_, hget a ha hname, ?_⟩⟩
      -- both entries are written, and the total still fits
      obtain ⟨hok', -⟩ := hok.movecmd io hwf'.1 hwf'.2 (by omega)
      have hnet := WalletDbOp.net_append_singleton a ops (.move io nNow p)
      rw [hok'.getAccountCreditDebit ha hname, booked_append, WalletDbOp.booked_entries heven',
        WalletDbOp.booked_flatMap heven, add_comm, ← hnet, bmod_eq_self_iff.mpr (hfits' a), hnet,
        WalletDbOp.into, WalletDbOp.outOf, hreturns]
      simp only [true_and, add_sub_assoc]
    · exact .inl ⟨⟨e, hres⟩, fun a _ _ => by rw [hfile]⟩

open Journal.Sample in

/-- A move of 3 after a transfer of 5. -/
theorem movecmd_atomic_transfer : ∃ db nCreditDebit, runWalletDb [transfer 5] = .ok db ∧
    (movecmd {} 0 ⟨[97], [98], 3, []⟩ db).1 = .ok true ∧
    getAccountCreditDebit db.file [98] = .ok nCreditDebit ∧
    getAccountCreditDebit (movecmd {} 0 ⟨[97], [98], 3, []⟩ db).2.file [98] = .ok (nCreditDebit + 3) := by
  have hops : ∀ op ∈ [transfer 5], op.Wf ∧ op.Succeeds :=
    List.forall_mem_singleton.mpr ⟨transfer_wf 5, rfl⟩
  have hsmall : ∀ (n : ℤ) (a : List UInt8), 0 ≤ n → n ≤ 5 → (transfer n).into a - (transfer n).outOf a ≤ 5 ∧
      -5 ≤ (transfer n).into a - (transfer n).outOf a := by
    intro n a h₀ h₅
    simp only [transfer, WalletDbOp.into, WalletDbOp.outOf]
    split_ifs <;> omega
  -- neither account leaves the range
  have hfits : ∀ a, InInt64 (WalletDbOp.net a [transfer 5]) := by
    intro a
    have h := hsmall 5 a (by norm_num) le_rfl
    rw [WalletDbOp.net_cons]
    simp only [WalletDbOp.net, List.map_nil, List.sum_nil, sub_self, add_zero, InInt64]
    omega
  have hfits' : ∀ a, InInt64 (WalletDbOp.net a ([transfer 5] ++ [transfer 3])) := by
    intro a
    have h := hsmall 5 a (by norm_num) le_rfl
    have h' := hsmall 3 a (by norm_num) (by norm_num)
    rw [WalletDbOp.net_append_singleton, WalletDbOp.net_cons]
    simp only [WalletDbOp.net, List.map_nil, List.sum_nil, sub_self, add_zero, InInt64]
    omega
  obtain ⟨db, hrun, -, hmove⟩ := movecmd_atomic (fun op hop => (hops op hop).1)
    (fun op hop => (hops op hop).2.even) (by decide) hfits
  rcases hmove {} 0 ⟨[97], [98], 3, []⟩ (transfer_wf 3) (fun _ => .inl ⟨rfl, rfl⟩) hfits' with
    ⟨⟨e, he⟩, -⟩ | ⟨hres, hsums⟩
  · -- every database call succeeds, so the `move` is not refused
    rcases movecmd_result {} 0 ⟨[97], [98], 3, []⟩ db with ⟨-, hres⟩ | ⟨hreturns, -⟩
    · rw [hres] at he
      cases he
    · exact absurd hreturns (by decide)
  · obtain ⟨nCreditDebit, hbefore, hafter⟩ := hsums [98] fits_b (by decide)
    refine ⟨db, nCreditDebit, hrun, hres, hbefore, ?_⟩
    rw [hafter, if_pos rfl, if_neg (by decide), sub_zero]

open Journal.Sample in
/-- The debit cannot be written, the credit can: `true` is returned. -/
theorem movecmd_half_written :
    ∃ db', movecmd { writeDebit := false } 0 ⟨[97], [98], 1, []⟩ {} = (.ok true, db') ∧
      getAccountCreditDebit ({} : WalletDb).file [97] = .ok 0 ∧
      getAccountCreditDebit db'.file [97] = .ok 0 ∧ getAccountCreditDebit db'.file [98] = .ok 1 := by
  have ha : string.Fits [97] := string_fits.mpr (by decide)
  obtain ⟨hok, -⟩ := JournalOk.empty.movecmd { writeDebit := false } (transfer_wf 1).1 (transfer_wf 1).2
    (by decide)
  refine ⟨_, rfl, ?_, ?_, ?_⟩
  · exact JournalOk.empty.getAccountCreditDebit ha (by decide)
  · exact hok.getAccountCreditDebit ha (by decide)
  · exact hok.getAccountCreditDebit fits_b (by decide)

end Peershares
