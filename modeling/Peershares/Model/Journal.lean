import Peershares.Framework.Command
import Peershares.Framework.OrderedMap
import Peershares.Model.Serialize

/-!
# The accounting journal

`move` books an amount from one account to another: it writes two `CAccountingEntry` records into the
wallet file, in one database transaction. The journal of an account is read back with a cursor, from
the first key that can belong to the account up to the first key that does not.

The wallet file is a map from serialized keys to serialized values, ordered bytewise by the key. It is
used by all other records of the wallet too. `nAccountingEntryNumber`, the counter in the keys of the
journal, is a static variable: it is zero when the process starts, and `LoadWallet` sets it to the
greatest number in the file.

The answers of the database in one `move` are those of a `MoveIo`. The cursor always works.
-/

open Framework

namespace Peershares

/-! ### Records of the wallet file -/

/-- The types of records in `wallet.dat`. -/
inductive RecordType where
  | name | tx | acc | acentry | key | wkey | ckey | mkey | cscript | bestblock | defaultkey | pool
  | setting | minversion | version
deriving DecidableEq, Repr

/-- `strType`, in ASCII. -/
def RecordType.text : RecordType → List UInt8
  | .name => [110, 97, 109, 101]
  | .tx => [116, 120]
  | .acc => [97, 99, 99]
  | .acentry => [97, 99, 101, 110, 116, 114, 121]
  | .key => [107, 101, 121]
  | .wkey => [119, 107, 101, 121]
  | .ckey => [99, 107, 101, 121]
  | .mkey => [109, 107, 101, 121]
  | .cscript => [99, 115, 99, 114, 105, 112, 116]
  | .bestblock => [98, 101, 115, 116, 98, 108, 111, 99, 107]
  | .defaultkey => [100, 101, 102, 97, 117, 108, 116, 107, 101, 121]
  | .pool => [112, 111, 111, 108]
  | .setting => [115, 101, 116, 116, 105, 110, 103]
  | .minversion => [109, 105, 110, 118, 101, 114, 115, 105, 111, 110]
  | .version => [118, 101, 114, 115, 105, 111, 110]

/-- The key of a record: the type, and what identifies the record among those of the type. -/
def recordKey (ty : RecordType) (rest : List UInt8) : List UInt8 := string.enc ty.text ++ rest

abbrev WalletFile := OrderedMap (List UInt8) (List UInt8)

/-- `CAccountingEntry`. -/
structure CAccountingEntry where
  strAccount : List UInt8
  nCreditDebit : Int
  nTime : Int
  strOtherAccount : List UInt8
  strComment : List UInt8
deriving DecidableEq, Repr

namespace CAccountingEntry

/-- The fields that are in the value of the record, with the version in front. -/
abbrev Fields := Int × Int × Int × List UInt8 × List UInt8

def fields : Codec Fields := int32.pair (int64.pair (int64.pair (string.pair string)))

def toFields (acentry : CAccountingEntry) : Fields :=
  (CLIENT_VERSION, acentry.nCreditDebit, acentry.nTime, acentry.strOtherAccount, acentry.strComment)

def ofFields (strAccount : List UInt8) : Fields → CAccountingEntry
  | (_, nCreditDebit, nTime, strOtherAccount, strComment) =>
    ⟨strAccount, nCreditDebit, nTime, strOtherAccount, strComment⟩

/-- `("acentry", strAccount, nNumber)`. -/
def dbKey (strAccount : List UInt8) (nNumber : Nat) : List UInt8 :=
  recordKey .acentry (string.enc strAccount ++ uint64.enc nNumber)

def dbValue (acentry : CAccountingEntry) : List UInt8 := fields.enc acentry.toFields

end CAccountingEntry

/-! ### The journal of an account -/

/-- The `"*"` that stands for all accounts. -/
def allAccounts : List UInt8 := [42]

/-- The loop of `ListAccountCreditDebit`, over the records the cursor gives. -/
def listEntries (strAccount : List UInt8) :
    List (List UInt8 × List UInt8) → Result (List CAccountingEntry)
  | [] => pure []
  | (ssKey, ssValue) :: records => do
    let (strType, ssKey) ← unserialize string ssKey
    if strType ≠ RecordType.acentry.text then pure []
    else do
      let (account, _) ← unserialize string ssKey
      if strAccount ≠ allAccounts ∧ account ≠ strAccount then pure []
      else do
        let (fields, _) ← unserialize CAccountingEntry.fields ssValue
        let entries ← listEntries strAccount records
        pure (CAccountingEntry.ofFields account fields :: entries)

/-- `ListAccountCreditDebit`. -/
def listAccountCreditDebit (file : WalletFile) (strAccount : List UInt8) :
    Result (List CAccountingEntry) :=
  listEntries strAccount
    (file.seek (CAccountingEntry.dbKey (if strAccount = allAccounts then [] else strAccount) 0))

/-- The sum of the entries, in an `int64`. -/
def sumCreditDebit (entries : List CAccountingEntry) : Int :=
  entries.foldl (fun nCreditDebit entry => (nCreditDebit + entry.nCreditDebit).bmod (2 ^ 64)) 0

/-- `GetAccountCreditDebit`. -/
def getAccountCreditDebit (file : WalletFile) (strAccount : List UInt8) : Result Int := do
  let entries ← listAccountCreditDebit file strAccount
  pure (sumCreditDebit entries)

/-! ### Commands -/

/-- The wallet file, and the counter of the process. -/
structure WalletDb where
  file : WalletFile := OrderedMap.empty
  nAccountingEntryNumber : Nat := 0

/-- An error of the RPC server. -/
structure JSONRPCError where
  code : Int
  message : String
deriving DecidableEq, Repr

/-- The answers of the database in one `move`. -/
structure MoveIo where
  txnBegin : Bool := true
  writeDebit : Bool := true
  writeCredit : Bool := true
  txnCommit : Bool := true
deriving DecidableEq, Repr

/-- `WriteAccountingEntry`. The counter goes up also when the record is not written, and the answer of
the database is not looked at. -/
def writeAccountingEntry (io : Bool) (acentry : CAccountingEntry) (db : WalletDb) : WalletDb :=
  let nNumber := (db.nAccountingEntryNumber + 1) % 2 ^ 64
  { file := if io then db.file.put (CAccountingEntry.dbKey acentry.strAccount nNumber) acentry.dbValue
      else db.file
    nAccountingEntryNumber := nNumber }

/-- The parameters of `move`. The amount is `roundint64(dAmount * COIN)`; an amount out of range stands
for one that is not positive, too. -/
structure MoveParams where
  strFrom : List UInt8
  strTo : List UInt8
  nAmount : Int
  strComment : List UInt8
deriving DecidableEq, Repr

namespace MoveParams

def debit (p : MoveParams) (nNow : Int) : CAccountingEntry :=
  ⟨p.strFrom, -p.nAmount, nNow, p.strTo, p.strComment⟩

def credit (p : MoveParams) (nNow : Int) : CAccountingEntry :=
  ⟨p.strTo, p.nAmount, nNow, p.strFrom, p.strComment⟩

end MoveParams

/-- `AccountFromValue`. -/
def accountFromValue (strAccount : List UInt8) : Command WalletDb JSONRPCError Unit :=
  if strAccount = allAccounts then Command.fail ⟨-11, "Invalid account name"⟩ else pure ()

/-- `AmountFromValue`. -/
def amountFromValue (nAmount : Int) : Command WalletDb JSONRPCError Unit :=
  if moneyRange nAmount then pure () else Command.fail ⟨-3, "Invalid amount"⟩

/-- The part of `move` after `TxnBegin`. What was written is dropped when it is not committed. -/
def moveTxn (io : MoveIo) (nNow : Int) (p : MoveParams) : Command WalletDb JSONRPCError Bool := fun db =>
  let db' := writeAccountingEntry io.writeCredit (p.credit nNow)
    (writeAccountingEntry io.writeDebit (p.debit nNow) db)
  if io.txnCommit then (.ok true, db')
  else (.error ⟨-20, "database error"⟩, { db' with file := db.file })

/-- `move`. -/
def movecmd (io : MoveIo) (nNow : Int) (p : MoveParams) : Command WalletDb JSONRPCError Bool := do
  accountFromValue p.strFrom
  accountFromValue p.strTo
  amountFromValue p.nAmount
  if io.txnBegin then moveTxn io nNow p else Command.fail ⟨-20, "database error"⟩

/-! ### Restarts -/

/-- What `LoadWallet` does with the counter at one record. -/
def loadNumber (nAccountingEntryNumber : Nat) (record : List UInt8 × List UInt8) : Result Nat := do
  let (strType, ssKey) ← unserialize string record.1
  if strType = RecordType.acentry.text then do
    let (_, ssKey) ← unserialize string ssKey
    let (nNumber, _) ← unserialize uint64 ssKey
    pure (if nNumber > nAccountingEntryNumber then nNumber else nAccountingEntryNumber)
  else pure nAccountingEntryNumber

/-- The counter after `LoadWallet` has gone through the file. -/
def loadNumbers (file : WalletFile) : Result Nat := file.entries.foldlM loadNumber 0

/-! ### Runs -/

/-- What can happen to the wallet file. -/
inductive WalletDbOp where
  | move (io : MoveIo) (nNow : Int) (p : MoveParams)
  /-- A record of another type is written. -/
  | write (ty : RecordType) (rest : List UInt8) (value : List UInt8)
  /-- A record of another type is erased. -/
  | erase (ty : RecordType) (rest : List UInt8)
  /-- The process ends, and the wallet is loaded in a new one. -/
  | restart

/-- One operation. A process that cannot load the wallet does not run. -/
def WalletDbOp.exec (db : WalletDb) : WalletDbOp → Result WalletDb
  | .move io nNow p => pure (movecmd io nNow p db).2
  | .write ty rest value => pure { db with file := db.file.put (recordKey ty rest) value }
  | .erase ty rest => pure { db with file := db.file.erase (recordKey ty rest) }
  | .restart => do
    let nNumber ← loadNumbers db.file
    pure { db with nAccountingEntryNumber := nNumber }

/-- The operations one after the other, from an empty wallet file. -/
def runWalletDb (ops : List WalletDbOp) : Result WalletDb := ops.foldlM WalletDbOp.exec {}

end Peershares
