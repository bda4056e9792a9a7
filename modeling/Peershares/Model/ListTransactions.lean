import Peershares.Model.TransactionTable
import Peershares.Model.Uint256

/-!
# The list of transactions

`listtransactions` of `bitcoinrpc.cpp`, with `ListTransactions` and `AcentryToJSON`: the entries of the wallet
transactions and of the accounting journal from the newest on, and the page that is cut out of them. The parameters have
been read. An `int` that overflows wraps around, and a `size_t` has 64 bits. An amount stands for
`ValueFromAmount` of it.
-/

open Framework

namespace Peershares

/-! ### Entries -/

/-- A value in an entry. -/
inductive EntryValue where
  | str (s : List UInt8)
  | amount (n : Int)
  | int (n : Int)
deriving DecidableEq, Repr

/-- `json_spirit::Object`. -/
abbrev Entry := List (List UInt8 × EntryValue)

/-- The bytes of a text literal. -/
def ascii (s : String) : List UInt8 := s.toList.map fun c => UInt8.ofNat c.toNat

/-- `GetHex` of a hash. -/
def Uint256.getHex (hash : Uint256) : List UInt8 :=
  (toLeBytes 32 hash).reverse.flatMap fun b => [BaseUint.hexDigit (b / 16), BaseUint.hexDigit (b % 16)]

section Entries

variable {P : Params} (hash : List UInt8 → List UInt8) (chain : ChainView) (wallet : TableWallet P)

/-- `WalletTxToJSON`. -/
def walletTxToJSON (wtx : CachedTx) : Entry :=
  let confirms := chain.depth wtx
  [(ascii "confirmations", .int confirms)] ++
    (if confirms ≠ 0 then
      [(ascii "blockhash", .str (Uint256.getHex wtx.hashBlock)), (ascii "blockindex", .int wtx.nIndex)]
    else []) ++
    [(ascii "txid", .str (Uint256.getHex (P.hashTx wtx.tx))),
      (ascii "time", .int (wallet.nTimeReceived (P.hashTx wtx.tx)))] ++
    (wallet.mapValue (P.hashTx wtx.tx)).entries.map fun item => (item.1, .str item.2)

/-- "Generated blocks assigned to account """. -/
def generatedEntry (wtx : CachedTx) (amounts : Amounts) : Entry :=
  (ascii "account", .str []) ::
    if amounts.nGeneratedImmature ≠ 0 then
      [(ascii "category", .str (ascii (if chain.depth wtx ≠ 0 then "immature" else "orphan"))),
        (ascii "amount", .amount amounts.nGeneratedImmature)]
    else if wtx.tx.isCoinStake then
      [(ascii "category", .str (ascii "stake")), (ascii "amount", .amount amounts.nGeneratedMature)]
    else [(ascii "category", .str (ascii "generate")), (ascii "amount", .amount amounts.nGeneratedMature)]

def sentEntry (amounts : Amounts) (s : CBase58Data × Int) : Entry :=
  [(ascii "account", .str amounts.strSentAccount), (ascii "address", .str (s.1.toText hash)),
    (ascii "category", .str (ascii "send")), (ascii "amount", .amount (-s.2)), (ascii "fee", .amount (-amounts.nFee))]

def receivedEntry (r : CBase58Data × Int) : Entry :=
  [(ascii "account", .str (wallet.accountOf r.1)), (ascii "address", .str (r.1.toText hash)),
    (ascii "category", .str (ascii "receive")), (ascii "amount", .amount r.2)]

/-- `ListTransactions`: what it appends to `ret`. -/
def listTransactions (wtx : CachedTx) (strAccount : List UInt8) (nMinDepth : Int) (fLong : Bool) :
    Result (List Entry) := do
  let amounts ← wallet.getAmounts P chain (P.hashTx wtx.tx) wtx
  let fAllAccounts := strAccount = allAccounts
  let long := fun entry : Entry => if fLong then entry ++ walletTxToJSON chain wallet wtx else entry
  let generated :=
    if addInt64 amounts.nGeneratedMature amounts.nGeneratedImmature ≠ 0 ∧ (fAllAccounts ∨ strAccount = []) then
      [long (generatedEntry chain wtx amounts)]
    else []
  let sent :=
    if (amounts.listSent ≠ [] ∨ amounts.nFee ≠ 0) ∧ (fAllAccounts ∨ strAccount = amounts.strSentAccount) then
      amounts.listSent.map fun s => long (sentEntry hash amounts s)
    else []
  let received :=
    if amounts.listReceived ≠ [] ∧ nMinDepth ≤ chain.depth wtx then
      (amounts.listReceived.filter fun r => fAllAccounts ∨ wallet.accountOf r.1 = strAccount).map fun r =>
        long (receivedEntry hash wallet r)
    else []
  pure (generated ++ sent ++ received)

/-- `AcentryToJSON`: what it appends to `ret`. -/
def acentryToJSON (acentry : CAccountingEntry) (strAccount : List UInt8) : List Entry :=
  if strAccount = allAccounts ∨ acentry.strAccount = strAccount then
    [[(ascii "account", .str acentry.strAccount), (ascii "category", .str (ascii "move")),
      (ascii "time", .int acentry.nTime), (ascii "amount", .amount acentry.nCreditDebit),
      (ascii "otheraccount", .str acentry.strOtherAccount), (ascii "comment", .str acentry.strComment)]]
  else []

/-! ### By time -/

/-- `TxPair`. -/
inductive TxPair where
  | tx (wtx : CachedTx)
  | acentry (acentry : CAccountingEntry)

/-- `txByTime`, without the times: of one time, what was inserted first comes first. -/
def txByTime (acentries : List CAccountingEntry) : List TxPair :=
  let txs := (wallet.mapWallet.keys.mergeSort (· ≤ ·)).filterMap wallet.mapWallet.lookup
  let items : List (Int × TxPair) :=
    txs.map (fun wtx => ((wallet.nTimeReceived (P.hashTx wtx.tx) : Int), .tx wtx)) ++
      acentries.map fun entry => (entry.nTime, .acentry entry)
  (items.mergeSort fun a b => decide (a.1 ≤ b.1)).map Prod.snd

/-- The entries of one item. -/
def entriesOf (strAccount : List UInt8) : TxPair → Result (List Entry)
  | .tx wtx => listTransactions hash chain wallet wtx strAccount 0 true
  | .acentry acentry => .ok (acentryToJSON acentry strAccount)

/-- "iterate backwards until we have nCount items to return", where that is `limit` entries. -/
def collect (strAccount : List UInt8) (limit : Nat) : List TxPair → List Entry → Result (List Entry)
  | [], ret => pure ret
  | item :: items, ret => do
    let entries ← entriesOf hash chain wallet strAccount item
    if limit ≤ (ret ++ entries).length then pure (ret ++ entries)
    else collect strAccount limit items (ret ++ entries)

end Entries

/-! ### The page -/

/-- An `int` that is computed or cast. -/
def toInt32 (n : Int) : Int := n.bmod (2 ^ 32)

/-- The page of `ret`, newest first; `none` when an iterator is advanced out of range. -/
def cutPage {α : Type} (ret : List α) (nCount nFrom : Int) : Option (List α) :=
  let nFrom := if toInt32 ret.length < nFrom then toInt32 ret.length else nFrom
  let nCount := if toInt32 ret.length < toInt32 (nFrom + nCount) then toInt32 (ret.length - nFrom) else nCount
  let last := toInt32 (nFrom + nCount)
  if 0 ≤ nFrom ∧ nFrom ≤ last ∧ last ≤ ret.length then some ((ret.take last.toNat).drop nFrom.toNat) else none

/-- How `listtransactions` fails. -/
inductive ListFailure where
  | rpc (e : JSONRPCError)
  | wallet (e : Failure)
  /-- An iterator is advanced out of range. -/
  | outOfRange

/-- What is returned of `ret`. -/
def returnPage (ret : List Entry) (nCount nFrom : Int) : Except ListFailure (List Entry) :=
  match cutPage ret nCount nFrom with
  | none => .error .outOfRange
  | some page => .ok page.reverse -- Return oldest to newest

/-- `listtransactions`. -/
def listtransactions {P : Params} (hash : List UInt8 → List UInt8) (chain : ChainView) (wallet : TableWallet P)
    (file : WalletFile) (strAccount : List UInt8) (nCount nFrom : Int) : Except ListFailure (List Entry) :=
  if nCount < 0 then .error (.rpc ⟨-8, "Negative count"⟩)
  else if nFrom < 0 then .error (.rpc ⟨-8, "Negative from"⟩)
  else
    match listAccountCreditDebit file strAccount with
    | .error e => .error (.wallet e)
    | .ok acentries =>
      -- the sum is compared with a size, which has no sign
      match collect hash chain wallet strAccount (toInt32 (nCount + nFrom) % 2 ^ 64).toNat
          (txByTime wallet acentries).reverse [] with
      | .error e => .error (.wallet e)
      | .ok ret => returnPage ret nCount nFrom

end Peershares
