import Peershares.Framework.Tally
import Peershares.Model.Journal
import Peershares.Model.KeyStore
import Peershares.Model.WalletCache

/-!
# Balances

There are four places that add up the coins of a wallet: `CWallet::GetBalance` takes the unspent outputs;
`getbalance "*"`, `GetAccountBalance` and `listaccounts` take what `GetAmounts` says about each transaction,
which is what it received, sent and paid as a fee. The last two do so by account, and add the entries of the
accounting journal.

The totals are kept in an `int64`. A map is gone through in some order; a total does not depend on it. The
depth of a transaction in the main chain is an argument, as in `WalletCache`. The caches are read, and what a
query writes to them is left out: it is what the query returned.
-/

open Framework

namespace Peershares

/-- What the wallet sees of the block chain. -/
structure ChainView where
  nBestHeight : Int
  nAdjustedTime : Int
  /-- `GetDepthInMainChain`. -/
  depth : CachedTx → Int

namespace ChainView

variable (P : Params) (chain : ChainView)

/-- `IsFinal()`. -/
def isFinal (tx : CTransaction) : Bool := tx.isFinal chain.nBestHeight chain.nAdjustedTime 0 0

/-- `GetBlocksToMaturity`. -/
def blocksToMaturity (wtx : CachedTx) : Int :=
  if !wtx.tx.isGenerated then 0 else max 0 (P.nCoinbaseMaturity + 20 - chain.depth wtx)

end ChainView

/-- A wallet with its accounts. -/
structure AccountWallet extends CacheWallet where
  /-- The names in the address book. -/
  names : OrderedMap CBase58Data (List UInt8)
  mem_mapAddressBook : ∀ address, address ∈ mapAddressBook ↔ address ∈ names.keys
  /-- `strFromAccount` of a wallet transaction, by its hash. -/
  strFromAccount : Uint256 → List UInt8 := fun _ => []
  /-- `vtxPrev` of a wallet transaction, by its hash. -/
  vtxPrev : Uint256 → List CachedTx := fun _ => []

/-- `+=` on an `int64`. -/
def addInt64 (n v : Int) : Int := (n + v).bmod (2 ^ 64)

/-! ### `GetBalance` -/

namespace AccountWallet

variable (P : Params) (chain : ChainView) (w : AccountWallet)

/-- The work queue of `IsConfirmed`, as a recursion over the inputs. No transaction is among those it
spends from, so each step comes to another transaction. -/
def confirmedLoop (vtxPrev : List CachedTx) : Nat → CachedTx → Result Bool
  | 0, _ => .ok false
  | nRounds + 1, ptx =>
    if !chain.isFinal ptx.tx then .ok false
    else if 1 ≤ chain.depth ptx then .ok true
    else do
      let nDebit ← w.getDebitTx P ptx.tx
      if !(0 < nDebit) then pure false
      else ptx.tx.vin.foldlM (fun confirmed txin =>
        if !confirmed then pure false
        else
          match vtxPrev.reverse.find? (fun prev => P.hashTx prev.tx = txin.prevout.hash) with
          | none => pure false
          | some prev => confirmedLoop vtxPrev nRounds prev) true

/-- `IsConfirmed`. -/
def isConfirmed (hash : Uint256) (wtx : CachedTx) : Result Bool :=
  if !chain.isFinal wtx.tx then .ok false
  else if 1 ≤ chain.depth wtx then .ok true
  else do
    let nDebit ← (wtx.getDebit P w.toCacheWallet).1
    if !(0 < nDebit) then pure false
    else w.confirmedLoop P chain (w.vtxPrev hash) ((w.vtxPrev hash).length + 1) wtx

/-- One transaction in the loop of `GetBalance`. -/
def balanceStep (nTotal : Int) (p : Sigma fun _ : Uint256 => CachedTx) : Result Int :=
  if !chain.isFinal p.2.tx then pure nTotal
  else do
    let confirmed ← w.isConfirmed P chain p.1 p.2
    if !confirmed then pure nTotal
    else do
      let nCredit ← (p.2.getAvailableCredit P w.toCacheWallet true (chain.blocksToMaturity P p.2)).1
      pure (addInt64 nTotal nCredit)

/-- `CWallet::GetBalance`. -/
def getBalance : Result Int := w.mapWallet.entries.foldlM (w.balanceStep P chain) 0

end AccountWallet

/-! ### `GetAmounts` -/

/-- What `GetAmounts` returns. -/
structure Amounts where
  nGeneratedImmature : Int := 0
  nGeneratedMature : Int := 0
  listReceived : List (CBase58Data × Int) := []
  listSent : List (CBase58Data × Int) := []
  nFee : Int := 0
  strSentAccount : List UInt8

namespace AccountWallet

variable (P : Params) (chain : ChainView) (w : AccountWallet)

/-- The address of an output; `" unknown "` is not an address. -/
def addressOrUnknown (txout : CTxOut) : CBase58Data := (extractAddress P txout.scriptPubKey).getD {}

/-- The outputs that are reported: all but the change of an own transaction. -/
def reported (nDebit : Int) (tx : CTransaction) : List CTxOut :=
  tx.vout.filter fun txout => !(0 < nDebit && w.isChange P txout)

/-- "Compute fee". -/
def feeOf (nDebit : Int) (tx : CTransaction) : Result Int :=
  if 0 < nDebit then do
    let nValueOut ← tx.getValueOut
    pure (nDebit - nValueOut)
  else pure 0

/-- "Sent/received". -/
def sentReceived (hash : Uint256) (tx : CTransaction) (nDebit nFee : Int) : Amounts :=
  let entry := fun txout : CTxOut => (addressOrUnknown P txout, txout.nValue)
  { listReceived := ((w.reported P nDebit tx).filter (w.isMine P)).map entry
    listSent := if 0 < nDebit then (w.reported P nDebit tx).map entry else []
    nFee
    strSentAccount := w.strFromAccount hash }

/-- `CWalletTx::GetAmounts`. -/
def getAmounts (hash : Uint256) (wtx : CachedTx) : Result Amounts :=
  if wtx.tx.isGenerated then
    if 0 < chain.blocksToMaturity P wtx then do
      let nCredit ← w.getCreditTx P wtx.tx
      pure { nGeneratedImmature := nCredit, strSentAccount := w.strFromAccount hash }
    else do
      let nCredit ← (wtx.getCredit P w.toCacheWallet true (chain.blocksToMaturity P wtx)).1
      pure { nGeneratedMature := nCredit, strSentAccount := w.strFromAccount hash }
  else do
    let nDebit ← (wtx.getDebit P w.toCacheWallet).1
    let nFee ← feeOf nDebit wtx.tx
    pure (w.sentReceived P hash wtx.tx nDebit nFee)

/-! ### `getbalance "*"` -/

/-- The amounts of one transaction in `getbalance "*"`. -/
def addAmounts (nMinDepth : Int) (wtx : CachedTx) (amounts : Amounts) (nBalance : Int) : Int :=
  let nBalance :=
    if nMinDepth ≤ chain.depth wtx then
      amounts.listReceived.foldl (fun nBalance r => addInt64 nBalance r.2) nBalance
    else nBalance
  let nBalance := amounts.listSent.foldl (fun nBalance s => addInt64 nBalance (-s.2)) nBalance
  addInt64 (addInt64 nBalance (-amounts.nFee)) amounts.nGeneratedMature

/-- One transaction in the loop of `getbalance "*"`. -/
def balanceAllStep (nMinDepth nBalance : Int) (p : Sigma fun _ : Uint256 => CachedTx) : Result Int :=
  if !chain.isFinal p.2.tx then pure nBalance
  else do
    let amounts ← w.getAmounts P chain p.1 p.2
    pure (addAmounts chain nMinDepth p.2 amounts nBalance)

/-- `getbalance "*" nMinDepth`. -/
def getBalanceAll (nMinDepth : Int) : Result Int :=
  w.mapWallet.entries.foldlM (w.balanceAllStep P chain nMinDepth) 0

/-! ### Accounts -/

/-- The account of an address: its name in the address book, or the default account. -/
def accountOf (address : CBase58Data) : List UInt8 := (w.names.lookup address).getD []

/-- `GetAccountAmounts`: what was generated, received, sent and paid. -/
def getAccountAmounts (strAccount : List UInt8) (amounts : Amounts) : Int × Int × Int × Int :=
  let own := strAccount = amounts.strSentAccount
  (if strAccount = [] then amounts.nGeneratedMature else 0,
    (amounts.listReceived.filter fun r => w.accountOf r.1 = strAccount).foldl
      (fun nReceived r => addInt64 nReceived r.2) 0,
    if own then amounts.listSent.foldl (fun nSent s => addInt64 nSent s.2) 0 else 0,
    if own then amounts.nFee else 0)

/-- The amounts of one transaction in `GetAccountBalance`. -/
def addAccountAmounts (strAccount : List UInt8) (nMinDepth : Int) (wtx : CachedTx) (amounts : Amounts)
    (nBalance : Int) : Int :=
  let (nGenerated, nReceived, nSent, nFee) := w.getAccountAmounts strAccount amounts
  let nBalance :=
    if nReceived ≠ 0 ∧ nMinDepth ≤ chain.depth wtx then addInt64 nBalance nReceived else nBalance
  addInt64 nBalance (nGenerated - nSent - nFee)

/-- One transaction in the loop of `GetAccountBalance`. -/
def accountBalanceStep (strAccount : List UInt8) (nMinDepth nBalance : Int)
    (p : Sigma fun _ : Uint256 => CachedTx) : Result Int :=
  if !chain.isFinal p.2.tx then pure nBalance
  else do
    let amounts ← w.getAmounts P chain p.1 p.2
    pure (w.addAccountAmounts chain strAccount nMinDepth p.2 amounts nBalance)

/-- `GetAccountBalance`. -/
def getAccountBalance (file : WalletFile) (strAccount : List UInt8) (nMinDepth : Int) : Result Int := do
  let nBalance ← w.mapWallet.entries.foldlM (w.accountBalanceStep P chain strAccount nMinDepth) 0
  let nCreditDebit ← getAccountCreditDebit file strAccount
  pure (addInt64 nBalance nCreditDebit)

/-- `mapAccountBalances`. -/
abbrev AccountBalances := OrderedMap (List UInt8) Int

/-- The amounts of one transaction in `listaccounts`. -/
def tallyAmounts (nMinDepth : Int) (wtx : CachedTx) (amounts : Amounts) (mapAccountBalances : AccountBalances) :
    AccountBalances :=
  let balances := mapAccountBalances.add (2 ^ 64) amounts.strSentAccount (-amounts.nFee)
  let balances := amounts.listSent.foldl
    (fun balances s => balances.add (2 ^ 64) amounts.strSentAccount (-s.2)) balances
  if nMinDepth ≤ chain.depth wtx then
    amounts.listReceived.foldl (fun balances r => balances.add (2 ^ 64) (w.accountOf r.1) r.2)
      (balances.add (2 ^ 64) [] amounts.nGeneratedMature)
  else balances

/-- The accounts of the own addresses in the address book. -/
def namedAccounts : AccountBalances :=
  w.names.entries.foldl
    (fun balances entry => if entry.1 ∈ w.keystore.mapKeys then balances.put entry.2 0 else balances)
    OrderedMap.empty

/-- One transaction in the loop of `listaccounts`; there is no test of `IsFinal`. -/
def listAccountsStep (nMinDepth : Int) (balances : AccountBalances)
    (p : Sigma fun _ : Uint256 => CachedTx) : Result AccountBalances := do
  let amounts ← w.getAmounts P chain p.1 p.2
  pure (w.tallyAmounts chain nMinDepth p.2 amounts balances)

/-- `listaccounts`. -/
def listAccounts (file : WalletFile) (nMinDepth : Int) : Result AccountBalances := do
  let balances ← w.mapWallet.entries.foldlM (w.listAccountsStep P chain nMinDepth) w.namedAccounts
  let acentries ← listAccountCreditDebit file allAccounts
  pure (acentries.foldl (fun balances entry => balances.add (2 ^ 64) entry.strAccount entry.nCreditDebit)
    balances)

end AccountWallet

end Peershares
