import Mathlib.Data.List.Sort
import Mathlib.Data.Rat.Defs
import Peershares.Model.Address
import Peershares.Model.Node

/-!
# Dividends

The share balances at a date (`scanbalance.cpp`), their shares of a dividend and the payments
(`distribution.cpp`).

Amounts of peercoins are `double` in the source. Nothing below depends on how they are rounded: the
operations are those of a class with no laws, `Double`. The Peercoin wallet that pays is another
program; it appears as what `SendDistribution` sees of it (`PeercoinWallet`).
-/

open Framework

namespace Peershares

/-- The operations on `double` that the program uses. -/
class Double (D : Type) where
  ofInt64 : Int → D
  add : D → D → D
  mul : D → D → D
  div : D → D → D
  lt : D → D → Bool
  eq : D → D → Bool

/-- Amounts without rounding. -/
instance : Double ℚ where
  ofInt64 n := n
  add a b := a + b
  mul a b := a * b
  div a b := a / b
  lt a b := decide (a < b)
  eq a b := decide (a = b)

/-! ### `GetAddressBalances` -/

abbrev BalanceMap := Map CBase58Data Int

/-- `CBitcoinAddress addr; ExtractAddress(scriptPubKey, addr);`: the result is not looked at, so a
script without an address leaves the unset one. -/
def addressOf (P : Params) (scriptPubKey : CScript) : CBase58Data :=
  (extractAddress P scriptPubKey).getD {}

/-- `mapBalance[addr]`. -/
def BalanceMap.get (mapBalance : BalanceMap) (addr : CBase58Data) : Int :=
  (mapBalance.lookup addr).getD 0

/-- `mapBalance[addr] += nValue`. -/
def BalanceMap.add (mapBalance : BalanceMap) (addr : CBase58Data) (nValue : Int) : BalanceMap :=
  mapBalance.insert addr (mapBalance.get addr + nValue)

/-- `mapBalance[addr] -= nValue`, without an entry of zero. -/
def BalanceMap.sub (mapBalance : BalanceMap) (addr : CBase58Data) (nValue : Int) : BalanceMap :=
  if mapBalance.get addr - nValue = 0 then mapBalance.erase addr
  else mapBalance.insert addr (mapBalance.get addr - nValue)

/-- `txdb.ReadDiskTx(hash, tx)`. -/
def readDiskTx (files : BlockFiles) (txIndex : TxIndexMap) (hash : Uint256) : Option CTransaction :=
  (txIndex.lookup hash).bind (fun txindex => files.readTx txindex.pos)

/-- One round of the loop of `ScanTransactionInputs`. -/
def scanInput (P : Params) (files : BlockFiles) (txIndex : TxIndexMap) (txi : CTxIn)
    (mapBalance : BalanceMap) : Result BalanceMap :=
  match readDiskTx files txIndex txi.prevout.hash with
  | none => .error (.exception "Failed to load transaction %s")
  | some ti =>
    match ti.vout[txi.prevout.n]? with
    | none => .error (.exception "Invalid index in transaction %s")
    | some prevOut =>
      let addr := addressOf P prevOut.scriptPubKey
      if 0 < prevOut.nValue then
        if (mapBalance.lookup addr).isNone then .error (.exception "Missing input address: %s")
        else if mapBalance.get addr < prevOut.nValue then
          .error (.exception "Input address would have negative balance: %s")
        else .ok (mapBalance.sub addr prevOut.nValue)
      else .ok mapBalance

/-- The loop of `ScanTransactionInputs`. -/
def scanInputs (P : Params) (files : BlockFiles) (txIndex : TxIndexMap) :
    List CTxIn → BalanceMap → Result BalanceMap
  | [], mapBalance => .ok mapBalance
  | txi :: vin, mapBalance => do
    let mapBalance ← scanInput P files txIndex txi mapBalance
    scanInputs P files txIndex vin mapBalance

/-- `ScanTransactionInputs`. -/
def scanTransactionInputs (P : Params) (files : BlockFiles) (txIndex : TxIndexMap)
    (tx : CTransaction) (mapBalance : BalanceMap) : Result BalanceMap :=
  if tx.isCoinBase then .ok mapBalance else scanInputs P files txIndex tx.vin mapBalance

/-- One round of the loop of `ScanTransactionOutputs`. -/
def scanOutput (P : Params) (mapBalance : BalanceMap) (txo : CTxOut) : BalanceMap :=
  if 0 < txo.nValue && !txo.scriptPubKey.isEmpty then
    mapBalance.add (addressOf P txo.scriptPubKey) txo.nValue
  else mapBalance

/-- `ScanTransactionOutputs`. -/
def scanTransactionOutputs (P : Params) (tx : CTransaction) (mapBalance : BalanceMap) : BalanceMap :=
  tx.vout.foldl (scanOutput P) mapBalance

/-- The loop over the transactions of a block in `GetAddressBalances`. -/
def scanTransactions (P : Params) (files : BlockFiles) (txIndex : TxIndexMap) :
    List CTransaction → BalanceMap → Result BalanceMap
  | [], mapBalance => .ok mapBalance
  | tx :: vtx, mapBalance => do
    let mapBalance ← scanTransactionInputs P files txIndex tx mapBalance
    scanTransactions P files txIndex vtx (scanTransactionOutputs P tx mapBalance)

/-- The loop of `GetAddressBalances`: from `pblk0` along `pnext` to the best block. The disk is taken
to work; `ReadFromDisk` of a block that is not there leaves it without transactions. The rounds are
bounded by the number of blocks; a null pointer that is followed ends the process. -/
def scanBlocks (P : Params) (g : Globals) (txIndex : TxIndexMap) (cutoffTime : Nat) :
    Nat → BlockPtr → BalanceMap → Result BalanceMap
  | 0, _, _ => .error .assertion
  | nRounds + 1, pblk0, mapBalance =>
    if pblk0 = g.pindexBest then .ok mapBalance
    else
      match pblk0 with
      | [] => .error .assertion
      | pindex :: _ =>
        if cutoffTime ≤ pindex.nTime then .ok mapBalance
        else do
          let vtx := ((g.files.readBlock pindex.nFile pindex.nBlockPos).map CBlock.vtx).getD []
          let mapBalance ← scanTransactions P g.files txIndex vtx mapBalance
          scanBlocks P g txIndex cutoffTime nRounds (g.pnext pindex.hashBlock) mapBalance

/-- `GetAddressBalances`, started with an empty map. -/
def getAddressBalances (P : Params) (g : Globals) (txIndex : TxIndexMap) (cutoffTime : Nat) :
    Result BalanceMap :=
  match g.pindexGenesisBlock, g.pindexBest with
  | [], _ => .error (.exception "No genesis block.")
  | _ :: _, [] => .error (.exception "No best block chain.")
  | _ :: _, pblk1 :: _ =>
    if pblk1.nTime < cutoffTime then
      .error (.exception "Cutoff date later than most recent block.")
    else scanBlocks P g txIndex cutoffTime g.pindexBest.length g.pindexGenesisBlock ∅

/-! ### `DividendDistributor` -/

structure Distribution (D : Type) where
  addrPeershares : CBase58Data
  nBalance : Int
  addrPeercoin : CBase58Data
  dDividendAmount : D

/-- The constructor: the Peercoin address is made from the share address. -/
def Distribution.new {D : Type} (P : Params) (addrPeershares : CBase58Data) (nBalance : Int)
    (dDividendAmount : D) : Result (Distribution D) := do
  let addrPeercoin ← CPeercoinAddress.ofAddress P addrPeershares
  pure { addrPeershares, nBalance, addrPeercoin, dDividendAmount }

structure DividendDistributor (D : Type) where
  vDistribution : List (Distribution D)
  dTotalDistributed : D

/-- The entries of a balance map in the order of the addresses. -/
def BalanceMap.sorted (mapBalance : BalanceMap) : List (CBase58Data × Int) :=
  (mapBalance.entries.map (fun e => (e.1, e.2))).insertionSort (fun a b => a.1.le b.1)

section Distributor

variable {D : Type} [Double D]

/-- `dTotalBalance`. -/
def totalBalance (entries : List (CBase58Data × Int)) : D :=
  entries.foldl (fun dTotalBalance e => Double.add dTotalBalance (Double.ofInt64 e.2))
    (Double.ofInt64 0)

/-- `it->second * dDistributedAmount / dTotalBalance`. -/
def payout (dDistributedAmount dTotalBalance : D) (nBalance : Int) : D :=
  Double.div (Double.mul (Double.ofInt64 nBalance) dDistributedAmount) dTotalBalance

/-- The second loop of a round of `Distribute`. It returns the entries that are kept. -/
def distributeRound (P : Params) (dDistributedAmount dMinimumPayout dTotalBalance : D) :
    List (CBase58Data × Int) → DividendDistributor D →
      Result (List (CBase58Data × Int) × DividendDistributor D)
  | [], distributor => .ok ([], distributor)
  | (addr, nBalance) :: entries, distributor =>
    let dDistributed := payout dDistributedAmount dTotalBalance nBalance
    if Double.lt dDistributed dMinimumPayout then
      distributeRound P dDistributedAmount dMinimumPayout dTotalBalance entries distributor
    else do
      let distribution ← Distribution.new P addr nBalance dDistributed
      let (retained, distributor) ← distributeRound P dDistributedAmount dMinimumPayout dTotalBalance
        entries
        { vDistribution := distributor.vDistribution ++ [distribution]
          dTotalDistributed := Double.add distributor.dTotalDistributed dDistributed }
      pure ((addr, nBalance) :: retained, distributor)

/-- The loop of `Distribute`: there is another round when an entry was dropped. -/
def distributeLoop (P : Params) (dDistributedAmount dMinimumPayout : D)
    (entries : List (CBase58Data × Int)) : Result (DividendDistributor D) :=
  match distributeRound P dDistributedAmount dMinimumPayout (totalBalance entries) entries
      ⟨[], Double.ofInt64 0⟩ with
  | .error e => .error e
  | .ok (retained, distributor) =>
    if retained.length < entries.length then
      distributeLoop P dDistributedAmount dMinimumPayout retained
    else .ok distributor
termination_by entries.length

/-- `Distribute`, as `GenerateDistribution` calls it on a new distributor. -/
def distribute (P : Params) (dDistributedAmount dMinimumPayout : D) (mapBalance : BalanceMap) :
    Result (DividendDistributor D) :=
  if mapBalance.entries.isEmpty then
    .error (.exception
      "The balance map is empty. There's not address to distribute dividends to.")
  else do
    let distributor ← distributeLoop P dDistributedAmount dMinimumPayout mapBalance.sorted
    if Double.eq distributor.dTotalDistributed (Double.ofInt64 0) then
      .error (.exception "No address received dividends.")
    else pure distributor

/-- `Distribute` on a distributor: what the distributor holds afterwards, also when the call throws.
The balances are given in the order in which the map is iterated. -/
def DividendDistributor.distributeEntries (P : Params) (dDistributedAmount dMinimumPayout : D)
    (entries : List (CBase58Data × Int)) : Command (DividendDistributor D) Failure Unit :=
  fun distributor =>
    if entries.isEmpty then
      (.error (.exception
        "The balance map is empty. There's not address to distribute dividends to."), distributor)
    else
      match distributeLoop P dDistributedAmount dMinimumPayout entries with
      | .error e => (.error e, distributor)
      | .ok distributor =>
        if Double.eq distributor.dTotalDistributed (Double.ofInt64 0) then
          (.error (.exception "No address received dividends."), distributor)
        else (.ok (), distributor)

end Distributor

/-! ### `SendDistribution` -/

/-- A `sendmany` output object: addresses with amounts. -/
abbrev Outputs (D : Type) := List (CBase58Data × D)

namespace DividendDistributor

variable {D : Type}

/-- `GetTransactionCount`. The size is unsigned, so a negative maximum counts as a very large one;
zero is a division by zero. The result is an `int`, which a very long list leaves. -/
def getTransactionCount (nMaxDistributionPerTransaction : Int) (d : DividendDistributor D) :
    Result Int :=
  if nMaxDistributionPerTransaction = 0 then .error .assertion
  else .ok (((1 + d.vDistribution.length / (nMaxDistributionPerTransaction % 2 ^ 64).toNat : Nat) :
    Int).bmod (2 ^ 32))

/-- The loop of `GenerateOutputs`: the distributions are dealt out in turn. -/
def dealOut (nTransactions : Nat) :
    List (Distribution D) → Nat → List (Outputs D) → List (Outputs D)
  | [], _, vTransactionOuts => vTransactionOuts
  | distribution :: vDistribution, nTransactionIndex, vTransactionOuts =>
    dealOut nTransactions vDistribution ((nTransactionIndex + 1) % nTransactions)
      (vTransactionOuts.modify nTransactionIndex
        (· ++ [(distribution.addrPeercoin, distribution.dDividendAmount)]))

/-- `GenerateOutputs`. -/
def generateOutputs (nTransactions : Int) (d : DividendDistributor D) : Result (List (Outputs D)) :=
  if nTransactions ≤ 0 then .error (.exception "Invalid transaction count")
  else if d.vDistribution.isEmpty then .error (.exception "No address to distribute to")
  else if (d.vDistribution.length : Int) < nTransactions then
    .error (.exception "Output split in too many transactions")
  else .ok (dealOut nTransactions.toNat d.vDistribution 0 (List.replicate nTransactions.toNat []))

end DividendDistributor

/-- What `SendDistribution` sees of the Peercoin wallet: how it reports a balance, what it reads an
amount as, and the fee it takes for a transaction, both in its smallest unit. -/
structure PeercoinWallet (D : Type) where
  report : Int → D
  amount : D → Nat
  fee : Outputs D → Nat

/-- The distribution account: its balance and the transactions that were sent from it. -/
structure PeercoinAccount (D : Type) where
  nBalance : Int
  vSent : List (Outputs D) := []

namespace PeercoinWallet

variable {D : Type} (W : PeercoinWallet D)

/-- The sum of the amounts of a transaction. -/
def total (output : Outputs D) : Nat := (output.map (fun o => W.amount o.2)).sum

/-- `CallPeercoinRPC("sendmany", ..)`: it succeeds when the account covers the amounts and the fee,
and else throws. -/
def sendmany (output : Outputs D) : Command (PeercoinAccount D) Failure Unit := fun account =>
  if (W.total output + W.fee output : Int) ≤ account.nBalance then
    (.ok (), { nBalance := account.nBalance - (W.total output + W.fee output)
               vSent := account.vSent ++ [output] })
  else (.error (.exception "Account has insufficient funds"), account)

end PeercoinWallet

/-- The transactions of a distribution. -/
def DividendDistributor.split {D : Type} (nMaxDistributionPerTransaction : Int)
    (d : DividendDistributor D) : Result (List (Outputs D)) := do
  let nTransactions ← d.getTransactionCount nMaxDistributionPerTransaction
  d.generateOutputs nTransactions

/-- The check of `SendDistribution`: `dTotalDistributed > dBalance` is refused. -/
def PeercoinWallet.covers {D : Type} [Double D] (W : PeercoinWallet D) (d : DividendDistributor D)
    (account : PeercoinAccount D) : Bool :=
  !Double.lt (W.report account.nBalance) d.dTotalDistributed

/-- `SendDistribution`, with the account at the Peercoin wallet as its state. -/
def sendDistribution {D : Type} [Double D] (W : PeercoinWallet D)
    (nMaxDistributionPerTransaction : Int) (d : DividendDistributor D) :
    Command (PeercoinAccount D) Failure Unit := do
  let account ← Command.get
  if !W.covers d account then
    Command.fail (.exception "Not enough peercoins available in distribution account")
  else do
    let vOutputs ← Command.lift (d.split nMaxDistributionPerTransaction)
    Command.forList W.sendmany vOutputs

end Peershares
