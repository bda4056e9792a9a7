import Peershares.BestChain.Agreement
import Peershares.BestChain.Ancestry
import Peershares.BestChain.Checkpoint
import Peershares.BestChain.Failure
import Peershares.BestChain.Fork
import Peershares.BestChain.Locator
import Peershares.BestChain.Records
import Peershares.BestChain.Reload
import Peershares.BestChain.Restart
import Peershares.Block.Assembly
import Peershares.Block.MedianTime
import Peershares.Block.Merkle
import Peershares.Block.Mined
import Peershares.Dividend.Payees
import Peershares.Dividend.Payment
import Peershares.Dividend.Shares
import Peershares.Dividend.Split
import Peershares.Framework.Glob
import Peershares.Framework.Leading
import Peershares.Framework.RankOrder
import Peershares.Framework.ReleaseQueue
import Peershares.Framework.Rows
import Peershares.Framework.Window
import Peershares.Ledger.BlockFile
import Peershares.Ledger.Funded
import Peershares.Ledger.Preview
import Peershares.Ledger.Spending
import Peershares.Ledger.Supply
import Peershares.Ledger.Undo
import Peershares.Model.BlockAssembly
import Peershares.Model.BlockFile
import Peershares.Model.ListTransactions
import Peershares.Model.LoadBlockIndex
import Peershares.Model.Mpi
import Peershares.Model.MruSet
import Peershares.Model.NetAddr
import Peershares.Model.ProofOfStake
import Peershares.Model.Reaccept
import Peershares.Model.Text
import Peershares.Model.TransactionTable
import Peershares.Model.Units
import Peershares.Net.AddrPersistence
import Peershares.Net.AddrSample
import Peershares.Net.Clock
import Peershares.Net.Group
import Peershares.Net.MruSet
import Peershares.Net.PeerHeights
import Peershares.Net.Wire
import Peershares.Relay.Alerts
import Peershares.Relay.Blocks
import Peershares.Relay.Framing
import Peershares.Relay.Order
import Peershares.Relay.Spendable
import Peershares.Script.Build
import Peershares.Script.Multisig
import Peershares.Script.Number
import Peershares.Script.SigCache
import Peershares.Script.SigHash
import Peershares.Script.SigOps
import Peershares.Stake.Age
import Peershares.Stake.Mint
import Peershares.Stake.Modifier
import Peershares.Stake.Reward
import Peershares.Stake.Stability
import Peershares.Target.Compact
import Peershares.Target.MinWork
import Peershares.Target.Uint256
import Peershares.Text.Base64
import Peershares.Text.Wildcard
import Peershares.Wallet.Accounts
import Peershares.Wallet.Base58
import Peershares.Wallet.Cache
import Peershares.Wallet.CoinSelection
import Peershares.Wallet.CreateTransaction
import Peershares.Wallet.Encryption
import Peershares.Wallet.Export
import Peershares.Wallet.Fees
import Peershares.Wallet.Flags
import Peershares.Wallet.KeyPool
import Peershares.Wallet.ListTransactions
import Peershares.Wallet.Money
import Peershares.Wallet.Multisig
import Peershares.Wallet.Reaccept
import Peershares.Wallet.Records
import Peershares.Wallet.Rescan
import Peershares.Wallet.TransactionTable
import Peershares.Wallet.Units
import Peershares.Wallet.UnlockTimer
