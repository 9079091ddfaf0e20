import Picomint.Lib.SortedMap
import Picomint.Lib.VirtualVoting
import Picomint.Lib.BreadthFirst
import Picomint.Lib.Interpolation
import Picomint.Core.Node
import Picomint.Core.Amount
import Picomint.Bft.Unit
import Picomint.Bft.Extender
import Picomint.Bft.Engine
import Picomint.Bft.Voting
import Picomint.Bft.Heads
import Picomint.Bft.Emission
import Picomint.Bft.Extension
import Picomint.Bft.Invariant
import Picomint.Bft.Replay
import Picomint.Bft.Process
import Picomint.Bft.Restarts
import Picomint.Bft.Agreement
import Picomint.Bft.OrderIndependence
import Picomint.Bft.Network
import Picomint.Bft.Fifo
import Picomint.Lib.Inclusion
import Picomint.Bft.Inclusion
import Picomint.Bft.OwnWork
import Picomint.Bft.Creation
import Picomint.Bft.WorkGate
import Picomint.Bft.Totality
import Picomint.Bft.Fixpoint
import Picomint.Lib.DepthFirst
import Picomint.Lib.Inevitable
import Picomint.Bft.DemandPull
import Picomint.Bft.RoundWidth
import Picomint.Bft.RoundOverflow
import Picomint.Tss.Curve
import Picomint.Tss.Signing
import Picomint.Tss.Correctness
import Picomint.Tss.Aggregation
import Picomint.Tbs.BlindSignatures
import Picomint.Rpc.Query
import Picomint.Rpc.Fanout
import Picomint.Rpc.Strategies
import Picomint.Core.Tx
import Picomint.Consensus.Ledger
import Picomint.Consensus.Votes
import Picomint.Consensus.Ecash
import Picomint.Consensus.Lightning
import Picomint.Consensus.Onchain
import Picomint.Consensus.Signing
import Picomint.Consensus.Server
import Picomint.Consensus.Items
import Picomint.Consensus.Transitions
import Picomint.Consensus.Spending
import Picomint.Consensus.Solvency
import Picomint.Consensus.Panics
import Picomint.Lib.ChunkLog
import Picomint.Consensus.SigningLog
import Picomint.Consensus.Finalizing
import Picomint.Consensus.SigningProgress
import Picomint.Consensus.Wallet
import Picomint.Consensus.WalletChain
import Picomint.Consensus.NonceUse
import Picomint.Consensus.WalletHistory
import Picomint.Consensus.Replication
import Picomint.Consensus.Tracking
import Picomint.Consensus.BlockVotes
import Picomint.Consensus.BlockAgreement
import Picomint.Consensus.BlockProgress
import Picomint.Consensus.EcashRpc
import Picomint.Lib.Paging
import Picomint.Consensus.ContractStream
import Picomint.Consensus.ContractPolls
import Picomint.Client.Issuance
import Picomint.Client.Restore
import Picomint.Lib.Greedy
import Picomint.Client.Builder
import Picomint.Client.Selection
import Picomint.Client.Tables
import Picomint.Client.Operations
import Picomint.Client.Coverage
import Picomint.Client.Deposits
import Picomint.Client.DepositScan
import Picomint.Client.DepositRuns
import Picomint.Client.Balance
import Picomint.Client.Payments
import Picomint.Client.Limits
import Picomint.Client.MaxSend
import Picomint.Encoding.Canonical
import Picomint.Database.Scans
import Picomint.Encoding.Base32
import Picomint.Client.EcashMachine
import Picomint.Client.Sends
import Picomint.Client.Bundles
import Picomint.Client.ExactChange
import Picomint.Client.Funding
import Picomint.Lib.OrderStatistic
import Picomint.Consensus.FeerateVotes
import Picomint.Consensus.VoteHeights
import Picomint.Consensus.PendingStack
import Picomint.Consensus.SubmissionRpc
import Picomint.Lib.Powers
import Picomint.Tss.Scalars
import Picomint.Lib.Peeling
import Picomint.Fountain.Fragments
import Picomint.Fountain.Decoder
import Picomint.Fountain.Integrity
import Picomint.Fountain.Closure
import Picomint.Client.BundleAmounts
import Picomint.Client.MaxSendSearch
import Picomint.Gateway.Daemon
import Picomint.Gateway.Effects
import Picomint.Gateway.EventLoop
import Picomint.Gateway.Funding
import Picomint.Gateway.Settlement
import Picomint.Lib.CutStream
import Picomint.Consensus.Session
import Picomint.Consensus.SessionReplication
import Picomint.Consensus.OutcomeSize
import Picomint.Lib.SharePolynomial
import Picomint.Dkg.Machine
import Picomint.Dkg.Groups
import Picomint.Tss.Reconstruction
import Picomint.Dkg.Shares
import Picomint.Dkg.Network
import Picomint.Dkg.Rows
import Picomint.Dkg.Progress
import Picomint.Dkg.Results
import Picomint.Dkg.Loop
import Picomint.Tpe.Encryption
import Picomint.Client.Rejections
