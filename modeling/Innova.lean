import Innova.Lib.Bytes
import Innova.Lib.Entries
import Innova.Lib.Outcome
import Innova.Lib.PagedTree
import Innova.Lib.EditedTree
import Innova.Lib.AlteredTree
import Innova.Lib.TreeShape
import Innova.Lib.Durable
import Innova.Lib.Together
import Innova.Lib.SortedTable
import Innova.Lib.SlotFile
import Innova.Lib.Steps
import Innova.Chainstate.Basic
import Innova.Chainstate.Coin
import Innova.Chainstate.Delta
import Innova.Chainstate.Value
import Innova.TxLoc.Locator
import Innova.TxLoc.KeepFirst
import Innova.TxLoc.TornLog
import Innova.Store3A.Page
import Innova.Store3A.BTree
import Innova.Store3A.TreeSpec
import Innova.Store3A.TreeMap
import Innova.Store3A.TreeRuns
import Innova.Store3A.Authenticated
import Innova.Store3A.Shape
import Innova.Store3A.Overlay
import Innova.Store3A.OverlaySpec
import Innova.Store3A.OverlayShape
import Innova.Store3A.Records
import Innova.Store3A.UndoIndex
import Innova.Store3A.CommitStore
import Innova.Store3A.OpenStore
import Innova.Store3A.BatchSpec
import Innova.Store3A.BatchShape
import Innova.Store3A.CommitSpec
import Innova.Store3A.OpenSpec
import Innova.Store3A.FreePages
import Innova.Store3A.UndoLog
import Innova.Store3A.BatchAgreement
import Innova.Store3A.LeafSplits
import Innova.Store3A.Committed
import Innova.Store3A.UndoBooks
import Innova.Store3A.ClosedSegments
import Innova.Store3A.FastLoad
import Innova.Store3A.Counted
import Innova.Store3A.UndoCommit
import Innova.Store3A.UndoCalls
import Innova.Store3A.UndoOpen
import Innova.Store3A.SegmentDirectory
import Innova.BlockIndex.Tip
import Innova.BlockIndex.TipCalls
import Innova.BlockIndex.TipOpen
import Innova.BlockIndex.TipIntegrity
import Innova.BlockIndex.TipReopen
import Innova.BlockIndex.TipSteps
import Innova.BlockIndex.TipAppend
import Innova.BlockIndex.TipPlan
import Innova.BlockIndex.TipReorg
import Innova.BlockIndex.Retry
import Innova.BlockIndex.ReorgFrame
import Innova.Lib.Relational
import Innova.BlockIndex.Reader
import Innova.BlockIndex.ReaderMove
import Innova.Lib.Lineage
import Innova.BlockIndex.BlockTree
import Innova.Kernel.StakeModifier
import Innova.Kernel.Navigator
import Innova.Kernel.BranchModifier
import Innova.Kernel.ByValue
import Innova.TxLoc.ActiveLookup
import Innova.Chainstate.Observe
import Innova.Store3A.Commits
import Innova.Store3A.Reconcile
import Innova.Lib.Fields
import Innova.BlockIndex.GenerationFormat
import Innova.BlockIndex.GenerationDir
import Innova.BlockIndex.ValidateGeneration
import Innova.BlockIndex.GenerationAnswers
import Innova.BlockIndex.TailTree
import Innova.BlockIndex.SelectBranch
import Innova.BlockIndex.OperatorInvalid
import Innova.Lib.Flags
import Innova.Wallet.SelectCoins
import Innova.Wallet.Ledger
import Innova.Wallet.CreateTransaction
import Innova.Wallet.Rescan
import Innova.Wallet.SpentFlags
import Innova.Mempool.Pool
import Innova.Mempool.Coins
import Innova.Mempool.Node
import Innova.Mempool.Consistency
import Innova.Mempool.Presence
import Innova.Hreg.Registration
import Innova.Hreg.Node
import Innova.Hreg.Follow
import Innova.Hreg.Disconnect
import Innova.Hreg.Rebuild
import Innova.Checkpoints.CheckSync
import Innova.Checkpoints.Transparency
import Innova.ConnectBlock.CoinAge
import Innova.Store3A.TreeReader
import Innova.ConnectBlock.InputGate
import Innova.ConnectBlock.PrevTxMap
import Innova.Difficulty.Trust
import Innova.BlockIndex.CandidateFrontier
import Innova.BlockIndex.Redelivery
import Innova.BlockIndex.Ancestor
