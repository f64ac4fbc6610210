import TaurusNode.Lib.PairUp
import TaurusNode.Lib.Bits
import TaurusNode.Lib.SearchLoop
import TaurusNode.Lib.PartialRun
import TaurusNode.Lib.KeyedList
import TaurusNode.Lib.OrderedIndex
import TaurusNode.Lib.Ledger
import TaurusNode.Lib.UndoLog
import TaurusNode.Lib.SnapshotStack
import TaurusNode.Chain.IncrementalMerkle
import TaurusNode.Chain.Name
import TaurusNode.Chain.Authority
import TaurusNode.Lib.Text
import TaurusNode.Chain.Asset
import TaurusNode.Chain.AuthorityChecker
import TaurusNode.Chain.AuthoritySoundness
import TaurusNode.Chain.BlockSigningAuthority
import TaurusNode.Chain.AuthorizationManager
import TaurusNode.Chain.ForkDatabase
import TaurusNode.Chain.ForkDatabaseHead
import TaurusNode.Chain.ForkDatabaseOrphans
import TaurusNode.Lib.ParentTree
import TaurusNode.Chain.ForkDatabaseTree
import TaurusNode.Chain.ForkDatabaseBranch
import TaurusNode.Chain.ProtocolFeatureManager
import TaurusNode.Chain.BlockLog
import TaurusNode.Chain.BlockLogFutures
import TaurusNode.Chain.ContractTables
import TaurusNode.Chain.RamAccounting
import TaurusNode.Chain.TableCounts
import TaurusNode.Chain.TransactionDedup
import TaurusNode.Chain.ReplayProtection
import TaurusNode.ChainKv.UndoStack
import TaurusNode.ChainKv.WriteSession
import TaurusNode.ChainKv.UndoRefinement
import TaurusNode.Lib.Fallible
import TaurusNode.Chain.ResourceLimits
import TaurusNode.Chain.ResourceLimitTotals
import TaurusNode.Chain.BlockHeaderState
import TaurusNode.Chain.ForkDatabaseFile
import TaurusNode.Lib.Bytes
import TaurusNode.StateHistory.Log
import TaurusNode.StateHistory.LogEntries
import TaurusNode.StateHistory.LogRecovery
import TaurusNode.StateHistory.LogCatalog
import TaurusNode.Lib.OutputRun
import TaurusNode.StateHistory.Session
import TaurusNode.StateHistory.SessionStream
import TaurusNode.AmqpTrx.Plugin
import TaurusNode.Lib.SortedMap
import TaurusNode.ChainKv.KeyOrder
import TaurusNode.Lib.LexDigits
import TaurusNode.Lib.BinaryFloat
import TaurusNode.ChainKv.KeyEncoding
import TaurusNode.ChainKv.ViewModel
import TaurusNode.ChainKv.ViewWalk
import TaurusNode.ChainKv.ViewIterator
import TaurusNode.ChainKv.ViewIteration
import TaurusNode.Lib.Refinement
import TaurusNode.Chain.KvIntrinsics
import TaurusNode.Chain.KvContext
import TaurusNode.Chain.KvContextSpec
import TaurusNode.Chain.UsageAccumulators
import TaurusNode.Chain.ResourceUsage
import TaurusNode.Chain.ElasticLimits
import TaurusNode.Chain.PlatformTimer
import TaurusNode.ProducerPlugin.SubjectiveBilling
import TaurusNode.ProducerHa.LogStore
import TaurusNode.Chain.UnappliedTransactionQueue
import TaurusNode.Lib.TransitionTable
import TaurusNode.NetPlugin.SyncManager
import TaurusNode.TraceApi.CompressedFile
import TaurusNode.AmqpTrx.FifoQueue
import TaurusNode.Lib.RoundRobin
import TaurusNode.ProducerPlugin.BlockProducer
import TaurusNode.TraceApi.SliceMaintenance
import TaurusNode.Lib.RawPack
import TaurusNode.Chain.PrunableBlock
import TaurusNode.Chain.BlockLogFile
import TaurusNode.Chain.BlockLogPrune
import TaurusNode.Chain.BlockLogStore
import TaurusNode.Chain.BlockLogRecovery
import TaurusNode.ProducerPlugin.PendingSnapshotTracker
import TaurusNode.Amqp.ReliablePublisher
import TaurusNode.Amqp.TransactionalPublisher
