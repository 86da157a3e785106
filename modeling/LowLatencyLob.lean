import LowLatencyLob.Concurrency.Program
import LowLatencyLob.Concurrency.Machine
import LowLatencyLob.Concurrency.RelyGuarantee
import LowLatencyLob.Concurrency.Interleaving
import LowLatencyLob.Sync.Ring
import LowLatencyLob.Sync.RingLog
import LowLatencyLob.Sync.RingTrace
import LowLatencyLob.Sync.RingRuns
import LowLatencyLob.Concurrency.Calls
import LowLatencyLob.Sync.RingOverrun
import LowLatencyLob.Sync.SeqLock
import LowLatencyLob.Sync.SeqLockCell
import LowLatencyLob.Sync.SeqLockRuns
import LowLatencyLob.Concurrency.Solo
import LowLatencyLob.Sync.SeqLockWrap
import LowLatencyLob.Book.OrderBook
import LowLatencyLob.Book.BTree
import LowLatencyLob.Book.SortedVec
import LowLatencyLob.Book.Agreement
import LowLatencyLob.Book.VecInvariants
import LowLatencyLob.Book.History
import LowLatencyLob.Book.Flat
import LowLatencyLob.Sequence.Slots
import LowLatencyLob.Book.FlatSide
import LowLatencyLob.Book.FlatRefines
import LowLatencyLob.Book.FlatWrap
import LowLatencyLob.Book.FlatLimits
import LowLatencyLob.Book.FlatInvariant
import LowLatencyLob.Book.TopN
import LowLatencyLob.Book.FlatUnwind
import LowLatencyLob.Concurrency.Messages
import LowLatencyLob.Concurrency.Publication
import LowLatencyLob.Sync.SeqLockMessages
import LowLatencyLob.Sync.SeqLockMessageRuns
import LowLatencyLob.Sync.RingMessages
import LowLatencyLob.Sync.RingMessageRuns
import LowLatencyLob.Sequence.Bytes
import LowLatencyLob.Feed.Corpus
import LowLatencyLob.Feed.CorpusFormat
import LowLatencyLob.Feed.CorpusRoundTrip
import LowLatencyLob.Feed.CorpusRewrite
import LowLatencyLob.Engine.Engine
import LowLatencyLob.Engine.EngineTrace
import LowLatencyLob.Engine.Consistency
import LowLatencyLob.Engine.EngineWrap
import LowLatencyLob.Engine.TopOfBook
import LowLatencyLob.Concurrency.Results
import LowLatencyLob.Engine.MidPrice
import LowLatencyLob.Engine.Unwind
import LowLatencyLob.Feed.Ticks
import LowLatencyLob.Feed.TicksExact
import LowLatencyLob.Feed.Recorder
import LowLatencyLob.Feed.RecorderBook
import LowLatencyLob.Feed.RecorderSync
import LowLatencyLob.Feed.RecorderTimes
import LowLatencyLob.Sequence.Text
import LowLatencyLob.Feed.Dechunk
import LowLatencyLob.Concurrency.Serial
import LowLatencyLob.Sync.RingSerial
import LowLatencyLob.Concurrency.Sequential
import LowLatencyLob.Feed.Synthetic
import LowLatencyLob.Sequence.Words
import LowLatencyLob.Feed.SyntheticSteps
import LowLatencyLob.Feed.SyntheticRuns
import LowLatencyLob.Feed.SyntheticBand
import LowLatencyLob.Feed.SyntheticStrays
import LowLatencyLob.Feed.SyntheticStream
import LowLatencyLob.Bench.Workload
import LowLatencyLob.Bench.Service
import LowLatencyLob.Bench.Arrivals
import LowLatencyLob.Concurrency.Specification
import LowLatencyLob.Concurrency.Progress
import LowLatencyLob.Sync.Progress
import LowLatencyLob.Concurrency.Projection
import LowLatencyLob.Engine.Broadcast
import LowLatencyLob.Engine.EngineSerial
import LowLatencyLob.Engine.Demo
import LowLatencyLob.Sequence.Queue
import LowLatencyLob.Bench.Sustained
import LowLatencyLob.Bench.BranchExp
import LowLatencyLob.Feed.Gen
import LowLatencyLob.Engine.Corpus
import LowLatencyLob.Concurrency.Clients
import LowLatencyLob.Bench.E2e
import LowLatencyLob.Bench.E2eTrace
import LowLatencyLob.Bench.E2eBarrier
import LowLatencyLob.Bench.E2eContract
import LowLatencyLob.Bench.E2eConsumer
import LowLatencyLob.Bench.E2eProducer
import LowLatencyLob.Bench.E2eRuns
