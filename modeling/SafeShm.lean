import SafeShm.Seqlock
import SafeShm.CyclicBufferReads
import SafeShm.CyclicBufferLatest
import SafeShm.CyclicBufferRefinement
import SafeShm.ClosestSearch
import SafeShm.InterpolationSearch
import SafeShm.LiveQueries
import SafeShm.LockLifetimes
import SafeShm.SnapshotReads
import SafeShm.BlockingLoads
import SafeShm.WaitForWrite
import SafeShm.WriterRestarts
import SafeShm.FallbackSearches
import SafeShm.ProducerConsumer
import SafeShm.WriterLiveness
import SafeShm.BoundedReads
import SafeShm.SanitizedKeys
import SafeShm.ByteLayouts
import SafeShm.FlatSegments
import SafeShm.SwapRunnerShutdown
import SafeShm.SearchBounds
import SafeShm.BinaryFloats
import SafeShm.ImageSizes
import SafeShm.LoadProgress
import SafeShm.SequenceNumbers
import SafeShm.SerializedWriters
import SafeShm.SeveralWriters
import SafeShm.UnlappedReads
import SafeShm.ImageChannel
import SafeShm.FlatRuns
import SafeShm.QueryOrigins
import SafeShm.BlockingProgress
import SafeShm.LockProgress
import SafeShm.OwnerLifetimes
import SafeShm.KeyValidators
import SafeShm.SwapRunnerProgress
import SafeShm.TornSnapshots
import SafeShm.ChannelProgress
