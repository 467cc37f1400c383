import MiniHadoop.Ndfs.ImageMentions
import MiniHadoop.Ndfs.WriteOutcome
import MiniHadoop.Ndfs.FileMap
import MiniHadoop.Ndfs.Clients
import MiniHadoop.Ndfs.Interleaving
import MiniHadoop.Ndfs.Writers
import MiniHadoop.Ndfs.ReadOverlap
import MiniHadoop.Ndfs.Operations
import MiniHadoop.Ndfs.Locations
import MiniHadoop.Ndfs.BlockMap
import MiniHadoop.Ndfs.SafeMode
import MiniHadoop.Ndfs.TreeRefinement
import MiniHadoop.Mapred.MapPhase
import MiniHadoop.Base.Reading
import MiniHadoop.Io.Buffer
import MiniHadoop.Io.Writable
import MiniHadoop.Ndfs.NameNode
import MiniHadoop.Base.Framing
import MiniHadoop.Ipc.Rpc
import MiniHadoop.Ndfs.Malformed
import MiniHadoop.Ndfs.Protocol
import MiniHadoop.Base.Counting
import MiniHadoop.Ipc.Conversation
import MiniHadoop.Mapred.Completion
import MiniHadoop.Mapred.JobThreads
import MiniHadoop.Mapred.Messages
import MiniHadoop.Mapred.SharedClient
import MiniHadoop.Mapred.Shuffle
import MiniHadoop.Mapred.Independence
import MiniHadoop.Mapred.ReduceOutput
import MiniHadoop.Mapred.OutputStreams
import MiniHadoop.Io.SequenceFile
import MiniHadoop.Io.TypedBuffer
import MiniHadoop.Mapred.Engines
import MiniHadoop.Ndfs.Addresses
import MiniHadoop.Ndfs.BlockStore
import MiniHadoop.Ndfs.Replication
import MiniHadoop.Ndfs.StartFile
import MiniHadoop.Ndfs.ByteStreams
import MiniHadoop.Ndfs.Chunking
import MiniHadoop.Ndfs.Failover
import MiniHadoop.Ipc.Oversize
import MiniHadoop.Ndfs.Leases
import MiniHadoop.Mapred.Assignments
import MiniHadoop.Mapred.Duplicates
import MiniHadoop.Mapred.PartialInput
import MiniHadoop.Base.Comparison
import MiniHadoop.Base.OrderedMap
import MiniHadoop.Base.Words
import MiniHadoop.Io.AnyFile
import MiniHadoop.Io.BufferBounds
import MiniHadoop.Io.CompareTo
import MiniHadoop.Mapred.Combining
import MiniHadoop.Mapred.CombiningCollector
import MiniHadoop.Mapred.RecordReaders
import MiniHadoop.Mapred.WordCount
import MiniHadoop.Ipc.WorkerPool
import MiniHadoop.Ipc.RoundTrip
import MiniHadoop.Ndfs.DataNode
import MiniHadoop.Ndfs.Persistence
import MiniHadoop.Ndfs.ClientWire
import MiniHadoop.Ndfs.Status
import MiniHadoop.Mapred.JobWire
import MiniHadoop.Mapred.FullChain
import MiniHadoop.Mapred.JobServers
import MiniHadoop.Shell.Main
import MiniHadoop.Shell.Refinement
import MiniHadoop.Mapred.RecordWriters
import MiniHadoop.Ndfs.SaveSteps
import MiniHadoop.Mapred.Termination
import MiniHadoop.Mapred.LostTasks
import MiniHadoop.Ndfs.BlockThreads
import MiniHadoop.Io.TypedFile
import MiniHadoop.Ndfs.StorageRuns
import MiniHadoop.Ndfs.Leftovers
