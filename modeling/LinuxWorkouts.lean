import LinuxWorkouts.Allocator.Recovery
import LinuxWorkouts.Allocator.Interference
import LinuxWorkouts.Allocator.Unaligned
import LinuxWorkouts.Tcp.Completeness
import LinuxWorkouts.Log.Shutdown
import LinuxWorkouts.Eml.Isolation
import LinuxWorkouts.Eml.Rendering
import LinuxWorkouts.UrlChecker.Answers
import LinuxWorkouts.Kafka.Batches
import LinuxWorkouts.Kafka.ErrorChannel
import LinuxWorkouts.Collections.ConcurrentPop
import LinuxWorkouts.Sync.Semaphore
import LinuxWorkouts.Sync.Barrier
import LinuxWorkouts.SharedPtr.Ownership
import LinuxWorkouts.ProducerConsumer.Threads
import LinuxWorkouts.Lru.Refinement
import LinuxWorkouts.SortedList.Mutex
import LinuxWorkouts.MapReduce.Rounds
import LinuxWorkouts.Allocator.Wrapping
import LinuxWorkouts.Allocator.DoubleFree
import LinuxWorkouts.Channels.Merge
import LinuxWorkouts.Collections.VectorBounds
import LinuxWorkouts.MemCache.Failures
import LinuxWorkouts.Collections.IntVector
import LinuxWorkouts.Eml.EncodedNames
import LinuxWorkouts.Eml.Cyrillic
import LinuxWorkouts.Eml.Saving
import LinuxWorkouts.Rlp.LongHeaders
import LinuxWorkouts.Rlp.Termination
import LinuxWorkouts.Tcp.PoolWord
import LinuxWorkouts.Tcp.PoolRejects
import LinuxWorkouts.Tcp.RequestSafety
import LinuxWorkouts.Tcp.MoveFiles
import LinuxWorkouts.Tcp.DestPath
import LinuxWorkouts.Tcp.DisplaySafety
import LinuxWorkouts.Graphs.Dijkstra
import LinuxWorkouts.LinearAlgebra.Determinant
import LinuxWorkouts.LinearAlgebra.LeastSquares
import LinuxWorkouts.Graphs.FindTriangle
import LinuxWorkouts.Graphs.EulerianOutput
import LinuxWorkouts.HttpClient.SendRequest
import LinuxWorkouts.Rlp.Reverse
import LinuxWorkouts.Proc.Status
import LinuxWorkouts.Kafka.Producer
import LinuxWorkouts.MyCp.CopyFile
import LinuxWorkouts.NetworkAudit.Inventory
