import Helio.Lib.Bytes
import Helio.Lib.Trans
import Helio.Lib.Fifo
import Helio.Lib.Chain
import Helio.Lib.Binary
import Helio.Lib.FreeList
import Helio.Lib.Slices
import Helio.Lib.Layout
import Helio.Lib.Residue
import Helio.Lib.Ranges
import Helio.Base.Flit
import Helio.Base.MpscQueue
import Helio.Base.RingBuffer
import Helio.Base.IoBuf
import Helio.Base.PodArray.Model
import Helio.Base.PodArray.Refine
import Helio.Base.PmrArena
import Helio.Base.CuckooMap.Table
import Helio.Base.CuckooMap.Compact
import Helio.Base.CuckooMap.Sizing
import Helio.Base.CuckooMap.Iterator
import Helio.Lib.WordDiv
import Helio.Base.Libdivide
import Helio.Base.CuckooMap.FromHash
import Helio.Base.CuckooMap.Runs
import Helio.Fibers.EventCount
import Helio.Fibers.Await
import Helio.Fibers.SimpleChannel
import Helio.Fibers.FiberQueue
import Helio.Fibers.Proactor
import Helio.Fibers.Scheduler
import Helio.Fibers.Barrier
import Helio.Fibers.SharedMutex
import Helio.Fibers.Completion
import Helio.Fibers.Join
import Helio.Io.Sink
import Helio.Io.LineReader
import Helio.Io.ProcReader
import Helio.Io.AsyncWrite
import Helio.Io.File
import Helio.Metrics.Family
import Helio.Metrics.Iterate
import Helio.Util.SlidingCounter
import Helio.Fibers.UringEpoll.Model
import Helio.Fibers.UringEpoll.Invariant
import Helio.Fibers.UringEpoll.Frames
import Helio.Fibers.UringEpoll.Kernel
import Helio.Fibers.UringEpoll.Loop
import Helio.Fibers.UringEpoll.Calls
import Helio.Fibers.UringEpoll.Release
import Helio.Lib.Trace
import Helio.Fibers.Periodic.Base
import Helio.Fibers.Periodic.Uring
import Helio.Fibers.Periodic.UringSafety
import Helio.Fibers.Periodic.UringRuns
import Helio.Fibers.Periodic.Epoll
import Helio.Fibers.Periodic.Wrap
import Helio.Base.MpmcQueue.Model
import Helio.Base.MpmcQueue.Invariant
import Helio.Base.MpmcQueue.Safety
import Helio.Base.MpmcQueue.Sequential
