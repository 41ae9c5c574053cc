import LsmKv.Lib.Run
import LsmKv.Lib.KeySorted
import LsmKv.Lib.MaxRegister
import LsmKv.Lib.RacedRegister
import LsmKv.Lib.SortedQueue
import LsmKv.Lib.RingSlots
import LsmKv.Lib.Dll
import LsmKv.Lib.Lru
import LsmKv.Lib.Claims
import LsmKv.Lib.FixedRecords
import LsmKv.Lib.Crash
import LsmKv.Lib.Rounds
import LsmKv.Lib.LamportLock
import LsmKv.Lib.LamportLock.Inv
import LsmKv.Lib.LamportLock.Exclusion
import LsmKv.Lib.LamportLock.Holder
import LsmKv.Lib.LamportLock.Progress
import LsmKv.Lib.LamportLock.Grants
import LsmKv.Lib.LamportClock
import LsmKv.Text
import LsmKv.Cache
import LsmKv.Cache.Heap
import LsmKv.C0
import LsmKv.C0.Avl
import LsmKv.C0.Lookup
import LsmKv.C0.Flags
import LsmKv.C1
import LsmKv.C1.Record
import LsmKv.C1.Merge
import LsmKv.C1.Search
import LsmKv.C1.Probe
import LsmKv.C1.Batch
import LsmKv.C1.Index
import LsmKv.C1.Table
import LsmKv.C1.Steps
import LsmKv.C1.Atomic
import LsmKv.C1.Sources
import LsmKv.Store
import LsmKv.Store.Bound
import LsmKv.C0.Depth
import LsmKv.Store.Live
import LsmKv.Store.Deleted
import LsmKv.Store.Reads
import LsmKv.Store.Recent
import LsmKv.Store.Duplicates
import LsmKv.Store.Interleave
import LsmKv.Store.Dump
import LsmKv.Journal
import LsmKv.Journal.Bytes
import LsmKv.C1.Restart
import LsmKv.Journal.Rollback
import LsmKv.Journal.Remove
import LsmKv.Journal.Strays
import LsmKv.Journal.Replay
import LsmKv.Journal.Durable
import LsmKv.Journal.Coverage
import LsmKv.Journal.Steps
import LsmKv.Journal.Boot
import LsmKv.Journal.FailedFlush
import LsmKv.Journal.CacheCount
import LsmKv.Journal.NoLog
import LsmKv.Journal.Recovered
import LsmKv.Store.Concurrent
import LsmKv.Store.Alone
import LsmKv.Abd
import LsmKv.C1.ReadBack
import LsmKv.Abd.Register
import LsmKv.Abd.Races
import LsmKv.Abd.Handler
import LsmKv.Abd.Missing
import LsmKv.Abd.Client
import LsmKv.Abd.ReadPhase
import LsmKv.Abd.Majority
import LsmKv.Abd.Recovery
import LsmKv.Pqueue
import LsmKv.Pqueue.Ring
import LsmKv.Lock
import LsmKv.Lock.Framing
import LsmKv.Lock.Abstract
import LsmKv.Lock.Exclusion
import LsmKv.Lock.Holder
import LsmKv.Lock.Replicas
import LsmKv.Lock.Trace
import LsmKv.Lock.Grants
import LsmKv.Lock.Replies
import LsmKv.Lock.Progress
import LsmKv.Lock.Deferral
import LsmKv.Lock.Slots
import LsmKv.Lock.Connect
import LsmKv.Lock.Clock
