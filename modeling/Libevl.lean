import Libevl.Transition
import Libevl.Rwlock
import Libevl.RwlockInvariant
import Libevl.RwlockSafety
import Libevl.RingPtr
import Libevl.RingPtrInvariant
import Libevl.AvlShape
import Libevl.RingPtrSafety
import Libevl.AvlBalance
import Libevl.AvlLoops
import Libevl.AvlSpec
import Libevl.AvlUpdate
import Libevl.AvlDelete
import Libevl.Heap
import Libevl.PageRing
import Libevl.Tiling
import Libevl.HeapRange
import Libevl.HeapBucket
import Libevl.HeapInvariant
import Libevl.HeapRequest
import Libevl.HeapPages
import Libevl.HeapAlloc
import Libevl.HeapFree
import Libevl.HeapInit
import Libevl.HeapRun
import Libevl.HeapSafety
import Libevl.HeapChecks
import Libevl.HeapLists
import Libevl.HeapDrain
import Libevl.HeapTwin
import Libevl.RingPtrBounds
import Libevl.RingPtrAlone
import Libevl.RingPtrFull
import Libevl.RingPtrFifo
import Libevl.RingPtrWrap
import Libevl.RingPtrWrapSafety
import Libevl.RwlockReaders
import Libevl.AvlRun
import Libevl.RwlockFailure
import Libevl.Sem
import Libevl.SemSafety
import Libevl.Mutex
import Libevl.MutexNesting
import Libevl.HeapBestFit
import Libevl.HeapSizes
import Libevl.HeapCheckBlock
import Libevl.SemPoll
import Libevl.NetFrame
import Libevl.NetRx
import Libevl.EvlCheck
import Libevl.EvlCheckConfig
import Libevl.EvlCheckList
import Libevl.RingPtrMap
import Libevl.AvlNearest
import Libevl.ListHead
import Libevl.Comparison
import Libevl.EvlPs
import Libevl.LatmusStats
import Libevl.EvlPsSort
import Libevl.EvlPsScan
import Libevl.HeapRings
import Libevl.LockedObject
import Libevl.MutexLock
import Libevl.HeapLocked
import Libevl.BucketIndex
import Libevl.Vdso
import Libevl.VdsoLookup
import Libevl.VdsoInit
import Libevl.InternetChecksum
import Libevl.Buffer
import Libevl.IcmpEcho
import Libevl.CpuList
import Libevl.EarlyExit
import Libevl.LatmusHistogram
import Libevl.LatmusNet
import Libevl.LatmonStream
import Libevl.NetExchange
import Libevl.AvlDepth
import Libevl.Event
