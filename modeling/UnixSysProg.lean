import UnixSysProg.Lib.Run
import UnixSysProg.Lib.Loop
import UnixSysProg.Lib.Scan
import UnixSysProg.Lib.Recency
import UnixSysProg.Lib.Rank
import UnixSysProg.Lib.Ring
import UnixSysProg.Lib.Fifo
import UnixSysProg.Lib.Tally
import UnixSysProg.Lib.Semaphore
import UnixSysProg.Lib.Mutex
import UnixSysProg.Lib.Runs
import UnixSysProg.Lib.Rounding
import UnixSysProg.Lib.Links
import UnixSysProg.Lib.Descriptors
import UnixSysProg.Lib.Competitive
import UnixSysProg.Lib.CString
import UnixSysProg.Lib.Decimal
import UnixSysProg.Vmm.Globals
import UnixSysProg.Vmm.BackingStore
import UnixSysProg.Vmm.PhysicalMemory
import UnixSysProg.Vmm.Request
import UnixSysProg.Vmm.Tlb
import UnixSysProg.Vmm2.PageTable
import UnixSysProg.Vmm2.Manager
import UnixSysProg.Vmm2.Step
import UnixSysProg.Vmm2.Frames
import UnixSysProg.Vmm2.Paging
import UnixSysProg.Vmm2.NoTlb
import UnixSysProg.Vmm2.Inclusion
import UnixSysProg.Vmm2.LeastRecent
import UnixSysProg.Vmm2.FirstIn
import UnixSysProg.Vmm2.Failures
import UnixSysProg.Vmm2.FrameCount
import UnixSysProg.Vmm2.Main
import UnixSysProg.Vmm2.Competitive
import UnixSysProg.Vmm2.GenerateTest
import UnixSysProg.Vmm2.Report
import UnixSysProg.Vmm1.Manager
import UnixSysProg.Vmm1.Spec
import UnixSysProg.Vmm1.TlbCache
import UnixSysProg.Generations
import UnixSysProg.Statistics
import UnixSysProg.TlbMisses
import UnixSysProg.Reports
import UnixSysProg.Zlog
import UnixSysProg.Sched.Scheduler
import UnixSysProg.Sched.Invariant
import UnixSysProg.Sched.Quanta
import UnixSysProg.Sched.RoundRobin
import UnixSysProg.Sched.Oracle
import UnixSysProg.Sched.Refinement
import UnixSysProg.Sched.Progress
import UnixSysProg.Sched.Fairness
import UnixSysProg.Sched.Bound
import UnixSysProg.Sched.Microseconds
import UnixSysProg.Sched.Totals
import UnixSysProg.Sched.Finishing
import UnixSysProg.Sched.OnTime
import UnixSysProg.Sched.TestTimes
import UnixSysProg.Sched.LinkedList
import UnixSysProg.Sched.Signals
import UnixSysProg.TestRunner
import UnixSysProg.ProcCon.Monitor
import UnixSysProg.ProcCon.Threads
import UnixSysProg.ProcCon.Exclusion
import UnixSysProg.ProcCon.Flags
import UnixSysProg.ProcCon.Buffer
import UnixSysProg.ProcCon.Counters
import UnixSysProg.ProcCon.Drain
import UnixSysProg.ProcCon.Wakeups
import UnixSysProg.ProcCon.Deadlock
import UnixSysProg.Pthread.Threads
import UnixSysProg.Pthread.Counting
import UnixSysProg.Pthread.Drained
import UnixSysProg.Pthread.Ending
import UnixSysProg.Osh.Command
import UnixSysProg.Osh.InputHandler
import UnixSysProg.Osh.Parser
import UnixSysProg.Osh.Segment
import UnixSysProg.Osh.Grammar
import UnixSysProg.Osh.Simulation
import UnixSysProg.Osh.Safety
import UnixSysProg.Osh.History
import UnixSysProg.Osh.RoundTrip
import UnixSysProg.Osh.Consumed
import UnixSysProg.Osh.Lossless
import UnixSysProg.Osh.Modes
import UnixSysProg.Osh.Executor
import UnixSysProg.Osh.ShortCircuit
import UnixSysProg.Osh.Pipeline
import UnixSysProg.Osh.Balance
import UnixSysProg.Osh.Child
import UnixSysProg.Osh.FreeChain
import UnixSysProg.Osh.Wiring
import UnixSysProg.Osh.Plumbing
import UnixSysProg.Osh.Session
import UnixSysProg.Osh.Script
