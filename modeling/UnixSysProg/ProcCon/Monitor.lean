/-
The hand-made monitor of `pa2_2` (`monitor.c`): the buffer, the two condition variables built from a flag,
a counter and a semaphore, and the two procedures. A place of a procedure is its next semaphore operation;
a step is that operation with the code up to the next one, which reads and writes only what the mutexes
taken so far protect.
-/
import UnixSysProg.Lib.Semaphore

namespace UnixSysProg.ProcCon

open UnixSysProg.Lib

/-! ## Data -/

/-- The semaphores, `emptyMutex` and `fullMutex` being `cond_empty.mutex` and `cond_full.mutex`. -/
inductive Sem
  | monitorMutex
  | producerMutex
  | consumerMutex
  | emptyMutex
  | fullMutex
  deriving DecidableEq

/-- `struct cv`. -/
structure Cv where
  blocked : Bool
  blockedThreadCount : Int32

/-- The globals of `monitor.c` but for the semaphores. `buffer` is the memory around the array, by the
distance from its start. -/
structure Monitor where
  bufferIndex : Int
  buffer : Int → UInt8
  condEmpty : Cv
  condFull : Cv

/-- What the procedures report: an access to the buffer with its index, and a return with the character
inserted or removed. -/
inductive Event
  | write (index : Int)
  | read (index : Int)
  | inserted (ch : UInt8)
  | removed (ch : UInt8)
  deriving DecidableEq

/-! ## `monitor_insert` -/

/-- The semaphore operations of `monitor_insert`, in the order of the code. `countPost num` is the
`sem_post` of `monitor_getNumConsumersBlocked`, with the number read. -/
inductive InsertPc
  | waitMonitor
  | waitProducer
  | blockedPostProducer
  | blockedPostMonitor
  | blockedWait
  | postProducer
  | waitConsumer
  | postConsumer
  | countWait
  | countPost (num : Int32)
  | signalWait
  | signalPost
  | signalDone
  | fullWait
  | fullPost
  | postMonitor
  deriving DecidableEq

def InsertPc.op : InsertPc → SemOp Sem
  | waitMonitor => .wait .monitorMutex
  | waitProducer => .wait .producerMutex
  | blockedPostProducer => .post .producerMutex
  | blockedPostMonitor => .post .monitorMutex
  | blockedWait => .wait .fullMutex
  | postProducer => .post .producerMutex
  | waitConsumer => .wait .consumerMutex
  | postConsumer => .post .consumerMutex
  | countWait => .wait .consumerMutex
  | countPost _ => .post .consumerMutex
  | signalWait => .wait .consumerMutex
  | signalPost => .post .emptyMutex
  | signalDone => .post .consumerMutex
  | fullWait => .wait .producerMutex
  | fullPost => .post .producerMutex
  | postMonitor => .post .monitorMutex

namespace Monitor

/-- `monitor_init`, in memory with `contents`. -/
def monitorInit (contents : Int → UInt8) : Monitor where
  bufferIndex := -1
  buffer := contents
  condEmpty := ⟨true, 0⟩
  condFull := ⟨false, 0⟩

/-- The test for a full buffer at the end of `monitor_insert`. -/
def insertCheck (m : Monitor) (bufferLength : Nat) : InsertPc :=
  if m.bufferIndex = bufferLength - 1 then .fullWait else .postMonitor

/-- `monitor_insert(ch)` from the operation at a place to the next one, or to the return. -/
def monitorInsert (m : Monitor) (bufferLength : Nat) (ch : UInt8) :
    InsertPc → Monitor × Option InsertPc × List Event
  | .waitMonitor => (m, some .waitProducer, [])
  | .waitProducer =>
    if m.condFull.blocked then
      ({ m with condFull.blockedThreadCount := m.condFull.blockedThreadCount + 1 }, some .blockedPostProducer, [])
    else (m, some .postProducer, [])
  | .blockedPostProducer => (m, some .blockedPostMonitor, [])
  | .blockedPostMonitor => (m, some .blockedWait, [])
  | .blockedWait => (m, some .waitMonitor, [])
  | .postProducer =>
    ({ m with
      buffer := Function.update m.buffer m.bufferIndex ch
      bufferIndex := m.bufferIndex + 1 }, some .waitConsumer, [.write m.bufferIndex])
  | .waitConsumer => ({ m with condEmpty.blocked := false }, some .postConsumer, [])
  | .postConsumer => (m, some .countWait, [])
  | .countWait => (m, some (.countPost m.condEmpty.blockedThreadCount), [])
  | .countPost num => (m, some (if 0 < num then .signalWait else m.insertCheck bufferLength), [])
  | .signalWait => (m, some .signalPost, [])
  | .signalPost =>
    ({ m with condEmpty.blockedThreadCount := m.condEmpty.blockedThreadCount - 1 }, some .signalDone, [])
  | .signalDone => (m, some (m.insertCheck bufferLength), [])
  | .fullWait => ({ m with condFull.blocked := true }, some .fullPost, [])
  | .fullPost => (m, some .postMonitor, [])
  | .postMonitor => (m, none, [.inserted ch])

end Monitor

/-! ## `monitor_remove` -/

/-- The semaphore operations of `monitor_remove`, in the order of the code. `countPost num` is the
`sem_post` of `monitor_getNumProducersBlocked`, with the number read. -/
inductive RemovePc
  | waitMonitor
  | waitConsumer
  | blockedPostConsumer
  | blockedPostMonitor
  | blockedWait
  | postConsumer
  | countWait
  | countPost (num : Int32)
  | signalWait
  | signalPost
  | signalDone
  | flagWait
  | flagPost
  | emptyWait
  | emptyPost
  | postMonitor
  deriving DecidableEq

def RemovePc.op : RemovePc → SemOp Sem
  | waitMonitor => .wait .monitorMutex
  | waitConsumer => .wait .consumerMutex
  | blockedPostConsumer => .post .consumerMutex
  | blockedPostMonitor => .post .monitorMutex
  | blockedWait => .wait .emptyMutex
  | postConsumer => .post .consumerMutex
  | countWait => .wait .producerMutex
  | countPost _ => .post .producerMutex
  | signalWait => .wait .consumerMutex
  | signalPost => .post .fullMutex
  | signalDone => .post .consumerMutex
  | flagWait => .wait .producerMutex
  | flagPost => .post .producerMutex
  | emptyWait => .wait .consumerMutex
  | emptyPost => .post .consumerMutex
  | postMonitor => .post .monitorMutex

/-- `monitor_remove` from the operation at a place to the next one, or to the return; `ch` is its
variable. -/
def Monitor.monitorRemove (m : Monitor) (ch : UInt8) : RemovePc → Monitor × Option RemovePc × UInt8 × List Event
  | .waitMonitor => (m, some .waitConsumer, ch, [])
  | .waitConsumer =>
    if m.condEmpty.blocked then
      ({ m with condEmpty.blockedThreadCount := m.condEmpty.blockedThreadCount + 1 }, some .blockedPostConsumer, ch, [])
    else (m, some .postConsumer, ch, [])
  | .blockedPostConsumer => (m, some .blockedPostMonitor, ch, [])
  | .blockedPostMonitor => (m, some .blockedWait, ch, [])
  | .blockedWait => (m, some .waitMonitor, ch, [])
  | .postConsumer =>
    ({ m with bufferIndex := m.bufferIndex - 1 }, some .countWait, m.buffer m.bufferIndex, [.read m.bufferIndex])
  | .countWait => (m, some (.countPost m.condFull.blockedThreadCount), ch, [])
  | .countPost num => (m, some (if 0 < num then .signalWait else .flagWait), ch, [])
  | .signalWait => (m, some .signalPost, ch, [])
  | .signalPost => (m, some .signalDone, ch, [])
  | .signalDone => (m, some .flagWait, ch, [])
  | .flagWait => ({ m with condFull.blocked := false }, some .flagPost, ch, [])
  | .flagPost => (m, some (if m.bufferIndex = -1 then .emptyWait else .postMonitor), ch, [])
  | .emptyWait => ({ m with condEmpty.blocked := true }, some .emptyPost, ch, [])
  | .emptyPost => (m, some .postMonitor, ch, [])
  | .postMonitor => (m, none, ch, [.removed ch])

/-! ## Either procedure -/

/-- The place of a thread in the procedure that it calls. -/
abbrev Place := InsertPc ⊕ RemovePc

def Place.op : Place → SemOp Sem := Sum.elim InsertPc.op RemovePc.op

/-- From a place to the next one, which is the first of the next call where the procedure returns. -/
inductive Proceeds (bufferLength : Nat) (m : Monitor) : Place → Monitor → Place → List Event → Prop
  | insert (ch : UInt8) (pc : InsertPc) : Proceeds bufferLength m (.inl pc) (m.monitorInsert bufferLength ch pc).1
      (.inl ((m.monitorInsert bufferLength ch pc).2.1.getD .waitMonitor)) (m.monitorInsert bufferLength ch pc).2.2
  | remove (ch : UInt8) (pc : RemovePc) : Proceeds bufferLength m (.inr pc) (m.monitorRemove ch pc).1
      (.inr ((m.monitorRemove ch pc).2.1.getD .waitMonitor)) (m.monitorRemove ch pc).2.2.2

end UnixSysProg.ProcCon
