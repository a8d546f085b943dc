/-
The round-robin scheduler of `pa4_1` (`scheduler.c`, `worker.c`, `list.c`) as a transition system.
The parties are the scheduler thread that arms the timer, the runs of `timer_handler`, which do not
overlap, and the workers; a step is a piece of code between two accesses to what they share, the
queue, the semaphore and the signals. A worker's index stands for its thread id and for its list
element, and the list is the sequence of its elements.
-/
import Mathlib.Data.Fintype.Card
import Mathlib.Logic.Function.Basic
import Mathlib.Data.Finset.Card

namespace UnixSysProg.Sched

/-! ## Time -/

/-- `struct timespec`. -/
structure Timespec where
  tvSec : Int
  tvNsec : Int
  deriving DecidableEq

/-- `time_difference`, in microseconds. -/
def timeDifference (time1 time2 : Timespec) : Int :=
  (time1.tvSec - time2.tvSec) * 1000000 + (time1.tvNsec - time2.tvNsec).tdiv 1000

/-! ## State -/

/-- `struct thread_info`. -/
structure ThreadInfo where
  quanta : Int32
  suspendTime : Timespec
  resumeTime : Timespec
  waitTime : Int
  runTime : Int
  deriving DecidableEq

/-- `update_run_time`. -/
def ThreadInfo.updateRunTime (info : ThreadInfo) : ThreadInfo :=
  { info with
    quanta := info.quanta - 1
    runTime := info.runTime + timeDifference info.suspendTime info.resumeTime }

/-- The counter of quanta does not wrap on its way down to 0. -/
theorem quanta_sub_one {q : Int32} (h : 1 ≤ q.toInt) : (q - 1).toInt = q.toInt - 1 := by
  have := q.toInt_lt
  rw [Int32.toInt_sub]
  exact Int.bmod_eq_of_le (by simp; omega) (by simp; omega)

theorem quanta_sub_one_eq_zero {q : Int32} (h : 1 ≤ q.toInt) : q - 1 = 0 ↔ q.toInt = 1 := by
  rw [← Int32.toInt_inj, quanta_sub_one h, Int32.toInt_zero]
  omega

/-- `update_wait_time`. -/
def ThreadInfo.updateWaitTime (info : ThreadInfo) : ThreadInfo :=
  { info with waitTime := info.waitTime + timeDifference info.resumeTime info.suspendTime }

/-- Where a worker stands: at `sem_wait`, past it and about to insert itself, in the queue, sent
`SIGTERM`, and past the `sem_post` of `cancel_thread`. -/
inductive WorkerPc
  | waiting
  | entering
  | queued
  | terminating
  | exited
  deriving DecidableEq

/-- The worker has been through `list_insert_tail`. -/
def WorkerPc.entered : WorkerPc → Bool
  | waiting | entering => false
  | queued | terminating | exited => true

/-- `cancel_worker` has sent the worker `SIGTERM`. -/
def WorkerPc.signalled : WorkerPc → Bool
  | waiting | entering | queued => false
  | terminating | exited => true

theorem WorkerPc.entered_of_signalled {x : WorkerPc} (h : x.signalled = true) : x.entered = true := by
  cases x <;> first | rfl | cases h

/-- Where a run of `timer_handler` stands: between `list_remove` and `list_insert_tail` of
`suspend_worker`, before each part of `cancel_worker`, or in `next_worker`. -/
inductive HandlerPc (threadCount : Nat)
  | idle
  | requeueRemove (worker : Fin threadCount)
  | requeueInsert (worker : Fin threadCount)
  | cancelSignal (worker : Fin threadCount)
  | cancelTotals (worker : Fin threadCount)
  | leave (worker : Fin threadCount)
  | schedule
  deriving DecidableEq

/-- The globals of `scheduler.c`, the workers' records and where everyone stands. -/
structure Scheduler (threadCount : Nat) where
  info : Fin threadCount → ThreadInfo
  pc : Fin threadCount → WorkerPc
  handler : HandlerPc threadCount
  queueSem : Nat
  schedQueue : List (Fin threadCount)
  currentThread : Option (Fin threadCount)
  completed : Nat
  waitTimes : Int
  runTimes : Int
  quit : Bool
  armed : Bool

/-- What the handler reports of a worker. -/
inductive Event (threadCount : Nat)
  | resuming (worker : Fin threadCount)
  | suspending (worker : Fin threadCount)
  | leaving (worker : Fin threadCount)
  deriving DecidableEq

/-- A step: a turn of `scheduler_run` before the timer is armed, a timer signal, the next step of the
handler, or a step of a worker. -/
inductive Action (threadCount : Nat)
  | start
  | tick (now : Timespec)
  | handler (now : Timespec)
  | semWait (worker : Fin threadCount)
  | enter (worker : Fin threadCount)
  | semPost (worker : Fin threadCount)

/-- The step cannot be taken in this state. -/
inductive Blocked
  | blocked

namespace Scheduler

variable {n : Nat}

/-- Before the first step: all workers at `sem_wait`, and `thread_info` memory as `info` has it. -/
def initial (queueSize : Nat) (info : Fin n → ThreadInfo) : Scheduler n where
  info := info
  pc _ := .waiting
  handler := .idle
  queueSem := queueSize
  schedQueue := []
  currentThread := none
  completed := 0
  waitTimes := 0
  runTimes := 0
  quit := false
  armed := false

/-! ## Steps -/

/-- `list_remove`. -/
def listRemove (list : List (Fin n)) (old : Fin n) : List (Fin n) := list.erase old

/-- `list_insert_tail`. -/
def listInsertTail (list : List (Fin n)) (new : Fin n) : List (Fin n) := list ++ [new]

@[simp, grind =] theorem mem_listInsertTail {list : List (Fin n)} {new w : Fin n} :
    w ∈ listInsertTail list new ↔ w ∈ list ∨ w = new := by simp [listInsertTail]

@[grind .] theorem listInsertTail_ne_nil (list : List (Fin n)) (new : Fin n) : listInsertTail list new ≠ [] := by
  simp [listInsertTail]

theorem nodup_listInsertTail {list : List (Fin n)} {new : Fin n} (h : list.Nodup) (hn : new ∉ list) :
    (listInsertTail list new).Nodup := List.nodup_append_comm.1 (List.nodup_cons.2 ⟨hn, h⟩)

theorem mem_listRemove {list : List (Fin n)} {old w : Fin n} (h : list.Nodup) :
    w ∈ listRemove list old ↔ w ≠ old ∧ w ∈ list := h.mem_erase_iff

/-- `suspend_worker`, up to the decision between suspending and cancelling. -/
def suspendWorker (s : Scheduler n) (w : Fin n) (now : Timespec) : Scheduler n :=
  let info := ThreadInfo.updateRunTime { s.info w with suspendTime := now }
  { s with
    info := Function.update s.info w info
    handler := if info.quanta ≠ 0 then .requeueRemove w else .cancelSignal w }

/-- `resume_worker`, with `currentThread` updated. -/
def resumeWorker (s : Scheduler n) (w : Fin n) (now : Timespec) : Scheduler n :=
  { s with
    info := Function.update s.info w (ThreadInfo.updateWaitTime { s.info w with resumeTime := now })
    currentThread := some w
    handler := .idle }

theorem suspendWorker_busy (s : Scheduler n) (w : Fin n) (now : Timespec) : (s.suspendWorker w now).handler ≠ .idle := by
  unfold suspendWorker
  dsimp only
  split <;> simp

@[simp] theorem suspendWorker_pc (s : Scheduler n) (w : Fin n) (now : Timespec) : (s.suspendWorker w now).pc = s.pc := rfl

@[simp] theorem suspendWorker_schedQueue (s : Scheduler n) (w : Fin n) (now : Timespec) :
    (s.suspendWorker w now).schedQueue = s.schedQueue := rfl

theorem suspendWorker_other (s : Scheduler n) {w v : Fin n} (h : v ≠ w) (now : Timespec) :
    (s.suspendWorker w now).info v = s.info v := Function.update_of_ne h ..

/-- A suspension takes a quantum. -/
theorem suspendWorker_quanta {s : Scheduler n} {w : Fin n} (h : 1 ≤ (s.info w).quanta.toInt) (now : Timespec) :
    ((s.suspendWorker w now).info w).quanta.toInt = (s.info w).quanta.toInt - 1 := by
  rw [← quanta_sub_one h]
  simp [suspendWorker, ThreadInfo.updateRunTime]

/-- The last quantum decides. -/
theorem suspendWorker_handler {s : Scheduler n} {w : Fin n} (h : 1 ≤ (s.info w).quanta.toInt) (now : Timespec) :
    (s.suspendWorker w now).handler =
      if (s.info w).quanta.toInt = 1 then .cancelSignal w else .requeueRemove w := by
  simp only [suspendWorker, ThreadInfo.updateRunTime, ne_eq, quanta_sub_one_eq_zero h, ite_not]

theorem resumeWorker_quanta (s : Scheduler n) (w v : Fin n) (now : Timespec) :
    ((s.resumeWorker w now).info v).quanta = (s.info v).quanta := by
  simp only [resumeWorker, Function.update_apply]
  split
  · rename_i hv; rw [hv]; rfl
  · rfl

/-- The next step of a run of `timer_handler`. -/
def handlerStep (s : Scheduler n) (now : Timespec) : Except Blocked (Scheduler n × List (Event n)) :=
  match s.handler with
  | .idle => .error .blocked
  | .requeueRemove w => .ok ({ s with schedQueue := listRemove s.schedQueue w, handler := .requeueInsert w }, [])
  | .requeueInsert w => .ok ({ s with schedQueue := listInsertTail s.schedQueue w, handler := .schedule }, [])
  | .cancelSignal w => .ok ({ s with pc := Function.update s.pc w .terminating, handler := .cancelTotals w }, [])
  | .cancelTotals w =>
    .ok ({ s with
      waitTimes := s.waitTimes + (s.info w).waitTime
      runTimes := s.runTimes + (s.info w).runTime
      completed := s.completed + 1
      handler := .leave w }, [])
  | .leave w => .ok ({ s with schedQueue := listRemove s.schedQueue w, handler := .schedule }, [.leaving w])
  | .schedule =>
    if s.completed ≥ n then .ok ({ s with currentThread := none, quit := true, handler := .idle }, [])
    else
      match s.schedQueue with
      | [] => .ok (s, [])
      | w :: _ => .ok (s.resumeWorker w now, [.resuming w])

def step (s : Scheduler n) : Action n → Except Blocked (Scheduler n × List (Event n))
  | .start =>
    if s.armed then .error .blocked
    else if s.schedQueue = [] then .ok (s, [])
    else .ok ({ s with armed := true }, [])
  | .tick now =>
    if s.armed = false ∨ s.handler ≠ .idle then .error .blocked
    else if s.schedQueue = [] then .ok ({ s with quit := true }, [])
    else
      match s.currentThread with
      | none => .ok ({ s with handler := .schedule }, [])
      | some w => .ok (s.suspendWorker w now, [.suspending w])
  | .handler now => s.handlerStep now
  | .semWait w =>
    if s.pc w = .waiting ∧ 0 < s.queueSem then
      .ok ({ s with pc := Function.update s.pc w .entering, queueSem := s.queueSem - 1 }, [])
    else .error .blocked
  | .enter w =>
    if s.pc w = .entering then
      .ok ({ s with pc := Function.update s.pc w .queued, schedQueue := listInsertTail s.schedQueue w }, [])
    else .error .blocked
  | .semPost w =>
    if s.pc w = .terminating then
      .ok ({ s with pc := Function.update s.pc w .exited, queueSem := s.queueSem + 1 }, [])
    else .error .blocked

/-! ## What a step can do -/

/-- What one step does to the scheduler, and what it reports. -/
inductive Move (s : Scheduler n) : Action n → Scheduler n → List (Event n) → Prop
  | waitStart : s.armed = false → s.schedQueue = [] → Move s .start s []
  | arm : s.armed = false → s.schedQueue ≠ [] → Move s .start { s with armed := true } []
  | tickEmpty {now : Timespec} : s.armed = true → s.handler = .idle → s.schedQueue = [] →
      Move s (.tick now) { s with quit := true } []
  | tickFirst {now : Timespec} : s.armed = true → s.handler = .idle → s.schedQueue ≠ [] → s.currentThread = none →
      Move s (.tick now) { s with handler := .schedule } []
  | suspend {now : Timespec} {w : Fin n} : s.armed = true → s.handler = .idle → s.schedQueue ≠ [] →
      s.currentThread = some w → Move s (.tick now) (s.suspendWorker w now) [.suspending w]
  | remove {now : Timespec} {w : Fin n} : s.handler = .requeueRemove w →
      Move s (.handler now) { s with schedQueue := listRemove s.schedQueue w, handler := .requeueInsert w } []
  | insert {now : Timespec} {w : Fin n} : s.handler = .requeueInsert w →
      Move s (.handler now) { s with schedQueue := listInsertTail s.schedQueue w, handler := .schedule } []
  | signal {now : Timespec} {w : Fin n} : s.handler = .cancelSignal w →
      Move s (.handler now) { s with pc := Function.update s.pc w .terminating, handler := .cancelTotals w } []
  | totals {now : Timespec} {w : Fin n} : s.handler = .cancelTotals w →
      Move s (.handler now) { s with
        waitTimes := s.waitTimes + (s.info w).waitTime
        runTimes := s.runTimes + (s.info w).runTime
        completed := s.completed + 1
        handler := .leave w } []
  | leave {now : Timespec} {w : Fin n} : s.handler = .leave w →
      Move s (.handler now) { s with schedQueue := listRemove s.schedQueue w, handler := .schedule } [.leaving w]
  | finish {now : Timespec} : s.handler = .schedule → n ≤ s.completed →
      Move s (.handler now) { s with currentThread := none, quit := true, handler := .idle } []
  | waitQueue {now : Timespec} : s.handler = .schedule → s.completed < n → s.schedQueue = [] →
      Move s (.handler now) s []
  | resume {now : Timespec} {w : Fin n} {rest : List (Fin n)} : s.handler = .schedule → s.completed < n →
      s.schedQueue = w :: rest → Move s (.handler now) (s.resumeWorker w now) [.resuming w]
  | semWait {w : Fin n} : s.pc w = .waiting → 0 < s.queueSem →
      Move s (.semWait w) { s with pc := Function.update s.pc w .entering, queueSem := s.queueSem - 1 } []
  | enter {w : Fin n} : s.pc w = .entering →
      Move s (.enter w) { s with pc := Function.update s.pc w .queued, schedQueue := listInsertTail s.schedQueue w } []
  | semPost {w : Fin n} : s.pc w = .terminating →
      Move s (.semPost w) { s with pc := Function.update s.pc w .exited, queueSem := s.queueSem + 1 } []

theorem move_of_handlerStep {s s' : Scheduler n} {now : Timespec} {es : List (Event n)}
    (h : s.handlerStep now = .ok (s', es)) : Move s (.handler now) s' es := by
  unfold handlerStep at h
  split at h
  · cases h
  · cases h; exact .remove ‹_›
  · cases h; exact .insert ‹_›
  · cases h; exact .signal ‹_›
  · cases h; exact .totals ‹_›
  · cases h; exact .leave ‹_›
  · split at h
    · cases h; exact .finish ‹_› ‹_›
    · rename_i hs hc
      split at h
      · cases h; exact .waitQueue hs (not_le.1 hc) ‹_›
      · cases h; exact .resume hs (not_le.1 hc) ‹_›

theorem move_of_step {s s' : Scheduler n} {a : Action n} {es : List (Event n)} (h : s.step a = .ok (s', es)) :
    Move s a s' es := by
  cases a with
  | start =>
    simp only [step] at h
    split at h
    · cases h
    · rename_i ha
      split at h
      · cases h; exact .waitStart (by simpa using ha) ‹_›
      · cases h; exact .arm (by simpa using ha) ‹_›
  | tick now =>
    simp only [step] at h
    split at h
    · cases h
    · rename_i ha
      simp only [not_or, Bool.not_eq_false, not_not] at ha
      split at h
      · cases h; exact .tickEmpty ha.1 ha.2 ‹_›
      · split at h
        · cases h; exact .tickFirst ha.1 ha.2 ‹_› ‹_›
        · cases h; exact .suspend ha.1 ha.2 ‹_› ‹_›
  | handler now => exact move_of_handlerStep h
  | semWait w =>
    simp only [step] at h
    split at h
    · rename_i hw; cases h; exact .semWait hw.1 hw.2
    · cases h
  | enter w =>
    simp only [step] at h
    split at h
    · cases h; exact .enter ‹_›
    · cases h
  | semPost w =>
    simp only [step] at h
    split at h
    · cases h; exact .semPost ‹_›
    · cases h

end Scheduler

end UnixSysProg.Sched
