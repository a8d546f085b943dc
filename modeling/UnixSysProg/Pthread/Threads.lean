/-
The producers and consumers of `pa3_1` (`pthread_1/main.cpp`) as a transition system: a buffer with an
index, a semaphore for the characters in it, one for the places left, and a mutex. A step is a semaphore
operation of one thread with the code up to that thread's next operation.
-/
import UnixSysProg.Lib.Semaphore
import UnixSysProg.Lib.Run

namespace UnixSysProg.Pthread

open UnixSysProg.Lib

/-- The `const int` parameters of the program. -/
structure Config where
  bufferLength : Nat
  numProducer : Nat
  numConsumer : Nat
  numberOfWrites : Nat
  bufferLength_pos : 1 ≤ bufferLength
  bufferLength_lt : bufferLength < 2 ^ 31
  numProducer_lt : numProducer < 2 ^ 31
  numConsumer_lt : numConsumer < 2 ^ 31
  numberOfWrites_lt : numberOfWrites < 2 ^ 31

/-- The semaphores: `empty` counts the characters in the buffer, `full` the places left. -/
inductive Sem
  | empty
  | full
  | mutex
  deriving DecidableEq

/-- The operations of a turn of `producer_function`. -/
inductive ProducerPc
  | waitFull
  | waitMutex
  | postMutex
  | postEmpty
  deriving DecidableEq

/-- The operations of a turn of `consumer_function`. -/
inductive ConsumerPc
  | waitEmpty
  | waitMutex
  | postMutex
  | postFull
  deriving DecidableEq

/-- Where `main` stands: at the join of a producer, at the operations of its loop, with the value of
`loop`, or past it. -/
inductive MainPc
  | join (k : Nat)
  | waitMutex
  | postMutex (loop : Bool)
  | done
  deriving DecidableEq

def ProducerPc.op : ProducerPc → SemOp Sem
  | waitFull => .wait .full
  | waitMutex => .wait .mutex
  | postMutex => .post .mutex
  | postEmpty => .post .empty

def ConsumerPc.op : ConsumerPc → SemOp Sem
  | waitEmpty => .wait .empty
  | waitMutex => .wait .mutex
  | postMutex => .post .mutex
  | postFull => .post .full

/-- A thread in `producer_function`: its turn of the loop and its place in it. -/
structure Producer where
  i : Nat
  pc : ProducerPc

/-- What the threads report: a write with its index, and a decrement of the index. -/
inductive Event
  | write (index : Int)
  | consume
  deriving DecidableEq

structure State (cfg : Config) where
  bufferIndex : Int
  buffer : Int → UInt8
  sem : Sem → Nat
  producers : Fin cfg.numProducer → Producer
  consumers : Fin cfg.numConsumer → ConsumerPc
  main : MainPc

/-- Whose step it is. -/
inductive Action (cfg : Config)
  | producer (q : Fin cfg.numProducer)
  | consumer (j : Fin cfg.numConsumer)
  | main

/-- The step cannot be taken in this state. -/
inductive Blocked
  | blocked

variable {cfg : Config}

namespace State

/-- After `init_semaphore` and the creation of the threads. -/
def initial (cfg : Config) (contents : Int → UInt8) : State cfg where
  bufferIndex := 0
  buffer := contents
  sem
    | .empty => 0
    | .full => cfg.bufferLength
    | .mutex => 1
  producers _ := ⟨0, .waitFull⟩
  consumers _ := .waitEmpty
  main := .join 0

variable (s : State cfg)

/-- The producer has made all its writes and returned. -/
def Returned (q : Fin cfg.numProducer) : Prop := cfg.numberOfWrites ≤ (s.producers q).i

instance (q : Fin cfg.numProducer) : Decidable (s.Returned q) := inferInstanceAs (Decidable (_ ≤ _))

/-- `producer_function`, with `sem` the semaphores after the operation. -/
def producerStep (q : Fin cfg.numProducer) (sem : Sem → Nat) : State cfg × List Event :=
  let t := s.producers q
  match t.pc with
  | .waitFull => ({ s with sem := sem, producers := Function.update s.producers q ⟨t.i, .waitMutex⟩ }, [])
  | .waitMutex =>
    ({ s with
      buffer := Function.update s.buffer s.bufferIndex 88
      bufferIndex := s.bufferIndex + 1
      sem := sem
      producers := Function.update s.producers q ⟨t.i, .postMutex⟩ }, [.write s.bufferIndex])
  | .postMutex => ({ s with sem := sem, producers := Function.update s.producers q ⟨t.i, .postEmpty⟩ }, [])
  | .postEmpty => ({ s with sem := sem, producers := Function.update s.producers q ⟨t.i + 1, .waitFull⟩ }, [])

/-- `consumer_function`, with `sem` the semaphores after the operation. -/
def consumerStep (j : Fin cfg.numConsumer) (sem : Sem → Nat) : State cfg × List Event :=
  match s.consumers j with
  | .waitEmpty => ({ s with sem := sem, consumers := Function.update s.consumers j .waitMutex }, [])
  | .waitMutex =>
    ({ s with
      bufferIndex := s.bufferIndex - 1
      sem := sem
      consumers := Function.update s.consumers j .postMutex }, [.consume])
  | .postMutex => ({ s with sem := sem, consumers := Function.update s.consumers j .postFull }, [])
  | .postFull => ({ s with sem := sem, consumers := Function.update s.consumers j .waitEmpty }, [])

/-- `main`, from the joins to the end of its loop. -/
def mainStep : Except Blocked (State cfg × List Event) :=
  match s.main with
  | .join k =>
    if h : k < cfg.numProducer then
      if s.Returned ⟨k, h⟩ then .ok ({ s with main := .join (k + 1) }, [])
      else .error .blocked
    else .ok ({ s with main := .waitMutex }, [])
  | .waitMutex =>
    match (SemOp.wait Sem.mutex).apply s.sem with
    | none => .error .blocked
    | some sem => .ok ({ s with sem := sem, main := .postMutex (decide (s.bufferIndex ≠ 0)) }, [])
  | .postMutex loop =>
    match (SemOp.post Sem.mutex).apply s.sem with
    | none => .error .blocked
    | some sem => .ok ({ s with sem := sem, main := if loop then .waitMutex else .done }, [])
  | .done => .error .blocked

def step : Action cfg → Except Blocked (State cfg × List Event)
  | .producer q =>
    if s.Returned q then .error .blocked
    else
      match (s.producers q).pc.op.apply s.sem with
      | none => .error .blocked
      | some sem => .ok (s.producerStep q sem)
  | .consumer j =>
    match (s.consumers j).op.apply s.sem with
    | none => .error .blocked
    | some sem => .ok (s.consumerStep j sem)
  | .main => s.mainStep

end State

end UnixSysProg.Pthread
