/-
The producers, the consumers and `main` of `pa2_2` (`main.c`) as a transition system: a step is a
semaphore operation of one thread with the code up to that thread's next operation, and the threads
take their steps in any order.
-/
import UnixSysProg.ProcCon.Monitor
import UnixSysProg.Lib.Run

namespace UnixSysProg.ProcCon

open UnixSysProg.Lib

/-- The `const int` parameters of the program, the number of writes given for each producer, and what
`getRandomCharacter` returns to it. -/
structure Config where
  bufferLength : Nat
  numProducer : Nat
  numConsumer : Nat
  numberOfWrites : Fin numProducer → Nat
  getRandomCharacter : Fin numProducer → Nat → UInt8
  bufferLength_pos : 1 ≤ bufferLength
  bufferLength_lt : bufferLength < 2 ^ 31
  numProducer_lt : numProducer < 2 ^ 31
  numConsumer_lt : numConsumer < 2 ^ 31
  numberOfWrites_lt : ∀ q, numberOfWrites q < 2 ^ 31

/-- One consumer, room for one character, and producers that write `a`. -/
abbrev Config.ofWrites (numProducer writes : Nat) (hp : numProducer < 2 ^ 31) (hw : writes < 2 ^ 31) : Config where
  bufferLength := 1
  numProducer := numProducer
  numConsumer := 1
  numberOfWrites _ := writes
  getRandomCharacter _ _ := 97
  bufferLength_pos := le_rfl
  bufferLength_lt := by decide
  numProducer_lt := hp
  numConsumer_lt := by decide
  numberOfWrites_lt _ := hw

/-- A thread in `producer_function`: its turn of the loop and its place in `monitor_insert`. -/
structure Producer where
  i : Nat
  pc : InsertPc

/-- A thread in `consumer_function`: its place in `monitor_remove`, and the variable `ch` there. -/
structure Consumer where
  pc : RemovePc
  ch : UInt8

/-- Where `main` stands: at the join of a producer, or in `monitor_getNumConsumersBlocked`, or past the
loop. -/
inductive MainPc
  | join (k : Nat)
  | countWait
  | countPost (num : Int32)
  | done
  deriving DecidableEq

structure State (cfg : Config) where
  monitor : Monitor
  sem : Sem → Nat
  producers : Fin cfg.numProducer → Producer
  consumers : Fin cfg.numConsumer → Consumer
  main : MainPc

/-- Whose step it is. -/
inductive Action (cfg : Config)
  | producer (q : Fin cfg.numProducer)
  | consumer (j : Fin cfg.numConsumer)
  | main

/-- The step cannot be taken in this state. -/
inductive Blocked
  | blocked

variable {cfg : Config}

/-- The values that `monitor_init` gives the semaphores. -/
def Sem.initial : Sem → Nat
  | monitorMutex | producerMutex | consumerMutex => 1
  | emptyMutex | fullMutex => 0

/-- A producer at the beginning of a turn of its loop. -/
def Producer.turn (i : Nat) : Producer := ⟨i, .waitMonitor⟩

/-- A consumer at the beginning of a turn of its loop. -/
def Consumer.turn : Consumer := ⟨.waitMonitor, 97⟩

namespace State

/-- All threads created, `main` at its first join. -/
def initial (cfg : Config) (contents : Int → UInt8) : State cfg where
  monitor := Monitor.monitorInit contents
  sem := Sem.initial
  producers _ := .turn 0
  consumers _ := .turn
  main := .join 0

section

variable (s : State cfg)

/-- The producer has made all its writes and returned. -/
def Returned (q : Fin cfg.numProducer) : Prop := cfg.numberOfWrites q ≤ (s.producers q).i

instance (q : Fin cfg.numProducer) : Decidable (s.Returned q) := inferInstanceAs (Decidable (_ ≤ _))

/-- The producer after its operation: on to the next place, or to the next turn of the loop. -/
def produced (q : Fin cfg.numProducer) : Option InsertPc → Producer
  | some pc => { s.producers q with pc := pc }
  | none => .turn ((s.producers q).i + 1)

/-- `producer_function`, with `sem` the semaphores after the operation. -/
def producerStep (q : Fin cfg.numProducer) (sem : Sem → Nat) : State cfg × List Event :=
  let t := s.producers q
  let (monitor, pc, es) := s.monitor.monitorInsert cfg.bufferLength (cfg.getRandomCharacter q t.i) t.pc
  ({ s with monitor := monitor, sem := sem, producers := Function.update s.producers q (s.produced q pc) }, es)

/-- `consumer_function`, with `sem` the semaphores after the operation. -/
def consumerStep (j : Fin cfg.numConsumer) (sem : Sem → Nat) : State cfg × List Event :=
  let t := s.consumers j
  let (monitor, pc, ch, es) := s.monitor.monitorRemove t.ch t.pc
  let t' : Consumer := match pc with
    | some pc => ⟨pc, ch⟩
    | none => .turn
  ({ s with monitor := monitor, sem := sem, consumers := Function.update s.consumers j t' }, es)

/-- `main`, from the joins to the end of the drain loop. -/
def mainStep : Except Blocked (State cfg × List Event) :=
  match s.main with
  | .join k =>
    if h : k < cfg.numProducer then
      if s.Returned ⟨k, h⟩ then .ok ({ s with main := .join (k + 1) }, [])
      else .error .blocked
    else .ok ({ s with main := .countWait }, [])
  | .countWait =>
    match (SemOp.wait Sem.consumerMutex).apply s.sem with
    | none => .error .blocked
    | some sem => .ok ({ s with sem := sem, main := .countPost s.monitor.condEmpty.blockedThreadCount }, [])
  | .countPost num =>
    match (SemOp.post Sem.consumerMutex).apply s.sem with
    | none => .error .blocked
    | some sem =>
      .ok ({ s with sem := sem, main := if num.toInt = cfg.numConsumer then .done else .countWait }, [])
  | .done => .error .blocked

def step : Action cfg → Except Blocked (State cfg × List Event)
  | .producer q =>
    if s.Returned q then .error .blocked
    else
      match (s.producers q).pc.op.apply s.sem with
      | none => .error .blocked
      | some sem => .ok (s.producerStep q sem)
  | .consumer j =>
    match (s.consumers j).pc.op.apply s.sem with
    | none => .error .blocked
    | some sem => .ok (s.consumerStep j sem)
  | .main => s.mainStep

variable {s} in
theorem step_producer {q : Fin cfg.numProducer} {sem : Sem → Nat} (hnot : ¬ s.Returned q)
    (hop : (s.producers q).pc.op.apply s.sem = some sem) : s.step (.producer q) = .ok (s.producerStep q sem) := by
  simp only [step]
  rw [if_neg hnot, hop]

variable {s} in
theorem step_consumer {j : Fin cfg.numConsumer} {sem : Sem → Nat} (hop : (s.consumers j).pc.op.apply s.sem = some sem) :
    s.step (.consumer j) = .ok (s.consumerStep j sem) := by
  simp only [step]
  rw [hop]

/-! ## What a step can do -/

/-- The places of all producers and consumers. -/
def place : Fin cfg.numProducer ⊕ Fin cfg.numConsumer → Place :=
  Sum.map (fun q => (s.producers q).pc) fun j => (s.consumers j).pc

@[simp] theorem place_inl (q : Fin cfg.numProducer) : s.place (.inl q) = .inl (s.producers q).pc := rfl

@[simp] theorem place_inr (j : Fin cfg.numConsumer) : s.place (.inr j) = .inr (s.consumers j).pc := rfl

/-- A step of a producer or a consumer, as far as the monitor and the semaphores are concerned. -/
structure Turn (s s' : State cfg) (t : Fin cfg.numProducer ⊕ Fin cfg.numConsumer) (es : List Event) : Prop where
  op : (s.place t).op.apply s.sem = some s'.sem
  code : Proceeds cfg.bufferLength s.monitor (s.place t) s'.monitor (s'.place t) es
  others : s'.place = Function.update s.place t (s'.place t)
  main : s'.main = s.main

/-- A step of `main`, which reads the monitor and leaves it and the other threads alone. -/
inductive MainTurn (s : State cfg) : State cfg → Prop
  | join {k : Nat} (h : k < cfg.numProducer) : s.main = .join k → s.Returned ⟨k, h⟩ →
      MainTurn s { s with main := .join (k + 1) }
  | joined {k : Nat} : s.main = .join k → cfg.numProducer ≤ k → MainTurn s { s with main := .countWait }
  | countWait {sem : Sem → Nat} : s.main = .countWait → (SemOp.wait Sem.consumerMutex).apply s.sem = some sem →
      MainTurn s { s with sem := sem, main := .countPost s.monitor.condEmpty.blockedThreadCount }
  | countPost {num : Int32} {sem : Sem → Nat} : s.main = .countPost num →
      (SemOp.post Sem.consumerMutex).apply s.sem = some sem →
      MainTurn s { s with sem := sem, main := if num.toInt = cfg.numConsumer then .done else .countWait }

/-- What one step does, and what it reports. -/
inductive Move (s : State cfg) : Action cfg → State cfg → List Event → Prop
  | producer {q : Fin cfg.numProducer} {sem : Sem → Nat} : ¬ s.Returned q →
      (s.producers q).pc.op.apply s.sem = some sem →
      Move s (.producer q) (s.producerStep q sem).1 (s.producerStep q sem).2
  | consumer {j : Fin cfg.numConsumer} {sem : Sem → Nat} : (s.consumers j).pc.op.apply s.sem = some sem →
      Move s (.consumer j) (s.consumerStep j sem).1 (s.consumerStep j sem).2
  | main {s' : State cfg} : MainTurn s s' → Move s .main s' []

end

variable {s s' : State cfg} {a : Action cfg} {es : List Event}

theorem move_of_mainStep (h : s.mainStep = .ok (s', es)) : Move s .main s' es := by
  unfold mainStep at h
  split at h
  · rename_i k hmain
    split at h
    · rename_i hk
      split at h
      · rename_i hret
        cases h; exact .main (.join hk hmain hret)
      · cases h
    · rename_i hk
      cases h; exact .main (.joined hmain (not_lt.1 hk))
  · rename_i hmain
    split at h
    · cases h
    · rename_i sem hsem
      cases h; exact .main (.countWait hmain hsem)
  · rename_i num hmain
    split at h
    · cases h
    · rename_i sem hsem
      cases h; exact .main (.countPost hmain hsem)
  · cases h

theorem move_of_step (h : s.step a = .ok (s', es)) : Move s a s' es := by
  cases a with
  | producer q =>
    simp only [step] at h
    split at h
    · cases h
    · rename_i hret
      split at h
      · cases h
      · rename_i sem hsem
        cases h; exact .producer hret hsem
  | consumer j =>
    simp only [step] at h
    split at h
    · cases h
    · rename_i sem hsem
      cases h; exact .consumer hsem
  | main => exact move_of_mainStep h

theorem place_producerStep (s : State cfg) (q : Fin cfg.numProducer) (sem : Sem → Nat) :
    (s.producerStep q sem).1.place (.inl q) = .inl ((s.monitor.monitorInsert cfg.bufferLength
      (cfg.getRandomCharacter q (s.producers q).i) (s.producers q).pc).2.1.getD .waitMonitor) := by
  simp only [place_inl, producerStep, Function.update_self, produced]
  split <;> simp_all [Producer.turn]

theorem place_consumerStep (s : State cfg) (j : Fin cfg.numConsumer) (sem : Sem → Nat) :
    (s.consumerStep j sem).1.place (.inr j) =
      .inr ((s.monitor.monitorRemove (s.consumers j).ch (s.consumers j).pc).2.1.getD .waitMonitor) := by
  simp only [place_inr, consumerStep, Function.update_self]
  split <;> simp_all [Consumer.turn]

theorem turn_producer {q : Fin cfg.numProducer} {sem : Sem → Nat} (h : (s.producers q).pc.op.apply s.sem = some sem) :
    Turn s (s.producerStep q sem).1 (.inl q) (s.producerStep q sem).2 := by
  refine ⟨h, ?_, ?_, rfl⟩
  · rw [place_producerStep]
    exact .insert _ _
  · funext t
    rcases t with q' | j
    · by_cases hq : q' = q
      · subst hq; simp
      · simp [producerStep, hq]
    · rfl

theorem turn_consumer {j : Fin cfg.numConsumer} {sem : Sem → Nat} (h : (s.consumers j).pc.op.apply s.sem = some sem) :
    Turn s (s.consumerStep j sem).1 (.inr j) (s.consumerStep j sem).2 := by
  refine ⟨h, ?_, ?_, rfl⟩
  · rw [place_consumerStep]
    exact .remove _ _
  · funext t
    rcases t with q | j'
    · rfl
    · by_cases hj : j' = j
      · subst hj; simp
      · simp [consumerStep, hj]

/-- A step is a turn of one thread or a step of `main`. -/
theorem Move.turn_or_main (h : Move s a s' es) : (∃ t, Turn s s' t es) ∨ (MainTurn s s' ∧ es = []) := by
  cases h with
  | producer _ hop => exact .inl ⟨_, turn_producer hop⟩
  | consumer hop => exact .inl ⟨_, turn_consumer hop⟩
  | main hm => exact .inr ⟨hm, rfl⟩

/-- `main` reads the monitor only. -/
theorem MainTurn.frame (h : MainTurn s s') : s'.monitor = s.monitor ∧ s'.producers = s.producers ∧
    s'.consumers = s.consumers := by
  cases h <;> exact ⟨rfl, rfl, rfl⟩

theorem MainTurn.place (h : MainTurn s s') : s'.place = s.place := by
  obtain ⟨_, hp, hc⟩ := h.frame
  unfold State.place
  rw [hp, hc]

/-- `main` uses `consumer_mutex` only. -/
theorem MainTurn.sem (h : MainTurn s s') {k : Sem} (hk : k ≠ .consumerMutex) : s'.sem k = s.sem k := by
  cases h with
  | join _ _ _ | joined _ _ => rfl
  | countWait _ hop | countPost _ hop =>
    have := SemOp.apply_balance hop k
    simpa [SemOp.waits, SemOp.posts, hk.symm] using this

end State

end UnixSysProg.ProcCon
