/-
Places and characters. Every place of the buffer is a permit of `full`, taken by a producer on its way to
write, filled, or freed by a consumer on its way to post; every character in it is a permit of `empty`,
taken by a consumer on its way to the decrement, or written by a producer on its way to post. The index
stays within the buffer and counts the characters written and not consumed.
-/
import UnixSysProg.Pthread.Threads

namespace UnixSysProg.Pthread

open UnixSysProg.Lib

variable {cfg : Config}

/-! ## What a step can do -/

namespace State

/-- What one step does, and what it reports. -/
inductive Move (s : State cfg) : Action cfg → State cfg → List Event → Prop
  | waitFull {q : Fin cfg.numProducer} {sem : Sem → Nat} : ¬ s.Returned q → (s.producers q).pc = .waitFull →
      (SemOp.wait Sem.full).apply s.sem = some sem → Move s (.producer q)
        { s with sem := sem, producers := Function.update s.producers q ⟨(s.producers q).i, .waitMutex⟩ } []
  | write {q : Fin cfg.numProducer} {sem : Sem → Nat} : ¬ s.Returned q → (s.producers q).pc = .waitMutex →
      (SemOp.wait Sem.mutex).apply s.sem = some sem → Move s (.producer q)
        { s with
          buffer := Function.update s.buffer s.bufferIndex 88
          bufferIndex := s.bufferIndex + 1
          sem := sem
          producers := Function.update s.producers q ⟨(s.producers q).i, .postMutex⟩ } [.write s.bufferIndex]
  | written {q : Fin cfg.numProducer} {sem : Sem → Nat} : ¬ s.Returned q → (s.producers q).pc = .postMutex →
      (SemOp.post Sem.mutex).apply s.sem = some sem → Move s (.producer q)
        { s with sem := sem, producers := Function.update s.producers q ⟨(s.producers q).i, .postEmpty⟩ } []
  | postEmpty {q : Fin cfg.numProducer} {sem : Sem → Nat} : ¬ s.Returned q → (s.producers q).pc = .postEmpty →
      (SemOp.post Sem.empty).apply s.sem = some sem → Move s (.producer q)
        { s with sem := sem, producers := Function.update s.producers q ⟨(s.producers q).i + 1, .waitFull⟩ } []
  | waitEmpty {j : Fin cfg.numConsumer} {sem : Sem → Nat} : s.consumers j = .waitEmpty →
      (SemOp.wait Sem.empty).apply s.sem = some sem → Move s (.consumer j)
        { s with sem := sem, consumers := Function.update s.consumers j .waitMutex } []
  | consume {j : Fin cfg.numConsumer} {sem : Sem → Nat} : s.consumers j = .waitMutex →
      (SemOp.wait Sem.mutex).apply s.sem = some sem → Move s (.consumer j)
        { s with
          bufferIndex := s.bufferIndex - 1
          sem := sem
          consumers := Function.update s.consumers j .postMutex } [.consume]
  | consumed {j : Fin cfg.numConsumer} {sem : Sem → Nat} : s.consumers j = .postMutex →
      (SemOp.post Sem.mutex).apply s.sem = some sem → Move s (.consumer j)
        { s with sem := sem, consumers := Function.update s.consumers j .postFull } []
  | postFull {j : Fin cfg.numConsumer} {sem : Sem → Nat} : s.consumers j = .postFull →
      (SemOp.post Sem.full).apply s.sem = some sem → Move s (.consumer j)
        { s with sem := sem, consumers := Function.update s.consumers j .waitEmpty } []
  | join {k : Nat} (h : k < cfg.numProducer) : s.main = .join k → s.Returned ⟨k, h⟩ →
      Move s .main { s with main := .join (k + 1) } []
  | joined {k : Nat} : s.main = .join k → cfg.numProducer ≤ k → Move s .main { s with main := .waitMutex } []
  | test {sem : Sem → Nat} : s.main = .waitMutex → (SemOp.wait Sem.mutex).apply s.sem = some sem →
      Move s .main { s with sem := sem, main := .postMutex (decide (s.bufferIndex ≠ 0)) } []
  | tested {loop : Bool} {sem : Sem → Nat} : s.main = .postMutex loop →
      (SemOp.post Sem.mutex).apply s.sem = some sem →
      Move s .main { s with sem := sem, main := if loop then .waitMutex else .done } []

variable {s s' : State cfg} {a : Action cfg} {es : List Event}

theorem move_of_mainStep (h : s.mainStep = .ok (s', es)) : Move s .main s' es := by
  unfold mainStep at h
  split at h
  · rename_i k hmain
    split at h
    · rename_i hk
      split at h
      · rename_i hret
        cases h; exact .join hk hmain hret
      · cases h
    · rename_i hk
      cases h; exact .joined hmain (not_lt.1 hk)
  · rename_i hmain
    split at h
    · cases h
    · rename_i sem hsem
      cases h; exact .test hmain hsem
  · rename_i loop hmain
    split at h
    · cases h
    · rename_i sem hsem
      cases h; exact .tested hmain hsem
  · cases h

theorem move_of_step (h : s.step a = .ok (s', es)) : Move s a s' es := by
  cases a with
  | producer q =>
    simp only [step] at h
    split at h
    · cases h
    · rename_i hret
      split at h
      · cases h
      · rename_i sem hop
        simp only [producerStep] at h
        split at h <;> rename_i hpc <;> rw [hpc] at hop <;> cases h
        · exact .waitFull hret hpc hop
        · exact .write hret hpc hop
        · exact .written hret hpc hop
        · exact .postEmpty hret hpc hop
  | consumer j =>
    simp only [step] at h
    split at h
    · cases h
    · rename_i sem hop
      simp only [consumerStep] at h
      split at h <;> rename_i hpc <;> rw [hpc] at hop <;> cases h
      · exact .waitEmpty hpc hop
      · exact .consume hpc hop
      · exact .consumed hpc hop
      · exact .postFull hpc hop
  | main => exact move_of_mainStep h

end State

/-! ## Places and characters -/

/-- The producer has taken a place and not filled it yet. -/
def Producer.slot (t : Producer) : Nat := if t.pc = .waitMutex then 1 else 0

/-- The producer has written a character and not posted `empty` yet. -/
def Producer.filled (t : Producer) : Nat := if t.pc = .postMutex ∨ t.pc = .postEmpty then 1 else 0

/-- The characters that the producer has written. -/
def Producer.written (t : Producer) : Nat := t.i + t.filled

/-- The consumer has taken a character and not stepped the index down yet. -/
def ConsumerPc.taken (pc : ConsumerPc) : Nat := if pc = .waitMutex then 1 else 0

/-- The consumer has freed a place and not posted `full` yet. -/
def ConsumerPc.freed (pc : ConsumerPc) : Nat := if pc = .postMutex ∨ pc = .postFull then 1 else 0

def Event.isWrite : Event → Bool
  | write _ => true
  | consume => false

def Event.isConsume : Event → Bool
  | write _ => false
  | consume => true

namespace State

variable {s s' : State cfg} {a : Action cfg} {es log : List Event} {q : Fin cfg.numProducer} {j : Fin cfg.numConsumer}
  {sem : Sem → Nat}

/-- Where the places and the characters are, and how many characters there have been. -/
structure Counted (log : List Event) (s : State cfg) : Prop where
  places : s.sem .full + tally Producer.slot s.producers + tally ConsumerPc.freed s.consumers + s.bufferIndex =
    cfg.bufferLength
  characters : s.sem .empty + tally Producer.filled s.producers + tally ConsumerPc.taken s.consumers = s.bufferIndex
  written : log.countP Event.isWrite = tally Producer.written s.producers
  index : s.bufferIndex + log.countP Event.isConsume = log.countP Event.isWrite

theorem Counted.initial (contents : Int → UInt8) : Counted [] (initial cfg contents) := by
  have hslot : tally Producer.slot (State.initial cfg contents).producers = 0 := tally_eq_zero.2 fun _ => rfl
  have hfilled : tally Producer.filled (State.initial cfg contents).producers = 0 := tally_eq_zero.2 fun _ => rfl
  have hwritten : tally Producer.written (State.initial cfg contents).producers = 0 := tally_eq_zero.2 fun _ => rfl
  have hfreed : tally ConsumerPc.freed (State.initial cfg contents).consumers = 0 := tally_eq_zero.2 fun _ => rfl
  have htaken : tally ConsumerPc.taken (State.initial cfg contents).consumers = 0 := tally_eq_zero.2 fun _ => rfl
  refine ⟨?_, ?_, by rw [hwritten]; rfl, rfl⟩
  · rw [hslot, hfreed]
    simp [State.initial]
  · rw [hfilled, htaken]
    rfl

/-- A step of a producer that keeps account of what it takes and leaves. -/
theorem Counted.producer {op : SemOp Sem} {y : Producer} (h : Counted log s) (hop : op.apply s.sem = some s'.sem)
    (hproducers : s'.producers = Function.update s.producers q y) (hconsumers : s'.consumers = s.consumers)
    (hplaces : y.slot + op.posts .full + s'.bufferIndex = (s.producers q).slot + op.waits .full + s.bufferIndex)
    (hcharacters : y.filled + op.posts .empty + s.bufferIndex = (s.producers q).filled + op.waits .empty + s'.bufferIndex)
    (hwritten : y.written = (s.producers q).written + es.countP Event.isWrite)
    (hindex : s'.bufferIndex + es.countP Event.isConsume = s.bufferIndex + es.countP Event.isWrite) :
    Counted (log ++ es) s' := by
  have hfull := SemOp.apply_balance hop .full
  have hempty := SemOp.apply_balance hop .empty
  have h1 := tally_update Producer.slot s.producers q y
  have h2 := tally_update Producer.filled s.producers q y
  have h3 := tally_update Producer.written s.producers q y
  rw [← hproducers] at h1 h2 h3
  obtain ⟨hp, hc, hw, hi⟩ := h
  constructor <;> simp only [List.countP_append, hconsumers] <;> omega

/-- A step of a consumer that keeps account of what it takes and leaves. -/
theorem Counted.consumer {op : SemOp Sem} {y : ConsumerPc} (h : Counted log s) (hop : op.apply s.sem = some s'.sem)
    (hconsumers : s'.consumers = Function.update s.consumers j y) (hproducers : s'.producers = s.producers)
    (hplaces : y.freed + op.posts .full + s'.bufferIndex = (s.consumers j).freed + op.waits .full + s.bufferIndex)
    (hcharacters : y.taken + op.posts .empty + s.bufferIndex = (s.consumers j).taken + op.waits .empty + s'.bufferIndex)
    (hnone : es.countP Event.isWrite = 0) (hindex : s'.bufferIndex + es.countP Event.isConsume = s.bufferIndex) :
    Counted (log ++ es) s' := by
  have hfull := SemOp.apply_balance hop .full
  have hempty := SemOp.apply_balance hop .empty
  have h1 := tally_update ConsumerPc.freed s.consumers j y
  have h2 := tally_update ConsumerPc.taken s.consumers j y
  rw [← hconsumers] at h1 h2
  obtain ⟨hp, hc, hw, hi⟩ := h
  constructor <;> simp only [List.countP_append, hproducers] <;> omega

/-- The mutex is none of the two semaphores counted. -/
theorem Counted.main (h : Counted log s) {op : SemOp Sem} {main : MainPc} (hop : op.apply s.sem = some sem)
    (hfull : op.waits .full = 0 ∧ op.posts .full = 0) (hempty : op.waits .empty = 0 ∧ op.posts .empty = 0) :
    Counted log { s with sem := sem, main := main } := by
  have h1 := SemOp.apply_balance hop .full
  have h2 := SemOp.apply_balance hop .empty
  obtain ⟨hp, hc, hw, hi⟩ := h
  exact ⟨by dsimp only; omega, by dsimp only; omega, hw, hi⟩

theorem Counted.move (h : Counted log s) (hm : Move s a s' es) : Counted (log ++ es) s' := by
  cases hm with
  | waitFull _ hpc hop | write _ hpc hop | written _ hpc hop | postEmpty _ hpc hop =>
    refine h.producer hop rfl rfl ?_ ?_ ?_ ?_
    all_goals
      simp [Producer.slot, Producer.filled, Producer.written, hpc, SemOp.posts, SemOp.waits, Event.isWrite, Event.isConsume]
    all_goals omega
  | consume hpc hop =>
    refine h.consumer hop rfl rfl ?_ ?_ rfl ?_
    all_goals simp [ConsumerPc.freed, ConsumerPc.taken, hpc, SemOp.posts, SemOp.waits, Event.isConsume]
  | waitEmpty hpc hop | consumed hpc hop | postFull hpc hop =>
    refine h.consumer hop rfl rfl ?_ ?_ rfl (add_zero _)
    all_goals simp [ConsumerPc.freed, ConsumerPc.taken, hpc, SemOp.posts, SemOp.waits]
  | join _ _ _ | joined _ _ =>
    rw [List.append_nil]
    exact ⟨h.places, h.characters, h.written, h.index⟩
  | test _ hop | tested _ hop =>
    rw [List.append_nil]
    exact h.main hop ⟨rfl, rfl⟩ ⟨rfl, rfl⟩

end State

end UnixSysProg.Pthread
