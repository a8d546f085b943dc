/-
The counters of blocked threads. A consumer that blocks counts itself, and the producer that signals it
takes it off the count when it posts the semaphore: count and permits together are the consumers that wait.
A consumer that signals a producer posts the semaphore and leaves the count: from then on count and permits
are ahead of the producers that wait, and the counters are exact as long as no consumer has done so.
-/
import UnixSysProg.ProcCon.Flags

namespace UnixSysProg.ProcCon

open UnixSysProg.Lib

/-! ## 32-bit counters -/

theorem count_succ {x : Int32} (h : x.toInt + 1 < 2 ^ 31) : (x + 1).toInt = x.toInt + 1 := by
  have := x.le_toInt
  rw [Int32.toInt_add]
  exact Int.bmod_eq_of_le (by simp; omega) (by simp; omega)

theorem count_pred {x : Int32} (h : 0 < x.toInt) : (x - 1).toInt = x.toInt - 1 := by
  have := x.toInt_lt
  rw [Int32.toInt_sub]
  exact Int.bmod_eq_of_le (by simp; omega) (by simp; omega)

/-! ## The threads that wait -/

/-- The producer has counted itself as blocked and not returned from waiting. -/
def InsertPc.waiting : InsertPc → Nat
  | blockedPostProducer | blockedPostMonitor | blockedWait => 1
  | _ => 0

/-- The consumer has counted itself as blocked and not returned from waiting. -/
def RemovePc.waiting : RemovePc → Nat
  | blockedPostConsumer | blockedPostMonitor | blockedWait => 1
  | _ => 0

def Place.waitsFull : Place → Nat := Sum.elim InsertPc.waiting fun _ => 0

def Place.waitsEmpty : Place → Nat := Sum.elim (fun _ => 0) RemovePc.waiting

variable {bufferLength : Nat} {m m' : Monitor} {x y : Place} {es : List Event}

theorem InsertPc.waiting_le (pc : InsertPc) : pc.waiting ≤ 1 := by
  cases pc <;> first | exact Nat.le_refl 1 | exact Nat.zero_le 1

/-- A consumer that waits and holds no `consumer_mutex` has nothing to do before its wait but to leave the monitor. -/
theorem RemovePc.of_waiting {pc : RemovePc} (hw : pc.waiting = 1) (hf : pc.holds .consumerMutex = 0) :
    pc = .blockedWait ∨ pc = .blockedPostMonitor := by
  cases pc with
  | blockedWait => exact .inl rfl
  | blockedPostMonitor => exact .inr rfl
  | blockedPostConsumer => cases hf
  | _ => cases hw

theorem RemovePc.waiting_le (pc : RemovePc) : pc.waiting ≤ 1 := by
  cases pc <;> first | exact Nat.le_refl 1 | exact Nat.zero_le 1

theorem insertCheck_waiting (m : Monitor) (bufferLength : Nat) : (m.insertCheck bufferLength).waiting = 0 := by
  rcases insertCheck_cases m bufferLength with h | h <;> rw [h] <;> rfl

/-- What is counted of the consumers moves between the count, the semaphore and the threads. -/
theorem Proceeds.emptyCount (h : Proceeds bufferLength m x m' y es)
    (hlt : x.waitsEmpty < y.waitsEmpty → m.condEmpty.blockedThreadCount.toInt + 1 < 2 ^ 31)
    (hpos : x = .inl .signalPost → 0 < m.condEmpty.blockedThreadCount.toInt) :
    m'.condEmpty.blockedThreadCount.toInt + x.op.posts .emptyMutex + x.waitsEmpty =
        m.condEmpty.blockedThreadCount.toInt + x.op.waits .emptyMutex + y.waitsEmpty ∧
      (0 ≤ m.condEmpty.blockedThreadCount.toInt → 0 ≤ m'.condEmpty.blockedThreadCount.toInt) := by
  cases h with
  | insert ch pc =>
    cases pc with
    | waitProducer =>
      dsimp only [Monitor.monitorInsert]
      split <;> exact ⟨rfl, id⟩
    | signalPost =>
      have hcount := hpos rfl
      have hpred := count_pred hcount
      simp only [Monitor.monitorInsert, Place.op, Place.waitsEmpty, Sum.elim_inl, InsertPc.op, SemOp.posts, SemOp.waits]
      simp [hpred]
      omega
    | _ => exact ⟨rfl, id⟩
  | remove ch pc =>
    cases pc with
    | waitConsumer =>
      dsimp only [Monitor.monitorRemove] at hlt ⊢
      split
      · rename_i hblocked
        rw [if_pos hblocked] at hlt
        have hsucc := count_succ (hlt Nat.zero_lt_one)
        simp only [Place.op, Place.waitsEmpty, Sum.elim_inr, RemovePc.op, SemOp.posts, SemOp.waits]
        simp [hsucc, RemovePc.waiting]
        omega
      · exact ⟨rfl, id⟩
    | countPost num | flagPost =>
      dsimp only [Monitor.monitorRemove]
      split <;> exact ⟨rfl, id⟩
    | blockedWait => exact ⟨Int.add_right_comm .., id⟩
    | _ => exact ⟨rfl, id⟩

/-- A producer that blocks counts itself, and no one takes it off the count. -/
theorem Proceeds.fullCount (h : Proceeds bufferLength m x m' y es)
    (hlt : x.waitsFull < y.waitsFull → m.condFull.blockedThreadCount.toInt + 1 < 2 ^ 31) :
    m'.condFull.blockedThreadCount.toInt + x.waitsFull =
        m.condFull.blockedThreadCount.toInt + (x.op.waits .fullMutex + y.waitsFull : Nat) ∧
      (0 ≤ m.condFull.blockedThreadCount.toInt → 0 ≤ m'.condFull.blockedThreadCount.toInt) := by
  cases h with
  | insert ch pc =>
    cases pc with
    | waitProducer =>
      dsimp only [Monitor.monitorInsert] at hlt ⊢
      split
      · rename_i hblocked
        rw [if_pos hblocked] at hlt
        have hsucc := count_succ (hlt Nat.zero_lt_one)
        simp only [Place.op, Place.waitsFull, Sum.elim_inl, InsertPc.op, SemOp.waits]
        simp [hsucc, InsertPc.waiting]
        omega
      · exact ⟨rfl, id⟩
    | countPost num =>
      dsimp only [Monitor.monitorInsert, Option.getD_some]
      split
      · exact ⟨rfl, id⟩
      · rw [show Place.waitsFull (.inl (m.insertCheck bufferLength)) = 0 from insertCheck_waiting ..]
        exact ⟨rfl, id⟩
    | signalDone =>
      dsimp only [Monitor.monitorInsert, Option.getD_some]
      rw [show Place.waitsFull (.inl (m.insertCheck bufferLength)) = 0 from insertCheck_waiting ..]
      exact ⟨rfl, id⟩
    | _ => exact ⟨rfl, id⟩
  | remove ch pc =>
    cases pc with
    | waitConsumer | countPost num | flagPost =>
      dsimp only [Monitor.monitorRemove]
      split <;> exact ⟨rfl, id⟩
    | _ => exact ⟨rfl, id⟩

/-- A thread comes to wait for room where it finds the buffer marked as full. -/
theorem Proceeds.blocks (h : Proceeds bufferLength m x m' y es) (hnew : x.waitsFull < y.waitsFull) :
    x = .inl .waitProducer ∧ m.condFull.blocked = true ∧ m'.bufferIndex = m.bufferIndex := by
  cases h with
  | insert ch pc =>
    cases pc with
    | waitProducer =>
      dsimp only [Monitor.monitorInsert] at hnew ⊢
      split at hnew
      · rename_i hblocked
        rw [if_pos hblocked]
        exact ⟨rfl, hblocked, rfl⟩
      · cases hnew
    | countPost num =>
      dsimp only [Monitor.monitorInsert, Option.getD_some] at hnew
      split at hnew
      · cases hnew
      · rw [show Place.waitsFull (.inl (m.insertCheck bufferLength)) = 0 from insertCheck_waiting ..] at hnew
        cases hnew
    | signalDone =>
      dsimp only [Monitor.monitorInsert, Option.getD_some] at hnew
      rw [show Place.waitsFull (.inl (m.insertCheck bufferLength)) = 0 from insertCheck_waiting ..] at hnew
      cases hnew
    | blockedPostProducer | blockedPostMonitor => exact absurd hnew (Nat.lt_irrefl 1)
    | _ => cases hnew
  | remove ch pc => cases hnew

/-! ## Consumers -/

/-- Not all consumers, if there is one, are counted as blocked. -/
def Spare (numConsumer : Nat) (m : Monitor) : Prop := m.condEmpty.blockedThreadCount.toInt < max 1 numConsumer

/-- What `monitor_insert` knows of the count at a place: having inserted it wakes a consumer when all of
them are counted. -/
def InsertPc.spare (numConsumer : Nat) (m : Monitor) : InsertPc → Prop
  | waitConsumer | postConsumer | countWait => True
  | countPost num => num = m.condEmpty.blockedThreadCount
  | signalWait | signalPost => 0 < m.condEmpty.blockedThreadCount.toInt
  | signalDone | fullWait | fullPost | postMonitor => Spare numConsumer m
  | _ => m.condEmpty.blocked = false → Spare numConsumer m

/-- What `monitor_remove` knows of the count at a place. -/
def RemovePc.spare (numConsumer : Nat) (m : Monitor) : RemovePc → Prop
  | postConsumer | countWait | countPost _ | signalWait | signalPost | signalDone | flagWait | flagPost | emptyWait =>
    Spare numConsumer m
  | _ => m.condEmpty.blocked = false → Spare numConsumer m

def Place.spare (numConsumer : Nat) (m : Monitor) : Place → Prop :=
  Sum.elim (InsertPc.spare numConsumer m) (RemovePc.spare numConsumer m)

/-- The count of blocked consumers as memory guarded by `monitor_mutex`. -/
def spareGuard (numConsumer : Nat) : Guard Place Monitor where
  inside := Place.inside
  asserts x m := x.spare numConsumer m
  free m := m.condEmpty.blocked = false → Spare numConsumer m
  asserts_outside x m hx := by
    rcases x with pc | pc
    all_goals cases pc <;> first | exact Iff.rfl | exact absurd rfl hx

theorem insertCheck_spare {numConsumer : Nat} (hm : Spare numConsumer m) :
    (m.insertCheck bufferLength).spare numConsumer m := by
  rcases insertCheck_cases m bufferLength with h | h <;> rw [h] <;> exact hm

theorem Proceeds.spare {numConsumer : Nat} (h : Proceeds bufferLength m x m' y es)
    (hle : m.condEmpty.blockedThreadCount.toInt ≤ numConsumer) (hx : x.spare numConsumer m) :
    y.spare numConsumer m' := by
  cases h with
  | insert ch pc =>
    cases pc with
    | waitProducer =>
      dsimp only [Monitor.monitorInsert]
      split <;> exact hx
    | countPost num =>
      cases show num = m.condEmpty.blockedThreadCount from hx
      dsimp only [Monitor.monitorInsert, Option.getD_some]
      split
      · rename_i hnum
        exact Int32.lt_iff_toInt_lt.1 hnum
      · rename_i hnum
        have hcount : m.condEmpty.blockedThreadCount.toInt ≤ 0 := by
          rw [Int32.lt_iff_toInt_lt] at hnum
          exact not_lt.1 hnum
        refine insertCheck_spare (m := m) ?_
        unfold Spare
        omega
    | signalPost =>
      have hpos : 0 < m.condEmpty.blockedThreadCount.toInt := hx
      have hpred := count_pred hpos
      show (m.condEmpty.blockedThreadCount - 1).toInt < _
      omega
    | signalDone => exact insertCheck_spare (m := m) hx
    | postMonitor => exact fun _ => hx
    | postProducer | waitConsumer | postConsumer => trivial
    | countWait => rfl
    | _ => exact hx
  | remove ch pc =>
    cases pc with
    | waitConsumer =>
      dsimp only [Monitor.monitorRemove]
      split
      · rename_i hblocked
        intro hfalse
        rw [show m.condEmpty.blocked = false from hfalse] at hblocked
        cases hblocked
      · rename_i hblocked
        exact hx (by simpa using hblocked)
    | countPost num =>
      dsimp only [Monitor.monitorRemove]
      split <;> exact hx
    | flagPost =>
      dsimp only [Monitor.monitorRemove]
      split
      · exact hx
      · exact fun _ => hx
    | emptyWait =>
      intro hfalse
      cases show true = false from hfalse
    | _ => exact hx

/-! ## Producers -/

/-- What `monitor_remove` knows of the count of blocked producers and of what count and permits are ahead: it
signals when it has read a positive number, and is one permit ahead from then on. -/
def RemovePc.drifts (count : Int32) (drift : Int) : RemovePc → Prop
  | countPost num => num = count ∧ drift = 0
  | signalWait | signalPost => 0 < count ∧ drift = 0
  | signalDone | flagWait | flagPost | emptyWait | emptyPost | postMonitor => drift = if 0 < count then 1 else 0
  | _ => drift = 0

def Place.drifts (count : Int32) (drift : Int) : Place → Prop := Sum.elim (fun _ => drift = 0) (RemovePc.drifts count drift)

/-- The count of blocked producers, with what it and the permits are ahead, as memory guarded by `monitor_mutex`. -/
def driftGuard : Guard Place (Int32 × Int) where
  inside := Place.inside
  asserts x r := x.drifts r.1 r.2
  free r := r.2 = 0
  asserts_outside x m hx := by
    rcases x with pc | pc
    all_goals cases pc <;> first | exact Iff.rfl | exact absurd rfl hx

theorem Place.posts_fullMutex (x : Place) : x.op.posts .fullMutex = if x = .inr .signalPost then 1 else 0 := by
  rcases x with pc | pc
  all_goals cases pc <;> rfl

/-- A removal that ends with no producer counted has signalled none. -/
theorem Proceeds.drifts {drift : Int} (h : Proceeds bufferLength m x m' y es)
    (hx : x.drifts m.condFull.blockedThreadCount drift)
    (hleave : x = .inr .postMonitor → m.condFull.blockedThreadCount ≤ 0) :
    y.drifts m'.condFull.blockedThreadCount (drift + x.op.posts .fullMutex) := by
  cases h with
  | insert ch pc =>
    show drift + (Place.op (.inl pc)).posts .fullMutex = 0
    rw [Place.posts_fullMutex, if_neg (by simp)]
    exact (Int.add_zero drift).trans hx
  | remove ch pc =>
    cases pc with
    | waitConsumer =>
      dsimp only [Monitor.monitorRemove]
      split <;> exact (Int.add_zero drift).trans hx
    | countWait => exact ⟨rfl, (Int.add_zero drift).trans hx⟩
    | countPost num =>
      obtain ⟨rfl, rfl⟩ : num = m.condFull.blockedThreadCount ∧ drift = 0 := hx
      dsimp only [Monitor.monitorRemove]
      split
      · rename_i hnum
        exact ⟨hnum, rfl⟩
      · rename_i hnum
        exact (if_neg hnum).symm
    | signalWait =>
      obtain ⟨hpos, rfl⟩ := hx
      exact ⟨hpos, rfl⟩
    | signalPost =>
      obtain ⟨hpos, rfl⟩ := hx
      exact (if_pos hpos).symm
    | flagPost =>
      dsimp only [Monitor.monitorRemove]
      split <;> exact (Int.add_zero drift).trans hx
    | postMonitor =>
      have hdrift : drift = if 0 < m.condFull.blockedThreadCount then 1 else 0 := hx
      rw [if_neg (Int32.not_lt.2 (hleave rfl))] at hdrift
      exact (Int.add_zero drift).trans hdrift
    | _ => exact (Int.add_zero drift).trans hx

variable {cfg : Config}

namespace State

variable {s s' : State cfg} {a : Action cfg}

/-- The consumers that have counted themselves and not returned from waiting. -/
def consumersWaiting (s : State cfg) : Nat := tally (fun t => t.pc.waiting) s.consumers

/-- The producers that have counted themselves and not returned from waiting. -/
def producersWaiting (s : State cfg) : Nat := tally (fun t => t.pc.waiting) s.producers

theorem tally_waitsEmpty (s : State cfg) : tally Place.waitsEmpty s.place = s.consumersWaiting := by
  have hproducers : tally Place.waitsEmpty (fun q => s.place (.inl q)) = 0 := tally_eq_zero.2 fun _ => rfl
  rw [tally_sum, hproducers, Nat.zero_add]
  rfl

theorem tally_waitsFull (s : State cfg) : tally Place.waitsFull s.place = s.producersWaiting := by
  have hconsumers : tally Place.waitsFull (fun j => s.place (.inr j)) = 0 := tally_eq_zero.2 fun _ => rfl
  rw [tally_sum, hconsumers, Nat.add_zero]
  rfl

theorem consumersWaiting_le (s : State cfg) : s.consumersWaiting ≤ cfg.numConsumer :=
  (tally_le (fun t : Consumer => t.pc.waiting_le) s.consumers).trans_eq (Fintype.card_fin _)

theorem producersWaiting_le (s : State cfg) : s.producersWaiting ≤ cfg.numProducer :=
  (tally_le (fun t : Producer => t.pc.waiting_le) s.producers).trans_eq (Fintype.card_fin _)

/-- What is known of the consumers that wait. -/
structure ConsumersCounted (s : State cfg) : Prop where
  locked : Locked s
  spare : (spareGuard cfg.numConsumer).Holds s.place s.monitor
  nonneg : 0 ≤ s.monitor.condEmpty.blockedThreadCount.toInt
  exact : s.monitor.condEmpty.blockedThreadCount.toInt + s.sem .emptyMutex = s.consumersWaiting

namespace ConsumersCounted

theorem initial (contents : Int → UInt8) : ConsumersCounted (initial cfg contents) := by
  have hnone : (State.initial cfg contents).consumersWaiting = 0 := tally_eq_zero.2 fun _ => rfl
  refine ⟨Locked.initial contents, ?_, le_rfl, ?_⟩
  · constructor
    · rintro (q | j) ht <;> cases ht
    · rintro _ ⟨⟩
  · rw [hnone]
    rfl

theorem count_le (h : ConsumersCounted s) : s.monitor.condEmpty.blockedThreadCount.toInt ≤ cfg.numConsumer := by
  have := h.exact
  have := s.consumersWaiting_le
  omega

theorem turn {t : Fin cfg.numProducer ⊕ Fin cfg.numConsumer} (h : ConsumersCounted s) (ht : Turn s s' t es)
    (hl : Locked s') : ConsumersCounted s' := by
  have hexact := h.exact
  have htally := tally_update Place.waitsEmpty s.place t (s'.place t)
  rw [← ht.others, tally_waitsEmpty, tally_waitsEmpty] at htally
  have hle := s'.consumersWaiting_le
  have hlt := cfg.numConsumer_lt
  have hsem := SemOp.apply_balance ht.op .emptyMutex
  obtain ⟨hcount, hnonneg⟩ := ht.code.emptyCount (fun hnew => by omega) fun hx => by
    have := h.spare.asserts t (by rw [hx]; rfl)
    rw [hx] at this
    exact this
  exact ⟨hl, h.locked.guard rfl h.spare ht fun _ => ht.code.spare h.count_le, hnonneg h.nonneg, by omega⟩

theorem move (h : ConsumersCounted s) (hm : Move s a s' es) : ConsumersCounted s' := by
  have hl := h.locked.move hm
  rcases hm.turn_or_main with ⟨t, ht⟩ | ⟨hmain, _⟩
  · exact h.turn ht hl
  · have hsem : s'.sem .emptyMutex = s.sem .emptyMutex := hmain.sem (by simp)
    obtain ⟨hmonitor, _, hconsumers⟩ := hmain.frame
    refine ⟨hl, by rw [hmain.place, hmonitor]; exact h.spare, by rw [hmonitor]; exact h.nonneg, ?_⟩
    rw [hsem, hmonitor, consumersWaiting, hconsumers]
    exact h.exact

end ConsumersCounted

/-- By how many the count of blocked producers and the permits are together ahead of the producers that wait. -/
def drift (s : State cfg) : Int :=
  s.monitor.condFull.blockedThreadCount.toInt + s.sem .fullMutex - s.producersWaiting

/-- What is known of the producers that wait, as long as no removal has left the monitor with one counted. -/
structure ProducersCounted (s : State cfg) : Prop where
  locked : Locked s
  drifts : driftGuard.Holds s.place (s.monitor.condFull.blockedThreadCount, s.drift)
  nonneg : 0 ≤ s.monitor.condFull.blockedThreadCount.toInt

/-- A post puts count and permits one ahead. -/
theorem Turn.drift {t : Fin cfg.numProducer ⊕ Fin cfg.numConsumer} (ht : Turn s s' t es)
    (h : driftGuard.Holds s.place (s.monitor.condFull.blockedThreadCount, s.drift)) :
    s'.drift = s.drift + (s.place t).op.posts .fullMutex ∧
      (0 ≤ s.monitor.condFull.blockedThreadCount.toInt → 0 ≤ s'.monitor.condFull.blockedThreadCount.toInt) := by
  have htally := tally_update Place.waitsFull s.place t (s'.place t)
  rw [← ht.others, tally_waitsFull, tally_waitsFull] at htally
  have hsem := SemOp.apply_balance ht.op .fullMutex
  obtain ⟨hcount, hnonneg⟩ := ht.code.fullCount fun hnew => by
    -- the producer that blocks is in the monitor, where nothing is ahead, and there are less than `2 ^ 31` of them
    have hpc := (ht.code.blocks hnew).1
    have hzero := h.asserts t (by rw [hpc]; rfl)
    rw [hpc] at hzero
    have hzero : s.drift = 0 := hzero
    have hle := s'.producersWaiting_le
    have hlt := cfg.numProducer_lt
    unfold State.drift at hzero
    omega
  refine ⟨?_, hnonneg⟩
  unfold State.drift
  omega

theorem MainTurn.drift (hm : MainTurn s s') : s'.drift = s.drift := by
  have hsem : s'.sem .fullMutex = s.sem .fullMutex := hm.sem (by simp)
  obtain ⟨hmonitor, hproducers, _⟩ := hm.frame
  rw [State.drift, State.drift, hmonitor, hsem, producersWaiting, hproducers]
  rfl

namespace ProducersCounted

theorem initial (contents : Int → UInt8) : ProducersCounted (initial cfg contents) := by
  have hnone : (State.initial cfg contents).producersWaiting = 0 := tally_eq_zero.2 fun _ => rfl
  refine ⟨Locked.initial contents, ?_, le_rfl⟩
  constructor
  · rintro (q | j) ht <;> cases ht
  · intro _
    show State.drift _ = 0
    rw [State.drift, hnone]
    rfl

theorem turn {t : Fin cfg.numProducer ⊕ Fin cfg.numConsumer} (h : ProducersCounted s) (ht : Turn s s' t es)
    (hl : Locked s') (hleave : s.place t = .inr .postMonitor → s.monitor.condFull.blockedThreadCount ≤ 0) :
    ProducersCounted s' := by
  obtain ⟨hdrift, hnonneg⟩ := ht.drift h.drifts
  refine ⟨hl, h.locked.guard_of_frame rfl h.drifts ht (fun hout => ?_) fun _ hx => ?_, hnonneg h.nonneg⟩
  · have hposts : s.place t ≠ .inr .signalPost := by
      intro hpc
      rw [hpc] at hout
      exact hout rfl
    rw [hdrift, ht.code.outside hout, Place.posts_fullMutex, if_neg hposts]
    exact congrArg (Prod.mk _) (Int.add_zero _)
  · rw [hdrift]
    exact ht.code.drifts hx hleave

end ProducersCounted

/-! ## Runs -/

/-- The count of blocked threads and the permits of their semaphore are together the threads that wait, so
that neither is more than they are. -/
structure Exact (count : Int32) (tokens waiting : Nat) : Prop where
  sum : count.toInt + tokens = waiting
  tokens_le : tokens ≤ waiting
  count_le : count.toInt ≤ waiting

theorem exact_iff {count : Int32} {tokens waiting : Nat} (h : 0 ≤ count.toInt) :
    Exact count tokens waiting ↔ count.toInt + tokens = waiting :=
  ⟨Exact.sum, fun hsum => ⟨hsum, by omega, by omega⟩⟩

/-- The counters of both condition variables are exact. -/
structure CountersExact (s : State cfg) : Prop where
  empty : Exact s.monitor.condEmpty.blockedThreadCount (s.sem .emptyMutex) s.consumersWaiting
  full : Exact s.monitor.condFull.blockedThreadCount (s.sem .fullMutex) s.producersWaiting

theorem CountersExact.drift_eq (h : CountersExact s) : s.drift = 0 := by
  have := h.full.sum
  unfold State.drift
  omega

/-- The step posts no permit for a producer. -/
def PostsNone (s : State cfg) (a : Action cfg) : Prop := ∀ j, a = .consumer j → (s.consumers j).pc ≠ .signalPost

instance (s : State cfg) : (a : Action cfg) → Decidable (PostsNone s a)
  | .consumer j => decidable_of_iff ((s.consumers j).pc ≠ .signalPost) (by simp [PostsNone])
  | .producer _ | .main => isTrue (by simp [PostsNone])

/-- The step ends no removal with a producer counted as blocked. -/
def LeavesNone (s : State cfg) (a : Action cfg) : Prop :=
  ∀ j, a = .consumer j → (s.consumers j).pc = .postMonitor → s.monitor.condFull.blockedThreadCount ≤ 0

instance (s : State cfg) : (a : Action cfg) → Decidable (LeavesNone s a)
  | .consumer j => decidable_of_iff ((s.consumers j).pc = .postMonitor → s.monitor.condFull.blockedThreadCount ≤ 0)
      (by simp [LeavesNone])
  | .producer _ | .main => isTrue (by simp [LeavesNone])

/-- What is known of the threads that wait. -/
structure Counted (s : State cfg) : Prop where
  consumers : ConsumersCounted s
  producers : ProducersCounted s

namespace Counted

theorem initial (contents : Int → UInt8) : Counted (initial cfg contents) :=
  ⟨ConsumersCounted.initial contents, ProducersCounted.initial contents⟩

theorem move (h : Counted s) (hm : Move s a s' es) (ha : LeavesNone s a) : Counted s' := by
  refine ⟨h.consumers.move hm, ?_⟩
  have hl := h.consumers.locked.move hm
  cases hm with
  | producer _ hop => exact h.producers.turn (turn_producer hop) hl (by simp)
  | consumer hop =>
    refine h.producers.turn (turn_consumer hop) hl fun hpc => ?_
    rw [place_inr] at hpc
    exact ha _ rfl (Sum.inr.inj hpc)
  | main hmain =>
    have hmonitor := hmain.frame.1
    refine ⟨hl, ?_, by rw [hmonitor]; exact h.producers.nonneg⟩
    rw [hmain.place, hmonitor, hmain.drift]
    exact h.producers.drifts

/-- The counters are exact where nothing is ahead. -/
theorem exact_iff (h : Counted s) : CountersExact s ↔ s.drift = 0 := by
  have hsum : s.monitor.condFull.blockedThreadCount.toInt + s.sem .fullMutex = s.producersWaiting ↔ s.drift = 0 := by
    unfold State.drift
    omega
  rw [← hsum, ← State.exact_iff h.producers.nonneg]
  exact ⟨CountersExact.full, fun hfull => ⟨(State.exact_iff h.consumers.nonneg).2 h.consumers.exact, hfull⟩⟩

/-- A removal that is about to leave the monitor is ahead when a producer is counted. -/
theorem leaving (h : Counted s) {j : Fin cfg.numConsumer} (hpc : (s.consumers j).pc = .postMonitor) :
    s.drift = if 0 < s.monitor.condFull.blockedThreadCount then 1 else 0 := by
  have hasserts := h.producers.drifts.asserts (.inr j) (by rw [place_inr, hpc]; rfl)
  rw [place_inr, hpc] at hasserts
  exact hasserts

theorem leavesNone (h : Counted s) (hexact : CountersExact s) : LeavesNone s a := by
  intro j _ hpc
  by_contra hpos
  have hdrift := h.leaving hpc
  rw [if_pos (Int32.not_le.1 hpos), hexact.drift_eq] at hdrift
  cases hdrift

theorem drift_move (h : Counted s) (hm : Move s a s' es) : s'.drift = s.drift + if PostsNone s a then 0 else 1 := by
  cases hm with
  | producer _ hop =>
    rw [((turn_producer hop).drift h.producers.drifts).1, Place.posts_fullMutex, place_inl, if_neg (by simp),
      if_pos (by simp [PostsNone])]
    rfl
  | @consumer j _ hop =>
    rw [((turn_consumer hop).drift h.producers.drifts).1, Place.posts_fullMutex, place_inr]
    by_cases hpc : (s.consumers j).pc = .signalPost
    · rw [if_pos (congrArg Sum.inr hpc), if_neg fun hnone => hnone j rfl hpc]
      rfl
    · have hnone : PostsNone s (.consumer j) := by
        rintro _ ⟨⟩
        exact hpc
      rw [if_neg fun he => hpc (Sum.inr.inj he), if_pos hnone]
      rfl
  | main hmain => rw [hmain.drift, if_pos (by simp [PostsNone]), Int.add_zero]

/-- A step keeps the counters exact unless it posts a permit for a producer. -/
theorem exact_step (h : Counted s) (hexact : CountersExact s) :
    (∀ s' es, s.step a = .ok (s', es) → CountersExact s') ↔ PostsNone s a := by
  constructor
  · intro hnext j ha hpc
    subst ha
    obtain ⟨sem, hop⟩ := SemOp.apply_post s.sem Sem.fullMutex
    have hstep : s.step (.consumer j) = .ok (s.consumerStep j sem) := step_consumer (by rw [hpc]; exact hop)
    have hdrift := h.drift_move (move_of_step hstep)
    rw [(hnext _ _ hstep).drift_eq, hexact.drift_eq, if_neg fun hnone => hnone j rfl hpc] at hdrift
    cases hdrift
  · intro hnone s' es hstep
    have hm := move_of_step hstep
    refine (h.move hm (h.leavesNone hexact)).exact_iff.2 ?_
    rw [h.drift_move hm, hexact.drift_eq, if_pos hnone, Int.add_zero]

/-- A step into a state with the monitor free finds the counters exact there unless it ends a removal with a
producer counted. -/
theorem free_step (h : Counted s) :
    (∀ s' es, s.step a = .ok (s', es) → s'.Free → CountersExact s') ↔ LeavesNone s a := by
  constructor
  · intro hnext j ha hpc
    subst ha
    by_contra hpos
    obtain ⟨sem, hop⟩ := SemOp.apply_post s.sem Sem.monitorMutex
    have hstep : s.step (.consumer j) = .ok (s.consumerStep j sem) := step_consumer (by rw [hpc]; exact hop)
    have hfree : (s.consumerStep j sem).1.Free := by
      have hsem := SemOp.apply_balance hop .monitorMutex
      rw [h.consumers.locked.taken (t := .inr j) (by rw [place_inr, hpc]; rfl)] at hsem
      exact hsem
    have hdrift := h.drift_move (move_of_step hstep)
    rw [(hnext _ _ hstep hfree).drift_eq, h.leaving hpc, if_pos (Int32.not_le.1 hpos)] at hdrift
    split at hdrift <;> cases hdrift
  · intro hnone s' es hstep hfree
    have h' := h.move (move_of_step hstep) hnone
    exact h'.exact_iff.2 (h'.producers.drifts.free (h'.producers.locked.free_iff.1 hfree))

end Counted

theorem run_consumersCounted {contents : Int → UInt8} {actions : List (Action cfg)} {outs : List (List Event)}
    (h : run step (initial cfg contents) actions = .ok (s, outs)) : ConsumersCounted s :=
  run_invariant (I := ConsumersCounted) (fun _ _ _ _ hs _ hstep => hs.move (move_of_step hstep))
    (ConsumersCounted.initial contents) (along_true _ _ _) h

/-- A run keeps both counters exact, wherever the monitor is free, if and only if no removal ends while a
producer is counted as blocked; in every state, if and only if no permit is posted for a producer. -/
theorem counters_exact (contents : Int → UInt8) (actions : List (Action cfg)) :
    (Always step (fun s => s.Free → CountersExact s) (initial cfg contents) actions ↔
        Along step LeavesNone (initial cfg contents) actions) ∧
      (Always step CountersExact (initial cfg contents) actions ↔
        Along step PostsNone (initial cfg contents) actions) := by
  have hinitial : Counted (initial cfg contents) := Counted.initial contents
  have hexact : CountersExact (initial cfg contents) :=
    hinitial.exact_iff.2 (hinitial.producers.drifts.free (hinitial.producers.locked.free_iff.1 rfl))
  constructor
  · exact always_iff_along (fun _ _ _ _ h _ hnone hstep => h.move (move_of_step hstep) hnone)
      (fun _ _ h _ => h.free_step) hinitial fun _ => hexact
  · exact always_iff_along (fun _ _ _ _ h he _ hstep => h.move (move_of_step hstep) (h.leavesNone he))
      (fun _ _ h he => h.exact_step he) hinitial hexact

/-- One character written and read. -/
example : Along step LeavesNone (initial (.ofWrites 1 1 (by decide) (by decide)) fun _ => 0)
    (List.replicate 10 (.producer 0) ++ List.replicate 14 (.consumer 0)) := by decide

/-- The producer waits for room, and the consumer that makes room signals it and leaves it counted. -/
theorem producer_counted_twice : ∃ (s : State (.ofWrites 1 2 (by decide) (by decide))) (outs : List (List Event)),
    run step (initial _ fun _ => 0) (List.replicate 14 (.producer 0) ++ List.replicate 13 (.consumer 0)) = .ok (s, outs) ∧
      s.Free ∧ s.monitor.condFull.blockedThreadCount = 1 ∧ s.sem .fullMutex = 1 ∧ s.producersWaiting = 1 :=
  ⟨_, _, rfl, rfl, rfl, rfl, rfl⟩

end State

end UnixSysProg.ProcCon
