/-
Wakeups of producers. A producer blocks only when the buffer is full, and each removal after that posts a
permit as long as it reads that producers are blocked. While a producer waits, the permits, the producers
on their way to insert, the characters stored and the removals that have still to post are together at
least as many as the buffer has room for: when the buffer is empty and no one is on the way, there is a
permit for the one that waits. The counter is never taken down, so that a removal reads that producers are
blocked while there are any as long as the counter does not wrap.
-/
import UnixSysProg.ProcCon.Drain

namespace UnixSysProg.ProcCon

open UnixSysProg.Lib

/-- The producer is on its way to a write. -/
def InsertPc.active : InsertPc → Nat
  | waitMonitor | waitProducer | postProducer => 1
  | _ => 0

/-- The thread has read a character and has still to post the semaphore of the producers. -/
def Place.pending : Place → Nat
  | .inl _ => 0
  | .inr pc => match pc with
    | .countWait | .countPost _ | .signalWait | .signalPost => 1
    | _ => 0

variable {bufferLength : Nat} {m m' : Monitor} {x y : Place} {es : List Event}

/-- A producer that does not block keeps what there is for those that wait: it takes a permit to go on,
or leaves a character. -/
theorem insert_supply {ch : UInt8} {pc : InsertPc}
    (hold : Place.waitsFull (.inl ((m.monitorInsert bufferLength ch pc).2.1.getD .waitMonitor)) ≤ Place.waitsFull (.inl pc)) :
    m.bufferIndex + (pc.op.waits .fullMutex + pc.active : Nat) ≤ (m.monitorInsert bufferLength ch pc).1.bufferIndex +
      (((m.monitorInsert bufferLength ch pc).2.1.map InsertPc.active).getD 0 : Nat) := by
  cases pc with
  | waitProducer =>
    dsimp only [Monitor.monitorInsert] at hold ⊢
    split at hold
    · cases hold
    · rename_i hblocked
      rw [if_neg hblocked]
      exact le_rfl
  | countPost num =>
    dsimp only [Monitor.monitorInsert]
    split
    · exact le_rfl
    · rcases insertCheck_cases m bufferLength with h | h <;> rw [h] <;> exact le_rfl
  | signalDone =>
    dsimp only [Monitor.monitorInsert]
    rcases insertCheck_cases m bufferLength with h | h <;> rw [h] <;> exact le_rfl
  | postProducer => simp [Monitor.monitorInsert, InsertPc.active, InsertPc.op, SemOp.waits]
  | _ => exact le_rfl

/-- A removal turns a character into a permit, unless it reads that no producer is blocked. -/
theorem remove_supply (m : Monitor) (ch : UInt8) {pc : RemovePc} (hnum : ∀ num, pc = .countPost num → 0 < num) :
    m.bufferIndex + (Place.pending (.inr pc) : Nat) ≤ (m.monitorRemove ch pc).1.bufferIndex +
      (Place.pending (.inr ((m.monitorRemove ch pc).2.1.getD .waitMonitor)) + pc.op.posts .fullMutex : Nat) := by
  cases pc with
  | waitConsumer | flagPost =>
    dsimp only [Monitor.monitorRemove]
    split <;> exact le_rfl
  | countPost num =>
    dsimp only [Monitor.monitorRemove]
    rw [if_pos (hnum num rfl)]
    exact le_rfl
  | postConsumer =>
    show m.bufferIndex + (0 : Nat) ≤ m.bufferIndex - 1 + (1 + 0 : Nat)
    omega
  | _ => exact le_rfl

theorem RemovePc.waits_fullMutex (pc : RemovePc) : pc.op.waits .fullMutex = 0 := by
  cases pc <;> rfl

variable {cfg : Config}

namespace State

variable {s s' : State cfg} {a : Action cfg} {q : Fin cfg.numProducer} {j : Fin cfg.numConsumer} {sem : Sem → Nat}

/-- A removal that comes to its test while a producer waits has read a positive number. -/
def SignalsWaiting (s : State cfg) (a : Action cfg) : Prop :=
  ∀ j num, a = .consumer j → (s.consumers j).pc = .countPost num → 0 < s.producersWaiting → 0 < num

/-- Whether a producer is on its way to a write. -/
def activity (s : State cfg) (q : Fin cfg.numProducer) : Nat := if s.Returned q then 0 else (s.producers q).pc.active

/-- The producers on their way to a write. -/
def producersActive (s : State cfg) : Nat := tally id s.activity

/-- The removals that have still to post the semaphore of the producers. -/
def signalsPending (s : State cfg) : Nat := tally Place.pending s.place

theorem activity_producerStep : (s.producerStep q sem).1.activity =
    Function.update s.activity q ((s.producerStep q sem).1.activity q) := by
  funext q'
  by_cases hq : q' = q
  · subst hq; simp
  · simp only [activity, Returned, producerStep, Function.update_of_ne hq]
    rfl

theorem activity_producerStep_self (sem : Sem → Nat) (hnot : ¬ s.Returned q) :
    ((s.monitor.monitorInsert cfg.bufferLength (cfg.getRandomCharacter q (s.producers q).i)
      (s.producers q).pc).2.1.map InsertPc.active).getD 0 ≤ (s.producerStep q sem).1.activity q := by
  unfold activity Returned at *
  simp only [producerStep, Function.update_self, produced]
  split
  · rename_i pc hpc
    rw [hpc, if_neg hnot]
    exact le_rfl
  · rename_i hpc
    rw [hpc]
    exact Nat.zero_le _

/-- No wakeup of a producer is lost: while one waits, what there is fills the buffer. -/
def Woken (s : State cfg) : Prop := 0 < s.producersWaiting → (cfg.bufferLength : Int) ≤
  s.monitor.bufferIndex + 1 + (s.sem .fullMutex + s.producersActive + s.signalsPending : Nat)

namespace Woken

theorem initial (contents : Int → UInt8) : Woken (initial cfg contents) := by
  intro hpos
  rw [show (State.initial cfg contents).producersWaiting = 0 from tally_eq_zero.2 fun _ => rfl] at hpos
  cases hpos

theorem producer (h : Woken s) (hs : Sound s) (hnot : ¬ s.Returned q)
    (hop : (s.producers q).pc.op.apply s.sem = some sem) : Woken (s.producerStep q sem).1 := by
  have ht := turn_producer hop
  have hwaiting := tally_update Place.waitsFull s.place (.inl q) ((s.producerStep q sem).1.place (.inl q))
  rw [← ht.others, tally_waitsFull, tally_waitsFull] at hwaiting
  have hpending := tally_update Place.pending s.place (.inl q) ((s.producerStep q sem).1.place (.inl q))
  rw [← ht.others] at hpending
  have hactive := tally_update id s.activity q ((s.producerStep q sem).1.activity q)
  rw [← activity_producerStep] at hactive
  have hsem := SemOp.apply_balance ht.op .fullMutex
  intro hpos
  by_cases hnew : (s.place (.inl q)).waitsFull < ((s.producerStep q sem).1.place (.inl q)).waitsFull
  · -- the producer blocks, and finds the buffer full
    obtain ⟨hpc, hblocked, hindex⟩ := ht.code.blocks hnew
    have hflags : Flags cfg.bufferLength s.monitor := by
      have := hs.flags.asserts (.inl q) (by rw [hpc]; rfl)
      rw [hpc] at this
      exact this
    have := hflags.full.1 hblocked
    omega
  · have hold : Place.waitsFull (.inl ((s.monitor.monitorInsert cfg.bufferLength
        (cfg.getRandomCharacter q (s.producers q).i) (s.producers q).pc).2.1.getD .waitMonitor)) ≤
        Place.waitsFull (.inl (s.producers q).pc) := by
      rw [place_producerStep] at hnew
      exact not_lt.1 hnew
    have hsupply := insert_supply hold
    have hself := activity_producerStep_self sem hnot
    have hmore : s.monitor.bufferIndex + ((s.place (.inl q)).op.waits .fullMutex + s.activity q : Nat) ≤
        (s.producerStep q sem).1.monitor.bufferIndex + ((s.producerStep q sem).1.activity q : Nat) := by
      rw [show s.activity q = (s.producers q).pc.active from if_neg hnot]
      exact hsupply.trans (Int.add_le_add_left (Int.ofNat_le.2 hself) _)
    have hbefore : (s.place (.inl q)).pending = 0 := rfl
    have hafter : ((s.producerStep q sem).1.place (.inl q)).pending = 0 := by rw [place_producerStep]; rfl
    have hL := h (by omega)
    unfold producersActive signalsPending at *
    simp only [id] at hactive
    omega

theorem consumer (h : Woken s) (hop : (s.consumers j).pc.op.apply s.sem = some sem)
    (hsignals : SignalsWaiting s (.consumer j)) : Woken (s.consumerStep j sem).1 := by
  have ht := turn_consumer hop
  have hplace := place_consumerStep s j sem
  have hactive : (s.consumerStep j sem).1.producersActive = s.producersActive := rfl
  have hpending := tally_update Place.pending s.place (.inr j) ((s.consumerStep j sem).1.place (.inr j))
  rw [← ht.others] at hpending
  have hsem := SemOp.apply_balance ht.op .fullMutex
  have hnone : (s.place (.inr j)).op.waits .fullMutex = 0 := RemovePc.waits_fullMutex _
  intro hpos
  have hpos : 0 < s.producersWaiting := hpos
  have hsupply := remove_supply s.monitor (s.consumers j).ch fun num hpc => hsignals j num rfl hpc hpos
  rw [hplace] at hpending
  have hindex : (s.consumerStep j sem).1.monitor.bufferIndex =
      (s.monitor.monitorRemove (s.consumers j).ch (s.consumers j).pc).1.bufferIndex := rfl
  have hposts : (s.place (.inr j)).op.posts .fullMutex = (s.consumers j).pc.op.posts .fullMutex := rfl
  have hbefore : (s.place (.inr j)).pending = Place.pending (.inr (s.consumers j).pc) := rfl
  have hL := h hpos
  rw [hactive]
  unfold signalsPending at *
  omega

theorem move (h : Woken s) (hs : Sound s) (hm : Move s a s' es) (hsignals : SignalsWaiting s a) : Woken s' := by
  cases hm with
  | producer hnot hop => exact h.producer hs hnot hop
  | consumer hop => exact h.consumer hop hsignals
  | main hmain =>
    have hsem : s'.sem .fullMutex = s.sem .fullMutex := hmain.sem (by simp)
    have hmonitor := hmain.frame.1
    have hwaiting : s'.producersWaiting = s.producersWaiting := by cases hmain <;> rfl
    have hactive : s'.producersActive = s.producersActive := by cases hmain <;> rfl
    unfold Woken
    rw [hwaiting, hmonitor, hsem, hactive, signalsPending, hmain.place]
    exact h

end Woken

end State

/-! ## The counter that does not wrap -/

/-- `monitor_getNumProducersBlocked` has the current number. -/
def Place.current (m : Monitor) : Place → Prop
  | .inr (.countPost num) => num = m.condFull.blockedThreadCount
  | _ => True

/-- The number read as memory guarded by `monitor_mutex`. -/
def currentGuard : Guard Place Monitor where
  inside := Place.inside
  asserts x m := x.current m
  free _ := True
  asserts_outside x m hx := by
    rcases x with pc | pc
    all_goals cases pc <;> first | exact Iff.rfl | exact absurd rfl hx

theorem Proceeds.current {bufferLength : Nat} {m m' : Monitor} {x y : Place} {es : List Event}
    (h : Proceeds bufferLength m x m' y es) : y.current m' := by
  cases h with
  | insert ch pc => trivial
  | remove ch pc =>
    cases pc with
    | waitConsumer | countPost num | flagPost =>
      dsimp only [Monitor.monitorRemove]
      split <;> trivial
    | countWait => rfl
    | _ => trivial

namespace State

variable {s s' : State cfg} {a : Action cfg} {q : Fin cfg.numProducer} {j : Fin cfg.numConsumer} {sem : Sem → Nat}

/-- The counter of blocked producers does not wrap. -/
def CountFits (s : State cfg) (a : Action cfg) : Prop :=
  ∀ q, a = .producer q → (s.producers q).pc = .waitProducer → s.monitor.condFull.blocked = true →
    s.monitor.condFull.blockedThreadCount ≠ Int32.maxValue

instance (s : State cfg) : (a : Action cfg) → Decidable (CountFits s a)
  | .producer q => decidable_of_iff ((s.producers q).pc = .waitProducer → s.monitor.condFull.blocked = true →
      s.monitor.condFull.blockedThreadCount ≠ Int32.maxValue) (by simp [CountFits])
  | .consumer _ | .main => isTrue (by simp [CountFits])

/-- A producer that waits is counted, and a removal has the current number. -/
structure ReadsWaiting (s : State cfg) : Prop where
  locked : Locked s
  counted : s.producersWaiting ≤ s.monitor.condFull.blockedThreadCount.toInt
  current : currentGuard.Holds s.place s.monitor

namespace ReadsWaiting

theorem initial (contents : Int → UInt8) : ReadsWaiting (initial cfg contents) := by
  have hnone : (State.initial cfg contents).producersWaiting = 0 := tally_eq_zero.2 fun _ => rfl
  refine ⟨Locked.initial contents, ?_, ?_⟩
  · rw [hnone]
    rfl
  · constructor
    · rintro (q | j) ht <;> cases ht
    · intro _
      trivial

theorem turn {t : Fin cfg.numProducer ⊕ Fin cfg.numConsumer} (h : ReadsWaiting s) (ht : Turn s s' t es)
    (hl : Locked s') (hfits : ∀ q, t = .inl q → CountFits s (.producer q)) : ReadsWaiting s' := by
  have hwaiting := tally_update Place.waitsFull s.place t (s'.place t)
  rw [← ht.others, tally_waitsFull, tally_waitsFull] at hwaiting
  have hcount := ht.code.fullCount fun hnew => by
    obtain ⟨hpc, hblocked, _⟩ := ht.code.blocks hnew
    obtain ⟨q, rfl⟩ : ∃ q, t = .inl q := by
      rcases t with q | j
      · exact ⟨q, rfl⟩
      · cases hpc
    have hne := hfits q rfl q rfl (Sum.inl.inj hpc) hblocked
    have hlt := s.monitor.condFull.blockedThreadCount.toInt_lt
    have hne' : s.monitor.condFull.blockedThreadCount.toInt ≠ Int32.maxValue.toInt := fun he => hne (Int32.toInt_inj.1 he)
    rw [show Int32.maxValue.toInt = 2147483647 from rfl] at hne'
    omega
  have hcounted := h.counted
  exact ⟨hl, by omega, h.locked.guard rfl h.current ht fun _ _ => ht.code.current⟩

theorem move (h : ReadsWaiting s) (hm : Move s a s' es) (hfits : CountFits s a) : ReadsWaiting s' := by
  have hl := h.locked.move hm
  cases hm with
  | producer _ hop => exact h.turn (turn_producer hop) hl fun q he => by cases he; exact hfits
  | consumer hop => exact h.turn (turn_consumer hop) hl fun q he => by cases he
  | main hmain =>
    have hmonitor := hmain.frame.1
    have hwaiting : s'.producersWaiting = s.producersWaiting := by cases hmain <;> rfl
    exact ⟨hl, by rw [hwaiting, hmonitor]; exact h.counted, by rw [hmain.place, hmonitor]; exact h.current⟩

theorem signalsWaiting (h : ReadsWaiting s) : SignalsWaiting s a := by
  intro j num _ hpc hpos
  have hcur := h.current.asserts (.inr j) (by rw [place_inr, hpc]; rfl)
  rw [place_inr, hpc] at hcur
  have hcounted := h.counted
  rw [show num = s.monitor.condFull.blockedThreadCount from hcur, Int32.lt_iff_toInt_lt]
  show 0 < _
  omega

end ReadsWaiting

/-- As long as the counter does not wrap every removal made while a producer waits signals. -/
theorem along_signalsWaiting {contents : Int → UInt8} {actions : List (Action cfg)}
    (hfits : Along step CountFits (initial cfg contents) actions) :
    Along step SignalsWaiting (initial cfg contents) actions := by
  have hboth := (along_iff (C := fun s a => CountFits s a ∧ SignalsWaiting s a) (I := ReadsWaiting)
    (fun _ _ h => and_iff_left h.signalsWaiting) (fun _ _ _ _ h hfits hstep => h.move (move_of_step hstep) hfits)
    (ReadsWaiting.initial contents)).2 hfits
  exact hboth.mono fun _ _ h => h.2

end State

end UnixSysProg.ProcCon
