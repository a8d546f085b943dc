/-
Runs of one thread alone. As long as one thread takes all the steps, the run is that thread's code on the
monitor and the semaphores; the other threads stay where they are.
-/
import UnixSysProg.ProcCon.Threads

namespace UnixSysProg.ProcCon

open UnixSysProg.Lib

/-- The next `n` operations of `monitor_insert`, the last of which may be its return. -/
def Monitor.insertAlone (bufferLength : Nat) (ch : UInt8) :
    Nat → Monitor → (Sem → Nat) → InsertPc → Option (Monitor × (Sem → Nat) × Option InsertPc)
  | 0, m, sem, pc => some (m, sem, some pc)
  | n + 1, m, sem, pc =>
    match pc.op.apply sem with
    | none => none
    | some sem' =>
      match m.monitorInsert bufferLength ch pc with
      | (m', some pc', _) => insertAlone bufferLength ch n m' sem' pc'
      | (m', none, _) => if n = 0 then some (m', sem', none) else none

/-- The next `n` operations of `monitor_remove`, the last of which may be its return. -/
def Monitor.removeAlone : Nat → Monitor → (Sem → Nat) → UInt8 → RemovePc → Option (Monitor × (Sem → Nat) × Consumer)
  | 0, m, sem, ch, pc => some (m, sem, ⟨pc, ch⟩)
  | n + 1, m, sem, ch, pc =>
    match pc.op.apply sem with
    | none => none
    | some sem' =>
      match m.monitorRemove ch pc with
      | (m', some pc', ch', _) => removeAlone n m' sem' ch' pc'
      | (m', none, _, _) => if n = 0 then some (m', sem', .turn) else none

/-! ## Calls with the mutexes free -/

/-- The mutexes free, and as many permits of the other semaphores as given. -/
def Sem.free (emptyTokens fullTokens : Nat) : Sem → Nat
  | monitorMutex | producerMutex | consumerMutex => 1
  | emptyMutex => emptyTokens
  | fullMutex => fullTokens

theorem of_exists_sem {P : (Sem → Nat) → Prop} {sem : Sem → Nat} (h : ∃ sem', P sem' ∧ ∀ k, sem' k = sem k) : P sem := by
  obtain ⟨sem', h, hsem⟩ := h
  rwa [← funext hsem]

namespace Monitor

variable {bufferLength : Nat} {ch : UInt8} {e f r : Nat} {index : Int} {b : Int → UInt8} {cv : Cv} {n k : Int32}

theorem insertAlone_block : insertAlone bufferLength ch 4 ⟨index, b, cv, ⟨true, n⟩⟩ (Sem.free e f) .waitMonitor =
    some (⟨index, b, cv, ⟨true, n + 1⟩⟩, Sem.free e f, some .blockedWait) :=
  of_exists_sem (P := fun sem => _ = some (_, sem, _)) ⟨_, rfl, fun k => by cases k <;> rfl⟩

/-- A producer that fills a buffer of one character, with no consumer to wake. -/
theorem insertAlone_fill : insertAlone 1 ch 10 ⟨-1, b, ⟨true, 0⟩, ⟨false, n⟩⟩ (Sem.free e f) .waitMonitor =
    some (⟨0, Function.update b (-1) ch, ⟨false, 0⟩, ⟨true, n⟩⟩, Sem.free e f, none) :=
  of_exists_sem (P := fun sem => _ = some (_, sem, _)) ⟨_, rfl, fun k => by cases k <;> rfl⟩

theorem insertAlone_wake : insertAlone 1 ch 11 ⟨-1, b, ⟨true, 0⟩, ⟨false, n⟩⟩ (Sem.free e (f + 1)) .blockedWait =
    some (⟨0, Function.update b (-1) ch, ⟨false, 0⟩, ⟨true, n⟩⟩, Sem.free e f, none) :=
  of_exists_sem (P := fun sem => _ = some (_, sem, _)) ⟨_, rfl, fun k => by cases k <;> rfl⟩

theorem removeAlone_block : removeAlone 4 ⟨index, b, ⟨true, k⟩, cv⟩ (Sem.free e f) ch .waitMonitor =
    some (⟨index, b, ⟨true, k + 1⟩, cv⟩, Sem.free e f, ⟨.blockedWait, ch⟩) :=
  of_exists_sem (P := fun sem => _ = some (_, sem, _)) ⟨_, rfl, fun k => by cases k <;> rfl⟩

/-- A removal up to what it makes of the number of blocked producers. -/
theorem removeAlone_read : removeAlone (r + 5) ⟨0, b, ⟨false, k⟩, ⟨true, n⟩⟩ (Sem.free e f) ch .waitMonitor =
    removeAlone r ⟨-1, b, ⟨false, k⟩, ⟨true, n⟩⟩ (Function.update (Sem.free e f) .monitorMutex 0) (b 0)
      (if 0 < n then .signalWait else .flagWait) :=
  of_exists_sem (P := fun sem => _ = removeAlone r _ sem _ _) ⟨_, rfl, fun k => by cases k <;> rfl⟩

/-- A removal of the only character that signals a producer. -/
theorem removeAlone_signal (hn : 0 < n) : removeAlone 13 ⟨0, b, ⟨false, k⟩, ⟨true, n⟩⟩ (Sem.free e f) ch .waitMonitor =
    some (⟨-1, b, ⟨true, k⟩, ⟨false, n⟩⟩, Sem.free e (f + 1), .turn) := by
  rw [show 13 = 8 + 5 from rfl, removeAlone_read, if_pos hn]
  exact of_exists_sem (P := fun sem => _ = some (_, sem, _)) ⟨_, rfl, fun k => by cases k <;> rfl⟩

/-- A removal of the only character that reads that no producer is blocked. -/
theorem removeAlone_silent (hn : ¬ 0 < n) : removeAlone 10 ⟨0, b, ⟨false, k⟩, ⟨true, n⟩⟩ (Sem.free e f) ch .waitMonitor =
    some (⟨-1, b, ⟨true, k⟩, ⟨false, n⟩⟩, Sem.free e f, .turn) := by
  rw [show 10 = 5 + 5 from rfl, removeAlone_read, if_neg hn]
  exact of_exists_sem (P := fun sem => _ = some (_, sem, _)) ⟨_, rfl, fun k => by cases k <;> rfl⟩

end Monitor

/-! ## Runs -/

variable {cfg : Config}

namespace State

theorem run_insertAlone {q : Fin cfg.numProducer} {m' : Monitor} {sem' : Sem → Nat} {pc' : Option InsertPc} :
    ∀ {n : Nat} {s : State cfg}, ¬ s.Returned q →
      Monitor.insertAlone cfg.bufferLength (cfg.getRandomCharacter q (s.producers q).i) n s.monitor s.sem
        (s.producers q).pc = some (m', sem', pc') →
      ∃ outs, run step s (List.replicate n (.producer q)) = .ok ({ s with
        monitor := m', sem := sem', producers := Function.update s.producers q (s.produced q pc') }, outs)
  | 0, s, _, h => by
    cases h
    refine ⟨[], ?_⟩
    rw [show s.produced q (some (s.producers q).pc) = s.producers q from rfl, Function.update_eq_self]
    rfl
  | n + 1, s, hnot, h => by
    rw [Monitor.insertAlone] at h
    split at h
    · cases h
    rename_i sem₁ hop
    have hstep := step_producer hnot hop
    rcases hcode : s.monitor.monitorInsert cfg.bufferLength (cfg.getRandomCharacter q (s.producers q).i)
      (s.producers q).pc with ⟨m₁, pc₁, es⟩
    have hnext : s.producerStep q sem₁ = ({ s with
        monitor := m₁, sem := sem₁, producers := Function.update s.producers q (s.produced q pc₁) }, es) := by
      simp only [producerStep, hcode]
    rw [hnext] at hstep
    rw [hcode] at h
    cases pc₁ with
    | some pc₁ =>
      obtain ⟨outs, hrun⟩ := run_insertAlone (q := q) (n := n) (s := { s with
          monitor := m₁, sem := sem₁, producers := Function.update s.producers q (s.produced q (some pc₁)) })
        (by simpa [Returned, produced] using hnot) (by simpa [produced] using h)
      refine ⟨es :: outs, run_cons_ok.2 ⟨_, es, outs, hstep, ?_, rfl⟩⟩
      rw [hrun]
      simp only [Function.update_idem]
      cases pc' <;> simp [produced]
    | none =>
      dsimp only at h
      split at h
      · rename_i hn
        cases h
        subst hn
        exact ⟨[es], run_cons_ok.2 ⟨_, es, [], hstep, rfl, rfl⟩⟩
      · cases h

theorem run_removeAlone {j : Fin cfg.numConsumer} {m' : Monitor} {sem' : Sem → Nat} {t : Consumer} :
    ∀ {n : Nat} {s : State cfg},
      Monitor.removeAlone n s.monitor s.sem (s.consumers j).ch (s.consumers j).pc = some (m', sem', t) →
      ∃ outs, run step s (List.replicate n (.consumer j)) = .ok ({ s with
        monitor := m', sem := sem', consumers := Function.update s.consumers j t }, outs)
  | 0, s, h => by
    cases h
    refine ⟨[], ?_⟩
    rw [show (⟨(s.consumers j).pc, (s.consumers j).ch⟩ : Consumer) = s.consumers j from rfl, Function.update_eq_self]
    rfl
  | n + 1, s, h => by
    rw [Monitor.removeAlone] at h
    split at h
    · cases h
    rename_i sem₁ hop
    have hstep := step_consumer hop
    rcases hcode : s.monitor.monitorRemove (s.consumers j).ch (s.consumers j).pc with ⟨m₁, pc₁, ch₁, es⟩
    rw [hcode] at h
    cases pc₁ with
    | some pc₁ =>
      have hnext : s.consumerStep j sem₁ = ({ s with
          monitor := m₁, sem := sem₁, consumers := Function.update s.consumers j ⟨pc₁, ch₁⟩ }, es) := by
        simp only [consumerStep, hcode]
      rw [hnext] at hstep
      obtain ⟨outs, hrun⟩ := run_removeAlone (j := j) (n := n) (s := { s with
          monitor := m₁, sem := sem₁, consumers := Function.update s.consumers j ⟨pc₁, ch₁⟩ }) (by simpa using h)
      refine ⟨es :: outs, run_cons_ok.2 ⟨_, es, outs, hstep, ?_, rfl⟩⟩
      rw [hrun]
      simp only [Function.update_idem]
    | none =>
      have hnext : s.consumerStep j sem₁ = ({ s with
          monitor := m₁, sem := sem₁, consumers := Function.update s.consumers j .turn }, es) := by
        simp only [consumerStep, hcode]
      rw [hnext] at hstep
      dsimp only at h
      split at h
      · rename_i hn
        cases h
        subst hn
        exact ⟨[es], run_cons_ok.2 ⟨_, es, [], hstep, rfl, rfl⟩⟩
      · cases h

end State

end UnixSysProg.ProcCon
