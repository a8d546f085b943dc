/-
The bounds of `pa3_1` over every interleaving, and the test of `main` for the end: once all producers have
returned, a buffer index of zero means that everything written has been consumed.
-/
import UnixSysProg.Pthread.Counting

namespace UnixSysProg.Pthread

open UnixSysProg.Lib

variable {cfg : Config}

/-! ## The turns of a producer -/

/-- A producer makes at most its number of writes, and stands at the top of its loop when it has made them. -/
def Producer.Counts (numberOfWrites : Nat) (t : Producer) : Prop :=
  t.i < numberOfWrites ∨ t.i = numberOfWrites ∧ t.pc = .waitFull

theorem Producer.Counts.all_written {n : Nat} {t : Producer} (h : t.Counts n) (hret : n ≤ t.i) : t.written = n := by
  rcases h with hlt | ⟨hi, hpc⟩
  · omega
  · simp [Producer.written, filled, hi, hpc]

theorem Producer.Counts.written_le {n : Nat} {t : Producer} (h : t.Counts n) : t.written ≤ n := by
  rcases h with hlt | hend
  · have hfilled : t.filled ≤ 1 := by
      unfold filled
      split <;> decide
    unfold written
    omega
  · exact (Producer.Counts.all_written (.inr hend) hend.1.ge).le

/-- The producers that `main` has joined. -/
def MainPc.joined (numProducer : Nat) : MainPc → Nat
  | .join k => k
  | _ => numProducer

/-- `main` has observed an empty buffer. -/
def MainPc.drained : MainPc → Prop
  | .postMutex loop => loop = false
  | .done => True
  | _ => False

/-- Writes go to places of the buffer. -/
def Event.InBuffer (bufferLength : Nat) : Event → Prop
  | .write index => 0 ≤ index ∧ index < bufferLength
  | .consume => True

/-! ## The mutex -/

def ProducerPc.inside (pc : ProducerPc) : Nat := if pc = .postMutex then 1 else 0

def ConsumerPc.inside (pc : ConsumerPc) : Nat := if pc = .postMutex then 1 else 0

def MainPc.inside : MainPc → Nat
  | .postMutex _ => 1
  | _ => 0

namespace State

variable {s s' : State cfg} {a : Action cfg} {es log : List Event} {q : Fin cfg.numProducer} {j : Fin cfg.numConsumer}

/-- The permit of the mutex is free or with one thread. -/
def Locked (s : State cfg) : Prop :=
  s.sem .mutex + tally (fun t => t.pc.inside) s.producers + tally ConsumerPc.inside s.consumers + s.main.inside = 1

theorem Locked.initial (contents : Int → UInt8) : Locked (initial cfg contents) := by
  have hproducers : tally (fun t => t.pc.inside) (State.initial cfg contents).producers = 0 :=
    tally_eq_zero.2 fun _ => rfl
  have hconsumers : tally ConsumerPc.inside (State.initial cfg contents).consumers = 0 := tally_eq_zero.2 fun _ => rfl
  rw [Locked, hproducers, hconsumers]
  rfl

theorem Locked.producer {sem : Sem → Nat} {op : SemOp Sem} {y : Producer} (h : Locked s) (hop : op.apply s.sem = some sem)
    (hy : y.pc.inside + op.posts .mutex = (s.producers q).pc.inside + op.waits .mutex) :
    sem .mutex + tally (fun t => t.pc.inside) (Function.update s.producers q y) +
      tally ConsumerPc.inside s.consumers + s.main.inside = 1 := by
  rw [Nat.add_assoc]
  exact SemOp.permits_update (by rw [← Nat.add_assoc]; exact h) hop hy

theorem Locked.consumer {sem : Sem → Nat} {op : SemOp Sem} {y : ConsumerPc} (h : Locked s)
    (hop : op.apply s.sem = some sem) (hy : y.inside + op.posts .mutex = (s.consumers j).inside + op.waits .mutex) :
    sem .mutex + tally (fun t => t.pc.inside) s.producers +
      tally ConsumerPc.inside (Function.update s.consumers j y) + s.main.inside = 1 := by
  rw [Nat.add_right_comm (sem .mutex), Nat.add_assoc]
  exact SemOp.permits_update (by unfold Locked at h; omega) hop hy

theorem Locked.move (h : Locked s) (hm : Move s a s' es) : Locked s' := by
  cases hm with
  | waitFull _ hpc hop | write _ hpc hop | written _ hpc hop | postEmpty _ hpc hop =>
    exact h.producer hop (by rw [hpc]; rfl)
  | waitEmpty hpc hop | consume hpc hop | consumed hpc hop | postFull hpc hop =>
    exact h.consumer hop (by rw [hpc]; rfl)
  | join _ hmain _ | joined hmain _ =>
    unfold Locked at h ⊢
    rw [hmain] at h
    exact h
  | test hmain hop =>
    have hsem := SemOp.apply_balance hop .mutex
    have hone : (SemOp.wait Sem.mutex).waits .mutex = 1 := rfl
    have hnone : (SemOp.wait Sem.mutex).posts .mutex = 0 := rfl
    unfold Locked at h ⊢
    rw [hmain] at h
    simp only [MainPc.inside] at h ⊢
    omega
  | @tested loop _ hmain hop =>
    have hsem := SemOp.apply_balance hop .mutex
    have hone : (SemOp.post Sem.mutex).posts .mutex = 1 := rfl
    have hnone : (SemOp.post Sem.mutex).waits .mutex = 0 := rfl
    have hout : (if loop then MainPc.waitMutex else MainPc.done).inside = 0 := by cases loop <;> rfl
    unfold Locked at h ⊢
    rw [hmain] at h
    simp only [MainPc.inside] at h
    simp only [hout]
    omega

/-! ## What every run keeps -/

theorem Move.turns_le (hm : Move s a s' es) (q : Fin cfg.numProducer) : (s.producers q).i ≤ (s'.producers q).i := by
  cases hm with
  | @waitFull t _ _ _ _ | @write t _ _ _ _ | @written t _ _ _ _ | @postEmpty t _ _ _ _ =>
    dsimp only
    by_cases hq : q = t
    · subst hq
      simp
    · rw [Function.update_of_ne hq]
  | _ => exact le_rfl

theorem Move.counts (hm : Move s a s' es) (h : ∀ q, (s.producers q).Counts cfg.numberOfWrites) :
    ∀ q, (s'.producers q).Counts cfg.numberOfWrites := by
  cases hm with
  | @waitFull t _ hret _ _ | @write t _ hret _ _ | @written t _ hret _ _ =>
    refine (Function.forall_update_iff _ fun _ y => Producer.Counts _ y).2 ⟨.inl (not_le.1 hret), fun q _ => h q⟩
  | @postEmpty t _ hret _ _ =>
    refine (Function.forall_update_iff _ fun _ y => Producer.Counts _ y).2 ⟨?_, fun q _ => h q⟩
    rcases lt_or_eq_of_le (Nat.succ_le_of_lt (not_le.1 hret)) with hlt | heq
    · exact .inl hlt
    · exact .inr ⟨heq, rfl⟩
  | _ => exact h

theorem Move.joins (hm : Move s a s' es)
    (h : ∀ q : Fin cfg.numProducer, q < s.main.joined cfg.numProducer → s.Returned q) :
    ∀ q : Fin cfg.numProducer, q < s'.main.joined cfg.numProducer → s'.Returned q := by
  have hkeep : ∀ q, s.Returned q → s'.Returned q := fun q hq => le_trans hq (hm.turns_le q)
  cases hm with
  | @join k hk hmain hret =>
    intro q hq
    rcases Nat.lt_or_eq_of_le (Nat.le_of_lt_succ hq) with hlt | heq
    · exact h q (by rw [hmain]; exact hlt)
    · have : q = ⟨k, hk⟩ := Fin.ext heq
      rw [this]
      exact hret
  | joined hmain hk => exact fun q _ => h q (by rw [hmain]; exact lt_of_lt_of_le q.isLt hk)
  | test hmain _ => exact fun q _ => h q (by rw [hmain]; exact q.isLt)
  | tested hmain _ => exact fun q _ => h q (by rw [hmain]; exact q.isLt)
  | _ => exact fun q hq => hkeep q (h q hq)

theorem Counted.bounds (h : Counted log s) : 0 ≤ s.bufferIndex ∧ s.bufferIndex ≤ cfg.bufferLength ∧
    s.sem .empty ≤ cfg.bufferLength ∧ s.sem .full ≤ cfg.bufferLength := by
  have hplaces := h.places
  have hcharacters := h.characters
  omega

/-- A producer about to write has a place of its own, so that the index is one of the buffer. -/
theorem Counted.slot (h : Counted log s) (hpc : (s.producers q).pc = .waitMutex) :
    (Event.write s.bufferIndex).InBuffer cfg.bufferLength := by
  have hplaces := h.places
  have hcharacters := h.characters
  have hslot := le_tally Producer.slot s.producers q
  have hone : (s.producers q).slot = 1 := by simp [Producer.slot, hpc]
  exact ⟨by omega, by omega⟩

theorem Counted.writes (h : Counted log s) (hm : Move s a s' es) : ∀ e ∈ es, e.InBuffer cfg.bufferLength := by
  cases hm with
  | write _ hpc _ => exact List.forall_mem_singleton.2 (h.slot hpc)
  | consume _ _ => exact List.forall_mem_singleton.2 trivial
  | _ => exact List.forall_mem_nil _

/-- No more characters are consumed than all producers write. -/
theorem Counted.consumed_le (h : Counted log s) (hcounts : ∀ q, (s.producers q).Counts cfg.numberOfWrites) :
    log.countP Event.isConsume ≤ cfg.numProducer * cfg.numberOfWrites := by
  have hbounds := h.bounds
  have hindex := h.index
  have hwritten := h.written
  have hle : tally Producer.written s.producers ≤ cfg.numProducer * cfg.numberOfWrites := by
    simpa [tally] using Finset.sum_le_card_nsmul Finset.univ (fun q => (s.producers q).written) _
      fun q _ => (hcounts q).written_le
  omega

/-- Once all producers have returned, a buffer that is empty has had everything consumed from it. -/
theorem Counted.consumed (h : Counted log s) (hcounts : ∀ q, (s.producers q).Counts cfg.numberOfWrites)
    (hret : ∀ q, s.Returned q) (hempty : s.bufferIndex = 0) :
    log.countP Event.isConsume = cfg.numProducer * cfg.numberOfWrites := by
  have hindex := h.index
  have hwritten := h.written
  have hall : tally Producer.written s.producers = cfg.numProducer * cfg.numberOfWrites := by
    rw [tally_const fun q => (hcounts q).all_written (hret q), Fintype.card_fin]
  omega

/-- The invariant of a run, with the log of its events. -/
structure Sound (log : List Event) (s : State cfg) : Prop where
  counted : Counted log s
  locked : Locked s
  counts : ∀ q, (s.producers q).Counts cfg.numberOfWrites
  joined : ∀ q : Fin cfg.numProducer, q < s.main.joined cfg.numProducer → s.Returned q
  writes : ∀ e ∈ log, e.InBuffer cfg.bufferLength
  drained : s.main.drained → log.countP Event.isConsume = cfg.numProducer * cfg.numberOfWrites

namespace Sound

theorem initial (contents : Int → UInt8) : Sound [] (initial cfg contents) := by
  refine ⟨Counted.initial contents, Locked.initial contents, fun q => ?_, fun q hq => absurd hq (Nat.not_lt_zero _),
    List.forall_mem_nil _, fun h => h.elim⟩
  rcases Nat.eq_zero_or_pos cfg.numberOfWrites with hzero | hpos
  · exact .inr ⟨hzero.symm, rfl⟩
  · exact .inl hpos

theorem move (h : Sound log s) (hm : Move s a s' es) : Sound (log ++ es) s' := by
  have hcounted := h.counted.move hm
  have hcounts := hm.counts h.counts
  have hwrites : ∀ e ∈ log ++ es, e.InBuffer cfg.bufferLength :=
    List.forall_mem_append.2 ⟨h.writes, h.counted.writes hm⟩
  refine ⟨hcounted, h.locked.move hm, hcounts, hm.joins h.joined, hwrites, ?_⟩
  -- once everything is consumed there is nothing left to consume
  have hstays : s.main.drained → (log ++ es).countP Event.isConsume = cfg.numProducer * cfg.numberOfWrites := by
    intro hdrained
    have hbefore := h.drained hdrained
    have hle := hcounted.consumed_le hcounts
    rw [List.countP_append] at hle ⊢
    omega
  cases hm with
  | test hmain _ =>
    intro hdrained
    rw [List.append_nil]
    refine h.counted.consumed h.counts (fun q => h.joined q (by rw [hmain]; exact q.isLt)) ?_
    simpa [MainPc.drained] using hdrained
  | @tested loop _ hmain _ =>
    rw [hmain] at hstays
    intro hdrained
    cases loop with
    | true => exact hdrained.elim
    | false => exact hstays rfl
  | join _ _ _ | joined _ _ => exact fun hdrained => hdrained.elim
  | _ => exact hstays

end Sound

theorem run_sound {contents : Int → UInt8} {actions : List (Action cfg)} {outs : List (List Event)}
    (h : run step (initial cfg contents) actions = .ok (s, outs)) : Sound outs.flatten s :=
  run_log (I := Sound) (fun _ _ _ _ _ hs _ hstep => hs.move (move_of_step hstep)) (Sound.initial contents)
    (along_true _ _ _) h

/-- Over every interleaving the writes and the index stay in the buffer and the semaphores within its
length, and when `main` has observed an empty buffer everything has been consumed. -/
theorem buffer_sound {contents : Int → UInt8} {actions : List (Action cfg)} {outs : List (List Event)}
    (h : run step (initial cfg contents) actions = .ok (s, outs)) :
    (∀ e ∈ outs.flatten, e.InBuffer cfg.bufferLength) ∧ (0 ≤ s.bufferIndex ∧ s.bufferIndex ≤ cfg.bufferLength) ∧
      s.sem .empty ≤ cfg.bufferLength ∧ s.sem .full ≤ cfg.bufferLength ∧
      (s.main.drained → outs.flatten.countP Event.isConsume = cfg.numProducer * cfg.numberOfWrites) := by
  have hsound := run_sound h
  obtain ⟨hlow, hhigh, hempty, hfull⟩ := hsound.counted.bounds
  exact ⟨hsound.writes, ⟨hlow, hhigh⟩, hempty, hfull, hsound.drained⟩

/-- One character through a buffer of one place, up to the end of `main`. -/
theorem buffer_sound_one : ∃ (s : State ⟨1, 1, 1, 1, by decide, by decide, by decide, by decide, by decide⟩)
    (outs : List (List Event)),
    run step (initial _ fun _ => 0) (List.replicate 4 (.producer 0) ++ List.replicate 4 (.consumer 0) ++
      List.replicate 4 .main) = .ok (s, outs) ∧ s.main = .done ∧ outs.flatten = [.write 0, .consume] ∧
    (∀ e ∈ outs.flatten, e.InBuffer 1) ∧ (0 ≤ s.bufferIndex ∧ s.bufferIndex ≤ 1) ∧ s.sem .empty ≤ 1 ∧ s.sem .full ≤ 1 ∧
      (s.main.drained → outs.flatten.countP Event.isConsume = 1) := by
  have hrun : ∃ (s : State ⟨1, 1, 1, 1, by decide, by decide, by decide, by decide, by decide⟩)
      (outs : List (List Event)),
      run step (initial _ fun _ => 0) (List.replicate 4 (.producer 0) ++ List.replicate 4 (.consumer 0) ++
        List.replicate 4 .main) = .ok (s, outs) ∧ s.main = .done ∧ outs.flatten = [.write 0, .consume] :=
    ⟨_, _, rfl, rfl, rfl⟩
  obtain ⟨s, outs, hrun, hmain, houts⟩ := hrun
  exact ⟨s, outs, hrun, hmain, houts, buffer_sound hrun⟩

end State

end UnixSysProg.Pthread
