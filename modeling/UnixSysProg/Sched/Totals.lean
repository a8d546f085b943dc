/-
The times the scheduler reports. A worker's record keeps the reading of its last suspension and of its
last resume, and adds up what was between them on top of what the allocated memory held; a cancelled
worker's sums go into the totals. `create_workers` sets the two readings and not the two sums, so that
once all workers have completed the totals are the true times if and only if what the memory held adds up
to nothing.
-/
import UnixSysProg.Sched.Quanta
import UnixSysProg.Sched.Microseconds
import Mathlib.Algebra.BigOperators.Ring.Finset

namespace UnixSysProg.Sched

open UnixSysProg.Lib

/-! ## One worker's record -/

/-- The record of a worker that was created with the record `start` and has been resumed at `resumes` and
suspended at `suspends`. -/
structure Metered (start : ThreadInfo) (resumes suspends : List Timespec) (resumed : Prop) [Decidable resumed]
    (info : ThreadInfo) : Prop where
  turns : resumes.length = suspends.length + if resumed then 1 else 0
  suspended : info.suspendTime = suspends.getLastD start.suspendTime
  resumedAt : info.resumeTime = resumes.getLastD start.resumeTime
  wait : info.waitTime =
    start.waitTime + (List.zipWith timeDifference resumes (start.suspendTime :: suspends)).sum
  run : info.runTime = start.runTime + (List.zipWith timeDifference suspends resumes).sum

namespace Metered

variable {start info : ThreadInfo} {resumes suspends : List Timespec} {r r' : Prop} [Decidable r] [Decidable r']

theorem initial (start : ThreadInfo) (hr : ¬ r) : Metered start [] [] r start where
  turns := by rw [if_neg hr]; rfl
  suspended := rfl
  resumedAt := rfl
  wait := by simp
  run := by simp

/-- A worker is resumed: it has waited since its last suspension, or its creation. -/
theorem resume (h : Metered start resumes suspends r info) (hr : ¬ r) (hr' : r') (now : Timespec) :
    Metered start (resumes ++ [now]) suspends r' (ThreadInfo.updateWaitTime { info with resumeTime := now }) := by
  have hlen : resumes.length = suspends.length := by have := h.turns; rwa [if_neg hr] at this
  refine ⟨by rw [if_pos hr', List.length_append, hlen]; rfl, h.suspended, by simp [ThreadInfo.updateWaitTime], ?_, ?_⟩
  · have hw := h.wait
    rw [zipWith_concat timeDifference now _ hlen, List.sum_append, List.sum_singleton, ← h.suspended]
    simp only [ThreadInfo.updateWaitTime]
    omega
  · rw [zipWith_concat_right timeDifference hlen.symm]
    exact h.run

/-- A worker is suspended: it has run since its last resume. -/
theorem suspend (h : Metered start resumes suspends r info) (hr : r) (hr' : ¬ r') (now : Timespec) :
    Metered start resumes (suspends ++ [now]) r' (ThreadInfo.updateRunTime { info with suspendTime := now }) := by
  have hlen : resumes.length = suspends.length + 1 := by have := h.turns; rwa [if_pos hr] at this
  refine ⟨by rw [if_neg hr', List.length_append, hlen]; rfl, by simp [ThreadInfo.updateRunTime], h.resumedAt, ?_, ?_⟩
  · rw [← List.cons_append, zipWith_concat_right timeDifference (by rw [hlen]; rfl)]
    exact h.wait
  · -- the last resume is the one before this suspension
    obtain ⟨t, ts, rfl⟩ := List.exists_cons_of_length_eq_add_one hlen
    have hat := h.resumedAt
    have hrun := h.run
    rw [List.getLastD_cons] at hat
    rw [zipWith_concat timeDifference now t (by simpa using hlen.symm), List.sum_append, List.sum_singleton, ← hat]
    simp only [ThreadInfo.updateRunTime]
    omega

theorem congr (h : Metered start resumes suspends r info) (hr : r' ↔ r) : Metered start resumes suspends r' info :=
  ⟨by simp only [hr]; exact h.turns, h.suspended, h.resumedAt, h.wait, h.run⟩

end Metered

/-! ## When things happened -/

def Action.now {n : Nat} : Action n → Option Timespec
  | .tick now | .handler now => some now
  | _ => none

namespace Scheduler

variable {n : Nat}

/-- The clock readings with which a run reported an event. -/
def times (e : Event n) (actions : List (Action n)) (outs : List (List (Event n))) : List Timespec :=
  (actions.zip outs).filterMap fun p => if e ∈ p.2 then p.1.now else none

theorem times_concat {actions : List (Action n)} {outs : List (List (Event n))} (h : actions.length = outs.length)
    (e : Event n) (a : Action n) (es : List (Event n)) :
    times e (actions ++ [a]) (outs ++ [es]) = times e actions outs ++ (if e ∈ es then a.now else none).toList := by
  unfold times
  rw [List.zip_append h, List.filterMap_append]
  cases hn : if e ∈ es then a.now else none with
  | none => simp [hn]
  | some t => simp [hn]

/-- The worker has been cancelled and its sums are in the totals. -/
def InTotals (s : Scheduler n) (w : Fin n) : Prop := (s.pc w).signalled = true ∧ s.handler ≠ .cancelTotals w

instance (s : Scheduler n) (w : Fin n) : Decidable (s.InTotals w) := inferInstanceAs (Decidable (_ ∧ _))

/-- What the totals hold of a field of the workers' records. -/
def totalOf (s : Scheduler n) (field : ThreadInfo → Int) : Int :=
  ∑ w, if s.InTotals w then field (s.info w) else 0

theorem totalOf_eq {s s' : Scheduler n} (field : ThreadInfo → Int) (hc : ∀ w, s'.InTotals w ↔ s.InTotals w)
    (hi : ∀ w, s.InTotals w → s'.info w = s.info w) : s'.totalOf field = s.totalOf field := by
  refine Finset.sum_congr rfl fun w _ => ?_
  by_cases hw : s.InTotals w
  · rw [if_pos ((hc w).2 hw), if_pos hw, hi w hw]
  · rw [if_neg (mt (hc w).1 hw), if_neg hw]

theorem totalOf_add {s s' : Scheduler n} {w : Fin n} (field : ThreadInfo → Int) (hw : ¬ s.InTotals w)
    (hc : ∀ v, s'.InTotals v ↔ s.InTotals v ∨ v = w) (hi : s'.info = s.info) :
    s'.totalOf field = s.totalOf field + field (s.info w) := by
  have hsplit : ∀ v, (if s'.InTotals v then field (s'.info v) else 0) =
      (if s.InTotals v then field (s.info v) else 0) + if v = w then field (s.info w) else 0 := by
    intro v
    by_cases hv : v = w
    · subst hv; simp [hc, hw, hi]
    · simp [hc, hv, hi]
  unfold totalOf
  rw [Finset.sum_congr rfl fun v _ => hsplit v, Finset.sum_add_distrib, Finset.sum_ite_eq']
  simp

/-- The records and the totals after a run from the records `start`. -/
structure Metering (start : Fin n → ThreadInfo) (actions : List (Action n)) (outs : List (List (Event n)))
    (s : Scheduler n) : Prop where
  lengths : actions.length = outs.length
  metered : ∀ w, Metered (start w) (times (.resuming w) actions outs) (times (.suspending w) actions outs)
    (s.running = some w) (s.info w)
  waitTotal : s.waitTimes = s.totalOf ThreadInfo.waitTime
  runTotal : s.runTimes = s.totalOf ThreadInfo.runTime

namespace Metering

variable {s s' : Scheduler n} {a : Action n} {es : List (Event n)} {actions : List (Action n)}
  {outs : List (List (Event n))} {start : Fin n → ThreadInfo}

theorem initial (queueSize : Nat) (info : Fin n → ThreadInfo) : Metering info [] [] (initial queueSize info) where
  lengths := rfl
  metered w := Metered.initial _ (by simp [running, Scheduler.initial])
  waitTotal := by simp [totalOf, InTotals, Scheduler.initial, WorkerPc.signalled]
  runTotal := by simp [totalOf, InTotals, Scheduler.initial, WorkerPc.signalled]

theorem silent (h : Metering start actions outs s) (hes : ∀ w, .resuming w ∉ es ∧ .suspending w ∉ es)
    (hr : s'.running = s.running) (hi : s'.info = s.info) (hc : ∀ w, s'.InTotals w ↔ s.InTotals w)
    (hw : s'.waitTimes = s.waitTimes) (hrun : s'.runTimes = s.runTimes) :
    Metering start (actions ++ [a]) (outs ++ [es]) s' := by
  refine ⟨by simp [h.lengths], fun w => ?_, ?_, ?_⟩
  · rw [times_concat h.lengths, times_concat h.lengths, if_neg (hes w).1, if_neg (hes w).2, hi]
    simpa [hr] using h.metered w
  · rw [hw, h.waitTotal, totalOf_eq _ hc fun w _ => by rw [hi]]
  · rw [hrun, h.runTotal, totalOf_eq _ hc fun w _ => by rw [hi]]

/-- The current worker is suspended. Its sums are not in the totals yet. -/
theorem suspend (h : Metering start actions outs s) (hc : Control s) {w : Fin n} {now : Timespec}
    (hi : s.handler = .idle) (hcur : s.currentThread = some w) :
    Metering start (actions ++ [.tick now]) (outs ++ [[.suspending w]]) (s.suspendWorker w now) := by
  have hpc := hc.current w hi hcur
  have hrun : s.running = some w := by simp [running, hi, hcur]
  have hnone : (s.suspendWorker w now).running = none := if_neg (suspendWorker_busy s w now)
  have hnot : ∀ v, (s.suspendWorker w now).InTotals v ↔ s.InTotals v := by
    intro v
    simp only [InTotals, suspendWorker_pc, hi]
    refine and_congr_right fun _ => iff_of_true ?_ (by simp)
    unfold suspendWorker
    dsimp only
    split <;> simp
  have hother : ∀ v, s.InTotals v → (s.suspendWorker w now).info v = s.info v := by
    rintro v ⟨hsig, _⟩
    refine suspendWorker_other s ?_ now
    rintro rfl
    rw [hpc] at hsig
    cases hsig
  refine ⟨by simp [h.lengths], fun v => ?_, ?_, ?_⟩
  · rw [times_concat h.lengths, times_concat h.lengths]
    by_cases hv : v = w
    · subst hv
      have hself : (s.suspendWorker v now).info v = ThreadInfo.updateRunTime { s.info v with suspendTime := now } :=
        Function.update_self ..
      rw [hself]
      simpa [Action.now] using (h.metered v).suspend hrun (by simp [hnone]) now
    · rw [suspendWorker_other s hv]
      have hrunning : (s.suspendWorker w now).running = some v ↔ s.running = some v := by simp [hnone, hrun, Ne.symm hv]
      simpa [hv] using (h.metered v).congr hrunning
  · rw [totalOf_eq _ hnot hother]; exact h.waitTotal
  · rw [totalOf_eq _ hnot hother]; exact h.runTotal

theorem resume (h : Metering start actions outs s) (hc : Control s) {w : Fin n} {now : Timespec}
    (hh : s.handler = .schedule) (hw : w ∈ s.schedQueue) :
    Metering start (actions ++ [.handler now]) (outs ++ [[.resuming w]]) (s.resumeWorker w now) := by
  have hpc : s.pc w = .queued := by
    rcases (hc.member w).1 hw with ⟨hpc, _⟩ | he | he
    · exact hpc
    · rw [hh] at he; cases he
    · rw [hh] at he; cases he
  have hrun : s.running = none := by simp [running, hh]
  have hsome : (s.resumeWorker w now).running = some w := rfl
  have hnot : ∀ v, (s.resumeWorker w now).InTotals v ↔ s.InTotals v := fun v => by simp [InTotals, resumeWorker, hh]
  have hother : ∀ v, v ≠ w → (s.resumeWorker w now).info v = s.info v := fun v hv => Function.update_of_ne hv ..
  have hcounted : ∀ v, s.InTotals v → (s.resumeWorker w now).info v = s.info v := by
    rintro v ⟨hsig, _⟩
    refine hother v ?_
    rintro rfl
    rw [hpc] at hsig
    cases hsig
  refine ⟨by simp [h.lengths], fun v => ?_, ?_, ?_⟩
  · rw [times_concat h.lengths, times_concat h.lengths]
    by_cases hv : v = w
    · subst hv
      have hself : (s.resumeWorker v now).info v = ThreadInfo.updateWaitTime { s.info v with resumeTime := now } :=
        Function.update_self ..
      rw [hself]
      simpa [Action.now] using (h.metered v).resume (by simp [hrun]) hsome now
    · rw [hother v hv]
      have hrunning : (s.resumeWorker w now).running = some v ↔ s.running = some v := by simp [hsome, hrun, Ne.symm hv]
      simpa [hv] using (h.metered v).congr hrunning
  · rw [totalOf_eq _ hnot hcounted]; exact h.waitTotal
  · rw [totalOf_eq _ hnot hcounted]; exact h.runTotal

/-- The cancelled worker's sums go into the totals. -/
theorem totals (h : Metering start actions outs s) (hc : Control s) {w : Fin n} (hh : s.handler = .cancelTotals w) :
    Metering start (actions ++ [a]) (outs ++ [[]]) { s with
      waitTimes := s.waitTimes + (s.info w).waitTime
      runTimes := s.runTimes + (s.info w).runTime
      completed := s.completed + 1
      handler := .leave w } := by
  have hsig := hc.ending w (.inl hh)
  have hnot : ¬ s.InTotals w := fun hw => hw.2 hh
  have hnew : ∀ v, InTotals { s with
      waitTimes := s.waitTimes + (s.info w).waitTime
      runTimes := s.runTimes + (s.info w).runTime
      completed := s.completed + 1
      handler := .leave w } v ↔ s.InTotals v ∨ v = w := by
    intro v
    simp only [InTotals, hh]
    grind
  refine ⟨by simp [h.lengths], fun v => ?_, ?_, ?_⟩
  · rw [times_concat h.lengths, times_concat h.lengths]
    simpa [running, hh] using h.metered v
  · rw [totalOf_add ThreadInfo.waitTime hnot hnew rfl, ← h.waitTotal]
  · rw [totalOf_add ThreadInfo.runTime hnot hnew rfl, ← h.runTotal]

theorem move (h : Metering start actions outs s) (hc : Control s) (hm : Move s a s' es) :
    Metering start (actions ++ [a]) (outs ++ [es]) s' := by
  cases hm with
  | suspend ha hi hq hcur => exact h.suspend hc hi hcur
  | @resume _ w rest hh _ hq => exact h.resume hc hh (by rw [hq]; exact List.mem_cons_self ..)
  | totals hh => exact h.totals hc hh
  | _ =>
    refine h.silent (by simp) ?_ rfl (fun v => ?_) rfl rfl
    all_goals simp only [running, InTotals]
    all_goals grind [WorkerPc.signalled, hc.moving]

/-- When all have completed, the totals hold every worker's sums. -/
theorem totalOf_eq_sum (hc : Control s) (hdone : n ≤ s.completed) (field : ThreadInfo → Int) :
    s.totalOf field = ∑ w, field (s.info w) := by
  have howes : s.handler.owes = 0 := by
    have := hc.completed
    have := countPc_le WorkerPc.signalled s.pc
    omega
  refine Finset.sum_congr rfl fun w _ => if_pos ⟨hc.all_signalled hdone w, fun hh => ?_⟩
  rw [hh] at howes
  cases howes

theorem not_running (hc : Control s) (hdone : n ≤ s.completed) (w : Fin n) : s.running ≠ some w := by
  intro hr
  unfold running at hr
  split at hr
  · have hpc := hc.current w ‹_› hr
    have hsig := hc.all_signalled hdone w
    rw [hpc] at hsig
    cases hsig
  · cases hr

end Metering

/-! ## The report -/

theorem run_metering {queueSize : Nat} {info : Fin n → ThreadInfo} {actions : List (Action n)} {s : Scheduler n}
    {outs : List (List (Event n))} (h : run step (initial queueSize info) actions = .ok (s, outs)) :
    Control s ∧ Metering info actions outs s := by
  refine run_history (P := fun actions outs s => Control s ∧ Metering info actions outs s)
    (fun _ _ s a s' es ⟨hc, hmeter⟩ _ hstep => ?_)
    ⟨Control.initial queueSize info, Metering.initial queueSize info⟩ (along_true _ _ _) h
  have hm := move_of_step hstep
  exact ⟨hc.move hm, hmeter.move hc hm⟩

section

variable (info : Fin n → ThreadInfo) (actions : List (Action n)) (outs : List (List (Event n)))

/-- The time a worker waited: before each resume, from its last suspension or its creation. -/
def waited (w : Fin n) : Int :=
  (List.zipWith timeDifference (times (.resuming w) actions outs)
    ((info w).suspendTime :: times (.suspending w) actions outs)).sum

/-- The time a worker ran: before each suspension, from its last resume. -/
def ran (w : Fin n) : Int :=
  (List.zipWith timeDifference (times (.suspending w) actions outs) (times (.resuming w) actions outs)).sum

/-- The nanoseconds from a worker's creation to its last suspension, at which it is cancelled. -/
def lifetime (w : Fin n) : Int :=
  ((times (.suspending w) actions outs).getLastD (info w).suspendTime).nanoseconds - (info w).suspendTime.nanoseconds

/-- The times a worker was resumed and suspended. -/
def turnsOf (w : Fin n) : Nat :=
  (times (.resuming w) actions outs).length + (times (.suspending w) actions outs).length

/-- The totals are the true times, and account for the workers' lifetimes within a microsecond for each
resume and each suspension. -/
structure TrueTimes (s : Scheduler n) : Prop where
  wait : s.waitTimes = ∑ w, waited info actions outs w
  run : s.runTimes = ∑ w, ran actions outs w
  whole : |1000 * (s.waitTimes + s.runTimes) - ∑ w, lifetime info actions outs w| ≤
    1000 * ∑ w, (turnsOf actions outs w : Int)

end

theorem Metering.abs_sub_lifetime_le {start : Fin n → ThreadInfo} {actions : List (Action n)}
    {outs : List (List (Event n))} {s : Scheduler n} (h : Metering start actions outs s)
    (hstill : ∀ w, s.running ≠ some w) :
    |1000 * (∑ w, waited start actions outs w + ∑ w, ran actions outs w) - ∑ w, lifetime start actions outs w| ≤
      1000 * ∑ w, (turnsOf actions outs w : Int) := by
  have hone : ∀ w, |1000 * (waited start actions outs w + ran actions outs w) - lifetime start actions outs w| ≤
      1000 * (turnsOf actions outs w : Int) := by
    intro w
    have hlen := (h.metered w).turns
    rw [if_neg (hstill w)] at hlen
    refine (near_sum_alternating near_timeDifference (start w).suspendTime hlen).trans ?_
    unfold turnsOf
    rw [Nat.cast_add]
    omega
  calc _ = |∑ w, (1000 * (waited start actions outs w + ran actions outs w) - lifetime start actions outs w)| := by
        rw [Finset.sum_sub_distrib, ← Finset.mul_sum, Finset.sum_add_distrib]
    _ ≤ ∑ w, |1000 * (waited start actions outs w + ran actions outs w) - lifetime start actions outs w| :=
        Finset.abs_sum_le_sum_abs ..
    _ ≤ ∑ w, 1000 * (turnsOf actions outs w : Int) := Finset.sum_le_sum fun w _ => hone w
    _ = _ := by rw [← Finset.mul_sum]

/-- For every run in which all workers complete, any clock readings and any contents of the allocated
records: the totals are the true times if and only if the sums that the records held before the run add
up to zero, waits and runs apart. -/
theorem trueTimes_iff {queueSize : Nat} {info : Fin n → ThreadInfo} {actions : List (Action n)} {s : Scheduler n}
    {outs : List (List (Event n))} (h : run step (initial queueSize info) actions = .ok (s, outs))
    (hdone : n ≤ s.completed) :
    TrueTimes info actions outs s ↔ ∑ w, (info w).waitTime = 0 ∧ ∑ w, (info w).runTime = 0 := by
  obtain ⟨hc, hmeter⟩ := run_metering h
  have hwait : s.waitTimes = ∑ w, (info w).waitTime + ∑ w, waited info actions outs w := by
    rw [hmeter.waitTotal, Metering.totalOf_eq_sum hc hdone, ← Finset.sum_add_distrib]
    exact Finset.sum_congr rfl fun w _ => (hmeter.metered w).wait
  have hran : s.runTimes = ∑ w, (info w).runTime + ∑ w, ran actions outs w := by
    rw [hmeter.runTotal, Metering.totalOf_eq_sum hc hdone, ← Finset.sum_add_distrib]
    exact Finset.sum_congr rfl fun w _ => (hmeter.metered w).run
  constructor
  · rintro ⟨hw, hr, _⟩
    constructor
    · omega
    · omega
  · rintro ⟨hw, hr⟩
    rw [hw, zero_add] at hwait
    rw [hr, zero_add] at hran
    refine ⟨hwait, hran, ?_⟩
    rw [hwait, hran]
    exact hmeter.abs_sub_lifetime_le (Metering.not_running hc hdone)

/-- A worker of one quantum: it enters the queue, is resumed after a second and cancelled after another. -/
def oneTurn : List (Action 1) :=
  [.semWait 0, .enter 0, .start, .tick ⟨1, 0⟩, .handler ⟨1, 0⟩, .tick ⟨2, 0⟩, .handler ⟨2, 0⟩, .handler ⟨2, 0⟩,
    .handler ⟨2, 0⟩, .handler ⟨2, 0⟩]

/-- The record of a worker of one quantum in memory that holds `waitTime`. -/
def created (waitTime : Int) : Fin 1 → ThreadInfo := fun _ => ⟨1, ⟨0, 0⟩, ⟨0, 0⟩, waitTime, 0⟩

theorem trueTimes_created_zero : ∃ s outs, run step (initial 1 (created 0)) oneTurn = .ok (s, outs) ∧
    s.quit = true ∧ s.waitTimes = 1000000 ∧ s.runTimes = 1000000 ∧ TrueTimes (created 0) oneTurn outs s := by
  have hrun : ∃ s outs, run step (initial 1 (created 0)) oneTurn = .ok (s, outs) ∧ 1 ≤ s.completed ∧
      s.quit = true ∧ s.waitTimes = 1000000 ∧ s.runTimes = 1000000 := ⟨_, _, rfl, by decide, rfl, by decide, by decide⟩
  obtain ⟨s, outs, hrun, hdone, hquit, hwait, hran⟩ := hrun
  exact ⟨s, outs, hrun, hquit, hwait, hran, (trueTimes_iff hrun hdone).2 ⟨by decide, by decide⟩⟩

/-- Memory that held another number where the time waited is kept. -/
theorem not_trueTimes_created : ∃ s outs, run step (initial 1 (created 5)) oneTurn = .ok (s, outs) ∧
    1 ≤ s.completed ∧ ¬ TrueTimes (created 5) oneTurn outs s := by
  refine ⟨_, _, rfl, by decide, ?_⟩
  intro h
  exact absurd h.wait (by decide)

end Scheduler

end UnixSysProg.Sched
