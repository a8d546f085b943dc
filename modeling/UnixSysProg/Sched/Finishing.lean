/-
Every worker with a positive number of quanta finishes. The counter of a worker is taken down before it is
compared with 0, so that a worker is cancelled at its last quantum if it has one, and is suspended for good,
down to the smallest int and around, if it started at 0 or below. With quanta of at least 1 the ticks that
find a worker are the suspensions and the first tick, so that the scheduler has quit once there has been one
more of them than there are quanta; and it can always go on until then.
-/
import UnixSysProg.Sched.Progress
import Mathlib.Algebra.BigOperators.Ring.Finset

namespace UnixSysProg.Sched

open UnixSysProg.Lib

namespace Scheduler

variable {n : Nat}

/-- A timer tick that finds a worker in the queue. -/
def available (s : Scheduler n) : Action n → Bool
  | .tick _ => decide (s.schedQueue ≠ [])
  | _ => false

/-- The first of these ticks has been. -/
def started (s : Scheduler n) : Nat :=
  if s.currentThread = none ∧ s.handler = .idle ∧ s.quit = false then 0 else 1

/-- A run with quanta of at least 1, after `ticks` ticks that found a worker. -/
structure Underway (quanta : Fin n → Int32) (queueSize ticks : Nat) (log : List (Event n)) (s : Scheduler n) :
    Prop where
  control : Control s
  logged : Logged quanta log s
  places : Places queueSize s
  done : n ≤ s.completed → s.handler = .idle → s.quit = true
  ticks : ticks = ∑ w, log.count (.suspending w) + s.started

namespace Underway

variable {s s' : Scheduler n} {a : Action n} {es log : List (Event n)} {quanta : Fin n → Int32}
  {queueSize ticks : Nat}

theorem initial {info : Fin n → ThreadInfo} (hn : 1 ≤ n) (hq : ∀ w, 1 ≤ (info w).quanta.toInt) :
    Underway (fun w => (info w).quanta) queueSize 0 [] (initial queueSize info) := by
  refine ⟨Control.initial queueSize info, Logged.initial hq, Places.initial info, fun hdone _ => ?_, ?_⟩
  · exact absurd hdone (not_le.2 hn)
  · simp [started, Scheduler.initial]

theorem done_move (h : Underway quanta queueSize ticks log s) (hm : Move s a s' es) (hdone : n ≤ s'.completed)
    (hi : s'.handler = .idle) : s'.quit = true := by
  have hd := h.done
  cases hm with
  | suspend => exact absurd hi (suspendWorker_busy s _ _)
  | resume _ hlt _ => exact absurd hdone (not_le.2 hlt)
  | finish _ _ => rfl
  | tickEmpty _ _ _ => rfl
  | _ => grind

/-- A worker is found by a tick that suspends it, and by the first one. -/
theorem ticks_move (h : Underway quanta queueSize ticks log s) (hm : Move s a s' es) :
    ticks + (s.available a).toNat = ∑ w, (log ++ es).count (.suspending w) + s'.started := by
  have hticks := h.ticks
  cases hm with
  | tickFirst _ hi hq hcur =>
    have hquit : s.quit = false := by
      by_contra hquit
      obtain ⟨hdone, _⟩ := h.control.quit (by simpa using hquit)
      exact hq (h.control.empty hdone hi)
    simp [available, started, hi, hq, hcur, hquit] at hticks ⊢
    omega
  | @suspend now w _ hi hq hcur =>
    have hsum : ∑ v, (log ++ [Event.suspending w]).count (.suspending v) = ∑ v, log.count (.suspending v) + 1 := by
      simp [List.count_append, Finset.sum_add_distrib, List.count_singleton]
    have hbusy := suspendWorker_busy s w now
    rw [hsum]
    simp [available, started, hi, hq, hcur, hbusy] at hticks ⊢
    omega
  | tickEmpty ha hi hq =>
    have hquit := h.done (by by_contra hlt; exact h.control.nonempty ha hi (not_le.1 hlt) hq) hi
    simp [available, started, hq, hquit] at hticks ⊢
    omega
  | resume hh _ _ | finish hh _ =>
    simp [available, started, resumeWorker, hh] at hticks ⊢
    omega
  | leave hh =>
    simp [available, started, hh] at hticks ⊢
    omega
  | _ =>
    simp_all [available, started]

theorem move (h : Underway quanta queueSize ticks log s) (hm : Move s a s' es) :
    Underway quanta queueSize (ticks + (s.available a).toNat) (log ++ es) s' :=
  ⟨h.control.move hm, h.logged.move h.control hm, h.places.move hm h.control, h.done_move hm, h.ticks_move hm⟩

/-! ## Turns against quanta -/

theorem suspends_le (h : Underway quanta queueSize ticks log s) (w : Fin n) :
    (log.count (.suspending w) : Int) ≤ (quanta w).toInt := by
  have hrem := h.logged.remaining w
  by_cases hend : s.Ending w
  · have := h.logged.spent w hend
    omega
  · have := h.logged.positive w hend
    omega

/-- The worker that is resumed has a quantum left. -/
theorem resumes_le (h : Underway quanta queueSize ticks log s) (w : Fin n) :
    (log.count (.resuming w) : Int) ≤ (quanta w).toInt := by
  have hcount := count_resuming h.logged.turn w
  have hrem := h.logged.remaining w
  have hle := h.suspends_le w
  split at hcount
  · rename_i hrun
    unfold running at hrun
    split at hrun
    · rename_i hi
      have hpos := h.logged.positive w (by simp [Ending, h.control.current w hi hrun, hi, WorkerPc.signalled])
      omega
    · cases hrun
  · omega

/-- A worker that has had all its quanta is cancelled. -/
theorem ending (h : Underway quanta queueSize ticks log s) {w : Fin n}
    (hall : (quanta w).toInt ≤ log.count (.suspending w)) : s.Ending w := by
  by_contra hnot
  have hrem := h.logged.remaining w
  have hpos := h.logged.positive w hnot
  omega

theorem sum_suspends_le (h : Underway quanta queueSize ticks log s) :
    ((∑ w, log.count (.suspending w) : Nat) : Int) ≤ ∑ w, (quanta w).toInt := by
  rw [Nat.cast_sum]
  exact Finset.sum_le_sum fun w _ => h.suspends_le w

theorem ticks_le (h : Underway quanta queueSize ticks log s) : (ticks : Int) ≤ 1 + ∑ w, (quanta w).toInt := by
  have hsum := h.sum_suspends_le
  have hstarted : s.started ≤ 1 := by unfold started; split <;> omega
  have := h.ticks
  omega

/-- When there have been as many ticks as there can be, every worker has had its quanta. -/
theorem quits (h : Underway quanta queueSize ticks log s) (hall : 1 + ∑ w, (quanta w).toInt ≤ ticks)
    (hi : s.handler = .idle) : s.quit = true := by
  have hsum := h.sum_suspends_le
  have hstarted : s.started ≤ 1 := by unfold started; split <;> omega
  have hticks := h.ticks
  have heq : ∑ w, (log.count (.suspending w) : Int) = ∑ w, (quanta w).toInt := by
    rw [← Nat.cast_sum]
    omega
  have heach := (Finset.sum_eq_sum_iff_of_le fun w _ => h.suspends_le w).1 heq
  refine h.done ?_ hi
  have hsignalled : countPc WorkerPc.signalled s.pc = n := countPc_of_forall fun w => by
    have hend := h.ending (heach w (Finset.mem_univ w)).ge
    simpa [Ending, hi] using hend
  have hcompleted := h.control.completed
  rw [hi, hsignalled] at hcompleted
  exact hcompleted.ge

/-! ## Going on -/

/-- With an empty queue and workers left one of them is on its way, or gives its place to one that is. -/
theorem arrival (h : Underway quanta queueSize ticks log s) (hqs : 1 ≤ queueSize) (hleft : s.completed < n)
    (hh : s.handler = .idle ∨ s.handler = .schedule) (hnil : s.schedQueue = []) :
    ∃ a s', s.step a = .ok (s', []) ∧ s'.work < s.work := by
  have hqueued : ∀ w, s.pc w ≠ .queued := by
    intro w hw
    have hmem : w ∈ s.schedQueue := by
      refine (h.control.member w).2 (.inl ⟨hw, ?_⟩)
      rcases hh with hh | hh <;> rw [hh] <;> simp
    rw [hnil] at hmem
    cases hmem
  by_cases hentering : ∃ w, s.pc w = .entering
  · obtain ⟨w, hw⟩ := hentering
    exact ⟨.enter w, _, by rw [step, if_pos hw], work_worker (by rw [hw]; decide)⟩
  by_cases hterminating : ∃ w, s.pc w = .terminating
  · obtain ⟨w, hw⟩ := hterminating
    exact ⟨.semPost w, _, by rw [step, if_pos hw], work_worker (by rw [hw]; decide)⟩
  -- all others wait, and all places are free
  obtain ⟨w, hw⟩ : ∃ w, s.pc w = .waiting := by
    by_contra hnone
    have hall : countPc WorkerPc.signalled s.pc = n := countPc_of_forall fun w => by
      cases hpc : s.pc w with
      | waiting => exact absurd ⟨w, hpc⟩ hnone
      | entering => exact absurd ⟨w, hpc⟩ hentering
      | queued => exact absurd hpc (hqueued w)
      | terminating | exited => rfl
    have hcompleted := h.control.completed
    have howes : s.handler.owes = 0 := by rcases hh with hh | hh <;> rw [hh] <;> rfl
    omega
  have hsem : 0 < s.queueSem := by
    have hplaces := h.places
    have hexited : countPc WorkerPc.entered s.pc ≤ countPc (· == .exited) s.pc := by
      rw [countPc_eq_tally, countPc_eq_tally]
      refine Finset.sum_le_sum fun v _ => ?_
      cases hpc : s.pc v with
      | queued => exact absurd hpc (hqueued v)
      | terminating => exact absurd ⟨v, hpc⟩ hterminating
      | waiting | entering | exited => decide
    have hno : countPc (· == .entering) s.pc = 0 := by
      rw [countPc_eq_zero]
      intro v
      simpa using fun hv => hentering ⟨v, hv⟩
    unfold Places at hplaces
    omega
  exact ⟨.semWait w, _, by rw [step, if_pos ⟨hw, hsem⟩], work_worker (by rw [hw]; decide)⟩

/-- As long as the scheduler has not quit some step brings it closer to that. -/
theorem progress (h : Underway quanta queueSize ticks log s) (hqs : 1 ≤ queueSize) (hquit : s.quit = false) :
    ∃ a s' es, s.step a = .ok (s', es) ∧ (s'.quit = true ∨ s'.work < s.work) := by
  have hleft : s.handler = .idle → s.completed < n := by
    intro hi
    by_contra hdone
    rw [h.done (not_lt.1 hdone) hi] at hquit
    cases hquit
  by_cases harrive : s.schedQueue = [] ∧ s.completed < n ∧ (s.handler = .idle ∨ s.handler = .schedule)
  · obtain ⟨a, s', hs, hw⟩ := h.arrival hqs harrive.2.1 harrive.2.2 harrive.1
    exact ⟨a, s', [], hs, .inr hw⟩
  by_cases hi : s.handler = .idle
  · have hq : s.schedQueue ≠ [] := fun hnil => harrive ⟨hnil, hleft hi, .inl hi⟩
    obtain ⟨a, s', es, _, hs, hw⟩ := progress_idle h.control h.logged hi hq ⟨0, 0⟩
    exact ⟨a, s', es, hs, .inr hw⟩
  · have hq : s.handler = .schedule → s.completed < n → s.schedQueue ≠ [] := fun hh hlt hnil =>
      harrive ⟨hnil, hlt, .inr hh⟩
    obtain ⟨s', es, hs, hcloser⟩ := progress_handler h.control hi hq ⟨0, 0⟩
    exact ⟨_, s', es, hs, hcloser⟩

end Underway

/-! ## Runs -/

theorem run_underway {queueSize : Nat} {info : Fin n → ThreadInfo} (hn : 1 ≤ n) (hq : ∀ w, 1 ≤ (info w).quanta.toInt)
    {actions : List (Action n)} {s : Scheduler n} {outs : List (List (Event n))}
    (h : run step (initial queueSize info) actions = .ok (s, outs)) :
    Underway (fun w => (info w).quanta) queueSize (countAlong step available (initial queueSize info) actions)
      outs.flatten s := by
  refine run_history_reached (P := fun actions outs s => Underway (fun w => (info w).quanta) queueSize
    (countAlong step available (initial queueSize info) actions) outs.flatten s)
    (fun pre os s a s' es hrun hu hstep => ?_) (Underway.initial hn hq) h
  rw [countAlong_concat hrun, List.flatten_concat]
  exact hu.move (move_of_step hstep)

/-- What is to be seen of the end after a run: no worker is resumed more often than it has quanta, nor than
once if it has none, and it is cancelled when it has been suspended as often; the ticks that found a worker
are at most one more than that for all workers together, and after that many the scheduler has quit; and it
can always go on until it has. -/
structure Finishing (queueSize : Nat) (info : Fin n → ThreadInfo) (actions : List (Action n))
    (outs : List (List (Event n))) (s : Scheduler n) : Prop where
  resumes : ∀ w, (outs.flatten.count (.resuming w) : Int) ≤ max 1 (info w).quanta.toInt
  cancelled : ∀ w, max 1 (info w).quanta.toInt ≤ outs.flatten.count (.suspending w) → s.Ending w
  ticks : (countAlong step available (initial queueSize info) actions : Int) ≤ 1 + ∑ w, max 1 (info w).quanta.toInt
  quits : 1 + ∑ w, max 1 (info w).quanta.toInt ≤ countAlong step available (initial queueSize info) actions →
    s.handler = .idle → s.quit = true
  goesOn : ∃ rest s' outs', run step s rest = .ok (s', outs') ∧ s'.quit = true

/-- A worker is the first one in the queue and is suspended for the first time. -/
def firstTurn (w : Fin n) : List (Action n) :=
  [.semWait w, .enter w, .start, .tick ⟨0, 0⟩, .handler ⟨0, 0⟩, .tick ⟨0, 0⟩]

/-- The state in which the worker has its first turn. -/
def onTurn (queueSize : Nat) (info : Fin n → ThreadInfo) (w : Fin n) : Scheduler n :=
  resumeWorker { initial queueSize info with
    pc := Function.update (fun _ => .waiting) w .queued
    queueSem := queueSize - 1
    schedQueue := [w]
    armed := true } w ⟨0, 0⟩

theorem run_firstTurn {queueSize : Nat} (hn : 1 ≤ n) (hqs : 1 ≤ queueSize) (info : Fin n → ThreadInfo) (w : Fin n) :
    run step (initial queueSize info) (firstTurn w) =
      .ok ((onTurn queueSize info w).suspendWorker w ⟨0, 0⟩, [[], [], [], [], [.resuming w], [.suspending w]]) := by
  have hleft : ¬ n ≤ 0 := not_le.2 hn
  have hpos : 0 < queueSize := hqs
  simp [run, firstTurn, step, handlerStep, initial, onTurn, hpos, hleft, listInsertTail, resumeWorker]

/-- With no quantum to take, the first suspension does not cancel. -/
theorem not_ending_firstTurn {queueSize : Nat} {info : Fin n → ThreadInfo} {w : Fin n}
    (hq : (info w).quanta.toInt < 1) : ¬ ((onTurn queueSize info w).suspendWorker w ⟨0, 0⟩).Ending w := by
  have hquanta : ((onTurn queueSize info w).info w).quanta = (info w).quanta := resumeWorker_quanta _ w w _
  have hne : (info w).quanta - 1 ≠ 0 := by
    intro hz
    have hone : (info w).quanta = 1 := by rw [← Int32.sub_add_cancel (info w).quanta 1, hz]; rfl
    rw [hone] at hq
    exact absurd hq (by decide)
  rintro (hsig | hcancel)
  · simp [onTurn, resumeWorker, WorkerPc.signalled] at hsig
  · simp [suspendWorker, ThreadInfo.updateRunTime, hquanta, hne] at hcancel

/-- For any number of workers and any queue size of at least 1, and any quanta: every run finishes as it
should if and only if every worker has at least one quantum. -/
theorem finishing_iff {queueSize : Nat} (hn : 1 ≤ n) (hqs : 1 ≤ queueSize) (info : Fin n → ThreadInfo) :
    (∀ actions s outs, run step (initial queueSize info) actions = .ok (s, outs) →
      Finishing queueSize info actions outs s) ↔ ∀ w, 1 ≤ (info w).quanta.toInt := by
  constructor
  · intro h w
    by_contra hq
    have hfinish := h _ _ _ (run_firstTurn hn hqs info w)
    refine not_ending_firstTurn (by omega) (hfinish.cancelled w ?_)
    simp
    omega
  · intro hq actions s outs hrun
    have hu := run_underway hn hq hrun
    have hmax : ∀ w, max 1 (info w).quanta.toInt = (info w).quanta.toInt := fun w => max_eq_right (hq w)
    have hsum : ∑ w, max 1 (info w).quanta.toInt = ∑ w, (info w).quanta.toInt :=
      Finset.sum_congr rfl fun w _ => hmax w
    refine ⟨fun w => ?_, fun w hall => ?_, ?_, fun hall hi => ?_, ?_⟩
    · rw [hmax]
      exact hu.resumes_le w
    · rw [hmax] at hall
      exact hu.ending hall
    · rw [hsum]
      exact hu.ticks_le
    · rw [hsum] at hall
      exact hu.quits hall hi
    · obtain ⟨rest, s', outs', _, hr, _, hquit⟩ := run_reaches (C := fun _ _ => True) (fun s => s.quit = true) work
        (P := fun outs s => ∃ ticks, Underway (fun w => (info w).quanta) queueSize ticks outs.flatten s)
        (fun outs _ ⟨ticks, hu⟩ hnot => by
          obtain ⟨a, s', es, hstep, hcloser⟩ := hu.progress hqs (by simpa using hnot)
          have hu' := hu.move (move_of_step hstep)
          rw [← List.flatten_concat] at hu'
          exact ⟨a, s', es, trivial, hstep, ⟨_, hu'⟩, hcloser⟩)
        ⟨_, hu⟩
      exact ⟨rest, s', outs', hr, hquit⟩

/-- A worker of three quanta. -/
def threeQuanta : Fin 1 → ThreadInfo := fun _ => ⟨3, ⟨0, 0⟩, ⟨0, 0⟩, 0, 0⟩

/-- The first turn of a worker and two more. -/
def threeTurns (w : Fin n) : List (Action n) :=
  firstTurn w ++ [.handler ⟨1, 0⟩, .handler ⟨1, 0⟩, .handler ⟨1, 0⟩, .tick ⟨2, 0⟩, .handler ⟨2, 0⟩, .handler ⟨2, 0⟩,
    .handler ⟨2, 0⟩, .tick ⟨3, 0⟩, .handler ⟨3, 0⟩, .handler ⟨3, 0⟩, .handler ⟨3, 0⟩, .handler ⟨3, 0⟩]

theorem finishing_three_quanta : ∃ s outs, run step (initial 1 threeQuanta) (threeTurns 0) = .ok (s, outs) ∧
    s.quit = true ∧ Finishing 1 threeQuanta (threeTurns 0) outs s := by
  have hrun : ∃ s outs, run step (initial 1 threeQuanta) (threeTurns 0) = .ok (s, outs) ∧ s.quit = true :=
    ⟨_, _, rfl, rfl⟩
  obtain ⟨s, outs, hrun, hquit⟩ := hrun
  exact ⟨s, outs, hrun, hquit, (finishing_iff (by decide) (by decide) threeQuanta).2 (by decide) _ _ _ hrun⟩

/-- A worker of no quanta is resumed a second time. -/
theorem not_finishing_no_quanta : ¬ ∀ actions s outs,
    run step (initial 1 fun _ : Fin 1 => ⟨0, ⟨0, 0⟩, ⟨0, 0⟩, 0, 0⟩) actions = .ok (s, outs) →
      Finishing 1 (fun _ => ⟨0, ⟨0, 0⟩, ⟨0, 0⟩, 0, 0⟩) actions outs s := by
  intro h
  have hresumes := (h [.semWait 0, .enter 0, .start, .tick ⟨0, 0⟩, .handler ⟨0, 0⟩, .tick ⟨0, 0⟩, .handler ⟨0, 0⟩,
    .handler ⟨0, 0⟩, .handler ⟨0, 0⟩] _ _ rfl).resumes 0
  exact absurd hresumes (by decide)

end Scheduler

end UnixSysProg.Sched
