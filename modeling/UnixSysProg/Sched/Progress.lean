/-
The scheduler does not get stuck. As long as it has not quit, and workers have come through `sem_wait`
in the order of their creation, some prompt step brings it closer to its end: a worker for which there
is a place arrives, or the handler goes on, or the timer ticks. The measure is what is left to do: five
steps at most for every quantum, the rest of the handler run, and the way of every worker to its exit.
So every prompt run can be continued until the scheduler has quit, and the refinement of `test_output`
is of complete schedules.
-/
import UnixSysProg.Sched.Refinement
import Mathlib.Algebra.Order.BigOperators.Group.Finset

namespace UnixSysProg.Sched

open UnixSysProg.Lib

variable {n : Nat}

/-- The worker has been through `sem_wait`. -/
def WorkerPc.passed : WorkerPc → Bool
  | waiting => false
  | entering | queued | terminating | exited => true

theorem WorkerPc.eq_waiting {x : WorkerPc} (h : x.passed = false) : x = .waiting := by
  cases x <;> simp_all [WorkerPc.passed]

theorem WorkerPc.eq_entering {x : WorkerPc} (h : x.passed = true) (hx : x.entered = false) : x = .entering := by
  cases x <;> simp_all [WorkerPc.passed, WorkerPc.entered]

theorem WorkerPc.eq_queued {x : WorkerPc} (h : x.entered = true) (hx : x.signalled = false) : x = .queued := by
  cases x <;> simp_all [WorkerPc.entered, WorkerPc.signalled]

theorem WorkerPc.eq_terminating {x : WorkerPc} (h : x.signalled = true) (hx : (x == exited) = false) :
    x = .terminating := by
  cases x <;> simp_all [WorkerPc.signalled]

/-- The steps a worker has before it. -/
def WorkerPc.ahead : WorkerPc → Nat
  | waiting => 4
  | entering => 3
  | queued => 2
  | terminating => 1
  | exited => 0

/-- The steps a handler run has before it. -/
def HandlerPc.ahead : HandlerPc n → Nat
  | idle => 0
  | schedule => 1
  | requeueInsert _ | leave _ => 2
  | requeueRemove _ | cancelTotals _ => 3
  | cancelSignal _ => 4

namespace Scheduler

/-- Workers go through `sem_wait` in the order of their creation. -/
def InTurn (s : Scheduler n) : Action n → Prop
  | .semWait w => w.val = countPc WorkerPc.passed s.pc
  | _ => True

/-- The workers whose program counter passes `p` are the first ones created. -/
def Ordered (p : WorkerPc → Bool) (pc : Fin n → WorkerPc) : Prop := ∀ w, p (pc w) = true ↔ w.val < countPc p pc

/-- What is left to do. Before the first resume a handler run does nothing but resume. -/
def work (s : Scheduler n) : Nat :=
  5 * ∑ w, (s.info w).quanta.toInt.toNat + ∑ w, (s.pc w).ahead + s.handler.ahead +
    (if s.handler = .idle ∧ s.currentThread = none then 2 else 0) + if s.armed then 0 else 1

/-! ## Workers in order -/

namespace Ordered

variable {p : WorkerPc → Bool} {f : Fin n → WorkerPc} {w : Fin n} {x : WorkerPc}

theorem update_same (h : Ordered p f) (hx : p x = p (f w)) : Ordered p (Function.update f w x) := by
  intro v
  rw [countPc_update_same hx, ← h v]
  by_cases hv : v = w
  · rw [hv, Function.update_self, hx]
  · rw [Function.update_of_ne hv]

/-- The next worker in order. -/
theorem update_next (h : Ordered p f) (hw : w.val = countPc p f) (hx : p x = true) :
    Ordered p (Function.update f w x) := by
  have hnot : p (f w) = false := by
    rw [← Bool.not_eq_true, h w, hw]
    exact Nat.lt_irrefl _
  intro v
  rw [countPc_update_new hnot hx]
  by_cases hv : v = w
  · subst hv
    simp [hx, hw]
  · have hne : v.val ≠ w.val := fun he => hv (Fin.ext he)
    rw [Function.update_of_ne hv, h v]
    omega

end Ordered

variable {quanta : Fin n → Int32} {queueSize : Nat} {log es : List (Event n)} {s s' : Scheduler n} {a : Action n}

theorem ordered_entered_move (h : Ordered WorkerPc.entered s.pc) (hc : Control s) (ha : Prompt queueSize s a)
    (hm : Move s a s' es) : Ordered WorkerPc.entered s'.pc := by
  cases hm with
  | enter _ => exact h.update_next ha rfl
  | @signal _ w hh =>
    have hw := hc.moving w (.inr (.inr hh))
    exact h.update_same (by rw [hw]; rfl)
  | semWait hw _ | semPost hw => exact h.update_same (by rw [hw]; rfl)
  | _ => exact h

theorem ordered_passed_move (h : Ordered WorkerPc.passed s.pc) (hc : Control s) (ha : InTurn s a)
    (hm : Move s a s' es) : Ordered WorkerPc.passed s'.pc := by
  cases hm with
  | semWait _ _ => exact h.update_next ha rfl
  | @signal _ w hh =>
    have hw := hc.moving w (.inr (.inr hh))
    exact h.update_same (by rw [hw]; rfl)
  | enter hw | semPost hw => exact h.update_same (by rw [hw]; rfl)
  | _ => exact h

/-! ## Steps that bring the end closer -/

/-- One summand less. -/
theorem sum_update_lt {α : Type} {r : α → Nat} {f : Fin n → α} {w : Fin n} {x : α} (h : r x < r (f w)) :
    ∑ v, r (Function.update f w x v) < ∑ v, r (f v) := by
  refine Finset.sum_lt_sum (fun v _ => ?_) ⟨w, Finset.mem_univ w, by simpa using h⟩
  by_cases hv : v = w
  · rw [hv, Function.update_self]
    exact h.le
  · rw [Function.update_of_ne hv]

/-- A worker's own step. -/
theorem work_worker {w : Fin n} {x : WorkerPc} (h : x.ahead < (s.pc w).ahead) {queueSem : Nat}
    {schedQueue : List (Fin n)} :
    work { s with pc := Function.update s.pc w x, queueSem := queueSem, schedQueue := schedQueue } < s.work := by
  have := sum_update_lt (r := WorkerPc.ahead) h
  unfold work
  dsimp only
  omega

/-- The tick that takes a quantum pays for the run of the handler. -/
theorem work_suspend {w : Fin n} (now : Timespec) (hi : s.handler = .idle) (hpos : 1 ≤ (s.info w).quanta.toInt) :
    (s.suspendWorker w now).work < s.work := by
  have hself := suspendWorker_quanta hpos now
  have hsum : ∑ v, ((s.suspendWorker w now).info v).quanta.toInt.toNat < ∑ v, (s.info v).quanta.toInt.toNat := by
    refine Finset.sum_lt_sum (fun v _ => ?_) ⟨w, Finset.mem_univ w, by rw [hself]; omega⟩
    by_cases hv : v = w
    · rw [hv, hself]
      omega
    · rw [suspendWorker_other s hv]
  have hahead : (s.suspendWorker w now).handler.ahead ≤ 4 := by
    rw [suspendWorker_handler hpos]
    split <;> simp [HandlerPc.ahead]
  have hbusy := suspendWorker_busy s w now
  have harmed : (s.suspendWorker w now).armed = s.armed := rfl
  unfold work
  rw [suspendWorker_pc, harmed, if_neg (fun h => hbusy h.1), hi, show (HandlerPc.idle : HandlerPc n).ahead = 0 from rfl]
  omega

theorem work_resume {w : Fin n} (now : Timespec) (hh : s.handler = .schedule) :
    (s.resumeWorker w now).work < s.work := by
  have hpc : (s.resumeWorker w now).pc = s.pc := rfl
  have harmed : (s.resumeWorker w now).armed = s.armed := rfl
  unfold work
  rw [hpc, harmed, hh]
  simp only [resumeWorker_quanta]
  simp [resumeWorker, HandlerPc.ahead]

/-! ## Some step is always possible -/

theorem exists_of_countPc_lt {p q : WorkerPc → Bool} {f : Fin n → WorkerPc} (h : countPc p f < countPc q f) :
    ∃ w, q (f w) = true ∧ p (f w) = false := by
  obtain ⟨w, hw, hnot⟩ := Finset.exists_mem_notMem_of_card_lt_card h
  refine ⟨w, (Finset.mem_filter.1 hw).2, ?_⟩
  simpa using hnot

/-- At rest with a worker in the queue the timer is armed, or ticks. -/
theorem progress_idle (hc : Control s) (hl : Logged quanta log s) (hi : s.handler = .idle) (hq : s.schedQueue ≠ [])
    (now : Timespec) :
    ∃ a s' es, (a = .start ∨ a = .tick now) ∧ s.step a = .ok (s', es) ∧ s'.work < s.work := by
  cases harmed : s.armed with
  | false =>
    refine ⟨.start, { s with armed := true }, [], .inl rfl, ?_, ?_⟩
    · rw [step, harmed, if_neg Bool.false_ne_true, if_neg hq]
    · simp [work, harmed]
  | true =>
    have hready : ¬ (s.armed = false ∨ s.handler ≠ .idle) := by simp [harmed, hi]
    cases hcur : s.currentThread with
    | none =>
      refine ⟨.tick now, { s with handler := .schedule }, [], .inr rfl, ?_, ?_⟩
      · rw [step, if_neg hready, if_neg hq, hcur]
      · simp [work, hi, hcur, HandlerPc.ahead]
    | some w =>
      have hpos := hl.positive w (by simp [Ending, hc.current w hi hcur, hi, WorkerPc.signalled])
      refine ⟨.tick now, s.suspendWorker w now, [.suspending w], .inr rfl, ?_, work_suspend _ hi hpos⟩
      rw [step, if_neg hready, if_neg hq, hcur]

/-- A handler run goes on, unless it waits for a worker to resume. -/
theorem progress_handler (hc : Control s) (hi : s.handler ≠ .idle)
    (hq : s.handler = .schedule → s.completed < n → s.schedQueue ≠ []) (now : Timespec) :
    ∃ s' es, s.step (.handler now) = .ok (s', es) ∧ (s'.quit = true ∨ s'.work < s.work) := by
  cases hh : s.handler with
  | idle => exact absurd hh hi
  | schedule =>
    by_cases hdone : n ≤ s.completed
    · refine ⟨{ s with currentThread := none, quit := true, handler := .idle }, [], ?_, .inl rfl⟩
      simp only [step, handlerStep, hh]
      exact if_pos hdone
    · obtain ⟨w, rest, hqueue⟩ := List.exists_cons_of_ne_nil (hq hh (not_le.1 hdone))
      refine ⟨s.resumeWorker w now, [.resuming w], ?_, .inr (work_resume _ hh)⟩
      simp only [step, handlerStep, hh, hqueue]
      exact if_neg hdone
  | cancelSignal w =>
    have hw := hc.moving w (.inr (.inr hh))
    have hsum := sum_update_lt (r := WorkerPc.ahead) (f := s.pc) (w := w) (x := .terminating) (by rw [hw]; decide)
    refine ⟨_, [], by simp only [step, handlerStep, hh]; rfl, .inr ?_⟩
    simp only [work, hh, HandlerPc.ahead, reduceCtorEq, false_and, if_false]
    omega
  | requeueRemove w | requeueInsert w | cancelTotals w | leave w =>
    refine ⟨_, _, by simp only [step, handlerStep, hh]; rfl, .inr ?_⟩
    simp [work, hh, HandlerPc.ahead]

/-- Everything there is to know of a state reached by a prompt run with workers in order. -/
structure Ongoing (quanta : Fin n → Int32) (queueSize : Nat) (log : List (Event n)) (s : Scheduler n) : Prop where
  control : Control s
  logged : Logged quanta log s
  places : Places queueSize s
  refines : Refines quanta queueSize log s
  entered : Ordered WorkerPc.entered s.pc
  passed : Ordered WorkerPc.passed s.pc

namespace Ongoing

theorem initial {info : Fin n → ThreadInfo} (hn : 1 ≤ n) (hq : ∀ w, 1 ≤ (info w).quanta.toInt) :
    Ongoing (fun w => (info w).quanta) queueSize [] (initial queueSize info) := by
  refine ⟨Control.initial queueSize info, Logged.initial hq, Places.initial info, Refines.initial hn, ?_, ?_⟩
  all_goals
    intro w
    simp [Scheduler.initial, countPc, WorkerPc.entered, WorkerPc.passed]

theorem move (h : Ongoing quanta queueSize log s) (ha : Prompt queueSize s a ∧ InTurn s a) (hm : Move s a s' es) :
    Ongoing quanta queueSize (log ++ es) s' :=
  ⟨h.control.move hm, h.logged.move h.control hm, h.places.move hm h.control,
    h.refines.move h.control h.logged h.places ha.1 hm, ordered_entered_move h.entered h.control ha.1 hm,
    ordered_passed_move h.passed h.control ha.2 hm⟩

/-- A place more than workers have entered, and a worker for it: one of the two takes a step. -/
theorem arrival (h : Ongoing quanta queueSize log s)
    (hlt : countPc WorkerPc.entered s.pc < min n (queueSize + s.completed)) :
    ∃ a s', (Prompt queueSize s a ∧ InTurn s a) ∧ s.step a = .ok (s', []) ∧ s'.work < s.work := by
  obtain ⟨hn, hroom⟩ := lt_min_iff.1 hlt
  have hmono := countPc_mono (p := WorkerPc.entered) (q := WorkerPc.passed) (f := s.pc)
    (fun x hx => by cases x <;> simp_all [WorkerPc.entered, WorkerPc.passed])
  have hnot : (s.pc ⟨_, hn⟩).entered = false := by
    rw [← Bool.not_eq_true, h.entered]
    exact Nat.lt_irrefl _
  rcases hmono.lt_or_eq with hpast | heq
  · -- the next worker is past `sem_wait` already
    have hw : s.pc ⟨_, hn⟩ = .entering := WorkerPc.eq_entering ((h.passed ⟨_, hn⟩).2 hpast) hnot
    exact ⟨.enter ⟨_, hn⟩, _, ⟨rfl, trivial⟩, by rw [step, if_pos hw], work_worker (by rw [hw]; decide)⟩
  have hw : s.pc ⟨_, hn⟩ = .waiting := by
    refine WorkerPc.eq_waiting ?_
    rw [← Bool.not_eq_true, h.passed, ← heq]
    exact Nat.lt_irrefl _
  -- no one else is between `sem_wait` and the queue, so a place is free or about to be
  have hnone : countPc (· == .entering) s.pc = 0 := by
    by_contra hpos
    obtain ⟨v, hv⟩ := Finset.card_pos.1 (Nat.pos_of_ne_zero hpos)
    have hpc : s.pc v = .entering := by simpa using (Finset.mem_filter.1 hv).2
    have hentered := (h.entered v).2 (heq ▸ (h.passed v).1 (by rw [hpc]; rfl))
    rw [hpc] at hentered
    cases hentered
  have hplaces := h.places
  unfold Places at hplaces
  rcases Nat.eq_zero_or_pos s.queueSem with hsem | hsem
  · -- the place is with a cancelled worker that has not given it back
    have hcompleted := h.control.completed
    obtain ⟨v, hsig, hexit⟩ := exists_of_countPc_lt (p := (· == .exited)) (q := WorkerPc.signalled) (f := s.pc) (by omega)
    have hv := WorkerPc.eq_terminating hsig hexit
    exact ⟨.semPost v, _, ⟨trivial, trivial⟩, by rw [step, if_pos hv], work_worker (by rw [hv]; decide)⟩
  · exact ⟨.semWait ⟨_, hn⟩, _, ⟨trivial, heq⟩, by rw [step, if_pos ⟨hw, hsem⟩], work_worker (by rw [hw]; decide)⟩

/-- With all places taken and workers left, the queue is not empty outside a cancellation. -/
theorem queue_ne_nil (h : Ongoing quanta queueSize log s) (hqs : 1 ≤ queueSize)
    (hfull : min n (queueSize + s.completed) ≤ countPc WorkerPc.entered s.pc) (hleft : s.completed < n)
    (hh : s.handler = .idle ∨ s.handler = .schedule) : s.schedQueue ≠ [] := by
  intro hnil
  have hcompleted := h.control.completed
  have howes : s.handler.owes = 0 := by rcases hh with hh | hh <;> rw [hh] <;> rfl
  obtain ⟨w, hentered, hsig⟩ := exists_of_countPc_lt (p := WorkerPc.signalled) (q := WorkerPc.entered) (f := s.pc)
    (by omega)
  have hmem : w ∈ s.schedQueue := by
    refine (h.control.member w).2 (.inl ⟨WorkerPc.eq_queued hentered hsig, ?_⟩)
    rcases hh with hh | hh <;> rw [hh] <;> simp
  rw [hnil] at hmem
  cases hmem

/-- At rest and with all places taken a tick is prompt. -/
theorem prompt_tick (h : Ongoing quanta queueSize log s)
    (hfull : min n (queueSize + s.completed) ≤ countPc WorkerPc.entered s.pc) (hi : s.handler = .idle) (now : Timespec) :
    Prompt queueSize s (.tick now) := by
  have hplaces := h.places
  have hcompleted := h.control.completed
  have hexited := countPc_mono (p := (· == .exited)) (q := WorkerPc.signalled) (f := s.pc)
    (fun x hx => by cases x <;> simp_all [WorkerPc.signalled])
  have hle := countPc_le WorkerPc.entered s.pc
  rw [hi] at hcompleted
  simp only [HandlerPc.owes] at hcompleted
  unfold Places at hplaces
  refine le_antisymm (le_min hle ?_) hfull
  omega

/-- As long as the scheduler has not quit some prompt step brings it closer to that. -/
theorem progress (h : Ongoing quanta queueSize log s) (hqs : 1 ≤ queueSize) (hquit : s.quit = false) :
    ∃ a s' es, (Prompt queueSize s a ∧ InTurn s a) ∧ s.step a = .ok (s', es) ∧ (s'.quit = true ∨ s'.work < s.work) := by
  -- arrivals come first, so that in the other cases all places are taken
  by_cases hlt : countPc WorkerPc.entered s.pc < min n (queueSize + s.completed)
  · obtain ⟨a, s', ha, hs, hw⟩ := h.arrival hlt
    exact ⟨a, s', [], ha, hs, .inr hw⟩
  have hfull := not_lt.1 hlt
  by_cases hi : s.handler = .idle
  · have hleft : s.completed < n := by
      by_contra hdone
      rw [h.refines.done (not_lt.1 hdone) hi] at hquit
      cases hquit
    obtain ⟨a, s', es, ha, hs, hw⟩ :=
      progress_idle h.control h.logged hi (h.queue_ne_nil hqs hfull hleft (.inl hi)) ⟨0, 0⟩
    refine ⟨a, s', es, ?_, hs, .inr hw⟩
    rcases ha with rfl | rfl
    · exact ⟨trivial, trivial⟩
    · exact ⟨h.prompt_tick hfull hi _, trivial⟩
  · have hq : s.handler = .schedule → s.completed < n → s.schedQueue ≠ [] := fun hh hleft =>
      h.queue_ne_nil hqs hfull hleft (.inr hh)
    obtain ⟨s', es, hs, hcloser⟩ := progress_handler h.control hi hq ⟨0, 0⟩
    exact ⟨.handler ⟨0, 0⟩, s', es, ⟨trivial, trivial⟩, hs, hcloser⟩

end Ongoing

/-! ## Runs -/

/-- Every prompt run with workers in order can be continued until the scheduler has quit. -/
theorem run_quits {info : Fin n → ThreadInfo} (hn : 1 ≤ n) (hqs : 1 ≤ queueSize)
    (hq : ∀ w, 1 ≤ (info w).quanta.toInt) {actions : List (Action n)} {outs : List (List (Event n))}
    (ha : Along step (Prompt queueSize) (initial queueSize info) actions)
    (ht : Along step InTurn (initial queueSize info) actions)
    (h : run step (initial queueSize info) actions = .ok (s, outs)) :
    ∃ rest s' outs', Along step (Prompt queueSize) s rest ∧ run step s rest = .ok (s', outs') ∧
      Ongoing (fun w => (info w).quanta) queueSize (outs ++ outs').flatten s' ∧ s'.quit = true := by
  have hongoing := run_log (I := Ongoing (fun w => (info w).quanta) queueSize)
    (fun _ _ _ _ _ hs ha hstep => hs.move ha (move_of_step hstep)) (Ongoing.initial hn hq) (along_and ha ht) h
  obtain ⟨rest, s', outs', hc, hr, hs', hquit⟩ := run_reaches (fun s => s.quit = true) work
    (P := fun outs s => Ongoing (fun w => (info w).quanta) queueSize outs.flatten s)
    (fun os s hs hquit => by
      obtain ⟨a, s', es, ha, hstep, hcloser⟩ := hs.progress hqs (by simpa using hquit)
      refine ⟨a, s', es, ha, hstep, ?_, hcloser⟩
      rw [List.flatten_concat]
      exact hs.move ha (move_of_step hstep))
    hongoing
  exact ⟨rest, s', outs', hc.mono fun _ _ ha => ha.1, hr, hs', hquit⟩

/-- The scheduler refines the oracle of its own test: for any number of workers and queue size `m + 1`
and all quanta at least 1, whatever `malloc` left in `remaining[]`, the loops of `test_output` end, and
under arrivals that are prompt and in the order of creation the events reported in any run are a prefix
of the expected ones; the scheduler has quit exactly when it is at rest with all of them reported, and
then it has run as many quanta as `test_output` counts. Nor does it stop short of that: a run whose
workers came through `sem_wait` in order can always be continued until the scheduler has quit. -/
theorem refines_test_output {m : Nat} (hn : 1 ≤ n) {info : Fin n → ThreadInfo} (hq : ∀ w, 1 ≤ (info w).quanta.toInt)
    (remaining : Fin (m + 1) → Int32) {actions : List (Action n)} {s : Scheduler n} {outs : List (List (Event n))}
    (ha : Along step (Prompt (m + 1)) (initial (m + 1) info) actions)
    (h : run step (initial (m + 1) info) actions = .ok (s, outs)) :
    ∃ t expected, testOutput (fun w => (info w).quanta) remaining = some (t, expected) ∧
      outs.flatten <+: expected ∧ (s.quit = true ↔ s.handler = .idle ∧ outs.flatten = expected) ∧
      (s.quit = true → t.myRun = Int32.ofNat (quantaTaken outs.flatten)) ∧
      (Along step InTurn (initial (m + 1) info) actions → ∃ rest s' outs', Along step (Prompt (m + 1)) s rest ∧
        run step s rest = .ok (s', outs') ∧ s'.quit = true ∧ (outs ++ outs').flatten = expected) := by
  obtain ⟨hc, hr⟩ := run_refines hn hq ha h
  have hf := RoundRobin.start_fair hq m
  have hne : (RoundRobin.start (fun w => (info w).quanta) (m + 1)).total ≠ 0 := by
    rw [ne_eq, RoundRobin.total_eq_zero hf]
    simp [RoundRobin.start]
    omega
  obtain ⟨t, htest, hrun⟩ := TestOutput.testOutput_schedule hq remaining
  have hquit := hr.quit_iff hc hf hne
  refine ⟨t, _, htest, hr.log_prefix hf, hquit, ?_, ?_⟩
  · intro hq'
    rw [hrun, (hquit.1 hq').2, RoundRobin.quantaTaken_schedule hf]
  · intro ht
    obtain ⟨rest, s', outs', hrest, hr', hs', hq'⟩ := run_quits hn (Nat.succ_pos m) hq ha ht h
    exact ⟨rest, s', outs', hrest, hr', hq', ((hs'.refines.quit_iff hs'.control hf hne).1 hq').2⟩

/-- Two workers, one place in the queue, two quanta for the second worker. -/
theorem refines_test_output_two_workers : ∃ t : TestOutput 2 0,
    testOutput (fun w : Fin 2 => if w = 0 then 1 else 2) (fun _ => 7) = some (t, [.resuming 0, .suspending 0,
      .leaving 0, .resuming 1, .suspending 1, .resuming 1, .suspending 1, .leaving 1]) ∧ t.myRun = Int32.ofNat 3 := by
  have hrun : ∃ s outs, run step (initial 1 fun w : Fin 2 => ⟨if w = 0 then 1 else 2, ⟨0, 0⟩, ⟨0, 0⟩, 0, 0⟩)
      [.semWait 0, .enter 0, .start, .tick ⟨0, 0⟩, .handler ⟨0, 0⟩, .tick ⟨0, 0⟩, .handler ⟨0, 0⟩, .semPost 0,
        .semWait 1, .handler ⟨0, 0⟩, .enter 1, .handler ⟨0, 0⟩, .handler ⟨0, 0⟩, .tick ⟨0, 0⟩, .handler ⟨0, 0⟩,
        .handler ⟨0, 0⟩, .handler ⟨0, 0⟩, .tick ⟨0, 0⟩, .handler ⟨0, 0⟩, .handler ⟨0, 0⟩, .handler ⟨0, 0⟩,
        .handler ⟨0, 0⟩] = .ok (s, outs) ∧ s.quit = true ∧ outs.flatten = [.resuming 0, .suspending 0, .leaving 0,
          .resuming 1, .suspending 1, .resuming 1, .suspending 1, .leaving 1] := ⟨_, _, rfl, rfl, rfl⟩
  obtain ⟨s, outs, hrun, hquit, houts⟩ := hrun
  obtain ⟨t, expected, htest, _, hiff, hmy, _⟩ := refines_test_output (m := 0) (by decide) (by decide) (fun _ => 7)
    (by decide) hrun
  have hexpected := (hiff.1 hquit).2
  rw [houts] at hexpected
  refine ⟨t, by rw [hexpected]; exact htest, (hmy hquit).trans ?_⟩
  rw [houts]
  rfl

end Scheduler

end UnixSysProg.Sched
