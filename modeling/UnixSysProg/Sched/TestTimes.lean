/-
The sums of the times that `test_output` (`smp5_tests.c`) expects. Its loop adds up in `my_wait` how many
workers wait while one runs, with a correction where a worker leaves and another one takes its slot; a
scheduler whose timer is exact reports these sums on top of what its records held and what its workers waited
until the timer was armed.
-/
import UnixSysProg.Sched.OnTime
import UnixSysProg.Sched.Refinement

namespace UnixSysProg.Sched

open UnixSysProg.Lib

variable {n m : Nat}

/-! ## The sums of `test_output` -/

/-- The variables of `test_output` with `my_wait`. -/
structure TestTimes (n m : Nat) extends TestOutput n m where
  myWait : Int32

def Event.leaves : Event n → Bool
  | leaving _ => true
  | resuming _ | suspending _ => false

namespace TestTimes

/-- A turn of the main loop. `term` is set where the worker is expected to leave, and reset when the next one
takes the only slot. -/
def turn (quanta : Fin n → Int32) (t : TestTimes n m) : Option (TestTimes n m × List (Event n)) :=
  match t.toTestOutput.turn quanta with
  | none => none
  | some (u, es) =>
    let leaves := es.any Event.leaves
    let replaced := leaves && decide (t.workerIndex < n) && decide (m + 1 = 1)
    let myWait := if replaced then t.myWait + 1 else t.myWait
    let term : Int32 := if leaves && !replaced then 1 else 0
    some (⟨u, myWait + (Int32.ofNat u.inQueue + (Int32.ofNat n - Int32.ofNat u.workerIndex) - 1 + term)⟩, es)

/-- `while(worker_index < num_workers || in_queue > 0)`, for at most `fuel` turns. -/
def loop (quanta : Fin n → Int32) : Nat → TestTimes n m → Option (TestTimes n m × List (Event n))
  | 0, t => if t.workerIndex < n ∨ 0 < t.inQueue then none else some (t, [])
  | fuel + 1, t =>
    if t.workerIndex < n ∨ 0 < t.inQueue then do
      let (t, es) ← t.turn quanta
      let (t, es') ← loop quanta fuel t
      some (t, es ++ es')
    else some (t, [])

end TestTimes

open TestOutput in
/-- `test_output` up to its comparison of the sums: its variables, and the events it expects. -/
def testTimes (quanta : Fin n → Int32) (remaining : Fin (m + 1) → Int32) : Option (TestTimes n m × List (Event n)) :=
  TestTimes.loop quanta (budget quanta) ⟨fill quanta (initial remaining) (m + 1), Int32.ofNat n⟩

/-! ## What they add up -/

namespace RoundRobin

variable {r : RoundRobin n}

/-- The workers that have not left. -/
def unfinished (r : RoundRobin n) : Nat := r.queue.length + r.waiting.length

theorem unfinished_round (hne : r.queue ≠ []) :
    r.round.1.unfinished + (r.round.2.any Event.leaves).toNat = r.unfinished := by
  obtain ⟨⟨w, left⟩, rest, hr⟩ := List.exists_cons_of_ne_nil hne
  by_cases hl : 1 < left
  · rw [round_requeue hr hl, unfinished, unfinished, hr]
    simp [Event.leaves]
  · rw [round_leave hr hl, unfinished, unfinished, hr]
    cases hw : r.waiting with
    | nil => simp [Event.leaves]
    | cons x waiting =>
      simp [Event.leaves]
      omega

theorem waiting_round (hne : r.queue ≠ []) (x : Int) : r.round.2.foldl Waiting.event ⟨r.unfinished, x⟩ =
    ⟨r.round.1.unfinished, x + (r.unfinished - 1)⟩ := by
  have hunfinished := unfinished_round hne
  obtain ⟨⟨w, left⟩, rest, hr⟩ := List.exists_cons_of_ne_nil hne
  by_cases hl : 1 < left
  · rw [round_requeue hr hl] at hunfinished ⊢
    simp only [List.any_cons, Event.leaves, List.any_nil, Bool.or_self, Bool.toNat_false, Nat.add_zero] at hunfinished
    simp [Waiting.event, hunfinished]
  · rw [round_leave hr hl] at hunfinished ⊢
    simp only [List.any_cons, Event.leaves, List.any_nil, Bool.false_or, Bool.true_or, Bool.toNat_true] at hunfinished
    simp [Waiting.event, ← hunfinished]

end RoundRobin

namespace TestOutput

variable {quanta : Fin n → Int32} {t : TestOutput n m} {r : RoundRobin n}

theorem turn_workerIndex_le {t' : TestOutput n m} {es : List (Event n)} (h : t.turn quanta = some (t', es))
    (hle : t.workerIndex ≤ n) : t'.workerIndex ≤ n := by
  unfold turn at h
  dsimp only at h
  split at h
  · cases h
  · split_ifs at h with hlast hlt
    · cases h
      exact hlt
    · cases h
      exact hle
    · cases h
      exact hle

theorem Shows.unfinished (h : t.Shows quanta r) (hle : t.workerIndex ≤ n) :
    (r.unfinished : Int) = t.inQueue + ((n : Int) - t.workerIndex) := by
  have hwaiting := congrArg List.length h.waiting
  simp only [List.length_map, List.length_drop, List.length_finRange] at hwaiting
  rw [RoundRobin.unfinished, ← hwaiting, ← h.inQueue]
  omega

end TestOutput

namespace TestTimes

variable {quanta : Fin n → Int32} {t : TestTimes n m} {r : RoundRobin n}

structure Shows (quanta : Fin n → Int32) (t : TestTimes n m) (r : RoundRobin n) (seconds : Int) : Prop where
  shows : t.toTestOutput.Shows quanta r
  workerIndex : t.workerIndex ≤ n
  myWait : t.myWait = Int32.ofInt seconds

/-- `my_wait` and `term` make up for the worker that has left, whether it has been replaced or not. -/
theorem myWait_turn (x : Int) (inQueue workerIndex : Nat) {leaves replaced : Bool} (h : replaced = true → leaves = true) :
    (if replaced then Int32.ofInt x + 1 else Int32.ofInt x) + (Int32.ofNat inQueue + (Int32.ofNat n - Int32.ofNat workerIndex) -
      1 + if leaves && !replaced then 1 else 0) =
      Int32.ofInt (x + (inQueue + ((n : Int) - workerIndex) + leaves.toNat - 1)) := by
  have hone : (1 : Int32) = Int32.ofInt 1 := rfl
  have hzero : (0 : Int32) = Int32.ofInt 0 := rfl
  simp only [← Int32.ofInt_eq_ofNat, hone, hzero]
  cases leaves <;> cases replaced
  · simp only [Bool.false_and, Bool.false_eq_true, if_false, ← Int32.ofInt_add, ← Int32.ofInt_sub]
    congr 1
    simp
  · exact absurd (h rfl) (by simp)
  · simp only [Bool.true_and, Bool.not_false, Bool.false_eq_true, if_false, if_true, ← Int32.ofInt_add, ← Int32.ofInt_sub]
    congr 1
    simp
  · simp only [Bool.true_and, Bool.not_true, Bool.false_eq_true, if_false, if_true, ← Int32.ofInt_add, ← Int32.ofInt_sub]
    congr 1
    simp

theorem turn_round (hq : ∀ w, 1 ≤ (quanta w).toInt) {x : Int} (h : t.Shows quanta r x) (hne : r.queue ≠ []) :
    ∃ t', t.turn quanta = some (t', r.round.2) ∧ t'.Shows quanta r.round.1 (x + (r.unfinished - 1)) ∧
      t'.myRun = t.myRun + 1 := by
  obtain ⟨u, hturn, hshows, hrun⟩ := TestOutput.turn_round hq h.shows hne
  have hle := TestOutput.turn_workerIndex_le hturn h.workerIndex
  have hafter := hshows.unfinished hle
  have hunfinished := RoundRobin.unfinished_round hne
  unfold turn
  rw [hturn]
  refine ⟨_, rfl, ⟨hshows, hle, ?_⟩, hrun⟩
  dsimp only
  -- a worker is replaced only when it leaves
  rw [h.myWait, myWait_turn x _ _ fun hreplaced => (Bool.and_eq_true_iff.1 (Bool.and_eq_true_iff.1 hreplaced).1).1]
  congr 1
  omega

theorem loop_schedule (hq : ∀ w, 1 ≤ (quanta w).toInt) : ∀ {fuel : Nat} {t : TestTimes n m} {r : RoundRobin n} {x : Int},
    t.Shows quanta r x → r.Fair → r.total = fuel →
      ∃ t', loop quanta fuel t = some (t', r.schedule) ∧ t'.myRun = t.myRun + Int32.ofNat fuel ∧
        t'.myWait = Int32.ofInt (r.schedule.foldl Waiting.event ⟨r.unfinished, x⟩).seconds
  | 0, t, r, x, h, hf, htotal => by
    have hstop := mt (h.shows.continues hf).1 (not_not.2 ((RoundRobin.total_eq_zero hf).1 htotal))
    have hnil : r.schedule = [] := by
      rw [RoundRobin.schedule, htotal]
      rfl
    exact ⟨t, by rw [loop, if_neg hstop, hnil], by simp, by rw [hnil]; exact h.myWait⟩
  | fuel + 1, t, r, x, h, hf, htotal => by
    have hne : r.queue ≠ [] := mt (RoundRobin.total_eq_zero hf).2 (by omega)
    have hround : r.round.1.total = fuel := by have := RoundRobin.total_round hf hne; omega
    have hschedule : r.schedule = r.round.2 ++ r.round.1.schedule := by
      rw [RoundRobin.schedule, RoundRobin.schedule, htotal, hround]
      rfl
    obtain ⟨t₁, hturn, h₁, hrun⟩ := turn_round hq h hne
    obtain ⟨t₂, hloop, hrun₂, hwait⟩ := loop_schedule hq h₁ hf.round hround
    refine ⟨t₂, ?_, ?_, ?_⟩
    · rw [loop, if_pos ((h.shows.continues hf).2 hne), hturn, hschedule]
      simp only [Option.bind_eq_bind, Option.bind_some, hloop]
    · rw [hrun₂, hrun, Int32.add_assoc, Int32.add_comm 1, Int32.ofNat_add]
      rfl
    · rw [hwait, hschedule, List.foldl_append, RoundRobin.waiting_round hne]

theorem testTimes_schedule (hq : ∀ w, 1 ≤ (quanta w).toInt) (remaining : Fin (m + 1) → Int32) :
    ∃ t, testTimes quanta remaining = some (t, (RoundRobin.start quanta (m + 1)).schedule) ∧
      t.myRun = Int32.ofNat (RoundRobin.start quanta (m + 1)).total ∧
      t.myWait = Int32.ofInt (waiting (RoundRobin.start quanta (m + 1)).schedule).seconds := by
  have hfill := TestOutput.filled quanta remaining (m + 1) le_rfl
  have hstart : TestTimes.Shows quanta ⟨TestOutput.fill quanta (TestOutput.initial remaining) (m + 1), Int32.ofNat n⟩
      (.start quanta (m + 1)) n :=
    ⟨hfill.shows hq, by rw [hfill.workerIndex]; exact Nat.min_le_right .., Int32.ofInt_eq_ofNat.symm⟩
  have hall : (RoundRobin.start quanta (m + 1)).unfinished = n := by
    rw [RoundRobin.unfinished, ← List.length_append, RoundRobin.start, ← List.map_append, List.take_append_drop]
    simp
  obtain ⟨t, hloop, hrun, hwait⟩ := loop_schedule hq hstart (RoundRobin.start_fair hq m) (RoundRobin.start_total quanta (m + 1))
  rw [hall] at hwait
  refine ⟨t, hloop, ?_, hwait⟩
  rw [hrun, hfill.myRun, RoundRobin.start_total, Int32.zero_add]

end TestTimes

/-! ## The report against the test -/

namespace Scheduler

/-- The scheduler's report passes the comparisons of its own test: with arrivals prompt and in order and an exact
timer, once the scheduler has quit its totals are, to the microsecond, the seconds that `test_output` has added up,
on top of what the records held before and of what the workers waited until the timer was armed. -/
theorem report_matches_test (hn : 1 ≤ n) {info : Fin n → ThreadInfo} (hq : ∀ w, 1 ≤ (info w).quanta.toInt) {c : Timespec}
    (remaining : Fin (m + 1) → Int32) {actions : List (Action n)} {s : Scheduler n} {outs : List (List (Event n))}
    (hprompt : Along step (Prompt (m + 1)) (initial (m + 1) info) actions)
    (honTime : Along step (OnTime c) (initial (m + 1) info) actions)
    (h : run step (initial (m + 1) info) actions = .ok (s, outs)) (hquit : s.quit = true) :
    ∃ t waited ran, testTimes (fun w => (info w).quanta) remaining = some (t, outs.flatten) ∧
      s.waitTimes = ∑ w, ((info w).waitTime + timeDifference c (info w).suspendTime) + 1000000 * waited ∧
      t.myWait = Int32.ofInt waited ∧
      s.runTimes = ∑ w, (info w).runTime + 1000000 * ran ∧ t.myRun = Int32.ofInt ran := by
  obtain ⟨hc, hrefines⟩ := run_refines hn hq hprompt h
  have hf := RoundRobin.start_fair hq m
  have hne : (RoundRobin.start (fun w => (info w).quanta) (m + 1)).total ≠ 0 := by
    rw [ne_eq, RoundRobin.total_eq_zero hf]
    simp [RoundRobin.start]
    omega
  have hdone := (hc.quit hquit).1
  have hschedule := ((hrefines.quit_iff hc hf hne).1 hquit).2
  obtain ⟨t, htest, hrun, hwait⟩ := TestTimes.testTimes_schedule hq remaining
  obtain ⟨hwaited, hran⟩ := totals_of_onClock hq honTime h hdone
  rw [← hschedule] at htest hwait
  refine ⟨t, _, _, htest, hwaited, hwait, hran, ?_⟩
  rw [hrun, hschedule, RoundRobin.quantaTaken_schedule hf, Int32.ofInt_eq_ofNat]

theorem report_matches_test_two_workers : ∃ t : TestTimes 2 0, t.myWait = 3 ∧ t.myRun = 3 ∧
    testTimes (fun w : Fin 2 => if w = 0 then 1 else 2) (fun _ => 7) = some (t, [.resuming 0, .suspending 0,
      .leaving 0, .resuming 1, .suspending 1, .resuming 1, .suspending 1, .leaving 1]) := by
  have hrun : ∃ s outs, run step (initial 1 fun w : Fin 2 => ⟨if w = 0 then 1 else 2, ⟨7, 5⟩, ⟨7, 5⟩, 0, 0⟩)
      [.semWait 0, .enter 0, .start, .tick ⟨8, 5⟩, .handler ⟨8, 5⟩, .tick ⟨9, 5⟩, .handler ⟨9, 5⟩, .semPost 0,
        .semWait 1, .handler ⟨9, 5⟩, .enter 1, .handler ⟨9, 5⟩, .handler ⟨9, 5⟩, .tick ⟨10, 5⟩, .handler ⟨10, 5⟩,
        .handler ⟨10, 5⟩, .handler ⟨10, 5⟩, .tick ⟨11, 5⟩, .handler ⟨11, 5⟩, .handler ⟨11, 5⟩, .handler ⟨11, 5⟩,
        .handler ⟨11, 5⟩] = .ok (s, outs) ∧ s.quit = true ∧ s.waitTimes = 3000000 ∧ s.runTimes = 3000000 ∧
        outs.flatten = [.resuming 0, .suspending 0, .leaving 0, .resuming 1, .suspending 1, .resuming 1, .suspending 1,
          .leaving 1] := ⟨_, _, rfl, rfl, by decide, by decide, rfl⟩
  obtain ⟨s, outs, hrun, hquit, hwait, hran, houts⟩ := hrun
  obtain ⟨t, waited, ran, htest, hwaited, hmyWait, hran', hmyRun⟩ := report_matches_test (m := 0) (c := ⟨7, 5⟩) (by decide)
    (by decide) (fun _ => 7) (by decide) (by decide) hrun hquit
  have hw : waited = 3 := by
    rw [hwait] at hwaited
    simp [timeDifference] at hwaited
    omega
  have hr : ran = 3 := by
    rw [hran] at hran'
    simp at hran'
    omega
  rw [houts] at htest
  exact ⟨t, by rw [hmyWait, hw]; rfl, by rw [hmyRun, hr]; rfl, htest⟩

end Scheduler

end UnixSysProg.Sched
