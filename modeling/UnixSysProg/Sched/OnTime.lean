/-
The times that a scheduler reports when its timer is exact and its handler takes no time: on top of what the
records held before, and of what each worker waits until the timer is armed, they are whole seconds, and can be
read off the events alone. In the first second every worker waits, and in each quantum all but one of those that
have not left yet; so the totals do not depend on when the workers arrive, except through the order in which they
leave.
-/
import UnixSysProg.Sched.RoundRobin
import UnixSysProg.Sched.Totals

namespace UnixSysProg.Sched

open UnixSysProg.Lib

variable {n : Nat}

/-! ## Whole seconds -/

/-- `k` seconds later. -/
def Timespec.after (c : Timespec) (k : Int) : Timespec := ⟨c.tvSec + k, c.tvNsec⟩

theorem timeDifference_after (c : Timespec) (j k : Int) :
    timeDifference (c.after j) (c.after k) = 1000000 * (j - k) := by
  simp only [timeDifference, Timespec.after, sub_self, Int.zero_tdiv]
  omega

theorem timeDifference_after_left (c d : Timespec) (k : Int) :
    timeDifference (c.after k) d = timeDifference c d + 1000000 * k := by
  simp only [timeDifference, Timespec.after]
  omega

theorem Timespec.after_after (c : Timespec) (j k : Int) : (c.after j).after k = c.after (j + k) := by
  simp only [Timespec.after, Int.add_assoc]

/-- The seconds that workers have waited, and how many workers have not left. -/
structure Waiting where
  unfinished : Int
  seconds : Int

/-- In a quantum all wait but the one that runs. -/
def Waiting.event (t : Waiting) : Event n → Waiting
  | .resuming _ => t
  | .suspending _ => { t with seconds := t.seconds + (t.unfinished - 1) }
  | .leaving _ => { t with unfinished := t.unfinished - 1 }

/-- Of a log, with the second before the first worker is resumed. -/
def waiting (log : List (Event n)) : Waiting := log.foldl Waiting.event ⟨n, n⟩

theorem waiting_append (log es : List (Event n)) : waiting (log ++ es) = es.foldl Waiting.event (waiting log) :=
  List.foldl_append

theorem waiting_unfinished (log : List (Event n)) :
    (waiting log).unfinished = ∑ w, (1 - (log.count (.leaving w) : Int)) := by
  induction log using List.reverseRecOn with
  | nil => simp [waiting]
  | append_singleton log e ih =>
    rw [waiting_append]
    cases e with
    | resuming v | suspending v => simpa [Waiting.event] using ih
    | leaving v =>
      have hone : ∑ w, (if v = w then 1 else 0 : Int) = 1 := by simp
      simp only [Waiting.event, List.foldl_cons, List.foldl_nil, ih, List.count_append, List.count_singleton, beq_iff_eq,
        Event.leaving.injEq, Nat.cast_add, Nat.cast_ite, Nat.cast_one, Nat.cast_zero]
      rw [← hone, ← Finset.sum_sub_distrib]
      exact Finset.sum_congr rfl fun w _ => by omega

theorem quantaTaken_eq_sum (log : List (Event n)) : (quantaTaken log : Int) = ∑ w, (log.count (.suspending w) : Int) := by
  induction log using List.reverseRecOn with
  | nil => simp [quantaTaken]
  | append_singleton log e ih =>
    rw [quantaTaken_append, Nat.cast_add, ih]
    simp only [List.count_append, Nat.cast_add, Finset.sum_add_distrib]
    congr 1
    cases e <;> simp [quantaTaken, Event.takesQuantum, List.count_singleton]

namespace Scheduler

variable {s s' : Scheduler n} {a : Action n} {log es : List (Event n)} {c : Timespec} {quanta : Fin n → Int32}
  {start : Fin n → ThreadInfo}

/-! ## The clock -/

/-- The timer strikes a second after the last resume, for the first time a second after it is armed at `c`, and its
handler takes no time. -/
def OnTime (c : Timespec) (s : Scheduler n) : Action n → Prop
  | .tick now => ∀ w ∈ s.currentThread, now = (s.info w).resumeTime.after 1
  | .handler now => s.handler = .schedule → now = (s.currentThread.elim (c.after 1) fun w => (s.info w).suspendTime)
  | _ => True

instance (c : Timespec) (s : Scheduler n) : ∀ a, Decidable (OnTime c s a)
  | .tick now => inferInstanceAs (Decidable (∀ w ∈ s.currentThread, now = (s.info w).resumeTime.after 1))
  | .handler now => inferInstanceAs (Decidable (s.handler = .schedule →
      now = (s.currentThread.elim (c.after 1) fun w => (s.info w).suspendTime)))
  | .start | .semWait _ | .enter _ | .semPost _ => inferInstanceAs (Decidable True)

/-- The second of a worker's last suspension, or the one in which the timer is armed. -/
def suspendedAt (c : Timespec) (log : List (Event n)) (s : Scheduler n) (w : Fin n) : Int :=
  if log.contains (Event.suspending w) then (s.info w).suspendTime.tvSec - c.tvSec else 0

/-- The time from a worker's creation until the timer is armed, once it has been counted. -/
def early (start : Fin n → ThreadInfo) (c : Timespec) (log : List (Event n)) (s : Scheduler n) (w : Fin n) : Int :=
  if log.contains (Event.suspending w) ∨ s.running = some w then timeDifference c (start w).suspendTime else 0

/-- The second up to which a worker's record has been kept. -/
def keptUntil (c : Timespec) (log : List (Event n)) (s : Scheduler n) (w : Fin n) : Int :=
  if s.running = some w then 1 + quantaTaken log else s.suspendedAt c log w

instance (s : Scheduler n) (w : Fin n) : Decidable (s.Ending w) := inferInstanceAs (Decidable (_ ∨ _))

/-- The second in which a worker ends, or the present one. -/
def livesUntil (c : Timespec) (log : List (Event n)) (s : Scheduler n) (w : Fin n) : Int :=
  if s.Ending w then s.suspendedAt c log w else 1 + quantaTaken log

/-- The clock that the records show. -/
def clock (s : Scheduler n) (w : Fin n) : Timespec :=
  if s.handler = .idle then (s.info w).resumeTime else (s.info w).suspendTime

/-- The records of a run that is on time, from the records `start`. -/
structure OnClock (start : Fin n → ThreadInfo) (c : Timespec) (log : List (Event n)) (s : Scheduler n) : Prop where
  kept : ∀ w, (s.info w).waitTime + (s.info w).runTime =
    (start w).waitTime + (start w).runTime + s.early start c log w + 1000000 * s.keptUntil c log w
  ran : ∀ w, (s.info w).runTime = (start w).runTime + 1000000 * log.count (.suspending w)
  suspended : ∀ w, (s.info w).suspendTime =
    if log.contains (Event.suspending w) then c.after (s.suspendedAt c log w) else (start w).suspendTime
  clock : ∀ w, s.currentThread = some w → s.clock w = c.after (1 + quantaTaken log)
  fresh : s.currentThread = none → quantaTaken log = 0 ∨ n ≤ s.completed
  lives : ∑ w, s.livesUntil c log w = (waiting log).seconds + quantaTaken log

namespace OnClock

theorem initial (queueSize : Nat) (start : Fin n → ThreadInfo) (c : Timespec) :
    OnClock start c [] (initial queueSize start) := by
  have hrunning : (Scheduler.initial queueSize start).running = none := rfl
  refine ⟨fun w => ?_, fun w => ?_, fun w => ?_, fun w hw => (by cases hw), fun _ => .inl rfl, ?_⟩
  · rw [early, keptUntil, hrunning]
    simp [suspendedAt, Scheduler.initial]
  · simp [Scheduler.initial]
  · simp [Scheduler.initial]
  · simp [livesUntil, Ending, Scheduler.initial, WorkerPc.signalled, waiting, quantaTaken]

theorem silent (h : OnClock start c log s) (hes : es.countP Event.takesQuantum = 0)
    (hseconds : (waiting (log ++ es)).seconds = (waiting log).seconds) (hi : s'.info = s.info)
    (hrunning : s'.running = s.running) (hending : ∀ w, s'.Ending w ↔ s.Ending w)
    (hclock : ∀ w, s'.currentThread = some w → s.currentThread = some w ∧ (s'.handler = .idle ↔ s.handler = .idle))
    (hfresh : s'.currentThread = none → s.currentThread = none ∧ s.completed ≤ s'.completed ∨ n ≤ s'.completed) :
    OnClock start c (log ++ es) s' := by
  have hquanta : quantaTaken (log ++ es) = quantaTaken log := by
    rw [quantaTaken_append]
    exact Nat.add_eq_left.2 hes
  have hnot : ∀ w, .suspending w ∉ es := fun w hmem =>
    absurd (List.countP_eq_zero.1 hes _ hmem) (by simp [Event.takesQuantum])
  have hcount : ∀ w, (log ++ es).count (.suspending w) = log.count (.suspending w) := fun w => by
    rw [List.count_append, Nat.add_eq_left]
    exact List.count_eq_zero.2 (hnot w)
  have hmem : ∀ w, (log ++ es).contains (Event.suspending w) = log.contains (Event.suspending w) := fun w => by simp [hnot w]
  have hat : ∀ w, s'.suspendedAt c (log ++ es) w = s.suspendedAt c log w := fun w => by
    simp only [suspendedAt, hmem, hi]
  refine ⟨fun w => ?_, fun w => ?_, fun w => ?_, fun w hw => ?_, fun hnone => ?_, ?_⟩
  · simp only [early, keptUntil, hi, hmem, hquanta, hrunning, hat]
    exact h.kept w
  · rw [hi, hcount]
    exact h.ran w
  · simp only [hi, hmem, hat]
    exact h.suspended w
  · obtain ⟨hcur, hidle⟩ := hclock w hw
    rw [hquanta, Scheduler.clock, hi, if_congr hidle rfl rfl]
    exact h.clock w hcur
  · rw [hquanta]
    rcases hfresh hnone with ⟨hcur, hle⟩ | hdone
    · exact (h.fresh hcur).imp_right fun hdone => hdone.trans hle
    · exact .inr hdone
  · rw [hseconds, hquanta, ← h.lives]
    exact Finset.sum_congr rfl fun w _ => by simp only [livesUntil, hending, hat, hquanta]

/-! ## A suspension -/

theorem suspendWorker_self (s : Scheduler n) (w : Fin n) (now : Timespec) :
    (s.suspendWorker w now).info w = ThreadInfo.updateRunTime { s.info w with suspendTime := now } :=
  Function.update_self ..

theorem contains_suspending_self (log : List (Event n)) (w : Fin n) :
    (log ++ [Event.suspending w]).contains (Event.suspending w) := by simp

theorem contains_suspending_other {v w : Fin n} (hv : v ≠ w) (log : List (Event n)) :
    (log ++ [Event.suspending w]).contains (Event.suspending v) = log.contains (Event.suspending v) := by simp [hv]

theorem suspendedAt_self (s : Scheduler n) (w : Fin n) (c : Timespec) (log : List (Event n)) (k : Int) :
    (s.suspendWorker w (c.after k)).suspendedAt c (log ++ [.suspending w]) w = k := by
  rw [suspendedAt, if_pos (contains_suspending_self log w), suspendWorker_self]
  simp only [ThreadInfo.updateRunTime, Timespec.after]
  omega

theorem suspendedAt_other (s : Scheduler n) {v w : Fin n} (hv : v ≠ w) (c now : Timespec) (log : List (Event n)) :
    (s.suspendWorker w now).suspendedAt c (log ++ [.suspending w]) v = s.suspendedAt c log v := by
  simp only [suspendedAt, contains_suspending_other hv, suspendWorker_other s hv]

/-- When the current worker is suspended, another second is there for each that has not left. -/
theorem livesUntil_suspend (hc : Control s) (hl : Logged quanta log s) {w : Fin n} (hi : s.handler = .idle)
    (hcur : s.currentThread = some w) (v : Fin n) :
    (s.suspendWorker w (c.after (1 + (quantaTaken log + 1 : Nat)))).livesUntil c (log ++ [.suspending w]) v =
      s.livesUntil c log v + (1 - (log.count (.leaving v) : Int)) := by
  have hquanta : quantaTaken (log ++ [.suspending w]) = quantaTaken log + 1 := quantaTaken_append ..
  have hgone : (log.count (.leaving v) : Int) = if s.Ending v then 1 else 0 := by
    rw [hl.left]
    simp [Gone, Ending, hi]
  rw [hgone, livesUntil, livesUntil, hquanta]
  by_cases hv : v = w
  · subst hv
    have hnot : ¬ s.Ending v := by simp [Ending, hc.current v hi hcur, hi, WorkerPc.signalled]
    rw [if_neg hnot, if_neg hnot, suspendedAt_self, ite_self]
    push_cast
    omega
  · have hending : (s.suspendWorker w (c.after (1 + (quantaTaken log + 1 : Nat)))).Ending v ↔ s.Ending v := by
      simp only [Ending, suspendWorker_pc, hi]
      simp only [suspendWorker]
      split_ifs <;> simp [Ne.symm hv]
    simp only [hending, suspendedAt_other s hv]
    split_ifs
    · omega
    · push_cast
      omega

/-- The current worker is suspended, a second after it was resumed. -/
theorem suspend (h : OnClock start c log s) (hc : Control s) (hl : Logged quanta log s) {w : Fin n} {now : Timespec}
    (hi : s.handler = .idle) (hcur : s.currentThread = some w) (hnow : now = (s.info w).resumeTime.after 1) :
    OnClock start c (log ++ [.suspending w]) (s.suspendWorker w now) := by
  have hrun : s.running = some w := by simp [running, hi, hcur]
  have hbusy := suspendWorker_busy s w now
  have hnone : (s.suspendWorker w now).running = none := if_neg hbusy
  have hquanta : quantaTaken (log ++ [.suspending w]) = quantaTaken log + 1 := quantaTaken_append ..
  -- the present second
  have hresumed : (s.info w).resumeTime = c.after (1 + quantaTaken log) := by
    have hclock := h.clock w hcur
    rwa [Scheduler.clock, if_pos hi] at hclock
  obtain rfl : now = c.after (1 + (quantaTaken log + 1 : Nat)) := by
    rw [hnow, hresumed, Timespec.after_after, Nat.cast_succ, Int.add_assoc]
  have hsecond : timeDifference (c.after (1 + (quantaTaken log + 1 : Nat))) (s.info w).resumeTime = 1000000 := by
    rw [hresumed, timeDifference_after]
    omega
  refine ⟨fun v => ?_, fun v => ?_, fun v => ?_, fun v hv => ?_, fun hv => ?_, ?_⟩
  · rw [keptUntil, hnone, if_neg (by simp)]
    by_cases hv : v = w
    · subst hv
      have hkept := h.kept v
      rw [early, if_pos (.inr hrun), keptUntil, if_pos hrun] at hkept
      rw [early, if_pos (.inl (contains_suspending_self log v)), suspendedAt_self, suspendWorker_self]
      simp only [ThreadInfo.updateRunTime, hsecond]
      push_cast
      omega
    · have hnot : s.running ≠ some v := by simp [hrun, Ne.symm hv]
      have hkept := h.kept v
      rw [keptUntil, if_neg hnot] at hkept
      rw [suspendedAt_other s hv, suspendWorker_other s hv, hkept, early, early, contains_suspending_other hv, hnone]
      simp [hnot]
  · by_cases hv : v = w
    · subst hv
      have hran := h.ran v
      rw [suspendWorker_self]
      simp only [ThreadInfo.updateRunTime, hsecond, List.count_append, List.count_singleton_self]
      push_cast
      omega
    · rw [suspendWorker_other s hv, h.ran, List.count_append, List.count_singleton]
      simp [Ne.symm hv]
  · by_cases hv : v = w
    · subst hv
      rw [if_pos (contains_suspending_self log v), suspendedAt_self, suspendWorker_self]
      rfl
    · simp only [contains_suspending_other hv, suspendedAt_other s hv, suspendWorker_other s hv]
      exact h.suspended v
  · cases hcur.symm.trans hv
    rw [Scheduler.clock, if_neg hbusy, suspendWorker_self, hquanta]
    rfl
  · exact absurd (hcur.symm.trans hv) (by simp)
  · rw [Finset.sum_congr rfl fun v _ => livesUntil_suspend hc hl hi hcur v, Finset.sum_add_distrib, h.lives,
      ← waiting_unfinished, waiting_append, hquanta]
    simp only [List.foldl_cons, List.foldl_nil, Waiting.event]
    push_cast
    omega

/-! ## The other steps -/

theorem resume (h : OnClock start c log s) {w : Fin n} {now : Timespec} (hh : s.handler = .schedule) (hlt : s.completed < n)
    (hnow : now = (s.currentThread.elim (c.after 1) fun w => (s.info w).suspendTime)) :
    OnClock start c (log ++ [.resuming w]) (s.resumeWorker w now) := by
  have hrun : s.running = none := by simp [running, hh]
  have hsome : (s.resumeWorker w now).running = some w := rfl
  have hquanta : quantaTaken (log ++ [.resuming w]) = quantaTaken log := by simp [quantaTaken, Event.takesQuantum]
  have hpresent : now = c.after (1 + quantaTaken log) := by
    rw [hnow]
    cases hcur : s.currentThread with
    | none =>
      have hzero := (h.fresh hcur).resolve_right (by omega)
      simp [hzero]
    | some v =>
      have hclock := h.clock v hcur
      rwa [Scheduler.clock, if_neg (by simp [hh])] at hclock
  have hself : (s.resumeWorker w now).info w = ThreadInfo.updateWaitTime { s.info w with resumeTime := now } :=
    Function.update_self ..
  have hother : ∀ v, v ≠ w → (s.resumeWorker w now).info v = s.info v := fun v hv => Function.update_of_ne hv ..
  have hmem : ∀ v, (log ++ [Event.resuming w]).contains (Event.suspending v) = log.contains (Event.suspending v) := fun v => by simp
  have hsuspended : ∀ v, ((s.resumeWorker w now).info v).suspendTime = (s.info v).suspendTime := by
    intro v
    by_cases hv : v = w
    · subst hv
      rw [hself]
      rfl
    · rw [hother v hv]
  have hat : ∀ v, (s.resumeWorker w now).suspendedAt c (log ++ [.resuming w]) v = s.suspendedAt c log v := fun v => by
    simp only [suspendedAt, hmem, hsuspended]
  -- the seconds that the kept times lacked, and for the first time those before the timer was armed
  have hwaited : s.early start c log w + timeDifference now (s.info w).suspendTime =
      timeDifference c (start w).suspendTime + 1000000 * (1 + quantaTaken log - s.suspendedAt c log w) := by
    rw [hpresent, h.suspended, early, hrun]
    by_cases hw : log.contains (Event.suspending w)
    · rw [if_pos hw, if_pos (.inl hw), timeDifference_after]
    · rw [if_neg hw, if_neg (by simpa using hw), timeDifference_after_left, suspendedAt, if_neg hw]
      omega
  refine ⟨fun v => ?_, fun v => ?_, fun v => ?_, fun v hv => ?_, fun hv => (by cases hv), ?_⟩
  · have hkept := h.kept v
    rw [keptUntil, hrun, if_neg (by simp)] at hkept
    rw [keptUntil, hsome, hquanta, hat]
    by_cases hv : v = w
    · subst hv
      rw [early, if_pos (.inr hsome), if_pos rfl, hself]
      simp only [ThreadInfo.updateWaitTime]
      omega
    · rw [if_neg (by simp [Ne.symm hv]), hother v hv, hkept]
      simp [early, hrun, hsome, Ne.symm hv]
  · have hran := h.ran v
    rw [List.count_append, List.count_singleton]
    by_cases hv : v = w
    · subst hv
      rw [hself]
      simpa [ThreadInfo.updateWaitTime] using hran
    · rw [hother v hv]
      simpa using hran
  · simp only [hsuspended, hmem, hat]
    exact h.suspended v
  · cases hv
    have hidle : (s.resumeWorker w now).handler = .idle := rfl
    rw [Scheduler.clock, if_pos hidle, hself, hquanta]
    exact hpresent
  · have hending : ∀ v, (s.resumeWorker w now).Ending v ↔ s.Ending v := fun v => by simp [Ending, resumeWorker, hh]
    have hseconds : (waiting (log ++ [.resuming w])).seconds = (waiting log).seconds := by rw [waiting_append]; rfl
    rw [hseconds, hquanta, ← h.lives]
    exact Finset.sum_congr rfl fun v _ => by simp only [livesUntil, hending, hat, hquanta]

theorem move (h : OnClock start c log s) (hc : Control s) (hl : Logged quanta log s) (ha : OnTime c s a) (hm : Move s a s' es) :
    OnClock start c (log ++ es) s' := by
  cases hm with
  | suspend _ hi _ hcur => exact h.suspend hc hl hi hcur (ha _ hcur)
  | resume hh hlt _ => exact h.resume hh hlt (ha hh)
  | waitStart _ _ | arm _ _ | tickEmpty _ _ _ | waitQueue _ _ _ =>
    exact h.silent rfl (by rw [List.append_nil]) rfl rfl (fun _ => Iff.rfl) (fun _ hv => ⟨hv, Iff.rfl⟩)
      fun hv => .inl ⟨hv, le_rfl⟩
  | semWait hw _ | enter hw | semPost hw =>
    refine h.silent rfl (by rw [List.append_nil]) rfl rfl (fun v => ?_) (fun _ hv => ⟨hv, Iff.rfl⟩)
      fun hv => .inl ⟨hv, le_rfl⟩
    simp only [Ending, Function.update_apply]
    split_ifs with hv
    · rw [hv, hw]
      rfl
    · rfl
  | tickFirst _ hi _ hcur =>
    refine h.silent rfl (by rw [List.append_nil]) rfl (by simp [running, hi, hcur]) (fun v => by simp [Ending, hi])
      (fun v hv => ?_) fun hv => .inl ⟨hv, le_rfl⟩
    exact absurd (hcur.symm.trans hv) (by simp)
  | remove hh | insert hh | totals hh =>
    refine h.silent rfl (by rw [List.append_nil]) rfl (by simp [running, hh]) (fun v => by simp [Ending, hh])
      (fun v hv => ⟨hv, by simp [hh]⟩) fun hv => .inl ⟨hv, by simp⟩
  | @signal _ w hh =>
    refine h.silent rfl (by rw [List.append_nil]) rfl (by simp [running, hh]) (fun v => ?_)
      (fun v hv => ⟨hv, by simp [hh]⟩) fun hv => .inl ⟨hv, le_rfl⟩
    by_cases hv : v = w
    · simp [Ending, hh, hv, WorkerPc.signalled]
    · simp [Ending, hh, hv, Ne.symm hv]
  | leave hh =>
    exact h.silent rfl (by rw [waiting_append]; rfl) rfl (by simp [running, hh]) (fun v => by simp [Ending, hh])
      (fun v hv => ⟨hv, by simp [hh]⟩) fun hv => .inl ⟨hv, le_rfl⟩
  | finish hh hdone =>
    exact h.silent rfl (by rw [List.append_nil]) rfl (by simp [running, hh]) (fun v => by simp [Ending, hh])
      (fun v hv => by cases hv) fun _ => .inr hdone

/-- When all have completed, the totals are those of the log, on top of what was there before. -/
theorem totals (h : OnClock start c log s) (hc : Control s) (hdone : n ≤ s.completed)
    (hserved : ∀ w, .suspending w ∈ log) (hwait : s.waitTimes = s.totalOf ThreadInfo.waitTime)
    (hrun : s.runTimes = s.totalOf ThreadInfo.runTime) :
    s.waitTimes = ∑ w, ((start w).waitTime + timeDifference c (start w).suspendTime) + 1000000 * (waiting log).seconds ∧
      s.runTimes = ∑ w, (start w).runTime + 1000000 * quantaTaken log := by
  have hran : s.runTimes = ∑ w, (start w).runTime + 1000000 * quantaTaken log := by
    rw [hrun, Metering.totalOf_eq_sum hc hdone, quantaTaken_eq_sum, Finset.mul_sum, ← Finset.sum_add_distrib]
    exact Finset.sum_congr rfl fun w _ => h.ran w
  have hsum : s.waitTimes + s.runTimes = ∑ w, ((start w).waitTime + timeDifference c (start w).suspendTime) +
      ∑ w, (start w).runTime + 1000000 * ((waiting log).seconds + quantaTaken log) := by
    rw [hwait, hrun, Metering.totalOf_eq_sum hc hdone, Metering.totalOf_eq_sum hc hdone, ← Finset.sum_add_distrib, ← h.lives,
      Finset.mul_sum, ← Finset.sum_add_distrib, ← Finset.sum_add_distrib]
    refine Finset.sum_congr rfl fun w _ => ?_
    rw [h.kept, early, if_pos (.inl (List.contains_iff_mem.2 (hserved w))), keptUntil, livesUntil, if_neg (Metering.not_running hc hdone w),
      if_pos (show s.Ending w from .inl (hc.all_signalled hdone w))]
    omega
  exact ⟨by omega, hran⟩

end OnClock

/-! ## Runs -/

section

variable {queueSize : Nat} {info : Fin n → ThreadInfo} {actions : List (Action n)} {outs : List (List (Event n))}

theorem run_onClock (hq : ∀ w, 1 ≤ (info w).quanta.toInt)
    (honTime : Along step (OnTime c) (initial queueSize info) actions)
    (h : run step (initial queueSize info) actions = .ok (s, outs)) :
    Logged (fun w => (info w).quanta) outs.flatten s ∧ OnClock info c outs.flatten s := by
  have hrun := run_log (I := fun log s => Control s ∧ Logged (fun w => (info w).quanta) log s ∧ OnClock info c log s)
    (fun log s a s' es ⟨hc, hl, hs⟩ ha hstep => by
      have hm := move_of_step hstep
      exact ⟨hc.move hm, hl.move hc hm, hs.move hc hl ha hm⟩)
    ⟨Control.initial queueSize info, Logged.initial hq, OnClock.initial queueSize info c⟩ honTime h
  exact hrun.2

/-- When all have completed, each worker has been suspended once for each of its quanta. -/
theorem Logged.completed {quanta : Fin n → Int32} (hl : Logged quanta log s) (hc : Control s) (hdone : n ≤ s.completed)
    (w : Fin n) : (log.count (.suspending w) : Int) = (quanta w).toInt := by
  have hremaining := hl.remaining w
  rw [hl.spent w (.inl (hc.all_signalled hdone w))] at hremaining
  omega

theorem totals_of_onClock (hq : ∀ w, 1 ≤ (info w).quanta.toInt)
    (honTime : Along step (OnTime c) (initial queueSize info) actions)
    (h : run step (initial queueSize info) actions = .ok (s, outs)) (hdone : n ≤ s.completed) :
    s.waitTimes = ∑ w, ((info w).waitTime + timeDifference c (info w).suspendTime) +
        1000000 * (waiting outs.flatten).seconds ∧
      s.runTimes = ∑ w, (info w).runTime + 1000000 * quantaTaken outs.flatten := by
  obtain ⟨hl, hclock⟩ := run_onClock hq honTime h
  obtain ⟨hc, hmeter⟩ := run_metering h
  refine hclock.totals hc hdone (fun w => List.count_pos_iff.1 ?_) hmeter.waitTotal hmeter.runTotal
  have hcount := hl.completed hc hdone w
  have := hq w
  omega

/-- With all quanta at least 1 and an exact timer, whatever the order in which the workers arrive, whenever they are
created and whatever their records hold: once all have completed, the scheduler reports what the records held and
what the workers waited until the timer was armed, a second of running for every quantum, and as seconds of waiting
one for every worker at first and one in each quantum for all but one of those that have not left. -/
theorem totals_on_time (hq : ∀ w, 1 ≤ (info w).quanta.toInt)
    (honTime : Along step (OnTime c) (initial queueSize info) actions)
    (h : run step (initial queueSize info) actions = .ok (s, outs)) (hdone : n ≤ s.completed) :
    s.runTimes = ∑ w, (info w).runTime + 1000000 * ∑ w, (info w).quanta.toInt ∧
      s.waitTimes = ∑ w, ((info w).waitTime + timeDifference c (info w).suspendTime) +
        1000000 * (waiting outs.flatten).seconds := by
  obtain ⟨hwait, hrun⟩ := totals_of_onClock hq honTime h hdone
  obtain ⟨hl, _⟩ := run_onClock hq honTime h
  obtain ⟨hc, _⟩ := run_metering h
  refine ⟨?_, hwait⟩
  rw [hrun, quantaTaken_eq_sum]
  exact congrArg (∑ w, (info w).runTime + 1000000 * ·) (Finset.sum_congr rfl fun w _ => hl.completed hc hdone w)

/-- Two workers created a second apart, the second one in memory that held five microseconds, with one quantum and
with two; the timer is armed at 7 s. -/
theorem totals_on_time_two_workers : ∃ s : Scheduler 2, s.quit = true ∧
    s.runTimes = 1000000 * ∑ w : Fin 2, (if w = 0 then 1 else 2 : Int32).toInt ∧ s.waitTimes = 4000005 := by
  have hrun : ∃ s outs, run step (initial 2 fun w : Fin 2 => if w = 0 then ⟨1, ⟨6, 5⟩, ⟨6, 5⟩, 0, 0⟩ else
        ⟨2, ⟨7, 5⟩, ⟨7, 5⟩, 5, 0⟩)
      [.semWait 0, .enter 0, .semWait 1, .enter 1, .start, .tick ⟨8, 5⟩, .handler ⟨8, 5⟩, .tick ⟨9, 5⟩, .handler ⟨9, 5⟩,
        .handler ⟨9, 5⟩, .handler ⟨9, 5⟩, .handler ⟨9, 5⟩, .tick ⟨10, 5⟩, .handler ⟨10, 5⟩, .handler ⟨10, 5⟩,
        .handler ⟨10, 5⟩, .tick ⟨11, 5⟩, .handler ⟨11, 5⟩, .handler ⟨11, 5⟩, .handler ⟨11, 5⟩, .handler ⟨11, 5⟩] =
        .ok (s, outs) ∧ s.quit = true ∧ 2 ≤ s.completed ∧ (waiting outs.flatten).seconds = 3 :=
    ⟨_, _, rfl, rfl, by decide, by decide⟩
  obtain ⟨s, outs, hrun, hquit, hdone, hseconds⟩ := hrun
  obtain ⟨hran, hwaited⟩ := totals_on_time (c := ⟨7, 5⟩) (by decide) (by decide) hrun hdone
  exact ⟨s, hquit, hran.trans (by decide), by rw [hwaited, hseconds]; decide⟩

end

end Scheduler

end UnixSysProg.Sched
