/-
The signals between the scheduler and its workers (`worker.c`, and `pthread_kill` in `scheduler.c`). A worker
waits in `suspend_thread` for `SIGUSR2`, once when `start_worker` calls it and then each time that `SIGUSR1`
interrupts it; `SIGUSR1` is blocked in its own handler, `SIGUSR2` everywhere else, and a signal that is pending
already is not counted again. So a worker that is slow to take its signals may run when it should not, or never
again, and what its state is depends on how many signals have been lost in this way.
-/
import UnixSysProg.Sched.Quanta

namespace UnixSysProg.Sched

open UnixSysProg.Lib

/-! ## One worker -/

inductive Signal
  | usr1
  | usr2
  deriving DecidableEq

/-- The signals pending for a worker, whether it is in the handler of `SIGUSR1`, and whether the first
`suspend_thread`, which `start_worker` calls, has returned. -/
structure WorkerSignals where
  usr1 : Bool := false
  usr2 : Bool := false
  handling : Bool := false
  started : Bool := false
  deriving DecidableEq

namespace WorkerSignals

variable (t : WorkerSignals)

def pending : Signal → Bool
  | .usr1 => t.usr1
  | .usr2 => t.usr2

/-- `pthread_kill`. -/
def kill : Signal → WorkerSignals
  | .usr1 => { t with usr1 := true }
  | .usr2 => { t with usr2 := true }

/-- `SIGUSR1` interrupts the worker, unless it is in the handler already: `suspend_thread` begins. -/
def interrupt : Option WorkerSignals :=
  if t.usr1 && !t.handling then some { t with usr1 := false, handling := true } else none

/-- `sigwait` takes `SIGUSR2`: the `suspend_thread` called last returns. -/
def sigwait : Option WorkerSignals :=
  if !t.usr2 then none
  else if t.handling then some { t with usr2 := false, handling := false }
  else if !t.started then some { t with usr2 := false, started := true }
  else none

/-- The worker does its work. -/
def works : Bool := t.started && !t.handling

/-- The calls of `suspend_thread` that have not returned. -/
def calls : Nat := (!t.started).toNat + t.handling.toNat

/-- Nothing is pending. -/
def Settled : Prop := t.usr1 = false ∧ t.usr2 = false

instance : Decidable t.Settled := inferInstanceAs (Decidable (_ ∧ _))

variable {t : WorkerSignals}

theorem works_iff_calls : t.works = true ↔ t.calls = 0 := by
  unfold works calls
  cases t.started <;> cases t.handling <;> simp

/-- What a step of the worker does: it takes a signal and enters a call of `suspend_thread` or leaves one. -/
theorem interrupt_eq_some {t' : WorkerSignals} (h : t.interrupt = some t') :
    t'.calls = t.calls + 1 ∧ t.usr1 = true ∧ t'.usr1 = false ∧ t'.usr2 = t.usr2 := by
  obtain ⟨usr1, usr2, handling, started⟩ := t
  unfold interrupt at h
  cases usr1 <;> cases handling <;> cases h
  simp [calls]

theorem sigwait_eq_some {t' : WorkerSignals} (h : t.sigwait = some t') :
    t.calls = t'.calls + 1 ∧ t.usr2 = true ∧ t'.usr2 = false ∧ t'.usr1 = t.usr1 := by
  obtain ⟨usr1, usr2, handling, started⟩ := t
  unfold sigwait at h
  cases usr2 <;> cases handling <;> cases started <;> cases h <;> simp [calls]

@[simp] theorem calls_kill (signal : Signal) : (t.kill signal).calls = t.calls := by cases signal <;> rfl

@[simp] theorem usr1_kill (signal : Signal) : (t.kill signal).usr1 = (t.usr1 || signal = .usr1) := by
  cases signal <;> simp [kill]

@[simp] theorem usr2_kill (signal : Signal) : (t.kill signal).usr2 = (t.usr2 || signal = .usr2) := by
  cases signal <;> simp [kill]

end WorkerSignals

/-! ## The scheduler and its workers -/

/-- The scheduler and the signals of its workers. -/
structure Threads (n : Nat) where
  scheduler : Scheduler n
  workers : Fin n → WorkerSignals

/-- A step of the scheduler's, or of a worker that takes a signal. -/
inductive ThreadAction (n : Nat)
  | scheduler (a : Action n)
  | interrupt (w : Fin n)
  | sigwait (w : Fin n)

namespace Threads

variable {n : Nat}

/-- Before the first step every worker is on its way to its first `sigwait`. -/
def initial (queueSize : Nat) (info : Fin n → ThreadInfo) : Threads n :=
  ⟨.initial queueSize info, fun _ => {}⟩

/-- The `pthread_kill` that goes with a report of the handler, which now stands as in `s'`: `resume_worker` sends
`SIGUSR2`, and `suspend_worker` sends `SIGUSR1`, unless it cancels. -/
def sends (s' : Scheduler n) : Event n → List (Fin n × Signal)
  | .resuming w => [(w, .usr2)]
  | .suspending w => if s'.handler = .requeueRemove w then [(w, .usr1)] else []
  | .leaving _ => []

/-- Signals sent one after the other: the workers then, and the signals that were pending already. -/
def killAll (workers : Fin n → WorkerSignals) : List (Fin n × Signal) → (Fin n → WorkerSignals) × List (Fin n × Signal)
  | [] => (workers, [])
  | (w, signal) :: rest =>
    let merged := if (workers w).pending signal then [(w, signal)] else []
    let (workers, more) := killAll (Function.update workers w ((workers w).kill signal)) rest
    (workers, merged ++ more)

/-- A worker takes a signal; one that has exited takes none. -/
def take (t : Threads n) (w : Fin n) (taken : Option WorkerSignals) : Except Blocked (Threads n × List (Fin n × Signal)) :=
  match taken with
  | none => .error .blocked
  | some worker =>
    if t.scheduler.pc w = .exited then .error .blocked
    else .ok ({ t with workers := Function.update t.workers w worker }, [])

/-- A step, which answers with the signals that it has sent in vain. -/
def step (t : Threads n) : ThreadAction n → Except Blocked (Threads n × List (Fin n × Signal))
  | .scheduler a =>
    match t.scheduler.step a with
    | .error e => .error e
    | .ok (s', es) =>
      let (workers, merged) := killAll t.workers (es.flatMap (sends s'))
      .ok (⟨s', workers⟩, merged)
  | .interrupt w => t.take w (t.workers w).interrupt
  | .sigwait w => t.take w (t.workers w).sigwait

/-- What a step does: the scheduler moves and sends its signals, or a worker takes one. -/
inductive Stepped (t : Threads n) : ThreadAction n → Threads n → List (Fin n × Signal) → Prop
  | scheduler {a : Action n} {s' : Scheduler n} {es : List (Event n)} : Scheduler.Move t.scheduler a s' es →
      Stepped t (.scheduler a) ⟨s', (killAll t.workers (es.flatMap (sends s'))).1⟩
        (killAll t.workers (es.flatMap (sends s'))).2
  | interrupt {w : Fin n} {worker : WorkerSignals} : (t.workers w).interrupt = some worker →
      Stepped t (.interrupt w) { t with workers := Function.update t.workers w worker } []
  | sigwait {w : Fin n} {worker : WorkerSignals} : (t.workers w).sigwait = some worker →
      Stepped t (.sigwait w) { t with workers := Function.update t.workers w worker } []

theorem stepped_of_step {t t' : Threads n} {a : ThreadAction n} {merged : List (Fin n × Signal)}
    (h : t.step a = .ok (t', merged)) : Stepped t a t' merged := by
  cases a with
  | scheduler a =>
    simp only [step] at h
    split at h
    · cases h
    · rename_i s' es hs
      cases h
      exact .scheduler (Scheduler.move_of_step hs)
  | interrupt w =>
    simp only [step, take] at h
    split at h
    · cases h
    · rename_i worker hw
      split at h
      · cases h
      · cases h
        exact .interrupt hw
  | sigwait w =>
    simp only [step, take] at h
    split at h
    · cases h
    · rename_i worker hw
      split at h
      · cases h
      · cases h
        exact .sigwait hw

/-! ## Signals sent and signals taken -/

/-- How many signals of the kind a worker has been sent in vain. -/
def lost (log : List (Fin n × Signal)) (w : Fin n) (signal : Signal) : Nat := log.count (w, signal)

/-- The worker has been resumed and not suspended since. -/
def current (t : Threads n) (w : Fin n) : Nat := if t.scheduler.running = some w then 1 else 0

/-- Every call of `suspend_thread` is accounted for: the first one, and one for each suspension that has come
through, less one for each resumption that has. -/
def Accounted (log : List (Fin n × Signal)) (t : Threads n) (w : Fin n) : Prop :=
  ¬ Scheduler.Ending t.scheduler w →
    (t.workers w).calls + (t.workers w).usr1.toNat + t.current w + lost log w .usr1 =
      1 + (t.workers w).usr2.toNat + lost log w .usr2

/-- What a move of the scheduler sends to a worker that is not being cancelled. -/
inductive Sent (s s' : Scheduler n) (signals : List (Fin n × Signal)) (v : Fin n) : Prop
  | resume : signals = [(v, .usr2)] → s.handler = .schedule → s.running ≠ some v → s'.running = some v → Sent s s' signals v
  | suspend : signals = [(v, .usr1)] → s.handler = .idle → s.running = some v → s'.running ≠ some v → Sent s s' signals v
  | none : (∀ x ∈ signals, x.1 ≠ v) → (s'.running = some v ↔ s.running = some v) → Sent s s' signals v

/-- A worker that is being cancelled stays so. -/
theorem ending_of_move {s s' : Scheduler n} {a : Action n} {es : List (Event n)} (h : Scheduler.Move s a s' es) {v : Fin n}
    (hending : Scheduler.Ending s v) : Scheduler.Ending s' v := by
  unfold Scheduler.Ending at hending ⊢
  cases h with
  | @signal now w hcancel =>
    rcases hending with hv | hv
    · by_cases hvw : v = w
      · simp [hvw, WorkerPc.signalled]
      · simpa [Function.update_of_ne hvw] using hv
    · rw [hcancel] at hv
      cases hv
      simp [WorkerPc.signalled]
  | @semWait w hpc | @enter w hpc | @semPost w hpc =>
    refine hending.imp (fun hv => ?_) id
    by_cases hvw : v = w
    · subst hvw
      simp_all [WorkerPc.signalled]
    · simpa [Function.update_of_ne hvw] using hv
  | _ => exact hending.imp id fun hv => by simp_all

theorem sent_of_move {s s' : Scheduler n} {a : Action n} {es : List (Event n)} (h : Scheduler.Move s a s' es) {v : Fin n}
    (hending : ¬ Scheduler.Ending s' v) : Sent s s' (es.flatMap (sends s')) v := by
  cases h with
  | @suspend now w _ hidle _ hcur =>
    have hrunning : s.running = some w := by simp [Scheduler.running, hidle, hcur]
    have hstopped : ∀ u, (s.suspendWorker w now).running ≠ some u := by
      intro u
      simp [Scheduler.running, Scheduler.suspendWorker_busy]
    by_cases hvw : v = w
    · subst hvw
      -- the worker is not cancelled, so that it has quanta left
      have hhandler : (s.suspendWorker v now).handler = .requeueRemove v := by
        unfold Scheduler.Ending Scheduler.suspendWorker at hending
        unfold Scheduler.suspendWorker
        dsimp only at hending ⊢
        split_ifs at hending ⊢
        · rfl
        · exact absurd (Or.inr rfl) hending
      exact .suspend (by simp [sends, hhandler]) hidle hrunning (hstopped v)
    · refine .none ?_ ⟨fun h => absurd h (hstopped v), fun h => ?_⟩
      · intro x hx
        simp only [sends, List.flatMap_cons, List.flatMap_nil, List.append_nil] at hx
        split_ifs at hx
        · rw [List.mem_singleton.1 hx]
          exact fun hw => hvw hw.symm
        · cases hx
      · rw [hrunning] at h
        exact absurd (Option.some.inj h).symm hvw
  | @resume now w rest hschedule _ _ =>
    have hbefore : ∀ u, s.running ≠ some u := by simp [Scheduler.running, hschedule]
    have hafter : (s.resumeWorker w now).running = some w := by simp [Scheduler.running, Scheduler.resumeWorker]
    by_cases hvw : v = w
    · subst hvw
      exact .resume rfl hschedule (hbefore v) hafter
    · refine .none ?_ ⟨fun h => ?_, fun h => absurd h (hbefore v)⟩
      · intro x hx
        simp only [sends, List.flatMap_cons, List.flatMap_nil, List.append_nil, List.mem_singleton] at hx
        rw [hx]
        exact fun hw => hvw hw.symm
      · rw [hafter] at h
        exact absurd (Option.some.inj h).symm hvw
  | @leave now w hleave => exact .none (by simp [sends]) (by simp [Scheduler.running, hleave])
  | _ => exact .none (by simp) (by simp_all [Scheduler.running])

/-- Signals to other workers. -/
theorem killAll_other {v : Fin n} : ∀ {signals : List (Fin n × Signal)} (workers : Fin n → WorkerSignals),
    (∀ x ∈ signals, x.1 ≠ v) → (killAll workers signals).1 v = workers v ∧
      ∀ signal, lost (killAll workers signals).2 v signal = 0
  | [], _, _ => ⟨rfl, fun _ => rfl⟩
  | (w, signal) :: rest, workers, h => by
    obtain ⟨hw, hrest⟩ := List.forall_mem_cons.1 h
    obtain ⟨hworker, hlost⟩ := killAll_other (Function.update workers w ((workers w).kill signal)) hrest
    refine ⟨hworker.trans (Function.update_of_ne (Ne.symm hw) _ _), fun signal' => ?_⟩
    have hlost := hlost signal'
    simp only [lost, killAll, List.count_append] at hlost ⊢
    rw [hlost]
    split_ifs
    · simp [hw]
    · rfl

theorem lost_append (log merged : List (Fin n × Signal)) (w : Fin n) (signal : Signal) :
    lost (log ++ merged) w signal = lost log w signal + lost merged w signal := List.count_append

theorem killAll_self (workers : Fin n → WorkerSignals) (v : Fin n) (signal : Signal) :
    (killAll workers [(v, signal)]).1 v = (workers v).kill signal ∧
      ∀ signal', lost (killAll workers [(v, signal)]).2 v signal' =
        if signal' = signal then ((workers v).pending signal).toNat else 0 := by
  refine ⟨by simp [killAll], fun signal' => ?_⟩
  by_cases hsignal : signal' = signal
  · cases hp : (workers v).pending signal <;> simp [killAll, lost, hsignal, hp]
  · have hne : (v, signal) ≠ (v, signal') := fun h => hsignal (Prod.mk.inj h).2.symm
    cases hp : (workers v).pending signal <;> simp [killAll, lost, hsignal, hp, hne]

theorem Accounted.stepped {t t' : Threads n} {a : ThreadAction n} {merged log : List (Fin n × Signal)} {v : Fin n}
    (h : Accounted log t v) (hstep : Stepped t a t' merged) : Accounted (log ++ merged) t' v := by
  intro hending
  rw [lost_append, lost_append]
  cases hstep with
  | @scheduler a s' es hm =>
    have hv := h fun he => hending (ending_of_move hm he)
    unfold current at hv ⊢
    cases sent_of_move hm hending with
    | resume hsignals _ hbefore hafter =>
      obtain ⟨hworker, hlost⟩ := killAll_self t.workers v .usr2
      rw [hsignals]
      simp only [hworker, hlost, hafter, if_true, WorkerSignals.calls_kill, WorkerSignals.usr1_kill,
        WorkerSignals.usr2_kill]
      rw [if_neg hbefore] at hv
      cases hp : (t.workers v).usr2 <;> simp [hp, WorkerSignals.pending] at hv ⊢ <;> omega
    | suspend hsignals _ hbefore hafter =>
      obtain ⟨hworker, hlost⟩ := killAll_self t.workers v .usr1
      rw [hsignals]
      simp only [hworker, hlost, if_neg hafter, if_true, WorkerSignals.calls_kill, WorkerSignals.usr1_kill,
        WorkerSignals.usr2_kill]
      rw [if_pos hbefore] at hv
      cases hp : (t.workers v).usr1 <;> simp [hp, WorkerSignals.pending] at hv ⊢ <;> omega
    | none hother hrunning =>
      obtain ⟨hworker, hlost⟩ := killAll_other t.workers hother
      simpa only [hworker, hlost, hrunning, Nat.add_zero] using hv
  | @interrupt w worker hw =>
    have hv := h hending
    obtain ⟨hcalls, hbefore, hafter, hsame⟩ := WorkerSignals.interrupt_eq_some hw
    by_cases hvw : v = w
    · subst hvw
      simp only [current, lost, Function.update_self, hcalls, hafter, hsame, hbefore] at hv ⊢
      simp at hv ⊢
      omega
    · simpa [current, lost, Function.update_of_ne hvw] using hv
  | @sigwait w worker hw =>
    have hv := h hending
    obtain ⟨hcalls, hbefore, hafter, hsame⟩ := WorkerSignals.sigwait_eq_some hw
    by_cases hvw : v = w
    · subst hvw
      simp only [current, lost, Function.update_self, hcalls, hafter, hsame, hbefore] at hv ⊢
      simp at hv ⊢
      omega
    · simpa [current, lost, Function.update_of_ne hvw] using hv

theorem Accounted.initial {queueSize : Nat} {info : Fin n → ThreadInfo} (v : Fin n) :
    Accounted [] (initial queueSize info) v := fun _ => rfl

variable {queueSize : Nat} {info : Fin n → ThreadInfo} {as : List (ThreadAction n)} {t : Threads n}
  {os : List (List (Fin n × Signal))} {w : Fin n}

/-- Any interleaving of the scheduler with its workers, whenever these take their signals: a worker that is not
being cancelled and has no signal pending does its work exactly when it is the one resumed and as many
suspensions as resumptions of it have been lost, or when it is not and one more suspension has been. -/
theorem works_iff (hrun : run step (initial queueSize info) as = .ok (t, os))
    (hending : ¬ Scheduler.Ending t.scheduler w) (hsettled : (t.workers w).Settled) :
    (t.workers w).works = true ↔ t.current w + lost os.flatten w .usr1 = 1 + lost os.flatten w .usr2 := by
  have haccounted : Accounted os.flatten t w := run_log (C := fun _ _ => True) (I := fun log t => Accounted log t w)
    (fun log s x s' es hs _ hx => hs.stepped (stepped_of_step hx)) (Accounted.initial w) (along_true ..) hrun
  have hcalls := haccounted hending
  rw [hsettled.1, hsettled.2] at hcalls
  rw [WorkerSignals.works_iff_calls]
  simp only [Bool.toNat_false] at hcalls
  omega

/-- The second resumption finds the first one pending: the worker has been resumed, has taken all its signals, and
waits. -/
theorem works_iff_lost : ∃ (t : Threads 1) (log : List (Fin 1 × Signal)), t.scheduler.running = some 0 ∧ log = [(0, .usr2)] ∧
    ((t.workers 0).works = true ↔ t.current 0 + lost log 0 .usr1 = 1 + lost log 0 .usr2) := by
  have hrun : ∃ t os, run step (initial 1 fun _ : Fin 1 => ⟨5, ⟨0, 0⟩, ⟨0, 0⟩, 0, 0⟩)
      [.scheduler (.semWait 0), .scheduler (.enter 0), .scheduler .start, .scheduler (.tick ⟨0, 0⟩),
        .scheduler (.handler ⟨0, 0⟩), .scheduler (.tick ⟨0, 0⟩), .interrupt 0, .scheduler (.handler ⟨0, 0⟩),
        .scheduler (.handler ⟨0, 0⟩), .scheduler (.handler ⟨0, 0⟩), .sigwait 0] = .ok (t, os) ∧
      t.scheduler.running = some 0 ∧ t.scheduler.pc 0 = .queued ∧ t.scheduler.handler = .idle ∧
      t.workers 0 = {} ∧ os.flatten = [(0, .usr2)] :=
    ⟨_, _, rfl, rfl, rfl, rfl, rfl, rfl⟩
  obtain ⟨t, os, hrun, hrunning, hpc, hidle, hworker, hlog⟩ := hrun
  refine ⟨t, os.flatten, hrunning, hlog, works_iff hrun ?_ ?_⟩
  · rintro (h | h)
    · rw [hpc] at h
      cases h
    · rw [hidle] at h
      cases h
  · rw [hworker]
    decide

/-! ## Signals taken in time -/

/-- The timer finds all signals taken. -/
def Prompt (t : Threads n) : ThreadAction n → Prop
  | .scheduler (.tick _) => ∀ w, (t.workers w).Settled
  | _ => True

instance (t : Threads n) : DecidablePred t.Prompt
  | .scheduler (.tick _) => inferInstanceAs (Decidable (∀ _, _))
  | .scheduler .start | .scheduler (.handler _) | .scheduler (.semWait _) | .scheduler (.enter _)
  | .scheduler (.semPost _) | .interrupt _ | .sigwait _ => isTrue trivial

/-- No signal has been lost, and while the handler is at work no resumption is pending. -/
structure Lossless (log : List (Fin n × Signal)) (t : Threads n) : Prop where
  nothing : log = []
  quiet : t.scheduler.handler ≠ .idle → ∀ w, (t.workers w).usr2 = false

/-- A handler begins with a timer signal. -/
theorem tick_of_busy {s s' : Scheduler n} {a : Action n} {es : List (Event n)} (h : Scheduler.Move s a s' es)
    (hidle : s.handler = .idle) (hbusy : s'.handler ≠ .idle) : ∃ now, a = .tick now := by
  cases h with
  | tickEmpty | tickFirst | suspend => exact ⟨_, rfl⟩
  | _ => simp_all

/-- A move sends nothing, or `SIGUSR1` when the timer comes, or `SIGUSR2` when the handler is done. -/
theorem signals_of_move {s s' : Scheduler n} {a : Action n} {es : List (Event n)} (h : Scheduler.Move s a s' es) :
    es.flatMap (sends s') = [] ∨ (∃ w now, a = .tick now ∧ es.flatMap (sends s') = [(w, .usr1)]) ∨
      ∃ w, s.handler = .schedule ∧ s'.handler = .idle ∧ es.flatMap (sends s') = [(w, .usr2)] := by
  cases h with
  | @suspend now w _ _ _ _ =>
    by_cases hhandler : (s.suspendWorker w now).handler = .requeueRemove w
    · exact .inr (.inl ⟨w, now, rfl, by simp [sends, hhandler]⟩)
    · exact .inl (by simp [sends, hhandler])
  | @resume now w _ hschedule _ _ => exact .inr (.inr ⟨w, hschedule, rfl, rfl⟩)
  | _ => exact .inl rfl

theorem Lossless.stepped {t t' : Threads n} {a : ThreadAction n} {merged log : List (Fin n × Signal)}
    (h : Lossless log t) (hprompt : t.Prompt a) (hstep : Stepped t a t' merged) : Lossless (log ++ merged) t' := by
  rw [h.nothing, List.nil_append]
  cases hstep with
  | @scheduler a s' es hm =>
    -- a handler at work has found all signals taken, and has resumed nobody yet
    have hbusy : s'.handler ≠ .idle → ∀ v, (t.workers v).usr2 = false := by
      intro hbusy v
      by_cases hidle : t.scheduler.handler = .idle
      · obtain ⟨now, rfl⟩ := tick_of_busy hm hidle hbusy
        exact (hprompt v).2
      · exact h.quiet hidle v
    rcases signals_of_move hm with hnone | ⟨w, now, rfl, hsuspend⟩ | ⟨w, hschedule, hidle, hresume⟩
    · rw [hnone]
      exact ⟨rfl, hbusy⟩
    · rw [hsuspend]
      have hpending : (t.workers w).pending .usr1 = false := (hprompt w).1
      refine ⟨by simp [killAll, hpending], fun hne v => ?_⟩
      by_cases hvw : v = w
      · subst hvw
        simpa [killAll] using hbusy hne v
      · simpa [killAll, Function.update_of_ne hvw] using hbusy hne v
    · rw [hresume]
      have hpending : (t.workers w).pending .usr2 = false := h.quiet (by rw [hschedule]; simp) w
      exact ⟨by simp [killAll, hpending], fun hne => absurd hidle hne⟩
  | @interrupt w worker hw =>
    refine ⟨rfl, fun hne v => ?_⟩
    by_cases hvw : v = w
    · subst hvw
      simpa [(WorkerSignals.interrupt_eq_some hw).2.2.2] using h.quiet hne v
    · simpa [Function.update_of_ne hvw] using h.quiet hne v
  | @sigwait w worker hw =>
    refine ⟨rfl, fun hne v => ?_⟩
    by_cases hvw : v = w
    · subst hvw
      simp [(WorkerSignals.sigwait_eq_some hw).2.2.1]
    · simpa [Function.update_of_ne hvw] using h.quiet hne v

/-- When the timer always finds all signals taken: a worker that does its work, and is not being cancelled, is the
one resumed last, or `SIGUSR1` is on its way to it; and once a worker has taken its signals it does its work
exactly when it is the one resumed last. -/
theorem current_works (hrun : run step (initial queueSize info) as = .ok (t, os))
    (hprompt : Along step Prompt (initial queueSize info) as) (hending : ¬ Scheduler.Ending t.scheduler w) :
    ((t.workers w).works = true → t.scheduler.running = some w ∨ (t.workers w).usr1 = true) ∧
      ((t.workers w).Settled → ((t.workers w).works = true ↔ t.scheduler.running = some w)) := by
  obtain ⟨haccounted, hlossless⟩ : Accounted os.flatten t w ∧ Lossless os.flatten t :=
    run_log (I := fun log t => Accounted log t w ∧ Lossless log t)
      (fun log s x s' es hs hc hx => ⟨hs.1.stepped (stepped_of_step hx), hs.2.stepped hc (stepped_of_step hx)⟩)
      ⟨Accounted.initial w, rfl, fun hne => absurd rfl hne⟩ hprompt hrun
  have hcalls := haccounted hending
  rw [hlossless.nothing] at hcalls
  simp only [lost, List.count_nil, Nat.add_zero, current] at hcalls
  constructor
  · intro hworks
    rw [WorkerSignals.works_iff_calls.1 hworks] at hcalls
    split_ifs at hcalls with hrunning
    · exact .inl hrunning
    · -- it has been told to stop once more than it has stopped
      right
      cases husr1 : (t.workers w).usr1 with
      | true => rfl
      | false =>
        rw [husr1] at hcalls
        simp only [Bool.toNat_false] at hcalls
        omega
  · intro hsettled
    rw [hsettled.1, hsettled.2] at hcalls
    rw [WorkerSignals.works_iff_calls]
    simp only [Bool.toNat_false] at hcalls
    split_ifs at hcalls with hrunning
    · exact iff_of_true (by omega) hrunning
    · exact iff_of_false (by omega) hrunning

/-- Two workers, the second resumed after the first has been suspended. -/
theorem current_works_two_workers : ∃ t : Threads 2, t.scheduler.running = some 1 ∧
    ((t.workers 0).works = true → t.scheduler.running = some 0 ∨ (t.workers 0).usr1 = true) ∧
      ((t.workers 0).Settled → ((t.workers 0).works = true ↔ t.scheduler.running = some 0)) := by
  have hrun : ∃ t os, run step (initial 2 fun _ : Fin 2 => ⟨5, ⟨0, 0⟩, ⟨0, 0⟩, 0, 0⟩)
      [.scheduler (.semWait 0), .scheduler (.enter 0), .scheduler .start, .scheduler (.semWait 1), .scheduler (.enter 1),
        .scheduler (.tick ⟨0, 0⟩), .scheduler (.handler ⟨0, 0⟩), .sigwait 0, .scheduler (.tick ⟨0, 0⟩),
        .scheduler (.handler ⟨0, 0⟩), .interrupt 0, .scheduler (.handler ⟨0, 0⟩), .scheduler (.handler ⟨0, 0⟩),
        .sigwait 1] = .ok (t, os) ∧ t.scheduler.running = some 1 ∧ t.scheduler.pc 0 = .queued ∧ t.scheduler.handler = .idle :=
    ⟨_, _, rfl, rfl, rfl, rfl⟩
  obtain ⟨t, os, hrun, hrunning, hpc, hidle⟩ := hrun
  refine ⟨t, hrunning, current_works hrun (by decide) ?_⟩
  rintro (h | h)
  · rw [hpc] at h
    cases h
  · rw [hidle] at h
    cases h

end Threads

end UnixSysProg.Sched
