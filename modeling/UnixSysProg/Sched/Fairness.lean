/-
Round-robin fairness over every interleaving of arrivals and ticks. A step of the scheduler does one
of four things to the order in which workers are going to be resumed: it leaves it alone, takes its
head, puts the worker it suspends at its end, or lets a worker in at its end, in front of a worker that
is just being moved there. Between two resumes of one worker the others ahead of it therefore only
come to their turn.
-/
import UnixSysProg.Sched.Refinement

namespace UnixSysProg.Sched

open UnixSysProg.Lib

variable {n : Nat}

/-- The worker that a handler run is moving to the tail. -/
def HandlerPc.moving : HandlerPc n → Option (Fin n)
  | requeueRemove w | requeueInsert w => some w
  | _ => none

theorem HandlerPc.moving_eq_some {h : HandlerPc n} {w : Fin n} :
    h.moving = some w ↔ h = .requeueRemove w ∨ h = .requeueInsert w := by
  cases h <;> simp [moving]

namespace Scheduler

/-- The workers in the order in which they are to be resumed: the queue as the run of the handler is
going to leave it, without the worker that is resumed now. -/
def upcoming (s : Scheduler n) : List (Fin n) :=
  match s.running with
  | none => s.settledQueue
  | some w => listRemove s.settledQueue w

variable {s s' : Scheduler n} {a : Action n} {es : List (Event n)} {v w : Fin n}

/-! ## What a step does to the order -/

/-- The four things a step can do to the order of the workers to be resumed. -/
inductive Advance (s : Scheduler n) : Action n → Scheduler n → List (Event n) → Prop
  | keep {a : Action n} {s' : Scheduler n} {es : List (Event n)} : s'.upcoming = s.upcoming → (∀ v, .resuming v ∉ es) →
      s'.handler.moving = none ∨ s'.handler.moving = s.handler.moving → Advance s a s' es
  | resume {a : Action n} {s' : Scheduler n} {v : Fin n} : s.upcoming = v :: s'.upcoming →
      s'.handler.moving = none → Advance s a s' [.resuming v]
  | requeue {a : Action n} {s' : Scheduler n} {v : Fin n} : v ∉ s.upcoming → s'.upcoming = s.upcoming ++ [v] →
      s'.handler.moving = some v → Advance s a s' [.suspending v]
  | enter {s' : Scheduler n} {v : Fin n} : s.handler.moving = none → s'.upcoming = s.upcoming ++ [v] →
      s'.handler.moving = none → Advance s (.enter v) s' []
  | enterBefore {s' : Scheduler n} {v u : Fin n} {front : List (Fin n)} : s.handler.moving = some u →
      s.upcoming = front ++ [u] → s'.upcoming = front ++ [v, u] → s'.handler.moving = some u →
      Advance s (.enter v) s' []

theorem upcoming_of_not_running (hr : s.running = none) : s.upcoming = s.settledQueue := by
  rw [upcoming, hr]

theorem upcoming_of_running {rest : List (Fin n)} (hr : s.running = some w) (hq : s.schedQueue = w :: rest) :
    s.upcoming = rest := by
  have hi : s.handler = .idle := by by_contra hi; simp [running, hi] at hr
  simp [upcoming, hr, settledQueue, hi, hq, listRemove]

/-- A worker that inserts itself is the last to be resumed, but for the one being moved to the tail. -/
theorem advance_enter (hc : Control s) (hh : HeadRuns s) (pc : Fin n → WorkerPc) :
    Advance s (.enter v) { s with pc := pc, schedQueue := listInsertTail s.schedQueue v } [] := by
  cases hm : s.handler.moving with
  | none =>
    refine .enter hm ?_ hm
    cases hr : s.running with
    | none =>
      rw [upcoming_of_not_running hr, upcoming_of_not_running (by exact hr)]
      exact Refines.settledQueue_enter hc fun u hu => by rw [HandlerPc.moving_eq_some.2 hu] at hm; cases hm
    | some w =>
      obtain ⟨rest, hq⟩ := hh w hr
      have hafter : { s with pc := pc, schedQueue := listInsertTail s.schedQueue v }.upcoming = rest ++ [v] :=
        upcoming_of_running (by exact hr) (by dsimp only; rw [hq]; rfl)
      rw [upcoming_of_running hr hq, hafter]
  | some u =>
    rcases HandlerPc.moving_eq_some.1 hm with hu | hu
    · have hmem : u ∈ s.schedQueue :=
        (hc.member u).2 (.inl ⟨hc.moving u (.inl hu), by rw [hu]; simp⟩)
      refine .enterBefore hm (show s.upcoming = listRemove s.schedQueue u ++ [u] from ?_) ?_ hm
      · simp [upcoming, running, hu, settledQueue, listInsertTail]
      · simp [upcoming, running, hu, settledQueue, listInsertTail, listRemove, List.erase_append_left _ hmem]
    · refine .enterBefore hm (show s.upcoming = s.schedQueue ++ [u] from ?_) ?_ hm
      all_goals simp [upcoming, running, hu, settledQueue, listInsertTail]

/-- The tick that suspends the worker resumed puts it at the end, or leaves it to be cancelled. -/
theorem advance_suspend (hc : Control s) (hh : HeadRuns s) (now : Timespec) (hi : s.handler = .idle)
    (hcur : s.currentThread = some w) : Advance s (.tick now) (s.suspendWorker w now) [.suspending w] := by
  have hr : s.running = some w := by rw [running, if_pos hi, hcur]
  obtain ⟨rest, hq⟩ := hh w hr
  have hnodup := hc.nodup
  rw [hq] at hnodup
  have hup := upcoming_of_running hr hq
  have hup' : (s.suspendWorker w now).upcoming = (s.suspendWorker w now).settledQueue :=
    upcoming_of_not_running (if_neg (suspendWorker_busy s w now))
  have hhandler : (s.suspendWorker w now).handler = .requeueRemove w ∨ (s.suspendWorker w now).handler = .cancelSignal w := by
    simp only [suspendWorker]
    split
    · exact .inl rfl
    · exact .inr rfl
  rcases hhandler with hhandler | hhandler
  · refine .requeue ?_ ?_ (by rw [hhandler]; rfl)
    · rw [hup]
      exact (List.nodup_cons.1 hnodup).1
    · rw [hup, hup', settledQueue, hhandler, suspendWorker_schedQueue, hq]
      simp [listInsertTail, listRemove]
  · refine .keep ?_ (by simp) (.inl (by rw [hhandler]; rfl))
    rw [hup, hup', settledQueue, hhandler, suspendWorker_schedQueue, hq]
    simp [listRemove]

theorem advance_of_move (hc : Control s) (hh : HeadRuns s) (hm : Move s a s' es) : Advance s a s' es := by
  cases hm with
  | suspend _ hi _ hcur => exact advance_suspend hc hh _ hi hcur
  | enter _ => exact advance_enter hc hh _
  | @resume now w rest hhandler _ hq =>
    have hup : s.upcoming = w :: rest := by
      rw [upcoming_of_not_running (by simp [running, hhandler]), settledQueue, hhandler]
      exact hq
    have hup' : (s.resumeWorker w now).upcoming = rest := upcoming_of_running (by simp [running, resumeWorker]) hq
    exact .resume (by rw [hup, hup']) rfl
  | waitStart _ _ | arm _ _ | tickEmpty _ _ _ | waitQueue _ _ _ | semWait _ _ | semPost _ =>
    exact .keep rfl (by simp) (.inr rfl)
  | tickFirst _ hi _ hcur =>
    exact .keep (by simp [upcoming, running, settledQueue, hi, hcur]) (by simp) (.inl rfl)
  | remove hhandler =>
    exact .keep (by simp [upcoming, running, settledQueue, hhandler]) (by simp) (.inr (by rw [hhandler]; rfl))
  | insert hhandler | signal hhandler | totals hhandler | leave hhandler | finish hhandler _ =>
    exact .keep (by simp [upcoming, running, settledQueue, hhandler]) (by simp) (.inl rfl)

/-! ## Between two resumes of a worker -/

/-- While `w` waits for its next resume: whoever is ahead of it counts with the resumes it has had
since, and that count stays at `k`. -/
structure Awaits (w v : Fin n) (k : Nat) (log : List (Event n)) (s : Scheduler n) : Prop where
  control : Control s
  headRuns : HeadRuns s
  ahead : ∃ front back, s.upcoming = front ++ w :: back ∧ w ∉ front ∧
    front.count v + log.count (.resuming v) = k

/-- The one step that lets `v` in ahead of `w`. -/
def SlipsIn (w v : Fin n) (s : Scheduler n) (a : Action n) : Prop := a = .enter v ∧ s.handler.moving = some w

theorem Awaits.move {k : Nat} {log : List (Event n)} (h : Awaits w v k log s) (hm : Move s a s' es)
    (hw : .resuming w ∉ es) (hslip : ¬ SlipsIn w v s a) :
    Awaits w v k (log ++ es) s' := by
  obtain ⟨hc, hh, front, back, hup, hfront, hcount⟩ := h
  refine ⟨hc.move hm, hh.move hm, ?_⟩
  cases advance_of_move hc hh hm with
  | keep hkeep hes _ =>
    exact ⟨front, back, hkeep.trans hup, hfront, by rw [List.count_append, List.count_eq_zero.2 (hes v)]; exact hcount⟩
  | @resume _ _ u hres _ =>
    have hne : u ≠ w := by
      rintro rfl
      exact hw (List.mem_singleton_self _)
    rw [hup] at hres
    cases front with
    | nil => exact absurd (List.cons.inj hres).1.symm hne
    | cons x front =>
      obtain ⟨rfl, hrest⟩ := List.cons.inj hres
      refine ⟨front, back, hrest.symm, fun hmem => hfront (List.mem_cons_of_mem _ hmem), ?_⟩
      rw [List.count_cons] at hcount
      rw [List.count_append, List.count_singleton]
      by_cases hx : x = v
      · simp [hx] at hcount ⊢
        omega
      · simp [hx] at hcount ⊢
        omega
  | @requeue _ _ u _ hreq _ =>
    refine ⟨front, back ++ [u], by rw [hreq, hup]; simp, hfront, ?_⟩
    rw [List.count_append]
    simpa using hcount
  | @enter _ u _ hent _ =>
    exact ⟨front, back ++ [u], by rw [hent, hup]; simp, hfront, by simpa using hcount⟩
  | @enterBefore _ u x before hmoving hbefore hent _ =>
    rw [hup] at hbefore
    rcases List.eq_nil_or_concat back with rfl | ⟨back, y, rfl⟩
    · -- `w` itself is being moved, and `u` gets in ahead of it
      obtain ⟨rfl, hx⟩ := List.append_inj' hbefore rfl
      cases hx
      have huv : u ≠ v := fun he => hslip ⟨by rw [he], hmoving⟩
      have huw : u ≠ w := by
        rintro rfl
        cases hm with
        | enter hu =>
          rw [hc.moving u ((HandlerPc.moving_eq_some.1 hmoving).imp_right .inl)] at hu
          cases hu
      refine ⟨front ++ [u], [], by rw [hent]; simp, ?_, ?_⟩
      · simpa [hfront] using huw.symm
      · simpa [List.count_append, List.count_singleton, huv] using hcount
    · have hbefore' : (front ++ w :: back) ++ [y] = before ++ [x] := by simpa using hbefore
      obtain ⟨rfl, hx⟩ := List.append_inj' hbefore' rfl
      cases hx
      exact ⟨front, back ++ [u, x], by rw [hent]; simp, hfront, by simpa using hcount⟩

/-- `w` is not moved to the tail a second time. -/
theorem Awaits.moving {k : Nat} {log : List (Event n)} (h : Awaits w v k log s) (hm : Move s a s' es)
    (hs : s.handler.moving ≠ some w) : s'.handler.moving ≠ some w := by
  obtain ⟨hc, hh, front, back, hup, _, _⟩ := h
  cases advance_of_move hc hh hm with
  | keep _ _ hmov =>
    rcases hmov with hmov | hmov <;> rw [hmov]
    · simp
    · exact hs
  | resume _ hmov => rw [hmov]; simp
  | @requeue _ _ u hu _ hmov =>
    rw [hmov]
    rintro he
    cases he
    exact hu (by rw [hup]; simp)
  | enter _ _ hmov => rw [hmov]; simp
  | enterBefore hmov _ _ hmov' => rw [hmov', ← hmov]; exact hs

/-- The wait goes on over any run that does not resume `w` and in which `v` does not arrive. -/
theorem Awaits.after {k : Nat} {log : List (Event n)} {actions : List (Action n)} {outs : List (List (Event n))}
    (h : Awaits w v k log s) (hv : .enter v ∉ actions) (hrun : run step s actions = .ok (s', outs))
    (hw : .resuming w ∉ outs.flatten) : Awaits w v k (log ++ outs.flatten) s' := by
  have := run_history (P := fun _ outs s => .resuming w ∉ outs.flatten → Awaits w v k (log ++ outs.flatten) s)
    (C := fun _ a => a ≠ .enter v)
    (fun _ outs s a s' es hs ha hstep hw => by
      rw [List.flatten_append, List.flatten_singleton, List.mem_append, not_or] at hw
      rw [List.flatten_append, List.flatten_singleton, ← List.append_assoc]
      exact (hs hw.1).move (move_of_step hstep) hw.2 fun hslip => ha hslip.1)
    (by simpa using h) (along_of_forall fun a ha _ he => hv (by rw [← he]; exact ha)) hrun
  exact this hw

/-- Once `w` is back at the tail the wait goes on whoever arrives. -/
theorem Awaits.after_late {k : Nat} {log : List (Event n)} {actions : List (Action n)} {outs : List (List (Event n))}
    (h : Awaits w v k log s) (hmov : s.handler.moving ≠ some w) (hrun : run step s actions = .ok (s', outs))
    (hw : .resuming w ∉ outs.flatten) : Awaits w v k (log ++ outs.flatten) s' := by
  have := run_history (P := fun _ outs s => .resuming w ∉ outs.flatten →
      Awaits w v k (log ++ outs.flatten) s ∧ s.handler.moving ≠ some w)
    (fun _ outs s a s' es hs _ hstep hw => by
      rw [List.flatten_append, List.flatten_singleton, List.mem_append, not_or] at hw
      rw [List.flatten_append, List.flatten_singleton, ← List.append_assoc]
      obtain ⟨hs, hmov⟩ := hs hw.1
      have hm := move_of_step hstep
      exact ⟨hs.move hm hw.2 fun hslip => hmov hslip.2, hs.moving hm hmov⟩)
    (by simpa using ⟨h, hmov⟩) (along_true _ _ _) hrun
  exact (this hw).1

/-- No one is resumed more often than it was to be. -/
theorem Awaits.count_le {k : Nat} {log : List (Event n)} (h : Awaits w v k log s) : log.count (.resuming v) ≤ k := by
  obtain ⟨_, _, _, _, _, _, hcount⟩ := h
  omega

/-- When `w` is resumed again, the resumes that `v` was to have it has had. -/
theorem Awaits.resumed {k : Nat} {log : List (Event n)} (h : Awaits w v k log s)
    (hm : Move s a s' [.resuming w]) : log.count (.resuming v) = k := by
  obtain ⟨hc, hh, front, back, hup, hfront, hcount⟩ := h
  cases advance_of_move hc hh hm with
  | keep _ hes _ => exact absurd (List.mem_singleton_self _) (hes w)
  | resume hres _ =>
    rw [hup] at hres
    cases front with
    | nil => simpa using hcount
    | cons x front =>
      obtain ⟨rfl, _⟩ := List.cons.inj hres
      exact absurd (List.mem_cons_self ..) hfront

/-! ## Arrivals -/

theorem entered_move (hm : Move s a s' es) (hv : (s.pc v).entered = true) : (s'.pc v).entered = true := by
  cases hm with
  | @signal _ w _ | @semWait w _ _ | @enter w _ | @semPost w _ =>
    by_cases hvw : v = w
    · subst hvw
      simp_all [WorkerPc.entered]
    · simpa [hvw] using hv
  | _ => exact hv

/-- A worker arrives once. -/
theorem not_mem_enter {actions : List (Action n)} {outs : List (List (Event n))} (hv : (s.pc v).entered = true)
    (hrun : run step s actions = .ok (s', outs)) : .enter v ∉ actions ∧ (s'.pc v).entered = true := by
  refine run_history (P := fun pre _ s => .enter v ∉ pre ∧ (s.pc v).entered = true)
    (fun pre _ s a s' es hs _ hstep => ?_) ⟨List.not_mem_nil, hv⟩ (along_true _ _ _) hrun
  have hm := move_of_step hstep
  constructor
  · intro hmem
    rcases List.mem_append.1 hmem with hmem | hmem
    · exact hs.1 hmem
    · cases List.mem_singleton.1 hmem
      cases hm with
      | enter hw =>
        have := hs.2
        rw [hw] at this
        cases this
  · exact entered_move hm hs.2

theorem entered_of_mem_enter {actions : List (Action n)} {outs : List (List (Event n))}
    (hrun : run step s actions = .ok (s', outs)) (hv : .enter v ∈ actions) : (s'.pc v).entered = true := by
  refine run_history (P := fun pre _ s => .enter v ∈ pre → (s.pc v).entered = true)
    (fun pre _ s a s' es hs _ hstep hmem => ?_) (by simp) (along_true _ _ _) hrun hv
  have hm := move_of_step hstep
  rcases List.mem_append.1 hmem with hmem | hmem
  · exact entered_move hm (hs hmem)
  · cases List.mem_singleton.1 hmem
    cases hm with
    | enter _ => simp [WorkerPc.entered]

theorem mem_schedQueue_entered (hc : Control s) (hv : v ∈ s.schedQueue) : (s.pc v).entered = true := by
  rcases (hc.member v).1 hv with ⟨hpc, _⟩ | he
  · rw [hpc]; rfl
  · exact WorkerPc.entered_of_signalled (hc.ending v he)

/-! ## Runs -/

theorem run_headRuns {queueSize : Nat} {info : Fin n → ThreadInfo} {actions : List (Action n)}
    {outs : List (List (Event n))} (h : run step (initial queueSize info) actions = .ok (s, outs)) :
    Control s ∧ HeadRuns s :=
  run_invariant (I := fun s => Control s ∧ HeadRuns s)
    (fun _ _ _ _ hs _ hstep => ⟨hs.1.move (move_of_step hstep), hs.2.move (move_of_step hstep)⟩)
    ⟨Control.initial queueSize info, HeadRuns.initial queueSize info⟩ (along_true _ _ _) h

/-- A worker that is suspended and not cancelled is put at the end, behind all others in the queue. -/
theorem suspended_upcoming {now : Timespec} (hh : HeadRuns s)
    (htick : s.step (.tick now) = .ok (s', [.suspending w])) (hkept : s'.handler = .requeueRemove w) :
    ∃ rest, s.schedQueue = w :: rest ∧ s'.upcoming = rest ++ [w] ∧ s'.pc = s.pc := by
  cases move_of_step htick with
  | suspend _ hi _ hcur =>
    obtain ⟨rest, hq⟩ := hh w (by rw [running, if_pos hi, hcur])
    refine ⟨rest, hq, ?_, rfl⟩
    rw [upcoming_of_not_running (if_neg (suspendWorker_busy s w now)), settledQueue, hkept, suspendWorker_schedQueue, hq]
    simp [listInsertTail, listRemove]

/-- Round-robin fairness: after a worker `w` is suspended and not cancelled, and as long as it is not
resumed, every other worker that was in the queue when it was suspended is resumed at most once, and has
been when `w` is resumed again; and no worker that inserts itself after `w` was put back at the tail is
resumed. -/
theorem round_robin_fair {queueSize : Nat} {info : Fin n → ThreadInfo} {before between : List (Action n)}
    {outs outs' : List (List (Event n))} {s s₁ s₂ : Scheduler n} {now : Timespec} {w : Fin n}
    (hrun : run step (initial queueSize info) before = .ok (s, outs))
    (htick : s.step (.tick now) = .ok (s₁, [.suspending w])) (hkept : s₁.handler = .requeueRemove w)
    (hbetween : run step s₁ between = .ok (s₂, outs')) (hnot : .resuming w ∉ outs'.flatten) :
    (∀ v ∈ s.schedQueue, v ≠ w → outs'.flatten.count (.resuming v) ≤ 1 ∧
      ∀ a s₃, s₂.step a = .ok (s₃, [.resuming w]) → outs'.flatten.count (.resuming v) = 1) ∧
      ∀ front now' back t touts, between = front ++ .handler now' :: back → run step s₁ front = .ok (t, touts) →
        t.handler = .requeueInsert w → ∀ v, .enter v ∈ back → .resuming v ∉ outs'.flatten := by
  obtain ⟨hc, hh⟩ := run_headRuns hrun
  obtain ⟨rest, hq, hup, hpc⟩ := suspended_upcoming hh htick hkept
  have hnodup := hc.nodup
  rw [hq] at hnodup
  obtain ⟨hw, hrest⟩ := List.nodup_cons.1 hnodup
  have hc₁ := hc.move (move_of_step htick)
  have hh₁ := hh.move (move_of_step htick)
  constructor
  · intro v hv hvw
    rw [hq] at hv
    have hmem := (List.mem_cons.1 hv).resolve_left hvw
    have hawaits : Awaits w v 1 [] s₁ :=
      ⟨hc₁, hh₁, rest, [], hup, hw, by rw [List.count_eq_one_of_mem hrest hmem]; rfl⟩
    have hentered := mem_schedQueue_entered hc (hq ▸ hv)
    rw [← hpc] at hentered
    have hlater := hawaits.after (not_mem_enter hentered hbetween).1 hbetween hnot
    rw [List.nil_append] at hlater
    exact ⟨hlater.count_le, fun a s₃ hagain => hlater.resumed (move_of_step hagain)⟩
  · rintro front now' back t touts rfl hfront hinsert v hv
    obtain ⟨t', touts', bouts, hfront', hrest', rfl⟩ := run_append.1 hbetween
    rw [hfront] at hfront'
    cases hfront'
    obtain ⟨t₁, es, bouts', hstep, hback, rfl⟩ := run_cons_ok.1 hrest'
    have hm := move_of_step hstep
    simp only [List.flatten_append, List.flatten_cons, List.mem_append, not_or] at hnot ⊢
    -- `v` arrives in `back`, so it has not arrived before
    have hnot₁ : ¬ (t₁.pc v).entered = true := fun he => (not_mem_enter he hback).1 hv
    have hnot_t : ¬ (t.pc v).entered = true := fun he => hnot₁ (entered_move hm he)
    have hnot_s : ¬ (s₁.pc v).entered = true := fun he => hnot_t (not_mem_enter he hfront).2
    have hv_rest : v ∉ rest := by
      intro hmem
      rw [hpc] at hnot_s
      exact hnot_s (mem_schedQueue_entered hc (by rw [hq]; exact List.mem_cons_of_mem _ hmem))
    have hstart : Awaits w v 0 [] s₁ :=
      ⟨hc₁, hh₁, rest, [], hup, hw, by rw [List.count_eq_zero.2 hv_rest]; rfl⟩
    have hv_front : .enter v ∉ front := fun hmem => hnot_t (entered_of_mem_enter hfront hmem)
    have hback_tail : t₁.handler.moving ≠ some w := by
      cases hm with
      | insert _ => simp [HandlerPc.moving]
      | remove hh | signal hh | totals hh | leave hh | finish hh _ | waitQueue hh _ _ | resume hh _ _ =>
        rw [hinsert] at hh
        cases hh
    have hwait := ((hstart.after hv_front hfront hnot.1).move hm hnot.2.1 (by simp [SlipsIn])).after_late
      hback_tail hback hnot.2.2
    have hcount := Nat.le_zero.1 hwait.count_le
    simpa [List.count_eq_zero, not_or] using hcount

/-- Three workers of two quanta each: the third inserts itself once the first is back at the tail. -/
theorem round_robin_fair_three_workers : ∃ (s : Scheduler 3) (outs' : List (List (Event 3))),
    s.schedQueue = [0, 1] ∧ outs'.flatten = [.resuming 1, .suspending 1] ∧
      outs'.flatten.count (.resuming 1) = 1 ∧ .resuming 2 ∉ outs'.flatten := by
  have hrun : ∃ s outs, run step (initial 3 fun _ : Fin 3 => ⟨2, ⟨0, 0⟩, ⟨0, 0⟩, 0, 0⟩)
      [.semWait 0, .enter 0, .semWait 1, .enter 1, .semWait 2, .start, .tick ⟨0, 0⟩, .handler ⟨0, 0⟩] = .ok (s, outs) ∧
      s.schedQueue = [0, 1] ∧ ∃ s₁, s.step (.tick ⟨0, 0⟩) = .ok (s₁, [.suspending 0]) ∧
        s₁.handler = .requeueRemove 0 ∧ ∃ t touts, run step s₁ [.handler ⟨0, 0⟩] = .ok (t, touts) ∧
          t.handler = .requeueInsert 0 ∧ ∃ s₂ outs', run step s₁ ([.handler ⟨0, 0⟩] ++ .handler ⟨0, 0⟩ ::
              [.enter 2, .handler ⟨0, 0⟩, .tick ⟨0, 0⟩, .handler ⟨0, 0⟩, .handler ⟨0, 0⟩]) = .ok (s₂, outs') ∧
            outs'.flatten = [.resuming 1, .suspending 1] ∧
            ∃ s₃, s₂.step (.handler ⟨0, 0⟩) = .ok (s₃, [.resuming 0]) :=
    ⟨_, _, rfl, rfl, _, rfl, rfl, _, _, rfl, rfl, _, _, rfl, rfl, _, rfl⟩
  obtain ⟨s, outs, hrun, hqueue, s₁, htick, hkept, t, touts, hfront, hinsert, s₂, outs', hbetween, houts, s₃, hagain⟩ := hrun
  have hfair := round_robin_fair hrun htick hkept hbetween (by rw [houts]; decide)
  exact ⟨s, outs', hqueue, houts, (hfair.1 1 (by rw [hqueue]; decide) (by decide)).2 _ s₃ hagain,
    hfair.2 _ _ _ t touts rfl hfront hinsert 2 (by simp)⟩

end Scheduler

end UnixSysProg.Sched
