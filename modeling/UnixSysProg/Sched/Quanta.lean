/-
Every worker gets its quanta. The log of what the handler reports alternates between resuming and
suspending one and the same worker; a suspension takes one quantum off the worker, and the worker is
cancelled at the suspension that takes the last one. So, across every interleaving, a worker leaves
once, after exactly as many resumes as it was given quanta, and the scheduler quits only when all have
left.
-/
import UnixSysProg.Sched.Invariant
import UnixSysProg.Lib.Run
import Mathlib.Data.List.Count

namespace UnixSysProg.Sched

open UnixSysProg.Lib

namespace Scheduler

variable {n : Nat}

/-! ## Logs -/

/-- One event of a log whose resumes and suspends alternate on the same worker: the worker now
resumed, if any; no result if the event breaks the alternation. -/
def turnStep : Option (Option (Fin n)) → Event n → Option (Option (Fin n))
  | turn, .leaving _ => turn
  | some none, .resuming w => some (some w)
  | some (some w), .suspending v => if v = w then some none else none
  | _, _ => none

def turn (log : List (Event n)) : Option (Option (Fin n)) := log.foldl turnStep (some none)

/-- Resumes and suspends strictly alternate on the same worker. -/
def Alternating (log : List (Event n)) : Prop := turn log ≠ none

@[simp] theorem turn_concat (log : List (Event n)) (e : Event n) : turn (log ++ [e]) = turnStep (turn log) e := by
  simp [turn]

/-- In an alternating log a worker is resumed as often as it is suspended, and once more if it is the
one now resumed. -/
theorem count_resuming {log : List (Event n)} : ∀ {cur : Option (Fin n)}, turn log = some cur → ∀ w,
    log.count (.resuming w) = log.count (.suspending w) + if cur = some w then 1 else 0 := by
  induction log using List.reverseRecOn with
  | nil => intro cur h w; cases h; simp
  | append_singleton log e ih =>
    intro cur h w
    rw [turn_concat] at h
    rw [List.count_append, List.count_append]
    cases hprev : turn log with
    | none => rw [hprev] at h; cases e <;> cases h
    | some prev =>
      have hw := ih hprev w
      rw [hprev] at h
      cases e with
      | leaving v => cases h; simp [hw]
      | resuming v =>
        cases prev with
        | some u => cases h
        | none => cases h; simp [hw, List.count_singleton, Option.some.injEq]
      | suspending v =>
        cases prev with
        | none => cases h
        | some u =>
          simp only [turnStep] at h
          split at h
          · cases h
            rename_i hv
            subst hv
            rw [hw]
            by_cases hwv : v = w <;> simp [hwv]
          · cases h

/-- An element of a list grown by one is the new one, or was there before. -/
theorem split_concat {α : Type} {log pre post : List α} {e x : α} (h : log ++ [e] = pre ++ x :: post) :
    (post = [] ∧ pre = log ∧ x = e) ∨ ∃ post', post = post' ++ [e] ∧ log = pre ++ x :: post' := by
  rcases List.eq_nil_or_concat post with rfl | ⟨post', y, rfl⟩
  · obtain ⟨h1, h2⟩ := List.append_inj' h rfl
    cases h2
    exact .inl ⟨rfl, h1.symm, rfl⟩
  · have h' : log ++ [e] = (pre ++ x :: post') ++ [y] := by simpa using h
    obtain ⟨h1, h2⟩ := List.append_inj' h' rfl
    cases h2
    exact .inr ⟨post', by simp, h1⟩

/-! ## The log of a run -/

/-- The worker that is resumed: none while the handler is at work. -/
def running (s : Scheduler n) : Option (Fin n) := if s.handler = .idle then s.currentThread else none

/-- The worker that is resumed is at the head of the queue. -/
def HeadRuns (s : Scheduler n) : Prop := ∀ w, s.running = some w → ∃ rest, s.schedQueue = w :: rest

/-- The worker is being cancelled or has been. -/
def Ending (s : Scheduler n) (w : Fin n) : Prop := (s.pc w).signalled = true ∨ s.handler = .cancelSignal w

/-- The worker has left the queue for good. -/
def Gone (s : Scheduler n) (w : Fin n) : Prop :=
  (s.pc w).signalled = true ∧ s.handler ≠ .cancelTotals w ∧ s.handler ≠ .leave w

instance (s : Scheduler n) (w : Fin n) : Decidable (s.Gone w) := inferInstanceAs (Decidable (_ ∧ _ ∧ _))

/-- The log of a run from `quanta`, and what it says of the state reached. -/
structure Logged (quanta : Fin n → Int32) (log : List (Event n)) (s : Scheduler n) : Prop where
  turn : turn log = some s.running
  left : ∀ w, log.count (.leaving w) = if s.Gone w then 1 else 0
  remaining : ∀ w, (s.info w).quanta.toInt + log.count (.suspending w) = (quanta w).toInt
  positive : ∀ w, ¬ s.Ending w → 1 ≤ (s.info w).quanta.toInt
  spent : ∀ w, s.Ending w → (s.info w).quanta.toInt = 0
  /-- A worker leaves after all its resumes. -/
  served : ∀ pre post w, log = pre ++ .leaving w :: post →
    (pre.count (.resuming w) : Int) = (quanta w).toInt ∧ .resuming w ∉ post

theorem HeadRuns.initial (queueSize : Nat) (info : Fin n → ThreadInfo) : HeadRuns (initial queueSize info) := by
  intro w h
  cases h

theorem HeadRuns.move {s s' : Scheduler n} {a : Action n} {es : List (Event n)} (h : HeadRuns s)
    (hm : Move s a s' es) : HeadRuns s' := by
  intro v hv
  have hh := h v
  unfold running at hv hh
  cases hm with
  | suspend ha hi _ _ =>
    rw [if_neg (suspendWorker_busy s _ _)] at hv
    cases hv
  | resume _ _ hq => cases hv; exact ⟨_, hq⟩
  | enter _ =>
    obtain ⟨rest, hq⟩ := hh hv
    exact ⟨rest ++ [_], by rw [hq]; rfl⟩
  | _ => grind

namespace Logged

variable {s s' : Scheduler n} {a : Action n} {es log : List (Event n)} {quanta : Fin n → Int32}

theorem initial {queueSize : Nat} {info : Fin n → ThreadInfo} (hq : ∀ w, 1 ≤ (info w).quanta.toInt) :
    Logged (fun w => (info w).quanta) [] (initial queueSize info) := by
  refine ⟨rfl, ?_, fun w => by simp [Scheduler.initial], fun w _ => hq w, ?_, ?_⟩
  · intro w
    simp [Scheduler.initial, Gone, WorkerPc.signalled]
  · intro w hw
    simp [Scheduler.initial, Ending, WorkerPc.signalled] at hw
  · intro pre post w h
    simp at h

theorem silent (h : Logged quanta log s) (hr : s'.running = s.running) (hi : s'.info = s.info)
    (he : ∀ w, s'.Ending w ↔ s.Ending w) (hg : ∀ w, s'.Gone w ↔ s.Gone w) : Logged quanta (log ++ []) s' := by
  rw [List.append_nil]
  refine ⟨by rw [hr]; exact h.turn, ?_, fun w => by rw [hi]; exact h.remaining w, ?_,
    ?_, h.served⟩
  · intro w
    rw [h.left]; simp only [hg]
  · intro w hw
    rw [hi]; exact h.positive w (mt (he w).2 hw)
  · intro w hw
    rw [hi]; exact h.spent w ((he w).1 hw)

/-- An event more: a leaving worker has had its resumes, a resumed one has not left. -/
theorem served_concat (h : Logged quanta log s) {e : Event n}
    (hleave : ∀ w, e = .leaving w → (log.count (.resuming w) : Int) = (quanta w).toInt)
    (hresume : ∀ w, e = .resuming w → .leaving w ∉ log) {pre post : List (Event n)} {w : Fin n}
    (he : log ++ [e] = pre ++ .leaving w :: post) :
    (pre.count (.resuming w) : Int) = (quanta w).toInt ∧ .resuming w ∉ post := by
  rcases split_concat he with ⟨rfl, rfl, hx⟩ | ⟨post', rfl, hlog⟩
  · exact ⟨hleave w hx.symm, List.not_mem_nil⟩
  · obtain ⟨hcount, hnot⟩ := h.served pre post' w hlog
    refine ⟨hcount, fun hmem => ?_⟩
    rcases List.mem_append.1 hmem with hmem | hmem
    · exact hnot hmem
    · exact hresume w (List.mem_singleton.1 hmem).symm (by rw [hlog]; simp)

/-- The run's current worker is suspended: a quantum less, and cancelled if it was the last. -/
theorem suspend (h : Logged quanta log s) (hc : Control s) {w : Fin n} {now : Timespec} (hi : s.handler = .idle)
    (hcur : s.currentThread = some w) : Logged quanta (log ++ [.suspending w]) (s.suspendWorker w now) := by
  have hpc := hc.current w hi hcur
  have hrun : s.running = some w := by simp [running, hi, hcur]
  have hpos := h.positive w (by simp [Ending, hpc, hi, WorkerPc.signalled])
  have hself := suspendWorker_quanta hpos now
  have hh := suspendWorker_handler hpos now
  -- a worker begins to end at the suspension that takes its last quantum
  have hend : ∀ v, (s.suspendWorker w now).Ending v ↔ s.Ending v ∨ (v = w ∧ (s.info w).quanta.toInt = 1) :=
    fun v => by
      simp only [Ending, hh, suspendWorker_pc, hi]
      grind
  refine ⟨?_, ?_, ?_, ?_, ?_, ?_⟩
  · have hnone : (s.suspendWorker w now).running = none := if_neg (suspendWorker_busy s w now)
    rw [turn_concat, h.turn, hrun, hnone]
    simp [turnStep]
  · intro v
    have hgone : (s.suspendWorker w now).Gone v ↔ s.Gone v := by
      simp only [Gone, hh, suspendWorker_pc, hi]
      grind
    rw [List.count_append, h.left]
    simp [hgone]
  · intro v
    rw [List.count_append]
    have hr := h.remaining v
    by_cases hv : v = w
    · subst hv; rw [hself]; simp; omega
    · rw [suspendWorker_other s hv]; simp [Ne.symm hv]; exact hr
  · intro v hv
    rw [hend, not_or] at hv
    by_cases hvw : v = w
    · subst hvw; rw [hself]; have := hv.2; omega
    · rw [suspendWorker_other s hvw]; exact h.positive v hv.1
  · intro v hv
    by_cases hvw : v = w
    · subst hvw
      rw [hself]
      rcases (hend v).1 hv with hold | ⟨_, hz⟩
      · have := h.spent v hold; omega
      · omega
    · rw [suspendWorker_other s hvw]
      exact h.spent v (((hend v).1 hv).resolve_right fun h' => hvw h'.1)
  · intro pre post v he
    exact h.served_concat (by simp) (by simp) he

theorem leave (h : Logged quanta log s) (hc : Control s) {w : Fin n} (hh : s.handler = .leave w) :
    Logged quanta (log ++ [.leaving w]) { s with schedQueue := listRemove s.schedQueue w, handler := .schedule } := by
  have hsig := hc.ending w (.inr hh)
  have hrun : s.running = none := by simp [running, hh]
  have hgone : ∀ v, Gone { s with schedQueue := listRemove s.schedQueue w, handler := .schedule } v ↔ s.Gone v ∨ v = w :=
    fun v => by simp only [Gone, hh]; grind
  have hnot : ¬ s.Gone w := fun hg => hg.2.2 hh
  refine ⟨?_, ?_, ?_, fun v hv => h.positive v fun he => hv ?_, fun v hv => h.spent v ?_,
    fun pre post v he => h.served_concat (fun v hv => ?_) (by simp) he⟩
  · rw [turn_concat, h.turn, hrun]; rfl
  · intro v
    rw [List.count_append, h.left]
    by_cases hv : v = w
    · subst hv; simp [hnot, hgone]
    · simp [hgone, hv, Ne.symm hv]
  · intro v
    rw [List.count_append]
    have := h.remaining v
    simpa using this
  · exact he.imp_right fun hs => by rw [hh] at hs; cases hs
  · exact hv.imp_right fun hs => by cases hs
  · cases hv
    have hcount := count_resuming h.turn w
    have hrem := h.remaining w
    rw [h.spent w (.inl hsig)] at hrem
    rw [hrun] at hcount
    simp at hcount
    omega

theorem resume (h : Logged quanta log s) (hc : Control s) {w : Fin n} {now : Timespec} (hh : s.handler = .schedule)
    (hw : w ∈ s.schedQueue) : Logged quanta (log ++ [.resuming w]) (s.resumeWorker w now) := by
  have hpc : s.pc w = .queued := by
    rcases (hc.member w).1 hw with ⟨hpc, _⟩ | he | he
    · exact hpc
    · rw [hh] at he; cases he
    · rw [hh] at he; cases he
  have hrun : s.running = none := by simp [running, hh]
  have hend : ∀ v, (s.resumeWorker w now).Ending v ↔ s.Ending v := fun v => by simp [Ending, resumeWorker, hh]
  have hgone : ∀ v, (s.resumeWorker w now).Gone v ↔ s.Gone v := fun v => by simp [Gone, resumeWorker, hh]
  refine ⟨?_, ?_, ?_, ?_, ?_,
    fun pre post v he => h.served_concat (by simp) (fun v hv => ?_) he⟩
  · rw [turn_concat, h.turn, hrun]; rfl
  · intro v
    rw [List.count_append, h.left]
    simp [hgone]
  · intro v
    rw [List.count_append, resumeWorker_quanta]
    have := h.remaining v
    simpa using this
  · intro v hv
    rw [resumeWorker_quanta]; exact h.positive v (mt (hend v).2 hv)
  · intro v hv
    rw [resumeWorker_quanta]; exact h.spent v ((hend v).1 hv)
  · cases hv
    have hl := h.left w
    rw [if_neg (by simp [Gone, hpc, WorkerPc.signalled])] at hl
    exact List.count_eq_zero.1 hl

theorem move (h : Logged quanta log s) (hc : Control s) (hm : Move s a s' es) : Logged quanta (log ++ es) s' := by
  cases hm with
  | suspend ha hi hq hcur => exact h.suspend hc hi hcur
  | leave hh => exact h.leave hc hh
  | @resume _ w rest hh _ hq => exact h.resume hc hh (by rw [hq]; exact List.mem_cons_self ..)
  | _ =>
    refine h.silent ?_ rfl (fun v => ?_) (fun v => ?_)
    all_goals simp only [running, Ending, Gone]
    all_goals grind [WorkerPc.signalled, hc.moving]

end Logged

/-! ## Runs -/

theorem run_logged {queueSize : Nat} {info : Fin n → ThreadInfo} (hq : ∀ w, 1 ≤ (info w).quanta.toInt)
    {actions : List (Action n)} {s : Scheduler n} {outs : List (List (Event n))}
    (h : run step (initial queueSize info) actions = .ok (s, outs)) :
    Control s ∧ Logged (fun w => (info w).quanta) outs.flatten s := by
  refine run_log (I := fun log s => Control s ∧ Logged (fun w => (info w).quanta) log s)
    (fun log s a s' es ⟨hc, hl⟩ _ hstep => ?_) ⟨Control.initial queueSize info, Logged.initial hq⟩
    (along_true _ _ _) h
  have hm := move_of_step hstep
  exact ⟨hc.move hm, hl.move hc hm⟩

/-- What the log of a run from `quanta` says in the state `s` reached. -/
structure QuantaServed (quanta : Fin n → Int32) (log : List (Event n)) (s : Scheduler n) : Prop where
  alternating : Alternating log
  once : ∀ w, log.count (.leaving w) ≤ 1
  /-- A worker has its quanta behind it when it leaves, and is not resumed again. -/
  exact : ∀ pre post w, log = pre ++ .leaving w :: post →
    (pre.count (.resuming w) : Int) = (quanta w).toInt ∧ .resuming w ∉ post
  quit : s.quit = true → ∀ w, .leaving w ∈ log

/-- For any number of workers and queue size and all quanta at least 1, across every interleaving of
arrivals, cancelled workers and handler runs: resumes and suspends alternate on the same worker, every
worker is cancelled at most once and after exactly its quanta of resumes, and the scheduler has not
quit before all are cancelled. -/
theorem quanta_served {queueSize : Nat} {info : Fin n → ThreadInfo} (hq : ∀ w, 1 ≤ (info w).quanta.toInt)
    {actions : List (Action n)} {s : Scheduler n} {outs : List (List (Event n))}
    (h : run step (initial queueSize info) actions = .ok (s, outs)) :
    QuantaServed (fun w => (info w).quanta) outs.flatten s := by
  obtain ⟨hc, hl⟩ := run_logged hq h
  refine ⟨by simp [Alternating, hl.turn], ?_, hl.served, ?_⟩
  · intro w
    rw [hl.left]; split <;> omega
  · intro hquit w
    obtain ⟨hdone, hi⟩ := hc.quit hquit
    have hsig := hc.all_signalled hdone w
    have hleft := hl.left w
    rw [if_pos ⟨hsig, by rw [hi]; simp, by rw [hi]; simp⟩] at hleft
    exact List.count_pos_iff.1 (by omega)

theorem quanta_served_two_workers : ∃ s : Scheduler 2, s.quit = true ∧ QuantaServed (fun _ => 1)
    [.resuming 0, .suspending 0, .leaving 0, .resuming 1, .suspending 1, .leaving 1] s := by
  have hrun : ∃ s outs, run step (initial 1 fun _ : Fin 2 => ⟨1, ⟨0, 0⟩, ⟨0, 0⟩, 0, 0⟩)
      [.semWait 0, .enter 0, .start, .tick ⟨0, 0⟩, .handler ⟨0, 0⟩, .tick ⟨0, 0⟩, .handler ⟨0, 0⟩, .semPost 0,
        .semWait 1, .handler ⟨0, 0⟩, .enter 1, .handler ⟨0, 0⟩, .handler ⟨0, 0⟩, .tick ⟨0, 0⟩, .handler ⟨0, 0⟩,
        .handler ⟨0, 0⟩, .handler ⟨0, 0⟩, .handler ⟨0, 0⟩] = .ok (s, outs) ∧ s.quit = true ∧
      outs.flatten = [.resuming 0, .suspending 0, .leaving 0, .resuming 1, .suspending 1, .leaving 1] :=
    ⟨_, _, rfl, rfl, rfl⟩
  obtain ⟨s, outs, hrun, hquit, houts⟩ := hrun
  exact ⟨s, hquit, houts ▸ quanta_served (fun _ => by decide) hrun⟩

end Scheduler

end UnixSysProg.Sched
