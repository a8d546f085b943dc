/-
What holds of the scheduler across every interleaving. The queue holds exactly the workers that have
entered and not left, but for the one a handler run is moving to the tail; `completed` counts the
workers that were sent `SIGTERM`; and once the timer is armed a handler run never ends with an empty
queue unless all workers have completed, so that an empty queue at a tick means that all are done.
-/
import UnixSysProg.Sched.Scheduler
import UnixSysProg.Lib.Tally

namespace UnixSysProg.Sched

open UnixSysProg.Lib

variable {n : Nat}

/-- The part of `completed` that a handler run owes: `SIGTERM` is sent before it is counted. -/
def HandlerPc.owes : HandlerPc n → Nat
  | .cancelTotals _ => 1
  | _ => 0

namespace Scheduler

/-! ## Counting workers -/

/-- The number of workers whose program counter passes `p`. -/
def countPc (p : WorkerPc → Bool) (pc : Fin n → WorkerPc) : Nat := (Finset.univ.filter fun w => p (pc w) = true).card

variable {p : WorkerPc → Bool} {f : Fin n → WorkerPc} {w : Fin n} {x : WorkerPc}

/-- The number as a tally. -/
theorem countPc_eq_tally (p : WorkerPc → Bool) (f : Fin n → WorkerPc) : countPc p f = tally (fun y => (p y).toNat) f := by
  rw [countPc, Finset.card_filter]
  exact Finset.sum_congr rfl fun v _ => by dsimp only; cases p (f v) <;> rfl

theorem countPc_le (p : WorkerPc → Bool) (f : Fin n → WorkerPc) : countPc p f ≤ n := by
  rw [countPc_eq_tally]
  exact (tally_le (fun y => Bool.toNat_le (p y)) f).trans_eq (Fintype.card_fin n)

/-- When all pass, every one does. -/
theorem countPc_full (h : n ≤ countPc p f) (w : Fin n) : p (f w) = true := by
  rw [countPc_eq_tally] at h
  exact Bool.toNat_eq_one.1 (tally_full (w := fun y => (p y).toNat) (fun y => Bool.toNat_le (p y)) (by simpa using h) w)

theorem countPc_of_forall (h : ∀ v, p (f v) = true) : countPc p f = n := by
  rw [countPc, Finset.filter_true_of_mem fun v _ => h v, Finset.card_univ, Fintype.card_fin]

theorem countPc_update (p : WorkerPc → Bool) (f : Fin n → WorkerPc) (w : Fin n) (x : WorkerPc) :
    countPc p (Function.update f w x) + (p (f w)).toNat = countPc p f + (p x).toNat := by
  rw [countPc_eq_tally, countPc_eq_tally]
  exact tally_update _ f w x

theorem countPc_update_same (h : p x = p (f w)) : countPc p (Function.update f w x) = countPc p f := by
  have := countPc_update p f w x
  rw [h] at this
  exact Nat.add_right_cancel this

theorem countPc_update_new (h : p (f w) = false) (hx : p x = true) :
    countPc p (Function.update f w x) = countPc p f + 1 := by
  have := countPc_update p f w x
  rwa [h, hx] at this

theorem countPc_update_old (h : p (f w) = true) (hx : p x = false) :
    countPc p (Function.update f w x) + 1 = countPc p f := by
  have := countPc_update p f w x
  rwa [h, hx] at this

theorem countPc_pos (h : p (f w) = true) : 0 < countPc p f := by
  have := le_tally (fun y => (p y).toNat) f w
  rwa [h, ← countPc_eq_tally] at this

theorem countPc_mono {q : WorkerPc → Bool} (h : ∀ x, p x = true → q x = true) : countPc p f ≤ countPc q f := by
  rw [countPc_eq_tally, countPc_eq_tally]
  exact tally_mono fun y => Bool.toNat_le_toNat (h y)

theorem countPc_eq_zero : countPc p f = 0 ↔ ∀ v, p (f v) = false := by
  rw [countPc_eq_tally, tally_eq_zero]
  exact forall_congr' fun v => Bool.toNat_eq_zero

/-- At most one passes, when `w` does. -/
theorem countPc_le_one (h : p (f w) = true) : countPc p f ≤ 1 ↔ ∀ v, p (f v) = true → v = w := by
  rw [countPc_eq_tally, tally_le_one (i := w) (by rw [h]; rfl)]
  refine forall_congr' fun v => ?_
  rw [Bool.toNat_eq_zero, ← Bool.not_eq_true, not_imp_not]

theorem countPc_or {q : WorkerPc → Bool} (h : ∀ x, (p x && q x) = false) :
    countPc (fun x => p x || q x) f = countPc p f + countPc q f := by
  rw [countPc_eq_tally, countPc_eq_tally, countPc_eq_tally, ← tally_add]
  congr 1
  funext y
  have := h y
  cases hp : p y <;> cases hq : q y <;> simp_all

/-! ## The control invariant -/

/-- The part of the state that decides who is where. -/
structure Control (s : Scheduler n) : Prop where
  nodup : s.schedQueue.Nodup
  /-- The queue holds the workers that have entered and not left, less the one being moved. -/
  member : ∀ w, w ∈ s.schedQueue ↔ (s.pc w = .queued ∧ s.handler ≠ .requeueInsert w) ∨
    s.handler = .cancelTotals w ∨ s.handler = .leave w
  moving : ∀ w, s.handler = .requeueRemove w ∨ s.handler = .requeueInsert w ∨ s.handler = .cancelSignal w →
    s.pc w = .queued
  ending : ∀ w, s.handler = .cancelTotals w ∨ s.handler = .leave w → (s.pc w).signalled = true
  current : ∀ w, s.handler = .idle → s.currentThread = some w → s.pc w = .queued
  completed : s.completed + s.handler.owes = countPc WorkerPc.signalled s.pc
  nonempty : s.armed = true → s.handler = .idle → s.completed < n → s.schedQueue ≠ []
  quit : s.quit = true → n ≤ s.completed ∧ s.handler = .idle

namespace Control

variable {s s' : Scheduler n} {a : Action n} {es : List (Event n)}

theorem initial (queueSize : Nat) (info : Fin n → ThreadInfo) : Control (initial queueSize info) := by
  refine ⟨List.nodup_nil, fun w => ?_, fun w h => ?_, fun w h => ?_, fun w _ h => ?_, ?_, fun h => ?_, fun h => ?_⟩
  all_goals simp_all [Scheduler.initial, HandlerPc.owes, countPc, WorkerPc.signalled]

/-- A worker that is being moved is out of the queue. -/
theorem notMem_of_requeueInsert (h : Control s) {w : Fin n} (hh : s.handler = .requeueInsert w) : w ∉ s.schedQueue := by
  intro hmem
  rcases (h.member w).1 hmem with ⟨_, hne⟩ | hc | hc
  · exact hne hh
  · rw [hh] at hc; cases hc
  · rw [hh] at hc; cases hc

/-- A worker that is about to enter is not in the queue yet. -/
theorem notMem_of_entering (h : Control s) {w : Fin n} (hw : s.pc w = .entering) : w ∉ s.schedQueue := by
  intro hmem
  rcases (h.member w).1 hmem with ⟨hq, _⟩ | hc
  · rw [hw] at hq; cases hq
  · have := h.ending w hc
    rw [hw] at this; cases this

theorem nodup_move (h : Control s) (hm : Move s a s' es) : s'.schedQueue.Nodup := by
  cases hm with
  | remove _ => exact h.nodup.erase _
  | leave _ => exact h.nodup.erase _
  | insert hh => exact nodup_listInsertTail h.nodup (h.notMem_of_requeueInsert hh)
  | enter hw => exact nodup_listInsertTail h.nodup (h.notMem_of_entering hw)
  | _ => exact h.nodup

theorem member_move (h : Control s) (hm : Move s a s' es) (v : Fin n) : v ∈ s'.schedQueue ↔
    (s'.pc v = .queued ∧ s'.handler ≠ .requeueInsert v) ∨ s'.handler = .cancelTotals v ∨ s'.handler = .leave v := by
  have hv := h.member v
  have hmov := h.moving v
  have hend := h.ending v
  cases hm with
  | remove hh => rw [mem_listRemove h.nodup]; grind
  | leave hh => rw [mem_listRemove h.nodup]; grind [WorkerPc.signalled]
  | suspend ha hi hq hc => simp only [suspendWorker]; grind
  | resume hh hc hq => simp only [resumeWorker]; grind
  | _ => grind

theorem moving_move (h : Control s) (hm : Move s a s' es) (v : Fin n)
    (hv : s'.handler = .requeueRemove v ∨ s'.handler = .requeueInsert v ∨ s'.handler = .cancelSignal v) :
    s'.pc v = .queued := by
  have hmov := h.moving v
  have hcur := h.current v
  cases hm with
  | suspend ha hi hq hc => simp only [suspendWorker] at hv ⊢; grind
  | resume hh hc hq => simp [resumeWorker] at hv
  | _ => grind

theorem ending_move (h : Control s) (hm : Move s a s' es) (v : Fin n)
    (hv : s'.handler = .cancelTotals v ∨ s'.handler = .leave v) : (s'.pc v).signalled = true := by
  have hend := h.ending v
  cases hm with
  | suspend ha hi hq hc => simp only [suspendWorker] at hv ⊢; grind
  | resume hh hc hq => simp [resumeWorker] at hv
  | _ => grind [WorkerPc.signalled]

theorem current_move (h : Control s) (hm : Move s a s' es) (v : Fin n) (hi' : s'.handler = .idle)
    (hv : s'.currentThread = some v) : s'.pc v = .queued := by
  have hcur := h.current v
  cases hm with
  | suspend ha hi hq hc => simp only [suspendWorker] at hi' ; grind
  | @resume _ w rest hh hc hq =>
    -- the head of the queue has entered, and no cancellation is going on
    cases hv
    have hmem : v ∈ s.schedQueue := by rw [hq]; exact List.mem_cons_self ..
    rcases (h.member v).1 hmem with ⟨hpc, _⟩ | hc | hc
    · exact hpc
    · rw [hh] at hc; cases hc
    · rw [hh] at hc; cases hc
  | _ => grind

/-- `completed` follows the signals sent, one step behind. -/
theorem completed_move (h : Control s) (hm : Move s a s' es) :
    s'.completed + s'.handler.owes = countPc WorkerPc.signalled s'.pc := by
  have hc := h.completed
  cases hm with
  | @signal _ w hh =>
    have hw := h.moving w (.inr (.inr hh))
    rw [countPc_update_new (by rw [hw]; rfl) rfl, ← hc, hh]
    rfl
  | totals hh => rw [← hc, hh]; rfl
  | suspend ha hi hq _ =>
    rw [hi] at hc
    simp only [suspendWorker]
    split <;> exact hc
  | resume hh _ _ => rw [hh] at hc; exact hc
  | semWait hw hs => rw [countPc_update_same (by rw [hw]; rfl)]; exact hc
  | enter hw => rw [countPc_update_same (by rw [hw]; rfl)]; exact hc
  | semPost hw => rw [countPc_update_same (by rw [hw]; rfl)]; exact hc
  | _ => grind [HandlerPc.owes]

/-- A handler run ends with a worker in the queue, unless all have completed. -/
theorem nonempty_move (h : Control s) (hm : Move s a s' es) (ha' : s'.armed = true) (hi' : s'.handler = .idle)
    (hlt : s'.completed < n) : s'.schedQueue ≠ [] := by
  have hne := h.nonempty
  cases hm with
  | arm _ hq => exact hq
  | suspend ha hi hq _ => exact hq
  | resume hh hc hq => intro he; rw [show s.schedQueue = [] from he] at hq; cases hq
  | finish _ hc => exact absurd hlt (not_lt.2 hc)
  | enter _ => exact listInsertTail_ne_nil _ _
  | _ => grind

theorem all_signalled (h : Control s) (hdone : n ≤ s.completed) (w : Fin n) : (s.pc w).signalled = true :=
  countPc_full ((Nat.le_add_right_of_le hdone).trans_eq h.completed) w

/-- When all have completed, no one is left in the queue. -/
theorem empty (h : Control s) (hdone : n ≤ s.completed) (hi : s.handler = .idle) : s.schedQueue = [] := by
  refine List.eq_nil_iff_forall_not_mem.2 fun w hw => ?_
  have hsig := h.all_signalled hdone w
  rcases (h.member w).1 hw with ⟨hpc, _⟩ | hc | hc
  · rw [hpc] at hsig; cases hsig
  · rw [hi] at hc; cases hc
  · rw [hi] at hc; cases hc

theorem quit_move (h : Control s) (hm : Move s a s' es) (hq' : s'.quit = true) :
    n ≤ s'.completed ∧ s'.handler = .idle := by
  have hquit := h.quit
  have hemp := h.empty
  cases hm with
  | tickEmpty ha hi hq =>
    -- an empty queue at a tick
    refine ⟨?_, hi⟩
    by_contra hlt
    exact h.nonempty ha hi (not_le.1 hlt) hq
  | finish _ hc => exact ⟨hc, rfl⟩
  | suspend _ _ hq _ => exact absurd (hemp (hquit hq').1 (hquit hq').2) hq
  | resume hh _ _ => have := (hquit hq').2; rw [hh] at this; cases this
  | _ => grind

theorem move (h : Control s) (hm : Move s a s' es) : Control s' :=
  ⟨h.nodup_move hm, h.member_move hm, h.moving_move hm, h.ending_move hm, h.current_move hm, h.completed_move hm,
    h.nonempty_move hm, h.quit_move hm⟩

end Control

/-! ## The semaphore -/

/-- Places in the queue: the free ones and those of the workers past `sem_wait` are the `queueSize` at
first and those the exited workers gave back. -/
def Places (queueSize : Nat) (s : Scheduler n) : Prop :=
  s.queueSem + countPc (· == .entering) s.pc + countPc WorkerPc.entered s.pc =
    queueSize + countPc (· == .exited) s.pc

namespace Places

variable {s s' : Scheduler n} {a : Action n} {es : List (Event n)} {queueSize : Nat}

theorem initial (info : Fin n → ThreadInfo) : Places queueSize (initial queueSize info) := by
  simp [Places, Scheduler.initial, countPc, WorkerPc.entered]

theorem move (h : Places queueSize s) (hm : Move s a s' es) (hc : Control s) : Places queueSize s' := by
  unfold Places at *
  cases hm with
  | @signal _ w hh =>
    have hw := hc.moving w (.inr (.inr hh))
    rw [countPc_update_same (by rw [hw]; rfl), countPc_update_same (by rw [hw]; rfl),
      countPc_update_same (by rw [hw]; rfl)]
    exact h
  | @semWait w hw hs =>
    have hnew := countPc_update_new (p := (· == .entering)) (f := s.pc) (x := .entering) (by rw [hw]; rfl) rfl
    have hin := countPc_update_same (p := WorkerPc.entered) (f := s.pc) (x := .entering) (by rw [hw]; rfl)
    have hout := countPc_update_same (p := (· == .exited)) (f := s.pc) (x := .entering) (by rw [hw]; rfl)
    dsimp only
    omega
  | @enter w hw =>
    have hold := countPc_update_old (p := (· == .entering)) (f := s.pc) (x := .queued) (by rw [hw]; rfl) rfl
    have hnew := countPc_update_new (p := WorkerPc.entered) (f := s.pc) (x := .queued) (by rw [hw]; rfl) rfl
    have hout := countPc_update_same (p := (· == .exited)) (f := s.pc) (x := .queued) (by rw [hw]; rfl)
    dsimp only
    omega
  | @semPost w hw =>
    have hold := countPc_update_same (p := (· == .entering)) (f := s.pc) (x := .exited) (by rw [hw]; rfl)
    have hin := countPc_update_same (p := WorkerPc.entered) (f := s.pc) (x := .exited) (by rw [hw]; rfl)
    have hnew := countPc_update_new (p := (· == .exited)) (f := s.pc) (x := .exited) (by rw [hw]; rfl) rfl
    dsimp only
    omega
  | _ => exact h

/-- A worker past `sem_wait` has a place that no one before it has taken for good. -/
theorem entered_lt (h : Places queueSize s) {w : Fin n} (hw : s.pc w = .entering) :
    countPc WorkerPc.entered s.pc < queueSize + countPc WorkerPc.signalled s.pc := by
  have hpos := countPc_pos (p := (· == .entering)) (f := s.pc) (w := w) (by rw [hw]; rfl)
  have hmono := countPc_mono (p := (· == .exited)) (q := WorkerPc.signalled) (f := s.pc)
    (fun x hx => by cases x <;> simp_all [WorkerPc.signalled])
  unfold Places at h
  omega

end Places

end Scheduler

end UnixSysProg.Sched
