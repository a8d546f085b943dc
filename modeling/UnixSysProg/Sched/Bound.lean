/-
The number of elements in the queue against `queue_size`. A place is given back by the cancelled worker
itself, when `SIGTERM` reaches it, and the element is removed by `cancel_worker` later on; in between
the list holds an element whose place is free again. The semaphore bounds the workers that are in the
queue and alive, and the list is one longer exactly when that place has been used before the removal.
-/
import UnixSysProg.Sched.Invariant
import UnixSysProg.Lib.Run

namespace UnixSysProg.Sched

open UnixSysProg.Lib

variable {n : Nat}

/-- The element that a handler run has taken out and is going to insert again. -/
def HandlerPc.held : HandlerPc n → Nat
  | requeueInsert _ => 1
  | _ => 0

/-- The element of a worker that was sent `SIGTERM` and is not removed yet. -/
def HandlerPc.lingering : HandlerPc n → Nat
  | cancelTotals _ | leave _ => 1
  | _ => 0

theorem HandlerPc.lingering_pos {h : HandlerPc n} :
    0 < h.lingering ↔ ∃ v, h = .cancelTotals v ∨ h = .leave v := by
  cases h <;> simp [lingering]

namespace Scheduler

variable {s s' : Scheduler n} {a : Action n} {es : List (Event n)} {queueSize : Nat}

/-! ## The length of the queue -/

/-- The list has an element for every worker in the queue, and the lingering one. -/
def Elements (s : Scheduler n) : Prop :=
  s.schedQueue.length + s.handler.held = countPc (· == .queued) s.pc + s.handler.lingering

theorem Elements.initial (info : Fin n → ThreadInfo) : Elements (initial queueSize info) := by
  simp [Elements, Scheduler.initial, countPc, HandlerPc.held, HandlerPc.lingering]

theorem Elements.move (h : Elements s) (hc : Control s) (hm : Move s a s' es) : Elements s' := by
  have hlen : ∀ w, w ∈ s.schedQueue → (listRemove s.schedQueue w).length + 1 = s.schedQueue.length := fun w hw => by
    have := List.length_pos_of_mem hw
    rw [listRemove, List.length_erase_of_mem hw]
    omega
  unfold Elements at *
  cases hm with
  | @suspend now w ha hi _ _ =>
    have hhandler : (s.suspendWorker w now).handler.held = 0 ∧ (s.suspendWorker w now).handler.lingering = 0 := by
      simp only [suspendWorker]
      split <;> exact ⟨rfl, rfl⟩
    rw [hhandler.1, hhandler.2, suspendWorker_schedQueue, suspendWorker_pc]
    rw [hi] at h
    exact h
  | @remove _ w hh =>
    have := hlen w ((hc.member w).2 (.inl ⟨hc.moving w (.inl hh), by rw [hh]; simp⟩))
    simp [hh, HandlerPc.held, HandlerPc.lingering] at h ⊢
    omega
  | @insert _ w hh =>
    simp [hh, HandlerPc.held, HandlerPc.lingering, listInsertTail] at h ⊢
    omega
  | @signal _ w hh =>
    have hold := countPc_update_old (p := (· == .queued)) (f := s.pc) (x := .terminating)
      (by rw [hc.moving w (.inr (.inr hh))]; rfl) rfl
    simp [hh, HandlerPc.held, HandlerPc.lingering] at h ⊢
    omega
  | @leave _ w hh =>
    have := hlen w ((hc.member w).2 (.inr (.inr hh)))
    simp [hh, HandlerPc.held, HandlerPc.lingering] at h ⊢
    omega
  | @enter w hw =>
    have hnew := countPc_update_new (p := (· == .queued)) (f := s.pc) (x := .queued) (by rw [hw]; rfl) rfl
    simp [listInsertTail] at h ⊢
    omega
  | @semWait w hw _ | @semPost w hw =>
    rw [countPc_update_same (by rw [hw]; rfl)]
    exact h
  | resume hh _ _ =>
    rw [hh] at h
    exact h
  | tickFirst _ hi _ _ | finish hh _ | totals hh =>
    simp_all [HandlerPc.held, HandlerPc.lingering]
  | waitStart _ _ | arm _ _ | tickEmpty _ _ _ | waitQueue _ _ _ => exact h

/-- A place in the queue is free, about to be used, used by a worker that is alive, or not given back yet. -/
theorem Places.alive (h : Places queueSize s) : s.queueSem + countPc (· == .entering) s.pc +
    countPc (· == .queued) s.pc + countPc (· == .terminating) s.pc = queueSize := by
  have hentered : countPc WorkerPc.entered s.pc =
      countPc (· == .queued) s.pc + countPc (· == .terminating) s.pc + countPc (· == .exited) s.pc := by
    rw [← countPc_or (fun x => by cases x <;> decide), ← countPc_or (fun x => by cases x <;> decide)]
    congr 1
    funext x
    cases x <;> rfl
  unfold Places at h
  omega

/-! ## Overtaking -/

/-- `w` is about to take the place of a cancelled worker whose element is still in the list: that worker
has posted the semaphore, and no other place is free or on its way to be. -/
structure Overtakes (s : Scheduler n) (w : Fin n) : Prop where
  lingering : ∃ v, s.handler = .cancelTotals v ∨ s.handler = .leave v
  posted : ∀ v, s.pc v ≠ .terminating
  taken : s.queueSem = 0
  alone : ∀ v, s.pc v = .entering ↔ v = w

theorem overtakes_iff {w : Fin n} (hw : s.pc w = .entering) : s.Overtakes w ↔
    0 < s.handler.lingering ∧ countPc (· == .terminating) s.pc = 0 ∧ s.queueSem = 0 ∧
      countPc (· == .entering) s.pc ≤ 1 := by
  have hposted : countPc (· == .terminating) s.pc = 0 ↔ ∀ v, s.pc v ≠ .terminating := by
    simp [countPc_eq_zero]
  have halone : countPc (· == .entering) s.pc ≤ 1 ↔ ∀ v, s.pc v = .entering ↔ v = w := by
    rw [countPc_le_one (w := w) (by rw [hw]; rfl)]
    refine forall_congr' fun v => ?_
    constructor
    · intro h
      exact ⟨fun hv => h (by rw [hv]; rfl), fun hv => hv ▸ hw⟩
    · intro h hv
      exact h.1 (by simpa using hv)
  rw [hposted, halone, HandlerPc.lingering_pos]
  constructor
  · rintro ⟨hlingering, hno, htaken, hone⟩
    exact ⟨hlingering, hno, htaken, hone⟩
  · rintro ⟨hlingering, hno, htaken, hone⟩
    exact ⟨hlingering, hno, htaken, hone⟩

/-- What is known of the queue and the semaphore in every state. -/
structure Counted (queueSize : Nat) (s : Scheduler n) : Prop where
  control : Control s
  places : Places queueSize s
  elements : Elements s

theorem Counted.initial (info : Fin n → ThreadInfo) : Counted queueSize (initial queueSize info) :=
  ⟨Control.initial queueSize info, Places.initial info, Elements.initial info⟩

theorem Counted.move (h : Counted queueSize s) (hm : Move s a s' es) : Counted queueSize s' :=
  ⟨h.control.move hm, h.places.move hm h.control, h.elements.move h.control hm⟩

/-- A worker that inserts itself makes the list too long exactly when it overtakes a cancelled one. -/
theorem Counted.enter_le (h : Counted queueSize s) {w : Fin n} (hw : s.pc w = .entering) :
    (listInsertTail s.schedQueue w).length ≤ queueSize ↔ ¬ s.Overtakes w := by
  have hplaces := h.places.alive
  have helements : s.schedQueue.length + s.handler.held = _ := h.elements
  have hpos := countPc_pos (p := (· == .entering)) (f := s.pc) (w := w) (by rw [hw]; rfl)
  have hlingering : s.handler.lingering ≤ 1 ∧ (0 < s.handler.lingering → s.handler.held = 0) := by
    cases s.handler <;> simp [HandlerPc.lingering, HandlerPc.held]
  rw [overtakes_iff hw, listInsertTail, List.length_append, List.length_singleton]
  omega

/-- No other step makes the list longer than it may be. -/
theorem Counted.step_le (h : Counted queueSize s) (hm : Move s a s' es) (ha : ∀ w, a ≠ .enter w)
    (hle : s.schedQueue.length ≤ queueSize) : s'.schedQueue.length ≤ queueSize := by
  cases hm with
  | enter _ => exact absurd rfl (ha _)
  | remove _ | leave _ => exact (List.erase_sublist ..).length_le.trans hle
  | @insert now w hh =>
    have hplaces := h.places.alive
    have helements : s.schedQueue.length + s.handler.held = _ := h.elements
    simp [hh, HandlerPc.held, HandlerPc.lingering, listInsertTail] at helements ⊢
    omega
  | _ => exact hle

/-- In every run the queue stays within `queueSize` if and only if no worker overtakes a cancelled one on
its way into the list. -/
theorem queue_bounded (queueSize : Nat) (info : Fin n → ThreadInfo) (actions : List (Action n)) :
    Always step (fun s => s.schedQueue.length ≤ queueSize) (initial queueSize info) actions ↔
      Along step (fun s a => ∀ w, a = .enter w → ¬ s.Overtakes w) (initial queueSize info) actions := by
  refine always_iff_along (I := Counted queueSize) (fun _ _ _ _ h _ _ hs => h.move (move_of_step hs))
    (fun s a h hle => ⟨fun hnext w ha => ?_, fun hno s' es hs => ?_⟩) (Counted.initial info) (Nat.zero_le _)
  · subst ha
    by_cases hw : s.pc w = .entering
    · exact (h.enter_le hw).1 (hnext _ _ (by rw [step, if_pos hw]))
    · exact fun hover => hw ((hover.alone w).2 rfl)
  · have hm := move_of_step hs
    cases a with
    | enter w =>
      cases hm with
      | enter hw => exact (h.enter_le hw).2 (hno w rfl)
    | _ => exact h.step_le hm (fun _ => by simp) hle

/-- One place, two workers of one quantum: the second takes the place of the first, which was cancelled
and has posted the semaphore, before the handler has removed it. -/
theorem queue_exceeds_queue_size : ∃ (info : Fin 2 → ThreadInfo) (s : Scheduler 2) (outs : List (List (Event 2))),
    (∀ w, 1 ≤ (info w).quanta.toInt) ∧
      run step (initial 1 info) [.semWait 0, .enter 0, .start, .tick ⟨0, 0⟩, .handler ⟨0, 0⟩, .tick ⟨0, 0⟩,
        .handler ⟨0, 0⟩, .semPost 0, .semWait 1, .enter 1] = .ok (s, outs) ∧
      s.schedQueue.length = 2 :=
  ⟨fun _ => ⟨1, ⟨0, 0⟩, ⟨0, 0⟩, 0, 0⟩, _, _, fun _ => (by decide : 1 ≤ (1 : Int32).toInt), rfl, rfl⟩

end Scheduler

end UnixSysProg.Sched
