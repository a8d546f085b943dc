/-
The scheduler refines the round robin. A quantum of the round robin is the tick that suspends its
worker; every other step of the handler and of the workers only carries out what that tick decided, so
the abstract state is the state the scheduler is heading for: the worker being moved is already at the
tail, the one being cancelled already gone, and the workers whose place is free already in the queue.
With arrivals prompt and in order this is the simulation `test_output` plays.
-/
import UnixSysProg.Sched.Quanta
import UnixSysProg.Sched.Oracle

namespace UnixSysProg.Sched

open UnixSysProg.Lib

variable {n : Nat}

/-- The place the cancellation under way is going to free. -/
def HandlerPc.frees : HandlerPc n → Nat
  | .cancelSignal _ => 1
  | _ => 0

namespace Scheduler

/-! ## Where the scheduler is heading -/

/-- The number of places that workers have been given so far. -/
def granted (queueSize : Nat) (s : Scheduler n) : Nat :=
  queueSize + countPc WorkerPc.signalled s.pc + s.handler.frees

/-- The queue as the run of the handler is going to leave it. -/
def settledQueue (s : Scheduler n) : List (Fin n) :=
  match s.handler with
  | .idle | .schedule => s.schedQueue
  | .requeueRemove w => listInsertTail (listRemove s.schedQueue w) w
  | .requeueInsert w => listInsertTail s.schedQueue w
  | .cancelSignal w | .cancelTotals w | .leave w => listRemove s.schedQueue w

/-- The workers that have a place and are not in the queue yet. -/
def arriving (queueSize : Nat) (s : Scheduler n) : List (Fin n) :=
  ((List.finRange n).take (s.granted queueSize)).drop (countPc WorkerPc.entered s.pc)

/-- A worker with the quanta it has left. -/
def left (s : Scheduler n) (w : Fin n) : Fin n × Nat := (w, (s.info w).quanta.toInt.toNat)

/-- The round robin behind a state. -/
def toRoundRobin (quanta : Fin n → Int32) (queueSize : Nat) (s : Scheduler n) : RoundRobin n where
  queue := s.settledQueue.map s.left ++ (s.arriving queueSize).map (withQuanta quanta)
  waiting := ((List.finRange n).drop (s.granted queueSize)).map (withQuanta quanta)

/-- What the round has reported and the handler has not yet. -/
def owed (s : Scheduler n) : List (Event n) :=
  match s.handler with
  | .cancelSignal w | .cancelTotals w | .leave w => [.leaving w]
  | _ => []

/-- What the handler has reported of the next round. -/
def resumed (s : Scheduler n) : List (Event n) := s.running.toList.map .resuming

/-- Workers arrive in the order of their creation, and at a tick every free place is taken that there
is a worker for: `queueSize` at first, and one more for each worker cancelled. -/
def Prompt (queueSize : Nat) (s : Scheduler n) : Action n → Prop
  | .enter w => w.val = countPc WorkerPc.entered s.pc
  | .tick _ => countPc WorkerPc.entered s.pc = min n (queueSize + s.completed)
  | _ => True

instance (queueSize : Nat) (s : Scheduler n) : ∀ a, Decidable (Prompt queueSize s a)
  | .enter w => inferInstanceAs (Decidable (w.val = countPc WorkerPc.entered s.pc))
  | .tick _ => inferInstanceAs (Decidable (countPc WorkerPc.entered s.pc = min n (queueSize + s.completed)))
  | .start | .handler _ | .semWait _ | .semPost _ => inferInstanceAs (Decidable True)

/-- A state whose log is that of some rounds of the round robin. -/
structure Refines (quanta : Fin n → Int32) (queueSize : Nat) (log : List (Event n)) (s : Scheduler n) : Prop where
  played : ∃ k es, (RoundRobin.start quanta queueSize).play k = (s.toRoundRobin quanta queueSize, es) ∧
    log ++ s.owed = es ++ s.resumed
  /-- The worker that is resumed is at the head of the queue. -/
  head : ∀ w, s.running = some w → ∃ rest, s.schedQueue = w :: rest
  /-- While a worker is moved to the tail no one arrives. -/
  settled : ∀ w, s.handler = .requeueRemove w ∨ s.handler = .requeueInsert w →
    min n (s.granted queueSize) ≤ countPc WorkerPc.entered s.pc
  fresh : ∀ w, (s.pc w).entered = false → (s.info w).quanta = quanta w
  unarmed : s.armed = false → s.handler = .idle ∧ log = []
  done : n ≤ s.completed → s.handler = .idle → s.quit = true

namespace Refines

variable {quanta : Fin n → Int32} {queueSize : Nat} {log es : List (Event n)} {s s' : Scheduler n} {a : Action n}

theorem initial {info : Fin n → ThreadInfo} (hn : 1 ≤ n) :
    Refines (fun w => (info w).quanta) queueSize [] (initial queueSize info) := by
  refine ⟨⟨0, [], ?_, rfl⟩, fun w h => (by cases h), ?_, fun w _ => rfl, fun _ => ⟨rfl, rfl⟩,
    fun h => absurd (le_trans hn h) (by simp [Scheduler.initial])⟩
  · have hsig : countPc WorkerPc.signalled (Scheduler.initial queueSize info).pc = 0 := by
      simp [countPc, Scheduler.initial, WorkerPc.signalled]
    have hent : countPc WorkerPc.entered (Scheduler.initial queueSize info).pc = 0 := by
      simp [countPc, Scheduler.initial, WorkerPc.entered]
    rw [toRoundRobin, arriving, granted, hsig, hent]
    rfl
  · intro w h
    rcases h with h | h <;> cases h

/-! ## Steps that only carry out -/

/-- Nothing of the abstract state has changed. -/
theorem toRoundRobin_congr (hq : s'.settledQueue = s.settledQueue) (hi : ∀ w, (s'.info w).quanta = (s.info w).quanta)
    (he : countPc WorkerPc.entered s'.pc = countPc WorkerPc.entered s.pc)
    (hg : s'.granted queueSize = s.granted queueSize) :
    s'.toRoundRobin quanta queueSize = s.toRoundRobin quanta queueSize := by
  have hleft : s'.left = s.left := funext fun w => by rw [left, left, hi]
  rw [toRoundRobin, toRoundRobin, arriving, arriving, hq, hleft, he, hg]

/-- A worker that arrives while no one is moved to the tail is the last of the settled queue. -/
theorem settledQueue_enter (hc : Control s) {pc : Fin n → WorkerPc} {w : Fin n}
    (hr : ∀ v, ¬ (s.handler = .requeueRemove v ∨ s.handler = .requeueInsert v)) :
    settledQueue { s with pc := pc, schedQueue := listInsertTail s.schedQueue w } = s.settledQueue ++ [w] := by
  have herase : ∀ v, s.handler = .cancelSignal v ∨ s.handler = .cancelTotals v ∨ s.handler = .leave v →
      listRemove (listInsertTail s.schedQueue w) v = listRemove s.schedQueue v ++ [w] := by
    intro v hv
    refine List.erase_append_left _ ((hc.member v).2 ?_)
    rcases hv with hv | hv
    · exact .inl ⟨hc.moving v (.inr (.inr hv)), by rw [hv]; simp⟩
    · exact .inr hv
  cases hh : s.handler with
  | idle => simp [settledQueue, hh, listInsertTail]
  | schedule => simp [settledQueue, hh, listInsertTail]
  | requeueRemove v => exact absurd (.inl hh) (hr v)
  | requeueInsert v => exact absurd (.inr hh) (hr v)
  | cancelSignal v => simpa [settledQueue, hh] using herase v (.inl hh)
  | cancelTotals v => simpa [settledQueue, hh] using herase v (.inr (.inl hh))
  | leave v => simpa [settledQueue, hh] using herase v (.inr (.inr hh))

/-- The worker that arrives was the next one expected. -/
theorem toRoundRobin_enter (h : Refines quanta queueSize log s) (hc : Control s) (hp : Places queueSize s) {w : Fin n}
    (hw : s.pc w = .entering) (hfirst : w.val = countPc WorkerPc.entered s.pc) :
    toRoundRobin quanta queueSize
      { s with pc := Function.update s.pc w .queued, schedQueue := listInsertTail s.schedQueue w } =
      s.toRoundRobin quanta queueSize := by
  have hlt := hp.entered_lt hw
  have hsig : countPc WorkerPc.signalled (Function.update s.pc w .queued) = countPc WorkerPc.signalled s.pc :=
    countPc_update_same (by rw [hw]; rfl)
  have hent : countPc WorkerPc.entered (Function.update s.pc w .queued) = countPc WorkerPc.entered s.pc + 1 :=
    countPc_update_new (by rw [hw]; rfl) rfl
  have harrive : s.arriving queueSize = w ::
      ((List.finRange n).take (s.granted queueSize)).drop (countPc WorkerPc.entered s.pc + 1) := by
    have hlen : countPc WorkerPc.entered s.pc < ((List.finRange n).take (s.granted queueSize)).length := by
      rw [List.length_take, List.length_finRange, ← hfirst, granted]
      omega
    rw [arriving, List.drop_eq_getElem_cons hlen]
    congr 1
    simp [← hfirst]
  -- while a worker is moved to the tail every place is taken, and no one is left to arrive
  have hmoving : ∀ v, ¬ (s.handler = .requeueRemove v ∨ s.handler = .requeueInsert v) := by
    intro v hv
    have := h.settled v hv
    rw [granted] at this
    omega
  have hleft : s.left w = withQuanta quanta w := by
    rw [left, withQuanta, h.fresh w (by rw [hw]; rfl)]
  rw [toRoundRobin, toRoundRobin, settledQueue_enter hc hmoving, harrive]
  simp only [arriving, granted, hsig, hent, List.map_append, List.map_cons, List.append_assoc, ← hleft]
  rfl

/-! ## The step that takes a quantum -/

/-- At a prompt tick every free place is taken. -/
theorem entered_eq (hc : Control s) (hi : s.handler = .idle)
    (hprompt : countPc WorkerPc.entered s.pc = min n (queueSize + s.completed)) :
    countPc WorkerPc.entered s.pc = min n (s.granted queueSize) := by
  have hcompleted := hc.completed
  rw [hi] at hcompleted
  rw [hprompt, granted, hi, ← hcompleted]
  rfl

/-- A place more than workers have entered is for the first worker waiting. -/
theorem arriving_next (g : Nat) :
    ((List.finRange n).take (g + 1)).drop (min n g) = ((List.finRange n).drop g).take 1 := by
  rcases Nat.le_total g n with hg | hg
  · rw [Nat.min_eq_right hg, List.drop_take, Nat.add_sub_cancel_left]
  · rw [Nat.min_eq_left hg, List.drop_of_length_le (by simp), List.drop_of_length_le (by simpa using hg)]
    rfl

/-- The tick that suspends the current worker is its round. -/
theorem toRoundRobin_suspend (h : Refines quanta queueSize log s) (hc : Control s) (hl : Logged quanta log s)
    {w : Fin n} (now : Timespec) (hi : s.handler = .idle) (hcur : s.currentThread = some w)
    (hprompt : countPc WorkerPc.entered s.pc = min n (queueSize + s.completed)) :
    (s.toRoundRobin quanta queueSize).round = ((s.suspendWorker w now).toRoundRobin quanta queueSize,
      [.resuming w, .suspending w] ++ (s.suspendWorker w now).owed) := by
  have hent := entered_eq hc hi hprompt
  obtain ⟨rest, hq⟩ := h.head w (by rw [running, if_pos hi, hcur])
  have hnodup := hc.nodup
  rw [hq] at hnodup
  have hnotin := (List.nodup_cons.1 hnodup).1
  have hpos := hl.positive w (by simp [Ending, hc.current w hi hcur, hi, WorkerPc.signalled])
  have harrive : s.arriving queueSize = [] := by
    rw [arriving, hent]
    exact List.drop_of_length_le (by simp)
  have hqueue : (s.toRoundRobin quanta queueSize).queue = s.left w :: rest.map s.left := by
    simp [toRoundRobin, settledQueue, hi, hq, harrive]
  have hmap : rest.map (s.suspendWorker w now).left = rest.map s.left := by
    refine List.map_congr_left fun v hv => ?_
    have hne : v ≠ w := fun he => hnotin (he ▸ hv)
    rw [left, left, suspendWorker_other s hne]
  have hself : (s.suspendWorker w now).left w = (w, (s.info w).quanta.toInt.toNat - 1) := by
    rw [left, suspendWorker_quanta hpos]
    congr 1
    omega
  have hhandler := suspendWorker_handler hpos now
  have hsched : (s.suspendWorker w now).schedQueue = w :: rest := hq
  have hgranted : s.granted queueSize = queueSize + countPc WorkerPc.signalled s.pc := by rw [granted, hi]; rfl
  by_cases hlast : (s.info w).quanta.toInt = 1
  · -- the last quantum: the place goes to the next worker waiting
    have hh : (s.suspendWorker w now).handler = .cancelSignal w := by rw [hhandler, if_pos hlast]
    have hgranted' : (s.suspendWorker w now).granted queueSize = s.granted queueSize + 1 := by
      rw [granted, suspendWorker_pc, hh, hgranted]; rfl
    have hafter : (s.suspendWorker w now).toRoundRobin quanta queueSize =
        ⟨rest.map s.left ++ (s.toRoundRobin quanta queueSize).waiting.take 1,
          (s.toRoundRobin quanta queueSize).waiting.drop 1⟩ := by
      rw [toRoundRobin, arriving, hgranted', suspendWorker_pc, hent, arriving_next]
      simp only [settledQueue, hh, hsched, listRemove, List.erase_cons_head, hmap, toRoundRobin, List.map_take,
        ← List.map_drop, List.drop_drop]
    rw [RoundRobin.round_leave hqueue (by omega), hafter, owed, hh]
    rfl
  · have hh : (s.suspendWorker w now).handler = .requeueRemove w := by rw [hhandler, if_neg hlast]
    have hgranted' : (s.suspendWorker w now).granted queueSize = s.granted queueSize := by
      rw [granted, suspendWorker_pc, hh, hgranted]; rfl
    have hafter : (s.suspendWorker w now).toRoundRobin quanta queueSize =
        ⟨rest.map s.left ++ [(w, (s.info w).quanta.toInt.toNat - 1)], (s.toRoundRobin quanta queueSize).waiting⟩ := by
      rw [toRoundRobin, arriving, hgranted', suspendWorker_pc, ← arriving, harrive]
      simp only [settledQueue, hh, hsched, listRemove, List.erase_cons_head, listInsertTail, List.map_append, hmap,
        toRoundRobin, List.map_cons, List.map_nil, hself, List.append_nil]
    rw [RoundRobin.round_requeue hqueue (by omega), hafter, owed, hh]
    rfl

/-! ## Every step -/

theorem settled_move (h : Refines quanta queueSize log s) (hc : Control s) (ha : Prompt queueSize s a)
    (hm : Move s a s' es) (v : Fin n) (hv : s'.handler = .requeueRemove v ∨ s'.handler = .requeueInsert v) :
    min n (s'.granted queueSize) ≤ countPc WorkerPc.entered s'.pc := by
  have hfrees : s'.handler.frees = 0 := by rcases hv with hv | hv <;> rw [hv] <;> rfl
  have hs := h.settled v
  rw [granted] at hs
  rw [granted, hfrees]
  cases hm with
  | suspend _ hi _ _ =>
    have hent := entered_eq hc hi ha
    rw [granted] at hent
    rw [suspendWorker_pc]
    omega
  | remove hh =>
    have := h.settled _ (.inl hh)
    rw [granted] at this
    dsimp only
    omega
  | resume _ _ _ => rcases hv with hv | hv <;> cases hv
  | enter hw =>
    rw [countPc_update_same (by rw [hw]; rfl), countPc_update_new (by rw [hw]; rfl) rfl]
    have := hs hv
    omega
  | semWait hw _ | semPost hw =>
    rw [countPc_update_same (by rw [hw]; rfl), countPc_update_same (by rw [hw]; rfl)]
    have := hs hv
    omega
  | _ => grind

theorem fresh_move (h : Refines quanta queueSize log s) (hc : Control s) (hm : Move s a s' es) (v : Fin n)
    (hv : (s'.pc v).entered = false) : (s'.info v).quanta = quanta v := by
  have hf := h.fresh v
  cases hm with
  | @suspend now w _ hi _ hcur =>
    have hne : v ≠ w := by
      intro he
      rw [suspendWorker_pc, he, hc.current w hi hcur] at hv
      cases hv
    rw [suspendWorker_other s hne]
    exact hf hv
  | resume _ _ _ => rw [resumeWorker_quanta]; exact hf hv
  | @signal _ w hh =>
    refine hf ?_
    by_cases hne : v = w
    · subst hne; simp at hv; cases hv
    · simpa [hne] using hv
  | _ => grind [WorkerPc.entered]

theorem unarmed_move (h : Refines quanta queueSize log s) (hm : Move s a s' es) (hv : s'.armed = false) :
    s'.handler = .idle ∧ log ++ es = [] := by
  have hu := h.unarmed
  cases hm with
  | _ => grind [suspendWorker, resumeWorker]

theorem done_move (h : Refines quanta queueSize log s) (hm : Move s a s' es) (hv : n ≤ s'.completed)
    (hi : s'.handler = .idle) : s'.quit = true := by
  have hd := h.done
  cases hm with
  | suspend _ _ _ _ => exact absurd hi (suspendWorker_busy s _ _)
  | resume _ hlt _ => exact absurd hlt (not_lt.2 hv)
  | _ => grind

/-- A step that carries out and reports what is owed. -/
theorem played_congr (h : Refines quanta queueSize log s)
    (hround : s'.toRoundRobin quanta queueSize = s.toRoundRobin quanta queueSize) (howed : es ++ s'.owed = s.owed)
    (hresumed : s'.resumed = s.resumed) :
    ∃ k es₀, (RoundRobin.start quanta queueSize).play k = (s'.toRoundRobin quanta queueSize, es₀) ∧
      log ++ es ++ s'.owed = es₀ ++ s'.resumed := by
  obtain ⟨k, es₀, hplay, hlog⟩ := h.played
  exact ⟨k, es₀, by rw [hround, hplay], by rw [List.append_assoc, howed, hresumed, hlog]⟩

theorem played_move (h : Refines quanta queueSize log s) (hc : Control s) (hl : Logged quanta log s)
    (hp : Places queueSize s) (ha : Prompt queueSize s a) (hm : Move s a s' es) :
    ∃ k es₀, (RoundRobin.start quanta queueSize).play k = (s'.toRoundRobin quanta queueSize, es₀) ∧
      log ++ es ++ s'.owed = es₀ ++ s'.resumed := by
  cases hm with
  | waitStart _ _ | arm _ _ | tickEmpty _ _ _ | waitQueue _ _ _ => exact h.played_congr rfl rfl rfl
  | tickFirst _ hi _ hcur =>
    refine h.played_congr (toRoundRobin_congr ?_ (fun _ => rfl) rfl ?_) ?_ ?_
    · simp [settledQueue, hi]
    · simp [granted, HandlerPc.frees, hi]
    · simp [owed, hi]
    · simp [resumed, running, hi, hcur]
  | @suspend now w _ hi _ hcur =>
    -- the round of the worker that was resumed
    obtain ⟨k, es₀, hplay, hlog⟩ := h.played
    have hround := h.toRoundRobin_suspend hc hl now hi hcur ha
    refine ⟨k + 1, es₀ ++ ([.resuming w, .suspending w] ++ (s.suspendWorker w now).owed), ?_, ?_⟩
    · rw [RoundRobin.play_succ, hplay, hround]
    · have hlog' : log = es₀ ++ [.resuming w] := by simpa [owed, resumed, running, hi, hcur] using hlog
      have hbusy := suspendWorker_busy s w now
      simp [hlog', resumed, running, hbusy]
  | remove hh | insert hh | totals hh | leave hh | finish hh _ =>
    refine h.played_congr (toRoundRobin_congr ?_ (fun _ => rfl) rfl ?_) ?_ ?_
    all_goals simp [settledQueue, granted, HandlerPc.frees, owed, resumed, running, hh]
  | @signal _ w hh =>
    have hw := hc.moving w (.inr (.inr hh))
    refine h.played_congr (toRoundRobin_congr ?_ (fun _ => rfl) (countPc_update_same (by rw [hw]; rfl)) ?_) ?_ ?_
    · simp [settledQueue, hh]
    · rw [granted, granted, countPc_update_new (by rw [hw]; rfl) rfl, hh]
      rfl
    all_goals simp [owed, resumed, running, hh]
  | @resume now w _ hh _ _ =>
    obtain ⟨k, es₀, hplay, hlog⟩ := h.played
    refine ⟨k, es₀, ?_, ?_⟩
    · rw [hplay, toRoundRobin_congr ?_ (resumeWorker_quanta s w · now) rfl ?_]
      all_goals simp [resumeWorker, settledQueue, granted, HandlerPc.frees, hh]
    · have hlog' : log = es₀ := by simpa [owed, resumed, running, hh] using hlog
      simp [hlog', resumeWorker, owed, resumed, running]
  | enter hw => exact h.played_congr (h.toRoundRobin_enter hc hp hw ha) rfl rfl
  | semWait hw _ | semPost hw =>
    refine h.played_congr (toRoundRobin_congr rfl (fun _ => rfl) (countPc_update_same (by rw [hw]; rfl)) ?_) rfl rfl
    rw [granted, granted, countPc_update_same (by rw [hw]; rfl)]

theorem move (h : Refines quanta queueSize log s) (hc : Control s) (hl : Logged quanta log s)
    (hp : Places queueSize s) (ha : Prompt queueSize s a) (hm : Move s a s' es) :
    Refines quanta queueSize (log ++ es) s' :=
  ⟨h.played_move hc hl hp ha hm, HeadRuns.move h.head hm, h.settled_move hc ha hm, h.fresh_move hc hm, h.unarmed_move hm,
    h.done_move hm⟩

/-! ## What a refining state has reported -/

theorem log_prefix (h : Refines quanta queueSize log s) (hf : (RoundRobin.start quanta queueSize).Fair) :
    log <+: (RoundRobin.start quanta queueSize).schedule := by
  obtain ⟨k, es₀, hplay, hlog⟩ := h.played
  have hprefix : es₀ ++ s.resumed <+: (RoundRobin.start quanta queueSize).schedule := by
    cases hrun : s.running with
    | none =>
      have := RoundRobin.play_prefix hf k
      rw [hplay] at this
      simpa [resumed, hrun] using this
    | some w =>
      -- the round that begins with this resume is still to be played
      obtain ⟨rest, hq⟩ := h.head w hrun
      have hi : s.handler = .idle := by by_contra hi; simp [running, hi] at hrun
      have hqueue : (s.toRoundRobin quanta queueSize).queue =
          s.left w :: (rest.map s.left ++ (s.arriving queueSize).map (withQuanta quanta)) := by
        simp [toRoundRobin, settledQueue, hi, hq]
      obtain ⟨es₁, hround⟩ := RoundRobin.round_resuming hqueue
      have := RoundRobin.play_prefix hf (k + 1)
      rw [RoundRobin.play_succ, hplay, hround] at this
      refine List.IsPrefix.trans ⟨es₁, ?_⟩ this
      simp [resumed, hrun]
  rw [← hlog] at hprefix
  exact (List.prefix_append _ _).trans hprefix

/-- The scheduler has quit exactly when the whole schedule has been reported. -/
theorem quit_iff (h : Refines quanta queueSize log s) (hc : Control s) (hf : (RoundRobin.start quanta queueSize).Fair)
    (hne : (RoundRobin.start quanta queueSize).total ≠ 0) :
    s.quit = true ↔ s.handler = .idle ∧ log = (RoundRobin.start quanta queueSize).schedule := by
  obtain ⟨k, es₀, hplay, hlog⟩ := h.played
  have hes : ((RoundRobin.start quanta queueSize).play k).2 = es₀ := by rw [hplay]
  constructor
  · intro hquit
    obtain ⟨hdone, hi⟩ := hc.quit hquit
    have hq := hc.empty hdone hi
    have hrun : s.running = none := by
      by_contra hrun
      obtain ⟨w, hw⟩ := Option.ne_none_iff_exists'.1 hrun
      obtain ⟨rest, hrest⟩ := h.head w hw
      rw [hq] at hrest
      cases hrest
    have harrive : s.arriving queueSize = [] := by
      have hmono := countPc_mono (p := WorkerPc.signalled) (q := WorkerPc.entered) (f := s.pc)
        (fun x hx => by cases x <;> simp_all [WorkerPc.signalled, WorkerPc.entered])
      have hcompleted := hc.completed
      refine List.drop_of_length_le ?_
      rw [List.length_take, List.length_finRange]
      omega
    have hempty : (s.toRoundRobin quanta queueSize).queue = [] := by
      simp [toRoundRobin, settledQueue, hi, hq, harrive]
    have htotal := RoundRobin.total_play hf (k := k)
    rw [(RoundRobin.total_eq_zero (hf.play k)).2 (by rw [hplay]; exact hempty)] at htotal
    have hschedule := RoundRobin.play_schedule hf (k := k) (by omega)
    rw [hes] at hschedule
    exact ⟨hi, by simpa [owed, resumed, hi, hrun, hschedule] using hlog⟩
  · rintro ⟨hi, rfl⟩
    have htaken := congrArg quantaTaken hlog
    have hplayed := RoundRobin.quantaTaken_play hf (k := k)
    have hscheduled := RoundRobin.quantaTaken_schedule hf
    rw [hes] at hplayed
    have hresumed : quantaTaken s.resumed = 0 := by
      cases hrun : s.running <;> simp [resumed, hrun, quantaTaken, Event.takesQuantum]
    rw [show s.owed = [] by simp [owed, hi], List.append_nil, quantaTaken_append, hscheduled, hplayed, hresumed] at htaken
    have hempty := RoundRobin.queue_play_total hf (k := k) (by omega)
    rw [hplay] at hempty
    have hq : s.schedQueue = [] := by
      simpa [toRoundRobin, settledQueue, hi] using (List.append_eq_nil_iff.1 hempty).1
    refine h.done (not_lt.1 fun hlt => ?_) hi
    refine hc.nonempty ?_ hi hlt hq
    by_contra harmed
    have hnil := (h.unarmed (by simpa using harmed)).2
    rw [hnil] at hscheduled
    exact hne hscheduled.symm

end Refines

/-! ## Runs -/

/-- Every run with prompt arrivals refines the round robin. -/
theorem run_refines {queueSize : Nat} {info : Fin n → ThreadInfo} (hn : 1 ≤ n) (hq : ∀ w, 1 ≤ (info w).quanta.toInt)
    {actions : List (Action n)} {s : Scheduler n} {outs : List (List (Event n))}
    (ha : Along step (Prompt queueSize) (initial queueSize info) actions)
    (h : run step (initial queueSize info) actions = .ok (s, outs)) :
    Control s ∧ Refines (fun w => (info w).quanta) queueSize outs.flatten s := by
  have hrun := run_log (I := fun log s => Control s ∧ Logged (fun w => (info w).quanta) log s ∧
      Places queueSize s ∧ Refines (fun w => (info w).quanta) queueSize log s)
    (fun log s a s' es ⟨hc, hl, hp, hr⟩ ha hstep => by
      have hm := move_of_step hstep
      exact ⟨hc.move hm, hl.move hc hm, hp.move hm hc, hr.move hc hl hp ha hm⟩)
    ⟨Control.initial queueSize info, Logged.initial hq, Places.initial info, Refines.initial hn⟩ ha h
  exact ⟨hrun.1, hrun.2.2.2⟩

end Scheduler

end UnixSysProg.Sched
