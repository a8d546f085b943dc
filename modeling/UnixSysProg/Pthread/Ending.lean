/-
How `pa3_1` ends. Every step of a producer or a consumer takes one unit of the work that is left, so that the
threads come to rest whatever the schedule; they are at rest, or `main` is in the way, only when everything
has been written and consumed; and from every state that is reached `main` can still get to its end.
-/
import UnixSysProg.Pthread.Drained

namespace UnixSysProg.Pthread

open UnixSysProg.Lib

variable {cfg : Config}

/-! ## Work left -/

/-- The steps left to a producer, and to the consumers for the characters that it has not posted. -/
def Producer.rest (numberOfWrites : Nat) (t : Producer) : Nat :=
  8 * (numberOfWrites - t.i) -
    match t.pc with
    | .waitFull => 0
    | .waitMutex => 1
    | .postMutex => 2
    | .postEmpty => 3

/-- The steps left to a consumer for the character that it has taken. -/
def ConsumerPc.rest : ConsumerPc → Nat
  | waitEmpty => 0
  | waitMutex => 3
  | postMutex => 2
  | postFull => 1

/-- The steps that `main` has left, when the buffer is found empty at its next test. -/
def MainPc.rest (numProducer : Nat) : MainPc → Nat
  | .join k => numProducer - k + 3
  | .postMutex true => 3
  | .waitMutex => 2
  | .postMutex false => 1
  | .done => 0

/-- The step is one of a producer or a consumer. -/
def Action.ofThread : Action cfg → Bool
  | .producer _ | .consumer _ => true
  | .main => false

namespace State

variable {s s' : State cfg} {a : Action cfg} {es log : List Event} {q : Fin cfg.numProducer} {j : Fin cfg.numConsumer}

/-- The steps that the threads have left, of all the steps that they take in a run. -/
def work (s : State cfg) : Nat :=
  tally (Producer.rest cfg.numberOfWrites) s.producers + tally ConsumerPc.rest s.consumers + 4 * s.sem .empty

theorem work_initial (contents : Int → UInt8) :
    (initial cfg contents).work = 8 * (cfg.numProducer * cfg.numberOfWrites) := by
  have hproducers : tally (Producer.rest cfg.numberOfWrites) (initial cfg contents).producers =
      Fintype.card (Fin cfg.numProducer) * (8 * cfg.numberOfWrites) := tally_const fun _ => by simp [Producer.rest, initial]
  have hconsumers : tally ConsumerPc.rest (initial cfg contents).consumers = 0 := tally_eq_zero.2 fun _ => rfl
  rw [work, hproducers, hconsumers, Fintype.card_fin, Nat.mul_left_comm]
  simp [initial]

/-- A step of a producer that takes one step off the work. -/
theorem work_producer {op : SemOp Sem} {y : Producer} (hop : op.apply s.sem = some s'.sem)
    (hproducers : s'.producers = Function.update s.producers q y) (hconsumers : s'.consumers = s.consumers)
    (hrest : y.rest cfg.numberOfWrites + 4 * op.posts .empty + 1 =
      (s.producers q).rest cfg.numberOfWrites + 4 * op.waits .empty) : s'.work + 1 = s.work := by
  have hempty := SemOp.apply_balance hop .empty
  have htally := tally_update (Producer.rest cfg.numberOfWrites) s.producers q y
  unfold work
  rw [hproducers, hconsumers]
  omega

/-- A step of a consumer that takes one step off the work. -/
theorem work_consumer {op : SemOp Sem} {y : ConsumerPc} (hop : op.apply s.sem = some s'.sem)
    (hconsumers : s'.consumers = Function.update s.consumers j y) (hproducers : s'.producers = s.producers)
    (hrest : y.rest + 4 * op.posts .empty + 1 = (s.consumers j).rest + 4 * op.waits .empty) : s'.work + 1 = s.work := by
  have hempty := SemOp.apply_balance hop .empty
  have htally := tally_update ConsumerPc.rest s.consumers j y
  unfold work
  rw [hproducers, hconsumers]
  omega

theorem Move.work (hm : Move s a s' es) : s'.work + a.ofThread.toNat = s.work := by
  cases hm with
  | waitFull hret hpc hop | write hret hpc hop | written hret hpc hop | postEmpty hret hpc hop =>
    have hleft := not_le.1 hret
    refine work_producer hop rfl rfl ?_
    simp [Producer.rest, hpc, SemOp.posts, SemOp.waits]
    omega
  | waitEmpty hpc hop | consume hpc hop | consumed hpc hop | postFull hpc hop =>
    refine work_consumer hop rfl rfl ?_
    simp [ConsumerPc.rest, hpc, SemOp.posts, SemOp.waits]
  | join _ _ _ | joined _ _ => exact Nat.add_zero _
  | test _ hop | tested _ hop =>
    have hempty := SemOp.apply_balance hop .empty
    simp only [SemOp.waits, SemOp.posts, reduceCtorEq, SemOp.wait.injEq, SemOp.post.injEq, if_false, Nat.add_zero] at hempty
    simp [State.work, hempty, Action.ofThread]

/-! ## Threads at rest -/

theorem wait_blocked {sem : Sem → Nat} {m : Sem} (h : (SemOp.wait m).apply sem = none) : sem m = 0 := by
  by_contra hpos
  obtain ⟨sem', hsem'⟩ := SemOp.apply_wait (Nat.pos_of_ne_zero hpos)
  rw [h] at hsem'
  cases hsem'

/-- No producer and no consumer can take a step. -/
def AtRest (s : State cfg) : Prop := ∀ a : Action cfg, a.ofThread = true → ∃ e, s.step a = .error e

theorem AtRest.producer (h : AtRest s) (hret : ¬ s.Returned q) : (s.producers q).pc.op.apply s.sem = none := by
  obtain ⟨e, he⟩ := h (.producer q) rfl
  simp only [step, if_neg hret] at he
  split at he
  · assumption
  · cases he

theorem AtRest.consumer (h : AtRest s) (j : Fin cfg.numConsumer) : (s.consumers j).op.apply s.sem = none := by
  obtain ⟨e, he⟩ := h (.consumer j) rfl
  simp only [step] at he
  split at he
  · assumption
  · cases he

/-- Everything is written and consumed. -/
structure Finished (s : State cfg) : Prop where
  returned : ∀ q, s.Returned q
  index : s.bufferIndex = 0
  work : s.work = 0
  mutex : s.sem .mutex = 1

/-- Threads that cannot step, while `main` is outside the mutex, have written and consumed everything. -/
theorem Sound.finished (h : Sound log s) (hrest : AtRest s) (hmain : s.main.inside = 0) (hconsumer : 1 ≤ cfg.numConsumer) :
    Finished s := by
  have hlocked := h.locked
  unfold Locked at hlocked
  -- nobody is inside the mutex, so that nobody waits for it
  have hproducer : ∀ q, (s.producers q).pc = .waitMutex ∨ (s.producers q).pc = .waitFull := by
    intro q
    by_cases hret : s.Returned q
    · rcases h.counts q with hlt | ⟨_, hpc⟩
      · exact absurd hret (not_le.2 hlt)
      · exact .inr hpc
    · have hblocked := hrest.producer hret
      cases hpc : (s.producers q).pc <;> rw [hpc] at hblocked
      · exact .inr rfl
      · exact .inl rfl
      · cases hblocked
      · cases hblocked
  have hconsumers : ∀ j, s.consumers j = .waitMutex ∨ s.consumers j = .waitEmpty := by
    intro j
    have hblocked := hrest.consumer j
    cases hpc : s.consumers j <;> rw [hpc] at hblocked
    · exact .inr rfl
    · exact .inl rfl
    · cases hblocked
    · cases hblocked
  have hmutex : s.sem .mutex = 1 := by
    have h1 : tally (fun t => t.pc.inside) s.producers = 0 := tally_eq_zero.2 fun q => by
      rcases hproducer q with hpc | hpc <;> rw [hpc] <;> rfl
    have h2 : tally ConsumerPc.inside s.consumers = 0 := tally_eq_zero.2 fun j => by
      rcases hconsumers j with hpc | hpc <;> rw [hpc] <;> rfl
    omega
  have hwaitFull : ∀ q, (s.producers q).pc = .waitFull := by
    intro q
    refine (hproducer q).resolve_left fun hpc => ?_
    have hret : ¬ s.Returned q := fun hret => by
      rcases h.counts q with hlt | ⟨_, hfull⟩
      · exact absurd hret (not_le.2 hlt)
      · rw [hfull] at hpc
        cases hpc
    have hblocked := hrest.producer hret
    rw [hpc] at hblocked
    rw [wait_blocked hblocked] at hmutex
    cases hmutex
  have hwaitEmpty : ∀ j, s.consumers j = .waitEmpty := by
    intro j
    refine (hconsumers j).resolve_left fun hpc => ?_
    have hblocked := hrest.consumer j
    rw [hpc] at hblocked
    rw [wait_blocked hblocked] at hmutex
    cases hmutex
  -- every place is free or filled, and every character is there for a consumer
  have hslot : tally Producer.slot s.producers = 0 := tally_eq_zero.2 fun q => by simp [Producer.slot, hwaitFull]
  have hfilled : tally Producer.filled s.producers = 0 := tally_eq_zero.2 fun q => by simp [Producer.filled, hwaitFull]
  have hfreed : tally ConsumerPc.freed s.consumers = 0 := tally_eq_zero.2 fun j => by simp [ConsumerPc.freed, hwaitEmpty]
  have htaken : tally ConsumerPc.taken s.consumers = 0 := tally_eq_zero.2 fun j => by simp [ConsumerPc.taken, hwaitEmpty]
  have hempty : s.sem .empty = 0 := by
    have hblocked := hrest.consumer ⟨0, hconsumer⟩
    rw [hwaitEmpty] at hblocked
    exact wait_blocked hblocked
  have hplaces := h.counted.places
  have hcharacters := h.counted.characters
  have hpos := cfg.bufferLength_pos
  have hindex : s.bufferIndex = 0 := by omega
  have hreturned : ∀ q, s.Returned q := by
    intro q
    by_contra hret
    have hblocked := hrest.producer hret
    rw [hwaitFull] at hblocked
    have hfull := wait_blocked hblocked
    omega
  refine ⟨hreturned, hindex, ?_, hmutex⟩
  have h1 : tally (Producer.rest cfg.numberOfWrites) s.producers = 0 := tally_eq_zero.2 fun q => by
    have hq : cfg.numberOfWrites ≤ (s.producers q).i := hreturned q
    simp [Producer.rest, hwaitFull, Nat.sub_eq_zero_of_le hq]
  have h2 : tally ConsumerPc.rest s.consumers = 0 := tally_eq_zero.2 fun j => by rw [hwaitEmpty]; rfl
  rw [work, h1, h2, hempty]

/-- Whatever the schedule, the producers and consumers take at most eight steps for each character; and when none
of them can step while `main` is outside the mutex, they have taken them all, and every character has been
written and consumed. -/
theorem threads_come_to_rest (hconsumer : 1 ≤ cfg.numConsumer) {contents : Int → UInt8} {actions : List (Action cfg)}
    {outs : List (List Event)} (h : run step (initial cfg contents) actions = .ok (s, outs)) :
    actions.countP Action.ofThread ≤ 8 * (cfg.numProducer * cfg.numberOfWrites) ∧
      (AtRest s → s.main.inside = 0 → actions.countP Action.ofThread = 8 * (cfg.numProducer * cfg.numberOfWrites) ∧
        outs.flatten.countP Event.isConsume = cfg.numProducer * cfg.numberOfWrites ∧ s.bufferIndex = 0) := by
  have hwork : actions.countP Action.ofThread + s.work = 8 * (cfg.numProducer * cfg.numberOfWrites) := by
    refine run_history (C := fun _ _ => True)
      (P := fun pre _ s => pre.countP Action.ofThread + s.work = 8 * (cfg.numProducer * cfg.numberOfWrites)) ?_ ?_
      (along_true ..) h
    · intro pre os s a s' es hs _ hstep
      have hmove := (move_of_step hstep).work
      rw [List.countP_append, ← hs, ← hmove]
      cases ha : a.ofThread
      · simp [ha]
      · simp only [List.countP_singleton, ha, if_true, Bool.toNat_true]
        omega
    · simpa using work_initial contents
  have hsound := run_sound h
  refine ⟨by omega, fun hrest hmain => ?_⟩
  have hfinished := hsound.finished hrest hmain hconsumer
  have hzero := hfinished.work
  exact ⟨by omega, hsound.counted.consumed hsound.counts hfinished.returned hfinished.index, hfinished.index⟩

theorem one_lt_two_pow_31 : 1 < 2 ^ 31 := by decide

/-- One producer with one write, and one consumer. -/
abbrev oneEach : Config :=
  ⟨1, 1, 1, 1, Nat.le_refl 1, one_lt_two_pow_31, one_lt_two_pow_31, one_lt_two_pow_31, one_lt_two_pow_31⟩

theorem threads_come_to_rest_one : ∃ (s : State oneEach) (outs : List (List Event)),
    run step (initial oneEach fun _ => 0) (List.replicate 4 (.producer 0) ++ List.replicate 4 (.consumer 0)) = .ok (s, outs) ∧
      AtRest s ∧ outs.flatten.countP Event.isConsume = 1 * 1 ∧ s.bufferIndex = 0 := by
  have hrun : ∃ (s : State oneEach) (outs : List (List Event)), run step (initial oneEach fun _ => 0)
      (List.replicate 4 (.producer 0) ++ List.replicate 4 (.consumer 0)) = .ok (s, outs) ∧ AtRest s ∧ s.main.inside = 0 := by
    refine ⟨_, _, rfl, ?_, rfl⟩
    rintro (q | j | _) ha
    · rw [Subsingleton.elim q (0 : Fin 1)]
      exact ⟨_, rfl⟩
    · rw [Subsingleton.elim j (0 : Fin 1)]
      exact ⟨_, rfl⟩
    · cases ha
  obtain ⟨s, outs, hrun, hrest, hmain⟩ := hrun
  obtain ⟨_, hconsumed, hindex⟩ := (threads_come_to_rest (by decide) hrun).2 hrest hmain
  exact ⟨s, outs, hrun, hrest, hconsumed, hindex⟩

/-! ## The end of `main` -/

theorem Move.main_eq (hm : Move s a s' es) (ha : a.ofThread = true) : s'.main = s.main := by
  cases hm <;> first | rfl | cases ha

/-- Inside the mutex `main` steps out of it. -/
theorem mainStep_inside {loop : Bool} (hmain : s.main = .postMutex loop) :
    ∃ s', s.step .main = .ok (s', []) ∧ s'.main.rest cfg.numProducer < s.main.rest cfg.numProducer := by
  obtain ⟨sem, hsem⟩ := SemOp.apply_post s.sem Sem.mutex
  refine ⟨{ s with sem := sem, main := if loop then .waitMutex else .done }, ?_, ?_⟩
  · simp only [step, mainStep, hmain, hsem]
  · rw [hmain]
    cases loop <;> simp [MainPc.rest]

/-- When everything is written and consumed `main` goes on to its end. -/
theorem mainStep_finished (h : Finished s) (hmain : s.main.inside = 0) (hdone : s.main ≠ .done) :
    ∃ s', s.step .main = .ok (s', []) ∧ s'.main.rest cfg.numProducer < s.main.rest cfg.numProducer := by
  cases hpc : s.main with
  | join k =>
    by_cases hk : k < cfg.numProducer
    · refine ⟨{ s with main := .join (k + 1) }, ?_, ?_⟩
      · simp only [step, mainStep, hpc, dif_pos hk, if_pos (h.returned ⟨k, hk⟩)]
      · simp only [MainPc.rest]
        omega
    · refine ⟨{ s with main := .waitMutex }, ?_, ?_⟩
      · simp only [step, mainStep, hpc, dif_neg hk]
      · simp only [MainPc.rest]
        omega
  | waitMutex =>
    obtain ⟨sem, hsem⟩ := SemOp.apply_wait (show 0 < s.sem .mutex by rw [h.mutex]; exact Nat.one_pos)
    refine ⟨{ s with sem := sem, main := .postMutex (decide (s.bufferIndex ≠ 0)) }, ?_, ?_⟩
    · simp only [step, mainStep, hpc, hsem]
    · simp [MainPc.rest, h.index]
  | postMutex loop =>
    rw [hpc] at hmain
    cases hmain
  | done => exact absurd hpc hdone

/-- Until `main` is at its end, some step brings the end closer. -/
theorem Sound.step_closer (h : Sound log s) (hconsumer : 1 ≤ cfg.numConsumer) (hdone : s.main ≠ .done) :
    ∃ a s' es, s.step a = .ok (s', es) ∧
      s'.work + s'.main.rest cfg.numProducer < s.work + s.main.rest cfg.numProducer := by
  have hmainStep : (∃ s', s.step .main = .ok (s', []) ∧ s'.main.rest cfg.numProducer < s.main.rest cfg.numProducer) →
      ∃ a s' es, s.step a = .ok (s', es) ∧
        s'.work + s'.main.rest cfg.numProducer < s.work + s.main.rest cfg.numProducer := by
    rintro ⟨s', hstep, hlt⟩
    have hwork : s'.work + 0 = s.work := (move_of_step hstep).work
    exact ⟨.main, s', [], hstep, by omega⟩
  by_cases hinside : s.main.inside = 0
  · by_cases hrest : AtRest s
    · exact hmainStep (mainStep_finished (h.finished hrest hinside hconsumer) hinside hdone)
    · -- a producer or a consumer steps, and takes its unit of the work
      simp only [AtRest, not_forall, not_exists] at hrest
      obtain ⟨a, ha, hok⟩ := hrest
      cases hstep : s.step a with
      | error e => exact absurd hstep (hok e)
      | ok r =>
        obtain ⟨s', es⟩ := r
        have hwork := (move_of_step hstep).work
        rw [ha, Bool.toNat_true] at hwork
        refine ⟨a, s', es, hstep, ?_⟩
        rw [(move_of_step hstep).main_eq ha]
        omega
  · have hloop : ∃ loop, s.main = .postMutex loop := by
      cases hpc : s.main with
      | postMutex loop => exact ⟨loop, rfl⟩
      | join | waitMutex | done =>
        rw [hpc] at hinside
        exact absurd rfl hinside
    obtain ⟨loop, hpc⟩ := hloop
    exact hmainStep (mainStep_inside hpc)

/-- From every state that a run reaches, `main` can get to its end. -/
theorem reaches_done (hconsumer : 1 ≤ cfg.numConsumer) {contents : Int → UInt8} {actions : List (Action cfg)}
    {outs : List (List Event)} (h : run step (initial cfg contents) actions = .ok (s, outs)) :
    ∃ more s' outs', run step s more = .ok (s', outs') ∧ s'.main = .done ∧
      (outs ++ outs').flatten.countP Event.isConsume = cfg.numProducer * cfg.numberOfWrites := by
  have hclosest : ∀ (os : List (List Event)) (s : State cfg), Sound os.flatten s → ¬ s.main = .done →
      ∃ a s' es, True ∧ s.step a = .ok (s', es) ∧ Sound (os ++ [es]).flatten s' ∧
        (s'.main = .done ∨ s'.work + s'.main.rest cfg.numProducer < s.work + s.main.rest cfg.numProducer) := by
    intro os s hsound hdone
    obtain ⟨a, s', es, hstep, hlt⟩ := hsound.step_closer hconsumer hdone
    refine ⟨a, s', es, trivial, hstep, ?_, .inr hlt⟩
    rw [List.flatten_concat]
    exact hsound.move (move_of_step hstep)
  obtain ⟨more, s', outs', _, hrun, hsound, hdone⟩ := run_reaches (fun s : State cfg => s.main = .done)
    (fun s => s.work + s.main.rest cfg.numProducer) hclosest (run_sound h)
  exact ⟨more, s', outs', hrun, hdone, hsound.drained (by rw [hdone]; trivial)⟩

theorem reaches_done_one : ∃ (s s' : State oneEach) (outs : List (List Event)) (more : List (Action oneEach))
    (outs' : List (List Event)), run step (initial oneEach fun _ => 0) (List.replicate 4 (.producer 0)) = .ok (s, outs) ∧
      run step s more = .ok (s', outs') ∧ s'.main = .done ∧ (outs ++ outs').flatten.countP Event.isConsume = 1 * 1 := by
  obtain ⟨s, outs, hrun⟩ : ∃ (s : State oneEach) (outs : List (List Event)),
      run step (initial oneEach fun _ => 0) (List.replicate 4 (.producer 0)) = .ok (s, outs) := ⟨_, _, rfl⟩
  obtain ⟨more, s', outs', hmore, hdone, hconsumed⟩ := reaches_done (by decide) hrun
  exact ⟨s, s', outs, more, outs', hrun, hmore, hdone, hconsumed⟩

end State

end UnixSysProg.Pthread
