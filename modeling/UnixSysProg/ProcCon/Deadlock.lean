/-
Deadlock in the monitor. A thread that holds a mutex is about to post it or waits for one of the two inner
mutexes, whose holder is about to post; so when nothing moves the monitor is free and every thread is at
its end or waits for a wakeup, and the wakeups are accounted for. The one way into a deadlock is the
counter of blocked producers that wraps to a negative number, upon which removals stop posting.
-/
import UnixSysProg.ProcCon.Wakeups
import UnixSysProg.ProcCon.Alone

namespace UnixSysProg.ProcCon

open UnixSysProg.Lib

/-- A thread that holds one of the inner mutexes is about to post. -/
theorem Place.post_of_holds {x : Place} {k : Sem} (hk : k = .producerMutex ∨ k = .consumerMutex) (hx : x.holds k = 1) :
    ∃ k', x.op = .post k' := by
  rcases x with pc | pc
  all_goals
    rcases hk with rfl | rfl
    all_goals cases pc <;> first | exact ⟨_, rfl⟩ | cases hx

/-- A thread in the monitor is about to post, or waits for one of the inner mutexes. -/
theorem Place.op_of_inside {x : Place} (hx : x.inside) :
    (∃ k, x.op = .post k) ∨ x.op = .wait .producerMutex ∨ x.op = .wait .consumerMutex := by
  rcases x with pc | pc
  all_goals
    cases pc <;> first
      | exact .inl ⟨_, rfl⟩
      | exact .inr (.inl rfl)
      | exact .inr (.inr rfl)
      | cases hx

theorem InsertPc.of_outside {pc : InsertPc} (h : ¬ Place.inside (.inl pc)) : pc = .waitMonitor ∨ pc = .blockedWait := by
  cases pc <;> first
    | exact .inl rfl
    | exact .inr rfl
    | exact absurd rfl h

theorem RemovePc.of_outside {pc : RemovePc} (h : ¬ Place.inside (.inr pc)) : pc = .waitMonitor ∨ pc = .blockedWait := by
  cases pc <;> first
    | exact .inl rfl
    | exact .inr rfl
    | exact absurd rfl h

variable {cfg : Config}

namespace State

variable {s s' : State cfg} {q : Fin cfg.numProducer} {j : Fin cfg.numConsumer}

/-- A producer or consumer can take its step. -/
def CanStep (s : State cfg) : Fin cfg.numProducer ⊕ Fin cfg.numConsumer → Prop
  | .inl q => ∃ s' es, s.step (.producer q) = .ok (s', es)
  | .inr j => ∃ s' es, s.step (.consumer j) = .ok (s', es)

/-- All producers have returned, the buffer is empty and all consumers wait on `cond_empty.mutex`. -/
structure Finished (s : State cfg) : Prop where
  returned : ∀ q, s.Returned q
  empty : s.monitor.bufferIndex = -1
  waiting : ∀ j, (s.consumers j).pc = .blockedWait

theorem canStep_producer (hnot : ¬ s.Returned q) {sem : Sem → Nat} (hop : (s.producers q).pc.op.apply s.sem = some sem) :
    s.CanStep (.inl q) :=
  ⟨(s.producerStep q sem).1, (s.producerStep q sem).2, step_producer hnot hop⟩

theorem canStep_consumer {sem : Sem → Nat} (hop : (s.consumers j).pc.op.apply s.sem = some sem) :
    s.CanStep (.inr j) :=
  ⟨(s.consumerStep j sem).1, (s.consumerStep j sem).2, step_consumer hop⟩

theorem canStep_main {num : Int32} (hnum : s.main = .countPost num) : ∃ s' es, s.step .main = .ok (s', es) := by
  refine ⟨{ s with
    sem := Function.update s.sem .consumerMutex (s.sem .consumerMutex + 1)
    main := if num.toInt = cfg.numConsumer then .done else .countWait }, [], ?_⟩
  simp only [step]
  rw [mainStep, hnum]
  rfl

/-- A thread in the monitor, or with one of the inner mutexes, has not returned. -/
theorem canStep_of_apply (hparked : Parked s) {t : Fin cfg.numProducer ⊕ Fin cfg.numConsumer} {sem : Sem → Nat}
    (hop : (s.place t).op.apply s.sem = some sem) (ht : (s.place t).op ≠ .wait .monitorMutex) : s.CanStep t := by
  rcases t with q | j
  · refine canStep_producer (fun hret => ht ?_) hop
    rw [place_inl, hparked q hret]
    rfl
  · exact canStep_consumer hop

section

variable (hstuck : ∀ t, ¬ s.CanStep t) (hmain : ∀ num, s.main ≠ .countPost num)
include hstuck hmain

/-- When nothing moves no one holds one of the inner mutexes. -/
theorem Locked.inner_free (hl : Locked s) (hparked : Parked s) {k : Sem} (hk : k = .producerMutex ∨ k = .consumerMutex) :
    s.sem k = 1 := by
  have hnone : tally (Place.holds k) s.place = 0 := tally_eq_zero.2 fun t => by
    by_contra hne
    have hle := (s.place t).holds_le k
    obtain ⟨k', hop⟩ := Place.post_of_holds hk (x := s.place t) (by omega)
    obtain ⟨sem, happly⟩ := SemOp.apply_post s.sem k'
    exact hstuck t (canStep_of_apply hparked (by rw [hop]; exact happly) (by rw [hop]; simp))
  have hs := hl k (by rcases hk with rfl | rfl <;> rfl)
  have hm : s.main.holds k = 0 := by
    cases hpc : s.main with
    | countPost num => exact absurd hpc (hmain num)
    | _ => rcases hk with rfl | rfl <;> rfl
  omega

/-- When nothing moves the monitor is free. -/
theorem Locked.stuck_free (hl : Locked s) (hparked : Parked s) : ∀ t, ¬ (s.place t).inside := by
  intro t ht
  have hwait : ∀ k : Sem, k = .producerMutex ∨ k = .consumerMutex → (s.place t).op ≠ .wait k := by
    intro k hk hop
    have hpos : 0 < s.sem k := by rw [hl.inner_free hstuck hmain hparked hk]; exact one_pos
    obtain ⟨sem, happly⟩ := SemOp.apply_wait hpos
    exact hstuck t (canStep_of_apply hparked (by rw [hop]; exact happly) (by rw [hop]; rcases hk with rfl | rfl <;> simp))
  rcases Place.op_of_inside ht with ⟨k, hop⟩ | hop | hop
  · obtain ⟨sem, happly⟩ := SemOp.apply_post s.sem k
    exact hstuck t (canStep_of_apply hparked (by rw [hop]; exact happly) (by rw [hop]; simp))
  · exact hwait _ (.inl rfl) hop
  · exact hwait _ (.inr rfl) hop

/-- When nothing moves every producer has returned or waits for a permit that is not there. -/
theorem Locked.stuck_producer (hl : Locked s) (hparked : Parked s) (hnot : ¬ s.Returned q) :
    (s.producers q).pc = .blockedWait ∧ s.sem .fullMutex = 0 := by
  have hout := hl.stuck_free hstuck hmain hparked
  have hblocked : ∀ k, (s.producers q).pc.op = .wait k → s.sem k = 0 := fun k hop => by
    by_contra hpos
    obtain ⟨sem, happly⟩ := SemOp.apply_wait (Nat.pos_of_ne_zero hpos)
    exact hstuck (.inl q) (canStep_producer hnot (by rw [hop]; exact happly))
  rcases InsertPc.of_outside (show ¬ Place.inside (.inl (s.producers q).pc) from hout (.inl q)) with hpc | hpc
  · have hfree := hl.free_iff.2 hout
    rw [Free, hblocked .monitorMutex (by rw [hpc]; rfl)] at hfree
    cases hfree
  · exact ⟨hpc, hblocked .fullMutex (by rw [hpc]; rfl)⟩

theorem Locked.stuck_consumer (hl : Locked s) (hparked : Parked s) (j : Fin cfg.numConsumer) :
    (s.consumers j).pc = .blockedWait ∧ s.sem .emptyMutex = 0 := by
  have hout := hl.stuck_free hstuck hmain hparked
  have hblocked : ∀ k, (s.consumers j).pc.op = .wait k → s.sem k = 0 := fun k hop => by
    by_contra hpos
    obtain ⟨sem, happly⟩ := SemOp.apply_wait (Nat.pos_of_ne_zero hpos)
    exact hstuck (.inr j) (canStep_consumer (by rw [hop]; exact happly))
  rcases RemovePc.of_outside (show ¬ Place.inside (.inr (s.consumers j).pc) from hout (.inr j)) with hpc | hpc
  · have hfree := hl.free_iff.2 hout
    rw [Free, hblocked .monitorMutex (by rw [hpc]; rfl)] at hfree
    cases hfree
  · exact ⟨hpc, hblocked .emptyMutex (by rw [hpc]; rfl)⟩

end

/-- What is known in a run in which every removal made while a producer waits signals. -/
structure Alive (s : State cfg) : Prop where
  sound : Sound s
  counted : ConsumersCounted s
  parked : Parked s
  woken : Woken s

theorem Alive.initial (contents : Int → UInt8) : Alive (initial cfg contents) :=
  ⟨Sound.initial contents, ConsumersCounted.initial contents, fun _ _ => rfl, Woken.initial contents⟩

theorem Alive.move {a : Action cfg} {es : List Event} (h : Alive s) (hm : Move s a s' es)
    (hsignals : SignalsWaiting s a) : Alive s' :=
  ⟨h.sound.move hm, h.counted.move hm, h.parked.move hm, h.woken.move h.sound hm hsignals⟩

/-- When nothing moves everything is done. -/
theorem Alive.finished (h : Alive s) (hc : 1 ≤ cfg.numConsumer) (hstuck : ∀ t, ¬ s.CanStep t)
    (hmain : ∀ num, s.main ≠ .countPost num) : Finished s := by
  have hl := h.sound.locked
  have hparked := h.parked
  have hout := hl.stuck_free hstuck hmain hparked
  have hconsumer := hl.stuck_consumer hstuck hmain hparked
  -- all consumers are counted, so that the buffer is empty
  have hcount : s.monitor.condEmpty.blockedThreadCount.toInt = cfg.numConsumer := by
    have hall : s.consumersWaiting = cfg.numConsumer := by
      have : (fun j => (s.consumers j).pc.waiting) = fun _ => 1 := funext fun j => by rw [(hconsumer j).1]; rfl
      rw [consumersWaiting, tally, this]
      simp
    have hexact := h.counted.exact
    rw [(hconsumer ⟨0, hc⟩).2, hall] at hexact
    simpa using hexact
  have hflags := h.sound.flags.free hout
  have hempty : s.monitor.bufferIndex = -1 := by
    refine hflags.empty.1 ?_
    by_contra hb
    have hspare : Spare cfg.numConsumer s.monitor := h.counted.spare.free hout (by simpa using hb)
    unfold Spare at hspare
    omega
  refine ⟨fun q => ?_, hempty, fun j => (hconsumer j).1⟩
  by_contra hnot
  obtain ⟨hpc, hsem⟩ := hl.stuck_producer hstuck hmain hparked hnot
  have hwaiting : 0 < s.producersWaiting := by
    have := le_tally (fun t : Producer => t.pc.waiting) s.producers q
    rw [hpc] at this
    exact this
  have hactive : s.producersActive = 0 := tally_eq_zero.2 fun q' => by
    by_cases hret : s.Returned q'
    · exact if_pos hret
    · refine (if_neg hret).trans ?_
      rw [(hl.stuck_producer hstuck hmain hparked hret).1]
      rfl
  have hpending : s.signalsPending = 0 := tally_eq_zero.2 fun t => by
    rcases t with q' | j
    · rfl
    · rw [place_inr, (hconsumer j).1]
      rfl
  have hsupply := h.woken hwaiting
  have hL := cfg.bufferLength_pos
  omega

/-- In a run in which every removal made while a producer waits signals, some producer or consumer can take a
step, or `main` can that holds `consumer_mutex`, unless everything is done. -/
theorem deadlock_free (hc : 1 ≤ cfg.numConsumer) {contents : Int → UInt8} {actions : List (Action cfg)}
    {outs : List (List Event)} (h : run step (initial cfg contents) actions = .ok (s, outs))
    (hsignals : Along step SignalsWaiting (initial cfg contents) actions) :
    (∃ a s' es, s.step a = .ok (s', es) ∧ (a = .main → ∃ num, s.main = .countPost num)) ∨ Finished s := by
  have halive : Alive s := run_invariant (I := Alive)
    (fun _ _ _ _ hs ha hstep => hs.move (move_of_step hstep) ha) (Alive.initial contents) hsignals h
  by_cases hmain : ∃ num, s.main = .countPost num
  · obtain ⟨num, hnum⟩ := hmain
    obtain ⟨s', es, hstep⟩ := canStep_main hnum
    exact .inl ⟨.main, s', es, hstep, fun _ => ⟨num, hnum⟩⟩
  by_cases hstuck : ∃ t, s.CanStep t
  · obtain ⟨t | t, s', es, hstep⟩ := hstuck
    · exact .inl ⟨.producer t, s', es, hstep, by simp⟩
    · exact .inl ⟨.consumer t, s', es, hstep, by simp⟩
  · exact .inr (halive.finished hc (fun t ht => hstuck ⟨t, ht⟩) fun num hnum => hmain ⟨num, hnum⟩)

/-- A producer that has waited for room, woken by the consumer. -/
theorem deadlock_free_two_writes : ∃ (s : State (.ofWrites 1 2 (by decide) (by decide))) (outs : List (List Event)),
    run step (initial _ fun _ => 0) (List.replicate 14 (.producer 0) ++ List.replicate 13 (.consumer 0) ++
      [.producer 0]) = .ok (s, outs) ∧ s.monitor.condFull.blockedThreadCount = 1 ∧
      ((∃ a s' es, s.step a = .ok (s', es) ∧ (a = .main → ∃ num, s.main = .countPost num)) ∨ Finished s) := by
  have hrun : ∃ (s : State (.ofWrites 1 2 (by decide) (by decide))) (outs : List (List Event)),
      run step (initial _ fun _ => 0) (List.replicate 14 (.producer 0) ++ List.replicate 13 (.consumer 0) ++
        [.producer 0]) = .ok (s, outs) ∧ s.monitor.condFull.blockedThreadCount = 1 := ⟨_, _, rfl, rfl⟩
  obtain ⟨s, outs, hrun, hcount⟩ := hrun
  exact ⟨s, outs, hrun, hcount, deadlock_free (by decide) hrun (along_signalsWaiting (by decide))⟩

/-! ## The counter wraps -/

/-- Two producers of as many writes as an `int` can say. -/
abbrev wrapping : Config := .ofWrites 2 2147483647 (by decide) (by decide)

def two (first second : Producer) : Fin 2 → Producer
  | 0 => first
  | 1 => second

theorem two_update_first (first second t : Producer) : Function.update (two first second) 0 t = two t second := by
  funext q
  match q with
  | 0 => rfl
  | 1 => rfl

theorem two_update_second (first second t : Producer) : Function.update (two first second) 1 t = two first t := by
  funext q
  match q with
  | 0 => rfl
  | 1 => rfl

theorem one_update (f : Fin 1 → Consumer) (t : Consumer) : Function.update f 0 t = fun _ => t := by
  funext j
  rw [Subsingleton.elim j 0, Function.update_self]

/-- Where the program stands between two calls. -/
structure At (index : Int) (empty full : Cv) (tokens : Nat) (producers : Fin 2 → Producer) (consumer : Consumer)
    (s : State wrapping) : Prop where
  monitor : ∃ b, s.monitor = ⟨index, b, empty, full⟩
  sem : s.sem = Sem.free 0 tokens
  producers : s.producers = producers
  consumers : s.consumers = fun _ => consumer
  main : s.main = .join 0

section

variable {index : Int} {empty full : Cv} {n : Int32} {tokens i : Nat} {ps : Fin 2 → Producer} {c : Consumer}
  {s : State wrapping} {q : Fin 2}

theorem At.block (h : At index empty ⟨true, n⟩ tokens ps c s) (hq : ps q = .turn i) (hi : i < 2147483647) :
    ∃ s', Reaches step s s' ∧ At index empty ⟨true, n + 1⟩ tokens (Function.update ps q ⟨i, .blockedWait⟩) c s' := by
  obtain ⟨⟨b, hmonitor⟩, hsem, rfl, hconsumers, hmain⟩ := h
  obtain ⟨outs, hrun⟩ := run_insertAlone (q := q) (n := 4) (s := s) (by unfold Returned; rw [hq]; exact not_le.2 hi)
    (by rw [hmonitor, hsem, hq]; exact Monitor.insertAlone_block)
  exact ⟨_, ⟨_, outs, hrun⟩, ⟨b, rfl⟩, rfl, by rw [produced, hq]; rfl, hconsumers, hmain⟩

theorem At.wake (h : At (-1) ⟨true, 0⟩ ⟨false, n⟩ (tokens + 1) ps c s) (hq : ps q = ⟨i, .blockedWait⟩)
    (hi : i < 2147483647) : ∃ s', Reaches step s s' ∧
      At 0 ⟨false, 0⟩ ⟨true, n⟩ tokens (Function.update ps q (.turn (i + 1))) c s' := by
  obtain ⟨⟨b, hmonitor⟩, hsem, rfl, hconsumers, hmain⟩ := h
  obtain ⟨outs, hrun⟩ := run_insertAlone (q := q) (n := 11) (s := s) (by unfold Returned; rw [hq]; exact not_le.2 hi)
    (by rw [hmonitor, hsem, hq]; exact Monitor.insertAlone_wake)
  exact ⟨_, ⟨_, outs, hrun⟩, ⟨_, rfl⟩, rfl, by rw [produced, hq], hconsumers, hmain⟩

theorem At.remove (h : At 0 ⟨false, 0⟩ ⟨true, n⟩ tokens ps .turn s) :
    ∃ s', Reaches step s s' ∧ At (-1) ⟨true, 0⟩ ⟨false, n⟩ (if 0 < n then tokens + 1 else tokens) ps .turn s' := by
  obtain ⟨⟨b, hmonitor⟩, hsem, hproducers, hconsumers, hmain⟩ := h
  have hcall : ∃ k, Monitor.removeAlone k s.monitor s.sem (s.consumers 0).ch (s.consumers 0).pc =
      some (⟨-1, b, ⟨true, 0⟩, ⟨false, n⟩⟩, Sem.free 0 (if 0 < n then tokens + 1 else tokens), .turn) := by
    rw [hmonitor, hsem, hconsumers]
    by_cases hn : 0 < n
    · rw [if_pos hn]
      exact ⟨13, Monitor.removeAlone_signal hn⟩
    · rw [if_neg hn]
      exact ⟨10, Monitor.removeAlone_silent hn⟩
  obtain ⟨k, hcall⟩ := hcall
  obtain ⟨outs, hrun⟩ := run_removeAlone hcall
  exact ⟨_, ⟨_, outs, hrun⟩, ⟨b, rfl⟩, rfl, hproducers, one_update _ _, hmain⟩

theorem At.blockConsumer (h : At (-1) ⟨true, 0⟩ ⟨false, n⟩ tokens ps .turn s) :
    ∃ s', Reaches step s s' ∧ At (-1) ⟨true, 1⟩ ⟨false, n⟩ tokens ps ⟨.blockedWait, 97⟩ s' := by
  obtain ⟨⟨b, hmonitor⟩, hsem, hproducers, hconsumers, hmain⟩ := h
  obtain ⟨outs, hrun⟩ := run_removeAlone (j := 0) (n := 4) (s := s)
    (by rw [hmonitor, hsem, hconsumers]; exact Monitor.removeAlone_block)
  exact ⟨_, ⟨_, outs, hrun⟩, ⟨b, rfl⟩, rfl, hproducers, one_update _ _, hmain⟩

end

/-- A producer that finds room fills the buffer, waits, and is woken by the removal: the counter is one up. -/
theorem At.round {n : Int32} {i : Nat} {s : State wrapping}
    (h : At 0 ⟨false, 0⟩ ⟨true, n⟩ 0 (two (.turn i) (.turn 0)) .turn s) (hi : i < 2147483647) (hn : 0 < n + 1) :
    ∃ s', Reaches step s s' ∧ At 0 ⟨false, 0⟩ ⟨true, n + 1⟩ 0 (two (.turn (i + 1)) (.turn 0)) .turn s' := by
  obtain ⟨s₁, hreach₁, h₁⟩ := h.block (q := 0) rfl hi
  obtain ⟨s₂, hreach₂, h₂⟩ := h₁.remove
  rw [two_update_first, if_pos hn] at h₂
  obtain ⟨s₃, hreach₃, h₃⟩ := h₂.wake (q := 0) rfl hi
  rw [two_update_first] at h₃
  exact ⟨s₃, hreach₁.trans (hreach₂.trans hreach₃), h₃⟩

/-- The counter gets as high as there are writes to make. -/
theorem reaches_count : ∀ {k : Nat}, k ≤ 2147483645 → ∃ s', Reaches step (initial wrapping fun _ => 0) s' ∧
    At 0 ⟨false, 0⟩ ⟨true, Int32.ofNat k⟩ 0 (two (.turn (k + 1)) (.turn 0)) .turn s'
  | 0, _ => by
    have hsem : (initial wrapping fun _ => 0).sem = Sem.free 0 0 := funext fun k => by cases k <;> rfl
    obtain ⟨outs, hrun⟩ := run_insertAlone (q := 0) (n := 10) (s := initial wrapping fun _ => 0) (by decide)
      (by rw [hsem]; exact Monitor.insertAlone_fill)
    have hproducers : (initial wrapping fun _ => 0).producers = two (.turn 0) (.turn 0) := funext fun q => by
      match q with
      | 0 => rfl
      | 1 => rfl
    exact ⟨_, ⟨_, outs, hrun⟩, ⟨_, rfl⟩, rfl, by rw [hproducers]; exact two_update_first _ _ _, rfl, rfl⟩
  | k + 1, hk => by
    obtain ⟨s, hreach, h⟩ := reaches_count (k := k) (by omega)
    have hsucc : Int32.ofNat k + 1 = Int32.ofNat (k + 1) := by
      rw [Int32.ofNat_add]
      rfl
    have hpos : 0 < Int32.ofNat k + 1 := by
      rw [hsucc, Int32.lt_iff_toInt_lt, Int32.toInt_ofNat_of_lt (by omega)]
      exact Int.natCast_succ_pos k
    obtain ⟨s', hreach', h'⟩ := h.round (by omega) hpos
    rw [hsucc] at h'
    exact ⟨s', hreach.trans hreach', h'⟩

/-- Two producers that wait for room have counted up to the largest `int`, and one of them blocks once more:
the removal that follows posts no permit, and nothing moves any more. -/
theorem deadlock_after_wrap : ∃ s : State wrapping, Reaches step (initial wrapping fun _ => 0) s ∧
    (∀ a, s.step a = .error .blocked) ∧ ¬ s.Returned 1 := by
  obtain ⟨s₀, hreach₀, h₀⟩ := reaches_count (k := 2147483645) le_rfl
  obtain ⟨s₁, hreach₁, h₁⟩ := h₀.block (q := 0) rfl (by decide)
  rw [two_update_first] at h₁
  obtain ⟨s₂, hreach₂, h₂⟩ := h₁.block (q := 1) rfl (by decide)
  rw [two_update_second] at h₂
  obtain ⟨s₃, hreach₃, h₃⟩ := h₂.remove
  rw [if_pos (by decide)] at h₃
  obtain ⟨s₄, hreach₄, h₄⟩ := h₃.wake (q := 0) rfl (by decide)
  rw [two_update_first] at h₄
  obtain ⟨s₅, hreach₅, h₅⟩ := h₄.remove
  rw [if_pos (by decide)] at h₅
  obtain ⟨s₆, hreach₆, h₆⟩ := h₅.wake (q := 1) rfl (by decide)
  rw [two_update_second] at h₆
  obtain ⟨s₇, hreach₇, h₇⟩ := h₆.block (q := 1) rfl (by decide)
  rw [two_update_second] at h₇
  obtain ⟨s₈, hreach₈, h₈⟩ := h₇.remove
  rw [if_neg (by decide)] at h₈
  obtain ⟨s₉, hreach₉, ⟨b, hmonitor⟩, hsem, hproducers, hconsumers, hmain⟩ := h₈.blockConsumer
  -- `main` joins the producer that has returned
  have hreturned : s₉.Returned 0 := by
    unfold Returned
    rw [hproducers]
    decide
  have hjoin : s₉.step .main = .ok ({ s₉ with main := .join 1 }, []) := by
    simp only [step]
    rw [mainStep, hmain]
    exact (dif_pos (by decide)).trans (if_pos hreturned)
  have hreach : Reaches step s₉ { s₉ with main := .join 1 } := ⟨[.main], [[]], run_cons_ok.2 ⟨_, [], [], hjoin, rfl, rfl⟩⟩
  have hwaits : ¬ s₉.Returned 1 := by
    unfold Returned
    rw [hproducers]
    decide
  refine ⟨{ s₉ with main := .join 1 }, hreach₀.trans (hreach₁.trans (hreach₂.trans (hreach₃.trans (hreach₄.trans
    (hreach₅.trans (hreach₆.trans (hreach₇.trans (hreach₈.trans (hreach₉.trans hreach))))))))), fun a => ?_, hwaits⟩
  cases a with
  | producer q =>
    have hq : q = 0 ∨ q = 1 := (Fin.forall_fin_two.2 ⟨.inl rfl, .inr rfl⟩ : ∀ q : Fin 2, q = 0 ∨ q = 1) q
    rcases hq with rfl | rfl
    · exact if_pos hreturned
    · refine (if_neg hwaits).trans ?_
      dsimp only
      rw [hproducers, hsem]
      rfl
  | consumer j =>
    simp only [step]
    rw [hconsumers, hsem]
    rfl
  | main =>
    simp only [step, mainStep]
    rw [dif_pos (by decide : 1 < wrapping.numProducer)]
    exact if_neg hwaits

end State

end UnixSysProg.ProcCon
