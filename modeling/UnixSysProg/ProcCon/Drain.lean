/-
The drain test of `main`. All consumers counted as blocked means that none holds a wakeup and, since an
insertion leaves a consumer that is not counted, that nothing was inserted after the buffer was last
found empty; with all producers joined nothing is going to be.
-/
import UnixSysProg.ProcCon.Buffer
import UnixSysProg.ProcCon.Counters

namespace UnixSysProg.ProcCon

open UnixSysProg.Lib

variable {cfg : Config}

namespace State

variable {s s' : State cfg} {a : Action cfg} {es : List Event} {q : Fin cfg.numProducer}

/-! ## Joins -/

/-- A producer that has returned is at no place of `monitor_insert`. -/
def Parked (s : State cfg) : Prop := ∀ q, s.Returned q → (s.producers q).pc = .waitMonitor

/-- The producers that `main` has joined have returned. -/
def Joined (s : State cfg) : Prop :=
  match s.main with
  | .join k => ∀ q : Fin cfg.numProducer, q < k → s.Returned q
  | _ => ∀ q, s.Returned q

theorem Joined.initial (contents : Int → UInt8) : Joined (initial cfg contents) := by
  intro q hq
  exact absurd hq (Nat.not_lt_zero _)

theorem Returned.move (h : s.Returned q) (hm : Move s a s' es) : s'.Returned q := by
  cases hm with
  | @producer q' sem _ _ =>
    unfold Returned at *
    by_cases hq : q = q'
    · subst hq
      refine h.trans ?_
      simp only [producerStep, Function.update_self, produced]
      split
      · exact le_rfl
      · exact Nat.le_succ _
    · simpa [producerStep, hq] using h
  | consumer _ => exact h
  | main hmain => unfold Returned at *; rwa [hmain.frame.2.1]

theorem Parked.move (h : Parked s) (hm : Move s a s' es) : Parked s' := by
  intro q hret
  cases hm with
  | @producer q' sem hnot _ =>
    unfold Returned at *
    by_cases hq : q = q'
    · subst hq
      simp only [producerStep, Function.update_self, produced] at hret ⊢
      split at hret
      · exact absurd hret hnot
      · rfl
    · simp only [producerStep, Function.update_of_ne hq] at hret ⊢
      exact h q hret
  | consumer _ => exact h q hret
  | main hmain =>
    unfold Returned at hret
    rw [hmain.frame.2.1] at hret ⊢
    exact h q hret

theorem Joined.move (h : Joined s) (hm : Move s a s' es) : Joined s' := by
  have hret : ∀ q, s.Returned q → s'.Returned q := fun q hq => hq.move hm
  unfold Joined at *
  rcases hm.turn_or_main with ⟨t, ht⟩ | ⟨hmain, _⟩
  · rw [ht.main]
    split at h
    · exact fun q hq => hret q (h q hq)
    · exact fun q => hret q (h q)
  · cases hmain with
    | @join k hk hpc hdone =>
      rw [hpc] at h
      intro q hq
      rcases Nat.lt_succ_iff_lt_or_eq.1 hq with hlt | heq
      · exact h q hlt
      · have hqk : q = ⟨k, hk⟩ := Fin.ext heq
        rw [hqk]
        exact hdone
    | @joined k hpc hk =>
      rw [hpc] at h
      exact fun q => h q (q.isLt.trans_le hk)
    | countWait hpc _ =>
      rw [hpc] at h
      exact h
    | countPost hpc _ =>
      rw [hpc] at h
      dsimp only
      split
      · rename_i hjoin
        split at hjoin <;> cases hjoin
      · exact h

theorem run_joined {contents : Int → UInt8} {actions : List (Action cfg)} {outs : List (List Event)}
    (h : run step (initial cfg contents) actions = .ok (s, outs)) : Parked s ∧ Joined s :=
  run_invariant (I := fun s => Parked s ∧ Joined s)
    (fun _ _ _ _ hs _ hstep => ⟨hs.1.move (move_of_step hstep), hs.2.move (move_of_step hstep)⟩)
    ⟨fun _ _ => rfl, Joined.initial contents⟩ (along_true _ _ _) h

/-! ## The test -/

/-- Everything is consumed: the buffer is empty, there is no wakeup pending, and every consumer waits for
one, or is going to once it has posted `monitor_mutex`, which is where at most one of them is. -/
structure Drained (s : State cfg) : Prop where
  empty : s.monitor.bufferIndex = -1
  wakeups : s.sem .emptyMutex = 0
  waiting : ∀ j, (s.consumers j).pc = .blockedWait ∨ (s.consumers j).pc = .blockedPostMonitor
  leaving : ∀ j k, (s.consumers j).pc = .blockedPostMonitor → (s.consumers k).pc = .blockedPostMonitor → j = k

/-- All consumers counted, with `consumer_mutex` in hand, and all producers gone. -/
theorem ConsumersCounted.drained (h : ConsumersCounted s) (hsound : Sound s) (hc : 1 ≤ cfg.numConsumer)
    (hparked : ∀ q, (s.producers q).pc = .waitMonitor) (hmutex : 0 < s.sem .consumerMutex)
    (hcount : s.monitor.condEmpty.blockedThreadCount.toInt = cfg.numConsumer) : Drained s := by
  have hexact := h.exact
  have hle := s.consumersWaiting_le
  have hall : ∀ j, (s.consumers j).pc.waiting = 1 :=
    tally_full (w := fun t : Consumer => t.pc.waiting) (fun t => t.pc.waiting_le)
      (by rw [Fintype.card_fin]; exact Int.ofNat_le.1 (by rw [← hcount]; unfold consumersWaiting at hexact; omega))
  have hfree : ∀ j, (s.consumers j).pc.holds .consumerMutex = 0 := fun j => by
    have hheld := le_tally (Place.holds .consumerMutex) s.place (.inr j)
    have := h.locked .consumerMutex rfl
    have : (s.place (.inr j)).holds .consumerMutex = 0 := by omega
    exact this
  have hwaiting : ∀ j, (s.consumers j).pc = .blockedWait ∨ (s.consumers j).pc = .blockedPostMonitor := fun j => by
    exact RemovePc.of_waiting (hall j) (hfree j)
  have hleaving : ∀ j k, (s.consumers j).pc = .blockedPostMonitor → (s.consumers k).pc = .blockedPostMonitor → j = k := by
    intro j k hj hk
    by_contra hne
    refine h.locked.alone (t := .inr j) (u := .inr k) ?_ (fun he => hne (Sum.inr.inj he).symm) ?_
    · rw [place_inr, hj]; rfl
    · rw [place_inr, hk]; rfl
  -- one consumer speaks for the monitor: the one inside, if there is one
  have hone : ∃ j : Fin cfg.numConsumer, ∀ u, u ≠ .inr j → ¬ (s.place u).inside := by
    by_cases hin : ∃ j, (s.consumers j).pc = .blockedPostMonitor
    · obtain ⟨j, hj⟩ := hin
      exact ⟨j, fun u hu => h.locked.alone (t := .inr j) (by rw [place_inr, hj]; rfl) hu⟩
    · refine ⟨⟨0, hc⟩, fun u _ => ?_⟩
      rcases u with q | j
      · rw [place_inl, hparked q]; decide
      · rw [place_inr, (hwaiting j).resolve_right fun hj => hin ⟨j, hj⟩]; decide
  obtain ⟨j, hj⟩ := hone
  have hflags : Flags cfg.bufferLength s.monitor := by
    have := hsound.flags.outside hj
    rcases hwaiting j with hpc | hpc <;> rw [place_inr, hpc] at this
    · exact this
    · exact this.1
  have hspare : s.monitor.condEmpty.blocked = false → Spare cfg.numConsumer s.monitor := by
    have := h.spare.outside hj
    rcases hwaiting j with hpc | hpc <;> rw [place_inr, hpc] at this <;> exact this
  have hblocked : s.monitor.condEmpty.blocked = true := by
    by_contra hb
    have := hspare (by simpa using hb)
    unfold Spare at this
    omega
  exact ⟨hflags.empty.1 hblocked, by omega, hwaiting, hleaving⟩

/-- When `main`, past its joins, reads that all consumers are blocked, everything inserted has been
removed and every consumer waits, or is about to, with no wakeup pending. -/
theorem drain_test_sound (hc : 1 ≤ cfg.numConsumer) {contents : Int → UInt8} {actions : List (Action cfg)}
    {outs : List (List Event)} {num : Int32} (hrun : run step (initial cfg contents) actions = .ok (s, outs))
    (hstep : s.step .main = .ok (s', es)) (hread : s'.main = .countPost num) (hnum : num.toInt = cfg.numConsumer) :
    (∀ q, s'.Returned q) ∧ Drained s' ∧
      outs.flatten.countP Event.isRemoved = outs.flatten.countP Event.isInserted := by
  have hcounted := run_consumersCounted hrun
  have hsound := run_sound hrun
  obtain ⟨hparked, hjoined⟩ := run_joined hrun
  cases move_of_step hstep with
  | main hmain =>
    cases hmain with
    | @countWait sem hpc hop =>
      cases hread
      unfold Joined at hjoined
      rw [hpc] at hjoined
      have hplace : ∀ q, (s.producers q).pc = .waitMonitor := fun q => hparked q (hjoined q)
      have hdrained := hcounted.drained hsound hc hplace (SemOp.pos_of_apply_wait hop) hnum
      have hsem : sem .emptyMutex = s.sem .emptyMutex := (MainTurn.countWait hpc hop).sem (by simp)
      refine ⟨hjoined, ⟨hdrained.empty, hsem.trans hdrained.wakeups, hdrained.waiting, hdrained.leaving⟩, ?_⟩
      have hacc := run_account hrun
      have hwrote : tally Place.wrote s.place = 0 := tally_eq_zero.2 fun t => by
        rcases t with q | j
        · rw [place_inl, hplace q]; rfl
        · rfl
      have htook : tally Place.took s.place = 0 := tally_eq_zero.2 fun t => by
        rcases t with q | j
        · rfl
        · rw [place_inr]
          rcases hdrained.waiting j with hj | hj <;> rw [hj] <;> rfl
      have h1 := hacc.inserted
      have h2 := hacc.removed
      have h3 := hacc.index
      rw [hdrained.empty] at h3
      omega
    | join _ _ _ | joined _ _ => cases hread
    | countPost _ _ =>
      dsimp only at hread
      split at hread <;> cases hread

/-- One character written and read, and the consumer back for another one. -/
theorem drain_test_sound_one : ∃ (s' : State (.ofWrites 1 1 (by decide) (by decide))) (outs : List (List Event)),
    s'.main = .countPost 1 ∧ Drained s' ∧ outs.flatten.countP Event.isInserted = 1 ∧
      outs.flatten.countP Event.isRemoved = outs.flatten.countP Event.isInserted := by
  have hrun : ∃ (s s' : State (.ofWrites 1 1 (by decide) (by decide))) (outs : List (List Event)) (es : List Event),
      run step (initial _ fun _ => 0) (List.replicate 10 (.producer 0) ++ List.replicate 14 (.consumer 0) ++ [.main, .main]) =
        .ok (s, outs) ∧ s.step .main = .ok (s', es) ∧ s'.main = .countPost 1 ∧
        outs.flatten.countP Event.isInserted = 1 := ⟨_, _, _, _, rfl, rfl, rfl, rfl⟩
  obtain ⟨s, s', outs, es, hrun, hstep, hread, houts⟩ := hrun
  have hsound := drain_test_sound (by decide) hrun hstep hread rfl
  exact ⟨s', outs, hread, hsound.2.1, houts, hsound.2.2⟩

/-- `main` reads the count while the consumer has still to post `monitor_mutex` before it waits. -/
theorem consumer_not_waiting : ∃ (s s' : State (.ofWrites 1 1 (by decide) (by decide))) (outs : List (List Event))
    (es : List Event), run step (initial _ fun _ => 0)
      (List.replicate 10 (.producer 0) ++ List.replicate 13 (.consumer 0) ++ [.main, .main]) = .ok (s, outs) ∧
    s.step .main = .ok (s', es) ∧ s'.main = .countPost 1 ∧ (s'.consumers 0).pc = .blockedPostMonitor :=
  ⟨_, _, _, _, rfl, rfl, rfl, rfl⟩

end State

end UnixSysProg.ProcCon
