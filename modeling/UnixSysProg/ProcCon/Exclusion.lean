/-
The three mutexes of the monitor. Each permit is free or held by the one thread that is between the wait
and the post, so that at most one thread is between the wait and the post of `monitor_mutex`; what the
code asserts of the monitor at each place between them is then an invariant of all interleavings.
-/
import UnixSysProg.ProcCon.Threads
import UnixSysProg.Lib.Mutex

namespace UnixSysProg.ProcCon

open UnixSysProg.Lib

/-! ## Who holds what -/

/-- The permits of a mutex that a thread holds at a place of `monitor_insert`. -/
def InsertPc.holds : Sem → InsertPc → Nat
  | .monitorMutex, .waitMonitor | .monitorMutex, .blockedWait => 0
  | .monitorMutex, _ => 1
  | .producerMutex, .blockedPostProducer | .producerMutex, .postProducer | .producerMutex, .fullPost => 1
  | .consumerMutex, .postConsumer | .consumerMutex, .countPost _ | .consumerMutex, .signalPost
  | .consumerMutex, .signalDone => 1
  | _, _ => 0

/-- The permits of a mutex that a thread holds at a place of `monitor_remove`. -/
def RemovePc.holds : Sem → RemovePc → Nat
  | .monitorMutex, .waitMonitor | .monitorMutex, .blockedWait => 0
  | .monitorMutex, _ => 1
  | .producerMutex, .countPost _ | .producerMutex, .flagPost => 1
  | .consumerMutex, .blockedPostConsumer | .consumerMutex, .postConsumer | .consumerMutex, .signalPost
  | .consumerMutex, .signalDone | .consumerMutex, .emptyPost => 1
  | _, _ => 0

def Place.holds (k : Sem) : Place → Nat := Sum.elim (InsertPc.holds k) (RemovePc.holds k)

def MainPc.holds : Sem → MainPc → Nat
  | .consumerMutex, .countPost _ => 1
  | _, _ => 0

/-- The thread is in the monitor. -/
def Place.inside (x : Place) : Prop := x.holds .monitorMutex = 1

instance (x : Place) : Decidable x.inside := inferInstanceAs (Decidable (_ = _))

theorem Place.holds_le (k : Sem) (x : Place) : x.holds k ≤ 1 := by
  rcases x with pc | pc
  all_goals cases k <;> cases pc <;> first | exact Nat.le_refl 1 | exact Nat.zero_le 1

variable {bufferLength : Nat} {m m' : Monitor} {x y : Place} {es : List Event}

theorem insertCheck_cases (m : Monitor) (bufferLength : Nat) :
    m.insertCheck bufferLength = .fullWait ∨ m.insertCheck bufferLength = .postMonitor := by
  unfold Monitor.insertCheck
  split
  · exact .inl rfl
  · exact .inr rfl

theorem insertCheck_holds (m : Monitor) (bufferLength : Nat) (k : Sem) :
    Place.holds k (.inl (m.insertCheck bufferLength)) = if k = .monitorMutex then 1 else 0 := by
  rcases insertCheck_cases m bufferLength with h | h <;> rw [h] <;> cases k <;> rfl

/-- A thread comes to hold what its operation takes, and loses what it gives back. -/
theorem Proceeds.holds (h : Proceeds bufferLength m x m' y es) {k : Sem} (hk : k.initial = 1) :
    y.holds k + x.op.posts k = x.holds k + x.op.waits k := by
  cases h with
  | insert ch pc =>
    cases pc with
    | waitProducer =>
      dsimp only [Monitor.monitorInsert]
      split <;> cases k <;> rfl
    | countPost num =>
      dsimp only [Monitor.monitorInsert, Option.getD_some]
      split
      · cases k <;> rfl
      · rw [insertCheck_holds m bufferLength k]
        cases k <;> rfl
    | signalDone =>
      dsimp only [Monitor.monitorInsert, Option.getD_some]
      rw [insertCheck_holds m bufferLength k]
      cases k <;> rfl
    | _ => cases k <;> first | rfl | cases hk
  | remove ch pc =>
    cases pc with
    | waitConsumer | countPost num | flagPost =>
      dsimp only [Monitor.monitorRemove, Option.getD_some]
      split <;> cases k <;> rfl
    | _ => cases k <;> first | rfl | cases hk

/-- Outside the monitor no thread changes it. -/
theorem Proceeds.outside (h : Proceeds bufferLength m x m' y es) (hx : ¬ x.inside) : m' = m := by
  cases h with
  | insert ch pc =>
    cases pc with
    | waitMonitor | blockedWait => rfl
    | _ => exact absurd rfl hx
  | remove ch pc =>
    cases pc with
    | waitMonitor | blockedWait => rfl
    | _ => exact absurd rfl hx

/-- The monitor is entered through its mutex. -/
theorem Proceeds.enter (h : Proceeds bufferLength m x m' y es) (hx : ¬ x.inside) (hy : y.inside) :
    x.op = .wait .monitorMutex := by
  cases h with
  | insert ch pc =>
    cases pc with
    | waitMonitor => rfl
    | blockedWait => cases hy
    | _ => exact absurd rfl hx
  | remove ch pc =>
    cases pc with
    | waitMonitor => rfl
    | blockedWait => cases hy
    | _ => exact absurd rfl hx

/-! ## The mutexes -/

variable {cfg : Config}

namespace State

variable {s s' : State cfg} {a : Action cfg} {t u : Fin cfg.numProducer ⊕ Fin cfg.numConsumer}

/-- The permit of a mutex is free or held by one thread. -/
def Locked (s : State cfg) : Prop :=
  ∀ k : Sem, k.initial = 1 → s.sem k + tally (Place.holds k) s.place + s.main.holds k = 1

theorem Locked.initial (contents : Int → UInt8) : Locked (initial cfg contents) := by
  intro k hk
  have htally : tally (Place.holds k) (State.initial cfg contents).place = 0 :=
    tally_eq_zero.2 fun t => by rcases t with q | j <;> cases k <;> rfl
  rw [htally]
  cases k <;> first | rfl | cases hk

theorem Locked.move (h : Locked s) (hm : Move s a s' es) : Locked s' := by
  intro k hk
  have hs := h k hk
  rcases hm.turn_or_main with ⟨t, ht⟩ | ⟨hmain, _⟩
  · rw [ht.others, ht.main]
    exact SemOp.permits_update hs ht.op (ht.code.holds hk)
  · rw [hmain.place]
    cases hmain with
    | join _ hpc _ | joined hpc _ =>
      rw [hpc] at hs
      cases k <;> exact hs
    | countWait hpc hop =>
      have := SemOp.apply_balance hop k
      rw [hpc] at hs
      cases k <;> simp [SemOp.waits, SemOp.posts, MainPc.holds] at * <;> omega
    | countPost hpc hop =>
      have := SemOp.apply_balance hop k
      rw [hpc] at hs
      dsimp only
      split <;> cases k <;> simp [SemOp.waits, SemOp.posts, MainPc.holds] at * <;> omega

/-- Two threads are not in the monitor together. -/
theorem Locked.alone (h : Locked s) (ht : (s.place t).inside) (hu : u ≠ t) : ¬ (s.place u).inside := by
  intro hin
  have htwo := add_le_tally (Place.holds .monitorMutex) s.place hu
  have hs := h .monitorMutex rfl
  rw [show (s.place u).holds .monitorMutex = 1 from hin, show (s.place t).holds .monitorMutex = 1 from ht] at htwo
  omega

/-- The mutex is taken while a thread is in the monitor. -/
theorem Locked.taken (h : Locked s) (ht : (s.place t).inside) : s.sem .monitorMutex = 0 := by
  have hone := le_tally (Place.holds .monitorMutex) s.place t
  have hs := h .monitorMutex rfl
  rw [show (s.place t).holds .monitorMutex = 1 from ht] at hone
  omega

/-- The monitor is free: its mutex can be taken. -/
def Free (s : State cfg) : Prop := s.sem .monitorMutex = 1

theorem Locked.free_iff (h : Locked s) : s.Free ↔ ∀ t, ¬ (s.place t).inside := by
  constructor
  · intro hfree t ht
    have := h.taken ht
    rw [show s.sem .monitorMutex = 1 from hfree] at this
    cases this
  · intro hall
    have hs := h .monitorMutex rfl
    have htally : tally (Place.holds .monitorMutex) s.place = 0 := tally_eq_zero.2 fun t => by
      have hle := (s.place t).holds_le .monitorMutex
      have hne : (s.place t).holds .monitorMutex ≠ 1 := hall t
      omega
    rw [htally, show s.main.holds .monitorMutex = 0 by cases s.main <;> rfl] at hs
    exact hs

/-- What is asserted of memory that only a thread in the monitor changes is kept by a turn that takes the
assertion of the thread's place to that of its next place. -/
theorem Locked.guard_of_frame {μ : Type} {G : Guard Place μ} {r r' : μ} (hG : G.inside = Place.inside) (h : Locked s)
    (hg : G.Holds s.place r) (ht : Turn s s' t es) (hframe : ¬ (s.place t).inside → r' = r)
    (hstep : (∀ u, u ≠ t → ¬ (s.place u).inside) → G.asserts (s.place t) r → G.asserts (s'.place t) r') :
    G.Holds s'.place r' := by
  rw [ht.others]
  refine hg.step (fun u hu hin => ?_) (by rw [hG]; exact hstep)
  rw [hG] at hin ⊢
  have hout : ¬ (s.place t).inside := h.alone hin hu.symm
  constructor
  · intro hy
    have hop := ht.op
    rw [ht.code.enter hout hy] at hop
    have := SemOp.pos_of_apply_wait hop
    rw [h.taken hin] at this
    cases this
  · exact hframe hout

/-- The monitor itself is such memory. -/
theorem Locked.guard {G : Guard Place Monitor} (hG : G.inside = Place.inside) (h : Locked s)
    (hg : G.Holds s.place s.monitor) (ht : Turn s s' t es)
    (hstep : (∀ u, u ≠ t → ¬ (s.place u).inside) → G.asserts (s.place t) s.monitor →
      G.asserts (s'.place t) s'.monitor) : G.Holds s'.place s'.monitor :=
  h.guard_of_frame hG hg ht ht.code.outside hstep

end State

end UnixSysProg.ProcCon
