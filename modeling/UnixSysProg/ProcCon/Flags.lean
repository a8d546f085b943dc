/-
The flags of the two condition variables and the index of the buffer. Outside the monitor
`cond_empty.cv.blocked` says that the buffer is empty and `cond_full.cv.blocked` that it is full; inside,
each place of the two procedures has its own assertion.
-/
import UnixSysProg.ProcCon.Exclusion

namespace UnixSysProg.ProcCon

open UnixSysProg.Lib

/-- The flags mirror the index. -/
structure Flags (bufferLength : Nat) (m : Monitor) : Prop where
  low : -1 ≤ m.bufferIndex
  high : m.bufferIndex ≤ bufferLength - 1
  empty : m.condEmpty.blocked = true ↔ m.bufferIndex = -1
  full : m.condFull.blocked = true ↔ m.bufferIndex = bufferLength - 1

/-- What `monitor_insert` has made of the flags and the index at a place. -/
def InsertPc.flags (bufferLength : Nat) (m : Monitor) : InsertPc → Prop
  | waitMonitor | blockedWait | waitProducer | fullPost | postMonitor => Flags bufferLength m
  | blockedPostProducer | blockedPostMonitor => Flags bufferLength m ∧ m.condFull.blocked = true
  | postProducer => Flags bufferLength m ∧ m.condFull.blocked = false
  | waitConsumer => 0 ≤ m.bufferIndex ∧ m.bufferIndex ≤ bufferLength - 1 ∧ m.condFull.blocked = false
  | postConsumer | countWait | countPost _ | signalWait | signalPost | signalDone =>
    0 ≤ m.bufferIndex ∧ m.bufferIndex ≤ bufferLength - 1 ∧ m.condFull.blocked = false ∧ m.condEmpty.blocked = false
  | fullWait => 0 ≤ m.bufferIndex ∧ m.bufferIndex = bufferLength - 1 ∧ m.condEmpty.blocked = false

/-- What `monitor_remove` has made of the flags and the index at a place. -/
def RemovePc.flags (bufferLength : Nat) (m : Monitor) : RemovePc → Prop
  | waitMonitor | blockedWait | waitConsumer | emptyPost | postMonitor => Flags bufferLength m
  | blockedPostConsumer | blockedPostMonitor => Flags bufferLength m ∧ m.condEmpty.blocked = true
  | postConsumer => Flags bufferLength m ∧ m.condEmpty.blocked = false
  | countWait | countPost _ | signalWait | signalPost | signalDone | flagWait =>
    -1 ≤ m.bufferIndex ∧ m.bufferIndex < bufferLength - 1 ∧ m.condEmpty.blocked = false
  | flagPost =>
    -1 ≤ m.bufferIndex ∧ m.bufferIndex < bufferLength - 1 ∧ m.condEmpty.blocked = false ∧ m.condFull.blocked = false
  | emptyWait => m.bufferIndex = -1 ∧ m.bufferIndex < bufferLength - 1 ∧ m.condFull.blocked = false

def Place.flags (bufferLength : Nat) (m : Monitor) : Place → Prop :=
  Sum.elim (InsertPc.flags bufferLength m) (RemovePc.flags bufferLength m)

/-- Past the loop of `monitor_insert` that waits for room. -/
def InsertPc.pastLoop : InsertPc → Bool
  | waitMonitor | waitProducer | blockedPostProducer | blockedPostMonitor | blockedWait => false
  | postProducer | waitConsumer | postConsumer | countWait | countPost _ | signalWait | signalPost | signalDone
  | fullWait | fullPost | postMonitor => true

/-- Past the loop of `monitor_remove` that waits for a character. -/
def RemovePc.pastLoop : RemovePc → Bool
  | waitMonitor | waitConsumer | blockedPostConsumer | blockedPostMonitor | blockedWait => false
  | postConsumer | countWait | countPost _ | signalWait | signalPost | signalDone | flagWait | flagPost
  | emptyWait | emptyPost | postMonitor => true

def Place.pastLoop : Place → Bool := Sum.elim InsertPc.pastLoop RemovePc.pastLoop

/-- The loops are left inside the monitor. -/
theorem Place.inside_of_pastLoop {x : Place} (h : x.pastLoop = true) : x.inside := by
  rcases x with pc | pc
  all_goals cases pc <;> first | rfl | cases h

/-- The flags as memory guarded by `monitor_mutex`. -/
def flagGuard (bufferLength : Nat) : Guard Place Monitor where
  inside := Place.inside
  asserts x m := x.flags bufferLength m
  free := Flags bufferLength
  asserts_outside x m hx := by
    rcases x with pc | pc
    all_goals cases pc <;> first | exact Iff.rfl | exact absurd rfl hx

variable {bufferLength : Nat} {m m' : Monitor} {x y : Place} {es : List Event}

theorem flags_insertCheck (hm : 0 ≤ m.bufferIndex ∧ m.bufferIndex ≤ bufferLength - 1 ∧ m.condFull.blocked = false ∧
    m.condEmpty.blocked = false) : (m.insertCheck bufferLength).flags bufferLength m := by
  obtain ⟨hlow, hhigh, hfull, hempty⟩ := hm
  unfold Monitor.insertCheck
  split
  · rename_i hlast
    exact ⟨hlow, hlast, hempty⟩
  · rename_i hlast
    have hne : m.bufferIndex ≠ -1 := by omega
    exact ⟨by omega, hhigh, iff_of_false (Bool.eq_false_iff.1 hempty) hne,
      iff_of_false (Bool.eq_false_iff.1 hfull) hlast⟩

theorem flags_monitorInsert (ch : UInt8) (pc : InsertPc) (hx : pc.flags bufferLength m) :
    ((m.monitorInsert bufferLength ch pc).2.1.getD .waitMonitor).flags bufferLength
      (m.monitorInsert bufferLength ch pc).1 := by
  cases pc with
  | waitProducer =>
    dsimp only [Monitor.monitorInsert]
    split
    · rename_i hfull
      exact ⟨⟨hx.low, hx.high, hx.empty, hx.full⟩, hfull⟩
    · rename_i hfull
      exact ⟨hx, by simpa using hfull⟩
  | postProducer =>
    obtain ⟨hflags, hfull⟩ := hx
    have hne := hflags.full
    have hlow := hflags.low
    have hhigh := hflags.high
    rw [hfull] at hne
    simp only [Bool.false_eq_true, false_iff] at hne
    have hlow' : 0 ≤ m.bufferIndex + 1 := by omega
    have hhigh' : m.bufferIndex + 1 ≤ bufferLength - 1 := by omega
    exact ⟨hlow', hhigh', hfull⟩
  | waitConsumer => exact ⟨hx.1, hx.2.1, hx.2.2, rfl⟩
  | countPost num =>
    dsimp only [Monitor.monitorInsert, Option.getD_some]
    split
    · exact hx
    · exact flags_insertCheck hx
  | signalDone => exact flags_insertCheck hx
  | fullWait =>
    obtain ⟨hlow, hlast, hempty⟩ := hx
    have hne : m.bufferIndex ≠ -1 := by omega
    have hlow' : -1 ≤ m.bufferIndex := by omega
    exact ⟨hlow', hlast.le, iff_of_false (Bool.eq_false_iff.1 hempty) hne, iff_of_true rfl hlast⟩
  | blockedPostMonitor => exact hx.1
  | _ => exact hx

theorem flags_monitorRemove (ch : UInt8) (pc : RemovePc) (hx : pc.flags bufferLength m) :
    ((m.monitorRemove ch pc).2.1.getD .waitMonitor).flags bufferLength (m.monitorRemove ch pc).1 := by
  cases pc with
  | waitConsumer =>
    dsimp only [Monitor.monitorRemove]
    split
    · rename_i hempty
      exact ⟨⟨hx.low, hx.high, hx.empty, hx.full⟩, hempty⟩
    · rename_i hempty
      exact ⟨hx, by simpa using hempty⟩
  | postConsumer =>
    obtain ⟨hflags, hempty⟩ := hx
    have hne := hflags.empty
    have hlow := hflags.low
    have hhigh := hflags.high
    rw [hempty] at hne
    simp only [Bool.false_eq_true, false_iff] at hne
    have hlow' : -1 ≤ m.bufferIndex - 1 := by omega
    have hhigh' : m.bufferIndex - 1 < bufferLength - 1 := by omega
    exact ⟨hlow', hhigh', hempty⟩
  | countPost num =>
    dsimp only [Monitor.monitorRemove]
    split <;> exact hx
  | flagWait => exact ⟨hx.1, hx.2.1, hx.2.2, rfl⟩
  | flagPost =>
    obtain ⟨hlow, hhigh, hempty, hfull⟩ := hx
    dsimp only [Monitor.monitorRemove]
    split
    · rename_i hlast
      exact ⟨hlast, hhigh, hfull⟩
    · rename_i hlast
      exact ⟨hlow, hhigh.le, iff_of_false (Bool.eq_false_iff.1 hempty) hlast,
        iff_of_false (Bool.eq_false_iff.1 hfull) hhigh.ne⟩
  | emptyWait =>
    obtain ⟨hlast, hhigh, hfull⟩ := hx
    exact ⟨hlast.ge, hhigh.le, iff_of_true rfl hlast, iff_of_false (Bool.eq_false_iff.1 hfull) hhigh.ne⟩
  | blockedPostMonitor => exact hx.1
  | _ => exact hx

theorem Proceeds.flags (h : Proceeds bufferLength m x m' y es) (hx : x.flags bufferLength m) :
    y.flags bufferLength m' := by
  cases h with
  | insert ch pc => exact flags_monitorInsert ch pc hx
  | remove ch pc => exact flags_monitorRemove ch pc hx

theorem Place.low (h : x.flags bufferLength m) : -1 ≤ m.bufferIndex := by
  rcases x with pc | pc
  all_goals
    cases pc <;> first
      | exact h.low
      | exact h.1.low
      | exact h.1
      | exact h.1.ge
      | exact le_trans (by decide) h.1

/-! ## Runs -/

variable {cfg : Config}

namespace State

variable {s s' : State cfg} {a : Action cfg}

/-- The mutexes and the flags. -/
structure Sound (s : State cfg) : Prop where
  locked : Locked s
  flags : (flagGuard cfg.bufferLength).Holds s.place s.monitor

theorem Sound.initial (contents : Int → UInt8) : Sound (initial cfg contents) := by
  refine ⟨Locked.initial contents, fun t ht => ?_, fun _ => ?_⟩
  · rcases t with q | j <;> cases ht
  · have := cfg.bufferLength_pos
    refine ⟨le_rfl, ?_, iff_of_true rfl rfl, iff_of_false (by simp [State.initial, Monitor.monitorInit]) ?_⟩
    all_goals
      dsimp only [State.initial, Monitor.monitorInit]
      omega

theorem Sound.move (h : Sound s) (hm : Move s a s' es) : Sound s' := by
  refine ⟨h.locked.move hm, ?_⟩
  rcases hm.turn_or_main with ⟨t, ht⟩ | ⟨hmain, _⟩
  · exact h.locked.guard rfl h.flags ht fun _ => ht.code.flags
  · rw [hmain.place, hmain.frame.1]
    exact h.flags

theorem run_sound {contents : Int → UInt8} {actions : List (Action cfg)} {outs : List (List Event)}
    (h : run step (initial cfg contents) actions = .ok (s, outs)) : Sound s :=
  run_invariant (I := Sound) (fun _ _ _ _ hs _ hstep => hs.move (move_of_step hstep)) (Sound.initial contents)
    (along_true _ _ _) h

/-- When the monitor is free the flags mirror the index. -/
theorem Sound.free (h : Sound s) (hfree : s.Free) : Flags cfg.bufferLength s.monitor :=
  h.flags.free (h.locked.free_iff.1 hfree)

theorem Sound.low (h : Sound s) : -1 ≤ s.monitor.bufferIndex := by
  by_cases hin : ∃ t, (s.place t).inside
  · obtain ⟨t, ht⟩ := hin
    exact Place.low (h.flags.asserts t ht)
  · exact (h.flags.free fun t ht => hin ⟨t, ht⟩).low

/-! ## Outside and past the loop -/

/-- What an onlooker sees of the monitor: the flags mirror the index whenever the mutex can be taken, and no
two threads are past the loop with which the procedures begin. -/
structure Mirrored (s : State cfg) : Prop where
  flags : 0 < s.sem .monitorMutex → Flags cfg.bufferLength s.monitor
  alone : ∀ t u, (s.place t).pastLoop = true → (s.place u).pastLoop = true → t = u

/-- For every capacity, any number of threads, any contents of the allocated buffer and every interleaving. -/
theorem flags_mirror_buffer {contents : Int → UInt8} {actions : List (Action cfg)} {outs : List (List Event)}
    (h : run step (initial cfg contents) actions = .ok (s, outs)) : Mirrored s := by
  have hs := run_sound h
  constructor
  · intro hpos
    refine hs.free ?_
    have hpermit := hs.locked .monitorMutex rfl
    unfold Free
    omega
  · intro t u ht hu
    by_contra hne
    exact hs.locked.alone (Place.inside_of_pastLoop hu) hne (Place.inside_of_pastLoop ht)

/-- Room for one character: after one call the buffer is full and no longer empty. -/
theorem flags_mirror_buffer_one : ∃ (outs : List (List Event)) (s : State (.ofWrites 1 1 (by decide) (by decide))),
    run step (initial _ fun _ => 0) (List.replicate 10 (.producer 0)) = .ok (s, outs) ∧
      s.monitor.condFull.blocked = true ∧ s.monitor.condEmpty.blocked = false ∧ 0 < s.sem .monitorMutex ∧
      Mirrored s := by
  have hrun : ∃ (outs : List (List Event)) (s : State (.ofWrites 1 1 (by decide) (by decide))),
      run step (initial _ fun _ => 0) (List.replicate 10 (.producer 0)) = .ok (s, outs) ∧
        s.monitor.condFull.blocked = true ∧ s.monitor.condEmpty.blocked = false ∧ 0 < s.sem .monitorMutex :=
    ⟨_, _, rfl, rfl, rfl, by decide⟩
  obtain ⟨outs, s, hrun, hfull, hempty, hfree⟩ := hrun
  exact ⟨outs, s, hrun, hfull, hempty, hfree, flags_mirror_buffer hrun⟩

end State

end UnixSysProg.ProcCon
