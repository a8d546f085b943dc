/-
The characters in the buffer. The index counts the characters written and not read, and it starts at -1,
where no character is stored; `monitor_remove` reads at the index before it steps it down, and
`monitor_insert` writes at the index before it steps it up, one below. The first write of every run falls
in front of the array.
-/
import UnixSysProg.ProcCon.Flags
import Mathlib.Data.Multiset.AddSub

namespace UnixSysProg.ProcCon

open UnixSysProg.Lib

/-! ## Accounting -/

namespace Event

def isWrite : Event → Bool
  | write _ => true
  | _ => false

def isRead : Event → Bool
  | read _ => true
  | _ => false

def isInserted : Event → Bool
  | inserted _ => true
  | _ => false

def isRemoved : Event → Bool
  | removed _ => true
  | _ => false

/-- The character that a completed `monitor_insert` was called with. -/
def insertedChar : Event → Option UInt8
  | inserted ch => some ch
  | _ => none

/-- The character that `monitor_remove` returned. -/
def removedChar : Event → Option UInt8
  | removed ch => some ch
  | _ => none

/-- The index of an access to the buffer. -/
def index : Event → Option Int
  | write index | read index => some index
  | _ => none

end Event

/-- The thread has written its character and not returned yet. -/
def Place.wrote : Place → Nat
  | .inl pc => match pc with
    | .waitMonitor | .waitProducer | .blockedPostProducer | .blockedPostMonitor | .blockedWait | .postProducer => 0
    | _ => 1
  | .inr _ => 0

/-- The thread has read its character and not returned yet. -/
def Place.took : Place → Nat
  | .inl _ => 0
  | .inr pc => match pc with
    | .waitMonitor | .waitConsumer | .blockedPostConsumer | .blockedPostMonitor | .blockedWait | .postConsumer => 0
    | _ => 1

variable {bufferLength : Nat} {m m' : Monitor} {x y : Place} {es : List Event}

theorem insertCheck_wrote (m : Monitor) (bufferLength : Nat) : Place.wrote (.inl (m.insertCheck bufferLength)) = 1 := by
  rcases insertCheck_cases m bufferLength with h | h <;> rw [h] <;> rfl

/-- A turn writes, reads and returns at most once, and keeps account of it. -/
theorem Proceeds.account (h : Proceeds bufferLength m x m' y es) :
    y.wrote + es.countP Event.isInserted = x.wrote + es.countP Event.isWrite ∧
      y.took + es.countP Event.isRemoved = x.took + es.countP Event.isRead ∧
      m'.bufferIndex + es.countP Event.isRead = m.bufferIndex + es.countP Event.isWrite := by
  cases h with
  | insert ch pc =>
    cases pc with
    | waitProducer =>
      dsimp only [Monitor.monitorInsert]
      split <;> exact ⟨rfl, rfl, rfl⟩
    | postProducer => exact ⟨rfl, rfl, by simp [Monitor.monitorInsert, Event.isRead, Event.isWrite]⟩
    | countPost num =>
      dsimp only [Monitor.monitorInsert, Option.getD_some]
      split
      · exact ⟨rfl, rfl, rfl⟩
      · exact ⟨insertCheck_wrote m bufferLength, rfl, rfl⟩
    | signalDone => exact ⟨insertCheck_wrote m bufferLength, rfl, rfl⟩
    | _ => exact ⟨rfl, rfl, rfl⟩
  | remove ch pc =>
    cases pc with
    | waitConsumer | countPost num | flagPost =>
      dsimp only [Monitor.monitorRemove]
      split <;> exact ⟨rfl, rfl, rfl⟩
    | postConsumer => exact ⟨rfl, rfl, by simp [Monitor.monitorRemove, Event.isRead, Event.isWrite]⟩
    | _ => exact ⟨rfl, rfl, rfl⟩

/-- The write is that of `monitor_insert` past its test, at the index. -/
theorem Proceeds.write (h : Proceeds bufferLength m x m' y es) :
    if x = .inl .postProducer then es = [.write m.bufferIndex] else es.countP Event.isWrite = 0 := by
  cases h with
  | insert ch pc =>
    cases pc with
    | waitProducer =>
      rw [if_neg (by simp)]
      dsimp only [Monitor.monitorInsert]
      split <;> rfl
    | _ => rfl
  | remove ch pc =>
    cases pc with
    | waitConsumer =>
      rw [if_neg (by simp)]
      dsimp only [Monitor.monitorRemove]
      split <;> rfl
    | _ => rfl

/-- The characters from the start of the buffer to the index. -/
def Monitor.stored (m : Monitor) : List UInt8 := (List.range (m.bufferIndex + 1).toNat).map fun k => m.buffer k

variable {cfg : Config}

namespace State

variable {s s' : State cfg} {a : Action cfg} {log : List Event}

/-- The events so far against the places of the threads and the index. -/
structure Account (log : List Event) (s : State cfg) : Prop where
  inserted : log.countP Event.isInserted + tally Place.wrote s.place = log.countP Event.isWrite
  removed : log.countP Event.isRemoved + tally Place.took s.place = log.countP Event.isRead
  index : s.monitor.bufferIndex + 1 + log.countP Event.isRead = log.countP Event.isWrite

theorem Account.initial (contents : Int → UInt8) : Account [] (initial cfg contents) := by
  have hwrote : tally Place.wrote (State.initial cfg contents).place = 0 :=
    tally_eq_zero.2 fun t => by rcases t with q | j <;> rfl
  have htook : tally Place.took (State.initial cfg contents).place = 0 :=
    tally_eq_zero.2 fun t => by rcases t with q | j <;> rfl
  exact ⟨by rw [hwrote]; rfl, by rw [htook]; rfl, rfl⟩

theorem Account.move (h : Account log s) (hm : Move s a s' es) : Account (log ++ es) s' := by
  rcases hm.turn_or_main with ⟨t, ht⟩ | ⟨hmain, rfl⟩
  · obtain ⟨hwrote, htook, hindex⟩ := ht.code.account
    have hw := tally_update Place.wrote s.place t (s'.place t)
    have ht' := tally_update Place.took s.place t (s'.place t)
    rw [← ht.others] at hw ht'
    have h1 := h.inserted
    have h2 := h.removed
    have h3 := h.index
    constructor <;> simp only [List.countP_append] <;> omega
  · rw [List.append_nil]
    exact ⟨by rw [hmain.place]; exact h.inserted, by rw [hmain.place]; exact h.removed,
      by rw [hmain.frame.1]; exact h.index⟩

theorem run_account {contents : Int → UInt8} {actions : List (Action cfg)} {outs : List (List Event)}
    (h : run step (initial cfg contents) actions = .ok (s, outs)) : Account outs.flatten s :=
  run_log (I := Account) (fun _ _ _ _ _ hs _ hstep => hs.move (move_of_step hstep)) (Account.initial contents)
    (along_true _ _ _) h

/-! ## The first write -/

/-- Nothing lost, duplicated or invented: the accesses are within the buffer, outside the monitor the
characters removed and those stored are the characters inserted, and with room for one character they are
removed in the order of insertion. -/
structure Intact (log : List Event) (s : State cfg) : Prop where
  inRange : ∀ e ∈ log, ∀ i, e.index = some i → 0 ≤ i ∧ i < cfg.bufferLength
  conserved : s.Free → (log.filterMap Event.removedChar : Multiset UInt8) + (s.monitor.stored : Multiset UInt8) =
    (log.filterMap Event.insertedChar : Multiset UInt8)
  fifo : cfg.bufferLength = 1 → log.filterMap Event.removedChar <+: log.filterMap Event.insertedChar

/-- As long as nothing is written nothing happens to the buffer. -/
theorem Account.unwritten (h : Account log s) (hs : Sound s) (hw : log.countP Event.isWrite = 0) :
    s.monitor.bufferIndex = -1 ∧ log.countP Event.isRead = 0 := by
  have := h.index
  have := hs.low
  omega

theorem Account.intact (h : Account log s) (hs : Sound s) (hw : log.countP Event.isWrite = 0) : Intact log s := by
  obtain ⟨hindex, hr⟩ := h.unwritten hs hw
  have hi : log.countP Event.isInserted = 0 := by have := h.inserted; omega
  have hrem : log.countP Event.isRemoved = 0 := by have := h.removed; omega
  rw [List.countP_eq_zero] at hw hr hi hrem
  have hinserted : log.filterMap Event.insertedChar = [] := List.filterMap_eq_nil_iff.2 fun e he => by
    have := hi e he
    cases e <;> first | rfl | exact absurd rfl this
  have hremoved : log.filterMap Event.removedChar = [] := List.filterMap_eq_nil_iff.2 fun e he => by
    have := hrem e he
    cases e <;> first | rfl | exact absurd rfl this
  refine ⟨fun e he i hei => ?_, fun _ => ?_, fun _ => ?_⟩
  · cases e with
    | write _ => exact absurd rfl (hw _ he)
    | read _ => exact absurd rfl (hr _ he)
    | _ => cases hei
  · rw [hinserted, hremoved, Monitor.stored, hindex]
    rfl
  · rw [hinserted, hremoved]

/-- The first write of a run is in front of the buffer. -/
theorem run_first_write {contents : Int → UInt8} {actions : List (Action cfg)} {outs : List (List Event)}
    (h : run step (initial cfg contents) actions = .ok (s, outs)) :
    outs.flatten.countP Event.isWrite = 0 ∨ .write (-1) ∈ outs.flatten := by
  have := run_log (I := fun log s => (Sound s ∧ Account log s) ∧
      (log.countP Event.isWrite = 0 ∨ .write (-1) ∈ log))
    (fun log s a s' es hs _ hstep => by
      have hm := move_of_step hstep
      obtain ⟨⟨hsound, hacc⟩, hlog⟩ := hs
      refine ⟨⟨hsound.move hm, hacc.move hm⟩, ?_⟩
      rcases hlog with hnone | hmem
      · rcases hm.turn_or_main with ⟨t, ht⟩ | ⟨_, rfl⟩
        · have hwrite := ht.code.write
          split at hwrite
          · rw [hwrite, (hacc.unwritten hsound hnone).1]
            exact .inr (List.mem_append_right _ (List.mem_singleton_self _))
          · exact .inl (by rw [List.countP_append, hnone, hwrite])
        · exact .inl (by rw [List.append_nil]; exact hnone)
      · exact .inr (List.mem_append_left _ hmem))
    ⟨⟨Sound.initial contents, Account.initial contents⟩, .inl rfl⟩ (along_true _ _ _) h
  exact this.2

/-- The monitor keeps the buffer intact through a run if and only if no producer gets to write. -/
theorem buffer_intact_iff {contents : Int → UInt8} {actions : List (Action cfg)} {outs : List (List Event)}
    (h : run step (initial cfg contents) actions = .ok (s, outs)) :
    (∀ pre outs s, pre <+: actions → run step (initial cfg contents) pre = .ok (s, outs) → Intact outs.flatten s) ↔
      Along step (fun s a => ∀ q, a = .producer q → (s.producers q).pc ≠ .postProducer) (initial cfg contents)
        actions := by
  constructor
  · intro hintact
    refine along_iff_forall.2 fun pre a post t touts hactions hrun q ha hpc => ?_
    subst ha
    rw [hactions, List.append_cons, run_append] at h
    obtain ⟨t', touts', outs', hrun', _, _⟩ := h
    have hbad := hintact _ touts' t' ⟨post, by rw [hactions, ← List.append_cons]⟩ hrun'
    obtain ⟨t₁, outs₁, outs₂, hrun₁, hlast, rfl⟩ := run_append.1 hrun'
    obtain ⟨t₂, es, outs₃, hstep, hnil, rfl⟩ := run_cons_ok.1 hlast
    rw [hrun] at hrun₁
    cases hrun₁
    cases hnil
    -- the step writes, so that the log has the write in front of the buffer
    have hes : es = [.write t.monitor.bufferIndex] := by
      cases move_of_step hstep with
      | producer _ hop =>
        have hwrite := (turn_producer hop).code.write
        rwa [if_pos (by rw [place_inl, hpc])] at hwrite
    rcases run_first_write hrun' with hnone | hmem
    · rw [List.flatten_append, List.countP_append, hes] at hnone
      simp [Event.isWrite] at hnone
    · have := hbad.inRange _ hmem (-1) rfl
      omega
  · rintro halong pre pouts p ⟨post, rfl⟩ hrun
    refine (run_account hrun).intact (run_sound hrun) ?_
    refine run_log (I := fun log _ => log.countP Event.isWrite = 0)
      (fun log s a s' es hs hc hstep => ?_) rfl halong.left hrun
    rw [List.countP_append, hs, Nat.zero_add]
    cases move_of_step hstep with
    | producer _ hop =>
      have hwrite := (turn_producer hop).code.write
      rwa [if_neg (by rw [place_inl]; exact fun he => hc _ rfl (Sum.inl.inj he))] at hwrite
    | consumer hop =>
      have hwrite := (turn_consumer hop).code.write
      rwa [if_neg (by rw [place_inr]; simp)] at hwrite
    | main _ => rfl

/-- A consumer that finds the buffer empty. -/
theorem buffer_intact_empty : ∃ (outs : List (List Event)) (s : State (.ofWrites 1 1 (by decide) (by decide))),
    run step (initial _ fun _ => 0) [.consumer 0, .consumer 0, .consumer 0, .consumer 0] = .ok (s, outs) ∧
      Intact outs.flatten s := by
  have hrun : ∃ (outs : List (List Event)) (s : State (.ofWrites 1 1 (by decide) (by decide))),
      run step (initial _ fun _ => 0) [.consumer 0, .consumer 0, .consumer 0, .consumer 0] = .ok (s, outs) := ⟨_, _, rfl⟩
  obtain ⟨outs, s, hrun⟩ := hrun
  refine ⟨outs, s, hrun, (buffer_intact_iff hrun).2 (along_of_forall fun a ha s q he _ => ?_) _ _ _ (List.prefix_refl _) hrun⟩
  simp [he] at ha

/-- The first character goes in front of the buffer, and the first removal returns what the memory held. -/
theorem buffer_first_character : ∃ (outs : List (List Event)) (s : State (.ofWrites 1 1 (by decide) (by decide))),
    run step (initial _ fun _ => 0) (List.replicate 10 (.producer 0) ++ List.replicate 10 (.consumer 0)) = .ok (s, outs) ∧
      .write (-1) ∈ outs.flatten ∧ outs.flatten.filterMap Event.insertedChar = [97] ∧
      outs.flatten.filterMap Event.removedChar = [0] ∧ s.Free :=
  ⟨_, _, rfl, by decide, rfl, rfl, rfl⟩

end State

end UnixSysProg.ProcCon
