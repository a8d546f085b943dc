/-
What a round-robin scheduler with a bounded number of places is for. The workers in the queue take
turns of one quantum; a worker with quanta left goes back to the tail, one without leaves its place to
the next worker waiting. The total of the quanta left falls by one a round, so the rounds come to an
end, and any number of rounds reports a prefix of what the whole schedule reports.
-/
import Mathlib.Algebra.Order.Ring.Nat
import UnixSysProg.Sched.Scheduler

namespace UnixSysProg.Sched

variable {n : Nat}

/-! ## Rounds -/

/-- The workers in the queue and those waiting for a place, each with the quanta it has left. -/
structure RoundRobin (n : Nat) where
  queue : List (Fin n × Nat)
  waiting : List (Fin n × Nat)

/-- The event takes a quantum. -/
def Event.takesQuantum : Event n → Bool
  | suspending _ => true
  | resuming _ | leaving _ => false

/-- The quanta a log has taken. -/
def quantaTaken (log : List (Event n)) : Nat := log.countP Event.takesQuantum

theorem quantaTaken_append (log log' : List (Event n)) :
    quantaTaken (log ++ log') = quantaTaken log + quantaTaken log' := List.countP_append

namespace RoundRobin

/-- The turn of the worker at the head, and what is reported of it. -/
def round (r : RoundRobin n) : RoundRobin n × List (Event n) :=
  match r.queue with
  | [] => (r, [])
  | (w, left) :: rest =>
    if 1 < left then ({ r with queue := rest ++ [(w, left - 1)] }, [.resuming w, .suspending w])
    else (⟨rest ++ r.waiting.take 1, r.waiting.drop 1⟩, [.resuming w, .suspending w, .leaving w])

/-- The state after `k` rounds, and what they report. -/
def play : Nat → RoundRobin n → RoundRobin n × List (Event n)
  | 0, r => (r, [])
  | k + 1, r => ((play k r.round.1).1, r.round.2 ++ (play k r.round.1).2)

/-- The quanta left altogether. -/
def total (r : RoundRobin n) : Nat := ((r.queue ++ r.waiting).map (·.2)).sum

/-- All that is reported until everyone has left. -/
def schedule (r : RoundRobin n) : List (Event n) := (play r.total r).2

/-- Every worker has quanta left, and none waits for a place while the queue is empty. -/
structure Fair (r : RoundRobin n) : Prop where
  positive : ∀ x ∈ r.queue ++ r.waiting, 1 ≤ x.2
  busy : r.queue = [] → r.waiting = []

variable {r : RoundRobin n} {k : Nat}

theorem round_requeue {w : Fin n} {left : Nat} {rest : List (Fin n × Nat)} (h : r.queue = (w, left) :: rest)
    (hl : 1 < left) : r.round = ({ r with queue := rest ++ [(w, left - 1)] }, [.resuming w, .suspending w]) := by
  simp [round, h, hl]

theorem round_leave {w : Fin n} {left : Nat} {rest : List (Fin n × Nat)} (h : r.queue = (w, left) :: rest)
    (hl : ¬ 1 < left) : r.round =
      (⟨rest ++ r.waiting.take 1, r.waiting.drop 1⟩, [.resuming w, .suspending w, .leaving w]) := by
  simp [round, h, hl]

theorem round_empty (h : r.queue = []) : r.round = (r, []) := by simp [round, h]

/-- A round begins by resuming the head of the queue. -/
theorem round_resuming {w : Fin n} {left : Nat} {rest : List (Fin n × Nat)} (h : r.queue = (w, left) :: rest) :
    ∃ es, r.round.2 = .resuming w :: es := by
  by_cases hl : 1 < left
  · exact ⟨_, by rw [round_requeue h hl]⟩
  · exact ⟨_, by rw [round_leave h hl]⟩

theorem Fair.round (h : r.Fair) : r.round.1.Fair := by
  cases hq : r.queue with
  | nil => rw [round_empty hq]; exact h
  | cons x rest =>
    obtain ⟨w, left⟩ := x
    by_cases hl : 1 < left
    · rw [round_requeue hq hl]
      constructor
      · intro x hx
        rcases List.mem_append.1 hx with hx | hx
        · rcases List.mem_append.1 hx with hx | hx
          · exact h.positive x (by rw [hq]; simp [hx])
          · rw [List.mem_singleton.1 hx]; exact Nat.le_sub_one_of_lt hl
        · exact h.positive x (List.mem_append_right _ hx)
      · intro he
        simp at he
    · rw [round_leave hq hl]
      constructor
      · intro x hx
        rw [List.append_assoc, List.take_append_drop] at hx
        refine h.positive x ?_
        rw [hq]
        exact List.mem_cons_of_mem _ hx
      · intro he
        have htake : r.waiting.take 1 = [] := (List.append_eq_nil_iff.1 he).2
        simp only [List.take_eq_nil_iff, one_ne_zero, false_or] at htake
        simp [htake]

/-- A round takes one quantum. -/
theorem total_round (h : r.Fair) (hq : r.queue ≠ []) : r.round.1.total + 1 = r.total := by
  obtain ⟨⟨w, left⟩, rest, hr⟩ := List.exists_cons_of_ne_nil hq
  have hpos : 1 ≤ left := h.positive (w, left) (by rw [hr]; simp)
  by_cases hl : 1 < left
  · rw [round_requeue hr hl, total, total, hr]
    simp
    omega
  · rw [round_leave hr hl, total, total, hr, List.append_assoc, List.take_append_drop]
    simp
    omega

theorem total_eq_zero (h : r.Fair) : r.total = 0 ↔ r.queue = [] := by
  constructor
  · intro ht
    by_contra hq
    have := total_round h hq
    omega
  · intro hq
    rw [total, hq, h.busy hq]
    rfl

/-- A round reports one suspension. -/
theorem quantaTaken_round (hq : r.queue ≠ []) : quantaTaken r.round.2 = 1 := by
  obtain ⟨⟨w, left⟩, rest, hr⟩ := List.exists_cons_of_ne_nil hq
  by_cases hl : 1 < left
  · rw [round_requeue hr hl]; rfl
  · rw [round_leave hr hl]; rfl

/-! ## Many rounds -/

theorem Fair.play : ∀ {r : RoundRobin n}, r.Fair → ∀ k, (r.play k).1.Fair
  | _, h, 0 => h
  | _, h, k + 1 => Fair.play h.round k

theorem play_empty (h : r.queue = []) : ∀ k, r.play k = (r, [])
  | 0 => rfl
  | k + 1 => by rw [play, round_empty h, play_empty h k]; rfl

theorem play_add (j : Nat) : ∀ (k : Nat) (r : RoundRobin n),
    r.play (k + j) = (((r.play k).1.play j).1, (r.play k).2 ++ ((r.play k).1.play j).2)
  | 0, r => by rw [Nat.zero_add]; rfl
  | k + 1, r => by rw [Nat.add_right_comm, play, play_add j k, play]; simp

theorem play_succ (k : Nat) (r : RoundRobin n) :
    r.play (k + 1) = ((r.play k).1.round.1, (r.play k).2 ++ (r.play k).1.round.2) := by
  rw [play_add 1 k]
  simp [play]

theorem total_play : ∀ {k : Nat} {r : RoundRobin n}, r.Fair → (r.play k).1.total = r.total - k
  | 0, _, _ => rfl
  | k + 1, r, h => by
    rw [play, total_play h.round]
    by_cases hq : r.queue = []
    · rw [round_empty hq, (total_eq_zero h).2 hq]; omega
    · have := total_round h hq
      omega

theorem quantaTaken_play : ∀ {k : Nat} {r : RoundRobin n}, r.Fair → quantaTaken (r.play k).2 = min k r.total
  | 0, _, _ => by simp [play, quantaTaken]
  | k + 1, r, h => by
    have ih := quantaTaken_play (k := k) h.round
    by_cases hq : r.queue = []
    · rw [play_empty hq, (total_eq_zero h).2 hq]; rfl
    · have htotal := total_round h hq
      have hround := quantaTaken_round hq
      rw [play, quantaTaken_append]
      omega

/-- After the whole schedule the queue is empty. -/
theorem queue_play_total (h : r.Fair) (hk : r.total ≤ k) : (r.play k).1.queue = [] := by
  rw [← total_eq_zero (h.play k), total_play h]
  omega

/-- Rounds after the last report nothing. -/
theorem play_schedule (h : r.Fair) (hk : r.total ≤ k) : (r.play k).2 = r.schedule := by
  obtain ⟨j, rfl⟩ := Nat.exists_eq_add_of_le hk
  rw [play_add, play_empty (queue_play_total h le_rfl)]
  exact List.append_nil _

theorem play_prefix (h : r.Fair) (k : Nat) : (r.play k).2 <+: r.schedule := by
  rcases Nat.le_total r.total k with hk | hk
  · rw [play_schedule h hk]
  · obtain ⟨j, hj⟩ := Nat.exists_eq_add_of_le hk
    rw [schedule, hj, play_add]
    exact List.prefix_append _ _

theorem quantaTaken_schedule (h : r.Fair) : quantaTaken r.schedule = r.total := by
  rw [schedule, quantaTaken_play h, Nat.min_self]

end RoundRobin

end UnixSysProg.Sched
