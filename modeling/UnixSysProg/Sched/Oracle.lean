/-
The expectations of `test_output` (`smp5_tests.c`): a ring of slots that are replaced in place. Only
what decides the events expected of the scheduler is kept; the lines the workers print and the sums of
the times are left out. Read from `queue_index` on, the occupied slots are the queue of a round robin,
and a turn of the loop is one of its rounds.
-/
import UnixSysProg.Sched.RoundRobin
import UnixSysProg.Lib.Ring

namespace UnixSysProg.Sched

open UnixSysProg.Lib

variable {n m : Nat}

/-! ## The loops of `test_output` -/

/-- The variables of `test_output`, for `n` workers and a queue of size `m + 1`; an empty slot of
`queue[]` holds 0. -/
structure TestOutput (n m : Nat) where
  queue : Fin (m + 1) → Option (Fin n)
  remaining : Fin (m + 1) → Int32
  queueIndex : Fin (m + 1)
  workerIndex : Nat
  inQueue : Nat
  myRun : Int32

namespace TestOutput

/-- Before the first worker: all slots empty, `remaining[]` as `malloc` left it. -/
def initial (remaining : Fin (m + 1) → Int32) : TestOutput n m where
  queue _ := none
  remaining := remaining
  queueIndex := ⟨0, Nat.succ_pos m⟩
  workerIndex := 0
  inQueue := 0
  myRun := 0

/-- `queue[i] = workers[worker_index]; remaining[i] = quanta[worker_index]; worker_index++`. -/
def place (quanta : Fin n → Int32) (t : TestOutput n m) (i : Fin (m + 1)) (h : t.workerIndex < n) : TestOutput n m :=
  { t with
    queue := Function.update t.queue i (some ⟨t.workerIndex, h⟩)
    remaining := Function.update t.remaining i (quanta ⟨t.workerIndex, h⟩)
    workerIndex := t.workerIndex + 1 }

/-- The first `k` turns of the loop that fills the queue, in which `queue_index` and `worker_index` run
together. -/
def fill (quanta : Fin n → Int32) (t : TestOutput n m) : Nat → TestOutput n m
  | 0 => t
  | k + 1 =>
    let t := fill quanta t k
    if h : k < m + 1 ∧ t.workerIndex < n then { t.place quanta ⟨k, h.1⟩ h.2 with inQueue := t.inQueue + 1 } else t

/-- A turn of the main loop, and the events it expects; no result when the search for an occupied
slot would not end. -/
def turn (quanta : Fin n → Int32) (t : TestOutput n m) : Option (TestOutput n m × List (Event n)) :=
  let queueIndex := nextOccupied t.queue (m + 1) t.queueIndex
  match t.queue queueIndex with
  | none => none
  | some tid =>
    let t := { t with
      remaining := Function.update t.remaining queueIndex (t.remaining queueIndex - 1)
      queueIndex := nextSlot queueIndex
      myRun := t.myRun + 1 }
    if t.remaining queueIndex = 0 then
      let t :=
        if h : t.workerIndex < n then t.place quanta queueIndex h
        else { t with queue := Function.update t.queue queueIndex none, inQueue := t.inQueue - 1 }
      some (t, [.resuming tid, .suspending tid, .leaving tid])
    else some (t, [.resuming tid, .suspending tid])

/-- `while(worker_index < num_workers || in_queue > 0)`, for at most `fuel` turns. -/
def loop (quanta : Fin n → Int32) : Nat → TestOutput n m → Option (TestOutput n m × List (Event n))
  | 0, t => if t.workerIndex < n ∨ 0 < t.inQueue then none else some (t, [])
  | fuel + 1, t =>
    if t.workerIndex < n ∨ 0 < t.inQueue then do
      let (t, es) ← t.turn quanta
      let (t, es') ← loop quanta fuel t
      some (t, es ++ es')
    else some (t, [])

def budget (quanta : Fin n → Int32) : Nat := ((List.finRange n).map fun w => (quanta w).toInt.toNat).sum

end TestOutput

open TestOutput in
/-- `test_output`: the variables at its end, and all the events it expects of the scheduler. -/
def testOutput (quanta : Fin n → Int32) (remaining : Fin (m + 1) → Int32) :
    Option (TestOutput n m × List (Event n)) :=
  loop quanta (budget quanta) (fill quanta (initial remaining) (m + 1))

/-! ## The round robin behind it -/

def withQuanta (quanta : Fin n → Int32) (w : Fin n) : Fin n × Nat := (w, (quanta w).toInt.toNat)

/-- The first `queueSize` workers in the queue, the others waiting. -/
def RoundRobin.start (quanta : Fin n → Int32) (queueSize : Nat) : RoundRobin n where
  queue := ((List.finRange n).take queueSize).map (withQuanta quanta)
  waiting := ((List.finRange n).drop queueSize).map (withQuanta quanta)

theorem RoundRobin.start_total (quanta : Fin n → Int32) (queueSize : Nat) :
    (RoundRobin.start quanta queueSize).total = TestOutput.budget quanta := by
  rw [RoundRobin.total, RoundRobin.start, ← List.map_append, List.take_append_drop, List.map_map]
  rfl

theorem RoundRobin.start_fair {quanta : Fin n → Int32} (hq : ∀ w, 1 ≤ (quanta w).toInt) (m : Nat) :
    (RoundRobin.start quanta (m + 1)).Fair := by
  constructor
  · intro x hx
    rw [RoundRobin.start, ← List.map_append, List.take_append_drop] at hx
    obtain ⟨w, _, rfl⟩ := List.mem_map.1 hx
    have := hq w
    simp only [withQuanta]
    omega
  · intro he
    rw [RoundRobin.start, List.map_eq_nil_iff, List.take_eq_nil_iff] at he
    have hnil := he.resolve_left (Nat.succ_ne_zero m)
    rw [RoundRobin.start, hnil]
    rfl

namespace TestOutput

variable {quanta : Fin n → Int32}

/-- What slot `j` holds: its worker with the quanta it has left. -/
def slots (t : TestOutput n m) (j : Fin (m + 1)) : Option (Fin n × Nat) :=
  (t.queue j).map fun w => (w, (t.remaining j).toInt.toNat)

/-- The ring is the queue of the round robin, and the workers from `worker_index` on are waiting. -/
structure Shows (quanta : Fin n → Int32) (t : TestOutput n m) (r : RoundRobin n) : Prop where
  queue : contents t.slots t.queueIndex = r.queue
  waiting : ((List.finRange n).drop t.workerIndex).map (withQuanta quanta) = r.waiting
  inQueue : t.inQueue = r.queue.length
  positive : ∀ j w, t.queue j = some w → 1 ≤ (t.remaining j).toInt

/-- Slot `i` overwritten and `queue_index` moved on: what the slot now holds is met last. -/
theorem Shows.overwrite {t t' : TestOutput n m} {r r' : RoundRobin n} {i : Fin (m + 1)} {x : Option (Fin n)}
    {left : Int32} {rest : List (Fin n × Nat)} (h : t.Shows quanta r)
    (hturn : ∀ y, contents (Function.update t.slots i y) (nextSlot i) = rest ++ y.toList)
    (hleft : x ≠ none → 1 ≤ left.toInt) (hq : t'.queue = Function.update t.queue i x)
    (hr : t'.remaining = Function.update t.remaining i left) (hi : t'.queueIndex = nextSlot i)
    (hqueue : r'.queue = rest ++ (x.map fun w => (w, left.toInt.toNat)).toList)
    (hwait : ((List.finRange n).drop t'.workerIndex).map (withQuanta quanta) = r'.waiting)
    (hin : t'.inQueue = r'.queue.length) : t'.Shows quanta r' := by
  refine ⟨?_, hwait, hin, ?_⟩
  · have hslots : t'.slots = Function.update t.slots i (x.map fun w => (w, left.toInt.toNat)) := by
      funext j
      unfold slots
      rw [hq, hr]
      by_cases hj : j = i
      · subst hj; simp
      · simp [hj]
    rw [hslots, hi, hturn, hqueue]
  · intro j w hw
    rw [hq] at hw
    rw [hr]
    by_cases hj : j = i
    · subst hj
      rw [Function.update_self] at hw ⊢
      exact hleft (by rw [hw]; simp)
    · rw [Function.update_of_ne hj] at hw ⊢
      exact h.positive j w hw

theorem waiting_cons {k : Nat} (h : k < n) :
    ((List.finRange n).drop k).map (withQuanta quanta) =
      withQuanta quanta ⟨k, h⟩ :: ((List.finRange n).drop (k + 1)).map (withQuanta quanta) := by
  rw [List.drop_eq_getElem_cons (by simpa using h), List.map_cons, List.getElem_finRange]
  rfl

theorem turn_round (hq : ∀ w, 1 ≤ (quanta w).toInt) {t : TestOutput n m} {r : RoundRobin n} (h : t.Shows quanta r)
    (hne : r.queue ≠ []) : ∃ t', t.turn quanta = some (t', r.round.2) ∧ t'.Shows quanta r.round.1 ∧
      t'.myRun = t.myRun + 1 := by
  obtain ⟨⟨b, hb⟩, hcont⟩ := nextOccupied_spec (q := t.slots) (i := t.queueIndex) (by rw [h.queue]; exact hne)
  rw [show nextOccupied t.slots (m + 1) t.queueIndex = nextOccupied t.queue (m + 1) t.queueIndex from
    nextOccupied_map _ _ _ _] at hb hcont
  obtain ⟨w, hw, rfl⟩ := Option.map_eq_some_iff.1 hb
  obtain ⟨rest, hr, hturn⟩ := contents_turn hb
  rw [hcont, h.queue] at hr
  have hpos := h.positive _ w hw
  have hlen : t.inQueue = rest.length + 1 := by rw [h.inQueue, hr]; rfl
  unfold turn
  generalize nextOccupied t.queue (m + 1) t.queueIndex = i at *
  simp only [hw, Function.update_self, quanta_sub_one_eq_zero hpos]
  by_cases hlast : (t.remaining i).toInt = 1
  · rw [if_pos hlast, RoundRobin.round_leave hr (by omega)]
    by_cases hlt : t.workerIndex < n
    · -- the next worker takes the slot
      have hwait := h.waiting
      rw [waiting_cons hlt] at hwait
      rw [dif_pos hlt]
      refine ⟨_, rfl, ?_, rfl⟩
      exact h.overwrite hturn (fun _ => hq ⟨t.workerIndex, hlt⟩) rfl (Function.update_idem ..) rfl
        (by rw [← hwait]; rfl) (by rw [← hwait]; rfl) (by simp [place, hlen, ← hwait])
    · -- nobody is left to take it
      have hwait : r.waiting = [] := by rw [← h.waiting, List.drop_of_length_le (by simp; omega)]; rfl
      rw [dif_neg hlt]
      refine ⟨_, rfl, ?_, rfl⟩
      exact h.overwrite hturn (fun hx => absurd rfl hx) rfl rfl rfl (by rw [hwait]; rfl)
        (by rw [hwait]; exact h.waiting.trans hwait) (by simp [hlen, hwait])
  · rw [if_neg hlast, RoundRobin.round_requeue hr (by omega)]
    have hqueue : t.queue = Function.update t.queue i (some w) := by rw [← hw, Function.update_eq_self]
    have hsub := quanta_sub_one hpos
    have hleft : (t.remaining i - 1).toInt.toNat = (t.remaining i).toInt.toNat - 1 := by omega
    refine ⟨_, rfl, ?_, rfl⟩
    exact h.overwrite hturn (fun _ => by omega) hqueue rfl rfl (by rw [← hleft]; rfl) h.waiting (by simp [hlen])

/-- The loop goes on while the queue is not empty. -/
theorem Shows.continues {t : TestOutput n m} {r : RoundRobin n} (h : t.Shows quanta r) (hf : r.Fair) :
    (t.workerIndex < n ∨ 0 < t.inQueue) ↔ r.queue ≠ [] := by
  rw [h.inQueue, List.length_pos_iff]
  constructor
  · rintro (hlt | hne) hnil
    · have hwait := hf.busy hnil
      rw [← h.waiting, List.map_eq_nil_iff, List.drop_eq_nil_iff, List.length_finRange] at hwait
      exact absurd hlt (not_lt.2 hwait)
    · exact hne hnil
  · intro hne
    exact .inr hne

/-- With a turn to spend for every quantum left the loop ends, having expected the whole schedule. -/
theorem loop_schedule (hq : ∀ w, 1 ≤ (quanta w).toInt) : ∀ {fuel : Nat} {t : TestOutput n m} {r : RoundRobin n},
    t.Shows quanta r → r.Fair → r.total = fuel →
      ∃ t', loop quanta fuel t = some (t', r.schedule) ∧ t'.myRun = t.myRun + Int32.ofNat fuel
  | 0, t, r, h, hf, htotal => by
    have hstop := mt (h.continues hf).1 (not_not.2 ((RoundRobin.total_eq_zero hf).1 htotal))
    refine ⟨t, ?_, by simp⟩
    rw [loop, if_neg hstop, RoundRobin.schedule, htotal]
    rfl
  | fuel + 1, t, r, h, hf, htotal => by
    have hne : r.queue ≠ [] := mt (RoundRobin.total_eq_zero hf).2 (by omega)
    have hround : r.round.1.total = fuel := by have := RoundRobin.total_round hf hne; omega
    obtain ⟨t₁, hturn, h₁, hrun⟩ := turn_round hq h hne
    obtain ⟨t₂, hloop, hrun₂⟩ := loop_schedule hq h₁ hf.round hround
    refine ⟨t₂, ?_, ?_⟩
    · rw [loop, if_pos ((h.continues hf).2 hne), hturn]
      simp only [Option.bind_eq_bind, Option.bind_some, hloop]
      rw [RoundRobin.schedule, RoundRobin.schedule, htotal, hround]
      rfl
    · rw [hrun₂, hrun, Int32.add_assoc, Int32.add_comm 1, Int32.ofNat_add]
      rfl

/-! ## The whole of `test_output` -/

/-- The first `k` slots hold the first workers. -/
structure Filled (quanta : Fin n → Int32) (k : Nat) (t : TestOutput n m) : Prop where
  queue : ∀ j, t.queue j = if j.val < k then (List.finRange n)[j.val]? else none
  remaining : ∀ j w, t.queue j = some w → t.remaining j = quanta w
  workerIndex : t.workerIndex = min k n
  inQueue : t.inQueue = min k n
  queueIndex : t.queueIndex = 0
  myRun : t.myRun = 0

theorem Filled.place {k : Nat} {t : TestOutput n m} (h : t.Filled quanta k) (hk : k < m + 1) (hlt : t.workerIndex < n) :
    { t.place quanta ⟨k, hk⟩ hlt with inQueue := t.inQueue + 1 }.Filled quanta (k + 1) := by
  have hi := h.workerIndex
  have hin := h.inQueue
  have hkn : t.workerIndex = k := by omega
  refine ⟨?_, ?_, by simp [TestOutput.place]; omega, by simp; omega, h.queueIndex, h.myRun⟩
  · intro j
    by_cases hj : j = ⟨k, hk⟩
    · subst hj
      have hget : (List.finRange n)[k]? = some ⟨k, hkn ▸ hlt⟩ := by
        rw [List.getElem?_eq_getElem (by simpa using hkn ▸ hlt), List.getElem_finRange]
        rfl
      simp only [TestOutput.place, Function.update_self]
      rw [if_pos (Nat.lt_succ_self k), hget]
      simp [hkn]
    · have hne : j.val ≠ k := fun he => hj (Fin.ext he)
      have hiff : j.val < k + 1 ↔ j.val < k := by omega
      simp only [TestOutput.place, Function.update_of_ne hj, h.queue, hiff]
  · intro j w hj
    by_cases hj' : j = ⟨k, hk⟩
    · subst hj'
      simp only [TestOutput.place, Function.update_self, Option.some.injEq] at hj ⊢
      rw [hj]
    · simp only [TestOutput.place, Function.update_of_ne hj'] at hj ⊢
      exact h.remaining j w hj

theorem Filled.full {k : Nat} {t : TestOutput n m} (h : t.Filled quanta k) (hn : ¬ t.workerIndex < n) :
    t.Filled quanta (k + 1) := by
  have hi := h.workerIndex
  have hin := h.inQueue
  refine ⟨fun j => ?_, h.remaining, by omega, by omega, h.queueIndex, h.myRun⟩
  rw [h.queue]
  by_cases hj : j.val < k
  · rw [if_pos hj, if_pos (Nat.lt_succ_of_lt hj)]
  · rw [if_neg hj, List.getElem?_eq_none (by simp; omega), ite_self]

theorem filled (quanta : Fin n → Int32) (remaining : Fin (m + 1) → Int32) : ∀ k, k ≤ m + 1 →
    (fill quanta (initial remaining) k).Filled quanta k
  | 0, _ => ⟨fun _ => rfl, fun _ _ h => (by cases h), by simp [fill, initial], by simp [fill, initial], rfl, rfl⟩
  | k + 1, hk => by
    have h := filled quanta remaining k (Nat.le_of_succ_le hk)
    rw [fill]
    by_cases hlt : (fill quanta (initial remaining) k).workerIndex < n
    · rw [dif_pos ⟨hk, hlt⟩]; exact h.place hk hlt
    · rw [dif_neg fun hor => hlt hor.2]; exact h.full hlt

theorem Filled.shows {t : TestOutput n m} (hq : ∀ w, 1 ≤ (quanta w).toInt) (h : t.Filled quanta (m + 1)) :
    t.Shows quanta (.start quanta (m + 1)) := by
  have hslots : t.slots = fun j => ((List.finRange n).map (withQuanta quanta))[j.val]? := by
    funext j
    have hj := h.queue j
    rw [if_pos j.isLt] at hj
    rw [List.getElem?_map, ← hj, slots]
    cases hw : t.queue j with
    | none => rw [Option.map_none, Option.map_none]
    | some w => rw [Option.map_some, Option.map_some, h.remaining j w hw]; rfl
  refine ⟨?_, ?_, ?_, fun j w hw => by rw [h.remaining j w hw]; exact hq w⟩
  · rw [hslots, h.queueIndex, contents_fill, ← List.map_take]
    rfl
  · rw [h.workerIndex, RoundRobin.start]
    rcases Nat.le_total (m + 1) n with hle | hle
    · rw [Nat.min_eq_left hle]
    · rw [Nat.min_eq_right hle, List.drop_of_length_le (by simp), List.drop_of_length_le (by simpa using hle)]
  · simp [h.inQueue, RoundRobin.start]

theorem testOutput_schedule (hq : ∀ w, 1 ≤ (quanta w).toInt) (remaining : Fin (m + 1) → Int32) :
    ∃ t, testOutput quanta remaining = some (t, (RoundRobin.start quanta (m + 1)).schedule) ∧
      t.myRun = Int32.ofNat (RoundRobin.start quanta (m + 1)).total := by
  have hfill := filled quanta remaining (m + 1) le_rfl
  obtain ⟨t, hloop, hrun⟩ := loop_schedule hq (hfill.shows hq) (RoundRobin.start_fair hq m)
    (RoundRobin.start_total quanta (m + 1))
  refine ⟨t, hloop, ?_⟩
  rw [hrun, hfill.myRun, RoundRobin.start_total, Int32.zero_add]

end TestOutput

end UnixSysProg.Sched
