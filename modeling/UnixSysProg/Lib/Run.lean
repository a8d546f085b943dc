/-
Runs of a step function that reads an input, answers an output and may fail: inversion of a run
step by step, conditions that hold along a run, and the rules the machine models use. A history
invariant speaks of the inputs read and the outputs answered so far (`run_history`), of the states alone
(`run_invariant`) or of what the outputs add up to (`run_log`); a total one also says that the run goes
through (`run_total`); a measure that some input brings down leads to a goal (`run_reaches`); a condition
on all states of a run is one on its steps (`always_iff_along`); two machines fed with the same inputs are
compared step by step (`run_pair`).
-/
import Mathlib.Data.List.Forall2

namespace UnixSysProg.Lib

variable {σ τ ι ο π ε : Type}

/-! ## Runs -/

/-- The run of `step` over a list of inputs: the state it ends in and the answer to each input. -/
def run (step : σ → ι → Except ε (σ × ο)) : σ → List ι → Except ε (σ × List ο)
  | s, [] => .ok (s, [])
  | s, x :: xs =>
    match step s x with
    | .error e => .error e
    | .ok (s', o) =>
      match run step s' xs with
      | .error e => .error e
      | .ok (s'', os) => .ok (s'', o :: os)

theorem run_cons (step : σ → ι → Except ε (σ × ο)) (s : σ) (x : ι) (xs : List ι) :
    run step s (x :: xs) =
      match step s x with
      | .error e => .error e
      | .ok (s', o) =>
        match run step s' xs with
        | .error e => .error e
        | .ok (s'', os) => .ok (s'', o :: os) := rfl

theorem run_cons_ok {step : σ → ι → Except ε (σ × ο)} {s s'' : σ} {x : ι} {xs : List ι} {os : List ο} :
    run step s (x :: xs) = .ok (s'', os) ↔
      ∃ s' o os', step s x = .ok (s', o) ∧ run step s' xs = .ok (s'', os') ∧ os = o :: os' := by
  rw [run_cons]
  constructor
  · intro h
    split at h
    · cases h
    · rename_i s' o hs
      split at h
      · cases h
      · rename_i t os' hr
        cases h; exact ⟨s', o, os', hs, hr, rfl⟩
  · rintro ⟨s', o, os', hs, hr, rfl⟩
    rw [hs]; simp only [hr]

theorem run_append {step : σ → ι → Except ε (σ × ο)} : ∀ {xs ys : List ι} {s s'' : σ} {os : List ο},
    run step s (xs ++ ys) = .ok (s'', os) ↔
      ∃ s' os₁ os₂, run step s xs = .ok (s', os₁) ∧ run step s' ys = .ok (s'', os₂) ∧ os = os₁ ++ os₂
  | [], ys, s, s'', os => by simp [run]
  | x :: xs, ys, s, s'', os => by
    rw [List.cons_append, run_cons_ok]
    constructor
    · rintro ⟨s₁, o, os', hs, hr, rfl⟩
      obtain ⟨s', os₁, os₂, h1, h2, rfl⟩ := run_append.1 hr
      exact ⟨s', o :: os₁, os₂, run_cons_ok.2 ⟨s₁, o, os₁, hs, h1, rfl⟩, h2, rfl⟩
    · rintro ⟨s', os₁, os₂, h1, h2, rfl⟩
      obtain ⟨s₁, o, os', hs, hr, rfl⟩ := run_cons_ok.1 h1
      exact ⟨s₁, o, os' ++ os₂, hs, run_append.2 ⟨s', os', os₂, hr, h2, rfl⟩, rfl⟩

/-- An input more at the end. -/
theorem run_concat {step : σ → ι → Except ε (σ × ο)} {s s' s'' : σ} {xs : List ι} {os : List ο} {x : ι} {o : ο}
    (h : run step s xs = .ok (s', os)) (hx : step s' x = .ok (s'', o)) :
    run step s (xs ++ [x]) = .ok (s'', os ++ [o]) :=
  run_append.2 ⟨s', os, [o], h, run_cons_ok.2 ⟨s'', o, [], hx, rfl, rfl⟩, rfl⟩

/-- A run fails in one of its steps. -/
theorem exists_step_error {step : σ → ι → Except ε (σ × ο)} {e : ε} : ∀ {xs : List ι} {s : σ}, run step s xs = .error e →
    ∃ s' x, step s' x = .error e
  | [], _, h => by cases h
  | x :: xs, s, h => by
    rw [run_cons] at h
    split at h
    · rename_i hstep
      cases h
      exact ⟨s, x, hstep⟩
    · split at h
      · rename_i hrest
        cases h
        exact exists_step_error hrest
      · cases h

/-- Some run leads from `s` to `s'`. -/
def Reaches (step : σ → ι → Except ε (σ × ο)) (s s' : σ) : Prop := ∃ xs os, run step s xs = .ok (s', os)

theorem Reaches.trans {step : σ → ι → Except ε (σ × ο)} {s s' s'' : σ} (h : Reaches step s s')
    (h' : Reaches step s' s'') : Reaches step s s'' := by
  obtain ⟨xs, os, hrun⟩ := h
  obtain ⟨ys, os', hrun'⟩ := h'
  exact ⟨xs ++ ys, os ++ os', run_append.2 ⟨s', os, os', hrun, hrun', rfl⟩⟩

/-! ## Conditions along a run -/

/-- Every step the run takes starts in a state and with an input that satisfy `C`. -/
def Along (step : σ → ι → Except ε (σ × ο)) (C : σ → ι → Prop) : σ → List ι → Prop
  | _, [] => True
  | s, x :: xs => C s x ∧ ∀ s' o, step s x = .ok (s', o) → Along step C s' xs

theorem along_cons {step : σ → ι → Except ε (σ × ο)} {C : σ → ι → Prop} {s : σ} {x : ι} {xs : List ι} :
    Along step C s (x :: xs) ↔ C s x ∧ ∀ s' o, step s x = .ok (s', o) → Along step C s' xs := Iff.rfl

/-- A condition along a run is checked by running. -/
instance decidableAlong (step : σ → ι → Except ε (σ × ο)) (C : σ → ι → Prop) [∀ s x, Decidable (C s x)] :
    ∀ (s : σ) (xs : List ι), Decidable (Along step C s xs)
  | _, [] => isTrue trivial
  | s, x :: xs =>
    match h : step s x with
    | .error _ => decidable_of_iff (C s x) (by simp [along_cons, h])
    | .ok (s', _) =>
      haveI := decidableAlong step C s' xs
      decidable_of_iff (C s x ∧ Along step C s' xs) (by simp [along_cons, h])

theorem along_true (step : σ → ι → Except ε (σ × ο)) : ∀ (xs : List ι) (s : σ),
    Along step (fun _ _ => True) s xs
  | [], _ => trivial
  | _ :: xs, _ => ⟨trivial, fun s' _ _ => along_true step xs s'⟩

theorem along_of_forall {step : σ → ι → Except ε (σ × ο)} {C : σ → ι → Prop} : ∀ {xs : List ι} {s : σ},
    (∀ x ∈ xs, ∀ s, C s x) → Along step C s xs
  | [], _, _ => trivial
  | x :: _, s, h => ⟨h x (List.mem_cons_self ..) s, fun _ _ _ => along_of_forall fun y hy => h y (List.mem_cons_of_mem _ hy)⟩

/-- Two conditions that agree under an invariant agree along a run. -/
theorem along_iff {step : σ → ι → Except ε (σ × ο)} {C D : σ → ι → Prop} {I : σ → Prop}
    (hiff : ∀ s x, I s → (C s x ↔ D s x)) (hstep : ∀ s x s' o, I s → D s x → step s x = .ok (s', o) → I s') :
    ∀ {xs : List ι} {s : σ}, I s → (Along step C s xs ↔ Along step D s xs)
  | [], _, _ => Iff.rfl
  | x :: xs, s, h => by
    rw [along_cons, along_cons, hiff s x h]
    refine and_congr_right fun hd => forall_congr' fun s' => forall_congr' fun o => ?_
    exact imp_congr_right fun hs => along_iff hiff hstep (hstep s x s' o h hd hs)

theorem along_and {step : σ → ι → Except ε (σ × ο)} {C D : σ → ι → Prop} : ∀ {xs : List ι} {s : σ},
    Along step C s xs → Along step D s xs → Along step (fun s x => C s x ∧ D s x) s xs
  | [], _, _, _ => trivial
  | _ :: _, _, hc, hd => ⟨⟨hc.1, hd.1⟩, fun s' o hs => along_and (hc.2 s' o hs) (hd.2 s' o hs)⟩

theorem Along.mono {step : σ → ι → Except ε (σ × ο)} {C D : σ → ι → Prop} (hcd : ∀ s x, C s x → D s x) :
    ∀ {xs : List ι} {s : σ}, Along step C s xs → Along step D s xs
  | [], _, _ => trivial
  | _ :: _, _, hc => ⟨hcd _ _ hc.1, fun s' o hs => (hc.2 s' o hs).mono hcd⟩

/-- A condition along a run is one on every step that the run comes to. -/
theorem along_iff_forall {step : σ → ι → Except ε (σ × ο)} {C : σ → ι → Prop} : ∀ {xs : List ι} {s : σ},
    Along step C s xs ↔ ∀ pre x post s' os, xs = pre ++ x :: post → run step s pre = .ok (s', os) → C s' x
  | [], s => ⟨fun _ pre x post s' os hxs _ => by simp at hxs, fun _ => trivial⟩
  | y :: ys, s => by
    rw [along_cons]
    constructor
    · rintro ⟨hy, hrest⟩ pre x post s' os hxs hrun
      cases pre with
      | nil =>
        cases hrun
        cases hxs
        exact hy
      | cons z pre =>
        cases hxs
        obtain ⟨s₁, o, os', hs, hr, rfl⟩ := run_cons_ok.1 hrun
        exact along_iff_forall.1 (hrest s₁ o hs) pre x post s' os' rfl hr
    · intro h
      refine ⟨h [] y ys s [] rfl rfl, fun s₁ o hs => along_iff_forall.2 fun pre x post s' os hxs hrun => ?_⟩
      exact h (y :: pre) x post s' (o :: os) (by rw [hxs]; rfl) (run_cons_ok.2 ⟨s₁, o, os, hs, hrun, rfl⟩)

theorem Along.left {step : σ → ι → Except ε (σ × ο)} {C : σ → ι → Prop} {xs ys : List ι} {s : σ}
    (h : Along step C s (xs ++ ys)) : Along step C s xs :=
  along_iff_forall.2 fun pre x post s' os hxs hrun =>
    along_iff_forall.1 h pre x (post ++ ys) s' os (by rw [hxs]; simp) hrun

/-- What `f` reads off the steps of a run, in their order. -/
def gather (step : σ → ι → Except ε (σ × ο)) (f : σ → ι → List π) : σ → List ι → List π
  | _, [] => []
  | s, x :: xs =>
    f s x ++
      match step s x with
      | .error _ => []
      | .ok (s', _) => gather step f s' xs

theorem gather_concat {step : σ → ι → Except ε (σ × ο)} {f : σ → ι → List π} {x : ι} :
    ∀ {xs : List ι} {s s' : σ} {os : List ο}, run step s xs = .ok (s', os) →
      gather step f s (xs ++ [x]) = gather step f s xs ++ f s' x
  | [], s, s', _, h => by
    cases h
    rw [List.nil_append, gather, gather]
    cases step s x <;> simp [gather]
  | y :: ys, s, s', _, h => by
    obtain ⟨s₁, o, os, hs, hr, rfl⟩ := run_cons_ok.1 h
    rw [List.cons_append, gather, gather, hs]
    dsimp only
    rw [gather_concat hr, List.append_assoc]

/-- The number of steps of a run that start in a state and with an input that pass `p`. -/
def countAlong (step : σ → ι → Except ε (σ × ο)) (p : σ → ι → Bool) (s : σ) (xs : List ι) : Nat :=
  (gather step (fun s x => if p s x then [x] else []) s xs).length

theorem countAlong_concat {step : σ → ι → Except ε (σ × ο)} {p : σ → ι → Bool} {x : ι} {xs : List ι} {s s' : σ}
    {os : List ο} (h : run step s xs = .ok (s', os)) :
    countAlong step p s (xs ++ [x]) = countAlong step p s xs + (p s' x).toNat := by
  rw [countAlong, gather_concat h, List.length_append]
  congr 1
  cases p s' x <;> rfl

/-! ## Invariant rules -/

theorem run_history_from {step : σ → ι → Except ε (σ × ο)} {C : σ → ι → Prop} {P : List ι → List ο → σ → Prop}
    (hstep : ∀ pre os s x s' o, P pre os s → C s x → step s x = .ok (s', o) → P (pre ++ [x]) (os ++ [o]) s') :
    ∀ {xs pre : List ι} {s s' : σ} {os₀ os : List ο}, P pre os₀ s → Along step C s xs → run step s xs = .ok (s', os) →
      P (pre ++ xs) (os₀ ++ os) s'
  | [], _, _, _, _, _, h0, _, h => by cases h; simpa using h0
  | x :: xs, pre, _, _, os₀, _, h0, hc, h => by
    obtain ⟨s₁, o, os', hs, hr, rfl⟩ := run_cons_ok.1 h
    have := run_history_from hstep (hstep pre os₀ _ x s₁ o h0 hc.1 hs) (hc.2 s₁ o hs) hr
    simpa using this

/-- A history invariant kept by every step that meets `C` holds at the end of a run along `C`. -/
theorem run_history {step : σ → ι → Except ε (σ × ο)} {C : σ → ι → Prop} {P : List ι → List ο → σ → Prop}
    (hstep : ∀ pre os s x s' o, P pre os s → C s x → step s x = .ok (s', o) → P (pre ++ [x]) (os ++ [o]) s')
    {xs : List ι} {s s' : σ} {os : List ο} (h0 : P [] [] s) (hc : Along step C s xs)
    (h : run step s xs = .ok (s', os)) : P xs os s' :=
  run_history_from hstep h0 hc h

/-- An invariant of the states. -/
theorem run_invariant {step : σ → ι → Except ε (σ × ο)} {C : σ → ι → Prop} {I : σ → Prop}
    (hstep : ∀ s x s' o, I s → C s x → step s x = .ok (s', o) → I s') {xs : List ι} {s s' : σ} {os : List ο}
    (h0 : I s) (hc : Along step C s xs) (h : run step s xs = .ok (s', os)) : I s' :=
  run_history (P := fun _ _ s => I s) (fun _ _ s x s' o hi hx hs => hstep s x s' o hi hx hs) h0 hc h

/-- An invariant of the states and the log, where a step answers with what it adds to the log. -/
theorem run_log {step : σ → ι → Except ε (σ × List π)} {C : σ → ι → Prop} {I : List π → σ → Prop}
    (hstep : ∀ log s x s' es, I log s → C s x → step s x = .ok (s', es) → I (log ++ es) s')
    {xs : List ι} {s s' : σ} {os : List (List π)} (h0 : I [] s) (hc : Along step C s xs)
    (h : run step s xs = .ok (s', os)) : I os.flatten s' := by
  refine run_history (P := fun _ os s => I os.flatten s) (fun _ os s x s' es hi hx hs => ?_) h0 hc h
  rw [List.flatten_concat]
  exact hstep os.flatten s x s' es hi hx hs

/-- The step may use the run that led to it. -/
theorem run_history_reached {step : σ → ι → Except ε (σ × ο)} {P : List ι → List ο → σ → Prop} {s₀ s : σ} {xs : List ι}
    {os : List ο} (hstep : ∀ pre os s x s' o, run step s₀ pre = .ok (s, os) → P pre os s → step s x = .ok (s', o) →
      P (pre ++ [x]) (os ++ [o]) s') (h0 : P [] [] s₀) (h : run step s₀ xs = .ok (s, os)) : P xs os s := by
  have hreached := run_history (P := fun pre os s => run step s₀ pre = .ok (s, os) ∧ P pre os s)
    (fun pre os s x s' o hpre _ hx => ⟨run_concat hpre.1 hx, hstep pre os s x s' o hpre.1 hpre.2 hx⟩) ⟨rfl, h0⟩
    (along_true step xs s₀) h
  exact hreached.2

theorem run_total_from {step : σ → ι → Except ε (σ × ο)} {C : σ → ι → Prop} {P : List ι → List ο → σ → Prop}
    {all : List ι}
    (hstep : ∀ pre x post os s, all = pre ++ x :: post → P pre os s → C s x →
      ∃ s' o, step s x = .ok (s', o) ∧ P (pre ++ [x]) (os ++ [o]) s') :
    ∀ {xs pre : List ι} {os : List ο} {s : σ}, all = pre ++ xs → P pre os s → Along step C s xs →
      ∃ s' os', run step s xs = .ok (s', os') ∧ P all (os ++ os') s'
  | [], pre, os, s, ha, h0, _ => ⟨s, [], rfl, by simpa [ha] using h0⟩
  | x :: xs, pre, os, s, ha, h0, hc => by
    obtain ⟨s₁, o, hs, h1⟩ := hstep pre x xs os s ha h0 hc.1
    obtain ⟨s', os', hr, h2⟩ := run_total_from hstep (by simpa using ha) h1 (hc.2 s₁ o hs)
    exact ⟨s', o :: os', run_cons_ok.2 ⟨s₁, o, os', hs, hr, rfl⟩, by simpa using h2⟩

/-- When every step that meets `C` succeeds and keeps the history invariant, the whole run
succeeds and ends with it. The step may use where in the list of inputs it stands. -/
theorem run_total {step : σ → ι → Except ε (σ × ο)} {C : σ → ι → Prop} {P : List ι → List ο → σ → Prop}
    {xs : List ι} {s : σ}
    (hstep : ∀ pre x post os s, xs = pre ++ x :: post → P pre os s → C s x →
      ∃ s' o, step s x = .ok (s', o) ∧ P (pre ++ [x]) (os ++ [o]) s')
    (h0 : P [] [] s) (hc : Along step C s xs) : ∃ s' os, run step s xs = .ok (s', os) ∧ P xs os s' :=
  run_total_from hstep rfl h0 hc

/-- As long as the goal is not reached some input that meets `C` brings it closer, as `measure` counts,
and keeps the history invariant: then some run along `C` reaches the goal. -/
theorem run_reaches {step : σ → ι → Except ε (σ × ο)} {C : σ → ι → Prop} {P : List ο → σ → Prop} (goal : σ → Prop)
    (measure : σ → Nat)
    (hstep : ∀ os s, P os s → ¬ goal s → ∃ x s' o, C s x ∧ step s x = .ok (s', o) ∧ P (os ++ [o]) s' ∧
      (goal s' ∨ measure s' < measure s)) {os : List ο} {s : σ} (h0 : P os s) :
    ∃ xs s' os', Along step C s xs ∧ run step s xs = .ok (s', os') ∧ P (os ++ os') s' ∧ goal s' := by
  induction hk : measure s using Nat.strongRecOn generalizing os s with
  | _ k ih =>
    by_cases hgoal : goal s
    · exact ⟨[], s, [], trivial, rfl, by simpa using h0, hgoal⟩
    obtain ⟨x, s₁, o, hx, hs, h1, hcloser⟩ := hstep os s h0 hgoal
    have hrest : ∃ xs s' os', Along step C s₁ xs ∧ run step s₁ xs = .ok (s', os') ∧ P (os ++ [o] ++ os') s' ∧ goal s' := by
      rcases hcloser with hgoal | hlt
      · exact ⟨[], s₁, [], trivial, rfl, by simpa using h1, hgoal⟩
      · exact ih (measure s₁) (hk ▸ hlt) h1 rfl
    obtain ⟨xs, s', os', hc, hr, h2, hg⟩ := hrest
    refine ⟨x :: xs, s', o :: os', ⟨hx, fun s₂ o₂ hs₂ => ?_⟩, run_cons_ok.2 ⟨s₁, o, os', hs, hr, rfl⟩,
      by simpa using h2, hg⟩
    rw [hs] at hs₂
    cases hs₂
    exact hc

/-! ## Conditions on every state -/

/-- Every state that the run passes through, the last one included, satisfies `P`. -/
def Always (step : σ → ι → Except ε (σ × ο)) (P : σ → Prop) (s : σ) (xs : List ι) : Prop :=
  ∀ pre s' os, pre <+: xs → run step s pre = .ok (s', os) → P s'

theorem always_nil {step : σ → ι → Except ε (σ × ο)} {P : σ → Prop} {s : σ} : Always step P s [] ↔ P s := by
  constructor
  · intro h
    exact h [] s [] (List.prefix_refl _) rfl
  · intro h pre s' os hpre hrun
    rw [List.prefix_nil] at hpre
    subst hpre
    cases hrun
    exact h

theorem always_cons {step : σ → ι → Except ε (σ × ο)} {P : σ → Prop} {s : σ} {x : ι} {xs : List ι} :
    Always step P s (x :: xs) ↔ P s ∧ ∀ s' o, step s x = .ok (s', o) → Always step P s' xs := by
  constructor
  · intro h
    refine ⟨h [] s [] (List.nil_prefix) rfl, fun s₁ o hs pre s' os hpre hrun => ?_⟩
    exact h (x :: pre) s' (o :: os) (List.cons_prefix_cons.2 ⟨rfl, hpre⟩) (run_cons_ok.2 ⟨s₁, o, os, hs, hrun, rfl⟩)
  · rintro ⟨h0, h⟩ pre s' os hpre hrun
    cases pre with
    | nil => cases hrun; exact h0
    | cons y pre =>
      obtain ⟨rfl, hrest⟩ := List.cons_prefix_cons.1 hpre
      obtain ⟨s₁, o, os', hs, hr, rfl⟩ := run_cons_ok.1 hrun
      exact h s₁ o hs pre s' os' hrest hr

/-- When, under an invariant, a step keeps `P` if and only if it meets `C`, a run satisfies `P` throughout
if and only if all its steps meet `C`. The invariant may break with the first step that does not. -/
theorem always_iff_along {step : σ → ι → Except ε (σ × ο)} {C : σ → ι → Prop} {I P : σ → Prop}
    (hinv : ∀ s x s' o, I s → P s → C s x → step s x = .ok (s', o) → I s')
    (hstep : ∀ s x, I s → P s → ((∀ s' o, step s x = .ok (s', o) → P s') ↔ C s x)) :
    ∀ {xs : List ι} {s : σ}, I s → P s → (Always step P s xs ↔ Along step C s xs)
  | [], _, _, hp => iff_of_true (always_nil.2 hp) trivial
  | x :: xs, s, hi, hp => by
    rw [always_cons, along_cons, ← hstep s x hi hp]
    constructor
    · rintro ⟨_, h⟩
      have hnext : ∀ s' o, step s x = .ok (s', o) → P s' := fun s' o hs => h s' o hs [] s' [] List.nil_prefix rfl
      have hc := (hstep s x hi hp).1 hnext
      refine ⟨hnext, fun s' o hs => ?_⟩
      exact (always_iff_along hinv hstep (hinv s x s' o hi hp hc hs) (hnext s' o hs)).1 (h s' o hs)
    · rintro ⟨hnext, h⟩
      have hc := (hstep s x hi hp).1 hnext
      refine ⟨hp, fun s' o hs => ?_⟩
      exact (always_iff_along hinv hstep (hinv s x s' o hi hp hc hs) (hnext s' o hs)).2 (h s' o hs)

/-! ## Two machines on the same inputs -/

theorem run_pair_from {ε' : Type} {step₁ : σ → ι → Except ε (σ × ο)} {step₂ : τ → ι → Except ε' (τ × π)}
    {C : σ → ι → Prop} {R : List ι → σ → τ → Prop} {Q : ο → π → Prop} {all : List ι}
    (hstep : ∀ pre x post s t, all = pre ++ x :: post → R pre s t → C s x → ∃ s' t' o p, step₁ s x = .ok (s', o) ∧
      step₂ t x = .ok (t', p) ∧ R (pre ++ [x]) s' t' ∧ Q o p) :
    ∀ {xs pre : List ι} {s : σ} {t : τ}, all = pre ++ xs → R pre s t → Along step₁ C s xs →
      ∃ s' t' os ps, run step₁ s xs = .ok (s', os) ∧ run step₂ t xs = .ok (t', ps) ∧ R all s' t' ∧ List.Forall₂ Q os ps
  | [], pre, s, t, ha, h0, _ => ⟨s, t, [], [], rfl, rfl, by simpa [ha] using h0, .nil⟩
  | x :: xs, pre, s, t, ha, h0, hc => by
    obtain ⟨s₁, t₁, o, p, hs, ht, h1, hq⟩ := hstep pre x xs s t ha h0 hc.1
    obtain ⟨s', t', os, ps, hr, hr', h2, hqs⟩ := run_pair_from hstep (by simpa using ha) h1 (hc.2 s₁ o hs)
    exact ⟨s', t', o :: os, p :: ps, run_cons_ok.2 ⟨s₁, o, os, hs, hr, rfl⟩,
      run_cons_ok.2 ⟨t₁, p, ps, ht, hr', rfl⟩, h2, .cons hq hqs⟩

/-- Lockstep: when related states step to related states with related answers, so do the runs. The
condition `C` is on the first machine; the step may use where in the list of inputs it stands. -/
theorem run_pair {ε' : Type} {step₁ : σ → ι → Except ε (σ × ο)} {step₂ : τ → ι → Except ε' (τ × π)}
    {C : σ → ι → Prop} {R : List ι → σ → τ → Prop} {Q : ο → π → Prop} {xs : List ι} {s : σ} {t : τ}
    (hstep : ∀ pre x post s t, xs = pre ++ x :: post → R pre s t → C s x → ∃ s' t' o p, step₁ s x = .ok (s', o) ∧
      step₂ t x = .ok (t', p) ∧ R (pre ++ [x]) s' t' ∧ Q o p)
    (h0 : R [] s t) (hc : Along step₁ C s xs) :
    ∃ s' t' os ps, run step₁ s xs = .ok (s', os) ∧ run step₂ t xs = .ok (t', ps) ∧ R xs s' t' ∧ List.Forall₂ Q os ps :=
  run_pair_from hstep rfl h0 hc

end UnixSysProg.Lib
