/-
Conditional execution. Left-to-right evaluation decides at each connector whether the next command runs, by
the status of the command that ran last. The executor decides only after a command that it has run: it skips
the next one and goes on with the one after that, whatever the connector in between says, and it stops
after twenty commands. Between the two stands the list of positions that the executor's passes come to
(`visited`).
-/
import UnixSysProg.Osh.Executor
import UnixSysProg.Osh.Parser

namespace UnixSysProg.Osh

open UnixSysProg.Lib

/-! ## Left-to-right evaluation -/

/-- The connector lets the next command run when the last one that ran has ended with this status. -/
def Runs : RunNextCommandSymbol → Int → Prop
  | .execOnsuccess, last => last = 0
  | .execOnfailure, last => last ≠ 0
  | _, _ => True

instance : ∀ connector last, Decidable (Runs connector last)
  | .execOnsuccess, last => inferInstanceAs (Decidable (last = 0))
  | .execOnfailure, last => inferInstanceAs (Decidable (last ≠ 0))
  | .redirStdout, _ | .redirStdin, _ | .appendStdout, _ | .redirPipe, _ | .execAny, _ | .none, _ => isTrue trivial

/-- The positions of the commands that run of a chain that begins at position `n`, behind a connector and a
command that has ended with `last`. A command that does not run leaves `last` as it is. -/
def evaluate (rval : Nat → Int) : List Command → Nat → RunNextCommandSymbol → Int → List Nat
  | [], _, _, _ => []
  | c :: chain, n, connector, last =>
    if Runs connector last then n :: evaluate rval chain (n + 1) c.runNextCommand (rval n)
    else evaluate rval chain (n + 1) c.runNextCommand last

/-- The commands of a chain that run, when the command at position `n` ends with `rval n`. -/
def executed (rval : Nat → Int) (chain : List Command) : List Nat := evaluate rval chain 0 .execAny 0

theorem evaluate_le {rval : Nat → Int} {chain : List Command} {n p : Nat} {connector : RunNextCommandSymbol} {last : Int}
    (h : p ∈ evaluate rval chain n connector last) : n ≤ p := by
  induction chain generalizing n connector last with
  | nil => cases h
  | cons c chain ih =>
    rw [evaluate] at h
    split_ifs at h
    · rcases List.mem_cons.1 h with rfl | h
      · exact le_rfl
      · exact Nat.le_of_succ_le (ih h)
    · exact Nat.le_of_succ_le (ih h)

theorem evaluate_runs {rval : Nat → Int} {connector : RunNextCommandSymbol} {last : Int} (c : Command)
    (chain : List Command) (n : Nat) (h : Runs connector last) :
    evaluate rval (c :: chain) n connector last = n :: evaluate rval chain (n + 1) c.runNextCommand (rval n) :=
  if_pos h

theorem evaluate_first {rval : Nat → Int} {connector : RunNextCommandSymbol} {last : Int} {chain : List Command} (n : Nat)
    (h : Runs connector last) (hlen : 0 < chain.length) : n ∈ evaluate rval chain n connector last := by
  obtain ⟨c, chain, rfl⟩ := List.exists_cons_of_length_pos hlen
  rw [evaluate_runs c chain n h]
  exact List.mem_cons_self

theorem evaluate_skips {rval : Nat → Int} {connector : RunNextCommandSymbol} {last : Int} (c : Command)
    (chain : List Command) (n : Nat) (h : ¬ Runs connector last) :
    evaluate rval (c :: chain) n connector last = evaluate rval chain (n + 1) c.runNextCommand last :=
  if_neg h

theorem Executor.skips_iff {rval : Int} {c : Command} : Skips rval c ↔ ¬ Runs c.runNextCommand rval := by
  unfold Skips Runs
  cases c.runNextCommand <;> simp

/-! ## The executor's walk -/

/-- The positions that `k` passes come to, on a chain that begins at position `n`. -/
def visited (rval : Nat → Int) : Nat → List Command → Nat → List Nat
  | 0, _, _ => []
  | _, [], _ => []
  | k + 1, c :: chain, n =>
    n :: if Executor.Skips (rval n) c then visited rval k chain.tail (n + 2) else visited rval k chain (n + 1)

/-- A chain of positions that is no longer than `k` and leaves out no two commands one after the other, unless
at the end of the chain or after `k`. -/
structure SkipsOne (k n : Nat) (positions : List Nat) : Prop where
  length : positions.length ≤ k
  next : ∀ p ∈ positions.take (k - 1), p + 1 ∉ positions → p + 2 < n → p + 2 ∈ positions

theorem SkipsOne.nil (k n : Nat) : SkipsOne k n [] := ⟨Nat.zero_le k, by simp⟩

theorem skipsOne_zero {n : Nat} {positions : List Nat} : SkipsOne 0 n positions ↔ positions = [] := by
  constructor
  · intro h
    exact List.length_eq_zero_iff.1 (Nat.le_zero.1 h.length)
  · rintro rfl
    exact .nil ..

/-- Whether the list leaves out too much is decided at its first position and in the rest of it. -/
theorem skipsOne_cons {k n m : Nat} {positions : List Nat} (hlt : ∀ p ∈ positions, m < p) :
    SkipsOne (k + 1) n (m :: positions) ↔
      (0 < k → m + 1 ∉ positions → m + 2 < n → m + 2 ∈ positions) ∧ SkipsOne k n positions := by
  have hmem : ∀ p j, m ≤ p → (p + (j + 1) ∈ m :: positions ↔ p + (j + 1) ∈ positions) := by
    intro p j hp
    rw [List.mem_cons, or_iff_right (by omega)]
  cases k with
  | zero =>
    constructor
    · intro h
      refine ⟨fun hk => absurd hk (lt_irrefl 0), Nat.le_of_succ_le_succ h.length, by simp⟩
    · rintro ⟨_, h⟩
      exact ⟨Nat.succ_le_succ h.length, by simp⟩
  | succ k =>
    constructor
    · intro h
      refine ⟨fun _ => ?_, Nat.le_of_succ_le_succ h.length, fun p hp => ?_⟩
      · have := h.next m (by simp)
        rwa [hmem m 0 le_rfl, hmem m 1 le_rfl] at this
      · have hpm := (hlt p (List.mem_of_mem_take hp)).le
        have := h.next p (List.mem_cons_of_mem _ hp)
        rwa [hmem p 0 hpm, hmem p 1 hpm] at this
    · rintro ⟨hfirst, h⟩
      refine ⟨Nat.succ_le_succ h.length, fun p hp => ?_⟩
      rcases List.mem_cons.1 hp with rfl | hp
      · rw [hmem p 0 le_rfl, hmem p 1 le_rfl]
        exact hfirst k.succ_pos
      · have hpm := (hlt p (List.mem_of_mem_take hp)).le
        rw [hmem p 0 hpm, hmem p 1 hpm]
        exact h.next p hp

theorem visited_nil (rval : Nat → Int) (k n : Nat) : visited rval k [] n = [] := by
  cases k <;> rfl

/-- A command skipped after the one at `n`: the walk goes on with the command behind it, the evaluation only
if the connector of the skipped command lets it. -/
theorem visited_skip_iff {rval : Nat → Int} {k : Nat} {chain : List Command} {n : Nat} {connector : RunNextCommandSymbol}
    {last : Int} (ih : Runs connector last → (visited rval k chain (n + 2) = evaluate rval chain (n + 2) connector last ↔
      SkipsOne k (n + 2 + chain.length) (evaluate rval chain (n + 2) connector last))) :
    visited rval k chain (n + 2) = evaluate rval chain (n + 2) connector last ↔
      (0 < k → n + 1 ∉ evaluate rval chain (n + 2) connector last → n + 2 < n + (chain.length + 1 + 1) →
        n + 2 ∈ evaluate rval chain (n + 2) connector last) ∧
      SkipsOne k (n + (chain.length + 1 + 1)) (evaluate rval chain (n + 2) connector last) := by
  have hlen : n + 2 + chain.length = n + (chain.length + 1 + 1) := by omega
  by_cases hruns : Runs connector last
  · rw [ih hruns, hlen, iff_and_self]
    intro _ _ _ hlt
    exact evaluate_first _ hruns (by omega)
  · cases chain with
    | nil => simp [visited_nil, evaluate, SkipsOne.nil]
    | cons d chain =>
      rw [evaluate_skips d chain (n + 2) hruns]
      -- the evaluation leaves out `n + 2` as well, so that it must have come to its end
      have hnot : ∀ p, p < n + 3 → p ∉ evaluate rval chain (n + 2 + 1) d.runNextCommand last :=
        fun p hp hmem => absurd (evaluate_le hmem) (by omega)
      cases k with
      | zero =>
        rw [visited, eq_comm, skipsOne_zero]
        simp
      | succ k =>
        refine iff_of_false (fun heq => ?_) fun h => ?_
        · rw [visited] at heq
          exact hnot (n + 2) (by omega) (heq ▸ List.mem_cons_self)
        · exact hnot (n + 2) (by omega) (h.1 k.succ_pos (hnot (n + 1) (by omega)) (by simp))

/-- Behind a connector that lets the first command run, the walk goes where the evaluation goes exactly when
the evaluation comes to an end within the passes and never skips two commands in a row. -/
theorem visited_eq_iff (rval : Nat → Int) (k : Nat) : ∀ {chain : List Command} {n : Nat} {connector : RunNextCommandSymbol}
    {last : Int}, Runs connector last → (visited rval k chain n = evaluate rval chain n connector last ↔
      SkipsOne k (n + chain.length) (evaluate rval chain n connector last)) := by
  induction k with
  | zero =>
    intro chain n connector last _
    rw [skipsOne_zero, visited, eq_comm]
  | succ k ih =>
    intro chain n connector last hruns
    cases chain with
    | nil => exact iff_of_true rfl (.nil ..)
    | cons c chain =>
      rw [evaluate_runs c chain n hruns, skipsOne_cons fun p hp => evaluate_le hp, visited, List.cons.injEq,
        and_iff_right rfl, List.length_cons]
      by_cases hskips : Executor.Skips (rval n) c
      · rw [if_pos hskips]
        cases chain with
        | nil => simp [visited_nil, evaluate, SkipsOne.nil]
        | cons d chain =>
          rw [evaluate_skips d chain (n + 1) (Executor.skips_iff.1 hskips), List.tail_cons, List.length_cons]
          exact visited_skip_iff ih
      · rw [if_neg hskips]
        have hnext : Runs c.runNextCommand (rval n) := by
          simpa [Executor.skips_iff] using hskips
        rw [ih hnext, Nat.add_right_comm n 1, ← Nat.add_assoc, iff_and_self]
        intro _ _ hnot hlt
        exact absurd (evaluate_first _ hnext (by omega)) hnot

/-! ## What the executor forks -/

/-- A command that neither reads from a pipe nor writes into one, and is not `exit`. -/
structure Command.Plain (c : Command) : Prop where
  input : c.inputMode ≠ .pipe
  output : c.outputMode ≠ .pipe
  notExit : c.isCommandExit = some false

namespace Executor

variable {kernel : Nat → Answers}

/-- On plain commands the loop forks those that the walk comes to, unless one of them cannot be forked. -/
theorem loop_forks (k : Nat) : ∀ {s : Shell}, (∀ c ∈ s.curr, c.Plain) →
    ((∀ p ∈ visited (fun n => (kernel n).childRval) k s.curr s.position, (kernel p).fork = true) ∧
      ∃ t, loop (pass kernel) (fun s => (.returned, s)) k s = (.returned, t) ∧
        t.forks.map Fork.position =
          s.forks.map Fork.position ++ visited (fun n => (kernel n).childRval) k s.curr s.position) ∨
    (¬ (∀ p ∈ visited (fun n => (kernel n).childRval) k s.curr s.position, (kernel p).fork = true) ∧
      ∀ t, loop (pass kernel) (fun s => (.returned, s)) k s ≠ (.returned, t)) := by
  induction k with
  | zero =>
    intro s _
    exact .inl ⟨by simp [visited], s, rfl, by simp [visited]⟩
  | succ k ih =>
    intro s hplain
    cases hcurr : s.curr with
    | nil =>
      left
      refine ⟨by simp [visited], s, loop_succ_error ?_, by simp [visited]⟩
      simp only [pass, hcurr]
    | cons c chain =>
      rw [hcurr] at hplain
      obtain ⟨hc, hchain⟩ := List.forall_mem_cons.1 hplain
      rw [visited, List.forall_mem_cons]
      by_cases hfork : (kernel s.position).fork = true
      · have hpass := (Passed.plain hcurr hc.notExit hc.output hfork).pass
        rw [loop_succ_ok hpass]
        generalize hs' : parent _ _ _ _ _ = s'
        rw [parent_eq] at hs'
        have hwalk : (if Skips (kernel s.position).childRval c
            then visited (fun n => (kernel n).childRval) k chain.tail (s.position + 2)
            else visited (fun n => (kernel n).childRval) k chain (s.position + 1)) =
              visited (fun n => (kernel n).childRval) k s'.curr s'.position := by
          subst hs'
          dsimp only
          split <;> rfl
        have hplain' : ∀ d ∈ s'.curr, d.Plain := by
          subst hs'
          dsimp only
          split
          · exact fun d hd => hchain d (List.mem_of_mem_tail hd)
          · exact hchain
        have hpositions : s'.forks.map Fork.position = s.forks.map Fork.position ++ [s.position] := by
          subst hs'
          simp
        rw [hwalk]
        rcases ih hplain' with ⟨hforks, t, ht, hpos⟩ | ⟨hforks, ht⟩
        · exact .inl ⟨⟨hfork, hforks⟩, t, ht, by simpa [hpositions] using hpos⟩
        · exact .inr ⟨fun h => hforks h.2, ht⟩
      · refine .inr ⟨fun h => hfork h.1, fun t ht => ?_⟩
        obtain ⟨t', hpass⟩ := pass_exited hcurr hc.notExit hc.output hfork
        rw [loop_succ_error hpass] at ht
        cases ht

/-- A chain of plain commands, and any statuses: the executor returns having forked the commands that
left-to-right evaluation runs exactly when these are at most twenty, each of them can be forked, and none of
the first nineteen is followed by two commands that are both skipped. -/
theorem forks_executed_iff (kernel : Nat → Answers) (pipeid : PipeId) (fds : Finset Int) {chain : List Command}
    (hplain : ∀ c ∈ chain, c.Plain) :
    (∃ s, executeCommandList kernel pipeid fds chain = (.returned, s) ∧
        s.forks.map Fork.position = executed (fun n => (kernel n).childRval) chain) ↔
      SkipsOne 20 chain.length (executed (fun n => (kernel n).childRval) chain) ∧
        ∀ p ∈ executed (fun n => (kernel n).childRval) chain, (kernel p).fork = true := by
  have hwalk : visited (fun n => (kernel n).childRval) 20 chain 0 = executed (fun n => (kernel n).childRval) chain ↔
      SkipsOne 20 (0 + chain.length) (executed (fun n => (kernel n).childRval) chain) := visited_eq_iff _ 20 trivial
  rw [Nat.zero_add] at hwalk
  rw [executeCommandList_eq]
  rcases loop_forks 20 (s := start pipeid fds chain) hplain with ⟨hforks, t, ht, hpos⟩ | ⟨hforks, ht⟩
  · have hpos : t.forks.map Fork.position = visited (fun n => (kernel n).childRval) 20 chain 0 := hpos
    rw [ht]
    constructor
    · rintro ⟨s, hs, hexecuted⟩
      cases hs
      rw [hpos] at hexecuted
      rw [← hexecuted]
      exact ⟨hexecuted ▸ hwalk.1 hexecuted, hforks⟩
    · rintro ⟨hskips, _⟩
      exact ⟨t, rfl, hpos.trans (hwalk.2 hskips)⟩
  · refine iff_of_false (fun ⟨s, hs, _⟩ => ht s hs) fun ⟨hskips, hexecuted⟩ => ?_
    have heq : visited (fun n => (kernel n).childRval) 20 chain 0 = _ := hwalk.2 hskips
    exact hforks (heq ▸ hexecuted)

/-- `f && b ; c && t` where `f` fails: all but `b` are run. -/
theorem forks_executed_failing : ∃ s, executeCommandList (fun n => { childRval := if n = 0 then 256 else 0 }) ⟨0, 0⟩ {0, 1, 2}
    [{ argv := some [['f']], runNextCommand := .execOnsuccess }, { argv := some [['b']], runNextCommand := .execAny },
      { argv := some [['c']], runNextCommand := .execOnsuccess }, { argv := some [['t']] }] = (.returned, s) ∧
    s.forks.map Fork.position = [0, 2, 3] := by
  refine (forks_executed_iff (fun n => { childRval := if n = 0 then 256 else 0 }) ⟨0, 0⟩ {0, 1, 2} ?_).2 ⟨?_, ?_⟩
  · simp only [List.forall_mem_cons]
    exact ⟨⟨by decide, by decide, by decide⟩, ⟨by decide, by decide, by decide⟩, ⟨by decide, by decide, by decide⟩,
      ⟨by decide, by decide, by decide⟩, by simp⟩
  · exact ⟨by decide, by decide⟩
  · intro p _
    rfl

/-- `a && b && c` where `a` fails: `b` is skipped, and `c` is run because of it. -/
theorem forks_not_executed : ∃ result s, ({} : Parser).parseLine 10 "a && b && c".toList = some result ∧
    result.status = .success ∧
    executeCommandList (fun _ => { childRval := 256 }) ⟨0, 0⟩ {0, 1, 2} result.command = (.returned, s) ∧
    s.forks.map Fork.position = [0, 2] ∧ executed (fun _ => 256) result.command = [0] :=
  ⟨_, _, rfl, rfl, rfl, rfl, by decide⟩

end Executor

end UnixSysProg.Osh
