/-
The test harness of `pa4_1` (`testrunner.c`): its options, the loop over the tests, and the child each of them runs
in. A test whose `fork` fails is run by the harness itself, which leaves `child_pid` at -1, so that the next test
ends the harness in an assertion. The number of an option `-fN` is read from the letter on and is always 0.
-/
import UnixSysProg.Lib.Decimal

namespace UnixSysProg.TestRunner

open UnixSysProg.Lib

/-! ## The code -/

/-- What the calls of an invocation answer: `fork` fails and the test function returns a value, or there is a child
and `waitpid` reports on it. -/
inductive Outcome
  | inline (returned : Int)
  /-- Whether `wait_val` is the child, `WIFEXITED`, `WEXITSTATUS`, and whether the alarm has come before the end. -/
  | waited (ours exited : Bool) (status : Nat) (sentKill : Bool)
  deriving DecidableEq

/-- `testentry_t`, with what comes of its function when it is invoked. -/
structure TestEntry where
  name : List Char
  suite : List Char
  outcome : Outcome

/-- `stats_t`. -/
structure Stats where
  ran : Nat
  passed : Nat
  failed : Nat
  deriving DecidableEq

/-- What is printed for a test, and at the end. -/
inductive Line
  | running
  | test (number : Nat) (name verdict : List Char)
  | results (stats : Stats)
  | notFound (target : List Char)
  deriving DecidableEq

/-- The variables of a run: `child_pid`, `stats`, `target_matched`, and what has been printed. -/
structure Harness where
  childPid : Int
  stats : Stats
  targetMatched : Bool
  printed : List Line

/-- Where the harness does not come to its end. -/
inductive Stop
  | assertion
  /-- `atoi` of a number that is no `int`. -/
  | undefined
  deriving DecidableEq

structure Options where
  maxErrorsBeforeQuit : Int
  redirectStdouterr : Bool

/-- `invoke_test_with_timelimit`: `child_pid` after it, and what it returns. -/
def invokeTestWithTimelimit (childPid : Int) (test : TestEntry) : Except Stop (Int × Int) :=
  if childPid ≠ 0 then .error .assertion
  else
    match test.outcome with
    | .inline returned => .ok (-1, returned)
    | .waited ours exited status sentKill =>
      let passed := ours ∧ status = 0 ∧ exited
      .ok (0, if sentKill then 2 else if passed then 0 else 1)

/-- What `run_one_test` prints of a result. -/
def verdict (result : Int) : List Char :=
  if result = 0 then "pass".toList else if result = 2 then "TIMEOUT * ".toList else "FAIL *".toList

/-- `run_one_test`, with the arguments from the target on. -/
def runOneTest (h : Harness) (test : TestEntry) (argv : List (List Char)) : Except Stop Harness :=
  if argv = [] then .error .assertion
  else
    match invokeTestWithTimelimit h.childPid test with
    | .error e => .error e
    | .ok (childPid, result) =>
      let ran := h.stats.ran + 1
      let stats := if result = 0 then ⟨ran, h.stats.passed + 1, h.stats.failed⟩ else ⟨ran, h.stats.passed, h.stats.failed + 1⟩
      .ok { h with childPid := childPid, stats := stats, printed := h.printed ++ [.test ran test.name (verdict result)] }

/-- An option without its dash. -/
def Options.read (o : Options) : List Char → Except Stop Options
  | [] => .ok o
  | c :: rest =>
    if c = 'f' ∧ rest ≠ [] then
      match atoi (c :: rest) with
      | some n => .ok { o with maxErrorsBeforeQuit := n.toInt }
      | none => .error .undefined
    else if c = 'r' then .ok { o with redirectStdouterr := true }
    else .ok o

/-- The target is the test's name, its suite or `all`. -/
def TestEntry.Matches (target : List Char) (test : TestEntry) : Prop :=
  target = test.name ∨ target = "all".toList ∨ target = test.suite

instance (target : List Char) (test : TestEntry) : Decidable (test.Matches target) := by
  unfold TestEntry.Matches; infer_instance

/-- The loop's condition on the errors so far. -/
def Harness.Continues (h : Harness) (o : Options) : Prop :=
  o.maxErrorsBeforeQuit < 1 ∨ (h.stats.failed : Int) ≠ o.maxErrorsBeforeQuit

instance (h : Harness) (o : Options) : Decidable (h.Continues o) := by
  unfold Harness.Continues; infer_instance

/-- A test that matches is found. -/
def Harness.matched (h : Harness) : Harness :=
  { h with targetMatched := true, printed := if h.targetMatched then h.printed else h.printed ++ [.running] }

/-- The loop over the tests. -/
def loop (o : Options) (target : List Char) (argv : List (List Char)) : Harness → List TestEntry → Except Stop Harness
  | h, [] => .ok h
  | h, test :: tests =>
    if h.Continues o then
      if test.Matches target then
        match runOneTest h.matched test argv with
        | .error e => .error e
        | .ok h => loop o target argv h tests
      else loop o target argv h tests
    else .ok h

/-- The last line. -/
def Harness.closing (h : Harness) (target : List Char) : Line :=
  if h.targetMatched then .results h.stats else .notFound (if target = [] then "(empty)".toList else target)

def Outcome.Passes : Outcome → Prop
  | .inline returned => returned = 0
  | .waited ours exited status sentKill => sentKill = false ∧ ours ∧ status = 0 ∧ exited

def Outcome.Inline : Outcome → Prop
  | .inline _ => True
  | .waited .. => False

instance (outcome : Outcome) : Decidable outcome.Passes := by
  unfold Outcome.Passes; split <;> infer_instance

instance (outcome : Outcome) : Decidable outcome.Inline := by
  unfold Outcome.Inline; split <;> infer_instance

/-- What a test is said to have come to. -/
def Outcome.verdict : Outcome → List Char
  | .inline returned => TestRunner.verdict returned
  | .waited ours exited status sentKill =>
    if sentKill then "TIMEOUT * ".toList else if ours ∧ status = 0 ∧ exited then "pass".toList else "FAIL *".toList

/-- The statistics with one more test. -/
def Stats.count (st : Stats) (test : TestEntry) : Stats :=
  if test.outcome.Passes then ⟨st.ran + 1, st.passed + 1, st.failed⟩ else ⟨st.ran + 1, st.passed, st.failed + 1⟩

/-- The lines of some tests, after `k` others. -/
def testLines : Nat → List TestEntry → List Line
  | _, [] => []
  | k, test :: tests => .test (k + 1) test.name test.outcome.verdict :: testLines (k + 1) tests

variable {h h' : Harness} {test : TestEntry} {tests ran : List TestEntry} {argv : List (List Char)} {target : List Char}
  {o : Options}

/-- The harness after one more invocation. -/
structure Counted (h : Harness) (test : TestEntry) (h' : Harness) : Prop where
  pending : h'.childPid ≠ 0 ↔ test.outcome.Inline
  stats : h'.stats = h.stats.count test
  matched : h'.targetMatched = true
  printed : h'.printed = h.matched.printed ++ testLines h.stats.ran [test]

/-- `-fN` has been given or not: the loop never stops for errors, or it stops at the first. -/
def Options.For (o : Options) (keepGoing : Bool) : Prop := o.maxErrorsBeforeQuit = if keepGoing then 0 else 1

/-- The tests that are run, out of those that match. -/
def executed (keepGoing : Bool) : List TestEntry → List TestEntry
  | [] => []
  | test :: tests => test :: if keepGoing ∨ test.outcome.Passes then executed keepGoing tests else []

/-- The tests that match. -/
def selected (target : List Char) (tests : List TestEntry) : List TestEntry := tests.filter fun test => test.Matches target

/-- A `fork` has failed for a test that is not the last. -/
def Broken (ran : List TestEntry) : Prop := ∃ test ∈ ran.dropLast, test.outcome.Inline

/-- The harness after it has run some tests. -/
structure Accounted (h : Harness) (ran : List TestEntry) (h' : Harness) : Prop where
  stats : h'.stats = ran.foldl Stats.count h.stats
  matched : h'.targetMatched = true ↔ h.targetMatched = true ∨ ran ≠ []
  printed : h'.printed = (if ran = [] then h.printed else h.matched.printed) ++ testLines h.stats.ran ran

/-- What has become of the harness that was to run some tests. -/
structure Accounts (h : Harness) (ran : List TestEntry) (result : Except Stop Harness) : Prop where
  broken : Broken ran → result = .error .assertion
  counts : ¬ Broken ran → ∃ h', result = .ok h' ∧ Accounted h ran h'

theorem Counted.ran_succ (hc : Counted h test h') : h'.stats.ran = h.stats.ran + 1 := by
  rw [hc.stats]
  unfold Stats.count
  split <;> rfl

theorem Counted.last (hc : Counted h test h') : Accounts h [test] (.ok h') := by
  constructor
  · rintro ⟨y, hy, _⟩
    cases hy
  · intro _
    exact ⟨h', rfl, hc.stats, iff_of_true hc.matched (.inr (List.cons_ne_nil _ _)), hc.printed⟩

theorem Counted.next {result : Except Stop Harness} (hc : Counted h test h') (hx : ¬ test.outcome.Inline) (hne : ran ≠ [])
    (ha : Accounts h' ran result) : Accounts h (test :: ran) result := by
  have hbroken : Broken (test :: ran) ↔ Broken ran := by
    unfold Broken
    rw [List.dropLast_cons_of_ne_nil hne]
    simp [hx]
  constructor
  · exact fun hb => ha.broken (hbroken.1 hb)
  · intro hb
    obtain ⟨h'', hend, hstats, hmatched, hprinted⟩ := ha.counts fun hb' => hb (hbroken.2 hb')
    refine ⟨h'', hend, by rw [hstats, hc.stats, List.foldl_cons], ?_, ?_⟩
    · exact iff_of_true (hmatched.2 (.inl hc.matched)) (.inr (List.cons_ne_nil _ _))
    · -- `Running tests...` has been printed
      have hheader : h'.matched.printed = h'.printed := if_pos hc.matched
      rw [hprinted, if_neg hne, hheader, hc.printed, hc.ran_succ, if_neg (List.cons_ne_nil _ _), List.append_assoc]
      rfl

section

variable {keepGoing : Bool}

theorem Options.For.continues (ho : o.For keepGoing) (h : Harness) (hfailed : keepGoing = true ∨ h.stats.failed = 0) :
    h.Continues o := by
  unfold Harness.Continues
  rw [ho]
  cases keepGoing with
  | true => exact .inl (by decide)
  | false =>
    have hzero := hfailed.resolve_left (by decide)
    exact .inr (by rw [hzero]; decide)

theorem executed_eq_nil : executed keepGoing tests = [] ↔ tests = [] := by
  cases tests <;> simp [executed]

theorem Counted.failed (hc : Counted h test h') (hfailed : keepGoing = true ∨ h.stats.failed = 0)
    (hnext : keepGoing = true ∨ test.outcome.Passes) : keepGoing = true ∨ h'.stats.failed = 0 := by
  rcases hfailed with hk | hzero
  · exact .inl hk
  · refine hnext.imp_right fun hpasses => ?_
    rw [hc.stats, Stats.count, if_pos hpasses]
    exact hzero

end

/-! ## The arguments -/

def IsOption (arg : List Char) : Bool := arg.head? = some '-'

/-- `-f` with something after it. -/
def IsErrorOption (arg : List Char) : Bool := arg.take 2 = ['-', 'f'] ∧ 2 < arg.length

/-- Among the arguments before the target. -/
def errorOption (argv : List (List Char)) : Bool := (argv.takeWhile IsOption).any IsErrorOption

theorem foldl_count : ∀ (ran : List TestEntry) (st : Stats), ran.foldl Stats.count st = ⟨st.ran + ran.length,
    st.passed + ran.countP (·.outcome.Passes), st.failed + ran.countP (¬ ·.outcome.Passes)⟩
  | [], st => rfl
  | test :: ran, st => by
    rw [List.foldl_cons, foldl_count ran, List.countP_cons, List.countP_cons, List.length_cons]
    by_cases hx : test.outcome.Passes
    · simp [Stats.count, hx]
      omega
    · simp [Stats.count, hx]
      omega

/-- Some test that is run fails just when some test that matches does. -/
theorem executed_passes (keepGoing : Bool) (tests : List TestEntry) :
    (∀ test ∈ executed keepGoing tests, test.outcome.Passes) ↔ ∀ test ∈ tests, test.outcome.Passes := by
  induction tests with
  | nil => simp [executed]
  | cons test tests ih =>
    unfold executed
    by_cases hx : test.outcome.Passes
    · rw [if_pos (.inr hx), List.forall_mem_cons, List.forall_mem_cons, ih]
    · simp [hx]

/-- The first argument that is no option, or the empty word. -/
def targetOf (argv : List (List Char)) : List Char := (argv.dropWhile IsOption).headD []

/-- The tests that the harness runs. -/
def made (argv : List (List Char)) (tests : List TestEntry) : List TestEntry :=
  executed (errorOption argv) (selected (targetOf argv) tests)

/-- All that is printed about some tests that have been run. -/
def transcript (argv : List (List Char)) (ran : List TestEntry) : List Line :=
  if ran = [] then [.notFound (if targetOf argv = [] then "(empty)".toList else targetOf argv)]
  else .running :: testLines 0 ran ++
    [.results ⟨ran.length, ran.countP (·.outcome.Passes), ran.countP (¬ ·.outcome.Passes)⟩]

/-- The harness when it has come to its end. -/
structure Verdict (argv : List (List Char)) (tests : List TestEntry) (code : Int) (h : Harness) : Prop where
  printed : h.printed = transcript argv (made argv tests)
  returned : code = 0 ∨ code = 1
  passed : code = 0 ↔ (∃ test ∈ tests, test.Matches (targetOf argv)) ∧
    ∀ test ∈ tests, test.Matches (targetOf argv) → test.outcome.Passes

/-- The harness at its end, when it has accounted for the tests it was to run. -/
theorem Accounted.verdict (ha : Accounted ⟨0, ⟨0, 0, 0⟩, false, []⟩ (made argv tests) h) : Verdict argv tests
    (if h.stats.passed = h.stats.ran ∧ h.targetMatched then 0 else 1)
    { h with printed := h.printed ++ [h.closing (targetOf argv)] } := by
  have hmatched : h.targetMatched = true ↔ made argv tests ≠ [] := by simpa using ha.matched
  have hstats := ha.stats
  rw [foldl_count, Nat.zero_add, Nat.zero_add, Nat.zero_add] at hstats
  constructor
  · show h.printed ++ [h.closing (targetOf argv)] = _
    rw [ha.printed, Harness.closing, transcript]
    by_cases hran : made argv tests = []
    · rw [if_pos hran, if_pos hran, if_neg (by simpa [hmatched] using hran), hran]
      rfl
    · rw [if_neg hran, if_neg hran, if_pos (hmatched.2 hran), hstats]
      rfl
  · split
    · exact .inl rfl
    · exact .inr rfl
  · -- all that were run have passed just when all that match do: the loop stops only after a failure
    have hall : h.stats.passed = h.stats.ran ↔
        ∀ test ∈ tests, test.Matches (targetOf argv) → test.outcome.Passes := by
      have hexecuted := executed_passes (errorOption argv) (selected (targetOf argv) tests)
      rw [hstats]
      simpa [made, List.countP_eq_length, selected] using hexecuted
    have hsome : h.targetMatched = true ↔ ∃ test ∈ tests, test.Matches (targetOf argv) := by
      rw [hmatched]
      simp [made, executed_eq_nil, selected]
    by_cases hok : h.stats.passed = h.stats.ran ∧ h.targetMatched = true
    · rw [if_pos hok]
      exact iff_of_true rfl ⟨hsome.1 hok.2, hall.1 hok.1⟩
    · rw [if_neg hok]
      exact iff_of_false (by decide) fun hboth => hok ⟨hall.2 hboth.2, hsome.2 hboth.1⟩

end UnixSysProg.TestRunner
