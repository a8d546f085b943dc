/-
The two files of `run` (`pa3_3/VMM2/main.cpp`) as texts: the input is read line by line with `getline` and
`atoi`, and each line of the report goes through a buffer of 1024 characters, the statistics at the end too. The
loop on the texts is the loop on the lines between a reader and a writer, and what the writer has written can be
read again.
-/
import UnixSysProg.Lib.Single
import UnixSysProg.Statistics
import UnixSysProg.Vmm2.Main
import Mathlib.Data.List.DropRight

namespace UnixSysProg.Vmm2

open UnixSysProg.Lib UnixSysProg.Vmm

namespace VirtualMemoryManager

/-! ## The loop on texts -/

/-- What the standard leaves undefined, besides what happens in the manager. -/
inductive Trouble
  /-- `atoi` of a number that is not an `int`. -/
  | notAnInt
  | undefined (u : Undefined)
  /-- `physicalAddress` or `byte` is printed before it has been assigned. -/
  | uninitialised
  /-- `sprintf` writes over the end of `buffer`. -/
  | overrun

/-- The words of `"Virtual address: %d Physical address: %d Value: %d\n"`. -/
def reportWords : List (List Char) := ["Virtual address: ".toList, " Physical address: ".toList, " Value: ".toList]

/-- The format with its numbers. -/
def reportText (numbers : List Int) : List Char := writeFields (reportWords.zip (numbers.map decimal)) ++ ['\n']

/-- The numbers of a line, unless one of them was never assigned. -/
def OutputLine.numbers (l : OutputLine) : Option (List Int) :=
  match l.physicalAddress, l.value with
  | some physicalAddress, some value => some [l.virtualAddress.toNat, physicalAddress.toNat, value]
  | _, _ => none

/-- `sprintf` into `char buffer[1024]`. -/
def OutputLine.sprintf (l : OutputLine) : Except Trouble (List Char) :=
  match l.numbers with
  | some numbers => if (reportText numbers).length < 1024 then .ok (reportText numbers) else .error .overrun
  | none => .error .uninitialised

/-- One pass of the loop on a line of the input file, with the kernel's answer: what is added to the output file. -/
def runTextLine (st : RunState) (x : List Char × IoOutcome) : Except Trouble (RunState × List Char) :=
  match atoi x.1 with
  | none => .error .notAnInt
  | some address =>
    match runLine st ⟨address, x.2⟩ with
    | .error u => .error (.undefined u)
    | .ok (st', it) =>
      match it.written.mapM OutputLine.sprintf with
      | .error t => .error t
      | .ok texts => .ok (st', texts.flatten)

/-- The lines of the input file, each with the kernel's answer to it. -/
def lines (input : List Char) (io : Nat → IoOutcome) : List (List Char × IoOutcome) :=
  (getlines input).mapIdx fun i line => (line, io i)

/-- The lines of `"Number of Translated Addresses = %d\nPage Faults = %d\nPage Fault Rate = %.3f\nTLB Hits = %d\n"` and
`"TLB Hit Rate = %.3f\n"`, which are one format. -/
def statisticsLines (totallookups pagefaults tlbhits : Int) : List (List Char) :=
  ["Number of Translated Addresses = ".toList ++ decimal totallookups,
   "Page Faults = ".toList ++ decimal pagefaults,
   "Page Fault Rate = ".toList ++ (Single.ratio pagefaults totallookups).fixed,
   "TLB Hits = ".toList ++ decimal tlbhits,
   "TLB Hit Rate = ".toList ++ (Single.ratio tlbhits totallookups).fixed]

def statisticsText (totallookups pagefaults tlbhits : Int) : List Char :=
  (statisticsLines totallookups pagefaults tlbhits).flatMap fun line => line ++ ['\n']

/-- `sprintf` of the statistics; the page hits are not printed. -/
def sprintfStats (stats : Stats) : Except Trouble (List Char) :=
  let text := statisticsText stats.totalLookups.toInt stats.pagefaults.toInt stats.tlbhits.toInt
  if text.length < 1024 then .ok text else .error .overrun

/-- `run` on the text of the input file, when both files are open; `stats` is what its counters hold before
`getStats`. -/
def runText (stats : Stats) (st : RunState) (input : List Char) (io : Nat → IoOutcome) :
    Except Trouble (RunState × List Char) :=
  match run runTextLine st (lines input io) with
  | .error t => .error t
  | .ok (st', texts) =>
    let (vmm, stats) := st'.vmm.getStats stats
    match sprintfStats stats with
    | .error t => .error t
    | .ok text => .ok ({ st' with vmm := vmm }, texts.flatten ++ text)

/-! ## Reader and writer -/

/-- The lines as `atoi` reads them, if it can. -/
def readLines (xs : List (List Char × IoOutcome)) : Option (List InputLine) :=
  xs.mapM fun x => (atoi x.1).map fun address => ⟨address, x.2⟩

/-- The report of some rows of numbers. -/
def report (rows : List (List Int)) : List Char := rows.flatMap reportText

section

variable {stats : Stats} {st st' : RunState} {x : List Char × IoOutcome} {l : OutputLine}

/-- A line of the report fits its buffer with room to spare. -/
theorem length_reportText (a b : BitVec 16) (c : BitVec 8) : (reportText [a.toNat, b.toNat, c.toInt]).length < 1024 := by
  have hbits : ∀ d : BitVec 16, (decimal (d.toNat : Int)).length ≤ 11 := fun d =>
    length_decimal_le (by have := d.isLt; omega)
  have hc : (decimal c.toInt).length ≤ 11 :=
    length_decimal_le (by have := c.toInt_lt; have := c.le_toInt; omega)
  have ha := hbits a
  have hb := hbits b
  simp [reportText, writeFields, reportWords]
  omega

theorem sprintf_eq (hl : ∀ v ∈ l.value, ∃ c : BitVec 8, v = c.toInt) :
    l.sprintf = match l.numbers with
      | some numbers => .ok (reportText numbers)
      | none => .error .uninitialised := by
  unfold OutputLine.sprintf
  cases hn : l.numbers with
  | none => rfl
  | some numbers =>
    refine if_pos ?_
    unfold OutputLine.numbers at hn
    split at hn
    · rename_i physicalAddress value _ hvalue
      obtain ⟨c, rfl⟩ := hl value (by rw [hvalue]; rfl)
      cases hn
      exact length_reportText ..
    · cases hn

/-- A pass writes one line, whose value, if it has one, is a byte. -/
theorem runLine_written {x : InputLine} {it : Iteration} (h : runLine st x = .ok (st', it)) :
    ∃ l : OutputLine, it.written = [l] ∧ ∀ v ∈ l.value, ∃ c : BitVec 8, v = c.toInt := by
  refine ⟨_, (runLine_ok h).2.1, fun v hv => ?_⟩
  obtain ⟨c, _, rfl⟩ := Option.map_eq_some_iff.1 hv
  exact ⟨c, rfl⟩

theorem runTextLine_ok {text : List Char} : runTextLine st x = .ok (st', text) ↔
    ∃ address it rows, atoi x.1 = some address ∧ runLine st ⟨address, x.2⟩ = .ok (st', it) ∧
      it.written.mapM OutputLine.numbers = some rows ∧ text = report rows := by
  unfold runTextLine
  cases hatoi : atoi x.1 with
  | none => simp
  | some address =>
    cases hline : runLine st ⟨address, x.2⟩ with
    | error u => simp [hline]
    | ok o =>
      obtain ⟨st₁, it⟩ := o
      obtain ⟨l, hwritten, hvalue⟩ := runLine_written hline
      cases hn : l.numbers with
      | none => simp [hline, hwritten, sprintf_eq hvalue, hn]
      | some numbers => simp [hline, hwritten, sprintf_eq hvalue, hn, report, eq_comm, and_assoc]

theorem runTextLine_no_overrun : runTextLine st x ≠ .error .overrun := by
  unfold runTextLine
  cases hatoi : atoi x.1 with
  | none => simp
  | some address =>
    cases hline : runLine st ⟨address, x.2⟩ with
    | error u => simp [hline]
    | ok o =>
      obtain ⟨st₁, it⟩ := o
      obtain ⟨l, hwritten, hvalue⟩ := runLine_written hline
      cases hn : l.numbers with
      | none => simp [hline, hwritten, sprintf_eq hvalue, hn]
      | some numbers => simp [hline, hwritten, sprintf_eq hvalue, hn]

theorem readLines_cons {xs : List (List Char × IoOutcome)} {ls : List InputLine} : readLines (x :: xs) = some ls ↔
    ∃ address ls', atoi x.1 = some address ∧ readLines xs = some ls' ∧ ls = ⟨address, x.2⟩ :: ls' := by
  unfold readLines
  rw [List.mapM_cons]
  cases hatoi : atoi x.1 with
  | none => simp
  | some address =>
    cases hrest : xs.mapM fun x => (atoi x.1).map fun address => (⟨address, x.2⟩ : InputLine) with
    | none => simp
    | some ls' => simp [eq_comm]

/-- Rows of some lines and of more. -/
theorem mapM_numbers_append {ls ls' : List OutputLine} {rows : List (List Int)} :
    (ls ++ ls').mapM OutputLine.numbers = some rows ↔
      ∃ rows₁ rows₂, ls.mapM OutputLine.numbers = some rows₁ ∧ ls'.mapM OutputLine.numbers = some rows₂ ∧
        rows = rows₁ ++ rows₂ := by
  rw [List.mapM_append]
  cases ls.mapM OutputLine.numbers with
  | none => simp
  | some rows₁ =>
    cases ls'.mapM OutputLine.numbers with
    | none => simp
    | some rows₂ => simp [eq_comm]

theorem report_append (rows rows' : List (List Int)) : report (rows ++ rows') = report rows ++ report rows' :=
  List.flatMap_append

/-- The run on texts is the run on lines between reader and writer. -/
theorem run_runTextLine : ∀ {xs : List (List Char × IoOutcome)} {st : RunState} {text : List Char},
    (∃ texts, run runTextLine st xs = .ok (st', texts) ∧ texts.flatten = text) ↔
      ∃ ls its rows, readLines xs = some ls ∧ run runLine st ls = .ok (st', its) ∧
        (its.flatMap (·.written)).mapM OutputLine.numbers = some rows ∧ text = report rows
  | [], st, text => by
    simp [run, readLines, report, eq_comm]
  | x :: xs, st, text => by
    constructor
    · rintro ⟨_, hrun, rfl⟩
      obtain ⟨st₁, t, texts, hstep, hrest, rfl⟩ := run_cons_ok.1 hrun
      obtain ⟨address, it, rows₁, hatoi, hline, hrows₁, rfl⟩ := runTextLine_ok.1 hstep
      obtain ⟨ls, its, rows₂, hls, hits, hrows₂, htexts⟩ := run_runTextLine.1 ⟨texts, hrest, rfl⟩
      refine ⟨_, it :: its, rows₁ ++ rows₂, readLines_cons.2 ⟨address, ls, hatoi, hls, rfl⟩,
        run_cons_ok.2 ⟨st₁, it, its, hline, hits, rfl⟩, ?_, ?_⟩
      · rw [List.flatMap_cons]
        exact mapM_numbers_append.2 ⟨rows₁, rows₂, hrows₁, hrows₂, rfl⟩
      · rw [List.flatten_cons, htexts, report_append]
    · rintro ⟨_, _, rows, hread, hrun, hrows, rfl⟩
      obtain ⟨address, ls, hatoi, hls, rfl⟩ := readLines_cons.1 hread
      obtain ⟨st₁, it, its, hline, hits, rfl⟩ := run_cons_ok.1 hrun
      rw [List.flatMap_cons] at hrows
      obtain ⟨rows₁, rows₂, hrows₁, hrows₂, rfl⟩ := mapM_numbers_append.1 hrows
      obtain ⟨texts, hrest, htexts⟩ := run_runTextLine.2 ⟨ls, its, rows₂, hls, hits, hrows₂, rfl⟩
      have hstep := runTextLine_ok.2 ⟨address, it, rows₁, hatoi, hline, hrows₁, rfl⟩
      refine ⟨_, run_cons_ok.2 ⟨st₁, _, texts, hstep, hrest, rfl⟩, ?_⟩
      rw [List.flatten_cons, htexts, report_append]

/-- The statistics fit the buffer, whatever the counters are. -/
theorem sprintfStats_eq (stats : Stats) :
    sprintfStats stats = .ok (statisticsText stats.totalLookups.toInt stats.pagefaults.toInt stats.tlbhits.toInt) := by
  have hbits : ∀ c : Int32, c.toInt.natAbs ≤ 2147483648 := fun c => by
    have := c.toInt_lt
    have := c.le_toInt
    omega
  have hcount : ∀ c : Int32, (decimal c.toInt).length ≤ 11 := fun c => length_decimal_le (by have := hbits c; omega)
  have hrate : ∀ c : Int32, (Single.ratio c.toInt stats.totalLookups.toInt).fixed.length ≤ 15 := fun c =>
    length_fixed_ratio_le (hbits c)
  have hlookups := hcount stats.totalLookups
  have hfaults := hcount stats.pagefaults
  have hhits := hcount stats.tlbhits
  have hfaultRate := hrate stats.pagefaults
  have hhitRate := hrate stats.tlbhits
  refine if_pos ?_
  simp [statisticsText, statisticsLines]
  omega

theorem runText_ok {input text : List Char} {io : Nat → IoOutcome} : runText stats st input io = .ok (st', text) ↔
    ∃ ls its rows, readLines (lines input io) = some ls ∧ run runLine st ls = .ok (st', its) ∧
      (its.flatMap (·.written)).mapM OutputLine.numbers = some rows ∧
      text = report rows ++
        statisticsText st'.vmm.pagelookups.toInt st'.vmm.pagefaults.toInt st'.vmm.tlbhits.toInt := by
  have htexts : ∀ body, (∃ texts, run runTextLine st (lines input io) = .ok (st', texts) ∧ texts.flatten = body) ↔
      ∃ ls its rows, readLines (lines input io) = some ls ∧ run runLine st ls = .ok (st', its) ∧
        (its.flatMap (·.written)).mapM OutputLine.numbers = some rows ∧ body = report rows := fun body => run_runTextLine
  unfold runText
  cases hrun : run runTextLine st (lines input io) with
  | error t =>
    constructor
    · rintro ⟨⟩
    · rintro ⟨ls, its, rows, hls, hits, hrows, _⟩
      obtain ⟨_, hok, _⟩ := (htexts _).2 ⟨ls, its, rows, hls, hits, hrows, rfl⟩
      rw [hrun] at hok
      cases hok
  | ok o =>
    obtain ⟨st₁, texts⟩ := o
    simp only [sprintfStats_eq, Except.ok.injEq, Prod.mk.injEq]
    constructor
    · rintro ⟨rfl, rfl⟩
      obtain ⟨ls, its, rows, hls, hits, hrows, hbody⟩ := (htexts texts.flatten).1 ⟨texts, hrun, rfl⟩
      exact ⟨ls, its, rows, hls, hits, hrows, by rw [hbody]; rfl⟩
    · rintro ⟨ls, its, rows, hls, hits, hrows, rfl⟩
      obtain ⟨_, hok, hbody⟩ := (htexts _).2 ⟨ls, its, rows, hls, hits, hrows, rfl⟩
      rw [hrun] at hok
      cases hok
      exact ⟨rfl, by rw [hbody]; rfl⟩

/-! ## Reading the report -/

theorem separates_reportWords : ∀ word ∈ reportWords, Separates word ∧ '\n' ∉ word := by
  have hstarts : ∀ word ∈ reportWords, ∃ c rest, word = c :: rest ∧ c.isDigit = false := by
    unfold reportWords
    simp only [List.forall_mem_cons]
    exact ⟨⟨'V', _, rfl, rfl⟩, ⟨' ', _, rfl, rfl⟩, ⟨' ', _, rfl, rfl⟩, by simp⟩
  have hlines : ∀ word ∈ reportWords, '\n' ∉ word := by
    unfold reportWords
    simp
  intro word hword
  -- the words begin with a letter or a blank
  obtain ⟨c, rest, rfl, hc⟩ := hstarts word hword
  exact ⟨⟨List.cons_ne_nil c rest, digitFree_cons.2 hc⟩, hlines _ hword⟩

theorem numbers_length {numbers : List Int} (h : l.numbers = some numbers) : numbers.length = reportWords.length := by
  unfold OutputLine.numbers at h
  split at h
  · cases h
    rfl
  · cases h

theorem mapM_numbers_length : ∀ {ls : List OutputLine} {rows : List (List Int)}, ls.mapM OutputLine.numbers = some rows →
    ∀ row ∈ rows, row.length = reportWords.length
  | [], rows, h, row, hrow => by
    cases h
    cases hrow
  | l :: ls, rows, h, row, hrow => by
    rw [← List.singleton_append] at h
    obtain ⟨rows₁, rows₂, hrows₁, hrows₂, rfl⟩ := mapM_numbers_append.1 h
    rcases List.mem_append.1 hrow with hfirst | hrest
    · cases hn : l.numbers with
      | none => simp [hn] at hrows₁
      | some numbers =>
        simp only [List.mapM_cons, List.mapM_nil, hn] at hrows₁
        cases hrows₁
        rw [List.mem_singleton.1 hfirst]
        exact numbers_length hn
    · exact mapM_numbers_length hrows₂ row hrest

/-- A line of the report, without its end. -/
def reportLine (row : List Int) : List Char := writeFields (reportWords.zip (row.map decimal))

theorem readFields_reportLine {row : List Int} (h : row.length = reportWords.length) :
    readFields reportWords (reportLine row) = some row := by
  have hlength : reportWords.length = (row.map decimal).length := by rw [List.length_map, h]
  have hzip : List.Forall₂ (fun (field : List Char × List Char) z => Writes field.2 z)
      (reportWords.zip (row.map decimal)) row := by
    have hnumbers : List.Forall₂ Writes (row.map decimal) row :=
      List.forall₂_map_left_iff.2 (List.forall₂_same.2 fun z _ => writes_decimal z)
    rwa [← List.map_snd_zip hlength.ge, List.forall₂_map_left_iff] at hnumbers
  have hread := readFields_writeFields (reportWords.zip (row.map decimal))
    (fun field hfield => (separates_reportWords _ (List.of_mem_zip hfield).1).1) hzip
  rwa [List.map_fst_zip hlength.le] at hread

theorem newline_notMem_statisticsLines (totallookups pagefaults tlbhits : Int) :
    ∀ line ∈ statisticsLines totallookups pagefaults tlbhits, '\n' ∉ line := by
  unfold statisticsLines
  simp only [List.forall_mem_cons]
  exact ⟨List.not_mem_append (by decide) (newline_notMem_decimal _),
    List.not_mem_append (by decide) (newline_notMem_decimal _), List.not_mem_append (by decide) (newline_notMem_fixed _),
    List.not_mem_append (by decide) (newline_notMem_decimal _), List.not_mem_append (by decide) (newline_notMem_fixed _),
    by simp⟩

/-- The lines of the whole text. -/
theorem getlines_report (rows : List (List Int)) (totallookups pagefaults tlbhits : Int) :
    getlines (report rows ++ statisticsText totallookups pagefaults tlbhits) =
      rows.map reportLine ++ statisticsLines totallookups pagefaults tlbhits := by
  have hwritten : report rows ++ statisticsText totallookups pagefaults tlbhits =
      (rows.map reportLine ++ statisticsLines totallookups pagefaults tlbhits).flatMap fun line => line ++ ['\n'] := by
    rw [List.flatMap_append, List.flatMap_map]
    rfl
  rw [hwritten]
  refine getlines_flatMap fun line hline => ?_
  rcases List.mem_append.1 hline with hrow | hstats
  · obtain ⟨row, _, rfl⟩ := List.mem_map.1 hrow
    refine newline_notMem_writeFields fun field hfield => ⟨(separates_reportWords _ (List.of_mem_zip hfield).1).2, ?_⟩
    obtain ⟨z, _, hz⟩ := List.mem_map.1 (List.of_mem_zip hfield).2
    rw [← hz]
    exact newline_notMem_decimal z
  · exact newline_notMem_statisticsLines _ _ _ line hstats

theorem read_report {rows : List (List Int)} (h : ∀ row ∈ rows, row.length = reportWords.length) :
    (rows.map reportLine).mapM (readFields reportWords) = some rows := by
  induction rows with
  | nil => rfl
  | cons row rows ih =>
    obtain ⟨hrow, hrows⟩ := List.forall_mem_cons.1 h
    rw [List.map_cons, List.mapM_cons, readFields_reportLine hrow, ih hrows]
    rfl

/-- The whole text, read back line by line: the rows, and the last five lines. -/
theorem read_text {rows : List (List Int)} (h : ∀ row ∈ rows, row.length = reportWords.length)
    (totallookups pagefaults tlbhits : Int) :
    ((getlines (report rows ++ statisticsText totallookups pagefaults tlbhits)).rdrop 5).mapM (readFields reportWords) =
        some rows ∧
      (getlines (report rows ++ statisticsText totallookups pagefaults tlbhits)).rtake 5 =
        statisticsLines totallookups pagefaults tlbhits := by
  have hlines := getlines_report rows totallookups pagefaults tlbhits
  have hlength : (getlines (report rows ++ statisticsText totallookups pagefaults tlbhits)).length - 5 =
      (rows.map reportLine).length := by
    rw [hlines, List.length_append]
    rfl
  constructor
  · rw [List.rdrop, hlength, hlines, List.take_left]
    exact read_report h
  · rw [List.rtake, hlength, hlines, List.drop_left]

/-- The words of the statistics; the point of a rate stands between two numbers. -/
def statisticsWords : List (List (List Char)) :=
  [["Number of Translated Addresses = ".toList], ["Page Faults = ".toList], ["Page Fault Rate = ".toList, ['.']],
    ["TLB Hits = ".toList], ["TLB Hit Rate = ".toList, ['.']]]

/-- The lines give the counters, and their rates within a thousandth. -/
def Summary (lines : List (List Char)) (lookups faults hits : Nat) : Prop :=
  ∃ t u : Nat, readRecords statisticsWords lines = some [[(lookups : Int)], [(faults : Int)],
      [((t / 1000 : Nat) : Int), ((t % 1000 : Nat) : Int)], [(hits : Int)], [((u / 1000 : Nat) : Int), ((u % 1000 : Nat) : Int)]] ∧
    Near lookups t (1000 * faults) ∧ Near lookups u (1000 * hits)

theorem readFields_count (word : List Char) (hword : Separates word) (z : Int) :
    readFields [word] (word ++ decimal z) = some [z] := by
  have hfields := readFields_writeFields [(word, decimal z)] (by simpa using hword)
    (.cons (writes_decimal z) .nil)
  simpa [writeFields] using hfields

theorem summary_statisticsLines {lookups faults hits : Nat} (hlookups : 0 < lookups) (hfaults : faults ≤ lookups)
    (hhits : hits ≤ lookups) : Summary (statisticsLines lookups faults hits) lookups faults hits := by
  obtain ⟨t, ht, hnear⟩ := fixed_ratio hfaults hlookups
  obtain ⟨u, hu, hnear'⟩ := fixed_ratio hhits hlookups
  have hletter : ∀ {c : Char} {word : List Char}, c.isDigit = false → Separates (c :: word) :=
    fun hc => ⟨List.cons_ne_nil _ _, digitFree_cons.2 hc⟩
  refine ⟨t, u, ?_, hnear, hnear'⟩
  have h1 := readFields_count "Number of Translated Addresses = ".toList (hletter (by decide)) lookups
  have h2 := readFields_count "Page Faults = ".toList (hletter (by decide)) faults
  have h3 := readFields_thousandths "Page Fault Rate = ".toList (hletter (by decide)) t
  have h4 := readFields_count "TLB Hits = ".toList (hletter (by decide)) hits
  have h5 := readFields_thousandths "TLB Hit Rate = ".toList (hletter (by decide)) u
  simp only [statisticsWords, statisticsLines, ht, hu, readRecords, h1, h2, h3, h4, h5]

/-! ## The whole report -/

open Statistics (Tallied counted_readByte)

theorem tallied_runLine {n : Int} {s : ReplacementStrategy} {bs : BackingStore} {ls : List InputLine} {its : List Iteration}
    (hr : run runLine (runStart n s bs) ls = .ok (st, its)) : Tallied ls.length st.vmm.counters := by
  refine run_history (P := fun pre _ st => Tallied pre.length st.vmm.counters) ?_ ⟨0, 0, 0, rfl, rfl⟩
    (along_true _ ls _) hr
  intro pre _ st x st' it h _ hstep
  rw [List.length_append]
  exact h.counted (counted_readByte (runLine_ok hstep).1)

/-- The counters of a run that is not too long are those of its statistics. -/
theorem Summary.ofTallied {n : Nat} (h : Tallied n st.vmm.counters) (hne : 1 ≤ n) (hlt : n < 2 ^ 31) :
    Summary (statisticsLines st.vmm.pagelookups.toInt st.vmm.pagefaults.toInt st.vmm.tlbhits.toInt) n
      st.vmm.pagefaults.toInt.toNat st.vmm.tlbhits.toInt.toNat := by
  obtain ⟨hits, pages, faults, hsum, hcounters⟩ := h
  have hval : ∀ k, k ≤ n → (Int32.ofNat k).toInt = k := fun k hk => Int32.toInt_ofNat_of_lt (by omega)
  simp only [counters, Counters.mk.injEq] at hcounters
  obtain ⟨hf, _, ht, hl⟩ := hcounters
  rw [hf, ht, hl, hval n (le_refl n), hval faults (by omega), hval hits (by omega), Int.toNat_natCast, Int.toNat_natCast]
  exact summary_statisticsLines hne (by omega) (by omega)

end

/-- The report can be read back: whatever the input file is, the frames are and the kernel answers, no line of the
report leaves its buffer, and when the loop comes to the end of the file the report has one line for each line
that was to be written, with its numbers, and then five lines with the statistics: the number of lines, the faults and
the TLB hits as they were counted, and the two rates to within a thousandth. -/
theorem report_reads_back (n : Int) (s : ReplacementStrategy) (bs : BackingStore) (stats : Stats) (input : List Char)
    (io : Nat → IoOutcome) :
    runText stats (runStart n s bs) input io ≠ .error .overrun ∧
      ∀ st text, runText stats (runStart n s bs) input io = .ok (st, text) →
        ∃ ls its rows, readLines (lines input io) = some ls ∧ run runLine (runStart n s bs) ls = .ok (st, its) ∧
          (its.flatMap (·.written)).mapM OutputLine.numbers = some rows ∧
          ((getlines text).rdrop 5).mapM (readFields reportWords) = some rows ∧
          (1 ≤ ls.length → ls.length < 2 ^ 31 → Summary ((getlines text).rtake 5) ls.length
            st.vmm.pagefaults.toInt.toNat st.vmm.tlbhits.toInt.toNat) := by
  refine ⟨?_, fun st text h => ?_⟩
  · intro h
    unfold runText at h
    split at h
    · rename_i hrun
      cases h
      obtain ⟨_, _, hstep⟩ := exists_step_error hrun
      exact runTextLine_no_overrun hstep
    · simp only [sprintfStats_eq] at h
      cases h
  · obtain ⟨ls, its, rows, hls, hits, hrows, rfl⟩ := runText_ok.1 h
    obtain ⟨hbody, hlast⟩ := read_text (mapM_numbers_length hrows) st.vmm.pagelookups.toInt st.vmm.pagefaults.toInt
      st.vmm.tlbhits.toInt
    refine ⟨ls, its, rows, hls, hits, hrows, hbody, fun hne hlt => ?_⟩
    rw [hlast]
    exact Summary.ofTallied (tallied_runLine hits) hne hlt

end VirtualMemoryManager

end UnixSysProg.Vmm2
