/-
The report of `pa3_3/VMM2` when no page has to leave: it is that of `pa3_2`, so each line gives the byte of the
store and an address in the frame whose number is the rank of the page among the pages requested, and the
statistics are those of a cache of sixteen pages. Fed with the file that `GenerateTest` writes, it gives the
generated addresses again.
-/
import UnixSysProg.Generations
import UnixSysProg.Vmm1.Spec
import UnixSysProg.Vmm1.TlbCache
import UnixSysProg.Vmm2.GenerateTest
import UnixSysProg.Vmm2.Report

namespace UnixSysProg

open UnixSysProg.Lib UnixSysProg.Vmm

def Vmm.pagesOf (addresses : List VirtualAddress) : List PageNumber := addresses.map getPageNumberFromLogicalAddress

/-- The numbers of the report for an address, among requests for the pages `ps`. -/
def Vmm.StoreFile.row (f : StoreFile) (ps : List PageNumber) (address : VirtualAddress) : List Int :=
  [address.toNat, ↑(256 * rank ps (getPageNumberFromLogicalAddress address) + address.toNat % 256),
    (f.byte address.toNat).toInt]

/-- The whole report for some addresses: their rows, and the statistics of the TLB as a first-in-first-out cache. -/
def Vmm.StoreFile.wholeReport (f : StoreFile) (addresses : List VirtualAddress) : List Char :=
  Vmm2.VirtualMemoryManager.report (addresses.map (f.row (pagesOf addresses))) ++
    Vmm2.VirtualMemoryManager.statisticsText addresses.length (pagesOf addresses).toFinset.card
      (addresses.length - (entries numberOfTlbEntries (pagesOf addresses)).length : Nat)

namespace Vmm2.VirtualMemoryManager

open Generations (Same)
open Statistics (counted_readByte_pa3_2)
open Vmm1.VirtualMemoryManager (Ranked Cached)

variable {f : StoreFile} {ps : List PageNumber} {st : RunState}

/-! ## One line -/

/-- The TLB of `pa3_2` and what has been counted of it, after requests for the pages `ps`. -/
structure Counting (ps : List PageNumber) (t : Vmm1.VirtualMemoryManager) : Prop where
  cached : Cached (entries numberOfTlbEntries ps) t
  lookups : t.pagelookups = .ofNat ps.length
  hits : t.tlbhits = .ofNat (ps.length - (entries numberOfTlbEntries ps).length)

theorem Counting.readByte {t : Vmm1.VirtualMemoryManager} {r : Request} (h : Counting ps t)
    (hg : ∃ page, t.getPage r = .ok page) : Counting (ps ++ [r.page]) (t.readByte r).1 := by
  have hcached := h.cached.readByte hg
  have hlookups : (t.readByte r).1.pagelookups = t.pagelookups + 1 := (counted_readByte_pa3_2 t r).lookups
  have hhits := (Vmm1.VirtualMemoryManager.readByte_counted t r).2
  have hle := length_entries_le numberOfTlbEntries ps
  rw [h.lookups] at hlookups
  have hentries := entries_concat numberOfTlbEntries ps r.page
  by_cases hl : t.tlb.lookup r.page = none
  · rw [if_pos hl] at hcached hhits
    rw [if_neg ((h.cached.lookup_eq_none _).1 hl)] at hentries
    refine ⟨hentries ▸ hcached, by rw [hlookups, List.length_append]; exact (Int32.ofNat_add ..).symm, ?_⟩
    rw [hhits, h.hits, hentries, List.length_append, List.length_append, Nat.add_sub_add_right]
  · rw [if_neg hl] at hcached hhits
    rw [if_pos (not_not.1 (mt (h.cached.lookup_eq_none _).2 hl))] at hentries
    refine ⟨hentries ▸ hcached, by rw [hlookups, List.length_append]; exact (Int32.ofNat_add ..).symm, ?_⟩
    rw [hhits, h.hits, hentries, List.length_append, List.length_singleton, Nat.sub_add_comm hle]
    exact (Int32.ofNat_add ..).symm

/-- After requests for the pages `ps`, all among those of `D`, the manager is as that of `pa3_2`. -/
def Agreeing (f : StoreFile) (D : Finset PageNumber) (ps : List PageNumber) (m : VirtualMemoryManager) : Prop :=
  ∃ t : Vmm1.VirtualMemoryManager, Same D m t ∧ Ranked f ps t ∧ Counting ps t

theorem Agreeing.counters {D : Finset PageNumber} {m : VirtualMemoryManager} (h : Agreeing f D ps m)
    (hlt : ps.length < 2 ^ 31) : m.pagelookups.toInt = ps.length ∧ m.pagefaults.toInt = ps.toFinset.card ∧
      m.tlbhits.toInt = (ps.length - (entries numberOfTlbEntries ps).length : Nat) := by
  obtain ⟨t, hsame, hranked, hcounting⟩ := h
  have hcounters := hsame.counters
  simp only [VirtualMemoryManager.counters, Vmm1.VirtualMemoryManager.counters, Counters.mk.injEq] at hcounters
  obtain ⟨hfaults, _, hhits, hlookups⟩ := hcounters
  rw [← hfaults, ← hhits, ← hlookups, hcounting.lookups, hcounting.hits]
  exact ⟨Int32.toInt_ofNat_of_lt (by omega), hranked.faults, Int32.toInt_ofNat_of_lt (by omega)⟩

theorem Agreeing.readByte {D : Finset PageNumber} {m : VirtualMemoryManager} {r : Request} (h : Agreeing f D ps m)
    (hr : r.page ∈ D) (hreads : r.Reads f) : ∃ m' physicalAddress byte,
      m.readByte r = .ok (m', ⟨statusSuccess, some physicalAddress, some byte⟩) ∧ Agreeing f D (ps ++ [r.page]) m' ∧
      [(r.address.toNat : Int), physicalAddress.toNat, byte.toInt] = f.row (ps ++ [r.page]) r.address := by
  obtain ⟨t, hsame, hranked, hcounting⟩ := h
  obtain ⟨m', t', out, hm, ht, hsame'⟩ := hsame.readByte hr
  obtain ⟨u, hu, hranked'⟩ := hranked.readByte hreads
  have hcounting' := hcounting.readByte ⟨_, hranked.loads hreads⟩
  rw [hu] at hcounting'
  simp only [Vmm1.VirtualMemoryManager.readByteCounted, hu, Except.ok.injEq, Prod.mk.injEq] at ht
  obtain ⟨rfl, rfl⟩ := ht
  unfold readByteCounted at hm
  split at hm
  · cases hm
  · rename_i m₁ resp hread
    simp only [Except.ok.injEq, Prod.mk.injEq] at hm
    obtain ⟨rfl, rfl, -⟩ := hm
    obtain ⟨⟨_, hbyte⟩, haddress⟩ := hranked'.answer (r := r) (by simp)
    refine ⟨m₁, _, _, hread, ⟨u, hsame', hranked', hcounting'⟩, ?_⟩
    simp only [Response.ofFrame, Option.some.injEq] at hbyte
    rw [hbyte, haddress]
    rfl

theorem Agreeing.runLine {D : Finset PageNumber} {x : InputLine} (h : Agreeing f D ps st.vmm)
    (hx : x.request.page ∈ D) (hreads : x.request.Reads f) : ∃ st' it,
      VirtualMemoryManager.runLine st x = .ok (st', it) ∧ Agreeing f D (ps ++ [x.request.page]) st'.vmm ∧
      it.written.mapM OutputLine.numbers = some [f.row (ps ++ [x.request.page]) x.request.address] := by
  obtain ⟨m', physicalAddress, byte, hread, hagreeing, hreported⟩ := h.readByte hx hreads
  refine ⟨⟨m', physicalAddress, byte⟩, ⟨⟨statusSuccess, physicalAddress, byte⟩,
    [⟨x.request.address, physicalAddress, some byte.toInt⟩]⟩, ?_, hagreeing, ?_⟩
  · unfold VirtualMemoryManager.runLine
    rw [hread]
    rfl
  · rw [← hreported]
    rfl

/-! ## The whole report -/

/-- A file whose lines can be read, with requests for at most `n` pages and a kernel that serves them. -/
structure Fitting (n : Int) (input : List Char) (io : Nat → IoOutcome) (ls : List InputLine) : Prop where
  reads : readLines (lines input io) = some ls
  short : ls.length < 2 ^ 31
  served : ∀ l ∈ ls, l.io.Succeeds
  fits : ((pagesOf (ls.map (·.request.address))).toFinset.card : Int) ≤ n

theorem run_rows {n : Int} (hn : 1 ≤ n) (s : ReplacementStrategy) (hf : 65536 ≤ f.size) {ls : List InputLine}
    (hio : ∀ l ∈ ls, l.io.Succeeds) (hfits : ((pagesOf (ls.map (·.request.address))).toFinset.card : Int) ≤ n) :
    ∃ st its, run VirtualMemoryManager.runLine (runStart n s ⟨some f⟩) ls = .ok (st, its) ∧
      Agreeing f (pagesOf (ls.map (·.request.address))).toFinset (pagesOf (ls.map (·.request.address))) st.vmm ∧
      (its.flatMap (·.written)).mapM OutputLine.numbers =
        some ((ls.map (·.request.address)).map (f.row (pagesOf (ls.map (·.request.address))))) := by
  set ps := pagesOf (ls.map (·.request.address)) with hps
  have hstart : Same ps.toFinset (runStart n s ⟨some f⟩).vmm (.initial ⟨some f⟩) := Same.initial hn s _ hfits
  obtain ⟨st, its, hrun, hagreeing, hrows⟩ := run_total
    (P := fun pre its st => Agreeing f ps.toFinset (pagesOf (pre.map (·.request.address))) st.vmm ∧
      (its.flatMap (·.written)).mapM OutputLine.numbers = some ((pre.map (·.request.address)).map (f.row ps)))
    (fun pre x post its st hall ⟨hagreeing, hrows⟩ _ => by
      have hx : x ∈ ls := by rw [hall]; simp
      have hpage : x.request.page ∈ ps.toFinset :=
        List.mem_toFinset.2 (List.mem_map.2 ⟨_, List.mem_map.2 ⟨x, hx, rfl⟩, rfl⟩)
      obtain ⟨st', it, hline, hagreeing', hrow⟩ := hagreeing.runLine hpage (Request.reads_of_succeeds hf (hio x hx))
      refine ⟨st', it, hline, ?_, ?_⟩
      · rw [List.map_append]
        simpa [pagesOf, Request.page] using hagreeing'
      · -- the requests to come do not change the rank of a page
        have hps' : ps = pagesOf (pre.map (·.request.address)) ++ [x.request.page] ++ pagesOf (post.map (·.request.address)) := by
          rw [hps, hall]
          simp [pagesOf, Request.page]
        have hrank : rank ps x.request.page = rank (pagesOf (pre.map (·.request.address)) ++ [x.request.page]) x.request.page := by
          rw [hps']
          exact rank_append (by simp) _
        rw [List.flatMap_append, List.flatMap_singleton, List.map_append, List.map_append]
        refine mapM_numbers_append.2 ⟨_, _, hrows, hrow, ?_⟩
        simp only [List.map_cons, List.map_nil, StoreFile.row]
        rw [show getPageNumberFromLogicalAddress x.request.address = x.request.page from rfl, hrank])
    ⟨⟨_, hstart, Ranked.initial f, Cached.initial _, rfl, rfl⟩, rfl⟩ (along_true VirtualMemoryManager.runLine ls _)
  exact ⟨st, its, hrun, hagreeing, hrows⟩

/-- The complete report of `pa3_3/VMM2` on a file that asks for no more pages than there are frames: under either
strategy a line for each line of the file, with its address, the byte that the store has there, and the offset
within the frame whose number is the rank of the page among the pages of the file; then the statistics, the pages
of the file as the faults and the requests that a cache of sixteen pages has at hand as the TLB hits. -/
theorem report_complete {n : Int} (hn : 1 ≤ n) (s : ReplacementStrategy) (hf : 65536 ≤ f.size) (stats : Stats)
    {input : List Char} {io : Nat → IoOutcome} {ls : List InputLine} (h : Fitting n input io ls) :
    ∃ st, runText stats (runStart n s ⟨some f⟩) input io = .ok (st, f.wholeReport (ls.map (·.request.address))) := by
  obtain ⟨st, its, hrun, hagreeing, hrows⟩ := run_rows hn s hf h.served h.fits
  have hlength : (pagesOf (ls.map (·.request.address))).length = (ls.map (·.request.address)).length := List.length_map ..
  obtain ⟨hlookups, hfaults, hhits⟩ := hagreeing.counters (by rw [hlength, List.length_map]; exact h.short)
  refine ⟨st, runText_ok.2 ⟨ls, its, _, h.reads, hrun, hrows, ?_⟩⟩
  rw [hlookups, hfaults, hhits, hlength]
  rfl

/-- The last line has no end; page 2 is asked for again. -/
theorem report_complete_two_pages : ∃ st, runText ⟨0, 0, 0, 0⟩ (runStart 2 .lru ⟨some numberedStore⟩)
    "513\n-512\n514".toList (fun _ => (Request.served 0).io) = .ok (st,
      ("Virtual address: 513 Physical address: 1 Value: 2\n" ++
        "Virtual address: 65024 Physical address: 256 Value: -2\n" ++
        "Virtual address: 514 Physical address: 2 Value: 2\n" ++
        "Number of Translated Addresses = 3\nPage Faults = 2\nPage Fault Rate = 0.667\n" ++
        "TLB Hits = 1\nTLB Hit Rate = 0.333\n").toList) := by
  have hfitting : Fitting 2 "513\n-512\n514".toList (fun _ => (Request.served 0).io)
      [⟨513, (Request.served 0).io⟩, ⟨-512, (Request.served 0).io⟩, ⟨514, (Request.served 0).io⟩] :=
    ⟨rfl, by decide, by simp [Request.served_succeeds], by decide⟩
  obtain ⟨st, hst⟩ := report_complete (f := numberedStore) (by decide) .lru (le_refl _) ⟨0, 0, 0, 0⟩ hfitting
  refine ⟨st, hst.trans (congrArg (fun text => Except.ok (st, text)) ?_)⟩
  decide +kernel

/-! ## The generated file -/

/-- A file of numbers, one on each line. -/
theorem readLines_decimal {vs : List Int} (hvs : ∀ v ∈ vs, -2 ^ 31 ≤ v ∧ v < 2 ^ 31) (io : Nat → IoOutcome) :
    readLines (lines (vs.flatMap fun v => decimal v ++ ['\n']) io) =
      some (vs.mapIdx fun i v => ⟨Int32.ofInt v, io i⟩) := by
  have hlines : getlines (vs.flatMap fun v => decimal v ++ ['\n']) = vs.map decimal := by
    rw [← List.flatMap_map decimal fun line => line ++ ['\n']]
    refine getlines_flatMap fun line hline => ?_
    obtain ⟨v, _, rfl⟩ := List.mem_map.1 hline
    exact newline_notMem_decimal v
  unfold lines
  rw [hlines]
  clear hlines
  -- the outcomes of the reads are numbered by the lines
  induction vs generalizing io with
  | nil => rfl
  | cons v vs ih =>
    have hrest := ih (fun w hw => hvs w (List.mem_cons_of_mem _ hw)) fun i => io (i + 1)
    rw [List.map_cons, List.mapIdx_cons, List.mapIdx_cons]
    exact readLines_cons.2 ⟨_, _, atoi_decimal (hvs v (List.mem_cons_self ..)), hrest, rfl⟩

end Vmm2.VirtualMemoryManager

namespace Vmm2.GenerateTest

open VirtualMemoryManager

/-- The output of `main`: `cout << ... << endl` for each number. -/
def text (rand : Nat → Int) : List Char := (main rand).flatMap fun v => decimal v ++ ['\n']

def addressOf (v : Int) : VirtualAddress := BitVec.ofInt 16 v

theorem row_addressOf (f : StoreFile) (ps : List PageNumber) {v : Int} (hv : 0 ≤ v ∧ v < 65536) :
    f.row ps (addressOf v) =
      [v, 256 * rank ps (getPageNumberFromLogicalAddress (addressOf v)) + v % 256, (f.byte v.toNat).toInt] := by
  have hval : (addressOf v).toNat = v.toNat := by
    unfold addressOf
    rw [BitVec.toNat_ofInt]
    omega
  unfold StoreFile.row
  rw [hval]
  push_cast
  rw [Int.toNat_of_nonneg hv.1]

theorem address_ofInt (v : Int) (io : IoOutcome) : (InputLine.mk (Int32.ofInt v) io).request.address = addressOf v := by
  refine BitVec.eq_of_toInt_eq ?_
  unfold InputLine.request addressOf
  rw [BitVec.toInt_ofInt, BitVec.toInt_ofInt, Int32.toInt_ofInt]
  exact Int.bmod_bmod_of_dvd (by decide)

/-- The generated file through both programs: with a frame for every page, `run` writes a report which, read back,
gives the numbers of `GenerateTest` in their order, each with its address in the memory and the byte that the
store has there, whatever `rand` answers; and it says how many they are, on how many pages, and how many of the
requests a cache of sixteen pages has at hand, with the rates to within a thousandth. -/
theorem generated_report {n : Int} (hn : 256 ≤ n) (s : ReplacementStrategy) {f : StoreFile} (hf : 65536 ≤ f.size)
    (stats : Stats) {io : Nat → IoOutcome} (hio : ∀ i, (io i).Succeeds) {rand : Nat → Int} (hrand : ∀ i, 0 ≤ rand i) :
    ∃ st report, runText stats (runStart n s ⟨some f⟩) (text rand) io = .ok (st, report) ∧
      ((getlines report).rdrop 5).mapM (readFields reportWords) = some ((main rand).map fun v =>
        [v, 256 * rank (pagesOf ((main rand).map addressOf)) (getPageNumberFromLogicalAddress (addressOf v)) + v % 256,
          (f.byte v.toNat).toInt]) ∧
      Summary ((getlines report).rtake 5) 1200 (pagesOf ((main rand).map addressOf)).toFinset.card
        (1200 - (entries numberOfTlbEntries (pagesOf ((main rand).map addressOf))).length) := by
  have hrange : ∀ v ∈ main rand, 0 ≤ v ∧ v < 65536 := fun v hv => mem_main hrand hv
  have hread := readLines_decimal (fun v hv => by have := hrange v hv; omega) io
  set ls : List InputLine := (main rand).mapIdx fun i v => ⟨Int32.ofInt v, io i⟩ with hls
  have haddresses : ls.map (·.request.address) = (main rand).map addressOf := by
    refine List.ext_getElem? fun i => ?_
    rw [hls, List.getElem?_map, List.getElem?_mapIdx, List.getElem?_map, Option.map_map]
    exact congrArg (Option.map · _) (funext fun v => address_ofInt v (io i))
  have hlength : ls.length = 1200 := by rw [hls, List.length_mapIdx, length_main]
  -- there are 256 pages
  have hfits : ((pagesOf (ls.map (·.request.address))).toFinset.card : Int) ≤ n := by
    have hcard := Finset.card_le_univ (pagesOf (ls.map (·.request.address))).toFinset
    rw [Fintype.card_fin] at hcard
    omega
  have hserved : ∀ l ∈ ls, l.io.Succeeds := by
    intro l hl
    obtain ⟨i, _, rfl⟩ := List.mem_mapIdx.1 hl
    exact hio i
  obtain ⟨st, its, hrun, hagreeing, hrows⟩ := run_rows (by omega) s hf hserved hfits
  obtain ⟨hbody, hlast⟩ := read_text (mapM_numbers_length hrows) st.vmm.pagelookups.toInt st.vmm.pagefaults.toInt
    st.vmm.tlbhits.toInt
  have hsummary := Summary.ofTallied (tallied_runLine hrun) (by omega) (by omega)
  have hpages : (pagesOf (ls.map (·.request.address))).length = 1200 := by
    rw [pagesOf, List.length_map, List.length_map, hlength]
  obtain ⟨_, hfaults, hhits⟩ := hagreeing.counters (by omega)
  have hfaults' : st.vmm.pagefaults.toInt.toNat = (pagesOf ((main rand).map addressOf)).toFinset.card := by
    rw [hfaults, Int.toNat_natCast, haddresses]
  have hhits' : st.vmm.tlbhits.toInt.toNat =
      1200 - (entries numberOfTlbEntries (pagesOf ((main rand).map addressOf))).length := by
    rw [hhits, Int.toNat_natCast, hpages, haddresses]
  rw [← hlast, hlength, hfaults', hhits'] at hsummary
  refine ⟨st, _, runText_ok.2 ⟨ls, its, _, hread, hrun, hrows, rfl⟩, ?_, hsummary⟩
  rw [hbody, haddresses, List.map_map]
  exact congrArg some (List.map_congr_left fun v hv => row_addressOf f _ (hrange v hv))

/-- `rand` answers 5 each time: the pages 0, 64, 128 and 192 are in the first four frames. -/
theorem generated_report_five : ∃ st report,
    runText ⟨0, 0, 0, 0⟩ (runStart 256 .fifo ⟨some numberedStore⟩) (text fun _ => 5) (fun _ => (Request.served 0).io) =
        .ok (st, report) ∧
      ((getlines report).rdrop 5).mapM (readFields reportWords) = some ((main fun _ => 5).map fun v =>
        [v, 256 * rank (pagesOf ((main fun _ => 5).map addressOf)) (getPageNumberFromLogicalAddress (addressOf v)) + v % 256,
          (numberedStore.byte v.toNat).toInt]) ∧
      Summary ((getlines report).rtake 5) 1200 (pagesOf ((main fun _ => 5).map addressOf)).toFinset.card
        (1200 - (entries numberOfTlbEntries (pagesOf ((main fun _ => 5).map addressOf))).length) :=
  generated_report (le_refl 256) .fifo (le_refl _) ⟨0, 0, 0, 0⟩ (fun _ => Request.served_succeeds 0) fun _ => by decide

end Vmm2.GenerateTest

end UnixSysProg
