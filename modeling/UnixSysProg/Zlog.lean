/-
The log that both managers write (`zlog.c`). Entries are formatted into the rows of one flat buffer, and a
flush prints the rows as strings. A step is a critical section of the mutex, in which every call works on the
buffer from end to end; a call that adds a text behind a time stamp bounds the text by a whole row, so that it
may run on into the next one.
-/
import UnixSysProg.Lib.CString
import UnixSysProg.Lib.Run
import Mathlib.Data.List.Flatten

namespace UnixSysProg.Zlog

open UnixSysProg.Lib

/-! ## The code -/

/-- `zlog-config.h`: `ZLOG_BUFFER_STR_MAX_LEN` and `ZLOG_BUFFER_SIZE`. -/
structure Config where
  strMaxLen : Nat
  bufferSize : Nat
  strMaxLen_pos : 1 ≤ strMaxLen
  bufferSize_pos : 1 ≤ bufferSize

/-- The bytes of `_zlog_buffer`. -/
def Config.bytes (cfg : Config) : Nat := cfg.strMaxLen * cfg.bufferSize

theorem one_le_one_shiftLeft : 1 ≤ 0x1 <<< 22 := by decide

/-- The values of `zlog-config.h`. -/
def zlogConfig : Config := ⟨128, 0x1 <<< 22, Nat.le_add_left 1 127, one_le_one_shiftLeft⟩

def nul : Char := Char.ofNat 0

/-- `_zlog_buffer` as it lies in memory, `_zlog_buffer_size`, and what has been written to `zlog_fout`. -/
structure Buffer where
  buffer : Nat → Char
  size : Nat
  fout : List Char

/-- An access outside `_zlog_buffer`. -/
inductive Fault
  | outside

/-- What `gettimeofday` gives, the seconds as they are printed into `timebuf`. -/
structure Time where
  timebuf : List Char
  usec : Fin 1000000

/-- `%06ld`. -/
def sixDigits (n : Nat) : List Char :=
  [n / 100000, n / 10000, n / 1000, n / 100, n / 10, n].map fun d => Nat.digitChar (d % 10)

/-- `[%s.%06lds] `. -/
def Time.stamp (t : Time) : List Char := '[' :: t.timebuf ++ '.' :: sixDigits t.usec ++ ['s', ']', ' ']

/-- `[@%s:%d]`. -/
def location (filename : List Char) (line : Nat) : List Char :=
  '[' :: '@' :: filename ++ ':' :: (toString line).toList ++ [']']

/-- A call that logs, with the text that its format comes to. -/
inductive Entry
  | zlogf (text : List Char)
  | zlogfTime (time : Time) (text : List Char)
  | zlog (filename : List Char) (line : Nat) (text : List Char)
  | zlogTime (time : Time) (filename : List Char) (line : Nat) (text : List Char)

/-- What enters the mutex: a call that logs, `zlog_flush_buffer`, and a turn of `zlog_buffer_flush_thread` in which
the interval has not passed (in one in which it has, the thread calls `zlogf_time` and `zlog_flush_buffer`). -/
inductive Call
  | log (entry : Entry)
  | zlogFlushBuffer
  | flushThread

namespace Buffer

variable (cfg : Config) (s : Buffer)

/-- `snprintf(buffer, ZLOG_BUFFER_STR_MAX_LEN, ...)`, and `vsnprintf`. -/
def snprintf (buffer : Nat) (text : List Char) : Except Fault Buffer :=
  let written := text.take (cfg.strMaxLen - 1) ++ [nul]
  if buffer + written.length ≤ cfg.bytes then .ok { s with buffer := put s.buffer buffer written } else .error .outside

/-- The string at an address of the buffer. -/
def string (buffer : Nat) : Except Fault (List Char) :=
  match cstring nul s.buffer (cfg.bytes - buffer) buffer with
  | some text => .ok text
  | none => .error .outside

/-- What the loop of `_zlog_flush_buffer` prints of `k` rows from row `i` on. -/
def rows : Nat → Nat → Except Fault (List Char)
  | 0, _ => .ok []
  | k + 1, i => do
    let text ← s.string cfg (cfg.strMaxLen * i)
    let rest ← rows k (i + 1)
    .ok (text ++ rest)

/-- `_zlog_flush_buffer`. -/
def flushBuffer : Except Fault Buffer := do
  let text ← s.rows cfg s.size 0
  .ok { s with size := 0, fout := s.fout ++ text }

/-- `zlog_get_buffer`: the address of the row. -/
def getBuffer : Except Fault (Buffer × Nat) := do
  let s ← if s.size = cfg.bufferSize then s.flushBuffer cfg else .ok s
  .ok ({ s with size := s.size + 1 }, cfg.strMaxLen * s.size)

/-- A call that logs, from `zlog_get_buffer` to `zlog_finish_buffer`. -/
def write (buffer : Nat) : Entry → Except Fault Buffer
  | .zlogf text => s.snprintf cfg buffer text
  | .zlogfTime time text => do
    let s ← s.snprintf cfg buffer time.stamp
    s.snprintf cfg (buffer + (time.timebuf.length + 11)) text
  | .zlog filename line text => do
    let s ← s.snprintf cfg buffer (location filename line)
    s.snprintf cfg buffer text
  | .zlogTime time filename line text => do
    let s ← s.snprintf cfg buffer (time.stamp ++ location filename line)
    let head ← s.string cfg buffer
    s.snprintf cfg (buffer + head.length) text

def call : Call → Except Fault Buffer
  | .log entry => do
    let (s, buffer) ← s.getBuffer cfg
    s.write cfg buffer entry
  | .zlogFlushBuffer => s.flushBuffer cfg
  | .flushThread => if 4 * cfg.bufferSize ≤ 5 * s.size then s.flushBuffer cfg else .ok s

/-- A critical section. -/
def step (call : Call) : Except Fault (Buffer × Unit) := do
  let s ← s.call cfg call
  .ok (s, ())

/-- The buffer at first; what it holds is never read. -/
def initial (buffer : Nat → Char) : Buffer := ⟨buffer, 0, []⟩

end Buffer

/-! ## What is logged -/

/-- What a call logs. The text of `zlog` takes the place of its location, which it has written before. -/
def Entry.line (cfg : Config) : Entry → List Char
  | .zlogf text | .zlog _ _ text => text.take (cfg.strMaxLen - 1)
  | .zlogfTime time text => time.stamp ++ text.take (cfg.strMaxLen - 1)
  | .zlogTime time filename line text =>
    (time.stamp ++ location filename line).take (cfg.strMaxLen - 1) ++ text.take (cfg.strMaxLen - 1)

/-- Formats come to texts without a terminator, and a time stamp fits into a row. -/
def Entry.Formatted (cfg : Config) : Entry → Prop
  | .zlogf text | .zlog _ _ text => nul ∉ text
  | .zlogfTime time text => nul ∉ time.stamp ∧ nul ∉ text ∧ time.stamp.length < cfg.strMaxLen
  | .zlogTime time filename line text => nul ∉ time.stamp ∧ nul ∉ location filename line ∧ nul ∉ text

instance (cfg : Config) : ∀ entry : Entry, Decidable (entry.Formatted cfg)
  | .zlogf text | .zlog _ _ text => inferInstanceAs (Decidable (nul ∉ text))
  | .zlogfTime time text =>
    inferInstanceAs (Decidable (nul ∉ time.stamp ∧ nul ∉ text ∧ time.stamp.length < cfg.strMaxLen))
  | .zlogTime time filename line text =>
    inferInstanceAs (Decidable (nul ∉ time.stamp ∧ nul ∉ location filename line ∧ nul ∉ text))

def Call.Formatted (cfg : Config) : Call → Prop
  | .log entry => entry.Formatted cfg
  | .zlogFlushBuffer | .flushThread => True

instance (cfg : Config) : ∀ call : Call, Decidable (call.Formatted cfg)
  | .log entry => inferInstanceAs (Decidable (entry.Formatted cfg))
  | .zlogFlushBuffer | .flushThread => inferInstanceAs (Decidable True)

/-- The lines in the buffer, and what has been printed. -/
structure Log where
  rows : List (List Char)
  fout : List Char

namespace Log

variable (cfg : Config)

/-- What `%s` prints from the first of some rows on: a line that takes its whole row runs on into the next. -/
def printRow : List (List Char) → List Char
  | [] => []
  | [e] => e
  | e :: e' :: es => if e.length < cfg.strMaxLen then e else e.take cfg.strMaxLen ++ printRow (e' :: es)

def printRows : List (List Char) → List Char
  | [] => []
  | e :: es => printRow cfg (e :: es) ++ printRows es

def flush (l : Log) : Log := ⟨[], l.fout ++ printRows cfg l.rows⟩

/-- With a free row. -/
def room (l : Log) : Log := if l.rows.length = cfg.bufferSize then l.flush cfg else l

def step (l : Log) : Call → Log
  | .log entry => { l.room cfg with rows := (l.room cfg).rows ++ [entry.line cfg] }
  | .zlogFlushBuffer => l.flush cfg
  | .flushThread => if 4 * cfg.bufferSize ≤ 5 * l.rows.length then l.flush cfg else l

/-- The line and its terminator do not run over the end of the buffer. -/
def Fits (l : Log) : Call → Prop
  | .log entry => cfg.strMaxLen * (l.room cfg).rows.length + (entry.line cfg).length < cfg.bytes
  | .zlogFlushBuffer | .flushThread => True

instance (l : Log) : ∀ call, Decidable (l.Fits cfg call)
  | .log entry => inferInstanceAs (Decidable (cfg.strMaxLen * (l.room cfg).rows.length + (entry.line cfg).length < cfg.bytes))
  | .zlogFlushBuffer | .flushThread => inferInstanceAs (Decidable True)

/-- Every line of some calls fits. -/
def AllFit : Log → List Call → Prop
  | _, [] => True
  | l, call :: calls => l.Fits cfg call ∧ AllFit (l.step cfg call) calls

instance decidableAllFit : ∀ l calls, Decidable (AllFit cfg l calls)
  | _, [] => inferInstanceAs (Decidable True)
  | l, call :: calls =>
    have := decidableAllFit (l.step cfg call) calls
    inferInstanceAs (Decidable (l.Fits cfg call ∧ AllFit cfg (l.step cfg call) calls))

end Log

/-! ## The rows in memory -/

section

variable {cfg : Config} {mem mem' : Nat → Char} {e : List Char} {es : List (List Char)} {i : Nat}

/-- Lines that have been written one after the other: only the last is whole in any case. -/
def Stored (cfg : Config) (mem : Nat → Char) : Nat → List (List Char) → Prop
  | _, [] => True
  | i, e :: es => Holds mem (cfg.strMaxLen * i) (if es = [] then e ++ [nul] else (e ++ [nul]).take cfg.strMaxLen) ∧
    Stored cfg mem (i + 1) es

theorem Stored.concat (h : Stored cfg mem i es) (hmem : ∀ a < cfg.strMaxLen * (i + es.length), mem' a = mem a)
    (hlast : Holds mem' (cfg.strMaxLen * (i + es.length)) (e ++ [nul])) : Stored cfg mem' i (es ++ [e]) := by
  induction es generalizing i with
  | nil => exact ⟨hlast, trivial⟩
  | cons x es ih =>
    obtain ⟨hx, hes⟩ := h
    rw [List.length_cons, ← Nat.add_assoc, Nat.add_right_comm] at hmem hlast
    refine ⟨?_, ih hes hmem hlast⟩
    have hrow : Holds mem (cfg.strMaxLen * i) ((x ++ [nul]).take cfg.strMaxLen) := by
      split_ifs at hx
      · exact hx.of_prefix (List.take_prefix ..)
      · exact hx
    have htake := List.length_take_le cfg.strMaxLen (x ++ [nul])
    have hle : cfg.strMaxLen * i + cfg.strMaxLen ≤ cfg.strMaxLen * (i + 1 + es.length) := by
      rw [← Nat.mul_succ]
      exact Nat.mul_le_mul_left _ (by omega)
    rw [if_neg (by simp)]
    exact hrow.congr fun a _ ha => hmem a (by omega)

/-- A row is read as far as its line goes, and as the next one where this takes the whole row. -/
theorem Stored.string (h : Stored cfg mem i (e :: es)) (hnul : ∀ x ∈ e :: es, nul ∉ x)
    (hrows : i + (es.length + 1) ≤ cfg.bufferSize)
    (hlast : ∀ x ∈ (e :: es).getLast?, cfg.strMaxLen * (i + es.length) + x.length < cfg.bytes) :
    cstring nul mem (cfg.bytes - cfg.strMaxLen * i) (cfg.strMaxLen * i) = some (Log.printRow cfg (e :: es)) := by
  induction es generalizing e i with
  | nil =>
    obtain ⟨he, -⟩ := h
    have hfit := hlast e rfl
    rw [Log.printRow]
    exact cstring_holds (hnul e (List.mem_cons_self ..)) he (by rw [List.length_nil, Nat.add_zero] at hfit; omega)
  | cons e' es ih =>
    obtain ⟨he, hes⟩ := h
    rw [if_neg (by simp)] at he
    have hnext : cfg.strMaxLen * (i + 1) ≤ cfg.bytes := Nat.mul_le_mul_left _ (by rw [List.length_cons] at hrows; omega)
    rw [Nat.mul_succ] at hnext
    rw [Log.printRow]
    split_ifs with hshort
    · rw [List.take_of_length_le (by simpa using Nat.succ_le_of_lt hshort)] at he
      exact cstring_holds (hnul e (List.mem_cons_self ..)) he (by omega)
    · -- no terminator in the row
      have hrow : Holds mem (cfg.strMaxLen * i) (e.take cfg.strMaxLen) := by
        rwa [List.take_append_of_le_length (Nat.not_lt.1 hshort)] at he
      have hlen : (e.take cfg.strMaxLen).length = cfg.strMaxLen := List.length_take_of_le (Nat.not_lt.1 hshort)
      have hread := ih hes (fun x hx => hnul x (List.mem_cons_of_mem _ hx)) (by rw [List.length_cons] at hrows; omega)
        (by simpa [Nat.add_assoc, Nat.add_comm 1] using hlast)
      have hfuel : cfg.bytes - cfg.strMaxLen * i =
          (e.take cfg.strMaxLen).length + (cfg.bytes - cfg.strMaxLen * (i + 1)) := by
        rw [hlen, Nat.mul_succ]
        omega
      rw [hfuel, cstring_append (fun hmem => hnul e (List.mem_cons_self ..) (List.mem_of_mem_take hmem)) hrow, hlen,
        ← Nat.mul_succ, hread]
      rfl

end

namespace Buffer

variable {cfg : Config} {s s' : Buffer} {l : Log} {call : Call}

/-- The buffer as it stands for a log. -/
structure Represents (cfg : Config) (s : Buffer) (l : Log) : Prop where
  stored : Stored cfg s.buffer 0 l.rows
  size : s.size = l.rows.length
  fout : s.fout = l.fout
  rows : l.rows.length ≤ cfg.bufferSize
  noNul : ∀ e ∈ l.rows, nul ∉ e
  last : ∀ e ∈ l.rows.getLast?, cfg.strMaxLen * (l.rows.length - 1) + e.length < cfg.bytes

theorem represents_initial (mem : Nat → Char) : Represents cfg (initial mem) ⟨[], []⟩ :=
  ⟨trivial, rfl, rfl, Nat.zero_le _, by simp, by simp⟩

/-! ## Flushing -/

/-- The loop of the flush prints rows that are stored. -/
theorem rows_stored {es : List (List Char)} {i : Nat} (h : Stored cfg s.buffer i es) (hnul : ∀ e ∈ es, nul ∉ e)
    (hrows : i + es.length ≤ cfg.bufferSize)
    (hlast : ∀ e ∈ es.getLast?, cfg.strMaxLen * (i + (es.length - 1)) + e.length < cfg.bytes) :
    s.rows cfg es.length i = .ok (Log.printRows cfg es) := by
  induction es generalizing i with
  | nil => rfl
  | cons e es ih =>
    have hstring : s.string cfg (cfg.strMaxLen * i) = .ok (Log.printRow cfg (e :: es)) := by
      rw [string, h.string hnul hrows hlast]
    have hrest := ih h.2 (fun x hx => hnul x (List.mem_cons_of_mem _ hx))
      (by rw [List.length_cons] at hrows; omega) fun x hx => by
        cases es with
        | nil => cases hx
        | cons e' es =>
          have hfit := hlast x (by rwa [List.getLast?_cons_cons])
          simpa [Nat.add_assoc, Nat.add_comm 1] using hfit
    simp only [List.length_cons, rows, hstring, hrest, Log.printRows, bind, Except.bind]

theorem Represents.flush (h : Represents cfg s l) :
    ∃ s', s.flushBuffer cfg = .ok s' ∧ Represents cfg s' (l.flush cfg) := by
  have hrows : s.rows cfg s.size 0 = .ok (Log.printRows cfg l.rows) := by
    rw [h.size]
    exact rows_stored h.stored h.noNul (by simpa using h.rows) (by simpa using h.last)
  refine ⟨{ s with size := 0, fout := s.fout ++ Log.printRows cfg l.rows }, ?_, ?_⟩
  · simp only [flushBuffer, hrows, bind, Except.bind]
  · exact ⟨trivial, rfl, by rw [h.fout]; rfl, Nat.zero_le _, by simp [Log.flush], by simp [Log.flush]⟩

/-- A call is given a row that no line is in. -/
theorem Represents.getBuffer (h : Represents cfg s l) :
    ∃ s', s.getBuffer cfg = .ok ({ s' with size := s'.size + 1 }, cfg.strMaxLen * s'.size) ∧
      Represents cfg s' (l.room cfg) ∧ (l.room cfg).rows.length < cfg.bufferSize := by
  by_cases hfull : s.size = cfg.bufferSize
  · obtain ⟨s', hflush, hs'⟩ := h.flush
    rw [Log.room, if_pos (h.size.symm.trans hfull)]
    refine ⟨s', ?_, hs', cfg.bufferSize_pos⟩
    simp only [Buffer.getBuffer, if_pos hfull, hflush, bind, Except.bind]
  · have hfree : l.rows.length ≠ cfg.bufferSize := fun hl => hfull (h.size.trans hl)
    rw [Log.room, if_neg hfree]
    refine ⟨s, ?_, h, Nat.lt_of_le_of_ne h.rows hfree⟩
    simp only [Buffer.getBuffer, if_neg hfull, bind, Except.bind]

/-! ## Writing -/

theorem snprintf_ok {buffer : Nat} {text : List Char} (h : buffer + (text.take (cfg.strMaxLen - 1)).length < cfg.bytes) :
    s.snprintf cfg buffer text = .ok { s with buffer := put s.buffer buffer (text.take (cfg.strMaxLen - 1) ++ [nul]) } := by
  rw [snprintf]
  exact if_pos (by rw [List.length_append]; exact h)

theorem snprintf_error {buffer : Nat} {text : List Char}
    (h : ¬ buffer + (text.take (cfg.strMaxLen - 1)).length < cfg.bytes) : s.snprintf cfg buffer text = .error .outside := by
  rw [snprintf]
  exact if_neg (by rw [List.length_append]; exact h)

/-- A text that is cut to a row fits into it. -/
theorem fits_row {k : Nat} (hk : k < cfg.bufferSize) (text : List Char) :
    cfg.strMaxLen * k + (text.take (cfg.strMaxLen - 1)).length < cfg.bytes := by
  have hpos := cfg.strMaxLen_pos
  have htake := List.length_take_le (cfg.strMaxLen - 1) text
  have hrow : cfg.strMaxLen * (k + 1) ≤ cfg.bytes := Nat.mul_le_mul_left _ hk
  rw [Nat.mul_succ] at hrow
  omega

/-- The outcome of the writing: the line and its terminator in place and nothing before it changed, or an access
outside the buffer. -/
def Writes (cfg : Config) (s : Buffer) (buffer : Nat) (line : List Char) (r : Except Fault Buffer) : Prop :=
  (buffer + line.length < cfg.bytes → ∃ mem, r = .ok { s with buffer := mem } ∧ (∀ a < buffer, mem a = s.buffer a) ∧
    Holds mem buffer (line ++ [nul])) ∧
  (¬ buffer + line.length < cfg.bytes → r = .error .outside)

/-- One text from the beginning of the row, or behind what is there. -/
theorem writes_snprintf {mem : Nat → Char} {buffer : Nat} {head text : List Char} (hmem : ∀ a < buffer, mem a = s.buffer a)
    (hhead : Holds mem buffer head) : Writes cfg s buffer (head ++ text.take (cfg.strMaxLen - 1))
      (snprintf cfg { s with buffer := mem } (buffer + head.length) text) := by
  constructor
  · intro hfits
    rw [List.length_append, ← Nat.add_assoc] at hfits
    refine ⟨_, snprintf_ok hfits, fun a ha => ?_, ?_⟩
    · exact (put_below (Nat.lt_add_right _ ha)).trans (hmem a ha)
    · rw [List.append_assoc]
      exact hhead.put_append
  · intro hfits
    rw [List.length_append, ← Nat.add_assoc] at hfits
    exact snprintf_error hfits

theorem writes_entry {k : Nat} (hk : k < cfg.bufferSize) {entry : Entry} (h : entry.Formatted cfg) :
    Writes cfg s (cfg.strMaxLen * k) (entry.line cfg) (s.write cfg (cfg.strMaxLen * k) entry) := by
  have hnone : ∀ mem : Nat → Char, Holds mem (cfg.strMaxLen * k) [] := fun mem j x hx => by simp at hx
  -- what is written first is held when the text is written
  have hput : ∀ head : List Char, Holds (put s.buffer (cfg.strMaxLen * k) (head ++ [nul])) (cfg.strMaxLen * k) head :=
    fun head => holds_put.of_prefix (List.prefix_append ..)
  cases entry with
  | zlogf text =>
    have hwrites := @writes_snprintf cfg s s.buffer (cfg.strMaxLen * k) [] text (fun _ _ => rfl) (hnone _)
    exact hwrites
  | zlogfTime time text =>
    have hstamp : time.stamp.take (cfg.strMaxLen - 1) = time.stamp := List.take_of_length_le (by have := h.2.2; omega)
    have hlen : time.timebuf.length + 11 = time.stamp.length := by simp [Time.stamp, sixDigits]
    simp only [write, snprintf_ok (fits_row hk time.stamp), hstamp, hlen, bind, Except.bind]
    exact writes_snprintf (fun a ha => put_below ha) (hput _)
  | zlog filename line text =>
    simp only [write, snprintf_ok (fits_row hk (location filename line)), bind, Except.bind]
    have hwrites := @writes_snprintf cfg s _ (cfg.strMaxLen * k) [] text
      (fun a ha => put_below ha) (hnone (put s.buffer (cfg.strMaxLen * k)
        ((location filename line).take (cfg.strMaxLen - 1) ++ [nul])))
    exact hwrites
  | zlogTime time filename line text =>
    obtain ⟨hstamp, hlocation, -⟩ := h
    generalize hhead : (time.stamp ++ location filename line).take (cfg.strMaxLen - 1) = head
    have hnul : nul ∉ head := by
      rw [← hhead]
      exact fun hmem => (List.mem_append.1 (List.mem_of_mem_take hmem)).elim hstamp hlocation
    have hfits := fits_row hk (time.stamp ++ location filename line)
    have hsnprintf := snprintf_ok (s := s) hfits
    rw [hhead] at hfits hsnprintf
    have hstring : string cfg { s with buffer := put s.buffer (cfg.strMaxLen * k) (head ++ [nul]) } (cfg.strMaxLen * k) =
        .ok head := by
      rw [string, cstring_holds hnul holds_put (by omega)]
    simp only [write, hsnprintf, hstring, Entry.line, hhead, bind, Except.bind]
    exact writes_snprintf (fun a ha => put_below ha) (hput _)

/-! ## Calls -/

theorem nul_notMem_line {entry : Entry} (h : entry.Formatted cfg) : nul ∉ entry.line cfg := by
  have htake : ∀ {text : List Char} {k : Nat}, nul ∉ text → nul ∉ text.take k :=
    fun hnul hmem => hnul (List.mem_of_mem_take hmem)
  cases entry with
  | zlogf text | zlog filename line text => exact htake h
  | zlogfTime time text => exact List.not_mem_append h.1 (htake h.2.1)
  | zlogTime time filename line text => exact List.not_mem_append (htake (List.not_mem_append h.1 h.2.1)) (htake h.2.2)

/-- A call does to the buffer what it does to the log, unless its line runs over the end of the buffer. -/
theorem Represents.step (h : Represents cfg s l) (hcall : call.Formatted cfg) :
    (l.Fits cfg call → ∃ s', s.step cfg call = .ok (s', ()) ∧ Represents cfg s' (l.step cfg call)) ∧
      (¬ l.Fits cfg call → s.step cfg call = .error .outside) := by
  cases call with
  | log entry =>
    -- `zlog_get_buffer` leaves a free place, flushing a full buffer
    obtain ⟨t, hget, ht, hfree⟩ := h.getBuffer
    have hk : t.size < cfg.bufferSize := by rwa [ht.size]
    obtain ⟨hok, herror⟩ := writes_entry (s := { t with size := t.size + 1 }) hk hcall
    constructor
    · rintro hfits
      rw [Log.Fits, ← ht.size] at hfits
      obtain ⟨mem, hwrite, hmem, hline⟩ := hok hfits
      refine ⟨⟨mem, t.size + 1, t.fout⟩, by simp only [Buffer.step, Buffer.call, hget, hwrite, bind, Except.bind], ?_⟩
      rw [ht.size] at hmem hline hfits
      refine ⟨?_, ?_, ht.fout, ?_, ?_, ?_⟩
      · -- what the line before it had behind its own row is overwritten
        refine ht.stored.concat ?_ ?_
        · rwa [Nat.zero_add]
        · rwa [Nat.zero_add]
      · simp [Log.step, ht.size]
      · simpa [Log.step] using Nat.succ_le_of_lt hfree
      · simp only [Log.step, List.forall_mem_append, List.forall_mem_singleton]
        exact ⟨ht.noNul, nul_notMem_line hcall⟩
      · simpa [Log.step] using hfits
    · intro hfits
      rw [Log.Fits, ← ht.size] at hfits
      simp only [Buffer.step, Buffer.call, hget, herror hfits, bind, Except.bind]
  | zlogFlushBuffer =>
    obtain ⟨s', hflush, hs'⟩ := h.flush
    refine ⟨fun _ => ⟨s', ?_, hs'⟩, fun hfits => absurd trivial hfits⟩
    simp only [Buffer.step, Buffer.call, hflush, bind, Except.bind]
  | flushThread =>
    refine ⟨fun _ => ?_, fun hfits => absurd trivial hfits⟩
    simp only [Buffer.step, Buffer.call, Log.step, h.size]
    split_ifs
    · obtain ⟨s', hflush, hs'⟩ := h.flush
      exact ⟨s', by simp only [hflush, bind, Except.bind], hs'⟩
    · exact ⟨s, rfl, h⟩

theorem Represents.run : ∀ {calls : List Call} {s : Buffer} {l : Log}, Represents cfg s l → (∀ call ∈ calls, call.Formatted cfg) →
    (Log.AllFit cfg l calls → ∃ s' os, Lib.run (Buffer.step cfg) s calls = .ok (s', os) ∧
      Represents cfg s' (calls.foldl (Log.step cfg) l)) ∧
      (¬ Log.AllFit cfg l calls → Lib.run (Buffer.step cfg) s calls = .error .outside)
  | [], s, _, h, _ => ⟨fun _ => ⟨s, [], rfl, h⟩, fun hfits => absurd trivial hfits⟩
  | call :: calls, s, l, h, hcalls => by
    obtain ⟨hcall, hrest⟩ := List.forall_mem_cons.1 hcalls
    obtain ⟨hok, herror⟩ := h.step hcall
    constructor
    · rintro ⟨hfits, hall⟩
      obtain ⟨t, ht, hrepresents⟩ := hok hfits
      obtain ⟨s', os, hrun, hs'⟩ := (Represents.run hrepresents hrest).1 hall
      exact ⟨s', () :: os, run_cons_ok.2 ⟨t, (), os, ht, hrun, rfl⟩, hs'⟩
    · intro hfits
      rw [run_cons]
      by_cases hfirst : l.Fits cfg call
      · obtain ⟨t, ht, hrepresents⟩ := hok hfirst
        simp only [ht, (Represents.run hrepresents hrest).2 fun hall => hfits ⟨hfirst, hall⟩]
      · simp only [herror hfirst]

/-! ## Runs -/

/-- For all calls in whatever order they enter the mutex, with any flushes between them: the logger accesses
nothing outside its buffer if and only if no line runs over its end, and then it has printed what the log has,
and has as many lines left. -/
theorem prints_log {calls : List Call} (hcalls : ∀ call ∈ calls, call.Formatted cfg) (mem : Nat → Char) :
    (Log.AllFit cfg ⟨[], []⟩ calls ↔ ∃ s os, Lib.run (Buffer.step cfg) (initial mem) calls = .ok (s, os)) ∧
      ∀ s os, Lib.run (Buffer.step cfg) (initial mem) calls = .ok (s, os) →
        s.fout = (calls.foldl (Log.step cfg) ⟨[], []⟩).fout ∧ s.size = (calls.foldl (Log.step cfg) ⟨[], []⟩).rows.length := by
  obtain ⟨hok, herror⟩ := (represents_initial mem).run hcalls
  have hfits : ∀ s os, Lib.run (Buffer.step cfg) (initial mem) calls = .ok (s, os) → Log.AllFit cfg ⟨[], []⟩ calls := by
    intro s os hrun
    by_contra hnot
    rw [herror hnot] at hrun
    cases hrun
  refine ⟨⟨fun hall => ?_, fun ⟨s, os, hrun⟩ => hfits s os hrun⟩, fun s os hrun => ?_⟩
  · obtain ⟨s, os, hrun, -⟩ := hok hall
    exact ⟨s, os, hrun⟩
  · obtain ⟨s', os', hrun', hs'⟩ := hok (hfits s os hrun)
    rw [hrun] at hrun'
    cases hrun'
    exact ⟨hs'.fout, hs'.size⟩

/-- A line of six characters in a row of four: its end is lost, and the next line is printed twice. -/
theorem prints_log_overlong : ∃ s os, Lib.run (Buffer.step ⟨4, 2, Nat.le_add_left 1 3, Nat.le_add_left 1 1⟩)
    (initial fun _ => nul) [.log (.zlogTime ⟨['1'], 5⟩ ['f'] 7 "xyz".toList), .log (.zlogf "ab".toList), .zlogFlushBuffer] =
      .ok (s, os) ∧ s.fout = "[1.xabab".toList := by
  have hrun : ∃ s os, Lib.run (Buffer.step ⟨4, 2, Nat.le_add_left 1 3, Nat.le_add_left 1 1⟩)
      (initial fun _ => nul) [.log (.zlogTime ⟨['1'], 5⟩ ['f'] 7 "xyz".toList), .log (.zlogf "ab".toList), .zlogFlushBuffer] =
        .ok (s, os) := (prints_log (by decide) _).1.1 (by decide)
  obtain ⟨s, os, hrun⟩ := hrun
  exact ⟨s, os, hrun, ((prints_log (by decide) _).2 s os hrun).1⟩

end Buffer

/-! ## Short lines -/

namespace Log

variable {cfg : Config} {l : Log} {call : Call}

/-- The line of a call, if it logs. -/
def line (cfg : Config) : Call → List Char
  | .log entry => entry.line cfg
  | .zlogFlushBuffer | .flushThread => []

/-- All lines in the buffer are shorter than their rows. -/
structure Short (cfg : Config) (l : Log) : Prop where
  rows : l.rows.length ≤ cfg.bufferSize
  short : ∀ e ∈ l.rows, e.length < cfg.strMaxLen

/-- All that has been logged. -/
def text (l : Log) : List Char := l.fout ++ l.rows.flatten

theorem printRows_short {es : List (List Char)} (h : ∀ e ∈ es, e.length < cfg.strMaxLen) : printRows cfg es = es.flatten := by
  induction es with
  | nil => rfl
  | cons e es ih =>
    obtain ⟨he, hes⟩ := List.forall_mem_cons.1 h
    have hrow : printRow cfg (e :: es) = e := by
      cases es with
      | nil => rfl
      | cons e' es => rw [printRow, if_pos he]
    rw [printRows, hrow, ih hes]
    rfl

theorem Short.flush (h : Short cfg l) : Short cfg (l.flush cfg) ∧ (l.flush cfg).text = l.text :=
  ⟨⟨Nat.zero_le _, by simp [Log.flush]⟩, by simp [text, Log.flush, printRows_short h.short]⟩

theorem Short.room (h : Short cfg l) :
    Short cfg (l.room cfg) ∧ (l.room cfg).text = l.text ∧ (l.room cfg).rows.length < cfg.bufferSize := by
  unfold Log.room
  split_ifs with hfull
  · exact ⟨h.flush.1, h.flush.2, cfg.bufferSize_pos⟩
  · exact ⟨h, rfl, Nat.lt_of_le_of_ne h.rows hfull⟩

/-- A call with a short line logs its line, which fits. -/
theorem Short.step (h : Short cfg l) (hline : (line cfg call).length < cfg.strMaxLen) :
    l.Fits cfg call ∧ Short cfg (l.step cfg call) ∧ (l.step cfg call).text = l.text ++ line cfg call := by
  cases call with
  | log entry =>
    obtain ⟨hshort, htext, hfree⟩ := h.room
    refine ⟨?_, ⟨?_, ?_⟩, ?_⟩
    · have hrow : cfg.strMaxLen * ((l.room cfg).rows.length + 1) ≤ cfg.bytes := Nat.mul_le_mul_left _ hfree
      rw [Nat.mul_succ] at hrow
      exact Nat.lt_of_lt_of_le (Nat.add_lt_add_left hline _) hrow
    · simpa [Log.step] using Nat.succ_le_of_lt hfree
    · simp only [Log.step, List.forall_mem_append, List.forall_mem_singleton]
      exact ⟨hshort.short, hline⟩
    · rw [← htext]
      simp [text, Log.step, line]
  | zlogFlushBuffer => exact ⟨trivial, h.flush.1, by simp [Log.step, h.flush.2, line]⟩
  | flushThread =>
    simp only [Log.step, line, List.append_nil]
    split_ifs
    · exact ⟨trivial, h.flush⟩
    · exact ⟨trivial, h, rfl⟩

theorem Short.run : ∀ {calls : List Call} {l : Log}, Short cfg l → (∀ call ∈ calls, (line cfg call).length < cfg.strMaxLen) →
    AllFit cfg l calls ∧ Short cfg (calls.foldl (Log.step cfg) l) ∧
      (calls.foldl (Log.step cfg) l).text = l.text ++ calls.flatMap (line cfg)
  | [], l, h, _ => ⟨trivial, h, by simp⟩
  | call :: calls, l, h, hlines => by
    obtain ⟨hline, hrest⟩ := List.forall_mem_cons.1 hlines
    obtain ⟨hfits, hshort, htext⟩ := h.step hline
    obtain ⟨hall, hlast, hrun⟩ := Short.run hshort hrest
    exact ⟨⟨hfits, hall⟩, hlast, by rw [List.foldl_cons, hrun, htext, List.flatMap_cons, List.append_assoc]⟩

end Log

/-- When every line is shorter than a row: no access outside the buffer, and after a last flush the lines have been
printed, once each and in order. -/
theorem prints_lines {cfg : Config} {calls : List Call} (hcalls : ∀ call ∈ calls, call.Formatted cfg)
    (hlines : ∀ call ∈ calls, (Log.line cfg call).length < cfg.strMaxLen) (mem : Nat → Char) :
    ∃ s os, run (Buffer.step cfg) (Buffer.initial mem) (calls ++ [.zlogFlushBuffer]) = .ok (s, os) ∧
      s.fout = calls.flatMap (Log.line cfg) ∧ s.size = 0 := by
  have hempty : Log.Short cfg ⟨[], []⟩ := ⟨Nat.zero_le _, by simp⟩
  obtain ⟨hall, hshort, htext⟩ := hempty.run hlines
  obtain ⟨s, os, hrun, hs⟩ := ((Buffer.represents_initial mem).run hcalls).1 hall
  have hflushed : Call.Formatted cfg .zlogFlushBuffer := trivial
  obtain ⟨s', hstep, hs'⟩ := (hs.step hflushed).1 trivial
  have hflush := hshort.flush.2
  refine ⟨s', os ++ [()], run_concat hrun hstep, ?_, hs'.size⟩
  rw [hs'.fout, ← List.nil_append (calls.flatMap _)]
  rw [htext] at hflush
  simpa [Log.text, Log.flush, Log.step] using hflush

/-! ## Short messages -/

/-- All that a call is to log: the location of `zlog` is not for the log. -/
def Entry.message : Entry → List Char
  | .zlogf text | .zlog _ _ text => text
  | .zlogfTime time text => time.stamp ++ text
  | .zlogTime time filename line text => time.stamp ++ location filename line ++ text

def Call.message : Call → List Char
  | .log entry => entry.message
  | .zlogFlushBuffer | .flushThread => []

/-- A message that fits into a row is not cut. -/
theorem Entry.line_eq_message {cfg : Config} {entry : Entry} (h : entry.message.length < cfg.strMaxLen) :
    entry.line cfg = entry.message := by
  have hwhole : ∀ {text : List Char}, text.length < cfg.strMaxLen → text.take (cfg.strMaxLen - 1) = text :=
    fun ht => List.take_of_length_le (by omega)
  cases entry with
  | zlogf text | zlog filename line text => exact hwhole h
  | zlogfTime time text =>
    rw [Entry.message, List.length_append] at h
    rw [Entry.line, Entry.message, hwhole (by omega)]
  | zlogTime time filename line text =>
    rw [Entry.message, List.length_append] at h
    rw [Entry.line, Entry.message, hwhole (by omega), hwhole (by omega)]

theorem Call.line_eq_message {cfg : Config} : ∀ {call : Call}, call.message.length < cfg.strMaxLen →
    Log.line cfg call = call.message
  | .log _, h => Entry.line_eq_message h
  | .zlogFlushBuffer, _ | .flushThread, _ => rfl

/-- When every message is shorter than a row, with its time stamp and location where these are printed: no access
outside the buffer, and after a last flush all messages have been printed in full, once each and in order, however
the flushes lay between them. -/
theorem prints_all {cfg : Config} {calls : List Call} (hcalls : ∀ call ∈ calls, call.Formatted cfg)
    (hshort : ∀ call ∈ calls, call.message.length < cfg.strMaxLen) (mem : Nat → Char) :
    ∃ s os, run (Buffer.step cfg) (Buffer.initial mem) (calls ++ [.zlogFlushBuffer]) = .ok (s, os) ∧
      s.fout = calls.flatMap (·.message) ∧ s.size = 0 := by
  have hline : ∀ call ∈ calls, Log.line cfg call = call.message := fun call hcall => Call.line_eq_message (hshort call hcall)
  obtain ⟨s, os, hrun, hfout, hsize⟩ := prints_lines hcalls (fun call hcall => by
    rw [hline call hcall]
    exact hshort call hcall) mem
  exact ⟨s, os, hrun, hfout.trans (List.flatMap_congr hline), hsize⟩

/-- Two messages of a manager's log, one of them with its time and place. -/
theorem prints_all_translate : ∃ s os, run (Buffer.step zlogConfig) (Buffer.initial fun _ => nul)
    ([.log (.zlog "vmm.cpp".toList 77 "page 1\n".toList), .flushThread,
      .log (.zlogTime ⟨"1".toList, 5⟩ "tlb.cpp".toList 9 "miss\n".toList)] ++ [.zlogFlushBuffer]) = .ok (s, os) ∧
      s.fout = "page 1\n[1.000005s] [@tlb.cpp:9]miss\n".toList ∧ s.size = 0 :=
  prints_all (by decide) (by decide) fun _ => nul

end UnixSysProg.Zlog
