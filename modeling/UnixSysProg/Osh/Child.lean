/-
The child of a command (`a2/osh/executor.cpp`, `fixupStdinOut` and `childExecFunction`): it redirects its
input and output and executes the program. The redirections report the first call that fails, and the child
goes on whatever they report, so that the program runs with its redirections in place exactly when no call
fails and none of them takes away a pipe end that a later one needs.
-/
import UnixSysProg.Lib.Descriptors
import UnixSysProg.Osh.Command

namespace UnixSysProg.Osh

open UnixSysProg.Lib

/-! ## System calls -/

/-- `O_RDONLY`, `O_WRONLY | O_CREAT | O_TRUNC` and `O_WRONLY | O_APPEND`. -/
inductive OpenMode
  | rdonly
  | wronlyCreatTrunc
  | wronlyAppend
  deriving DecidableEq

/-- The arguments of a call of `open`, with the permissions where there are any. -/
structure OpenCall where
  name : Word
  openmode : OpenMode
  mode : Option Nat
  deriving DecidableEq

/-- What a descriptor of the child refers to: what the descriptor `fd` did when the child was made, or a file
that it has opened. The shell does not duplicate the ends of its pipes. -/
inductive Description
  | inherited (fd : Int)
  | opened (call : OpenCall)
  deriving DecidableEq

/-- An end of a pipe that the shell has made. -/
inductive PipeEnd
  | read
  | write
  deriving DecidableEq

/-- What the kernel answers to the child: the `errno` of the calls that fail. A descriptor that is open can be
duplicated onto itself. -/
structure ChildKernel where
  openFails : OpenCall → Option Int
  dup2Fails : Int → Int → Option Int
  execvpFails : Option Int
  pid : Int
  dup2Fails_same : ∀ fd, dup2Fails fd fd = none

def stdinFileno : Int := 0
def stdoutFileno : Int := 1
def ebadf : Int := 9

/-- The command of a child, and its descriptors. -/
structure Child where
  command : Command
  table : DescriptorTable Description

/-- The descriptors that a child starts with. -/
def Child.start (command : Command) (fds : Finset Int) : Child := ⟨command, fds, .inherited⟩

variable (k : ChildKernel)

/-- `dup2`. -/
def dup2 (t : DescriptorTable Description) (old new : Int) : Except Int (DescriptorTable Description) :=
  match t.dup old new with
  | none => .error ebadf
  | some t' =>
    match k.dup2Fails old new with
    | some errno => .error errno
    | none => .ok t'

/-- `open`, and `dup2` of the descriptor onto another one; the `errno` of the call that fails with the
descriptors left then. -/
def openOnto (t : DescriptorTable Description) (call : OpenCall) (target : Int) :
    Except (Int × DescriptorTable Description) (Int × DescriptorTable Description) :=
  match k.openFails call with
  | some errno => .error (errno, t)
  | none =>
    let (fd, t) := t.open_ (.opened call)
    match dup2 k t fd target with
    | .error errno => .error (errno, t)
    | .ok t => .ok (fd, t)

/-! ## Redirections -/

namespace Command

variable (c : Command)

def inputCall : OpenCall := ⟨strncpy c.inputFilename, .rdonly, none⟩

def outputCall : OpenCall :=
  ⟨strncpy c.outputFilename, if c.outputMode = .fileNew then .wronlyCreatTrunc else .wronlyAppend, some 0o644⟩

def outputsToFile : Prop := c.outputMode = .fileNew ∨ c.outputMode = .append

instance : Decidable c.outputsToFile := inferInstanceAs (Decidable (_ ∨ _))

theorem outputMode_cases (h : c.outputMode ≠ .stdout) : c.outputsToFile ∨ c.outputMode = .pipe := by
  cases hmode : c.outputMode with
  | stdout => exact absurd hmode h
  | fileNew => exact .inl (.inl hmode)
  | append => exact .inl (.inr hmode)
  | pipe => exact .inr rfl

theorem not_outputsToFile (hpipe : c.outputMode = .pipe) : ¬ c.outputsToFile := by
  rintro (h | h)
  · rw [h] at hpipe
    cases hpipe
  · rw [h] at hpipe
    cases hpipe

theorem inputCall_ne_outputCall : c.inputCall ≠ c.outputCall := fun h => by
  cases congrArg OpenCall.mode h

end Command

namespace Executor

/-- A file that the command asks for is opened and put at its descriptor; the command keeps the one it was
opened with. -/
def redirectFile (asked : Prop) [Decidable asked] (call : OpenCall) (target : Int) (setFid : Int → Command)
    (s : Child) : Except (Int × Child) Child :=
  if asked then
    match openOnto k s.table call target with
    | .error (errno, table) => .error (errno, { s with table })
    | .ok (file, table) => .ok { command := setFid file, table }
  else .ok s

/-- A pipe end that the command asks for is put at its descriptor. -/
def joinPipe (asked : Prop) [Decidable asked] (fid target : Int) (s : Child) : Except (Int × Child) Child :=
  if asked then
    match dup2 k s.table fid target with
    | .error errno => .error (errno, s)
    | .ok table => .ok { s with table }
  else .ok s

/-- The redirections of `fixupStdinOut`, one after the other. -/
def fixInputFile (s : Child) : Except (Int × Child) Child :=
  redirectFile k (s.command.inputMode = .file) s.command.inputCall stdinFileno
    (fun ifile => { s.command with inputFid := ifile }) s

def fixOutputFile (s : Child) : Except (Int × Child) Child :=
  redirectFile k s.command.outputsToFile s.command.outputCall stdoutFileno
    (fun ofile => { s.command with outputFid := ofile }) s

def fixOutputPipe (s : Child) : Except (Int × Child) Child :=
  joinPipe k (s.command.outputMode = .pipe) s.command.outputFid stdoutFileno s

def fixInputPipe (s : Child) : Except (Int × Child) Child :=
  joinPipe k (s.command.inputMode = .pipe) s.command.inputFid stdinFileno s

/-- `fixupStdinOut`: what it returns, which is `status_success` or an `errno`, and the child after it. -/
def fixupStdinOut (s : Child) : Int × Child :=
  let result := do
    let s ← fixInputFile k s
    let s ← fixOutputFile k s
    let s ← fixOutputPipe k s
    fixInputPipe k s
  match result with
  | .error (errno, s) => (errno, s)
  | .ok s => (0, s)

/-- A call of `execvp`: the program, its arguments, and the descriptors that it is to run with. -/
structure Execution where
  bin : Word
  argv : Option (List Word)
  table : DescriptorTable Description

/-- How the child ends: the call of `execvp`, if it is reached, and the status that the child exits with, if
the program does not run in its place. -/
structure ChildEnd where
  execvp : Option Execution
  status : Option Int

/-- `childExecFunction`; `none` when it reads through the null pointer `argv`. -/
def childExecFunction (s : Child) : Option ChildEnd :=
  match s.command.getExecutable with
  | none => none
  | some token =>
    let command := { s.command with parseState := .executing, pid := k.pid }
    let (_, s) := fixupStdinOut k { s with command }
    some ⟨some ⟨strncpy token, s.command.argv, s.table⟩, k.execvpFails⟩

end Executor

/-! ## What the calls leave -/

variable {k} {t : DescriptorTable Description} {call : OpenCall} {old new target : Int}

theorem dup2_ok (hold : t.lookup old ≠ none) (hk : k.dup2Fails old new = none) :
    ∃ t', dup2 k t old new = .ok t' ∧ t'.fds = insert new t.fds ∧
      ∀ fd, t'.lookup fd = if fd = new then t.lookup old else t.lookup fd := by
  obtain ⟨t', ht'⟩ := Option.ne_none_iff_exists'.1 (mt t.dup_eq_none.1 hold : t.dup old new ≠ none)
  exact ⟨t', by simp [dup2, ht', hk], t.fds_dup ht', t.lookup_dup ht'⟩

theorem dup2_error (h : ¬ (t.lookup old ≠ none ∧ k.dup2Fails old new = none)) :
    ∃ errno, dup2 k t old new = .error errno := by
  unfold dup2
  split
  · exact ⟨_, rfl⟩
  · rename_i t' ht'
    have hold : t.lookup old ≠ none := fun hnone => by
      rw [t.dup_eq_none.2 hnone] at ht'
      cases ht'
    split
    · exact ⟨_, rfl⟩
    · exact absurd ⟨hold, ‹_›⟩ h

/-- Neither of the two calls of `openOnto` fails. -/
def Served (k : ChildKernel) (fds : Finset Int) (call : OpenCall) (target : Int) : Prop :=
  k.openFails call = none ∧ k.dup2Fails (lowestUnused fds) target = none

/-- The file is at its own descriptor and at the one it was wanted at. -/
theorem openOnto_ok (h : Served k t.fds call target) :
    ∃ t', openOnto k t call target = .ok (lowestUnused t.fds, t') ∧
      t'.fds = insert target (insert (lowestUnused t.fds) t.fds) ∧
      ∀ fd, t'.lookup fd = if fd = target ∨ fd = lowestUnused t.fds then some (.opened call) else t.lookup fd := by
  have hopen : (t.open_ (.opened call)).2.lookup (lowestUnused t.fds) = some (.opened call) := by
    rw [t.lookup_open, if_pos rfl]
  obtain ⟨t', hdup, hfds, hlookup⟩ := dup2_ok (hopen.trans_ne (Option.some_ne_none _)) h.2
  refine ⟨t', ?_, hfds, fun fd => ?_⟩
  · simp only [openOnto, h.1]
    rw [show (t.open_ (.opened call)).1 = lowestUnused t.fds from rfl, hdup]
  · rw [hlookup, hopen, t.lookup_open]
    split <;> simp_all

/-- When a call fails, the descriptor that the file was wanted at refers to what it did. -/
theorem openOnto_error (h : ¬ Served k t.fds call target) :
    ∃ errno t', openOnto k t call target = .error (errno, t') ∧ t'.lookup target = t.lookup target := by
  cases hopen : k.openFails call with
  | some errno => exact ⟨errno, t, by simp only [openOnto, hopen], rfl⟩
  | none =>
    have hdup : k.dup2Fails (lowestUnused t.fds) target ≠ none := fun hnone => h ⟨hopen, hnone⟩
    obtain ⟨errno, herror⟩ := dup2_error (t := (t.open_ (.opened call)).2) fun hboth => hdup hboth.2
    refine ⟨errno, (t.open_ (.opened call)).2, ?_, ?_⟩
    · simp only [openOnto, hopen]
      rw [show (t.open_ (.opened call)).1 = lowestUnused t.fds from rfl, herror]
    · have hne : target ≠ lowestUnused t.fds := by
        rintro rfl
        exact hdup (k.dup2Fails_same _)
      rw [t.lookup_open, if_neg hne]

/-! ## One redirection -/

/-- The commands ask for the same redirections, as far as they are still to be made. -/
structure SameRedirections (c c' : Command) : Prop where
  inputMode : c'.inputMode = c.inputMode
  outputMode : c'.outputMode = c.outputMode
  outputFilename : c'.outputFilename = c.outputFilename
  inputFid : c.inputMode = .pipe → c'.inputFid = c.inputFid
  outputFid : c.outputMode = .pipe → c'.outputFid = c.outputFid

namespace SameRedirections

variable {c c' c'' : Command}

theorem outputCall (h : SameRedirections c c') : c'.outputCall = c.outputCall := by
  unfold Command.outputCall
  rw [h.outputFilename, h.outputMode]

theorem outputsToFile (h : SameRedirections c c') : c'.outputsToFile ↔ c.outputsToFile := by
  unfold Command.outputsToFile
  rw [h.outputMode]

theorem trans (h : SameRedirections c c') (h' : SameRedirections c' c'') : SameRedirections c c'' where
  inputMode := h'.inputMode.trans h.inputMode
  outputMode := h'.outputMode.trans h.outputMode
  outputFilename := h'.outputFilename.trans h.outputFilename
  inputFid hp := (h'.inputFid (h.inputMode.trans hp)).trans (h.inputFid hp)
  outputFid hp := (h'.outputFid (h.outputMode.trans hp)).trans (h.outputFid hp)

theorem inputFile (c : Command) (ifile : Int) :
    SameRedirections c (if c.inputMode = .file then { c with inputFid := ifile } else c) := by
  split
  case isTrue hfile =>
    refine ⟨rfl, rfl, rfl, fun hpipe => ?_, fun _ => rfl⟩
    rw [hfile] at hpipe
    cases hpipe
  case isFalse => exact ⟨rfl, rfl, rfl, fun _ => rfl, fun _ => rfl⟩

theorem outputFile (c : Command) (ofile : Int) :
    SameRedirections c (if c.outputsToFile then { c with outputFid := ofile } else c) := by
  split
  case isTrue hfile => exact ⟨rfl, rfl, rfl, fun _ => rfl, fun hpipe => absurd hfile (c.not_outputsToFile hpipe)⟩
  case isFalse => exact ⟨rfl, rfl, rfl, fun _ => rfl, fun _ => rfl⟩

end SameRedirections

namespace Executor

variable {s : Child} {asked : Prop} [Decidable asked] {f : Int → Command} {fid : Int}

theorem redirectFile_ok (h : asked → Served k s.table.fds call target) :
    ∃ s', redirectFile k asked call target f s = .ok s' ∧
      s'.command = (if asked then f (lowestUnused s.table.fds) else s.command) ∧
      s'.table.fds = (if asked then insert target (insert (lowestUnused s.table.fds) s.table.fds) else s.table.fds) ∧
      ∀ fd, s'.table.lookup fd = if asked ∧ (fd = target ∨ fd = lowestUnused s.table.fds)
        then some (.opened call) else s.table.lookup fd := by
  unfold redirectFile
  by_cases hasked : asked
  · obtain ⟨t', hopen, hfds, hlookup⟩ := openOnto_ok (h hasked)
    refine ⟨⟨f (lowestUnused s.table.fds), t'⟩, by rw [if_pos hasked, hopen], (if_pos hasked).symm, ?_,
      fun fd => ?_⟩
    · rw [if_pos hasked, hfds]
    · rw [hlookup]
      simp only [hasked, true_and]
  · refine ⟨s, if_neg hasked, (if_neg hasked).symm, (if_neg hasked).symm, fun fd => ?_⟩
    rw [if_neg fun hand => hasked hand.1]

theorem redirectFile_error (h : ¬ (asked → Served k s.table.fds call target)) :
    asked ∧ ∃ errno s', redirectFile k asked call target f s = .error (errno, s') ∧
      s'.table.lookup target = s.table.lookup target := by
  obtain ⟨hasked, h⟩ := Classical.not_imp.1 h
  obtain ⟨errno, t', herror, hlookup⟩ := openOnto_error h
  refine ⟨hasked, errno, { s with table := t' }, ?_, hlookup⟩
  unfold redirectFile
  rw [if_pos hasked, herror]

theorem joinPipe_ok (h : asked → s.table.lookup fid ≠ none ∧ k.dup2Fails fid target = none) :
    ∃ s', joinPipe k asked fid target s = .ok s' ∧ s'.command = s.command ∧
      ∀ fd, s'.table.lookup fd = if asked ∧ fd = target then s.table.lookup fid else s.table.lookup fd := by
  unfold joinPipe
  by_cases hasked : asked
  · obtain ⟨t', hdup, _, hlookup⟩ := dup2_ok (h hasked).1 (h hasked).2
    refine ⟨{ s with table := t' }, by rw [if_pos hasked, hdup], rfl, fun fd => ?_⟩
    rw [hlookup]
    simp only [hasked, true_and]
  · exact ⟨s, if_neg hasked, rfl, fun fd => by rw [if_neg fun hand => hasked hand.1]⟩

/-- `dup2` fails on a descriptor that is not open, or is to be duplicated onto another one. -/
theorem joinPipe_error (h : ¬ (asked → s.table.lookup fid ≠ none ∧ k.dup2Fails fid target = none)) :
    asked ∧ (fid = target → s.table.lookup target = none) ∧
      ∃ errno, joinPipe k asked fid target s = .error (errno, s) := by
  obtain ⟨hasked, h⟩ := Classical.not_imp.1 h
  obtain ⟨errno, herror⟩ := dup2_error h
  refine ⟨hasked, ?_, errno, ?_⟩
  · rintro rfl
    rw [k.dup2Fails_same] at h
    exact of_not_not fun hopen => h ⟨hopen, rfl⟩
  · unfold joinPipe
    rw [if_pos hasked, herror]

variable {c : Command} (same : SameRedirections c s.command)

include same

theorem fixOutputPipe_eq : fixOutputPipe k s = joinPipe k (c.outputMode = .pipe) c.outputFid stdoutFileno s := by
  unfold fixOutputPipe joinPipe
  rw [same.outputMode]
  by_cases hpipe : c.outputMode = .pipe
  · rw [if_pos hpipe, if_pos hpipe, same.outputFid hpipe]
  · rw [if_neg hpipe, if_neg hpipe]

theorem fixInputPipe_eq : fixInputPipe k s = joinPipe k (c.inputMode = .pipe) c.inputFid stdinFileno s := by
  unfold fixInputPipe joinPipe
  rw [same.inputMode]
  by_cases hpipe : c.inputMode = .pipe
  · rw [if_pos hpipe, if_pos hpipe, same.inputFid hpipe]
  · rw [if_neg hpipe, if_neg hpipe]

end Executor

/-! ## Redirections in place -/

/-- The descriptors are as the command asks for: its input comes from the file or the pipe, and its output
goes to the file or the pipe. `ends` says which of the shell's descriptors are ends of its pipes. -/
structure InPlace (ends : Int → Option PipeEnd) (c : Command) (t : DescriptorTable Description) : Prop where
  inputFile : c.inputMode = .file → t.lookup stdinFileno = some (.opened c.inputCall)
  inputPipe : c.inputMode = .pipe → ends c.inputFid = some .read ∧ t.lookup stdinFileno = some (.inherited c.inputFid)
  outputFile : c.outputsToFile → t.lookup stdoutFileno = some (.opened c.outputCall)
  outputPipe : c.outputMode = .pipe →
    ends c.outputFid = some .write ∧ t.lookup stdoutFileno = some (.inherited c.outputFid)

/-- The descriptors that are open when the input file, if there is to be one, is in place. -/
def Command.fdsAfterInput (c : Command) (fds : Finset Int) : Finset Int :=
  if c.inputMode = .file then insert stdinFileno (insert (lowestUnused fds) fds) else fds

/-- None of the calls that the command asks for fails, its pipe ends are open ends of pipes of their kind, and
they are not where another redirection goes before they are used. -/
structure Granted (k : ChildKernel) (ends : Int → Option PipeEnd) (fds : Finset Int) (c : Command) : Prop where
  inputFile : c.inputMode = .file → Served k fds c.inputCall stdinFileno
  inputPipe : c.inputMode = .pipe → ends c.inputFid = some .read ∧ c.inputFid ∈ fds ∧
    k.dup2Fails c.inputFid stdinFileno = none ∧ ¬ (c.outputMode ≠ .stdout ∧ c.inputFid = stdoutFileno)
  outputFile : c.outputsToFile → Served k (c.fdsAfterInput fds) c.outputCall stdoutFileno
  outputPipe : c.outputMode = .pipe → ends c.outputFid = some .write ∧ c.outputFid ∈ fds ∧
    k.dup2Fails c.outputFid stdoutFileno = none ∧ ¬ (c.inputMode = .file ∧ c.outputFid = stdinFileno)

theorem lookup_start (c : Command) (fds : Finset Int) (fd : Int) :
    (Child.start c fds).table.lookup fd = if fd ∈ fds then some (.inherited fd) else none := rfl

/-- The descriptors after the redirections to files: what is left of the inherited ones is at its place. -/
structure FilesOpened (c : Command) (fds : Finset Int) (t : DescriptorTable Description) : Prop where
  input : c.inputMode = .file → t.lookup stdinFileno = some (.opened c.inputCall)
  output : c.outputsToFile → t.lookup stdoutFileno = some (.opened c.outputCall)
  inherited : ∀ fd fd', t.lookup fd = some (.inherited fd') ↔
    fd' = fd ∧ fd ∈ fds ∧ ¬ (c.inputMode = .file ∧ fd = stdinFileno) ∧ ¬ (c.outputsToFile ∧ fd = stdoutFileno)

variable {ends : Int → Option PipeEnd} {c : Command} {fds : Finset Int}

/-- The output file is not opened where an inherited descriptor is, nor at the standard input when that is the
input file. -/
theorem lowestUnused_fdsAfterInput : lowestUnused (c.fdsAfterInput fds) ∉ fds ∧
    (c.inputMode = .file → lowestUnused (c.fdsAfterInput fds) ≠ stdinFileno) := by
  have hfresh := lowestUnused_notMem (c.fdsAfterInput fds)
  generalize lowestUnused (c.fdsAfterInput fds) = fd at hfresh ⊢
  by_cases hfile : c.inputMode = .file
  · simp only [Command.fdsAfterInput, hfile, if_true, Finset.mem_insert, not_or] at hfresh
    exact ⟨hfresh.2.2, fun _ => hfresh.1⟩
  · rw [Command.fdsAfterInput, if_neg hfile] at hfresh
    exact ⟨hfresh, fun h => absurd h hfile⟩

theorem FilesOpened.of_lookup {t₁ t₂ : DescriptorTable Description}
    (lookup₁ : ∀ fd, t₁.lookup fd = if c.inputMode = .file ∧ (fd = stdinFileno ∨ fd = lowestUnused fds)
      then some (.opened c.inputCall) else if fd ∈ fds then some (.inherited fd) else none)
    (lookup₂ : ∀ fd, t₂.lookup fd = if c.outputsToFile ∧ (fd = stdoutFileno ∨ fd = lowestUnused (c.fdsAfterInput fds))
      then some (.opened c.outputCall) else t₁.lookup fd) :
    FilesOpened c fds t₂ where
  input hfile := by
    have hne : ¬ (c.outputsToFile ∧
        (stdinFileno = stdoutFileno ∨ stdinFileno = lowestUnused (c.fdsAfterInput fds))) := by
      rintro ⟨_, heq | heq⟩
      · exact absurd heq (by decide)
      · exact lowestUnused_fdsAfterInput.2 hfile heq.symm
    rw [lookup₂, if_neg hne, lookup₁, if_pos ⟨hfile, .inl rfl⟩]
  output hfile := by rw [lookup₂, if_pos ⟨hfile, .inl rfl⟩]
  inherited fd fd' := by
    have hin : fd ∈ fds → fd ≠ lowestUnused fds := fun hmem heq => lowestUnused_notMem fds (heq ▸ hmem)
    have hout : fd ∈ fds → fd ≠ lowestUnused (c.fdsAfterInput fds) := fun hmem heq =>
      lowestUnused_fdsAfterInput.1 (heq ▸ hmem)
    rw [lookup₂, lookup₁]
    split
    · grind
    · split
      · grind
      · grind

namespace Executor

/-- The input file of a command. -/
theorem fixInputFile_ok (hin : c.inputMode = .file → Served k fds c.inputCall stdinFileno) :
    ∃ s₁, fixInputFile k (.start c fds) = .ok s₁ ∧ SameRedirections c s₁.command ∧
      s₁.table.fds = c.fdsAfterInput fds ∧
      ∀ fd, s₁.table.lookup fd = if c.inputMode = .file ∧ (fd = stdinFileno ∨ fd = lowestUnused fds)
        then some (.opened c.inputCall) else if fd ∈ fds then some (.inherited fd) else none := by
  obtain ⟨s₁, h₁, hcommand, hfds, hlookup⟩ := redirectFile_ok (s := .start c fds)
    (f := fun ifile => { c with inputFid := ifile }) hin
  exact ⟨s₁, h₁, hcommand ▸ SameRedirections.inputFile c _, hfds, hlookup⟩

theorem files_ok (hin : c.inputMode = .file → Served k fds c.inputCall stdinFileno)
    (hout : c.outputsToFile → Served k (c.fdsAfterInput fds) c.outputCall stdoutFileno) :
    ∃ s₁ s₂, fixInputFile k (.start c fds) = .ok s₁ ∧ fixOutputFile k s₁ = .ok s₂ ∧
      SameRedirections c s₂.command ∧ FilesOpened c fds s₂.table := by
  obtain ⟨s₁, h₁, same, hfds, lookup₁⟩ := fixInputFile_ok hin
  rw [← same.outputsToFile, ← same.outputCall, ← hfds] at hout
  obtain ⟨s₂, h₂, hcommand, _, lookup₂⟩ := redirectFile_ok (s := s₁)
    (f := fun ofile => { s₁.command with outputFid := ofile }) hout
  simp only [same.outputsToFile, same.outputCall, hfds] at lookup₂
  exact ⟨s₁, s₂, h₁, h₂, same.trans (hcommand ▸ SameRedirections.outputFile s₁.command _), .of_lookup lookup₁ lookup₂⟩

/-- A file that cannot be opened or put in place is missing at its descriptor. -/
theorem files_error (h : ¬ ((c.inputMode = .file → Served k fds c.inputCall stdinFileno) ∧
      (c.outputsToFile → Served k (c.fdsAfterInput fds) c.outputCall stdoutFileno))) :
    ¬ InPlace ends c (fixupStdinOut k (.start c fds)).2.table := by
  intro hplace
  by_cases hin : c.inputMode = .file → Served k fds c.inputCall stdinFileno
  case neg =>
    obtain ⟨hfile, errno, s₁, h₁, hlookup⟩ := redirectFile_error (s := .start c fds)
      (f := fun ifile => { c with inputFid := ifile }) hin
    have hfirst : fixInputFile k (.start c fds) = .error (errno, s₁) := h₁
    have hresult : (fixupStdinOut k (.start c fds)).2 = s₁ := by
      simp only [fixupStdinOut, hfirst, bind, Except.bind]
    have hinput := hplace.inputFile hfile
    rw [hresult, hlookup, lookup_start] at hinput
    split at hinput
    · cases hinput
    · cases hinput
  case pos =>
    have hout := fun hout => h ⟨hin, hout⟩
    obtain ⟨s₁, h₁, same, hfds, lookup₁⟩ := fixInputFile_ok hin
    rw [← same.outputsToFile, ← same.outputCall, ← hfds] at hout
    obtain ⟨hfile, errno, s₂, h₂, hlookup⟩ := redirectFile_error (s := s₁)
      (f := fun ofile => { s₁.command with outputFid := ofile }) hout
    have hsecond : fixOutputFile k s₁ = .error (errno, s₂) := h₂
    have hresult : (fixupStdinOut k (.start c fds)).2 = s₂ := by
      simp only [fixupStdinOut, h₁, hsecond, bind, Except.bind]
    have houtput := hplace.outputFile (same.outputsToFile.1 hfile)
    rw [hresult, hlookup, lookup₁] at houtput
    split at houtput
    · exact absurd (Description.opened.inj (Option.some.inj houtput)) c.inputCall_ne_outputCall
    · split at houtput
      · cases houtput
      · cases houtput

end Executor

/-! ## Redirections to pipes -/

section Pipes

variable {t₂ t₃ t₄ : DescriptorTable Description} (hfiles : FilesOpened c fds t₂)
  (lookup₃ : ∀ fd, t₃.lookup fd = if c.outputMode = .pipe ∧ fd = stdoutFileno
    then t₂.lookup c.outputFid else t₂.lookup fd)
  (lookup₄ : ∀ fd, t₄.lookup fd = if c.inputMode = .pipe ∧ fd = stdinFileno
    then t₃.lookup c.inputFid else t₃.lookup fd)

include hfiles

theorem Granted.lookup_outputFid (h : Granted k ends fds c) (hpipe : c.outputMode = .pipe) :
    t₂.lookup c.outputFid = some (.inherited c.outputFid) := by
  obtain ⟨_, hmem, _, hfree⟩ := h.outputPipe hpipe
  exact (hfiles.inherited _ _).2 ⟨rfl, hmem, hfree, fun hand => c.not_outputsToFile hpipe hand.1⟩

include lookup₃

theorem Granted.lookup_inputFid (h : Granted k ends fds c) (hpipe : c.inputMode = .pipe) :
    t₃.lookup c.inputFid = some (.inherited c.inputFid) := by
  obtain ⟨_, hmem, _, hfree⟩ := h.inputPipe hpipe
  have hout : ∀ {P : Prop}, (P → c.outputMode ≠ .stdout) → ¬ (P ∧ c.inputFid = stdoutFileno) := fun hP hand =>
    hfree ⟨hP hand.1, hand.2⟩
  have hfile : ¬ (c.inputMode = .file ∧ c.inputFid = stdinFileno) := fun hand => by
    rw [hpipe] at hand
    cases hand.1
  rw [lookup₃, if_neg (hout fun hpipe => by simp [hpipe])]
  refine (hfiles.inherited _ _).2 ⟨rfl, hmem, hfile, hout ?_⟩
  rintro (h | h)
  · simp [h]
  · simp [h]

include lookup₄

/-- The redirections that are all made are in place when no pipe end was taken away. -/
theorem inPlace_iff (hinputFile : c.inputMode = .file → Served k fds c.inputCall stdinFileno)
    (houtputFile : c.outputsToFile → Served k (c.fdsAfterInput fds) c.outputCall stdoutFileno)
    (hinputPipe : c.inputMode = .pipe → k.dup2Fails c.inputFid stdinFileno = none)
    (houtputPipe : c.outputMode = .pipe → k.dup2Fails c.outputFid stdoutFileno = none) :
    InPlace ends c t₄ ↔ Granted k ends fds c := by
  have hstdout : t₄.lookup stdoutFileno = t₃.lookup stdoutFileno := by
    rw [lookup₄, if_neg fun hand => absurd hand.2 (by decide)]
  have hstdin : c.inputMode ≠ .pipe → t₄.lookup stdinFileno = t₂.lookup stdinFileno := fun hpipe => by
    rw [lookup₄, if_neg fun hand => hpipe hand.1, lookup₃, if_neg fun hand => absurd hand.2 (by decide)]
  have hinput : c.inputMode = .pipe → t₄.lookup stdinFileno = t₃.lookup c.inputFid := fun hpipe => by
    rw [lookup₄, if_pos ⟨hpipe, rfl⟩]
  have houtput : c.outputMode = .pipe → t₄.lookup stdoutFileno = t₂.lookup c.outputFid := fun hpipe => by
    rw [hstdout, lookup₃, if_pos ⟨hpipe, rfl⟩]
  constructor
  · intro h
    refine ⟨hinputFile, fun hpipe => ?_, houtputFile, fun hpipe => ?_⟩
    · obtain ⟨hread, hlookup⟩ := h.inputPipe hpipe
      rw [hinput hpipe, lookup₃] at hlookup
      split at hlookup
      case isTrue hand =>
        -- The read end and the write end are at one descriptor.
        have hsame := ((hfiles.inherited _ _).1 hlookup).1
        rw [hsame, (h.outputPipe hand.1).1] at hread
        cases hread
      case isFalse hnot =>
        obtain ⟨_, hmem, _, hfile⟩ := (hfiles.inherited _ _).1 hlookup
        refine ⟨hread, hmem, hinputPipe hpipe, fun hand => ?_⟩
        rcases c.outputMode_cases hand.1 with hto | hto
        · exact hfile ⟨hto, hand.2⟩
        · exact hnot ⟨hto, hand.2⟩
    · obtain ⟨hwrite, hlookup⟩ := h.outputPipe hpipe
      rw [houtput hpipe, hfiles.inherited] at hlookup
      exact ⟨hwrite, hlookup.2.1, houtputPipe hpipe, hlookup.2.2.1⟩
  · intro h
    exact {
      inputFile := fun hfile => by rw [hstdin (by simp [hfile]), hfiles.input hfile]
      inputPipe := fun hpipe =>
        ⟨(h.inputPipe hpipe).1, (hinput hpipe).trans (h.lookup_inputFid hfiles lookup₃ hpipe)⟩
      outputFile := fun hfile => by
        rw [hstdout, lookup₃, if_neg fun hand => c.not_outputsToFile hand.1 hfile, hfiles.output hfile]
      outputPipe := fun hpipe =>
        ⟨(h.outputPipe hpipe).1, (houtput hpipe).trans (h.lookup_outputFid hfiles hpipe)⟩ }

omit lookup₃ lookup₄

end Pipes

namespace Executor

/-- A pipe end that cannot be put at the standard output leaves another description there, or none. -/
theorem outputPipe_refused {t₂ : DescriptorTable Description} (hfiles : FilesOpened c fds t₂)
    (hrefused : ¬ (c.outputMode = .pipe → t₂.lookup c.outputFid ≠ none ∧ k.dup2Fails c.outputFid stdoutFileno = none))
    (hself : c.outputFid = stdoutFileno → t₂.lookup stdoutFileno = none) :
    InPlace ends c t₂ ↔ Granted k ends fds c := by
  have hpipe := (Classical.not_imp.1 hrefused).1
  refine iff_of_false (fun h => ?_) fun h => hrefused fun _ => ?_
  · have hlookup := (h.outputPipe hpipe).2
    have hfid := ((hfiles.inherited _ _).1 hlookup).1
    rw [hself hfid] at hlookup
    cases hlookup
  · exact ⟨(h.lookup_outputFid hfiles hpipe).trans_ne (Option.some_ne_none _), (h.outputPipe hpipe).2.2.1⟩

/-- The same at the standard input, once the output is in place. -/
theorem inputPipe_refused {t₂ t₃ : DescriptorTable Description} (hfiles : FilesOpened c fds t₂)
    (lookup₃ : ∀ fd, t₃.lookup fd = if c.outputMode = .pipe ∧ fd = stdoutFileno
      then t₂.lookup c.outputFid else t₂.lookup fd)
    (hrefused : ¬ (c.inputMode = .pipe → t₃.lookup c.inputFid ≠ none ∧ k.dup2Fails c.inputFid stdinFileno = none))
    (hself : c.inputFid = stdinFileno → t₃.lookup stdinFileno = none) :
    InPlace ends c t₃ ↔ Granted k ends fds c := by
  have hpipe := (Classical.not_imp.1 hrefused).1
  refine iff_of_false (fun h => ?_) fun h => hrefused fun _ => ?_
  · have hlookup := (h.inputPipe hpipe).2
    have hfid : c.inputFid = stdinFileno := by
      have hlookup₂ := lookup₃ stdinFileno
      rw [if_neg fun hand => absurd hand.2 (by decide), hlookup] at hlookup₂
      exact ((hfiles.inherited _ _).1 hlookup₂.symm).1
    rw [hself hfid] at hlookup
    cases hlookup
  · exact ⟨(h.lookup_inputFid hfiles lookup₃ hpipe).trans_ne (Option.some_ne_none _), (h.inputPipe hpipe).2.2.1⟩

/-- The redirections of `fixupStdinOut` are all in place in the end exactly when they were granted. -/
theorem fixupStdinOut_inPlace : InPlace ends c (fixupStdinOut k (.start c fds)).2.table ↔ Granted k ends fds c := by
  by_cases hserved : (c.inputMode = .file → Served k fds c.inputCall stdinFileno) ∧
      (c.outputsToFile → Served k (c.fdsAfterInput fds) c.outputCall stdoutFileno)
  case neg => exact iff_of_false (files_error hserved) fun h => hserved ⟨h.inputFile, h.outputFile⟩
  case pos =>
    obtain ⟨s₁, s₂, h₁, h₂, same, hfiles⟩ := files_ok hserved.1 hserved.2
    by_cases houtput : c.outputMode = .pipe →
        s₂.table.lookup c.outputFid ≠ none ∧ k.dup2Fails c.outputFid stdoutFileno = none
    case neg =>
      obtain ⟨_, hself, errno, h₃⟩ := joinPipe_error houtput
      rw [← fixOutputPipe_eq same] at h₃
      have hresult : (fixupStdinOut k (.start c fds)).2 = s₂ := by
        simp only [fixupStdinOut, h₁, h₂, h₃, bind, Except.bind]
      rw [hresult]
      exact outputPipe_refused hfiles houtput hself
    case pos =>
      obtain ⟨s₃, h₃, hcommand, lookup₃⟩ := joinPipe_ok houtput
      rw [← fixOutputPipe_eq same] at h₃
      have same₃ : SameRedirections c s₃.command := hcommand ▸ same
      by_cases hinput : c.inputMode = .pipe →
          s₃.table.lookup c.inputFid ≠ none ∧ k.dup2Fails c.inputFid stdinFileno = none
      case neg =>
        obtain ⟨_, hself, errno, h₄⟩ := joinPipe_error hinput
        rw [← fixInputPipe_eq same₃] at h₄
        have hresult : (fixupStdinOut k (.start c fds)).2 = s₃ := by
          simp only [fixupStdinOut, h₁, h₂, h₃, h₄, bind, Except.bind]
        rw [hresult]
        exact inputPipe_refused hfiles lookup₃ hinput hself
      case pos =>
        obtain ⟨s₄, h₄, _, lookup₄⟩ := joinPipe_ok hinput
        rw [← fixInputPipe_eq same₃] at h₄
        have hresult : (fixupStdinOut k (.start c fds)).2 = s₄ := by
          simp only [fixupStdinOut, h₁, h₂, h₃, h₄, bind, Except.bind]
        rw [hresult]
        exact inPlace_iff hfiles lookup₃ lookup₄ hserved.1 hserved.2 (fun hpipe => (hinput hpipe).2)
          fun hpipe => (houtput hpipe).2

/-- The command as the child gives it to `fixupStdinOut`. -/
def started (k : ChildKernel) (c : Command) : Command := { c with parseState := .executing, pid := k.pid }

theorem childExecFunction_null (h : c.argv = none) : childExecFunction k (.start c fds) = none := by
  simp [childExecFunction, Child.start, Command.getExecutable, h]

/-- Whatever the redirections report, `execvp` is called with the descriptors that they leave. -/
theorem childExecFunction_execvp (h : c.argv ≠ none) (k : ChildKernel) (fds : Finset Int) :
    ∃ e x, childExecFunction k (.start c fds) = some e ∧ e.execvp = some x ∧
      x.table = (fixupStdinOut k (.start (started k c) fds)).2.table := by
  obtain ⟨argv, hargv⟩ := Option.ne_none_iff_exists'.1 h
  obtain ⟨token, htoken⟩ : ∃ token, c.getExecutable = some token := by
    cases argv with
    | nil => exact ⟨[], by simp [Command.getExecutable, hargv]⟩
    | cons word argv => exact ⟨word, by simp [Command.getExecutable, hargv]⟩
  have hstart : (Child.start c fds).command.getExecutable = some token := htoken
  unfold childExecFunction
  rw [hstart]
  exact ⟨_, _, rfl, rfl, rfl⟩

/-- The child reaches `execvp` with the redirections of its command in place, or exits with a status that is
not zero. -/
def ExecutedInPlace (k : ChildKernel) (ends : Int → Option PipeEnd) (c : Command) (fds : Finset Int) : Prop :=
  ∃ e, childExecFunction k (.start c fds) = some e ∧ (∀ x, e.execvp = some x → InPlace ends c x.table) ∧
    (e.execvp = none → ∃ status, e.status = some status ∧ status ≠ 0)

/-- Nothing stops a child whose redirections fail: it executes its program as it should exactly when they are
all granted to it, and its command has arguments. -/
theorem executedInPlace_iff (k : ChildKernel) (ends : Int → Option PipeEnd) (c : Command) (fds : Finset Int) :
    ExecutedInPlace k ends c fds ↔ c.argv ≠ none ∧ Granted k ends fds c := by
  -- The state and the pid of the command have no part in the redirections.
  have hgranted : Granted k ends fds (started k c) ↔ Granted k ends fds c :=
    ⟨fun h => ⟨h.inputFile, h.inputPipe, h.outputFile, h.outputPipe⟩,
      fun h => ⟨h.inputFile, h.inputPipe, h.outputFile, h.outputPipe⟩⟩
  have hplace : ∀ t, InPlace ends (started k c) t ↔ InPlace ends c t := fun t =>
    ⟨fun h => ⟨h.inputFile, h.inputPipe, h.outputFile, h.outputPipe⟩,
      fun h => ⟨h.inputFile, h.inputPipe, h.outputFile, h.outputPipe⟩⟩
  by_cases hargv : c.argv = none
  case pos =>
    refine iff_of_false ?_ fun h => h.1 hargv
    rintro ⟨e, he, _⟩
    rw [childExecFunction_null hargv] at he
    cases he
  case neg =>
    obtain ⟨e, x, he, hx, htable⟩ := childExecFunction_execvp hargv k fds
    rw [and_iff_right hargv, ← hgranted, ← fixupStdinOut_inPlace, hplace, ← htable]
    constructor
    · rintro ⟨e', he', hexecvp, _⟩
      obtain rfl : e = e' := Option.some.inj (he.symm.trans he')
      exact hexecvp x hx
    · intro h
      refine ⟨e, he, fun x' hx' => ?_, fun hnone => ?_⟩
      · obtain rfl : x = x' := Option.some.inj (hx.symm.trans hx')
        exact h
      · rw [hx] at hnone
        cases hnone

/-- `cat < f`, in a shell with the standard descriptors and no pipe. -/
def catInput : Command :=
  { argv := some [['c', 'a', 't']], inputMode := .file, inputFilename := ['f'] }

/-- No file is there, and nothing else fails. -/
def noFile : ChildKernel where
  openFails _ := some 2
  dup2Fails _ _ := none
  execvpFails := none
  pid := 100
  dup2Fails_same _ := rfl

/-- Without the file, `cat` reads what the shell does. -/
theorem not_executedInPlace_noFile :
    ∃ e x, childExecFunction noFile (.start catInput {0, 1, 2}) = some e ∧ e.execvp = some x ∧
      x.table.lookup stdinFileno = some (.inherited 0) ∧
      ¬ ExecutedInPlace noFile (fun _ => none) catInput {0, 1, 2} := by
  refine ⟨_, _, rfl, rfl, by decide, ?_⟩
  rintro ⟨e, he, hexecvp, _⟩
  obtain rfl := Option.some.inj he
  exact absurd ((hexecvp _ rfl).inputFile rfl) (by decide)

end Executor

end UnixSysProg.Osh
