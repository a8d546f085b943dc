/-
What a call of the parser takes from a line. The segments that it reads account for every token it takes, with
one token too many when the last redirection of the line has no file; the tokens behind the fiftieth segment
are left, and so is the whole line when its first command is blank.
-/
import UnixSysProg.Osh.RoundTrip

namespace UnixSysProg.Osh

/-! ## Tokens and segments -/

/-- The redirections that a list of tokens starts with end in one without a file. -/
def lacksFile : List Word → Prop
  | [] => False
  | [token] => (Redirection.ofToken (trim token)).isSome
  | token :: _ :: rest => (Redirection.ofToken (trim token)).isSome ∧ lacksFile rest

/-- The tokens behind the first `n` segments. -/
def remaining : Nat → List Word → List Word
  | 0, tokens => tokens
  | n + 1, tokens => remaining n (splitSegment tokens).2

/-- One of the first `n` segments has a redirection without a file. -/
def LacksFile : Nat → List Word → Prop
  | 0, _ => False
  | n + 1, tokens => lacksFile (tokens.dropWhile isWord) ∨ LacksFile n (splitSegment tokens).2

theorem remaining_nil (n : Nat) : remaining n [] = [] := by
  induction n with
  | zero => rfl
  | succ n ih => exact ih

theorem not_lacksFile_nil (n : Nat) : ¬ LacksFile n [] := by
  induction n with
  | zero => exact id
  | succ n ih => exact fun h => h.elim id ih

def redirectionTokens (rs : List (Redirection × Word)) : List Word := rs.flatMap fun x => [x.1.symbol, x.2]

/-- The redirections account for their tokens, and for an empty file name when there is none. -/
theorem splitRedirections_account (tokens : List Word) :
    (¬ lacksFile tokens ∧ tokens.map trim =
        redirectionTokens (splitRedirections tokens).1 ++ (splitRedirections tokens).2.map trim) ∨
      (lacksFile tokens ∧ (splitRedirections tokens).2 = [] ∧
        tokens.map trim ++ [[]] = redirectionTokens (splitRedirections tokens).1) := by
  fun_induction splitRedirections tokens with
  | case1 => exact .inl ⟨id, rfl⟩
  | case2 token hr => exact .inl ⟨by simp [lacksFile, hr], by simp [redirectionTokens]⟩
  | case3 token r hr =>
    exact .inr ⟨by simp [lacksFile, hr], rfl, by simp [redirectionTokens, Redirection.eq_symbol hr]⟩
  | case4 token file rest hr => exact .inl ⟨by simp [lacksFile, hr], by simp [redirectionTokens]⟩
  | case5 token file rest r hr redirections rest' hsplit ih =>
    rw [hsplit] at ih
    rcases ih with ⟨hlacks, htokens⟩ | ⟨hlacks, hrest, htokens⟩
    · exact .inl ⟨by simp [lacksFile, hr, hlacks],
        by simp [redirectionTokens, Redirection.eq_symbol hr, htokens]⟩
    · exact .inr ⟨by simp [lacksFile, hr, hlacks], hrest,
        by simpa [redirectionTokens, Redirection.eq_symbol hr] using htokens⟩

theorem splitEnding_account {tokens : List Word} (hend : (splitEnding tokens).1 ≠ .word) :
    tokens.map trim = (splitEnding tokens).1.tokens ++ (splitEnding tokens).2.map trim := by
  cases tokens with
  | nil => rfl
  | cons token rest =>
    cases hk : Connector.ofToken (trim token) with
    | none => exact absurd (by simp [splitEnding, hk]) hend
    | some k => simp [splitEnding, Ending.tokens, Connector.eq_symbol hk]

theorem splitSegment_account {tokens : List Word} (hend : (splitSegment tokens).1.ending ≠ .word) :
    (¬ lacksFile (tokens.dropWhile isWord) ∧
        tokens.map trim = (splitSegment tokens).1.tokens ++ (splitSegment tokens).2.map trim) ∨
      (lacksFile (tokens.dropWhile isWord) ∧ (splitSegment tokens).2 = [] ∧
        tokens.map trim ++ [[]] = (splitSegment tokens).1.tokens) := by
  have hwords : tokens.map trim = (tokens.takeWhile isWord).map trim ++ (tokens.dropWhile isWord).map trim := by
    rw [← List.map_append, List.takeWhile_append_dropWhile]
  rcases splitRedirections_account (tokens.dropWhile isWord) with ⟨hlacks, htokens⟩ | ⟨hlacks, hrest, htokens⟩
  · refine .inl ⟨hlacks, ?_⟩
    rw [hwords, htokens, splitEnding_account hend]
    simp [splitSegment, Segment.tokens, redirectionTokens]
  · refine .inr ⟨hlacks, by simp [splitSegment, hrest, splitEnding], ?_⟩
    rw [hwords, List.append_assoc, htokens]
    simp [splitSegment, Segment.tokens, redirectionTokens, hrest, splitEnding, Ending.tokens]

theorem segments_account (n : Nat) {tokens : List Word} (hends : ∀ seg ∈ segments n tokens, seg.ending ≠ .word) :
    (¬ LacksFile n tokens ∧ tokens.map trim = (segments n tokens).flatMap Segment.tokens ++ (remaining n tokens).map trim) ∨
      (LacksFile n tokens ∧ remaining n tokens = [] ∧
        tokens.map trim ++ [[]] = (segments n tokens).flatMap Segment.tokens) := by
  induction n generalizing tokens with
  | zero => exact .inl ⟨id, by simp [segments, remaining]⟩
  | succ n ih =>
    by_cases hne : tokens = []
    · subst hne
      exact .inl ⟨not_lacksFile_nil _, by simp [segments, remaining_nil]⟩
    · rw [segments_succ n hne] at hends ⊢
      have hend := hends _ List.mem_cons_self
      rw [if_neg hend] at hends ⊢
      have hrest := ih fun seg hseg => hends seg (List.mem_cons_of_mem _ hseg)
      rw [LacksFile, remaining, List.flatMap_cons]
      rcases splitSegment_account hend with ⟨hlacks, htokens⟩ | ⟨hlacks, hnone, htokens⟩
      · rcases hrest with ⟨hlacks', htokens'⟩ | ⟨hlacks', hnone', htokens'⟩
        · exact .inl ⟨not_or.2 ⟨hlacks, hlacks'⟩, by rw [htokens, htokens', List.append_assoc]⟩
        · exact .inr ⟨.inr hlacks', hnone', by rw [htokens, List.append_assoc, htokens']⟩
      · rw [hnone]
        refine .inr ⟨.inl hlacks, remaining_nil n, ?_⟩
        cases n <;> simp [htokens, segments]

/-! ## What is left of the line -/

variable {p : Parser} {segs : List Segment}

theorem Accepted.ending {fed : Bool} (h : Accepted fed segs) : ∀ seg ∈ segs, seg.ending ≠ .word := by
  induction segs generalizing fed with
  | nil => simp
  | cons seg segs ih => exact List.forall_mem_cons.2 ⟨h.2.1, ih h.2.2⟩

namespace Parser

variable {fuel : Nat} {tokens : List Word}

/-- Of an accepted line the parser leaves what is behind its fiftieth segment. -/
theorem commandListLoop_remaining (hfuel : tokens.length < fuel) (i : Nat) (chain : List Command)
    (hblank : ¬ p.ReadsBlank (segments i tokens)) (haccepted : Accepted p.fed (segments i tokens)) :
    ∃ result, commandListLoop fuel i p ⟨tokens⟩ chain .success = some (⟨remaining i tokens⟩, result) := by
  induction i generalizing p tokens chain with
  | zero => exact ⟨_, rfl⟩
  | succ i ih =>
    by_cases hne : tokens = []
    · subst hne
      exact ⟨_, by rw [remaining_nil]; rfl⟩
    · rw [segments_succ i hne] at hblank haccepted
      rw [readsBlank_cons] at hblank
      obtain ⟨hvalid, hend, haccepted⟩ := haccepted
      rw [if_neg hend] at haccepted
      obtain ⟨h, c, hargv, hstate, hends⟩ := initArgv_ends hne hfuel hblank
      obtain ⟨command, hcommand⟩ := Option.isSome_iff_exists.1 (Segment.command_isSome.2 hvalid)
      have hfed := fed_of_denotes (Segment.denotes_of_command hcommand)
      rw [initCommand_eq] at hargv
      rw [commandListLoop, initCommand_eq]
      simp only [InputHandler.isEndOfLine, hargv, List.isEmpty_iff, hne, if_false, and_self, if_true, hstate]
      rw [hcommand] at hends
      generalize commandLoop fuel h c .success = out at hends ⊢
      cases hends with
      | stuck hword => exact absurd hword hend
      | parsed _ hparsed =>
        simp only [hparsed, and_self, if_true]
        exact ih (lt_of_le_of_lt (splitSegment_length tokens) hfuel) _ (not_readsBlank command _) (by rwa [hfed])

/-- What `getCommandList` leaves of a line that it accepts. -/
theorem tokens_of_getCommandList {out : InputHandler × Result} (hout : p.getCommandList fuel ⟨tokens⟩ = some out)
    (hblank : ¬ p.ReadsBlank (segments 50 tokens)) (haccepted : Accepted p.fed (segments 50 tokens)) :
    out.1.tokens = remaining 50 tokens := by
  have hmore := getCommandList_mono hout (tokens.length + 1)
  have hfuel : tokens.length < fuel + (tokens.length + 1) := by omega
  obtain ⟨result, hresult⟩ := commandListLoop_remaining hfuel 50 [] hblank haccepted
  rw [getCommandList, hresult] at hmore
  rw [← Option.some.inj hmore]

/-- A line that begins with a blank command is left as it is. -/
theorem tokens_of_blank {out : InputHandler × Result} (hout : p.getCommandList fuel ⟨tokens⟩ = some out)
    (hblank : p.ReadsBlank (segments 50 tokens)) : tokens ≠ [] ∧ out.1.tokens = tokens := by
  have hne : tokens ≠ [] := by
    rintro rfl
    obtain ⟨seg, hseg, _⟩ := hblank
    cases hseg
  rw [segments_succ 49 hne, readsBlank_cons] at hblank
  rw [getCommandList, commandListLoop_blank hne hblank] at hout
  cases hout
  exact ⟨hne, rfl⟩

end Parser

end UnixSysProg.Osh
