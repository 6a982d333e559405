import MFile.Proofs.Lexing.Origins
import MFile.Proofs.Lexing.Reached
import MFile.Proofs.Text.Quoted

/-!
Literals round trip: the raw text of a literal is its value, quoted. The scanner stops at the quote
that closes the run, so what it has passed is the doubled form of some text, and reading a doubled
text gives that text back. Words of a command are read as char arrays too, but in them quoted runs
and bare text mix, so their values do not tell what was written.
-/

namespace MFile

open Lexing Text

def Kind.quote? : Kind → Option Char
  | .charArray => some '\''
  | .string => some '"'
  | _ => none

variable {c quote : Char} {kind : Kind}

theorem Kind.quote?_eq_some (h : kind.quote? = some quote) :
    (kind = .charArray ∧ quote = '\'') ∨ (kind = .string ∧ quote = '"') := by
  cases kind <;> cases h
  · exact .inl ⟨rfl, rfl⟩
  · exact .inr ⟨rfl, rfl⟩

theorem Kind.valueOf_quoted (h : kind.quote? = some quote) (raw : String) :
    kind.valueOf raw = dequote quote raw := by
  obtain ⟨rfl, rfl⟩ | ⟨rfl, rfl⟩ := Kind.quote?_eq_some h <;> rfl

namespace Lexing

variable {cs : List Char} {more n : Nat} {mode : Mode} {octave : Bool} {lexeme : Lexeme}

theorem Quotation.exists_doubled (h : close quote cs = .ok n) :
    ∃ body, cs.take n = doubled quote body ++ [quote] := by
  fun_induction close quote cs generalizing n with
  | case1 | case2 => cases h
  | case3 ds _ ih =>
    obtain ⟨k, hk, rfl⟩ := mapped_ok h
    obtain ⟨body, hbody⟩ := ih hk
    refine ⟨quote :: body, ?_⟩
    rw [Nat.add_comm, List.take_succ_cons, List.take_succ_cons, hbody, doubled_cons_quote,
      List.cons_append, List.cons_append]
  | case4 | case5 =>
    cases h
    exact ⟨[], rfl⟩
  | case6 d ds _ hd ih =>
    obtain ⟨k, hk, rfl⟩ := mapped_ok h
    obtain ⟨body, hbody⟩ := ih hk
    refine ⟨d :: body, ?_⟩
    rw [Nat.add_comm, List.take_succ_cons, hbody, doubled_cons_of_ne hd, List.cons_append]

namespace Lexeme

theorem charArray_of_kinds (h : lexeme.Spells c cs) (hkind : .charArray ∈ lexeme.kinds) :
    lexeme = .quote := by
  cases lexeme with
  | quote => rfl
  | symbol kind => exact absurd (List.mem_singleton.1 hkind ▸ (by decide)) h
  | _ => exact absurd hkind (of_decide_eq_false rfl)

theorem string_of_kinds (h : lexeme.Spells c cs) (hkind : .string ∈ lexeme.kinds) :
    lexeme = text (Quotation.extent '"' .unterminatedString cs) := by
  cases lexeme with
  | text extent => exact congrArg text h
  | symbol kind => exact absurd (List.mem_singleton.1 hkind ▸ (by decide)) h
  | _ => exact absurd hkind (of_decide_eq_false rfl)

theorem mark_of_text {extent : Extent} (h : ofChars? c cs = some (text extent)) : c = '"' := by
  cases reading_ofChars? h with
  | text hc => exact hc
  | symbol _ h =>
    rw [symbol?] at h
    split at h
    · cases h
    · obtain ⟨kind, -, hkind⟩ := Option.map_eq_some_iff.1 h
      cases hkind

end Lexeme

theorem Quotation.close_of_extent {fault : Fault} (h : extent quote fault cs = .sound n) :
    close quote cs = .ok n := by
  rw [extent] at h
  split at h
  · rename_i hclose
    cases h
    exact hclose
  · cases h

namespace State

variable {st : State}

theorem decidePlain_quoted (h : st.decidePlain octave c cs = .token kind more mode)
    (hquote : kind.quote? = some quote) : c = quote ∧ Quotation.close quote cs = .ok more := by
  obtain ⟨lexeme, hlexeme, hkind⟩ := decidePlain_kind h
  have hspells := Lexeme.spells_ofChars? hlexeme
  rw [decidePlain, hlexeme] at h
  obtain ⟨rfl, rfl⟩ | ⟨rfl, rfl⟩ := Kind.quote?_eq_some hquote
  · obtain rfl := Lexeme.charArray_of_kinds hspells hkind
    refine ⟨Lexeme.keeps_ofChars hlexeme, ?_⟩
    obtain ⟨hoperator, -⟩ | ⟨-, hreading⟩ := decideQuote_kind h
    · cases hoperator
    · dsimp only at h
      rw [decideQuote, hreading] at h
      exact Quotation.close_of_extent (token_of_ofExtent h).1
  · obtain rfl := Lexeme.string_of_kinds hspells hkind
    exact ⟨Lexeme.mark_of_text hlexeme, Quotation.close_of_extent (token_of_ofExtent h).1⟩

end State

end Lexing

namespace Scan

open State

variable {source : SourceText} {settings : Settings} {t : Token}

/-- The words of commands: the char arrays that are read where a command goes on with its words. -/
def wordsFrom (file : String) (octave : Bool) (st : Lexing.State) : List Token :=
  match h : st.step file octave with
  | .taken pieces next =>
    have := step_shorter h
    (if st.pastBlanks.mode = .command .words then
      (pieces.map (·.token)).filter (·.kind == .charArray) else []) ++ wordsFrom file octave next
  | _ => []
termination_by st.cursor.rest.length

def commandWords (source : SourceText) (settings : Settings) : List Token :=
  wordsFrom source.name settings.octave (ofText source.text)

theorem wordsFrom_taken {file : String} {octave : Bool} {st next : Lexing.State}
    {pieces : List Piece} (h : st.step file octave = .taken pieces next) :
    wordsFrom file octave st =
      (if st.pastBlanks.mode = .command .words then
        (pieces.map (·.token)).filter (·.kind == .charArray) else []) ++
      wordsFrom file octave next := by
  rw [wordsFrom]
  split
  · rename_i hstep
    cases h.symm.trans hstep
    rfl
  · rename_i hstep
    exact absurd h (hstep _ _)

theorem wordsFrom_subset {file : String} {octave : Bool} {start st : Lexing.State}
    {pieces : List Piece} (h : Reads file octave start pieces st) :
    wordsFrom file octave st ⊆ wordsFrom file octave start := by
  induction h with
  | start => exact List.Subset.refl _
  | step _ hstep ih =>
    rw [wordsFrom_taken hstep] at ih
    exact fun t ht => ih (List.mem_append_right _ ht)

theorem mem_wordsFrom {file : String} {octave : Bool} {start st : Lexing.State}
    {pieces : List Piece} {c : Char} {cs : List Char} {more : Nat} {mode : Mode}
    (hreads : Reads file octave start pieces st)
    (htakes : Takes octave st c cs .charArray more mode)
    (hmode : st.pastBlanks.mode = .command .words) :
    ((st.decided mode).take file .charArray more).token ∈ wordsFrom file octave start := by
  refine wordsFrom_subset hreads ?_
  rw [wordsFrom_taken (htakes.step file), if_pos hmode, tokens_taken]
  refine List.mem_append_left _ (List.mem_filter.2 ⟨?_, rfl⟩)
  exact List.mem_append_right _ (List.mem_singleton_self _)

theorem enquote_value (h : t ∈ (ofSource source settings).tokens) {quote : Char}
    (hquote : t.kind.quote? = some quote) (hword : t ∉ commandWords source settings) :
    enquote quote t.value = t.raw := by
  obtain ⟨before, after, hsplit⟩ := List.append_of_mem h
  cases takenAt hsplit with
  | comma _ _ hcomma =>
    rw [(take_comma hcomma).2.1] at hquote
    cases hquote
  | @token pieces st c cs kind more mode hreads htakes =>
    rw [take_token_kind] at hquote
    -- In command text only words are char arrays; anywhere else the token closes its own quote.
    obtain ⟨command, hcommand, -, hdecide⟩ | ⟨plain, -, -, hdecide⟩ :=
      decide_eq_command_or_plain st.pastBlanks settings.octave c cs
    · have htoken := hdecide.symm.trans htakes.decides
      obtain rfl : kind = .charArray := by
        have hkind := decideCommand_kind htoken
        obtain ⟨rfl, -⟩ | ⟨rfl, -⟩ := Kind.quote?_eq_some hquote
        · rfl
        · exact absurd hkind (by decide)
      cases command with
      | path => exact Kind.noConfusion ((decideCommand_mode htoken).2.1 rfl)
      | words => exact absurd (mem_wordsFrom hreads htakes hcommand) hword
    · obtain ⟨rfl, hclose⟩ := decidePlain_quoted (hdecide.symm.trans htakes.decides) hquote
      obtain ⟨body, hbody⟩ := Quotation.exists_doubled hclose
      have hraw : ((st.decided mode).take source.name kind more).token.raw =
          enquote c (String.ofList body) := by
        rw [enquote, String.toList_ofList, ← hbody, ← htakes.raw source.name, String.ofList_toList]
      rw [Token.value, take_token_kind, Kind.valueOf_quoted hquote, hraw, dequote_enquote]

theorem kind_of_mem_wordsFrom {file : String} {octave : Bool} {st : Lexing.State}
    (h : t ∈ wordsFrom file octave st) : t.kind = .charArray := by
  fun_induction wordsFrom file octave st with
  | case1 st pieces next _ _ ih =>
    obtain hfirst | hlater := List.mem_append.1 h
    · split at hfirst
      · exact eq_of_beq (List.mem_filter.1 hfirst).2
      · cases hfirst
    · exact ih hlater
  | case2 => cases h

/-- Quoting a text and reading it gives the text back, and what a literal of a source was written
as comes back from its value. -/
theorem quotations_roundTrip :
    (∀ (quote : Char) (text : String), dequote quote (enquote quote text) = text) ∧
    ∀ (source : SourceText) (settings : Settings), ∀ t ∈ (ofSource source settings).tokens,
      (t.kind = .string → enquote '"' t.value = t.raw) ∧
      (t.kind = .charArray → t ∉ commandWords source settings →
        enquote '\'' t.value = t.raw) := by
  refine ⟨dequote_enquote, fun source settings t h => ⟨fun hkind => ?_, fun hkind hword => ?_⟩⟩
  · refine enquote_value h (congrArg Kind.quote? hkind) fun hword => ?_
    exact Kind.noConfusion (hkind.symm.trans (kind_of_mem_wordsFrom hword))
  · exact enquote_value h (congrArg Kind.quote? hkind) hword

def wordAndLiteral : SourceText := .ofString "t.m" "disp it's'\ny = 'it''s';\n" {}

theorem quotations_roundTrip_wordAndLiteral : ∃ t ∈ (ofSource wordAndLiteral {}).tokens,
    t.kind = .charArray ∧ t ∉ commandWords wordAndLiteral {} ∧ enquote '\'' t.value = t.raw := by
  obtain ⟨t, hmem, hliteral⟩ : ∃ t ∈ (ofSource wordAndLiteral {}).tokens,
      Decidable.decide (t.kind = .charArray ∧ t ∉ commandWords wordAndLiteral {}) = true :=
    List.any_eq_true.1 (by decide +kernel)
  obtain ⟨hkind, hword⟩ := of_decide_eq_true hliteral
  exact ⟨t, hmem, hkind, hword, (quotations_roundTrip.2 _ _ t hmem).2 hkind hword⟩

example :
    (commandWords wordAndLiteral {}).map (fun t => (t.value, t.raw)) = [("its", "it's'")] := by
  decide +kernel

end Scan

end MFile
