import MFile.Proofs.Lexing.Continuations.Decisions
import MFile.Proofs.Lexing.LineUse

/-!
Which lexeme a decision comes from. Numbers, comments and ambiguous quotes are decided outside of
command text, and each of them from a lexeme of its own.
-/

namespace MFile.Lexing

open Text

variable {c : Char} {cs : List Char} {kind : Kind} {more skipped length : Nat} {mode mode' : Mode}
  {octave : Bool} {fault : Fault} {extent : Extent}

namespace Lexeme

/-- The kinds that only lexemes of their own, words of a command and paths are read as. -/
def ownKinds : List Kind :=
  [.newline, .continuation, .comment, .identifier, .keyword, .number, .charArray, .string, .bang,
    .directory]

theorem mark?_notMem_ownKinds (h : mark? c = some kind) : kind ∉ ownKinds := by
  rw [mark?.eq_def] at h
  split at h <;> cases h <;> decide

def Spells (c : Char) (cs : List Char) : Lexeme → Prop
  | number extent => (c.isDigit = true ∧ extent = Number.afterDigit c cs) ∨
      (c = '.' ∧ startsWithAny Char.isDigit cs = true ∧ extent = Number.afterDot cs)
  | text extent => extent = Quotation.extent '"' .unterminatedString cs
  | symbol kind _ => kind ∉ ownKinds
  | _ => True

theorem spells_symbol? {lexeme : Lexeme} (h : symbol? c cs = some lexeme) :
    lexeme.Spells c cs := by
  rw [symbol?] at h
  split at h
  · cases h
    exact (by decide : Kind.operator ∉ ownKinds)
  · obtain ⟨kind, hkind, rfl⟩ := Option.map_eq_some_iff.1 h
    exact mark?_notMem_ownKinds hkind

theorem spells_ofChars? {lexeme : Lexeme} (h : ofChars? c cs = some lexeme) :
    lexeme.Spells c cs := by
  cases reading_ofChars? h with
  | digit _ hc => exact .inl ⟨hc, rfl⟩
  | point hc hcs => exact .inr ⟨hc, hcs, rfl⟩
  | text => rfl
  | symbol _ h => exact spells_symbol? h
  | _ => trivial

end Lexeme

theorem Number.fault_tail {cs : List Char} {n : Nat} (h : tail cs = .faulty fault n) :
    fault = .malformedNumber := by
  simp only [tail] at h
  split at h <;> cases h
  rfl

theorem Extent.after_eq_faulty {n m : Nat} (h : extent.after n = .faulty fault m) :
    ∃ k, extent = .faulty fault k := by
  cases extent <;> cases h
  exact ⟨_, rfl⟩

theorem Number.fault_afterDigit {n : Nat} (h : afterDigit c cs = .faulty fault n) :
    fault = .malformedNumber := by
  simp only [afterDigit] at h
  have hdecimal : ∀ {m : Nat}, (tail (cs.drop m)).after m = .faulty fault n →
      fault = .malformedNumber := fun h => by
    obtain ⟨k, hk⟩ := Extent.after_eq_faulty h
    exact fault_tail hk
  split at h
  · cases hradix : radix? cs with
    | none =>
      rw [hradix] at h
      exact hdecimal h
    | some n =>
      rw [hradix] at h
      cases h
  · exact hdecimal h

theorem Number.fault_afterDot {n : Nat} (h : afterDot cs = .faulty fault n) :
    fault = .malformedNumber := by
  obtain ⟨k, hk⟩ := Extent.after_eq_faulty h
  exact fault_tail hk

theorem Quotation.fault_extent {quote : Char} {unterminated : Fault} {n : Nat}
    (h : Quotation.extent quote unterminated cs = .faulty fault n) : fault = unterminated := by
  rw [Quotation.extent] at h
  split at h <;> cases h
  rfl

namespace State

variable {st : State}

theorem fault_of_ofExtent (h : Decision.ofExtent kind mode extent = .fault fault skipped length) :
    ∃ n, extent = .faulty fault n ∧ skipped = 0 ∧ length = n + 1 := by
  cases extent <;> cases h
  exact ⟨_, rfl, rfl, rfl⟩

theorem decideComment_kind {n : Nat} (h : st.decideComment c cs n = .token kind more mode) :
    kind = .comment := by
  simp only [decideComment] at h
  repeat' split at h
  all_goals
    cases h
    try rfl

theorem decideComment_fault {n : Nat}
    (h : st.decideComment c cs n = .fault fault skipped length) :
    fault = .unterminatedBlockComment := by
  simp only [decideComment] at h
  repeat' split at h
  all_goals
    cases h
    try rfl

theorem decideBang_kind {n : Nat} (h : st.decideBang octave cs n = .token kind more mode) :
    kind = .operator ∨ kind = .bang := by
  simp only [decideBang] at h
  repeat' split at h
  all_goals cases h
  · exact .inl rfl
  · exact .inr rfl

theorem decideBang_fault {n : Nat}
    (h : st.decideBang octave cs n = .fault fault skipped length) :
    fault = .unexpectedCharacter := by
  simp only [decideBang] at h
  repeat' split at h
  all_goals cases h
  rfl

theorem decideQuote_kind (h : st.decideQuote cs = .token kind more mode) :
    (kind = .operator ∧ more = 0 ∧ st.quoteReading = .transpose) ∨
      (kind = .charArray ∧ st.quoteReading = .literal) := by
  rw [decideQuote] at h
  cases hreading : st.quoteReading with
  | transpose =>
    rw [hreading] at h
    cases h
    exact .inl ⟨rfl, rfl, rfl⟩
  | ambiguous =>
    rw [hreading] at h
    cases h
  | literal =>
    rw [hreading] at h
    exact .inr ⟨(token_of_ofExtent h).2.1.symm, rfl⟩

theorem decideQuote_fault (h : st.decideQuote cs = .fault fault skipped length) :
    (fault = .ambiguousQuote ∧ skipped = 0 ∧ length = 1 ∧ st.quoteReading = .ambiguous) ∨
      fault = .unterminatedCharArray := by
  rw [decideQuote] at h
  cases hreading : st.quoteReading with
  | transpose =>
    rw [hreading] at h
    cases h
  | ambiguous =>
    rw [hreading] at h
    cases h
    exact .inl ⟨rfl, rfl, rfl, rfl⟩
  | literal =>
    rw [hreading] at h
    obtain ⟨n, hextent, -⟩ := fault_of_ofExtent h
    exact .inr (Quotation.fault_extent hextent)

theorem atBreak_restOfLine (cs : List Char) : AtBreak (cs.drop (restOfLine cs)) := by
  intro d hd
  rw [restOfLine, drop_run] at hd
  have hhead := List.head?_dropWhile_not (fun c => !isBreak c) cs
  rw [Option.mem_def.1 hd] at hhead
  simpa using hhead

theorem atBreak_decideComment
    (h : st.decideComment c cs (restOfLine cs) = .token kind more mode) :
    AtBreak (cs.drop more) := by
  have hline := atBreak_restOfLine cs
  simp only [decideComment] at h
  split at h
  · split at h
    · split at h
      · rename_i body hbody
        cases h
        have hbreak := atBreak_blockBody hbody
        rwa [List.drop_drop] at hbreak
      · cases h
    · cases h
      exact hline
  · cases h
    exact hline

end State

/-! ## What a lexeme is read as -/

namespace Lexeme

def kinds : Lexeme → List Kind
  | newline _ => [.newline]
  | continuation _ => [.continuation]
  | comment _ => [.comment]
  | word _ => [.identifier, .keyword]
  | number _ => [.number]
  | quote => [.operator, .charArray]
  | text _ => [.string]
  | bang _ => [.operator, .bang]
  | symbol kind _ => [kind]

def faults : Lexeme → List Fault
  | comment _ => [.unterminatedBlockComment]
  | number _ => [.malformedNumber]
  | quote => [.ambiguousQuote, .unterminatedCharArray]
  | text _ => [.unterminatedString]
  | bang _ => [.unexpectedCharacter]
  | _ => []

variable {lexeme : Lexeme}

theorem number_of_kinds (h : lexeme.Spells c cs) (hkind : .number ∈ lexeme.kinds) :
    ∃ extent, lexeme = number extent := by
  cases lexeme with
  | number extent => exact ⟨extent, rfl⟩
  | symbol kind => exact absurd (List.mem_singleton.1 hkind ▸ (by decide)) h
  | _ => exact absurd hkind (of_decide_eq_false rfl)

theorem comment_of_kinds (h : lexeme.Spells c cs) (hkind : .comment ∈ lexeme.kinds) :
    ∃ more, lexeme = comment more := by
  cases lexeme with
  | comment more => exact ⟨more, rfl⟩
  | symbol kind => exact absurd (List.mem_singleton.1 hkind ▸ (by decide)) h
  | _ => exact absurd hkind (of_decide_eq_false rfl)

theorem mark_of_comment {n : Nat} (h : ofChars? c cs = some (comment n)) :
    (c = '%' ∨ c = '#') ∧ n = restOfLine cs := by
  cases reading_ofChars? h with
  | comment hc => exact ⟨hc, rfl⟩
  | symbol _ h =>
    rw [symbol?] at h
    split at h
    · cases h
    · obtain ⟨kind, -, hkind⟩ := Option.map_eq_some_iff.1 h
      cases hkind

theorem quote_of_faults (hfault : .ambiguousQuote ∈ lexeme.faults) : lexeme = quote := by
  cases lexeme with
  | quote => rfl
  | _ => exact absurd hfault (of_decide_eq_false rfl)

theorem number_of_faults (hfault : .malformedNumber ∈ lexeme.faults) :
    ∃ extent, lexeme = number extent := by
  cases lexeme with
  | number extent => exact ⟨extent, rfl⟩
  | _ => exact absurd hfault (of_decide_eq_false rfl)

end Lexeme

namespace State

variable {st : State}

theorem decidePlain_kind (h : st.decidePlain octave c cs = .token kind more mode) :
    ∃ lexeme, Lexeme.ofChars? c cs = some lexeme ∧ kind ∈ lexeme.kinds := by
  rw [decidePlain] at h
  cases hlexeme : Lexeme.ofChars? c cs with
  | none =>
    rw [hlexeme] at h
    cases h
  | some lexeme =>
    rw [hlexeme] at h
    refine ⟨lexeme, rfl, ?_⟩
    cases lexeme with
    | newline | continuation | symbol =>
      cases h
      exact List.mem_singleton_self _
    | comment => exact List.mem_singleton.2 (decideComment_kind h)
    | word n =>
      obtain ⟨found, mode', hword, hkind⟩ := decideWord_token st c cs n
      cases hword.symm.trans h
      simpa [Lexeme.kinds] using hkind
    | number | text =>
      obtain ⟨-, rfl, -⟩ := token_of_ofExtent h
      exact List.mem_singleton_self _
    | quote =>
      obtain ⟨rfl, -⟩ | ⟨rfl, -⟩ := decideQuote_kind h <;> simp [Lexeme.kinds]
    | bang => obtain rfl | rfl := decideBang_kind h <;> simp [Lexeme.kinds]

theorem decidePlain_fault (h : st.decidePlain octave c cs = .fault fault skipped length) :
    fault = .unexpectedCharacter ∨
      ∃ lexeme, Lexeme.ofChars? c cs = some lexeme ∧ fault ∈ lexeme.faults := by
  rw [decidePlain] at h
  cases hlexeme : Lexeme.ofChars? c cs with
  | none =>
    rw [hlexeme] at h
    cases h
    exact .inl rfl
  | some lexeme =>
    have hspells := Lexeme.spells_ofChars? hlexeme
    rw [hlexeme] at h
    refine .inr ⟨lexeme, rfl, ?_⟩
    cases lexeme with
    | newline | continuation | symbol => cases h
    | comment => exact List.mem_singleton.2 (decideComment_fault h)
    | word n =>
      obtain ⟨found, mode', hword, -⟩ := decideWord_token st c cs n
      cases hword.symm.trans h
    | number =>
      obtain ⟨n, rfl, -⟩ := fault_of_ofExtent h
      obtain ⟨-, hextent⟩ | ⟨-, -, hextent⟩ := hspells
      · exact List.mem_singleton.2 (Number.fault_afterDigit hextent.symm)
      · exact List.mem_singleton.2 (Number.fault_afterDot hextent.symm)
    | text =>
      obtain ⟨n, rfl, -⟩ := fault_of_ofExtent h
      exact List.mem_singleton.2 (Quotation.fault_extent (Eq.symm hspells))
    | quote =>
      obtain ⟨rfl, -⟩ | rfl := decideQuote_fault h <;> simp [Lexeme.faults]
    | bang => exact List.mem_singleton.2 (decideBang_fault h)

theorem decideCommand_kind {command : CommandKind}
    (h : st.decideCommand command c cs = .token kind more mode) :
    kind ∈ [.continuation, .charArray, .directory] := by
  rw [decideCommand.eq_def] at h
  split at h
  · cases command <;> cases h
    simp
  · cases htext : Command.text command false (c :: cs) with
    | error =>
      rw [htext] at h
      cases command <;> cases h
    | ok =>
      rw [htext] at h
      cases command with
      | words =>
        cases h
        simp
      | path =>
        dsimp only at h
        split at h <;> cases h
        simp

theorem decideCommand_fault {command : CommandKind}
    (h : st.decideCommand command c cs = .fault fault skipped length) :
    fault ∈ [.continuationInDirectoryCommand, .unterminatedCharArray] := by
  rw [decideCommand.eq_def] at h
  split at h
  · cases command <;> cases h
    simp
  · cases htext : Command.text command false (c :: cs) with
    | error =>
      rw [htext] at h
      cases command <;> cases h <;> simp
    | ok =>
      rw [htext] at h
      cases command with
      | words => cases h
      | path =>
        dsimp only at h
        split at h <;> cases h
        simp

theorem decide_eq_command_or_plain (st : State) (octave : Bool) (c : Char) (cs : List Char) :
    (∃ command, st.mode = .command command ∧ Command.isStop c = false ∧
      st.decide octave c cs = st.decideCommand command c cs) ∨
    ∃ mode, (∀ command, mode ≠ .command command) ∧ (mode = .normal ∨ mode = st.mode) ∧
      st.decide octave c cs = ({ st with mode := mode } : State).decidePlain octave c cs := by
  rw [decide]
  split
  · rename_i command hmode
    split
    · exact .inr ⟨.normal, fun _ h => Mode.noConfusion h, .inl rfl, rfl⟩
    · rename_i hstop
      exact .inl ⟨command, hmode, Bool.eq_false_iff.2 hstop, rfl⟩
  · rename_i hmode
    exact .inr ⟨st.mode, hmode, .inr rfl, rfl⟩

theorem plain_of_token (h : st.decide octave c cs = .token kind more mode)
    (hkind : kind ∉ [.continuation, .charArray, .directory]) :
    ∃ mode' lexeme, Lexeme.ofChars? c cs = some lexeme ∧ kind ∈ lexeme.kinds ∧
      ({ st with mode := mode' } : State).decidePlain octave c cs = .token kind more mode := by
  obtain ⟨command, -, -, hcommand⟩ | ⟨mode', -, -, hplain⟩ :=
    decide_eq_command_or_plain st octave c cs
  · exact absurd (decideCommand_kind (hcommand.symm.trans h)) hkind
  · rw [hplain] at h
    obtain ⟨lexeme, hlexeme, hmem⟩ := decidePlain_kind h
    exact ⟨mode', lexeme, hlexeme, hmem, h⟩

theorem plain_of_fault (h : st.decide octave c cs = .fault fault skipped length)
    (hcommand : fault ∉ [.continuationInDirectoryCommand, .unterminatedCharArray])
    (hcharacter : fault ≠ .unexpectedCharacter) :
    ∃ mode' lexeme, Lexeme.ofChars? c cs = some lexeme ∧ fault ∈ lexeme.faults ∧
      ({ st with mode := mode' } : State).decidePlain octave c cs =
        .fault fault skipped length := by
  obtain ⟨command, -, -, htext⟩ | ⟨mode', -, -, hplain⟩ := decide_eq_command_or_plain st octave c cs
  · exact absurd (decideCommand_fault (htext.symm.trans h)) hcommand
  · rw [hplain] at h
    obtain hfault | ⟨lexeme, hlexeme, hmem⟩ := decidePlain_fault h
    · exact absurd hfault hcharacter
    · exact ⟨mode', lexeme, hlexeme, hmem, h⟩

theorem decide_number (h : st.decide octave c cs = .token .number more mode) :
    Lexeme.ofChars? c cs = some (.number (.sound more)) := by
  obtain ⟨mode', lexeme, hlexeme, hkind, hplain⟩ := plain_of_token h (by decide)
  obtain ⟨extent, rfl⟩ := Lexeme.number_of_kinds (Lexeme.spells_ofChars? hlexeme) hkind
  rw [decidePlain, hlexeme] at hplain
  rw [hlexeme, (token_of_ofExtent hplain).1]

theorem decideComment_of_decide (h : st.decide octave c cs = .token .comment more mode) :
    (c = '%' ∨ c = '#') ∧ ∃ mode',
      ({ st with mode := mode' } : State).decideComment c cs (restOfLine cs) =
        .token .comment more mode := by
  obtain ⟨mode', lexeme, hlexeme, hkind, hplain⟩ := plain_of_token h (by decide)
  obtain ⟨n, rfl⟩ := Lexeme.comment_of_kinds (Lexeme.spells_ofChars? hlexeme) hkind
  obtain ⟨hc, rfl⟩ := Lexeme.mark_of_comment hlexeme
  rw [decidePlain, hlexeme] at hplain
  exact ⟨hc, mode', hplain⟩

theorem decide_comment (h : st.decide octave c cs = .token .comment more mode) :
    AtBreak (cs.drop more) :=
  have ⟨_, _, hcomment⟩ := decideComment_of_decide h
  atBreak_decideComment hcomment

theorem decide_ambiguousQuote (h : st.decide octave c cs = .fault .ambiguousQuote skipped length) :
    c = '\'' ∧ skipped = 0 ∧ length = 1 ∧ st.quoteReading = .ambiguous := by
  obtain ⟨mode', lexeme, hlexeme, hfault, hplain⟩ := plain_of_fault h (by decide) (by decide)
  obtain rfl := Lexeme.quote_of_faults hfault
  rw [decidePlain, hlexeme] at hplain
  obtain ⟨-, hskipped, hlength, hreading⟩ | hfault := decideQuote_fault hplain
  · exact ⟨Lexeme.keeps_ofChars hlexeme, hskipped, hlength, hreading⟩
  · cases hfault

theorem decide_malformedNumber
    (h : st.decide octave c cs = .fault .malformedNumber skipped length) :
    skipped = 0 ∧ ∃ more, length = more + 1 ∧
      Lexeme.ofChars? c cs = some (.number (.faulty .malformedNumber more)) := by
  obtain ⟨mode', lexeme, hlexeme, hfault, hplain⟩ := plain_of_fault h (by decide) (by decide)
  obtain ⟨extent, rfl⟩ := Lexeme.number_of_faults hfault
  rw [decidePlain, hlexeme] at hplain
  obtain ⟨more, rfl, hskipped, hlength⟩ := fault_of_ofExtent hplain
  exact ⟨hskipped, more, hlength, hlexeme⟩

theorem decide_of_number (hmode : ∀ command, st.mode ≠ .command command)
    (h : Lexeme.ofChars? c cs = some (.number extent)) :
    st.decide octave c cs = .ofExtent .number st.mode extent := by
  rw [decide]
  split
  · rename_i command hcommand
    exact absurd hcommand (hmode command)
  · rw [decidePlain, h]

end State

end MFile.Lexing
