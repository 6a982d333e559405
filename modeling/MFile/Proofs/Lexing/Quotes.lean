import MFile.Proofs.Lexing.Memory
import MFile.Proofs.Lexing.Words

/-!
Quotes. Only the token right before a quote, if it touches it on its line, tells whether the quote
transposes an operand or opens a literal, or whether that cannot be told.
-/

namespace MFile

open Lexing Text

namespace Token

/-- The token ends at this byte offset, on the line that goes on there. -/
structure Touches (u : Token) (start : Nat) (line : Option Nat) : Prop where
  stop_eq : u.span.stop = start
  line_eq : u.location.line? = line

/-- A quote that touches the token transposes it. -/
def transposable (u : Token) : Bool :=
  [.identifier, .number, .charArray, .string, .rparen, .rbracket, .rbrace].contains u.kind ||
    u.isTranspose

/-- An operand may begin behind the token, so a quote that touches it opens a literal. -/
def awaitsOperand (u : Token) : Bool :=
  [.lparen, .lbracket, .lbrace, .comma, .semicolon, .colon, .assignment, .operator].contains u.kind

end Token

namespace Lexing

theorem CurrentLine.number_pass (l : CurrentLine Nat) (t : Token) :
    (l.pass t).number = l.number + t.lineBreaks := by
  rw [pass]
  by_cases hbreaks : 0 < t.lineBreaks
  · rw [if_pos hbreaks]
    rfl
  · rw [if_neg hbreaks, Nat.eq_zero_of_not_pos hbreaks, Nat.add_zero]

theorem Lexeme.ofChars?_quote (cs : List Char) : ofChars? '\'' cs = some quote := by
  rw [ofChars?.eq_def]
  rfl

namespace State

variable {source file : String} {octave : Bool} {st : State} {c : Char} {cs : List Char}
  {kind : Kind} {more : Nat} {mode : Mode} {u : Token} {pieces : List Piece}

structure Behind (u : Token) (st : State) : Prop where
  stop : u.span.stop = st.cursor.offset
  line : ∃ line, u.location.line? = some line ∧ st.line.number = line + u.lineBreaks
  firstInLine : st.firstInLine = u.raw.toList.contains '\n'
  afterBlank : st.afterBlank = (u.kind == .continuation)
  comment : u.kind = .comment → AtBreak st.cursor.rest

theorem Takes.behind (h : Takes octave st c cs kind more mode) (file : String) :
    Behind ((st.decided mode).take file kind more).token
      ((st.decided mode).take file kind more).next where
  stop := rfl
  line := by
    refine ⟨_, rfl, ?_⟩
    refine (CurrentLine.number_pass _ _).trans (congrArg (· + _) ?_)
    split <;> rfl
  firstInLine := by
    rw [take_token_raw, String.toList_ofList]
    rfl
  afterBlank := rfl
  comment := by
    intro hkind
    obtain rfl : kind = .comment := hkind
    rw [h.rest file]
    exact decide_comment h.decides

theorem Reads.exists_last {start : State} (h : Reads file octave start pieces st) :
    (pieces = [] ∧ st = start) ∨
      ∃ before u, pieces.map Piece.token = before ++ [u] ∧ st.Behind u := by
  cases h with
  | start => exact .inl ⟨rfl, rfl⟩
  | @step pieces taken st next hreads hstep =>
    obtain ⟨c, cs, kind, more, mode, htakes, rfl, rfl⟩ := takes_of_step hstep
    refine .inr ⟨pieces.map Piece.token ++ ((st.decided mode).take file kind more).comma.toList, _,
      ?_, htakes.behind file⟩
    rw [List.map_append, tokens_taken, List.append_assoc]

theorem run_of_afterBlank (h : st.pastBlanks.afterBlank = false) :
    run isBlank st.cursor.rest = 0 := by
  by_contra hblanks
  have hpos : 0 < run isBlank st.cursor.rest := Nat.pos_of_ne_zero hblanks
  simp [pastBlanks, hpos] at h

theorem rest_of_afterBlank (h : st.pastBlanks.afterBlank = false) :
    st.pastBlanks.cursor.rest = st.cursor.rest := by
  rw [pastBlanks, run_of_afterBlank h]
  rfl

theorem Behind.touches_iff (h : st.Behind u) :
    (u.Touches st.pastBlanks.cursor.offset (some st.pastBlanks.line.number) ∧
        u.kind ≠ .continuation) ↔
      st.pastBlanks.afterBlank = false ∧ st.pastBlanks.firstInLine = false := by
  obtain ⟨line, hline, hbreaks⟩ := h.line
  have hready : st.pastBlanks.line.number = line + u.lineBreaks := hbreaks
  have hoffset : u.span.stop = st.pastBlanks.cursor.offset ↔ run isBlank st.cursor.rest = 0 := by
    rw [h.stop]
    constructor
    · intro heq
      by_contra hblanks
      exact absurd heq (Cursor.offset_skip_lt st.cursor (Nat.pos_of_ne_zero hblanks)
        (run_le _ _)).ne
    · intro hnone
      rw [pastBlanks, hnone]
      rfl
  have hbreak : u.lineBreaks = 0 ↔ st.pastBlanks.firstInLine = false := by
    change _ ↔ st.firstInLine = false
    rw [h.firstInLine, Token.lineBreaks, List.count_eq_zero, List.contains_eq_mem,
      decide_eq_false_iff_not]
  have hblank : st.pastBlanks.afterBlank = false ↔
      u.kind ≠ .continuation ∧ run isBlank st.cursor.rest = 0 := by
    change (st.afterBlank || Decidable.decide (0 < run isBlank st.cursor.rest)) = false ↔ _
    rw [h.afterBlank, Bool.or_eq_false_iff, beq_eq_false_iff_ne, decide_eq_false_iff_not,
      Nat.not_lt, Nat.le_zero]
  rw [hblank, ← hbreak, ← hoffset]
  constructor
  · rintro ⟨⟨hstop, hsame⟩, hkind⟩
    rw [hline, hready, Option.some.injEq] at hsame
    exact ⟨⟨hkind, hstop⟩, by omega⟩
  · rintro ⟨⟨hkind, hstop⟩, hnone⟩
    refine ⟨⟨hstop, ?_⟩, hkind⟩
    rw [hline, hready, hnone, Nat.add_zero]

theorem quoteReading_touching {earlier : List Token}
    (hprevious : st.previous = some (u.recalled earlier))
    (hblank : st.afterBlank = false) (hfirst : st.firstInLine = false) :
    st.quoteReading = if u.transposable then .transpose
      else if u.awaitsOperand then .literal else .ambiguous := by
  rw [quoteReading, hblank, hfirst, hprevious, Token.recalled, Token.transposable,
    Token.awaitsOperand]
  cases hkind : u.kind with
  | operator => cases u.isTranspose <;> rfl
  | _ =>
    have hnot : u.isTranspose = false := by
      rw [Token.isTranspose, Token.isOperator, Token.isOperator, hkind]
      rfl
    rw [hnot]
    rfl

theorem quoteReading_apart (h : ¬ (st.afterBlank = false ∧ st.firstInLine = false)) :
    st.quoteReading = .literal := by
  rw [quoteReading, if_pos]
  cases hblank : st.afterBlank with
  | true => rfl
  | false =>
    cases hfirst : st.firstInLine with
    | true => rfl
    | false => exact absurd ⟨hblank, hfirst⟩ h

theorem Reads.quoteReading (h : Reads file octave (ofText source) pieces st)
    (hahead : st.pastBlanks.cursor.rest = '\'' :: cs) :
    (∃ u ∈ (pieces.map Piece.token).getLast?,
      u.Touches st.pastBlanks.cursor.offset (some st.pastBlanks.line.number) ∧
      u.kind.isTrivia = false ∧
      st.pastBlanks.quoteReading = if u.transposable then .transpose
        else if u.awaitsOperand then .literal else .ambiguous) ∨
    (∀ u ∈ (pieces.map Piece.token).getLast?,
      u.Touches st.pastBlanks.cursor.offset (some st.pastBlanks.line.number) →
        u.transposable = false) ∧
      st.pastBlanks.quoteReading = .literal := by
  obtain ⟨rfl, rfl⟩ | ⟨before, u, htokens, hbehind⟩ := h.exists_last
  · right
    constructor
    · intro u hu
      cases hu
    · exact quoteReading_apart fun h => Bool.noConfusion h.2
  have hlast : (pieces.map Piece.token).getLast? = some u := by
    rw [htokens, List.getLast?_concat]
  rw [hlast]
  by_cases htouches : u.Touches st.pastBlanks.cursor.offset (some st.pastBlanks.line.number) ∧
      u.kind ≠ .continuation
  · left
    obtain ⟨hblank, hfirst⟩ := hbehind.touches_iff.1 htouches
    -- After a comment there is a break ahead, not a quote.
    have hcomment : u.kind ≠ .comment := by
      intro hkind
      rw [rest_of_afterBlank hblank] at hahead
      have hbreak : isBreak '\'' = true := hbehind.comment hkind '\'' (by rw [hahead]; rfl)
      cases hbreak
    have htrivia : u.kind.isTrivia = false := by
      cases hkind : u.kind with
      | comment => exact absurd hkind hcomment
      | continuation => exact absurd hkind htouches.2
      | _ => rfl
    have hprevious : st.pastBlanks.previous = some (u.recalled before.reverse) := by
      change st.previous = _
      rw [h.remembers.previous, htokens, List.reverse_concat, recalled?, htrivia]
      rfl
    exact ⟨u, rfl, htouches.1, htrivia, quoteReading_touching hprevious hblank hfirst⟩
  · right
    refine ⟨?_, quoteReading_apart fun h => htouches (hbehind.touches_iff.2 h)⟩
    intro v hv htouch
    cases hv
    have hkind : u.kind = .continuation := by
      by_contra hne
      exact htouches ⟨htouch, hne⟩
    rw [Token.transposable, Token.isTranspose, Token.isOperator, Token.isOperator, hkind]
    rfl

theorem Takes.quote (h : Takes octave st '\'' cs kind more mode)
    (hreads : Reads file octave (ofText source) pieces st) (hkind : kind ≠ .directory) :
    (kind = .operator ∧ more = 0 ∧ st.pastBlanks.quoteReading = .transpose) ∨
      (kind = .charArray ∧ st.pastBlanks.quoteReading = .literal) := by
  obtain ⟨command, hcommand, hstop, hdecide⟩ | ⟨plain, -, -, hdecide⟩ :=
    decide_eq_command_or_plain st.pastBlanks octave '\'' cs
  · have htoken := hdecide.symm.trans h.decides
    cases command with
    | path => exact absurd ((decideCommand_mode htoken).2.1 rfl) hkind
    | words =>
      right
      obtain ⟨behind, hstands⟩ := hreads.stands (Cursor.stands_start source.toList)
      have hblank := hreads.apart.afterBlank hstands h.ahead hstop hcommand
      have hdots : Command.continues ('\'' :: cs) = false := rfl
      constructor
      · rw [decideCommand.eq_def, hdots, if_neg Bool.false_ne_true] at htoken
        cases htext : Command.text .words false ('\'' :: cs) with
        | error length =>
          rw [htext] at htoken
          cases htoken
        | ok length =>
          rw [htext] at htoken
          cases htoken
          rfl
      · apply quoteReading_apart
        rw [hblank]
        exact fun h => Bool.noConfusion h.1
  · have htoken := hdecide.symm.trans h.decides
    rw [decidePlain, Lexeme.ofChars?_quote] at htoken
    have hread := decideQuote_kind htoken
    exact hread

theorem transposable_comma {comma : Token} (h : comma.kind = .comma) :
    comma.transposable = false := by
  rw [Token.transposable, Token.isTranspose, Token.isOperator, Token.isOperator, h]
  rfl

/-- A comma that nobody wrote stands behind blanks, so it is no exception. -/
theorem Takes.transposes_iff (h : Takes octave st '\'' cs kind more mode)
    (hreads : Reads file octave (ofText source) pieces st) :
    (∃ u ∈ (pieces.map Piece.token ++
        ((st.decided mode).take file kind more).comma.toList).getLast?,
      u.Touches st.pastBlanks.cursor.offset (some st.pastBlanks.line.number) ∧
        u.transposable = true) ↔ st.pastBlanks.quoteReading = .transpose := by
  cases hcomma : ((st.decided mode).take file kind more).comma with
  | some comma =>
    -- A comma that nobody wrote stands for blanks, so the quote touches nothing.
    have hliteral : st.pastBlanks.quoteReading = .literal := by
      apply quoteReading_apart
      intro hapart
      have hnone : ((st.decided mode).take file kind more).comma = none :=
        comma_of_touching hapart.1 kind more
      rw [hnone] at hcomma
      cases hcomma
    rw [Option.toList_some, List.getLast?_concat, hliteral]
    constructor
    · rintro ⟨u, hu, -, htransposable⟩
      cases hu
      rw [transposable_comma (take_comma hcomma).2.1] at htransposable
      cases htransposable
    · intro heq
      cases heq
  | none =>
    rw [Option.toList_none, List.append_nil]
    obtain ⟨u, hu, htouches, -, hreading⟩ | ⟨hnone, hreading⟩ := hreads.quoteReading h.ahead
    · rw [hreading]
      constructor
      · rintro ⟨v, hv, -, htransposable⟩
        rw [Option.mem_unique hv hu] at htransposable
        rw [htransposable]
        rfl
      · intro heq
        refine ⟨u, hu, htouches, ?_⟩
        by_contra hnot
        rw [if_neg hnot] at heq
        split at heq <;> cases heq
    · rw [hreading]
      constructor
      · rintro ⟨u, hu, htouches, htransposable⟩
        rw [hnone u hu htouches] at htransposable
        cases htransposable
      · intro heq
        cases heq

end State

end Lexing

namespace Scan

open State

variable {source : SourceText} {settings : Settings} {before after : List Token} {t : Token}

theorem quote_of_tokens (h : (ofSource source settings).tokens = before ++ t :: after)
    (hquote : t.raw.toList.head? = some '\'') (hkind : t.kind ≠ .directory) :
    ((t.kind = .operator ∧ t.raw = "'") ↔
      ∃ u ∈ before.getLast?, u.Touches t.span.start t.location.line? ∧ u.transposable = true) ∧
    ((t.kind = .operator ∧ t.raw = "'") ∨ t.kind = .charArray) := by
  cases takenAt h with
  | comma _ _ hcomma =>
    rw [(take_comma hcomma).2.2.1] at hquote
    cases hquote
  | @token pieces st c cs kind more mode hreads htakes =>
    rw [htakes.raw] at hquote
    obtain rfl : c = '\'' := by simpa using hquote
    have htransposes := htakes.transposes_iff hreads
    obtain ⟨rfl, rfl, hreading⟩ | ⟨rfl, hreading⟩ := htakes.quote hreads hkind
    · have hraw : ((st.decided mode).take source.name .operator 0).token.raw = "'" := by
        rw [← String.toList_inj, htakes.raw]
        rfl
      exact ⟨⟨fun _ => htransposes.2 hreading, fun _ => ⟨rfl, hraw⟩⟩, .inl ⟨rfl, hraw⟩⟩
    · refine ⟨⟨fun hoperator => Kind.noConfusion hoperator.1, fun hlast => ?_⟩, .inr rfl⟩
      have htranspose := htransposes.1 hlast
      rw [hreading] at htranspose
      cases htranspose

theorem quote_of_failure {e : LexError} (h : e ∈ (ofSource source settings).failure)
    (hfault : e.fault = .ambiguousQuote) :
    e.text = ['\''] ∧ ∃ u ∈ (ofSource source settings).tokens.getLast?,
      u.Touches e.span.start e.location.line? ∧
        u.transposable = false ∧ u.awaitsOperand = false := by
  obtain ⟨st, hreads, hstep⟩ := exists_failed h
  obtain ⟨c, cs, fault, skipped, length, hrest, hdecide, rfl⟩ := step_failed hstep
  obtain rfl : fault = .ambiguousQuote := hfault
  obtain ⟨rfl, rfl, rfl, hreading⟩ := decide_ambiguousQuote hdecide
  constructor
  · change (st.pastBlanks.cursor.skip 0).rest.take 1 = _
    rw [Cursor.rest_skip, hrest]
    rfl
  · obtain ⟨u, hu, htouches, -, hread⟩ | ⟨-, hread⟩ := hreads.quoteReading hrest
    · refine ⟨u, hu, htouches, ?_⟩
      rw [hreading] at hread
      split at hread
      · cases hread
      · rename_i htransposable
        split at hread
        · cases hread
        · rename_i hawaits
          exact ⟨Bool.eq_false_iff.2 htransposable, Bool.eq_false_iff.2 hawaits⟩
    · rw [hreading] at hread
      cases hread

theorem scan_quotes (source : SourceText) (settings : Settings) :
    let scan := ofSource source settings
    (∀ (before after : List Token) (t : Token), scan.tokens = before ++ t :: after →
      t.raw.toList.head? = some '\'' → t.kind ≠ .directory →
        ((t.kind = .operator ∧ t.raw = "'") ↔ ∃ u ∈ before.getLast?,
          u.Touches t.span.start t.location.line? ∧ u.transposable = true) ∧
        ((t.kind = .operator ∧ t.raw = "'") ∨ t.kind = .charArray)) ∧
    ∀ e ∈ scan.failure, e.fault = .ambiguousQuote →
      e.text = ['\''] ∧ ∃ u ∈ scan.tokens.getLast?,
        u.Touches e.span.start e.location.line? ∧
          u.transposable = false ∧ u.awaitsOperand = false :=
  ⟨fun _ _ _ h hquote hkind => quote_of_tokens h hquote hkind,
    fun _ h hfault => quote_of_failure h hfault⟩

example : ((ofSource (.ofString "t.m" "y = x' + 'a';" {}) {}).tokens.filter
    (·.raw.toList.head? == some '\'')).map (·.kind) = [.operator, .charArray] := by
  decide +kernel

end Scan

end MFile
