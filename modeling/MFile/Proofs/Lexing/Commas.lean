import MFile.Proofs.Lexing.Memory

/-!
Commas that nobody wrote. Each stands between two elements of the row that is open there: an operand
ends behind it, the token ahead begins an element, and besides comments and continuations nothing
comes between.
-/

namespace MFile

open Lexing Text

namespace Token

inductive BeginsElement (t : Token) (rest : List Char) : Prop
  | operand (h : t.kind ∈ [.identifier, .number, .charArray, .string, .lparen, .lbracket, .lbrace,
      .handle, .metaclass])
  | sign (h : t.kind = .operator) (hraw : t.raw ∈ ["+", "-", "~", "!"])
      (hrest : ∀ c ∈ rest.head?, isBlank c = false ∧ isBreak c = false)

/-- The comma separates two elements of a row. -/
structure Separates (text : List Char) (before : List Token) (comma : Token)
    (after : List Token) : Prop where
  kind_eq : comma.kind = .comma
  raw_eq : comma.raw = ""
  row : ∃ b ∈ (openBrackets before.reverse).head?, b.token.kind ∈ [.lbracket, .lbrace]
  behind : ∃ (front trivia : List Token) (last : Token), before = front ++ last :: trivia ∧
    last.endsOperand front.reverse = true ∧ ∀ t ∈ trivia, t.kind.isTrivia = true
  ahead : ∃ (next : Token) (later : List Token), after = next :: later ∧ next.anonymous = false ∧
    next.span.start = comma.span.start ∧
    ∃ front rest, next.Between text front rest ∧ next.BeginsElement rest

variable {text rest : List Char} {before behind after : List Token} {t comma : Token}

theorem beginsElement_of_opensElement
    (h : State.opensElement t.kind t.raw rest = true) : t.BeginsElement rest := by
  cases hkind : t.kind with
  | operator =>
    rw [hkind, State.opensElement, Bool.and_eq_true, Bool.not_eq_true'] at h
    obtain ⟨hraw, hrest⟩ := h
    refine .sign hkind (List.contains_iff_mem.1 hraw) fun c hc => ?_
    obtain ⟨cs, rfl⟩ := List.head?_eq_some_iff.1 hc
    exact Bool.or_eq_false_iff.1 hrest
  | identifier | number | charArray | string | lparen | lbracket | lbrace | handle | metaclass =>
    exact .operand (by rw [hkind]; decide)
  | _ =>
    rw [hkind] at h
    cases h

theorem BeginsElement.apart (h : t.BeginsElement rest) :
    t.kind.isTrivia = false ∧ t.isSeparator = false ∧ t.kind.isClosing = false := by
  rw [isSeparator]
  cases h with
  | operand h =>
    revert h
    generalize t.kind = kind
    revert kind
    decide
  | sign h =>
    rw [h]
    decide

theorem apart_of_endsOperand (h : t.endsOperand behind = true) :
    t.kind.isTrivia = false ∧ t.isSeparator = false ∧ t.kind.isOpening = false := by
  rw [isSeparator]
  rw [endsOperand, isTranspose, isOperator, isOperator, isWord] at h
  cases hkind : t.kind <;> first | decide | (rw [hkind] at h; cases h)

end Token

namespace Lexing.State.Remembers

variable {behind : List Token} {st : State}

theorem row (h : st.Remembers behind) (hrow : st.inRow = true) :
    ∃ b ∈ (openBrackets behind).head?, b.token.kind ∈ [.lbracket, .lbrace] := by
  rw [inRow, h.brackets] at hrow
  cases hopen : openBrackets behind with
  | nil =>
    rw [hopen] at hrow
    cases hrow
  | cons b outer =>
    rw [hopen, List.map_cons, Bool.or_eq_true, beq_iff_eq, beq_iff_eq] at hrow
    exact ⟨b, rfl, by simpa using hrow⟩

theorem operand {kind : Kind} {raw : String} {after : List Char} (h : st.Remembers behind)
    (hdue : st.CommaDue kind raw after) :
    ∃ (trivia rest : List Token) (last : Token), behind = trivia ++ last :: rest ∧
      last.endsOperand rest = true ∧
      ∀ t ∈ trivia, t.kind.isTrivia = true := by
  obtain ⟨p, hp, hvalue, hparams⟩ := hdue.previous
  obtain ⟨trivia, rest, last, hbehind, htrivia, -, rfl⟩ :=
    recalled?_eq_some (h.previous.symm.trans hp)
  exact ⟨trivia, rest, last, hbehind, Token.endsOperand_of_recalled hvalue hparams, htrivia⟩

end Lexing.State.Remembers

namespace Scan

open State

variable {source : SourceText} {settings : Settings} {before after : List Token} {comma : Token}

theorem separates_of_anonymous
    (h : (ofSource source settings).tokens = before ++ comma :: after)
    (hcomma : comma.anonymous = true) :
    comma.Separates source.text.toList before after := by
  cases takenAt h with
  | token => cases hcomma
  | @comma pieces st c cs kind more mode _ hreads htakes hpresent later =>
    have hremembers := hreads.remembers.pastBlanks mode
    have hdue := commaDue_of_needsComma (needsComma_of_comma hpresent)
    obtain ⟨-, hkind, hraw, hspan, -⟩ := take_comma hpresent
    obtain ⟨trivia, rest, last, hbehind, hoperand, htrivia⟩ := hremembers.operand hdue
    obtain ⟨behind, hstands⟩ := hreads.stands (Cursor.stands_start source.text.toList)
    refine ⟨hkind, hraw, hremembers.row hdue.inRow, ?_, ?_⟩
    · refine ⟨rest.reverse, trivia.reverse, last, ?_, ?_, ?_⟩
      · rw [← List.reverse_reverse (pieces.map Piece.token), hbehind, List.reverse_append,
          List.reverse_cons, List.append_assoc, List.singleton_append]
      · rwa [List.reverse_reverse]
      · exact fun t ht => htrivia t (List.mem_reverse.1 ht)
    · refine ⟨_, later, rfl, rfl, by rw [hspan]; rfl, _, _,
        htakes.between hstands source.name, Token.beginsElement_of_opensElement ?_⟩
      rw [← htakes.rest source.name]
      exact hdue.opens

end Scan

/-- Comments and continuations apart, no separator is next to a comma that nobody wrote, nor is a
bracket that opens or closes its row. -/
structure Token.KeepsApart (before after : List Token) : Prop where
  last : ∃ t ∈ nearestSignificant? before.reverse,
    t.isSeparator = false ∧ t.kind.isOpening = false
  next : ∃ t ∈ nearestSignificant? after, t.isSeparator = false ∧ t.kind.isClosing = false

theorem Token.Separates.keepsApart {text : List Char} {before after : List Token} {comma : Token}
    (h : comma.Separates text before after) : KeepsApart before after where
  last := by
    obtain ⟨front, trivia, last, rfl, hoperand, htrivia⟩ := h.behind
    obtain ⟨hlast, happart⟩ := apart_of_endsOperand hoperand
    refine ⟨last, ?_, happart⟩
    rw [nearestSignificant?, List.reverse_append, List.reverse_cons, List.append_assoc,
      List.find?_append, List.find?_eq_none.2 (by simpa using htrivia), Option.none_or]
    simp [hlast]
  next := by
    obtain ⟨next, later, rfl, -, -, front, rest, -, hbegins⟩ := h.ahead
    obtain ⟨hnext, happart⟩ := hbegins.apart
    refine ⟨next, ?_, happart⟩
    rw [nearestSignificant?, List.find?_cons_of_pos (by rw [hnext]; rfl)]
    rfl

namespace Scan

theorem scan_commas (source : SourceText) (settings : Settings) (before after : List Token)
    (comma : Token) (h : (ofSource source settings).tokens = before ++ comma :: after)
    (hcomma : comma.anonymous = true) :
    comma.Separates source.text.toList before after ∧ Token.KeepsApart before after :=
  have hseparates := separates_of_anonymous h hcomma
  ⟨hseparates, hseparates.keepsApart⟩

/-- A transposed name and, on the next line, a sign that touches its operand. -/
def continuedRow : SourceText := .ofString "t.m" "[a' ...\n -b]" {}

theorem scan_commas_continued : ∃ (before after : List Token) (comma : Token),
    (ofSource continuedRow {}).tokens = before ++ comma :: after ∧ comma.anonymous = true ∧
      comma.Separates continuedRow.text.toList before after ∧ Token.KeepsApart before after := by
  obtain ⟨comma, hmem, hcomma⟩ : ∃ t ∈ (ofSource continuedRow {}).tokens, t.anonymous = true :=
    List.any_eq_true.1 (by decide +kernel)
  obtain ⟨before, after, hsplit⟩ := List.append_of_mem hmem
  exact ⟨before, after, comma, hsplit, hcomma, scan_commas _ _ _ _ _ hsplit hcomma⟩

end Scan

end MFile
