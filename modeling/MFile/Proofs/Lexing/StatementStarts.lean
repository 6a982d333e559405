import MFile.Proofs.Lexing.Commas

/-!
Which tokens begin a statement. The mark of a token is told from the tokens before it alone:
comments and continuations do not change it, and of the rest only the last token counts, with the
brackets that are open there if it is a separator. A line break begins a statement wherever it
stands, and so do some keywords. Hence a token inside brackets has the mark exactly if one of these
is the last significant token before it.
-/

namespace MFile

open Lexing

/-- The token does not look at the brackets around it: a statement begins behind it anywhere. -/
def Token.startsAnywhere (t : Token) : Bool :=
  t.kind == .newline || (t.kind == .keyword && ["else", "try", "otherwise"].contains t.raw)

/-- A statement begins behind the tokens, which are listed from the last one back. -/
def beginsStatement : List Token → Bool
  | [] => true
  | t :: behind =>
    if t.kind.isTrivia then beginsStatement behind
    else t.startsAnywhere ||
      ((t.kind == .semicolon || t.kind == .comma) && (openBrackets behind).isEmpty)

variable {behind : List Token} {t comma : Token}

theorem beginsStatement_trivia {trivia : List Token} (h : ∀ t ∈ trivia, t.kind.isTrivia = true) :
    beginsStatement (trivia ++ behind) = beginsStatement behind := by
  induction trivia with
  | nil => rfl
  | cons t trivia ih =>
    obtain ⟨ht, htrivia⟩ := List.forall_mem_cons.1 h
    rw [List.cons_append, beginsStatement, if_pos ht, ih htrivia]

theorem beginsStatement_operand (h : t.endsOperand behind = true) :
    beginsStatement (t :: behind) = false := by
  obtain ⟨htrivia, hseparator, -⟩ := Token.apart_of_endsOperand h
  rw [beginsStatement, htrivia, if_neg Bool.false_ne_true, Token.startsAnywhere]
  rw [Token.isSeparator] at hseparator
  rw [Token.endsOperand, Token.isTranspose, Token.isOperator, Token.isOperator, Token.isWord] at h
  cases hkind : t.kind <;> rw [hkind] at h hseparator <;> try rfl
  case keyword =>
    have hend : t.raw = "end" := by simpa [Kind.isClosing] using h
    rw [hend]
    rfl
  all_goals cases hseparator

theorem openBrackets_trivia (h : t.kind.isTrivia = true) :
    openBrackets (t :: behind) = openBrackets behind := by
  rw [openBrackets]
  cases hkind : t.kind <;> rw [hkind] at h <;> try cases h
  all_goals exact (if_neg Bool.false_ne_true).trans (if_neg Bool.false_ne_true)

theorem beginsStatement_inside (h : openBrackets behind ≠ []) :
    beginsStatement behind = (nearestSignificant? behind).any (·.startsAnywhere) := by
  induction behind with
  | nil => exact absurd rfl h
  | cons t behind ih =>
    rw [beginsStatement, nearestSignificant?, List.find?_cons]
    cases htrivia : t.kind.isTrivia with
    | true =>
      rw [openBrackets_trivia htrivia] at h
      exact ih h
    | false =>
      rw [if_neg Bool.false_ne_true, Bool.not_false, Option.any_some]
      cases hseparator : (t.kind == .semicolon || t.kind == .comma) with
      | false => rw [Bool.false_and, Bool.or_false]
      | true =>
        have hopen : openBrackets (t :: behind) = openBrackets behind := by
          rw [openBrackets]
          rcases Bool.or_eq_true_iff.1 hseparator with hkind | hkind <;>
            rw [eq_of_beq hkind] <;> rfl
        rw [hopen] at h
        rw [List.isEmpty_eq_false_iff.2 h, Bool.and_false, Bool.or_false]

namespace Lexing.State

variable {file : String} {octave : Bool} {st : State} {kind : Kind} {more : Nat}

theorem comma_firstInStatement (h : (st.take file kind more).comma = some comma) :
    comma.firstInStatement = false := by
  simp only [take] at h
  split at h
  · cases h
    rfl
  · cases h

theorem Remembers.beginsStatement_comma (h : st.Remembers behind)
    (hcomma : (st.take file kind more).comma = some comma) :
    beginsStatement behind = false ∧ beginsStatement (comma :: behind) = false := by
  have hdue := commaDue_of_needsComma (needsComma_of_comma hcomma)
  obtain ⟨trivia, rest, last, hbehind, hoperand, htrivia⟩ := h.operand hdue
  obtain ⟨b, hb, -⟩ := h.row hdue.inRow
  have hopen : (openBrackets behind).isEmpty = false := by
    rw [List.isEmpty_eq_false_iff]
    rintro hnone
    rw [hnone] at hb
    cases hb
  refine ⟨?_, ?_⟩
  · rw [hbehind, beginsStatement_trivia htrivia, beginsStatement_operand hoperand]
  · rw [beginsStatement, Token.startsAnywhere, (take_comma hcomma).2.1, hopen]
    rfl

theorem Remembers.firstInStatement_take (h : st.Remembers behind)
    (hfirst : st.firstInStatement = beginsStatement behind) (file : String) (kind : Kind)
    (more : Nat) : (st.take file kind more).token.firstInStatement =
      beginsStatement ((st.take file kind more).comma.toList ++ behind) := by
  change st.firstInStatement = _
  cases hcomma : (st.take file kind more).comma with
  | none => exact hfirst
  | some comma =>
    obtain ⟨hbefore, hafter⟩ := h.beginsStatement_comma hcomma
    exact hfirst.trans (hbefore.trans hafter.symm)

theorem Remembers.firstInStatement_next (h : st.Remembers behind)
    (hfirst : st.firstInStatement = beginsStatement behind) (file : String) (kind : Kind)
    (more : Nat) : (st.take file kind more).next.firstInStatement =
      beginsStatement ((st.take file kind more).token ::
        ((st.take file kind more).comma.toList ++ behind)) := by
  have hopen : (openBrackets ((st.take file kind more).comma.toList ++ behind)).isEmpty =
      st.brackets.isEmpty := by
    rw [openBrackets_take, h.brackets, List.isEmpty_map]
  change st.firstInStatementAfter kind _ = _
  rw [beginsStatement, hopen, ← h.firstInStatement_take hfirst, Token.startsAnywhere,
    take_token_kind]
  cases kind <;> first | rfl | exact (Bool.or_false _).symm

theorem Reads.firstInStatement {text : String} {pieces : List Piece}
    (h : Reads file octave (ofText text) pieces st) :
    st.firstInStatement = beginsStatement (pieces.map Piece.token).reverse := by
  induction h with
  | start => rfl
  | step hbefore hstep ih =>
    obtain ⟨c, cs, kind, more, mode, -, rfl, rfl⟩ := takes_of_step hstep
    have hnext := (hbefore.remembers.pastBlanks mode).firstInStatement_next ih file kind more
    rw [hnext, List.map_append, tokens_taken, List.reverse_append, List.reverse_append,
      List.reverse_singleton]
    cases (State.take _ file kind more).comma <;> rfl

end Lexing.State

namespace Scan

open State

variable {source : SourceText} {settings : Settings} {before after : List Token} {t : Token}

theorem firstInStatement_eq (h : (ofSource source settings).tokens = before ++ t :: after) :
    t.firstInStatement = beginsStatement before.reverse := by
  cases takenAt h with
  | @token pieces st c cs kind more mode hreads htakes =>
    have hremembers := hreads.remembers.pastBlanks mode
    rw [hremembers.firstInStatement_take hreads.firstInStatement, List.reverse_append]
    cases (State.take _ source.name kind more).comma <;> rfl
  | @comma pieces st c cs kind more mode _ hreads htakes hcomma later =>
    have hremembers := hreads.remembers.pastBlanks mode
    rw [(hremembers.beginsStatement_comma hcomma).1, comma_firstInStatement hcomma]

theorem scan_startsInside (source : SourceText) (settings : Settings) (before after : List Token)
    (t : Token) (h : (ofSource source settings).tokens = before ++ t :: after)
    (hopen : openBrackets before.reverse ≠ []) :
    t.firstInStatement = true ↔ ∃ u ∈ nearestSignificant? before.reverse,
      u.kind = .newline ∨ u.kind = .keyword ∧ u.raw ∈ ["else", "try", "otherwise"] := by
  rw [firstInStatement_eq h, beginsStatement_inside hopen]
  cases nearestSignificant? before.reverse with
  | none => exact ⟨nofun, fun ⟨_, hmem, _⟩ => nomatch hmem⟩
  | some u => simp [Token.startsAnywhere]

/-- The rows of a matrix, the second one behind a line break. -/
def twoRows : SourceText := .ofString "t.m" "[1, 2\n3]" {}

/-- No statement begins behind the comma. -/
theorem scan_startsInside_comma : ∃ (before after : List Token) (t : Token),
    (ofSource twoRows {}).tokens = before ++ t :: after ∧ openBrackets before.reverse ≠ [] ∧
      t.raw = "2" ∧ (t.firstInStatement = true ↔ ∃ u ∈ nearestSignificant? before.reverse,
        u.kind = .newline ∨ u.kind = .keyword ∧ u.raw ∈ ["else", "try", "otherwise"]) := by
  have hsplit : (ofSource twoRows {}).tokens = (ofSource twoRows {}).tokens.take 3 ++
      (ofSource twoRows {}).tokens.get ⟨3, by decide +kernel⟩ ::
        (ofSource twoRows {}).tokens.drop 4 := by
    rw [List.get_eq_getElem, List.getElem_cons_drop, List.take_append_drop]
  have hopen : openBrackets ((ofSource twoRows {}).tokens.take 3).reverse ≠ [] :=
    List.isEmpty_eq_false_iff.1 (by decide +kernel)
  exact ⟨_, _, _, hsplit, hopen, by decide +kernel,
    scan_startsInside _ _ _ _ _ hsplit hopen⟩

/-- The second row is marked as the start of a statement. -/
theorem scan_secondRow : ∃ (before after : List Token) (t : Token),
    (ofSource twoRows {}).tokens = before ++ t :: after ∧ openBrackets before.reverse ≠ [] ∧
      t.raw = "3" ∧ t.firstInStatement = true := by
  refine ⟨(ofSource twoRows {}).tokens.take 5, (ofSource twoRows {}).tokens.drop 6,
    (ofSource twoRows {}).tokens.get ⟨5, by decide +kernel⟩, ?_,
    List.isEmpty_eq_false_iff.1 (by decide +kernel), by decide +kernel, by decide +kernel⟩
  rw [List.get_eq_getElem, List.getElem_cons_drop, List.take_append_drop]

end Scan

end MFile
