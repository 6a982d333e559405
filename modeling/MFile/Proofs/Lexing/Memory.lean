import MFile.Proofs.Lexing.Reached

/-!
What a reader remembers of the tokens behind it, told from these tokens alone: which brackets are
open, and of the last token that the grammar looks at, whether an operand ends with it. Tokens
behind are listed from the last one back.
-/

namespace MFile

open Lexing

structure OpenBracket where
  token : Token
  /-- The tokens before it. -/
  behind : List Token

/-- The first of the tokens that is neither a comment nor a continuation. -/
def nearestSignificant? (tokens : List Token) : Option Token :=
  tokens.find? fun t => !t.kind.isTrivia

def OpenBracket.holdsParameters (b : OpenBracket) : Bool :=
  b.token.kind == .lparen && (nearestSignificant? b.behind).any (·.kind == .handle)

/-- The brackets that are left open, the innermost first. A closing bracket closes the innermost
one, whatever its shape. -/
def openBrackets : List Token → List OpenBracket
  | [] => []
  | t :: behind =>
    if t.kind.isOpening then ⟨t, behind⟩ :: openBrackets behind
    else if t.kind.isClosing then (openBrackets behind).tail
    else openBrackets behind

namespace Token

def closesParameters (behind : List Token) (t : Token) : Bool :=
  t.kind.isClosing && (openBrackets behind).head?.any (·.holdsParameters)

def endsOperand (behind : List Token) (t : Token) : Bool :=
  [.identifier, .number, .charArray, .string].contains t.kind || t.isTranspose || t.isWord "end" ||
    (t.kind.isClosing && !t.closesParameters behind)

def recalled (behind : List Token) (t : Token) : Previous where
  kind := t.kind
  transpose := t.isTranspose
  endsValue := [.identifier, .number, .charArray, .string].contains t.kind || t.kind.isClosing ||
    t.isTranspose || t.isWord "end"
  endsParams := t.closesParameters behind

end Token

def recalled? : List Token → Option Previous
  | [] => none
  | t :: behind => if t.kind.isTrivia then recalled? behind else some (t.recalled behind)

variable {behind : List Token} {t comma : Token}

theorem recalled?_kind (p : Kind → Bool) (behind : List Token) :
    (recalled? behind).any (fun q => p q.kind) =
      (nearestSignificant? behind).any (fun t => p t.kind) := by
  induction behind with
  | nil => rfl
  | cons t behind ih =>
    rw [recalled?, nearestSignificant?, List.find?_cons]
    cases t.kind.isTrivia with
    | true => exact ih
    | false => rfl

theorem Token.endsOperand_of_recalled (hvalue : (t.recalled behind).endsValue = true)
    (hparams : (t.recalled behind).endsParams = false) : t.endsOperand behind = true := by
  have hclosing : t.closesParameters behind = false := hparams
  rw [endsOperand, hclosing]
  simpa [recalled, or_assoc, or_comm, or_left_comm] using hvalue

/-- A handle is no operand by itself. -/
theorem Token.not_handle_of_recalled (hvalue : (t.recalled behind).endsValue = true) :
    t.kind ≠ .handle := by
  intro hkind
  simp [recalled, isTranspose, isOperator, isWord, hkind, Kind.isClosing] at hvalue

theorem recalled?_eq_some {p : Previous} (h : recalled? behind = some p) :
    ∃ (trivia rest : List Token) (t : Token), behind = trivia ++ t :: rest ∧
      (∀ u ∈ trivia, u.kind.isTrivia = true) ∧ t.kind.isTrivia = false ∧ p = t.recalled rest := by
  induction behind with
  | nil => cases h
  | cons t behind ih =>
    rw [recalled?] at h
    split at h
    · rename_i ht
      obtain ⟨trivia, rest, u, rfl, htrivia, hu, hp⟩ := ih h
      exact ⟨t :: trivia, rest, u, rfl, List.forall_mem_cons.2 ⟨ht, htrivia⟩, hu, hp⟩
    · rename_i ht
      cases h
      exact ⟨[], behind, t, rfl, List.forall_mem_nil _, Bool.eq_false_iff.2 ht, rfl⟩

theorem openBrackets_comma (h : comma.kind = .comma) (behind : List Token) :
    openBrackets (comma :: behind) = openBrackets behind := by
  rw [openBrackets, h]
  rfl

namespace Lexing.State

variable {file : String} {octave : Bool} {st : State} {c : Char} {cs : List Char} {kind : Kind}
  {more : Nat} {mode : Mode}

structure Remembers (behind : List Token) (st : State) : Prop where
  previous : st.previous = recalled? behind
  brackets : st.brackets =
    (openBrackets behind).map fun b => ⟨b.token.kind, b.holdsParameters⟩

theorem remembers_ofText (text : String) : Remembers [] (ofText text) := ⟨rfl, rfl⟩

theorem needsComma_of_comma (h : (st.take file kind more).comma = some comma) :
    st.needsComma kind (String.ofList (st.cursor.rest.take (more + 1)))
      (st.cursor.skip (more + 1)).rest = true := by
  simp only [take] at h
  split at h
  · assumption
  · cases h

structure CommaDue (st : State) (kind : Kind) (raw : String) (after : List Char) : Prop where
  inRow : st.inRow = true
  previous : ∃ p, st.previous = some p ∧ p.endsValue = true ∧ p.endsParams = false
  opens : opensElement kind raw after = true

theorem commaDue_of_needsComma {raw : String} {after : List Char}
    (h : st.needsComma kind raw after = true) : st.CommaDue kind raw after := by
  simp only [needsComma, Bool.and_eq_true] at h
  obtain ⟨⟨⟨-, hrow⟩, hprevious⟩, hopens⟩ := h
  refine ⟨hrow, ?_, hopens⟩
  cases hp : st.previous with
  | none =>
    rw [hp] at hprevious
    cases hprevious
  | some p =>
    rw [hp, Option.any_some, Bool.and_eq_true, Bool.not_eq_true'] at hprevious
    exact ⟨p, rfl, hprevious⟩

theorem isTrivia_of_opensElement {raw : String} {after : List Char}
    (h : opensElement kind raw after = true) : kind.isTrivia = false := by
  cases kind <;> first | rfl | cases h

theorem openBrackets_take (st : State) (file : String) (kind : Kind) (more : Nat)
    (behind : List Token) :
    openBrackets ((st.take file kind more).comma.toList ++ behind) = openBrackets behind := by
  cases hcomma : (st.take file kind more).comma with
  | none => rfl
  | some comma => exact openBrackets_comma (take_comma hcomma).2.1 behind

theorem comma_of_isTrivia (st : State) (file : String) (hkind : kind.isTrivia = true) (more : Nat) :
    (st.take file kind more).comma = none := by
  cases hcomma : (st.take file kind more).comma with
  | none => rfl
  | some comma =>
    have hopens := (commaDue_of_needsComma (needsComma_of_comma hcomma)).opens
    rw [isTrivia_of_opensElement hopens] at hkind
    cases hkind

namespace Remembers

variable (h : st.Remembers behind)
include h

theorem params : st.brackets.head?.any (·.params) =
    (openBrackets behind).head?.any (·.holdsParameters) := by
  rw [h.brackets, List.head?_map, Option.any_map]

theorem handle (file : String) (kind : Kind) (more : Nat) :
    st.previous.any (·.kind == .handle) =
      (nearestSignificant? ((st.take file kind more).comma.toList ++ behind)).any
        (·.kind == .handle) := by
  cases hcomma : (st.take file kind more).comma with
  | none =>
    rw [h.previous]
    exact recalled?_kind (· == .handle) behind
  | some comma =>
    obtain ⟨-, ⟨p, hp, hvalue, -⟩, -⟩ := commaDue_of_needsComma (needsComma_of_comma hcomma)
    obtain ⟨-, rest, t, -, -, -, rfl⟩ := recalled?_eq_some (h.previous.symm.trans hp)
    have hnot : (t.kind == .handle) = false :=
      beq_eq_false_iff_ne.2 (Token.not_handle_of_recalled hvalue)
    have hlast : nearestSignificant? (comma :: behind) = some comma := by
      rw [nearestSignificant?, List.find?_cons, (take_comma hcomma).2.1]
      rfl
    rw [hp, Option.toList_some, List.singleton_append, hlast, Option.any_some, Option.any_some,
      (take_comma hcomma).2.1]
    exact hnot

theorem take (file : String) (kind : Kind) (more : Nat) :
    (st.take file kind more).next.Remembers
      ((st.take file kind more).token :: ((st.take file kind more).comma.toList ++ behind)) where
  previous := by
    change st.previousAfter kind _ = _
    rw [previousAfter, recalled?, take_token_kind]
    split
    · rename_i htrivia
      rw [comma_of_isTrivia st file htrivia, h.previous]
      rfl
    · rw [Token.recalled, Token.closesParameters, Token.isTranspose, Token.isOperator,
        Token.isOperator, Token.isWord, take_token_kind, openBrackets_take, h.params,
        Bool.and_or_distrib_left]
      rfl
  brackets := by
    change st.bracketsAfter kind = _
    rw [bracketsAfter, openBrackets, take_token_kind, openBrackets_take, h.brackets]
    split
    · rw [List.map_cons, OpenBracket.holdsParameters, h.handle file kind more]
      rfl
    split
    · exact List.map_tail.symm
    · rfl

end Remembers

theorem Remembers.pastBlanks (h : st.Remembers behind) (mode : Mode) :
    (st.decided mode).Remembers behind := ⟨h.previous, h.brackets⟩

theorem Reads.remembers {text : String} {pieces : List Piece}
    (h : Reads file octave (ofText text) pieces st) :
    st.Remembers (pieces.map Piece.token).reverse := by
  induction h with
  | start => exact remembers_ofText text
  | step _ hstep ih =>
    obtain ⟨c, cs, kind, more, mode, -, rfl, rfl⟩ := takes_of_step hstep
    rw [List.map_append, tokens_taken, List.reverse_append, List.reverse_append,
      List.reverse_singleton]
    have hcomma : ∀ comma : Option Token, comma.toList.reverse = comma.toList := fun comma => by
      cases comma <;> rfl
    rw [hcomma]
    exact (ih.pastBlanks mode).take file kind more

end Lexing.State

end MFile
