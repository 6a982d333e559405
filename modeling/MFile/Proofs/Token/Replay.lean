import MFile.Token.Buffer

/-!
Tokens written out with other spacing. Every raw text stays as it is and where it is; a gap changes
only if one of the two tokens at it asks for that, and the gap at the start of a line never does.
What is asked for a token that is not written has no effect.
-/

namespace MFile.TokenBuffer

open Lexing

def writtenFrom (index : Nat) (pieces : List Piece) : List (Piece × Nat) :=
  (pieces.zipIdx index).filter fun p => !p.1.token.anonymous

def written (buffer : TokenBuffer) : List (Piece × Nat) := writtenFrom 0 buffer.pieces

def endsLine (p : Piece × Nat) : Bool := p.1.token.raw.toList.getLast? == some '\n'

/-- The gap written between `before` and `here`; the text begins with `here` if there is no
`before`. -/
inductive Spaced (hints : FixHints) : Option (Piece × Nat) → Piece × Nat → List Char → Prop
  | first (here : Piece × Nat) : Spaced hints none here here.1.gap
  | lineStart (before here : Piece × Nat) (hline : endsLine before = true) :
      Spaced hints (some before) here here.1.gap
  | trimmed {before here : Piece × Nat} (hline : endsLine before = false)
      (htrim : (hints.get here.2).trimBefore = true ∨ (hints.get before.2).trimAfter = true) :
      Spaced hints (some before) here []
  | widened {before here : Piece × Nat} (hline : endsLine before = false)
      (hbefore : (hints.get here.2).trimBefore = false)
      (hafter : (hints.get before.2).trimAfter = false) (hgap : here.1.gap = [])
      (hspace : (hints.get here.2).spaceBefore = true ∨ (hints.get before.2).spaceAfter = true) :
      Spaced hints (some before) here [' ']
  | kept {before here : Piece × Nat} (hline : endsLine before = false)
      (hbefore : (hints.get here.2).trimBefore = false)
      (hafter : (hints.get before.2).trimAfter = false)
      (hgap : here.1.gap ≠ [] ∨
        (hints.get here.2).spaceBefore = false ∧ (hints.get before.2).spaceAfter = false) :
      Spaced hints (some before) here here.1.gap

/-- The gaps written before the pieces, behind `last`. -/
inductive SpacedFrom (hints : FixHints) :
    Option (Piece × Nat) → List (Piece × Nat) → List (List Char) → Prop
  | nil (last : Option (Piece × Nat)) : SpacedFrom hints last [] []
  | cons {last : Option (Piece × Nat)} {here : Piece × Nat} {later : List (Piece × Nat)}
      {gap : List Char} {gaps : List (List Char)} (h : Spaced hints last here gap)
      (hlater : SpacedFrom hints (some here) later gaps) :
      SpacedFrom hints last (here :: later) (gap :: gaps)

/-- Each gap, and the raw text of its piece behind it. -/
def joined (pieces : List (Piece × Nat)) (gaps : List (List Char)) : List Char :=
  (List.zipWith (fun p gap => gap ++ p.1.token.raw.toList) pieces gaps).flatten

variable {hints hints' : FixHints} {last : Option (Piece × Nat)} {before here : Piece × Nat}
  {piece : Piece} {pieces : List Piece} {index : Nat} {lineStart : Bool} {wishes : Fix}

structure Behind (hints : FixHints) (last : Option (Piece × Nat)) (lineStart : Bool)
    (wishes : Fix) : Prop where
  lineStart_eq : lineStart = last.all endsLine
  wishes_eq : ∀ p ∈ last, wishes = hints.get p.2

theorem behind_none (hints : FixHints) : Behind hints none true {} :=
  ⟨rfl, fun p hp => absurd hp (Option.not_mem_none p)⟩

theorem behind_some (hints : FixHints) (p : Piece × Nat) :
    Behind hints (some p) (endsLine p) (hints.get p.2) :=
  ⟨rfl, fun _ hq => by cases hq; rfl⟩

section Piece

variable (h : piece.token.anonymous = true)

include h

theorem writtenFrom_anonymous :
    writtenFrom index (piece :: pieces) = writtenFrom (index + 1) pieces := by
  rw [writtenFrom, List.zipIdx_cons, List.filter_cons_of_neg (by simp [h]), writtenFrom]

theorem replayFrom_anonymous : replayFrom hints index lineStart wishes (piece :: pieces) =
    replayFrom hints (index + 1) lineStart wishes pieces := by
  rw [replayFrom, if_pos h]

end Piece

section Piece

variable (h : piece.token.anonymous = false)

include h

theorem writtenFrom_cons :
    writtenFrom index (piece :: pieces) = (piece, index) :: writtenFrom (index + 1) pieces := by
  rw [writtenFrom, List.zipIdx_cons, List.filter_cons_of_pos (by simp [h]), writtenFrom]

theorem replayFrom_cons : replayFrom hints index lineStart wishes (piece :: pieces) =
    (if lineStart then piece.gap else fixedGap wishes (hints.get index) piece.gap) ++
      piece.token.raw.toList ++
        replayFrom hints (index + 1) (endsLine (piece, index)) (hints.get index) pieces := by
  rw [replayFrom, if_neg (by simp [h])]
  rfl

end Piece

theorem spaced_fixedGap (hline : endsLine before = false) :
    Spaced hints (some before) here
      (fixedGap (hints.get before.2) (hints.get here.2) here.1.gap) := by
  rw [fixedGap]
  split
  · rename_i htrim
    exact .trimmed hline (Bool.or_eq_true_iff.1 htrim)
  · rename_i htrim
    obtain ⟨hbefore, hafter⟩ := Bool.or_eq_false_iff.1 (Bool.eq_false_iff.2 htrim)
    split
    · rename_i hwiden
      obtain ⟨hspace, hgap⟩ := Bool.and_eq_true_iff.1 hwiden
      exact .widened hline hbefore hafter (List.isEmpty_iff.1 hgap) (Bool.or_eq_true_iff.1 hspace)
    · rename_i hkeep
      refine .kept hline hbefore hafter ?_
      cases hgap : here.1.gap with
      | nil =>
        rw [hgap, List.isEmpty_nil, Bool.and_true] at hkeep
        exact .inr (Bool.or_eq_false_iff.1 (Bool.eq_false_iff.2 hkeep))
      | cons c cs => exact .inl (List.cons_ne_nil c cs)

theorem Behind.spaced (h : Behind hints last lineStart wishes) :
    Spaced hints last here
      (if lineStart then here.1.gap else fixedGap wishes (hints.get here.2) here.1.gap) := by
  obtain ⟨rfl, hwishes⟩ := h
  cases last with
  | none => exact .first here
  | some before =>
    rw [Option.all_some]
    split
    · rename_i hline
      exact .lineStart before here hline
    · rename_i hline
      rw [hwishes before rfl]
      exact spaced_fixedGap (Bool.eq_false_iff.2 hline)

theorem replayFrom_spaced (h : Behind hints last lineStart wishes) :
    ∃ gaps, SpacedFrom hints last (writtenFrom index pieces) gaps ∧
      replayFrom hints index lineStart wishes pieces =
        joined (writtenFrom index pieces) gaps := by
  induction pieces generalizing index last lineStart wishes with
  | nil => exact ⟨[], .nil last, rfl⟩
  | cons piece pieces ih =>
    cases hanonymous : piece.token.anonymous with
    | true =>
      rw [writtenFrom_anonymous hanonymous, replayFrom_anonymous hanonymous]
      exact ih h
    | false =>
      obtain ⟨gaps, hgaps, hlater⟩ := @ih _ (index + 1) _ _ (behind_some hints (piece, index))
      rw [writtenFrom_cons hanonymous, replayFrom_cons hanonymous, hlater]
      exact ⟨_, .cons h.spaced hgaps, rfl⟩

theorem replayFrom_congr (h : ∀ p ∈ writtenFrom index pieces, hints'.get p.2 = hints.get p.2) :
    replayFrom hints' index lineStart wishes pieces =
      replayFrom hints index lineStart wishes pieces := by
  induction pieces generalizing index lineStart wishes with
  | nil => rfl
  | cons piece pieces ih =>
    cases hanonymous : piece.token.anonymous with
    | true =>
      rw [writtenFrom_anonymous hanonymous] at h
      rw [replayFrom_anonymous hanonymous, replayFrom_anonymous hanonymous, ih h]
    | false =>
      rw [writtenFrom_cons hanonymous] at h
      obtain ⟨hhere, hlater⟩ := List.forall_mem_cons.1 h
      rw [replayFrom_cons hanonymous, replayFrom_cons hanonymous, hhere, ih hlater]

/-- Fixes touch only the gaps between written tokens on one line, and each gap only if one of its
two tokens asks for it; those for other indices have no effect. -/
theorem replayWith_spaced (buffer : TokenBuffer) (hints : FixHints) :
    (∃ gaps, SpacedFrom hints none buffer.written gaps ∧
      (buffer.replayWith hints).toList = joined buffer.written gaps ++ buffer.trailing) ∧
    (∀ hints' : FixHints, (∀ p ∈ buffer.written, hints'.get p.2 = hints.get p.2) →
      buffer.replayWith hints' = buffer.replayWith hints) ∧
    ((∀ p ∈ buffer.written, hints.get p.2 = {}) →
      buffer.replayWith hints = buffer.replay) := by
  have hcongr : ∀ {hints hints' : FixHints},
      (∀ p ∈ buffer.written, hints'.get p.2 = hints.get p.2) →
        buffer.replayWith hints' = buffer.replayWith hints := by
    intro hints hints' h
    rw [replayWith, replayWith, replayFrom_congr h]
  refine ⟨?_, fun hints' => hcongr, fun hnone => hcongr hnone⟩
  obtain ⟨gaps, hgaps, hreplay⟩ := @replayFrom_spaced _ _ buffer.pieces 0 _ _ (behind_none hints)
  exact ⟨gaps, hgaps, by rw [replayWith, String.toList_ofList, hreplay, written]⟩

end MFile.TokenBuffer
