import MFile.Proofs.Lexing.Continuations.Pieces

/-!
The states that reading comes through. Each is reached with the pieces that have been taken up to
it. Every token of a scan is taken at one of them, and a scan that stops at a fault stops at the
one that is reached with all its pieces, so what one step keeps is true wherever a token is.
-/

namespace MFile

open Lexing Text

/-- The token stands in the text, with nothing but these characters before and after it. -/
structure Token.Between (text before after : List Char) (t : Token) : Prop where
  text_eq : text = before ++ t.raw.toList ++ after
  span_eq : t.span = ⟨byteCount before, byteCount (before ++ t.raw.toList)⟩

namespace Lexing.State

variable {file : String} {octave : Bool} {start st next : State} {c : Char} {cs : List Char}
  {kind : Kind} {more : Nat} {mode : Mode} {pieces taken : List Piece}

structure Takes (octave : Bool) (st : State) (c : Char) (cs : List Char) (kind : Kind) (more : Nat)
    (mode : Mode) : Prop where
  ahead : st.pastBlanks.cursor.rest = c :: cs
  decides : st.pastBlanks.decide octave c cs = .token kind more mode

theorem Takes.step (h : Takes octave st c cs kind more mode) (file : String) :
    st.step file octave = .taken
      (commas ((st.decided mode).take file kind more) ++
        [⟨st.cursor.rest.takeWhile isBlank, ((st.decided mode).take file kind more).token⟩])
      ((st.decided mode).take file kind more).next :=
  step_of_decide h.ahead h.decides

theorem step_of_fault {fault : Fault} {skipped length : Nat}
    (hrest : st.pastBlanks.cursor.rest = c :: cs)
    (hdecide : st.pastBlanks.decide octave c cs = .fault fault skipped length) :
    st.step file octave = .failed (st.pastBlanks.error file fault skipped length) := by
  rw [step]
  dsimp only
  rw [hrest]
  dsimp only
  rw [hdecide]

theorem takes_of_step (h : st.step file octave = .taken taken next) :
    ∃ c cs kind more mode, Takes octave st c cs kind more mode ∧
      taken = commas ((st.decided mode).take file kind more) ++
        [⟨st.cursor.rest.takeWhile isBlank, ((st.decided mode).take file kind more).token⟩] ∧
      next = ((st.decided mode).take file kind more).next := by
  obtain ⟨c, cs, kind, more, mode, hrest, hdecide, hpieces, hnext⟩ := step_taken h
  exact ⟨c, cs, kind, more, mode, ⟨hrest, hdecide⟩, hpieces, hnext⟩

theorem Takes.raw (h : Takes octave st c cs kind more mode) (file : String) :
    ((st.decided mode).take file kind more).token.raw.toList = c :: cs.take more := by
  rw [take_token_raw, decided_cursor, h.ahead, String.toList_ofList, List.take_succ_cons]

theorem Takes.rest (h : Takes octave st c cs kind more mode) (file : String) :
    ((st.decided mode).take file kind more).next.cursor.rest = cs.drop more := by
  rw [take_next_cursor, decided_cursor, Cursor.rest_skip, h.ahead, List.drop_succ_cons]

theorem Takes.between {text behind : List Char} (h : Takes octave st c cs kind more mode)
    (hst : st.cursor.Stands text behind) (file : String) :
    ((st.decided mode).take file kind more).token.Between text
      (behind ++ st.cursor.rest.takeWhile isBlank) (cs.drop more) := by
  have hready := stands_pastBlanks hst
  have hnext := stands_take (st.decided mode) file kind more hready
  refine ⟨?_, ?_⟩
  · rw [← h.rest file, take_token_raw, String.toList_ofList]
    exact hnext.text_eq
  · rw [take_token_span, take_token_raw, String.toList_ofList]
    exact congrArg₂ Span.mk hready.offset_eq (hready.offset_skip (more + 1))

/-- Reading on from `start` takes the pieces and comes to the state. -/
inductive Reads (file : String) (octave : Bool) (start : State) : List Piece → State → Prop
  | start : Reads file octave start [] start
  | step {pieces taken : List Piece} {st next : State} (h : Reads file octave start pieces st)
      (hstep : st.step file octave = .taken taken next) :
      Reads file octave start (pieces ++ taken) next

namespace Reads

theorem cons (hstep : start.step file octave = .taken taken next)
    (h : Reads file octave next pieces st) : Reads file octave start (taken ++ pieces) st := by
  induction h with
  | start =>
    rw [List.append_nil]
    exact Reads.start.step hstep
  | step _ hlast ih =>
    rw [← List.append_assoc]
    exact ih.step hlast

theorem stands {text : List Char} (h : Reads file octave start pieces st)
    (hstart : start.cursor.Stands text []) : ∃ behind, st.cursor.Stands text behind := by
  induction h with
  | start => exact ⟨[], hstart⟩
  | step _ hstep ih =>
    obtain ⟨behind, hst⟩ := ih
    obtain ⟨c, cs, kind, more, mode, -, -, rfl⟩ := takes_of_step hstep
    exact ⟨_, stands_take (State.decided _ mode) file kind more (stands_pastBlanks hst)⟩

end Reads

theorem tokens_taken (taken : Taken) (gap : List Char) :
    (commas taken ++ [(⟨gap, taken.token⟩ : Piece)]).map Piece.token =
      taken.comma.toList ++ [taken.token] := by
  rw [commas, List.map_append, List.map_map]
  exact congrArg (· ++ _) (List.map_id _)

/-- How a token comes between others in what is read from `start`: a state that is reached goes on
with it, or with the token behind it, and it is the comma before that. -/
inductive TakenAt (file : String) (octave : Bool) (start : State) :
    List Token → Token → List Token → Prop
  | token {pieces : List Piece} {st : State} {c : Char} {cs : List Char} {kind : Kind}
      {more : Nat} {mode : Mode} (hreads : Reads file octave start pieces st)
      (htakes : Takes octave st c cs kind more mode) (after : List Token) :
      TakenAt file octave start
        (pieces.map Piece.token ++ ((st.decided mode).take file kind more).comma.toList)
        ((st.decided mode).take file kind more).token after
  | comma {pieces : List Piece} {st : State} {c : Char} {cs : List Char} {kind : Kind}
      {more : Nat} {mode : Mode} {t : Token} (hreads : Reads file octave start pieces st)
      (htakes : Takes octave st c cs kind more mode)
      (hcomma : ((st.decided mode).take file kind more).comma = some t) (after : List Token) :
      TakenAt file octave start (pieces.map Piece.token) t
        (((st.decided mode).take file kind more).token :: after)

theorem TakenAt.cons {before after : List Token} {t : Token}
    (hstep : start.step file octave = .taken taken next)
    (h : TakenAt file octave next before t after) :
    TakenAt file octave start (taken.map Piece.token ++ before) t after := by
  cases h with
  | token hreads htakes =>
    rw [← List.append_assoc, ← List.map_append]
    exact .token (hreads.cons hstep) htakes after
  | comma hreads htakes hcomma =>
    rw [← List.map_append]
    exact .comma (hreads.cons hstep) htakes hcomma _

theorem takenAt_step {before after rest : List Token} {t : Token}
    (hstep : start.step file octave = .taken taken next)
    (h : taken.map Piece.token = before ++ t :: rest) :
    TakenAt file octave start before t (rest ++ after) := by
  obtain ⟨c, cs, kind, more, mode, htakes, rfl, -⟩ := takes_of_step hstep
  have htoken := TakenAt.token (.start : Reads file octave start [] start) htakes
  rw [tokens_taken] at h
  cases hcomma : ((start.decided mode).take file kind more).comma with
  | none =>
    rw [hcomma] at h htoken
    obtain ⟨rfl, ht⟩ | ⟨-, ht⟩ := List.append_eq_singleton_iff.1 h.symm
    · cases ht
      exact htoken _
    · cases ht
  | some comma =>
    rw [hcomma] at h htoken
    cases before with
    | nil =>
      cases h
      exact .comma .start htakes hcomma after
    | cons u before =>
      obtain ⟨rfl, hrest⟩ := List.cons.inj h
      obtain ⟨rfl, ht⟩ | ⟨-, ht⟩ := List.append_eq_singleton_iff.1 hrest.symm
      · cases ht
        exact htoken _
      · cases ht

end Lexing.State

namespace Scan

open State

variable {file : String} {octave : Bool} {start : Lexing.State} {before after : List Token}
  {t : Token}

theorem takenAt (h : (ofState file octave start).tokens = before ++ t :: after) :
    TakenAt file octave start before t after := by
  revert before
  apply ofState_rec (motive := fun start scan => ∀ {before},
    scan.tokens = before ++ t :: after → TakenAt file octave start before t after)
  case finished | failed =>
    intros
    rename_i h
    exact absurd h.symm (List.append_ne_nil_of_right_ne_nil _ (List.cons_ne_nil _ _))
  case taken =>
    intro start taken next later hstep ih before h
    have hsplit : taken.map Piece.token ++ later.tokens = before ++ t :: after := by
      rw [← h]
      exact List.map_append.symm
    obtain ⟨earlier, rfl, hlater⟩ | ⟨rest, htaken, hrest⟩ := List.append_eq_append_iff.1 hsplit
    · exact (ih hlater).cons hstep
    · cases rest with
      | nil =>
        rw [List.append_nil] at htaken
        have hlater := @ih [] hrest.symm
        have hfirst := hlater.cons hstep
        rwa [List.append_nil, htaken] at hfirst
      | cons u rest =>
        cases hrest
        exact takenAt_step hstep htaken

variable {st : Lexing.State} {pieces : List Piece}

theorem reads_pieces (h : Reads file octave start pieces st) :
    (ofState file octave start).pieces = pieces ++ (ofState file octave st).pieces ∧
      (ofState file octave start).failure = (ofState file octave st).failure := by
  induction h with
  | start => exact ⟨rfl, rfl⟩
  | step _ hstep ih =>
    obtain ⟨hpieces, hfailure⟩ := ih
    rw [ofState_taken hstep] at hpieces hfailure
    exact ⟨by rw [hpieces, List.append_assoc], hfailure⟩

theorem exists_failed {e : LexError} (h : e ∈ (ofState file octave start).failure) :
    ∃ st, Reads file octave start (ofState file octave start).pieces st ∧
      st.step file octave = .failed e := by
  revert h
  apply ofState_rec (motive := fun start scan => e ∈ scan.failure →
    ∃ st, Reads file octave start scan.pieces st ∧ st.step file octave = .failed e)
  case finished => exact fun _ _ h => nomatch h
  case failed =>
    intro st _ hstep h
    cases h
    exact ⟨st, .start, hstep⟩
  case taken =>
    intro start taken next later hstep ih h
    obtain ⟨st, hreads, hfailed⟩ := ih h
    exact ⟨st, hreads.cons hstep, hfailed⟩

end Scan

end MFile
