import MFile.Proofs.Lexing.LineEnds.Scans
import MFile.Proofs.Tree.Relocate

/-!
The same text in another place. What is read depends on what lies ahead and on what the reader
knows, not on where in its text it is: two readers that differ in their places alone take the same
tokens up to places, and both reach the end of the text or neither does.
-/

namespace MFile

open Lexing Text

def Token.placeless (t : Token) : Token where
  kind := t.kind
  raw := if t.isSeparator then "" else t.raw
  location := t.location.forget
  span := ⟨0, 0⟩

namespace Lexing

inductive Mode.Shifted (offset offset' : Nat) : Mode → Mode → Prop
  | normal : Shifted offset offset' .normal .normal
  | command (kind : CommandKind) : Shifted offset offset' (.command kind) (.command kind)
  | after {headEnd headEnd' : Nat} (kind : CommandKind)
      (h : headEnd + offset' = headEnd' + offset) :
    Shifted offset offset' (.commandAfter headEnd kind) (.commandAfter headEnd' kind)

inductive Decision.Shifted (offset offset' : Nat) : Decision → Decision → Prop
  | token (kind : Kind) (more : Nat) {mode mode' : Mode} (h : mode.Shifted offset offset' mode') :
    Shifted offset offset' (.token kind more mode) (.token kind more mode')
  | fault (fault : Fault) (skipped length : Nat) :
    Shifted offset offset' (.fault fault skipped length) (.fault fault skipped length)

/-- Two readers that have the same ahead of them and know the same of what lies behind. -/
structure State.Shifted (st st' : State) : Prop where
  rest : st' = { st with cursor := st'.cursor, line := st'.line, mode := st'.mode }
  ahead : st'.cursor.rest = st.cursor.rest
  mode : st.mode.Shifted st.cursor.offset st'.cursor.offset st'.mode

inductive Step.Shifted : Step → Step → Prop
  | finished : Shifted .finished .finished
  | failed (e e' : LexError) : Shifted (.failed e) (.failed e')
  | taken {pieces pieces' : List Piece} {next next' : State}
    (h : pieces'.map (·.token.placeless) = pieces.map (·.token.placeless))
    (hnext : next.Shifted next') : Shifted (.taken pieces next) (.taken pieces' next')

section

variable {c c' : Cursor} {offset offset' : Nat} {mode mode' : Mode}

theorem Cursor.offset_skip_shifted (h : c'.rest = c.rest) (n : Nat) :
    (c.skip n).offset + c'.offset = (c'.skip n).offset + c.offset := by
  induction n generalizing c c' with
  | zero => exact Nat.add_comm _ _
  | succ n ih =>
    have hrest : c'.next.rest = c.next.rest := by rw [rest_next, rest_next, h]
    have hnext : c.next.offset + c'.offset = c'.next.offset + c.offset := by
      rw [next, next, h]
      cases c.rest with
      | nil => exact Nat.add_comm _ _
      | cons ch rest =>
        dsimp only
        omega
    have hskip := ih hrest
    rw [skip, skip]
    omega

theorem Mode.Shifted.reached (h : mode.Shifted offset offset' mode') :
    (mode.reached offset).Shifted offset offset' (mode'.reached offset') := by
  cases h with
  | normal => exact .normal
  | command kind => exact .command kind
  | @after headEnd headEnd' kind h =>
    rw [Mode.reached, Mode.reached]
    have hat : offset' = headEnd' ↔ offset = headEnd := by omega
    have hpast : headEnd' < offset' ↔ headEnd < offset := by omega
    simp only [hat, hpast]
    split
    · exact .command kind
    split
    · exact .normal
    · exact .after kind h

theorem Mode.Shifted.skip (h : mode.Shifted c.offset c'.offset mode') (hrest : c'.rest = c.rest)
    (n : Nat) : mode.Shifted (c.skip n).offset (c'.skip n).offset mode' := by
  cases h with
  | normal => exact .normal
  | command kind => exact .command kind
  | after kind h =>
    have hskip := Cursor.offset_skip_shifted hrest n
    exact .after kind (by omega)

end

namespace State

variable {st st' : State} {octave : Bool} {c : Char} {cs : List Char} {more : Nat}

namespace Shifted

theorem same {α : Type} (h : Shifted st st') (f : State → α)
    (hf : ∀ cursor line mode, f { st with cursor := cursor, line := line, mode := mode } = f st) :
    f st' = f st := by
  rw [h.rest, hf]

theorem pastBlanks (h : Shifted st st') : Shifted st.pastBlanks st'.pastBlanks := by
  have hblanks : run isBlank st'.cursor.rest = run isBlank st.cursor.rest := by rw [h.ahead]
  refine ⟨?_, ?_, ?_⟩
  · rw [State.pastBlanks, State.pastBlanks, hblanks]
    exact congrArg (fun s : State => { s with
      cursor := st'.cursor.skip (run isBlank st.cursor.rest)
      afterBlank := s.afterBlank || 0 < run isBlank st.cursor.rest
      mode := st'.mode.reached st'.cursor.offset }) h.rest
  · rw [pastBlanks_rest, pastBlanks_rest, h.ahead]
  · rw [State.pastBlanks, State.pastBlanks, hblanks]
    exact h.mode.reached.skip h.ahead _

theorem normal (h : Shifted st st') :
    Shifted { st with mode := .normal } { st' with mode := .normal } :=
  ⟨congrArg (fun s : State => { s with mode := .normal }) h.rest, h.ahead, .normal⟩

theorem ofExtent (h : Shifted st st') (kind : Kind) (extent : Extent) :
    (Decision.ofExtent kind st.mode extent).Shifted st.cursor.offset st'.cursor.offset
      (.ofExtent kind st'.mode extent) := by
  cases extent with
  | sound more => exact .token _ _ h.mode
  | faulty fault more => exact .fault _ _ _

theorem modeAfterName (h : Shifted st st') (word : String) (after : List Char) :
    (st.modeAfterName more word after).Shifted st.cursor.offset st'.cursor.offset
      (st'.modeAfterName more word after) := by
  have hstart : st'.statementStart = st.statementStart :=
    h.same State.statementStart fun _ _ _ => rfl
  have hblocks : st'.blocks = st.blocks := h.same State.blocks fun _ _ _ => rfl
  rw [State.modeAfterName, State.modeAfterName, hstart, hblocks]
  split
  · dsimp only
    split
    · split
      · exact .command _
      · exact .after _ (Cursor.offset_skip_shifted h.ahead _)
    · exact h.mode
  · exact h.mode

theorem decideWord (h : Shifted st st') :
    (st.decideWord c cs more).Shifted st.cursor.offset st'.cursor.offset
      (st'.decideWord c cs more) := by
  have hprevious : st'.previous = st.previous := h.same State.previous fun _ _ _ => rfl
  have hstart : st'.statementStart = st.statementStart :=
    h.same State.statementStart fun _ _ _ => rfl
  have hopens := h.same
    (fun s => s.opensBlock (String.ofList (c :: cs.take more)) (cs.drop more)) fun _ _ _ => rfl
  rw [State.decideWord, State.decideWord, hprevious, hstart, hopens]
  split
  · exact .token _ _ h.mode
  split
  · exact .token _ _ h.mode
  split
  · exact .token _ _ h.mode
  · exact .token _ _ (h.modeAfterName _ _)

theorem decidePlain (h : Shifted st st') :
    (st.decidePlain octave c cs).Shifted st.cursor.offset st'.cursor.offset
      (st'.decidePlain octave c cs) := by
  have hstart : st'.statementStart = st.statementStart :=
    h.same State.statementStart fun _ _ _ => rfl
  have hquote : st'.quoteReading = st.quoteReading := h.same State.quoteReading fun _ _ _ => rfl
  have hfirst : st'.firstInLine = st.firstInLine := h.same State.firstInLine fun _ _ _ => rfl
  rw [State.decidePlain, State.decidePlain]
  cases Lexeme.ofChars? c cs with
  | none => exact .fault _ _ _
  | some lexeme =>
    cases lexeme with
    | newline more | continuation more | symbol kind more => exact .token _ _ h.mode
    | comment more =>
      dsimp only
      rw [decideComment, decideComment, hfirst]
      split
      · split
        · split
          · exact .token _ _ h.mode
          · exact .fault _ _ _
        · exact .token _ _ h.mode
      · exact .token _ _ h.mode
    | word more => exact h.decideWord
    | number extent | text extent => exact h.ofExtent _ extent
    | quote =>
      dsimp only
      rw [decideQuote, decideQuote, hquote]
      cases st.quoteReading with
      | transpose => exact .token _ _ h.mode
      | ambiguous => exact .fault _ _ _
      | literal => exact h.ofExtent _ _
    | bang more =>
      dsimp only
      rw [decideBang, decideBang, hstart]
      split
      · exact .token _ _ h.mode
      split
      · exact .token _ _ h.mode
      · exact .fault _ _ _

theorem decideCommand (h : Shifted st st') (kind : CommandKind) :
    (st.decideCommand kind c cs).Shifted st.cursor.offset st'.cursor.offset
      (st'.decideCommand kind c cs) := by
  rw [State.decideCommand.eq_def, State.decideCommand.eq_def]
  split
  · cases kind with
    | words => exact .token _ _ h.mode
    | path => exact .fault _ _ _
  · cases Command.text kind false (c :: cs) with
    | error length => cases kind <;> exact .fault _ _ _
    | ok length =>
      cases kind with
      | words => exact .token _ _ h.mode
      | path =>
        dsimp only
        split
        · exact .fault _ _ _
        · exact .token _ _ h.mode

theorem decide (h : Shifted st st') (octave : Bool) (c : Char) (cs : List Char) :
    (st.decide octave c cs).Shifted st.cursor.offset st'.cursor.offset
      (st'.decide octave c cs) := by
  have hmode := h.mode
  have hplain : (st.decidePlain octave c cs).Shifted st.cursor.offset st'.cursor.offset
      (st'.decidePlain octave c cs) := h.decidePlain
  rw [State.decide, State.decide]
  generalize st.mode = mode at hmode
  generalize st'.mode = mode' at hmode
  cases hmode with
  | normal | after => exact hplain
  | command kind =>
    dsimp only
    split
    · exact h.normal.decidePlain
    · exact h.decideCommand kind

theorem take (h : Shifted st st') (file : String) (kind : Kind) (more : Nat) :
    (st'.take file kind more).comma.map Token.placeless =
        (st.take file kind more).comma.map Token.placeless ∧
      (st'.take file kind more).token.placeless = (st.take file kind more).token.placeless ∧
      Shifted (st.take file kind more).next (st'.take file kind more).next := by
  have hstop : (st'.cursor.skip (more + 1)).rest = (st.cursor.skip (more + 1)).rest := by
    rw [Cursor.rest_skip, Cursor.rest_skip, h.ahead]
  have hcomma : ∀ raw after, st'.needsComma kind raw after = st.needsComma kind raw after :=
    fun raw after => h.same (fun s => s.needsComma kind raw after) fun _ _ _ => rfl
  have hfirst : ∀ raw, st'.firstInStatementAfter kind raw = st.firstInStatementAfter kind raw :=
    fun raw => h.same (fun s => s.firstInStatementAfter kind raw) fun _ _ _ => rfl
  have hprevious : ∀ raw, st'.previousAfter kind raw = st.previousAfter kind raw :=
    fun raw => h.same (fun s => s.previousAfter kind raw) fun _ _ _ => rfl
  have hblocks : ∀ raw, st'.blocksAfter kind raw = st.blocksAfter kind raw :=
    fun raw => h.same (fun s => s.blocksAfter kind raw) fun _ _ _ => rfl
  have hbrackets : st'.bracketsAfter kind = st.bracketsAfter kind :=
    h.same (fun s => s.bracketsAfter kind) fun _ _ _ => rfl
  refine ⟨?_, ?_, ?_, hstop, h.mode.skip h.ahead _⟩
  · simp only [State.take, hcomma, hstop, h.ahead]
    split <;> rfl
  · simp only [State.take, Token.placeless, Token.isSeparator, h.ahead]
    rfl
  · simp only [State.take, hfirst, hprevious, hblocks, hbrackets, h.ahead]

theorem placeless_pieces (comma : Option Token) (gap : List Char) (t : Token) :
    (comma.toList.map (Piece.mk [] ·) ++ [Piece.mk gap t]).map (·.token.placeless) =
      (comma.map Token.placeless).toList ++ [t.placeless] := by
  cases comma <;> rfl

theorem step (h : Shifted st st') (file : String) (octave : Bool) :
    (st.step file octave).Shifted (st'.step file octave) := by
  have hready := h.pastBlanks
  rw [State.step, State.step]
  dsimp only
  rw [hready.ahead]
  cases st.pastBlanks.cursor.rest with
  | nil => exact .finished
  | cons c cs =>
    have hdecide := hready.decide octave c cs
    dsimp only
    generalize st.pastBlanks.decide octave c cs = decision at hdecide
    generalize st'.pastBlanks.decide octave c cs = decision' at hdecide
    cases hdecide with
    | fault => exact .failed _ _
    | @token kind more mode mode' hmode =>
      have hmoded : Shifted { st.pastBlanks with mode := mode }
          { st'.pastBlanks with mode := mode' } :=
        ⟨congrArg (fun s : State => { s with mode := mode' }) hready.rest, hready.ahead, hmode⟩
      obtain ⟨hcomma, htoken, hnext⟩ := hmoded.take file kind more
      refine .taken ?_ hnext
      rw [placeless_pieces, placeless_pieces, hcomma, htoken]

end Shifted

end State

end Lexing

namespace Scan

variable {file : String} {octave : Bool} {st st' : Lexing.State}

structure Shifted (scan scan' : Scan) : Prop where
  tokens : scan'.tokens.map Token.placeless = scan.tokens.map Token.placeless
  failure : scan'.failure.isSome = scan.failure.isSome

theorem shifted_ofState (st : Lexing.State) : ∀ st', st.Shifted st' →
    Shifted (ofState file octave st) (ofState file octave st') := by
  apply ofState_rec (motive := fun st scan => ∀ st', st.Shifted st' →
    Shifted scan (ofState file octave st'))
  case finished =>
    intro st hstep st' h
    have hshifted := h.step file octave
    rw [hstep] at hshifted
    generalize hstep' : st'.step file octave = step' at hshifted
    cases hshifted
    rw [ofState_finished hstep']
    exact ⟨rfl, rfl⟩
  case failed =>
    intro st e hstep st' h
    have hshifted := h.step file octave
    rw [hstep] at hshifted
    generalize hstep' : st'.step file octave = step' at hshifted
    cases hshifted
    rw [ofState_failed hstep']
    exact ⟨rfl, rfl⟩
  case taken =>
    intro st pieces next later hstep ih st' h
    have hshifted := h.step file octave
    rw [hstep] at hshifted
    generalize hstep' : st'.step file octave = step' at hshifted
    cases hshifted with
    | taken hpieces hnext =>
      obtain ⟨htokens, hfailure⟩ := ih _ hnext
      rw [ofState_taken hstep']
      refine ⟨?_, hfailure⟩
      simp only [tokens, List.map_append, List.map_map] at htokens ⊢
      exact congrArg₂ _ hpieces htokens

end Scan

end MFile
