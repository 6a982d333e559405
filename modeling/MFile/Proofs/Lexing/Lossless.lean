import MFile.Proofs.Lexing.Step
import MFile.Token.Buffer

/-!
Nothing of a text is lost. The tokens that somebody wrote stand in the text one after the other
with only blanks between them; the gaps, the raw texts and the trailing text together are the
text again, also where reading stopped at a fault.
-/

namespace MFile.Scan

open Text Lexing

/-- The pieces that stand in the text; a comma that nobody wrote does not. -/
def written (scan : Scan) : List Piece := scan.pieces.filter fun p => !p.token.anonymous

/-- What the text holds before each token, from `offset` or from the end of the token before. -/
def gapsFrom (text : List Char) : Nat → List Token → List (Option (List Char))
  | _, [] => []
  | offset, t :: ts => slice? text offset t.span.start :: gapsFrom text t.span.stop ts

/-- The written pieces and the trailing text fill `rest`, which is the text from `offset` on. -/
structure Tiles (text : List Char) (offset : Nat) (rest : List Char) (scan : Scan) : Prop where
  /-- A span cuts the raw text out of the whole one, so both its ends are between characters. -/
  raw_slice : ∀ p ∈ scan.written, p.token.raw ≠ "" ∧
    slice? text p.token.span.start p.token.span.stop = some p.token.raw.toList
  span_pos : ∀ p ∈ scan.written, offset ≤ p.token.span.start ∧
    p.token.span.start < p.token.span.stop
  ordered : scan.written.Pairwise fun p q => p.token.span.stop ≤ q.token.span.start
  gap_slice : gapsFrom text offset (scan.written.map (·.token)) =
    scan.written.map fun p => some p.gap
  gap_blank : ∀ p ∈ scan.written, ∀ c ∈ p.gap, isBlank c
  text_eq : scan.written.flatMap (fun p => p.gap ++ p.token.raw.toList) ++ scan.trailing = rest

theorem tiles_stop (text : List Char) (offset : Nat) (rest : List Char)
    (failure : Option LexError) : Tiles text offset rest ⟨[], failure, rest⟩ :=
  ⟨by simp [written], by simp [written], by simp [written], by simp [written, gapsFrom],
    by simp [written], by simp [written]⟩

theorem Tiles.cons {text raw rest full : List Char} {offset : Nat} {p : Piece}
    {scan later : Scan} (hfull : full = p.gap ++ raw ++ rest)
    (hwritten : scan.written = p :: later.written) (htrailing : scan.trailing = later.trailing)
    (hgap : slice? text offset p.token.span.start = some p.gap)
    (hblank : ∀ c ∈ p.gap, isBlank c) (hraw : p.token.raw = String.ofList raw)
    (hne : raw ≠ []) (hslice : slice? text p.token.span.start p.token.span.stop = some raw)
    (hstart : offset ≤ p.token.span.start) (hstop : p.token.span.start < p.token.span.stop)
    (h : Tiles text p.token.span.stop rest later) :
    Tiles text offset full scan := by
  have hlater : ∀ q ∈ later.written, p.token.span.stop ≤ q.token.span.start :=
    fun q hq => (h.span_pos q hq).1
  refine ⟨?_, ?_, ?_, ?_, ?_, ?_⟩
  · intro q hq
    rw [hwritten, List.mem_cons] at hq
    rcases hq with rfl | hq
    · exact ⟨by simpa [hraw] using hne, by simpa [hraw] using hslice⟩
    · exact h.raw_slice q hq
  · intro q hq
    rw [hwritten, List.mem_cons] at hq
    rcases hq with rfl | hq
    · exact ⟨hstart, hstop⟩
    · have hq' := h.span_pos q hq
      exact ⟨by omega, hq'.2⟩
  · rw [hwritten, List.pairwise_cons]
    exact ⟨hlater, h.ordered⟩
  · rw [hwritten, List.map_cons, List.map_cons, gapsFrom, hgap, h.gap_slice]
  · intro q hq
    rw [hwritten, List.mem_cons] at hq
    rcases hq with rfl | hq
    · exact hblank
    · exact h.gap_blank q hq
  · rw [hwritten, htrailing, List.flatMap_cons, hraw, String.toList_ofList, hfull, ← h.text_eq]
    simp only [List.append_assoc]

variable {st next : State} {file : String} {octave : Bool} {text behind : List Char}
  {pieces : List Piece} {later : Scan}

theorem written_taken (gap : List Char) (kind : Kind) (more : Nat) (later : Scan) :
    ({ later with pieces := (st.take file kind more).comma.toList.map (⟨[], ·⟩) ++
        [⟨gap, (st.take file kind more).token⟩] ++ later.pieces } : Scan).written =
      ⟨gap, (st.take file kind more).token⟩ :: later.written := by
  have hcomma : ((st.take file kind more).comma.toList.map (⟨[], ·⟩ : Token → Piece)).filter
      (fun p => !p.token.anonymous) = [] := by
    rw [List.filter_eq_nil_iff]
    intro p hp
    obtain ⟨t, ht, rfl⟩ := List.mem_map.1 hp
    simp [(State.take_comma (Option.mem_toList.1 ht)).1]
  simp only [written, List.filter_append, hcomma]
  rfl

theorem Tiles.step (hst : st.cursor.Stands text behind)
    (h : st.step file octave = .taken pieces next)
    (ht : Tiles text next.cursor.offset next.cursor.rest later) :
    Tiles text st.cursor.offset st.cursor.rest
      { later with pieces := pieces ++ later.pieces } := by
  obtain ⟨c, cs, kind, more, mode, hrest, -, rfl, rfl⟩ := State.step_taken h
  have hready := State.stands_pastBlanks hst
  have hne : st.pastBlanks.cursor.rest.take (more + 1) ≠ [] := by simp [hrest]
  have hbytes := byteCount_pos hne
  have hgap : slice? text st.cursor.offset st.pastBlanks.cursor.offset =
      some (st.cursor.rest.takeWhile isBlank) := by
    have hs := hst.slice (run isBlank st.cursor.rest)
    rwa [take_run] at hs
  have hsplit : st.cursor.rest = st.cursor.rest.takeWhile isBlank ++
      st.pastBlanks.cursor.rest.take (more + 1) ++
        (st.pastBlanks.cursor.skip (more + 1)).rest := by
    rw [Cursor.rest_skip, List.append_assoc, List.take_append_drop, State.pastBlanks_rest,
      List.takeWhile_append_dropWhile]
  apply Tiles.cons hsplit (written_taken _ kind more later) rfl
  · exact hgap
  · exact fun ch hch => List.mem_takeWhile_imp hch
  · rfl
  · exact hne
  · exact hready.slice (more + 1)
  · simp only [State.take_token_span, State.decided_cursor, hst.offset_eq, hready.offset_eq,
      byteCount_append, Nat.le_add_right]
  · simp only [State.take_token_span, State.decided_cursor, hready.offset_eq,
      hready.offset_skip, byteCount_append] at hbytes ⊢
    omega
  · exact ht

theorem tiles_ofState (st : State) (file : String) (octave : Bool)
    (hst : st.cursor.Stands text behind) :
    Tiles text st.cursor.offset st.cursor.rest (ofState file octave st) ∧
      ((ofState file octave st).failure = none →
        ∀ c ∈ (ofState file octave st).trailing, isBlank c) := by
  revert behind
  apply ofState_rec (motive := fun st scan => ∀ {behind}, st.cursor.Stands text behind →
    Tiles text st.cursor.offset st.cursor.rest scan ∧
      (scan.failure = none → ∀ c ∈ scan.trailing, isBlank c))
  case finished =>
    intro st h behind hst
    have hblank := State.step_finished h
    rw [State.pastBlanks_rest, List.dropWhile_eq_nil_iff] at hblank
    exact ⟨tiles_stop .., fun _ => hblank⟩
  case failed =>
    intro st e h behind hst
    exact ⟨tiles_stop .., fun hnone => nomatch hnone⟩
  case taken =>
    intro st pieces next later h ih behind hst
    obtain ⟨c, cs, kind, more, mode, -, -, -, hnext⟩ := State.step_taken h
    have hstands := State.stands_take (st.decided mode) file kind more
      (State.stands_pastBlanks hst)
    obtain ⟨htiles, htrailing⟩ := ih (hnext ▸ hstands)
    exact ⟨Tiles.step hst h htiles, htrailing⟩

end MFile.Scan

namespace MFile.TokenBuffer

open Lexing

theorem replayFrom_nil (index : Nat) (lineStart : Bool) (pieces : List Piece) :
    replayFrom [] index lineStart {} pieces =
      (pieces.filter fun p => !p.token.anonymous).flatMap
        fun p => p.gap ++ p.token.raw.toList := by
  induction pieces generalizing index lineStart with
  | nil => rfl
  | cons p pieces ih =>
    have hfix : FixHints.get [] index = {} := rfl
    have hgap : fixedGap {} {} p.gap = p.gap := by simp [fixedGap]
    by_cases ha : p.token.anonymous = true
    · simp [replayFrom, ha, ih]
    · simp [replayFrom, ha, ih, hfix, hgap]

theorem replay_eq (buffer : TokenBuffer) :
    buffer.replay = String.ofList ((buffer.pieces.filter fun p => !p.token.anonymous).flatMap
      (fun p => p.gap ++ p.token.raw.toList) ++ buffer.trailing) := by
  rw [replay, replayWith, replayFrom_nil]

end MFile.TokenBuffer

namespace MFile.Scan

open Text

/-- Reading loses nothing: the written pieces and the trailing text are the text, whether or not
reading came to its end, and where it did, writing the tokens out gives the text back. -/
theorem scan_lossless (source : SourceText) (settings : Settings) :
    let scan := ofSource source settings
    Tiles source.text.toList 0 source.text.toList scan ∧
      (scan.failure = none → (∀ c ∈ scan.trailing, isBlank c) ∧
        ∃ buffer, TokenBuffer.ofSource source settings = .ok buffer ∧
          buffer.replay = source.text) := by
  intro scan
  obtain ⟨htiles, htrailing⟩ := tiles_ofState (Lexing.State.ofText source.text) source.name
    settings.octave (Lexing.Cursor.stands_start source.text.toList)
  refine ⟨htiles, fun hnone => ⟨htrailing hnone, ⟨scan.pieces, scan.trailing⟩, ?_, ?_⟩⟩
  · simp only [TokenBuffer.ofSource]
    rw [show (ofSource source settings).failure = none from hnone]
  · have htext : scan.written.flatMap (fun p => p.gap ++ p.token.raw.toList) ++ scan.trailing =
        source.text.toList := htiles.text_eq
    rw [TokenBuffer.replay_eq]
    exact (congrArg String.ofList htext).trans String.ofList_toList

end MFile.Scan
