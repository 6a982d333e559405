import MFile.Proofs.Lexing.LineUse
import MFile.Proofs.Lexing.Reached
import MFile.Proofs.Text.Lookups

/-!
Where tokens are. The reader keeps its line from one token to the next; the locations that it makes
are those that counting the characters of the text gives, and those that the line index looks up. A
line that is kept in 32 bits along the same tokens gives the counts of 32 bits, and the same
locations where these are enough. A token is first in its line if only blanks stand before it there.
-/

namespace MFile

open Text Lexing

/-- The line behind some tokens, as it is kept from one to the next. -/
def Lexing.CurrentLine.along {N : Type} [Add N] [NatCast N] (whole : List Char)
    (tokens : List Token) : CurrentLine N :=
  tokens.foldl CurrentLine.behind (first whole)

namespace SourceText

/-- The location of the part of a source text that a span cuts out, by counting the characters
before it. -/
structure Locates (source : SourceText) (before : List Char) (span : Span) (text : List Char)
    (l : Location) : Prop where
  before_slice : slice? source.text.toList 0 span.start = some before
  text_slice : slice? source.text.toList span.start span.stop = some text
  line : l.line? = some (position before).1
  /-- The columns take the characters before the first break, at least one, and are in order. -/
  columns : ∃ c, l.columns? = some c ∧ c.first = (position before).2 ∧
    c.last = c.first + max 1 (run (· ≠ '\n') text) - 1 ∧ Columns.ofBounds c.first c.last = .ok c
  one_line : l.stop? = none
  context : l.context = source.line? (position before).1 ∧ l.context.isSome = true

/-- Each line has room for one character more, which the sum of a column and a width may reach. -/
def HasRoom (cs : List Char) : Prop := ∀ piece ∈ pieces '\n' cs, piece.length + 1 < UInt32.size

/-- What the line kept in 32 bits and the line index tell of that place: the counts of 32 bits, and
if the text fits into these, the location itself, whose columns are in order. -/
structure Counts (source : SourceText) (before : List Char) (start : Nat) (text : List Char)
    (l : Location) (words : CurrentLine UInt32) : Prop where
  number : words.number = (wordPosition before).1
  column : words.column start = (wordPosition before).2
  context : l.context = some words.text
  lineCol : source.lineCol start = (words.number.toNat, (words.column start).toNat)
  exact : Fits source.text.toList → source.lineCol start = position before ∧
    l.line? = some words.number.toNat
  columns : HasRoom source.text.toList →
    ∃ c, words.wordColumns start text = .ok c ∧ l.columns? = some c

variable {source : SourceText} {behind rest : List Char} {words : CurrentLine UInt32}

theorem line?_position (htext : source.text.toList = behind ++ rest) :
    source.line? (position behind).1 = some (firstLine (lastLine behind ++ rest)) := by
  have hown : ∀ ch ∈ lastLine behind, decide (ch ≠ '\n') = true := by
    intro ch hch
    have hne : ch ≠ '\n' := fun heq => break_notMem_lastLine behind (heq ▸ hch)
    simpa using hne
  rw [SourceText.line?, source.lines_eq, LineIndex.line?_position htext, firstLine,
    List.takeWhile_append_of_pos hown]

theorem locates (htext : source.text.toList = behind ++ rest) (file : String) (n : Nat) :
    source.Locates behind ⟨byteCount behind, byteCount (behind ++ rest.take n)⟩ (rest.take n)
      (CurrentLine.located file behind rest (rest.take n)) := by
  have hcontext := line?_position htext
  refine ⟨?_, ?_, rfl, ?_, rfl, hcontext.symm, rfl⟩
  · rw [htext]
    exact slice?_prefix behind rest
  · have hs := slice?_append behind (rest.take n) (rest.drop n)
    rwa [List.append_assoc, List.take_append_drop, ← htext] at hs
  · refine ⟨_, rfl, rfl, ?_, ?_⟩
    · simp only [Columns.ofWidth, Nat.max_comm]
    · rw [Columns.ofBounds, dif_pos (Columns.first_le_last _)]

theorem column_add_run_lt (hroom : HasRoom (behind ++ rest)) (n : Nat) :
    (position behind).2 + max (run (· ≠ '\n') (rest.take n)) 1 < UInt32.size := by
  have hline := hroom _ (List.mem_of_getElem? (getElem?_pieces behind rest))
  have hrun : run (· ≠ '\n') (rest.take n) ≤ (rest.takeWhile (· ≠ '\n')).length := by
    rw [run, ← List.take_takeWhile]
    exact List.length_take_le' _ _
  rw [List.length_append] at hline
  rw [position_eq]
  omega

theorem wordColumns_located (hroom : HasRoom (behind ++ rest)) (hwords : words.Tracks behind rest)
    (file : String) (n : Nat) : ∃ c, words.wordColumns (byteCount behind) (rest.take n) = .ok c ∧
      (CurrentLine.located file behind rest (rest.take n)).columns? = some c := by
  have hlt := column_add_run_lt hroom n
  have hcolumn := hwords.column UInt32.ofNat_add
  generalize hwidth : max (run (· ≠ '\n') (rest.take n)) 1 = width at hlt
  have hone : 1 ≤ width := hwidth ▸ Nat.le_max_right _ _
  have hlast : UInt32.ofNat (position behind).2 + UInt32.ofNat width - 1 =
      UInt32.ofNat ((position behind).2 + width - 1) := by
    rw [UInt32.ofNat_sub (by omega), UInt32.ofNat_add]
    rfl
  refine ⟨_, ?_, rfl⟩
  rw [CurrentLine.wordColumns, Columns.covering, hcolumn, hwidth]
  change Columns.ofBounds (UInt32.ofNat _).toNat
    (UInt32.ofNat (position behind).2 + UInt32.ofNat width - 1).toNat = _
  rw [hlast, UInt32.toNat_ofNat_of_lt' (by omega), UInt32.toNat_ofNat_of_lt' (by omega),
    Columns.ofBounds, dif_pos (by omega), Columns.ofWidth]
  simp only [hwidth]

theorem counts (htext : source.text.toList = behind ++ rest) (hwords : words.Tracks behind rest)
    (file : String) (n : Nat) : source.Counts behind (byteCount behind) (rest.take n)
      (CurrentLine.located file behind rest (rest.take n)) words := by
  have hcolumn : words.column (byteCount behind) = (wordPosition behind).2 := by
    rw [hwords.column UInt32.ofNat_add, wordPosition_eq]
    rfl
  have hnumber : words.number = (wordPosition behind).1 := by
    rw [hwords.number, wordPosition_eq]
    rfl
  have hlineCol : source.lineCol (byteCount behind) =
      (wordPosition behind).map UInt32.toNat UInt32.toNat := by
    rw [SourceText.lineCol, source.lines_eq, LineIndex.lineCol_eq_wordPosition htext]
  refine ⟨hnumber, hcolumn, congrArg some hwords.text.symm, ?_, fun hfits => ?_, fun hroom => ?_⟩
  · rw [hlineCol, hnumber, hcolumn]
    rfl
  · rw [htext] at hfits
    refine ⟨hlineCol.trans hfits.wordPosition, ?_⟩
    rw [hnumber]
    exact congrArg some (congrArg Prod.fst hfits.wordPosition).symm
  · rw [htext] at hroom
    exact wordColumns_located hroom hwords file n

end SourceText

namespace Lexing.State

variable {st next : State} {file : String} {octave : Bool} {behind : List Char}

/-- The state's word on whether the next token is the first of its line. After a block comment
that word is given too early, but then the line is at its end. -/
structure LineStart (behind : List Char) (st : State) : Prop where
  blank : st.firstInLine = true →
    (∀ c ∈ lastLine behind, isBlank c = true) ∨ AtBreak st.cursor.rest
  used : st.firstInLine = false → ∃ c ∈ lastLine behind, isBlank c = false

theorem lineStart_ofText (text : String) : LineStart [] (ofText text) :=
  ⟨fun _ => Or.inl (by simp), fun h => nomatch h⟩

theorem lineStart_pastBlanks (h : LineStart behind st) :
    LineStart (behind ++ st.cursor.rest.takeWhile isBlank) st.pastBlanks := by
  have hline := lastLine_append (a := behind) (lineFeed_notMem_blanks st.cursor.rest)
  refine ⟨fun hfirst => ?_, fun hfirst => ?_⟩
  · rcases h.blank hfirst with hblank | hbreak
    · refine Or.inl fun c hc => ?_
      rw [hline, List.mem_append] at hc
      rcases hc with hc | hc
      · exact hblank c hc
      · exact List.mem_takeWhile_imp hc
    · right
      rw [pastBlanks_rest]
      cases hrest : st.cursor.rest with
      | nil => simp [AtBreak]
      | cons c cs =>
        have hc : isBreak c = true := hbreak c (by simp [hrest])
        have hnot : isBlank c = false := by
          simp only [isBreak, Bool.or_eq_true, beq_iff_eq] at hc
          rcases hc with rfl | rfl <;> decide
        rw [List.dropWhile_cons, hnot]
        simpa [AtBreak] using hc
  · obtain ⟨c, hc, hnot⟩ := h.used hfirst
    exact ⟨c, by rw [hline]; exact List.mem_append_left _ hc, hnot⟩

theorem firstInLine_iff {c : Char} {cs : List Char} {kind : Kind} {more : Nat} {mode : Mode}
    (st : State) (h : LineStart behind st) (hrest : st.cursor.rest = c :: cs)
    (hdecide : st.decide octave c cs = .token kind more mode) (hk : kind ≠ .newline) :
    st.firstInLine = true ↔ ∀ d ∈ lastLine behind, isBlank d = true := by
  constructor
  · intro hfirst
    rcases h.blank hfirst with hblank | hbreak
    · exact hblank
    · have hc : isBreak c = true := hbreak c (by simp [hrest])
      exact absurd ((lineUse_decide hdecide).2 hc) hk
  · intro hblank
    cases hfirst : st.firstInLine with
    | true => rfl
    | false =>
      obtain ⟨d, hd, hnot⟩ := h.used hfirst
      rw [hblank d hd] at hnot
      cases hnot

theorem lineStart_take {c : Char} {cs : List Char} {kind : Kind} {more : Nat} {mode : Mode}
    (st : State) (file : String) (mode' : Mode) (behind : List Char)
    (hrest : st.cursor.rest = c :: cs) (hc : isBlank c = false)
    (hdecide : st.decide octave c cs = .token kind more mode) :
    LineStart (behind ++ st.cursor.rest.take (more + 1))
      (({ st with mode := mode' } : State).take file kind more).next := by
  have hhead : (c :: cs).take (more + 1) = c :: cs.take more := List.take_succ_cons
  refine ⟨fun hfirst => ?_, fun hfirst => ?_⟩
  · rw [take_next_firstInLine] at hfirst
    simp only [hrest, List.contains_iff_mem] at hfirst
    simp only [take_next_cursor, Cursor.rest_skip, hrest]
    cases (lineUse_decide hdecide).1 with
    | within _ hs => exact absurd hfirst hs.lineFeed_notMem
    | through front _ hfront =>
      rw [hfront, ← List.append_assoc, lastLine_concat]
      exact Or.inl (by simp)
    | toEnd hnot => exact absurd hfirst hnot
    | block hbreak => exact Or.inr hbreak
  · rw [take_next_firstInLine] at hfirst
    have hnot : '\n' ∉ st.cursor.rest.take (more + 1) := by
      simpa using hfirst
    refine ⟨c, ?_, hc⟩
    rw [lastLine_append hnot, hrest, hhead]
    exact List.mem_append_right _ List.mem_cons_self

/-! ## Readers -/

/-- A reader that has come to a place of the text and has taken these tokens before it. -/
structure Arrives (text behind : List Char) (tokens : List Token) (st : State) : Prop where
  text_eq : text = behind ++ st.cursor.rest
  follows : st.Follows behind
  lineStart : LineStart behind st
  words : (CurrentLine.along text tokens : CurrentLine UInt32).Tracks behind st.cursor.rest

variable {text : List Char} {tokens : List Token} {c : Char} {cs : List Char} {kind : Kind}
  {more : Nat} {mode : Mode}

theorem arrives_ofText (text : String) : Arrives text.toList [] [] (ofText text) :=
  ⟨rfl, follows_ofText text, lineStart_ofText text, CurrentLine.tracks_first _⟩

theorem Arrives.pastBlanks (h : Arrives text behind tokens st) :
    Arrives text (behind ++ st.cursor.rest.takeWhile isBlank) tokens st.pastBlanks where
  text_eq := by rw [pastBlanks_rest, List.append_assoc, List.takeWhile_append_dropWhile, h.text_eq]
  follows := h.follows.pastBlanks
  lineStart := lineStart_pastBlanks h.lineStart
  words := tracks_pastBlanks h.words

theorem Arrives.comma (h : Arrives text behind tokens st) (file : String) (kind : Kind)
    (more : Nat) : Arrives text behind (tokens ++ (st.take file kind more).comma.toList) st where
  text_eq := h.text_eq
  follows := h.follows
  lineStart := h.lineStart
  words := by
    cases hcomma : (st.take file kind more).comma with
    | none =>
      rw [Option.toList_none, List.append_nil]
      exact h.words
    | some t =>
      obtain ⟨-, -, hraw, hspan, -⟩ := take_comma hcomma
      have hahead : (CurrentLine.along text tokens : CurrentLine UInt32).Tracks behind
          ([] ++ st.cursor.rest) := h.words
      have hbehind := hahead.behind_token UInt32.ofNat_add
        ((congrArg Span.start hspan).trans h.follows.offset_eq) (congrArg String.toList hraw)
      rw [List.append_nil] at hbehind
      rwa [Option.toList_some, CurrentLine.along, List.foldl_concat]

theorem Arrives.decided (h : Arrives text behind tokens st.pastBlanks) (mode : Mode) :
    Arrives text behind tokens (st.decided mode) :=
  ⟨h.text_eq, ⟨h.follows.offset_eq, h.follows.tracks⟩, ⟨h.lineStart.blank, h.lineStart.used⟩,
    h.words⟩

theorem Arrives.take (h : Arrives text behind tokens (st.decided mode))
    (htakes : Takes octave st c cs kind more mode) (file : String) :
    Arrives text (behind ++ st.pastBlanks.cursor.rest.take (more + 1))
      (tokens ++ [((st.decided mode).take file kind more).token])
      ((st.decided mode).take file kind more).next where
  text_eq := by
    rw [take_next_cursor, decided_cursor, Cursor.rest_skip, List.append_assoc,
      List.take_append_drop]
    exact h.text_eq
  follows := h.follows.take file kind more
  lineStart := lineStart_take st.pastBlanks file mode _ htakes.ahead (pastBlanks_head htakes.ahead)
    htakes.decides
  words := by
    rw [take_next_cursor, decided_cursor, Cursor.rest_skip, CurrentLine.along, List.foldl_concat]
    refine CurrentLine.Tracks.behind_token UInt32.ofNat_add ?_ h.follows.offset_eq
      String.toList_ofList
    rw [List.take_append_drop]
    exact h.words

theorem Reads.arrives {text : String} {pieces : List Piece}
    (h : Reads file octave (ofText text) pieces st) :
    ∃ behind, Arrives text.toList behind (pieces.map (·.token)) st := by
  induction h with
  | start => exact ⟨[], arrives_ofText text⟩
  | step _ hstep ih =>
    obtain ⟨behind, hst⟩ := ih
    obtain ⟨c, cs, kind, more, mode, htakes, rfl, rfl⟩ := takes_of_step hstep
    have hready := hst.pastBlanks.decided mode
    rw [List.map_append, tokens_taken, ← List.append_assoc]
    exact ⟨_, (hready.comma file kind more).take htakes file⟩

end Lexing.State

namespace Scan

open State

variable {source : SourceText} {settings : Settings} {before after : List Token} {t : Token}

/-- A token is where counting puts it, and says truly whether it is the first of its line. A line
kept in 32 bits up to the token counts as 32 bits do. -/
def Placed (source : SourceText) (words : CurrentLine UInt32) (t : Token) : Prop :=
  ∃ before, source.Locates before t.span t.raw.toList t.location ∧
    source.Counts before t.span.start t.raw.toList t.location words ∧
    (t.anonymous = false → t.kind ≠ .newline →
      (t.firstInLine = true ↔ ∀ c ∈ lastLine before, isBlank c = true))

theorem placed_of_tokens (h : (ofSource source settings).tokens = before ++ t :: after) :
    Placed source (CurrentLine.along source.text.toList before) t := by
  cases takenAt h with
  | @token pieces st c cs kind more mode hreads htakes =>
    obtain ⟨behind, hst⟩ := hreads.arrives
    have hready := (hst.pastBlanks.decided mode).comma source.name kind more
    have hstop := hready.follows.stands.offset_skip (more + 1)
    have hstart : LineStart (behind ++ st.cursor.rest.takeWhile isBlank) st.pastBlanks :=
      hst.pastBlanks.lineStart
    refine ⟨_, and_assoc.1 ⟨?_, fun _ hkind =>
      firstInLine_iff st.pastBlanks hstart htakes.ahead htakes.decides hkind⟩⟩
    rw [take_token_span, take_token_raw, String.toList_ofList, hready.follows.token_location,
      hready.follows.offset_eq, hstop]
    exact ⟨SourceText.locates hready.text_eq _ _,
      SourceText.counts hready.text_eq hready.words _ _⟩
  | @comma pieces st c cs kind more mode _ hreads htakes hcomma =>
    obtain ⟨behind, hst⟩ := hreads.arrives
    have hready := hst.pastBlanks.decided mode
    obtain ⟨hanonymous, -, hraw, hspan, -⟩ := take_comma hcomma
    have hlocates := SourceText.locates hready.text_eq source.name 0
    rw [List.take_zero, List.append_nil] at hlocates
    have hcounts := SourceText.counts hready.text_eq hready.words source.name 0
    rw [List.take_zero] at hcounts
    refine ⟨behind ++ st.cursor.rest.takeWhile isBlank, and_assoc.1 ⟨?_,
      fun hwritten => nomatch hanonymous.symm.trans hwritten⟩⟩
    rw [hspan, hraw, hready.follows.comma_location hcomma, hready.follows.offset_eq]
    exact ⟨hlocates, hcounts⟩

theorem located_of_failure {e : LexError} (h : e ∈ (ofSource source settings).failure) :
    ∃ before, source.Locates before e.span e.text e.location ∧
      source.Counts before e.span.start e.text e.location
        (CurrentLine.along source.text.toList (ofSource source settings).tokens) := by
  obtain ⟨st, hreads, hstep⟩ := exists_failed h
  obtain ⟨behind, hst⟩ := hreads.arrives
  obtain ⟨c, cs, fault, skipped, length, hrest, hdecide, rfl⟩ := step_failed hstep
  have hready := hst.pastBlanks
  have hskipped : '\n' ∉ st.pastBlanks.cursor.rest.take skipped := by
    rw [hrest]
    exact (stays_decide hdecide).lineFeed_notMem
  have hsplit : st.pastBlanks.cursor.rest =
      st.pastBlanks.cursor.rest.take skipped ++ (st.pastBlanks.cursor.skip skipped).rest := by
    rw [Cursor.rest_skip, List.take_append_drop]
  have htext : source.text.toList = behind ++ st.cursor.rest.takeWhile isBlank ++
      st.pastBlanks.cursor.rest.take skipped ++ (st.pastBlanks.cursor.skip skipped).rest := by
    rw [List.append_assoc, ← hsplit, hready.text_eq]
  have hstart := hready.follows.stands.skip skipped
  -- What has been skipped before the fault is no token, so the line is where the tokens left it.
  have hwords : (CurrentLine.along source.text.toList (ofSource source settings).tokens :
      CurrentLine UInt32).Tracks (behind ++ st.cursor.rest.takeWhile isBlank ++
        st.pastBlanks.cursor.rest.take skipped) (st.pastBlanks.cursor.skip skipped).rest :=
    CurrentLine.Tracks.stays (hsplit ▸ hready.words) hskipped
  refine ⟨behind ++ st.cursor.rest.takeWhile isBlank ++
    st.pastBlanks.cursor.rest.take skipped, ?_⟩
  rw [hready.follows.error_location source.name fault hskipped]
  simp only [error, hstart.offset_eq, hstart.offset_skip]
  exact ⟨SourceText.locates htext source.name length,
    SourceText.counts htext hwords source.name length⟩

/-- Counting line breaks and characters from the start of the text gives the location of every
token and of the error, as does the line index; and a written token other than a line break is
marked as the first of its line exactly where only blanks stand before it there. Where lines and
columns are kept in 32 bits they are the counts of 32 bits, and where the text fits into these,
the same. -/
theorem scan_located (source : SourceText) (settings : Settings) :
    (∀ before t after, (ofSource source settings).tokens = before ++ t :: after →
      Placed source (CurrentLine.along source.text.toList before) t) ∧
    ∀ e ∈ (ofSource source settings).failure, ∃ before,
      source.Locates before e.span e.text e.location ∧
        source.Counts before e.span.start e.text e.location
          (CurrentLine.along source.text.toList (ofSource source settings).tokens) :=
  ⟨fun _ _ _ => placed_of_tokens, fun _ => located_of_failure⟩

end Scan

end MFile
