import MFile.Lexing.Lexeme
import MFile.Lexing.Cursor
import MFile.Proofs.Lexing.Tracks
import MFile.Proofs.Text.Position
import MFile.Lexing.Scan

/-!
What one step of reading can do, and the induction over all of them. A step that takes something
skips the blanks ahead, decides, and takes the token there; a comma that nobody wrote may stand
before it. Everything said about a whole scan follows from these facts about one step.
-/

/-! ## The ways in which the characters ahead spell a lexeme -/

namespace MFile.Lexing.Lexeme

open Text

inductive Reading (c : Char) (cs : List Char) : Lexeme → Prop
  | lineFeed (hc : c = '\n') : Reading c cs (newline (blankLines cs))
  | carriageReturn {rest : List Char} (hc : c = '\r') (hcs : cs = '\n' :: rest) :
      Reading c cs (newline (1 + blankLines rest))
  | comment (hc : c = '%' ∨ c = '#') : Reading c cs (comment (restOfLine cs))
  | word (hbreak : isBreak c = false) (hc : c.isAlpha = true) :
      Reading c cs (word (run isNameChar cs))
  | digit (hbreak : isBreak c = false) (hc : c.isDigit = true) :
      Reading c cs (number (Number.afterDigit c cs))
  | dots (hc : c = '.') (hcs : ['.', '.'].isPrefixOf cs = true) :
      Reading c cs (continuation (2 + throughBreak (cs.drop 2)))
  | point (hc : c = '.') (hcs : startsWithAny Char.isDigit cs = true) :
      Reading c cs (number (Number.afterDot cs))
  | quote (hc : c = '\'') : Reading c cs quote
  | text (hc : c = '"') :
      Reading c cs (text (Quotation.extent '"' .unterminatedString cs))
  | bang (hc : c = '!') :
      Reading c cs (bang (if startsWithAny (· == '=') cs then 1 else 0))
  | symbol {lexeme : Lexeme} (hbreak : isBreak c = false) (h : symbol? c cs = some lexeme) :
      Reading c cs lexeme

theorem reading_ofChars? {c : Char} {cs : List Char} {lexeme : Lexeme}
    (h : ofChars? c cs = some lexeme) : Reading c cs lexeme := by
  rw [ofChars?.eq_def] at h
  by_cases hline : c = '\n'
  · rw [if_pos hline] at h
    cases h
    exact .lineFeed hline
  rw [if_neg hline] at h
  by_cases hreturn : c = '\r'
  · rw [if_pos hreturn] at h
    split at h <;> cases h
    exact .carriageReturn hreturn rfl
  rw [if_neg hreturn] at h
  have hbreak : isBreak c = false := by simp [isBreak, hline, hreturn]
  by_cases hcomment : c = '%' ∨ c = '#'
  · rw [if_pos hcomment] at h
    cases h
    exact .comment hcomment
  rw [if_neg hcomment] at h
  by_cases hword : c.isAlpha = true
  · rw [if_pos hword] at h
    cases h
    exact .word hbreak hword
  rw [if_neg hword] at h
  by_cases hdigit : c.isDigit = true
  · rw [if_pos hdigit] at h
    cases h
    exact .digit hbreak hdigit
  rw [if_neg hdigit] at h
  by_cases hdots : c = '.' ∧ ['.', '.'].isPrefixOf cs = true
  · rw [if_pos hdots] at h
    cases h
    exact .dots hdots.1 hdots.2
  rw [if_neg hdots] at h
  by_cases hpoint : c = '.' ∧ startsWithAny Char.isDigit cs = true
  · rw [if_pos hpoint] at h
    cases h
    exact .point hpoint.1 hpoint.2
  rw [if_neg hpoint] at h
  by_cases hquote : c = '\''
  · rw [if_pos hquote] at h
    cases h
    exact .quote hquote
  rw [if_neg hquote] at h
  by_cases htext : c = '"'
  · rw [if_pos htext] at h
    cases h
    exact .text htext
  rw [if_neg htext] at h
  by_cases hbang : c = '!'
  · rw [if_pos hbang] at h
    cases h
    exact .bang hbang
  rw [if_neg hbang] at h
  exact .symbol hbreak h

end MFile.Lexing.Lexeme

/-!
## Cursors

A cursor that has read a part of a text: what lies ahead and the offset are those of that part.
-/

namespace MFile.Lexing.Cursor

open Text

/-- The cursor stands in the text right behind the part that has been read. -/
structure Stands (text behind : List Char) (c : Cursor) : Prop where
  text_eq : text = behind ++ c.rest
  offset_eq : c.offset = byteCount behind

variable {text behind : List Char} {c : Cursor}

theorem stands_start (text : List Char) : Stands text [] { rest := text } := ⟨rfl, rfl⟩

theorem Stands.next {ch : Char} {rest : List Char} (h : c.Stands text behind)
    (hrest : c.rest = ch :: rest) : c.next.Stands text (behind ++ [ch]) := by
  simp only [Cursor.next, hrest]
  exact ⟨by rw [h.text_eq, hrest, List.append_assoc, List.singleton_append],
    by simp [h.offset_eq]⟩

theorem Stands.skip (h : c.Stands text behind) (n : Nat) :
    (c.skip n).Stands text (behind ++ c.rest.take n) := by
  induction n generalizing c behind with
  | zero => simpa [Cursor.skip] using h
  | succ n ih =>
    cases hrest : c.rest with
    | nil =>
      have hstay : c.next = c := by simp [Cursor.next, hrest]
      have hs := ih h
      rw [hrest, List.take_nil] at hs
      rwa [Cursor.skip, hstay, List.take_nil]
    | cons ch rest =>
      have hs := ih (h.next hrest)
      rw [rest_next, hrest, List.drop_one, List.tail_cons, List.append_assoc,
        List.singleton_append] at hs
      rwa [Cursor.skip, List.take_succ_cons]

theorem Stands.offset_skip (h : c.Stands text behind) (n : Nat) :
    (c.skip n).offset = byteCount (behind ++ c.rest.take n) := (h.skip n).offset_eq

theorem Stands.slice (h : c.Stands text behind) (n : Nat) :
    slice? text c.offset (c.skip n).offset = some (c.rest.take n) := by
  have hs := slice?_append behind (c.rest.take n) (c.rest.drop n)
  rwa [List.append_assoc, List.take_append_drop, ← h.text_eq, ← h.offset_eq,
    ← h.offset_skip] at hs

end MFile.Lexing.Cursor

/-! ## Steps -/

namespace MFile.Lexing.State

open Text

variable {st next : State} {file : String} {octave : Bool}

theorem pastBlanks_rest (st : State) :
    st.pastBlanks.cursor.rest = st.cursor.rest.dropWhile isBlank := by
  rw [pastBlanks, Cursor.rest_skip, drop_run]

theorem stands_pastBlanks {text behind : List Char} (h : st.cursor.Stands text behind) :
    st.pastBlanks.cursor.Stands text (behind ++ st.cursor.rest.takeWhile isBlank) := by
  have hs := h.skip (run isBlank st.cursor.rest)
  rwa [take_run] at hs

theorem lineFeed_notMem_blanks (cs : List Char) : '\n' ∉ cs.takeWhile isBlank := fun h =>
  absurd (List.mem_takeWhile_imp h) (by decide)

theorem tracks_pastBlanks {N : Type} [Add N] [NatCast N] {line : CurrentLine N}
    {behind : List Char} (h : line.Tracks behind st.cursor.rest) :
    line.Tracks (behind ++ st.cursor.rest.takeWhile isBlank) st.pastBlanks.cursor.rest := by
  refine CurrentLine.Tracks.stays ?_ (lineFeed_notMem_blanks _)
  rwa [pastBlanks_rest, List.takeWhile_append_dropWhile]

theorem pastBlanks_head {c : Char} {cs : List Char} (h : st.pastBlanks.cursor.rest = c :: cs) :
    isBlank c = false := by
  rw [pastBlanks_rest] at h
  have hhead := List.head?_dropWhile_not isBlank st.cursor.rest
  rw [h] at hhead
  simpa using hhead

def decided (st : State) (mode : Mode) : State := { st.pastBlanks with mode := mode }

theorem step_finished (h : st.step file octave = .finished) :
    st.pastBlanks.cursor.rest = [] := by
  rw [step] at h
  split at h
  · assumption
  · split at h <;> cases h

theorem step_failed {e : LexError} (h : st.step file octave = .failed e) :
    ∃ c cs fault skipped length, st.pastBlanks.cursor.rest = c :: cs ∧
      st.pastBlanks.decide octave c cs = .fault fault skipped length ∧
      e = st.pastBlanks.error file fault skipped length := by
  rw [step] at h
  split at h
  · cases h
  · rename_i c cs hrest
    split at h
    · rename_i fault skipped length hdecide
      cases h
      exact ⟨c, cs, fault, skipped, length, hrest, hdecide, rfl⟩
    · cases h

theorem step_taken {pieces : List Piece} (h : st.step file octave = .taken pieces next) :
    ∃ c cs kind more mode, st.pastBlanks.cursor.rest = c :: cs ∧
      st.pastBlanks.decide octave c cs = .token kind more mode ∧
      pieces = ((st.decided mode).take file kind more).comma.toList.map (⟨[], ·⟩) ++
        [⟨st.cursor.rest.takeWhile isBlank, ((st.decided mode).take file kind more).token⟩] ∧
      next = ((st.decided mode).take file kind more).next := by
  rw [step] at h
  split at h
  · cases h
  · rename_i c cs hrest
    split at h
    · cases h
    · rename_i kind more mode hdecide
      cases h
      exact ⟨c, cs, kind, more, mode, hrest, hdecide, rfl, rfl⟩

section Take

variable (st : State) (file : String) (kind : Kind) (more : Nat)

@[simp] theorem take_token_kind : (st.take file kind more).token.kind = kind := rfl

@[simp] theorem take_token_raw :
    (st.take file kind more).token.raw = String.ofList (st.cursor.rest.take (more + 1)) := rfl

@[simp] theorem take_token_span :
    (st.take file kind more).token.span =
      ⟨st.cursor.offset, (st.cursor.skip (more + 1)).offset⟩ := rfl

@[simp] theorem take_token_anonymous : (st.take file kind more).token.anonymous = false := rfl

@[simp] theorem take_token_firstInLine :
    (st.take file kind more).token.firstInLine = st.firstInLine := rfl

@[simp] theorem take_token_location :
    (st.take file kind more).token.location =
      st.line.locate file st.cursor.offset (st.cursor.rest.take (more + 1)) := rfl

@[simp] theorem take_next_cursor :
    (st.take file kind more).next.cursor = st.cursor.skip (more + 1) := rfl

@[simp] theorem take_next_firstInLine :
    (st.take file kind more).next.firstInLine =
      (st.cursor.rest.take (more + 1)).contains '\n' := rfl

@[simp] theorem decided_cursor (mode : Mode) :
    (st.decided mode).cursor = st.pastBlanks.cursor := rfl

@[simp] theorem decided_firstInLine (mode : Mode) :
    (st.decided mode).firstInLine = st.firstInLine := rfl

end Take

theorem stands_take {text behind : List Char} (st : State) (file : String) (kind : Kind)
    (more : Nat) (h : st.cursor.Stands text behind) :
    (st.take file kind more).next.cursor.Stands text
      (behind ++ st.cursor.rest.take (more + 1)) :=
  h.skip (more + 1)

theorem take_comma {kind : Kind} {more : Nat} {t : Token}
    (h : (st.take file kind more).comma = some t) :
    t.anonymous = true ∧ t.kind = .comma ∧ t.raw = "" ∧
      t.span = ⟨st.cursor.offset, st.cursor.offset⟩ ∧ t.firstInLine = false ∧
      t.location = (st.line.lookedAt st.cursor.offset).locate file st.cursor.offset [] := by
  simp only [take] at h
  split at h
  · cases h
    exact ⟨rfl, rfl, rfl, rfl, rfl, rfl⟩
  · cases h

/-! ## Lines -/

/-- A reader that has read `behind`, and keeps the line that it has come to. -/
structure Follows (behind : List Char) (st : State) : Prop where
  offset_eq : st.cursor.offset = byteCount behind
  tracks : st.line.Tracks behind st.cursor.rest

theorem follows_ofText (text : String) : Follows [] (ofText text) :=
  ⟨rfl, CurrentLine.tracks_first _⟩

namespace Follows

variable {behind : List Char} {st : State}

theorem stands (h : st.Follows behind) : st.cursor.Stands (behind ++ st.cursor.rest) behind :=
  ⟨rfl, h.offset_eq⟩

theorem pastBlanks (h : st.Follows behind) :
    st.pastBlanks.Follows (behind ++ st.cursor.rest.takeWhile isBlank) where
  offset_eq := (stands_pastBlanks h.stands).offset_eq
  tracks := tracks_pastBlanks h.tracks

theorem token_location (h : st.Follows behind) (file : String) (kind : Kind) (more : Nat) :
    (st.take file kind more).token.location =
      CurrentLine.located file behind st.cursor.rest (st.cursor.rest.take (more + 1)) := by
  rw [take_token_location, h.offset_eq, h.tracks.locate]

theorem comma_location (h : st.Follows behind) {file : String} {kind : Kind}
    {more : Nat} {t : Token} (ht : (st.take file kind more).comma = some t) :
    t.location = CurrentLine.located file behind st.cursor.rest [] := by
  rw [(take_comma ht).2.2.2.2.2, h.offset_eq, (h.tracks.lookedAt fun _ _ => rfl).locate]

theorem error_location (h : st.Follows behind) (file : String) (fault : Fault)
    {skipped length : Nat} (hskipped : '\n' ∉ st.cursor.rest.take skipped) :
    (st.error file fault skipped length).location =
      CurrentLine.located file (behind ++ st.cursor.rest.take skipped)
        (st.cursor.skip skipped).rest ((st.cursor.skip skipped).rest.take length) := by
  have htracks : st.line.Tracks (behind ++ st.cursor.rest.take skipped)
      (st.cursor.skip skipped).rest := by
    refine CurrentLine.Tracks.stays ?_ hskipped
    rw [Cursor.rest_skip, List.take_append_drop]
    exact h.tracks
  rw [error, h.stands.offset_skip, htracks.locate]

theorem take (h : st.Follows behind) (file : String) (kind : Kind) (more : Nat) :
    (st.take file kind more).next.Follows (behind ++ st.cursor.rest.take (more + 1)) where
  offset_eq := h.stands.offset_skip (more + 1)
  tracks := by
    have hahead : st.line.Tracks behind
        (st.cursor.rest.take (more + 1) ++ (st.cursor.skip (more + 1)).rest) := by
      rw [Cursor.rest_skip, List.take_append_drop]
      exact h.tracks
    have hlooked := hahead.lookedAt fun _ _ => rfl
    simp only [State.take, h.offset_eq]
    refine CurrentLine.Tracks.pass (fun _ _ => rfl) ?_ rfl String.toList_ofList
    split
    · exact hlooked.lookedAt fun _ _ => rfl
    · exact hlooked

end Follows

end MFile.Lexing.State

namespace MFile.Scan

open Lexing

theorem ofState_rec {file : String} {octave : Bool} {motive : State → Scan → Prop}
    (finished : ∀ st, st.step file octave = .finished → motive st ⟨[], none, st.cursor.rest⟩)
    (failed : ∀ st e, st.step file octave = .failed e →
      motive st ⟨[], some e, st.cursor.rest⟩)
    (taken : ∀ st pieces next later, st.step file octave = .taken pieces next →
      motive next later → motive st { later with pieces := pieces ++ later.pieces })
    (st : State) : motive st (ofState file octave st) := by
  fun_induction ofState file octave st with
  | case1 st h => exact finished st h
  | case2 st e h => exact failed st e h
  | case3 st pieces next h _ later ih => exact taken st pieces next later h ih

end MFile.Scan
