import Mathlib.Data.List.Infix
import MFile.Lexing.Cursor
import MFile.Proofs.Text.Position

/-!
The line that a reader keeps is the one that it has come to. Whatever it has read, the number is
that of the line, the start is right behind the last break, the text is that of all the line, and
the known column is right; so the column of the byte that it has come to is the one that counting
all characters gives. This is so in any numbers that add up, also in those of 32 bits.
-/

namespace MFile.Text

variable {a b c : List Char} {d : Char}

/-! ## The last break -/

theorem fullPart_append_of_notMem (h : '\n' ∉ b) : fullPart (a ++ b) = fullPart a := by
  have hwhole : fullPart (a ++ b) ++ lastLine (a ++ b) = fullPart a ++ lastLine (a ++ b) := by
    rw [fullPart_append_lastLine, lastLine_append h, ← List.append_assoc, fullPart_append_lastLine]
  exact List.append_cancel_right hwhole

theorem fullPart_concat_break (cs : List Char) : fullPart (cs ++ ['\n']) = cs ++ ['\n'] := by
  simp [fullPart]

theorem lastLine_fullPart (cs : List Char) : lastLine (fullPart cs) = [] := by
  obtain hnone | ⟨lines, hlines⟩ := fullPart_eq cs
  · rw [hnone, lastLine_nil]
  · rw [hlines, lastLine_concat, if_pos rfl]

theorem lastIndex?_of_notMem (h : d ∉ b) : lastIndex? d b = none := by
  induction b with
  | nil => rfl
  | cons c b ih =>
    rw [List.mem_cons, not_or] at h
    rw [lastIndex?, ih h.2]
    exact if_neg (Ne.symm h.1)

theorem lastIndex?_append_cons (h : d ∉ b) : lastIndex? d (a ++ d :: b) = some (byteCount a) := by
  induction a with
  | nil =>
    rw [List.nil_append, lastIndex?, lastIndex?_of_notMem h]
    exact if_pos rfl
  | cons c a ih => rw [List.cons_append, lastIndex?, ih, byteCount_cons]

theorem exists_lastIndex? (a : List Char) (h : '\n' ∈ b) : ∃ index,
    lastIndex? '\n' b = some index ∧ byteCount (fullPart (a ++ b)) = byteCount a + index + 1 := by
  have hlast := break_notMem_lastLine b
  have hsplit := fullPart_append_lastLine b
  obtain hnone | ⟨lines, hlines⟩ := fullPart_eq b
  · rw [hnone, List.nil_append] at hsplit
    rw [hsplit] at hlast
    exact absurd h hlast
  · rw [hlines] at hsplit
    refine ⟨byteCount lines, ?_, ?_⟩
    · rw [← hsplit, ← List.append_cons]
      exact lastIndex?_append_cons hlast
    · have hsize : byteCount ['\n'] = 1 := rfl
      rw [← hsplit, ← List.append_assoc, fullPart_append_of_notMem hlast, ← List.append_assoc,
        fullPart_concat_break, byteCount_append, byteCount_append, hsize]

/-! ## Between two bytes of a line -/

theorem prefix_of_byteCount_le (ha : a <+: c) (hb : b <+: c) (h : byteCount a ≤ byteCount b) :
    a <+: b := by
  obtain hab | ⟨more, rfl⟩ := List.prefix_or_prefix_of_prefix ha hb
  · exact hab
  · rw [byteCount_append] at h
    have hmore : more = [] := by
      by_contra hne
      have hpos := byteCount_pos hne
      omega
    rw [hmore, List.append_nil]

theorem exists_append_of_fullPart_le (h : b <+: a) (hle : byteCount (fullPart a) ≤ byteCount b) :
    ∃ more, a = b ++ more ∧ '\n' ∉ more := by
  have hsplit := fullPart_append_lastLine a
  obtain ⟨front, hfront⟩ := prefix_of_byteCount_le ⟨_, hsplit⟩ h hle
  obtain ⟨more, hmore⟩ := h
  have hline : front ++ more = lastLine a := by
    have hwhole : fullPart a ++ (front ++ more) = fullPart a ++ lastLine a := by
      rw [← List.append_assoc, hfront, hmore, hsplit]
    exact List.append_cancel_left hwhole
  refine ⟨more, hmore.symm, fun hbreak => break_notMem_lastLine a ?_⟩
  rw [← hline]
  exact List.mem_append_right _ hbreak

end MFile.Text

namespace MFile.Lexing.CurrentLine

open Text

variable {N : Type} [NatCast N] {l : CurrentLine N} {behind rest more raw : List Char} {t : Token}

/-- The line that has been come to by reading `behind`, with `rest` still ahead. -/
structure Tracks (behind rest : List Char) (l : CurrentLine N) : Prop where
  whole : l.whole = behind ++ rest
  number : l.number = (position behind).1
  start : l.start = byteCount (fullPart behind)
  text : l.text = firstLine (lastLine behind ++ rest)
  known : ∃ before, before <+: behind ∧ l.known = (byteCount before, ((position before).2 : N))

theorem textFrom_fullPart (behind rest : List Char) :
    textFrom (behind ++ rest) (byteCount (fullPart behind)) =
      firstLine (lastLine behind ++ rest) := by
  have hdrop := dropBytes?_append (fullPart behind) (lastLine behind ++ rest)
  rw [← List.append_assoc, fullPart_append_lastLine] at hdrop
  rw [textFrom, hdrop, Option.getD_some]

theorem tracks_first (whole : List Char) : (first whole : CurrentLine N).Tracks [] whole where
  whole := rfl
  number := rfl
  start := rfl
  text := textFrom_fullPart [] whole
  known := ⟨[], List.nil_prefix, rfl⟩

namespace Tracks

theorem stays (h : l.Tracks behind (more ++ rest)) (hmore : '\n' ∉ more) :
    l.Tracks (behind ++ more) rest where
  whole := by rw [h.whole, List.append_assoc]
  number := by rw [h.number, position_append_of_notMem hmore]
  start := by rw [h.start, fullPart_append_of_notMem hmore]
  text := by rw [h.text, lastLine_append hmore, List.append_assoc]
  known := by
    obtain ⟨before, hbefore, hknown⟩ := h.known
    exact ⟨before, hbefore.trans (List.prefix_append _ _), hknown⟩

section Adding

variable [Add N] (hadd : ∀ m n : Nat, ((m + n : Nat) : N) = m + n)

include hadd

theorem nearest (h : l.Tracks behind rest) : ∃ more,
    slice? l.whole (l.nearest (byteCount behind)).1 (byteCount behind) = some more ∧
      (l.nearest (byteCount behind)).2 + (more.length : N) = (position behind).2 := by
  have hcut : ∀ {before more : List Char}, behind = before ++ more → '\n' ∉ more →
      slice? l.whole (byteCount before) (byteCount behind) = some more ∧
        ((position before).2 : N) + (more.length : N) = (position behind).2 := by
    rintro before more rfl hmore
    rw [h.whole, slice?_append, ← hadd, position_append_of_notMem hmore]
    exact ⟨rfl, rfl⟩
  obtain ⟨before, hbefore, hknown⟩ := h.known
  rw [CurrentLine.nearest, h.start, hknown]
  split
  · -- The last byte that was asked for is on the line, so no break lies between.
    rename_i hon
    obtain ⟨more, hbehind, hmore⟩ := exists_append_of_fullPart_le hbefore hon.1
    exact ⟨more, hcut hbehind hmore⟩
  · have hfull : (position (fullPart behind)).2 = 0 := by
      rw [position_eq, lastLine_fullPart, List.length_nil]
    rw [← hfull]
    exact ⟨_, hcut (fullPart_append_lastLine behind).symm (break_notMem_lastLine behind)⟩

theorem column (h : l.Tracks behind rest) : l.column (byteCount behind) = (position behind).2 := by
  obtain ⟨more, hmore, hcolumn⟩ := h.nearest hadd
  rw [CurrentLine.column, hmore, Option.getD_some, hcolumn]

theorem lookedAt (h : l.Tracks behind rest) : (l.lookedAt (byteCount behind)).Tracks behind rest :=
  ⟨h.whole, h.number, h.start, h.text, behind, List.prefix_refl _, by
    rw [CurrentLine.lookedAt, h.column hadd]⟩

theorem pass (h : l.Tracks behind (raw ++ rest)) (hstart : t.span.start = byteCount behind)
    (hraw : t.raw.toList = raw) : (l.pass t).Tracks (behind ++ raw) rest := by
  rw [CurrentLine.pass, Token.lineBreaks, hraw]
  by_cases hbreak : '\n' ∈ raw
  · obtain ⟨index, hindex, hfull⟩ := exists_lastIndex? behind hbreak
    have hlines : (position behind).1 + raw.count '\n' = (position (behind ++ raw)).1 := by
      rw [position_eq, position_eq, List.count_append, Nat.add_right_comm]
    rw [if_pos (List.count_pos_iff.2 hbreak), hindex, hstart, Option.getD_some, ← hfull]
    refine ⟨?_, ?_, rfl, ?_, ?_⟩
    · rw [h.whole, List.append_assoc]
    · rw [h.number, ← hadd, hlines]
    · rw [h.whole, ← List.append_assoc]
      exact textFrom_fullPart _ rest
    · -- The column that is known stays true, though its line has ended.
      obtain ⟨before, hbefore, hknown⟩ := h.known
      exact ⟨before, hbefore.trans (List.prefix_append _ _), hknown⟩
  · rw [if_neg (by rwa [List.count_pos_iff])]
    exact h.stays hbreak

theorem behind_token (h : l.Tracks behind (raw ++ rest)) (hstart : t.span.start = byteCount behind)
    (hraw : t.raw.toList = raw) : (l.behind t).Tracks (behind ++ raw) rest := by
  rw [CurrentLine.behind, hstart]
  exact (h.lookedAt hadd).pass hadd hstart hraw

end Adding

end Tracks

def located (file : String) (behind rest text : List Char) : Location :=
  .ofSpan file (position behind).1 (.ofWidth (position behind).2 (run (· ≠ '\n') text))
    (some (firstLine (lastLine behind ++ rest)))

theorem Tracks.locate {l : CurrentLine Nat} (h : l.Tracks behind rest) (file : String)
    (text : List Char) :
    l.locate file (byteCount behind) text = located file behind rest text := by
  rw [CurrentLine.locate, h.column fun _ _ => rfl, h.number, h.text]
  rfl

end MFile.Lexing.CurrentLine
