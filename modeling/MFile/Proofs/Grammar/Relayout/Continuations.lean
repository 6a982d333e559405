import MFile.Proofs.Lexing.Continuations.Gap
import MFile.Proofs.Lexing.Lossless

/-!
Files with a continuation where blanks were. Nothing of the tree changes but its places, unless what
stands before the gap looks further than a token: the first word of a statement and the dotted name
that it begins look for the words of a command, and a path takes all of its line.
-/

namespace MFile

open Lexing Text

namespace Scan

variable {file : String} {octave : Bool} {st : Lexing.State}

theorem raw_nonblank (st : Lexing.State) : ∀ p ∈ (ofState file octave st).pieces,
    p.token.anonymous = false → p.token.raw.toList.dropWhile isBlank = p.token.raw.toList ∧
      p.token.raw.toList ≠ [] := by
  apply ofState_rec (motive := fun _ scan => ∀ p ∈ scan.pieces, p.token.anonymous = false →
    p.token.raw.toList.dropWhile isBlank = p.token.raw.toList ∧ p.token.raw.toList ≠ [])
  case finished => exact fun _ _ p hp => absurd hp List.not_mem_nil
  case failed => exact fun _ _ _ p hp => absurd hp List.not_mem_nil
  case taken =>
    intro st pieces next later hstep ih p hp hwritten
    obtain ⟨c, cs, kind, more, mode, hrest, -, rfl, -⟩ := State.step_taken hstep
    obtain hfirst | hlater := List.mem_append.1 hp
    · obtain hcomma | hlast := List.mem_append.1 hfirst
      · rw [State.anonymous_of_mem_commas hcomma] at hwritten
        cases hwritten
      · rw [List.mem_singleton.1 hlast, State.take_token_raw, State.decided_cursor, hrest,
          String.toList_ofList, List.take_succ_cons,
          List.dropWhile_cons_of_neg (by simp [State.pastBlanks_head hrest])]
        exact ⟨rfl, nofun⟩
    · exact ih p hlater hwritten

end Scan

namespace FileUnit

variable {source edited : SourceText} {settings : Settings} {buffer : TokenBuffer} {a b : Piece}
  {front commas back : List Piece}

theorem spelled_append (earlier later : List Piece) :
    spelled (earlier ++ later) = spelled earlier ++ spelled later := by
  rw [spelled, List.filter_append, List.flatMap_append, spelled, spelled]

theorem spelled_gap (hb : b.token.anonymous = false)
    (hcommas : ∀ p ∈ commas, p.token.anonymous = true) :
    spelled (front ++ a :: (commas ++ b :: back)) =
      spelled (front ++ [a]) ++ (b.gap ++ (b.token.raw.toList ++ spelled back)) := by
  have hsplit : front ++ a :: (commas ++ b :: back) = front ++ [a] ++ (commas ++ b :: back) := by
    simp
  rw [hsplit, spelled_append, spelled_commas hcommas, spelled_cons hb, List.append_assoc]

theorem replay_spelled (buffer : TokenBuffer) :
    buffer.replay.toList = spelled buffer.pieces ++ buffer.trailing := by
  rw [TokenBuffer.replay_eq, String.toList_ofList]
  rfl

theorem scan_of_buffer (h : TokenBuffer.ofSource source settings = .ok buffer) :
    (Scan.ofSource source settings).failure = none ∧
      buffer = ⟨(Scan.ofSource source settings).pieces,
        (Scan.ofSource source settings).trailing⟩ := by
  rw [TokenBuffer.ofSource] at h
  split at h
  · cases h
  · rename_i hnone
    cases h
    exact ⟨hnone, rfl⟩

theorem before_ofText {text text' : String} {w gap after : List Char} {pieces : List Piece}
    (hw : spelled pieces = w) (htext : text.toList = w ++ ' ' :: (gap ++ after))
    (htext' : text'.toList = w ++ (" ...\n".toList ++ after)) (hgap : ∀ c ∈ gap, isBlank c = true)
    (hafter : after.dropWhile isBlank = after) :
    State.Before (gap ++ after) ('.' :: '.' :: '\n' :: (gap ++ after).dropWhile isBlank) pieces
      (.ofText text) (.ofText text') := by
  refine ⟨rfl, ?_, ?_, rfl, nofun, nofun⟩
  · rw [hw]
    exact htext
  · rw [hw, List.dropWhile_append_of_pos hgap, hafter]
    exact htext'

theorem gap_spaces (htabs : '\t' ∉ source.text.toList)
    (hmem : b ∈ (Scan.ofSource source settings).pieces) (hb : b.token.anonymous = false) :
    ∀ c ∈ b.gap, c = ' ' := by
  intro c hc
  obtain ⟨htiles, -⟩ := Scan.scan_lossless source settings
  have hwritten : b ∈ (Scan.ofSource source settings).pieces.filter fun p => !p.token.anonymous :=
    List.mem_filter.2 ⟨hmem, by simp [hb]⟩
  have hblank := htiles.gap_blank b hwritten c hc
  rw [isBlank, Bool.or_eq_true, beq_iff_eq, beq_iff_eq] at hblank
  refine hblank.resolve_right fun htab => htabs ?_
  rw [← htiles.text_eq, ← htab]
  exact List.mem_append_left _ (List.mem_flatMap.2 ⟨b, hwritten, List.mem_append_left _ hc⟩)

theorem before_edited (htabs : '\t' ∉ source.text.toList)
    (hpieces : (Scan.ofSource source settings).pieces = front ++ a :: (commas ++ b :: back))
    (hb : b.token.anonymous = false) (hcommas : ∀ p ∈ commas, p.token.anonymous = true)
    (hgap : b.gap ≠ [])
    (hedited : edited.text = TokenBuffer.replay
      ⟨front ++ a :: (commas ++ { b with gap := " ...\n".toList } :: back),
        (Scan.ofSource source settings).trailing⟩) :
    ∃ rest, State.Before rest ('.' :: '.' :: '\n' :: rest.dropWhile isBlank) (front ++ [a])
      (.ofText source.text) (.ofText edited.text) := by
  obtain ⟨htiles, -⟩ := Scan.scan_lossless source settings
  generalize htrailing : (Scan.ofSource source settings).trailing = trailing at hedited
  have hwhole : spelled (Scan.ofSource source settings).pieces ++ trailing =
    source.text.toList := by
    rw [← htrailing]
    exact htiles.text_eq
  have hmem : b ∈ (Scan.ofSource source settings).pieces := by
    rw [hpieces]
    simp
  have hblanks := gap_spaces htabs hmem hb
  obtain ⟨gap, hgap'⟩ : ∃ gap, b.gap = ' ' :: gap := by
    obtain ⟨c, gap, hcons⟩ := List.exists_cons_of_ne_nil hgap
    rw [hcons] at hblanks ⊢
    rw [hblanks c List.mem_cons_self]
    exact ⟨gap, rfl⟩
  have htext : source.text.toList = spelled (front ++ [a]) ++
      (b.gap ++ (b.token.raw.toList ++ spelled back ++ trailing)) := by
    rw [← hwhole, hpieces, spelled_gap hb hcommas]
    simp only [List.append_assoc]
  rw [hgap', List.cons_append] at htext
  have htext' : edited.text.toList = spelled (front ++ [a]) ++
      (" ...\n".toList ++ (b.token.raw.toList ++ spelled back ++ trailing)) := by
    rw [hedited, replay_spelled]
    dsimp only
    rw [spelled_gap (b := { b with gap := " ...\n".toList }) hb hcommas]
    simp only [List.append_assoc]
  obtain ⟨hraw, hne⟩ := Scan.raw_nonblank _ b hmem hb
  have hafter : (b.token.raw.toList ++ spelled back ++ trailing).dropWhile isBlank =
      b.token.raw.toList ++ spelled back ++ trailing := by
    rw [List.append_assoc, List.dropWhile_append, hraw, if_neg (by simpa using hne)]
  exact ⟨_, before_ofText rfl htext htext' (fun c hc => by
    rw [hblanks c (hgap' ▸ List.mem_cons_of_mem _ hc)]
    rfl) hafter⟩

theorem seen_continued {file : String} {octave : Bool} {st st' : Lexing.State}
    {rest : List Char}
    (h : State.Before rest ('.' :: '.' :: '\n' :: rest.dropWhile isBlank) (front ++ [a]) st st')
    (hpieces : (Scan.ofState file octave st).pieces = front ++ a :: (commas ++ b :: back))
    (ha : a.token.anonymous = false) (hb : b.token.anonymous = false)
    (hcommas : ∀ p ∈ commas, p.token.anonymous = true) (hcomment : b.token.kind ≠ .comment)
    (hdirectory : a.token.kind ≠ .directory)
    (hhead : ¬ EndsHead st.brackets.length (front ++ [a])) :
    (Scan.ofState file octave st').seen = (Scan.ofState file octave st).seen ∧
      (Scan.ofState file octave st').failure.isSome =
        (Scan.ofState file octave st).failure.isSome := by
  have hlast : ∀ p ∈ (front ++ [a]).getLast?, p = a := by
    intro p hp
    rw [List.getLast?_concat, Option.mem_some] at hp
    exact hp.symm
  have hsplit : front ++ a :: (commas ++ b :: back) = (front ++ [a]) ++ (commas ++ b :: back) := by
    simp
  rw [hsplit] at hpieces
  obtain ⟨next, next', hgap, hmode, hlater, hend, hend', htokens'⟩ :=
    h.run (by simp) (fun p hp => hlast p hp ▸ ha) (fun p hp => hlast p hp ▸ hdirectory) hhead
      hpieces
  have hfilter : ((commas ++ b :: back).filter fun p => !p.token.anonymous).head? = some b := by
    rw [List.filter_append, List.filter_eq_nil_iff.2 (by simpa using hcommas), List.nil_append,
      List.filter_cons_of_pos (by simp [hb])]
    rfl
  obtain ⟨hseen, hfailure⟩ := Scan.seen_gap hgap hmode (by rw [hlater]; simp)
    (by
      intro p hp
      rw [hlater, hfilter, Option.mem_some] at hp
      rw [← hp]
      exact hcomment)
  rw [hend, hend'] at hfailure
  refine ⟨?_, hfailure⟩
  have htokens : (Scan.ofState file octave st).tokens.map Token.placeless =
      (front ++ [a]).map (·.token.placeless) ++
        (Scan.ofState file octave next).tokens.map Token.placeless := by
    rw [Scan.tokens, Scan.tokens, hpieces, hlater, List.map_map, List.map_map, List.map_append]
    rfl
  rw [Scan.seen, Scan.seen] at hseen
  rw [Scan.seen, Scan.seen, htokens, htokens', List.filter_append, List.filter_append, hseen]

/-- A continuation and a line break stand for the blanks between two tokens. -/
theorem ofSource_continued (hname : edited.name = source.name)
    (htabs : '\t' ∉ source.text.toList)
    (hbuffer : TokenBuffer.ofSource source settings = .ok buffer)
    (hpieces : buffer.pieces = front ++ a :: (commas ++ b :: back))
    (ha : a.token.anonymous = false) (hb : b.token.anonymous = false)
    (hcommas : ∀ p ∈ commas, p.token.anonymous = true) (hgap : b.gap ≠ [])
    (hcomment : b.token.kind ≠ .comment) (hdirectory : a.token.kind ≠ .directory)
    (hhead : ¬ EndsHead 0 (front ++ [a]))
    (hedited : edited.text = { buffer with
      pieces := front ++ a :: (commas ++ { b with gap := " ...\n".toList } :: back) }.replay)
    {unit : FileUnit} (hunit : ofSource source settings = .ok unit) :
    ∃ unit', ofSource edited settings = .ok unit' ∧
      unit'.relocate Location.forget = unit.relocate Location.forget := by
  obtain ⟨hfailure, rfl⟩ := scan_of_buffer hbuffer
  dsimp only at hpieces hedited
  obtain ⟨rest, hbefore⟩ := before_edited htabs hpieces hb hcommas hgap hedited
  obtain ⟨hseen, hfailure'⟩ :=
    seen_continued hbefore hpieces ha hb hcommas hcomment hdirectory hhead
  have hscan : Scan.ofSource edited settings =
      Scan.ofState source.name settings.octave (.ofText edited.text) := by
    rw [Scan.ofSource, hname]
  refine ofSource_placeless hname ?_ ?_ hunit
  · rw [hscan, ← Option.isNone_iff_eq_none, ← Option.not_isSome, hfailure']
    rw [Scan.ofSource] at hfailure
    rw [hfailure]
    rfl
  · rw [hscan, hseen]
    rfl

/-- A row in which a sign stands between a number and a transposed name. -/
def signedRow : SourceText := .ofString "t.m" "x = [1 -y'] + z;\n" {}

def signedRowContinued : SourceText := .ofString "t.m" "x = [1 ...\n-y'] + z;\n" {}

def signedRowScan : Scan := .ofSource signedRow {}

theorem length_signedRowScan : signedRowScan.pieces.length = 13 := by decide +kernel

def signedRowPiece (n : Nat) (h : n < 13) : Piece :=
  signedRowScan.pieces.get ⟨n, length_signedRowScan ▸ h⟩

theorem ofSource_continued_row : ∃ unit, ofSource signedRow {} = .ok unit ∧
    ∃ unit', ofSource signedRowContinued {} = .ok unit' ∧
      unit'.relocate Location.forget = unit.relocate Location.forget := by
  have hname : signedRowContinued.name = signedRow.name := rfl
  have hbuffer : TokenBuffer.ofSource signedRow {} =
      .ok ⟨signedRowScan.pieces, signedRowScan.trailing⟩ := by
    have hfailure : signedRowScan.failure = none := by decide +kernel
    rw [signedRowScan] at hfailure
    rw [TokenBuffer.ofSource, hfailure, signedRowScan]
  have hpieces : signedRowScan.pieces = signedRowScan.pieces.take 3 ++
      signedRowPiece 3 (by decide) ::
        ([signedRowPiece 4 (by decide)] ++ signedRowPiece 5 (by decide) ::
          signedRowScan.pieces.drop 6) := by
    decide +kernel
  have hedited : signedRowContinued.text = TokenBuffer.replay ⟨signedRowScan.pieces.take 3 ++
      signedRowPiece 3 (by decide) :: ([signedRowPiece 4 (by decide)] ++
        { signedRowPiece 5 (by decide) with gap := " ...\n".toList } ::
          signedRowScan.pieces.drop 6), signedRowScan.trailing⟩ := by
    decide +kernel
  have hrun : (ofSource signedRow {}).toOption.isSome = true := by decide +kernel
  cases hunit : ofSource signedRow {} with
  | ok unit =>
    refine ⟨unit, rfl, ?_⟩
    refine ofSource_continued hname ?_ hbuffer hpieces ?_ ?_ ?_ ?_ ?_ ?_ ?_ hedited hunit
    all_goals decide +kernel
  | error e =>
    rw [hunit] at hrun
    cases hrun

end FileUnit

end MFile
