import MFile.Proofs.Lexing.Origins
import MFile.Proofs.Lexing.Reached
import MFile.Proofs.Text.Lines

/-!
The texts of comments and their values. A comment goes on to the end of its line, or it is a block:
a line with nothing but an opening mark, and all lines up to the first one with nothing but the
closing mark. The value of a block is made of the lines between the marks. The value of any other
comment lacks the first character, and if a brace comes next, the brace as well.
-/

namespace MFile

open Lexing Text

structure BlockComment where
  mark : Char
  /-- What stands on the first line behind the opening mark. -/
  opening : List Char
  inner : List (List Char)
  /-- What stands on the last line before the closing mark. -/
  indent : List Char
  trail : List Char

namespace BlockComment

def raw (b : BlockComment) : List Char :=
  ofLines ((b.mark :: '{' :: b.opening) :: b.inner ++ [b.indent ++ b.mark :: '}' :: b.trail])

def lines (b : BlockComment) : List (List Char) := b.opening :: b.inner ++ [b.indent]

/-- The marks are alone on their lines, and the closing mark is the first one that is. On its line
the opening mark is followed by white space up to the end or up to a carriage return. -/
structure WellFormed (b : BlockComment) : Prop where
  mark : b.mark = '%' ∨ b.mark = '#'
  lines : ∀ l ∈ b.lines, '\n' ∉ l
  opening : ∀ c ∈ b.opening.takeWhile (!isBreak ·), isWhiteSpace c = true
  inner : ∀ l ∈ b.inner, trim isWhiteSpace l ≠ [b.mark, '}']
  closing : ∀ c ∈ b.indent ++ b.trail, isWhiteSpace c = true

variable {b : BlockComment}

theorem raw_eq (b : BlockComment) :
    b.raw = b.mark :: '{' :: (ofLines b.lines ++ b.mark :: '}' :: b.trail) := by
  have hfirst := ofLines_append_head [b.mark, '{'] b.opening
    (b.inner ++ [b.indent ++ b.mark :: '}' :: b.trail])
  have hlast := ofLines_append_last (b.opening :: b.inner) b.indent (b.mark :: '}' :: b.trail)
  rw [raw, lines, ← hlast]
  exact hfirst

end BlockComment

theorem blockCommentText_eq {close body trail : List Char} (hclose : close.getLast? = some '}')
    (htrail : ∀ c ∈ trail, isWhiteSpace c = true) :
    blockCommentText close (body ++ (close ++ trail)) = trim isBreak body := by
  have hkept : trimEnd isWhiteSpace (body ++ (close ++ trail)) = body ++ close := by
    rw [← List.append_assoc, trimEnd_append_of_all htrail]
    refine List.rdropWhile_eq_self_iff.2 fun hne => ?_
    have hlast : (body ++ close).getLast hne = '}' := by
      refine Option.some_inj.1 ?_
      rw [← List.getLast?_eq_some_getLast, List.getLast?_append, hclose, Option.some_or]
    rw [hlast]
    decide
  have hsuffix : close.isSuffixOf (body ++ close) = true :=
    List.isSuffixOf_iff_suffix.2 (List.suffix_append body close)
  rw [blockCommentText, hkept, if_pos hsuffix, List.length_append, Nat.add_sub_cancel,
    List.take_left]

theorem length_blockCommentText_le (close body : List Char) :
    (blockCommentText close body).length ≤ body.length := by
  have htrim : ∀ cs : List Char, (trim isBreak cs).length ≤ cs.length := fun cs =>
    (length_trimEnd_le _ _).trans (List.dropWhile_suffix _).length_le
  have hkept : (trimEnd isWhiteSpace body).length ≤ body.length := length_trimEnd_le _ _
  rw [blockCommentText]
  refine (htrim _).trans ?_
  split
  · exact (List.length_take_le' _ _).trans hkept
  · exact hkept

namespace Token

inductive CommentText (t : Token) : Prop
  | line {mark : Char} {body : List Char} (hmark : mark = '%' ∨ mark = '#')
      (raw_eq : t.raw.toList = mark :: body) (hline : ∀ c ∈ body, isBreak c = false)
      (value_eq : t.value.toList = body ↔ body.head? ≠ some '{')
      (hbrace : ∀ rest, body = '{' :: rest →
        t.firstInLine = false ∨ ∃ c ∈ rest, isWhiteSpace c = false)
  | block (b : BlockComment) (hb : b.WellFormed) (hfirst : t.firstInLine = true)
      (raw_eq : t.raw.toList = b.raw) (value_eq : t.value.toList = trim isBreak (ofLines b.lines))
      (keeps : Keeps b.lines t.value.toList)

variable {t : Token} {mark : Char} {body : List Char}

theorem value_comment (hkind : t.kind = .comment) :
    t.value.toList = commentText t.raw.toList := by
  rw [value, hkind, Kind.valueOf, String.toList_ofList]

theorem value_line (hkind : t.kind = .comment) (hmark : mark = '%' ∨ mark = '#')
    (hraw : t.raw.toList = mark :: body) :
    t.value.toList = body ↔ body.head? ≠ some '{' := by
  rw [value_comment hkind, hraw]
  cases body with
  | nil => obtain rfl | rfl := hmark <;> simp [commentText]
  | cons c rest =>
    rw [List.head?_cons, Ne, Option.some_inj]
    by_cases hc : c = '{'
    · refine iff_of_false (fun heq => ?_) (not_not_intro hc)
      have hlength : (commentText (mark :: c :: rest)).length ≤ rest.length := by
        obtain rfl | rfl := hmark <;> rw [hc] <;> exact length_blockCommentText_le _ _
      rw [heq, List.length_cons] at hlength
      exact Nat.not_succ_le_self _ hlength
    · refine iff_of_true ?_ hc
      obtain rfl | rfl := hmark <;> simp [commentText, hc]

theorem commentText_block {b : BlockComment} (hb : b.WellFormed)
    (hkind : t.kind = .comment) (hfirst : t.firstInLine = true) (hraw : t.raw.toList = b.raw) :
    t.CommentText := by
  have hvalue : t.value.toList = trim isBreak (ofLines b.lines) := by
    have htrail : ∀ c ∈ b.trail, isWhiteSpace c = true := fun c hc =>
      hb.closing c (List.mem_append_right _ hc)
    rw [value_comment hkind, hraw, b.raw_eq]
    obtain hmark | hmark := hb.mark <;> rw [hmark] <;> exact blockCommentText_eq rfl htrail
  refine .block b hb hfirst hraw hvalue ?_
  rw [hvalue]
  exact keeps_trim (List.cons_ne_nil _ _) hb.lines

end Token

namespace Lexing

variable {c : Char} {cs rest close : List Char} {lines : List (List Char)} {n : Nat}

/-! ## The lines of a block -/

theorem notMem_fullLines {line : List Char} (h : line ∈ fullLines cs) : '\n' ∉ line.dropLast := by
  induction cs generalizing line with
  | nil => exact absurd h List.not_mem_nil
  | cons c cs ih =>
    rw [fullLines] at h
    split at h
    · obtain rfl | h := List.mem_cons.1 h
      · exact List.not_mem_nil
      · exact ih h
    rename_i hc
    cases hlines : fullLines cs with
    | nil =>
      rw [hlines] at h
      obtain rfl := List.mem_singleton.1 h
      exact List.not_mem_nil
    | cons first lines =>
      rw [hlines] at h ih
      obtain rfl | h := List.mem_cons.1 h
      · cases first with
        | nil => exact List.not_mem_nil
        | cons d first =>
          rw [List.dropLast_cons_cons, List.mem_cons, not_or]
          exact ⟨Ne.symm hc, ih List.mem_cons_self⟩
      · exact ih (List.mem_cons_of_mem _ h)

theorem exists_of_closingLine? (h : closingLine? close lines = some n) :
    ∃ front line back, lines = front ++ line :: back ∧
      (∀ l ∈ front, trim isWhiteSpace (trimEnd isBreak l) ≠ close) ∧
      trim isWhiteSpace (trimEnd isBreak line) = close ∧
      lines.flatten.take n = front.flatten ++ trimEnd isBreak line := by
  induction lines generalizing n with
  | nil => cases h
  | cons line lines ih =>
    simp only [closingLine?] at h
    split at h
    · rename_i hclose
      cases h
      refine ⟨[], line, lines, rfl, List.forall_mem_nil _, hclose, ?_⟩
      have hprefix : trimEnd isBreak line <+: (line :: lines).flatten :=
        (List.rdropWhile_prefix _ _).trans (List.prefix_append _ _)
      exact (List.prefix_iff_eq_take.1 hprefix).symm
    · rename_i hclose
      obtain ⟨m, hm, rfl⟩ := Option.map_eq_some_iff.1 h
      obtain ⟨front, last, back, rfl, hfront, hlast, htake⟩ := ih hm
      refine ⟨line :: front, last, back, rfl, List.forall_mem_cons.2 ⟨hclose, hfront⟩, hlast, ?_⟩
      rw [List.flatten_cons, List.take_length_add_append, htake, List.flatten_cons,
        List.append_assoc]

def IsEnded (line : List Char) : Prop := ∃ l, '\n' ∉ l ∧ line = l ++ ['\n']

theorem isEnded_fullLine {line : List Char} {after : List (List Char)}
    (before : List (List Char)) (hne : after ≠ []) (h : fullLines cs = before ++ line :: after) :
    IsEnded line := by
  have hmem : line ∈ (fullLines cs).dropLast := by
    rw [h, List.dropLast_append_of_ne_nil (List.cons_ne_nil _ _), List.dropLast_cons_of_ne_nil hne]
    exact List.mem_append_right _ List.mem_cons_self
  obtain ⟨l, rfl⟩ := List.getLast?_eq_some_iff.1 (fullLines_break hmem)
  have hnone := notMem_fullLines ((List.dropLast_subset _) hmem)
  rw [List.dropLast_concat] at hnone
  exact ⟨l, hnone, rfl⟩

theorem exists_of_isEnded (h : ∀ line ∈ lines, IsEnded line) :
    ∃ inner : List (List Char), (∀ l ∈ inner, '\n' ∉ l) ∧ lines = inner.map (· ++ ['\n']) := by
  induction lines with
  | nil => exact ⟨[], List.forall_mem_nil _, rfl⟩
  | cons line lines ih =>
    obtain ⟨⟨l, hl, rfl⟩, hrest⟩ := List.forall_mem_cons.1 h
    obtain ⟨inner, hinner, rfl⟩ := ih hrest
    exact ⟨l :: inner, List.forall_mem_cons.2 ⟨hl, hinner⟩, rfl⟩

theorem notMem_trimEnd {line : List Char} (h : '\n' ∉ line.dropLast) :
    '\n' ∉ trimEnd isBreak line := by
  cases line using List.reverseRecOn with
  | nil => exact List.not_mem_nil
  | append_singleton l c =>
    rw [List.dropLast_concat] at h
    change '\n' ∉ (l ++ [c]).rdropWhile isBreak
    cases hc : isBreak c with
    | true =>
      rw [List.rdropWhile_concat_pos _ _ _ hc]
      exact fun hmem => h ((List.rdropWhile_prefix _ _).subset hmem)
    | false =>
      rw [List.rdropWhile_concat_neg _ _ _ (by rw [hc]; decide), List.mem_append, not_or]
      refine ⟨h, fun hmem => ?_⟩
      rw [← List.mem_singleton.1 hmem] at hc
      cases hc

theorem isWhiteSpace_of_isBreak (h : isBreak c = true) : isWhiteSpace c = true := by
  rw [isBreak, Bool.or_eq_true, beq_iff_eq, beq_iff_eq] at h
  obtain rfl | rfl := h <;> decide

theorem exists_of_blockBody? (h : blockBody? close rest = some n) :
    ∃ first inner closing, rest.take n = ofLines (first :: inner ++ [closing]) ∧
      (∀ l ∈ first :: inner ++ [closing], '\n' ∉ l) ∧
      (∀ l ∈ inner, trim isWhiteSpace l ≠ close) ∧ trim isWhiteSpace closing = close := by
  have hflat := flatten_fullLines rest
  rw [blockBody?] at h
  cases hlines : fullLines rest with
  | nil =>
    rw [hlines] at h
    cases h
  | cons first lines =>
    rw [hlines] at h
    obtain ⟨m, hm, rfl⟩ := Option.map_eq_some_iff.1 h
    obtain ⟨front, last, back, rfl, hfront, hlast, htake⟩ := exists_of_closingLine? hm
    obtain ⟨first, hfirst, rfl⟩ : IsEnded first := isEnded_fullLine []
      (List.append_ne_nil_of_right_ne_nil _ (List.cons_ne_nil _ _)) hlines
    have hended : ∀ l ∈ front, IsEnded l := by
      intro l hl
      obtain ⟨before, after, rfl⟩ := List.append_of_mem hl
      refine isEnded_fullLine ((first ++ ['\n']) :: before)
        (List.append_ne_nil_of_right_ne_nil after (List.cons_ne_nil last back)) (hlines.trans ?_)
      simp only [List.cons_append, List.append_assoc]
    have hmem : last ∈ fullLines rest := by
      rw [hlines]
      exact List.mem_cons_of_mem _ (List.mem_append_right _ List.mem_cons_self)
    have hclosing : '\n' ∉ trimEnd isBreak last := notMem_trimEnd (notMem_fullLines hmem)
    obtain ⟨inner, hinner, rfl⟩ := exists_of_isEnded hended
    refine ⟨first, inner, trimEnd isBreak last, ?_, ?_, fun l hl => ?_, hlast⟩
    · rw [← hflat, hlines, List.flatten_cons, List.take_length_add_append, htake, ofLines_flatMap,
        List.flatMap_cons, List.append_assoc _ _ (trimEnd isBreak last), List.flatMap_def]
    · exact List.forall_mem_append.2
        ⟨List.forall_mem_cons.2 ⟨hfirst, hinner⟩, List.forall_mem_singleton.2 hclosing⟩
    · have hne := hfront _ (List.mem_map_of_mem hl)
      rwa [trim_trimEnd (fun _ => isWhiteSpace_of_isBreak), trim_append_of_all
        (List.forall_mem_singleton.2 (by decide))] at hne

/-! ## Comments that open a block -/

theorem exists_of_blockClose? {comment : List Char} (h : blockClose? comment = some close) :
    ∃ mark blanks, comment = mark :: '{' :: blanks ∧ close = [mark, '}'] ∧
      ∀ c ∈ blanks, isWhiteSpace c = true := by
  have hsplit : trimEnd isWhiteSpace comment ++ comment.rtakeWhile isWhiteSpace = comment :=
    List.rdropWhile_append_rtakeWhile
  have hblanks : ∀ c ∈ comment.rtakeWhile isWhiteSpace, isWhiteSpace c = true :=
    fun c => List.mem_rtakeWhile_imp
  rw [blockClose?] at h
  split at h
  · rename_i htrim
    rw [htrim] at hsplit
    cases h
    exact ⟨'%', _, hsplit.symm, rfl, hblanks⟩
  · rename_i htrim
    rw [htrim] at hsplit
    cases h
    exact ⟨'#', _, hsplit.symm, rfl, hblanks⟩
  · cases h

theorem blockClose?_mark {blanks : List Char} (hc : c = '%' ∨ c = '#')
    (h : ∀ d ∈ blanks, isWhiteSpace d = true) : blockClose? (c :: '{' :: blanks) ≠ none := by
  have htrim : trimEnd isWhiteSpace ([c, '{'] ++ blanks) = [c, '{'] := by
    rw [trimEnd_append_of_all h]
    obtain rfl | rfl := hc <;> rfl
  have hne : blockClose? ([c, '{'] ++ blanks) ≠ none := by
    rw [blockClose?, htrim]
    obtain rfl | rfl := hc <;> exact Option.some_ne_none _
  exact hne

namespace State

variable {st : State} {more : Nat} {mode : Mode} {t : Token}

theorem commentText_line (hc : c = '%' ∨ c = '#') (hkind : t.kind = .comment)
    (hraw : t.raw.toList = c :: cs.take (restOfLine cs))
    (h : blockClose? (c :: cs.take (restOfLine cs)) = none ∨ t.firstInLine = false) :
    t.CommentText := by
  refine .line hc hraw (stays_restOfLine cs) (Token.value_line hkind hc hraw) fun rest hrest => ?_
  refine h.symm.imp_right fun hnone => ?_
  by_contra hall
  rw [hrest] at hnone
  exact blockClose?_mark hc (by simpa using hall) hnone

theorem takeWhile_opening {blanks first more : List Char} {n : Nat}
    (hblanks : ∀ d ∈ blanks, isBreak d = false)
    (htake : (cs.drop (restOfLine cs)).take n = first ++ more) :
    (blanks ++ first).takeWhile (!isBreak ·) = blanks := by
  have hfirst : first.takeWhile (!isBreak ·) = [] := by
    cases first with
    | nil => rfl
    | cons d first =>
      have hhead : (cs.drop (restOfLine cs)).head? = some d := by
        rw [← List.take_append_drop n (cs.drop _), htake]
        rfl
      rw [List.takeWhile_cons_of_neg (by simp [atBreak_restOfLine cs d hhead])]
  rw [List.takeWhile_append_of_pos (by simpa using hblanks), hfirst, List.append_nil]

theorem exists_block {n : Nat} (hc : c = '%' ∨ c = '#')
    (hclose : blockClose? (c :: cs.take (restOfLine cs)) = some close)
    (hbody : blockBody? close (cs.drop (restOfLine cs)) = some n) :
    ∃ b : BlockComment, b.WellFormed ∧ c :: cs.take (restOfLine cs + n) = b.raw := by
  obtain ⟨mark, blanks, hline, rfl, hblanks⟩ := exists_of_blockClose? hclose
  obtain ⟨rfl, hopening⟩ := List.cons.inj hline
  obtain ⟨first, inner, closing, htake, hlines, hinner, hclosing⟩ := exists_of_blockBody? hbody
  obtain ⟨indent, trail, hsplit, haround⟩ := exists_trim isWhiteSpace closing
  rw [hclosing, List.append_assoc] at hsplit
  subst hsplit
  have hstays : ∀ d ∈ blanks, isBreak d = false := fun d hd =>
    stays_restOfLine cs d (hopening ▸ List.mem_cons_of_mem _ hd)
  obtain ⟨hfront, hlast⟩ := List.forall_mem_append.1 hlines
  obtain ⟨hbegin, hrest⟩ := List.forall_mem_cons.1 hfront
  have hfirst : '\n' ∉ blanks ++ first := fun hmem =>
    (List.mem_append.1 hmem).elim (fun h => absurd (hstays _ h) (by decide)) hbegin
  have hindent : '\n' ∉ indent := fun hmem =>
    hlast _ (List.mem_singleton_self _) (List.mem_append_left _ hmem)
  refine ⟨⟨c, blanks ++ first, inner, indent, trail⟩, ⟨hc, ?_, ?_, hinner, haround⟩, ?_⟩
  · exact List.forall_mem_append.2
      ⟨List.forall_mem_cons.2 ⟨hfirst, hrest⟩, List.forall_mem_singleton.2 hindent⟩
  · rw [List.cons_append, ofLines_cons] at htake
    change ∀ d ∈ (blanks ++ first).takeWhile _, _
    rwa [takeWhile_opening hstays htake]
  · rw [List.take_add, ← List.cons_append, hline, htake]
    exact (ofLines_append_head (c :: '{' :: blanks) first _).symm

theorem commentText_of_decideComment (hc : c = '%' ∨ c = '#')
    (h : st.decideComment c cs (restOfLine cs) = .token .comment more mode)
    (hkind : t.kind = .comment) (hfirst : t.firstInLine = st.firstInLine)
    (hraw : t.raw.toList = c :: cs.take more) : t.CommentText := by
  simp only [decideComment] at h
  split at h
  · rename_i close hclose
    split at h
    · rename_i hline
      split at h
      · rename_i n hbody
        cases h
        obtain ⟨b, hb, hb_raw⟩ := exists_block hc hclose hbody
        exact Token.commentText_block hb hkind (hfirst.trans hline) (hraw.trans hb_raw)
      · cases h
    · rename_i hline
      cases h
      exact commentText_line hc hkind hraw (.inr (hfirst.trans (Bool.eq_false_iff.2 hline)))
  · rename_i hnone
    cases h
    exact commentText_line hc hkind hraw (.inl hnone)

end State

end Lexing

namespace Scan

open State

variable {source : SourceText} {settings : Settings} {t : Token}

theorem scan_comments (source : SourceText) (settings : Settings) (t : Token)
    (h : t ∈ (ofSource source settings).tokens) (hkind : t.kind = .comment) : t.CommentText := by
  obtain ⟨before, after, hsplit⟩ := List.append_of_mem h
  cases takenAt hsplit with
  | @token pieces st c cs kind more mode _ htakes =>
    rw [take_token_kind] at hkind
    subst hkind
    obtain ⟨hc, mode', hdecide⟩ := decideComment_of_decide htakes.decides
    exact commentText_of_decideComment hc hdecide rfl rfl (htakes.raw source.name)
  | comma _ _ hcomma =>
    rw [(take_comma hcomma).2.1] at hkind
    cases hkind

def indentedBlock : SourceText := .ofString "t.m" "%\x7b\n a\n\n  b\n  %\x7d\n" {}

theorem scan_comments_block : ∃ t ∈ (ofSource indentedBlock {}).tokens,
    t.kind = .comment ∧ t.value = " a\n\n  b\n  " ∧ t.CommentText := by
  obtain ⟨t, hmem, hblock⟩ : ∃ t ∈ (ofSource indentedBlock {}).tokens,
      (t.kind == .comment && t.value == " a\n\n  b\n  ") = true :=
    List.any_eq_true.1 (by decide +kernel)
  rw [Bool.and_eq_true, beq_iff_eq, beq_iff_eq] at hblock
  exact ⟨t, hmem, hblock.1, hblock.2, scan_comments _ _ _ hmem hblock.1⟩

/-- On one line the brace behind the mark is stripped as well. -/
theorem scan_bracedComment : ∃ t ∈ (ofSource (.ofString "t.m" "%\x7b note" {}) {}).tokens,
    t.kind = .comment ∧ t.raw.toList = '%' :: "\x7b note".toList ∧ t.value = " note" := by
  obtain ⟨t, hmem, hline⟩ : ∃ t ∈ (ofSource (.ofString "t.m" "%\x7b note" {}) {}).tokens,
      (t.kind == .comment && t.raw.toList == '%' :: "\x7b note".toList && t.value == " note") =
        true :=
    List.any_eq_true.1 (by decide +kernel)
  rw [Bool.and_eq_true, Bool.and_eq_true, beq_iff_eq, beq_iff_eq, beq_iff_eq] at hline
  exact ⟨t, hmem, hline.1.1, hline.1.2, hline.2⟩

end Scan

end MFile
