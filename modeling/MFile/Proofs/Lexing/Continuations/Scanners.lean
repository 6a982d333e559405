import MFile.Proofs.Lexing.Cut
import MFile.Proofs.Lexing.LineEnds.Lines

/-!
Texts that differ behind a blank. What ends before the blank goes as far in both of them: for a
scanner that stops at blanks because it does, and for one that passes them because it has stopped
before.
-/

namespace MFile.Lexing

open Text

variable {c : Char} {w rest rest' : List Char} {p : Char → Bool} {n : Nat}

theorem cuts_blank : cuts ' ' = true := rfl

theorem run_within (hp : p ' ' = true) (rest' : List Char)
    (h : run p (w ++ ' ' :: rest) ≤ w.length) :
    run p (w ++ ' ' :: rest') = run p (w ++ ' ' :: rest) := by
  induction w with
  | nil =>
    rw [run, List.nil_append, List.takeWhile_cons_of_pos hp] at h
    exact absurd h (Nat.not_succ_le_zero _)
  | cons c w ih =>
    rw [run, run, List.cons_append, List.cons_append, List.takeWhile_cons,
      List.takeWhile_cons] at *
    split
    · rename_i hc
      rw [if_pos hc, List.length_cons, List.length_cons] at h
      rw [List.length_cons, List.length_cons]
      exact congrArg Nat.succ (ih (Nat.le_of_succ_le_succ h))
    · rfl

/-! ## Lines -/

theorem restOfLine_within (rest' : List Char) (h : restOfLine (w ++ ' ' :: rest) ≤ w.length) :
    restOfLine (w ++ ' ' :: rest') = restOfLine (w ++ ' ' :: rest) :=
  run_within rfl rest' h

theorem throughBreak_within (rest' : List Char) (h : throughBreak (w ++ ' ' :: rest) ≤ w.length) :
    throughBreak (w ++ ' ' :: rest') = throughBreak (w ++ ' ' :: rest) := by
  have hlength : ∀ rest : List Char, (w ++ ' ' :: rest).length = w.length + rest.length + 1 :=
    fun rest => by rw [List.length_append, List.length_cons]; rfl
  rw [throughBreak, hlength] at h
  have hrun : run (· ≠ '\n') (w ++ ' ' :: rest') = run (· ≠ '\n') (w ++ ' ' :: rest) :=
    run_within rfl rest' (by omega)
  rw [throughBreak, throughBreak, hrun, hlength, hlength]
  omega

theorem trimEnd_append (p : Char → Bool) (as bs : List Char) :
    trimEnd p (as ++ bs) = if bs.all p then trimEnd p as else as ++ trimEnd p bs := by
  rw [trimEnd, trimEnd, trimEnd, List.reverse_append]
  split
  · rename_i h
    rw [List.dropWhile_append_of_pos fun c hc => List.all_eq_true.1 h c (List.mem_reverse.1 hc)]
  · rename_i h
    rw [List.dropWhile_append, if_neg, List.reverse_append, List.reverse_reverse]
    rw [List.isEmpty_iff, List.dropWhile_eq_nil_iff]
    exact fun hall => h (List.all_eq_true.2 fun c hc => hall c (List.mem_reverse.2 hc))

theorem trimEnd_eq_nil (h : trimEnd p w = []) : w.all p = true := by
  rw [trimEnd, List.reverse_eq_nil_iff, List.dropWhile_eq_nil_iff] at h
  exact List.all_eq_true.2 fun c hc => h c (List.mem_reverse.2 hc)

theorem blankLines_within {e : Char} (he : (isBlank e || isBreak e) = false) (rest' : List Char)
    (h : blankLines (w ++ ' ' :: rest) ≤ w.length) :
    blankLines (w ++ ' ' :: e :: rest') = blankLines (w ++ ' ' :: rest) := by
  have hone : (' ' :: e :: rest').takeWhile (fun c => isBlank c || isBreak c) = [' '] := by
    rw [List.takeWhile_cons_of_pos rfl, List.takeWhile_cons_of_neg (by rw [he]; decide)]
  rw [blankLines, List.takeWhile_append] at h
  rw [blankLines, blankLines, List.takeWhile_append, List.takeWhile_append, hone]
  split
  · rename_i hall
    rw [if_pos hall, trimEnd_append] at h
    rw [trimEnd_append, trimEnd_append, if_pos (by decide)]
    split
    · rfl
    · rename_i hbreak
      rw [if_neg hbreak, List.length_append] at h
      exact absurd (trimEnd_eq_nil (List.eq_nil_of_length_eq_zero (by omega))) hbreak
  · rfl

/-! ## Block comments -/

theorem fullLines_line (hw : '\n' ∉ w) (rest : List Char) :
    fullLines (w ++ '\n' :: rest) = (w ++ ['\n']) :: fullLines rest := by
  induction w with
  | nil => rw [List.nil_append, fullLines, if_pos rfl, List.nil_append]
  | cons c w ih =>
    rw [List.mem_cons, not_or] at hw
    rw [List.cons_append, fullLines, if_neg (Ne.symm hw.1), ih hw.2]
    rfl

theorem fullLines_open (hw : '\n' ∉ w) (rest : List Char) :
    ∃ line lines, fullLines (w ++ ' ' :: rest) = (w ++ ' ' :: line) :: lines := by
  induction w with
  | nil =>
    rw [List.nil_append, fullLines, if_neg (by decide)]
    cases fullLines rest with
    | nil => exact ⟨[], [], rfl⟩
    | cons line lines => exact ⟨line, lines, rfl⟩
  | cons c w ih =>
    rw [List.mem_cons, not_or] at hw
    obtain ⟨line, lines, h⟩ := ih hw.2
    rw [List.cons_append, fullLines, if_neg (Ne.symm hw.1), h]
    exact ⟨line, lines, rfl⟩

theorem exists_break (w : List Char) :
    '\n' ∉ w ∨ ∃ line more, w = line ++ '\n' :: more ∧ '\n' ∉ line := by
  by_cases hw : '\n' ∈ w
  · exact .inr (List.eq_append_cons_of_mem hw)
  · exact .inl hw

theorem length_lt_trimEnd (hp : p ' ' = false) (w rest : List Char) :
    w.length < (trimEnd p (w ++ ' ' :: rest)).length := by
  have hblank : ¬ (' ' :: rest).all p = true := by simp [hp]
  rw [trimEnd_append, if_neg hblank, List.length_append]
  have hne : trimEnd p (' ' :: rest) ≠ [] := fun h => hblank (trimEnd_eq_nil h)
  have := List.length_pos_iff.2 hne
  omega

theorem closingLine?_within (close rest' : List Char)
    (h : closingLine? close (fullLines (w ++ ' ' :: rest)) = some n) (hn : n ≤ w.length) :
    closingLine? close (fullLines (w ++ ' ' :: rest')) = some n := by
  induction hlength : w.length using Nat.strong_induction_on generalizing w n with
  | _ length ih =>
    obtain hw | ⟨line, more, rfl, hline⟩ := exists_break w
    · obtain ⟨line, lines, hlines⟩ := fullLines_open hw rest
      rw [hlines, closingLine?] at h
      have hcontent := length_lt_trimEnd (p := isBreak) rfl w line
      split at h
      · cases h
        omega
      · obtain ⟨m, -, rfl⟩ := Option.map_eq_some_iff.1 h
        rw [List.length_append] at hn
        simp only [List.length_cons] at hn
        omega
    · rw [List.append_assoc, List.cons_append, fullLines_line hline, closingLine?] at h ⊢
      split at h
      · rename_i hclose
        rw [if_pos hclose, h]
      · rename_i hclose
        obtain ⟨m, hm, rfl⟩ := Option.map_eq_some_iff.1 h
        simp only [List.length_append, List.length_cons, List.length_nil] at hn hlength
        rw [if_neg hclose, ih more.length (by omega) hm (by omega) rfl]
        rfl

theorem blockBody?_within (close rest' : List Char)
    (h : blockBody? close (w ++ ' ' :: rest) = some n) (hn : n ≤ w.length) :
    blockBody? close (w ++ ' ' :: rest') = some n := by
  obtain hw | ⟨line, more, rfl, hline⟩ := exists_break w
  · obtain ⟨line, lines, hlines⟩ := fullLines_open hw rest
    rw [blockBody?, hlines] at h
    obtain ⟨m, -, rfl⟩ := Option.map_eq_some_iff.1 h
    rw [List.length_append] at hn
    simp only [List.length_cons] at hn
    omega
  · rw [List.append_assoc, List.cons_append, blockBody?, fullLines_line hline] at h ⊢
    obtain ⟨m, hm, rfl⟩ := Option.map_eq_some_iff.1 h
    simp only [List.length_append, List.length_cons, List.length_nil] at hn
    dsimp only
    rw [closingLine?_within close rest' hm (by omega)]
    rfl

/-! ## Literals -/

theorem close_within {quote : Char} (hq : quote ≠ ' ') (rest' : List Char) :
    ∀ {w : List Char} {n : Nat}, Quotation.close quote (w ++ ' ' :: rest) = .ok n → n ≤ w.length →
      Quotation.close quote (w ++ ' ' :: rest') = .ok n
  | [], n, h, hn => by
    rw [List.nil_append, Quotation.close.eq_def] at h
    dsimp only at h
    rw [if_neg (by decide), if_neg hq.symm] at h
    obtain ⟨k, -, rfl⟩ := mapped_ok h
    exact absurd hn (by simp)
  | [c], n, h, hn => by
    rw [List.cons_append, List.nil_append, Quotation.close.eq_def] at h ⊢
    dsimp only at h ⊢
    split at h
    · cases h
    rename_i hbreak
    rw [if_neg hbreak]
    split at h
    · rename_i hc
      rwa [if_pos hc, if_neg hq.symm] at *
    · rename_i hc
      obtain ⟨k, hk, rfl⟩ := mapped_ok h
      have hlater := close_within hq rest' (w := []) hk (by simp at hn; omega)
      rw [List.nil_append] at hlater
      rw [if_neg hc, hlater]
      rfl
  | c :: d :: w, n, h, hn => by
    rw [List.cons_append, List.cons_append, Quotation.close.eq_def] at h ⊢
    dsimp only at h ⊢
    split at h
    · cases h
    rename_i hbreak
    rw [if_neg hbreak]
    simp only [List.length_cons] at hn
    split at h
    · rename_i hc
      rw [if_pos hc]
      split at h
      · rename_i hd
        obtain ⟨k, hk, rfl⟩ := mapped_ok h
        rw [if_pos hd, close_within hq rest' hk (by omega)]
        rfl
      · rename_i hd
        rwa [if_neg hd]
    · rename_i hc
      obtain ⟨k, hk, rfl⟩ := mapped_ok h
      have hlater := close_within hq rest' (w := d :: w) hk (by rw [List.length_cons]; omega)
      rw [List.cons_append] at hlater
      rw [if_neg hc, hlater]
      rfl

theorem extent_within {quote : Char} (hq : quote ≠ ' ') (fault : Fault) (rest' : List Char)
    (h : Quotation.extent quote fault (w ++ ' ' :: rest) = .sound n) (hn : n ≤ w.length) :
    Quotation.extent quote fault (w ++ ' ' :: rest') = .sound n := by
  rw [Quotation.extent] at h ⊢
  split at h
  · rename_i more hclose
    cases h
    rw [close_within hq rest' hclose hn]
  · cases h

namespace Command

theorem text_within {kind : CommandKind} (rest' : List Char) :
    ∀ {w : List Char} {quoted : Bool} {n : Nat}, text kind quoted (w ++ ' ' :: rest) = .ok n →
      n ≤ w.length → text kind quoted (w ++ ' ' :: rest') = .ok n
  | [], false, n, h, hn => by
    rw [List.nil_append, text] at h ⊢
    split at h
    · rename_i hstop
      rwa [if_pos hstop]
    · obtain ⟨k, -, rfl⟩ := mapped_ok h
      exact absurd hn (by simp)
  | [], true, n, h, hn => by
    rw [List.nil_append, text.eq_def] at h
    dsimp only at h
    rw [if_neg (by decide), if_neg (by decide)] at h
    obtain ⟨k, -, rfl⟩ := mapped_ok h
    exact absurd hn (by simp)
  | c :: w, false, n, h, hn => by
    rw [List.cons_append, text] at h ⊢
    split at h
    · rename_i hstop
      rwa [if_pos hstop]
    · rename_i hstop
      obtain ⟨k, hk, rfl⟩ := mapped_ok h
      rw [List.length_cons] at hn
      rw [if_neg hstop, text_within rest' hk (by omega)]
      rfl
  -- Inside of quotes the next character is looked at too; behind the last one it is the blank.
  | [c], true, n, h, hn => by
    rw [List.cons_append, List.nil_append, text.eq_def] at h ⊢
    dsimp only at h ⊢
    split at h
    · cases h
    rename_i hbreak
    rw [if_neg hbreak]
    rw [List.length_singleton] at hn
    split at h
    · rename_i hc
      have hblank : ¬ ' ' = '\'' := by decide
      rw [if_neg hblank] at h
      rw [if_pos hc, if_neg hblank]
      obtain ⟨k, hk, rfl⟩ := mapped_ok h
      have hlater := text_within rest' (w := []) hk (by omega)
      rw [List.nil_append] at hlater
      rw [hlater]
      rfl
    · rename_i hc
      obtain ⟨k, hk, rfl⟩ := mapped_ok h
      have hlater := text_within rest' (w := []) hk (by omega)
      rw [List.nil_append] at hlater
      rw [if_neg hc, hlater]
      rfl
  | c :: d :: w, true, n, h, hn => by
    rw [List.cons_append, List.cons_append, text.eq_def] at h ⊢
    dsimp only at h ⊢
    split at h
    · cases h
    rename_i hbreak
    rw [if_neg hbreak]
    rw [List.length_cons, List.length_cons] at hn
    have hlater : ∀ {quoted : Bool} {k : Nat}, text kind quoted (d :: (w ++ ' ' :: rest)) = .ok k →
        1 + k ≤ w.length + 1 + 1 → text kind quoted (d :: (w ++ ' ' :: rest')) = .ok k := by
      intro quoted k hk hle
      exact text_within rest' (w := d :: w) hk (by rw [List.length_cons]; omega)
    split at h
    · rename_i hc
      rw [if_pos hc]
      split at h
      · rename_i hd
        obtain ⟨k, hk, rfl⟩ := mapped_ok h
        rw [if_pos hd, text_within rest' hk (by omega)]
        rfl
      · rename_i hd
        obtain ⟨k, hk, rfl⟩ := mapped_ok h
        rw [if_neg hd, hlater hk hn]
        rfl
    · rename_i hc
      obtain ⟨k, hk, rfl⟩ := mapped_ok h
      rw [if_neg hc, hlater hk hn]
      rfl

theorem notMem_infixOperators : ∀ op ∈ infixOperators, ' ' ∉ op := by decide

theorem startsInfix_blank (w rest : List Char) :
    startsInfix (w ++ ' ' :: rest) = startsInfix w := by
  rw [startsInfix, startsInfix, find?_cut notMem_infixOperators]
  cases hfind : infixOperators.find? (·.isPrefixOf w) with
  | none => rfl
  | some op =>
    dsimp only
    rw [List.drop_append_of_le_length (length_le_of_find? hfind)]
    cases w.drop op.length <;> rfl

theorem continues_blank (w rest : List Char) : continues (w ++ ' ' :: rest) = continues w :=
  isPrefixOf_cut (by decide) w rest

theorem dropWhile_blank (hw : w.dropWhile isBlank ≠ []) (rest : List Char) :
    (w ++ ' ' :: rest).dropWhile isBlank = w.dropWhile isBlank ++ ' ' :: rest := by
  rw [List.dropWhile_append, if_neg fun h => hw (List.isEmpty_iff.1 h)]

theorem follows_blank (hw : w.dropWhile isBlank ≠ []) (rest : List Char) :
    follows (w ++ ' ' :: rest) = follows w := by
  obtain ⟨c, w', rfl⟩ : ∃ c w', w = c :: w' :=
    List.exists_cons_of_ne_nil fun h => hw (by rw [h]; rfl)
  rw [follows, follows, dropWhile_blank hw]
  obtain ⟨d, b, hbody⟩ := List.exists_cons_of_ne_nil hw
  rw [hbody]
  dsimp only
  rw [continues_blank, startsInfix_blank, List.cons_append, List.cons_append]
  dsimp only
  rw [startsWithAny_cut (p := (· == '=')) rfl]
  rfl

end Command

/-! ## Lexemes -/

namespace Lexeme

/-- How far a lexeme goes past its first character, before the surroundings are asked. -/
def reach : Lexeme → Nat
  | newline more | continuation more | comment more | word more | bang more | symbol _ more => more
  | number extent | text extent => extent.reach
  | quote => 0

theorem symbol?_blank (c : Char) (w rest : List Char) :
    symbol? c (w ++ ' ' :: rest) = symbol? c w := by
  have hpair : isPair c ' ' = false := by
    fun_cases isPair c ' ' <;> rfl
  rw [symbol?, symbol?, startsWithAny_cut hpair]

theorem ofChars?_within {e : Char} (he : (isBlank e || isBreak e) = false) (rest' : List Char)
    {lexeme : Lexeme} (h : ofChars? c (w ++ ' ' :: rest) = some lexeme)
    (hreach : lexeme.reach ≤ w.length) (hsound : ∀ fault more, lexeme ≠ text (.faulty fault more)) :
    ofChars? c (w ++ ' ' :: e :: rest') = some lexeme := by
  rw [ofChars?.eq_def] at h ⊢
  by_cases hfeed : c = '\n'
  · rw [if_pos hfeed] at h ⊢
    cases h
    rw [blankLines_within he rest' hreach]
  rw [if_neg hfeed] at h ⊢
  by_cases hreturn : c = '\r'
  · rw [if_pos hreturn] at h ⊢
    split at h
    · rename_i more hmore
      cases h
      cases w with
      | nil => cases hmore
      | cons d w =>
        obtain ⟨rfl, rfl⟩ := List.cons.inj hmore
        have hblank : 1 + blankLines (w ++ ' ' :: rest) ≤ w.length + 1 := hreach
        rw [List.cons_append]
        exact congrArg (fun n => some (newline (1 + n))) (blankLines_within he rest' (by omega))
    · cases h
  rw [if_neg hreturn] at h ⊢
  by_cases hcomment : c = '%' ∨ c = '#'
  · rw [if_pos hcomment] at h ⊢
    cases h
    rw [restOfLine_within _ hreach]
  rw [if_neg hcomment] at h ⊢
  by_cases halpha : c.isAlpha = true
  · rw [if_pos halpha] at h ⊢
    cases h
    rw [run_cut rfl, run_cut rfl]
  rw [if_neg halpha] at h ⊢
  by_cases hdigit : c.isDigit = true
  · rw [if_pos hdigit] at h ⊢
    cases h
    rw [Number.afterDigit_cut cuts_blank, Number.afterDigit_cut cuts_blank]
  rw [if_neg hdigit] at h ⊢
  have hdots : ∀ rest, ['.', '.'].isPrefixOf (w ++ ' ' :: rest) = ['.', '.'].isPrefixOf w :=
    fun rest => isPrefixOf_cut (by decide) w rest
  rw [hdots] at h ⊢
  by_cases hcontinues : c = '.' ∧ ['.', '.'].isPrefixOf w = true
  · rw [if_pos hcontinues] at h ⊢
    cases h
    have hle : 2 ≤ w.length := (List.isPrefixOf_iff_prefix.1 hcontinues.2).length_le
    simp only [reach, List.drop_append_of_le_length hle] at hreach ⊢
    have hbreak : throughBreak (w.drop 2 ++ ' ' :: rest) ≤ (w.drop 2).length := by
      rw [List.length_drop]
      omega
    rw [throughBreak_within (e :: rest') hbreak]
  rw [if_neg hcontinues] at h ⊢
  rw [startsWithAny_cut (p := Char.isDigit) rfl] at h ⊢
  by_cases hdot : c = '.' ∧ startsWithAny Char.isDigit w = true
  · rw [if_pos hdot] at h ⊢
    cases h
    rw [Number.afterDot_cut cuts_blank, Number.afterDot_cut cuts_blank]
  rw [if_neg hdot] at h ⊢
  by_cases hquote : c = '\''
  · rw [if_pos hquote] at h ⊢
    exact h
  rw [if_neg hquote] at h ⊢
  by_cases htext : c = '"'
  · rw [if_pos htext] at h ⊢
    cases hextent : Quotation.extent '"' .unterminatedString (w ++ ' ' :: rest) with
    | sound more =>
      rw [hextent] at h
      cases h
      rw [extent_within (n := more) (by decide) _ _ hextent hreach]
    | faulty fault more =>
      rw [hextent] at h
      cases h
      exact absurd rfl (hsound fault more)
  rw [if_neg htext] at h ⊢
  rw [startsWithAny_cut (p := (· == '=')) rfl, symbol?_blank] at h ⊢
  exact h

end Lexeme

end MFile.Lexing
