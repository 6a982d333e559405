import MFile.Proofs.Lexing.Forward.Numbers
import MFile.Proofs.Lexing.Origins
import MFile.Proofs.Lexing.Words

/-!
What number tokens spell. Each is a decimal number or one of another radix, and goes on as far as
the grammar of numbers lets it; a decimal number with a further point and digits behind it is none.
-/

namespace MFile

open Lexing Text

structure RadixLiteral where
  mark : Char
  digits : List Char
  suffix : List Char
  isMark : mark ∈ ['x', 'X', 'b', 'B']
  isDigit : ∀ c ∈ digits, (if mark ∈ ['x', 'X'] then isHexDigit c else isBinaryDigit c) = true
  nonempty : digits ≠ []
  isClass : suffix = [] ∨ suffix ∈ Number.integerClasses

namespace RadixLiteral

def chars (r : RadixLiteral) : List Char := '0' :: r.mark :: (r.digits ++ r.suffix)

structure Ends (r : RadixLiteral) (rest : List Char) : Prop where
  suffix : r.suffix ≠ [] → startsWithAny isNameChar rest = false
  digits : r.mark ∈ ['x', 'X'] → startsWithAny Char.isDigit rest = false

end RadixLiteral

structure Decimal.Ends (n : Decimal) (rest : List Char) : Prop where
  point : n.fraction = some [] →
    ∀ c ∈ (n.suffix ++ rest).head?, c ∉ ['*', '/', '\\', '^', '\'', '.']
  imaginary : n.imaginary.isSome = true → startsWithAny isNameChar rest = false
  digits : startsWithAny Char.isDigit rest = false

namespace Lexing.Number

variable {c d : Char} {cs rest : List Char} {p : Char → Bool}

/-! ## Parts of a number -/

theorem run_split (p : Char → Bool) (cs : List Char) :
    ∃ digits rest, cs = digits ++ rest ∧ run p cs = digits.length ∧
      (∀ c ∈ digits, p c = true) ∧ startsWithAny p rest = false := by
  refine ⟨cs.takeWhile p, cs.dropWhile p, List.takeWhile_append_dropWhile.symm, rfl, ?_, ?_⟩
  · intro c hc
    exact List.mem_takeWhile_imp hc
  · have hhead := List.head?_dropWhile_not p cs
    cases hrest : cs.dropWhile p with
    | nil => rfl
    | cons c rest =>
      rw [hrest] at hhead
      simpa [startsWithAny] using hhead

theorem not_digit_of_not_name (h : startsWithAny isNameChar cs = false) :
    startsWithAny Char.isDigit cs = false := by
  cases cs with
  | nil => rfl
  | cons c cs =>
    have hc : isNameChar c = false := h
    rw [isNameChar, Char.isAlphanum, Bool.or_eq_false_iff, Bool.or_eq_false_iff] at hc
    exact hc.1.2

theorem fraction_split (h : startsWithAny Char.isDigit cs = false) :
    ∃ (f : Option (List Char)) (rest : List Char), cs = f.elim [] ('.' :: ·) ++ rest ∧
      fraction cs = (f.elim [] ('.' :: ·)).length ∧
      (∀ digits ∈ f, ∀ c ∈ digits, c.isDigit = true) ∧
      startsWithAny Char.isDigit rest = false ∧
      (f = some [] → ∀ c ∈ rest.head?, c ∉ ['*', '/', '\\', '^', '\'', '.']) := by
  cases cs with
  | nil => exact ⟨none, [], rfl, rfl, by simp, rfl, by simp⟩
  | cons c cs =>
    by_cases hc : c = '.'
    · subst hc
      cases cs with
      | nil => exact ⟨some [], [], rfl, rfl, by simp, rfl, by simp⟩
      | cons d ds =>
        by_cases hd : d.isDigit = true
        · obtain ⟨digits, rest, hds, hrun, hdigits, hrest⟩ := run_split Char.isDigit ds
          refine ⟨some (d :: digits), rest, by rw [hds]; rfl, ?_, ?_, hrest, by simp⟩
          · rw [fraction, if_pos hd, hrun, Nat.add_comm]
            rfl
          · intro all hall
            cases hall
            exact List.forall_mem_cons.2 ⟨hd, hdigits⟩
        by_cases hoperator : ['*', '/', '\\', '^', '\'', '.'].contains d = true
        · refine ⟨none, '.' :: d :: ds, rfl, ?_, by simp, h, by simp⟩
          rw [fraction, if_neg hd, if_pos hoperator]
          rfl
        · refine ⟨some [], d :: ds, rfl, ?_, by simp, Bool.eq_false_iff.2 hd, ?_⟩
          · rw [fraction, if_neg hd, if_neg hoperator]
            rfl
          · intro _ e he
            cases he
            exact fun hmem => hoperator (List.contains_iff_mem.2 hmem)
    · refine ⟨none, c :: cs, rfl, ?_, by simp, h, by simp⟩
      simp [fraction, hc]

theorem sign_split (cs : List Char) :
    ∃ (sign : Option Char) (rest : List Char), cs = sign.toList ++ rest ∧
      (if startsWithAny (fun s => s == '+' || s == '-') cs then 1 else 0) = sign.toList.length ∧
      ∀ c ∈ sign, c = '+' ∨ c = '-' := by
  cases cs with
  | nil => exact ⟨none, [], rfl, rfl, nofun⟩
  | cons s cs =>
    by_cases hs : (s == '+' || s == '-') = true
    · refine ⟨some s, cs, rfl, if_pos hs, ?_⟩
      intro c hc
      cases hc
      simpa using hs
    · exact ⟨none, s :: cs, rfl, if_neg hs, nofun⟩

theorem exponent_split (h : startsWithAny Char.isDigit cs = false) :
    ∃ (e : Option Exponent) (rest : List Char), cs = e.elim [] Exponent.chars ++ rest ∧
      exponent cs = (e.elim [] Exponent.chars).length ∧
      startsWithAny Char.isDigit rest = false := by
  cases cs with
  | nil => exact ⟨none, [], rfl, rfl, rfl⟩
  | cons mark cs =>
    by_cases hmark : ['e', 'E', 'd', 'D'].contains mark = true
    · obtain ⟨sign, after, hcs, hsign, hsigns⟩ := sign_split cs
      obtain ⟨digits, rest, hafter, hrun, hdigits, hrest⟩ := run_split Char.isDigit after
      have hexponent : exponent (mark :: cs) =
          if digits.length = 0 then 0 else 1 + sign.toList.length + digits.length := by
        rw [exponent, if_pos hmark, hsign, hcs]
        dsimp only
        rw [drop_length_append, hrun]
      by_cases hnone : digits = []
      · refine ⟨none, mark :: cs, rfl, ?_, h⟩
        rw [hexponent, hnone]
        rfl
      · refine ⟨some ⟨mark, sign, digits, List.contains_iff_mem.1 hmark, hsigns, hdigits, hnone⟩,
          rest, ?_, ?_, hrest⟩
        · rw [hcs, hafter, ← List.append_assoc]
          rfl
        · rw [hexponent, if_neg (fun h => hnone (List.length_eq_zero_iff.1 h))]
          change _ = (sign.toList ++ digits).length + 1
          rw [List.length_append]
          omega
    · refine ⟨none, mark :: cs, rfl, ?_, h⟩
      rw [exponent, if_neg hmark]
      rfl

theorem imaginary_split (h : startsWithAny Char.isDigit cs = false) :
    ∃ (unit : Option Char) (rest : List Char), cs = unit.toList ++ rest ∧
      imaginary cs = unit.toList.length ∧ (∀ c ∈ unit, c ∈ ['i', 'j', 'I', 'J']) ∧
      (unit.isSome = true → startsWithAny isNameChar rest = false) ∧
      startsWithAny Char.isDigit rest = false := by
  cases cs with
  | nil => exact ⟨none, [], rfl, rfl, nofun, nofun, rfl⟩
  | cons c cs =>
    by_cases hc : (['i', 'j', 'I', 'J'].contains c && !startsWithAny isNameChar cs) = true
    · obtain ⟨hunit, hname⟩ := Bool.and_eq_true_iff.1 hc
      rw [Bool.not_eq_true'] at hname
      refine ⟨some c, cs, rfl, if_pos hc, ?_, fun _ => hname, not_digit_of_not_name hname⟩
      intro d hd
      cases hd
      exact List.contains_iff_mem.1 hunit
    · exact ⟨none, c :: cs, rfl, if_neg hc, nofun, nofun, h⟩

theorem class_split (cs : List Char) :
    ∃ suffix rest, cs = suffix ++ rest ∧ classSuffix cs = suffix.length ∧
      (suffix = [] ∨ suffix ∈ integerClasses) ∧
      (suffix ≠ [] → startsWithAny isNameChar rest = false) := by
  rw [classSuffix]
  cases hfind : integerClasses.find? (·.isPrefixOf cs) with
  | none => exact ⟨[], cs, rfl, rfl, .inl rfl, fun h => absurd rfl h⟩
  | some word =>
    have hprefix := List.find?_some hfind
    obtain ⟨rest, rfl⟩ := List.isPrefixOf_iff_prefix.1 hprefix
    dsimp only
    rw [drop_length_append]
    cases hname : startsWithAny isNameChar rest with
    | true => exact ⟨[], word ++ rest, rfl, rfl, .inl rfl, fun h => absurd rfl h⟩
    | false =>
      exact ⟨word, rest, rfl, rfl, .inr (List.mem_of_find?_eq_some hfind), fun _ => hname⟩

/-! ## Whole numbers -/

def decimalExtent (more : Nat) (rest : List Char) : Extent :=
  match excess rest with
  | 0 => .sound more
  | extra => .faulty .malformedNumber (more + extra)

theorem after_decimalExtent (k more : Nat) (rest : List Char) :
    (decimalExtent more rest).after k = decimalExtent (k + more) rest := by
  rw [decimalExtent, decimalExtent]
  split
  · rfl
  · rw [Extent.after, Nat.add_assoc]

theorem tail_split (h : startsWithAny Char.isDigit cs = false) :
    ∃ (e : Option Exponent) (unit : Option Char) (rest : List Char),
      cs = e.elim [] Exponent.chars ++ unit.toList ++ rest ∧
      tail cs = decimalExtent (e.elim [] Exponent.chars ++ unit.toList).length rest ∧
      (∀ c ∈ unit, c ∈ ['i', 'j', 'I', 'J']) ∧
      (unit.isSome = true → startsWithAny isNameChar rest = false) ∧
      startsWithAny Char.isDigit rest = false := by
  obtain ⟨e, after, hcs, hexponent, hafter⟩ := exponent_split h
  obtain ⟨unit, rest, hrest, himaginary, hunit, hname, hdigit⟩ := imaginary_split hafter
  have hsplit : cs = e.elim [] Exponent.chars ++ unit.toList ++ rest := by
    rw [hcs, hrest, List.append_assoc]
  have hpower : cs.drop (exponent cs) = after := by
    rw [hexponent, hcs, drop_length_append]
  have htail : exponent cs + imaginary (cs.drop (exponent cs)) =
      (e.elim [] Exponent.chars ++ unit.toList).length := by
    rw [hpower, himaginary, hexponent, List.length_append]
  refine ⟨e, unit, rest, hsplit, ?_, hunit, hname, hdigit⟩
  rw [tail, htail]
  conv_lhs => rw [hsplit, drop_length_append]
  rfl

/-- The number ahead, what is behind it and how far it is read. -/
inductive Numeral : List Char → Extent → Prop
  | radix (r : RadixLiteral) {rest : List Char} (h : r.Ends rest) :
      Numeral (r.chars ++ rest) (.sound (r.chars.length - 1))
  | decimal (n : Decimal) {rest : List Char} (h : n.Ends rest) :
      Numeral (n.chars ++ rest) (decimalExtent (n.chars.length - 1) rest)

theorem not_digit_of_not_hex (h : startsWithAny isHexDigit cs = false) :
    startsWithAny Char.isDigit cs = false := by
  cases cs with
  | nil => rfl
  | cons c cs =>
    have hc : isHexDigit c = false := h
    rw [isHexDigit, Bool.or_eq_false_iff, Bool.or_eq_false_iff] at hc
    exact hc.1.1

theorem radix_split {mark : Char} (hmark : mark ∈ ['x', 'X', 'b', 'B'])
    (hdigit : p = if mark ∈ ['x', 'X'] then isHexDigit else isBinaryDigit)
    (hne : run p cs ≠ 0) :
    Numeral ('0' :: mark :: cs) (.sound (1 + run p cs + classSuffix (cs.drop (run p cs)))) := by
  obtain ⟨digits, after, hcs, hrun, hdigits, hafter⟩ := run_split p cs
  obtain ⟨suffix, rest, hsplit, hclass, hclasses, hname⟩ := class_split after
  rw [hrun] at hne
  let r : RadixLiteral := ⟨mark, digits, suffix, hmark, ?_,
    fun h => hne (List.length_eq_zero_iff.2 h), hclasses⟩
  · have hchars : r.chars = '0' :: mark :: (digits ++ suffix) := rfl
    have hread : 1 + run p cs + classSuffix (cs.drop (run p cs)) = r.chars.length - 1 := by
      rw [hrun, hcs, drop_length_append, hclass, hchars, List.length_cons, List.length_cons,
        Nat.add_sub_cancel, List.length_append]
      omega
    have htext : '0' :: mark :: cs = r.chars ++ rest := by
      rw [hcs, hsplit, hchars]
      simp only [List.cons_append, List.append_assoc]
    rw [htext, hread]
    refine .radix r ⟨hname, fun hhex => ?_⟩
    by_cases hsuffix : suffix = []
    · rw [hdigit, if_pos hhex] at hafter
      rw [hsplit, hsuffix, List.nil_append] at hafter
      exact not_digit_of_not_hex hafter
    · exact not_digit_of_not_name (hname hsuffix)
  · intro c hc
    have hdigits := hdigits c hc
    rw [hdigit] at hdigits
    split at hdigits
    · rename_i hhex
      rwa [if_pos hhex]
    · rename_i hbinary
      rwa [if_neg hbinary]

theorem numeral_radix? {k : Nat} (h : radix? cs = some k) : Numeral ('0' :: cs) (.sound k) := by
  cases cs with
  | nil => cases h
  | cons mark cs =>
    rw [radix?] at h
    by_cases hhex : mark = 'x' ∨ mark = 'X'
    · rw [if_pos hhex] at h
      split at h
      · cases h
      · rename_i hne
        cases h
        refine radix_split ?_ ?_ hne
        · obtain rfl | rfl := hhex <;> decide
        · rw [if_pos]
          simpa using hhex
    rw [if_neg hhex] at h
    by_cases hbinary : mark = 'b' ∨ mark = 'B'
    · rw [if_pos hbinary] at h
      split at h
      · cases h
      · rename_i hne
        cases h
        refine radix_split ?_ ?_ hne
        · obtain rfl | rfl := hbinary <;> decide
        · rw [if_neg]
          simpa using hhex
    · rw [if_neg hbinary] at h
      cases h

theorem numeral_afterDot (h : startsWithAny Char.isDigit cs = true) :
    Numeral ('.' :: cs) (afterDot cs) := by
  obtain ⟨digits, after, hcs, hrun, hdigits, hafter⟩ := run_split Char.isDigit cs
  obtain ⟨e, unit, rest, hsplit, htail, hunit, hname, hrest⟩ := tail_split hafter
  have hne : digits ≠ [] := by
    rintro rfl
    rw [hcs, List.nil_append, hafter] at h
    cases h
  let n : Decimal := ⟨[], some digits, e, unit, nofun, fun _ h => Option.some.inj h ▸ hdigits,
    fun _ => ⟨digits, rfl, hne⟩, hunit⟩
  have hchars : n.chars = '.' :: (digits ++ (e.elim [] Exponent.chars ++ unit.toList)) := rfl
  have hread : afterDot cs = decimalExtent (n.chars.length - 1) rest := by
    rw [afterDot, hrun, hcs, drop_length_append, htail, after_decimalExtent, hchars,
      List.length_cons, Nat.add_sub_cancel, ← List.length_append]
  have htext : '.' :: cs = n.chars ++ rest := by
    rw [hcs, hsplit, hchars]
    simp only [List.cons_append, List.append_assoc]
  rw [htext, hread]
  exact .decimal n ⟨fun h => absurd (Option.some.inj h) hne, hname, hrest⟩

theorem numeral_afterDigit (hc : c.isDigit = true) (cs : List Char) :
    Numeral (c :: cs) (afterDigit c cs) := by
  obtain ⟨digits, after, hcs, hrun, hdigits, hafter⟩ := run_split Char.isDigit cs
  obtain ⟨f, later, hsplit, hfraction, hfractions, hlater, hoperator⟩ := fraction_split hafter
  obtain ⟨e, unit, rest, htailSplit, htail, hunit, hname, hrest⟩ := tail_split hlater
  let n : Decimal := ⟨c :: digits, f, e, unit, List.forall_mem_cons.2 ⟨hc, hdigits⟩, hfractions,
    nofun, hunit⟩
  have hchars : n.chars = c :: (digits ++ (f.elim [] ('.' :: ·) ++
    (e.elim [] Exponent.chars ++ unit.toList))) := rfl
  have hdecimal : (tail (cs.drop (digits.length + fraction (cs.drop digits.length)))).after
      (digits.length + fraction (cs.drop digits.length)) =
        decimalExtent (n.chars.length - 1) rest := by
    rw [hcs, drop_length_append, hfraction, ← List.drop_drop, drop_length_append, hsplit,
      drop_length_append, htail, after_decimalExtent, hchars, List.length_cons,
      Nat.add_sub_cancel, Nat.add_assoc, ← List.length_append, ← List.length_append]
  have htext : c :: cs = n.chars ++ rest := by
    rw [hcs, hsplit, htailSplit, hchars]
    simp only [List.cons_append, List.append_assoc]
  have hnumeral : Numeral (c :: cs) (decimalExtent (n.chars.length - 1) rest) := by
    rw [htext]
    refine .decimal n ⟨?_, hname, hrest⟩
    intro hpoint
    have hhead := hoperator hpoint
    rwa [htailSplit] at hhead
  rw [afterDigit, hrun]
  dsimp only
  rw [hdecimal]
  split
  · rename_i hzero
    obtain ⟨rfl, -⟩ := hzero
    cases hradix : radix? cs with
    | none => exact hnumeral
    | some k => exact numeral_radix? hradix
  · exact hnumeral

theorem numeral_of_number {extent : Extent} (h : Lexeme.ofChars? c cs = some (.number extent)) :
    Numeral (c :: cs) extent := by
  obtain ⟨hc, rfl⟩ | ⟨rfl, hcs, rfl⟩ := Lexeme.spells_ofChars? h
  · exact numeral_afterDigit hc cs
  · exact numeral_afterDot hcs

end Lexing.Number

/-- The token is a number of the grammar, where the text goes on like this behind it. -/
inductive Token.IsNumeral (t : Token) (rest : List Char) : Prop
  | decimal (n : Decimal) (hraw : t.raw.toList = n.chars) (hends : n.Ends rest)
      (hpoint : ∀ d ds, rest = '.' :: d :: ds → d.isDigit = false)
  | radix (r : RadixLiteral) (hraw : t.raw.toList = r.chars) (hends : r.Ends rest)

namespace Lexing.Number

variable {c d : Char} {cs chars rest : List Char} {more : Nat} {extent : Extent}

theorem head_decimal (n : Decimal) :
    ∃ c cs, n.chars = c :: cs ∧
      (c.isDigit = true ∨ c = '.' ∧ startsWithAny Char.isDigit cs = true) := by
  cases hwhole : n.whole with
  | cons c digits =>
    have hc := n.wholeDigits c (by rw [hwhole]; exact List.mem_cons_self)
    exact ⟨c, _, by rw [Decimal.chars, hwhole]; rfl, .inl hc⟩
  | nil =>
    obtain ⟨digits, hfraction, hne⟩ := n.hasDigit hwhole
    obtain ⟨d, digits, rfl⟩ := List.exists_cons_of_ne_nil hne
    have hd := n.fractionDigits _ hfraction d List.mem_cons_self
    refine ⟨'.', d :: (digits ++ n.suffix), ?_, .inr ⟨rfl, hd⟩⟩
    rw [Decimal.chars, Decimal.point, hwhole, hfraction]
    rfl

theorem excess_eq_zero (h : excess rest = 0) :
    ∀ d ds, rest = '.' :: d :: ds → d.isDigit = false := by
  intro d ds hrest
  rw [hrest, excess] at h
  cases hd : d.isDigit with
  | false => rfl
  | true =>
    rw [if_pos hd] at h
    omega

theorem excess_ne_zero (h : excess rest ≠ 0) :
    ∃ d ds, rest = '.' :: d :: ds ∧ d.isDigit = true ∧ excess rest = 2 + run Char.isDigit ds := by
  rw [excess.eq_def] at h ⊢
  split at h
  · rename_i d ds
    split at h
    · rename_i hd
      exact ⟨d, ds, rfl, hd, if_pos hd⟩
    · exact absurd rfl h
  · exact absurd rfl h

theorem chars_of_more (h : c :: cs = chars ++ rest) (hne : chars ≠ [])
    (hmore : more = chars.length - 1) : c :: cs.take more = chars ∧ cs.drop more = rest := by
  obtain ⟨first, others, rfl⟩ := List.exists_cons_of_ne_nil hne
  rw [List.cons_append] at h
  cases h
  rw [List.length_cons, Nat.add_sub_cancel] at hmore
  rw [hmore, take_length_append, drop_length_append]
  exact ⟨rfl, rfl⟩

theorem isNumeral_of_numeral {t : Token} {text : List Char} (h : Numeral text extent)
    (htext : text = c :: cs) (hextent : extent = .sound more)
    (hraw : t.raw.toList = c :: cs.take more) : t.IsNumeral (cs.drop more) := by
  cases h with
  | radix r hends =>
    obtain ⟨hchars, hrest⟩ := chars_of_more htext.symm (List.cons_ne_nil _ _)
      (Extent.sound.inj hextent).symm
    rw [hchars] at hraw
    exact .radix r hraw (hrest ▸ hends)
  | decimal n hends =>
    obtain ⟨first, others, hhead, -⟩ := head_decimal n
    rw [decimalExtent] at hextent
    split at hextent
    · rename_i hexcess
      obtain ⟨hchars, hrest⟩ := chars_of_more htext.symm (hhead ▸ List.cons_ne_nil _ _)
        (Extent.sound.inj hextent).symm
      rw [hchars] at hraw
      exact .decimal n hraw (hrest ▸ hends) (hrest ▸ excess_eq_zero hexcess)
    · cases hextent

end Lexing.Number

namespace Scan

open State

variable {source : SourceText} {settings : Settings} {before after : List Token} {t : Token}

theorem isNumeral_of_tokens (h : (ofSource source settings).tokens = before ++ t :: after)
    (hkind : t.kind = .number) :
    ∃ front rest, t.Between source.text.toList front rest ∧ t.IsNumeral rest := by
  cases takenAt h with
  | comma _ _ hcomma =>
    rw [(take_comma hcomma).2.1] at hkind
    cases hkind
  | @token pieces st c cs kind more mode hreads htakes =>
    obtain rfl : kind = .number := hkind
    obtain ⟨behind, hstands⟩ := hreads.stands (Cursor.stands_start source.text.toList)
    have hnumber := decide_number htakes.decides
    exact ⟨_, _, htakes.between hstands source.name,
      Number.isNumeral_of_numeral (Number.numeral_of_number hnumber) rfl rfl (htakes.raw _)⟩

theorem scan_numerals (source : SourceText) (settings : Settings) (before after : List Token)
    (t : Token) (h : (ofSource source settings).tokens = before ++ t :: after)
    (hkind : t.kind = .number) :
    ∃ front rest, t.Between source.text.toList front rest ∧ t.IsNumeral rest :=
  isNumeral_of_tokens h hkind

def dividedMask : SourceText := .ofString "t.m" "y = 1e-3i./0x1Fu8\n" {}

theorem scan_numerals_dividedMask : ∃ (before after : List Token) (t : Token),
    (ofSource dividedMask {}).tokens = before ++ t :: after ∧ t.kind = .number ∧
      ∃ front rest, t.Between dividedMask.text.toList front rest ∧ t.IsNumeral rest := by
  obtain ⟨t, hmem, hkind⟩ : ∃ t ∈ (ofSource dividedMask {}).tokens, (t.kind == .number) = true :=
    List.any_eq_true.1 (by decide +kernel)
  obtain ⟨before, after, hsplit⟩ := List.append_of_mem hmem
  have hnumber := eq_of_beq hkind
  exact ⟨before, after, t, hsplit, hnumber, scan_numerals _ _ _ _ _ hsplit hnumber⟩

end Scan

end MFile
