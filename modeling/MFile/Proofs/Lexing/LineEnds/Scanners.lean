import MFile.Source.Text
import MFile.Proofs.Lexing.SingleLine

/-!
The same text with a carriage return before each line break. Scanners that stay on their line see no
more of a line break than that it is one: with a carriage return before each line feed they go as
far as without.
-/

namespace MFile.Text

def withReturns (cs : List Char) : List Char :=
  cs.flatMap fun c => if c = '\n' then ['\r', '\n'] else [c]

variable {c : Char} {cs ds : List Char} {p : Char → Bool}

@[simp] theorem withReturns_nil : withReturns [] = [] := rfl

theorem withReturns_break (cs : List Char) :
    withReturns ('\n' :: cs) = '\r' :: '\n' :: withReturns cs := rfl

theorem withReturns_cons (hc : c ≠ '\n') (cs : List Char) :
    withReturns (c :: cs) = c :: withReturns cs := by
  rw [withReturns, List.flatMap_cons, if_neg hc]
  rfl

@[simp] theorem withReturns_append (cs ds : List Char) :
    withReturns (cs ++ ds) = withReturns cs ++ withReturns ds := List.flatMap_append

theorem withReturns_eq_self (h : '\n' ∉ cs) : withReturns cs = cs := by
  induction cs with
  | nil => rfl
  | cons c cs ih =>
    obtain ⟨hc, hcs⟩ := not_or.1 (mt List.mem_cons.2 h)
    rw [withReturns_cons (Ne.symm hc), ih hcs]

theorem mem_withReturns (h : c ≠ '\r') : c ∈ withReturns cs ↔ c ∈ cs := by
  induction cs with
  | nil => exact Iff.rfl
  | cons d cs ih =>
    by_cases hd : d = '\n'
    · rw [hd, withReturns_break, List.mem_cons, List.mem_cons, List.mem_cons, ih, or_iff_right h]
    · rw [withReturns_cons hd, List.mem_cons, List.mem_cons, ih]

/-! ## The first characters -/

theorem startsWithAny_withReturns (h : p '\r' = p '\n') (cs : List Char) :
    startsWithAny p (withReturns cs) = startsWithAny p cs := by
  cases cs with
  | nil => rfl
  | cons c cs =>
    by_cases hc : c = '\n'
    · rw [hc, withReturns_break]
      exact h
    · rw [withReturns_cons hc]
      rfl

theorem stay_of_all {w : List Char} (h : (w.all fun c => !isBreak c) = true) :
    ∀ c ∈ w, isBreak c = false := by
  simpa using h

theorem isPrefixOf_withReturns {w : List Char} (hw : ∀ c ∈ w, isBreak c = false)
    (cs : List Char) : w.isPrefixOf (withReturns cs) = w.isPrefixOf cs := by
  induction w generalizing cs with
  | nil => simp
  | cons d w ih =>
    obtain ⟨hd, hw⟩ := List.forall_mem_cons.1 hw
    cases cs with
    | nil => rfl
    | cons c cs =>
      by_cases hc : c = '\n'
      · have hn : d ≠ '\n' := by rintro rfl; cases hd
        have hr : d ≠ '\r' := by rintro rfl; cases hd
        rw [hc, withReturns_break, List.isPrefixOf_cons_cons, List.isPrefixOf_cons_cons,
          beq_eq_false_iff_ne.2 hn, beq_eq_false_iff_ne.2 hr, Bool.false_and, Bool.false_and]
      · rw [withReturns_cons hc, List.isPrefixOf_cons_cons, List.isPrefixOf_cons_cons, ih hw]

section Run

variable (hn : p '\n' = false) (hr : p '\r' = false)

include hn hr

theorem takeWhile_withReturns (cs : List Char) : (withReturns cs).takeWhile p = cs.takeWhile p := by
  induction cs with
  | nil => rfl
  | cons c cs ih =>
    by_cases hc : c = '\n'
    · rw [hc, withReturns_break, List.takeWhile_cons_of_neg (by rw [hr]; decide),
        List.takeWhile_cons_of_neg (by rw [hn]; decide)]
    · rw [withReturns_cons hc, List.takeWhile_cons, List.takeWhile_cons, ih]

theorem run_withReturns (cs : List Char) : run p (withReturns cs) = run p cs :=
  congrArg List.length (takeWhile_withReturns hn hr cs)

theorem dropWhile_withReturns (cs : List Char) :
    (withReturns cs).dropWhile p = withReturns (cs.dropWhile p) := by
  induction cs with
  | nil => rfl
  | cons c cs ih =>
    by_cases hc : c = '\n'
    · rw [hc, withReturns_break, List.dropWhile_cons_of_neg (by rw [hr]; decide),
        List.dropWhile_cons_of_neg (by rw [hn]; decide), withReturns_break]
    · rw [withReturns_cons hc, List.dropWhile_cons, List.dropWhile_cons]
      split
      · exact ih
      · rw [withReturns_cons hc]

end Run

/-! ## Preparing the text -/

theorem expandTabsFrom_withReturns (width column : Nat) (cs : List Char) :
    expandTabsFrom width column (withReturns cs) =
      withReturns (expandTabsFrom width column cs) := by
  induction cs generalizing column with
  | nil => rfl
  | cons c cs ih =>
    by_cases hc : c = '\n'
    · subst hc
      exact congrArg ('\r' :: '\n' :: ·) (ih 0)
    · rw [withReturns_cons hc, expandTabsFrom, expandTabsFrom, if_neg hc]
      split
      · have hpad : ∀ n, '\n' ∉ List.replicate n ' ' :=
          fun n h => absurd (List.eq_of_mem_replicate h) (by decide)
        dsimp only
        rw [ih, withReturns_append, withReturns_eq_self (hpad _)]
      · rw [ih, withReturns_cons hc]

theorem return_notMem_expandTabsFrom {width column : Nat} (h : '\r' ∉ cs) :
    '\r' ∉ expandTabsFrom width column cs := by
  induction cs generalizing column with
  | nil => exact h
  | cons c cs ih =>
    obtain ⟨hc, hcs⟩ := not_or.1 (mt List.mem_cons.2 h)
    rw [expandTabsFrom]
    split
    · rw [List.mem_append]
      exact not_or.2 ⟨fun h => absurd (List.eq_of_mem_replicate h) (by decide), ih hcs⟩
    split
    · rw [List.mem_cons]
      exact not_or.2 ⟨hc, ih hcs⟩
    · rw [List.mem_cons]
      exact not_or.2 ⟨hc, ih hcs⟩

end MFile.Text

/-! ## Scanners -/

namespace MFile.Lexing

open Text

variable {c : Char} {cs : List Char} {n : Nat}

namespace Stays

theorem take_withReturns (h : Stays cs n) : (withReturns cs).take n = cs.take n := by
  induction n generalizing cs with
  | zero => rfl
  | succ n ih =>
    cases cs with
    | nil => rfl
    | cons c cs =>
      rw [Stays, List.take_succ_cons, List.forall_mem_cons] at h
      have hc : c ≠ '\n' := by rintro rfl; cases h.1
      rw [withReturns_cons hc, List.take_succ_cons, List.take_succ_cons, ih h.2]

theorem drop_withReturns (h : Stays cs n) : (withReturns cs).drop n = withReturns (cs.drop n) := by
  induction n generalizing cs with
  | zero => rfl
  | succ n ih =>
    cases cs with
    | nil => rfl
    | cons c cs =>
      rw [Stays, List.take_succ_cons, List.forall_mem_cons] at h
      have hc : c ≠ '\n' := by rintro rfl; cases h.1
      rw [withReturns_cons hc, List.drop_succ_cons, List.drop_succ_cons, ih h.2]

end Stays

theorem find?_withReturns {words : List (List Char)}
    (h : ∀ w ∈ words, ∀ c ∈ w, isBreak c = false) (cs : List Char) :
    words.find? (·.isPrefixOf (withReturns cs)) = words.find? (·.isPrefixOf cs) := by
  induction words with
  | nil => rfl
  | cons w words ih =>
    obtain ⟨hw, hwords⟩ := List.forall_mem_cons.1 h
    rw [List.find?_cons, List.find?_cons, isPrefixOf_withReturns hw, ih hwords]

/-! ### Numbers -/

namespace Number

theorem integerClasses_stay : ∀ w ∈ integerClasses, ∀ c ∈ w, isBreak c = false := by
  have hall : (integerClasses.all fun w => w.all fun c => !isBreak c) = true := rfl
  exact fun w hw => stay_of_all (List.all_eq_true.1 hall w hw)

theorem classSuffix_withReturns (cs : List Char) :
    classSuffix (withReturns cs) = classSuffix cs := by
  rw [classSuffix, classSuffix, find?_withReturns integerClasses_stay]
  cases hfind : integerClasses.find? (·.isPrefixOf cs) with
  | none => rfl
  | some word =>
    have hstay := integerClasses_stay word (List.mem_of_find?_eq_some hfind)
    have hprefix := List.find?_some hfind
    have hword : Stays cs word.length := Stays.word hstay hprefix
    dsimp only
    rw [hword.drop_withReturns, startsWithAny_withReturns (by decide)]

theorem radix?_withReturns (cs : List Char) : radix? (withReturns cs) = radix? cs := by
  cases cs with
  | nil => rfl
  | cons c cs =>
    by_cases hc : c = '\n'
    · rw [hc]
      rfl
    have hstay : ∀ {p : Char → Bool}, p '\n' = false → p '\r' = false →
        classSuffix ((withReturns cs).drop (run p cs)) = classSuffix (cs.drop (run p cs)) := by
      intro p hn hr
      rw [(Stays.run (fun _ => not_break_of_class hn hr) cs).drop_withReturns,
        classSuffix_withReturns]
    rw [withReturns_cons hc, radix?, radix?]
    rw [run_withReturns (by decide) (by decide), run_withReturns (by decide) (by decide)]
    split
    · rw [hstay (by decide) (by decide)]
    split
    · rw [hstay (by decide) (by decide)]
    · rfl

theorem fraction_withReturns (cs : List Char) : fraction (withReturns cs) = fraction cs := by
  rcases cs with _ | ⟨c, _ | ⟨d, cs⟩⟩
  · rfl
  · by_cases hc : c = '\n'
    · rw [hc]
      rfl
    · rw [withReturns_cons hc, withReturns_nil]
  · by_cases hc : c = '\n'
    · rw [hc]
      rfl
    rw [withReturns_cons hc]
    by_cases hdot : c = '.'
    · subst hdot
      by_cases hd : d = '\n'
      · rw [hd]
        rfl
      · rw [withReturns_cons hd, fraction, fraction, run_withReturns (by decide) (by decide)]
    · simp [fraction, hdot]

theorem excess_withReturns (cs : List Char) : excess (withReturns cs) = excess cs := by
  rcases cs with _ | ⟨c, _ | ⟨d, cs⟩⟩
  · rfl
  · by_cases hc : c = '\n'
    · rw [hc]
      rfl
    · rw [withReturns_cons hc, withReturns_nil]
  · by_cases hc : c = '\n'
    · rw [hc]
      rfl
    rw [withReturns_cons hc]
    by_cases hdot : c = '.'
    · subst hdot
      by_cases hd : d = '\n'
      · rw [hd]
        rfl
      · rw [withReturns_cons hd, excess, excess, run_withReturns (by decide) (by decide)]
    · simp [excess, hdot]

theorem exponent_withReturns (cs : List Char) : exponent (withReturns cs) = exponent cs := by
  cases cs with
  | nil => rfl
  | cons c cs =>
    by_cases hc : c = '\n'
    · rw [hc]
      rfl
    rw [withReturns_cons hc, exponent, exponent]
    dsimp only
    rw [startsWithAny_withReturns (by decide)]
    rw [(stays_sign cs).drop_withReturns, run_withReturns (by decide) (by decide)]

theorem imaginary_withReturns (cs : List Char) : imaginary (withReturns cs) = imaginary cs := by
  cases cs with
  | nil => rfl
  | cons c cs =>
    by_cases hc : c = '\n'
    · rw [hc]
      rfl
    · rw [withReturns_cons hc, imaginary, imaginary, startsWithAny_withReturns (by decide)]

theorem tail_withReturns (cs : List Char) : tail (withReturns cs) = tail cs := by
  rw [tail, tail]
  rw [exponent_withReturns, (stays_exponent cs).drop_withReturns, imaginary_withReturns,
    ((stays_exponent cs).add (stays_imaginary _)).drop_withReturns, excess_withReturns]

theorem afterDigit_withReturns (c : Char) (cs : List Char) :
    afterDigit c (withReturns cs) = afterDigit c cs := by
  rw [afterDigit, afterDigit]
  dsimp only
  rw [run_withReturns (by decide) (by decide), (stays_digits cs).drop_withReturns,
    fraction_withReturns, ((stays_digits cs).add (stays_fraction _)).drop_withReturns,
    tail_withReturns, radix?_withReturns]

theorem afterDot_withReturns (cs : List Char) : afterDot (withReturns cs) = afterDot cs := by
  rw [afterDot, afterDot]
  rw [run_withReturns (by decide) (by decide), (stays_digits cs).drop_withReturns,
    tail_withReturns]

end Number

/-! ### Literals and commands -/

theorem close_withReturns {quote : Char} (hq : isBreak quote = false) (cs : List Char) :
    Quotation.close quote (withReturns cs) = Quotation.close quote cs := by
  have hne : ∀ {d : Char}, isBreak d = true → d ≠ quote := by
    rintro d hd rfl
    rw [hq] at hd
    cases hd
  fun_induction Quotation.close quote cs with
  | case1 => rfl
  | case2 c cs hc =>
    by_cases hn : c = '\n'
    · rw [hn]
      rfl
    · rw [withReturns_cons hn, Quotation.close.eq_def]
      exact if_pos hc
  | case3 ds hb ih =>
    have hn : quote ≠ '\n' := (hne (by decide)).symm
    rw [withReturns_cons hn, withReturns_cons hn, Quotation.close, if_neg hb,
      if_pos rfl, if_pos rfl, ih]
  | case4 d ds hd hb =>
    have hn : quote ≠ '\n' := (hne (by decide)).symm
    rw [withReturns_cons hn]
    by_cases hdn : d = '\n'
    · rw [hdn, withReturns_break, Quotation.close, if_neg hb, if_pos rfl, if_neg (hne (by decide))]
    · rw [withReturns_cons hdn, Quotation.close, if_neg hb, if_pos rfl, if_neg hd]
  | case5 hb =>
    rw [withReturns_cons (hne (by decide)).symm, withReturns_nil, Quotation.close, if_neg hb,
      if_pos rfl]
  | case6 c cs hb hc ih =>
    have hn : c ≠ '\n' := by
      rintro rfl
      exact hb rfl
    rw [withReturns_cons hn, Quotation.close.eq_def]
    dsimp only
    rw [if_neg hb, if_neg hc, ih]

theorem extent_withReturns {quote : Char} (hq : isBreak quote = false) (fault : Fault)
    (cs : List Char) :
    Quotation.extent quote fault (withReturns cs) = Quotation.extent quote fault cs := by
  rw [Quotation.extent, Quotation.extent, close_withReturns hq]

namespace Command

theorem chainFrom_withReturns (named : Bool) (cs : List Char) :
    chainFrom named (withReturns cs) = chainFrom named cs := by
  fun_induction chainFrom named cs with
  | case1 => rfl
  | case2 named c cs h ih =>
    have hc : c ≠ '\n' := by
      rintro rfl
      cases named <;> cases h
    rw [withReturns_cons hc, chainFrom.eq_def]
    dsimp only
    rw [if_pos h, ih]
  | case3 named c h d ds hd ih =>
    have hdn : d ≠ '\n' := by
      rintro rfl
      cases hd.2
    have hc : c ≠ '\n' := by
      rintro rfl
      cases hd.1
    rw [withReturns_cons hc, withReturns_cons hdn, chainFrom, if_neg h, if_pos hd, ih]
  | case4 named c h d ds hd =>
    by_cases hc : c = '\n'
    · rw [hc]
      cases named <;> rfl
    rw [withReturns_cons hc]
    by_cases hdn : d = '\n'
    · rw [hdn, withReturns_break, chainFrom, if_neg h, if_neg fun h => absurd h.2 (by decide)]
    · rw [withReturns_cons hdn, chainFrom, if_neg h, if_neg hd]
  | case5 named c h =>
    by_cases hc : c = '\n'
    · rw [hc]
      cases named <;> rfl
    · rw [withReturns_cons hc, withReturns_nil, chainFrom, if_neg h]

theorem chain_withReturns (cs : List Char) : chain (withReturns cs) = chain cs :=
  chainFrom_withReturns false cs

theorem stays_chainFrom (named : Bool) (cs : List Char) : Stays cs (chainFrom named cs) := by
  have hname := @not_break_of_class isNameChar (by decide) (by decide)
  have halpha := @not_break_of_class Char.isAlpha (by decide) (by decide)
  fun_induction chainFrom named cs with
  | case1 | case4 | case5 => exact Stays.zero _
  | case2 named c cs h ih => exact Stays.cons (hname (Bool.and_eq_true_iff.1 h).2) ih
  | case3 named c h d ds hd ih => exact Stays.pair (hd.1 ▸ by decide) (halpha hd.2) ih

theorem infixOperators_stay : ∀ w ∈ infixOperators, ∀ c ∈ w, isBreak c = false := by
  have hall : (infixOperators.all fun w => w.all fun c => !isBreak c) = true := rfl
  exact fun w hw => stay_of_all (List.all_eq_true.1 hall w hw)

theorem continues_withReturns (cs : List Char) : continues (withReturns cs) = continues cs :=
  isPrefixOf_withReturns (stay_of_all rfl) cs

theorem startsInfix_withReturns (cs : List Char) :
    startsInfix (withReturns cs) = startsInfix cs := by
  rw [startsInfix, startsInfix, find?_withReturns infixOperators_stay]
  cases hfind : infixOperators.find? (·.isPrefixOf cs) with
  | none => rfl
  | some word =>
    have hstay := infixOperators_stay word (List.mem_of_find?_eq_some hfind)
    have hprefix := List.find?_some hfind
    have hword : Stays cs word.length := Stays.word hstay hprefix
    dsimp only
    rw [hword.drop_withReturns]
    cases cs.drop word.length with
    | nil => rfl
    | cons c cs =>
      by_cases hc : c = '\n'
      · rw [hc]
        rfl
      · rw [withReturns_cons hc]

theorem follows_withReturns (after : List Char) : follows (withReturns after) = follows after := by
  rw [follows, follows, startsWithAny_withReturns (by decide),
    dropWhile_withReturns (by decide) (by decide), continues_withReturns, startsInfix_withReturns]
  cases after.dropWhile isBlank with
  | nil => rfl
  | cons c cs =>
    by_cases hc : c = '\n'
    · rw [hc]
      rfl
    · rw [withReturns_cons hc]
      dsimp only
      rw [startsWithAny_withReturns (by decide)]

theorem text_withReturns (kind : CommandKind) (quoted : Bool) (cs : List Char) :
    text kind quoted (withReturns cs) = text kind quoted cs := by
  fun_induction text kind quoted cs with
  | case1 | case2 => rfl
  | case3 c cs h =>
    by_cases hc : c = '\n'
    · rw [hc, withReturns_break]
      rfl
    · rw [withReturns_cons hc, text.eq_def]
      exact if_pos h
  | case4 c cs h ih =>
    have hc : c ≠ '\n' := by
      rintro rfl
      exact h rfl
    rw [withReturns_cons hc, text.eq_def]
    dsimp only
    rw [if_neg h, ih]
  | case5 c cs h =>
    by_cases hc : c = '\n'
    · rw [hc, withReturns_break]
      rfl
    · rw [withReturns_cons hc, text.eq_def]
      exact if_pos h
  | case6 ds h ih =>
    rw [withReturns_cons (by decide), withReturns_cons (by decide), text, if_neg h, if_pos rfl,
      if_pos rfl, ih]
  | case7 d ds hd h ih =>
    rw [withReturns_cons (by decide), ← ih]
    by_cases hn : d = '\n'
    · rw [hn, withReturns_break, text.eq_def kind true]
      dsimp only
      rw [if_neg h, if_pos rfl, if_neg (by decide)]
    · rw [withReturns_cons hn, text.eq_def kind true]
      dsimp only
      rw [if_neg h, if_pos rfl, if_neg hd]
  | case8 h => rfl
  | case9 c cs h hc ih =>
    have hn : c ≠ '\n' := by
      rintro rfl
      exact h rfl
    rw [withReturns_cons hn, text.eq_def]
    dsimp only
    rw [if_neg h, if_neg hc, ih]

end Command

end MFile.Lexing
