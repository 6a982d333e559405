import MFile.Proofs.Lexing.Forward.Steps
import MFile.Proofs.Text.Quoted

/-!
Tokens in the middle of a statement: identifiers, literals, transposes, numbers and marks, each
with what has to stand before and behind it. In a row, blanks before what opens an element give
a comma.
-/

namespace MFile

open Lexing Text

structure Identifier where
  first : Char
  more : List Char
  letter : first.isAlpha = true
  nameChars : ∀ c ∈ more, isNameChar c = true
  free : Word.isReserved (String.ofList (first :: more)) = false

namespace Identifier

def chars (x : Identifier) : List Char := x.first :: x.more

def text (x : Identifier) : String := String.ofList x.chars

end Identifier

/-- A quoted literal on one line. Quotes inside of it are written twice. -/
structure Literal where
  quote : Char
  body : List Char
  isQuote : quote = '\'' ∨ quote = '"'
  plain : ∀ c ∈ body, isBreak c = false ∧ c ≠ '\t'

namespace Literal

def inner (l : Literal) : List Char := doubled l.quote l.body ++ [l.quote]

def chars (l : Literal) : List Char := l.quote :: l.inner

def kind (l : Literal) : Kind := if l.quote = '\'' then .charArray else .string

end Literal

namespace Lexing

variable {c d : Char} {cs w rest : List Char} {p : Char → Bool}

theorem forall_of_all {P : Char → Prop} [DecidablePred P]
    (h : (cs.all fun c => Decidable.decide (P c)) = true) : ∀ c ∈ cs, P c :=
  fun c hc => of_decide_eq_true (List.all_eq_true.1 h c hc)

theorem take_length_append (w rest : List Char) : (w ++ rest).take w.length = w :=
  List.take_left' rfl

theorem drop_length_append (w rest : List Char) : (w ++ rest).drop w.length = rest :=
  List.drop_left' rfl

/-! ## Spellings -/

theorem Lexeme.ofChars?_mark {kind : Kind} (hmark : mark? c = some kind) (hdot : c ≠ '.')
    (hpair : startsWithAny (isPair c) cs = false) : ofChars? c cs = some (symbol kind 0) := by
  have hclass : c.isAlpha = false ∧ c.isDigit = false := by
    unfold mark? at hmark
    split at hmark <;> first | exact ⟨rfl, rfl⟩ | cases hmark
  have hne : ∀ e : Char, mark? e = none → c ≠ e := by
    rintro e he rfl
    rw [hmark] at he
    cases he
  rw [ofChars?.eq_def, if_neg (hne _ rfl), if_neg (hne _ rfl),
    if_neg (not_or.2 ⟨hne _ rfl, hne _ rfl⟩), if_neg (by simp [hclass.1]),
    if_neg (by simp [hclass.2]), if_neg (fun h => hdot h.1), if_neg (fun h => hdot h.1),
    if_neg (hne _ rfl), if_neg (hne _ rfl), if_neg (hne _ rfl), symbol?, hpair,
    if_neg (by decide), hmark]
  rfl

theorem Lexeme.ofChars?_digit (hc : c.isDigit = true) (cs : List Char) :
    ofChars? c cs = some (number (Number.afterDigit c cs)) := by
  have hne : ∀ e : Char, e.isDigit = false → c ≠ e := by
    rintro e he rfl
    rw [hc] at he
    cases he
  have halpha : ¬ c.isAlpha = true := by
    intro halpha
    rw [not_isDigit halpha] at hc
    cases hc
  rw [ofChars?.eq_def, if_neg (hne _ rfl), if_neg (hne _ rfl),
    if_neg (not_or.2 ⟨hne _ rfl, hne _ rfl⟩), if_neg halpha, if_pos hc]

theorem Lexeme.ofChars?_point (hd : d.isDigit = true) (cs : List Char) :
    ofChars? '.' (d :: cs) = some (number (Number.afterDot (d :: cs))) := by
  have hdot : ('.' == d) = false := by
    rw [beq_eq_false_iff_ne]
    rintro rfl
    cases hd
  have hdots : ['.', '.'].isPrefixOf (d :: cs) = false := by
    rw [List.isPrefixOf, hdot]
    rfl
  rw [ofChars?.eq_def, if_neg (by decide), if_neg (by decide), if_neg (by decide),
    if_neg (by decide), if_neg (by decide), hdots, if_neg (by decide), if_pos ⟨rfl, hd⟩]

theorem Quotation.close_doubled {quote : Char} (hquote : isBreak quote = false) {body : List Char}
    (hbody : ∀ e ∈ body, isBreak e = false) (hrest : startsWithAny (· == quote) rest = false) :
    close quote (doubled quote body ++ quote :: rest) =
      .ok (doubled quote body ++ [quote]).length := by
  induction body with
  | nil =>
    rw [doubled, List.flatMap_nil, List.nil_append, close.eq_def]
    dsimp only
    rw [hquote, if_neg (by decide), if_pos rfl]
    cases rest with
    | nil => rfl
    | cons d rest =>
      have hd : d ≠ quote := by simpa [startsWithAny] using hrest
      dsimp only
      rw [if_neg hd]
      rfl
  | cons e body ih =>
    obtain ⟨he, hbody⟩ := List.forall_mem_cons.1 hbody
    have hlater := ih hbody
    by_cases hq : e = quote
    · rw [hq, doubled_cons_quote, List.cons_append, List.cons_append, close.eq_def]
      dsimp only
      rw [hquote, if_neg (by decide), if_pos rfl, if_pos rfl, hlater]
      exact congrArg Except.ok (Nat.add_comm _ _)
    · rw [doubled_cons_of_ne hq, List.cons_append, close.eq_def]
      dsimp only
      rw [he, if_neg (by decide), if_neg hq, hlater]
      exact congrArg Except.ok (Nat.add_comm _ _)

/-! ## What may stand before a quote -/

def Previous.opensLiteral (p : Previous) : Bool :=
  match p.kind with
  | .lparen | .lbracket | .lbrace | .comma | .assignment | .semicolon | .colon => true
  | .operator => !p.transpose
  | _ => false

def Previous.transposable (p : Previous) : Bool :=
  match p.kind with
  | .identifier | .number | .charArray | .string | .rparen | .rbracket | .rbrace => true
  | .operator => p.transpose
  | _ => false

structure Previous.Plain (p : Previous) : Prop where
  endsParams : p.endsParams = false
  handle : p.kind ≠ .handle
  selection : p.kind ≠ .selection

def lead (file : String) (opened : List Kind) (last : Previous) (gap : List Char) : List Token :=
  if !gap.isEmpty && opened.head?.any (fun k => k == .lbracket || k == .lbrace) &&
    last.endsValue then [Token.spelling file .comma []]
  else []

theorem lead_nil (file : String) (opened : List Kind) (last : Previous) :
    lead file opened last [] = [] := rfl

namespace State.Amid

variable {file : String} {octave : Bool} {opened : List Kind} {last : Previous} {blank : Bool}
  {gap after : List Char} {st : State} {kind : Kind} {more : Nat}

/-! ## Decisions -/

theorem decide_eq (h : Amid opened last blank (c :: cs) st) :
    st.decide octave c cs = st.decidePlain octave c cs := by
  rw [decide, h.mode]

theorem decide_symbol (h : Amid opened last blank (c :: cs) st)
    (hsymbol : Lexeme.ofChars? c cs = some (.symbol kind more)) :
    st.decide octave c cs = .token kind more .normal := by
  rw [h.decide_eq, decidePlain, hsymbol]
  dsimp only
  rw [h.mode]

theorem decide_number (h : Amid opened last blank (c :: cs) st)
    (hnumber : Lexeme.ofChars? c cs = some (.number (.sound more))) :
    st.decide octave c cs = .token .number more .normal := by
  rw [h.decide_eq, decidePlain, hnumber]
  dsimp only
  rw [h.mode]
  rfl

theorem decide_identifier (x : Identifier) (h : Amid opened last blank (x.chars ++ after) st)
    (hlast : last.kind ≠ .selection) (hafter : startsWithAny isNameChar after = false) :
    st.decide octave x.first (x.more ++ after) = .token .identifier x.more.length .normal := by
  have hstart : st.statementStart = false := by
    rw [statementStart, h.firstInStatement]
    rfl
  have hplain : st.decide octave x.first (x.more ++ after) =
      st.decidePlain octave x.first (x.more ++ after) := h.decide_eq
  rw [hplain, decidePlain, Lexeme.ofChars?_alpha x.letter]
  dsimp only
  rw [decideWord, h.previous, Option.any_some, beq_eq_false_iff_ne.2 hlast,
    run_append x.nameChars hafter]
  rw [take_length_append, x.free, hstart, modeAfterName, hstart, h.mode]
  rfl

theorem decide_transpose (h : Amid opened last false ('\'' :: cs) st)
    (hlast : last.transposable = true) :
    st.decide octave '\'' cs = .token .operator 0 .normal := by
  have hreading : st.quoteReading = .transpose := by
    rw [quoteReading, h.afterBlank, h.firstInLine, h.previous]
    rw [Previous.transposable] at hlast
    dsimp only
    split at hlast <;> simp_all
  rw [decide_eq h, decidePlain]
  have hquote : Lexeme.ofChars? '\'' cs = some .quote := by
    rw [Lexeme.ofChars?.eq_def]
    rfl
  rw [hquote]
  dsimp only
  rw [decideQuote, hreading, h.mode]

theorem decide_literal (l : Literal) (h : Amid opened last blank (l.chars ++ after) st)
    (hlast : blank = true ∨ last.opensLiteral = true)
    (hafter : startsWithAny (· == l.quote) after = false) :
    st.decide octave l.quote (l.inner ++ after) = .token l.kind l.inner.length .normal := by
  have hbreak : isBreak l.quote = false := by
    obtain hq | hq := l.isQuote <;> rw [hq] <;> rfl
  have hclose : Quotation.close l.quote (l.inner ++ after) = .ok l.inner.length := by
    rw [Literal.inner, List.append_assoc]
    exact Quotation.close_doubled hbreak (fun e he => (l.plain e he).1) hafter
  have hplain : st.decide octave l.quote (l.inner ++ after) =
      st.decidePlain octave l.quote (l.inner ++ after) := h.decide_eq
  rw [hplain, decidePlain]
  obtain hq | hq := l.isQuote
  · have hreading : st.quoteReading = .literal := by
      rw [quoteReading, h.afterBlank, h.firstInLine, h.previous]
      obtain rfl | hlast := hlast
      · rfl
      · rw [Previous.opensLiteral] at hlast
        dsimp only
        split at hlast <;> simp_all
    have hquote : ∀ cs, Lexeme.ofChars? '\'' cs = some .quote := by
      intro cs
      rw [Lexeme.ofChars?.eq_def]
      rfl
    rw [Literal.kind, if_pos hq]
    rw [hq] at hclose ⊢
    rw [hquote]
    dsimp only
    rw [decideQuote, hreading]
    dsimp only
    rw [Quotation.extent, hclose, h.mode]
    rfl
  · have htext : ∀ cs, Lexeme.ofChars? '"' cs =
        some (.text (Quotation.extent '"' .unterminatedString cs)) := by
      intro cs
      rw [Lexeme.ofChars?.eq_def]
      rfl
    rw [Literal.kind, if_neg (by rw [hq]; decide)]
    rw [hq] at hclose ⊢
    rw [htext, Quotation.extent, hclose]
    dsimp only
    rw [h.mode]
    rfl

/-! ## Readings -/

theorem read_element (file : String) (octave : Bool)
    (h : Amid opened last false (gap ++ c :: (w ++ after)) st)
    (hgap : ∀ d ∈ gap, isBlank d = true) (hc : isBlank c = false) (hlast : last.Plain)
    (hkind : goesOnWithin opened kind = true) (hline : '\n' ∉ c :: w)
    (hopens : opensElement kind (String.ofList (c :: w)) after = true)
    (hdecide : ∀ st', Amid opened last (!gap.isEmpty) (c :: (w ++ after)) st' →
      st'.decide octave c (w ++ after) = .token kind w.length .normal) :
    ∃ next, Gives file octave st
        (lead file opened last gap ++ [Token.spelling file kind (c :: w)]) next ∧
      Amid (kind.opened opened) (.ofText kind (c :: w)) false after next := by
  have hread := h.read file octave (fun _ => rfl) hgap hc hlast.endsParams hlast.handle hkind
    (by rwa [take_length_append]) hdecide
  rw [take_length_append, drop_length_append, separates, hopens, Bool.and_true] at hread
  exact hread

theorem read_other (file : String) (octave : Bool)
    (h : Amid opened last false (gap ++ c :: (w ++ after)) st)
    (hgap : ∀ d ∈ gap, isBlank d = true) (hc : isBlank c = false) (hlast : last.Plain)
    (hkind : goesOnWithin opened kind = true) (hline : '\n' ∉ c :: w)
    (hopens : gap = [] ∨ opensElement kind (String.ofList (c :: w)) after = false)
    (hdecide : ∀ st', Amid opened last (!gap.isEmpty) (c :: (w ++ after)) st' →
      st'.decide octave c (w ++ after) = .token kind w.length .normal) :
    ∃ next, Gives file octave st [Token.spelling file kind (c :: w)] next ∧
      Amid (kind.opened opened) (.ofText kind (c :: w)) false after next := by
  have hnone : separates opened last (!gap.isEmpty) kind (c :: w) after = false := by
    rw [separates]
    obtain rfl | hopens := hopens
    · rfl
    · rw [hopens, Bool.and_false]
  have hread := h.read file octave (fun _ => rfl) hgap hc hlast.endsParams hlast.handle hkind
    (by rwa [take_length_append]) hdecide
  rw [take_length_append, drop_length_append, hnone, if_neg (by decide)] at hread
  exact hread

end State.Amid

end Lexing

end MFile
