import MFile.Proofs.Lexing.Forward.Numbers

/-!
The elements of a row: signs, and a name with transposes, a number or a literal behind them. A row
gives the same tokens whether blanks or commas separate its elements, except that the commas which
blanks stand for spell nothing.
-/

namespace MFile

open Lexing Text

inductive Atom
  | name (x : Identifier) (quotes : Nat)
  | number (n : Decimal)
  | literal (l : Literal)

structure Element where
  signs : List UnaryOp
  atom : Atom
  areSigns : ∀ op ∈ signs, op.followsOperand = false

inductive Separator
  | blank
  | comma

namespace Atom

def chars : Atom → List Char
  | name x quotes => x.chars ++ List.replicate quotes '\''
  | number n => n.chars
  | literal l => l.chars

def tokens (file : String) : Atom → List Token
  | name x quotes =>
    Token.spelling file .identifier x.chars ::
      List.replicate quotes (Token.spelling file .operator ['\''])
  | number n => [Token.spelling file .number n.chars]
  | literal l => [Token.spelling file l.kind l.chars]

end Atom

def signsChars (signs : List UnaryOp) : List Char := signs.flatMap (·.symbol.toList)

namespace Element

def chars (e : Element) : List Char := signsChars e.signs ++ e.atom.chars

def tokens (file : String) (e : Element) : List Token :=
  e.signs.map (fun op => Token.spelling file .operator op.symbol.toList) ++ e.atom.tokens file

end Element

namespace Separator

def chars : Separator → List Char
  | blank => [' ']
  | comma => [',', ' ']

def token (file : String) : Separator → Token
  | blank => Token.spelling file .comma []
  | comma => Token.spelling file .comma [',']

end Separator

def rowChars (sep : Separator) (first : Element) (more : List Element) : List Char :=
  first.chars ++ more.flatMap fun e => sep.chars ++ e.chars

def rowTokens (file : String) (sep : Separator) (first : Element) (more : List Element) :
    List Token :=
  first.tokens file ++ more.flatMap fun e => sep.token file :: e.tokens file

/-! ## Characters -/

theorem notMem_of_class {p : Char → Bool} {d : Char} {cs : List Char} (h : ∀ c ∈ cs, p c = true)
    (hp : p d = false) : d ∉ cs := by
  intro hmem
  rw [h _ hmem] at hp
  cases hp

theorem Identifier.class (x : Identifier) : ∀ c ∈ x.chars, isNameChar c = true :=
  List.forall_mem_cons.2 ⟨State.isNameChar_of_isAlpha x.letter, x.nameChars⟩

def isNumberChar (c : Char) : Bool :=
  c.isDigit || ['.', 'e', 'E', 'd', 'D', '+', '-', 'i', 'j', 'I', 'J'].contains c

theorem Decimal.class (n : Decimal) : ∀ c ∈ n.chars, isNumberChar c = true := by
  have hdigit : ∀ c : Char, c.isDigit = true → isNumberChar c = true := by
    intro c hc
    rw [isNumberChar, hc]
    rfl
  intro c hc
  rw [Decimal.chars, Decimal.point, Decimal.suffix, Decimal.power] at hc
  obtain hc | hc := List.mem_append.1 hc
  · exact hdigit c (n.wholeDigits c hc)
  obtain hc | hc := List.mem_append.1 hc
  · cases hfraction : n.fraction with
    | none => simp [hfraction] at hc
    | some digits =>
      rw [hfraction] at hc
      obtain rfl | hc := List.mem_cons.1 hc
      · rfl
      · exact hdigit c (n.fractionDigits digits hfraction c hc)
  obtain hc | hc := List.mem_append.1 hc
  · cases hexponent : n.exponent with
    | none => simp [hexponent] at hc
    | some e =>
      rw [hexponent] at hc
      obtain rfl | hc := List.mem_cons.1 hc
      · have hmark : ∀ c ∈ ['e', 'E', 'd', 'D'], isNumberChar c = true := forall_of_all rfl
        exact hmark _ e.isMark
      obtain hc | hc := List.mem_append.1 hc
      · obtain rfl | rfl := e.isSign c (Option.mem_toList.1 hc) <;> rfl
      · exact hdigit c (e.isDigit c hc)
  · have hunit : ∀ c ∈ ['i', 'j', 'I', 'J'], isNumberChar c = true := forall_of_all rfl
    exact hunit c (n.imaginaryUnit c (Option.mem_toList.1 hc))

theorem Literal.notMem (l : Literal) {d : Char} (hd : d = '\n' ∨ d = '\t') : d ∉ l.chars := by
  have hquote : d ≠ l.quote := by
    obtain hq | hq := l.isQuote <;> rw [hq] <;> obtain rfl | rfl := hd <;> decide
  have hbody : d ∉ doubled l.quote l.body := by
    rw [doubled, List.mem_flatMap]
    rintro ⟨c, hc, hmem⟩
    split at hmem
    · simp [hquote] at hmem
    · obtain rfl := List.mem_singleton.1 hmem
      obtain ⟨hbreak, htab⟩ := l.plain _ hc
      obtain rfl | rfl := hd
      · cases hbreak
      · exact htab rfl
  rw [Literal.chars, Literal.inner]
  simp [hquote, hbody]

namespace Lexing

def solid (c : Char) : Bool := !isBlank c && !isBreak c && c != '='

def Solid (cs : List Char) : Prop := ∃ c cs', cs = c :: cs' ∧ solid c = true

theorem Solid.append {cs : List Char} (h : Solid cs) (more : List Char) : Solid (cs ++ more) := by
  obtain ⟨c, cs', rfl, hc⟩ := h
  exact ⟨c, cs' ++ more, rfl, hc⟩

theorem solid_of_class {p : Char → Bool} {c : Char} (hc : p c = true)
    (hp : ([' ', '\t', '\n', '\r', '='].all fun d => !p d) = true) : solid c = true := by
  have hne : ∀ d ∈ [' ', '\t', '\n', '\r', '='], (c == d) = false := by
    intro d hd
    rw [beq_eq_false_iff_ne]
    rintro rfl
    have hnot := List.all_eq_true.1 hp c hd
    rw [hc] at hnot
    cases hnot
  rw [solid, isBlank, isBreak, bne, hne ' ' (by decide), hne '\t' (by decide),
    hne '\n' (by decide), hne '\r' (by decide), hne '=' (by decide)]
  rfl

theorem solid_atom (a : Atom) : Solid a.chars := by
  cases a with
  | name x quotes => exact ⟨x.first, _, rfl, solid_of_class x.letter rfl⟩
  | number n =>
    obtain ⟨c, cs, hchars, hc, -⟩ := Number.ofChars?_decimal n (d := ' ') rfl []
    refine ⟨c, cs, hchars, ?_⟩
    obtain rfl | hc := hc
    · rfl
    · exact solid_of_class hc rfl
  | literal l =>
    refine ⟨l.quote, _, rfl, ?_⟩
    obtain hq | hq := l.isQuote <;> rw [hq] <;> rfl

theorem sign_symbol {op : UnaryOp} (hop : op.followsOperand = false) :
    ∃ c, op.symbol.toList = [c] ∧ solid c = true ∧ c ≠ '\n' ∧
      Lexeme.mark? c = some .operator ∧ c ≠ '.' ∧ (∀ d, Lexeme.isPair c d = true → d = '=') ∧
      ["+", "-", "~", "!"].contains (String.ofList [c]) = true := by
  cases op with
  | plus =>
    refine ⟨'+', rfl, rfl, by decide, rfl, by decide, ?_, by decide⟩
    intro d hd
    cases hd
  | minus =>
    refine ⟨'-', rfl, rfl, by decide, rfl, by decide, ?_, by decide⟩
    intro d hd
    cases hd
  | not =>
    refine ⟨'~', rfl, rfl, by decide, rfl, by decide, ?_, by decide⟩
    intro d hd
    exact beq_iff_eq.1 hd
  | conjugateTranspose | transpose => cases hop

theorem solid_signs {signs : List UnaryOp} (h : ∀ op ∈ signs, op.followsOperand = false)
    (a : Atom) : Solid (signsChars signs ++ a.chars) := by
  cases signs with
  | nil => exact solid_atom a
  | cons op signs =>
    obtain ⟨c, hsymbol, hc, -⟩ := sign_symbol (h op List.mem_cons_self)
    rw [signsChars, List.flatMap_cons, hsymbol]
    exact ⟨c, _, rfl, hc⟩

theorem not_isBlank_of_solid {c : Char} (h : solid c = true) : isBlank c = false := by
  rw [solid, Bool.and_eq_true, Bool.and_eq_true] at h
  exact Bool.not_eq_true' _ ▸ h.1.1

theorem symbol_of_solid {kind : Kind} {c : Char} (hmark : Lexeme.mark? c = some kind)
    (hdot : c ≠ '.') (hpair : ∀ d, Lexeme.isPair c d = true → d = '=') {cs : List Char}
    (hcs : Solid cs) : Lexeme.ofChars? c cs = some (.symbol kind 0) := by
  refine Lexeme.ofChars?_mark hmark hdot ?_
  obtain ⟨d, cs, rfl, hd⟩ := hcs
  change Lexeme.isPair c d = false
  rw [Bool.eq_false_iff]
  intro h
  rw [hpair d h] at hd
  cases hd

/-! ## Readings -/

structure Previous.Operand (p : Previous) : Prop extends p.Plain where
  endsValue : p.endsValue = true

theorem operand_of_class {kind : Kind}
    (h : [.identifier, .number, .charArray, .string].contains kind = true) (chars : List Char) :
    (Previous.ofText kind chars).Operand := by
  cases kind <;> first
    | exact ⟨⟨rfl, Kind.noConfusion, Kind.noConfusion⟩, rfl⟩
    | cases h

theorem operand_quote : (Previous.ofText .operator ['\'']).Operand :=
  ⟨⟨rfl, by decide, by decide⟩, rfl⟩

namespace State.Amid

variable (file : String) (octave : Bool) {opened : List Kind} {last : Previous} {d : Char}
  {gap after rest : List Char} {st : State} {k : Kind}

theorem read_identifier (x : Identifier) (h : Amid opened last false (gap ++ (x.chars ++ after)) st)
    (hgap : ∀ d ∈ gap, isBlank d = true) (hlast : last.Plain)
    (hafter : startsWithAny isNameChar after = false) :
    ∃ next, Gives file octave st
        (lead file opened last gap ++ [Token.spelling file .identifier x.chars]) next ∧
      Amid opened (.ofText .identifier x.chars) false after next := by
  have hline : '\n' ∉ x.first :: x.more := notMem_of_class x.class rfl
  exact read_element file octave h hgap (not_isBlank x.letter) hlast rfl hline rfl
    fun st' h' => h'.decide_identifier x hlast.selection hafter

theorem read_quotes (quotes : Nat)
    (h : Amid opened last false (List.replicate quotes '\'' ++ after) st) (hlast : last.Operand)
    (hquote : last.transposable = true) :
    ∃ last' next, Gives file octave st
        (List.replicate quotes (Token.spelling file .operator ['\''])) next ∧
      Amid opened last' false after next ∧ last'.Operand := by
  induction quotes generalizing st last with
  | zero => exact ⟨last, st, .refl st, h, hlast⟩
  | succ quotes ih =>
    have hfirst : Amid opened last false
        ([] ++ '\'' :: ([] ++ (List.replicate quotes '\'' ++ after))) st := h
    obtain ⟨mid, hgives, hmid⟩ := read_other file octave hfirst (by simp) rfl hlast.toPlain rfl
      (by simp) (.inl rfl) fun st' h' => h'.decide_transpose hquote
    obtain ⟨last', next, hgives', hnext⟩ := ih hmid operand_quote rfl
    exact ⟨last', next, hgives.trans hgives', hnext⟩

theorem read_number (n : Decimal) (h : Amid opened last false (gap ++ (n.chars ++ d :: rest)) st)
    (hgap : ∀ d ∈ gap, isBlank d = true) (hlast : last.Plain) (hd : cuts d = true) :
    ∃ next, Gives file octave st
        (lead file opened last gap ++ [Token.spelling file .number n.chars]) next ∧
      Amid opened (.ofText .number n.chars) false (d :: rest) next := by
  obtain ⟨c, cs, hchars, hc, hnumber⟩ := Number.ofChars?_decimal n hd rest
  have hline : '\n' ∉ n.chars := notMem_of_class n.class rfl
  have hsolid : Solid n.chars := solid_atom (.number n)
  rw [hchars] at hsolid
  obtain ⟨_, _, hhead, hsolid⟩ := hsolid
  cases hhead
  rw [hchars] at h hline ⊢
  exact read_element file octave h hgap (not_isBlank_of_solid hsolid) hlast rfl hline rfl
    fun st' h' => h'.decide_number hnumber

theorem read_literal (l : Literal) (h : Amid opened last false (gap ++ (l.chars ++ after)) st)
    (hgap : ∀ d ∈ gap, isBlank d = true) (hlast : last.Plain)
    (hopens : gap ≠ [] ∨ last.opensLiteral = true)
    (hafter : startsWithAny (· == l.quote) after = false) :
    ∃ next, Gives file octave st
        (lead file opened last gap ++ [Token.spelling file l.kind l.chars]) next ∧
      Amid opened (.ofText l.kind l.chars) false after next := by
  have hkind : l.kind = .charArray ∨ l.kind = .string := by
    rw [Literal.kind]
    split
    · exact .inl rfl
    · exact .inr rfl
  have hblank : isBlank l.quote = false := by
    obtain hq | hq := l.isQuote <;> rw [hq] <;> rfl
  have hgoes : goesOnWithin opened l.kind = true := by
    obtain hk | hk := hkind <;> rw [hk] <;> rfl
  have helement : opensElement l.kind (String.ofList (l.quote :: l.inner)) after = true := by
    obtain hk | hk := hkind <;> rw [hk] <;> rfl
  have hopened : l.kind.opened opened = opened := by
    obtain hk | hk := hkind <;> rw [hk] <;> rfl
  have hquote : (!gap.isEmpty) = true ∨ last.opensLiteral = true := by
    refine hopens.imp_left fun hne => ?_
    cases gap with
    | nil => exact absurd rfl hne
    | cons => rfl
  have hread := read_element file octave h hgap hblank hlast hgoes (l.notMem (.inl rfl)) helement
    fun st' h' => h'.decide_literal l hquote hafter
  rw [hopened] at hread
  exact hread

theorem read_atom (a : Atom) (h : Amid opened last false (gap ++ (a.chars ++ d :: rest)) st)
    (hgap : ∀ d ∈ gap, isBlank d = true) (hlast : last.Plain)
    (hopens : gap ≠ [] ∨ last.opensLiteral = true) (hd : cuts d = true) :
    ∃ last' next, Gives file octave st (lead file opened last gap ++ a.tokens file) next ∧
      Amid opened last' false (d :: rest) next ∧ last'.Operand := by
  cases a with
  | name x quotes =>
    rw [Atom.chars, List.append_assoc] at h
    have hafter : startsWithAny isNameChar (List.replicate quotes '\'' ++ d :: rest) = false := by
      cases quotes with
      | zero => exact of_cuts hd (p := isNameChar) rfl
      | succ quotes => rfl
    obtain ⟨mid, hgives, hmid⟩ := h.read_identifier file octave x hgap hlast hafter
    obtain ⟨last', next, hgives', hnext⟩ :=
      hmid.read_quotes file octave quotes (operand_of_class rfl _) rfl
    refine ⟨last', next, ?_, hnext⟩
    have hboth := hgives.trans hgives'
    rw [List.append_assoc] at hboth
    exact hboth
  | number n =>
    obtain ⟨next, hgives, hnext⟩ := h.read_number file octave n hgap hlast hd
    exact ⟨_, next, hgives, hnext, operand_of_class rfl _⟩
  | literal l =>
    have hafter : startsWithAny (· == l.quote) (d :: rest) = false := by
      obtain hq | hq := l.isQuote
      · rw [hq]
        exact of_cuts hd (p := (· == '\'')) rfl
      · rw [hq]
        exact of_cuts hd (p := (· == '"')) rfl
    obtain ⟨next, hgives, hnext⟩ := h.read_literal file octave l hgap hlast hopens hafter
    have hclass : [.identifier, .number, .charArray, .string].contains l.kind = true := by
      rw [Literal.kind]
      split <;> rfl
    exact ⟨_, next, hgives, hnext, operand_of_class hclass _⟩

theorem read_signed {signs : List UnaryOp} (hsigns : ∀ op ∈ signs, op.followsOperand = false)
    (a : Atom) (h : Amid opened last false (gap ++ (signsChars signs ++ a.chars ++ d :: rest)) st)
    (hgap : ∀ d ∈ gap, isBlank d = true) (hlast : last.Plain)
    (hopens : gap ≠ [] ∨ last.opensLiteral = true) (hd : cuts d = true) :
    ∃ last' next, Gives file octave st (lead file opened last gap ++
        (signs.map (fun op => Token.spelling file .operator op.symbol.toList) ++ a.tokens file))
          next ∧
      Amid opened last' false (d :: rest) next ∧ last'.Operand := by
  -- Only the first token can stand behind blanks; the others touch a sign.
  induction signs generalizing st last gap with
  | nil => exact h.read_atom file octave a hgap hlast hopens hd
  | cons op signs ih =>
    obtain ⟨hop, hsigns⟩ := List.forall_mem_cons.1 hsigns
    obtain ⟨c, hsymbol, hc, hline, hmark, hdot, hpair, hraw⟩ := sign_symbol hop
    have hfirst : Amid opened last false
        (gap ++ c :: ([] ++ (signsChars signs ++ a.chars ++ d :: rest))) st := by
      rw [signsChars, List.flatMap_cons, hsymbol] at h
      exact h
    have hlater : Solid (signsChars signs ++ a.chars ++ d :: rest) :=
      (solid_signs hsigns a).append _
    have helement : opensElement .operator (String.ofList [c])
        (signsChars signs ++ a.chars ++ d :: rest) = true := by
      obtain ⟨e, es, hcons, he⟩ := hlater
      rw [solid, Bool.and_eq_true] at he
      rw [opensElement, hraw, hcons, startsWithAny, Bool.not_or, he.1]
      rfl
    obtain ⟨mid, hgives, hmid⟩ := read_element file octave hfirst hgap (not_isBlank_of_solid hc)
      hlast rfl (by simpa using hline.symm) helement
      fun st' h' => h'.decide_symbol (symbol_of_solid hmark hdot hpair hlater)
    have hsign : (Previous.ofText .operator [c]).Plain ∧
        (Previous.ofText .operator [c]).opensLiteral = true := by
      have hquote : (String.ofList [c] == "'" || String.ofList [c] == ".'") = false := by
        rw [← hsymbol, String.ofList_toList]
        cases op <;> first | rfl | cases hop
      refine ⟨⟨rfl, Kind.noConfusion, Kind.noConfusion⟩, ?_⟩
      rw [Previous.opensLiteral, Previous.ofText]
      dsimp only
      rw [hquote]
      rfl
    have hmid' : Amid opened (.ofText .operator [c]) false
        ([] ++ (signsChars signs ++ a.chars ++ d :: rest)) mid := hmid
    obtain ⟨last', next, hgives', hnext⟩ :=
      ih hsigns hmid' (by simp) hsign.1 (.inr hsign.2)
    refine ⟨last', next, ?_, hnext⟩
    have hboth := hgives.trans hgives'
    rw [lead_nil, List.nil_append, List.append_assoc] at hboth
    rw [List.map_cons, hsymbol]
    exact hboth

/-! ## Rows -/

def isRow (k : Kind) : Bool := k == .lbracket || k == .lbrace

theorem read_comma (h : Amid opened last false (',' :: after) st) (hlast : last.Plain)
    (hopened : opened ≠ []) :
    ∃ next, Gives file octave st [Token.spelling file .comma [',']] next ∧
      Amid opened (.ofText .comma [',']) false after next := by
  have hgoes : goesOnWithin opened .comma = true := by
    cases opened with
    | nil => exact absurd rfl hopened
    | cons => rfl
  have hfirst : Amid opened last false ([] ++ ',' :: ([] ++ after)) st := h
  have hsymbol : Lexeme.ofChars? ',' after = some (.symbol .comma 0) := by
    refine Lexeme.ofChars?_mark rfl (by decide) ?_
    cases after <;> rfl
  exact read_other file octave hfirst (by simp) rfl hlast hgoes (by simp) (.inl rfl)
    fun st' h' => h'.decide_symbol hsymbol

theorem read_separated (hk : isRow k = true) (sep : Separator) (e : Element)
    (h : Amid [k] last false (sep.chars ++ e.chars ++ d :: rest) st) (hlast : last.Operand)
    (hd : cuts d = true) :
    ∃ last' next, Gives file octave st (sep.token file :: e.tokens file) next ∧
      Amid [k] last' false (d :: rest) next ∧ last'.Operand := by
  cases sep with
  | blank =>
    have hlead : lead file [k] last [' '] = [Separator.blank.token file] := by
      rw [lead, hlast.endsValue]
      change (if (true && isRow k && true) = true then _ else _) = _
      rw [hk]
      rfl
    have helement : Amid [k] last false ([' '] ++ (e.chars ++ d :: rest)) st := h
    obtain ⟨last', next, hgives, hnext⟩ := read_signed file octave e.areSigns e.atom helement
      (forall_of_all rfl) hlast.toPlain (.inl (by decide)) hd
    rw [hlead] at hgives
    exact ⟨last', next, hgives, hnext⟩
  | comma =>
    have hcomma : Amid [k] last false (',' :: ([' '] ++ (e.chars ++ d :: rest))) st := h
    obtain ⟨mid, hgives, hmid⟩ := hcomma.read_comma file octave hlast.toPlain (by simp)
    have hlead : lead file [k] (.ofText .comma [',']) [' '] = [] := by
      rw [lead, if_neg]
      rw [show (Previous.ofText .comma [',']).endsValue = false from rfl, Bool.and_false]
      decide
    obtain ⟨last', next, hgives', hnext⟩ := read_signed file octave e.areSigns e.atom hmid
      (forall_of_all rfl) ⟨rfl, by decide, by decide⟩ (.inl (by decide)) hd
    rw [hlead] at hgives'
    exact ⟨last', next, hgives.trans hgives', hnext⟩

theorem cuts_flatMap (hd : cuts d = true) (sep : Separator) (more : List Element)
    (rest : List Char) :
    ∃ e es, (more.flatMap fun e => sep.chars ++ e.chars) ++ d :: rest = e :: es ∧
      cuts e = true := by
  cases more with
  | nil => exact ⟨d, rest, rfl, hd⟩
  | cons => cases sep <;> exact ⟨_, _, rfl, rfl⟩

theorem read_more (hk : isRow k = true) (sep : Separator) (more : List Element)
    (h : Amid [k] last false ((more.flatMap fun e => sep.chars ++ e.chars) ++ d :: rest) st)
    (hlast : last.Operand) (hd : cuts d = true) :
    ∃ last' next,
      Gives file octave st (more.flatMap fun e => sep.token file :: e.tokens file) next ∧
      Amid [k] last' false (d :: rest) next ∧ last'.Operand := by
  induction more generalizing st last with
  | nil => exact ⟨last, st, .refl st, h, hlast⟩
  | cons e more ih =>
    obtain ⟨c, cs, hcons, hc⟩ := cuts_flatMap hd sep more rest
    rw [List.flatMap_cons, List.append_assoc, hcons] at h
    obtain ⟨mid', mid, hgives, hmid, hoperand⟩ :=
      h.read_separated file octave hk sep e hlast hc
    rw [← hcons] at hmid
    obtain ⟨last', next, hgives', hnext⟩ := ih hmid hoperand
    exact ⟨last', next, hgives.trans hgives', hnext⟩

theorem read_row (hk : isRow k = true) (sep : Separator) (first : Element) (more : List Element)
    (h : Amid [k] last false (rowChars sep first more ++ d :: rest) st) (hlast : last.Plain)
    (hopens : last.opensLiteral = true) (hd : cuts d = true) :
    ∃ last' next, Gives file octave st (rowTokens file sep first more) next ∧
      Amid [k] last' false (d :: rest) next ∧ last'.Operand := by
  obtain ⟨c, cs, hcons, hc⟩ := cuts_flatMap hd sep more rest
  rw [rowChars, List.append_assoc, hcons] at h
  have hfirst : Amid [k] last false ([] ++ (signsChars first.signs ++ first.atom.chars ++ c :: cs))
    st := h
  obtain ⟨mid', mid, hgives, hmid, hoperand⟩ :=
    hfirst.read_signed file octave first.areSigns first.atom (by simp) hlast (.inr hopens) hc
  rw [← hcons] at hmid
  obtain ⟨last', next, hgives', hnext⟩ := hmid.read_more file octave hk sep more hoperand hd
  exact ⟨last', next, hgives.trans hgives', hnext⟩

end State.Amid

end Lexing

end MFile
