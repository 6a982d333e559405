import MFile.Proofs.Grammar.Precedence.Assignments
import MFile.Proofs.Grammar.Relayout.Forgotten
import MFile.Proofs.Lexing.Forward.Assignments
import MFile.Proofs.Text.Tabs

/-!
Blanks and commas separate the elements of a row alike: the grammar sees the same tokens of both
texts, and those of the one with commas are the tokens of a row that is written out.
-/

namespace MFile

open Lexing Text Grammar Parse

/-! ## Trees -/

def transposed (x : String) : Nat → Expr
  | 0 => .name (.identifier blankSite x)
  | quotes + 1 => .unary blankSite .conjugateTranspose (transposed x quotes)

namespace Atom

def expr : Atom → Expr
  | name x quotes => MFile.transposed x.text quotes
  | number n => .number blankSite (String.ofList n.chars)
  | literal l =>
    if l.quote = '\'' then .charArray blankSite (String.ofList l.body)
    else .string blankSite (String.ofList l.body)

end Atom

def Element.expr (e : Element) : Expr := e.signs.foldr (Expr.unary blankSite) e.atom.expr

/-- Brackets around one row. -/
def Enclosure.expr (around : Enclosure) (items : List Expr) : Expr :=
  match around with
  | matrix => .matrix blankSite [⟨blankSite, items⟩]
  | cell => .cell blankSite [⟨blankSite, items⟩]

variable {file : String}

theorem dequote_literal (l : Literal) :
    dequote l.quote (String.ofList l.chars) = String.ofList l.body := by
  rw [dequote, String.toList_ofList, Literal.chars, dequoteFrom, if_pos rfl, Literal.inner,
    dequoteFrom_doubled]

theorem transposed_level (x : String) (quotes : Nat) : (transposed x quotes).level ≤ 2 := by
  cases quotes with
  | zero => exact Nat.le_succ 1
  | succ quotes => exact Nat.le_refl 2

namespace Atom

theorem level_expr (a : Atom) : a.expr.level ≤ 2 := by
  cases a with
  | name x quotes => exact transposed_level x.text quotes
  | number n => exact Nat.le_succ 1
  | literal l =>
    rw [expr]
    split <;> exact Nat.le_succ 1

theorem faces (file : String) (a : Atom) : (a.tokens file).map Token.face = a.expr.text false := by
  cases a with
  | name x quotes =>
    rw [tokens, expr, List.map_cons, List.map_replicate]
    induction quotes with
    | zero => rfl
    | succ quotes ih =>
      have hfits := fits_of_le (transposed_level x.text quotes) (by decide)
      have htext : (MFile.transposed x.text (quotes + 1)).text false =
          enclose 2 (MFile.transposed x.text quotes).level
            ((MFile.transposed x.text quotes).text false) ++ [(.operator, "'")] := rfl
      rw [htext, enclose, if_pos hfits, ← ih, List.replicate_succ', List.cons_append]
      rfl
  | number n => rfl
  | literal l =>
    have hvalue := dequote_literal l
    rw [tokens, expr, Literal.kind, List.map_cons, List.map_nil]
    split
    · rename_i hquote
      rw [hquote] at hvalue
      exact congrArg (fun s => [(Kind.charArray, s)]) hvalue
    · rename_i hquote
      rw [l.isQuote.resolve_left hquote] at hvalue
      exact congrArg (fun s => [(Kind.string, s)]) hvalue

theorem wellFormed_expr (a : Atom) : a.expr.wellFormed false = true := by
  cases a with
  | name x quotes =>
    rw [expr]
    induction quotes with
    | zero => rfl
    | succ quotes ih => rw [MFile.transposed, Expr.wellFormed, ih]
  | number n => rfl
  | literal l =>
    rw [expr]
    split <;> rfl

end Atom

namespace Element

theorem faces (file : String) (e : Element) :
    (e.tokens file).map Token.face = e.expr.text false := by
  have hsigned : ∀ signs : List UnaryOp, (∀ op ∈ signs, op.followsOperand = false) →
      (signs.foldr (Expr.unary blankSite) e.atom.expr).level ≤ 4 ∧
        (signs.map (fun op => Token.spelling file .operator op.symbol.toList) ++
          e.atom.tokens file).map Token.face =
            (signs.foldr (Expr.unary blankSite) e.atom.expr).text false := by
    intro signs hsigns
    induction signs with
    | nil => exact ⟨Nat.le_trans e.atom.level_expr (by decide), e.atom.faces file⟩
    | cons op signs ih =>
      obtain ⟨hop, hsigns⟩ := List.forall_mem_cons.1 hsigns
      obtain ⟨hlevel, htext⟩ := ih hsigns
      have hfits := fits_of_le hlevel (by decide)
      refine ⟨Nat.le_of_eq (if_neg (by rw [hop]; decide)), ?_⟩
      rw [List.map_cons, List.cons_append, List.map_cons, htext, List.foldr_cons,
        Expr.text_signed hop, if_neg (by decide), Expr.written_of_fits hfits]
      have hsymbol : (Token.spelling file .operator op.symbol.toList).face =
          (.operator, op.symbol) := by
        rw [Token.spelling, String.ofList_toList]
        rfl
      rw [hsymbol]
      rfl
  exact (hsigned e.signs e.areSigns).2

theorem wellFormed_expr (e : Element) : e.expr.wellFormed false = true := by
  rw [expr]
  induction e.signs with
  | nil => exact e.atom.wellFormed_expr
  | cons op signs ih => rw [List.foldr_cons, Expr.wellFormed, ih]

end Element

/-! ## Rows -/

theorem faces_row (file : String) (first : Element) (more : List Element) :
    (rowTokens file .comma first more).map Token.face =
      itemsText ((first :: more).map Element.expr) := by
  induction more generalizing first with
  | nil =>
    rw [rowTokens, List.flatMap_nil, List.append_nil, first.faces]
    rfl
  | cons next more ih =>
    have hrow : rowTokens file .comma first (next :: more) =
        first.tokens file ++ Separator.comma.token file :: rowTokens file .comma next more := by
      rw [rowTokens, List.flatMap_cons, rowTokens]
      rfl
    rw [hrow, List.map_append, List.map_cons, ih, first.faces]
    rfl

theorem itemsWellFormed_elements (elements : List Element) :
    itemsWellFormed false (elements.map Element.expr) = true := by
  induction elements with
  | nil => rfl
  | cons e elements ih => rw [List.map_cons, itemsWellFormed, e.wellFormed_expr, ih]; rfl

theorem faces_assignment (file : String) (target : Identifier) (around : Enclosure)
    (first : Element) (more : List Element) :
    (assignmentTokens file target around .comma first more).map Token.face =
      (.identifier, target.text) :: (.assignment, "=") ::
        ((around.expr ((first :: more).map Element.expr)).text false ++ [(.semicolon, ";")]) := by
  have hrow := faces_row file first more
  rw [assignmentTokens, List.map_cons, List.map_cons, List.map_cons, List.map_append, hrow]
  cases around with
  | matrix =>
    rw [Enclosure.expr, Expr.text, rowsText, Row.text, List.cons_append, List.append_assoc]
    rfl
  | cell =>
    rw [Enclosure.expr, Expr.text, rowsText, Row.text, List.cons_append, List.append_assoc]
    rfl

theorem placeless_assignment (file : String) (target : Identifier) (around : Enclosure)
    (sep : Separator) (first : Element) (more : List Element) :
    (assignmentTokens file target around sep first more).map Token.placeless =
      (assignmentTokens file target around .comma first more).map Token.placeless := by
  have hrow : (rowTokens file sep first more).map Token.placeless =
      (rowTokens file .comma first more).map Token.placeless := by
    have hcomma : (sep.token file).placeless = (Separator.comma.token file).placeless := by
      cases sep <;> rfl
    rw [rowTokens, rowTokens, List.map_append, List.map_append, List.map_flatMap,
      List.map_flatMap]
    simp only [List.map_cons, hcomma]
  rw [assignmentTokens, assignmentTokens]
  simp only [List.map_cons, List.map_append, hrow]

/-! ## Texts -/

def rowSource (name : String) (settings : Settings) (target : Identifier) (around : Enclosure)
    (sep : Separator) (first : Element) (more : List Element) : SourceText :=
  .ofString name (String.ofList (assignmentChars target around sep first more)) settings

theorem Atom.tab_notMem (a : Atom) : '\t' ∉ a.chars := by
  cases a with
  | name x quotes =>
    rw [chars, List.mem_append, not_or]
    exact ⟨notMem_of_class x.class rfl, fun h => by cases List.eq_of_mem_replicate h⟩
  | number n => exact notMem_of_class n.class rfl
  | literal l => exact l.notMem (.inr rfl)

theorem Element.tab_notMem (e : Element) : '\t' ∉ e.chars := by
  rw [chars, List.mem_append, not_or]
  refine ⟨?_, e.atom.tab_notMem⟩
  rw [signsChars, List.mem_flatMap]
  rintro ⟨op, -, hmem⟩
  cases op <;> revert hmem <;> decide

theorem tab_notMem_row (sep : Separator) (first : Element) (more : List Element) :
    '\t' ∉ rowChars sep first more := by
  rw [rowChars, List.mem_append, not_or]
  refine ⟨first.tab_notMem, ?_⟩
  rw [List.mem_flatMap]
  rintro ⟨e, -, hmem⟩
  obtain hmem | hmem := List.mem_append.1 hmem
  · cases sep <;> revert hmem <;> decide
  · exact e.tab_notMem hmem

theorem text_rowSource (name : String) (settings : Settings) (target : Identifier)
    (around : Enclosure) (sep : Separator) (first : Element) (more : List Element) :
    (rowSource name settings target around sep first more).text.toList =
      assignmentChars target around sep first more := by
  have hmark : target.first ≠ '\ufeff' := ne_of_isAlpha target.letter rfl
  have htab : '\t' ∉ assignmentChars target around sep first more := by
    have htarget : '\t' ∉ target.chars := notMem_of_class target.class rfl
    have hrow := tab_notMem_row sep first more
    rw [assignmentChars]
    cases around <;> simp [htarget, hrow, Enclosure.openChar, Enclosure.closeChar]
  rw [rowSource]
  rw [assignmentChars] at htab ⊢
  exact (congrArg String.toList (text_ofString name settings hmark htab)).trans
    String.toList_ofList

namespace FileUnit

/-- Single blanks between the elements of a row give the same unit, up to places, as commas do:
an assignment of one row of all the elements. -/
theorem ofSource_row (name : String) (settings : Settings) (target : Identifier)
    (around : Enclosure) (first : Element) (more : List Element) :
    ∃ spaced listed,
      ofSource (rowSource name settings target around .blank first more) settings = .ok spaced ∧
      ofSource (rowSource name settings target around .comma first more) settings = .ok listed ∧
      spaced.relocate Location.forget = listed.relocate Location.forget ∧
      ∃ whole site lhs rhs, listed = .script whole [.assign site lhs rhs] [] ∧
        lhs.bare = .identifier blankSite target.text ∧
        rhs.bare = (around.expr ((first :: more).map Element.expr)).bare := by
  have hscan : ∀ sep,
      (Scan.ofSource (rowSource name settings target around sep first more) settings).tokens.map
          Token.unplaced = assignmentTokens name target around sep first more ∧
        (Scan.ofSource (rowSource name settings target around sep first more) settings).failure =
          none := fun sep =>
    Scan.ofState_assignment target around sep first more
      (text_rowSource name settings target around sep first more) name settings.octave
  obtain ⟨htokens, hfailure⟩ := hscan .comma
  obtain ⟨htokens', hfailure'⟩ := hscan .blank
  have hwf : (around.expr ((first :: more).map Element.expr)).wellFormed false = true := by
    have hitems := itemsWellFormed_elements (first :: more)
    rw [List.map_cons] at hitems
    cases around <;> simp [Enclosure.expr, Expr.wellFormed, rowsWellFormed, Row.wellFormed, hitems]
  have hfaces := faces_assignment name target around first more
  rw [← htokens, List.map_map] at hfaces
  obtain ⟨whole, site, lhs, rhs, hunit, hlhs, hrhs⟩ :=
    Parse.ofTokens_assignment name hwf hfaces
  have hlisted : ofSource (rowSource name settings target around .comma first more) settings =
      .ok (.script whole [.assign site lhs rhs] []) := by
    rw [ofSource_eq, hfailure]
    exact hunit
  have hseen : (Scan.ofSource (rowSource name settings target around .blank first more)
      settings).seen =
        (Scan.ofSource (rowSource name settings target around .comma first more)
          settings).seen := by
    have hplaceless := placeless_assignment name target around .blank first more
    rw [← htokens, ← htokens', List.map_map, List.map_map] at hplaceless
    exact congrArg (List.filter fun t => !t.kind.isTrivia) hplaceless
  have hname : (rowSource name settings target around .blank first more).name =
      (rowSource name settings target around .comma first more).name := rfl
  obtain ⟨spaced, hspaced, hsame⟩ := ofSource_placeless hname hfailure' hseen hlisted
  exact ⟨spaced, _, hspaced, hlisted, hsame, whole, site, lhs, rhs, rfl, hlhs, hrhs⟩

def mixedElements : Element × List Element :=
  (⟨[.minus], .name ⟨'y', [], rfl, forall_of_all rfl, by decide⟩ 1, by decide⟩,
    [⟨[], .literal ⟨'\'', ['a', '\'', 'b'], .inl rfl, forall_of_all rfl⟩, by decide⟩,
      ⟨[.not, .plus], .number ⟨[], some ['5'], none, some 'i', forall_of_all rfl,
        by rintro _ ⟨⟩; exact forall_of_all rfl, by decide,
        by rintro _ ⟨⟩; exact List.mem_cons_self⟩, by decide⟩])

example : String.ofList (assignmentChars ⟨'x', [], rfl, forall_of_all rfl, by decide⟩ .cell .blank
    mixedElements.1 mixedElements.2) = "x = \x7b-y' 'a''b' ~+.5i\x7d;" := by decide

end FileUnit

end MFile
