import MFile.Tree.Expr
import MFile.Token.Basic

/-!
Expressions written out as tokens. An operand is enclosed in parentheses if it is looser than its
place allows; the levels are those of the grammar, with lambdas looser than all of them. Which
trees can be written at all is said by `wellFormed`.
-/

namespace MFile

/-- What a written token has to say: its kind, and its text without delimiters. -/
abbrev Face := Kind × String

def Token.face (t : Token) : Face := (t.kind, t.value)

section

variable {t : Token} {kind : Kind} {s : String}

theorem kind_of_face (h : t.face = (kind, s)) : t.kind = kind := congrArg Prod.fst h

theorem value_of_face (h : t.face = (kind, s)) : t.value = s := congrArg Prod.snd h

end

/-! ## Levels -/

namespace BinaryOp

def level : BinaryOp → Nat
  | power | elemPower => 2
  | mul | elemMul | div | elemDiv | leftDiv | elemLeftDiv => 5
  | add | sub => 6
  | eq | ne | lt | le | gt | ge => 8
  | elemAnd => 9
  | elemOr => 10
  | shortAnd => 11
  | shortOr => 12

/-- Operators associate to the left, so the right operand is tighter. That of a power may begin
with signs. -/
def rightLevel (op : BinaryOp) : Nat := if op.level = 2 then 3 else op.level - 1

end BinaryOp

def Expr.level : Expr → Nat
  | .unary _ op _ => if op.followsOperand then 2 else 4
  | .binary _ op _ _ => op.level
  | .range .. => 7
  | .lambda .. => 13
  | _ => 1

/-- Level 3 is the right side of a power: an operand, or signs before one. -/
def fits (allowed level : Nat) : Bool :=
  if allowed = 3 then level == 1 || level == 4 else level ≤ allowed

def enclose (allowed level : Nat) (text : List Face) : List Face :=
  if fits allowed level then text else (.lparen, "(") :: text ++ [(.rparen, ")")]

/-! ## Texts -/

def Name.parameterFace : Name → Face
  | .identifier _ text => (if text = "~" then .operator else .identifier, text)
  | _ => (.identifier, "")

def parametersText : List Name → List Face
  | [] => []
  | [n] => [n.parameterFace]
  | n :: next :: ns => n.parameterFace :: (.comma, ",") :: parametersText (next :: ns)

mutual

/-- The tokens of an expression, not enclosed itself; on the right side of a power or not. -/
def Expr.text (inPower : Bool) : Expr → List Face
  | .name n => n.text
  | .number _ text => [(.number, text)]
  | .charArray _ text => [(.charArray, text)]
  | .string _ text => [(.string, text)]
  | .unary _ op operand =>
    if op.followsOperand then
      enclose 2 operand.level (operand.text false) ++ [(.operator, op.symbol)]
    else
      let allowed := if inPower then 3 else 4
      (.operator, op.symbol) :: enclose allowed operand.level (operand.text (allowed == 3))
  | .binary _ op lhs rhs =>
    enclose op.level lhs.level (lhs.text (op.level == 3)) ++
      (.operator, op.symbol) :: enclose op.rightLevel rhs.level (rhs.text (op.rightLevel == 3))
  | .range _ start none stop =>
    enclose 6 start.level (start.text false) ++
      (.colon, ":") :: enclose 6 stop.level (stop.text false)
  | .range _ start (some stride) stop =>
    enclose 6 start.level (start.text false) ++
      (.colon, ":") :: (enclose 6 stride.level (stride.text false) ++
        (.colon, ":") :: enclose 6 stop.level (stop.text false))
  | .reshape _ => [(.colon, ":")]
  | .last _ => [(.keyword, "end")]
  | .matrix _ rows => (.lbracket, "[") :: (rowsText rows ++ [(.rbracket, "]")])
  | .cell _ rows => (.lbrace, "\x7b") :: (rowsText rows ++ [(.rbrace, "\x7d")])
  | .lambda _ params body =>
    (.handle, "@") :: (.lparen, "(") :: (parametersText params ++ (.rparen, ")") :: body.text false)
  | .functionHandle _ n => (.handle, "@") :: n.text
  | .metaclass _ n => (.metaclass, "?") :: n.text

def Name.text : Name → List Face
  | .identifier _ text => [(.identifier, text)]
  | .reference _ base args => base.text ++ (.lparen, "(") :: (itemsText args ++ [(.rparen, ")")])
  | .cellReference _ base args =>
    base.text ++ (.lbrace, "\x7b") :: (itemsText args ++ [(.rbrace, "\x7d")])
  | .selection _ base field => base.text ++ [(.selection, "."), (.identifier, field)]
  | .dynamicSelection _ base field =>
    base.text ++ (.selection, ".") :: (.lparen, "(") :: (field.text false ++ [(.rparen, ")")])
  | .superclass _ method parent => method.text ++ (.handle, "@") :: parent.text

def Row.text : Row → List Face
  | ⟨_, items⟩ => itemsText items

def itemsText : List Expr → List Face
  | [] => []
  | [e] => e.text false
  | e :: next :: es => e.text false ++ (.comma, ",") :: itemsText (next :: es)

def rowsText : List Row → List Face
  | [] => []
  | [row] => row.text
  | row :: next :: rows => row.text ++ (.semicolon, ";") :: rowsText (next :: rows)

end

/-- An expression where operators up to the level `allowed` may stand without parentheses. -/
def Expr.written (allowed : Nat) (e : Expr) : List Face :=
  enclose allowed e.level (e.text (allowed == 3))

theorem length_items_lt {n : Nat} {e next : Expr} {es : List Expr}
    (h : (itemsText (e :: next :: es)).length < n) :
    (e.text false).length < n ∧ (itemsText (next :: es)).length < n := by
  rw [itemsText, List.length_append, List.length_cons] at h
  omega

theorem fits_of_le {allowed level : Nat} (h : level ≤ allowed) (h₃ : allowed ≠ 3) :
    fits allowed level = true := by
  rw [fits, if_neg h₃]
  exact decide_eq_true h

theorem fits_eq_false {allowed level : Nat} (h : allowed < level) (h₃ : allowed ≠ 3) :
    fits allowed level = false := by
  rw [fits, if_neg h₃]
  exact decide_eq_false (Nat.not_le.2 h)

namespace Expr

theorem level_bounds (e : Expr) : 1 ≤ e.level ∧ e.level ≠ 3 ∧ e.level ≤ 13 := by
  cases e with
  | unary _ op _ => cases op <;> simp [level, UnaryOp.followsOperand]
  | binary _ op _ _ => cases op <;> simp [level, BinaryOp.level]
  | _ => simp [level]

theorem text_eq {e : Expr} (h : e.level ≠ 4) (inPower : Bool) : e.text inPower = e.text false := by
  cases e with
  | unary _ op _ => cases op <;> first | rfl | exact absurd rfl h
  | range _ _ stride _ => cases stride <;> rfl
  | _ => rfl

theorem written_of_fits {e : Expr} {allowed : Nat} (h : fits allowed e.level = true) :
    e.written allowed = e.text (allowed == 3) := by
  rw [written, enclose, if_pos h]

theorem written_of_not_fits {e : Expr} {allowed : Nat} (h : fits allowed e.level = false) :
    e.written allowed = (.lparen, "(") :: (e.text false ++ [(.rparen, ")")]) := by
  rw [written, enclose, if_neg (by rw [h]; decide)]
  by_cases h₃ : allowed = 3
  · have hlevel : e.level ≠ 4 := by
      intro hlevel
      rw [hlevel, h₃] at h
      cases h
    rw [text_eq hlevel, List.cons_append]
  · rw [beq_eq_false_iff_ne.2 h₃, List.cons_append]

theorem written_pred {e : Expr} {allowed : Nat} (hlevel : e.level ≠ allowed) (h₃ : allowed ≠ 3)
    (h₄ : allowed - 1 ≠ 3) : e.written allowed = e.written (allowed - 1) := by
  by_cases hle : e.level ≤ allowed
  · rw [written_of_fits (fits_of_le hle h₃), written_of_fits (fits_of_le (by omega) h₄),
      beq_eq_false_iff_ne.2 h₃, beq_eq_false_iff_ne.2 h₄]
  · rw [written_of_not_fits (fits_eq_false (by omega) h₃),
      written_of_not_fits (fits_eq_false (by omega) h₄)]

theorem text_signed {op : UnaryOp} (hop : op.followsOperand = false) (s : Site) (operand : Expr)
    (inPower : Bool) :
    (unary s op operand).text inPower =
      (.operator, op.symbol) :: operand.written (if inPower then 3 else 4) := by
  rw [text, if_neg (by rw [hop]; decide)]
  rfl

theorem written_top (e : Expr) : e.written 13 = e.text false :=
  written_of_fits (fits_of_le e.level_bounds.2.2 (by decide))

end Expr

/-! ## First tokens -/

def starts : Kind → Bool
  | .identifier | .keyword | .number | .charArray | .string | .operator | .colon | .lparen
  | .lbracket | .lbrace | .handle | .metaclass => true
  | _ => false

def Begins (tight : Prop) (text : List Face) : Prop :=
  ∃ f fs, text = f :: fs ∧ starts f.1 = true ∧ (tight → f.1 ≠ .operator)

theorem Begins.mono {tight tight' : Prop} {text : List Face} (h : Begins tight text)
    (htight : tight' → tight) : Begins tight' text := by
  obtain ⟨f, fs, htext, hstarts, hoperator⟩ := h
  exact ⟨f, fs, htext, hstarts, fun h' => hoperator (htight h')⟩

theorem Begins.append {tight : Prop} {text : List Face} (h : Begins tight text)
    (more : List Face) : Begins tight (text ++ more) := by
  obtain ⟨f, fs, rfl, hf⟩ := h
  exact ⟨f, fs ++ more, rfl, hf⟩

theorem begins_enclose (allowed : Nat) {level : Nat} {text : List Face}
    (h : Begins (level ≤ 2) text) : Begins (allowed ≤ 2) (enclose allowed level text) := by
  rw [enclose]
  split
  · rename_i hfits
    obtain ⟨f, fs, rfl, hstarts, htight⟩ := h
    refine ⟨f, fs, rfl, hstarts, fun hallowed => htight ?_⟩
    rw [fits, if_neg (by omega), decide_eq_true_iff] at hfits
    omega
  · exact ⟨_, _, rfl, rfl, fun _ => by decide⟩

theorem Name.text_head : ∀ n : Name, ∃ s fs, n.text = (.identifier, s) :: fs
  | .identifier _ text => ⟨text, [], rfl⟩
  | .reference _ base _ | .cellReference _ base _ | .selection _ base _
  | .dynamicSelection _ base _ | .superclass _ base _ => by
    obtain ⟨s, fs, h⟩ := base.text_head
    rw [Name.text, h, List.cons_append]
    exact ⟨s, _, rfl⟩

theorem Expr.begins_text : ∀ (e : Expr) (inPower : Bool), Begins (e.level ≤ 2) (e.text inPower)
  | .name n, _ => by
    obtain ⟨s, fs, h⟩ := n.text_head
    exact ⟨_, fs, h, rfl, fun _ => by simp⟩
  | .unary _ op operand, inPower => by
    have hoperand := begins_enclose 2 (operand.begins_text false)
    rw [Expr.text, Expr.level]
    split
    · obtain ⟨f, fs, htext, hf⟩ := hoperand.append [(.operator, op.symbol)]
      exact ⟨f, fs, htext, hf⟩
    · exact ⟨_, _, rfl, rfl, fun h => absurd h (by decide)⟩
  | .binary _ op lhs rhs, _ =>
    (begins_enclose op.level (lhs.begins_text (op.level == 3))).append _
  | .range _ start none stop, _ =>
    ((begins_enclose 6 (start.begins_text false)).append _).mono fun h =>
      absurd (show 7 ≤ 2 from h) (by decide)
  | .range _ start (some stride) stop, _ =>
    ((begins_enclose 6 (start.begins_text false)).append _).mono fun h =>
      absurd (show 7 ≤ 2 from h) (by decide)
  | .number .., _ | .charArray .., _ | .string .., _ | .reshape _, _ | .last _, _
  | .matrix .., _ | .cell .., _ | .lambda .., _ | .functionHandle .., _ | .metaclass .., _ =>
    ⟨_, _, rfl, rfl, fun _ => by simp⟩

/-! ## Trees that can be written -/

def Name.isIdentifier : Name → Bool
  | .identifier .. => true
  | _ => false

def Name.isSuperclass : Name → Bool
  | .superclass .. => true
  | _ => false

def Name.isDotted : Name → Bool
  | .identifier .. => true
  | .selection _ base _ => base.isDotted
  | _ => false

mutual

/-- A superclass reference is one method's name and has no suffixes of its own; rows have
elements; `end` stands in an argument list, with no lambda body or dynamic field in between, and a
lone colon is a whole argument. -/
def Expr.wellFormed (inIndex : Bool) : Expr → Bool
  | .name n => n.wellFormed
  | .number .. | .charArray .. | .string .. => true
  | .unary _ _ operand => operand.wellFormed inIndex
  | .binary _ _ lhs rhs => lhs.wellFormed inIndex && rhs.wellFormed inIndex
  | .range _ start none stop => start.wellFormed inIndex && stop.wellFormed inIndex
  | .range _ start (some stride) stop =>
    start.wellFormed inIndex && stride.wellFormed inIndex && stop.wellFormed inIndex
  | .reshape _ => false
  | .last _ => inIndex
  | .matrix _ rows | .cell _ rows => rowsWellFormed inIndex rows
  | .lambda _ params body => params.all Name.isIdentifier && body.wellFormed false
  | .functionHandle _ n | .metaclass _ n => n.isDotted

def Name.wellFormed : Name → Bool
  | .identifier .. => true
  | .reference _ base args | .cellReference _ base args =>
    !base.isSuperclass && base.wellFormed && argumentsWellFormed args
  | .selection _ base _ => !base.isSuperclass && base.wellFormed
  | .dynamicSelection _ base field =>
    !base.isSuperclass && base.wellFormed && field.wellFormed false
  | .superclass _ method parent => method.isIdentifier && parent.wellFormed

def Row.wellFormed (inIndex : Bool) : Row → Bool
  | ⟨_, items⟩ => !items.isEmpty && itemsWellFormed inIndex items

def argumentsWellFormed : List Expr → Bool
  | [] => true
  | .reshape _ :: es => argumentsWellFormed es
  | e :: es => e.wellFormed true && argumentsWellFormed es

def itemsWellFormed (inIndex : Bool) : List Expr → Bool
  | [] => true
  | e :: es => e.wellFormed inIndex && itemsWellFormed inIndex es

def rowsWellFormed (inIndex : Bool) : List Row → Bool
  | [] => true
  | row :: rows => row.wellFormed inIndex && rowsWellFormed inIndex rows

end

/-! ## Trees without numbers and places -/

def blankSite : Site := ⟨0, ⟨"", .file, none⟩⟩

mutual

def Expr.bare : Expr → Expr
  | .name n => .name n.bare
  | .number _ text => .number blankSite text
  | .charArray _ text => .charArray blankSite text
  | .string _ text => .string blankSite text
  | .unary _ op operand => .unary blankSite op operand.bare
  | .binary _ op lhs rhs => .binary blankSite op lhs.bare rhs.bare
  | .range _ start none stop => .range blankSite start.bare none stop.bare
  | .range _ start (some stride) stop => .range blankSite start.bare (some stride.bare) stop.bare
  | .reshape _ => .reshape blankSite
  | .last _ => .last blankSite
  | .matrix _ rows => .matrix blankSite (bareRows rows)
  | .cell _ rows => .cell blankSite (bareRows rows)
  | .lambda _ params body => .lambda blankSite (bareNames params) body.bare
  | .functionHandle _ n => .functionHandle blankSite n.bare
  | .metaclass _ n => .metaclass blankSite n.bare

def Name.bare : Name → Name
  | .identifier _ text => .identifier blankSite text
  | .reference _ base args => .reference blankSite base.bare (bareAll args)
  | .cellReference _ base args => .cellReference blankSite base.bare (bareAll args)
  | .selection _ base field => .selection blankSite base.bare field
  | .dynamicSelection _ base field => .dynamicSelection blankSite base.bare field.bare
  | .superclass _ method parent => .superclass blankSite method.bare parent.bare

def Row.bare : Row → Row
  | ⟨_, items⟩ => ⟨blankSite, bareAll items⟩

def bareAll : List Expr → List Expr
  | [] => []
  | e :: es => e.bare :: bareAll es

def bareNames : List Name → List Name
  | [] => []
  | n :: ns => n.bare :: bareNames ns

def bareRows : List Row → List Row
  | [] => []
  | row :: rows => row.bare :: bareRows rows

end

theorem bareAll_eq_map (es : List Expr) : bareAll es = es.map Expr.bare := by
  induction es with
  | nil => rfl
  | cons e es ih => rw [bareAll, ih, List.map_cons]

theorem bareNames_eq_map (ns : List Name) : bareNames ns = ns.map Name.bare := by
  induction ns with
  | nil => rfl
  | cons n ns ih => rw [bareNames, ih, List.map_cons]

theorem bareRows_eq_map (rows : List Row) : bareRows rows = rows.map Row.bare := by
  induction rows with
  | nil => rfl
  | cons row rows ih => rw [bareRows, ih, List.map_cons]

theorem bareAll_concat {e e' : Expr} (h : e'.bare = e.bare) (es more : List Expr) :
    bareAll (es ++ [e'] ++ more) = bareAll (es ++ e :: more) := by
  simp only [bareAll_eq_map, List.map_append, List.map_cons, List.append_assoc,
    List.cons_append, List.nil_append, h]

theorem bareNames_concat {x x' : Name} (h : x'.bare = x.bare) (xs more : List Name) :
    bareNames (xs ++ [x'] ++ more) = bareNames (xs ++ x :: more) := by
  simp only [bareNames_eq_map, List.map_append, List.map_cons, List.append_assoc,
    List.cons_append, List.nil_append, h]

/-! ## Tokens that the grammar sees -/

def seen (kind : Kind) : Bool := !kind.isTrivia && kind != .newline

def Visible (text : List Face) : Prop := ∀ f ∈ text, seen f.1 = true

theorem visible_nil : Visible [] := nofun

theorem Visible.cons {f : Face} {text : List Face} (hf : seen f.1 = true) (h : Visible text) :
    Visible (f :: text) :=
  List.forall_mem_cons.2 ⟨hf, h⟩

theorem Visible.append {text text' : List Face} (h : Visible text) (h' : Visible text') :
    Visible (text ++ text') :=
  List.forall_mem_append.2 ⟨h, h'⟩

theorem Visible.enclose {text : List Face} (h : Visible text) (allowed level : Nat) :
    Visible (enclose allowed level text) := by
  rw [MFile.enclose]
  split
  · exact h
  · exact .cons rfl (h.append (.cons rfl visible_nil))

theorem visible_parameters (params : List Name) : Visible (parametersText params) := by
  have hface : ∀ n : Name, seen n.parameterFace.1 = true := by
    intro n
    cases n with
    | identifier _ text =>
      rw [Name.parameterFace]
      split <;> rfl
    | _ => rfl
  induction params with
  | nil => exact visible_nil
  | cons n params ih =>
    cases params with
    | nil => exact .cons (hface n) visible_nil
    | cons next params => exact .cons (hface n) (.cons rfl ih)

mutual

theorem Expr.visible_text : ∀ (e : Expr) (inPower : Bool), Visible (e.text inPower)
  | .name n, _ => n.visible_text
  | .number .., _ | .charArray .., _ | .string .., _ | .reshape _, _ | .last _, _ =>
    .cons rfl visible_nil
  | .unary _ op operand, inPower => by
    rw [Expr.text]
    split
    · exact ((operand.visible_text false).enclose _ _).append (.cons rfl visible_nil)
    · exact .cons rfl ((operand.visible_text _).enclose _ _)
  | .binary _ op lhs rhs, _ =>
    ((lhs.visible_text _).enclose _ _).append
      (.cons rfl ((rhs.visible_text _).enclose _ _))
  | .range _ start none stop, _ =>
    ((start.visible_text false).enclose _ _).append
      (.cons rfl ((stop.visible_text false).enclose _ _))
  | .range _ start (some stride) stop, _ =>
    ((start.visible_text false).enclose _ _).append
      (.cons rfl (((stride.visible_text false).enclose _ _).append
        (.cons rfl ((stop.visible_text false).enclose _ _))))
  | .matrix _ rows, _ | .cell _ rows, _ =>
    .cons rfl ((visible_rows rows).append (.cons rfl visible_nil))
  | .lambda _ params body, _ =>
    .cons rfl (.cons rfl ((visible_parameters params).append
      (.cons rfl (body.visible_text false))))
  | .functionHandle _ n, _ | .metaclass _ n, _ => .cons rfl n.visible_text

theorem Name.visible_text : ∀ n : Name, Visible n.text
  | .identifier _ _ => .cons rfl visible_nil
  | .reference _ base args | .cellReference _ base args =>
    base.visible_text.append
      (.cons rfl ((visible_items args).append (.cons rfl visible_nil)))
  | .selection _ base _ =>
    base.visible_text.append (.cons rfl (.cons rfl visible_nil))
  | .dynamicSelection _ base field =>
    base.visible_text.append (.cons rfl (.cons rfl
      ((field.visible_text false).append (.cons rfl visible_nil))))
  | .superclass _ method parent =>
    method.visible_text.append (.cons rfl parent.visible_text)

theorem Row.visible_text : ∀ row : Row, Visible row.text
  | ⟨_, items⟩ => visible_items items

theorem visible_items : ∀ es : List Expr, Visible (itemsText es)
  | [] => visible_nil
  | [e] => e.visible_text false
  | e :: next :: es => (e.visible_text false).append (.cons rfl (visible_items (next :: es)))

theorem visible_rows : ∀ rows : List Row, Visible (rowsText rows)
  | [] => visible_nil
  | [row] => row.visible_text
  | row :: next :: rows => row.visible_text.append (.cons rfl (visible_rows (next :: rows)))

end

end MFile
