import MFile.Tree.Expr
import MFile.Token.Basic
import MFile.Proofs.Grammar.Runs

/-!
The layout of an expression: what its tree says, in the order of the text, with the brackets that
hold rows and the places where a row ends. Of a run of tokens the same is told without the tree;
row ends that separate no elements say nothing, so they are left out.
-/

namespace MFile

/-- What an expression is written with, up to spelling. -/
inductive Terminal
  | word (text : String)
  | operator (symbol : String)
  | number (text : String)
  | charArray (text : String)
  | string (text : String)
  | keyword (text : String)
  /-- A range's or a lone colon, the dot of a selection, `@` or `?`. -/
  | sign (kind : Kind)
deriving DecidableEq

namespace Terminal

/-- The placeholder `~` is a name to the tree and an operator among the tokens. -/
def ofName (text : String) : Terminal := if text = "~" then .operator "~" else .word text

/-- `!` is read as `~` and `!=` as `~=`. -/
def ofOperator (raw : String) : Terminal :=
  .operator (if raw = "!" then "~" else if raw = "!=" then "~=" else raw)

theorem ofOperator_ofSymbol? {raw : String} {op : BinaryOp}
    (h : BinaryOp.ofSymbol? raw = some op) : ofOperator raw = .operator op.symbol := by
  rw [BinaryOp.ofSymbol?] at h
  rw [ofOperator]
  split at h
  · rename_i hraw
    cases h
    rw [if_neg (by rw [hraw]; decide), if_pos hraw]
    rfl
  · rename_i hraw
    have hsymbol : op.symbol = raw := by simpa using List.find?_some h
    rw [if_neg hraw, if_neg, hsymbol]
    rintro rfl
    cases h

theorem ofOperator_ofSign {raw : String} (h : raw ∈ ["+", "-", "~", "!"]) :
    ofOperator raw = .operator (UnaryOp.ofSign raw).symbol := by
  simp only [List.mem_cons, List.not_mem_nil, or_false] at h
  rcases h with rfl | rfl | rfl | rfl <;> rfl

theorem ofOperator_ofTranspose {raw : String} (h : raw ∈ ["'", ".'"]) :
    ofOperator raw = .operator (UnaryOp.ofTranspose raw).symbol := by
  simp only [List.mem_cons, List.not_mem_nil, or_false] at h
  rcases h with rfl | rfl <;> rfl

end Terminal

inductive Mark
  | opening (kind : Kind)
  | closing (kind : Kind)
  | rowEnd
  | terminal (t : Terminal)
deriving DecidableEq

/-- What stands before the next mark: nothing of its row, something, or something and a row end
that has not been shown yet. -/
inductive Gap
  | start
  | item
  | ended

namespace Gap

def lead : Gap → List Mark
  | ended => [.rowEnd]
  | _ => []

def afterRowEnd : Gap → Gap
  | start => start
  | _ => ended

end Gap

namespace Mark

def terminal? : Mark → Option Terminal
  | terminal t => some t
  | _ => none

/-- Leaves out the row ends right after an opening bracket, right before a closing one, and all
but one of several in a row. -/
def tidy : Gap → List Mark → List Mark
  | _, [] => []
  | gap, opening kind :: ms => gap.lead ++ opening kind :: tidy .start ms
  | _, closing kind :: ms => closing kind :: tidy .item ms
  | gap, rowEnd :: ms => tidy gap.afterRowEnd ms
  | gap, terminal t :: ms => gap.lead ++ terminal t :: tidy .item ms

theorem terminals_tidy (gap : Gap) (ms : List Mark) :
    (tidy gap ms).filterMap terminal? = ms.filterMap terminal? := by
  induction ms generalizing gap with
  | nil => rfl
  | cons m ms ih =>
    cases m <;> cases gap <;> simp [tidy, Gap.lead, List.filterMap_cons, terminal?, ih]

end Mark

namespace Token

/-- What the layout shows of a token. Parentheses and commas are not part of it. -/
def mark? (t : Token) : Option Mark :=
  match t.kind with
  | .lparen | .rparen | .comma => none
  | .lbracket | .lbrace => some (.opening t.kind)
  | .rbracket | .rbrace => some (.closing t.kind)
  | .semicolon | .newline => some .rowEnd
  | .identifier => some (.terminal (.ofName t.raw))
  | .operator => some (.terminal (.ofOperator t.raw))
  | .number => some (.terminal (.number t.raw))
  | .charArray => some (.terminal (.charArray t.value))
  | .string => some (.terminal (.string t.value))
  | .keyword => some (.terminal (.keyword t.raw))
  | kind => some (.terminal (.sign kind))

def terminal? (t : Token) : Option Terminal := t.mark?.bind Mark.terminal?

end Token

mutual

def Expr.layout : Expr → List Mark
  | .name n => n.layout
  | .number _ text => [.terminal (.number text)]
  | .charArray _ text => [.terminal (.charArray text)]
  | .string _ text => [.terminal (.string text)]
  | .unary _ op operand =>
    if op.followsOperand then operand.layout ++ [.terminal (.operator op.symbol)]
    else .terminal (.operator op.symbol) :: operand.layout
  | .binary _ op lhs rhs => lhs.layout ++ .terminal (.operator op.symbol) :: rhs.layout
  | .range _ start none stop => start.layout ++ .terminal (.sign .colon) :: stop.layout
  | .range _ start (some stride) stop =>
    start.layout ++ .terminal (.sign .colon) :: stride.layout ++
      .terminal (.sign .colon) :: stop.layout
  | .reshape _ => [.terminal (.sign .colon)]
  | .last _ => [.terminal (.keyword "end")]
  | .matrix _ rows => .opening .lbracket :: layoutRows rows ++ [.closing .rbracket]
  | .cell _ rows => .opening .lbrace :: layoutRows rows ++ [.closing .rbrace]
  | .lambda _ params body => .terminal (.sign .handle) :: layoutNames params ++ body.layout
  | .functionHandle _ n => .terminal (.sign .handle) :: n.layout
  | .metaclass _ n => .terminal (.sign .metaclass) :: n.layout

def Name.layout : Name → List Mark
  | .identifier _ text => [.terminal (.ofName text)]
  | .reference _ base args => base.layout ++ layoutAll args
  | .cellReference _ base args =>
    base.layout ++ (.opening .lbrace :: layoutAll args ++ [.closing .rbrace])
  | .selection _ base field =>
    base.layout ++ [.terminal (.sign .selection), .terminal (.ofName field)]
  | .dynamicSelection _ base field => base.layout ++ .terminal (.sign .selection) :: field.layout
  | .superclass _ method parent => method.layout ++ .terminal (.sign .handle) :: parent.layout

def Row.layout : Row → List Mark
  | ⟨_, items⟩ => layoutAll items

def layoutAll : List Expr → List Mark
  | [] => []
  | e :: es => e.layout ++ layoutAll es

def layoutNames : List Name → List Mark
  | [] => []
  | n :: ns => n.layout ++ layoutNames ns

def layoutRows : List Row → List Mark
  | [] => []
  | [row] => row.layout
  | row :: next :: rows => row.layout ++ .rowEnd :: layoutRows (next :: rows)

end

theorem layoutAll_append (es es' : List Expr) :
    layoutAll (es ++ es') = layoutAll es ++ layoutAll es' := by
  induction es with
  | nil => rfl
  | cons e es ih => rw [List.cons_append, layoutAll, layoutAll, ih, List.append_assoc]

theorem layoutNames_append (ns ns' : List Name) :
    layoutNames (ns ++ ns') = layoutNames ns ++ layoutNames ns' := by
  induction ns with
  | nil => rfl
  | cons n ns ih => rw [List.cons_append, layoutNames, layoutNames, ih, List.append_assoc]

def Gap.afterRows : List Row → Gap
  | [] => start
  | _ :: _ => ended

theorem layoutRows_append (rows : List Row) (row : Row) :
    layoutRows (rows ++ [row]) = layoutRows rows ++ ((Gap.afterRows rows).lead ++ row.layout) := by
  induction rows with
  | nil => rfl
  | cons first rows ih =>
    cases rows with
    | nil => rfl
    | cons next rows =>
      rw [List.cons_append, List.cons_append, layoutRows, ← List.cons_append, ih, layoutRows,
        List.append_assoc, List.cons_append]
      rfl

/-- The terminals of an expression from left to right. -/
def Expr.yield (e : Expr) : List Terminal := e.layout.filterMap Mark.terminal?

end MFile

/-!
## Runs

What the tokens of a run show, and how runs are put together. What a row end shows depends on
what stands around it, so a run is given the gap before it and leaves another one behind.
-/

namespace MFile.Grammar

/-- After `gap`, the run shows as `shown` and leaves `gap'`. -/
def Turns (gap : Gap) (run : List Token) (shown : List Mark) (gap' : Gap) : Prop :=
  ∀ ms, Mark.tidy gap (run.filterMap Token.mark? ++ ms) = shown ++ Mark.tidy gap' ms

namespace Turns

variable {gap gap' gap'' : Gap} {run run' : List Token} {shown shown' : List Mark} {t : Token}

theorem refl (gap : Gap) : Turns gap [] [] gap := fun _ => rfl

theorem trans (h : Turns gap run shown gap') (h' : Turns gap' run' shown' gap'') :
    Turns gap (run ++ run') (shown ++ shown') gap'' := by
  intro ms
  rw [List.filterMap_append, List.append_assoc, h, h', List.append_assoc]

theorem silent (gap : Gap) (h : t.mark? = none) : Turns gap [t] [] gap := by
  intro ms
  rw [List.filterMap_cons_none h]
  rfl

theorem opening (gap : Gap) {kind : Kind} (h : t.mark? = some (.opening kind)) :
    Turns gap [t] (gap.lead ++ [.opening kind]) .start := by
  intro ms
  rw [List.filterMap_cons_some h, List.append_assoc]
  exact Mark.tidy.eq_2 ..

theorem closing (gap : Gap) {kind : Kind} (h : t.mark? = some (.closing kind)) :
    Turns gap [t] [.closing kind] .item := by
  intro ms
  rw [List.filterMap_cons_some h]
  cases gap <;> rfl

theorem rowEnd (gap : Gap) (h : t.mark? = some .rowEnd) : Turns gap [t] [] gap.afterRowEnd := by
  intro ms
  rw [List.filterMap_cons_some h]
  cases gap <;> rfl

theorem terminal (gap : Gap) {x : Terminal} (h : t.mark? = some (.terminal x)) :
    Turns gap [t] (gap.lead ++ [.terminal x]) .item := by
  intro ms
  rw [List.filterMap_cons_some h, List.append_assoc]
  cases gap <;> rfl

end Turns

def Shows (gap : Gap) (st : State) (shown : List Mark) (gap' : Gap) (st' : State) : Prop :=
  ∃ run, st.Passes run st' ∧ Turns gap run shown gap'

/-- The tokens passed between two states show as `shown` whatever stands before them. -/
def Covers (st : State) (shown : List Mark) (st' : State) : Prop :=
  ∃ run, st.Passes run st' ∧ ∀ gap, Turns gap run (gap.lead ++ shown) .item

section

variable {st mid st' : State} {gap gap' gap'' : Gap} {shown shown' : List Mark} {t : Token}

theorem Shows.trans (h : Shows gap st shown gap' mid) (h' : Shows gap' mid shown' gap'' st') :
    Shows gap st (shown ++ shown') gap'' st' := by
  obtain ⟨run, hpass, hturns⟩ := h
  obtain ⟨run', hpass', hturns'⟩ := h'
  exact ⟨run ++ run', hpass.trans hpass', hturns.trans hturns'⟩

theorem Shows.fresh (h : Shows gap st shown gap' mid) (h' : mid.Passes [] st') :
    Shows gap st shown gap' st' := by
  obtain ⟨run, hpass, hturns⟩ := h
  exact ⟨run ++ [], hpass.trans h', by rwa [List.append_nil]⟩

theorem Shows.silent (gap : Gap) (h : st.Passes [t] st') (ht : t.mark? = none) :
    Shows gap st [] gap st' :=
  ⟨[t], h, .silent gap ht⟩

namespace Covers

theorem shows (h : Covers st shown st') (gap : Gap) :
    Shows gap st (gap.lead ++ shown) .item st' := by
  obtain ⟨run, hpass, hturns⟩ := h
  exact ⟨run, hpass, hturns gap⟩

theorem next (h : Covers st shown mid) (h' : Shows .item mid shown' .item st') :
    Covers st (shown ++ shown') st' := by
  obtain ⟨run, hpass, hturns⟩ := h
  obtain ⟨run', hpass', hturns'⟩ := h'
  refine ⟨run ++ run', hpass.trans hpass', fun gap => ?_⟩
  have hboth := (hturns gap).trans hturns'
  rwa [List.append_assoc] at hboth

theorem append (h : Covers st shown mid) (h' : Covers mid shown' st') :
    Covers st (shown ++ shown') st' :=
  h.next (h'.shows .item)

theorem after (h : Covers mid shown st') (h' : st.Passes [] mid) : Covers st shown st' := by
  obtain ⟨run, hpass, hturns⟩ := h
  exact ⟨[] ++ run, h'.trans hpass, hturns⟩

theorem fresh (h : Covers st shown mid) (h' : mid.Passes [] st') : Covers st shown st' := by
  obtain ⟨run, hpass, hturns⟩ := h
  exact ⟨run ++ [], hpass.trans h', by rwa [List.append_nil]⟩

theorem terminal {x : Terminal} (h : st.Passes [t] st') (ht : t.mark? = some (.terminal x)) :
    Covers st [.terminal x] st' :=
  ⟨[t], h, fun gap => .terminal gap ht⟩

theorem after_silent (h : st.Passes [t] mid) (ht : t.mark? = none) (h' : Covers mid shown st') :
    Covers st shown st' := by
  obtain ⟨run, hpass, hturns⟩ := h'
  exact ⟨[t] ++ run, h.trans hpass, fun gap => (Turns.silent gap ht).trans (hturns gap)⟩

theorem before_silent (h : Covers st shown mid) (h' : mid.Passes [t] st') (ht : t.mark? = none) :
    Covers st shown st' := by
  have hnext := h.next (Shows.silent .item h' ht)
  rwa [List.append_nil] at hnext

theorem bracketed {opener closer : Token} {first last : State} {k k' : Kind}
    (hopen : st.Passes [opener] first) (ho : opener.mark? = some (.opening k))
    (h : Shows .start first shown gap last) (hclose : last.Passes [closer] st')
    (hc : closer.mark? = some (.closing k')) :
    Covers st (.opening k :: shown ++ [.closing k']) st' := by
  obtain ⟨run, hpass, hturns⟩ := h
  refine ⟨[opener] ++ run ++ [closer], (hopen.trans hpass).trans hclose, fun g => ?_⟩
  have hall := ((Turns.opening g ho).trans hturns).trans (Turns.closing gap hc)
  simpa only [List.append_assoc, List.cons_append, List.nil_append] using hall

end Covers

end

namespace Parse

variable {inner : Parse Expr} {st st' : State}

/-- Whenever `p` ends well, the tokens it has passed have the layout of what it gives. -/
def Sound {α : Type} (p : Parse α) (layout : α → List Mark) : Prop :=
  ∀ ⦃st a st'⦄, p st = .ok a st' → Covers st (layout a) st'

theorem Sound.outsideIndex {α : Type} {p : Parse α} {layout : α → List Mark}
    (hp : Sound p layout) : Sound (outsideIndex p) layout := by
  intro st a st' h
  obtain ⟨mid, hrun, rfl⟩ := outsideIndex_ok h
  obtain ⟨run, hpass, hturns⟩ := hp hrun
  exact ⟨run, ⟨hpass.ahead, hpass.behind⟩, hturns⟩

end Parse

end MFile.Grammar
