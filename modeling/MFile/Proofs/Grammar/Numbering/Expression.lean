import MFile.Proofs.Grammar.Outcomes
import MFile.Proofs.Tree.Numbering

/-! Every node of an expression is numbered after what is below it, and no number is left out. -/

namespace MFile.Grammar.Parse

variable {α β : Type} {m : Nat} {s : State} {t : Token} {inner p : Parse Expr}

def Numbered (p : Parse α) (w : α → List Node) : Prop :=
  ∀ s, Meets false p s fun a s' => Numbers s.nodes s'.nodes 0 (w a)

def NumbersOn (body : α → Parse (Round α β)) (v : α → List Node) (w : β → List Node) : Prop :=
  ∀ a m s, Numbers m s.nodes 0 (v a) → Meets false (body a) s
    (Leaves (fun a' s' => Numbers m s'.nodes 0 (v a')) fun b s' => Numbers m s'.nodes 0 (w b))

abbrev NumberedExpr (p : Parse Expr) : Prop := Numbered p fun e => [.expr e]

abbrev NumberedName (p : Parse Name) : Prop := Numbered p fun n => [.name n]

theorem Numbered.bind {p : Parse α} {f : α → Parse β} {w : α → List Node}
    {Q : β → State → Prop} (h : Numbered p w)
    (hf : ∀ a mid, Numbers s.nodes mid.nodes 0 (w a) → Meets false (f a) mid Q) :
    Meets false (p >>= f) s Q :=
  (h s).bind hf

theorem NumbersOn.rounds {body : α → Parse (Round α β)} {v : α → List Node} {w : β → List Node}
    (h : NumbersOn body v w) {a : α} (ha : Numbers m s.nodes 0 (v a)) :
    Meets false (Parse.rounds a body) s fun b s' => Numbers m s'.nodes 0 (w b) :=
  .rounds (I := fun a st => Numbers m st.nodes 0 (v a)) ha fun a st => h a m st

/-! ## Names -/

theorem numbered_identifierOf (t : Token) : NumberedName (identifierOf t) :=
  fun _ => .siteAt (.pure (.leaf rfl rfl rfl))

theorem numbered_identifier : NumberedName identifier :=
  fun _ => .expect fun _ _ _ _ => .siteAt (.pure (.leaf rfl rfl rfl))

theorem numbered_placeholderOf (t : Token) : NumberedName (placeholderOf t) :=
  fun _ => .siteAt (.pure (.leaf rfl rfl rfl))

theorem numbered_dottedName : NumberedName dottedName := by
  have hround : NumbersOn dottedRound (fun n => [.name n]) fun n => [.name n] := by
    refine fun n m s hn => .check fun dot hdot => .peekKind? ?_
    split
    · rename_i h
      obtain ⟨t, rest, hahead, -⟩ := hdot (Bool.and_eq_true_iff.1 h).1
      exact .advance hahead (.expect fun field _ _ _ => .siteBetween (.pure (hn.close rfl rfl rfl)))
    · exact .pure hn
  exact fun s => numbered_identifier.bind fun first mid hfirst => hround.rounds hfirst

theorem numbered_parameters : Numbered parameters fun ns => ns.map .name := by
  have hround : NumbersOn parametersRound (fun ns => ns.map Node.name) fun ns => ns.map .name := by
    refine fun ns m s hns => .current? (fun _ => .unexpected) fun t rest hahead => ?_
    have hadd : ∀ {p : Parse Name} {st : State}, NumberedName p → st.nodes = s.nodes → Meets false
        (do return (.again (ns ++ [← p]) : Round (List Name) (List Name))) st
        (Leaves (fun ns' s' => Numbers m s'.nodes 0 (ns'.map Node.name))
          fun ns' s' => Numbers m s'.nodes 0 (ns'.map Node.name)) := by
      intro p st hp hst
      refine hp.bind fun n mid hn => .pure ?_
      rw [hst] at hn
      change Numbers m mid.nodes 0 _
      rw [List.map_append]
      exact hns.append hn
    dsimp only
    split
    · exact .advance hahead (.pure hns)
    · exact .advance hahead (.pure hns)
    · exact hadd numbered_identifier rfl
    · split
      · exact .advance hahead (hadd (numbered_placeholderOf t) rfl)
      · exact .unexpected
    · exact .unexpected
  exact fun s => hround.rounds (.nil s.nodes)

/-! ## Arguments and rows -/

section Inner

variable (hinner : NumberedExpr inner)

include hinner

theorem numbered_argumentsInside (close : Kind) :
    Numbered (argumentsInside inner close) fun es => es.map .expr := by
  have hround : NumbersOn (argumentsRound inner close) (fun es => es.map Node.expr)
      fun es => es.map .expr := by
    refine fun es m s hes => hinner.bind fun e mid he => ?_
    have hadded : Numbers m mid.nodes 0 ((es ++ [e]).map .expr) := by
      rw [List.map_append]
      exact hes.append he
    refine .eat (fun _ _ _ _ => .pure hadded) (.eat (fun _ _ _ _ => .pure hadded) .unexpected)
  exact fun s => .eat (fun _ _ _ _ => .pure (.nil s.nodes)) (hround.rounds (.nil s.nodes))

theorem numbered_arguments {close : Kind} {rest : List Token} (hahead : s.ahead = t :: rest) :
    Meets false (arguments inner close) s fun es s' => Numbers s.nodes s'.nodes 0 (es.map .expr) :=
  .advance hahead (.modify ((numbered_argumentsInside hinner close).bind fun _ _ hes =>
    .modify (.pure hes)))

theorem numbered_outsideIndex : NumberedExpr (outsideIndex inner) :=
  fun s => .bracketed (hinner { s with indexDepth := 0 })

theorem numbersOn_suffixRound (front : List Node) :
    NumbersOn (suffixRound inner) (fun n => front ++ [.name n]) fun n => front ++ [.name n] := by
  intro n m s hn
  have hsuffix : Meets false (suffix? inner n) s fun longer s' =>
      Numbers m s'.nodes 0 (front ++ [.name (longer.getD n)]) := by
    have hfollowed : ∀ {w : List Node} {st : State}, Numbers s.nodes st.nodes 0 w →
        Numbers m st.nodes 0 (front ++ .name n :: w) := by
      intro w st hw
      rw [← List.singleton_append, ← List.append_assoc]
      exact hn.append hw
    refine .peekFirst? (fun _ => .pure hn) fun t rest hahead => ?_
    split
    · refine (numbered_arguments hinner hahead).bind fun es mid hes => .siteFrom (.pure ?_)
      exact (hfollowed hes).close_after (by simp) rfl rfl
    · refine (numbered_arguments hinner hahead).bind fun es mid hes => .siteFrom (.pure ?_)
      exact (hfollowed hes).close_after (by simp) rfl rfl
    · refine .advance hahead (.eat (fun _ _ _ _ => ?_) ?_)
      · refine (numbered_outsideIndex hinner).bind fun field mid hfield => .discard_bind ?_
        refine .expect fun _ _ _ _ => .siteFrom (.pure ?_)
        exact (hfollowed hfield).close_after rfl rfl rfl
      · exact .expect fun field _ _ _ => .siteFrom (.pure (hn.close_after rfl rfl rfl))
    · exact .pure hn
  refine hsuffix.bind fun longer mid hlonger => ?_
  cases longer <;> exact .pure hlonger

end Inner

theorem numbers_superclassChain (methods : List Name) (n : Name)
    (h : Numbers m s.nodes 0 (methods.reverse.map .name ++ [.name n])) :
    Meets false (superclassChain methods n) s fun n' s' => Numbers m s'.nodes 0 [.name n'] := by
  induction methods generalizing n s with
  | nil => exact .pure h
  | cons method methods ih =>
    rw [List.reverse_cons, List.map_append, List.append_assoc] at h
    exact .siteBetween (ih _ (h.close_after rfl rfl rfl))

theorem numbersOn_methodsRound : NumbersOn methodsRound
    (fun w => w.1.reverse.map .name ++ [.name w.2])
    fun w => w.1.reverse.map .name ++ [.name w.2] := by
  refine fun (methods, last) m s h => .check fun at_ hat => .peekKind? ?_
  split
  · rename_i hmark
    obtain ⟨t, rest, hahead, -⟩ := hat (Bool.and_eq_true_iff.1 hmark).1
    refine .advance hahead (numbered_identifier.bind fun n mid hn => .pure ?_)
    change Numbers m mid.nodes 0 ((last :: methods).reverse.map .name ++ [.name n])
    rw [List.reverse_cons, List.map_append]
    exact h.append hn
  · exact .pure h

theorem numbered_name (hinner : NumberedExpr inner) : NumberedName (name inner) := by
  refine fun s => numbered_identifier.bind fun first mid hfirst => ?_
  refine (numbersOn_methodsRound.rounds (a := ([], first)) hfirst).bind
    fun (methods, last) mid h => ?_
  refine ((numbersOn_suffixRound hinner _).rounds h).bind fun n mid hn => ?_
  exact numbers_superclassChain methods n hn

/-! ## Operands -/

theorem numbers_finishRow (rows : List Row) (items : List Expr)
    (h : Numbers m s.nodes 0 (rows.map .row ++ items.map .expr)) :
    Meets false (finishRow rows items) s fun rows' s' => Numbers m s'.nodes 0 (rows'.map .row) := by
  cases items with
  | nil =>
    rw [List.map_nil, List.append_nil] at h
    exact .pure h
  | cons first rest =>
    refine .siteBetween (.pure ?_)
    rw [List.map_append]
    exact h.close_after (by simp) rfl rfl

section Inner

variable (hinner : NumberedExpr inner)

include hinner

theorem numbersOn_rowsRound (close : Kind) (placeholders : Bool) :
    NumbersOn (rowsRound inner close placeholders)
      (fun soFar => soFar.rows.map .row ++ soFar.items.map .expr) fun rows => rows.map .row := by
  refine fun soFar m s h => .current? (fun _ => .unexpected) fun t rest hahead => ?_
  have hadd : ∀ {e : Expr} {st : State}, Numbers s.nodes st.nodes 0 [.expr e] →
      Numbers m st.nodes 0 (soFar.rows.map .row ++ (soFar.items ++ [e]).map .expr) := by
    intro e st he
    rw [List.map_append, ← List.append_assoc]
    exact h.append he
  have hfinish := numbers_finishRow (s := s.past t rest) soFar.rows soFar.items h
  dsimp only
  split
  · exact .advance hahead (hfinish.bind fun rows mid hrows => .pure hrows)
  split
  · refine .advance hahead (hfinish.bind fun rows mid hrows => .pure ?_)
    change Numbers m mid.nodes 0 (rows.map .row ++ [])
    rwa [List.append_nil]
  split
  · exact .advance hahead (.pure h)
  split
  · exact .unexpected
  refine .peekKind? ?_
  split
  · refine .advance hahead ((numbered_placeholderOf t).bind fun n mid hn => .pure (hadd ?_))
    exact Numbers.name_iff.2 hn
  · exact hinner.bind fun e mid he => .pure (hadd he)

theorem numbered_rows {close : Kind} {rest : List Token} (hahead : s.ahead = t :: rest) :
    Meets false (rows inner close) s fun rows s' =>
      Numbers s.nodes s'.nodes 0 (rows.1.map .row) := by
  refine .here (.advance hahead (.get (.modify ?_)))
  have hrounds := (numbersOn_rowsRound hinner close s.placeholders).rounds (a := {})
    (s := { s.past t rest with placeholders := false }) (.nil s.nodes)
  exact hrounds.bind fun rows mid hrows => .step rfl (.pure hrows)

theorem numbered_handle (mark : Token) : NumberedExpr (handle inner mark) := by
  refine fun s => .eat (fun _ _ _ _ => ?_) ?_
  · refine numbered_parameters.bind fun ns mid hns => ?_
    refine (numbered_outsideIndex hinner).bind fun body mid hbody => .siteBetween (.pure ?_)
    exact (hns.append hbody).close (by simp) rfl rfl
  · exact numbered_dottedName.bind fun n mid hn => .siteBetween (.pure (hn.close rfl rfl rfl))

theorem numbered_compound {rest : List Token} (hahead : s.ahead = t :: rest) :
    Meets false (compound inner t) s fun e s' => Numbers s.nodes s'.nodes 0 [.expr e] := by
  rw [compound]
  split
  · exact (numbered_name hinner).bind fun n mid hn => .pure (Numbers.name_iff.2 hn)
  · refine .advance hahead (hinner.bind fun e mid he => .discard_bind ?_)
    exact .expect fun _ _ _ _ => .pure he
  · exact (numbered_rows hinner hahead).bind fun rows mid hrows =>
      .siteAt (.pure (hrows.close (by simp) rfl rfl))
  · exact (numbered_rows hinner hahead).bind fun rows mid hrows =>
      .siteAt (.pure (hrows.close (by simp) rfl rfl))
  · exact .advance hahead (numbered_handle hinner t _)
  · exact .advance hahead (numbered_dottedName.bind fun n mid hn =>
      .siteBetween (.pure (hn.close rfl rfl rfl)))
  · exact .unexpected

omit hinner in
theorem atom?_leaf {inIndex : Bool} {next : Option Kind} {make : Site → Expr}
    (h : atom? inIndex t next = some make) (site : Site) :
    (Node.expr (make site)).children = [] ∧ (Node.expr (make site)).discards = 0 ∧
      (make site).site = site := by
  rw [atom?] at h
  split at h
  all_goals first | (split at h <;> cases h) | cases h
  all_goals exact ⟨rfl, rfl, rfl⟩

theorem numbered_operand : NumberedExpr (operand inner) := by
  refine fun s => .current? (fun _ => .unexpected) fun t rest hahead => .get (.peekKind? ?_)
  split
  · rename_i make hmake
    obtain ⟨hchildren, hdiscards, hsite⟩ := atom?_leaf hmake ⟨s.nodes, t.location⟩
    exact .advance hahead (.siteAt (.pure (.leaf hchildren hdiscards (congrArg Site.id hsite))))
  · exact numbered_compound hinner hahead

end Inner

/-! ## Levels -/

theorem numbers_allSigned (ops : List Token) (e : Expr) (h : Numbers m s.nodes 0 [.expr e]) :
    Meets false (allSigned ops e) s fun e' s' => Numbers m s'.nodes 0 [.expr e'] := by
  induction ops with
  | nil => exact .pure h
  | cons op ops ih =>
    exact ih.bind fun e' mid he' => .siteBetween (.pure (he'.close rfl rfl rfl))

theorem numbered_signed (hp : NumberedExpr p) : NumberedExpr (do
    let signs ← eatWhile isSign
    allSigned signs (← p)) :=
  fun _ => .step rfl (hp.bind fun e _ he => numbers_allSigned _ e he)

theorem numbers_binary (op : Token) (lhs rhs : Expr)
    (h : Numbers m s.nodes 0 [.expr lhs, .expr rhs]) :
    Meets false (binary op lhs rhs) s fun e s' => Numbers m s'.nodes 0 [.expr e] := by
  rw [binary]
  split
  · exact .siteBetween (.pure (h.close rfl rfl rfl))
  · exact .of_error rfl

theorem numbers_joined (op : Token) {lhs : Expr} (hp : NumberedExpr p)
    (h : Numbers m s.nodes 0 [.expr lhs]) : Meets false (do
      let rhs ← p
      return (Round.again (← binary op lhs rhs) : Round Expr Expr)) s
      (Leaves (fun e s' => Numbers m s'.nodes 0 [.expr e])
        fun e s' => Numbers m s'.nodes 0 [.expr e]) :=
  hp.bind fun rhs _ hrhs => (numbers_binary op lhs rhs (h.append hrhs)).bind fun _ _ he => .pure he

theorem numbered_binaryLevel {symbols : List String} (hp : NumberedExpr p) :
    NumberedExpr (binaryLevel symbols p) := by
  have hround : NumbersOn (binaryRound symbols p) (fun e => [.expr e]) fun e => [.expr e] :=
    fun e m s he => .eatOperator (fun op _ _ _ _ => numbers_joined op hp he) (.pure he)
  exact fun s => hp.bind fun e mid he => hround.rounds he

section Inner

variable (hinner : NumberedExpr inner)

include hinner

theorem numbered_powers : NumberedExpr (powers inner) := by
  have hround : NumbersOn (powersRound inner) (fun e => [.expr e]) fun e => [.expr e] := by
    refine fun e m s he => .eatOperator (fun op rest _ _ _ => ?_) ?_
    · have hturned : Meets false (transposed op e) (s.past op rest) fun e' s' =>
          Numbers m s'.nodes 0 [.expr e'] :=
        .siteBetween (.pure (he.close rfl rfl rfl))
      exact hturned.bind fun _ _ he' => .pure he'
    · refine .eatOperator (fun op _ _ _ _ => ?_) (.pure he)
      exact numbers_joined op (numbered_signed (numbered_operand hinner)) he
  exact fun s => (numbered_operand hinner).bind fun e mid he => hround.rounds he

theorem numbered_sums : NumberedExpr (sums inner) :=
  numbered_binaryLevel (numbered_binaryLevel (numbered_signed (numbered_powers hinner)))

theorem numbered_ranges : NumberedExpr (ranges inner) := by
  have hsums := numbered_sums hinner
  refine fun s => hsums.bind fun start mid hstart => .eat (fun _ _ _ _ => ?_) (.pure hstart)
  refine hsums.bind fun second mid₁ hsecond => ?_
  have hboth := hstart.append hsecond
  refine .eat (fun _ _ _ _ => ?_) (.step rfl (.siteBetween (.pure (hboth.close rfl rfl rfl))))
  refine hsums.bind fun stop mid₂ hstop => .step rfl (.siteBetween (.pure ?_))
  exact (hboth.append hstop).close rfl rfl rfl

theorem numbered_shortOrs : NumberedExpr (shortOrs inner) :=
  numbered_binaryLevel (numbered_binaryLevel (numbered_binaryLevel (numbered_binaryLevel
    (numbered_binaryLevel (numbered_ranges hinner)))))

end Inner

theorem numbered_expressionWithin (fuel : Nat) : NumberedExpr (expressionWithin fuel) := by
  induction fuel with
  | zero => exact fun s => .step (here_run s) (.of_error rfl)
  | succ fuel ih => exact numbered_shortOrs ih

theorem numbered_expression : NumberedExpr expression :=
  fun s => .get (numbered_expressionWithin _ s)

end MFile.Grammar.Parse
