import MFile.Proofs.Grammar.Extent.Fronts
import MFile.Proofs.Grammar.Numbering.Expression

/-!
What a part of an expression gives lies where its tokens are, and every node covers its children.
Parentheses around an expression leave no trace, so it may begin after the first token that is read
for it.
-/

namespace MFile.Grammar.Parse

variable {α β : Type} {m : Front} {s : State} {t : Token} {inner p : Parse Expr}

/-- What `p` gives lies between the tokens that it reads. -/
def Fitting (p : Parse α) (w : α → List Node) : Prop :=
  ∀ s : State, Successive s.file s.front.tokens →
    Meets false p s fun a s' => Fits s.front s'.front (w a)

def FitsOn (body : α → Parse (Round α β)) (v : α → List Node) (w : β → List Node) : Prop :=
  ∀ a m s, Fits m s.front (v a) → Meets false (body a) s
    (Leaves (fun a' s' => Fits m s'.front (v a')) fun b s' => Fits m s'.front (w b))

abbrev FittingExpr (p : Parse Expr) : Prop := Fitting p fun e => [.expr e]

abbrev FittingName (p : Parse Name) : Prop := Fitting p fun n => [.name n]

theorem Fitting.after {p : Parse α} {f : α → Parse β} {w : α → List Node} {u : List Node}
    {Q : β → State → Prop} (h : Fitting p w) (hs : Fits m s.front u)
    (hf : ∀ a mid, Fits m mid.front (u ++ w a) → Meets false (f a) mid Q) :
    Meets false (p >>= f) s Q :=
  (h s hs.successive').bind fun a mid ha => hf a mid (hs.append ha)

theorem FitsOn.rounds {body : α → Parse (Round α β)} {v : α → List Node} {w : β → List Node}
    (h : FitsOn body v w) {a : α} (ha : Fits m s.front (v a)) :
    Meets false (Parse.rounds a body) s fun b s' => Fits m s'.front (w b) :=
  .rounds (I := fun a st => Fits m st.front (v a)) ha fun a st => h a m st

/-! ## Names -/

theorem fitting_identifier : FittingName identifier :=
  fun _ hs => .expect fun _ _ hahead _ => .siteAt (.pure (.leaf hs hahead rfl rfl rfl))

theorem fits_token {u : List Node} {node : Node} {rest : List Token} (h : Fits m s.front u)
    (hahead : s.ahead = t :: rest) (hchildren : node.children = []) (hvalue : node.isValue = true)
    (hlocation : node.location = t.location) :
    Fits m (s.past t rest).front (u ++ [node]) :=
  h.append (.leaf h.successive' hahead hchildren hvalue hlocation)

theorem fits_placeholderOf {u : List Node} {rest : List Token} (h : Fits m s.front u)
    (hahead : s.ahead = t :: rest) : Meets false (placeholderOf t) (s.past t rest) fun n s' =>
      Fits m s'.front (u ++ [.name n]) :=
  .siteAt (.pure (fits_token h hahead rfl rfl rfl))

theorem fits_dottedName (hs : Successive s.file s.front.tokens) : Meets false dottedName s
    fun n s' => Fits s.front s'.front [.name n] ∧ n.site.location.begins = s.front.upcoming := by
  let I (n : Name) (st : State) : Prop := Fits s.front st.front [.name n] ∧
    n.site.location.begins = s.front.upcoming
  have hfirst : Meets false identifier s I := .expect fun t rest hahead _ => .siteAt (.pure
    ⟨.leaf hs hahead rfl rfl rfl, (Front.upcoming_eq (m := s.front) hahead).symm⟩)
  refine hfirst.bind fun first mid hmid => .rounds (I := I) hmid fun n st ⟨hn, hbegins⟩ => ?_
  refine .check fun dot hdot => .peekKind? ?_
  split
  · rename_i h
    obtain ⟨t, rest, hahead, -⟩ := hdot (Bool.and_eq_true_iff.1 h).1
    refine .advance hahead (.expect fun field rest' hahead' _ => .siteBetween (.pure ?_))
    have hpast := (hn.past hahead).past hahead'
    refine ⟨hpast.close_past (u := []) rfl rfl rfl rfl, ?_⟩
    exact (hpast.spans_past (List.mem_singleton_self _)).begins.trans hbegins
  · exact .pure ⟨hn, hbegins⟩

theorem fitting_dottedName : FittingName dottedName :=
  fun _ hs => (fits_dottedName hs).mono fun _ _ h => h.1

theorem fitting_parameters : Fitting parameters fun ns => ns.map .name := by
  have hround : FitsOn parametersRound (fun ns => ns.map Node.name) fun ns => ns.map .name := by
    refine fun ns m s hns => .current? (fun _ => .unexpected) fun t rest hahead => ?_
    dsimp only
    split
    · exact .advance hahead (.pure (hns.past hahead))
    · exact .advance hahead (.pure (hns.past hahead))
    · refine fitting_identifier.after hns fun n mid hn => .pure ?_
      change Fits m mid.front _
      rwa [List.map_append]
    · split
      · refine .advance hahead ((fits_placeholderOf hns hahead).bind fun n mid hn => .pure ?_)
        change Fits m mid.front _
        rwa [List.map_append]
      · exact .unexpected
    · exact .unexpected
  exact fun s hs => hround.rounds (.nil hs)

/-! ## Arguments and rows -/

section Inner

variable (hinner : FittingExpr inner)

include hinner

theorem fitting_argumentsInside (close : Kind) :
    Fitting (argumentsInside inner close) fun es => es.map .expr := by
  have hround : FitsOn (argumentsRound inner close) (fun es => es.map Node.expr)
      fun es => es.map .expr := by
    refine fun es m s hes => hinner.after hes fun e mid he => ?_
    have hadded : Fits m mid.front ((es ++ [e]).map .expr) := by
      rw [List.map_append]
      exact he
    exact .eat (fun _ _ hahead _ => .pure (hadded.past hahead))
      (.eat (fun _ _ hahead _ => .pure (hadded.past hahead)) .unexpected)
  exact fun s hs => .eat (fun _ _ hahead _ => .pure ((Fits.nil hs).past hahead))
    (hround.rounds (.nil hs))

theorem fits_arguments {close : Kind} {rest : List Token} {u : List Node}
    (h : Fits m s.front u) (hahead : s.ahead = t :: rest) :
    Meets false (arguments inner close) s fun es s' => Fits m s'.front (u ++ es.map .expr) := by
  refine .advance hahead (.modify ((fitting_argumentsInside hinner close).after ?_ fun es mid hes =>
    .modify (.pure hes)))
  exact h.past hahead

theorem fitting_outsideIndex : FittingExpr (outsideIndex inner) :=
  fun s hs => .bracketed (hinner { s with indexDepth := 0 } hs)

theorem fitsOn_suffixRound (u : List Node) :
    FitsOn (suffixRound inner) (fun n => u ++ [.name n]) fun n => u ++ [.name n] := by
  intro n m s hn
  have hsuffix : Meets false (suffix? inner n) s fun longer s' =>
      Fits m s'.front (u ++ [.name (longer.getD n)]) := by
    refine .peekFirst? (fun _ => .pure hn) fun t rest hahead => ?_
    split
    · refine (fits_arguments hinner hn hahead).bind fun es mid hes => .siteFrom (.pure ?_)
      rw [List.append_assoc] at hes
      exact Fits.close_place hes rfl (by simp) rfl rfl
    · refine (fits_arguments hinner hn hahead).bind fun es mid hes => .siteFrom (.pure ?_)
      rw [List.append_assoc] at hes
      exact Fits.close_place hes rfl (by simp) rfl rfl
    · have hpast := hn.past hahead
      refine .advance hahead (.eat (fun _ _ hahead' _ => ?_) ?_)
      · refine (fitting_outsideIndex hinner).after (hpast.past hahead') fun field mid hfield =>
          .discard_bind (.expect fun _ _ hahead'' _ => .siteFrom (.pure ?_))
        have hclosed := hfield.past hahead''
        rw [List.append_assoc] at hclosed
        exact Fits.close_place hclosed rfl rfl rfl rfl
      · refine .expect fun field _ hahead' _ => .siteFrom (.pure ?_)
        exact Fits.close_place (hpast.past hahead') rfl rfl rfl rfl
    · exact .pure hn
  refine hsuffix.bind fun longer mid hlonger => ?_
  cases longer <;> exact .pure hlonger

end Inner

theorem fits_superclassChain (methods : List Name) (n : Name)
    (h : Fits m s.front (methods.reverse.map .name ++ [.name n])) :
    Meets false (superclassChain methods n) s fun n' s' => Fits m s'.front [.name n'] := by
  induction methods generalizing n s with
  | nil => exact .pure h
  | cons method methods ih =>
    rw [List.reverse_cons, List.map_append, List.append_assoc] at h
    exact .siteBetween (ih _ (h.close_last rfl rfl rfl rfl rfl))

theorem fitsOn_methodsRound : FitsOn methodsRound
    (fun w => w.1.reverse.map .name ++ [.name w.2])
    fun w => w.1.reverse.map .name ++ [.name w.2] := by
  refine fun (methods, last) m s h => .check fun at_ hat => .peekKind? ?_
  split
  · rename_i hmark
    obtain ⟨t, rest, hahead, -⟩ := hat (Bool.and_eq_true_iff.1 hmark).1
    refine .advance hahead (fitting_identifier.after (h.past hahead) fun n mid hn => .pure ?_)
    change Fits m mid.front ((last :: methods).reverse.map .name ++ [.name n])
    rw [List.reverse_cons, List.map_append]
    exact hn
  · exact .pure h

theorem fitting_name (hinner : FittingExpr inner) : FittingName (name inner) := by
  refine fun s hs => (fitting_identifier s hs).bind fun first mid hfirst => ?_
  refine (fitsOn_methodsRound.rounds (a := ([], first)) hfirst).bind fun (methods, last) mid h => ?_
  refine ((fitsOn_suffixRound hinner _).rounds h).bind fun n mid hn => ?_
  exact fits_superclassChain methods n hn

/-! ## Operands -/

theorem fits_finishRow (rows : List Row) (items : List Expr)
    (h : Fits m s.front (rows.map .row ++ items.map .expr)) :
    Meets false (finishRow rows items) s fun rows' s' => Fits m s'.front (rows'.map .row) := by
  cases items with
  | nil =>
    rw [List.map_nil, List.append_nil] at h
    exact .pure h
  | cons first rest =>
    have hlast : ((first :: rest).map Node.expr).getLast? = some (.expr (rest.getLastD first)) := by
      rw [List.getLast?_map, List.getLast?_cons, List.getLastD_eq_getLast?]
      rfl
    refine .siteBetween (.pure ?_)
    rw [List.map_append]
    exact h.close_last rfl hlast (by simp) rfl rfl

section Inner

variable (hinner : FittingExpr inner)

include hinner

theorem fitsOn_rowsRound (close : Kind) (placeholders : Bool) :
    FitsOn (rowsRound inner close placeholders)
      (fun soFar => soFar.rows.map .row ++ soFar.items.map .expr) fun rows => rows.map .row := by
  refine fun soFar m s h => .current? (fun _ => .unexpected) fun t rest hahead => ?_
  have hadd : ∀ {e : Expr} {st : State},
      Fits m st.front (soFar.rows.map .row ++ soFar.items.map .expr ++ [.expr e]) →
      Fits m st.front (soFar.rows.map .row ++ (soFar.items ++ [e]).map .expr) := by
    intro e st he
    rw [List.map_append, ← List.append_assoc]
    exact he
  have hpast := h.past hahead
  have hfinish := fits_finishRow (s := s.past t rest) soFar.rows soFar.items hpast
  dsimp only
  split
  · exact .advance hahead (hfinish.bind fun rows mid hrows => .pure hrows)
  split
  · refine .advance hahead (hfinish.bind fun rows mid hrows => .pure ?_)
    change Fits m mid.front (rows.map .row ++ [])
    rwa [List.append_nil]
  split
  · exact .advance hahead (.pure hpast)
  split
  · exact .unexpected
  refine .peekKind? ?_
  split
  · refine .advance hahead ((fits_placeholderOf h hahead).bind fun n mid hn => .pure (hadd ?_))
    exact Fits.name_iff.2 hn
  · exact hinner.after h fun e mid he => .pure (hadd he)

theorem fits_rows {close : Kind} {rest : List Token} (hs : Successive s.file s.front.tokens)
    (hahead : s.ahead = t :: rest) :
    Meets false (rows inner close) s fun rows s' =>
      Fits (s.front.past t rest) s'.front (rows.1.map .row) ∧
        rows.2 = t.location.extendTo s'.lastPlace := by
  have hstart : s.nextPlace = t.location := by
    rw [State.nextPlace, hahead]
    rfl
  refine .here (.advance hahead (.get (.modify ?_)))
  have hnil : Fits (s.front.past t rest) (s.front.past t rest) [] :=
    .nil ((Front.Leads.past .refl hahead).successive hs)
  have hrounds := (fitsOn_rowsRound hinner close s.placeholders).rounds (a := {})
    (s := { s.past t rest with placeholders := false }) hnil
  rw [hstart]
  exact hrounds.bind fun rows mid hrows => .spanFrom (.pure ⟨hrows, rfl⟩)

theorem fits_handle {rest : List Token} (hs : Successive s.file s.front.tokens)
    (hahead : s.ahead = t :: rest) :
    Meets false (handle inner t) (s.past t rest) fun e s' => Fits s.front s'.front [.expr e] := by
  have hnil : Fits (s.front.past t rest) (s.front.past t rest) [] :=
    .nil ((Front.Leads.past .refl hahead).successive hs)
  refine .eat (fun _ _ hahead' _ => ?_) ?_
  · refine fitting_parameters.after (hnil.past hahead') fun ns mid hns => ?_
    refine (fitting_outsideIndex hinner).after hns fun body mid hbody => .siteBetween (.pure ?_)
    have hlast : (ns.map Node.name ++ [Node.expr body]).getLast? = some (Node.expr body) :=
      List.getLast?_concat
    exact Fits.close_token_last hs hahead hbody hlast (by simp) rfl rfl
  · refine fitting_dottedName.after hnil fun n mid hn => .siteBetween (.pure ?_)
    exact Fits.close_token_last hs hahead hn rfl rfl rfl rfl

theorem fits_compound {rest : List Token} (hs : Successive s.file s.front.tokens)
    (hahead : s.ahead = t :: rest) :
    Meets false (compound inner t) s fun e s' => Fits s.front s'.front [.expr e] := by
  have hnil := (Fits.nil (m := s.front) hs).past hahead
  have hbehind : Fits (s.front.past t rest) (s.front.past t rest) [] := .nil hnil.successive'
  rw [compound]
  split
  · refine (fitting_name hinner s hs).bind fun n mid hn => .pure ?_
    exact (Fits.name_iff (u := [])).2 hn
  · refine .advance hahead (hinner.after hnil fun e mid he => .discard_bind ?_)
    exact .expect fun _ _ hahead' _ => .pure (he.past hahead')
  · exact (fits_rows hinner hs hahead).bind fun rows mid hrows =>
      .siteAt (.pure (hrows.1.close_token_place hs hahead (by simp) rfl hrows.2))
  · exact (fits_rows hinner hs hahead).bind fun rows mid hrows =>
      .siteAt (.pure (hrows.1.close_token_place hs hahead (by simp) rfl hrows.2))
  · exact .advance hahead (fits_handle hinner hs hahead)
  · refine .advance hahead
      (fitting_dottedName.after hbehind fun n mid hn => .siteBetween (.pure ?_))
    exact Fits.close_token_last hs hahead hn rfl rfl rfl rfl
  · exact .unexpected

theorem fitting_operand : FittingExpr (operand inner) := by
  refine fun s hs => .current? (fun _ => .unexpected) fun t rest hahead => .get (.peekKind? ?_)
  split
  · rename_i make hmake
    refine .advance hahead (.siteAt (.pure ?_))
    obtain ⟨hchildren, -, hsite⟩ := atom?_leaf hmake ⟨s.nodes, t.location⟩
    exact .leaf hs hahead hchildren rfl (congrArg Site.location hsite)
  · exact fits_compound hinner hs hahead

end Inner

/-! ## Levels -/

theorem fits_allSigned {rest : List Token} (ops : List Token) {m : Front} (e : Expr)
    (hm : Successive m.file m.tokens) (hahead : m.ahead = ops ++ rest)
    (h : Fits ⟨m.file, ops.reverse ++ m.behind, rest⟩ s.front [.expr e]) :
    Meets false (allSigned ops e) s fun e' s' => Fits m s'.front [.expr e'] := by
  induction ops generalizing m with
  | nil =>
    obtain ⟨file, behind, ahead⟩ := m
    cases hahead
    exact .pure h
  | cons op ops ih =>
    have hpast : m.Leads (m.past op (ops ++ rest)) := .past .refl hahead
    rw [List.reverse_cons, List.append_assoc] at h
    refine (ih (m := m.past op (ops ++ rest)) (hpast.successive hm) rfl h).bind fun e' mid he' => ?_
    exact .siteBetween (.pure (Fits.close_token_last hm hahead he' rfl rfl rfl rfl))

theorem fitting_signed (hp : FittingExpr p) : FittingExpr (do
    let signs ← eatWhile isSign
    allSigned signs (← p)) := by
  intro s hs
  have hahead : s.front.ahead = s.ahead.takeWhile isSign ++ s.ahead.dropWhile isSign :=
    List.takeWhile_append_dropWhile.symm
  refine .step rfl ((hp _ ?_).bind fun e mid he => ?_)
  · exact (Front.Leads.across _ hahead).successive hs
  · exact fits_allSigned (m := s.front) (s.ahead.takeWhile isSign) e hs hahead he

theorem fits_binary (op : Token) (lhs rhs : Expr) (h : Fits m s.front [.expr lhs, .expr rhs]) :
    Meets false (binary op lhs rhs) s fun e s' => Fits m s'.front [.expr e] := by
  rw [binary]
  split
  · exact .siteBetween (.pure (h.close_last (u := []) rfl rfl rfl rfl rfl))
  · exact .of_error rfl

theorem fits_joined (op : Token) {lhs : Expr} (hp : FittingExpr p)
    (h : Fits m s.front [.expr lhs]) : Meets false (do
      let rhs ← p
      return (Round.again (← binary op lhs rhs) : Round Expr Expr)) s
      (Leaves (fun e s' => Fits m s'.front [.expr e]) fun e s' => Fits m s'.front [.expr e]) :=
  hp.after h fun rhs _ hrhs => (fits_binary op lhs rhs hrhs).bind fun _ _ he => .pure he

theorem fitting_binaryLevel {symbols : List String} (hp : FittingExpr p) :
    FittingExpr (binaryLevel symbols p) := by
  have hround : FitsOn (binaryRound symbols p) (fun e => [.expr e]) fun e => [.expr e] :=
    fun e m s he =>
      .eatOperator (fun op _ hahead _ _ => fits_joined op hp (he.past hahead)) (.pure he)
  exact fun s hs => (hp s hs).bind fun e mid he => hround.rounds he

section Inner

variable (hinner : FittingExpr inner)

include hinner

theorem fitting_powers : FittingExpr (powers inner) := by
  have hround : FitsOn (powersRound inner) (fun e => [.expr e]) fun e => [.expr e] := by
    refine fun e m s he => .eatOperator (fun op rest hahead _ _ => ?_) ?_
    · have hturned : Meets false (transposed op e) (s.past op rest) fun e' s' =>
          Fits m s'.front [.expr e'] :=
        .siteBetween (.pure ((he.past hahead).close_past (u := []) rfl rfl rfl rfl))
      exact hturned.bind fun _ _ he' => .pure he'
    · refine .eatOperator (fun op _ hahead _ _ => ?_) (.pure he)
      exact fits_joined op (fitting_signed (fitting_operand hinner)) (he.past hahead)
  exact fun s hs => (fitting_operand hinner s hs).bind fun e mid he => hround.rounds he

theorem fitting_sums : FittingExpr (sums inner) :=
  fitting_binaryLevel (fitting_binaryLevel (fitting_signed (fitting_powers hinner)))

theorem fitting_ranges : FittingExpr (ranges inner) := by
  have hsums := fitting_sums hinner
  refine fun s hs => (hsums s hs).bind fun start mid hstart =>
    .eat (fun _ _ hahead _ => ?_) (.pure hstart)
  refine hsums.after (hstart.past hahead) fun second mid₁ hboth => ?_
  refine .eat (fun _ _ hahead' _ => ?_) (.step rfl (.siteBetween (.pure ?_)))
  · refine hsums.after (hboth.past hahead') fun stop mid₂ hall =>
      .step rfl (.siteBetween (.pure ?_))
    exact hall.close_last (u := []) rfl rfl rfl rfl rfl
  · exact hboth.close_last (u := []) rfl rfl rfl rfl rfl

theorem fitting_shortOrs : FittingExpr (shortOrs inner) :=
  fitting_binaryLevel (fitting_binaryLevel (fitting_binaryLevel (fitting_binaryLevel
    (fitting_binaryLevel (fitting_ranges hinner)))))

end Inner

theorem fitting_expressionWithin (fuel : Nat) : FittingExpr (expressionWithin fuel) := by
  induction fuel with
  | zero => exact fun s _ => .step (here_run s) (.of_error rfl)
  | succ fuel ih => exact fitting_shortOrs ih

theorem fitting_expression : FittingExpr expression :=
  fun s hs => .get (fitting_expressionWithin _ s hs)

end MFile.Grammar.Parse
