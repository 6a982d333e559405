import MFile.Grammar.Stmt
import MFile.Proofs.Grammar.Placeholders.Expression
import MFile.Proofs.Grammar.Rounds

/-!
Placeholders in statements. The matrix that a statement begins with may hold placeholders while it
is read. If it turns out to be all of an expression that stands alone, they are refused; if names
are assigned to, it is gone; and if it is the front of a longer expression, they stay.
-/

namespace MFile.Grammar.Parse

variable {block : BlockParser}

abbrev TidiesStmt (p : Parse (Site → Stmt)) : Prop :=
  Tidies false p fun make => ∀ site, Node.Proper .plain (.stmt (make site))

abbrev TidiesBlock (block : BlockParser) : Prop :=
  ∀ frame, Tidies false (block frame) (AllProper .plain .stmt)

theorem tidies_requireLoop (t : Token) : Tidies false (requireLoop t) fun _ => True := by
  refine .get fun s _ => ?_
  split
  · exact .pure trivial
  · exact .failing fun _ _ _ => fail_ok

theorem tidies_blockEnd {opener : Token} : Tidies false (blockEnd opener) fun _ => True := by
  refine passing_eatIf.bind fun found => ?_
  split
  · exact .failing fun _ _ _ => failHere_ok
  · exact .pure trivial

theorem Tidies.some {α : Type} {node : α → Node} {p : Parse α}
    (h : Tidies false p fun a => (node a).Proper .plain) :
    Tidies false (Option.some <$> p) fun a => AllProper .plain node a.toList :=
  .map (h.mono fun _ ha => List.forall_mem_singleton.2 ha)

/-! ## Blocks of statements -/

theorem tidies_loopHead : Tidies false loopHead fun head =>
    Node.Proper .plain (.name head.1) ∧ Node.Proper .plain (.expr head.2) :=
  tidies_identifier.bind fun _ hvar => (passing_discard passing_expect).bind fun _ =>
    tidies_plain.bind fun _ hrange => .pure ⟨hvar, hrange⟩

section Blocks

variable (hblock : TidiesBlock block)

include hblock

theorem tidies_ifStmt (opener : Token) : TidiesStmt (ifStmt block opener) := by
  refine tidies_plain.bind fun guard hguard => ?_
  let I (m : Token × Option Expr × List Clause) : Prop :=
    AllProper .plain .expr m.2.1.toList ∧ AllProper .plain .action m.2.2
  refine Tidies.bind (P := AllProper .plain .action) (.rounds I
    ⟨List.forall_mem_singleton.2 hguard, .nil⟩ ?_) fun branches hbranches =>
      tidies_blockEnd.bind fun _ _ => .pure fun site => Node.proper_iff.2 (by
        simpa [AllProper] using hbranches)
  rintro ⟨word, head, branches⟩ ⟨hhead, hbranches⟩
  refine (hblock .conditional).bind fun body hbody => passing_siteAt.bind fun site => ?_
  have hlast : Node.Proper .plain (.action ⟨site, head, body⟩) :=
    Node.proper_iff.2 (by simpa [AllProper, or_imp, forall_and] using And.intro hhead hbody)
  have hall := hbranches.concat hlast
  split
  · exact .pure hall
  refine passing_eatIf.bind fun found => ?_
  cases found with
  | some word =>
    refine tidies_plain.bind fun guard hguard => .pure ?_
    exact ⟨List.forall_mem_singleton.2 hguard, hall⟩
  | none =>
    refine passing_eatIf.bind fun found => ?_
    cases found with
    | some word => exact .pure ⟨.nil, hall⟩
    | none => exact .pure hall

theorem tidies_switchStmt (opener : Token) : TidiesStmt (switchStmt block opener) := by
  refine tidies_plain.bind fun subject hsubject => ?_
  refine Tidies.bind (P := AllProper .plain .arm) (.rounds (AllProper .plain .arm) .nil
    fun arms harms => passing_skipSeparators.bind fun _ => ?_) fun arms harms =>
      tidies_blockEnd.bind fun _ _ => .pure fun site => ?_
  · have harm : ∀ (word : Token) (head : Option Expr), AllProper .plain .expr head.toList →
        Tidies false
          (do
            let body ← block .switch
            return Round.again (arms ++ [⟨← siteAt word.location, head, body⟩]))
          (Round.Holds (AllProper .plain .arm) (AllProper .plain .arm)) := by
      refine fun word head hhead => (hblock .switch).bind fun body hbody => ?_
      refine passing_siteAt.bind fun site => .pure (harms.concat ?_)
      exact Node.proper_iff.2 (by simpa [AllProper, or_imp, forall_and] using And.intro hhead hbody)
    refine passing_eatIf.bind fun found => ?_
    cases found with
    | some word =>
      exact tidies_plain.bind fun value hvalue =>
        harm word (some value) (List.forall_mem_singleton.2 hvalue)
    | none =>
      refine passing_eatIf.bind fun found => ?_
      cases found with
      | some word => exact harm word none .nil
      | none =>
        refine looks_checkWord.bind fun closed => ?_
        split
        · exact .pure harms
        · exact .failing fun _ _ _ => unexpected_ok
  · exact Node.proper_iff.2 (by simpa [AllProper, hsubject] using harms)

theorem tidies_forStmt (opener : Token) : TidiesStmt (forStmt block opener) := by
  refine passing_eatIf.bind fun paren => tidies_loopHead.bind fun head hhead => ?_
  have hbody : TidiesStmt (do
      let body ← block .loop
      blockEnd opener
      return (Stmt.forLoop · head.1 head.2 body)) := by
    refine (hblock .loop).bind fun body hbody => tidies_blockEnd.bind fun _ _ => ?_
    exact .pure fun site => Node.proper_iff.2 (by simpa [AllProper, hhead] using hbody)
  dsimp only
  split
  · exact (passing_discard passing_expect).bind fun _ => hbody
  · exact hbody

theorem tidies_parForStmt (opener : Token) : TidiesStmt (parForStmt block opener) := by
  refine passing_eatIf.bind fun paren => tidies_loopHead.bind fun head hhead => ?_
  have hbody : ∀ workers, AllProper .plain .expr (Option.toList workers) →
      TidiesStmt (do
        let body ← block .loop
        blockEnd opener
        return (Stmt.parFor · head.1 head.2 workers body)) := by
    refine fun workers hworkers => (hblock .loop).bind fun body hbody => ?_
    refine tidies_blockEnd.bind fun _ _ => .pure fun site => Node.proper_iff.2 ?_
    simpa [AllProper, or_imp, forall_and, hhead] using And.intro hworkers hbody
  dsimp only
  split
  · refine passing_eatIf.bind fun comma => ?_
    split
    · exact tidies_plain.some.bind fun workers hworkers =>
        (passing_discard passing_expect).bind fun _ => hbody workers hworkers
    · exact (passing_discard passing_expect).bind fun _ => hbody none .nil
  · exact hbody none .nil

theorem tidies_whileStmt (opener : Token) : TidiesStmt (whileStmt block opener) := by
  refine tidies_plain.bind fun guard hguard => (hblock .loop).bind fun body hbody => ?_
  refine tidies_blockEnd.bind fun _ _ => .pure fun site => ?_
  exact Node.proper_iff.2 (by simpa [AllProper, hguard] using hbody)

theorem tidies_tryStmt (opener : Token) : TidiesStmt (tryStmt block opener) := by
  refine (hblock .region).bind fun body hbody => passing_eatIf.bind fun found => ?_
  have hend : ∀ (var : Option Name) (handler : Option (List Stmt)),
      AllProper .plain .name var.toList → AllProper .plain .stmt (handler.getD []) →
      TidiesStmt (do
        blockEnd opener
        return (Stmt.tryCatch · body var handler)) := by
    refine fun var handler hvar hhandler => tidies_blockEnd.bind fun _ _ => .pure fun site => ?_
    exact Node.proper_iff.2 (by
      simpa [AllProper, or_imp, forall_and] using And.intro hbody (And.intro hvar hhandler))
  have hhandler : ∀ var : Option Name, AllProper .plain .name var.toList →
      TidiesStmt (do
        let handler ← block .region
        blockEnd opener
        return (Stmt.tryCatch · body var (some handler))) :=
    fun var hvar => (hblock .region).bind fun handler => hend var (some handler) hvar
  split
  · refine .get fun s _ => ?_
    split
    · exact tidies_identifier.some.bind fun var hvar => hhandler var hvar
    · exact hhandler none .nil
  · exact hend none none .nil .nil

theorem tidies_spmdStmt (opener : Token) : TidiesStmt (spmdStmt block opener) := by
  have hbody : ∀ options, AllProper .plain .expr options → TidiesStmt (do
      let body ← block .region
      blockEnd opener
      return (Stmt.spmd · options body)) := by
    refine fun options hoptions => (hblock .region).bind fun body hbody => ?_
    refine tidies_blockEnd.bind fun _ _ => .pure fun site => ?_
    exact Node.proper_iff.2 (by
      simpa [AllProper, or_imp, forall_and] using And.intro hoptions hbody)
  refine looks_check.bind fun paren => ?_
  split
  · exact (tidies_arguments tidies_expression).bind fun options hoptions => hbody options hoptions
  · exact hbody [] .nil

end Blocks

/-! ## Statements without a block -/

theorem tidies_identifiers : Tidies false (eatWhile (·.kind == .identifier)) fun ts =>
    ∀ t ∈ ts, t.raw ≠ "~" := by
  intro s ts s' hs hrun
  obtain ⟨hkinds, hpass⟩ := eatWhile_ok hrun
  obtain ⟨-, hflag⟩ := passing_eatWhile hrun
  refine ⟨hs.past hpass hflag, fun t ht => hs.named t ?_ (beq_iff_eq.1 (hkinds t ht))⟩
  rw [hpass.ahead]
  exact List.mem_append_left _ ht

theorem tidies_declaredNames : Tidies false declaredNames (AllProper .plain .name) := by
  refine tidies_identifier.bind fun first hfirst => tidies_identifiers.bind fun more hmore => ?_
  exact (Tidies.mapM more fun t ht => tidies_identifierOf (hmore t ht)).bind fun names hnames =>
    .pure (List.forall_mem_cons.2 ⟨hfirst, hnames⟩)

theorem tidies_assignableName {e : Expr} {spot : Spot} (he : Node.Proper spot (.expr e)) :
    Tidies false (assignableName e) fun n => Node.Proper spot (.name n) := by
  cases e with
  | name n => exact .pure (proper_name_iff.1 he)
  | _ => exact .failing fun _ _ _ => fail_ok

theorem proper_elements {opened : Bool} {place : Site} {rows : List Row} {row : Row}
    (h : Node.Proper (spotAt opened) (.expr (.matrix place rows))) (hrow : row ∈ rows) :
    AllProper (elementSpot opened) .expr row.items := by
  have hproper := (Node.proper_iff.1 h).2 (.row, .row row) (List.mem_map_of_mem hrow)
  cases opened <;> simpa [AllProper, spotAt, elementSpot] using (Node.proper_iff.1 hproper).2

theorem plain_of_element {opened : Bool} {e : Expr}
    (he : Node.Proper (elementSpot opened) (.expr e)) (hno : isPlaceholder e = false) :
    Node.Proper .plain (.expr e) := by
  have hroot : Node.isPlaceholder (.expr e) = true → Spot.plain = Spot.free := by
    intro h
    cases e with
    | name n =>
      cases n with
      | identifier site text =>
        have hsame : (text == "~") = true := h
        rw [isPlaceholder, hsame] at hno
        cases hno
      | _ => cases h
    | _ => cases h
  cases opened
  · exact he
  · exact he.move hroot fun _ _ => rfl

theorem whole_of_front {opened : Bool} {e : Expr} (he : Node.Proper (spotAt opened) (.expr e))
    (hno : hasPlaceholder e = false) : Node.Proper .whole (.expr e) := by
  cases opened with
  | false => exact Node.Proper.of_plain he _
  | true =>
    obtain ⟨hroot, hchildren⟩ := Node.proper_iff.1 he
    refine Node.proper_iff.2 ⟨fun h => absurd (hroot h) (by decide), fun c hc => ?_⟩
    cases e with
    | matrix place rows =>
      obtain ⟨row, hrow, rfl⟩ := List.mem_map.1 hc
      have helements := proper_elements he hrow
      have hnone : ∀ e ∈ row.items, isPlaceholder e = false := by
        intro e hitem
        rw [Bool.eq_false_iff]
        intro h
        have hany := List.any_eq_true.2 ⟨e, hitem, h⟩
        rw [hasPlaceholder, List.any_eq_true.2 ⟨row, hrow, hany⟩] at hno
        cases hno
      have hplain : Node.Proper .plain (.row row) := by
        refine Node.proper_iff.2 ⟨fun h => Bool.noConfusion h, fun c hc => ?_⟩
        obtain ⟨e, he, rfl⟩ := List.mem_map.1 hc
        exact plain_of_element (helements e he) (hnone e he)
      exact hplain
    | _ => exact hchildren c hc

theorem tidies_expressionStmt : TidiesStmt expressionStmt := by
  refine Tidies.opening fun opened => (tidies_expression opened).bind fun lhs hlhs => ?_
  refine Tidies.closing (passing_eatIf.bind fun equals => ?_)
  split
  · split
    · refine .failing fun _ _ _ h => ?_
      obtain ⟨_, _, h, -⟩ := bind_ok h
      exact fail_ok h
    · rename_i hno
      have hwhole := whole_of_front hlhs (Bool.eq_false_iff.2 hno)
      exact .pure fun site => Node.proper_iff.2 (by simp [hwhole])
  split
  · rename_i row
    have hitems := proper_elements hlhs List.mem_cons_self
    refine (Tidies.mapM row.items fun e he => tidies_assignableName (hitems e he)).bind
      fun names hnames => tidies_plain.bind fun rhs hrhs => .pure fun site => ?_
    have hleft : AllProper .free .name names := by
      cases opened
      · exact fun n hn => Node.Proper.of_plain (hnames n hn) _
      · exact hnames
    exact Node.proper_iff.2 (by simpa [AllProper, or_imp, forall_and, hrhs] using hleft)
  · refine (tidies_assignableName hlhs).bind fun n hn => tidies_plain.bind fun rhs hrhs => ?_
    have hname : Node.Proper .plain (.name n) := by
      cases opened
      · exact hn
      · exact hn.move (fun h => absurd ((Node.proper_iff.1 hn).1 h) (by decide)) fun c hc => by
          cases c.1 <;> rfl
    exact .pure fun site => Node.proper_iff.2 (by simp [hname, hrhs])

theorem tidies_keywordStmt (hblock : TidiesBlock block) (t : Token) :
    TidiesStmt (keywordStmt block t) := by
  rw [keywordStmt]
  dsimp only
  split
  · exact passing_advance.bind fun _ => tidies_ifStmt hblock t
  · exact passing_advance.bind fun _ => tidies_switchStmt hblock t
  · exact passing_advance.bind fun _ => tidies_forStmt hblock t
  · exact passing_advance.bind fun _ => tidies_parForStmt hblock t
  · exact passing_advance.bind fun _ => tidies_whileStmt hblock t
  · exact passing_advance.bind fun _ => tidies_tryStmt hblock t
  · exact passing_advance.bind fun _ => tidies_spmdStmt hblock t
  · refine passing_advance.bind fun _ => tidies_declaredNames.bind fun ns hns =>
      .pure fun site => ?_
    exact Node.proper_iff.2 (by simpa [AllProper] using hns)
  · refine passing_advance.bind fun _ => tidies_declaredNames.bind fun ns hns =>
      .pure fun site => ?_
    exact Node.proper_iff.2 (by simpa [AllProper] using hns)
  · exact passing_advance.bind fun _ => (tidies_requireLoop t).bind fun _ _ =>
      .pure fun site => Node.proper_iff.2 (by simp)
  · exact passing_advance.bind fun _ => (tidies_requireLoop t).bind fun _ _ =>
      .pure fun site => Node.proper_iff.2 (by simp)
  · exact passing_advance.bind fun _ => .pure fun site => Node.proper_iff.2 (by simp)
  · exact .failing fun _ _ _ => fail_ok

theorem tidies_commandHead : Tidies false commandHead (AllProper .plain .stmt) := by
  refine tidies_dottedName.bind fun head hhead => passing_eatWhile.bind fun words => ?_
  split
  · refine Tidies.mapM words fun word _ => passing_siteAt.bind fun site => .pure ?_
    exact Node.proper_iff.2 (by simp)
  · refine (Tidies.mapM (Q := fun e => Node.Proper .plain (.expr e)) words fun word _ =>
      passing_siteAt.bind fun site => .pure (Node.proper_iff.2 (by simp))).bind fun args hargs => ?_
    refine passing_siteFrom.bind fun inner => passing_siteFrom.bind fun outer => .pure ?_
    have hcall : Node.Proper .whole (.name (.reference inner head args)) :=
      Node.proper_iff.2 (by simpa [hhead] using hargs)
    exact List.forall_mem_singleton.2 (Node.proper_iff.2 (by simp [proper_name_iff.2 hcall]))

/-! ## Lists of statements -/

theorem tidies_statement (hblock : TidiesBlock block) (t : Token) :
    Tidies false (statement block t) (AllProper .plain .stmt) := by
  rw [statement_eq]
  refine Tidies.bind (P := AllProper .plain .stmt) (.get fun s _ => ?_) fun stmts hstmts =>
    passing_endStatement.bind fun _ => .pure hstmts
  split
  · exact tidies_commandHead
  · have hmake : ∀ {p : Parse (Site → Stmt)}, TidiesStmt p → Tidies false
        (do
          let make ← p
          return [make (← siteFrom t.location)]) (AllProper .plain .stmt) := fun hp =>
      hp.bind fun make hmade => passing_siteFrom.bind fun site =>
        .pure (List.forall_mem_singleton.2 (hmade site))
    split
    · exact hmake (tidies_keywordStmt hblock t)
    · exact passing_advance.bind fun _ => hmake (.pure fun site => Node.proper_iff.2 (by simp))
    · exact hmake tidies_expressionStmt

theorem tidies_statementList (hblock : TidiesBlock block) :
    Tidies false (statementList block) (AllProper .plain .stmt) := by
  rw [statementList_eq]
  refine .rounds (AllProper .plain .stmt) .nil fun stmts hstmts => ?_
  refine passing_skipSeparators.bind fun _ => .current? fun t _ => ?_
  cases t with
  | none => exact .pure hstmts
  | some t =>
    rw [statementChoice]
    split
    · exact .pure hstmts
    split
    · refine .get fun s _ => ?_
      split
      · exact .pure hstmts
      · exact .pure hstmts
      · exact .failing fun _ _ _ => fail_ok
    split
    · exact .failing fun _ _ _ => fail_ok
    · exact (tidies_statement hblock t).bind fun more hmore =>
        .pure (List.forall_mem_append.2 ⟨hstmts, hmore⟩)

theorem tidies_statementsWithin (fuel : Nat) :
    Tidies false (statementsWithin fuel) (AllProper .plain .stmt) := by
  induction fuel with
  | zero => exact .failing fun _ _ _ => stalled_ok
  | succ fuel ih => exact tidies_statementList fun _ => ih.inFrame

theorem tidies_statements : Tidies false statements (AllProper .plain .stmt) :=
  .get fun _ _ => tidies_statementsWithin _

end MFile.Grammar.Parse
