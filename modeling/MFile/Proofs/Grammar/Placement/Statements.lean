import MFile.Grammar.Stmt
import MFile.Proofs.Grammar.Placement.Expression
import MFile.Proofs.Grammar.Rounds

/-!
Statements may stand where they are read: `break` and `continue` are refused where no loop is
open, and of the branches of an `if` only the last one can be without a guard.
-/

namespace MFile.Grammar.Parse

variable {loop index : Bool} {block : BlockParser}

abbrev YieldsStmt (loop index : Bool) (p : Parse (Site → Stmt)) : Prop :=
  Yields loop index p fun make => ∀ site, Node.Placed loop index (.stmt (make site))

abbrev YieldsBlock (block : BlockParser) : Prop :=
  ∀ frame loop index, Yields loop index (block frame)
    (AllPlaced (loopInside loop frame) index .stmt)

theorem yields_requireLoop (t : Token) :
    Yields loop index (requireLoop t) fun _ => loop = true := by
  refine .get fun s hs => ?_
  rw [hs.frames]
  split
  · exact .pure ‹_›
  · exact .failing fun _ _ _ => fail_ok

theorem still_blockEnd {opener : Token} : Still (blockEnd opener) := by
  refine .of_yields fun _ _ => still_eatIf.bind fun found => ?_
  split
  · exact .failing fun _ _ _ => failHere_ok
  · exact .pure trivial

theorem Yields.some {α : Type} {node : α → Node} {p : Parse α}
    (h : Yields loop index p fun a => (node a).Placed loop index) :
    Yields loop index (Option.some <$> p) fun a => AllPlaced loop index node a.toList :=
  .map (h.mono fun _ ha => List.forall_mem_singleton.2 ha)

/-! ## Blocks of statements -/

theorem yields_loopHead : Yields loop index loopHead fun head =>
    Node.Placed true index (.name head.1) ∧ Node.Placed true index (.expr head.2) :=
  (yields_identifier _ _).bind fun _ hvar => (still_discard still_expect).bind fun _ =>
    (yields_expression _ _).bind fun _ hrange => .pure ⟨hvar.in_loop rfl, hrange.in_loop rfl⟩

/-- All branches so far have a guard. -/
def Guarded (branches : List Clause) : Prop := ∀ c ∈ branches, c.head.isSome

theorem fits_branches {branches : List Clause} {last : Clause} {site : Site}
    (h : Guarded branches) (hlast : branches = [] → last.head.isSome) :
    Node.fits loop index (.stmt (.ifElse site (branches ++ [last]))) = true := by
  rw [Node.fits, List.dropLast_concat, Bool.and_eq_true, List.all_eq_true]
  refine ⟨?_, h⟩
  cases branches with
  | nil => exact hlast rfl
  | cons first rest => exact h first List.mem_cons_self

section Blocks

variable (hblock : YieldsBlock block)

include hblock

theorem yields_ifStmt (opener : Token) : YieldsStmt loop index (ifStmt block opener) := by
  refine (yields_expression _ _).bind fun guard hguard => ?_
  let I (m : Token × Option Expr × List Clause) : Prop :=
    AllPlaced loop index .expr m.2.1.toList ∧ AllPlaced loop index .action m.2.2 ∧
      Guarded m.2.2 ∧ (m.2.2 = [] → m.2.1.isSome)
  refine Yields.bind (P := fun branches => ∀ site,
    Node.Placed loop index (.stmt (.ifElse site branches))) (.rounds I ?_ ?_)
      fun branches hbranches => still_blockEnd.bind fun _ => .pure hbranches
  · exact ⟨List.forall_mem_singleton.2 hguard, .nil, List.forall_mem_nil _, fun _ => rfl⟩
  rintro ⟨word, head, branches⟩ ⟨hhead, hbranches, hguarded, hfirst⟩
  refine (hblock .conditional _ _).bind fun body hbody => still_siteAt.bind fun site => ?_
  have hlast : Node.Placed loop index (.action ⟨site, head, body⟩) :=
    Node.placed_iff.2 (by simpa [AllPlaced, or_imp, forall_and] using And.intro hhead hbody)
  have hall := hbranches.concat hlast
  have hdone : ∀ site', Node.Placed loop index
      (.stmt (.ifElse site' (branches ++ [⟨site, head, body⟩]))) := fun site' =>
    Node.placed_iff.2 ⟨fits_branches hguarded hfirst, by
      simpa [AllPlaced, or_imp, forall_and] using hall⟩
  split
  · exact .pure hdone
  rename_i hsome
  have hguarded' : Guarded (branches ++ [⟨site, head, body⟩]) :=
    List.forall_mem_append.2 ⟨hguarded, List.forall_mem_singleton.2 (by
      simpa [Option.isSome_iff_ne_none] using hsome)⟩
  refine still_eatIf.bind fun found => ?_
  cases found with
  | some word =>
    refine (yields_expression _ _).bind fun guard hguard => .pure ?_
    exact ⟨List.forall_mem_singleton.2 hguard, hall, hguarded', fun _ => rfl⟩
  | none =>
    refine still_eatIf.bind fun found => ?_
    cases found with
    | some word => exact .pure ⟨.nil, hall, hguarded', fun h => absurd h (by simp)⟩
    | none => exact .pure hdone

theorem yields_switchStmt (opener : Token) : YieldsStmt loop index (switchStmt block opener) := by
  refine (yields_expression _ _).bind fun subject hsubject => ?_
  refine Yields.bind (P := AllPlaced loop index .arm) (.rounds (AllPlaced loop index .arm) .nil
    fun arms harms => still_skipSeparators.bind fun _ => ?_) fun arms harms =>
      still_blockEnd.bind fun _ => .pure fun site => ?_
  · have harm : ∀ (word : Token) (head : Option Expr), AllPlaced loop index .expr head.toList →
        Yields loop index
          (do
            let body ← block .switch
            return Round.again (arms ++ [⟨← siteAt word.location, head, body⟩]))
          (Round.Holds (AllPlaced loop index .arm) (AllPlaced loop index .arm)) := by
      refine fun word head hhead => (hblock .switch _ _).bind fun body hbody => ?_
      refine still_siteAt.bind fun site => .pure (harms.concat ?_)
      exact Node.placed_iff.2 (by simpa [AllPlaced, or_imp, forall_and] using And.intro hhead hbody)
    refine still_eatIf.bind fun found => ?_
    cases found with
    | some word =>
      exact (yields_expression _ _).bind fun value hvalue =>
        harm word (some value) (List.forall_mem_singleton.2 hvalue)
    | none =>
      refine still_eatIf.bind fun found => ?_
      cases found with
      | some word => exact harm word none .nil
      | none =>
        refine still_checkWord.bind fun closed => ?_
        split
        · exact .pure harms
        · exact .failing fun _ _ _ => unexpected_ok
  · exact Node.placed_iff.2 (by simpa [AllPlaced, hsubject] using harms)

theorem yields_forStmt (opener : Token) : YieldsStmt loop index (forStmt block opener) := by
  refine still_eatIf.bind fun paren => yields_loopHead.bind fun head hhead => ?_
  have hbody : YieldsStmt loop index (do
      let body ← block .loop
      blockEnd opener
      return (Stmt.forLoop · head.1 head.2 body)) := by
    refine (hblock .loop _ _).bind fun body hbody => still_blockEnd.bind fun _ => ?_
    refine .pure fun site => ?_
    exact Node.placed_iff.2 (by
      simpa [AllPlaced, hhead] using hbody)
  dsimp only
  split
  · exact (still_discard still_expect).bind fun _ => hbody
  · exact hbody

theorem yields_parForStmt (opener : Token) : YieldsStmt loop index (parForStmt block opener) := by
  refine still_eatIf.bind fun paren => yields_loopHead.bind fun head hhead => ?_
  have hbody : ∀ workers, AllPlaced true index .expr (Option.toList workers) →
      YieldsStmt loop index (do
        let body ← block .loop
        blockEnd opener
        return (Stmt.parFor · head.1 head.2 workers body)) := by
    refine fun workers hworkers => (hblock .loop _ _).bind fun body hbody => ?_
    refine still_blockEnd.bind fun _ => .pure fun site => ?_
    exact Node.placed_iff.2 (by
      simpa [AllPlaced, or_imp, forall_and, hhead] using And.intro hworkers hbody)
  dsimp only
  split
  · refine still_eatIf.bind fun comma => ?_
    split
    · exact (yields_expression _ _).some.bind fun workers hworkers =>
        (still_discard still_expect).bind fun _ =>
          hbody workers fun e he => (hworkers e he).in_loop rfl
    · exact (still_discard still_expect).bind fun _ => hbody none .nil
  · exact hbody none .nil

theorem yields_whileStmt (opener : Token) : YieldsStmt loop index (whileStmt block opener) := by
  refine (yields_expression _ _).bind fun guard hguard => ?_
  refine (hblock .loop _ _).bind fun body hbody => ?_
  refine still_blockEnd.bind fun _ => .pure fun site => ?_
  exact Node.placed_iff.2 (by simpa [AllPlaced, hguard.in_loop rfl] using hbody)

theorem yields_tryStmt (opener : Token) : YieldsStmt loop index (tryStmt block opener) := by
  refine (hblock .region _ _).bind fun body hbody => still_eatIf.bind fun found => ?_
  have hend : ∀ (var : Option Name) (handler : Option (List Stmt)),
      AllPlaced loop index .name var.toList → AllPlaced loop index .stmt (handler.getD []) →
      YieldsStmt loop index (do
        blockEnd opener
        return (Stmt.tryCatch · body var handler)) := by
    refine fun var handler hvar hhandler => still_blockEnd.bind fun _ => .pure fun site => ?_
    exact Node.placed_iff.2 (by
      simpa [AllPlaced, or_imp, forall_and] using And.intro hbody (And.intro hvar hhandler))
  have hhandler : ∀ var : Option Name, AllPlaced loop index .name var.toList →
      YieldsStmt loop index (do
        let handler ← block .region
        blockEnd opener
        return (Stmt.tryCatch · body var (some handler))) :=
    fun var hvar => (hblock .region _ _).bind fun handler => hend var (some handler) hvar
  split
  · refine .get fun s _ => ?_
    split
    · exact (yields_identifier _ _).some.bind fun var hvar => hhandler var hvar
    · exact hhandler none .nil
  · exact hend none none .nil .nil

theorem yields_spmdStmt (opener : Token) : YieldsStmt loop index (spmdStmt block opener) := by
  have hbody : ∀ options, AllPlaced loop true .expr options → YieldsStmt loop index (do
      let body ← block .region
      blockEnd opener
      return (Stmt.spmd · options body)) := by
    refine fun options hoptions => (hblock .region _ _).bind fun body hbody => ?_
    refine still_blockEnd.bind fun _ => .pure fun site => ?_
    exact Node.placed_iff.2 (by
      simpa [AllPlaced, or_imp, forall_and] using And.intro hoptions hbody)
  refine still_check.bind fun paren => ?_
  split
  · exact (yields_arguments yields_expression).bind fun options hoptions => hbody options hoptions
  · exact hbody [] .nil

end Blocks

/-! ## Statements without a block -/

theorem yields_declaredNames : Yields loop index declaredNames (AllPlaced loop index .name) := by
  refine (yields_identifier _ _).bind fun first hfirst => still_eatWhile.bind fun more => ?_
  exact (Yields.mapM more fun t _ => yields_identifierOf t _ _).bind fun names hnames =>
    .pure (List.forall_mem_cons.2 ⟨hfirst, hnames⟩)

theorem yields_assignableName {e : Expr} (he : Node.Placed loop index (.expr e)) :
    Yields loop index (assignableName e) fun n => Node.Placed loop index (.name n) := by
  cases e with
  | name n => exact .pure (placed_name_iff.1 he)
  | _ => exact .failing fun _ _ _ => fail_ok

theorem yields_expressionStmt : YieldsStmt loop index expressionStmt := by
  refine still_check.bind fun bracketed => ?_
  refine Still.bind (p := modify _) (still_modify fun _ => ⟨rfl, rfl⟩) fun _ => ?_
  refine (yields_expression _ _).bind fun lhs hlhs => ?_
  refine Still.bind (p := modify _) (still_modify fun _ => ⟨rfl, rfl⟩) fun _ => ?_
  refine still_eatIf.bind fun equals => ?_
  split
  · split
    · refine .failing fun _ _ _ h => ?_
      obtain ⟨_, _, h, -⟩ := bind_ok h
      exact fail_ok h
    · exact .pure fun site => Node.placed_iff.2 (by simp [hlhs])
  split
  · rename_i row
    have hitems : AllPlaced loop index .expr row.items := by
      have hrow := (Node.placed_iff.1 hlhs).2 (.row, .row row) (by simp)
      simpa [AllPlaced] using (Node.placed_iff.1 hrow).2
    refine (Yields.mapM row.items fun e he => yields_assignableName (hitems e he)).bind
      fun names hnames => (yields_expression _ _).bind fun rhs hrhs => .pure fun site => ?_
    exact Node.placed_iff.2 (by simpa [or_imp, forall_and, hrhs] using hnames)
  · refine (yields_assignableName hlhs).bind fun n hn => ?_
    refine (yields_expression _ _).bind fun rhs hrhs => ?_
    exact .pure fun site => Node.placed_iff.2 (by simp [hn, hrhs])

theorem yields_keywordStmt (hblock : YieldsBlock block) (t : Token) :
    YieldsStmt loop index (keywordStmt block t) := by
  rw [keywordStmt]
  dsimp only
  split
  · exact still_advance.bind fun _ => yields_ifStmt hblock t
  · exact still_advance.bind fun _ => yields_switchStmt hblock t
  · exact still_advance.bind fun _ => yields_forStmt hblock t
  · exact still_advance.bind fun _ => yields_parForStmt hblock t
  · exact still_advance.bind fun _ => yields_whileStmt hblock t
  · exact still_advance.bind fun _ => yields_tryStmt hblock t
  · exact still_advance.bind fun _ => yields_spmdStmt hblock t
  · refine still_advance.bind fun _ => yields_declaredNames.bind fun ns hns => .pure fun site => ?_
    exact Node.placed_iff.2 (by simpa [AllPlaced] using hns)
  · refine still_advance.bind fun _ => yields_declaredNames.bind fun ns hns => .pure fun site => ?_
    exact Node.placed_iff.2 (by simpa [AllPlaced] using hns)
  · refine still_advance.bind fun _ => (yields_requireLoop t).bind fun _ hloop => ?_
    refine .pure fun site => ?_
    exact Node.placed_iff.2 (by simp [hloop])
  · refine still_advance.bind fun _ => (yields_requireLoop t).bind fun _ hloop => ?_
    refine .pure fun site => ?_
    exact Node.placed_iff.2 (by simp [hloop])
  · exact still_advance.bind fun _ => .pure fun site => Node.placed_iff.2 (by simp)
  · exact .failing fun _ _ _ => fail_ok

theorem yields_commandHead : Yields loop index commandHead (AllPlaced loop index .stmt) := by
  refine (yields_dottedName _ _).bind fun head hhead => still_eatWhile.bind fun words => ?_
  split
  · refine Yields.mapM words fun word _ => still_siteAt.bind fun site => .pure ?_
    exact Node.placed_iff.2 (by simp)
  · refine (Yields.mapM (Q := fun e => Node.Placed loop true (.expr e)) words fun word _ =>
      still_siteAt.bind fun site => .pure (Node.placed_iff.2 (by simp))).bind fun args hargs => ?_
    refine still_siteFrom.bind fun inner => still_siteFrom.bind fun outer => .pure ?_
    have hcall : Node.Placed loop index (.name (.reference inner head args)) :=
      Node.placed_iff.2 (by simpa [hhead] using hargs)
    exact List.forall_mem_singleton.2 (Node.placed_iff.2 (by simp [placed_name_iff.2 hcall]))

/-! ## Lists of statements -/

theorem yields_statement (hblock : YieldsBlock block) (t : Token) :
    Yields loop index (statement block t) (AllPlaced loop index .stmt) := by
  rw [statement_eq]
  refine Yields.bind (P := AllPlaced loop index .stmt) (.get fun s _ => ?_) fun stmts hstmts =>
    still_endStatement.bind fun _ => .pure hstmts
  split
  · exact yields_commandHead
  · have hmake : ∀ {p : Parse (Site → Stmt)}, YieldsStmt loop index p → Yields loop index
        (do
          let make ← p
          return [make (← siteFrom t.location)]) (AllPlaced loop index .stmt) := fun hp =>
      hp.bind fun make hmade => still_siteFrom.bind fun site =>
        .pure (List.forall_mem_singleton.2 (hmade site))
    split
    · exact hmake (yields_keywordStmt hblock t)
    · exact still_advance.bind fun _ => hmake (.pure fun site => Node.placed_iff.2 (by simp))
    · exact hmake yields_expressionStmt

theorem yields_statementList (hblock : YieldsBlock block) :
    Yields loop index (statementList block) (AllPlaced loop index .stmt) := by
  rw [statementList_eq]
  refine .rounds (AllPlaced loop index .stmt) .nil fun stmts hstmts => ?_
  refine still_skipSeparators.bind fun _ => still_current?.bind fun t => ?_
  cases t with
  | none => exact .pure hstmts
  | some t =>
    rw [statementChoice]
    split
    · exact .pure hstmts
    split
    · refine .get fun s _ => ?_
      split
      · exact .pure hstmts
      · exact .pure hstmts
      · exact .failing fun _ _ _ => fail_ok
    split
    · exact .failing fun _ _ _ => fail_ok
    · exact (yields_statement hblock t).bind fun more hmore =>
        .pure (List.forall_mem_append.2 ⟨hstmts, hmore⟩)

theorem yields_statementsWithin (fuel : Nat) :
    Yields loop index (statementsWithin fuel) (AllPlaced loop index .stmt) := by
  induction fuel generalizing loop index with
  | zero => exact .failing fun _ _ _ => stalled_ok
  | succ fuel ih => exact yields_statementList fun _ _ _ => .inFrame ih

theorem yields_statements : Yields loop index statements (AllPlaced loop index .stmt) :=
  .get fun _ _ => yields_statementsWithin _

end MFile.Grammar.Parse
