import MFile.Grammar.Stmt
import MFile.Proofs.Grammar.Blame.Expression
import MFile.Proofs.Grammar.Rounds

/-! Errors in statements are about the file that is read. -/

namespace MFile.Grammar.Parse

variable {file : String} {block : BlockParser}

abbrev BlamesBlock (file : String) (block : BlockParser) : Prop :=
  ∀ frame, BlamesOnly file (block frame)

theorem blames_requireLoop {t : Token} (ht : t.location.file = file) :
    BlamesOnly file (requireLoop t) := by
  refine .get fun s _ => ?_
  split
  · exact .done
  · exact .fail ht

theorem blames_blockEnd {opener : Token} : BlamesOnly file (blockEnd opener) := by
  refine blames_eatIf.next fun found => ?_
  split
  · exact blames_failHere
  · exact .done

/-! ## Statements with blocks -/

section Blocks

variable (hblock : BlamesBlock file block)

include hblock

theorem blames_ifStmt (opener : Token) : BlamesOnly file (ifStmt block opener) := by
  refine blames_expression.next fun guard => (Blames.rounds_only fun soFar => ?_).next
    fun _ => blames_blockEnd.next fun _ => .done
  obtain ⟨word, head, branches⟩ := soFar
  refine (hblock _).next fun body => blames_siteAt.next fun site => ?_
  split
  · exact .done
  refine blames_eatIf.next fun found => ?_
  cases found with
  | some word => exact blames_expression.next fun _ => .done
  | none =>
    refine blames_eatIf.next fun found => ?_
    cases found <;> exact .done

theorem blames_switchStmt (opener : Token) : BlamesOnly file (switchStmt block opener) := by
  refine blames_expression.next fun subject => (Blames.rounds_only fun arms => ?_).next
    fun _ => blames_blockEnd.next fun _ => .done
  have harm : ∀ (word : Token) (head : Option Expr), BlamesOnly file (do
      let body ← block .switch
      return (Round.again (arms ++ [⟨← siteAt word.location, head, body⟩]) :
        Round (List Clause) (List Clause))) :=
    fun _ _ => (hblock _).next fun _ => blames_siteAt.next fun _ => .done
  refine blames_skipSeparators.next fun _ => blames_eatIf.next fun found => ?_
  cases found with
  | some word => exact blames_expression.next fun value => harm word (some value)
  | none =>
    refine blames_eatIf.next fun found => ?_
    cases found with
    | some word => exact harm word none
    | none =>
      refine blames_checkWord.next fun closed => ?_
      split
      · exact .done
      · exact blames_unexpected

omit hblock in
theorem blames_loopHead : BlamesOnly file loopHead :=
  blames_identifier.next fun _ => (blames_discard blames_expect).next fun _ =>
    blames_expression.next fun _ => .done

theorem blames_forStmt (opener : Token) : BlamesOnly file (forStmt block opener) := by
  have hbody : ∀ head : Name × Expr, BlamesOnly file (do
      let body ← block .loop
      blockEnd opener
      return (Stmt.forLoop · head.1 head.2 body)) :=
    fun _ => (hblock _).next fun _ => blames_blockEnd.next fun _ => .done
  refine blames_eatIf.next fun paren => blames_loopHead.next fun head => ?_
  dsimp only
  split
  · exact (blames_discard blames_expect).next fun _ => hbody head
  · exact hbody head

theorem blames_parForStmt (opener : Token) : BlamesOnly file (parForStmt block opener) := by
  have hbody : ∀ (head : Name × Expr) (workers : Option Expr), BlamesOnly file (do
      let body ← block .loop
      blockEnd opener
      return (Stmt.parFor · head.1 head.2 workers body)) :=
    fun _ _ => (hblock _).next fun _ => blames_blockEnd.next fun _ => .done
  refine blames_eatIf.next fun paren => blames_loopHead.next fun head => ?_
  dsimp only
  split
  · refine blames_eatIf.next fun comma => ?_
    split
    · exact (Blames.map_only blames_expression).next fun workers =>
        (blames_discard blames_expect).next fun _ => hbody head workers
    · exact (blames_discard blames_expect).next fun _ => hbody head none
  · exact hbody head none

theorem blames_whileStmt (opener : Token) : BlamesOnly file (whileStmt block opener) :=
  blames_expression.next fun _ => (hblock _).next fun _ => blames_blockEnd.next fun _ => .done

theorem blames_tryStmt (opener : Token) : BlamesOnly file (tryStmt block opener) := by
  refine (hblock _).next fun body => blames_eatIf.next fun found => ?_
  have hend : ∀ (var : Option Name) (handler : Option (List Stmt)), BlamesOnly file (do
      blockEnd opener
      return (Stmt.tryCatch · body var handler)) :=
    fun _ _ => blames_blockEnd.next fun _ => .done
  split
  · refine .get fun s _ => ?_
    split
    · exact (Blames.map_only blames_identifier).next fun var => (hblock _).next fun handler =>
        hend var (some handler)
    · exact (hblock _).next fun handler => hend none (some handler)
  · exact hend none none

theorem blames_spmdStmt (opener : Token) : BlamesOnly file (spmdStmt block opener) := by
  have hbody : ∀ options : List Expr, BlamesOnly file (do
      let body ← block .region
      blockEnd opener
      return (Stmt.spmd · options body)) :=
    fun _ => (hblock _).next fun _ => blames_blockEnd.next fun _ => .done
  refine blames_check.next fun paren => ?_
  split
  · exact (blames_arguments blames_expression).next fun options => hbody options
  · exact hbody []

end Blocks

/-! ## Statements without a block -/

theorem blames_declaredNames : BlamesOnly file declaredNames :=
  blames_identifier.next fun _ => blames_eatWhile.next fun more =>
    (Blames.mapM more fun _ _ => blames_identifierOf).next fun _ => .done

theorem blames_assignableName {e : Expr} (he : (Node.expr e).Tidy file) :
    BlamesOnly file (assignableName e) := by
  rw [assignableName]
  split
  · exact .done
  · exact .fail he.range.file_eq

theorem blames_expressionStmt : BlamesOnly file expressionStmt := by
  refine blames_check.next fun bracketed => ?_
  refine .modify (fun _ => rfl) fun _ => ?_
  refine blames_expression_tidy.bind fun lhs hlhs => ?_
  refine .modify (fun _ => rfl) fun _ => ?_
  refine blames_eatIf.next fun equals => ?_
  split
  · split
    · exact .stop (.fail hlhs.range.file_eq)
    · exact .done
  split
  · rename_i row
    have hitems : ∀ item ∈ row.items, (Node.expr item).Tidy file := fun item hitem =>
      (hlhs.child (c := (.row, .row row)) (by simp)).child (c := (.element, .expr item))
        (by simpa using hitem)
    exact (Blames.mapM row.items fun e he => blames_assignableName (hitems e he)).next fun _ =>
      blames_expression.next fun _ => .done
  · exact (blames_assignableName hlhs).next fun _ => blames_expression.next fun _ => .done

theorem blames_keywordStmt (hblock : BlamesBlock file block) {t : Token}
    (ht : t.location.file = file) : BlamesOnly file (keywordStmt block t) := by
  rw [keywordStmt]
  dsimp only
  split
  · exact blames_advance.next fun _ => blames_ifStmt hblock t
  · exact blames_advance.next fun _ => blames_switchStmt hblock t
  · exact blames_advance.next fun _ => blames_forStmt hblock t
  · exact blames_advance.next fun _ => blames_parForStmt hblock t
  · exact blames_advance.next fun _ => blames_whileStmt hblock t
  · exact blames_advance.next fun _ => blames_tryStmt hblock t
  · exact blames_advance.next fun _ => blames_spmdStmt hblock t
  · exact blames_advance.next fun _ => blames_declaredNames.next fun _ => .done
  · exact blames_advance.next fun _ => blames_declaredNames.next fun _ => .done
  · exact blames_advance.next fun _ => (blames_requireLoop ht).next fun _ => .done
  · exact blames_advance.next fun _ => (blames_requireLoop ht).next fun _ => .done
  · exact blames_advance.next fun _ => .done
  · exact .fail ht

theorem blames_commandHead : BlamesOnly file commandHead := by
  refine blames_dottedName.next fun head => blames_eatWhile.next fun words => ?_
  split
  · exact .mapM words fun _ _ => blames_siteAt.next fun _ => .done
  · refine (Blames.mapM words fun _ _ => blames_siteAt.next fun _ => .done).next fun _ => ?_
    exact blames_siteFrom.next fun _ => blames_siteFrom.next fun _ => .done

/-! ## Lists of statements -/

theorem blames_statement (hblock : BlamesBlock file block) {t : Token}
    (ht : t.location.file = file) : BlamesOnly file (statement block t) := by
  rw [statement_eq]
  have hhead : BlamesOnly file (statementHead block t) := ?_
  · exact hhead.next fun _ => blames_endStatement.next fun _ => .done
  refine .get fun s _ => ?_
  split
  · exact blames_commandHead
  · have hmake : ∀ {p : Parse (Site → Stmt)}, BlamesOnly file p → BlamesOnly file (do
          let make ← p
          return [make (← siteFrom t.location)]) :=
      fun hp => hp.next fun _ => blames_siteFrom.next fun _ => .done
    split
    · exact hmake (blames_keywordStmt hblock ht)
    · exact blames_advance.next fun _ => hmake .done
    · exact hmake blames_expressionStmt

theorem blames_statementList (hblock : BlamesBlock file block) :
    BlamesOnly file (statementList block) := by
  rw [statementList_eq]
  refine .rounds_only fun stmts => blames_skipSeparators.next fun _ =>
    blames_current?.bind fun t ht => ?_
  cases t with
  | none => exact .done
  | some t =>
    have hfile := ht t rfl
    rw [statementChoice]
    split
    · exact .done
    split
    · refine .get fun s _ => ?_
      split
      · exact .done
      · exact .done
      · exact .fail hfile
    split
    · exact .fail hfile
    · exact (blames_statement hblock hfile).next fun _ => .done

theorem blames_statementsWithin (fuel : Nat) : BlamesOnly file (statementsWithin fuel) := by
  induction fuel with
  | zero => exact blames_stalled
  | succ fuel ih =>
    exact blames_statementList fun _ => .bracketed ih (fun _ => rfl) fun _ _ => rfl

theorem blames_statements : BlamesOnly file statements :=
  .get fun _ _ => blames_statementsWithin _

end MFile.Grammar.Parse
