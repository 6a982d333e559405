import MFile.Proofs.Grammar.Onward.Expression
import MFile.Proofs.Grammar.Progress.Statements

/-! Statements only move on, however deep their blocks may go. -/

namespace MFile.Grammar.Parse

abbrev OnwardBlocks (block block' : BlockParser) : Prop :=
  ∀ frame, Onward (block frame) (block' frame)

theorem onward_requireLoop (t : Token) : MovesOn (requireLoop t) := by
  refine .get fun s => ?_
  split
  · exact .done
  · exact .fail

theorem onward_blockEnd (opener : Token) : MovesOn (blockEnd opener) := by
  refine onward_eatIf.bind fun found => ?_
  split
  · exact onward_failHere
  · exact .done

theorem onward_loopHead : MovesOn loopHead :=
  onward_identifier.bind fun _ => onward_expect.discard.bind fun _ =>
    onward_expression.bind fun _ => .done

/-! ## Statements with blocks -/

section Blocks

variable {block block' : BlockParser} (hblock : OnwardBlocks block block')

include hblock

theorem onward_ifStmt (opener : Token) : Onward (ifStmt block opener) (ifStmt block' opener) := by
  refine onward_expression.bind fun guard => (Onward.rounds fun soFar => ?_).bind
    fun _ => (onward_blockEnd opener).bind fun _ => .done
  obtain ⟨word, head, branches⟩ := soFar
  refine (hblock _).bind fun body => onward_siteAt.bind fun site => ?_
  split
  · exact .done
  refine onward_eatIf.bind fun found => ?_
  cases found with
  | some word => exact onward_expression.bind fun _ => .done
  | none =>
    refine onward_eatIf.bind fun found => ?_
    cases found <;> exact .done

theorem onward_switchStmt (opener : Token) :
    Onward (switchStmt block opener) (switchStmt block' opener) := by
  refine onward_expression.bind fun subject => (Onward.rounds fun arms => ?_).bind
    fun _ => (onward_blockEnd opener).bind fun _ => .done
  refine onward_skipSeparators.bind fun _ => onward_eatIf.bind fun found => ?_
  cases found with
  | some word => exact onward_expression.bind fun value => (hblock _).bind fun _ =>
      onward_siteAt.bind fun _ => .done
  | none =>
    refine onward_eatIf.bind fun found => ?_
    cases found with
    | some word => exact (hblock _).bind fun _ => onward_siteAt.bind fun _ => .done
    | none =>
      refine onward_checkWord.bind fun closed => ?_
      split
      · exact .done
      · exact onward_unexpected

theorem onward_blockThen {α : Type} (frame : Frame) (opener : Token) (make : List Stmt → α) :
    Onward (do
      let body ← block frame
      blockEnd opener
      return make body) (do
      let body ← block' frame
      blockEnd opener
      return make body) :=
  (hblock frame).bind fun _ => (onward_blockEnd opener).bind fun _ => .done

theorem onward_forStmt (opener : Token) :
    Onward (forStmt block opener) (forStmt block' opener) := by
  refine onward_eatIf.bind fun paren => onward_loopHead.bind fun head => ?_
  dsimp only
  split
  · exact onward_expect.discard.bind fun _ => onward_blockThen hblock _ opener _
  · exact onward_blockThen hblock _ opener _

theorem onward_parForStmt (opener : Token) :
    Onward (parForStmt block opener) (parForStmt block' opener) := by
  refine onward_eatIf.bind fun paren => onward_loopHead.bind fun head => ?_
  dsimp only
  split
  · refine onward_eatIf.bind fun comma => ?_
    split
    · exact onward_expression.map.bind fun workers => onward_expect.discard.bind fun _ =>
        onward_blockThen hblock _ opener _
    · exact onward_expect.discard.bind fun _ => onward_blockThen hblock _ opener _
  · exact onward_blockThen hblock _ opener _

theorem onward_whileStmt (opener : Token) :
    Onward (whileStmt block opener) (whileStmt block' opener) :=
  onward_expression.bind fun _ => onward_blockThen hblock _ opener _

theorem onward_tryStmt (opener : Token) :
    Onward (tryStmt block opener) (tryStmt block' opener) := by
  refine (hblock _).bind fun body => onward_eatIf.bind fun found => ?_
  split
  · refine .get fun s => ?_
    split
    · exact onward_identifier.map.bind fun var => (hblock _).bind fun handler =>
        (onward_blockEnd opener).bind fun _ => .done
    · exact (hblock _).bind fun handler => (onward_blockEnd opener).bind fun _ => .done
  · exact (onward_blockEnd opener).bind fun _ => .done

theorem onward_spmdStmt (opener : Token) :
    Onward (spmdStmt block opener) (spmdStmt block' opener) := by
  refine onward_check.bind fun paren => ?_
  split
  · exact (onward_arguments onward_expression _).bind fun options =>
      onward_blockThen hblock _ opener _
  · exact onward_blockThen hblock _ opener _

end Blocks

/-! ## Statements without a block -/

theorem onward_declaredNames : MovesOn declaredNames :=
  onward_identifier.bind fun _ => onward_eatWhile.bind fun more =>
    (Onward.mapM more fun _ => onward_identifierOf).bind fun _ => .done

theorem onward_assignableName (e : Expr) : MovesOn (assignableName e) := by
  rw [assignableName]
  split
  · exact .done
  · exact .fail

theorem onward_expressionStmt : MovesOn expressionStmt := by
  refine onward_check.bind fun bracketed => ?_
  refine .modify (fun _ => rfl) (fun _ => rfl) fun _ => ?_
  refine onward_expression.bind fun lhs => ?_
  refine .modify (fun _ => rfl) (fun _ => rfl) fun _ => ?_
  refine onward_eatIf.bind fun equals => ?_
  split
  · split
    · exact Onward.fail.bind fun _ => .done
    · exact .done
  split
  · rename_i row
    exact (Onward.mapM row.items onward_assignableName).bind fun _ =>
      onward_expression.bind fun _ => .done
  · exact (onward_assignableName _).bind fun _ => onward_expression.bind fun _ => .done

theorem onward_commandHead : MovesOn commandHead := by
  refine onward_dottedName.bind fun head => onward_eatWhile.bind fun words => ?_
  split
  · exact .mapM words fun _ => onward_siteAt.bind fun _ => .done
  · refine (Onward.mapM words fun _ => onward_siteAt.bind fun _ => .done).bind fun _ => ?_
    exact onward_siteFrom.bind fun _ => onward_siteFrom.bind fun _ => .done

theorem onward_command : MovesOn command := by
  rw [command_eq]
  exact onward_commandHead.bind fun _ => onward_endStatement.bind fun _ => .done

/-! ## Lists of statements -/

section Blocks

variable {block block' : BlockParser} (hblock : OnwardBlocks block block')

include hblock

theorem onward_keywordStmt (t : Token) :
    Onward (keywordStmt block t) (keywordStmt block' t) := by
  rw [keywordStmt, keywordStmt]
  dsimp only
  split
  · exact onward_advance.bind fun _ => onward_ifStmt hblock t
  · exact onward_advance.bind fun _ => onward_switchStmt hblock t
  · exact onward_advance.bind fun _ => onward_forStmt hblock t
  · exact onward_advance.bind fun _ => onward_parForStmt hblock t
  · exact onward_advance.bind fun _ => onward_whileStmt hblock t
  · exact onward_advance.bind fun _ => onward_tryStmt hblock t
  · exact onward_advance.bind fun _ => onward_spmdStmt hblock t
  · exact onward_advance.bind fun _ => onward_declaredNames.bind fun _ => .done
  · exact onward_advance.bind fun _ => onward_declaredNames.bind fun _ => .done
  · exact onward_advance.bind fun _ => (onward_requireLoop t).bind fun _ => .done
  · exact onward_advance.bind fun _ => (onward_requireLoop t).bind fun _ => .done
  · exact onward_advance.bind fun _ => .done
  · exact .fail

theorem onward_statement (t : Token) : Onward (statement block t) (statement block' t) := by
  rw [statement_eq, statement_eq]
  have hhead : Onward (statementHead block t) (statementHead block' t) := ?_
  · exact hhead.bind fun _ => onward_endStatement.bind fun _ => .done
  refine .get fun s => ?_
  split
  · exact onward_commandHead
  · split
    · exact (onward_keywordStmt hblock t).bind fun _ => onward_siteFrom.bind fun _ => .done
    · exact onward_advance.bind fun _ => Onward.done.bind fun _ =>
        onward_siteFrom.bind fun _ => .done
    · exact onward_expressionStmt.bind fun _ => onward_siteFrom.bind fun _ => .done

theorem onward_statementList : Onward (statementList block) (statementList block') := by
  rw [statementList_eq, statementList_eq]
  refine .rounds fun stmts => onward_skipSeparators.bind fun _ =>
    onward_current?.bind fun t => ?_
  cases t with
  | none => exact .done
  | some t =>
    dsimp only [statementChoice]
    split
    · exact .done
    split
    · refine .get fun s => ?_
      split
      · exact .done
      · exact .done
      · exact .fail
    split
    · exact .fail
    · exact (onward_statement hblock t).bind fun _ => .done

end Blocks

theorem Onward.inFrame {α : Type} {p q : Parse α} (h : Onward p q) (frame : Frame) :
    Onward (Parse.inFrame frame p) (Parse.inFrame frame q) :=
  .bracketed h (fun _ => ⟨rfl, rfl⟩) fun _ _ => ⟨rfl, rfl⟩

theorem onward_statementsWithin {m n : Nat} (h : m ≤ n) :
    Onward (statementsWithin m) (statementsWithin n) := by
  induction m generalizing n with
  | zero => exact onward_stalled _
  | succ m ih =>
    obtain ⟨n, rfl⟩ := Nat.exists_eq_add_of_lt h
    exact onward_statementList fun frame => (ih (by omega)).inFrame frame

theorem not_stalls_statements (s : State) : ¬ Stalls (statements s) :=
  (settles_statements s (Nat.lt_succ_self _)).not_stalls

theorem statementsWithin_eq {s : State} {n : Nat} (h : s.ahead.length < n) :
    statementsWithin n s = statements s :=
  (onward_statementsWithin h s).2.resolve_left (not_stalls_statements s)

theorem onward_within_statements (n : Nat) : Onward (statementsWithin n) statements := by
  intro s
  refine ⟨(onward_statementsWithin (Nat.le_refl n) s).1, ?_⟩
  obtain hn | hn := Nat.lt_or_ge s.ahead.length n
  · exact .inr (statementsWithin_eq hn).symm
  · exact (onward_statementsWithin (Nat.le_succ_of_le hn) s).2

def nested : BlockParser := fun frame => inFrame frame statements

theorem statements_eq : statements = statementList nested := by
  funext s
  have hdeeper : statements s = statementList
      (fun frame => inFrame frame (statementsWithin (s.ahead.length + 1))) s :=
    (statementsWithin_eq (Nat.lt_succ_of_lt (Nat.lt_succ_self _))).symm
  have hsame := (onward_statementList
    (fun frame => (onward_within_statements (s.ahead.length + 1)).inFrame frame) s).2
  rw [← hdeeper] at hsame
  exact (hsame.resolve_left (not_stalls_statements s)).symm

theorem onward_statements : MovesOn statements :=
  .get fun _ => onward_statementsWithin (Nat.le_refl _)

theorem onward_nested : OnwardBlocks nested nested := fun frame => onward_statements.inFrame frame

end MFile.Grammar.Parse
