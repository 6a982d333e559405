import MFile.Proofs.Grammar.Indexing.Calls
import MFile.Proofs.Grammar.Onward.Statements

/-!
What a parse leaves of the blocks around it. The frames and the depth of methods are changed on
the way into a body and changed back on the way out, and a parse may fail anywhere in between.
Whether it fails or not, whoever has asked for a statement finds both as they were.
-/

namespace MFile.Grammar

structure State.SameBlocks (s s' : State) : Prop where
  frames : s'.frames = s.frames
  methodDepth : s'.methodDepth = s.methodDepth

namespace State.SameBlocks

variable {s mid s' : State}

theorem refl (s : State) : s.SameBlocks s := ⟨rfl, rfl⟩

theorem trans (h : s.SameBlocks mid) (h' : mid.SameBlocks s') : s.SameBlocks s' :=
  ⟨h'.frames.trans h.frames, h'.methodDepth.trans h.methodDepth⟩

end State.SameBlocks

namespace Parse

variable {α β : Type} {p : Parse α} {f : α → Parse β} {s : State}

/-- Whether it fails or not, `p` leaves the blocks around it as it has found them. -/
def Restores (p : Parse α) : Prop := ∀ s : State, s.SameBlocks (reached (p s))

namespace Restores

theorem done {a : α} : Restores (pure a : Parse α) := .refl

theorem throw {e : ParseError} : Restores (MonadExcept.throw e : Parse α) := .refl

theorem fail {l : Location} {cause : Cause} : Restores (Parse.fail l cause : Parse α) := .refl

theorem bind (h : Restores p) (hf : ∀ a, Restores (f a)) : Restores (p >>= f) := by
  intro s
  have hs := h s
  cases hp : p s with
  | error e mid =>
    rw [hp] at hs
    rw [bind_error hp]
    exact hs
  | ok a mid =>
    rw [hp] at hs
    rw [bind_run hp]
    exact hs.trans (hf a mid)

theorem map {g : α → β} (h : Restores p) : Restores (g <$> p) := by
  rw [map_eq_pure_bind]
  exact h.bind fun _ => .done

theorem discard (h : Restores p) : Restores (discard p) := h.bind fun _ => .done

theorem get {f : State → Parse β} (h : ∀ s, Restores (f s)) : Restores (MonadState.get >>= f) :=
  fun s => h s s

theorem modify {change : State → State} {f : PUnit → Parse β}
    (hchange : ∀ s : State, s.SameBlocks (change s)) (h : ∀ u, Restores (f u)) :
    Restores (modifyGet (fun s => (⟨⟩, change s)) >>= f) :=
  Restores.bind hchange h

theorem mapM {g : α → Parse β} (as : List α) (h : ∀ a, Restores (g a)) :
    Restores (as.mapM g) := by
  induction as with
  | nil => exact .done
  | cons a as ih =>
    rw [List.mapM_cons]
    exact (h a).bind fun _ => ih.bind fun _ => .done

theorem bracketed {change : State → State} {undo : State → State → State} (h : Restores p)
    (hundo : ∀ s s', (change s).SameBlocks s' → s.SameBlocks (undo s s')) :
    Restores (Parse.bracketed change undo p) := by
  intro s
  have hs := h (change s)
  rw [Parse.bracketed]
  cases hp : p (change s) with
  | ok a s' =>
    rw [hp] at hs
    exact hundo s s' hs
  | error e s' =>
    rw [hp] at hs
    exact hundo s s' hs

theorem inFrame (h : Restores p) (frame : Frame) : Restores (Parse.inFrame frame p) :=
  h.bracketed fun _ _ hs' => ⟨congrArg List.tail hs'.frames, hs'.methodDepth⟩

theorem inMethods (h : Restores p) : Restores (Parse.inMethods p) :=
  h.bracketed fun _ _ hs' => ⟨hs'.frames, by
    rw [hs'.methodDepth]
    exact Nat.add_sub_cancel ..⟩

end Restores

/-! ## Moves -/

theorem restores_here : Restores here := by
  intro s
  rw [here_run]
  exact .refl s

theorem restores_current? : Restores current? := .refl

theorem restores_peekKind? {n : Nat} : Restores (peekKind? n) := .refl

theorem restores_check {kind : Kind} : Restores (check kind) := .refl

theorem restores_checkWord {word : String} : Restores (checkWord word) := .refl

theorem restores_atEnd : Restores atEnd := .refl

theorem restores_wholeFile : Restores wholeFile := .refl

theorem restores_spanFrom {start : Location} : Restores (spanFrom start) := .refl

theorem restores_freshId : Restores freshId := fun _ => ⟨rfl, rfl⟩

theorem restores_siteAt {l : Location} : Restores (siteAt l) := fun _ => ⟨rfl, rfl⟩

theorem restores_siteFrom {start : Location} : Restores (siteFrom start) := fun _ => ⟨rfl, rfl⟩

theorem restores_siteBetween {first last : Location} : Restores (siteBetween first last) :=
  fun _ => ⟨rfl, rfl⟩

theorem restores_eatIf {q : Token → Bool} : Restores (eatIf q) := by
  intro s
  rw [eatIf]
  cases s.ahead with
  | nil => exact .refl s
  | cons t rest =>
    dsimp only
    split
    · exact ⟨rfl, rfl⟩
    · exact .refl s

theorem restores_eatWhile {q : Token → Bool} : Restores (eatWhile q) := fun _ => ⟨rfl, rfl⟩

theorem restores_advance : Restores advance := restores_eatIf.discard

theorem restores_failHere {cause : Option Token → Cause} :
    Restores (failHere cause : Parse α) :=
  restores_here.bind fun _ => restores_current?.bind fun _ => .fail

theorem restores_unexpected {what : Expectation} : Restores (unexpected what : Parse α) :=
  restores_failHere

theorem restores_stalled : Restores (stalled : Parse α) := restores_here.bind fun _ => .throw

theorem restores_expect {kind : Kind} {what : Expectation} : Restores (expect kind what) := by
  refine restores_eatIf.bind fun t => ?_
  cases t with
  | none => exact restores_unexpected
  | some t => exact .done

theorem restores_skipSeparators : Restores skipSeparators := restores_eatWhile.discard

theorem restores_endStatement : Restores endStatement := by
  refine restores_eatIf.bind fun t => ?_
  split
  · refine restores_current?.bind fun next => ?_
    cases next with
    | none => exact .done
    | some t =>
      dsimp only
      split
      · exact restores_unexpected
      · exact .done
  · exact .done

namespace Restores

theorem roundsWithin {body : α → Parse (Round α β)} (h : ∀ a, Restores (body a)) (n : Nat)
    (a : α) : Restores (Parse.roundsWithin body n a) := by
  induction n generalizing a with
  | zero => exact restores_stalled
  | succ n ih =>
    refine (h a).bind fun r => ?_
    cases r with
    | again a => exact ih a
    | done b => exact .done

theorem rounds {body : α → Parse (Round α β)} (h : ∀ a, Restores (body a)) {a : α} :
    Restores (Parse.rounds a body) := by
  refine (h a).bind fun r => ?_
  cases r with
  | again a => exact .get fun _ => .roundsWithin h _ a
  | done b => exact .done

end Restores

/-! ## Names and expressions -/

theorem restores_identifierOf {t : Token} : Restores (identifierOf t) :=
  restores_siteAt.bind fun _ => .done

theorem restores_placeholderOf {t : Token} : Restores (placeholderOf t) :=
  restores_siteAt.bind fun _ => .done

theorem restores_identifier : Restores identifier :=
  restores_expect.bind fun _ => restores_identifierOf

theorem restores_dottedName : Restores dottedName := by
  refine restores_identifier.bind fun _ => .rounds fun n => ?_
  refine restores_check.bind fun _ => restores_peekKind?.bind fun _ => ?_
  split
  · refine restores_advance.bind fun _ => restores_expect.bind fun _ => ?_
    exact restores_siteBetween.bind fun _ => .done
  · exact .done

theorem restores_parameters : Restores parameters := by
  refine .rounds fun names => restores_current?.bind fun t => ?_
  cases t with
  | none => exact restores_unexpected
  | some t =>
    dsimp only
    split
    · exact restores_advance.bind fun _ => .done
    · exact restores_advance.bind fun _ => .done
    · exact restores_identifier.bind fun _ => .done
    · split
      · exact restores_advance.bind fun _ => restores_placeholderOf.bind fun _ => .done
      · exact restores_unexpected
    · exact restores_unexpected

theorem restores_expression : Restores expression := fun s =>
  ⟨(called_expression s).1.frames, (called_expression s).1.methodDepth⟩

theorem restores_arguments {close : Kind} : Restores (arguments expression close) := by
  have hinside : Restores (argumentsInside expression close) := by
    refine restores_eatIf.bind fun closed => ?_
    split
    · exact .done
    refine .rounds fun args => restores_expression.bind fun e =>
      restores_eatIf.bind fun closed => ?_
    split
    · exact .done
    refine restores_eatIf.bind fun comma => ?_
    split
    · exact .done
    · exact restores_unexpected
  exact restores_advance.bind fun _ => .modify (fun _ => ⟨rfl, rfl⟩) fun _ =>
    hinside.bind fun _ => .modify (fun _ => ⟨rfl, rfl⟩) fun _ => .done

/-! ## Statements with blocks -/

theorem restores_requireLoop (t : Token) : Restores (requireLoop t) := by
  refine .get fun s => ?_
  split
  · exact .done
  · exact .fail

theorem restores_blockEnd (opener : Token) : Restores (blockEnd opener) := by
  refine restores_eatIf.bind fun found => ?_
  split
  · exact restores_failHere
  · exact .done

theorem restores_loopHead : Restores loopHead :=
  restores_identifier.bind fun _ => restores_expect.discard.bind fun _ =>
    restores_expression.bind fun _ => .done

section Blocks

variable {block : BlockParser} (hblock : ∀ frame, Restores (block frame))

include hblock

theorem restores_ifStmt (opener : Token) : Restores (ifStmt block opener) := by
  refine restores_expression.bind fun guard => (Restores.rounds fun soFar => ?_).bind
    fun _ => (restores_blockEnd opener).bind fun _ => .done
  obtain ⟨word, head, branches⟩ := soFar
  refine (hblock _).bind fun body => restores_siteAt.bind fun site => ?_
  split
  · exact .done
  refine restores_eatIf.bind fun found => ?_
  cases found with
  | some word => exact restores_expression.bind fun _ => .done
  | none =>
    refine restores_eatIf.bind fun found => ?_
    cases found <;> exact .done

theorem restores_switchStmt (opener : Token) : Restores (switchStmt block opener) := by
  refine restores_expression.bind fun subject => (Restores.rounds fun arms => ?_).bind
    fun _ => (restores_blockEnd opener).bind fun _ => .done
  refine restores_skipSeparators.bind fun _ => restores_eatIf.bind fun found => ?_
  cases found with
  | some word => exact restores_expression.bind fun value => (hblock _).bind fun _ =>
      restores_siteAt.bind fun _ => .done
  | none =>
    refine restores_eatIf.bind fun found => ?_
    cases found with
    | some word => exact (hblock _).bind fun _ => restores_siteAt.bind fun _ => .done
    | none =>
      refine restores_checkWord.bind fun closed => ?_
      split
      · exact .done
      · exact restores_unexpected

theorem restores_blockThen (frame : Frame) (opener : Token) (make : List Stmt → α) :
    Restores (do
      let body ← block frame
      blockEnd opener
      return make body) :=
  (hblock frame).bind fun _ => (restores_blockEnd opener).bind fun _ => .done

theorem restores_forStmt (opener : Token) : Restores (forStmt block opener) := by
  refine restores_eatIf.bind fun paren => restores_loopHead.bind fun head => ?_
  dsimp only
  split
  · exact restores_expect.discard.bind fun _ => restores_blockThen hblock _ opener _
  · exact restores_blockThen hblock _ opener _

theorem restores_parForStmt (opener : Token) : Restores (parForStmt block opener) := by
  refine restores_eatIf.bind fun paren => restores_loopHead.bind fun head => ?_
  dsimp only
  split
  · refine restores_eatIf.bind fun comma => ?_
    split
    · exact restores_expression.map.bind fun workers => restores_expect.discard.bind fun _ =>
        restores_blockThen hblock _ opener _
    · exact restores_expect.discard.bind fun _ => restores_blockThen hblock _ opener _
  · exact restores_blockThen hblock _ opener _

theorem restores_whileStmt (opener : Token) : Restores (whileStmt block opener) :=
  restores_expression.bind fun _ => restores_blockThen hblock _ opener _

theorem restores_tryStmt (opener : Token) : Restores (tryStmt block opener) := by
  refine (hblock _).bind fun body => restores_eatIf.bind fun found => ?_
  split
  · refine .get fun s => ?_
    split
    · exact restores_identifier.map.bind fun var => restores_blockThen hblock _ opener _
    · exact restores_blockThen hblock _ opener _
  · exact (restores_blockEnd opener).bind fun _ => .done

theorem restores_spmdStmt (opener : Token) : Restores (spmdStmt block opener) := by
  refine restores_check.bind fun paren => ?_
  split
  · exact restores_arguments.bind fun options => restores_blockThen hblock _ opener _
  · exact restores_blockThen hblock _ opener _

end Blocks

/-! ## Statements without a block -/

theorem restores_declaredNames : Restores declaredNames :=
  restores_identifier.bind fun _ => restores_eatWhile.bind fun more =>
    (Restores.mapM more fun _ => restores_identifierOf).bind fun _ => .done

theorem restores_assignableName (e : Expr) : Restores (assignableName e) := by
  rw [assignableName]
  split
  · exact .done
  · exact .fail

theorem restores_expressionStmt : Restores expressionStmt := by
  refine restores_check.bind fun bracketed => ?_
  refine .modify (fun _ => ⟨rfl, rfl⟩) fun _ => restores_expression.bind fun lhs => ?_
  refine .modify (fun _ => ⟨rfl, rfl⟩) fun _ => restores_eatIf.bind fun equals => ?_
  split
  · split
    · exact Restores.fail.bind fun _ => .done
    · exact .done
  split
  · rename_i row
    exact (Restores.mapM row.items restores_assignableName).bind fun _ =>
      restores_expression.bind fun _ => .done
  · exact (restores_assignableName _).bind fun _ => restores_expression.bind fun _ => .done

theorem restores_commandHead : Restores commandHead := by
  refine restores_dottedName.bind fun head => restores_eatWhile.bind fun words => ?_
  split
  · exact .mapM words fun _ => restores_siteAt.bind fun _ => .done
  · refine (Restores.mapM words fun _ => restores_siteAt.bind fun _ => .done).bind fun _ => ?_
    exact restores_siteFrom.bind fun _ => restores_siteFrom.bind fun _ => .done

/-! ## Lists of statements -/

section Blocks

variable {block : BlockParser} (hblock : ∀ frame, Restores (block frame))

include hblock

theorem restores_keywordStmt (t : Token) : Restores (keywordStmt block t) := by
  rw [keywordStmt]
  dsimp only
  split
  · exact restores_advance.bind fun _ => restores_ifStmt hblock t
  · exact restores_advance.bind fun _ => restores_switchStmt hblock t
  · exact restores_advance.bind fun _ => restores_forStmt hblock t
  · exact restores_advance.bind fun _ => restores_parForStmt hblock t
  · exact restores_advance.bind fun _ => restores_whileStmt hblock t
  · exact restores_advance.bind fun _ => restores_tryStmt hblock t
  · exact restores_advance.bind fun _ => restores_spmdStmt hblock t
  · exact restores_advance.bind fun _ => restores_declaredNames.bind fun _ => .done
  · exact restores_advance.bind fun _ => restores_declaredNames.bind fun _ => .done
  · exact restores_advance.bind fun _ => (restores_requireLoop t).bind fun _ => .done
  · exact restores_advance.bind fun _ => (restores_requireLoop t).bind fun _ => .done
  · exact restores_advance.bind fun _ => .done
  · exact .fail

theorem restores_statement (t : Token) : Restores (statement block t) := by
  have hhead : Restores (statementHead block t) := by
    refine .get fun s => ?_
    split
    · exact restores_commandHead
    · split
      · exact (restores_keywordStmt hblock t).bind fun _ => restores_siteFrom.bind fun _ => .done
      · exact restores_advance.bind fun _ => Restores.done.bind fun _ =>
          restores_siteFrom.bind fun _ => .done
      · exact restores_expressionStmt.bind fun _ => restores_siteFrom.bind fun _ => .done
  rw [statement_eq]
  exact hhead.bind fun _ => restores_endStatement.bind fun _ => .done

theorem restores_statementRound (stmts : List Stmt) : Restores (statementRound block stmts) := by
  refine restores_skipSeparators.bind fun _ => restores_current?.bind fun t => ?_
  cases t with
  | none => exact .done
  | some t =>
    dsimp only [statementChoice]
    split
    · exact .done
    split
    · refine .get fun s => ?_
      split
      · exact .done
      · exact .done
      · exact .fail
    split
    · exact .fail
    · exact (restores_statement hblock t).bind fun _ => .done

end Blocks

theorem restores_statementsWithin (fuel : Nat) : Restores (statementsWithin fuel) := by
  induction fuel with
  | zero => exact restores_stalled
  | succ fuel ih =>
    rw [statementsWithin, statementList_eq]
    exact .rounds (restores_statementRound fun frame => ih.inFrame frame)

theorem restores_statements : Restores statements := .get fun _ => restores_statementsWithin _

theorem restores_nested (frame : Frame) : Restores (nested frame) :=
  restores_statements.inFrame frame

end Parse

end MFile.Grammar
