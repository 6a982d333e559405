import MFile.Proofs.Grammar.Onward.Statements
import MFile.Proofs.Grammar.Progress.Files

/-!
Every parse comes to an end, and on its way it only moves on: no parser ever goes back, or past the
last token, whether it fails or not. What is read as an expression or a statement has a token at
least, and a file is read to its end.
-/

namespace MFile.Grammar

/-- The tokens that the grammar sees, whether they have been passed or not. -/
def State.view (s : State) : List Token := s.behind.reverse ++ s.ahead

def State.position (s : State) : Nat := s.behind.length

namespace State

variable {s s' : State} {run : List Token}

theorem position_le_view (s : State) : s.position ≤ s.view.length := by
  rw [position, view, List.length_append, List.length_reverse]
  exact Nat.le_add_right _ _

theorem position_of_ahead (h : s.ahead = []) : s.position = s.view.length := by
  rw [position, view, h, List.append_nil, List.length_reverse]

theorem Passes.view_eq (h : s.Passes run s') : s'.view = s.view := by
  rw [view, view, h.ahead, h.behind, List.reverse_append, List.reverse_reverse, List.append_assoc]

theorem Passes.position_eq (h : s.Passes run s') : s'.position = s.position + run.length := by
  rw [position, position, h.behind, List.length_append, List.length_reverse, Nat.add_comm]

theorem Passes.position_lt (h : s.Passes run s') (hshorter : s'.ahead.length < s.ahead.length) :
    s.position < s'.position := by
  rw [h.ahead, List.length_append] at hshorter
  rw [h.position_eq]
  omega

end State

namespace Parse

variable {α : Type} {s : State}

/-! ## Parts that may be left out -/

theorem onward_optArguments {first close : Kind} : MovesOn (optArguments first close) := by
  refine onward_check.bind fun found => ?_
  split
  · exact onward_arguments onward_expression _
  · exact .done

theorem onward_optName : MovesOn optName := by
  refine onward_check.bind fun found => ?_
  split
  · exact onward_dottedName.map
  · exact .done

theorem onward_optValue : MovesOn optValue := by
  refine onward_eatIf.bind fun found => ?_
  split
  · exact onward_expression.map
  · exact .done

theorem onward_oneAttribute : MovesOn oneAttribute :=
  onward_here.bind fun _ => onward_eatIf.bind fun _ => onward_expect.bind fun _ =>
    onward_optValue.bind fun _ => onward_siteFrom.bind fun _ => .done

theorem onward_attributes : MovesOn attributes := by
  rw [attributes_eq]
  refine onward_advance.bind fun _ => .rounds fun attrs => onward_eatIf.bind fun closed => ?_
  have hnext : MovesOn (do
      let attr ← oneAttribute
      return (Round.again (attrs ++ [attr]) : Round (List Attribute) (List Attribute))) :=
    onward_oneAttribute.bind fun _ => .done
  split
  · exact .done
  split
  · exact onward_expect.discard.bind fun _ => hnext
  · exact hnext

theorem onward_optAttributes : MovesOn optAttributes := by
  refine onward_check.bind fun found => ?_
  split
  · exact onward_attributes
  · exact .done

/-! ## Blocks -/

theorem onward_property : MovesOn property := by
  rw [property_eq]
  exact onward_here.bind fun _ => onward_dottedName.bind fun _ => onward_optArguments.bind fun _ =>
    onward_optName.bind fun _ => onward_optArguments.bind fun _ => onward_optValue.bind fun _ =>
      onward_siteFrom.bind fun _ => .done

theorem onward_addItem (start : Location) (block : Block) (item : BlockItem) :
    MovesOn (addItem start block item) := by
  rw [addItem]
  split
  · exact .done
  · exact .throw

theorem onward_addStatement (start : Location) (block : Block) (item : BlockItem) :
    MovesOn (addStatement start block item) :=
  (onward_addItem start block item).bind fun _ => onward_endStatement.bind fun _ => .done

theorem onward_addProperty (block : Block) : MovesOn (addProperty block) :=
  onward_here.bind fun _ => onward_property.bind fun _ => onward_addStatement _ _ _

theorem onward_block (kind : BlockKind) (opener : Token) {addNext : Block → Parse Block}
    (h : ∀ b, MovesOn (addNext b)) : MovesOn (block kind opener addNext) := by
  rw [block_eq]
  refine onward_optAttributes.bind fun attrs => onward_siteAt.bind fun site =>
    (Onward.rounds fun b => ?_).bind fun _ => onward_spanFrom.bind fun _ => .done
  refine onward_skipSeparators.bind fun _ => onward_eatIf.bind fun closed => ?_
  split
  · exact .done
  refine onward_atEnd.bind fun atEnd => ?_
  split
  · exact onward_failHere.bind fun _ => (h b).bind fun _ => .done
  · exact (h b).bind fun _ => .done

/-! ## Functions -/

theorem onward_outputs : MovesOn outputs := by
  rw [outputs_eq]
  refine .rounds fun names => onward_peekKind?.bind fun kind => ?_
  split
  · exact onward_advance.bind fun _ => .done
  · exact onward_advance.bind fun _ => .done
  · exact onward_identifier.bind fun _ => .done
  · exact onward_unexpected

theorem onward_signatureHead : MovesOn signatureHead := by
  refine onward_eatIf.bind fun bracket => ?_
  split
  · exact onward_outputs.bind fun _ => onward_expect.discard.bind fun _ =>
      onward_dottedName.bind fun _ => .done
  refine onward_dottedName.bind fun first => onward_check.bind fun equals => ?_
  have hrest : MovesOn (do
      advance
      return ([first], ← dottedName)) :=
    onward_advance.bind fun _ => onward_dottedName.bind fun _ => .done
  split
  · split
    · exact Onward.fail.bind fun _ => hrest
    · exact hrest
  · exact .done

theorem onward_signature (start : Location) : MovesOn (signature start) := by
  refine onward_signatureHead.bind fun (outs, n) => onward_eatIf.bind fun paren => ?_
  dsimp only
  split
  · exact onward_parameters.bind fun _ => onward_siteFrom.bind fun _ => .done
  · exact Onward.done.bind fun _ => onward_siteFrom.bind fun _ => .done

theorem onward_validationBlocks : MovesOn validationBlocks := by
  rw [validationBlocks_eq]
  refine .rounds fun blocks => onward_skipSeparators.bind fun _ =>
    onward_eatIf.bind fun found => ?_
  cases found with
  | some word => exact (onward_block .arguments _ onward_addProperty).bind fun _ => .done
  | none => exact .done

theorem onward_openFunction (run : FunctionRun) (parent : Option Nat) (opener : Token) :
    MovesOn (openFunction run parent opener) :=
  onward_freshId.bind fun _ => (onward_signature _).bind fun _ => .get fun _ =>
    .modify (fun _ => rfl) (fun _ => rfl) fun _ => onward_validationBlocks.bind fun _ => .done

theorem onward_closeWithEnd (f : OpenFunction) (run : FunctionRun) :
    MovesOn (closeWithEnd f run) := by
  have hrest : MovesOn (do
      endStatement
      popFrame
      return run.fill f.index (f.finish true)) :=
    onward_endStatement.bind fun _ => .modify (fun _ => rfl) (fun _ => rfl) fun _ => .done
  have hclosed : MovesOn (do
      unless f.inMethod do modify fun st => { st with endUsed := true }
      endStatement
      popFrame
      return run.fill f.index (f.finish true)) := by
    split
    · exact hrest
    · exact .modify (fun _ => rfl) (fun _ => rfl) fun _ => hrest
  refine onward_eatIf.bind fun closed => ?_
  dsimp only
  split
  · refine onward_current?.bind fun t => ?_
    cases t with
    | some t => exact Onward.fail.bind fun _ => hclosed
    | none => exact onward_unexpected.bind fun _ => hclosed
  · exact hclosed

theorem onward_closeAtEndOfFile (fs : List OpenFunction) (run : FunctionRun) :
    MovesOn (closeAtEndOfFile fs run) := by
  refine .get fun s => ?_
  dsimp only
  split
  · exact .fail
  · exact .done

theorem onward_functionRound (soFar : RunSoFar) : MovesOn (functionRound soFar) := by
  refine onward_statements.bind fun body => onward_eatIf.bind fun word => ?_
  cases word with
  | some word => exact (onward_openFunction _ _ _).bind fun inner => .done
  | none =>
    refine onward_atEnd.bind fun atEnd => ?_
    split
    · exact (onward_closeAtEndOfFile _ _).bind fun run => .done
    · refine (onward_closeWithEnd _ _).bind fun run => ?_
      cases soFar.enclosing <;> exact .done

theorem onward_function (run : FunctionRun) (opener : Token) : MovesOn (function run opener) := by
  refine .bracketed ?_ (fun _ => ⟨rfl, rfl⟩) fun _ _ => ⟨rfl, rfl⟩
  exact (onward_openFunction run none opener).bind fun first => .rounds onward_functionRound

theorem onward_localFunctions : MovesOn localFunctions := by
  rw [localFunctions_eq]
  refine (Onward.rounds fun run => ?_).bind fun _ => .done
  refine onward_skipSeparators.bind fun _ => onward_eatIf.bind fun word => ?_
  cases word with
  | some word => exact (onward_function run word).bind fun _ => .done
  | none =>
    refine onward_current?.bind fun t => ?_
    cases t with
    | none => exact .done
    | some t =>
      dsimp only
      split
      · exact .fail
      · exact onward_failHere

/-! ## Classes -/

theorem onward_addMethods (start : Location) (methods : List FunctionDef) (block : Block) :
    MovesOn (methods.foldlM (fun b method => addItem start b (.method method)) block) := by
  induction methods generalizing block with
  | nil => exact .done
  | cons method methods ih =>
    rw [List.foldlM_cons]
    exact (onward_addItem _ _ _).bind ih

theorem onward_addMethod (block : Block) : MovesOn (addMethod block) := by
  refine onward_here.bind fun start => onward_eatIf.bind fun word => ?_
  cases word with
  | some word =>
    have hfunction : MovesOn (inMethods (function {} word)) :=
      .bracketed (onward_function {} word) (fun _ => ⟨rfl, rfl⟩) fun _ _ => ⟨rfl, rfl⟩
    exact hfunction.bind fun _ => onward_addMethods _ _ _
  | none => exact (onward_signature _).bind fun _ => onward_addStatement _ _ _

theorem onward_addEvent (block : Block) : MovesOn (addEvent block) :=
  onward_here.bind fun _ => onward_identifier.bind fun _ => onward_siteAt.bind fun _ =>
    onward_addStatement _ _ _

theorem onward_addEnumerator (block : Block) : MovesOn (addEnumerator block) := by
  rw [addEnumerator_eq]
  exact onward_here.bind fun _ => onward_identifier.bind fun _ => onward_optArguments.bind fun _ =>
    onward_siteFrom.bind fun _ => onward_addStatement _ _ _

theorem onward_addNext (kind : BlockKind) (block : Block) : MovesOn (addNext kind block) :=
  match kind with
  | .properties | .arguments => onward_addProperty block
  | .methods => onward_addMethod block
  | .events => onward_addEvent block
  | .enumeration => onward_addEnumerator block

theorem onward_superclasses : MovesOn superclasses := by
  rw [superclasses_eq]
  refine onward_eatIf.bind fun found => ?_
  split
  · exact .done
  refine onward_dottedName.bind fun first => .rounds fun names => onward_eatIf.bind fun more => ?_
  split
  · exact onward_dottedName.bind fun _ => .done
  · exact .done

theorem onward_classBlocks (opener : Token) : MovesOn (classBlocks opener) := by
  rw [classBlocks_eq]
  refine .rounds fun blocks => onward_skipSeparators.bind fun _ =>
    onward_eatIf.bind fun closed => ?_
  split
  · exact onward_endStatement.bind fun _ => .done
  refine onward_current?.bind fun t => ?_
  cases t with
  | none => exact onward_failHere
  | some t =>
    dsimp only
    split
    · rename_i kind _
      exact onward_advance.bind fun _ => (onward_block kind t (onward_addNext kind)).bind fun _ =>
        .done
    · exact onward_failHere

theorem onward_classDef (opener : Token) : MovesOn (classDef opener) :=
  onward_freshId.bind fun _ => onward_optAttributes.bind fun _ => onward_identifier.bind fun _ =>
    onward_superclasses.bind fun _ => onward_spanFrom.bind fun _ =>
      (onward_classBlocks opener).bind fun _ => .done

/-! ## Files -/

theorem onward_fileUnit : MovesOn fileUnit := by
  refine onward_skipSeparators.bind fun _ => onward_checkWord.bind fun isFunctions => ?_
  split
  · exact onward_freshId.bind fun _ => onward_localFunctions.bind fun _ =>
      onward_wholeFile.bind fun _ => .done
  refine onward_eatIf.bind fun word => ?_
  cases word with
  | some word =>
    exact onward_freshId.bind fun _ => ((onward_classDef word).inFrame .classBody).bind fun _ =>
      onward_localFunctions.bind fun _ => onward_wholeFile.bind fun _ => .done
  | none =>
    exact onward_freshId.bind fun _ => onward_statements.bind fun _ =>
      onward_localFunctions.bind fun _ => onward_wholeFile.bind fun _ => .done

/-! ## Where files end -/

namespace Meets

variable {p : Parse α}

theorem any : Meets false p s fun _ _ => True := by
  cases hp : p s with
  | ok a s' => exact .of_run hp trivial
  | error e s' => exact .of_error hp

end Meets

theorem meets_localFunctions : Meets false localFunctions s fun _ s' => s'.ahead = [] := by
  rw [localFunctions_eq]
  refine (Meets.rounds (I := fun _ _ => True) trivial fun run st _ => ?_).bind
    fun run mid hmid => .pure hmid
  refine Meets.any.bind fun _ mid _ => ?_
  refine .eatWord (fun opener rest _ _ => Meets.any.bind fun _ _ _ => .pure trivial) ?_
  refine .current? (fun hnone => .pure hnone) fun t rest _ => ?_
  dsimp only
  split
  · exact .fail
  · exact .failHere

theorem meets_fileUnit : Meets false fileUnit s fun _ s' => s'.ahead = [] := by
  have hrest : ∀ {st : State} (make : Site → List FunctionDef → FileUnit) (id : NodeId),
      Meets false (do
        let functions ← localFunctions
        return make ⟨id, ← wholeFile⟩ functions) st fun _ s' => s'.ahead = [] :=
    fun make id => meets_localFunctions.bind fun functions mid hmid => .wholeFile (.pure hmid)
  refine Meets.any.bind fun _ mid _ => .checkWord fun isFunctions => ?_
  split
  · exact .freshId (hrest .functionFile _)
  · refine .eatWord (fun opener rest _ _ => .freshId (Meets.any.bind fun definition _ _ => ?_))
      (.freshId (Meets.any.bind fun body _ _ => ?_))
    · exact hrest (.classFile · definition) _
    · exact hrest (.script · body) _

/-! ## Parsers -/

inductive IsParser : {α : Type} → Parse α → Prop
  | file : IsParser fileUnit
  | localFunctions : IsParser localFunctions
  | function (run : FunctionRun) (opener : Token) : IsParser (function run opener)
  | openFunction (run : FunctionRun) (parent : Option Nat) (opener : Token) :
      IsParser (openFunction run parent opener)
  | closeWithEnd (f : OpenFunction) (run : FunctionRun) : IsParser (closeWithEnd f run)
  | closeAtEndOfFile (fs : List OpenFunction) (run : FunctionRun) :
      IsParser (closeAtEndOfFile fs run)
  | signature (start : Location) : IsParser (signature start)
  | identifier : IsParser identifier
  | dottedName : IsParser dottedName
  | parameters : IsParser parameters
  | statements : IsParser statements
  | nested (frame : Frame) : IsParser (nested frame)
  | statement (t : Token) : IsParser (statement nested t)
  | keyword (t : Token) : IsParser (keywordStmt nested t)
  | conditional (opener : Token) : IsParser (ifStmt nested opener)
  | switch (opener : Token) : IsParser (switchStmt nested opener)
  | loopHead : IsParser loopHead
  | forLoop (opener : Token) : IsParser (forStmt nested opener)
  | parFor (opener : Token) : IsParser (parForStmt nested opener)
  | whileLoop (opener : Token) : IsParser (whileStmt nested opener)
  | tryCatch (opener : Token) : IsParser (tryStmt nested opener)
  | spmd (opener : Token) : IsParser (spmdStmt nested opener)
  | declaration : IsParser declaredNames
  | command : IsParser command
  | expressionStatement : IsParser expressionStmt
  | expression : IsParser expression
  | level (symbols : List String) {operand : Parse Expr} (h : IsParser operand) :
      IsParser (binaryLevel symbols operand)
  | range : IsParser (ranges Parse.expression)
  | signed : IsParser (signedPowers Parse.expression)
  | powers : IsParser (powers Parse.expression)
  | powerOperand : IsParser (powerOperand Parse.expression)
  | operand : IsParser (operand Parse.expression)
  | handle (mark : Token) : IsParser (handle Parse.expression mark)
  | rows (close : Kind) : IsParser (rows Parse.expression close)
  | name : IsParser (name Parse.expression)
  | arguments (close : Kind) : IsParser (arguments Parse.expression close)
  | classDef (opener : Token) : IsParser (classDef opener)
  | attributes : IsParser attributes
  | block (kind : BlockKind) (opener : Token) : IsParser (block kind opener (addNext kind))
  | property : IsParser property
  | take (p : Token → Bool) : IsParser (eatIf p)
  | takeAll (p : Token → Bool) : IsParser (eatWhile p)
  | expect (kind : Kind) (what : Expectation) : IsParser (expect kind what)
  | skipSeparators : IsParser skipSeparators
  | endStatement : IsParser endStatement

theorem IsParser.movesOn {p : Parse α} (h : IsParser p) : MovesOn p := by
  induction h with
  | file => exact onward_fileUnit
  | localFunctions => exact onward_localFunctions
  | function run opener => exact onward_function run opener
  | openFunction run parent opener => exact onward_openFunction run parent opener
  | closeWithEnd f run => exact onward_closeWithEnd f run
  | closeAtEndOfFile fs run => exact onward_closeAtEndOfFile fs run
  | signature start => exact onward_signature start
  | identifier => exact onward_identifier
  | dottedName => exact onward_dottedName
  | parameters => exact onward_parameters
  | statements => exact onward_statements
  | nested frame => exact onward_nested frame
  | statement t => exact onward_statement onward_nested t
  | keyword t => exact onward_keywordStmt onward_nested t
  | conditional opener => exact onward_ifStmt onward_nested opener
  | switch opener => exact onward_switchStmt onward_nested opener
  | loopHead => exact onward_loopHead
  | forLoop opener => exact onward_forStmt onward_nested opener
  | parFor opener => exact onward_parForStmt onward_nested opener
  | whileLoop opener => exact onward_whileStmt onward_nested opener
  | tryCatch opener => exact onward_tryStmt onward_nested opener
  | spmd opener => exact onward_spmdStmt onward_nested opener
  | declaration => exact onward_declaredNames
  | command => exact onward_command
  | expressionStatement => exact onward_expressionStmt
  | expression => exact onward_expression
  | level symbols _ ih => exact onward_binaryLevel ih symbols
  | range => exact onward_ranges onward_expression
  | signed => exact onward_signed (onward_powers onward_expression)
  | powers => exact onward_powers onward_expression
  | powerOperand => exact onward_signed (onward_operand onward_expression)
  | operand => exact onward_operand onward_expression
  | handle mark => exact onward_handle onward_expression mark
  | rows close => exact onward_rows onward_expression close
  | name => exact onward_name onward_expression
  | arguments close => exact onward_arguments onward_expression close
  | classDef opener => exact onward_classDef opener
  | attributes => exact onward_attributes
  | block kind opener => exact onward_block kind opener (onward_addNext kind)
  | property => exact onward_property
  | take p => exact onward_eatIf
  | takeAll p => exact onward_eatWhile
  | expect kind what => exact onward_expect
  | skipSeparators => exact onward_skipSeparators
  | endStatement => exact onward_endStatement

theorem MovesOn.position_lt {p : Parse α} (h : MovesOn p)
    (hp : Meets true p s fun _ s' => s'.ahead.length < s.ahead.length) {a : α} {s' : State}
    (hrun : p s = .ok a s') : s.position < s'.position := by
  obtain ⟨run, hpasses⟩ := (h s).1
  rw [hrun] at hpasses
  exact hpasses.position_lt (hp.ok hrun)

structure Progress (s : State) : Prop where
  /-- Neither rounds nor depth run out. -/
  ends : ¬ Stalls (fileUnit s) ∧ ¬ Stalls (expression s) ∧ ¬ Stalls (statements s)
  /-- Nor would more depth make a difference. -/
  deeper : ∀ n, s.ahead.length < n →
    expressionWithin n s = expression s ∧ statementsWithin n s = statements s
  /-- Whether it fails or not, no parser goes back or past the end. -/
  onward : ∀ {α : Type} {p : Parse α}, IsParser p →
    (reached (p s)).view = s.view ∧ s.position ≤ (reached (p s)).position ∧
      (reached (p s)).position ≤ s.view.length
  expression : ∀ e s', expression s = .ok e s' → s.position < s'.position
  statement : ∀ t rest, s.ahead = t :: rest → ∀ stmts s',
    statement nested t s = .ok stmts s' → s.position < s'.position
  file : ∀ unit s', fileUnit s = .ok unit s' → s'.ahead = [] ∧ s'.position = s.view.length

/-- The parsers of expressions and of statements are what their own grammar makes of them, with no
bound on its depth, and from any state all parsers get to an end. -/
theorem parse_progress : expression = shortOrs expression ∧ statements = statementList nested ∧
    ∀ s, Progress s := by
  refine ⟨expression_eq, statements_eq, fun s => ?_⟩
  have hblock : ∀ frame, Settles s.ahead.length (nested frame) := fun frame st hst =>
    .bracketed (settles_statements { st with frames := frame :: st.frames } hst)
  refine ⟨⟨?_, not_stalls_expression s, not_stalls_statements s⟩,
    fun n hn => ⟨expressionWithin_eq hn, statementsWithin_eq hn⟩, fun hp => ?_,
    fun e s' hrun => ?_, fun t rest hahead stmts s' hrun => ?_, fun unit s' hrun => ?_⟩
  · exact (settles_fileUnit s (Nat.lt_succ_self _)).not_stalls
  · obtain ⟨run, hpasses⟩ := (hp.movesOn s).1
    refine ⟨hpasses.view_eq, hpasses.position_eq ▸ Nat.le_add_right _ _, ?_⟩
    rw [← hpasses.view_eq]
    exact State.position_le_view _
  · exact onward_expression.position_lt (advances_expression s (Nat.lt_succ_self _)) hrun
  · exact MovesOn.position_lt (onward_statement onward_nested t)
      (advances_statement hblock hahead (Nat.lt_succ_self _)) hrun
  · have hend : s'.ahead = [] := meets_fileUnit.ok hrun
    obtain ⟨run, hpasses⟩ := (onward_fileUnit s).1
    rw [hrun] at hpasses
    have hview : s'.view = s.view := hpasses.view_eq
    exact ⟨hend, hview ▸ State.position_of_ahead hend⟩

end Parse

end MFile.Grammar
