import MFile.Proofs.Grammar.Parameters.Lists

/-!
The parameters of a lambda are listed in parentheses. No other expression lists any and neither
does a statement, so all that is listed below a statement is listed in the lambdas of its
expressions and of the blocks inside of it.
-/

namespace MFile.Grammar.Parse

variable {α : Type} {view : List Token} {node : α → Node} {as : List α} {a : α} {t : Token}
  {inner p : Parse Expr} {block : BlockParser}

abbrev DrawsExpr (view : List Token) (p : Parse Expr) : Prop :=
  Draws view p fun e => Node.Listed view (.expr e)

abbrev DrawsName (view : List Token) (p : Parse Name) : Prop :=
  Draws view p fun n => Node.Listed view (.name n)

/-! ## Names -/

theorem draws_identifierOf (t : Token) : DrawsName view (identifierOf t) :=
  onward_siteAt.before fun _ => .pure (listed_identifier _ _)

theorem draws_identifier : DrawsName view identifier :=
  onward_expect.before fun t => draws_identifierOf t

theorem draws_placeholderOf (t : Token) : DrawsName view (placeholderOf t) :=
  onward_siteAt.before fun _ => .pure (listed_identifier _ _)

theorem draws_dottedName : DrawsName view dottedName := by
  refine draws_identifier.bind fun first hfirst => .rounds
    (fun n => Node.Listed view (.name n)) hfirst fun n hn => ?_
  refine onward_check.before fun _ => onward_peekKind?.before fun _ => ?_
  split
  · refine onward_advance.before fun _ => onward_expect.before fun field => ?_
    exact onward_siteBetween.before fun _ => .pure (Node.listed_iff.2 (by simp [hn]))
  · exact .pure hn

/-! ## Arguments and suffixes -/

section Inner

variable (hinner : DrawsExpr view inner)

include hinner

theorem draws_arguments {close : Kind} :
    Draws view (arguments inner close) (AllListed view .expr) := by
  have hinside : Draws view (argumentsInside inner close) (AllListed view .expr) := by
    refine onward_eatIf.before fun closed => ?_
    split
    · exact .pure .nil
    refine .rounds (AllListed view .expr) .nil fun es hes => hinner.bind fun e he => ?_
    refine onward_eatIf.before fun closed => ?_
    split
    · exact .pure (hes.concat he)
    refine onward_eatIf.before fun comma => ?_
    split
    · exact .pure (hes.concat he)
    · exact .failing fun _ _ _ => unexpected_ok
  exact onward_advance.before fun _ => .modify (fun _ => rfl) fun _ => hinside.bind fun es hes =>
    .modify (fun _ => rfl) fun _ => .pure hes

theorem draws_suffix? {n : Name} (hn : Node.Listed view (.name n)) :
    Draws view (suffix? inner n) fun longer => Node.Listed view (.name (longer.getD n)) := by
  refine onward_peekKind?.before fun kind => ?_
  split
  · refine (draws_arguments hinner).bind fun es hes => onward_siteFrom.before fun _ => .pure ?_
    exact Node.listed_iff.2 (by simpa [AllListed, hn] using hes)
  · refine (draws_arguments hinner).bind fun es hes => onward_siteFrom.before fun _ => .pure ?_
    exact Node.listed_iff.2 (by simpa [AllListed, hn] using hes)
  · refine onward_advance.before fun _ => onward_eatIf.before fun paren => ?_
    split
    · refine hinner.outsideIndex.bind fun e he => ?_
      refine onward_punctuation.before fun _ => onward_siteFrom.before fun _ => .pure ?_
      exact Node.listed_iff.2 (by simp [hn, he])
    · refine onward_expect.before fun field => onward_siteFrom.before fun _ => .pure ?_
      exact Node.listed_iff.2 (by simp [hn])
  · exact .pure hn

end Inner

theorem draws_superclassChain (methods : List Name) (n : Name)
    (hmethods : AllListed view .name methods) (hn : Node.Listed view (.name n)) :
    Draws view (superclassChain methods n) fun n' => Node.Listed view (.name n') := by
  induction methods generalizing n with
  | nil => exact .pure hn
  | cons method methods ih =>
    obtain ⟨hmethod, hmethods⟩ := List.forall_mem_cons.1 hmethods
    exact onward_siteBetween.before fun site =>
      ih _ hmethods (Node.listed_iff.2 (by simp [hmethod, hn]))

theorem draws_name (hinner : DrawsExpr view inner) : DrawsName view (name inner) := by
  refine draws_identifier.bind fun first hfirst => ?_
  let P (m : List Name × Name) : Prop := AllListed view .name m.1 ∧ Node.Listed view (.name m.2)
  refine Draws.bind (P := P) (.rounds P ⟨.nil, hfirst⟩ fun m hm => ?_) fun m hm => ?_
  · refine onward_check.before fun _ => onward_peekKind?.before fun _ => ?_
    split
    · refine onward_advance.before fun _ => draws_identifier.bind fun n hn => .pure ?_
      exact ⟨List.forall_mem_cons.2 ⟨hm.2, hm.1⟩, hn⟩
    · exact .pure hm
  · refine Draws.bind (.rounds (fun n => Node.Listed view (.name n)) hm.2 fun n hn => ?_)
      fun n hn => draws_superclassChain _ _ hm.1 hn
    refine (draws_suffix? hinner hn).bind fun longer hlonger => ?_
    cases longer <;> exact .pure hlonger

/-! ## Rows and operands -/

theorem draws_finishRow {rows : List Row} {items : List Expr}
    (hrows : AllListed view .row rows) (hitems : AllListed view .expr items) :
    Draws view (finishRow rows items) (AllListed view .row) := by
  cases items with
  | nil => exact .pure hrows
  | cons first rest =>
    exact onward_siteBetween.before fun _ =>
      .pure (hrows.concat (Node.listed_iff.2 (by simpa [AllListed] using hitems)))

theorem listed_atom? {inIndex : Bool} {next : Option Kind} {make : Site → Expr}
    (h : atom? inIndex t next = some make) (site : Site) :
    Node.Listed view (.expr (make site)) := by
  apply Node.listed_iff.2
  rw [atom?] at h
  split at h
  · cases h
    simp
  · cases h
    simp
  · cases h
    simp
  · split at h
    · cases h
      simp
    · cases h
  · split at h
    · cases h
      simp
    · cases h
  · cases h

theorem listed_name_iff {n : Name} :
    Node.Listed view (.expr (.name n)) ↔ Node.Listed view (.name n) := by
  rw [Node.listed_iff, Node.listed_iff]
  rfl

section Inner

variable (hinner : DrawsExpr view inner)

include hinner

theorem draws_rows {close : Kind} :
    Draws view (rows inner close) fun r => AllListed view .row r.1 := by
  refine onward_here.before fun _ => onward_advance.before fun _ => .get fun s => ?_
  refine .modify (fun _ => rfl) fun _ => ?_
  refine Draws.bind (P := AllListed view .row) (.rounds (fun soFar =>
    AllListed view .row soFar.rows ∧ AllListed view .expr soFar.items) ⟨.nil, .nil⟩
      fun soFar h => onward_current?.before fun t => ?_)
        fun rows hrows => onward_spanFrom.before fun _ => .pure hrows
  cases t with
  | none => exact .failing fun _ _ _ => unexpected_ok
  | some t =>
    dsimp only
    split
    · exact onward_advance.before fun _ => (draws_finishRow h.1 h.2).bind fun rows hrows =>
        .pure hrows
    split
    · exact onward_advance.before fun _ => (draws_finishRow h.1 h.2).bind fun rows hrows =>
        .pure ⟨hrows, .nil⟩
    split
    · exact onward_advance.before fun _ => .pure h
    split
    · exact .failing fun _ _ _ => unexpected_ok
    refine onward_peekKind?.before fun _ => ?_
    split
    · exact onward_advance.before fun _ => (draws_placeholderOf t).bind fun n hn =>
        .pure ⟨h.1, h.2.concat (listed_name_iff.2 hn)⟩
    · exact hinner.bind fun e he => .pure ⟨h.1, h.2.concat he⟩

theorem draws_handle (mark : Token) : DrawsExpr view (handle inner mark) := by
  refine .parenthesised (fun _ => rfl) (fun names hnames => ?_) ?_
  · refine hinner.outsideIndex.bind fun e he => onward_siteBetween.before fun _ => .pure ?_
    have hlisted := hnames.listed
    exact Node.listed_iff.2 (by simpa [AllListed, hnames, he, or_imp, forall_and] using hlisted)
  · exact draws_dottedName.bind fun n hn => onward_siteBetween.before fun _ =>
      .pure (Node.listed_iff.2 (by simp [hn]))

theorem draws_compound (t : Token) : DrawsExpr view (compound inner t) := by
  rw [compound]
  split
  · exact (draws_name hinner).bind fun n hn => .pure (listed_name_iff.2 hn)
  · exact onward_advance.before fun _ => hinner.bind fun e he =>
      onward_punctuation.before fun _ => .pure he
  · exact (draws_rows hinner).bind fun rows hrows => onward_siteAt.before fun _ =>
      .pure (Node.listed_iff.2 (by simpa [AllListed] using hrows))
  · exact (draws_rows hinner).bind fun rows hrows => onward_siteAt.before fun _ =>
      .pure (Node.listed_iff.2 (by simpa [AllListed] using hrows))
  · exact onward_advance.before fun _ => draws_handle hinner t
  · exact onward_advance.before fun _ => draws_dottedName.bind fun n hn =>
      onward_siteBetween.before fun _ => .pure (Node.listed_iff.2 (by simp [hn]))
  · exact .failing fun _ _ _ => unexpected_ok

theorem draws_operand : DrawsExpr view (operand inner) := by
  refine onward_current?.before fun t => ?_
  cases t with
  | none => exact .failing fun _ _ _ => unexpected_ok
  | some t =>
    refine .get fun s => onward_peekKind?.before fun next => ?_
    split
    · rename_i make hmake
      exact onward_advance.before fun _ => onward_siteAt.before fun site =>
        .pure (listed_atom? hmake site)
    · exact draws_compound hinner t

end Inner

/-! ## Levels -/

theorem draws_allSigned (ops : List Token) {e : Expr} (he : Node.Listed view (.expr e)) :
    Draws view (allSigned ops e) fun e' => Node.Listed view (.expr e') := by
  induction ops with
  | nil => exact .pure he
  | cons op ops ih =>
    exact ih.bind fun e' he' => onward_siteBetween.before fun _ =>
      .pure (Node.listed_iff.2 (by simp [he']))

theorem draws_signed (hp : DrawsExpr view p) :
    DrawsExpr view (do
      let signs ← eatWhile isSign
      allSigned signs (← p)) :=
  onward_eatWhile.before fun ops => hp.bind fun _ he => draws_allSigned ops he

theorem draws_binary (op : Token) {e e' : Expr} (he : Node.Listed view (.expr e))
    (he' : Node.Listed view (.expr e')) :
    Draws view (binary op e e') fun joined => Node.Listed view (.expr joined) := by
  rw [binary]
  split
  · exact onward_siteBetween.before fun _ => .pure (Node.listed_iff.2 (by simp [he, he']))
  · exact .failing fun _ _ _ => throw_ok

theorem draws_binaryLevel {symbols : List String} (hp : DrawsExpr view p) :
    DrawsExpr view (binaryLevel symbols p) := by
  refine hp.bind fun e he => .rounds (fun e => Node.Listed view (.expr e)) he fun e he => ?_
  refine onward_eatIf.before fun op => ?_
  cases op with
  | some op => exact hp.bind fun e' he' => (draws_binary op he he').bind fun _ h => .pure h
  | none => exact .pure he

section Inner

variable (hinner : DrawsExpr view inner)

include hinner

theorem draws_powers : DrawsExpr view (powers inner) := by
  refine (draws_operand hinner).bind fun e he => .rounds
    (fun e => Node.Listed view (.expr e)) he fun e he => ?_
  refine onward_eatIf.before fun op => ?_
  cases op with
  | some op =>
    simp only [transposed, bind_assoc, pure_bind]
    exact onward_siteBetween.before fun _ => .pure (Node.listed_iff.2 (by simp [he]))
  | none =>
    refine onward_eatIf.before fun op => ?_
    cases op with
    | some op =>
      exact (draws_signed (draws_operand hinner)).bind fun e' he' =>
        (draws_binary op he he').bind fun _ h => .pure h
    | none => exact .pure he

theorem draws_sums : DrawsExpr view (sums inner) :=
  draws_binaryLevel (draws_binaryLevel (draws_signed (draws_powers hinner)))

theorem draws_ranges : DrawsExpr view (ranges inner) := by
  have hsums := draws_sums hinner
  refine hsums.bind fun first hfirst => onward_eatIf.before fun colon => ?_
  split
  · exact .pure hfirst
  have hrange : ∀ stride stop, AllListed view .expr (Option.toList stride) →
      Node.Listed view (.expr stop) → Draws view
        (do return .range (← siteBetween first.site.location stop.site.location) first stride stop)
        fun e => Node.Listed view (.expr e) := by
    refine fun stride stop hstride hstop => onward_siteBetween.before fun _ => .pure ?_
    exact Node.listed_iff.2 (by simpa [AllListed, or_imp, forall_and, hfirst, hstop] using hstride)
  refine hsums.bind fun second hsecond => onward_eatIf.before fun colon => ?_
  split
  · exact hsums.bind fun stop hstop => hrange (some second) stop (by simpa [AllListed]) hstop
  · exact hrange none second .nil hsecond

theorem draws_shortOrs : DrawsExpr view (shortOrs inner) :=
  draws_binaryLevel (draws_binaryLevel (draws_binaryLevel (draws_binaryLevel
    (draws_binaryLevel (draws_ranges hinner)))))

end Inner

theorem draws_expressionWithin (fuel : Nat) : DrawsExpr view (expressionWithin fuel) := by
  induction fuel with
  | zero => exact .failing fun _ _ _ => stalled_ok
  | succ fuel ih => exact draws_shortOrs ih

theorem draws_expression : DrawsExpr view expression :=
  .get fun _ => draws_expressionWithin _

/-! ## Whole statements -/

abbrev DrawsStmt (view : List Token) (p : Parse (Site → Stmt)) : Prop :=
  Draws view p fun make => ∀ site, Node.Listed view (.stmt (make site))

abbrev DrawsBlock (view : List Token) (block : BlockParser) : Prop :=
  ∀ frame, Draws view (block frame) (AllListed view .stmt)

theorem Draws.some {α : Type} {node : α → Node} {p : Parse α}
    (h : Draws view p fun a => (node a).Listed view) :
    Draws view (Option.some <$> p) fun a => AllListed view node a.toList :=
  .map (h.mono fun _ ha => List.forall_mem_singleton.2 ha)

theorem Draws.inFrame {α : Type} {p : Parse α} {P : α → Prop} {frame : Frame}
    (h : Draws view p P) : Draws view (Parse.inFrame frame p) P :=
  h.bracketed (fun _ => rfl) fun _ _ => rfl

/-! ## Statements with blocks -/

theorem draws_loopHead : Draws view loopHead fun head =>
    Node.Listed view (.name head.1) ∧ Node.Listed view (.expr head.2) :=
  draws_identifier.bind fun _ hvar => onward_punctuation.before fun _ =>
    draws_expression.bind fun _ hrange => .pure ⟨hvar, hrange⟩

section Blocks

variable (hblock : DrawsBlock view block)

include hblock

theorem draws_lastBlock (make : List Stmt → Site → Stmt) (frame : Frame) (opener : Token)
    (hmake : ∀ body, AllListed view .stmt body →
      ∀ site, Node.Listed view (.stmt (make body site))) :
    DrawsStmt view (do
      let body ← block frame
      blockEnd opener
      return make body) :=
  (hblock frame).bind fun body hbody => (onward_blockEnd opener).before fun _ =>
    .pure (hmake body hbody)

theorem draws_ifStmt (opener : Token) : DrawsStmt view (ifStmt block opener) := by
  refine draws_expression.bind fun guard hguard => ?_
  let I (soFar : Token × Option Expr × List Clause) : Prop :=
    AllListed view .expr soFar.2.1.toList ∧ AllListed view .action soFar.2.2
  refine Draws.bind (P := AllListed view .action) (.rounds I ?_ ?_) fun branches hbranches =>
    (onward_blockEnd opener).before fun _ => .pure fun site => ?_
  · exact ⟨List.forall_mem_singleton.2 hguard, .nil⟩
  · rintro ⟨word, head, branches⟩ ⟨hhead, hbranches⟩
    refine (hblock .conditional).bind fun body hbody => onward_siteAt.before fun site => ?_
    have hlast : Node.Listed view (.action ⟨site, head, body⟩) :=
      Node.listed_iff.2 (by simpa [AllListed, or_imp, forall_and] using And.intro hhead hbody)
    have hall := hbranches.concat hlast
    split
    · exact .pure hall
    refine onward_eatIf.before fun found => ?_
    cases found with
    | some word =>
      refine draws_expression.bind fun guard hguard => .pure ?_
      exact ⟨List.forall_mem_singleton.2 hguard, hall⟩
    | none =>
      refine onward_eatIf.before fun found => ?_
      cases found with
      | some word => exact .pure ⟨.nil, hall⟩
      | none => exact .pure hall
  · exact Node.listed_iff.2 (by simpa [AllListed] using hbranches)

theorem draws_switchStmt (opener : Token) : DrawsStmt view (switchStmt block opener) := by
  refine draws_expression.bind fun subject hsubject => ?_
  refine Draws.bind (P := AllListed view .arm) (.rounds (AllListed view .arm) .nil
    fun arms harms => onward_skipSeparators.before fun _ => ?_) fun arms harms =>
      (onward_blockEnd opener).before fun _ => .pure fun site => ?_
  · have harm : ∀ (word : Token) (head : Option Expr), AllListed view .expr head.toList →
        Draws view
          (do
            let body ← block .switch
            return Round.again (arms ++ [⟨← siteAt word.location, head, body⟩]))
          (Round.Holds (AllListed view .arm) (AllListed view .arm)) := by
      refine fun word head hhead => (hblock .switch).bind fun body hbody => ?_
      refine onward_siteAt.before fun site => .pure (harms.concat (Node.listed_iff.2 ?_))
      simpa [AllListed, or_imp, forall_and] using And.intro hhead hbody
    refine onward_eatIf.before fun found => ?_
    cases found with
    | some word =>
      exact draws_expression.bind fun value hvalue =>
        harm word (some value) (List.forall_mem_singleton.2 hvalue)
    | none =>
      refine onward_eatIf.before fun found => ?_
      cases found with
      | some word => exact harm word none .nil
      | none =>
        refine onward_checkWord.before fun closed => ?_
        split
        · exact .pure harms
        · exact .failing fun _ _ _ => unexpected_ok
  · exact Node.listed_iff.2 (by simpa [AllListed, hsubject] using harms)

theorem draws_forStmt (opener : Token) : DrawsStmt view (forStmt block opener) := by
  refine onward_eatIf.before fun paren => draws_loopHead.bind fun head hhead => ?_
  have hrest := draws_lastBlock hblock (fun body site => .forLoop site head.1 head.2 body)
    .loop opener fun body hbody site => Node.listed_iff.2 (by simpa [AllListed, hhead] using hbody)
  dsimp only
  split
  · exact onward_punctuation.before fun _ => hrest
  · exact hrest

theorem draws_parForStmt (opener : Token) : DrawsStmt view (parForStmt block opener) := by
  refine onward_eatIf.before fun paren => draws_loopHead.bind fun head hhead => ?_
  have hrest (workers : Option Expr) (hworkers : AllListed view .expr workers.toList) :=
    draws_lastBlock hblock (fun body site => .parFor site head.1 head.2 workers body)
      .loop opener fun body hbody site => Node.listed_iff.2 (by
        simpa [AllListed, or_imp, forall_and, hhead] using And.intro hworkers hbody)
  dsimp only
  split
  · refine onward_eatIf.before fun comma => ?_
    split
    · exact draws_expression.some.bind fun workers hworkers =>
        onward_punctuation.before fun _ => hrest workers hworkers
    · exact onward_punctuation.before fun _ => hrest none .nil
  · exact hrest none .nil

theorem draws_whileStmt (opener : Token) : DrawsStmt view (whileStmt block opener) :=
  draws_expression.bind fun _ hguard => draws_lastBlock hblock _ .loop opener fun _ hbody _ =>
    Node.listed_iff.2 (by simpa [AllListed, hguard] using hbody)

theorem draws_tryStmt (opener : Token) : DrawsStmt view (tryStmt block opener) := by
  refine (hblock .region).bind fun body hbody => onward_eatIf.before fun found => ?_
  have hhandler (var : Option Name) (hvar : AllListed view .name var.toList) :=
    draws_lastBlock hblock (fun handler site => .tryCatch site body var (some handler))
      .region opener fun handler hhandler site => Node.listed_iff.2 (by
        simpa [AllListed, or_imp, forall_and] using And.intro hbody (And.intro hvar hhandler))
  split
  · refine .get fun s => ?_
    split
    · exact draws_identifier.some.bind fun var hvar => hhandler var hvar
    · exact hhandler none .nil
  · refine (onward_blockEnd opener).before fun _ => .pure fun site => ?_
    exact Node.listed_iff.2 (by simpa [AllListed] using hbody)

theorem draws_spmdStmt (opener : Token) : DrawsStmt view (spmdStmt block opener) := by
  have hrest (options : List Expr) (hoptions : AllListed view .expr options) :=
    draws_lastBlock hblock (fun body site => .spmd site options body)
      .region opener fun body hbody site => Node.listed_iff.2 (by
        simpa [AllListed, or_imp, forall_and] using And.intro hoptions hbody)
  refine onward_check.before fun paren => ?_
  split
  · exact (draws_arguments draws_expression).bind hrest
  · exact hrest [] .nil

end Blocks

/-! ## Statements without a block -/

theorem draws_declaredNames : Draws view declaredNames (AllListed view .name) :=
  draws_identifier.bind fun _ hfirst => onward_eatWhile.before fun more =>
    (Draws.mapM more fun t _ => draws_identifierOf t).bind fun _ hnames =>
      .pure (List.forall_mem_cons.2 ⟨hfirst, hnames⟩)

theorem draws_assignableName {e : Expr} (he : Node.Listed view (.expr e)) :
    DrawsName view (assignableName e) := by
  cases e with
  | name n => exact .pure (listed_name_iff.1 he)
  | _ => exact .failing fun _ _ _ => fail_ok

theorem AllListed.elements {site : Site} {row : Row}
    (h : Node.Listed view (.expr (.matrix site [row]))) : AllListed view .expr row.items := by
  have hrow := (Node.listed_iff.1 h).2 (.row, .row row) (by simp)
  simpa [AllListed] using (Node.listed_iff.1 hrow).2

theorem draws_expressionStmt : DrawsStmt view expressionStmt := by
  refine onward_check.before fun bracketed => .modify (fun _ => rfl) fun _ => ?_
  refine draws_expression.bind fun lhs hlhs => .modify (fun _ => rfl) fun _ => ?_
  refine onward_eatIf.before fun equals => ?_
  split
  · split
    · exact Onward.fail.before fun _ => .pure fun site => Node.listed_iff.2 (by simp [hlhs])
    · exact .pure fun site => Node.listed_iff.2 (by simp [hlhs])
  split
  · rename_i row
    refine (Draws.mapM row.items fun e he =>
      draws_assignableName (AllListed.elements hlhs e he)).bind fun names hnames => ?_
    refine draws_expression.bind fun rhs hrhs => .pure fun site => Node.listed_iff.2 ?_
    simpa [or_imp, forall_and, hrhs] using hnames
  · refine (draws_assignableName hlhs).bind fun n hn => draws_expression.bind fun rhs hrhs => ?_
    exact .pure fun site => Node.listed_iff.2 (by simp [hn, hrhs])

theorem draws_keywordStmt (hblock : DrawsBlock view block) (t : Token) :
    DrawsStmt view (keywordStmt block t) := by
  rw [keywordStmt]
  dsimp only
  split
  · exact onward_advance.before fun _ => draws_ifStmt hblock t
  · exact onward_advance.before fun _ => draws_switchStmt hblock t
  · exact onward_advance.before fun _ => draws_forStmt hblock t
  · exact onward_advance.before fun _ => draws_parForStmt hblock t
  · exact onward_advance.before fun _ => draws_whileStmt hblock t
  · exact onward_advance.before fun _ => draws_tryStmt hblock t
  · exact onward_advance.before fun _ => draws_spmdStmt hblock t
  · exact onward_advance.before fun _ => draws_declaredNames.bind fun ns hns =>
      .pure fun site => Node.listed_iff.2 (by simpa [AllListed] using hns)
  · exact onward_advance.before fun _ => draws_declaredNames.bind fun ns hns =>
      .pure fun site => Node.listed_iff.2 (by simpa [AllListed] using hns)
  · exact onward_advance.before fun _ => (onward_requireLoop t).before fun _ =>
      .pure fun site => Node.listed_iff.2 (by simp)
  · exact onward_advance.before fun _ => (onward_requireLoop t).before fun _ =>
      .pure fun site => Node.listed_iff.2 (by simp)
  · exact onward_advance.before fun _ => .pure fun site => Node.listed_iff.2 (by simp)
  · exact .failing fun _ _ _ => fail_ok

theorem draws_commandHead : Draws view commandHead (AllListed view .stmt) := by
  refine draws_dottedName.bind fun head hhead => onward_eatWhile.before fun words => ?_
  split
  · refine Draws.mapM words fun word _ => onward_siteAt.before fun site => .pure ?_
    exact Node.listed_iff.2 (by simp)
  · refine (Draws.mapM (Q := fun e => Node.Listed view (.expr e)) words fun word _ =>
      onward_siteAt.before fun site => .pure (Node.listed_iff.2 (by simp))).bind
        fun args hargs => ?_
    refine onward_siteFrom.before fun inner => onward_siteFrom.before fun outer => .pure ?_
    have hcall : Node.Listed view (.name (.reference inner head args)) :=
      Node.listed_iff.2 (by simpa [hhead] using hargs)
    exact List.forall_mem_singleton.2 (Node.listed_iff.2 (by simp [listed_name_iff.2 hcall]))

/-! ## Lists of statements -/

theorem draws_statement (hblock : DrawsBlock view block) (t : Token) :
    Draws view (statement block t) (AllListed view .stmt) := by
  rw [statement_eq]
  refine Draws.bind (P := AllListed view .stmt) (.get fun s => ?_) fun stmts hstmts =>
    onward_endStatement.before fun _ => .pure hstmts
  split
  · exact draws_commandHead
  · have hmake : ∀ {p : Parse (Site → Stmt)}, DrawsStmt view p → Draws view
        (do
          let make ← p
          return [make (← siteFrom t.location)]) (AllListed view .stmt) := fun hp =>
      hp.bind fun make hmade => onward_siteFrom.before fun site =>
        .pure (List.forall_mem_singleton.2 (hmade site))
    split
    · exact hmake (draws_keywordStmt hblock t)
    · exact onward_advance.before fun _ => hmake (.pure fun site => Node.listed_iff.2 (by simp))
    · exact hmake draws_expressionStmt

theorem draws_statementList (hblock : DrawsBlock view block) :
    Draws view (statementList block) (AllListed view .stmt) := by
  rw [statementList_eq]
  refine .rounds (AllListed view .stmt) .nil fun stmts hstmts => ?_
  refine onward_skipSeparators.before fun _ => onward_current?.before fun t => ?_
  cases t with
  | none => exact .pure hstmts
  | some t =>
    rw [statementChoice]
    split
    · exact .pure hstmts
    split
    · refine .get fun s => ?_
      split
      · exact .pure hstmts
      · exact .pure hstmts
      · exact .failing fun _ _ _ => fail_ok
    split
    · exact .failing fun _ _ _ => fail_ok
    · exact (draws_statement hblock t).bind fun more hmore =>
        .pure (List.forall_mem_append.2 ⟨hstmts, hmore⟩)

theorem draws_statementsWithin (fuel : Nat) :
    Draws view (statementsWithin fuel) (AllListed view .stmt) := by
  induction fuel with
  | zero => exact .failing fun _ _ _ => stalled_ok
  | succ fuel ih => exact draws_statementList fun _ => ih.inFrame

theorem draws_statements : Draws view statements (AllListed view .stmt) :=
  .get fun _ => draws_statementsWithin _

end MFile.Grammar.Parse
