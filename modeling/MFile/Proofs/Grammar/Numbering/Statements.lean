import MFile.Proofs.Grammar.Contents.Statements
import MFile.Proofs.Grammar.Numbering.Expression

/-!
Along a list of statements the numbers climb. Two numbers are left out for a multiple assignment
and one for an import, however many names it has.
-/

namespace MFile

/-- Statements one after the other, with the numbers from `m` up to `n`. An import begins with the
number of its word. -/
structure NumbersBody (m n : Nat) (ss : List Stmt) : Prop where
  numbers : Numbers m n (importCommands ss) (ss.map .stmt)
  imports : ImportsWithin (m + 1) n ss

namespace NumbersBody

variable {m k n : Nat} {ss ss' : List Stmt} {s : Stmt}

theorem nil (m : Nat) : NumbersBody m m [] :=
  ⟨.nil m, fun _ h => absurd h List.not_mem_nil⟩

theorem single (h : Numbers m n 0 [.stmt s]) (hs : s.importId? = none) : NumbersBody m n [s] := by
  have himports : importCommands [s] = 0 := by
    simp only [importCommands, endsImport, hs, Option.any_none, Bool.toNat_false]
  refine ⟨by rwa [himports], List.forall_mem_singleton.2 fun i hi => ?_⟩
  rw [hs] at hi
  cases hi

theorem append (h : NumbersBody m k ss) (h' : NumbersBody k n ss') :
    NumbersBody m n (ss ++ ss') := by
  have hmk := h.numbers.le
  have hkn := h'.numbers.le
  refine ⟨?_, fun s hs => (List.mem_append.1 hs).elim
    (h.imports.mono (Nat.le_refl _) hkn s) (h'.imports.mono (by omega) (Nat.le_refl _) s)⟩
  rw [h.imports.importCommands_append h'.imports, List.map_append]
  exact h.numbers.append h'.numbers

end NumbersBody

theorem Numbers.clause {m k n : Nat} {node : Clause → Node} {clauses : List Clause}
    {head : Option Expr} {ss : List Stmt} {l : Location}
    (h : Numbers m k 0 (clauses.map node ++ head.toList.map .expr)) (hss : NumbersBody k n ss)
    (hnode : node = .action ∨ node = .arm) :
    Numbers m (n + 1) 0 ((clauses ++ [Clause.mk ⟨n, l⟩ head ss]).map node) := by
  have hboth := h.append hss.numbers
  rw [Nat.zero_add, List.append_assoc] at hboth
  rw [List.map_append]
  rcases hnode with rfl | rfl <;> exact hboth.close_after (by simp) (by simp) rfl

namespace Grammar.Parse

variable {α β : Type} {m : Nat} {s : State} {t : Token} {block : BlockParser}

def MakesNumbered (m : Nat) (make : Site → Stmt) (s' : State) : Prop :=
  ∀ l, Numbers m (s'.nodes + 1) 0 [.stmt (make ⟨s'.nodes, l⟩)] ∧
    (make ⟨s'.nodes, l⟩).importId? = none

abbrev NumberedStmt (p : Parse (Site → Stmt)) : Prop :=
  ∀ s, Meets false p s (MakesNumbered s.nodes)

abbrev NumberedBlock (block : BlockParser) : Prop :=
  ∀ frame s, Meets false (block frame) s fun ss s' => NumbersBody s.nodes s'.nodes ss

def NumbersNone (p : Parse α) : Prop := ∀ s, Meets false p s fun _ s' => s'.nodes = s.nodes

theorem NumbersNone.bind {p : Parse α} {f : α → Parse β} {Q : β → State → Prop}
    (h : NumbersNone p) (hf : ∀ a mid, mid.nodes = s.nodes → Meets false (f a) mid Q) :
    Meets false (p >>= f) s Q :=
  (h s).bind hf

theorem numbersNone_skipSeparators : NumbersNone skipSeparators := fun _ => .of_run rfl rfl

theorem numbersNone_endStatement : NumbersNone endStatement := by
  refine fun s => .eatIf (fun _ _ _ _ => .pure rfl) fun _ => .current? (fun _ => .pure rfl) ?_
  intro t rest _
  dsimp only
  split
  · exact .unexpected
  · exact .pure rfl

theorem numbersNone_requireLoop (t : Token) : NumbersNone (requireLoop t) := by
  refine fun s => .get ?_
  split
  · exact .pure rfl
  · exact .fail

theorem numbersNone_blockEnd (opener : Token) : NumbersNone (blockEnd opener) :=
  fun _ => .eatWord (fun _ _ _ _ => .pure rfl) .failHere

theorem numbersNone_discardExpect {kind : Kind} {what : Expectation} :
    NumbersNone (discard (expect kind what)) := by
  intro s
  rw [← bind_pure (discard _)]
  exact .discard_bind (.expect fun _ _ _ _ => .pure rfl)

theorem Numbered.some {p : Parse α} {node : α → Node} (h : Numbered p fun a => [node a]) :
    Numbered (Option.some <$> p) fun a => a.toList.map node :=
  fun s => .map (h s)

/-! ## Statements with blocks -/

section Blocks

variable (hblock : NumberedBlock block)

include hblock

theorem numbers_lastBlock {lost : Nat} {nodes : List Node} {make : List Stmt → Site → Stmt}
    (frame : Frame) (opener : Token) (h : Numbers m s.nodes lost nodes)
    (hchildren : ∀ ss site, (Node.stmt (make ss site)).children.map (·.2) = nodes ++ ss.map .stmt)
    (hdiscards : ∀ ss site, (Node.stmt (make ss site)).discards = lost + importCommands ss)
    (hsite : ∀ ss site, (make ss site).site = site ∧ (make ss site).importId? = none) :
    Meets false
      (do
        let body ← block frame
        blockEnd opener
        return make body) s (MakesNumbered m) := by
  refine (hblock frame s).bind fun ss mid hss =>
    (numbersNone_blockEnd opener).bind fun _ mid' hmid => ?_
  refine .pure fun l => ⟨?_, (hsite _ _).2⟩
  have hboth := h.append hss.numbers
  rw [← hmid] at hboth
  exact hboth.close (hchildren _ _) (hdiscards _ _) (congrArg Site.id (hsite _ _).1)

theorem numbered_ifStmt (opener : Token) : NumberedStmt (ifStmt block opener) := by
  refine fun s => numbered_expression.bind fun guard mid hguard => ?_
  refine Meets.bind (P := fun branches st => Numbers s.nodes st.nodes 0 (branches.map .action))
    (NumbersOn.rounds (v := fun soFar => soFar.2.2.map .action ++ soFar.2.1.toList.map .expr)
      ?_ hguard) fun branches mid₁ hbranches => ?_
  · refine fun (word, head, branches) m s h => (hblock _ s).bind fun body st hbody => .siteAt ?_
    have hall := h.clause (l := word.location) hbody (.inl rfl)
    dsimp only
    split
    · exact .pure hall
    refine .eatWord (fun word _ _ _ => ?_) (.eatWord (fun word _ _ _ => .pure ?_) (.pure hall))
    · exact numbered_expression.bind fun guard st' hguard => .pure (hall.append hguard)
    · exact hall.append (.nil _)
  · refine (numbersNone_blockEnd opener).bind fun _ mid₂ hmid₂ => .pure fun l => ⟨?_, rfl⟩
    rw [← hmid₂] at hbranches
    exact hbranches.close (by simp) (by simp) rfl

theorem numbered_switchStmt (opener : Token) : NumberedStmt (switchStmt block opener) := by
  refine fun s => numbered_expression.bind fun subject mid hsubject => ?_
  refine Meets.bind (P := fun arms st => Numbers mid.nodes st.nodes 0 (arms.map .arm))
    (NumbersOn.rounds (v := fun arms => arms.map .arm) ?_ (.nil mid.nodes))
      fun arms mid₁ harms => ?_
  · intro arms m s h
    have harm : ∀ (word : Token) (head : Option Expr) (st : State),
        Numbers m st.nodes 0 (arms.map .arm ++ head.toList.map .expr) → Meets false
          (do
            let body ← block .switch
            return Round.again (arms ++ [⟨← siteAt word.location, head, body⟩])) st
          (Leaves (fun (arms' : List Clause) s' => Numbers m s'.nodes 0 (arms'.map .arm))
            fun (arms' : List Clause) s' => Numbers m s'.nodes 0 (arms'.map .arm)) :=
      fun word head st hst => (hblock .switch st).bind fun body st' hbody =>
        .siteAt (.pure (hst.clause hbody (.inr rfl)))
    refine numbersNone_skipSeparators.bind fun _ st hst => ?_
    rw [← hst] at h
    refine .eatWord (fun word _ _ _ => ?_)
      (.eatWord (fun word _ _ _ => ?_) (.checkWord fun closed => ?_))
    · exact numbered_expression.bind fun value st' hvalue =>
        harm word (some value) st' (h.append hvalue)
    · exact harm word none _ (h.append (.nil _))
    · split
      · exact .pure h
      · exact .unexpected
  · refine (numbersNone_blockEnd opener).bind fun _ mid₂ hmid₂ => .pure fun l => ⟨?_, rfl⟩
    rw [← hmid₂] at harms
    exact (hsubject.append harms).close (by simp) (by simp) rfl

omit hblock in
theorem numbered_loopHead : Numbered loopHead fun h => [.name h.1, .expr h.2] := by
  refine fun s => numbered_identifier.bind fun var mid hvar => ?_
  refine numbersNone_discardExpect.bind fun _ mid₁ hmid₁ => ?_
  rw [← hmid₁] at hvar
  exact numbered_expression.bind fun range mid₂ hrange => .pure (hvar.append hrange)

theorem numbered_forStmt (opener : Token) : NumberedStmt (forStmt block opener) := by
  refine fun s => .eat (fun _ _ _ _ => ?_) ?_
  · refine numbered_loopHead.bind fun (var, range) mid hhead => ?_
    refine numbersNone_discardExpect.bind fun _ mid₁ hmid₁ => ?_
    rw [← hmid₁] at hhead
    exact numbers_lastBlock hblock _ _ hhead (by simp) (by simp) fun _ _ => ⟨rfl, rfl⟩
  · refine numbered_loopHead.bind fun (var, range) mid hhead => ?_
    exact numbers_lastBlock hblock _ _ hhead (by simp) (by simp) fun _ _ => ⟨rfl, rfl⟩

theorem numbered_parForStmt (opener : Token) : NumberedStmt (parForStmt block opener) := by
  have hbody : ∀ {m : Nat} {st : State} (var : Name) (range : Expr) (workers : Option Expr),
      Numbers m st.nodes 0 ([.name var, .expr range] ++ workers.toList.map .expr) → Meets false
        (do
          let body ← block .loop
          blockEnd opener
          return (Stmt.parFor · var range workers body)) st (MakesNumbered m) :=
    fun var range workers h =>
      numbers_lastBlock hblock _ _ h (by simp) (by simp) fun _ _ => ⟨rfl, rfl⟩
  refine fun s => .eat (fun _ _ _ _ => ?_) ?_
  · refine numbered_loopHead.bind fun (var, range) mid hhead => ?_
    refine .eat (fun _ _ _ _ => ?_) ?_
    · refine numbered_expression.some.bind fun workers mid₁ hworkers => ?_
      refine numbersNone_discardExpect.bind fun _ mid₂ hmid₂ => hbody var range workers ?_
      rw [hmid₂]
      exact hhead.append hworkers
    · refine numbersNone_discardExpect.bind fun _ mid₂ hmid₂ => hbody var range none ?_
      rw [hmid₂]
      exact hhead
  · exact numbered_loopHead.bind fun (var, range) mid hhead => hbody var range none hhead

theorem numbered_whileStmt (opener : Token) : NumberedStmt (whileStmt block opener) :=
  fun _ => numbered_expression.bind fun _ _ hguard =>
    numbers_lastBlock hblock _ _ hguard (by simp) (by simp) fun _ _ => ⟨rfl, rfl⟩

theorem numbered_tryStmt (opener : Token) : NumberedStmt (tryStmt block opener) := by
  refine fun s => (hblock .region s).bind fun body mid hbody => .eatWord (fun _ rest _ _ => ?_) ?_
  · have hhandler : ∀ {st : State} (var : Option Name),
        Numbers s.nodes st.nodes (importCommands body)
          (body.map .stmt ++ var.toList.map .name) → Meets false
          (do
            let handler ← block .region
            blockEnd opener
            return (Stmt.tryCatch · body var (some handler))) st (MakesNumbered s.nodes) :=
      fun var h => numbers_lastBlock hblock _ _ h (by simp) (by simp) fun _ _ => ⟨rfl, rfl⟩
    refine .get ?_
    split
    · exact numbered_identifier.some.bind fun var mid₁ hvar =>
        hhandler var (hbody.numbers.append hvar)
    · exact hhandler none (hbody.numbers.append (.nil _))
  · refine (numbersNone_blockEnd opener).bind fun _ mid₁ hmid₁ => .pure fun l => ⟨?_, rfl⟩
    rw [hmid₁]
    exact hbody.numbers.close (by simp) (by simp) rfl

theorem numbered_spmdStmt (opener : Token) : NumberedStmt (spmdStmt block opener) := by
  refine fun s => .check fun paren hparen => ?_
  split
  · rename_i hopen
    obtain ⟨t, rest, hahead, -⟩ := hparen hopen
    refine (numbered_arguments numbered_expression hahead).bind fun options mid hoptions => ?_
    exact numbers_lastBlock hblock _ _ hoptions (by simp) (by simp) fun _ _ => ⟨rfl, rfl⟩
  · exact numbers_lastBlock hblock _ _ (.nil _) (by simp) (by simp) fun _ _ => ⟨rfl, rfl⟩

end Blocks

/-! ## Statements without a block -/

theorem Numbered.mapM {g : α → Parse β} {node : β → Node}
    (h : ∀ a, Numbered (g a) fun b => [node b])
    (as : List α) : Numbered (as.mapM g) fun bs => bs.map node := by
  induction as with
  | nil => exact fun s => .pure (.nil s.nodes)
  | cons a as ih =>
    intro s
    rw [List.mapM_cons]
    exact (h a).bind fun b mid hb => ih.bind fun bs mid' hbs => .pure (hb.append hbs)

theorem numbered_declaredNames : Numbered declaredNames fun ns => ns.map .name := by
  refine fun s => numbered_identifier.bind fun first mid hfirst => .step rfl ?_
  exact (Numbered.mapM numbered_identifierOf _).bind fun names mid' hnames =>
    .pure (hfirst.append hnames)

theorem meets_assignableName (e : Expr) :
    Meets false (assignableName e) s fun n s' => s' = s ∧ e = .name n := by
  cases e with
  | name n => exact .pure ⟨rfl, rfl⟩
  | _ => exact .fail

theorem meets_assignableNames (es : List Expr) :
    Meets false (es.mapM assignableName) s fun ns s' => s' = s ∧ es = ns.map .name := by
  induction es with
  | nil => exact .pure ⟨rfl, rfl⟩
  | cons e es ih =>
    rw [List.mapM_cons]
    refine (meets_assignableName e).bind fun n mid ⟨hmid, hn⟩ => ?_
    subst hmid hn
    refine ih.bind fun ns mid' ⟨hmid', hns⟩ => .pure ⟨hmid', ?_⟩
    rw [hns]
    rfl

theorem numbered_expressionStmt : NumberedStmt expressionStmt := by
  refine fun s => .check fun bracketed _ => .modify ?_
  refine (numbered_expression _).bind fun lhs mid hlhs => .modify ?_
  refine .eatIf (fun _ _ _ _ => ?_) fun _ => ?_
  · simp only [Option.isNone_some, Bool.false_eq_true, if_false]
    split
    · refine (meets_assignableNames _).bind fun ns mid₁ ⟨hmid₁, hns⟩ => ?_
      subst hmid₁
      have hnames := hlhs.elements
      rw [hns, Numbers.names_iff] at hnames
      refine numbered_expression.bind fun rhs mid₂ hrhs => .pure fun l => ⟨?_, rfl⟩
      exact (hnames.append hrhs).close (by simp) (by simp) rfl
    · refine (meets_assignableName _).bind fun n mid₁ ⟨hmid₁, hn⟩ => ?_
      subst hmid₁ hn
      refine numbered_expression.bind fun rhs mid₂ hrhs => .pure fun l => ⟨?_, rfl⟩
      exact ((Numbers.name_iff.1 hlhs).append hrhs).close (by simp) (by simp) rfl
  · simp only [Option.isNone_none, if_true]
    split
    · exact .fail_bind
    · exact .pure fun l => ⟨hlhs.close (by simp) (by simp) rfl, rfl⟩

/-! ## Commands -/

theorem numbers_importsFrom (id : Nat) (ws : List Token) :
    Numbers id (id + ws.length) 0 ((importsFrom id ws).map .stmt) := by
  induction ws generalizing id with
  | nil => exact .nil id
  | cons w ws ih =>
    have hfirst : Numbers id (id + 1) 0 [.stmt (.importNames ⟨id, w.location⟩
        ((Text.pieces '.' w.value.toList).map String.ofList))] := .leaf rfl rfl rfl
    rw [List.length_cons, Nat.add_comm ws.length, ← Nat.add_assoc]
    exact hfirst.append (ih (id + 1))

theorem numbers_commandHead (hs : followedByText true (s.ahead.drop 1) = true) :
    Meets false commandHead s fun ss s' => NumbersBody s.nodes s'.nodes ss := by
  refine ((numbered_dottedName s).and fun _ _ => dottedName_ends).bind
    fun head mid ⟨hhead, hends⟩ => ?_
  refine .step rfl ?_
  split
  · rename_i himport
    obtain ⟨w, ws, hwords⟩ := words_eq_cons hs hends (by rw [himport]; rfl)
    have hmid : mid.nodes = s.nodes + 1 := by
      cases head with
      | identifier site text => exact hhead.eq_of_leaf rfl rfl
      | _ => cases himport
    rw [hwords]
    refine .of_run (imports_run _ _) ⟨?_, ?_⟩
    · rw [importCommands_importsFrom]
      refine Numbers.after_skip ?_
      rw [← hmid]
      exact numbers_importsFrom _ _
    · rw [← hmid]
      exact importsFrom_within _ _
  · have hword : ∀ word : Token, NumberedExpr (do
        return Expr.charArray (← siteAt word.location) word.value) :=
      fun word st => .siteAt (.pure (.leaf rfl rfl rfl))
    refine (Numbered.mapM hword _).bind fun args mid₁ hargs => .siteFrom (.siteFrom (.pure ?_))
    have hcall : ∀ l, Numbers s.nodes (mid₁.nodes + 1) 0
        [.name (.reference ⟨mid₁.nodes, l⟩ head args)] :=
      fun l => (hhead.append hargs).close (by simp) rfl rfl
    exact .single ((Numbers.name_iff.2 (hcall _)).close rfl rfl rfl) rfl

/-! ## Lists of statements -/

section Lists

variable (hblock : NumberedBlock block) {rest : List Token}

include hblock

theorem numbers_keywordStmt (hahead : s.ahead = t :: rest) :
    Meets false (keywordStmt block t) s (MakesNumbered s.nodes) := by
  have hopened : ∀ {p : Parse (Site → Stmt)}, NumberedStmt p →
      Meets false (advance >>= fun _ => p) s (MakesNumbered s.nodes) :=
    fun hp => .advance hahead (hp (s.past t rest))
  have hdeclared : ∀ {make : List Name → Site → Stmt},
      (∀ ns l, (Node.stmt (make ns l)).children.map (·.2) = ns.map .name ∧
        (Node.stmt (make ns l)).discards = 0 ∧ (make ns l).site = l ∧
        (make ns l).importId? = none) →
      NumberedStmt (do
        let names ← declaredNames
        return make names) := by
    refine fun hmake s => numbered_declaredNames.bind fun names mid hnames => .pure fun l => ?_
    obtain ⟨hchildren, hdiscards, hsite, himport⟩ := hmake names ⟨mid.nodes, l⟩
    exact ⟨hnames.close hchildren hdiscards (congrArg Site.id hsite), himport⟩
  have hlooped : ∀ {make : Site → Stmt}, (∀ st, MakesNumbered (State.nodes st) make st) →
      NumberedStmt (do
        requireLoop t
        return make) := by
    refine fun hmake s => (numbersNone_requireLoop t).bind fun _ mid hmid => .pure ?_
    rw [← hmid]
    exact hmake mid
  rw [keywordStmt]
  dsimp only
  split
  · exact hopened (numbered_ifStmt hblock t)
  · exact hopened (numbered_switchStmt hblock t)
  · exact hopened (numbered_forStmt hblock t)
  · exact hopened (numbered_parForStmt hblock t)
  · exact hopened (numbered_whileStmt hblock t)
  · exact hopened (numbered_tryStmt hblock t)
  · exact hopened (numbered_spmdStmt hblock t)
  · exact hopened (hdeclared fun ns l => ⟨by simp, rfl, rfl, rfl⟩)
  · exact hopened (hdeclared fun ns l => ⟨by simp, rfl, rfl, rfl⟩)
  · exact hopened (hlooped fun st l => ⟨.leaf rfl rfl rfl, rfl⟩)
  · exact hopened (hlooped fun st l => ⟨.leaf rfl rfl rfl, rfl⟩)
  · exact hopened fun st => .pure fun l => ⟨.leaf rfl rfl rfl, rfl⟩
  · exact .fail

theorem numbers_statement (hahead : s.ahead = t :: rest) :
    Meets false (statement block t) s fun ss s' => NumbersBody s.nodes s'.nodes ss := by
  have hhead : Meets false (statementHead block t) s fun ss s' =>
      NumbersBody s.nodes s'.nodes ss := by
    refine .get ?_
    split
    · rename_i h
      exact numbers_commandHead h.2
    · split
      · exact (numbers_keywordStmt hblock hahead).bind fun make mid hmake => .siteFrom (.pure
          (.single (hmake _).1 (hmake _).2))
      · exact .advance hahead (.step rfl (.siteFrom (.pure (.single (.leaf rfl rfl rfl) rfl))))
      · exact (numbered_expressionStmt s).bind fun make mid hmake => .siteFrom (.pure
          (.single (hmake _).1 (hmake _).2))
  rw [statement_eq]
  refine hhead.bind fun ss mid hss => numbersNone_endStatement.bind fun _ mid' hmid' => .pure ?_
  rwa [hmid']

theorem numbers_statementList :
    Meets false (statementList block) s fun ss s' => NumbersBody s.nodes s'.nodes ss := by
  rw [statementList_eq]
  refine .rounds (I := fun ss st => NumbersBody s.nodes st.nodes ss) (.nil s.nodes) ?_
  refine fun ss st hss => numbersNone_skipSeparators.bind fun _ mid hmid => ?_
  rw [← hmid] at hss
  refine .current? (fun _ => .pure hss) fun t rest hahead => ?_
  rw [statementChoice]
  split
  · exact .pure hss
  split
  · refine .get ?_
    split
    · exact .pure hss
    · exact .pure hss
    · exact .fail
  split
  · exact .fail
  · exact (numbers_statement hblock hahead).bind fun more mid₁ hmore => .pure (hss.append hmore)

end Lists

theorem numbers_statementsWithin (fuel : Nat) :
    Meets false (statementsWithin fuel) s fun ss s' => NumbersBody s.nodes s'.nodes ss := by
  induction fuel generalizing s with
  | zero => exact .step (here_run s) (.of_error rfl)
  | succ fuel ih => exact numbers_statementList fun frame s => .bracketed ih

theorem numbers_statements :
    Meets false statements s fun ss s' => NumbersBody s.nodes s'.nodes ss :=
  .get (numbers_statementsWithin _)

end Grammar.Parse

end MFile
