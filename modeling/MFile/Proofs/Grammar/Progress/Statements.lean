import MFile.Proofs.Grammar.Progress.Expression
import MFile.Proofs.Grammar.Rounds

/-!
Statements get on. A nested block begins after the word that opens it, so it has fewer tokens ahead
than the list of statements around it.
-/

namespace MFile.Grammar.Parse

variable {α β : Type} {n : Nat} {s : State} {block : BlockParser}

theorem settles_eatIf {q : Token → Bool} : Settles n (eatIf q) := by
  intro s _
  rw [← bind_pure (eatIf q)]
  exact .eatIf (fun t rest hahead _ => .pure (State.past_shorter hahead).le)
    fun _ => .pure (Nat.le_refl _)

theorem settles_eatWhile {q : Token → Bool} : Settles n (eatWhile q) :=
  fun s _ => .of_run (P := fun _ s' => s'.ahead.length ≤ s.ahead.length) rfl
    (List.dropWhile_suffix q).length_le

theorem settles_skipSeparators : Settles n skipSeparators := by
  intro s hs
  rw [skipSeparators, ← bind_pure (discard _)]
  exact .discard_bind (settles_eatWhile.bind hs fun _ mid hmid => .pure hmid)

theorem settles_endStatement : Settles n endStatement := by
  refine fun s hs => settles_eatIf.bind hs fun found mid hmid => ?_
  split
  · refine .current? (fun _ => .pure hmid) fun t rest _ => ?_
    dsimp only
    split
    · exact .unexpected
    · exact .pure hmid
  · exact .pure hmid

theorem settles_requireLoop (t : Token) : Settles n (requireLoop t) := by
  refine fun s _ => .get ?_
  split
  · exact .pure (Nat.le_refl _)
  · exact .fail

theorem settles_blockEnd (opener : Token) : Settles n (blockEnd opener) := by
  refine fun s hs => settles_eatIf.bind hs fun found mid hmid => ?_
  split
  · exact .failHere
  · exact .pure hmid

theorem Settles.mapM {g : α → Parse β} (as : List α) (h : ∀ a, Settles n (g a)) :
    Settles n (as.mapM g) := by
  induction as with
  | nil => exact fun _ _ => .pure (Nat.le_refl _)
  | cons a as ih =>
    intro s hs
    rw [List.mapM_cons]
    refine (h a).bind hs fun b mid hmid =>
      ih.bind (Nat.lt_of_le_of_lt hmid hs) fun bs mid' hmid' => ?_
    exact .pure (hmid'.trans hmid)

theorem Settles.map {p : Parse α} (h : Settles n p) (g : α → β) : Settles n (g <$> p) :=
  fun s hs => .map (h s hs)

theorem settles_expression : Settles n expression := advances_expression.settles

/-! ## Statements with blocks -/

section Blocks

variable (hblock : ∀ frame, Settles n (block frame))

include hblock

theorem settles_blockThen (frame : Frame) (opener : Token) (make : List Stmt → α) :
    Settles n (do
      let body ← block frame
      blockEnd opener
      return make body) := by
  refine fun s hs => (hblock frame).bind hs fun body mid hmid => ?_
  refine (settles_blockEnd opener).bind (Nat.lt_of_le_of_lt hmid hs) fun _ mid' hmid' => ?_
  exact .pure (hmid'.trans hmid)

theorem settles_ifStmt (opener : Token) : Settles n (ifStmt block opener) := by
  refine fun s hs => settles_expression.bind hs fun guard mid hmid => ?_
  refine ((GoesOn.rounds (n := n) ?_ _).bind (Nat.lt_of_le_of_lt hmid hs))
    fun branches mid₁ hmid₁ => ?_
  · refine fun (word, head, branches) st hst => (hblock _).bind hst fun body st₁ hst₁ => ?_
    refine .siteAt ?_
    dsimp only
    split
    · exact .pure hst₁
    refine .eatWord (fun word rest hahead _ => ?_) (.eatWord (fun word rest hahead _ => ?_) ?_)
    · have hshorter := State.past_shorter hahead
      rw [State.numbered_ahead] at hshorter
      refine settles_expression.bind (Nat.lt_succ_self _) fun guard st₂ hst₂ => .pure ?_
      exact Nat.lt_of_le_of_lt hst₂ (hshorter.trans_le hst₁)
    · exact .pure ((State.past_shorter hahead).trans_le hst₁)
    · exact .pure hst₁
  · refine (settles_blockEnd opener).bind (Nat.lt_succ_self _) fun _ mid₂ hmid₂ => .pure ?_
    omega

theorem settles_switchStmt (opener : Token) : Settles n (switchStmt block opener) := by
  refine fun s hs => settles_expression.bind hs fun subject mid hmid => ?_
  refine ((GoesOn.rounds (n := n) ?_ _).bind (Nat.lt_of_le_of_lt hmid hs)) fun arms mid₁ hmid₁ => ?_
  · intro arms st hst
    have harm : ∀ (word : Token) (head : Option Expr) (st₁ : State),
        st₁.ahead.length < st.ahead.length → Meets true
          (do
            let body ← block .switch
            return Round.again (arms ++ [⟨← siteAt word.location, head, body⟩])) st₁
          (Leaves (fun (_ : List Clause) s' => s'.ahead.length < st.ahead.length)
            fun (_ : List Clause) s' => s'.ahead.length ≤ st.ahead.length) :=
      fun word head st₁ hst₁ => (hblock _).bind (hst₁.trans hst) fun body st₂ hst₂ =>
        .siteAt (.pure (Nat.lt_of_le_of_lt hst₂ hst₁))
    refine settles_skipSeparators.bind hst fun _ st₁ hst₁ => ?_
    refine .eatWord (fun word rest hahead _ => ?_) (.eatWord (fun word rest hahead _ => ?_) ?_)
    · have hshorter := State.past_shorter hahead
      refine settles_expression.bind (Nat.lt_succ_self _) fun value st₂ hst₂ => harm _ _ st₂ ?_
      omega
    · exact harm _ _ _ ((State.past_shorter hahead).trans_le hst₁)
    · refine .checkWord fun closed => ?_
      split
      · exact .pure hst₁
      · exact .unexpected
  · refine (settles_blockEnd opener).bind (Nat.lt_succ_self _) fun _ mid₂ hmid₂ => .pure ?_
    omega

omit hblock in
theorem settles_loopHead : Settles n loopHead := by
  refine fun s hs => advances_identifier.bind hs fun var mid hmid => .discard_bind ?_
  refine advances_expect.bind (hmid.trans hs) fun _ mid₁ hmid₁ => ?_
  refine settles_expression.bind (Nat.lt_succ_self _) fun range mid₂ hmid₂ => .pure ?_
  omega

omit hblock in
theorem settles_discardExpect {kind : Kind} {what : Expectation} :
    Settles n (discard (expect kind what)) := by
  intro s hs
  rw [← bind_pure (discard _)]
  exact .discard_bind (advances_expect.bind hs fun _ mid hmid => .pure hmid.le)

theorem settles_forStmt (opener : Token) : Settles n (forStmt block opener) := by
  refine fun s hs => settles_eatIf.bind hs fun paren mid hmid => ?_
  have hmid' := Nat.lt_of_le_of_lt hmid hs
  refine settles_loopHead.bind hmid' fun (var, range) mid₁ hmid₁ => ?_
  have hbody : ∀ st : State, st.ahead.length ≤ s.ahead.length → Meets true
      (do
        let body ← block .loop
        blockEnd opener
        return (Stmt.forLoop · var range body)) st fun _ s' => s'.ahead.length ≤ s.ahead.length :=
    fun st hst => (settles_blockThen hblock .loop opener _ st (Nat.lt_of_le_of_lt hst hs)).mono
      fun _ _ h => h.trans hst
  dsimp only
  split
  · exact settles_discardExpect.bind (n := n) (by omega) fun _ mid₂ hmid₂ => hbody mid₂ (by omega)
  · exact hbody mid₁ (by omega)

theorem settles_parForStmt (opener : Token) : Settles n (parForStmt block opener) := by
  refine fun s hs => settles_eatIf.bind hs fun paren mid hmid => ?_
  have hmid' := Nat.lt_of_le_of_lt hmid hs
  refine settles_loopHead.bind hmid' fun (var, range) mid₁ hmid₁ => ?_
  have hbody : ∀ (workers : Option Expr) (st : State), st.ahead.length ≤ s.ahead.length → Meets true
      (do
        let body ← block .loop
        blockEnd opener
        return (Stmt.parFor · var range workers body)) st
          fun _ s' => s'.ahead.length ≤ s.ahead.length :=
    fun workers st hst => (settles_blockThen hblock .loop opener _ st
      (Nat.lt_of_le_of_lt hst hs)).mono fun _ _ h => h.trans hst
  dsimp only
  split
  · refine settles_eatIf.bind (n := n) (by omega) fun comma mid₂ hmid₂ => ?_
    split
    · refine (settles_expression.map some).bind (n := n) (by omega) fun workers mid₃ hmid₃ => ?_
      exact settles_discardExpect.bind (n := n) (by omega) fun _ mid₄ hmid₄ =>
        hbody workers mid₄ (by omega)
    · exact settles_discardExpect.bind (n := n) (by omega) fun _ mid₃ hmid₃ =>
        hbody none mid₃ (by omega)
  · exact hbody none mid₁ (by omega)

theorem settles_whileStmt (opener : Token) : Settles n (whileStmt block opener) := by
  refine fun s hs => settles_expression.bind hs fun guard mid hmid => ?_
  exact (settles_blockThen hblock .loop opener _ mid (Nat.lt_of_le_of_lt hmid hs)).mono
    fun _ _ h => h.trans hmid

theorem settles_tryStmt (opener : Token) : Settles n (tryStmt block opener) := by
  refine fun s hs => (hblock .region).bind hs fun body mid hmid => ?_
  have hend : ∀ (var : Option Name) (handler : Option (List Stmt)) (st : State),
      st.ahead.length ≤ s.ahead.length → Meets true
        (do
          blockEnd opener
          return (Stmt.tryCatch · body var handler)) st fun _ s' =>
            s'.ahead.length ≤ s.ahead.length :=
    fun var handler st hst => (settles_blockEnd opener).bind (Nat.lt_succ_self _) fun _ st₁ hst₁ =>
      .pure (hst₁.trans hst)
  have hhandler : ∀ (var : Option Name) (st : State), st.ahead.length ≤ s.ahead.length → Meets true
        (do
          let handler ← block .region
          blockEnd opener
          return (Stmt.tryCatch · body var (some handler))) st fun _ s' =>
            s'.ahead.length ≤ s.ahead.length :=
    fun var st hst => (hblock .region).bind (Nat.lt_of_le_of_lt hst hs) fun handler st₁ hst₁ =>
      hend var (some handler) st₁ (hst₁.trans hst)
  refine .eatWord (fun word rest hahead _ => .get ?_) (hend none none mid hmid)
  have hpast := (State.past_shorter hahead).le.trans hmid
  split
  · refine (advances_identifier.settles.map some).bind (n := n) (by omega) fun var mid₁ hmid₁ => ?_
    exact hhandler var mid₁ (hmid₁.trans hpast)
  · exact hhandler none _ hpast

theorem settles_spmdStmt (opener : Token) : Settles n (spmdStmt block opener) := by
  refine fun s hs => .check fun paren hparen => ?_
  split
  · rename_i hopen
    obtain ⟨t, rest, hahead, -⟩ := hparen hopen
    refine (advances_arguments advances_expression hahead (Nat.lt_succ_self _)).bind
      fun options mid hmid => ?_
    exact (settles_blockThen hblock .region opener _ mid (hmid.trans hs)).mono
      fun _ _ h => h.trans hmid.le
  · exact settles_blockThen hblock .region opener _ s hs

end Blocks

/-! ## Statements without a block -/

theorem settles_identifierOf (t : Token) : Settles n (identifierOf t) :=
  fun _ _ => .siteAt (.pure (Nat.le_refl _))

theorem settles_siteAt (l : Location) (make : Site → α) : Settles n (do return make (← siteAt l)) :=
  fun _ _ => .siteAt (.pure (Nat.le_refl _))

theorem settles_declaredNames : Settles n declaredNames := by
  refine fun s hs => advances_identifier.settles.bind hs fun first mid hmid => ?_
  refine settles_eatWhile.bind (Nat.lt_of_le_of_lt hmid hs) fun more mid₁ hmid₁ => ?_
  refine (Settles.mapM more settles_identifierOf).bind (Nat.lt_succ_self _)
    fun names mid₂ hmid₂ => ?_
  exact .pure (hmid₂.trans (hmid₁.trans hmid))

theorem settles_assignableName (e : Expr) : Settles n (assignableName e) := by
  intro s _
  rw [assignableName]
  split
  · exact .pure (Nat.le_refl _)
  · exact .fail

theorem advances_expressionStmt : Advances n expressionStmt := by
  refine fun s hs => .check fun bracketed _ => .modify ?_
  refine advances_expression.bind (s := { s with placeholders := bracketed }) hs
    fun lhs mid hmid => .modify ?_
  refine .eatIf (fun t rest hahead _ => ?_) fun _ => ?_
  · have hpast : rest.length < s.ahead.length := (State.past_shorter hahead).trans hmid
    simp only [Option.isNone_some, Bool.false_eq_true, if_false]
    split
    · refine (Settles.mapM _ settles_assignableName).bind (Nat.lt_succ_self _)
        fun ns mid₁ hmid₁ => ?_
      refine settles_expression.bind (Nat.lt_succ_self _) fun rhs mid₂ hmid₂ => .pure ?_
      exact Nat.lt_of_le_of_lt (hmid₂.trans hmid₁) hpast
    · refine (settles_assignableName _).bind (Nat.lt_succ_self _) fun name mid₁ hmid₁ => ?_
      refine settles_expression.bind (Nat.lt_succ_self _) fun rhs mid₂ hmid₂ => .pure ?_
      exact Nat.lt_of_le_of_lt (hmid₂.trans hmid₁) hpast
  · simp only [Option.isNone_none, if_true]
    split
    · exact .fail_bind
    · exact .pure hmid

theorem advances_commandHead : Advances n commandHead := by
  refine fun s hs => advances_dottedName.bind hs fun head mid hmid => ?_
  refine settles_eatWhile.bind (hmid.trans hs) fun words mid₁ hmid₁ => ?_
  have hle := Nat.lt_of_le_of_lt hmid₁ hmid
  split
  · refine (Settles.mapM (n := n) words (fun word => settles_siteAt word.location _) mid₁
      (hle.trans hs)).mono fun _ s' hs' => Nat.lt_of_le_of_lt hs' hle
  · refine (Settles.mapM (n := n) words fun word => settles_siteAt word.location _).bind
      (hle.trans hs) fun args mid₂ hmid₂ => ?_
    exact .siteFrom (.siteFrom (.pure (Nat.lt_of_le_of_lt hmid₂ hle)))

section Lists

variable (hblock : ∀ frame, Settles n (block frame)) {t : Token} {rest : List Token}

include hblock

theorem advances_keywordStmt (hahead : s.ahead = t :: rest) (hs : s.ahead.length < n + 1) :
    Meets true (keywordStmt block t) s fun _ s' => s'.ahead.length < s.ahead.length := by
  have hshorter := State.past_shorter hahead
  have hopened : ∀ {p : Parse (Site → Stmt)}, Settles n p →
      Meets true (advance >>= fun _ => p) s fun _ s' => s'.ahead.length < s.ahead.length :=
    fun hp => .advance hahead ((hp _ (by omega)).mono fun _ _ h => Nat.lt_of_le_of_lt h hshorter)
  have hdeclared : ∀ make : List Name → Site → Stmt, Settles n (do
      let names ← declaredNames
      return make names) :=
    fun make s hs => settles_declaredNames.bind hs fun _ mid hmid => .pure hmid
  have hlooped : ∀ make : Site → Stmt, Settles n (do
      requireLoop t
      return make) :=
    fun make s hs => (settles_requireLoop t).bind hs fun _ mid hmid => .pure hmid
  rw [keywordStmt]
  dsimp only
  split
  · exact hopened (settles_ifStmt hblock t)
  · exact hopened (settles_switchStmt hblock t)
  · exact hopened (settles_forStmt hblock t)
  · exact hopened (settles_parForStmt hblock t)
  · exact hopened (settles_whileStmt hblock t)
  · exact hopened (settles_tryStmt hblock t)
  · exact hopened (settles_spmdStmt hblock t)
  · exact hopened (hdeclared _)
  · exact hopened (hdeclared _)
  · exact hopened (hlooped _)
  · exact hopened (hlooped _)
  · exact hopened fun _ _ => .pure (Nat.le_refl _)
  · exact .fail

theorem advances_statement (hahead : s.ahead = t :: rest) (hs : s.ahead.length < n + 1) :
    Meets true (statement block t) s fun _ s' => s'.ahead.length < s.ahead.length := by
  rw [statement_eq]
  have hhead : Meets true (statementHead block t) s fun _ s' =>
      s'.ahead.length < s.ahead.length := by
    refine .get ?_
    split
    · exact advances_commandHead s hs
    · split
      · exact (advances_keywordStmt hblock hahead hs).bind
          fun make mid hmid => .siteFrom (.pure hmid)
      · exact .advance hahead (.step rfl (.siteFrom (.pure (State.past_shorter hahead))))
      · exact advances_expressionStmt.bind hs fun make mid hmid => .siteFrom (.pure hmid)
  refine hhead.bind fun stmts mid hmid => ?_
  refine settles_endStatement.bind (Nat.lt_succ_self _) fun _ mid₁ hmid₁ => .pure ?_
  exact Nat.lt_of_le_of_lt hmid₁ hmid

theorem settles_statementList : Settles (n + 1) (statementList block) := by
  rw [statementList_eq]
  refine GoesOn.rounds (fun stmts s hs => ?_) []
  refine settles_skipSeparators.bind hs fun _ mid hmid => .current? (fun _ => .pure hmid) ?_
  intro t rest hahead
  rw [statementChoice]
  split
  · exact .pure hmid
  split
  · refine .get ?_
    split
    · exact .pure hmid
    · exact .pure hmid
    · exact .fail
  split
  · exact .fail
  · refine (advances_statement hblock hahead (Nat.lt_of_le_of_lt hmid hs)).bind
      fun more mid₁ hmid₁ => .pure ?_
    exact hmid₁.trans_le hmid

end Lists

theorem settles_statementsWithin (fuel : Nat) : Settles fuel (statementsWithin fuel) := by
  induction fuel with
  | zero => exact .none _
  | succ fuel ih =>
    exact settles_statementList fun frame s hs =>
      .bracketed (ih { s with frames := frame :: s.frames } hs)

theorem settles_statements : Settles n statements :=
  fun s _ => .get (settles_statementsWithin _ s (Nat.lt_succ_self _))

end MFile.Grammar.Parse
