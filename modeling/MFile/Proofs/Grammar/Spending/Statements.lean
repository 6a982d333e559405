import MFile.Proofs.Grammar.Contents.Statements
import MFile.Proofs.Grammar.Spending.Expression

/-!
How many numbers a statement takes. The keyword of a block pays for its statement and for the first
of its clauses, each other clause has a keyword of its own, and the words of a command pay for the
call that is made of them: no command has a name of one token and nothing else.
-/

namespace MFile.Grammar.Parse

variable {α β : Type} {b k n : Nat} {s : State} {t : Token} {rest : List Token}
  {block : BlockParser}

abbrev PaysBlocks (block : BlockParser) : Prop := ∀ frame, Pays 0 0 (block frame)

theorem pays_eatIf {q : Token → Bool} : Pays 0 0 (eatIf q) := by
  intro b s hs
  rw [← bind_pure (eatIf q)]
  refine .eatIf (fun t rest hahead _ => .pure ?_) fun _ => .pure hs
  have hpast := State.cost_past hahead
  omega

theorem pays_eatWhile {q : Token → Bool} : Pays 0 0 (eatWhile q) := by
  intro b s hs
  rw [← bind_pure (eatWhile q)]
  refine .eatWhile fun taken rest hahead _ _ => .pure ?_
  have hpassed := State.cost_passed hahead (taken.reverse ++ s.behind)
  omega

theorem pays_failHere {cause : Option Token → Cause} : Pays 0 n (failHere cause : Parse α) :=
  fun _ _ hs => .failHere hs

theorem pays_skipSeparators : Pays 0 0 skipSeparators := pays_eatWhile.discard

theorem pays_endStatement : Pays 0 0 endStatement := by
  refine pays_eatIf.seq (Nat.le_refl 0) fun found b s hs => ?_
  split
  · refine .current? (fun _ => .pure hs) fun t rest hahead => ?_
    dsimp only
    split
    · exact .unexpected hs
    · exact .pure hs
  · exact .pure hs

theorem pays_requireLoop (t : Token) : Pays 0 0 (requireLoop t) := by
  refine fun b s hs => .get ?_
  split
  · exact .pure hs
  · exact .fail hs

theorem pays_blockEnd (opener : Token) : Pays 0 0 (blockEnd opener) := by
  refine pays_eatIf.seq (Nat.le_refl 0) fun found => ?_
  split
  · exact pays_failHere
  · exact .pure _

theorem pays_loopHead : Pays 0 0 loopHead :=
  pays_identifier.seq (Nat.zero_le 1) fun _ => pays_expect.discard.seq (Nat.zero_le 2) fun _ =>
    pays_expression.seq (Nat.zero_le 1) fun _ => .pure _

/-! ## Statements with blocks -/

section Blocks

variable (hblock : PaysBlocks block)

include hblock

theorem pays_ifStmt (opener : Token) : Pays 1 0 (ifStmt block opener) := by
  refine fun b s hs => pays_expression.bind 1 hs fun guard mid hmid => ?_
  refine (PaysOn.rounds (k := fun _ => 1) (n := 0) ?_ _).bind 0 (by omega) fun branches mid hmid =>
    (pays_blockEnd opener).bind 0 hmid fun _ _ hmid => .pure hmid
  rintro ⟨word, head, branches⟩ b s hs
  refine (hblock _).bind 1 hs fun body mid hmid => .siteAt fun site => ?_
  have hnumbered := mid.cost_numbered
  split
  · exact .pure (show mid.numbered.cost + 0 ≤ b by omega)
  refine .eatIf (fun word rest hahead _ => ?_) fun _ => .eatIf (fun word rest hahead _ => ?_)
    fun _ => .pure (show mid.numbered.cost + 0 ≤ b by omega)
  all_goals have hpast := State.cost_past hahead
  · refine pays_expression.bind 1 (by omega) fun _ mid' hmid' => .pure ?_
    exact show mid'.cost + 1 ≤ b by omega
  · exact .pure (show (mid.numbered.past word rest).cost + 1 ≤ b by omega)

theorem pays_switchStmt (opener : Token) : Pays 0 0 (switchStmt block opener) := by
  refine pays_expression.seq (Nat.zero_le 1) fun subject => Pays.seq
    (PaysOn.rounds (k := fun _ => 0) (n := 0) ?_ _) (Nat.le_refl 0) fun arms =>
      (pays_blockEnd opener).seq (Nat.le_refl 0) fun _ => .pure _
  refine fun arms b s hs => pays_skipSeparators.bind 0 hs fun _ mid hmid => ?_
  have harm : ∀ (head : Option Expr) (word : Token) (st : State), st.cost + 1 ≤ b → Exits (do
      let body ← block .switch
      return .again (arms ++ [⟨← siteAt word.location, head, body⟩])) st
      (Leaves (fun _ s' => s'.cost + 0 ≤ b) fun (_ : List Clause) s' => s'.cost + 0 ≤ b)
      (·.cost ≤ b) := by
    refine fun head word st hst => (hblock _).bind 1 hst fun body mid hmid => .siteAt fun _ => ?_
    exact .pure (show mid.numbered.cost ≤ b by rw [mid.cost_numbered]; omega)
  refine .eatIf (fun word rest hahead _ => ?_) fun _ => .eatIf (fun word rest hahead _ => ?_)
    fun _ => .checkWord fun closed => ?_
  · have hpast := State.cost_past hahead
    exact pays_expression.bind 1 (by omega) fun value st hst => harm (some value) word st (by omega)
  · have hpast := State.cost_past hahead
    exact harm none word _ (by omega)
  · split
    · exact .pure hmid
    · exact .unexpected hmid

theorem pays_blockThen (frame : Frame) (opener : Token) (make : List Stmt → α) : Pays 0 0 (do
    let body ← block frame
    blockEnd opener
    return make body) :=
  (hblock frame).seq (Nat.le_refl 0) fun _ => (pays_blockEnd opener).seq (Nat.le_refl 0) fun _ =>
    .pure _

theorem pays_forStmt (opener : Token) : Pays 0 0 (forStmt block opener) := by
  refine pays_eatIf.seq (Nat.le_refl 0) fun paren =>
    pays_loopHead.seq (Nat.le_refl 0) fun head => ?_
  dsimp only
  split
  · exact pays_expect.discard.seq (Nat.zero_le 2) fun _ => pays_blockThen hblock _ opener _
  · exact pays_blockThen hblock _ opener _

theorem pays_parForStmt (opener : Token) : Pays 0 0 (parForStmt block opener) := by
  refine pays_eatIf.seq (Nat.le_refl 0) fun paren =>
    pays_loopHead.seq (Nat.le_refl 0) fun head => ?_
  dsimp only
  split
  · refine pays_eatIf.seq (Nat.le_refl 0) fun comma => ?_
    split
    · exact pays_expression.map.seq (Nat.zero_le 1) fun workers =>
        pays_expect.discard.seq (Nat.zero_le 2) fun _ => pays_blockThen hblock _ opener _
    · exact pays_expect.discard.seq (Nat.zero_le 2) fun _ => pays_blockThen hblock _ opener _
  · exact pays_blockThen hblock _ opener _

theorem pays_whileStmt (opener : Token) : Pays 0 0 (whileStmt block opener) :=
  pays_expression.seq (Nat.zero_le 1) fun _ => pays_blockThen hblock _ opener _

theorem pays_tryStmt (opener : Token) : Pays 0 0 (tryStmt block opener) := by
  refine (hblock _).seq (Nat.le_refl 0) fun body => pays_eatIf.seq (Nat.le_refl 0) fun found => ?_
  split
  · refine fun b s hs => .get ?_
    split
    · refine pays_identifier.map.bind 0 hs fun var mid hmid => ?_
      exact pays_blockThen hblock _ opener _ b mid (by omega)
    · exact pays_blockThen hblock _ opener _ b s hs
  · exact (pays_blockEnd opener).seq (Nat.le_refl 0) fun _ => .pure _

theorem pays_spmdStmt (opener : Token) : Pays 0 0 (spmdStmt block opener) := by
  refine fun b s hs => .check fun paren hparen => ?_
  split
  · obtain ⟨t, rest, hahead, -⟩ := hparen ‹_›
    refine (pays_arguments pays_expression hahead hs).bind fun options mid hmid => ?_
    exact pays_blockThen hblock _ opener _ b mid (by omega)
  · exact pays_blockThen hblock _ opener _ b s hs

end Blocks

/-! ## Statements without a block -/

theorem exits_mapM {g : Token → Parse α} (hg : ∀ t, Pays 1 0 (g t)) (ts : List Token)
    (hs : s.cost + ts.length + n ≤ b) :
    Exits (ts.mapM g) s (fun _ s' => s'.cost + n ≤ b) (·.cost ≤ b) := by
  refine .mapM (I := fun m st => st.cost + m ≤ b) ts (by omega) fun t _ m st hst => ?_
  rw [← bind_pure (g t)]
  exact (hg t).bind m (by omega) fun _ mid hmid => .pure (by omega)

theorem pays_declaredNames : Pays 0 0 declaredNames := by
  refine fun b s hs => pays_identifier.bind 0 hs fun first mid hmid => ?_
  refine .eatWhile fun more rest hahead _ _ => ?_
  have hpassed := State.cost_passed hahead (more.reverse ++ mid.behind)
  exact (exits_mapM pays_identifierOf more (n := 0) (by omega)).bind fun _ _ hmid => .pure hmid

theorem pays_assignableName (e : Expr) : Pays n n (assignableName e) := by
  intro b s hs
  rw [assignableName]
  split
  · exact .pure hs
  · exact .fail (by omega)

theorem pays_expressionStmt : Pays 0 1 expressionStmt := by
  refine fun b s hs => .check fun bracketed _ => .modify ?_
  refine pays_expression.bind 0 (s := { s with placeholders := bracketed }) hs fun lhs mid hmid =>
    .modify ?_
  refine pays_eatIf.bind 1 (s := { mid with placeholders := false }) hmid fun equals mid hmid => ?_
  have hvalue : ∀ (st : State) (make : Expr → Site → Stmt), st.cost + 1 ≤ b →
      Exits (do return make (← expression)) st (fun _ s' => s'.cost + 1 ≤ b) (·.cost ≤ b) :=
    fun st make hst => pays_expression.bind 0 (by omega) fun _ mid hmid => .pure hmid
  split
  · split
    · exact .stop (.fail (by omega))
    · exact .pure hmid
  split
  · rename_i row
    refine Exits.bind (.mapM (I := fun _ st => st.cost + 1 ≤ b) (n := 0) row.items hmid
      fun e _ _ st hst => pays_assignableName e b st hst) fun names mid hmid => ?_
    exact hvalue mid _ hmid
  · exact (pays_assignableName _ b _ hmid).bind fun name mid hmid => hvalue mid _ hmid

theorem exits_commandHead (hs : s.cost ≤ b) (htext : followedByText true (s.ahead.drop 1) = true) :
    Exits commandHead s (fun _ s' => s'.cost ≤ b) (·.cost ≤ b) := by
  refine ((exits_dottedName hs).and fun _ _ => dottedName_ends).bind
    fun head mid ⟨hmid, hends⟩ => ?_
  refine .eatWhile fun words rest hahead hwords _ => ?_
  have hpassed := State.cost_passed hahead (words.reverse ++ mid.behind)
  have hpaid : 2 ≤ numbersLeft head + words.length := by
    rw [numbersLeft]
    split
    · rename_i hsingle
      obtain ⟨w, ws, hcons⟩ := words_eq_cons htext hends hsingle
      rw [hwords.trans hcons, List.length_cons]
      omega
    · omega
  split
  · refine exits_mapM (n := 0) (fun word => ?_) words (by omega)
    exact fun b s hs => .siteAt fun _ => .pure (by rw [s.cost_numbered]; exact hs)
  · refine (exits_mapM (n := 2) (fun word b s hs => .siteAt fun _ => .pure ?_) words
      (by omega)).bind fun args last hlast => .siteFrom fun _ => .siteFrom fun _ => .pure ?_
    · rw [s.cost_numbered]
      exact hs
    · rw [State.cost_numbered, State.cost_numbered]
      exact hlast

/-! ## Lists of statements -/

section Blocks

variable (hblock : PaysBlocks block)

include hblock

theorem exits_keywordStmt (hahead : s.ahead = t :: rest) (hs : s.cost ≤ b) :
    Exits (keywordStmt block t) s (fun _ s' => s'.cost + 1 ≤ b) (·.cost ≤ b) := by
  have hpast := State.cost_past hahead
  have hopened : ∀ {p : Parse (Site → Stmt)}, Pays 1 0 p →
      Exits (advance >>= fun _ => p) s (fun _ s' => s'.cost + 1 ≤ b) (·.cost ≤ b) := by
    refine fun hp => .advance hahead
      ((hp (b - 1) _ (by omega)).mono (fun _ _ h => ?_) fun _ h => ?_)
    · omega
    · omega
  have hdeclared : ∀ make : List Name → Site → Stmt,
      Pays 1 0 (do return make (← declaredNames)) :=
    fun make => Pays.more (pays_declaredNames.seq (Nat.le_refl 0) fun _ => .pure _)
  have hjump : ∀ make : Site → Stmt, Pays 1 0 (do
      requireLoop t
      return make) :=
    fun make => Pays.more ((pays_requireLoop t).seq (Nat.le_refl 0) fun _ => .pure _)
  rw [keywordStmt]
  dsimp only
  split
  · exact hopened (pays_ifStmt hblock t)
  · exact hopened (pays_switchStmt hblock t).more
  · exact hopened (pays_forStmt hblock t).more
  · exact hopened (pays_parForStmt hblock t).more
  · exact hopened (pays_whileStmt hblock t).more
  · exact hopened (pays_tryStmt hblock t).more
  · exact hopened (pays_spmdStmt hblock t).more
  · exact hopened (hdeclared _)
  · exact hopened (hdeclared _)
  · exact hopened (hjump _)
  · exact hopened (hjump _)
  · exact hopened (Pays.pure _).more
  · exact .fail hs

theorem exits_statement (hahead : s.ahead = t :: rest) (hs : s.cost ≤ b) :
    Exits (statement block t) s (fun _ s' => s'.cost ≤ b) (·.cost ≤ b) := by
  have hhead : Exits (statementHead block t) s (fun _ s' => s'.cost ≤ b) (·.cost ≤ b) := by
    have hmake : ∀ {p : Parse (Site → Stmt)} {st : State},
        Exits p st (fun _ s' => s'.cost + 1 ≤ b) (·.cost ≤ b) →
        Exits (do return [(← p) (← siteFrom t.location)]) st (fun _ s' => s'.cost ≤ b)
          (·.cost ≤ b) :=
      fun hp => hp.bind fun make mid hmid => .siteFrom fun _ => .pure (by
        rw [mid.cost_numbered]
        exact hmid)
    refine .get ?_
    split
    · rename_i htext
      exact exits_commandHead hs htext.2
    · split
      · exact hmake (exits_keywordStmt hblock hahead hs)
      · have hpast := State.cost_past hahead
        exact .advance hahead (hmake (.pure (by omega)))
      · exact hmake (pays_expressionStmt b s hs)
  rw [statement_eq]
  exact hhead.bind fun _ mid hmid => pays_endStatement.bind 0 hmid fun _ _ hmid => .pure hmid

theorem pays_statementList : Pays 0 0 (statementList block) := by
  have hround : PaysOn (fun _ => 0) 0 (statementRound block) := by
    refine fun stmts b s hs => pays_skipSeparators.bind 0 hs fun _ mid hmid =>
      .current? (fun _ => .pure hmid) fun t rest hahead => ?_
    dsimp only [statementChoice]
    split
    · exact .pure hmid
    split
    · refine .get ?_
      split
      · exact .pure hmid
      · exact .pure hmid
      · exact .fail hmid
    split
    · exact .fail hmid
    · exact (exits_statement hblock hahead hmid).bind fun _ _ hmid => .pure hmid
  rw [statementList_eq]
  exact hround.rounds []

end Blocks

theorem Pays.inFrame {p : Parse α} (h : Pays k n p) (frame : Frame) : Pays k n (inFrame frame p) :=
  fun b s hs => .bracketed (h b { s with frames := frame :: s.frames } hs)

theorem pays_statementsWithin (fuel : Nat) : Pays 0 0 (statementsWithin fuel) := by
  induction fuel with
  | zero => exact fun _ _ hs => .stalled hs
  | succ fuel ih => exact pays_statementList fun frame => ih.inFrame frame

theorem pays_statements : Pays 0 0 statements :=
  fun b s hs => .get (pays_statementsWithin _ b s hs)

end MFile.Grammar.Parse
