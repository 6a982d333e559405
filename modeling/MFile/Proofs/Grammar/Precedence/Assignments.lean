import MFile.Grammar.File
import MFile.Proofs.Grammar.Precedence.Expression
import MFile.Proofs.Grammar.Rounds

/-!
Files of one statement. An assignment to a name is read as it is written, and a statement that
takes all tokens of a file, with the separator that ends it, is all of a script.
-/

namespace MFile.Grammar.Parse

variable {i : Bool} {rest : List Token} {file : String} {t : Token} {ts : List Token}

theorem reads_expression {e : Expr} (hwf : e.wellFormed i = true) (hstops : Stops 13 rest) :
    Reads expression (e.text false) rest i (Same e) := by
  intro st hst
  have hlen : (e.text false).length < st.ahead.length + 1 := by
    obtain ⟨run, hahead, hrun⟩ := hst.ahead
    rw [hahead, List.length_append, ← hrun, List.length_map]
    omega
  obtain ⟨e', st', hrun, hsame, hreach⟩ := (reads_expressionWithin _).expr hwf hlen hstops hst
  exact ⟨e', st', (bind_run rfl _).trans hrun, hsame, hreach⟩

theorem name_of_same {n : Name} {e : Expr} (h : Same (.name n) e) :
    ∃ n', e = .name n' ∧ n'.bare = n.bare := by
  rw [Same, Expr.bare.eq_1] at h
  cases e with
  | name n' =>
    rw [Expr.bare.eq_1] at h
    exact ⟨n', rfl, Expr.name.inj h⟩
  | range _ _ stride _ => cases stride <;> cases h
  | _ => cases h

theorem reads_assignment {n : Name} {rhs : Expr} {s : String} (hname : n.wellFormed = true)
    (hrhs : rhs.wellFormed i = true) (hstops : Stops 13 rest) :
    Reads expressionStmt (n.text ++ (.assignment, s) :: rhs.text false) rest i
      fun make => ∃ n' rhs', n'.bare = n.bare ∧ rhs'.bare = rhs.bare ∧
        make = fun site => .assign site n' rhs' := by
  obtain ⟨first, faces, htext⟩ := n.text_head
  refine .after (fun _ _ => reads_check .lbracket) fun more bracketed hmore hbracketed => ?_
  have hplain : bracketed = false := by
    rw [htext, List.cons_append] at hmore
    rw [hbracketed, first_kind hmore]
    rfl
  rw [hplain]
  refine .after (fun _ _ => reads_noPlaceholders) fun _ _ _ _ => ?_
  refine .bind (fun more hmore => reads_expression (e := .name n) hname
    (stops_of_faces hmore fun l _ => goesOn_of_not_mem (by decide) s l)) fun _ lhs _ hlhs => ?_
  obtain ⟨n', rfl, hn'⟩ := name_of_same hlhs
  refine .after (fun _ _ => reads_noPlaceholders) fun _ _ _ _ => ?_
  refine .cons (fun _ _ => reads_eat .assignment s) fun found hfound => ?_
  obtain ⟨t, rfl, -⟩ := hfound
  have hassignable : ∀ more, Reads (assignableName (.name n')) [] (more ++ rest) i (· = n') :=
    fun _ => .pure rfl
  refine .after (fun more _ => hassignable more) fun _ name _ hassigned => ?_
  refine .last (reads_expression hrhs hstops) fun rhs' hrhs' => ?_
  exact .pure ⟨n', rhs', hn', hrhs', by rw [hassigned]⟩

/-! ## Files -/

def Ends (rest : List Token) : Prop := rest = [] ∨ ∃ t, rest = [t] ∧ t.isSeparator = true

theorem Ends.separator (h : Ends rest) : ∀ t ∈ rest.head?, t.isSeparator = true := by
  obtain rfl | ⟨t, rfl, ht⟩ := h
  · rintro _ ⟨⟩
  · rintro _ ⟨⟩
    exact ht

theorem Ends.stops (h : Ends rest) : Stops 13 rest :=
  fun t ht l _ => goesOn_of_ending (.inr (h.separator t ht)) _ l

theorem endStatement_final {st : State} (h : Ends st.ahead) :
    ∃ st', endStatement st = .ok () st' ∧ st'.ahead = [] := by
  obtain hahead | ⟨t, hahead, ht⟩ := h
  · have heat : eatIf (·.isSeparator) st = .ok none st := eatIf_skip (by simp [hahead])
    refine ⟨st, (bind_run heat _).trans ((bind_run (current?_run st) _).trans ?_), hahead⟩
    rw [hahead]
    rfl
  · have heat : eatIf (·.isSeparator) st =
        .ok (some t) { st with behind := t :: st.behind, ahead := [] } :=
      (eatIf_head hahead).trans (if_pos ht)
    exact ⟨_, (bind_run heat _).trans rfl, rfl⟩

theorem localFunctions_end {st : State} (h : st.ahead = []) : localFunctions st = .ok [] st := by
  have hround := localRound_end {} (skipSeparators_still (by simp [h])) h
  rw [localFunctions_eq]
  exact (bind_run (x := rounds _ _) ((bind_run hround _).trans rfl) _).trans rfl

theorem identifier_plain (ht : t.kind = .identifier) :
    (∀ word, t.isWord word = false) ∧ t.isSeparator = false ∧ t.isCloser = false := by
  refine ⟨fun word => ?_, ?_, ?_⟩
  · rw [Token.isWord, ht]
    rfl
  · rw [Token.isSeparator, ht]
    rfl
  · rw [Token.isCloser, ht]
    rfl

theorem statements_single {stmts : List Stmt} {st st' : State} (hahead : st.ahead = t :: ts)
    (ht : t.kind = .identifier) (hrun : ∀ block, statement block t st = .ok stmts st')
    (hend : st'.ahead = []) : statements st = .ok stmts st' := by
  obtain ⟨hword, hseparator, hcloser⟩ := identifier_plain ht
  have hround : ∀ block, statementRound block [] st = .ok (.again stmts) st' := by
    intro block
    refine (bind_run (skipSeparators_still ?_) _).trans ((bind_run (current?_run st) _).trans ?_)
    · rw [hahead]
      rintro _ ⟨⟩
      exact hseparator
    · rw [hahead, List.head?_cons, statementChoice, hcloser, hword, hword, if_neg (by decide),
        if_neg (by decide), if_neg (by decide)]
      exact (bind_run (hrun block) _).trans rfl
  have hdone : ∀ block, statementRound block stmts st' = .ok (.done stmts) st' := by
    intro block
    refine (bind_run (skipSeparators_still (by simp [hend])) _).trans
      ((bind_run (current?_run st') _).trans ?_)
    rw [hend]
    rfl
  refine (bind_run (x := get) rfl _).trans ?_
  rw [statementsWithin, statementList_eq]
  refine (bind_run (hround _) _).trans ((bind_run (x := get) rfl _).trans ?_)
  exact (bind_run (hdone _) _).trans rfl

theorem ofTokens_statement {tokens : List Token} {stmts : List Stmt} {st' : State}
    (hahead : significant false tokens = t :: ts) (ht : t.kind = .identifier)
    (hrun : ∀ block, statement block t { file := file, ahead := t :: ts, nodes := 1 } =
      .ok stmts st')
    (hend : st'.ahead = []) :
    FileUnit.ofTokens file tokens = .ok (.script ⟨0, ⟨st'.file, .file, none⟩⟩ stmts []) := by
  obtain ⟨hword, hseparator, -⟩ := identifier_plain ht
  let st : State := { file := file, ahead := t :: ts }
  have hskip : skipSeparators st = .ok () st :=
    skipSeparators_still (by rintro _ ⟨⟩; exact hseparator)
  have hfunction : checkWord "function" st = .ok false st := by
    rw [checkWord_run, List.head?_cons, Option.any_some, hword]
  have hclass : eatWord "classdef" st = .ok none st :=
    eatIf_skip (by rintro _ ⟨⟩; exact hword "classdef")
  have hstatements : statements { st with nodes := 1 } = .ok stmts st' :=
    statements_single rfl ht hrun hend
  have hunit : fileUnit st = .ok (.script ⟨0, ⟨st'.file, .file, none⟩⟩ stmts []) st' := by
    refine (bind_run hskip _).trans ((bind_run hfunction _).trans ((bind_run hclass _).trans ?_))
    refine (bind_run (x := freshId) rfl _).trans ((bind_run hstatements _).trans ?_)
    exact (bind_run (localFunctions_end hend) _).trans rfl
  rw [FileUnit.ofTokens, State.ofTokens, hahead, hunit]
  rfl

theorem statement_expression {st mid : State} {make : Site → Stmt}
    (ht : t.kind = .identifier) (hwords : followedByText true ts = false)
    (hrun : expressionStmt st = .ok make mid) (hst : st.ahead = t :: ts) (hends : Ends mid.ahead) :
    ∃ site st', (∀ block, statement block t st = .ok [make site] st') ∧ st'.ahead = [] := by
  obtain ⟨site, ended, hsite, hended⟩ : ∃ site ended, siteFrom t.location mid = .ok site ended ∧
      ended.ahead = mid.ahead := ⟨_, _, rfl, rfl⟩
  have hfinal : Ends ended.ahead := hended.symm ▸ hends
  obtain ⟨st', hend, hst'⟩ := endStatement_final hfinal
  refine ⟨site, st', fun block => ?_, hst'⟩
  refine (bind_run (x := get) rfl _).trans ?_
  rw [hst, List.drop_succ_cons, List.drop_zero, hwords, if_neg (by simp), ht]
  refine (bind_run hrun _).trans ?_
  refine (bind_run hsite _).trans ?_
  exact (bind_run hend _).trans rfl

theorem ofTokens_assignment (file : String) {tokens : List Token} {x : String} {rhs : Expr}
    (hrhs : rhs.wellFormed false = true)
    (hfaces : tokens.map Token.face =
      (.identifier, x) :: (.assignment, "=") :: (rhs.text false ++ [(.semicolon, ";")])) :
    ∃ whole site lhs rhs', FileUnit.ofTokens file tokens =
        .ok (.script whole [.assign site lhs rhs'] []) ∧
      lhs.bare = .identifier blankSite x ∧ rhs'.bare = rhs.bare := by
  have hvisible : Visible (tokens.map Token.face) := by
    rw [hfaces]
    exact .cons rfl (.cons rfl ((rhs.visible_text false).append (.cons rfl visible_nil)))
  have hsignificant : significant false tokens = tokens := by
    have happend := significant_append hvisible []
    rw [List.append_nil] at happend
    exact happend.trans (List.append_nil tokens)
  obtain ⟨t, ts, rfl, ht, hts⟩ := List.map_eq_cons_iff.1 hfaces
  obtain ⟨u, us, rfl, hu, hus⟩ := List.map_eq_cons_iff.1 hts
  obtain ⟨run, last, rfl, hrun, hlast⟩ := List.map_eq_append_iff.1 hus
  obtain ⟨separator, rest, rfl, hseparator, hrest⟩ := List.map_eq_cons_iff.1 hlast
  obtain rfl := List.map_eq_nil_iff.1 hrest
  have hkind : separator.isSeparator = true := by
    rw [Token.isSeparator, kind_of_face hseparator]
    rfl
  have hends : Ends [separator] := .inr ⟨separator, rfl, hkind⟩
  have hready : State.Ready ((Name.identifier blankSite x).text ++ (.assignment, "=") ::
      rhs.text false) [separator] false
      { file := file, ahead := t :: u :: (run ++ [separator]), nodes := 1 } := by
    refine ⟨⟨t :: u :: run, rfl, ?_⟩, fun h => Bool.noConfusion h, rfl⟩
    rw [List.map_cons, List.map_cons, ht, hu, hrun]
    rfl
  obtain ⟨make, mid, hmake, ⟨lhs, rhs', hlhs, hrhs', rfl⟩, hreach⟩ :=
    reads_assignment rfl hrhs hends.stops hready
  have hwords : followedByText true (u :: (run ++ [separator])) = false := by
    cases run with
    | nil => simp [followedByText, kind_of_face hu]
    | cons => simp [followedByText, kind_of_face hu]
  obtain ⟨site, st', hstatement, hend⟩ :=
    statement_expression (kind_of_face ht) hwords hmake rfl (hreach.ahead ▸ hends)
  exact ⟨_, site, lhs, rhs', ofTokens_statement hsignificant (kind_of_face ht) hstatement hend,
    hlhs, hrhs'⟩

end MFile.Grammar.Parse
