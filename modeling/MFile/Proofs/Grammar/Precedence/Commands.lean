import MFile.Proofs.Grammar.Numbering.Statements
import MFile.Proofs.Grammar.Precedence.Assignments
import MFile.Proofs.Tree.Relocate

/-!
Commands and calls as statements. Both give a call of a name with texts as arguments, and the
numbers of its nodes follow from its shape, so that only places tell the two apart.
-/

namespace MFile

open Grammar Parse

def calling (x : String) (words : List String) : Name :=
  .reference blankSite (.identifier blankSite x) (words.map (.charArray blankSite))

/-- The script that calls `x` with texts, as it is numbered, with all of its nodes in one place. -/
def callScript (place : Location) (x : String) (words : List String) : FileUnit :=
  .script ⟨0, place⟩
    [.naked ⟨words.length + 3, place⟩
      (.name (.reference ⟨words.length + 2, place⟩ (.identifier ⟨1, place⟩ x)
        (words.mapIdx fun i word => .charArray ⟨i + 2, place⟩ word)))] []

/-! ## Numbers from the shape -/

theorem Climbs.eq_range' {m n : Nat} {ids : List Nat} (h : Climbs m n 0 ids) :
    ids = List.range' m ids.length := by
  have hcount := h.count
  have hsub : ids ⊆ List.range' m ids.length := by
    intro i hi
    have hbounds := h.bounds i hi
    exact List.mem_range'_1.2 (by omega)
  have hnodup : ids.Nodup := h.sorted.imp Nat.ne_of_lt
  have hperm : ids.Perm (List.range' m ids.length) :=
    (List.subperm_of_subset hnodup hsub).perm_of_length_le (by rw [List.length_range'])
  exact hperm.eq_of_pairwise (fun _ _ _ _ h h' => absurd h (Nat.lt_asymm h')) h.sorted
    (List.pairwise_lt_range')

theorem exists_sites {words : List String} {args : List Expr}
    (h : args.map Expr.bare = words.map (.charArray blankSite)) :
    ∃ texts : List (Site × String), args = texts.map (fun t => .charArray t.1 t.2) ∧
      texts.map Prod.snd = words := by
  induction args generalizing words with
  | nil => exact ⟨[], rfl, (List.map_eq_nil_iff.1 h.symm).symm⟩
  | cons e args ih =>
    obtain ⟨word, words, rfl, he, hargs⟩ := List.map_eq_cons_iff.1 h.symm
    obtain ⟨texts, rfl, rfl⟩ := ih hargs.symm
    cases e with
    | charArray s text =>
      rw [Expr.bare] at he
      obtain ⟨-, rfl⟩ := Expr.charArray.inj he
      exact ⟨(s, word) :: texts, rfl, rfl⟩
    | name n => rw [Expr.bare] at he; cases he
    | range _ _ stride _ => cases stride <;> cases he
    | _ => cases he

theorem relocate_texts (place : Location) {texts : List (Site × String)} {m : Nat}
    (h : texts.map (·.1.id) = List.range' m texts.length) :
    (texts.map fun t => Expr.charArray t.1 t.2).map (Expr.relocate fun _ => place) =
      (texts.map Prod.snd).mapIdx fun i text => .charArray ⟨i + m, place⟩ text := by
  induction texts generalizing m with
  | nil => rfl
  | cons t texts ih =>
    rw [List.map_cons, List.length_cons, List.range'_succ] at h
    obtain ⟨hid, h⟩ := List.cons.inj h
    have hlater : (fun (i : Nat) (text : String) => Expr.charArray ⟨i + 1 + m, place⟩ text) =
        fun i text => .charArray ⟨i + (m + 1), place⟩ text := by
      funext i text
      rw [Nat.add_right_comm, Nat.add_assoc]
    rw [List.map_cons, List.map_cons, ih h, List.map_cons, List.mapIdx_cons, hlater,
      Expr.relocate, Site.relocate, hid, Nat.zero_add]

theorem climbs_call {m k : Nat} {site s s' : Site} {x : String} {texts : List (Site × String)}
    (h : Numbers m k 0 [.stmt (.naked site (.name (.reference s (.identifier s' x)
      (texts.map fun t => .charArray t.1 t.2))))]) :
    Climbs m k 0 (s'.id :: (texts.map (·.1.id) ++ [s.id, site.id])) := by
  have htext : ∀ s text, (Node.expr (.charArray s text)).exits = [s.id] ∧
      (Node.expr (.charArray s text)).discarded = 0 := by
    intro s text
    rw [Node.exits_eq, Node.discarded_eq]
    exact ⟨rfl, rfl⟩
  have hhead : (Node.name (.identifier s' x)).exits = [s'.id] ∧
      (Node.name (.identifier s' x)).discarded = 0 := by
    rw [Node.exits_eq, Node.discarded_eq]
    exact ⟨rfl, rfl⟩
  have hcall : (Node.name (.reference s (.identifier s' x)
      (texts.map fun t => .charArray t.1 t.2))).exits = s'.id :: (texts.map (·.1.id) ++ [s.id]) ∧
      (Node.name (.reference s (.identifier s' x)
        (texts.map fun t => .charArray t.1 t.2))).discarded = 0 := by
    rw [Node.exits_eq, Node.discarded_eq]
    simp only [Node.children, Node.nameChildren, Node.exprs, Node.discards, List.flatMap_cons,
      List.flatMap_map, List.map_cons, List.map_map, Function.comp_def, hhead, htext]
    refine ⟨?_, by simp⟩
    rw [← List.map_eq_flatMap, List.append_assoc]
    rfl
  have hstmt : (Node.stmt (.naked site (.name (.reference s (.identifier s' x)
      (texts.map fun t => .charArray t.1 t.2))))).exits =
        s'.id :: (texts.map (·.1.id) ++ [s.id]) ++ [site.id] ∧
      (Node.stmt (.naked site (.name (.reference s (.identifier s' x)
        (texts.map fun t => .charArray t.1 t.2))))).discarded = 0 := by
    rw [Node.exits_eq, Node.discarded_eq]
    simp only [Node.children, Node.stmtChildren, Node.discards, List.flatMap_singleton,
      List.map_singleton, Node.exits_name, Node.discarded_name, hcall]
    exact ⟨rfl, rfl⟩
  rw [Numbers, List.flatMap_singleton, List.map_singleton, List.sum_singleton, hstmt.1, hstmt.2,
    List.cons_append, List.append_assoc] at h
  exact h

theorem relocate_call {x : String} {words : List String} {site : Site} {n : Name} {k : Nat}
    (hshape : n.bare = calling x words)
    (hnumbers : Numbers 1 k 0 [.stmt (.naked site (.name n))]) (whole place : Location) :
    (FileUnit.script ⟨0, whole⟩ [.naked site (.name n)] []).relocate (fun _ => place) =
      callScript place x words := by
  obtain ⟨s, s', args, rfl, hargs⟩ : ∃ s s' args, n = .reference s (.identifier s' x) args ∧
      args.map Expr.bare = words.map (.charArray blankSite) := by
    rw [calling] at hshape
    cases n with
    | reference s base args =>
      rw [Name.bare, bareAll_eq_map] at hshape
      obtain ⟨-, hbase, hargs⟩ := Name.reference.inj hshape
      cases base with
      | identifier s' y =>
        rw [Name.bare] at hbase
        obtain ⟨-, rfl⟩ := Name.identifier.inj hbase
        exact ⟨s, s', args, rfl, hargs⟩
      | _ => cases hbase
    | _ => cases hshape
  obtain ⟨texts, rfl, rfl⟩ := exists_sites hargs
  have hclimbs := climbs_call hnumbers
  have hids := hclimbs.eq_range'
  have hlength : (s'.id :: (texts.map (·.1.id) ++ [s.id, site.id])).length =
      texts.length + 2 + 1 := by simp
  have hrange : List.range' 2 (texts.length + 2) =
      List.range' 2 texts.length ++ [texts.length + 2, texts.length + 3] := by
    rw [← List.range'_append_1, Nat.add_comm 2]
    rfl
  rw [hlength, List.range'_succ, hrange] at hids
  obtain ⟨hname, hids⟩ := List.cons.inj hids
  obtain ⟨htexts, hlast⟩ := List.append_inj hids (by simp)
  obtain ⟨hcall, hlast⟩ := List.cons.inj hlast
  obtain ⟨hstmt, -⟩ := List.cons.inj hlast
  have hplaced := relocate_texts place htexts
  rw [callScript, FileUnit.relocate, List.map_nil, List.map_singleton, Stmt.relocate,
    Expr.relocate, Name.relocate, relocateExprs_eq_map, hplaced, Name.relocate, Site.relocate,
    Site.relocate, Site.relocate, Site.relocate, hname, hcall, hstmt, List.length_map]

namespace Grammar.Parse

variable {i : Bool} {rest : List Token} {file : String} {t : Token} {ts tokens : List Token}
  {x sep : String} {words : List String} {texts : List Face}

/-! ## A call -/

theorem wellFormed_calling (x : String) (words : List String) :
    (calling x words).wellFormed = true := by
  have hargs : argumentsWellFormed (words.map (.charArray blankSite)) = true := by
    induction words with
    | nil => rfl
    | cons word words ih => exact ih
  rw [calling, Name.wellFormed, hargs]
  rfl

theorem bare_calling (x : String) (words : List String) :
    (calling x words).bare = calling x words := by
  have hwords : bareAll (words.map (.charArray blankSite)) = words.map (.charArray blankSite) := by
    rw [bareAll_eq_map, List.map_map]
    rfl
  rw [calling, Name.bare, hwords, Name.bare]

theorem reads_naked {n : Name} (hname : n.wellFormed = true) (hends : Ends rest) :
    Reads expressionStmt n.text rest i
      fun make => ∃ n', n'.bare = n.bare ∧ make = (.naked · (.name n')) := by
  obtain ⟨first, faces, htext⟩ := n.text_head
  refine .after (fun _ _ => reads_check .lbracket) fun more bracketed hmore hbracketed => ?_
  have hplain : bracketed = false := by
    rw [htext] at hmore
    rw [hbracketed, first_kind hmore]
    rfl
  rw [hplain]
  refine .after (fun _ _ => reads_noPlaceholders) fun _ _ _ _ => ?_
  refine .last (reads_expression (e := .name n) hname hends.stops) fun lhs hlhs => ?_
  obtain ⟨n', rfl, hn'⟩ := name_of_same hlhs
  refine .last reads_noPlaceholders fun _ _ => ?_
  have hnone : ∀ t, rest.head? = some t → (t.kind == .assignment) = false := by
    intro t ht
    have hkind := hends.separator t ht
    rw [Token.isSeparator] at hkind
    cases hk : t.kind <;> rw [hk] at hkind <;> first | rfl | cases hkind
  refine .last (reads_eatIf_none hnone) fun found hfound => ?_
  rw [hfound]
  exact .pure ⟨n', hn', rfl⟩

/-! ## A command -/

def passesText (f : Face) : Bool := f.1 == .charArray || f.1 == .directory

theorem reads_texts (htexts : ∀ f ∈ texts, passesText f = true) (hends : Ends rest) :
    Reads (eatWhile fun t => t.kind == .charArray || t.kind == .directory) texts rest i
      fun ts => ts.map Token.value = texts.map Prod.snd := by
  intro st hst
  obtain ⟨run, hahead, hrun⟩ := hst.ahead
  have htext : ∀ t ∈ run, (t.kind == .charArray || t.kind == .directory) = true :=
    fun t ht => htexts t.face (hrun ▸ List.mem_map_of_mem ht)
  have hstop : rest.takeWhile (fun t => t.kind == .charArray || t.kind == .directory) = [] ∧
      rest.dropWhile (fun t => t.kind == .charArray || t.kind == .directory) = rest := by
    obtain rfl | ⟨t, rfl, hkind⟩ := hends
    · exact ⟨rfl, rfl⟩
    · rw [Token.isSeparator] at hkind
      have hneither : (t.kind == .charArray || t.kind == .directory) = false := by
        cases hk : t.kind <;> rw [hk] at hkind <;> first | rfl | cases hkind
      exact ⟨List.takeWhile_cons_of_neg (by simp [hneither]),
        List.dropWhile_cons_of_neg (by simp [hneither])⟩
  have htaken : eatWhile (fun t => t.kind == .charArray || t.kind == .directory) st =
      .ok run { st with behind := run.reverse ++ st.behind, ahead := rest } := by
    rw [eatWhile, hahead, List.takeWhile_append_of_pos htext, List.dropWhile_append_of_pos htext,
      hstop.1, hstop.2, List.append_nil]
  refine ⟨run, _, htaken, ?_, ⟨run, hahead, rfl⟩, rfl, rfl, id⟩
  have hvalues := congrArg (List.map Prod.snd) hrun
  rwa [List.map_map] at hvalues

theorem reads_charArrays (ts : List Token) :
    Reads (ts.mapM fun word => do return Expr.charArray (← siteAt word.location) word.value) []
      rest i fun args => bareAll args = (ts.map Token.value).map (.charArray blankSite) := by
  induction ts with
  | nil => exact .pure rfl
  | cons t ts ih =>
    rw [List.mapM_cons]
    have hone : Reads (do return Expr.charArray (← siteAt t.location) t.value) [] rest i
        fun e => e.bare = .charArray blankSite t.value :=
      .last (reads_siteAt _) fun site _ => .pure rfl
    refine .last hone fun e he => ?_
    refine .last ih fun args hargs => .pure ?_
    rw [bareAll, hargs, he]
    rfl

theorem reads_commandHead (hx : x ≠ "import") (hne : texts ≠ [])
    (htexts : ∀ f ∈ texts, passesText f = true) (hends : Ends rest) :
    Reads commandHead ((.identifier, x) :: texts) rest i
      fun stmts => ∃ site n, stmts = [.naked site (.name n)] ∧
        n.bare = calling x (texts.map Prod.snd) := by
  obtain ⟨⟨kind, word⟩, more, rfl⟩ := List.exists_cons_of_ne_nil hne
  have hkind : kind ∉ [.lparen, .lbrace, .selection, .handle, .colon, .operator] := by
    have hfirst := htexts (kind, word) List.mem_cons_self
    rw [passesText] at hfirst
    cases kind <;> first | decide | cases hfirst
  have hdotted : ∀ ts, ts.map Token.face = (kind, word) :: more →
      Reads dottedName [(.identifier, x)] (ts ++ rest) i
        (SameName (.identifier blankSite x)) := fun ts hts =>
    reads_dottedName (n := .identifier blankSite x) rfl (stops_of_faces hts fun l _ =>
      goesOn_of_not_mem hkind word l)
  refine .cons hdotted fun head hhead => ?_
  obtain ⟨site, rfl⟩ : ∃ site, head = .identifier site x := by
    cases head with
    | identifier site y =>
      rw [SameName, Name.bare, Name.bare] at hhead
      obtain ⟨-, rfl⟩ := Name.identifier.inj hhead
      exact ⟨site, rfl⟩
    | _ => cases hhead
  refine .last (reads_texts htexts hends) fun ts hts => ?_
  have himport : ¬ (Name.identifier site x).identifier? = some "import" :=
    fun h => hx (Option.some.inj h)
  rw [if_neg himport]
  refine .last (reads_charArrays ts) fun args hargs => ?_
  refine .last (reads_siteFrom _) fun whole _ => ?_
  refine .last (reads_siteFrom _) fun outer _ => .pure ⟨outer, _, rfl, ?_⟩
  rw [Name.bare, hargs, hts]
  rfl

/-! ## Files -/

theorem ofTokens_calling {site : Site} {n : Name} {st' : State}
    (hahead : significant false tokens = t :: ts) (ht : t.kind = .identifier)
    (hrun : ∀ block, statement block t { file := file, ahead := t :: ts, nodes := 1 } =
      .ok [.naked site (.name n)] st')
    (hend : st'.ahead = []) (hshape : n.bare = calling x words) :
    ∃ unit, FileUnit.ofTokens file tokens = .ok unit ∧
      ∀ place, unit.relocate (fun _ => place) = callScript place x words := by
  have hblock : NumberedBlock fun _ => pure [] := fun _ s => .pure (.nil s.nodes)
  have hbody := numbers_statement hblock (s := { file := file, ahead := t :: ts, nodes := 1 }) rfl
  rw [Meets, hrun] at hbody
  exact ⟨_, ofTokens_statement hahead ht hrun hend, relocate_call hshape hbody.numbers _⟩

def EndsFile (faces : List Face) : Prop :=
  faces = [] ∨ ∃ f, faces = [f] ∧ (f.1.isTrivia = true ∨ f.1.isSeparator = true)

theorem ends_significant (h : EndsFile (ts.map Token.face)) : Ends (significant false ts) := by
  obtain h | ⟨f, h, hf⟩ := h
  · rw [List.map_eq_nil_iff.1 h]
    exact .inl rfl
  · obtain ⟨t, none, rfl, rfl, hnone⟩ := List.map_eq_cons_iff.1 h
    rw [List.map_eq_nil_iff.1 hnone, significant]
    split
    · exact .inl rfl
    · rename_i htrivia
      exact .inr ⟨t, rfl, hf.resolve_left htrivia⟩

theorem ends_of_faces {text ending : List Face} {first : Face} (htext : Visible (first :: text))
    (hending : EndsFile ending) (hfaces : tokens.map Token.face = first :: (text ++ ending)) :
    ∃ t run after, significant false tokens = t :: (run ++ after) ∧ t.face = first ∧
      run.map Token.face = text ∧ Ends after := by
  obtain ⟨t, ts, rfl, ht, hts⟩ := List.map_eq_cons_iff.1 hfaces
  obtain ⟨run, last, rfl, hrun, rfl⟩ := List.map_eq_append_iff.1 hts
  have hvisible : Visible ((t :: run).map Token.face) := by
    rw [List.map_cons, ht, hrun]
    exact htext
  exact ⟨t, run, _, significant_append hvisible last, ht, hrun, ends_significant hending⟩

theorem ofTokens_texts (file : String) {texts ending : List Face} (hx : x ≠ "import")
    (hne : texts ≠ []) (htexts : ∀ f ∈ texts, passesText f = true) (hending : EndsFile ending)
    (hfaces : tokens.map Token.face = (.identifier, x) :: (texts ++ ending)) :
    ∃ unit, FileUnit.ofTokens file tokens = .ok unit ∧
      ∀ place, unit.relocate (fun _ => place) = callScript place x (texts.map Prod.snd) := by
  have hvisible : Visible ((.identifier, x) :: texts) := by
    refine .cons rfl fun f hf => ?_
    have hkind := htexts f hf
    rw [passesText] at hkind
    cases hk : f.1 <;> rw [hk] at hkind <;> first | rfl | cases hkind
  obtain ⟨t, run, after, hsignificant, ht, hrun, hends⟩ :=
    ends_of_faces hvisible hending hfaces
  have hready : State.Ready ((.identifier, x) :: texts) after false
      { file := file, ahead := t :: (run ++ after), nodes := 1 } :=
    ⟨⟨t :: run, rfl, by rw [List.map_cons, ht, hrun]⟩, fun h => Bool.noConfusion h, rfl⟩
  obtain ⟨_, mid, hhead, ⟨site, n, rfl, hshape⟩, hreach⟩ :=
    reads_commandHead hx hne htexts hends hready
  have htext : followedByText true (run ++ after) = true := by
    obtain ⟨f, more, rfl⟩ := List.exists_cons_of_ne_nil hne
    obtain ⟨u, us, rfl, rfl, -⟩ := List.map_eq_cons_iff.1 hrun
    have hu := htexts u.face List.mem_cons_self
    rw [passesText, Token.face] at hu
    have hselection : (u.kind == .selection) = false := by
      cases hk : u.kind <;> rw [hk] at hu <;> first | rfl | cases hu
    cases hus : us ++ after <;> simpa [followedByText, hus, hselection] using hu
  have hfinal : Ends mid.ahead := hreach.ahead ▸ hends
  obtain ⟨st', hend, hst'⟩ := endStatement_final hfinal
  have hstatement : ∀ block,
      statement block t { file := file, ahead := t :: (run ++ after), nodes := 1 } =
        .ok [.naked site (.name n)] st' := by
    intro block
    rw [statement_eq, statementHead, bind_assoc]
    refine (bind_run (x := get) rfl _).trans ?_
    rw [if_pos ⟨kind_of_face ht, htext⟩]
    refine (bind_run hhead _).trans ?_
    exact (bind_run hend _).trans rfl
  exact ofTokens_calling hsignificant (kind_of_face ht) hstatement hst' hshape

theorem endsFile_lineBreak (sep : String) : EndsFile [(.newline, sep)] := .inr ⟨_, rfl, .inr rfl⟩

theorem ofTokens_command (file : String) (hx : x ≠ "import") (hwords : words ≠ [])
    (hfaces : tokens.map Token.face =
      (.identifier, x) :: (words.map (.charArray, ·) ++ [(.newline, sep)])) :
    ∃ unit, FileUnit.ofTokens file tokens = .ok unit ∧
      ∀ place, unit.relocate (fun _ => place) = callScript place x words := by
  have hunit := ofTokens_texts file hx (mt List.map_eq_nil_iff.1 hwords)
    (List.forall_mem_map.2 fun _ _ => rfl) (endsFile_lineBreak sep) hfaces
  rw [List.map_map] at hunit
  exact (List.map_id words) ▸ hunit

theorem ofTokens_called (file : String) {ending : List Face} (hending : EndsFile ending)
    (hfaces : tokens.map Token.face = (calling x words).text ++ ending) :
    ∃ unit, FileUnit.ofTokens file tokens = .ok unit ∧
      ∀ place, unit.relocate (fun _ => place) = callScript place x words := by
  have hvisible := (calling x words).visible_text
  have hname := wellFormed_calling x words
  obtain ⟨faces, htext⟩ : ∃ faces, (calling x words).text =
      (.identifier, x) :: (.lparen, "(") :: faces := ⟨_, rfl⟩
  rw [htext] at hfaces hvisible
  obtain ⟨t, run, after, hsignificant, ht, hrun, hends⟩ :=
    ends_of_faces hvisible hending hfaces
  have hready : State.Ready (calling x words).text after false
      { file := file, ahead := t :: (run ++ after), nodes := 1 } :=
    ⟨⟨t :: run, rfl, by rw [List.map_cons, ht, hrun, htext]⟩, fun h => Bool.noConfusion h, rfl⟩
  obtain ⟨_, mid, hmake, ⟨n, hshape, rfl⟩, hreach⟩ := reads_naked hname hends hready
  have hplain : followedByText true (run ++ after) = false := by
    obtain ⟨u, us, rfl, hu, -⟩ := List.map_eq_cons_iff.1 hrun
    cases hus : us ++ after <;> simp [followedByText, hus, kind_of_face hu]
  obtain ⟨site, st', hstatement, hend⟩ := statement_expression (kind_of_face ht) hplain hmake rfl
    (hreach.ahead ▸ hends)
  exact ofTokens_calling hsignificant (kind_of_face ht) hstatement hend
    (hshape.trans (bare_calling x words))

theorem ofTokens_call (file : String)
    (hfaces : tokens.map Token.face = (calling x words).text ++ [(.newline, sep)]) :
    ∃ unit, FileUnit.ofTokens file tokens = .ok unit ∧
      ∀ place, unit.relocate (fun _ => place) = callScript place x words :=
  ofTokens_called file (endsFile_lineBreak sep) hfaces

end Grammar.Parse

end MFile
