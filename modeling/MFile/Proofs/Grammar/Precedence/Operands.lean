import MFile.Proofs.Grammar.Precedence.Names

/-!
Operands: literals, names, brackets, handles and metaclass queries. A row is read item by item
with a comma in between, and is finished by the semicolon or the bracket that comes next.
-/

namespace MFile.Grammar.Parse

variable {inner : Parse Expr} {n : Nat} {i : Bool} {rest : List Token} {text : List Face}

theorem reads_get :
    Reads get [] rest i fun st => st.placeholders = false ∧ (i = true → 0 < st.indexDepth) :=
  .still fun st hst => ⟨st, rfl, hst.plain, hst.depth⟩

theorem reads_noPlaceholders :
    Reads (modify fun st => { st with placeholders := false }) [] rest i fun _ => True := by
  intro st hst
  exact ⟨(), _, rfl, trivial, ⟨[], rfl, rfl⟩, hst.nil, rfl, fun _ => rfl⟩

theorem reads_current?_bind {α : Type} {p : Option Token → Parse α} {f : Face} {Q : α → Prop}
    (h : ∀ t, t.face = f → Reads (p (some t)) (f :: text) rest i Q) :
    Reads (current? >>= p) (f :: text) rest i Q := by
  refine .after (fun _ _ => reads_current?) fun more found hmore hfound => ?_
  obtain ⟨t, hhead, hface⟩ := head_of_faces hmore rest
  rw [hfound, hhead]
  exact h t hface

/-! ## Rows -/

section Rows

variable {close : Kind} {soFar : RowsSoFar}

def closesRows (close : Kind) : Prop := close = .rbracket ∨ close = .rbrace

theorem reads_finishRow (rows : List Row) {items : List Expr} (h : items ≠ []) :
    Reads (finishRow rows items) [] rest i
      fun rows' => bareRows rows' = bareRows rows ++ [⟨blankSite, bareAll items⟩] := by
  cases items with
  | nil => exact absurd rfl h
  | cons first items =>
    refine .last (reads_siteBetween _ _) fun site _ => .pure ?_
    rw [bareRows_eq_map, bareRows_eq_map, List.map_append]
    rfl

theorem reads_rowsRound_close {s : String} {Q : List Row → Prop}
    (h : Reads (finishRow soFar.rows soFar.items) [] rest i Q) :
    Reads (rowsRound inner close false soFar) [(close, s)] rest i
      fun r => ∃ c, r = .done c ∧ Q c := by
  refine reads_current?_bind fun t ht => ?_
  dsimp only
  rw [if_pos (kind_of_face ht)]
  refine .cons (fun _ _ => reads_advance _) fun _ _ => ?_
  exact .last h fun rows hrows => .pure ⟨rows, rfl, hrows⟩

theorem reads_rowsRound_semicolon (soFar : RowsSoFar) {s : String} {Q : List Row → Prop}
    (hclose : closesRows close)
    (h : Reads (finishRow soFar.rows soFar.items) [] rest i Q) :
    Reads (rowsRound inner close false soFar) [(.semicolon, s)] rest i
      fun r => ∃ b, r = .again b ∧ ∃ rows, b = ⟨rows, [], false⟩ ∧ Q rows := by
  refine reads_current?_bind fun t ht => ?_
  dsimp only
  have hkind : t.kind = .semicolon := kind_of_face ht
  have hother : Kind.semicolon ≠ close := by
    rcases hclose with rfl | rfl <;> decide
  rw [hkind, if_neg hother, if_pos (Or.inl rfl)]
  refine .cons (fun _ _ => reads_advance _) fun _ _ => ?_
  exact .last h fun rows hrows => .pure ⟨_, rfl, rows, rfl, hrows⟩

theorem reads_rowsRound_comma {s : String} (hclose : closesRows close) :
    Reads (rowsRound inner close false soFar) [(.comma, s)] rest i
      fun r => ∃ b, r = .again b ∧ b = { soFar with afterItem := false } := by
  refine reads_current?_bind fun t ht => ?_
  dsimp only
  have hkind : t.kind = .comma := kind_of_face ht
  have hother : Kind.comma ≠ close := by
    rcases hclose with rfl | rfl <;> decide
  rw [hkind, if_neg hother, if_neg (by simp), if_pos rfl]
  exact .cons (fun _ _ => reads_advance _) fun _ _ => .pure ⟨_, rfl, rfl⟩

theorem reads_rowsRound_item {e : Expr} (hclose : closesRows close)
    (hsoFar : soFar.afterItem = false) (h : Reads inner (e.text false) rest i (Same e)) :
    Reads (rowsRound inner close false soFar) (e.text false) rest i
      fun r => ∃ b, r = .again b ∧ ∃ e', Same e e' ∧
        b = { soFar with items := soFar.items ++ [e'], afterItem := true } := by
  obtain ⟨f, fs, htext, hstarts, -⟩ := e.begins_text false
  rw [htext] at h ⊢
  refine reads_current?_bind fun t ht => ?_
  dsimp only
  rw [← kind_of_face ht] at hstarts
  have hclose' : t.kind ≠ close := by
    rintro rfl
    rcases hclose with hkind | hkind <;> rw [hkind] at hstarts <;> cases hstarts
  have hseparator : t.kind ≠ .semicolon ∧ t.kind ≠ .newline ∧ t.kind ≠ .comma := by
    refine ⟨?_, ?_, ?_⟩ <;> intro hkind <;> rw [hkind] at hstarts <;> cases hstarts
  rw [if_neg hclose', if_neg (not_or.2 ⟨hseparator.1, hseparator.2.1⟩), if_neg hseparator.2.2,
    if_neg (by rw [hsoFar]; decide)]
  refine .after (fun _ _ => reads_peekKind? 1) fun _ next _ _ => ?_
  rw [Bool.false_and, Bool.false_and, if_neg (by decide)]
  exact .last h fun e' he => .pure ⟨_, rfl, e', he, rfl⟩

theorem finishes_items (hinner : ReadsWithin inner n) (hclose : closesRows close) {k : Kind}
    {s : String} {after : List Face} {Q : List Row → Prop}
    (hk : k.isClosing = true ∨ k.isSeparator = true) (done : List Row) {e : Expr}
    {es acc : List Expr} (hwf : itemsWellFormed i (e :: es) = true)
    (hlen : (itemsText (e :: es)).length < n)
    (h : ∀ items, items ≠ [] → bareAll items = bareAll (acc ++ e :: es) →
      Finishes (rowsRound inner close false) ⟨done, items, true⟩ ((k, s) :: after) rest i Q) :
    Finishes (rowsRound inner close false) ⟨done, acc, false⟩
      (itemsText (e :: es) ++ (k, s) :: after) rest i Q := by
  rw [itemsWellFormed, Bool.and_eq_true] at hwf
  induction es generalizing e acc with
  | nil =>
    refine .cons (text_ne_nil e false) (fun _ hmore => reads_rowsRound_item hclose rfl
      (hinner.expr hwf.1 hlen (stops_before_ending hmore hk 13))) ?_
    rintro _ ⟨e', he, rfl⟩
    refine h _ (by simp) ?_
    rw [← bareAll_concat he, List.append_nil]
  | cons next es ih =>
    have htext : itemsText (e :: next :: es) ++ (k, s) :: after =
        e.text false ++ ([(.comma, ",")] ++ (itemsText (next :: es) ++ (k, s) :: after)) := by
      simp only [itemsText, List.append_assoc, List.cons_append, List.nil_append]
    have hlen' := length_items_lt hlen
    rw [htext]
    refine .cons (text_ne_nil e false) (fun _ hmore => reads_rowsRound_item hclose rfl
      (hinner.expr hwf.1 hlen'.1 (stops_before_ending hmore (Or.inr rfl) 13))) ?_
    rintro _ ⟨e', he, rfl⟩
    refine .cons (List.cons_ne_nil _ _) (fun _ _ => reads_rowsRound_comma hclose) ?_
    rintro _ rfl
    refine ih (Bool.and_eq_true_iff.1 hwf.2) hlen'.2 fun items hne hitems => h items hne ?_
    rw [hitems, bareAll_concat he]

theorem rowsWellFormed_cons {items : List Expr} {site : Site} {rows : List Row}
    (h : rowsWellFormed i (⟨site, items⟩ :: rows) = true) :
    (∃ e es, items = e :: es) ∧ itemsWellFormed i items = true ∧ rowsWellFormed i rows = true := by
  rw [rowsWellFormed, Row.wellFormed, Bool.and_eq_true, Bool.and_eq_true] at h
  refine ⟨?_, h.1.2, h.2⟩
  cases items with
  | nil => cases h.1.1
  | cons e es => exact ⟨e, es, rfl⟩

theorem finishes_rows (s : String) (hinner : ReadsWithin inner n) (hclose : closesRows close)
    {rows done : List Row} (hwf : rowsWellFormed i rows = true)
    (hlen : (rowsText rows).length < n) :
    Finishes (rowsRound inner close false) ⟨done, [], false⟩ (rowsText rows ++ [(close, s)]) rest i
      fun all => bareRows all = bareRows (done ++ rows) := by
  have hclosing : close.isClosing = true := by
    rcases hclose with rfl | rfl <;> rfl
  induction rows generalizing done with
  | nil =>
    refine .done (reads_rowsRound_close (.pure ?_))
    rw [List.append_nil]
  | cons row rows ih =>
    obtain ⟨site, items⟩ := row
    obtain ⟨⟨e, es, rfl⟩, hitems, hrows⟩ := rowsWellFormed_cons hwf
    cases rows with
    | nil =>
      -- The bracket finishes the last row, a semicolon every other one.
      refine finishes_items hinner hclose (Or.inl hclosing) done hitems hlen fun all hne hall => ?_
      refine .done (reads_rowsRound_close ((reads_finishRow done hne).mono fun rows' h => ?_))
      rw [h, hall]
      simp only [bareRows_eq_map, List.map_append, List.nil_append]
      rfl
    | cons next rows =>
      have htext : rowsText (⟨site, e :: es⟩ :: next :: rows) ++ [(close, s)] =
          itemsText (e :: es) ++
            ([(.semicolon, ";")] ++ (rowsText (next :: rows) ++ [(close, s)])) := by
        simp only [rowsText, Row.text, List.append_assoc, List.cons_append, List.nil_append]
      have hlen' : (itemsText (e :: es)).length < n ∧ (rowsText (next :: rows)).length < n := by
        simp only [rowsText, Row.text, List.length_append, List.length_cons] at hlen ⊢
        omega
      rw [htext]
      refine finishes_items hinner hclose (Or.inr rfl) done hitems hlen'.1 fun all hne hall => ?_
      have hrow := fun more => @reads_finishRow i more done all hne
      refine .cons (List.cons_ne_nil (.semicolon, ";") [])
        (fun _ _ => reads_rowsRound_semicolon ⟨done, all, true⟩ hclose (hrow _)) ?_
      rintro _ ⟨done', rfl, hdone⟩
      have hmore := @ih done' hrows hlen'.2
      simp only [bareRows_eq_map, List.map_append] at hdone hmore ⊢
      rw [hdone, hall, List.append_assoc] at hmore
      exact hmore

theorem reads_rows {k : Kind} (o s : String) (hinner : ReadsWithin inner n)
    (hclose : closesRows close) {rws : List Row} (hwf : rowsWellFormed i rws = true)
    (hlen : (rowsText rws).length < n) :
    Reads (rows inner close) ((k, o) :: (rowsText rws ++ [(close, s)])) rest i
      fun r => bareRows r.1 = bareRows rws := by
  refine .after (fun _ _ => reads_here) fun _ start _ _ => ?_
  refine .cons (fun _ _ => reads_advance _) fun _ _ => ?_
  refine .after (fun _ _ => reads_get) fun _ st _ hst => ?_
  refine .after (fun _ _ => reads_noPlaceholders) fun _ _ _ _ => ?_
  rw [hst.1]
  refine .last (finishes_rows s hinner hclose hwf hlen).rounds fun all hall => ?_
  exact .last (reads_spanFrom _) fun place _ => .pure hall

end Rows

/-! ## Parameters -/

theorem reads_placeholderOf (t : Token) :
    Reads (placeholderOf t) [] rest i fun x => x.bare = .identifier blankSite "~" :=
  .last (reads_siteAt _) fun _ _ => .pure rfl

theorem reads_parametersRound_name {x : Name} (hx : x.isIdentifier = true) (acc : List Name) :
    Reads (parametersRound acc) [x.parameterFace] rest i
      fun r => ∃ b, r = .again b ∧ ∃ x', SameName x x' ∧ b = acc ++ [x'] := by
  cases x with
  | identifier site text =>
    refine reads_current?_bind fun t ht => ?_
    dsimp only
    rw [Name.parameterFace] at ht ⊢
    by_cases hplaceholder : text = "~"
    · rw [if_pos hplaceholder] at ht ⊢
      obtain ⟨hkind, hraw⟩ := raw_of_face ht fun _ => rfl
      rw [hkind, hraw]
      dsimp only
      rw [if_pos hplaceholder]
      refine .cons (fun _ _ => reads_advance _) fun _ _ => ?_
      refine .last (reads_placeholderOf t) fun x' hx' => .pure ⟨_, rfl, x', ?_, rfl⟩
      rw [SameName, hx', Name.bare, hplaceholder]
    · rw [if_neg hplaceholder] at ht ⊢
      rw [kind_of_face ht]
      exact .last (reads_identifier text) fun x' hx' => .pure ⟨_, rfl, x', hx', rfl⟩
  | _ => cases hx

theorem reads_parametersRound_comma (acc : List Name) (s : String) :
    Reads (parametersRound acc) [(.comma, s)] rest i fun r => ∃ b, r = .again b ∧ b = acc := by
  refine reads_current?_bind fun t ht => ?_
  dsimp only
  rw [kind_of_face ht]
  exact .cons (fun _ _ => reads_advance _) fun _ _ => .pure ⟨_, rfl, rfl⟩

theorem reads_parametersRound_close {acc : List Name} {Q : List Name → Prop} (s : String)
    (h : Q acc) :
    Reads (parametersRound acc) [(.rparen, s)] rest i fun r => ∃ c, r = .done c ∧ Q c := by
  refine reads_current?_bind fun t ht => ?_
  dsimp only
  rw [kind_of_face ht]
  exact .cons (fun _ _ => reads_advance _) fun _ _ => .pure ⟨acc, rfl, h⟩

theorem finishes_parameters (s : String) {params acc : List Name}
    (h : params.all Name.isIdentifier = true) :
    Finishes parametersRound acc (parametersText params ++ [(.rparen, s)]) rest i
      fun names => bareNames names = bareNames (acc ++ params) := by
  induction params generalizing acc with
  | nil =>
    refine .done (reads_parametersRound_close s ?_)
    rw [List.append_nil]
  | cons x params ih =>
    rw [List.all_cons, Bool.and_eq_true] at h
    cases params with
    | nil =>
      refine .cons (List.cons_ne_nil x.parameterFace [])
        (fun _ _ => reads_parametersRound_name h.1 acc) ?_
      rintro _ ⟨x', hx', rfl⟩
      refine .done (reads_parametersRound_close s ?_)
      rw [← bareNames_concat hx', List.append_nil]
    | cons next params =>
      have htext : parametersText (x :: next :: params) ++ [(.rparen, s)] =
          [x.parameterFace] ++ ([(Kind.comma, ",")] ++
            (parametersText (next :: params) ++ [(.rparen, s)])) := rfl
      rw [htext]
      refine .cons (List.cons_ne_nil x.parameterFace [])
        (fun _ _ => reads_parametersRound_name h.1 acc) ?_
      rintro _ ⟨x', hx', rfl⟩
      refine .cons (List.cons_ne_nil (Kind.comma, ",") [])
        (fun _ _ => reads_parametersRound_comma (acc ++ [x']) ",") ?_
      rintro _ rfl
      rw [← bareNames_concat hx']
      exact ih h.2

/-! ## Handles -/

theorem reads_lambda {params : List Name} {body : Expr} (mark : Token)
    (hinner : ReadsWithin inner n) (hparams : params.all Name.isIdentifier = true)
    (hbody : body.wellFormed false = true) (hlen : (body.text false).length < n)
    (hstops : Stops 13 rest) (s : Site) :
    Reads (handle inner mark)
      ((.lparen, "(") :: (parametersText params ++ (.rparen, ")") :: body.text false)) rest i
      (Same (.lambda s params body)) := by
  refine .cons (fun _ _ => reads_eat .lparen "(") ?_
  rintro found ⟨t, rfl, -⟩
  rw [← List.singleton_append, ← List.append_assoc]
  refine .bind (fun _ _ => (finishes_parameters ")" hparams).rounds) fun _ params' _ hparams' => ?_
  refine .last (reads_outsideIndex (hinner.expr hbody hlen hstops)) fun body' hbody' => ?_
  refine .last (reads_siteBetween _ _) fun site _ => .pure ?_
  rw [Same, Expr.bare, Expr.bare, hparams', hbody']
  rfl

theorem reads_functionHandle {x : Name} (mark : Token) (hx : x.isDotted = true)
    (hstops : Stops 1 rest) (s : Site) :
    Reads (handle inner mark) x.text rest i (Same (.functionHandle s x)) := by
  have hname := reads_dottedName (i := i) hx hstops
  obtain ⟨first, fs, htext⟩ := x.text_head
  rw [htext] at hname ⊢
  refine .after (fun _ hmore => reads_eat_other hmore (by simp)) fun _ found _ hfound => ?_
  subst hfound
  refine .last hname fun x' hx' => ?_
  refine .last (reads_siteBetween _ _) fun site _ => .pure ?_
  rw [Same, Expr.bare, Expr.bare, hx']

/-! ## Operands -/

theorem reads_atom {f : Face} {e : Expr}
    (h : ∀ t (inIndex : Bool), t.face = f → (i = true → inIndex = true) →
      ∃ make, atom? inIndex t (rest.head?.map (·.kind)) = some make ∧ ∀ site, Same e (make site)) :
    Reads (operand inner) [f] rest i (Same e) := by
  refine reads_current?_bind fun t ht => ?_
  refine .after (fun _ _ => reads_get) fun _ st _ hst => ?_
  refine .after (fun _ _ => reads_peekKind? 1) fun more next hmore hnext => ?_
  obtain ⟨u, rfl, -⟩ := List.map_eq_singleton_iff.1 hmore
  obtain ⟨make, hmake, hsame⟩ := h t (0 < st.indexDepth) ht fun hi => decide_eq_true (hst.2 hi)
  have hnext' : next = rest.head?.map (·.kind) := by
    rw [hnext, List.head?_eq_getElem?]
    rfl
  rw [hnext', hmake]
  refine .cons (fun _ _ => reads_advance _) fun _ _ => ?_
  exact .last (reads_siteAt _) fun site _ => .pure (hsame site)

theorem reads_operand_compound {f : Face} {Q : Expr → Prop}
    (hkind : f.1 ∈ [.identifier, .lparen, .lbracket, .lbrace, .handle, .metaclass])
    (h : ∀ t, t.face = f → Reads (compound inner t) (f :: text) rest i Q) :
    Reads (operand inner) (f :: text) rest i Q := by
  refine reads_current?_bind fun t ht => ?_
  refine .after (fun _ _ => reads_get) fun _ st _ _ => ?_
  refine .after (fun _ _ => reads_peekKind? 1) fun _ next _ _ => ?_
  have hatom : atom? (0 < st.indexDepth) t next = none := by
    rw [← kind_of_face ht] at hkind
    simp only [List.mem_cons, List.not_mem_nil, or_false] at hkind
    rcases hkind with hk | hk | hk | hk | hk | hk <;> rw [atom?, hk]
  rw [hatom]
  exact h t ht

theorem reads_parentheses {e : Expr} (hinner : ReadsWithin inner n) (hwf : e.wellFormed i = true)
    (hlen : (e.text false).length < n) :
    Reads (operand inner) ((.lparen, "(") :: (e.text false ++ [(.rparen, ")")])) rest i
      (Same e) := by
  refine reads_operand_compound (by decide) fun t ht => ?_
  rw [compound, kind_of_face ht]
  refine .cons (fun _ _ => reads_advance _) fun _ _ => ?_
  refine .bind (fun _ hmore =>
    hinner.expr hwf hlen (stops_before_ending hmore (Or.inl rfl) 13)) fun _ e' _ he => ?_
  exact .last (reads_discard (reads_expect .rparen ")" _)) fun _ _ => .pure he

theorem reads_nameOperand {x : Name} (hinner : ReadsWithin inner n) (hwf : x.wellFormed = true)
    (hlen : x.text.length ≤ n) (hstops : Stops 1 rest) :
    Reads (operand inner) x.text rest i (Same (.name x)) := by
  have hname := reads_name (i := i) hinner hwf hlen hstops
  obtain ⟨s, fs, htext⟩ := x.text_head
  rw [htext] at hname ⊢
  refine reads_operand_compound (List.mem_cons_self ..) fun t ht => ?_
  rw [compound, kind_of_face ht]
  refine .last hname fun x' hx' => .pure ?_
  rw [Same, Expr.bare, Expr.bare, hx']

section

variable {rws : List Row}

theorem reads_matrix (hinner : ReadsWithin inner n) (hwf : rowsWellFormed i rws = true)
    (hlen : (rowsText rws).length < n) (s : Site) :
    Reads (operand inner) ((.lbracket, "[") :: (rowsText rws ++ [(.rbracket, "]")])) rest i
      (Same (.matrix s rws)) := by
  refine reads_operand_compound (by decide) fun t ht => ?_
  rw [compound, kind_of_face ht]
  refine .last (reads_rows "[" "]" hinner (Or.inl rfl) hwf hlen) fun r hr => ?_
  refine .last (reads_siteAt _) fun site _ => .pure ?_
  rw [Same, Expr.bare, Expr.bare, hr]

theorem reads_cell (hinner : ReadsWithin inner n) (hwf : rowsWellFormed i rws = true)
    (hlen : (rowsText rws).length < n) (s : Site) :
    Reads (operand inner) ((.lbrace, "\x7b") :: (rowsText rws ++ [(.rbrace, "\x7d")])) rest i
      (Same (.cell s rws)) := by
  refine reads_operand_compound (by decide) fun t ht => ?_
  rw [compound, kind_of_face ht]
  refine .last (reads_rows "\x7b" "\x7d" hinner (Or.inr rfl) hwf hlen) fun r hr => ?_
  refine .last (reads_siteAt _) fun site _ => .pure ?_
  rw [Same, Expr.bare, Expr.bare, hr]

end

theorem reads_handleOperand {e : Expr}
    (h : ∀ mark, Reads (handle inner mark) text rest i (Same e)) :
    Reads (operand inner) ((.handle, "@") :: text) rest i (Same e) := by
  refine reads_operand_compound (by decide) fun t ht => ?_
  rw [compound, kind_of_face ht]
  exact .cons (fun _ _ => reads_advance _) fun _ _ => h t

theorem reads_metaclass {x : Name} (hx : x.isDotted = true) (hstops : Stops 1 rest) (s : Site) :
    Reads (operand inner) ((.metaclass, "?") :: x.text) rest i (Same (.metaclass s x)) := by
  refine reads_operand_compound (by decide) fun t ht => ?_
  rw [compound, kind_of_face ht]
  refine .cons (fun _ _ => reads_advance _) fun _ _ => ?_
  refine .last (reads_dottedName hx hstops) fun x' hx' => ?_
  refine .last (reads_siteBetween _ _) fun site _ => .pure ?_
  rw [Same, Expr.bare, Expr.bare, hx']

theorem reads_operand {e : Expr} (hinner : ReadsWithin inner n) (hwf : e.wellFormed i = true)
    (hlen : (e.text false).length ≤ n) (hlevel : e.level = 1 ∨ e.level = 13)
    (hstops : Stops e.level rest) :
    Reads (operand inner) (e.text false) rest i (Same e) := by
  cases e with
  | name x => exact reads_nameOperand hinner hwf hlen hstops
  | number _ s =>
    refine reads_atom fun t _ ht _ => ⟨(.number · t.raw), ?_, fun site => ?_⟩
    · rw [atom?, kind_of_face ht]
    · rw [Same, Expr.bare, Expr.bare, (raw_of_face ht fun _ => rfl).2]
  | charArray _ s =>
    refine reads_atom fun t _ ht _ => ⟨(.charArray · t.value), ?_, fun site => ?_⟩
    · rw [atom?, kind_of_face ht]
    · rw [Same, Expr.bare, Expr.bare, value_of_face ht]
  | string _ s =>
    refine reads_atom fun t _ ht _ => ⟨(.string · t.value), ?_, fun site => ?_⟩
    · rw [atom?, kind_of_face ht]
    · rw [Same, Expr.bare, Expr.bare, value_of_face ht]
  | last _ =>
    refine reads_atom fun t inIndex ht hindex => ⟨.last, ?_, fun site => rfl⟩
    obtain ⟨hkind, hraw⟩ := raw_of_face ht fun _ => rfl
    rw [atom?, hkind]
    exact if_pos ⟨hraw, hindex hwf⟩
  | reshape _ => cases hwf
  | matrix site rws =>
    simp only [Expr.text, List.length_cons, List.length_append, List.length_nil] at hlen
    exact reads_matrix hinner hwf (by omega) site
  | cell site rws =>
    simp only [Expr.text, List.length_cons, List.length_append, List.length_nil] at hlen
    exact reads_cell hinner hwf (by omega) site
  | lambda site params body =>
    rw [Expr.wellFormed, Bool.and_eq_true] at hwf
    simp only [Expr.text, List.length_cons, List.length_append] at hlen
    exact reads_handleOperand fun mark =>
      reads_lambda mark hinner hwf.1 hwf.2 (by omega) hstops site
  | functionHandle site x =>
    exact reads_handleOperand fun mark => reads_functionHandle mark hwf hstops site
  | metaclass site x => exact reads_metaclass hwf hstops site
  | unary _ op _ => cases op <;> simp [Expr.level, UnaryOp.followsOperand] at hlevel
  | binary _ op _ _ => cases op <;> simp [Expr.level, BinaryOp.level] at hlevel
  | range => simp [Expr.level] at hlevel

end MFile.Grammar.Parse
