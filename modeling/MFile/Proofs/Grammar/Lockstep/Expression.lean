import MFile.Proofs.Grammar.Lockstep.Names

/-!
Expressions side by side. Operands are, given that what stands inside their brackets is, and every
level takes a token before it comes back to whole expressions, so a bound on the depth of the second
parse never stops it within a run that is no longer.
-/

namespace MFile.Grammar.Parse

variable {α β : Type} {n : Nat} {s : State} {inner inner' : Parse Expr}

theorem Steady.calm {k : Nat} {p q : Parse α} (h : Steady k n p q) :
    Tracks n p q s fun _ run _ => Calm true run :=
  (h s).mono fun _ _ _ _ hpart => hpart.inside

theorem calm_separator {t : Token} {kind : Kind} (h : t.kind = kind)
    (hkind : kind.isSeparator = true) : Calm true [t] := by
  subst h
  refine .of_kind ?_ ?_ ?_ ?_ <;> generalize t.kind = kind at hkind <;> cases kind <;>
    first | rfl | decide | cases hkind

/-! ## Names with arguments -/

theorem tracks_argumentsRound {close : Kind} (hinner : Steady 1 n inner inner')
    (hclose : close.isClosing = true) (args : List Expr) :
    Tracks n (argumentsRound inner close args) (argumentsRound inner' close args) s
      fun r run _ => ClosingTurn r run := by
  refine (hinner s).bind fun e run mid _ hrun => ?_
  refine (tracks_eatIf _).bind fun found closer mid' _ hfound => ?_
  cases found with
  | some t =>
    obtain ⟨rfl, hkind, -⟩ := hfound
    refine .pure ?_
    have hkind := hkind t rfl
    exact .after hrun.inside (.single (by simpa [beq_iff_eq.1 hkind] using hclose))
  | none =>
    obtain ⟨rfl, -⟩ := hfound
    refine (tracks_eatIf _).bind fun found comma mid'' _ hfound => ?_
    cases found with
    | some t =>
      obtain ⟨rfl, hkind, -⟩ := hfound
      refine .pure ⟨by simp [hrun.ne_nil (k := 0)], hrun.inside.append ?_⟩
      exact calm_separator (by simpa using hkind t rfl) rfl
    | none => exact .failing fun _ _ => unexpected_ok

theorem tracks_argumentsInside {close : Kind} (hinner : Steady 1 n inner inner')
    (hclose : close.isClosing = true) :
    Tracks n (argumentsInside inner close) (argumentsInside inner' close) s
      fun _ run _ => Closes run := by
  refine (tracks_eatIf _).bind fun found run mid _ hfound => ?_
  cases found with
  | some t =>
    obtain ⟨rfl, hkind, -⟩ := hfound
    have hkind := hkind t rfl
    exact .pure (.single (by simpa [beq_iff_eq.1 hkind] using hclose))
  | none =>
    obtain ⟨rfl, -⟩ := hfound
    exact tracks_rounds_closing [] fun args s => tracks_argumentsRound hinner hclose args

theorem tracks_arguments {close : Kind} {t : Token} (hinner : Steady 1 n inner inner')
    (ht : s.ahead.head? = some t) (hopen : t.kind.isOpening = true)
    (hclose : close.isClosing = true) :
    Tracks (n + 1) (arguments inner close) (arguments inner' close) s
      fun _ run _ => Part s 1 run := by
  refine (tracks_advance ht).bind fun _ run mid _ hrun => ?_
  subst hrun
  exact .inIndex ((tracks_argumentsInside hinner hclose).mono
    fun _ _ _ _ hcloses => .closed hcloses hopen)

theorem tracks_argumentsSuffix {close : Kind} {t : Token} {name : Name}
    {make : Site → Name → List Expr → Name} (hinner : Steady 1 n inner inner')
    (ht : s.ahead.head? = some t) (hopen : t.kind.isOpening = true)
    (hclose : close.isClosing = true) :
    Tracks (n + 1)
      (do
        let args ← arguments inner close
        return some (make (← siteFrom name.site.location) name args))
      (do
        let args ← arguments inner' close
        return some (make (← siteFrom name.site.location) name args)) s
      fun _ run _ => Part s 1 run :=
  (tracks_arguments hinner ht hopen hclose).next fun _ _ mid _ hrun =>
    ⟨hrun, (steady_siteFrom _).after (fun _ => .pure _) mid⟩

theorem tracks_closer {kind : Kind} {what : Expectation} (h : kind.isClosing = true) :
    Tracks n (discard (expect kind what)) (discard (expect kind what)) s
      fun _ run _ => Closes run := by
  refine Tracks.bind (tracks_expect kind what) fun t run mid _ ht => .pure ?_
  rw [ht.1]
  exact .single (by rw [ht.2, h])

theorem tracks_parenthesised {p q : Parse α} {make : α → Parse β} {opener : Token}
    (hopener : opener.kind.isOpening = true)
    (hp : Tracks n p q s fun _ run _ => Calm true run)
    (hmake : ∀ a, Steady 0 n (make a) (make a)) :
    Tracks n
      (do
        let a ← p
        discard (expect .rparen (.closer .rparen))
        make a)
      (do
        let a ← q
        discard (expect .rparen (.closer .rparen))
        make a) s
      fun _ run _ => Part s 1 (opener :: run) := by
  refine hp.bind fun a run mid hwalks hrun => ?_
  refine (tracks_closer rfl).bind fun _ closing last hwalks' hclosing => ?_
  refine (((hmake a).fewer ((Nat.sub_le _ _).trans (Nat.sub_le _ _))) last).mono
    fun _ more _ _ hmore => ?_
  have hpart := (Part.closed (s := s) (hclosing.after hrun) hopener).append
    (hwalks'.indexDepth.trans hwalks.indexDepth) hmore
  simpa only [List.cons_append, List.append_assoc] using hpart

theorem tracks_suffix? (hinner : Steady 1 n inner inner') (name : Name) :
    Tracks (n + 1) (suffix? inner name) (suffix? inner' name) s
      fun found run _ => Part s 0 run ∧ (found.isSome → run ≠ []) := by
  refine .peekKind? ?_
  cases ht : s.ahead.head? with
  | none => exact .pure ⟨.nil s, nofun⟩
  | some t =>
    rw [Option.map_some]
    generalize hkind : t.kind = kind
    have hlonger : ∀ {found : Option Name} {run : List Token}, Part s 1 run →
        Part s 0 run ∧ (found.isSome → run ≠ []) :=
      fun hpart => ⟨hpart.least (Nat.zero_le _), fun _ => hpart.ne_nil (k := 0)⟩
    split
    · rename_i hopen
      cases hopen
      exact (tracks_argumentsSuffix hinner ht (by rw [hkind]; rfl) rfl).mono
        fun _ _ _ _ hpart => hlonger hpart
    · rename_i hopen
      cases hopen
      exact (tracks_argumentsSuffix hinner ht (by rw [hkind]; rfl) rfl).mono
        fun _ _ _ _ hpart => hlonger hpart
    · rename_i hselect
      cases hselect
      refine Tracks.mono (U := fun _ run _ => Part s 1 run) ?_ fun _ _ _ _ hpart => hlonger hpart
      refine (tracks_advance_kind ht hkind (by decide)).bind fun _ dot mid hwalks hdot => ?_
      refine (tracks_eatIf _).bind fun found opener mid' hwalks' hfound => ?_
      have hdepth := hwalks'.indexDepth.trans hwalks.indexDepth
      cases found with
      | some t' =>
        obtain ⟨rfl, hopen, -⟩ := hfound
        have hopen : t'.kind = .lparen := by simpa using hopen t' rfl
        have hfield := Tracks.outsideIndex (U := fun _ run _ => Calm true run)
          (hinner.calm (s := { mid' with indexDepth := 0 }))
        refine ((tracks_parenthesised (by rw [hopen]; rfl) hfield
          fun field => (steady_siteFrom _).after fun _ => .pure _).fewer ?_).mono
            fun _ more _ _ hmore => ?_
        · have hlen := hdot.2
          omega
        · exact (hdot.append hdepth hmore).least (by omega)
      | none =>
        obtain ⟨rfl, -⟩ := hfound
        refine ((steady_expect (by decide)).bind (fun field => (steady_siteFrom _).after
          fun _ => .pure _) mid').mono fun _ more _ _ hmore => ?_
        exact (hdot.append hdepth hmore).least (by omega)
    · exact .pure ⟨.nil s, nofun⟩

theorem steady_superclassChain (methods : List Name) (name : Name) :
    Steady 0 n (superclassChain methods name) (superclassChain methods name) := by
  induction methods generalizing name with
  | nil => exact .pure name
  | cons method methods ih => exact (steady_siteBetween _ _).after fun _ => ih _

theorem tracks_methodsRound (soFar : List Name × Name) :
    Tracks n (methodsRound soFar) (methodsRound soFar) s fun r run _ => Turn s r run := by
  refine .check (.peekSecond? fun k hk => ?_)
  by_cases hmark : s.ahead.head?.map (·.kind) = some .handle
  · obtain ⟨t, ht, hkind⟩ := Option.map_eq_some_iff.1 hmark
    rw [hk (by rintro u hu; cases ht.symm.trans hu; rw [Token.isSeparator, hkind]; rfl)]
    split
    · exact .turn ((tracks_advance_kind ht hkind (by decide)).next fun _ _ mid _ hrun =>
        ⟨hrun, steady_identifier.bind (fun _ => .pure _) mid⟩)
    · exact .pure (.nil s)
  · have hfalse : (s.ahead.head?.map (·.kind) == some .handle) = false := by simpa using hmark
    simp only [hfalse, Bool.false_and, Bool.false_eq_true, if_false]
    exact .pure (.nil s)

theorem tracks_suffixRound (hinner : Steady 1 n inner inner') (name : Name) :
    Tracks (n + 1) (suffixRound inner name) (suffixRound inner' name) s
      fun r run _ => Turn s r run := by
  refine (tracks_suffix? hinner name).bind fun found run mid _ hfound => ?_
  cases found with
  | none => exact .pure (by rw [List.append_nil]; exact hfound.1)
  | some longer =>
    refine .pure ?_
    rw [List.append_nil]
    exact ⟨hfound.1.1, List.length_pos_iff.2 (hfound.2 rfl)⟩

theorem steady_name (hinner : Steady 1 n inner inner') :
    Steady 1 (n + 1) (name inner) (name inner') := by
  refine ((steady_identifier (n := n + 1)).bind fun first => ?_ : Steady (1 + 0) _ _ _)
  refine (steady_rounds ([], first) fun soFar s => tracks_methodsRound soFar).after
    fun ⟨methods, last⟩ => ?_
  exact ((steady_rounds last fun name s => tracks_suffixRound hinner name).fewer
    (Nat.sub_le _ _)).after fun name => steady_superclassChain methods name

/-! ## Rows -/

theorem tracks_finishRow (rows : List Row) (items : List Expr) :
    Tracks n (finishRow rows items) (finishRow rows items) s fun _ run _ => run = [] := by
  cases items with
  | nil => exact .pure rfl
  | cons first rest =>
    exact (tracks_siteBetween _ _).bind fun _ run _ _ h => .pure (by rw [h.2.1, List.append_nil])

theorem tracks_rowsRound {close : Kind} (hinner : Steady 1 n inner inner')
    (hclose : close.isClosing = true) (placeholders : Bool) (soFar : RowsSoFar) :
    Tracks n (rowsRound inner close placeholders soFar) (rowsRound inner' close placeholders soFar)
      s fun r run _ => ClosingTurn r run := by
  refine .current? ?_
  cases ht : s.ahead.head? with
  | none => exact .failing fun _ _ => unexpected_ok
  | some t =>
    dsimp only
    split
    · rename_i hkind
      refine (tracks_advance ht).bind fun _ run mid _ hrun => ?_
      refine (tracks_finishRow _ _).bind fun rows more _ _ hmore => .pure ?_
      rw [hrun, hmore]
      exact .single (by rw [hkind, hclose])
    split
    · rename_i hkind
      refine (tracks_advance ht).bind fun _ run mid _ hrun => ?_
      refine (tracks_finishRow _ _).bind fun rows more _ _ hmore => .pure ?_
      rw [hrun, hmore]
      exact ⟨List.cons_ne_nil _ _,
        calm_separator rfl (by rcases hkind with h | h <;> rw [h] <;> rfl)⟩
    split
    · rename_i hkind
      refine (tracks_advance ht).bind fun _ run mid _ hrun => .pure ?_
      rw [hrun]
      exact ⟨List.cons_ne_nil _ _, calm_separator hkind rfl⟩
    split
    · exact .failing fun _ _ => unexpected_ok
    rename_i hclose' hend hcomma _
    have hsolid : t.isSeparator = false := by
      rw [Token.isSeparator]
      generalize t.kind = kind at hend hcomma
      cases kind <;> simp [Kind.isSeparator] at hend hcomma ⊢
    refine .peekSecond? fun k hk => ?_
    rw [hk (by rintro u hu; cases ht.symm.trans hu; exact hsolid)]
    split
    · rename_i hplaceholder
      simp only [Bool.and_eq_true, Token.isOperator, beq_iff_eq] at hplaceholder
      refine (tracks_advance_kind ht hplaceholder.1.2.1 (by decide)).bind fun _ run mid _ hrun => ?_
      refine (steady_placeholderOf t mid).bind fun item more _ _ hmore => .pure ?_
      rw [List.append_nil]
      exact ⟨by simp [hrun.ne_nil (k := 0)], hrun.inside.append hmore.inside⟩
    · refine (hinner s).bind fun item run _ _ hrun => .pure ?_
      rw [List.append_nil]
      exact ⟨hrun.ne_nil (k := 0), hrun.inside⟩

theorem tracks_rows {close : Kind} {t : Token} (hinner : Steady 1 n inner inner')
    (ht : s.ahead.head? = some t) (hopen : t.kind.isOpening = true)
    (hclose : close.isClosing = true) :
    Tracks (n + 1) (rows inner close) (rows inner' close) s fun _ run _ => Part s 1 run := by
  refine .here fun start => ?_
  refine (tracks_advance ht).bind fun _ opener mid _ hopener => ?_
  subst hopener
  refine .get fun s' hs' _ => ?_
  rw [hs'.placeholders]
  refine (tracks_placeholders false).bind fun _ none last _ hnone => ?_
  refine (tracks_rounds_closing _ fun soFar s => tracks_rowsRound
    (hinner.fewer (Nat.sub_le _ _)) hclose mid.placeholders soFar).bind
      fun all run _ _ hrun => .spanFrom fun place => .pure ?_
  rw [hnone.1, List.nil_append, List.append_nil]
  exact .closed hrun hopen

/-! ## Operands -/

theorem tracks_handle {mark : Token} (hinner : Steady 1 n inner inner') :
    Steady 1 n (handle inner mark) (handle inner' mark) := by
  intro s
  refine (tracks_eatIf _).bind fun found run mid hwalks hfound => ?_
  cases found with
  | some opener =>
    obtain ⟨rfl, hopen, -⟩ := hfound
    have hopen : opener.kind = .lparen := by simpa using hopen opener rfl
    refine (tracks_parameters).bind fun params names mid' hwalks' hnames => ?_
    have hbody := Tracks.outsideIndex (U := fun _ run _ => Part mid' 1 run)
      ((hinner { mid' with indexDepth := 0 }).mono fun _ _ _ _ h => ⟨h.1.deepen, h.2⟩)
    refine ((hbody.next fun body run last _ hrun =>
      ⟨hrun, (steady_siteBetween _ _).after (fun _ => .pure _) last⟩).fewer
        ((Nat.sub_le _ _).trans (Nat.sub_le _ _))).mono fun _ more _ _ hmore => ?_
    have hpart := (Part.closed (s := s) hnames (by rw [hopen]; rfl)).append
      (hwalks'.indexDepth.trans hwalks.indexDepth) hmore
    exact hpart.least (by omega)
  | none =>
    obtain ⟨rfl, -⟩ := hfound
    refine (steady_dottedName.bind (fun name => (steady_siteBetween _ _).after fun _ => .pure _)
      mid).mono fun _ more _ _ hmore => ?_
    have hpart := (Part.nil s).append hwalks.indexDepth hmore
    exact hpart.least (by omega)

theorem part_of_atom {t : Token} {next : Option Kind} {make : Site → Expr}
    (h : atom? (decide (0 < s.indexDepth)) t next = some make) : Part s 1 [t] := by
  rw [atom?] at h
  split at h
  · exact .of_kind ‹_› rfl
  · exact .of_kind ‹_› rfl
  · exact .of_kind ‹_› rfl
  · split at h
    · rename_i hkind hend
      rw [Part, hend.2]
      exact ⟨.single (.last hkind hend.1) (by rw [Token.isSeparator, hkind]; rfl), Nat.le_refl _⟩
    · cases h
  · exact .of_kind ‹_› rfl
  · cases h

theorem atom?_next {inIndex : Bool} {t : Token} {next next' : Option Kind}
    (h : t.isSeparator = false → next' = next) : atom? inIndex t next' = atom? inIndex t next := by
  rw [atom?, atom?]
  split <;> first | rfl | skip
  rename_i hkind
  rw [h (by rw [Token.isSeparator, hkind]; rfl)]

theorem tracks_literal {close : Kind} {t : Token} {make : Site → List Row → Expr}
    (hinner : Steady 1 n inner inner') (ht : s.ahead.head? = some t)
    (hopen : t.kind.isOpening = true) (hclose : close.isClosing = true) :
    Tracks (n + 1)
      (do
        let (rows, place) ← rows inner close
        return make (← siteAt place) rows)
      (do
        let (rows, place) ← rows inner' close
        return make (← siteAt place) rows) s fun _ run _ => Part s 1 run := by
  refine (tracks_rows hinner ht hopen hclose).next (l := 0) fun found run mid _ hrun => ⟨hrun, ?_⟩
  exact (steady_siteAt found.2).after (fun _ => .pure _) mid

theorem tracks_compound (hinner : Steady 1 n inner inner') {t : Token}
    (ht : s.ahead.head? = some t) :
    Tracks (n + 1) (compound inner t) (compound inner' t) s fun _ run _ => Part s 1 run := by
  rw [compound, compound]
  generalize hkind : t.kind = kind
  split
  · exact (steady_name hinner).bind (fun _ => .pure _) s
  · refine (tracks_advance ht).bind fun _ opener mid hwalks hopener => ?_
    subst hopener
    refine (tracks_parenthesised (by rw [hkind]; rfl) hinner.calm fun _ => .pure _).mono
      fun _ more _ _ hmore => ?_
    rwa [Part, hwalks.indexDepth] at hmore
  · exact tracks_literal hinner ht (by rw [hkind]; rfl) rfl
  · exact tracks_literal hinner ht (by rw [hkind]; rfl) rfl
  · refine (Tracks.next (l := 1) (tracks_advance_kind ht hkind (by decide))
      fun _ run mid _ hrun => ⟨hrun, ?_⟩).mono fun _ _ _ _ h => h.least (by omega)
    exact tracks_handle hinner mid
  · refine (Tracks.next (l := 1) (tracks_advance_kind ht hkind (by decide))
      fun _ run mid _ hrun => ⟨hrun, ?_⟩).mono fun _ _ _ _ h => h.least (by omega)
    exact steady_dottedName.bind (fun _ => (steady_siteBetween _ _).after fun _ => .pure _) mid
  · exact .failing fun _ _ => unexpected_ok

theorem steady_operand (hinner : Steady 1 n inner inner') :
    Steady 1 (n + 1) (operand inner) (operand inner') := by
  refine fun s => .current? ?_
  cases ht : s.ahead.head? with
  | none => exact .failing fun _ _ => unexpected_ok
  | some t =>
    refine .get fun s' hs' _ => ?_
    rw [hs'.indexDepth]
    refine .peekSecond? fun k hk => ?_
    rw [atom?_next fun ht' => hk (by rintro u hu; cases ht.symm.trans hu; exact ht')]
    cases hatom : atom? (decide (0 < s.indexDepth)) t (s.ahead[1]?.map (·.kind)) with
    | some make =>
      exact ((tracks_advance ht).next fun _ run mid _ hrun => ⟨hrun ▸ part_of_atom hatom,
        (steady_siteAt _).after (fun _ => .pure _) mid⟩)
    | none => exact tracks_compound hinner ht

end MFile.Grammar.Parse

/-! ## Levels -/

namespace MFile.Grammar.Parse

variable {n m : Nat} {s : State} {inner inner' p q : Parse Expr}

theorem part_operator {symbols : List String} {op : Token}
    (h : (op.kind == .operator && symbols.contains op.raw) = true) : Part s 1 [op] := by
  rw [Bool.and_eq_true, beq_iff_eq] at h
  exact .of_kind h.1 rfl

theorem steady_binary (op : Token) (lhs rhs : Expr) :
    Steady 0 n (binary op lhs rhs) (binary op lhs rhs) := by
  rw [binary]
  split
  · exact (steady_siteBetween _ _).after fun _ => .pure _
  · exact .failing fun _ _ _ => throw_ok

theorem steady_transposed (op : Token) (e : Expr) :
    Steady 0 n (transposed op e) (transposed op e) :=
  (steady_siteBetween _ _).after fun _ => .pure _

theorem steady_allSigned (signs : List Token) (e : Expr) :
    Steady 0 n (allSigned signs e) (allSigned signs e) := by
  induction signs with
  | nil => exact .pure e
  | cons op ops ih => exact ih.after fun _ => (steady_siteBetween _ _).after fun _ => .pure _

theorem steady_signs (hp : Steady 1 n p q) :
    Steady 1 n (do
      let signs ← eatWhile isSign
      allSigned signs (← p)) (do
      let signs ← eatWhile isSign
      allSigned signs (← q)) := by
  intro s
  refine ((tracks_eatWhile isSign).next (k := 0) (l := 1) fun signs run mid _ hsigns => ?_).mono
    fun _ _ _ _ h => h.least (by omega)
  refine ⟨hsigns.1 ▸ .all fun t ht => part_operator (hsigns.2.1 t ht), ?_⟩
  exact hp.bind (fun e => steady_allSigned signs e) mid

theorem steady_binaryLevel (symbols : List String) (hp : Steady 1 n p q) :
    Steady 1 n (binaryLevel symbols p) (binaryLevel symbols q) := by
  refine (hp.bind fun first => ?_ : Steady (1 + 0) _ _ _)
  refine steady_rounds first fun lhs s => ?_
  refine (tracks_eatIf _).bind fun found run mid hwalks hfound => ?_
  cases found with
  | none =>
    obtain ⟨rfl, -⟩ := hfound
    exact .pure (.nil s)
  | some op =>
    obtain ⟨rfl, hop, -⟩ := hfound
    refine ((hp.bind fun rhs => (steady_binary op lhs rhs).after fun _ => .pure _).fewer
      ((Nat.sub_le _ _).trans (Nat.sub_le _ _)) mid).mono fun r more _ _ hmore => ?_
    exact Turn.of_part ((part_operator (hop op rfl)).append hwalks.indexDepth hmore)

theorem tracks_powersRound (hinner : Steady 1 n inner inner') (e : Expr) :
    Tracks (n + 1) (powersRound inner e) (powersRound inner' e) s fun r run _ => Turn s r run := by
  refine (tracks_eatIf _).bind fun found run mid hwalks hfound => ?_
  cases found with
  | some op =>
    obtain ⟨rfl, hop, -⟩ := hfound
    refine ((steady_transposed op e).after (fun _ => .pure _) mid).mono fun r more _ _ hmore => ?_
    exact Turn.of_part ((part_operator (hop op rfl)).append hwalks.indexDepth hmore)
  | none =>
    obtain ⟨rfl, -⟩ := hfound
    refine (tracks_eatIf _).bind fun found run mid' hwalks' hfound => ?_
    have hdepth := hwalks'.indexDepth.trans hwalks.indexDepth
    cases found with
    | some op =>
      obtain ⟨rfl, hop, -⟩ := hfound
      refine (((steady_signs (steady_operand hinner)).bind fun rhs =>
        (steady_binary op e rhs).after fun _ => .pure _).fewer
          ((Nat.sub_le _ _).trans (Nat.sub_le _ _)) mid').mono fun r more _ _ hmore => ?_
      exact Turn.of_part ((part_operator (hop op rfl)).append hdepth hmore)
    | none =>
      obtain ⟨rfl, -⟩ := hfound
      exact .pure (.nil s)

theorem steady_powers (hinner : Steady 1 n inner inner') :
    Steady 1 (n + 1) (powers inner) (powers inner') := by
  refine ((steady_operand hinner).bind fun first => ?_ : Steady (1 + 0) _ _ _)
  exact (steady_rounds first fun e s => tracks_powersRound hinner e).fewer (Nat.sub_le _ _)

theorem steady_sums (hinner : Steady 1 n inner inner') :
    Steady 1 (n + 1) (sums inner) (sums inner') :=
  steady_binaryLevel _ (steady_binaryLevel _ (steady_signs (steady_powers hinner)))

theorem steady_ranges (hinner : Steady 1 n inner inner') :
    Steady 1 (n + 1) (ranges inner) (ranges inner') := by
  have hsums := steady_sums hinner
  refine (hsums.bind fun start => ?_ : Steady (1 + 0) _ _ _)
  refine (steady_eat (by decide)).after fun found => ?_
  cases found with
  | none => exact .pure start
  | some colon =>
    refine (((hsums.fewer (Nat.sub_le _ _)).bind fun second => ?_).least (Nat.zero_le (1 + 0)) :
      Steady 0 _ _ _)
    refine (steady_eat (by decide)).after fun found => ?_
    cases found with
    | none => exact (Steady.pure _).after fun _ => (steady_siteBetween _ _).after fun _ => .pure _
    | some colon' =>
      refine ((hsums.fewer ((Nat.sub_le _ _).trans (Nat.sub_le _ _))).bind
        fun stop => ?_).least (Nat.zero_le (1 + 0))
      exact (Steady.pure _).after fun _ => (steady_siteBetween _ _).after fun _ => .pure _

theorem steady_shortOrs (hinner : Steady 1 n inner inner') :
    Steady 1 (n + 1) (shortOrs inner) (shortOrs inner') :=
  steady_binaryLevel _ (steady_binaryLevel _ (steady_binaryLevel _ (steady_binaryLevel _
    (steady_binaryLevel _ (steady_ranges hinner)))))

theorem steady_expressionWithin (fuel : Nat) :
    Steady 1 n (expressionWithin fuel) (expressionWithin n) := by
  induction fuel generalizing n with
  | zero => exact .failing fun _ _ _ => stalled_ok
  | succ fuel ih =>
    cases n with
    | zero => exact fun s => (steady_shortOrs (ih (n := 0)) s).alone _
    | succ n => exact steady_shortOrs ih

theorem steady_expression : Steady 1 n expression expression := by
  intro s e s₁ hrun
  obtain ⟨_, _, hget, hrun⟩ := bind_ok hrun
  cases hget
  obtain ⟨run, hwalks, hpart, -⟩ := steady_expressionWithin (n := 0) _ s hrun
  refine ⟨run, hwalks, hpart, fun _ s' rest hs' hahead halike => ?_⟩
  obtain ⟨run', hwalks', -, htwin⟩ :=
    steady_expressionWithin (n := s'.ahead.length + 1) _ s hrun
  obtain rfl := hwalks.unique hwalks'.toPasses
  exact htwin (by rw [hahead, List.length_append]; omega) hs' hahead halike

end MFile.Grammar.Parse
