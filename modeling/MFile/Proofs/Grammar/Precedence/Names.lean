import MFile.Proofs.Grammar.Precedence.Levels

/-!
Names with their suffixes: argument lists, selections, and the methods that `@` binds to a name.
Whatever stands inside brackets is read by the parser of whole expressions; that it does so is
assumed here for texts up to a length.
-/

namespace MFile.Grammar.Parse

variable {inner : Parse Expr} {n : Nat} {i : Bool} {rest : List Token} {text : List Face}

structure ReadsWithin (inner : Parse Expr) (n : Nat) : Prop where
  expr : ∀ {e : Expr} {i : Bool} {rest : List Token}, e.wellFormed i = true →
    (e.text false).length < n → Stops 13 rest → Reads inner (e.text false) rest i (Same e)
  colon : ∀ {rest : List Token} (s : Site), 1 < n →
    closesArgument (rest.head?.map (·.kind)) = true →
    Reads inner [(.colon, ":")] rest true (Same (.reshape s))

/-! ## The next tokens -/

section

variable {more : List Token} {f g : Face}

theorem first_kind (h : more.map Token.face = f :: text) (rest : List Token) :
    (more ++ rest).head?.map (·.kind) = some f.1 := by
  obtain ⟨t, hhead, rfl⟩ := head_of_faces h rest
  rw [hhead]
  rfl

theorem second_kind (h : more.map Token.face = f :: g :: text) (rest : List Token) :
    (more ++ rest)[1]?.map (·.kind) = some g.1 := by
  obtain ⟨t, ts, rfl, -, hts⟩ := List.map_eq_cons_iff.1 h
  obtain ⟨u, us, rfl, hu, -⟩ := List.map_eq_cons_iff.1 hts
  exact congrArg some (kind_of_face hu)

theorem reads_eat_other {kind : Kind} (h : more.map Token.face = f :: text) (hk : f.1 ≠ kind) :
    Reads (eat kind) [] (more ++ rest) i (· = none) := by
  refine reads_eat_none fun t ht hkind => hk ?_
  have hfirst := first_kind h rest
  rw [ht, Option.map_some, hkind] at hfirst
  exact (Option.some.inj hfirst).symm

theorem reads_pair {α : Type} {x y : Parse α} {k : Kind} {Q : α → Prop} (hf : f.1 = k)
    (hg : g.1 = .identifier) (hx : Reads x (f :: g :: text) rest i Q) :
    Reads (do if (← check k) && (← peekKind? 1) == some .identifier then x else y)
      (f :: g :: text) rest i Q := by
  refine .after (fun _ _ => reads_check k) fun more atFirst hmore hfirst => ?_
  refine .after (fun _ _ => reads_peekKind? 1) fun more' second hmore' hsecond => ?_
  rw [first_kind hmore, hf] at hfirst
  rw [second_kind hmore', hg] at hsecond
  rw [hfirst, hsecond, if_pos (by simp)]
  exact hx

theorem reads_no_pair {α : Type} {x y : Parse α} {k : Kind} {Q : α → Prop}
    (h : ∀ t, rest.head? = some t → t.kind ≠ k) (hy : Reads y [] rest i Q) :
    Reads (do if (← check k) && (← peekKind? 1) == some .identifier then x else y) [] rest i Q := by
  refine .last (reads_check k) fun atFirst hfirst => ?_
  refine .last (reads_peekKind? 1) fun second _ => ?_
  have hnot : atFirst = false := by
    rw [hfirst, beq_eq_false_iff_ne]
    intro hkind
    obtain ⟨t, ht, hk⟩ := Option.map_eq_some_iff.1 hkind
    exact h t ht hk
  rw [hnot, Bool.false_and, if_neg (by decide)]
  exact hy

end

/-! ## Names -/

def SameName (n n' : Name) : Prop := n'.bare = n.bare

theorem reads_identifier (s : String) :
    Reads identifier [(.identifier, s)] rest i fun n => n.bare = .identifier blankSite s := by
  refine .last (reads_expect .identifier s _) fun t ht => ?_
  refine .last (reads_siteAt _) fun site _ => .pure ?_
  rw [Name.bare, (raw_of_face ht fun _ => rfl).2]

theorem spine_dotted : ∀ {n : Name} {rest : List Token}, n.isDotted = true →
    Spine identifier dottedRound n.text rest i (SameName n)
  | .identifier _ s, _, _ => .of_reads (reads_identifier s)
  | .selection _ base field, rest, h => by
    refine .snoc (List.cons_ne_nil _ _) (fun more _ => spine_dotted h) fun n hn => ?_
    refine reads_pair rfl rfl ?_
    refine .cons (fun _ _ => reads_advance _) fun _ _ => ?_
    refine .last (reads_expect .identifier field _) fun t ht => ?_
    refine .last (reads_siteBetween _ _) fun site _ => .pure ⟨_, rfl, ?_⟩
    rw [SameName, Name.bare, Name.bare, hn, (raw_of_face ht fun _ => rfl).2]

theorem head_kind_of_stops {level : Nat} (hstops : Stops level rest) (hlevel : 1 ≤ level)
    (t : Token) (ht : rest.head? = some t) :
    t.kind ≠ .lparen ∧ t.kind ≠ .lbrace ∧ t.kind ≠ .selection ∧ t.kind ≠ .handle := by
  have hgoes := hstops t ht 1 hlevel
  simpa only [goesOn_suffixes, Token.face, Bool.or_eq_false_iff, beq_eq_false_iff_ne,
    and_assoc] using hgoes

theorem reads_dottedName {n : Name} (h : n.isDotted = true) (hstops : Stops 1 rest) :
    Reads dottedName n.text rest i (SameName n) := by
  refine (spine_dotted h).rounds fun b hb => ?_
  refine reads_no_pair (fun t ht => (head_kind_of_stops hstops (Nat.le_refl 1) t ht).2.2.1) ?_
  exact .pure ⟨b, rfl, hb⟩

/-! ## Arguments -/

def closesList (close : Kind) : Prop := close = .rparen ∨ close = .rbrace

theorem argumentsWellFormed_cons {e : Expr} {es : List Expr}
    (h : argumentsWellFormed (e :: es) = true) :
    ((∃ s, e = .reshape s) ∨ e.wellFormed true = true) ∧ argumentsWellFormed es = true := by
  cases e with
  | reshape s => exact ⟨Or.inl ⟨s, rfl⟩, h⟩
  | _ =>
    rw [argumentsWellFormed, Bool.and_eq_true] at h
    · exact ⟨Or.inr h.1, h.2⟩
    · nofun

theorem reads_argument {e : Expr} {k : Kind} (hinner : ReadsWithin inner n)
    (he : (∃ s, e = .reshape s) ∨ e.wellFormed true = true) (hlen : (e.text false).length < n)
    (hrest : rest.head?.map (·.kind) = some k) (hk : k = .comma ∨ closesList k) :
    Reads inner (e.text false) rest true (Same e) := by
  rcases he with ⟨s, rfl⟩ | hwf
  · refine hinner.colon s hlen ?_
    rw [hrest]
    rcases hk with rfl | rfl | rfl <;> rfl
  · refine hinner.expr hwf hlen fun t ht l _ => ?_
    obtain rfl : t.kind = k := by
      rw [ht] at hrest
      exact Option.some.inj hrest
    refine goesOn_of_ending ?_ _ l
    rcases hk with hk | hk | hk <;> rw [hk] <;> simp [Kind.isClosing, Kind.isSeparator]

theorem reads_argument_before {e : Expr} {k : Kind} {s : String} {es : List Expr}
    {after : List Face} (hinner : ReadsWithin inner n)
    (hwf : argumentsWellFormed (e :: es) = true) (hlen : (e.text false).length < n)
    (hk : k = .comma ∨ closesList k) (more : List Token)
    (hmore : more.map Token.face = (k, s) :: after) :
    Reads inner (e.text false) (more ++ rest) true (Same e) :=
  reads_argument hinner (argumentsWellFormed_cons hwf).1 hlen (first_kind hmore rest) hk

theorem text_ne_nil (e : Expr) (inPower : Bool) : e.text inPower ≠ [] := by
  obtain ⟨f, fs, htext, -⟩ := e.begins_text inPower
  rw [htext]
  exact List.cons_ne_nil f fs

theorem finishes_arguments {close : Kind} (s : String) (hinner : ReadsWithin inner n)
    (hclose : closesList close) {e : Expr} {es acc : List Expr}
    (hwf : argumentsWellFormed (e :: es) = true) (hlen : (itemsText (e :: es)).length < n) :
    Finishes (argumentsRound inner close) acc (itemsText (e :: es) ++ [(close, s)]) rest true
      fun args => bareAll args = bareAll (acc ++ e :: es) := by
  induction es generalizing e acc with
  | nil =>
    refine .done (.bind (reads_argument_before hinner hwf hlen (Or.inr hclose)) ?_)
    intro _ e' _ he
    refine .last (reads_eat close s) ?_
    rintro found ⟨t, rfl, -⟩
    refine .pure ⟨_, rfl, ?_⟩
    rw [← bareAll_concat he, List.append_nil]
  | cons next es ih =>
    have htext : itemsText (e :: next :: es) ++ [(close, s)] =
        (e.text false ++ [(.comma, ",")]) ++ (itemsText (next :: es) ++ [(close, s)]) := by
      simp only [itemsText, List.append_assoc, List.cons_append, List.nil_append]
    have hlen' := length_items_lt hlen
    rw [htext]
    refine .cons (Q := fun args => ∃ e', Same e e' ∧ args = acc ++ [e'])
      (List.append_ne_nil_of_right_ne_nil _ (List.cons_ne_nil _ _)) (fun _ _ => ?_) ?_
    · refine .bind (reads_argument_before hinner hwf hlen'.1 (Or.inl rfl)) ?_
      intro _ e' _ he
      have hclose' : Kind.comma ≠ close := by
        rcases hclose with rfl | rfl <;> decide
      refine .after (fun _ hmore => reads_eat_other hmore hclose') fun _ found _ hfound => ?_
      subst hfound
      refine .last (reads_eat .comma ",") ?_
      rintro found ⟨t, rfl, -⟩
      exact .pure ⟨_, rfl, e', he, rfl⟩
    · rintro args ⟨e', he, rfl⟩
      rw [← bareAll_concat he]
      exact ih (argumentsWellFormed_cons hwf).2 hlen'.2

theorem begins_items (e : Expr) (es : List Expr) : Begins False (itemsText (e :: es)) := by
  have hfirst : Begins False (e.text false) := (e.begins_text false).mono nofun
  cases es with
  | nil => exact hfirst
  | cons next es => exact hfirst.append _

theorem reads_argumentsInside {close : Kind} {args : List Expr} (s : String)
    (hinner : ReadsWithin inner n) (hclose : closesList close)
    (hwf : argumentsWellFormed args = true) (hlen : (itemsText args).length < n) :
    Reads (argumentsInside inner close) (itemsText args ++ [(close, s)]) rest true
      fun args' => bareAll args' = bareAll args := by
  cases args with
  | nil =>
    refine .last (reads_eat close s) ?_
    rintro found ⟨t, rfl, -⟩
    exact .pure rfl
  | cons e es =>
    obtain ⟨f, fs, htext, hstarts, -⟩ := begins_items e es
    have hother : f.1 ≠ close := by
      rintro hkind
      rw [hkind] at hstarts
      rcases hclose with rfl | rfl <;> cases hstarts
    have hfinishes := @finishes_arguments inner n rest close s hinner hclose e es [] hwf hlen
    rw [htext] at hfinishes ⊢
    refine .after (fun _ hmore => reads_eat_other hmore hother) fun _ found _ hfound => ?_
    subst hfound
    exact hfinishes.rounds

theorem reads_arguments {close k : Kind} {args : List Expr} (o s : String)
    (hinner : ReadsWithin inner n) (hclose : closesList close)
    (hwf : argumentsWellFormed args = true) (hlen : (itemsText args).length < n) :
    Reads (arguments inner close) ((k, o) :: (itemsText args ++ [(close, s)])) rest i
      fun args' => bareAll args' = bareAll args := by
  refine .cons (fun _ _ => reads_advance _) fun _ _ st hst => ?_
  have hdeeper : State.Ready (itemsText args ++ [(close, s)]) rest true
      { st with indexDepth := st.indexDepth + 1 } :=
    ⟨hst.ahead, fun _ => Nat.succ_pos _, hst.plain⟩
  obtain ⟨args', st', hrun, hargs, ⟨run, hpass⟩, hahead, hdepth, hplain⟩ :=
    reads_argumentsInside s hinner hclose hwf hlen hdeeper
  refine ⟨args', { st' with indexDepth := st'.indexDepth - 1 }, ?_, hargs,
    ⟨run, hpass.ahead, hpass.behind⟩, hahead, ?_, hplain⟩
  · refine (bind_run rfl _).trans ((bind_run hrun _).trans rfl)
  · rw [hdepth]
    rfl

theorem reads_discard {α : Type} {p : Parse α} {Q : α → Prop} (h : Reads p text rest i Q) :
    Reads (discard p) text rest i fun _ => True :=
  .last h fun _ _ => .pure trivial

/-! ## Suffixes -/

theorem reads_suffixRound {b base : Name} {f : Face} {fs : List Face}
    (h : Reads (suffix? inner base) (f :: fs) rest i
      fun found => ∃ c, found = some c ∧ SameName b c) :
    Reads (suffixRound inner base) (f :: fs) rest i
      fun r => ∃ c, r = .again c ∧ SameName b c := by
  refine .last h ?_
  rintro found ⟨c, rfl, hc⟩
  exact .pure ⟨c, rfl, hc⟩

theorem reads_reference {base base' : Name} {args : List Expr} (hinner : ReadsWithin inner n)
    (hbase : SameName base base') (hwf : argumentsWellFormed args = true)
    (hlen : (itemsText args).length < n) (s : Site) :
    Reads (suffix? inner base') ((.lparen, "(") :: (itemsText args ++ [(.rparen, ")")])) rest i
      fun found => ∃ c, found = some c ∧ SameName (.reference s base args) c := by
  refine .after (fun _ _ => reads_peekKind? 0) fun more kind hmore hkind => ?_
  rw [← List.head?_eq_getElem?, first_kind hmore] at hkind
  subst hkind
  refine .last (reads_arguments "(" ")" hinner (Or.inl rfl) hwf hlen) fun args' hargs => ?_
  refine .last (reads_siteFrom _) fun site _ => .pure ⟨_, rfl, ?_⟩
  rw [SameName, Name.bare, Name.bare, hbase, hargs]

theorem reads_cellReference {base base' : Name} {args : List Expr} (hinner : ReadsWithin inner n)
    (hbase : SameName base base') (hwf : argumentsWellFormed args = true)
    (hlen : (itemsText args).length < n) (s : Site) :
    Reads (suffix? inner base') ((.lbrace, "\x7b") :: (itemsText args ++ [(.rbrace, "\x7d")]))
      rest i fun found => ∃ c, found = some c ∧ SameName (.cellReference s base args) c := by
  refine .after (fun _ _ => reads_peekKind? 0) fun more kind hmore hkind => ?_
  rw [← List.head?_eq_getElem?, first_kind hmore] at hkind
  subst hkind
  refine .last (reads_arguments "\x7b" "\x7d" hinner (Or.inr rfl) hwf hlen) fun args' hargs => ?_
  refine .last (reads_siteFrom _) fun site _ => .pure ⟨_, rfl, ?_⟩
  rw [SameName, Name.bare, Name.bare, hbase, hargs]

theorem reads_selection {base base' : Name} (hbase : SameName base base') (field : String)
    (s : Site) :
    Reads (suffix? inner base') [(.selection, "."), (.identifier, field)] rest i
      fun found => ∃ c, found = some c ∧ SameName (.selection s base field) c := by
  refine .after (fun _ _ => reads_peekKind? 0) fun more kind hmore hkind => ?_
  rw [← List.head?_eq_getElem?, first_kind hmore] at hkind
  subst hkind
  refine .cons (fun _ _ => reads_advance _) fun _ _ => ?_
  refine .after (fun _ hmore => reads_eat_other hmore (by simp)) fun _ found _ hfound => ?_
  subst hfound
  refine .last (reads_expect .identifier field _) fun t ht => ?_
  refine .last (reads_siteFrom _) fun site _ => .pure ⟨_, rfl, ?_⟩
  rw [SameName, Name.bare, Name.bare, hbase, (raw_of_face ht fun _ => rfl).2]

theorem stops_before_ending {more : List Token} {k : Kind} {s : String} {after : List Face}
    (hmore : more.map Token.face = (k, s) :: after)
    (hk : k.isClosing = true ∨ k.isSeparator = true) (level : Nat) : Stops level (more ++ rest) :=
  stops_of_faces hmore fun l _ => goesOn_of_ending hk s l

theorem reads_dynamicSelection {base base' : Name} {field : Expr} (hinner : ReadsWithin inner n)
    (hbase : SameName base base') (hwf : field.wellFormed false = true)
    (hlen : (field.text false).length < n) (s : Site) :
    Reads (suffix? inner base')
      ((.selection, ".") :: (.lparen, "(") :: (field.text false ++ [(.rparen, ")")])) rest i
      fun found => ∃ c, found = some c ∧ SameName (.dynamicSelection s base field) c := by
  refine .after (fun _ _ => reads_peekKind? 0) fun more kind hmore hkind => ?_
  rw [← List.head?_eq_getElem?, first_kind hmore] at hkind
  subst hkind
  refine .cons (fun _ _ => reads_advance _) fun _ _ => ?_
  refine .cons (fun _ _ => reads_eat .lparen "(") ?_
  rintro found ⟨t, rfl, -⟩
  refine .bind (fun _ hmore => reads_outsideIndex
    (hinner.expr hwf hlen (stops_before_ending hmore (Or.inl rfl) 13))) fun _ field' _ hfield => ?_
  refine .last (reads_discard (reads_expect .rparen ")" _)) fun _ _ => ?_
  refine .last (reads_siteFrom _) fun site _ => .pure ⟨_, rfl, ?_⟩
  rw [SameName, Name.bare, Name.bare, hbase, hfield]

def Suffixed (inner : Parse Expr) (x : Name) : Prop :=
  ∃ s suffix, x.text = (.identifier, s) :: suffix ∧ (∀ f fs, suffix = f :: fs → f.1 ≠ .handle) ∧
    ∀ {i : Bool} {rest : List Token} {first : Name}, first.bare = .identifier blankSite s →
      Spine (pure first) (suffixRound inner) suffix rest i (SameName x)

theorem Suffixed.snoc {base x : Name} {f : Face} {fs : List Face} (h : Suffixed inner base)
    (hf : f.1 ≠ .handle) (htext : x.text = base.text ++ f :: fs)
    (hsuffix : ∀ {i : Bool} {rest : List Token} {base' : Name}, SameName base base' →
      Reads (suffix? inner base') (f :: fs) rest i
        fun found => ∃ c, found = some c ∧ SameName x c) : Suffixed inner x := by
  obtain ⟨s, suffix, hbase, hhead, hspine⟩ := h
  refine ⟨s, suffix ++ f :: fs, ?_, ?_, ?_⟩
  · rw [htext, hbase, List.cons_append]
  · intro g gs hg
    cases suffix with
    | nil =>
      cases hg
      exact hf
    | cons g' gs' =>
      cases hg
      exact hhead g gs' rfl
  · intro i rest first hfirst
    refine .snoc (List.cons_ne_nil _ _) (fun _ _ => hspine hfirst) fun b hb => ?_
    exact reads_suffixRound (hsuffix hb)

theorem suffixed (hinner : ReadsWithin inner n) : ∀ {x : Name}, x.wellFormed = true →
    x.isSuperclass = false → x.text.length ≤ n → Suffixed inner x
  | .identifier _ s, _, _, _ => by
    refine ⟨s, [], rfl, nofun, fun {i rest first} hfirst => .of_reads (.pure ?_)⟩
    rw [SameName, hfirst, Name.bare]
  | .reference site base args, hwf, _, hlen => by
    simp only [Name.wellFormed, Bool.and_eq_true, Bool.not_eq_true'] at hwf
    simp only [Name.text, List.length_append, List.length_cons, List.length_nil] at hlen
    exact (suffixed hinner hwf.1.2 hwf.1.1 (by omega)).snoc (by simp) rfl
      fun hb => reads_reference hinner hb hwf.2 (by omega) site
  | .cellReference site base args, hwf, _, hlen => by
    simp only [Name.wellFormed, Bool.and_eq_true, Bool.not_eq_true'] at hwf
    simp only [Name.text, List.length_append, List.length_cons, List.length_nil] at hlen
    exact (suffixed hinner hwf.1.2 hwf.1.1 (by omega)).snoc (by simp) rfl
      fun hb => reads_cellReference hinner hb hwf.2 (by omega) site
  | .selection site base field, hwf, _, hlen => by
    simp only [Name.wellFormed, Bool.and_eq_true, Bool.not_eq_true'] at hwf
    simp only [Name.text, List.length_append, List.length_cons, List.length_nil] at hlen
    exact (suffixed hinner hwf.2 hwf.1 (by omega)).snoc (by simp) rfl
      fun hb => reads_selection hb field site
  | .dynamicSelection site base field, hwf, _, hlen => by
    simp only [Name.wellFormed, Bool.and_eq_true, Bool.not_eq_true'] at hwf
    simp only [Name.text, List.length_append, List.length_cons, List.length_nil] at hlen
    exact (suffixed hinner hwf.1.2 hwf.1.1 (by omega)).snoc (by simp) rfl
      fun hb => reads_dynamicSelection hinner hb hwf.2 (by omega) site

/-! ## Superclass references -/

def pathText : List String → List Face
  | [] => []
  | s :: names => (.handle, "@") :: (.identifier, s) :: pathText names

def boundTo (methods : List String) (last : Name) : Name :=
  methods.foldr (fun m x => .superclass blankSite (.identifier blankSite m) x) last

theorem superclass_parts : ∀ {x : Name}, x.wellFormed = true →
    ∃ (methods : List String) (last : Name), last.wellFormed = true ∧
      last.isSuperclass = false ∧ x.bare = boundTo methods last.bare ∧
      x.text = (methods.flatMap fun m => [(.identifier, m), (.handle, "@")]) ++ last.text
  | .superclass _ (.identifier _ m) parent, hwf => by
    simp only [Name.wellFormed, Name.isIdentifier, Bool.true_and] at hwf
    obtain ⟨methods, last, hlast, hplain, hbare, htext⟩ := superclass_parts hwf
    refine ⟨m :: methods, last, hlast, hplain, ?_, ?_⟩
    · rw [Name.bare, Name.bare, hbare]
      rfl
    · rw [Name.text, Name.text, htext]
      rfl
  | .identifier .., hwf | .reference .., hwf | .cellReference .., hwf
  | .selection .., hwf | .dynamicSelection .., hwf => ⟨[], _, hwf, rfl, rfl, rfl⟩

theorem path_text (methods : List String) (s : String) :
    ∃ first names, methods ++ [s] = first :: names ∧
      (methods.flatMap fun m => [(.identifier, m), (.handle, "@")]) ++ [(.identifier, s)] =
        ((.identifier, first) :: pathText names : List Face) := by
  induction methods with
  | nil => exact ⟨s, [], rfl, rfl⟩
  | cons m methods ih =>
    obtain ⟨first, names, hnames, htext⟩ := ih
    refine ⟨m, first :: names, by rw [List.cons_append, hnames], ?_⟩
    rw [List.flatMap_cons, List.append_assoc, htext]
    rfl

theorem finishes_methods {names : List String} {methods : List Name} {last : Name}
    (hrest : ∀ t, rest.head? = some t → t.kind ≠ .handle) :
    Finishes methodsRound (methods, last) (pathText names) rest i fun x : List Name × Name =>
      x.1.reverse.map Name.bare ++ [x.2.bare] =
        methods.reverse.map Name.bare ++ last.bare :: names.map (Name.identifier blankSite) := by
  induction names generalizing methods last with
  | nil => exact .done (reads_no_pair hrest (.pure ⟨_, rfl, rfl⟩))
  | cons s names ih =>
    refine .cons
      (Q := fun x : List Name × Name =>
        x.1 = last :: methods ∧ x.2.bare = .identifier blankSite s)
      (List.cons_ne_nil (.handle, "@") [(.identifier, s)]) (fun _ _ => ?_) ?_
    · refine reads_pair rfl rfl ?_
      refine .cons (fun _ _ => reads_advance _) fun _ _ => ?_
      exact .last (reads_identifier s) fun next hnext => .pure ⟨_, rfl, rfl, hnext⟩
    · rintro ⟨methods', next⟩ ⟨rfl, hnext⟩
      have hmore := @ih (last :: methods) next
      rw [hnext, List.reverse_cons, List.map_append, List.append_assoc] at hmore
      exact hmore

theorem reads_superclassChain (methods : List Name) (last : Name) :
    Reads (superclassChain methods last) [] rest i fun x => x.bare =
      (methods.map Name.bare).foldl (fun x m => .superclass blankSite m x) last.bare := by
  induction methods generalizing last with
  | nil => exact .pure rfl
  | cons method methods ih => exact .last (reads_siteBetween _ _) fun site _ => ih _

theorem reads_suffix?_none (hstops : Stops 1 rest) (base : Name) :
    Reads (suffix? inner base) [] rest i (· = none) := by
  refine .last (reads_peekKind? 0) fun kind hkind => ?_
  have hnone : kind ≠ some .lparen ∧ kind ≠ some .lbrace ∧ kind ≠ some .selection := by
    rw [hkind, ← List.head?_eq_getElem?]
    cases hhead : rest.head? with
    | none => exact ⟨nofun, nofun, nofun⟩
    | some t =>
      obtain ⟨hparen, hbrace, hselection, -⟩ :=
        head_kind_of_stops hstops (Nat.le_refl 1) t hhead
      exact ⟨fun h => hparen (Option.some.inj h), fun h => hbrace (Option.some.inj h),
        fun h => hselection (Option.some.inj h)⟩
  split
  · exact absurd rfl hnone.1
  · exact absurd rfl hnone.2.1
  · exact absurd rfl hnone.2.2
  · exact .pure rfl

theorem reads_suffixRound_done {x base : Name} (hstops : Stops 1 rest) (hbase : SameName x base) :
    Reads (suffixRound inner base) [] rest i fun r => ∃ c, r = .done c ∧ SameName x c := by
  refine .last (reads_suffix?_none hstops base) fun found hfound => ?_
  subst hfound
  exact .pure ⟨base, rfl, hbase⟩

theorem no_handle_before {suffix : List Face} {more : List Token} (hstops : Stops 1 rest)
    (hhead : ∀ f fs, suffix = f :: fs → f.1 ≠ .handle) (hmore : more.map Token.face = suffix)
    (t : Token) (ht : (more ++ rest).head? = some t) : t.kind ≠ .handle := by
  cases suffix with
  | nil =>
    rw [List.map_eq_nil_iff.1 hmore] at ht
    exact (head_kind_of_stops hstops (Nat.le_refl 1) t ht).2.2.2
  | cons f fs =>
    obtain ⟨t', hhead', rfl⟩ := head_of_faces hmore rest
    cases hhead'.symm.trans ht
    exact hhead _ fs rfl

/-- A path is read first, its last name takes the suffixes, and then the methods are bound. -/
theorem reads_name {x : Name} (hinner : ReadsWithin inner n) (hwf : x.wellFormed = true)
    (hlen : x.text.length ≤ n) (hstops : Stops 1 rest) :
    Reads (name inner) x.text rest i (SameName x) := by
  obtain ⟨methods, last, hlast, hplain, hbare, htext⟩ := superclass_parts hwf
  have hlen' : last.text.length ≤ n := by
    rw [htext, List.length_append] at hlen
    omega
  obtain ⟨s, suffix, hsuffix, hhead, hspine⟩ := suffixed hinner hlast hplain hlen'
  obtain ⟨first, names, hnames, hpath⟩ := path_text methods s
  have hwhole : x.text = (.identifier, first) :: (pathText names ++ suffix) := by
    rw [htext, hsuffix, ← List.cons_append, ← hpath, List.append_assoc]
    rfl
  rw [hwhole]
  refine .cons (fun _ _ => reads_identifier first) fun start hstart => ?_
  refine .bind (fun _ hmore =>
    (finishes_methods (no_handle_before hstops hhead hmore)).rounds) ?_
  rintro _ ⟨bound, root⟩ _ hroot
  have hparts : bound.reverse.map Name.bare ++ [root.bare] =
      methods.map (Name.identifier blankSite) ++ [.identifier blankSite s] := by
    refine hroot.trans ?_
    rw [hstart, ← List.map_cons, ← hnames, List.map_append]
    rfl
  obtain ⟨hbound, hlast'⟩ := List.append_inj' hparts rfl
  have hsuffixes : Reads (rounds root (suffixRound inner)) suffix rest i (SameName last) :=
    (hspine (List.cons.inj hlast').1).rounds fun b hb => reads_suffixRound_done hstops hb
  refine .last hsuffixes fun l hl => (reads_superclassChain bound l).mono fun y hy => ?_
  -- The methods were collected innermost first, so they are bound in the order of the fold.
  have hbound' : bound.map Name.bare = (methods.map (Name.identifier blankSite)).reverse := by
    rw [← hbound, List.map_reverse, List.reverse_reverse]
  rw [SameName, hy, hbound', hl, hbare, List.foldl_reverse, List.foldr_map]
  rfl

end MFile.Grammar.Parse
