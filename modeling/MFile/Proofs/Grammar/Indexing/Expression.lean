import MFile.Proofs.Grammar.Indexing.Nest

/-!
What an expression leaves open. In an argument list one list more is remembered until it is closed,
and in the body of a lambda or in a field none is, until it is left in any way. An operand may end
in the body of a lambda, which is read as far as it goes: each level reads what its operators join,
and leaves none of them to what is around it.
-/

namespace MFile.Grammar.Parse

variable {s₀ s : State} {d : Nat} {t : Token} {rest : List Token} {top : Layer}
  {below : List Layer} {last : Last} {e : Enclosure} {inner p : Parse Expr}
  {symbols symbols' : List String}

def RangeEnded (s₀ : State) (d : Nat) (e : Enclosure) (below : List Layer) (s : State) : Prop :=
  ∃ n, Ended s₀ d ⟨e, n⟩ below s ∧ (s.ColonNext → 2 ≤ n)

def Loose (symbols : List String) (p : Parse Expr) : Prop :=
  ∀ ⦃s₀ d e below s⦄, Stands s₀ d ⟨⟨e, 0⟩ :: below, .nothing⟩ s →
    Exits p s (fun _ s' => RangeEnded s₀ d e below s' ∧ s'.NoneOf symbols) (Broken s₀ d e below)

def Tight (symbols : List String) (p : Parse Expr) : Prop :=
  ∀ ⦃s₀ d top below s⦄, Stands s₀ d ⟨top :: below, .nothing⟩ s →
    Exits p s (fun _ s' => Ended s₀ d top below s' ∧ s'.NoneOf symbols)
      (Broken s₀ d top.enclosure below)

abbrev Naming (p : Parse Name) : Prop :=
  ∀ ⦃s₀ d top below last s⦄, Stands s₀ d ⟨top :: below, last⟩ s →
    Exits p s (fun _ s' => Stands s₀ d ⟨top :: below, .name⟩ s') (Broken s₀ d top.enclosure below)

/-! ## Names -/

theorem naming_identifier : Naming identifier := by
  refine fun _ _ _ _ _ _ h => .expect h.broken fun t rest hahead hkind => .siteAt fun _ => .pure ?_
  rw [← Nest.next_name hkind]
  exact (h.past hahead).numbered

theorem nests_placeholderOf {n : Nest} {E : State → Prop} (h : Stands s₀ d n s) :
    Exits (placeholderOf t) s (fun _ s' => Stands s₀ d n s') E :=
  .siteAt fun _ => .pure h.numbered

theorem naming_dottedName : Naming dottedName := by
  refine fun s₀ d top below last s h => (naming_identifier h).bind fun name mid hmid => ?_
  refine .rounds (I := fun _ => Stands s₀ d ⟨top :: below, .name⟩) hmid (fun _ _ h => h.broken)
    fun name st hst => .check fun dot hdot => .peekKind? ?_
  split
  · rename_i hmore
    obtain ⟨t, rest, hahead, hkind⟩ := hdot (Bool.and_eq_true_iff.1 hmore).1
    have hpast := hst.past hahead
    rw [Nest.next_dot hkind] at hpast
    refine .advance hahead (.expect hpast.broken fun field more hmore hfield => ?_)
    refine .siteBetween fun _ => .pure ?_
    have hname := (hpast.past hmore).numbered
    rwa [Nest.next_name hfield] at hname
  · exact .pure hst

theorem nests_parameters (h : Stands s₀ d ⟨{ enclosure := .parameters } :: below, .nothing⟩ s) :
    Exits parameters s (fun _ s' => Stands s₀ d ⟨{ enclosure := .body } :: below, .nothing⟩ s')
      (Broken s₀ d .parameters below) := by
  refine .rounds (I := fun _ st => ∃ last,
    Stands s₀ d ⟨{ enclosure := .parameters } :: below, last⟩ st) ⟨_, h⟩
    (fun _ _ ⟨_, h⟩ => h.broken) fun names st ⟨last, hst⟩ => ?_
  refine .current? (fun _ => .unexpected hst.broken) fun t rest hahead => ?_
  dsimp only
  split
  · rename_i hkind
    exact .advance hahead (.pure (hst.inside.closed hahead (by rw [hkind]; rfl) rfl))
  · rename_i hkind
    exact .advance hahead (.pure ⟨_, hst.inside.separated hahead (by rw [hkind]; rfl) rfl⟩)
  · exact (naming_identifier hst).bind fun _ _ hmid => .pure ⟨_, hmid⟩
  · rename_i hkind
    split
    · rename_i htilde
      have hpast := hst.past hahead
      rw [Nest.next_tight hkind (by rw [htilde]; decide)] at hpast
      exact .advance hahead ((nests_placeholderOf hpast).bind fun _ _ hmid => .pure ⟨_, hmid⟩)
    · exact .unexpected hst.broken
  · exact .unexpected hst.broken

/-! ## Argument lists and fields -/

section Inner

variable (hinner : Loose bindingSymbols inner)

include hinner

theorem nests_argumentsInside {close : Kind} (hclose : close.isClosing = true)
    (h : Stands s₀ d ⟨{ enclosure := .arguments } :: below, .nothing⟩ s) :
    Exits (argumentsInside inner close) s (fun _ s' => Stands s₀ d ⟨below, .name⟩ s')
      (Broken s₀ d .arguments below) := by
  refine .eat (fun t rest hahead hkind => .pure ?_) fun _ => ?_
  · exact h.inside.closed hahead (hkind ▸ hclose) rfl
  refine .rounds (I := fun _ => Stands s₀ d ⟨{ enclosure := .arguments } :: below, .nothing⟩) h
    (fun _ _ h => h.broken) fun args st hst => (hinner hst).bind fun arg mid ⟨⟨n, hmid, _⟩, _⟩ => ?_
  refine .eat (fun t rest hahead hkind => .pure ?_) fun _ =>
    .eat (fun t rest hahead hkind => .pure ?_) fun _ => .unexpected hmid.broken
  · exact hmid.inside.closed hahead (hkind ▸ hclose) rfl
  · exact hmid.inside.separated hahead (by rw [hkind]; rfl) rfl

theorem nests_arguments {close : Kind} (hclose : close.isClosing = true)
    (hahead : s.ahead = t :: rest) (hkind : t.kind = .lparen ∨ t.kind = .lbrace)
    (h : Stands s₀ d ⟨top :: below, .name⟩ s) :
    Exits (arguments inner close) s (fun _ s' => Stands s₀ d ⟨top :: below, .name⟩ s')
      (Broken s₀ d top.enclosure below) := by
  have hopen := (h.past hahead).remembering (d + 1)
  rw [Nest.next_arguments hkind] at hopen
  refine .advance hahead (.modify ?_)
  have hdepth : (s.past t rest).indexDepth + 1 = d + 1 := congrArg (· + 1) h.indexDepth
  rw [hdepth]
  refine Exits.bind ((nests_argumentsInside hinner hclose hopen).mono (fun _ _ h => h) ?_)
    fun args mid hmid => .modify (.pure ?_)
  · exact fun _ hbroken => hbroken.arguments
  · rw [hmid.indexDepth]
    exact hmid.remembering d

theorem nests_outsideIndex (he : e = .body ∨ e = .field)
    (h : Stands s₀ d ⟨⟨e, 0⟩ :: top :: below, .nothing⟩ s) :
    Exits (outsideIndex inner) s
      (fun _ s' => RangeEnded s₀ d e (top :: below) s' ∧ s'.NoneOf bindingSymbols)
      (Broken s₀ d top.enclosure below) := by
  refine .bracketed ((hinner (h.remembering 0)).mono (fun _ s' hs' => ?_) fun s' hs' => ?_)
  · obtain ⟨⟨n, hended, hcolon⟩, hnone⟩ := hs'
    rw [h.indexDepth]
    exact ⟨⟨n, hended.remembering d, hcolon⟩, hnone⟩
  · rw [h.indexDepth]
    exact hs'.restored he d

/-! ## Names with suffixes -/

theorem nests_suffix? (name : Name) (h : Stands s₀ d ⟨top :: below, .name⟩ s) :
    Exits (suffix? inner name) s (fun _ s' => Stands s₀ d ⟨top :: below, .name⟩ s')
      (Broken s₀ d top.enclosure below) := by
  have hdone : ∀ (mid : State) (make : Site → Name), Stands s₀ d ⟨top :: below, .name⟩ mid →
      Exits (do return some (make (← siteFrom name.site.location))) mid
        (fun _ s' => Stands s₀ d ⟨top :: below, .name⟩ s') (Broken s₀ d top.enclosure below) :=
    fun mid make hmid => .siteFrom fun _ => .pure hmid.numbered
  refine .peekKind? ?_
  cases hahead : s.ahead with
  | nil => exact .pure h
  | cons t rest => ?_
  dsimp only [List.getElem?_cons_zero, Option.map_some]
  split
  · rename_i hkind
    exact (nests_arguments hinner rfl hahead (.inl (Option.some.inj hkind)) h).bind
      fun _ mid hmid => hdone mid _ hmid
  · rename_i hkind
    exact (nests_arguments hinner rfl hahead (.inr (Option.some.inj hkind)) h).bind
      fun _ mid hmid => hdone mid _ hmid
  · rename_i hkind
    have hdot := h.past hahead
    rw [Nest.next_dot (Option.some.inj hkind)] at hdot
    refine .advance hahead (.eat (fun paren more hmore hparen => ?_) fun _ => ?_)
    · have hopen := hdot.past hmore
      rw [Nest.next_field hparen] at hopen
      refine (nests_outsideIndex hinner (.inr rfl) hopen).bind fun field mid ⟨⟨n, hmid, _⟩, _⟩ => ?_
      refine .discard_bind (.expect (hmid.restored (.inr rfl))
        fun t rest hahead hkind => hdone _ _ ?_)
      exact hmid.inside.closed hahead (by rw [hkind]; rfl) rfl
    · refine .expect hdot.broken fun field more hmore hfield => hdone _ _ ?_
      rw [← Nest.next_name hfield]
      exact hdot.past hmore
  · exact .pure h

end Inner

theorem nests_superclassChain {E : State → Prop} (methods : List Name) (name : Name) {n : Nest}
    (h : Stands s₀ d n s) :
    Exits (superclassChain methods name) s (fun _ s' => Stands s₀ d n s') E := by
  induction methods generalizing name s with
  | nil => exact .pure h
  | cons method methods ih => exact .siteBetween fun _ => ih _ h.numbered

theorem nests_methodsRound (w : List Name × Name) (h : Stands s₀ d ⟨top :: below, .name⟩ s) :
    Exits (methodsRound w) s (Leaves (fun _ s' => Stands s₀ d ⟨top :: below, .name⟩ s')
      fun _ s' => Stands s₀ d ⟨top :: below, .name⟩ s') (Broken s₀ d top.enclosure below) := by
  obtain ⟨methods, last⟩ := w
  refine .check fun mark hmark => .peekKind? ?_
  split
  · rename_i hmore
    obtain ⟨t, rest, hahead, hkind⟩ := hmark (Bool.and_eq_true_iff.1 hmore).1
    have hpast := h.past hahead
    rw [Nest.next_handle hkind] at hpast
    exact .advance hahead ((naming_identifier hpast).bind fun _ _ hmid => .pure hmid)
  · exact .pure h

section Inner

variable (hinner : Loose bindingSymbols inner)

include hinner

theorem naming_name : Naming (name inner) := by
  refine fun s₀ d top below last s h => (naming_identifier h).bind fun first mid hmid => ?_
  have hmethods : Exits (rounds ([], first) methodsRound) mid
      (fun _ s' => Stands s₀ d ⟨top :: below, .name⟩ s') (Broken s₀ d top.enclosure below) :=
    .rounds (I := fun _ => Stands s₀ d ⟨top :: below, .name⟩) hmid (fun _ _ h => h.broken)
      fun w _ => nests_methodsRound w
  refine hmethods.bind fun (methods, last) mid hmid => ?_
  have hsuffixes : Exits (rounds last (suffixRound inner)) mid
      (fun _ s' => Stands s₀ d ⟨top :: below, .name⟩ s') (Broken s₀ d top.enclosure below) := by
    refine .rounds (I := fun _ => Stands s₀ d ⟨top :: below, .name⟩) hmid (fun _ _ h => h.broken)
      fun name st hst => (nests_suffix? hinner name hst).bind fun longer mid hmid => ?_
    cases longer <;> exact .pure hmid
  exact hsuffixes.bind fun longer mid hmid => nests_superclassChain methods longer hmid

end Inner

/-! ## Rows -/

theorem nests_finishRow {n : Nest} {E : State → Prop} (rows : List Row) (items : List Expr)
    (h : Stands s₀ d n s) :
    Exits (finishRow rows items) s (fun _ s' => Stands s₀ d n s') E := by
  cases items with
  | nil => exact .pure h
  | cons first more => exact .siteBetween fun _ => .pure h.numbered

def BetweenItems (s₀ : State) (d : Nat) (below : List Layer) (soFar : RowsSoFar) (s : State) :
    Prop :=
  (∃ n, Inside s₀ d ⟨.group, n⟩ below s) ∧
    (soFar.afterItem = false → Stands s₀ d ⟨{ enclosure := .group } :: below, .nothing⟩ s)

theorem betweenItems_of_stands {soFar : RowsSoFar}
    (h : Stands s₀ d ⟨{ enclosure := .group } :: below, .nothing⟩ s) :
    BetweenItems s₀ d below soFar s :=
  ⟨⟨0, h.inside⟩, fun _ => h⟩

section Inner

variable (hinner : Loose bindingSymbols inner)

include hinner

theorem nests_rowsRound {close : Kind} (hclose : close.isClosing = true) (placeholders : Bool)
    (soFar : RowsSoFar) (h : BetweenItems s₀ d below soFar s) :
    Exits (rowsRound inner close placeholders soFar) s
      (Leaves (BetweenItems s₀ d below) fun _ s' => Stands s₀ d ⟨below, .value⟩ s')
      (Broken s₀ d .group below) := by
  obtain ⟨⟨n, hinside⟩, hbetween⟩ := h
  refine .current? (fun _ => .unexpected hinside.broken) fun t rest hahead => ?_
  dsimp only
  split
  · rename_i hkind
    have hpast := hinside.closed hahead (hkind ▸ hclose) rfl
    exact .advance hahead ((nests_finishRow _ _ hpast).bind fun _ _ hmid => .pure hmid)
  split
  · rename_i hkind
    have hseparator : t.kind.isSeparator = true := by
      obtain hkind | hkind := hkind <;> rw [hkind] <;> rfl
    have hpast := hinside.separated hahead hseparator rfl
    exact .advance hahead ((nests_finishRow _ _ hpast).bind fun _ _ hmid =>
      .pure (betweenItems_of_stands hmid))
  split
  · rename_i hkind
    have hpast := hinside.separated hahead (by rw [hkind]; rfl) rfl
    exact .advance hahead (.pure (betweenItems_of_stands hpast))
  split
  · exact .unexpected hinside.broken
  rename_i hafter
  have hstands := hbetween (Bool.not_eq_true _ ▸ hafter)
  refine .peekKind? ?_
  split
  · rename_i htilde
    have htilde : t.isOperator "~" = true := by
      rw [Bool.and_eq_true, Bool.and_eq_true] at htilde
      exact htilde.1.2
    rw [Token.isOperator, Bool.and_eq_true, beq_iff_eq, beq_iff_eq] at htilde
    have hpast := hstands.past hahead
    rw [Nest.next_tight htilde.1 (by rw [htilde.2]; decide)] at hpast
    exact .advance hahead ((nests_placeholderOf hpast).bind fun _ _ hmid =>
      .pure ⟨⟨0, hmid.inside⟩, nofun⟩)
  · exact (hinner hstands).bind fun item mid ⟨⟨n, hmid, _⟩, _⟩ =>
      .pure ⟨⟨n, hmid.inside⟩, nofun⟩

theorem nests_rows {close : Kind} (hclose : close.isClosing = true) (hahead : s.ahead = t :: rest)
    (hkind : t.kind = .lbracket ∨ t.kind = .lbrace) (h : Stands s₀ d ⟨top :: below, .nothing⟩ s) :
    Exits (rows inner close) s (fun _ s' => Stands s₀ d ⟨top :: below, .value⟩ s')
      (Broken s₀ d top.enclosure below) := by
  have hopen := (h.past hahead).plain
  rw [Nest.next_group (.inr hkind)] at hopen
  refine .here fun _ => .advance hahead (.get (.modify ?_))
  have hrows := Exits.rounds (I := BetweenItems s₀ d (top :: below)) (a := {})
    (betweenItems_of_stands hopen) (fun _ _ ⟨⟨_, h⟩, _⟩ => h.broken)
    fun soFar st => nests_rowsRound hinner hclose (s.past t rest).placeholders soFar
  exact (hrows.mono (fun _ _ h => h) fun _ h => h.group).bind fun rows mid hmid =>
    .spanFrom fun _ => .pure hmid

/-! ## Operands -/

theorem nests_handle (mark : Token) (h : Stands s₀ d ⟨top :: below, .handle⟩ s) :
    Exits (handle inner mark) s (fun _ s' => Ended s₀ d top below s')
      (Broken s₀ d top.enclosure below) := by
  refine .eat (fun t rest hahead hkind => ?_) fun _ => ?_
  · have hopen := h.past hahead
    rw [Nest.next_parameters hkind] at hopen
    refine ((nests_parameters hopen).mono (fun _ _ h => h) fun _ h => h.parameters).bind
      fun params mid hmid => ?_
    refine (nests_outsideIndex hinner (.inl rfl) hmid).bind
      fun body mid ⟨⟨n, hended, hcolon⟩, hnone⟩ => .siteBetween fun _ => .pure ?_
    obtain ⟨bodies, last, hstands, hlast, hstuck⟩ := hended
    refine ⟨bodies ++ [⟨.body, n⟩], last, ?_, hlast, ?_, fun _ => hnone, fun hnext => ?_⟩
    · rw [List.append_assoc]
      exact hstands.numbered
    · rw [List.forall_mem_append]
      exact ⟨hstuck.body, by simp [Layer.isBody]⟩
    · rw [List.forall_mem_append]
      exact ⟨hstuck.colon hnext, by simpa using hcolon hnext⟩
  · exact (naming_dottedName h).bind fun name mid hmid => .siteBetween fun _ =>
      .pure (hmid.numbered.ended rfl)

theorem nests_compound (hahead : s.ahead = t :: rest) (h : Stands s₀ d ⟨top :: below, .nothing⟩ s) :
    Exits (compound inner t) s (fun _ s' => Ended s₀ d top below s')
      (Broken s₀ d top.enclosure below) := by
  have hrows : ∀ {close : Kind} (make : Site → List Row → Expr), close.isClosing = true →
      t.kind = .lbracket ∨ t.kind = .lbrace →
      Exits (rows inner close >>= fun read => return make (← siteAt read.2) read.1) s
        (fun _ s' => Ended s₀ d top below s') (Broken s₀ d top.enclosure below) :=
    fun make hclose hkind => (nests_rows hinner hclose hahead hkind h).bind fun _ mid hmid =>
      .siteAt fun _ => .pure (hmid.numbered.ended rfl)
  rw [compound]
  split
  · exact (naming_name hinner h).bind fun _ mid hmid => .pure (hmid.ended rfl)
  · rename_i hkind
    have hopen := h.past hahead
    rw [Nest.next_group (.inl hkind)] at hopen
    have hgroup := (hinner hopen).mono (fun _ _ h => h) fun _ h => h.group
    refine .advance hahead (hgroup.bind fun e mid ⟨⟨n, hmid, _⟩, _⟩ => .discard_bind ?_)
    refine .expect hmid.broken.group fun u more hmore hclose => .pure ?_
    exact (hmid.inside.closed hmore (by rw [hclose]; rfl) rfl).ended rfl
  · rename_i hkind
    exact hrows (fun site rows => .matrix site rows) rfl (.inl hkind)
  · rename_i hkind
    exact hrows (fun site rows => .cell site rows) rfl (.inr hkind)
  · rename_i hkind
    have hpast := h.past hahead
    rw [Nest.next_handle hkind] at hpast
    exact .advance hahead (nests_handle hinner t hpast)
  · rename_i hkind
    have hpast := h.past hahead
    rw [Nest.next_metaclass hkind] at hpast
    exact .advance hahead ((naming_dottedName hpast).bind fun name mid hmid =>
      .siteBetween fun _ => .pure (hmid.numbered.ended rfl))
  · exact .unexpected h.broken

omit hinner in
theorem atom?_kind {inIndex : Bool} {next : Option Kind} {make : Site → Expr}
    (h : atom? inIndex t next = some make) :
    (t.kind = .number ∨ t.kind = .charArray ∨ t.kind = .string ∨ t.kind = .keyword) ∨
      t.kind = .colon := by
  rw [atom?] at h
  split at h <;> simp_all

theorem nests_operand (h : Stands s₀ d ⟨top :: below, .nothing⟩ s) :
    Exits (operand inner) s (fun _ s' => Ended s₀ d top below s')
      (Broken s₀ d top.enclosure below) := by
  refine .current? (fun _ => .unexpected h.broken) fun t rest hahead => ?_
  refine .get (.peekKind? ?_)
  split
  · rename_i hatom
    have hpast := h.past hahead
    have hvalue : Nest.next ⟨top :: below, .nothing⟩ t = ⟨top :: below, .value⟩ := by
      obtain hkind | hkind := atom?_kind hatom
      · exact Nest.next_value hkind
      · exact Nest.next_loneColon hkind
    rw [hvalue] at hpast
    exact .advance hahead (.siteAt fun _ => .pure (hpast.numbered.ended rfl))
  · exact nests_compound hinner hahead h

end Inner

/-! ## Levels -/

section Levels

variable {Q E : State → Prop} (hnumbered : ∀ st, Q st → Q st.numbered)

include hnumbered

theorem nests_allSigned (ops : List Token) (e : Expr) (h : Q s) :
    Exits (allSigned ops e) s (fun _ s' => Q s') E := by
  induction ops with
  | nil => exact .pure h
  | cons op ops ih =>
    exact ih.bind fun _ mid hmid => .siteBetween fun _ => .pure (hnumbered mid hmid)

theorem nests_signed (h : Stands s₀ d ⟨top :: below, .nothing⟩ s)
    (hp : ∀ st, Stands s₀ d ⟨top :: below, .nothing⟩ st → Exits p st (fun _ s' => Q s') E) :
    Exits (do
      let signs ← eatWhile isSign
      allSigned signs (← p)) s (fun _ s' => Q s') E := by
  refine .eatWhile fun signs rest hahead hsigns _ => ?_
  have hno : ∀ symbol ∈ ["+", "-", "~", "!"], symbol ∉ transposeSymbols ++ looseSymbols := by
    decide
  have htight : ∀ op ∈ signs, op.kind = .operator ∧ op.raw ∉ transposeSymbols ++ looseSymbols := by
    intro op hop
    rw [hsigns] at hop
    have hsign := List.mem_takeWhile_imp hop
    rw [isSign, Bool.and_eq_true, beq_iff_eq, List.contains_iff_mem] at hsign
    exact ⟨hsign.1, hno _ hsign.2⟩
  have hpassed := h.passed hahead
  rw [Nest.foldl_next_tight htight] at hpassed
  exact (hp _ hpassed).bind fun e mid hmid => nests_allSigned hnumbered signs e hmid

theorem nests_binary (hE : ∀ st, Q st → E st) (op : Token) (lhs rhs : Expr) (h : Q s) :
    Exits (binary op lhs rhs) s (fun _ s' => Q s') E := by
  rw [binary]
  split
  · exact .siteBetween fun _ => .pure (hnumbered s h)
  · exact .throw (hE s h)

theorem nests_binaryLevel {P : State → Prop} (hE : ∀ st, Q st → E st)
    (hp : ∀ st, P st → Exits p st (fun _ s' => Q s') E)
    (hop : ∀ st op rest, Q st → st.ahead = op :: rest → op.kind = .operator → op.raw ∈ symbols →
      P (st.past op rest)) (h : P s) :
    Exits (binaryLevel symbols p) s (fun _ s' => Q s' ∧ s'.NoneOf symbols) E := by
  refine (hp s h).bind fun lhs mid hmid => .rounds (I := fun _ => Q) hmid (fun _ => hE)
    fun lhs st hst => .eatOperator (fun op rest hahead hkind hmem => ?_) fun hnone =>
      .pure ⟨hst, hnone⟩
  refine (hp _ (hop st op rest hst hahead hkind hmem)).bind fun rhs mid hmid => ?_
  exact (nests_binary hnumbered hE op lhs rhs hmid).bind fun _ _ hmid => .pure hmid

end Levels

theorem Tight.binaryLevel (h : Tight symbols' p) (hbinding : symbols ⊆ bindingSymbols)
    (htight : ∀ symbol ∈ symbols, symbol ∉ transposeSymbols ++ looseSymbols) :
    Tight (symbols ++ symbols') (binaryLevel symbols p) := by
  intro s₀ d top below s hs
  have hop : ∀ st op rest, Ended s₀ d top below st ∧ st.NoneOf symbols' → st.ahead = op :: rest →
      op.kind = .operator → op.raw ∈ symbols →
      Stands s₀ d ⟨top :: below, .nothing⟩ (st.past op rest) := by
    intro st op rest hst hahead hkind hmem
    obtain ⟨last, hstands⟩ := hst.1.stands hahead hkind (hbinding hmem)
    have hpast := hstands.past hahead
    rw [Nest.next_tight hkind (htight _ hmem)] at hpast
    exact hpast
  have hlevel := nests_binaryLevel (fun st hst => ⟨hst.1.numbered, hst.2⟩)
    (fun st hst => hst.1.broken) (fun st hst => h hst) hop hs
  exact hlevel.mono (fun _ _ h => ⟨h.1.1, h.2.append h.1.2⟩) fun _ h => h

theorem RangeEnded.numbered (h : RangeEnded s₀ d e below s) :
    RangeEnded s₀ d e below s.numbered := by
  obtain ⟨n, hended, hcolon⟩ := h
  exact ⟨n, hended.numbered, hcolon⟩

theorem Loose.binaryLevel (h : Loose symbols' p) (symbols : List String)
    (hbinding : symbols ⊆ bindingSymbols) (hloose : symbols ⊆ looseSymbols) :
    Loose (symbols ++ symbols') (binaryLevel symbols p) := by
  intro s₀ d e below s hs
  have hop : ∀ st op rest, RangeEnded s₀ d e below st ∧ st.NoneOf symbols' →
      st.ahead = op :: rest → op.kind = .operator → op.raw ∈ symbols →
      Stands s₀ d ⟨⟨e, 0⟩ :: below, .nothing⟩ (st.past op rest) := by
    rintro st op rest ⟨⟨n, hended, -⟩, -⟩ hahead hkind hmem
    obtain ⟨last, hstands⟩ := hended.stands hahead hkind (hbinding hmem)
    have hpast := hstands.past hahead
    rw [Nest.next_loose hkind (hloose hmem)] at hpast
    exact hpast
  have hlevel := nests_binaryLevel (fun st hst => ⟨hst.1.numbered, hst.2⟩)
    (fun st ⟨⟨n, hended, _⟩, _⟩ => hended.broken) (fun st hst => h hst) hop hs
  exact hlevel.mono (fun _ _ h => ⟨h.1.1, h.2.append h.1.2⟩) fun _ h => h

section Inner

variable (hinner : Loose bindingSymbols inner)

include hinner

theorem tight_powers : Tight (["'", ".'"] ++ ["^", ".^"]) (powers inner) := by
  refine fun s₀ d top below s hs => (nests_operand hinner hs).bind fun e mid hmid => ?_
  refine .rounds (I := fun _ => Ended s₀ d top below) hmid (fun _ _ h => h.broken)
    fun e st hst => .eatOperator (fun op rest hahead hkind hmem => ?_) fun hturned =>
      .eatOperator (fun op rest hahead hkind hmem => ?_) fun hraised =>
        .pure ⟨hst, State.NoneOf.append hturned hraised⟩
  · have hbinding : ["'", ".'"] ⊆ bindingSymbols := by decide
    obtain ⟨last, hstands⟩ := hst.stands hahead hkind (hbinding hmem)
    have hpast := hstands.past hahead
    rw [Nest.next_transpose hkind hmem] at hpast
    have hturned : Exits (transposed op e) (st.past op rest)
        (fun _ s' => Ended s₀ d top below s') (Broken s₀ d top.enclosure below) :=
      .siteBetween fun _ => .pure (hpast.numbered.ended rfl)
    exact hturned.bind fun _ _ hmid => .pure hmid
  · have hbinding : ["^", ".^"] ⊆ bindingSymbols := by decide
    have htight : ∀ symbol ∈ ["^", ".^"], symbol ∉ transposeSymbols ++ looseSymbols := by decide
    obtain ⟨last, hstands⟩ := hst.stands hahead hkind (hbinding hmem)
    have hpast := hstands.past hahead
    rw [Nest.next_tight hkind (htight _ hmem)] at hpast
    refine (nests_signed (Q := Ended s₀ d top below) (fun _ h => h.numbered) hpast
      fun _ hst => nests_operand hinner hst).bind fun rhs mid hmid => ?_
    exact (nests_binary (Q := Ended s₀ d top below) (fun _ h => h.numbered)
      (fun _ h => h.broken) op e rhs hmid).bind fun _ _ hmid => .pure hmid

theorem tight_sums : Tight (["+", "-"] ++ (["*", ".*", "/", "./", "\\", ".\\"] ++
    (["'", ".'"] ++ ["^", ".^"]))) (sums inner) := by
  have hsigned : Tight (["'", ".'"] ++ ["^", ".^"]) (signedPowers inner) :=
    fun _ _ _ _ _ hs => nests_signed (fun _ h => ⟨h.1.numbered, h.2⟩) hs fun _ hst =>
      tight_powers hinner hst
  exact (hsigned.binaryLevel (by decide) (by decide)).binaryLevel (by decide) (by decide)

theorem loose_ranges : Loose (["+", "-"] ++ (["*", ".*", "/", "./", "\\", ".\\"] ++
    (["'", ".'"] ++ ["^", ".^"]))) (ranges inner) := by
  have hnot : ∀ {st : State}, (∀ t ∈ st.ahead.head?, t.kind ≠ .colon) → ¬ st.ColonNext :=
    fun h ⟨t, ht, hkind⟩ => h t ht hkind
  refine fun s₀ d e below s hs => (tight_sums hinner hs).bind fun start mid ⟨hmid, hnone⟩ => ?_
  refine .eat (fun t rest hahead hkind => ?_) fun hno =>
    .pure ⟨⟨0, hmid, fun hnext => absurd hnext (hnot hno)⟩, hnone⟩
  refine (tight_sums hinner (hmid.colon hahead hkind (by omega))).bind
    fun second mid₁ ⟨hmid₁, hnone₁⟩ => ?_
  refine .eat (fun u more hmore hkind => ?_) fun hno => ?_
  · refine (tight_sums hinner (hmid₁.colon hmore hkind (by omega))).bind
      fun stop mid₂ ⟨hmid₂, hnone₂⟩ => .step rfl (.siteBetween fun _ => .pure ?_)
    exact ⟨⟨2, hmid₂.numbered, fun _ => Nat.le_refl 2⟩, hnone₂⟩
  · refine .step rfl (.siteBetween fun _ => .pure ?_)
    exact ⟨⟨1, hmid₁.numbered, fun hnext => absurd hnext (hnot hno)⟩, hnone₁⟩

theorem loose_shortOrs : Loose bindingSymbols (shortOrs inner) := by
  have hcomparisons := (loose_ranges hinner).binaryLevel ["==", "~=", "!=", "<", "<=", ">", ">="]
    (by decide) (by decide)
  have hors := (hcomparisons.binaryLevel ["&"] (by decide) (by decide)).binaryLevel ["|"]
    (by decide) (by decide)
  exact (hors.binaryLevel ["&&"] (by decide) (by decide)).binaryLevel ["||"]
    (by decide) (by decide)

end Inner

theorem loose_expressionWithin (fuel : Nat) : Loose bindingSymbols (expressionWithin fuel) := by
  induction fuel with
  | zero => exact fun _ _ _ _ _ hs => .stalled hs.broken
  | succ fuel ih => exact loose_shortOrs ih

theorem loose_expression : Loose bindingSymbols expression :=
  fun _ _ _ _ _ hs => .get (loose_expressionWithin _ hs)

end MFile.Grammar.Parse
