import MFile.Proofs.Grammar.Lockstep.Statements
import MFile.Proofs.Tree.Listing

/-! Blocks of declarations and signatures side by side. -/

namespace MFile.Grammar.Parse

variable {α β : Type} {n m k : Nat} {s : State} {run : List Token}

/-! ## Attributes and properties -/

theorem steady_optArguments {opener close : Kind} (hopen : opener.isOpening = true)
    (hclose : close.isClosing = true) :
    Steady 0 n (optArguments opener close) (optArguments opener close) := by
  refine fun s => .check ?_
  split
  · rename_i hkind
    obtain ⟨t, ht, rfl⟩ := Option.map_eq_some_iff.1 (beq_iff_eq.1 hkind)
    exact ((tracks_arguments steady_expression ht hopen hclose).fewer (Nat.le_succ n)).mono
      fun _ _ _ _ hpart => hpart.least (Nat.zero_le _)
  · exact .pure (.nil s)

theorem Steady.some {p q : Parse α} (h : Steady k n p q) :
    Steady k n (Option.some <$> p) (Option.some <$> q) :=
  fun s => .map (h s)

theorem steady_optName : Steady 0 n optName optName := by
  refine fun s => .check ?_
  split
  · exact (steady_dottedName.least (Nat.zero_le _)).some s
  · exact .pure (.nil s)

theorem steady_optValue : Steady 0 n optValue optValue := by
  refine (steady_eat (by decide)).after fun found => ?_
  split
  · exact (steady_expression.least (Nat.zero_le _)).some
  · exact .pure none

theorem steady_eatOperator (symbols : List String) :
    Steady 0 n (eatOperator symbols) (eatOperator symbols) := by
  refine fun s => (tracks_eatIf _).mono fun found run _ _ h => ?_
  obtain ⟨rfl, hop, -⟩ := h
  cases found with
  | none => exact .nil s
  | some t => exact (part_operator (hop t rfl)).least (Nat.zero_le _)

theorem steady_oneAttribute : Steady 1 n oneAttribute oneAttribute := by
  refine fun s => .here fun start => ?_
  refine (steady_eatOperator _).after (fun negated => ?_) s
  refine ((steady_expect (show Part.plainKind .identifier = true from rfl)).bind fun name => ?_ :
    Steady (1 + 0) _ _ _)
  exact steady_optValue.after fun _ => (steady_siteFrom start).after fun _ => .pure _

theorem tracks_attributesRound (attrs : List Attribute) :
    Tracks n (attributesRound attrs) (attributesRound attrs) s
      fun r run _ => ClosingTurn r run := by
  refine (tracks_eatIf _).bind fun found closer mid _ hfound => ?_
  obtain ⟨rfl, hkind, -⟩ := hfound
  have hnext : ∀ {before : List Token} (s : State), Calm true before → Tracks n
      (do return (.again (attrs ++ [← oneAttribute]) : Round (List Attribute) (List Attribute)))
      (do return .again (attrs ++ [← oneAttribute])) s
      fun r run _ => ClosingTurn r (before ++ run) := by
    intro before s hbefore
    refine (steady_oneAttribute s).bind fun _ run _ _ hrun => .pure ?_
    rw [List.append_nil]
    exact ⟨by simp [hrun.ne_nil (k := 0)], hbefore.append hrun.inside⟩
  cases found with
  | some t =>
    refine .pure (Closes.single ?_)
    rw [beq_iff_eq.1 (hkind t rfl)]
    rfl
  | none =>
    simp only [Option.isSome_none, Bool.false_eq_true, if_false]
    split
    · refine Tracks.bind (Tracks.bind (tracks_expect .comma _) fun t run _ _ h => .pure ?_)
        fun _ run last _ hrun => (hnext last hrun).fewer (by omega)
      rw [h.1, List.append_nil]
      exact calm_separator h.2 rfl
    · exact (hnext mid .nil).fewer (Nat.sub_le _ _)

theorem tracks_attributes {t : Token} (ht : s.ahead.head? = some t)
    (hopen : t.kind.isOpening = true) :
    Tracks n attributes attributes s fun _ run _ => Part s 1 run := by
  rw [attributes_eq]
  refine (tracks_advance ht).bind fun _ opener mid _ hopener => ?_
  subst hopener
  exact (tracks_rounds_closing [] fun attrs s => tracks_attributesRound attrs).mono
    fun _ _ _ _ hcloses => Part.closed hcloses hopen

theorem steady_optAttributes : Steady 0 n optAttributes optAttributes := by
  refine fun s => .check ?_
  split
  · rename_i hkind
    obtain ⟨t, ht, hkind⟩ := Option.map_eq_some_iff.1 (beq_iff_eq.1 hkind)
    exact (tracks_attributes ht (by rw [hkind]; rfl)).mono
      fun _ _ _ _ hpart => hpart.least (Nat.zero_le _)
  · exact .pure (.nil s)

theorem steady_property : Steady 1 n property property := by
  rw [property_eq]
  refine fun s => .here fun start => ?_
  refine (steady_dottedName.bind (fun name => ?_) s :
    Tracks n _ _ s fun _ run _ => Part s (1 + 0) run)
  refine (steady_optArguments rfl rfl).after fun dimensions =>
    steady_optName.after fun className => ?_
  refine (steady_optArguments rfl rfl).after fun validators =>
    steady_optValue.after fun default => ?_
  exact (steady_siteFrom start).after fun _ => .pure _

/-! ## Items -/

theorem tracks_addItem (start : Location) (block : Block) (item : BlockItem) :
    Tracks n (addItem start block item) (addItem start block item) s
      fun block' run _ => run = [] ∧ block'.items = block.items ++ [item] := by
  rw [addItem]
  split
  · rename_i block' hadd
    refine .pure ⟨rfl, ?_⟩
    rw [Block.add] at hadd
    split at hadd
    · cases hadd
      rfl
    · cases hadd
  · exact .failing fun _ _ => throw_ok

theorem tracks_addStatement {p q : Parse BlockItem} (start : Location) (block : Block)
    (hp : Tracks n p q s fun item run _ => item.method? = none ∧ Part s 1 run)
    (hs : s.indexDepth = 0) :
    Tracks n (do addStatement start block (← p)) (do addStatement start block (← q)) s
      fun block' run _ => block'.methods = block.methods ∧ run ≠ [] ∧ Level run := by
  refine hp.bind fun item run mid _ hrun => ?_
  refine (tracks_addItem _ _ _).bind fun block' none _ _ hnone => ?_
  refine tracks_endStatement.bind fun _ last _ _ hlast => .pure ?_
  rw [hnone.1, List.append_nil, List.nil_append]
  refine ⟨?_, by simp [hrun.2.ne_nil (k := 0)], (hrun.2.level hs).append (level_separators hlast)⟩
  rw [Block.methods, hnone.2, List.filterMap_append, List.filterMap_cons_none hrun.1,
    List.filterMap_nil, List.append_nil, Block.methods]

theorem Steady.item {p q : Parse α} (h : Steady 1 n p q) (make : α → BlockItem)
    (hmake : ∀ a, (make a).method? = none) (s : State) :
    Tracks n (do return make (← p)) (do return make (← q)) s
      fun item run _ => item.method? = none ∧ Part s 1 run :=
  (h s).bind fun a _ _ _ hrun => .pure ⟨hmake a, by rwa [List.append_nil]⟩

theorem tracks_addProperty (block : Block) (hs : s.indexDepth = 0) :
    Tracks n (addProperty block) (addProperty block) s
      fun block' run _ => block'.methods = block.methods ∧ run ≠ [] ∧ Level run := by
  refine .here fun start => ?_
  have hitem := tracks_addStatement (n := n) start block
    (steady_property.item .property (fun _ => rfl) s) hs
  simpa only [bind_assoc, pure_bind] using hitem

/-! ## Blocks -/

section Blocks

variable {I : List FunctionDef → List Token → Prop} {addNext : Block → Parse Block}

structure Adds (n : Nat) (I : List FunctionDef → List Token → Prop)
    (addNext : Block → Parse Block) : Prop where
  nil : I [] []
  level : ∀ ⦃methods run more⦄, I methods run → Level more → I methods (run ++ more)
  next : ∀ ⦃block : Block⦄ ⦃run s⦄, s.indexDepth = 0 → I block.methods run →
    Tracks n (addNext block) (addNext block) s
      fun block' more _ => more ≠ [] ∧ I block'.methods (run ++ more)

def Encloses (I : List FunctionDef → List Token → Prop) (block : Block) (run : List Token) : Prop :=
  ∃ head inside closer, run = head ++ (inside ++ [closer]) ∧ Level head ∧
    I block.methods inside ∧ closer.isWord "end" = true

theorem tracks_blockRound (opener : Token) {block : Block} (hs : s.indexDepth = 0)
    (hnext : Adds n I addNext) (hrun : I block.methods run) :
    Tracks n (blockRound opener addNext block) (blockRound opener addNext block) s
      fun r more _ => match r with
        | .again block' => more ≠ [] ∧ I block'.methods (run ++ more)
        | .done block' => Encloses I block' (run ++ more) := by
  refine tracks_skipSeparators.bind fun _ seps mid hwalks hseps => ?_
  have hlevel := hnext.level hrun (level_separators hseps.1)
  refine (tracks_eatWord "end").bind fun found closer mid' hwalks' hfound => ?_
  obtain ⟨rfl, hend, -⟩ := hfound
  have hmid' := hwalks'.indexDepth.trans (hwalks.indexDepth.trans hs)
  cases found with
  | some t =>
    refine .pure ⟨[], run ++ seps, t, ?_, .nil, hlevel, hend t rfl⟩
    simp
  | none =>
    refine .atEnd ?_
    split
    · refine .failing fun _ _ h => ?_
      obtain ⟨_, _, h, -⟩ := bind_ok h
      exact failHere_ok h
    · refine ((hnext.next hmid' hlevel).fewer (by omega)).bind
        fun block more _ _ hmore => .pure ?_
      rw [Option.toList_none, List.nil_append, List.append_nil]
      exact ⟨by simp [hmore.1], by simpa using hmore.2⟩

theorem tracks_blockOf (kind : BlockKind) (opener : Token) (hs : s.indexDepth = 0)
    (hnext : Adds n I addNext) :
    Tracks n (block kind opener addNext) (block kind opener addNext) s
      fun block run _ => Encloses I block run := by
  rw [block_eq]
  refine (steady_optAttributes s).bind fun attrs head mid hwalks hhead => ?_
  refine .siteAt fun site mid' hwalks' => ?_
  have hmid' := hwalks'.indexDepth.trans (hwalks.indexDepth.trans hs)
  refine Tracks.bind (U := fun block run _ => Encloses I block run) ?_
    fun filled run _ _ hrun => .spanFrom fun place => .pure ?_
  · refine Tracks.rounds (I := fun block run _ => I block.methods run) hnext.nil
      fun block run st hst hrun => ?_
    refine ((tracks_blockRound opener (hst.indexDepth.trans hmid') hnext hrun).fewer
      ((Nat.sub_le _ _).trans (Nat.sub_le _ _))).mono fun r more _ _ hmore => ?_
    cases r <;> exact hmore
  · obtain ⟨head', inside, closer, rfl, hhead', hinside, hcloser⟩ := hrun
    refine ⟨head ++ head', inside, closer, by simp, (hhead.level hs).append hhead', hinside,
      hcloser⟩

theorem tracks_block (kind : BlockKind) (opener : Token) (hs : s.indexDepth = 0)
    (hnext : ∀ block s, s.indexDepth = 0 → Tracks n (addNext block) (addNext block) s
      fun block' run _ => block'.methods = block.methods ∧ run ≠ [] ∧ Level run) :
    Tracks n (block kind opener addNext) (block kind opener addNext) s
      fun block run _ => block.methods = [] ∧ Shuts run := by
  have hadds : Adds n (fun methods run => methods = [] ∧ Level run) addNext := by
    refine ⟨⟨rfl, .nil⟩, fun _ _ _ h hmore => ⟨h.1, h.2.append hmore⟩, ?_⟩
    intro block run s hs h
    refine (hnext block s hs).mono fun block' more _ _ hmore => ?_
    exact ⟨hmore.2.1, hmore.1.trans h.1, h.2.append hmore.2.2⟩
  refine (tracks_blockOf kind opener hs hadds).mono fun block run _ _ hrun => ?_
  obtain ⟨head, inside, closer, rfl, hhead, ⟨hnone, hinside⟩, hcloser⟩ := hrun
  exact ⟨hnone, .after hhead (.after hinside (.single hcloser))⟩

end Blocks

/-! ## Functions up to their bodies -/

theorem tracks_outputsRound (names : List Name) :
    Tracks n (outputsRound names) (outputsRound names) s fun r run _ => ClosingTurn r run := by
  refine .peekKind? ?_
  cases ht : s.ahead.head? with
  | none => exact .failing fun _ _ => unexpected_ok
  | some t =>
    rw [Option.map_some]
    generalize hkind : t.kind = kind
    split
    · rename_i hclose
      cases hclose
      refine (tracks_advance ht).bind fun _ run _ _ hrun => .pure ?_
      subst hrun
      exact Closes.single (by rw [hkind]; rfl)
    · rename_i hcomma
      cases hcomma
      refine (tracks_advance ht).bind fun _ run _ _ hrun => .pure ?_
      subst hrun
      exact ⟨List.cons_ne_nil _ _, calm_separator hkind rfl⟩
    · refine (steady_identifier s).bind fun name run _ _ hrun => .pure ?_
      rw [List.append_nil]
      exact ⟨hrun.ne_nil (k := 0), hrun.inside⟩
    · exact .failing fun _ _ => unexpected_ok

theorem tracks_outputs : Tracks n outputs outputs s fun _ run _ => Closes run :=
  tracks_rounds_closing [] fun names _ => tracks_outputsRound names

theorem steady_signatureHead : Steady 1 n signatureHead signatureHead := by
  intro s
  refine (tracks_eatIf _).bind fun found opener mid hwalks hfound => ?_
  obtain ⟨rfl, hopen, -⟩ := hfound
  cases found with
  | some t =>
    refine tracks_outputs.bind fun names run mid' hwalks' hrun => ?_
    have hopen : t.kind = .lbracket := by simpa using hopen t rfl
    have hlist := Part.closed (s := s) hrun (by rw [hopen]; rfl)
    have hrest : Steady 1 n (do
        discard (expect .assignment .outputAssignment)
        return (names, ← dottedName)) (do
        discard (expect .assignment .outputAssignment)
        return (names, ← dottedName)) :=
      (((steady_expect rfl).bind fun _ => .pure _).bind fun _ =>
        steady_dottedName.bind fun _ => .pure _).least (Nat.le_add_left _ _)
    refine ((hrest mid').fewer (by omega)).mono fun _ more _ _ hmore => ?_
    exact (hlist.append (hwalks'.indexDepth.trans hwalks.indexDepth) hmore).least (by omega)
  | none =>
    refine (steady_dottedName mid).bind fun first run mid' hwalks' hrun => .check ?_
    have hdepth := hwalks'.indexDepth.trans hwalks.indexDepth
    have hname : Part s 1 run := ((Part.nil s).append hwalks.indexDepth hrun).least (by omega)
    split
    · rename_i hassign
      obtain ⟨t, ht, hkind⟩ := Option.map_eq_some_iff.1 (beq_iff_eq.1 hassign)
      have hrest : Tracks n (do
          advance
          return ([first], ← dottedName)) (do
          advance
          return ([first], ← dottedName)) mid' fun _ more _ => Part s 1 (run ++ more) := by
        refine ((tracks_advance_kind ht hkind (by decide)).next (l := 1) fun _ _ st _ hrun =>
          ⟨hrun, steady_dottedName.bind (fun _ => .pure _) st⟩).mono fun _ more _ _ hmore => ?_
        exact (hname.append hdepth hmore).least (by omega)
      split
      · refine .failing fun _ _ h => ?_
        obtain ⟨_, _, h, -⟩ := bind_ok h
        exact fail_ok h
      · exact hrest.fewer (by omega)
    · refine .pure ?_
      simpa using hname

theorem steady_signature (start : Location) : Steady 1 n (signature start) (signature start) := by
  refine (steady_signatureHead.bind fun head => ?_ : Steady (1 + 0) _ _ _)
  refine fun s => (tracks_eatIf _).bind fun found opener mid hwalks hfound => ?_
  obtain ⟨rfl, hopen, -⟩ := hfound
  have hend : ∀ ins, Steady 0 n (do return (⟨← siteFrom start, head.2, ins, head.1⟩ : Signature))
      (do return ⟨← siteFrom start, head.2, ins, head.1⟩) :=
    fun ins => (steady_siteFrom start).after fun _ => .pure _
  cases found with
  | some t =>
    refine tracks_parameters.bind fun ins run mid' hwalks' hrun => ?_
    have hlist : Part s 1 (t :: run) := .closed hrun (by rw [beq_iff_eq.1 (hopen t rfl)]; rfl)
    refine ((hend ins mid').fewer (by omega)).mono fun _ more _ _ hmore => ?_
    exact (hlist.append (hwalks'.indexDepth.trans hwalks.indexDepth) hmore).least (by omega)
  | none =>
    refine ((hend [] mid).fewer (by omega)).mono fun _ more _ _ hmore => ?_
    exact (Part.nil s).append hwalks.indexDepth hmore

theorem tracks_validationRound (blocks : List Block) (hs : s.indexDepth = 0) :
    Tracks n (validationRound blocks) (validationRound blocks) s
      fun r run _ => LevelTurn r run := by
  refine tracks_skipSeparators.bind fun _ seps mid hwalks hseps => ?_
  have hlevel := level_separators hseps.1
  refine (tracks_eatWord "arguments").bind fun found opener mid' hwalks' hfound => ?_
  obtain ⟨rfl, hword, -⟩ := hfound
  have hmid' := hwalks'.indexDepth.trans (hwalks.indexDepth.trans hs)
  cases found with
  | none =>
    refine .pure ?_
    simp only [Option.toList_none, List.append_nil]
    exact hlevel
  | some t =>
    obtain ⟨hk, hraw⟩ := Shuts.isWord_iff.1 (hword t rfl)
    refine Tracks.bind ((tracks_block .arguments t hmid' fun block s hs =>
      tracks_addProperty block hs)) fun block run _ _ hrun => .pure ?_
    have hblock := hrun.2.level hk (by rw [hraw]; rfl) (by rw [hraw]; decide)
    rw [List.append_nil]
    exact ⟨by simp, hlevel.append hblock⟩

theorem tracks_validationBlocks (hs : s.indexDepth = 0) :
    Tracks n validationBlocks validationBlocks s fun _ run _ => Level run :=
  tracks_rounds_level [] hs fun blocks _ hs => tracks_validationRound blocks hs

end MFile.Grammar.Parse
