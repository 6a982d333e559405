import MFile.Proofs.Grammar.Functions.Reading

/-!
Methods. The functions in a class are read like those of a file, one run after another, but each
is closed by its own `end`, and nothing that they do shows outside of the class.
-/

namespace MFile.Grammar.Parse

variable {n : Nat} {s : State} {run run' : List Token} {fs fs' : List FunctionDef}

/-- No function is open at `d`, which stands inside of a `methods` block if that is asked for. -/
structure Outer (inMethods : Bool) (d : Depth) : Prop where
  brackets : d.brackets = 0
  innermost : d.innermost? = none
  inMethods : inMethods = true → d.inMethods = true

structure Brings (inMethods : Bool) (fs : List FunctionDef) (run : List Token) : Prop where
  past_eq : ∀ d, Outer inMethods d →
    d.past run = { d with functions := d.functions + countFunctions fs }
  words : ∀ d, Outer inMethods d → functionWords d run =
    (listFunctions none d.functions fs).map fun f => ⟨f.location, f.parent, true⟩
  terminated : ∀ number, ∀ f ∈ listFunctions none number fs, f.terminated = true

namespace Brings

variable {inMethods : Bool}

theorem append (h : Brings inMethods fs run) (h' : Brings inMethods fs' run') :
    Brings inMethods (fs ++ fs') (run ++ run') := by
  have houter : ∀ d, Outer inMethods d →
      Outer inMethods { d with functions := d.functions + countFunctions fs } :=
    fun d hd => ⟨hd.brackets, hd.innermost, hd.inMethods⟩
  refine ⟨fun d hd => ?_, fun d hd => ?_, fun number f hf => ?_⟩
  · rw [Depth.past_append, h.past_eq d hd, h'.past_eq _ (houter d hd), countFunctions_append,
      Nat.add_assoc]
  · rw [functionWords_append, h.words d hd, h.past_eq d hd, h'.words _ (houter d hd),
      listFunctions_append, List.map_append]
  · rw [listFunctions_append] at hf
    exact (List.mem_append.1 hf).elim (h.terminated number f) (h'.terminated _ f)

theorem level (h : Level run) : Brings inMethods [] run :=
  ⟨fun d hd => h.past_eq d hd.brackets, fun d _ => h.noFunctionWords d, by simp [listFunctions]⟩

theorem quiet (h : Brings inMethods fs run) (hmore : Level run') :
    Brings inMethods fs (run ++ run') := by
  simpa using h.append (.level hmore)

theorem shut {t closer : Token} {inside : Bool} (hk : t.kind = .keyword)
    (hopen : (Lexing.Block.ofWord? t.raw).isSome = true) (hword : t.raw ≠ "function")
    (hinside : inside = true → inMethods = true ∨ t.raw = "methods")
    (h : Brings inside fs run) (hcloser : closer.isWord "end" = true) :
    Brings inMethods fs (t :: (run ++ [closer])) := by
  obtain ⟨hk', hraw'⟩ := Shuts.isWord_iff.1 hcloser
  have hnot : ∀ {u : Token} {word : String}, u.raw = word → word ≠ "function" →
      u.isWord "function" = false := by
    intro u word hu hword
    rw [Token.isWord, hu, beq_eq_false_iff_ne.2 hword, Bool.and_false]
  have hstep : ∀ d, Outer inMethods d →
      d.step t = { d with blocks := ⟨t.raw, d.functions⟩ :: d.blocks } := by
    intro d hd
    rw [d.step_keyword hk hd.brackets, Depth.blocksAfter, if_pos hopen, if_neg hword]
    rfl
  have houter : ∀ d, Outer inMethods d →
      Outer inside { d with blocks := ⟨t.raw, d.functions⟩ :: d.blocks } := by
    intro d hd
    refine ⟨hd.brackets, ?_, fun hin => ?_⟩
    · rw [Depth.innermost?, List.find?_cons_of_neg (by simpa using hword)]
      exact hd.innermost
    · rw [Depth.inMethods, List.any_cons, Bool.or_eq_true, beq_iff_eq]
      exact (hinside hin).symm.imp_right fun hmethods => hd.inMethods hmethods
  refine ⟨fun d hd => ?_, fun d hd => ?_, h.terminated⟩
  · rw [Depth.past_cons, hstep d hd, Depth.past_append, h.past_eq _ (houter d hd),
      Depth.past_cons, Depth.past_nil, Depth.step_keyword _ hk' (by exact hd.brackets), hraw']
    rfl
  · rw [functionWords, hnot rfl hword, if_neg Bool.false_ne_true, hstep d hd,
      functionWords_append, h.words _ (houter d hd), functionWords, hnot hraw' (by decide),
      if_neg Bool.false_ne_true, functionWords, List.append_nil]

end Brings

/-! ## Methods -/

theorem inMethods_brings {t : Token} {run : FunctionRun} {s₁ s₂ : State} (hs : s.indexDepth = 0)
    (hopener : s.Walks [t] s₁) (ht : t.isWord "function" = true)
    (h : inMethods (function {} t) s₁ = .ok run s₂) :
    ∃ W, s.Walks W s₂ ∧ W ≠ [] ∧ Brings true run.resolve W := by
  obtain ⟨mid, hrun, rfl⟩ := Tracks.bracketed_ok run s₂ h
  let s₀ : State := { s with methodDepth := s.methodDepth + 1 }
  have hopener' : s₀.Walks [t] { s₁ with methodDepth := s₁.methodDepth + 1 } :=
    { hopener with methodDepth := congrArg (· + 1) hopener.methodDepth }
  have hread : ∀ d, Outer true d → ∃ W, s₀.Walks W mid ∧ Records d run [] W ∧
      d.past W = depthInside d run [] ∧ run.Uniform true := by
    intro d hd
    have hground : Ground d s₀ := ⟨hd.brackets, hd.innermost, hs⟩
    rcases (Reading.start d s₀).function hground hopener' ht hrun with hread | ⟨hnone, -⟩
    · obtain ⟨W, hW, hrecords, hdepth⟩ := hread.passed
      have hmid : { mid with frames := s₀.frames, endUsed := s₀.endUsed } = mid := by
        rw [← hread.kept (Nat.succ_pos _), ← hread.frames.trans (List.nil_append _)]
      exact ⟨W, hmid ▸ hW, hrecords, hdepth, hread.closed⟩
    · exact nomatch hnone
  obtain ⟨W, hW, hrecords, -, hclosed⟩ :=
    hread { blocks := [⟨"methods", 0⟩] } ⟨rfl, rfl, fun _ => rfl⟩
  have hsame : ∀ d, Outer true d → Records d run [] W ∧ d.past W = depthInside d run [] := by
    intro d hd
    obtain ⟨W', hW', hrecords', hdepth', -⟩ := hread d hd
    obtain rfl := hW.unique hW'.toPasses
    exact ⟨hrecords', hdepth'⟩
  refine ⟨W, { hW with methodDepth := congrArg (· - 1) hW.methodDepth }, ?_,
    fun d hd => ?_, fun d hd => ?_, fun number f => hrecords.terminated_resolve hclosed number f⟩
  · rintro rfl
    have hsize := function_size hrun
    rw [← hrecords.length] at hsize
    exact absurd hsize (Nat.not_lt_zero _)
  · rw [(hsame d hd).2, hrecords.count_resolve hclosed]
    rfl
  · have hrecords := (hsame d hd).1
    have hlisted := congrArg (List.map fun p : Location × Option Nat =>
      (⟨p.1, p.2, true⟩ : FunctionWord)) (hrecords.listing_resolve hclosed)
    simp only [List.map_map, Function.comp_def] at hlisted
    rw [hlisted]
    refine (List.map_id _).symm.trans (List.map_congr_left fun w hw => ?_)
    rw [← (hrecords.inMethods w hw).trans (hd.inMethods rfl)]
    rfl

theorem tracks_addMethods (start : Location) (block : Block) (fs : List FunctionDef) :
    Tracks n (fs.foldlM (fun block method => addItem start block (.method method)) block)
      (fs.foldlM (fun block method => addItem start block (.method method)) block) s
      fun block' run _ => run = [] ∧ block'.methods = block.methods ++ fs := by
  induction fs generalizing block s with
  | nil => exact .pure ⟨rfl, (List.append_nil _).symm⟩
  | cons f fs ih =>
    rw [List.foldlM_cons]
    refine (tracks_addItem _ _ _).bind fun next none _ _ hnone => ?_
    refine ((ih next).fewer (Nat.sub_le _ _)).mono fun block' more _ _ hmore => ?_
    rw [hnone.1, hmore.1, hmore.2, Block.methods, hnone.2, List.filterMap_append, Block.methods]
    exact ⟨rfl, List.append_assoc _ _ _⟩

theorem adds_addMethod : Adds 0 (Brings true) addMethod := by
  refine ⟨.level .nil, fun _ _ _ h hmore => h.quiet hmore, fun block run s hs hrun => ?_⟩
  refine .here fun start => ?_
  intro block' s₃ hparse
  obtain ⟨found, s₁, heat, hparse⟩ := bind_ok hparse
  obtain ⟨_, heat, ⟨rfl, hword, -⟩, -⟩ := tracks_eatWord (n := 0) "function" heat
  cases found with
  | some t =>
    obtain ⟨methods, s₂, hmethods, hadd⟩ := bind_ok hparse
    obtain ⟨W, hW, hne, hbrings⟩ := inMethods_brings hs heat (hword t rfl) hmethods
    obtain ⟨_, hadd, ⟨rfl, hsame⟩, -⟩ := tracks_addMethods (n := 0) start block _ hadd
    refine ⟨W, ?_, ⟨hne, ?_⟩, nofun⟩
    · simpa using hW.trans hadd
    · rw [hsame]
      exact hrun.append hbrings
  | none =>
    have hstatement := tracks_addStatement (n := 0) start block
      ((steady_signature start).item .signature (fun _ => rfl) s₁)
      (heat.indexDepth.trans hs)
    simp only [bind_assoc, pure_bind] at hstatement
    obtain ⟨more, hmore, ⟨hsame, hne, hlevel⟩, -⟩ := hstatement hparse
    refine ⟨more, by simpa using heat.trans hmore, ⟨hne, ?_⟩, nofun⟩
    rw [hsame]
    exact hrun.quiet hlevel

/-! ## Classes -/

theorem tracks_addEvent (block : Block) (hs : s.indexDepth = 0) :
    Tracks n (addEvent block) (addEvent block) s
      fun block' run _ => block'.methods = block.methods ∧ run ≠ [] ∧ Level run := by
  refine .here fun start => ?_
  have hevent : Steady 1 n (do let name ← identifier; return ⟨← siteAt name.site.location, name⟩)
      (do let name ← identifier; return EventDecl.mk (← siteAt name.site.location) name) :=
    (steady_identifier.bind fun name => (steady_siteAt _).after fun _ => .pure _ :
      Steady (1 + 0) _ _ _)
  have hitem := tracks_addStatement (n := n) start block
    (hevent.item .event (fun _ => rfl) s) hs
  simpa only [bind_assoc, pure_bind] using hitem

theorem tracks_addEnumerator (block : Block) (hs : s.indexDepth = 0) :
    Tracks n (addEnumerator block) (addEnumerator block) s
      fun block' run _ => block'.methods = block.methods ∧ run ≠ [] ∧ Level run := by
  refine .here fun start => ?_
  have henumerator : Steady 1 n
      (do
        let name ← identifier
        let args ← optArguments .lparen .rparen
        return ⟨← siteFrom start, name, args⟩)
      (do
        let name ← identifier
        let args ← optArguments .lparen .rparen
        return Enumerator.mk (← siteFrom start) name args) :=
    (steady_identifier.bind fun name => (steady_optArguments rfl rfl).after fun args =>
      (steady_siteFrom _).after fun _ => .pure _ : Steady (1 + 0) _ _ _)
  have hitem := tracks_addStatement (n := n) start block
    (henumerator.item .enumerator (fun _ => rfl) s) hs
  simpa only [optArguments, bind_assoc, pure_bind, bind_of_ite] using hitem

theorem ofWord?_word {kind : BlockKind} {t : Token} (h : classBlock? t = some kind) :
    t.kind = .keyword ∧ t.raw = kind.word ∧ kind ≠ .arguments := by
  rw [classBlock?] at h
  split at h
  · rename_i hk
    obtain ⟨hword, hkind⟩ := Option.filter_eq_some_iff.1 h
    refine ⟨hk, ?_, by simpa using hkind⟩
    have hfound := List.find?_some hword
    exact (beq_iff_eq.1 hfound).symm
  · cases h

theorem tracks_classBlock {kind : BlockKind} {t : Token} (h : classBlock? t = some kind)
    (hs : s.indexDepth = 0) :
    Tracks 0 (block kind t (addNext kind)) (block kind t (addNext kind)) s
      fun block run _ => Brings false block.methods (t :: run) := by
  obtain ⟨hk, hraw, hkind⟩ := ofWord?_word h
  have hopen : (Lexing.Block.ofWord? t.raw).isSome = true ∧ t.raw ≠ "function" := by
    rw [hraw]
    cases kind <;> exact ⟨rfl, by decide⟩
  have hplain : ∀ addNext : Block → Parse Block, (∀ block s, s.indexDepth = 0 →
      Tracks 0 (addNext block) (addNext block) s
        fun block' run _ => block'.methods = block.methods ∧ run ≠ [] ∧ Level run) →
      Tracks 0 (block kind t addNext) (block kind t addNext) s
        fun block run _ => Brings false block.methods (t :: run) := by
    intro addNext hnext
    refine (tracks_block kind t hs hnext).mono fun block run _ _ hrun => ?_
    rw [hrun.1]
    exact .level (hrun.2.level hk hopen.1 hopen.2)
  cases kind with
  | properties | arguments => exact hplain _ fun block s hs => tracks_addProperty block hs
  | events => exact hplain _ fun block s hs => tracks_addEvent block hs
  | enumeration => exact hplain _ fun block s hs => tracks_addEnumerator block hs
  | methods =>
    refine (tracks_blockOf .methods t hs adds_addMethod).mono fun block run _ _ hrun => ?_
    obtain ⟨head, inside, closer, rfl, hhead, hinside, hcloser⟩ := hrun
    have hall := (Brings.level hhead).append hinside
    rw [List.nil_append] at hall
    rw [← List.append_assoc]
    exact .shut hk hopen.1 hopen.2 (fun _ => .inr hraw) hall hcloser

def ClosesClass (blocks : List Block) (run : List Token) : Prop :=
  ∃ inside closer seps, run = inside ++ closer :: seps ∧
    Brings false (blocks.flatMap (·.methods)) inside ∧ closer.isWord "end" = true ∧ Level seps

theorem tracks_classRound (opener : Token) {blocks : List Block} (hs : s.indexDepth = 0)
    (hrun : Brings false (blocks.flatMap (·.methods)) run) :
    Tracks 0 (classRound opener blocks) (classRound opener blocks) s
      fun r more _ => match r with
        | .again blocks' => more ≠ [] ∧ Brings false (blocks'.flatMap (·.methods)) (run ++ more)
        | .done blocks' => ClosesClass blocks' (run ++ more) := by
  refine tracks_skipSeparators.bind fun _ seps mid hwalks hseps => ?_
  have hlevel := hrun.quiet (level_separators hseps.1)
  refine (tracks_eatWord "end").bind fun found closer mid' hwalks' hfound => ?_
  obtain ⟨rfl, hend, -⟩ := hfound
  have hmid' := hwalks'.indexDepth.trans (hwalks.indexDepth.trans hs)
  cases found with
  | some t =>
    refine tracks_endStatement.bind fun _ last _ _ hlast => .pure ?_
    refine ⟨run ++ seps, t, last, by simp, hlevel, hend t rfl, level_separators hlast⟩
  | none =>
    refine .current? ?_
    cases ht : mid'.ahead.head? with
    | none => exact .failing fun _ _ => failHere_ok
    | some t =>
      dsimp only
      split
      · rename_i kind hkind
        refine (tracks_advance ht).bind fun _ word next hnext hword => ?_
        subst hword
        refine Tracks.bind ((tracks_classBlock hkind (hnext.indexDepth.trans hmid')).fewer
          (by omega)) fun block more _ _ hmore => .pure ?_
        refine ⟨by simp, ?_⟩
        have hall := hlevel.append hmore
        simpa using hall
      · exact .failing fun _ _ => failHere_ok

theorem steady_superclasses : Steady 0 n superclasses superclasses := by
  rw [superclasses_eq]
  refine (steady_eatOperator _).after fun found => ?_
  split
  · exact .pure []
  refine (steady_dottedName.least (Nat.zero_le _)).after fun first => ?_
  refine steady_rounds [first] fun names s => ?_
  refine (tracks_eatIf _).bind fun found run mid hwalks hfound => ?_
  obtain ⟨rfl, hop, -⟩ := hfound
  cases found with
  | none => exact .pure (.nil s)
  | some t =>
    refine (steady_dottedName mid).bind fun name more _ _ hmore => .pure ?_
    rw [List.append_nil]
    exact ((part_operator (hop t rfl)).append hwalks.indexDepth hmore).least (by omega)

theorem tracks_classDef {t : Token} (ht : t.isWord "classdef" = true) (hs : s.indexDepth = 0) :
    Tracks 0 (classDef t) (classDef t) s
      fun definition run _ => Brings false (definition.blocks.flatMap (·.methods)) (t :: run) := by
  obtain ⟨hk, hraw⟩ := Shuts.isWord_iff.1 ht
  refine .silent (tracks_freshId.mono fun _ _ _ _ h => ⟨h.1, h.2.1⟩) fun id s₁ hs₁ => ?_
  have hhead : Steady 0 0 (do
      let attrs ← optAttributes
      let name ← identifier
      return (attrs, name, ← superclasses)) (do
      let attrs ← optAttributes
      let name ← identifier
      return (attrs, name, ← superclasses)) :=
    steady_optAttributes.after fun attrs => (steady_identifier.least (Nat.zero_le _)).after
      fun name => steady_superclasses.after fun supers => .pure _
  let rest (head : List Attribute × Name × List Name) : Parse ClassDef := do
    let place ← spanFrom t.location
    let blocks ← classBlocks t
    return ⟨⟨id, place⟩, head.2.1, head.1, head.2.2, blocks⟩
  have hrest : ∀ head (run : List Token) (s : State), s.indexDepth = 0 → Level run →
      Tracks 0 (rest head) (rest head) s fun definition more _ =>
        Brings false (definition.blocks.flatMap (·.methods)) (t :: (run ++ more)) := by
    intro head run s hs hlevel
    refine .spanFrom fun place => ?_
    rw [classBlocks_eq]
    refine Tracks.bind (U := fun blocks more _ => ClosesClass blocks (run ++ more)) ?_
      fun blocks more _ _ hmore => .pure ?_
    · refine Tracks.rounds (I := fun blocks more _ =>
          Brings false (blocks.flatMap (·.methods)) (run ++ more)) ?_
        fun blocks more mid hwalks hmore => ?_
      · rw [List.append_nil]
        exact .level hlevel
      · refine ((tracks_classRound t (hwalks.indexDepth.trans hs) hmore).fewer
          (by omega)).mono fun r last _ _ hlast => ?_
        rw [← List.append_assoc]
        cases r <;> exact hlast
    · obtain ⟨inside, closer, seps, hall, hinside, hcloser, hseps⟩ := hmore
      rw [List.append_nil, hall]
      have hshut : Brings false _ (t :: (inside ++ [closer])) :=
        .shut hk (by rw [hraw]; rfl) (by rw [hraw]; decide)
          (fun h => absurd h Bool.false_ne_true) hinside hcloser
      simpa using hshut.quiet hseps
  have hall := (hhead s₁).bind (f := rest) (g := rest) (V := fun definition run _ =>
      Brings false (definition.blocks.flatMap (·.methods)) (t :: run))
    fun head run mid hwalks hrun =>
      (hrest head run mid (hwalks.indexDepth.trans (hs₁.indexDepth.trans hs))
        (hrun.level (hs₁.indexDepth.trans hs))).fewer (Nat.sub_le _ _)
  simpa only [rest, bind_assoc, pure_bind] using hall

end MFile.Grammar.Parse
