import MFile.Proofs.Grammar.Functions.Slots
import MFile.Proofs.Grammar.Relayout.Statements

/-! Blocks of declarations, functions and runs of functions on another layout. -/

namespace MFile.Grammar

open Parse

namespace Relayout

variable {ρ : Relayout} {α α' : Type} {k j : Nat} {d : Depths} {level : Bool} {s s' : State}
  {t opener : Token}

/-! ## Parts that may be left out -/

theorem repeats_optArguments {opener close : Kind} (hopen : opener.isOpening = true)
    (hclose : close.isClosing = true) (hd : d.Sound) (h : ρ.At j d true s s') :
    ρ.Repeats (optArguments opener close) s (optArguments opener close) s'
      (ρ.Stay j d (List.map (Expr.relocate ρ.place))) := by
  have hsep : opener.isSeparator = false := by cases opener <;> first | rfl | cases hopen
  refine .check ?_
  rw [h.head_kind hsep]
  split
  · rename_i hhead
    obtain ⟨bracket, hbracket, hfacing⟩ := h.facing hsep hhead
    refine (repeats_arguments (reads_expression (k := j)) hfacing (by rw [hbracket]; exact hopen)
      hclose hd).mono fun _ _ _ _ hdone => hdone.stay
  · exact .pure ⟨h, rfl⟩

theorem repeats_optName (hd : d.Sound) (h : ρ.At j d true s s') :
    ρ.Repeats optName s optName s' (ρ.Stay j d (Option.map (Name.relocate ρ.place))) := by
  refine .check ?_
  rw [h.head_kind rfl]
  split
  · exact (reads_dottedName.some (Nat.lt_succ_self j) hd h).mono fun _ _ _ _ hdone => hdone.stay
  · exact .pure ⟨h, rfl⟩

theorem repeats_optValue (hd : d.Sound) (h : ρ.At j d true s s') :
    ρ.Repeats optValue s optValue s' (ρ.Stay j d (Option.map (Expr.relocate ρ.place))) := by
  refine h.eat (.inr rfl) (fun _ u u' i _ hi hu => ?_) (.pure ⟨h, rfl⟩)
  refine (reads_expression.some (Nat.lt_succ_self i) hd hu).mono fun _ _ _ _ hdone => ?_
  exact hdone.stay.mono hi.le

/-! ## Attributes and properties -/

theorem repeats_oneAttribute (hd : d.Sound) (h : ρ.At j d.deeper true s s') :
    ρ.Repeats oneAttribute s oneAttribute s' (ρ.Done j d.deeper (Attribute.relocate ρ.place)) := by
  refine h.here (.inr rfl) (.inr (Nat.succ_pos _)) fun start => ?_
  have hrest : ∀ (negated : Bool) {i : Nat} {u u' : State}, i ≤ j → ρ.At i d.deeper true u u' →
      ρ.Repeats
        (do
          let name ← expect .identifier .identifier
          let value ← optValue
          return (⟨← siteFrom start, name.raw, negated, value⟩ : Attribute)) u
        (do
          let name ← expect .identifier .identifier
          let value ← optValue
          return (⟨← siteFrom (ρ.place start), name.raw, negated, value⟩ : Attribute)) u'
        (ρ.Done j d.deeper (Attribute.relocate ρ.place)) := by
    intro negated i u u' hi hu
    refine hu.expect (.inr rfl) fun name v v' m hname hm hv => ?_
    refine (repeats_optValue hd.deeper hv).stay fun value w w' hw => ?_
    rw [ρ.raw_of_kind hname rfl]
    exact hw.siteFrom fun site x x' hx => .pure ⟨⟨m, by omega, hx⟩, rfl⟩
  exact h.eatOperator (fun _ u u' i _ hi hu => hrest true hi.le hu) (hrest false le_rfl h)

theorem repeats_attributes (hd : d.Sound) (h : ρ.Facing j d level t s s') (ht : t.kind = .lparen) :
    ρ.Repeats attributes s attributes s' (ρ.Done j d (List.map (Attribute.relocate ρ.place))) := by
  rw [attributes_eq]
  refine h.advance fun u u' i hi hu => ?_
  rw [ht] at hu
  refine hu.rounds (F := List.map (Attribute.relocate ρ.place)) (a := [])
    fun m hm attrs v v' hv => ?_
  refine hv.eat (.inr rfl) (fun _ w w' n _ hn hw => .pure ⟨⟨n, by omega, hw⟩, rfl⟩) ?_
  have hone : ∀ {n : Nat} {w w' : State}, n ≤ m → ρ.At n d.deeper true w w' → ρ.Repeats
      (do
        return (Round.again (attrs ++ [← oneAttribute]) :
          Round (List Attribute) (List Attribute))) w
      (do
        return (Round.again (attrs.map (Attribute.relocate ρ.place) ++ [← oneAttribute]) :
          Round (List Attribute) (List Attribute))) w'
      (Turn (ρ.Done m d.deeper (List.map (Attribute.relocate ρ.place)))
        (ρ.Done j d (List.map (Attribute.relocate ρ.place)))) := by
    intro n w w' hn hw
    refine (repeats_oneAttribute hd hw).done fun attr x x' l hl hx => .pure ?_
    exact ⟨⟨l, by omega, hx⟩, by simp⟩
  have hempty : (attrs.map (Attribute.relocate ρ.place)).isEmpty = attrs.isEmpty := by
    cases attrs <;> rfl
  simp only [hempty, Option.isSome_none, Bool.false_eq_true, if_false]
  split
  · exact hv.discardExpect (.inl (Nat.succ_pos _)) fun w w' n hn hw => hone hn.le hw
  · exact hone le_rfl hv

theorem repeats_optAttributes (h : ρ.At j d true s s') (hd : d.Sound) :
    ρ.Repeats optAttributes s optAttributes s'
      (ρ.Stay j d (List.map (Attribute.relocate ρ.place))) := by
  refine .check ?_
  rw [h.head_kind rfl]
  split
  · rename_i hhead
    obtain ⟨paren, hparen, hfacing⟩ := h.facing rfl hhead
    exact (repeats_attributes hd hfacing hparen).mono fun _ _ _ _ hdone => hdone.stay
  · exact .pure ⟨h, rfl⟩

theorem repeats_property (h : ρ.Facing j .outside level t s s') :
    ρ.Repeats property s property s' (ρ.Done j .outside (Property.relocate ρ.place)) := by
  have hd := Depths.sound_outside
  rw [property_eq]
  refine h.here ?_
  refine (reads_dottedName (Nat.lt_succ_self j) hd h.toAt).done fun name u u' i hi hu => ?_
  refine (repeats_optArguments rfl rfl hd hu).stay fun dimensions u u' hu => ?_
  refine (repeats_optName hd hu).stay fun className u u' hu => ?_
  refine (repeats_optArguments rfl rfl hd hu).stay fun validators u u' hu => ?_
  refine (repeats_optValue hd hu).stay fun default u u' hu => ?_
  exact hu.siteFrom fun site v v' hv => .pure ⟨⟨i, hi, hv⟩, rfl⟩

/-! ## Items -/

theorem add_relocate (block : Block) (item : BlockItem) :
    (block.relocate ρ.place).add (item.relocate ρ.place) =
      (block.add item).map (Block.relocate ρ.place) := by
  obtain ⟨site, kind, attributes, items⟩ := block
  have hitem : kind.accepts (item.relocate ρ.place) = kind.accepts item := by
    cases kind <;> cases item <;> rfl
  have hname : (item.relocate ρ.place).kindName = item.kindName := by cases item <;> rfl
  simp only [Block.relocate, Block.add, hitem, hname]
  split
  · simp [Except.map]
  · rfl

theorem repeats_addItem {S : State → State → Prop} (start : Location) (block : Block)
    (item : BlockItem) (h : S s s') :
    ρ.Repeats (addItem start block item) s
      (addItem (ρ.place start) (block.relocate ρ.place) (item.relocate ρ.place)) s'
      fun b b' t t' => S t t' ∧ b' = b.relocate ρ.place := by
  rw [addItem, addItem, add_relocate]
  cases block.add item with
  | ok b => exact .pure ⟨h, rfl⟩
  | error misplaced => exact .throw fun _ => rfl

def Adds (ρ : Relayout) (k : Nat) (next next' : Block → Parse Block) : Prop :=
  ∀ ⦃j s s'⦄ (block : Block) (t : Token), j < k → ρ.Facing j .outside false t s s' →
    ρ.Repeats (next block) s (next' (block.relocate ρ.place)) s' fun b b' u u' =>
      (∃ i < j, ρ.Between i u u') ∧ b' = b.relocate ρ.place

theorem repeats_addStatement {i : Nat} (start : Location) (block : Block) (item : BlockItem)
    (hi : i < j) (h : ρ.At i .outside true s s') :
    ρ.Repeats (addStatement start block item) s
      (addStatement (ρ.place start) (block.relocate ρ.place) (item.relocate ρ.place)) s'
      fun b b' u u' => (∃ i < j, ρ.Between i u u') ∧ b' = b.relocate ρ.place := by
  refine (repeats_addItem start block item h).bind ?_
  rintro b _ u u' ⟨hu, rfl⟩
  exact (repeats_endStatement hu).bind fun _ _ v v' hv => .pure ⟨⟨i, hi, hv⟩, rfl⟩

theorem adds_property : Adds ρ k addProperty addProperty := by
  intro j s s' block t _ h
  refine h.here ((repeats_property h).done fun property u u' i hi hu => ?_)
  exact repeats_addStatement t.location block (.property property) hi hu

theorem repeats_block {kind : BlockKind} {next next' : Block → Parse Block}
    (hnext : Adds ρ k next next') (ht : opener.kind = .keyword) (hj : j < k)
    (h : ρ.At j .outside true s s') :
    ρ.Repeats (Parse.block kind opener next) s (Parse.block kind (ρ.token opener) next') s'
      (ρ.Stay j .outside (Block.relocate ρ.place)) := by
  rw [block_eq, block_eq, ρ.location_token]
  refine (repeats_optAttributes h Depths.sound_outside).stay fun attrs u u' hu => ?_
  refine hu.siteAt fun site v v' hv => ?_
  refine Repeats.bind (P := ρ.Stay j .outside (Block.relocate ρ.place)) ?_ ?_
  · have hempty : (⟨site.relocate ρ.place, kind, attrs.map (Attribute.relocate ρ.place), []⟩ :
        Block) = (Block.mk site kind attrs []).relocate ρ.place := by simp
    rw [hempty]
    refine hv.between.rounds fun i hi block w w' hw => hw.skip fun x x' hx hclear => ?_
    refine hx.eatWord (fun _ y y' m _ hm hy => .pure ⟨hy.mono (by omega), rfl⟩) ?_
    refine .atEnd ?_
    obtain ⟨hnil, hnil'⟩ | ⟨next, hfacing⟩ := hx.clear hclear
    · rw [hnil, hnil']
      simp only [List.isEmpty_nil, if_true]
      rw [ρ.raw_of_kind ht rfl, ρ.location_token, ρ.line_place]
      exact (hx.failHere (P := fun _ _ _ _ => False) fun _ => rfl).bind fun _ _ _ _ h => h.elim
    · obtain ⟨ts, ts', hs, hs', -⟩ := hfacing.next
      rw [hs, hs']
      refine (hnext block next (hi.trans_lt hj) hfacing).bind ?_
      rintro b _ y y' ⟨hy, rfl⟩
      exact .pure ⟨hy, rfl⟩
  · rintro filled _ w w' ⟨hw, rfl⟩
    obtain ⟨site', kind', attrs', items⟩ := filled
    exact hw.spanFrom fun l => .pure ⟨hw, by simp [Site.relocate]⟩

/-! ## Signatures -/

theorem repeats_outputs (hd : d.Sound) (h : ρ.At k d.deeper true s s') :
    ρ.Repeats outputs s outputs s' (ρ.Done k d (List.map (Name.relocate ρ.place))) := by
  rw [outputs_eq]
  refine h.rounds (F := List.map (Name.relocate ρ.place)) (a := []) fun j hj names t t' ht =>
    .peekKind? ?_
  obtain ⟨hs, hs'⟩ | ⟨next, hnext⟩ := ht.inside (Nat.succ_pos _)
  · rw [hs, hs']
    exact ht.unexpected
  rw [hnext.current, hnext.current', Option.map_some, Option.map_some, ρ.kind_token]
  cases hk : next.kind
  case rbracket =>
    refine hnext.advance fun u u' i hi hu => .pure ?_
    rw [hk] at hu
    exact ⟨⟨i, hi.trans_le hj, hu⟩, rfl⟩
  case comma =>
    refine hnext.advance fun u u' i hi hu => .pure ?_
    rw [hk] at hu
    exact ⟨⟨i, hi, hu⟩, rfl⟩
  case identifier =>
    refine (reads_identifier (Nat.lt_succ_self j) hd.deeper ht).done fun n u u' i hi hu => .pure ?_
    exact ⟨⟨i, hi, hu⟩, by rw [List.map_append]; rfl⟩
  all_goals exact ht.unexpected

theorem repeats_signatureHead (h : ρ.At j .outside level s s') :
    ρ.Repeats signatureHead s signatureHead s'
      (ρ.Done j .outside (Prod.map (List.map (Name.relocate ρ.place))
        (Name.relocate ρ.place))) := by
  have hd := Depths.sound_outside
  refine h.eat (.inr rfl) (fun _ u u' i _ hi hu => ?_) ?_
  · refine (repeats_outputs hd hu).done fun names v v' m hm hv => ?_
    refine hv.discardExpect (.inr rfl) fun w w' n hn hw => ?_
    refine (reads_dottedName (Nat.lt_succ_self n) hd hw).done fun name x x' l hl hx => .pure ?_
    exact ⟨⟨l, by omega, hx⟩, rfl⟩
  · refine (reads_dottedName (Nat.lt_succ_self j) hd h).done fun first u u' i hi hu => .check ?_
    rw [hu.head_kind rfl]
    split
    · rename_i hhead
      rw [Name.identifier?_relocate, Name.site_relocate, Site.relocate_location]
      split
      · exact (Repeats.fail (P := fun _ _ _ _ => False) rfl rfl).bind fun _ _ _ _ h => h.elim
      · obtain ⟨sign, hsign, hfacing⟩ := hu.facing rfl hhead
        refine hfacing.advance fun v v' m hm hv => ?_
        rw [hsign] at hv
        refine (reads_dottedName (Nat.lt_succ_self m) hd hv).done fun name w w' n hn hw => .pure ?_
        exact ⟨⟨n, by omega, hw⟩, rfl⟩
    · exact .pure ⟨⟨i, hi, hu⟩, rfl⟩

theorem repeats_signature (start : Location) (h : ρ.At j .outside level s s') :
    ρ.Repeats (signature start) s (signature (ρ.place start)) s'
      (ρ.Done j .outside (Signature.relocate ρ.place)) := by
  refine (repeats_signatureHead h).done fun head u u' i hi hu => ?_
  obtain ⟨outs, name⟩ := head
  have hend : ∀ (ins : List Name) {m : Nat} {v v' : State}, m < j → ρ.At m .outside true v v' →
      ρ.Repeats (do return (⟨← siteFrom start, name, ins, outs⟩ : Signature)) v
        (do
          return (⟨← siteFrom (ρ.place start), name.relocate ρ.place,
            ins.map (Name.relocate ρ.place), outs.map (Name.relocate ρ.place)⟩ : Signature)) v'
        (ρ.Done j .outside (Signature.relocate ρ.place)) :=
    fun ins m v v' hm hv => hv.siteFrom fun site w w' hw => .pure ⟨⟨m, hm, hw⟩, rfl⟩
  refine hu.eat (.inr rfl) (fun _ v v' m _ hm hv => ?_) (hend [] hi hu)
  exact (repeats_parameters Depths.sound_outside hv).done fun ins w w' n hn hw =>
    hend ins (by omega) hw

/-! ## Runs of functions -/

def relocateEntry (place : Location → Location) (entry : RunEntry) : RunEntry :=
  ⟨entry.parent, entry.function.map (FunctionDef.relocate place)⟩

def relocateRun (place : Location → Location) (run : FunctionRun) : FunctionRun :=
  ⟨run.entries.map (relocateEntry place)⟩

section Runs

variable {place : Location → Location} (run : FunctionRun)

theorem size_relocateRun : (relocateRun place run).size = run.size := List.length_map _

theorem push_relocateRun (parent : Option Nat) :
    (relocateRun place run).push parent = relocateRun place (run.push parent) := by
  simp [relocateRun, FunctionRun.push, relocateEntry]

theorem fill_relocateRun (index : Nat) (f : FunctionDef) :
    (relocateRun place run).fill index (f.relocate place) =
      relocateRun place (run.fill index f) := by
  rw [FunctionRun.fill, FunctionRun.fill, relocateRun, relocateRun]
  refine congrArg FunctionRun.mk (List.ext_getElem? fun i => ?_)
  simp only [List.getElem?_modify, List.getElem?_map]
  split
  · cases run.entries[i]? <;> rfl
  · cases run.entries[i]? <;> rfl

theorem filled_relocateRun :
    (relocateRun place run).filled = run.filled.map (FunctionDef.relocate place) := by
  rw [FunctionRun.filled, FunctionRun.filled, relocateRun, List.filterMap_map,
    List.map_filterMap]
  rfl

theorem nestFrom_relocate (index : Nat) (entries : List RunEntry) :
    FunctionRun.nestFrom index (entries.map (relocateEntry place)) =
      (FunctionRun.nestFrom index entries).map (Prod.map id (FunctionDef.relocate place)) := by
  induction entries generalizing index with
  | nil => rfl
  | cons entry entries ih =>
    obtain ⟨parent, function⟩ := entry
    rw [List.map_cons, FunctionRun.nestFrom, FunctionRun.nestFrom, ih]
    cases function with
    | none => rfl
    | some f =>
      obtain ⟨site, signature, validation, body, nested, terminated⟩ := f
      simp only [relocateEntry, Option.map_some, List.filter_map, List.map_map, List.map_cons,
        Prod.map, FunctionDef.relocate, relocateFunctions_eq_map, List.map_append, List.map_reverse]
      rfl

theorem resolve_relocateRun :
    (relocateRun place run).resolve = run.resolve.map (FunctionDef.relocate place) := by
  have hterminated : (FunctionDef.terminated ∘ FunctionDef.relocate place) =
      FunctionDef.terminated := by
    funext f
    cases f
    rfl
  rw [FunctionRun.resolve, FunctionRun.resolve, filled_relocateRun, List.any_map, hterminated]
  split
  · rw [FunctionRun.nest_eq, FunctionRun.nest_eq, relocateRun, nestFrom_relocate, List.map_map,
      List.map_map]
    rfl
  · rfl

end Runs

/-! ## Open functions -/

def relocateOpen (ρ : Relayout) (f : OpenFunction) : OpenFunction :=
  { f with
    opener := ρ.token f.opener
    signature := f.signature.relocate ρ.place
    validation := f.validation.map (Block.relocate ρ.place)
    body := f.body.map (Stmt.relocate ρ.place) }

theorem finish_relocateOpen (f : OpenFunction) (terminated : Bool) :
    (relocateOpen ρ f).finish terminated = (f.finish terminated).relocate ρ.place := by
  simp [relocateOpen, OpenFunction.finish, Site.relocate]

theorem shownName_relocateOpen (f : OpenFunction) : (relocateOpen ρ f).shownName = f.shownName := by
  simp [relocateOpen, OpenFunction.shownName, Signature.relocate]

theorem repeats_validationBlocks (h : ρ.Between k s s') :
    ρ.Repeats validationBlocks s validationBlocks s' fun blocks blocks' t t' =>
      ρ.At k .outside false t t' ∧ blocks' = blocks.map (Block.relocate ρ.place) := by
  rw [validationBlocks_eq]
  refine h.rounds (F := List.map (Block.relocate ρ.place)) (a := []) fun j hj blocks t t' ht => ?_
  refine ht.skip fun u u' hu _ => hu.eatWord (fun opener v v' i hopener hi hv => ?_) ?_
  · refine (repeats_block (adds_property (k := j)) hopener hi hv).stay fun block w w' hw => .pure ?_
    exact ⟨⟨i, hi, hw.between⟩, by simp⟩
  · exact .pure ⟨hu.mono hj, rfl⟩

theorem repeats_openFunction (run : FunctionRun) (parent : Option Nat)
    (h : ρ.At j .outside true s s') :
    ρ.Repeats (openFunction run parent opener) s
      (openFunction (relocateRun ρ.place run) parent (ρ.token opener)) s' fun r r' t t' =>
        ρ.At j .outside false t t' ∧ r' = Prod.map (relocateOpen ρ) (relocateRun ρ.place) r := by
  rw [openFunction, openFunction, ρ.location_token]
  refine h.freshId fun id u u' hu => ?_
  refine (repeats_signature opener.location hu).done fun signature v v' i hi hv => .get ?_
  rw [hv.methodDepth]
  refine hv.modified ⟨fun _ _ _ => rfl, fun _ => rfl⟩ fun hw => ?_
  refine (repeats_validationBlocks hw.between).bind ?_
  rintro validation _ x x' ⟨hx, rfl⟩
  refine .pure ⟨hx.mono hi.le, ?_⟩
  rw [size_relocateRun, push_relocateRun]
  rfl

theorem repeats_closeWithEnd (f : OpenFunction) (run : FunctionRun) (hs : s.Clear)
    (h : ρ.At j .outside level s s') :
    ρ.Repeats (closeWithEnd f run) s (closeWithEnd (relocateOpen ρ f) (relocateRun ρ.place run)) s'
      fun r r' t t' => (∃ i < j, ρ.Between i t t') ∧ r' = relocateRun ρ.place r := by
  have hrest : ∀ {i : Nat} {u u' : State}, i < j → ρ.At i .outside true u u' → ρ.Repeats
      (do
        endStatement
        popFrame
        return run.fill f.index (f.finish true)) u
      (do
        endStatement
        popFrame
        return (relocateRun ρ.place run).fill f.index ((relocateOpen ρ f).finish true)) u'
      fun r r' t t' => (∃ i < j, ρ.Between i t t') ∧ r' = relocateRun ρ.place r := by
    intro i u u' hi hu
    refine (repeats_endStatement hu).bind fun _ _ v v' hv => ?_
    refine Repeats.of_eq (.pure ⟨⟨i, hi, hv.change
      (fun st => { st with frames := st.frames.tail })
        ⟨fun _ _ _ => rfl, fun _ => rfl⟩⟩, ?_⟩) rfl rfl
    rw [finish_relocateOpen, fill_relocateRun]
  refine h.eatWord (fun _ u u' i _ hi hu => ?_) (.current? ?_)
  · have hmethod : (relocateOpen ρ f).inMethod = f.inMethod := rfl
    rw [hmethod]
    cases f.inMethod with
    | true => exact hrest hi hu
    | false => exact hu.modified ⟨fun _ _ _ => rfl, fun _ => rfl⟩ fun hused => hrest hi hused
  · obtain ⟨hnil, hnil'⟩ | ⟨next, hnext⟩ := h.clear hs
    · rw [hnil, hnil']
      exact (h.unexpected (P := fun _ _ _ _ => False)).bind fun _ _ _ _ h => h.elim
    · obtain ⟨ts, _, hahead, -⟩ := hnext.next
      rw [hnext.current, hnext.current']
      dsimp only
      rw [ρ.location_token, ρ.raw_token next (hs next (by rw [hahead]; rfl))]
      exact (Repeats.fail (P := fun _ _ _ _ => False) rfl rfl).bind fun _ _ _ _ h => h.elim

theorem repeats_closeAtEndOfFile (functions : List OpenFunction) (run : FunctionRun)
    (h : ρ.At j .outside level s s') :
    ρ.Repeats (closeAtEndOfFile functions run) s
      (closeAtEndOfFile (functions.map (relocateOpen ρ)) (relocateRun ρ.place run)) s'
      fun r r' t t' => ρ.At j .outside level t t' ∧ r' = relocateRun ρ.place r := by
  have hfind : ∀ used : Bool,
      (functions.map (relocateOpen ρ)).find? (fun f => f.inMethod || used) =
        (functions.find? fun f => f.inMethod || used).map (relocateOpen ρ) :=
    fun used => List.find?_map
  have hfold : (functions.map (relocateOpen ρ)).foldl
      (fun run f => run.fill f.index (f.finish false)) (relocateRun ρ.place run) =
        relocateRun ρ.place
          (functions.foldl (fun run f => run.fill f.index (f.finish false)) run) := by
    induction functions generalizing run with
    | nil => rfl
    | cons f functions ih =>
      rw [List.map_cons, List.foldl_cons, List.foldl_cons, finish_relocateOpen, ← ih]
      · rw [← fill_relocateRun]
        rfl
      · exact fun used => List.find?_map
  rw [closeAtEndOfFile, closeAtEndOfFile]
  refine .get ?_
  dsimp only
  rw [h.endUsed, hfind]
  cases functions.find? fun f => f.inMethod || s.endUsed with
  | none => exact .pure ⟨h, hfold⟩
  | some f =>
    rw [Option.map_some]
    dsimp only
    rw [shownName_relocateOpen]
    refine .fail (ρ.location_token f.opener) ?_
    change (if f.inMethod then _ else _) = _
    cases f.inMethod <;> rfl

/-! ## Bodies -/

def relocateOpened (ρ : Relayout) (soFar : RunSoFar) : RunSoFar :=
  ⟨relocateOpen ρ soFar.current, soFar.enclosing.map (relocateOpen ρ),
    relocateRun ρ.place soFar.run⟩

theorem repeats_functionRound (soFar : RunSoFar) (h : ρ.Between j s s') :
    ρ.Repeats (functionRound soFar) s (functionRound (relocateOpened ρ soFar)) s'
      (Turns ρ.Between j (relocateOpened ρ) fun r r' t t' =>
        ρ.Between j t t' ∧ r' = relocateRun ρ.place r) := by
  refine (repeats_statements h).bind ?_
  rintro body _ u u' ⟨hclear, hu, rfl⟩
  set current : OpenFunction := { soFar.current with body := soFar.current.body ++ body }
  have hcurrent : relocateOpen ρ current =
      { relocateOpen ρ soFar.current with
        body := (relocateOpen ρ soFar.current).body ++ body.map (Stmt.relocate ρ.place) } := by
    simp [relocateOpen, current]
  simp only [relocateOpened, ← hcurrent]
  refine hu.eatWord (fun opener v v' i hopener hi hv => ?_) (.atEnd ?_)
  · refine (repeats_openFunction soFar.run (some current.index) hv).bind ?_
    rintro ⟨inner, run⟩ _ w w' ⟨hw, rfl⟩
    exact .pure ⟨⟨i, hi, hw.between⟩, rfl⟩
  obtain ⟨hnil, hnil'⟩ | ⟨next, hfacing⟩ := hu.clear hclear
  · rw [hnil, hnil']
    refine (repeats_closeAtEndOfFile (current :: soFar.enclosing) soFar.run hu).bind ?_
    rintro run _ v v' ⟨hv, rfl⟩
    exact .pure ⟨hv.between, rfl⟩
  · obtain ⟨ts, ts', hs, hs', -⟩ := hfacing.next
    rw [hs, hs']
    refine (repeats_closeWithEnd current soFar.run hclear hu).bind ?_
    rintro run _ v v' ⟨⟨i, hi, hv⟩, rfl⟩
    cases soFar.enclosing with
    | nil => exact .pure ⟨hv.mono hi.le, rfl⟩
    | cons parent enclosing => exact .pure ⟨⟨i, hi, hv⟩, rfl⟩

theorem repeats_function (run : FunctionRun) (h : ρ.At j .outside true s s') :
    ρ.Repeats (function run opener) s (function (relocateRun ρ.place run) (ρ.token opener)) s'
      fun r r' t t' => ρ.Between j t t' ∧ r' = relocateRun ρ.place r := by
  refine Repeats.bracketed (P := fun r r' t t' => ρ.Between j t t' ∧ r' = relocateRun ρ.place r)
    ?_ ?_
  · refine (repeats_openFunction run none h).bind ?_
    rintro ⟨first, run⟩ _ u u' ⟨hu, rfl⟩
    refine hu.between.rounds (F := relocateOpened ρ) (a := RunSoFar.mk first [] run)
      fun i hi soFar v v' hv => (repeats_functionRound soFar hv).mono fun r r' w w' hr => ?_
    cases r <;> cases r'
    case again.again => exact hr
    case done.done => exact ⟨hr.1.mono hi, hr.2⟩
    all_goals exact hr.elim
  · rintro r _ t t' ⟨ht, rfl⟩
    rw [h.frames]
    exact ⟨ht.change (fun st => { st with
      frames := st.frames.drop (st.frames.length - s.frames.length) })
      ⟨fun _ _ _ => rfl, fun _ => rfl⟩, rfl⟩

theorem repeats_localRound (run : FunctionRun) (h : ρ.Between j s s') :
    ρ.Repeats (localRound run) s (localRound (relocateRun ρ.place run)) s'
      (Turns ρ.Between j (relocateRun ρ.place) fun r r' t t' =>
        t'.file = t.file ∧ r' = relocateRun ρ.place r) := by
  refine h.skip fun u u' hu hclear => hu.eatWord (fun opener v v' i _ hi hv => ?_) (.current? ?_)
  · refine (repeats_function run hv).bind ?_
    rintro run _ w w' ⟨hw, rfl⟩
    exact .pure ⟨⟨i, hi, hw⟩, rfl⟩
  · obtain ⟨hnil, hnil'⟩ | ⟨next, hnext⟩ := hu.clear hclear
    · rw [hnil, hnil']
      exact .pure ⟨hu.file, rfl⟩
    · obtain ⟨ts, _, hahead, -⟩ := hnext.next
      rw [hnext.current, hnext.current']
      dsimp only
      rw [ρ.isCloser_token, ρ.location_token, ρ.raw_token next (hclear next (by rw [hahead]; rfl))]
      split
      · exact .fail rfl rfl
      · exact hu.failHere fun _ => rfl

theorem repeats_localFunctions (h : ρ.Between j s s') :
    ρ.Repeats localFunctions s localFunctions s'
      fun fs fs' t t' => t'.file = t.file ∧ fs' = fs.map (FunctionDef.relocate ρ.place) := by
  rw [localFunctions_eq]
  refine (h.rounds (F := relocateRun ρ.place) (a := {}) fun i _ run t t' ht =>
    repeats_localRound run ht).bind ?_
  rintro run _ t t' ⟨hfile, rfl⟩
  exact .pure ⟨hfile, resolve_relocateRun run⟩

end Relayout

end MFile.Grammar
