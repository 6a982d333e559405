import MFile.Grammar.File
import MFile.Proofs.Grammar.Functions.EndOptional
import MFile.Proofs.Grammar.Placement.Statements

/-!
Whole files. Each function has a frame of its own while its body is read, however many functions
are open around it, so no loop outside of it is seen inside; and the blocks of classes and
functions are of kinds that belong there and hold what their kinds take.
-/

namespace MFile

namespace Grammar.Parse

variable {loop index : Bool}

/-! ## Declarations -/

theorem yields_optArguments {opener close : Kind} :
    Yields loop index (optArguments opener close) (AllPlaced loop true .expr) := by
  refine still_check.bind fun found => ?_
  split
  · exact yields_arguments yields_expression
  · exact .pure .nil

theorem yields_optName :
    Yields loop index optName fun n => AllPlaced loop index .name n.toList := by
  refine still_check.bind fun found => ?_
  split
  · exact (yields_dottedName _ _).some
  · exact .pure .nil

theorem yields_optValue :
    Yields loop index optValue fun e => AllPlaced loop index .expr e.toList := by
  refine still_eatIf.bind fun found => ?_
  split
  · exact (yields_expression _ _).some
  · exact .pure .nil

theorem yields_optAttributes : Yields loop index optAttributes (AllPlaced loop index .attr) := by
  refine still_check.bind fun found => ?_
  split
  · rw [attributes_eq]
    refine still_advance.bind fun _ => .rounds (AllPlaced loop index .attr) .nil fun as has => ?_
    refine still_eatIf.bind fun closed => ?_
    split
    · exact .pure has
    have hone : Yields loop index oneAttribute fun a => Node.Placed loop index (.attr a) := by
      refine still_here.bind fun _ => still_eatIf.bind fun _ => still_expect.bind fun name => ?_
      refine yields_optValue.bind fun e he => still_siteFrom.bind fun _ => .pure ?_
      exact Node.placed_iff.2 (by simpa [AllPlaced] using he)
    split
    · exact (still_discard still_expect).bind fun _ => hone.bind fun a ha => .pure (has.concat ha)
    · exact hone.bind fun a ha => .pure (has.concat ha)
  · exact .pure .nil

theorem yields_property :
    Yields loop index property fun p => Node.Placed loop index (.property p) := by
  rw [property_eq]
  refine still_here.bind fun _ => (yields_dottedName _ _).bind fun n hn => ?_
  refine yields_optArguments.bind fun dimensions hdimensions => ?_
  refine yields_optName.bind fun cls hcls => ?_
  refine yields_optArguments.bind fun validators hvalidators => yields_optValue.bind fun e he => ?_
  refine still_siteFrom.bind fun _ => .pure (Node.placed_iff.2 ?_)
  simpa [AllPlaced, or_imp, forall_and, hn] using
    And.intro hdimensions (And.intro hcls (And.intro hvalidators he))

/-! ## Items -/

structure BlockPlaced (loop index : Bool) (kind : BlockKind) (b : Block) : Prop where
  placed : Node.Placed loop index (.block b)
  kind : b.kind = kind

theorem BlockPlaced.add {kind : BlockKind} {b b' : Block} {item : BlockItem}
    (hb : BlockPlaced loop index kind b) (hitem : (Node.ofItem item).2.Placed loop index)
    (hadd : b.add item = .ok b') : BlockPlaced loop index kind b' := by
  rw [Block.add] at hadd
  split at hadd
  · rename_i haccepts
    cases hadd
    have hfits := (Node.placed_iff.1 hb.placed).1
    refine ⟨hb.placed.more ?_ rfl rfl fun c hc => ?_, hb.kind⟩
    · rw [Node.fits, List.all_append, Bool.and_eq_true]
      exact ⟨hfits, by simpa using haccepts⟩
    · rw [Node.children, List.map_append, ← List.append_assoc] at hc
      refine (List.mem_append.1 hc).imp id fun hc => ?_
      rw [List.map_singleton, List.mem_singleton] at hc
      subst hc
      cases item <;> exact hitem
  · cases hadd

theorem yields_addItem {kind : BlockKind} {b : Block} (start : Location) (item : BlockItem)
    (hb : BlockPlaced loop index kind b) (hitem : (Node.ofItem item).2.Placed loop index) :
    Yields loop index (addItem start b item) (BlockPlaced loop index kind) := by
  rw [addItem]
  split
  · rename_i b' hadd
    exact .pure (hb.add hitem hadd)
  · exact .failing fun _ _ _ => throw_ok

theorem yields_addStatement {kind : BlockKind} {b : Block} (start : Location) (item : BlockItem)
    (hb : BlockPlaced loop index kind b) (hitem : (Node.ofItem item).2.Placed loop index) :
    Yields loop index (addStatement start b item) (BlockPlaced loop index kind) :=
  (yields_addItem start item hb hitem).bind fun _ hb' => still_endStatement.bind fun _ => .pure hb'

abbrev AddsPlaced (loop index : Bool) (addNext : Block → Parse Block) : Prop :=
  ∀ kind b, BlockPlaced loop index kind b →
    Yields loop index (addNext b) (BlockPlaced loop index kind)

theorem addsPlaced_addProperty : AddsPlaced loop index addProperty :=
  fun _ _ hb => still_here.bind fun start => yields_property.bind fun p hp =>
    yields_addStatement start (.property p) hb hp

theorem yields_block {addNext : Block → Parse Block} (h : AddsPlaced loop index addNext)
    (kind : BlockKind) (opener : Token) :
    Yields loop index (block kind opener addNext) (BlockPlaced loop index kind) := by
  rw [block_eq]
  refine yields_optAttributes.bind fun attrs hattrs => still_siteAt.bind fun site => ?_
  refine Yields.bind (P := BlockPlaced loop index kind)
    (.rounds (BlockPlaced loop index kind) ?_ fun b hb => ?_) fun b hb =>
      still_spanFrom.bind fun _ => .pure ⟨?_, hb.kind⟩
  · exact ⟨Node.placed_iff.2 (by simpa [AllPlaced] using hattrs), rfl⟩
  · refine still_skipSeparators.bind fun _ => still_eatIf.bind fun closed => ?_
    split
    · exact .pure hb
    refine still_atEnd.bind fun done => ?_
    split
    · refine .failing fun _ _ _ hrun => ?_
      obtain ⟨_, _, hrun, -⟩ := bind_ok hrun
      exact failHere_ok hrun
    · exact (h kind b hb).bind fun b' hb' => .pure hb'
  · exact hb.placed.more (Node.placed_iff.1 hb.placed).1 rfl rfl fun _ hc => .inl hc

/-! ## Signatures -/

theorem yields_outputs : Yields loop index outputs (AllPlaced loop index .name) := by
  refine .rounds (AllPlaced loop index .name) .nil fun ns hns => still_peekKind?.bind fun kind => ?_
  split
  · exact still_advance.bind fun _ => .pure hns
  · exact still_advance.bind fun _ => .pure hns
  · exact (yields_identifier _ _).bind fun n hn => .pure (hns.concat hn)
  · exact .failing fun _ _ _ => unexpected_ok

theorem yields_signature (start : Location) :
    Yields loop index (signature start) fun sig => Node.Placed loop index (.signature sig) := by
  have hhead : Yields loop index signatureHead fun head =>
      AllPlaced loop index .name head.1 ∧ Node.Placed loop index (.name head.2) := by
    refine still_eatIf.bind fun bracket => ?_
    split
    · exact yields_outputs.bind fun outs houts => (still_discard still_expect).bind fun _ =>
        (yields_dottedName _ _).bind fun n hn => .pure ⟨houts, hn⟩
    refine (yields_dottedName _ _).bind fun first hfirst => still_check.bind fun equals => ?_
    split
    · have hname : Yields loop index (do
          advance
          return ([first], ← dottedName)) fun head =>
            AllPlaced loop index .name head.1 ∧ Node.Placed loop index (.name head.2) :=
        still_advance.bind fun _ => (yields_dottedName _ _).bind fun n hn =>
          .pure ⟨List.forall_mem_singleton.2 hfirst, hn⟩
      split
      · refine .failing fun _ _ _ hrun => ?_
        obtain ⟨_, _, hrun, -⟩ := bind_ok hrun
        exact fail_ok hrun
      · exact hname
    · exact .pure ⟨.nil, hfirst⟩
  refine hhead.bind fun head hhead => still_eatIf.bind fun paren => ?_
  have hend : ∀ ins, AllPlaced loop index .name ins → Yields loop index
      (do return Signature.mk (← siteFrom start) head.2 ins head.1)
      fun sig => Node.Placed loop index (.signature sig) := by
    refine fun ins hins => still_siteFrom.bind fun _ => .pure (Node.placed_iff.2 ?_)
    simpa [AllPlaced, or_imp, forall_and] using And.intro hhead.1 (And.intro hhead.2 hins)
  dsimp only
  split
  · exact yields_parameters.bind fun ins hins => hend ins hins
  · exact hend [] .nil

theorem yields_validationBlocks : Yields loop index validationBlocks fun bs =>
    ∀ b ∈ bs, BlockPlaced loop index .arguments b := by
  rw [validationBlocks_eq]
  refine .rounds (fun bs => ∀ b ∈ bs, BlockPlaced loop index .arguments b) (List.forall_mem_nil _)
    fun bs hbs => still_skipSeparators.bind fun _ => still_eatIf.bind fun found => ?_
  cases found with
  | some opener =>
    refine (yields_block addsPlaced_addProperty .arguments opener).bind fun b hb => .pure ?_
    exact List.forall_mem_append.2 ⟨hbs, List.forall_mem_singleton.2 hb⟩
  | none => exact .pure hbs

/-! ## Functions -/

theorem placed_function_iff {f : FunctionDef} : Node.Placed loop index (.function f) ↔
    Node.Placed false index (.function f) := by
  rw [Node.placed_iff, Node.placed_iff]
  rfl

structure FunctionPlaced (index : Bool) (f : FunctionDef) : Prop where
  placed : Node.Placed false index (.function f)
  flat : f.nested = []

structure OpenPlaced (index : Bool) (f : OpenFunction) : Prop where
  signature : Node.Placed false index (.signature f.signature)
  validation : ∀ b ∈ f.validation, BlockPlaced false index .arguments b
  body : AllPlaced false index .stmt f.body

def RunPlaced (index : Bool) (run : FunctionRun) : Prop :=
  ∀ e ∈ run.entries, ∀ f ∈ e.function, FunctionPlaced index f

theorem OpenPlaced.finish {f : OpenFunction} (h : OpenPlaced index f) (terminated : Bool) :
    FunctionPlaced index (f.finish terminated) := by
  refine ⟨Node.placed_iff.2 ⟨?_, ?_⟩, rfl⟩
  · rw [Node.fits, List.all_eq_true]
    exact fun b hb => beq_iff_eq.2 (h.validation b hb).kind
  · have hvalidation : AllPlaced false index .block f.validation :=
      fun b hb => (h.validation b hb).placed
    simpa [AllPlaced, or_imp, forall_and, OpenFunction.finish] using
      And.intro h.signature (And.intro hvalidation h.body)

theorem FunctionPlaced.nest {f : FunctionDef} {inner : List FunctionDef}
    (h : FunctionPlaced index f) (hinner : AllPlaced false index .function inner) :
    Node.Placed false index (.function { f with nested := inner }) := by
  refine h.placed.more (Node.placed_iff.1 h.placed).1 rfl rfl fun c hc => ?_
  refine (FunctionRun.mem_children_nest hc).imp_right fun hnested => ?_
  obtain ⟨g, hg, rfl⟩ := hnested
  exact hinner g hg

namespace RunPlaced

variable {run : FunctionRun} {f : OpenFunction}

theorem empty : RunPlaced index {} := FunctionRun.Every.empty

theorem push (h : RunPlaced index run) (parent : Option Nat) : RunPlaced index (run.push parent) :=
  FunctionRun.Every.push h parent

theorem fill (h : RunPlaced index run) (hf : OpenPlaced index f) (i : Nat) (terminated : Bool) :
    RunPlaced index (run.fill i (f.finish terminated)) :=
  FunctionRun.Every.fill h (hf.finish terminated) i

theorem fill_all {fs : List OpenFunction} (h : RunPlaced index run)
    (hfs : ∀ f ∈ fs, OpenPlaced index f) :
    RunPlaced index (fs.foldl (fun run f => run.fill f.index (f.finish false)) run) :=
  FunctionRun.Every.fill_all h fun f hf => (hfs f hf).finish false

theorem resolve (h : RunPlaced index run) : AllPlaced loop index .function run.resolve := by
  intro f hf
  rw [placed_function_iff]
  refine FunctionRun.Every.resolve h (fun _ _ hf => hf.nest) (fun f hf g hg => ?_)
    (fun _ hf => hf.placed) f hf
  exact absurd hg (hf.flat ▸ List.not_mem_nil)

end RunPlaced

/-! ## Runs of functions -/

theorem openFunction_placed {s s' : State} {run run' : FunctionRun} {parent : Option Nat}
    {opener : Token} {f : OpenFunction} (hs : s.Around loop index) (hrun : RunPlaced index run)
    (h : openFunction run parent opener s = .ok (f, run') s') :
    s'.frames = .function :: s.frames ∧ s'.indexDepth = s.indexDepth ∧ OpenPlaced index f ∧
      RunPlaced index run' := by
  obtain ⟨id, s₁, sig, s₂, validation, hid, hsig, hvalidation, hf⟩ := openFunction_ok h
  have h₁ := still_freshId hid
  obtain ⟨h₂, hsignature⟩ := yields_signature opener.location (h₁.around hs) hsig
  have hmid := h₁.trans h₂
  have hinside : State.Around false index { s₂ with frames := .function :: s₂.frames } :=
    ⟨rfl, (hmid.around hs).depth⟩
  obtain ⟨h₃, hblocks⟩ := yields_validationBlocks hinside hvalidation
  cases hf
  exact ⟨h₃.frames.trans (congrArg _ hmid.frames), h₃.depth.trans hmid.depth,
    ⟨hsignature.in_loop rfl, hblocks, .nil⟩, hrun.push _⟩

/-- Some functions are open, each with its frame, on top of the frames of `base`. -/
structure State.Inside (base : State) (opens : Nat) (s : State) : Prop where
  frames : s.frames = List.replicate opens .function ++ base.frames
  depth : s.indexDepth = base.indexDepth

structure Running (index : Bool) (base : State) (soFar : RunSoFar) (s : State) : Prop where
  inside : State.Inside base (soFar.enclosing.length + 1) s
  opens : ∀ f ∈ soFar.current :: soFar.enclosing, OpenPlaced index f
  run : RunPlaced index soFar.run

variable {base s s' : State}

theorem Running.around {soFar : RunSoFar} (hbase : base.Around loop index)
    (h : Running index base soFar s) : s.Around false index := by
  constructor
  · rw [h.inside.frames, List.replicate_succ]
    rfl
  · rw [h.inside.depth, hbase.depth]

theorem closeWithEnd_inside {f : OpenFunction} {run run' : FunctionRun} {n : Nat}
    (hs : State.Inside base (n + 1) s) (h : closeWithEnd f run s = .ok run' s') :
    State.Inside base n s' ∧ run' = run.fill f.index (f.finish true) := by
  obtain ⟨e, s₁, s₂, heat, hend, rfl, rfl⟩ := closeWithEnd_ok h
  have h₁ := still_eatIf heat
  have hused : (useEnd f s₁).frames = s₁.frames ∧ (useEnd f s₁).indexDepth = s₁.indexDepth := by
    rw [useEnd]
    split <;> exact ⟨rfl, rfl⟩
  have h₂ := still_endStatement hend
  refine ⟨⟨?_, ?_⟩, rfl⟩
  · rw [h₂.frames, hused.1, h₁.frames, hs.frames]
    rfl
  · rw [h₂.depth, hused.2, h₁.depth, hs.depth]

theorem functionRound_placed (hbase : base.Around loop index) : Keeps functionRound
    (Running index base)
    fun run st => (∃ n, State.Inside base n st) ∧ RunPlaced index run := by
  intro soFar s r s' hsoFar hround
  obtain ⟨body, mid, hbody, hcases⟩ := functionRound_ok hround
  obtain ⟨hmid, hstmts⟩ := yields_statements (hsoFar.around hbase) hbody
  obtain ⟨hcurrent, henclosing⟩ := List.forall_mem_cons.1 hsoFar.opens
  have hinside : State.Inside base (soFar.enclosing.length + 1) mid :=
    ⟨hmid.frames.trans hsoFar.inside.frames, hmid.depth.trans hsoFar.inside.depth⟩
  have hlonger : OpenPlaced index { soFar.current with body := soFar.current.body ++ body } :=
    { hcurrent with body := List.forall_mem_append.2 ⟨hcurrent.body, hstmts⟩ }
  have hopens := List.forall_mem_cons.2 ⟨hlonger, henclosing⟩
  rcases hcases with ⟨opener, s₁, inner, run, heat, hopen, rfl⟩ | ⟨-, run, hclose, rfl⟩ |
    ⟨run, -, hclose, rfl⟩
  · have hword := still_eatIf heat
    have haround := (hmid.trans hword).around (hsoFar.around hbase)
    obtain ⟨hframes, hdepth, hinner, hrun⟩ := openFunction_placed haround hsoFar.run hopen
    refine ⟨⟨?_, ?_⟩, List.forall_mem_cons.2 ⟨hinner, hopens⟩, hrun⟩
    · rw [hframes, hword.frames, hinside.frames]
      rfl
    · rw [hdepth, hword.depth, hinside.depth]
  · obtain ⟨rfl, -, rfl⟩ := closeAtEndOfFile_ok hclose
    exact ⟨⟨_, hinside⟩, hsoFar.run.fill_all hopens⟩
  · obtain ⟨hclosed, rfl⟩ := closeWithEnd_inside hinside hclose
    have hfilled := hsoFar.run.fill hlonger soFar.current.index true
    cases hparents : soFar.enclosing with
    | nil => exact ⟨⟨_, hclosed⟩, hfilled⟩
    | cons parent enclosing =>
      rw [hparents] at hclosed henclosing
      exact ⟨hclosed, henclosing, hfilled⟩

theorem yields_function {run : FunctionRun} (hrun : RunPlaced index run) (opener : Token) :
    Yields loop index (function run opener) (RunPlaced index) := by
  intro s run' s' hs h
  obtain ⟨first, run₁, s₁, s₂, hopen, hrounds, rfl⟩ := function_ok h
  obtain ⟨hframes, hdepth, hfirst, hrun₁⟩ := openFunction_placed hs hrun hopen
  obtain ⟨⟨n, hinside⟩, hrun'⟩ := (functionRound_placed hs).rounds
    ⟨⟨hframes, hdepth⟩, List.forall_mem_singleton.2 hfirst, hrun₁⟩ hrounds
  refine ⟨⟨?_, hinside.depth⟩, hrun'⟩
  simp [hinside.frames]

theorem yields_localFunctions :
    Yields loop index localFunctions (AllPlaced loop index .function) := by
  rw [localFunctions_eq]
  refine Yields.bind (P := RunPlaced index) (.rounds (RunPlaced index) .empty fun run hrun => ?_)
    fun run hrun => .pure hrun.resolve
  intro s r s' hs hround
  obtain ⟨mid, hskip, hcases⟩ := localRound_ok hround
  have hmid := still_skipSeparators hskip
  rcases hcases with ⟨opener, s₁, run', heat, hfunction, rfl⟩ | ⟨-, rfl, rfl⟩
  · have h₁ := hmid.trans (still_eatIf heat)
    obtain ⟨h₂, hrun'⟩ := yields_function hrun opener (h₁.around hs) hfunction
    exact ⟨h₁.trans h₂, hrun'⟩
  · exact ⟨hmid, hrun⟩

/-! ## Classes -/

theorem Yields.inMethods {α : Type} {p : Parse α} {P : α → Prop} (h : Yields loop index p P) :
    Yields loop index (Parse.inMethods p) P := by
  intro s a s' hs hrun
  rw [Parse.inMethods, bracketed] at hrun
  split at hrun
  · rename_i hp
    cases hrun
    obtain ⟨hmid, ha⟩ := h (s := { s with methodDepth := s.methodDepth + 1 })
      ⟨hs.frames, hs.depth⟩ hp
    exact ⟨⟨hmid.frames, hmid.depth⟩, ha⟩
  · cases hrun

theorem yields_addMethods {kind : BlockKind} (start : Location) (fs : List FunctionDef)
    (hfs : AllPlaced loop index .function fs) {b : Block} (hb : BlockPlaced loop index kind b) :
    Yields loop index (fs.foldlM (fun b method => addItem start b (.method method)) b)
      (BlockPlaced loop index kind) := by
  induction fs generalizing b with
  | nil => exact .pure hb
  | cons f fs ih =>
    obtain ⟨hf, hfs⟩ := List.forall_mem_cons.1 hfs
    rw [List.foldlM_cons]
    exact (yields_addItem start (.method f) hb hf).bind fun b' hb' => ih hfs hb'

theorem addsPlaced_addNext (kind : BlockKind) : AddsPlaced loop index (addNext kind) := by
  cases kind with
  | properties | arguments => exact addsPlaced_addProperty
  | methods =>
    refine fun kind b hb => still_here.bind fun start => still_eatIf.bind fun found => ?_
    cases found with
    | some opener =>
      exact (yields_function .empty opener).inMethods.bind fun run hrun =>
        yields_addMethods start run.resolve hrun.resolve hb
    | none =>
      exact (yields_signature start).bind fun sig hsig =>
        yields_addStatement start (.signature sig) hb hsig
  | events =>
    refine fun kind b hb => still_here.bind fun start => (yields_identifier _ _).bind fun n hn => ?_
    refine still_siteAt.bind fun site => yields_addStatement start (.event ⟨site, n⟩) hb ?_
    exact Node.placed_iff.2 (by simp [Node.ofItem, hn])
  | enumeration =>
    refine fun kind b hb => still_here.bind fun start => (yields_identifier _ _).bind fun n hn => ?_
    have hadd : ∀ es, AllPlaced loop true .expr es → Yields loop index
        (do addStatement start b (.enumerator ⟨← siteFrom start, n, es⟩))
        (BlockPlaced loop index kind) := by
      refine fun es hes => still_siteFrom.bind fun site => ?_
      refine yields_addStatement start (.enumerator ⟨site, n, es⟩) hb ?_
      exact Node.placed_iff.2 (by simpa [AllPlaced, Node.ofItem, hn] using hes)
    refine still_check.bind fun paren => ?_
    split
    · exact (yields_arguments yields_expression).bind fun es hes => hadd es hes
    · exact hadd [] .nil

def ClassBlock (loop index : Bool) (b : Block) : Prop :=
  Node.Placed loop index (.block b) ∧ b.kind ≠ .arguments

theorem yields_classBlocks (opener : Token) : Yields loop index (classBlocks opener) fun bs =>
    ∀ b ∈ bs, ClassBlock loop index b := by
  rw [classBlocks_eq]
  refine .rounds (fun bs => ∀ b ∈ bs, ClassBlock loop index b) (List.forall_mem_nil _)
    fun bs hbs => still_skipSeparators.bind fun _ => still_eatIf.bind fun closed => ?_
  split
  · exact still_endStatement.bind fun _ => .pure hbs
  refine still_current?.bind fun t => ?_
  cases t with
  | none => exact .failing fun _ _ _ => failHere_ok
  | some t =>
    dsimp only
    split
    · rename_i kind hkind
      refine still_advance.bind fun _ => (yields_block (addsPlaced_addNext kind) kind t).bind
        fun b hb => .pure ?_
      refine List.forall_mem_append.2 ⟨hbs, List.forall_mem_singleton.2 ⟨hb.placed, ?_⟩⟩
      rw [hb.kind]
      exact (ofWord?_word hkind).2.2
    · exact .failing fun _ _ _ => failHere_ok

theorem yields_superclasses : Yields loop index superclasses (AllPlaced loop index .name) := by
  rw [superclasses_eq]
  refine still_eatIf.bind fun found => ?_
  split
  · exact .pure .nil
  refine (yields_dottedName _ _).bind fun first hfirst => .rounds (AllPlaced loop index .name)
    (List.forall_mem_singleton.2 hfirst) fun ns hns => still_eatIf.bind fun found => ?_
  split
  · exact (yields_dottedName _ _).bind fun n hn => .pure (hns.concat hn)
  · exact .pure hns

theorem yields_classDef (opener : Token) :
    Yields loop index (classDef opener) fun c => Node.Placed loop index (.definition c) := by
  refine still_freshId.bind fun id => yields_optAttributes.bind fun attrs hattrs => ?_
  refine (yields_identifier _ _).bind fun n hn => yields_superclasses.bind fun supers hsupers => ?_
  refine still_spanFrom.bind fun place => (yields_classBlocks opener).bind fun bs hbs => .pure ?_
  refine Node.placed_iff.2 ⟨?_, ?_⟩
  · rw [Node.fits, List.all_eq_true]
    exact fun b hb => bne_iff_ne.2 (hbs b hb).2
  · have hblocks : AllPlaced loop index .block bs := fun b hb => (hbs b hb).1
    simpa [AllPlaced, or_imp, forall_and, hn] using
      And.intro hattrs (And.intro hsupers hblocks)

/-! ## Files -/

theorem yields_fileUnit :
    Yields false false fileUnit fun unit => Node.Placed false false (.unit unit) := by
  refine still_skipSeparators.bind fun _ => still_checkWord.bind fun found => ?_
  split
  · refine still_freshId.bind fun id => yields_localFunctions.bind fun fs hfs => ?_
    refine still_wholeFile.bind fun place => .pure (Node.placed_iff.2 ?_)
    simpa [AllPlaced] using hfs
  refine still_eatIf.bind fun found => ?_
  cases found with
  | some opener =>
    refine still_freshId.bind fun id => Yields.bind
      (P := fun c => Node.Placed false false (.definition c)) (.inFrame (yields_classDef opener))
        fun c hc => yields_localFunctions.bind fun fs hfs => ?_
    refine still_wholeFile.bind fun place => .pure (Node.placed_iff.2 ?_)
    simpa [AllPlaced, hc] using hfs
  | none =>
    refine still_freshId.bind fun id => yields_statements.bind fun body hbody => ?_
    refine yields_localFunctions.bind fun fs hfs => still_wholeFile.bind fun place => ?_
    exact .pure (Node.placed_iff.2 (by
      simpa [AllPlaced, or_imp, forall_and] using And.intro hbody hfs))

end Grammar.Parse

open Grammar Parse

namespace FileUnit

variable {file : String} {tokens : List Token} {unit : FileUnit} {way : Way} {node : Node}

/-- In the tree of a file that is accepted, `break` and `continue` stand in a loop with no function
in between, and `end` in an argument list with no lambda body and no dynamic field in between. Only
the last branch of an `if` can be an `else`, and blocks are of kinds that belong where they are
and hold what their kinds take. -/
theorem ofTokens_placement (h : ofTokens file tokens = .ok unit)
    (hnode : (Node.unit unit).Reaches way node) :
    (∀ site, node = .stmt (.breakLoop site) ∨ node = .stmt (.continueLoop site) →
      ∃ inner step outer, way = inner ++ step :: outer ∧ step.1.isLoop = true ∧
        ∀ between ∈ inner, between.1.isFunction = false) ∧
    (∀ site, node = .expr (.last site) →
      ∃ inner step outer, way = inner ++ step :: outer ∧ step.2.isArgument = true ∧
        ∀ between ∈ inner, leavesArguments between = false) ∧
    (∀ site branches, node = .stmt (.ifElse site branches) →
      ∃ first rest, branches = first :: rest ∧ first.head.isSome = true ∧
        ∀ c ∈ branches.dropLast, c.head.isSome = true) ∧
    (∀ c, node = .definition c → ∀ b ∈ c.blocks, b.kind ≠ .arguments) ∧
    (∀ f, node = .function f → ∀ b ∈ f.validation, b.kind = .arguments) ∧
    ∀ b, node = .block b → ∀ item ∈ b.items, b.kind.accepts item = true := by
  obtain ⟨st, hparse⟩ := outcome_ok h
  have hfits := (yields_fileUnit ⟨rfl, rfl⟩ hparse).2 way node hnode
  refine ⟨?_, ?_, ?_, ?_, ?_, ?_⟩
  · rintro site (rfl | rfl)
    · exact loop_of_insideLoop hfits
    · exact loop_of_insideLoop hfits
  · rintro site rfl
    exact argument_of_insideArguments hfits
  · rintro site branches rfl
    obtain ⟨hfirst, hothers⟩ := Bool.and_eq_true_iff.1 hfits
    cases branches with
    | nil => cases hfirst
    | cons first rest => exact ⟨first, rest, rfl, hfirst, List.all_eq_true.1 hothers⟩
  · rintro c rfl b hb
    exact bne_iff_ne.1 (List.all_eq_true.1 hfits b hb)
  · rintro f rfl b hb
    exact beq_iff_eq.1 (List.all_eq_true.1 hfits b hb)
  · rintro b rfl
    exact List.all_eq_true.1 hfits

/-- `for i = a(end), break, end` -/
def leaving : List Token :=
  [plainToken .keyword "for", plainToken .identifier "i", plainToken .assignment "=",
    plainToken .identifier "a", plainToken .lparen "(", plainToken .keyword "end",
    plainToken .rparen ")", plainToken .comma ",", plainToken .keyword "break",
    plainToken .comma ",", plainToken .keyword "end"]

def isLeaving : FileUnit → Bool
  | .script _ [.forLoop _ _ _ [.breakLoop _]] [] => true
  | _ => false

theorem ofTokens_placement_leaving : ∃ unit way site, ofTokens "t.m" leaving = .ok unit ∧
    (Node.unit unit).Reaches way (.stmt (.breakLoop site)) ∧
      ∃ inner step outer, way = inner ++ step :: outer ∧ step.1.isLoop = true ∧
        ∀ between ∈ inner, between.1.isFunction = false := by
  have hrun : (ofTokens "t.m" leaving).toOption.any isLeaving = true := by decide +kernel
  cases hunit : ofTokens "t.m" leaving with
  | error e =>
    rw [hunit] at hrun
    cases hrun
  | ok unit =>
    rw [hunit] at hrun
    change isLeaving unit = true at hrun
    unfold isLeaving at hrun
    split at hrun
    · rename_i _ place loop var range site
      have hroot :
          (Node.unit (.script place [.forLoop loop var range [.breakLoop site]] [])).Reaches
          [] _ := .here
      have hloop := hroot.child
        (c := (.statement, .stmt (.forLoop loop var range [.breakLoop site]))) (by simp)
      have hbreak := hloop.child (c := (.body, .stmt (.breakLoop site))) (by simp)
      exact ⟨_, _, site, rfl, hbreak, (ofTokens_placement hunit hbreak).1 site (.inl rfl)⟩
    · cases hrun

end FileUnit

end MFile
