import MFile.Proofs.Grammar.Contents.Files
import MFile.Proofs.Grammar.Placeholders.Statements

/-!
Placeholders in whole files. Functions and classes add one more place where a name may be left
out, the inputs of a function. What remains are the matrices at the front of longer expressions
that stand alone.
-/

namespace MFile

namespace Grammar.Parse

/-! ## Declarations -/

theorem tidies_optArguments {opener close : Kind} :
    Tidies false (optArguments opener close) (AllProper .plain .expr) := by
  refine looks_check.bind fun found => ?_
  split
  · exact tidies_arguments tidies_expression
  · exact .pure .nil

theorem tidies_optName : Tidies false optName fun n => AllProper .plain .name n.toList := by
  refine looks_check.bind fun found => ?_
  split
  · exact tidies_dottedName.some
  · exact .pure .nil

theorem tidies_optValue : Tidies false optValue fun e => AllProper .plain .expr e.toList := by
  refine passing_eatIf.bind fun found => ?_
  split
  · exact tidies_plain.some
  · exact .pure .nil

theorem tidies_optAttributes : Tidies false optAttributes (AllProper .plain .attr) := by
  refine looks_check.bind fun found => ?_
  split
  · rw [attributes_eq]
    refine passing_advance.bind fun _ => .rounds (AllProper .plain .attr) .nil fun as has => ?_
    refine passing_eatIf.bind fun closed => ?_
    split
    · exact .pure has
    have hone : Tidies false oneAttribute fun a => Node.Proper .plain (.attr a) := by
      refine looks_here.bind fun _ => passing_eatIf.bind fun _ => passing_expect.bind fun name => ?_
      refine tidies_optValue.bind fun e he => passing_siteFrom.bind fun _ => .pure ?_
      exact Node.proper_iff.2 (by simpa [AllProper] using he)
    split
    · exact (passing_discard passing_expect).bind fun _ => hone.bind fun a ha =>
        .pure (has.concat ha)
    · exact hone.bind fun a ha => .pure (has.concat ha)
  · exact .pure .nil

theorem tidies_property : Tidies false property fun p => Node.Proper .plain (.property p) := by
  rw [property_eq]
  refine looks_here.bind fun _ => tidies_dottedName.bind fun n hn => ?_
  refine tidies_optArguments.bind fun dimensions hdimensions => ?_
  refine tidies_optName.bind fun cls hcls => ?_
  refine tidies_optArguments.bind fun validators hvalidators => tidies_optValue.bind fun e he => ?_
  refine passing_siteFrom.bind fun _ => .pure (Node.proper_iff.2 ?_)
  simpa [AllProper, or_imp, forall_and, hn] using
    And.intro hdimensions (And.intro hcls (And.intro hvalidators he))

/-! ## Items -/

abbrev BlockProper (b : Block) : Prop := Node.Proper .plain (.block b)

theorem blockProper_add {b b' : Block} {item : BlockItem} (hb : BlockProper b)
    (hitem : (Node.ofItem item).2.Proper .plain) (hadd : b.add item = .ok b') : BlockProper b' := by
  rw [Block.add] at hadd
  split at hadd
  · cases hadd
    refine Node.proper_iff.2 ⟨fun h => Bool.noConfusion h, fun c hc => ?_⟩
    rw [Node.children, List.map_append, ← List.append_assoc] at hc
    obtain hold | hnew := List.mem_append.1 hc
    · exact (Node.proper_iff.1 hb).2 c hold
    · rw [List.map_singleton, List.mem_singleton] at hnew
      subst hnew
      cases item <;> exact hitem
  · cases hadd

theorem tidies_addItem {b : Block} (start : Location) (item : BlockItem) (hb : BlockProper b)
    (hitem : (Node.ofItem item).2.Proper .plain) :
    Tidies false (addItem start b item) BlockProper := by
  rw [addItem]
  split
  · exact .pure (blockProper_add hb hitem ‹_›)
  · exact .failing fun _ _ _ => throw_ok

theorem tidies_addStatement {b : Block} (start : Location) (item : BlockItem) (hb : BlockProper b)
    (hitem : (Node.ofItem item).2.Proper .plain) :
    Tidies false (addStatement start b item) BlockProper :=
  (tidies_addItem start item hb hitem).bind fun _ hb' => passing_endStatement.bind fun _ =>
    .pure hb'

abbrev AddsProper (addNext : Block → Parse Block) : Prop :=
  ∀ b, BlockProper b → Tidies false (addNext b) BlockProper

theorem addsProper_addProperty : AddsProper addProperty :=
  fun _ hb => looks_here.bind fun start => tidies_property.bind fun p hp =>
    tidies_addStatement start (.property p) hb hp

theorem tidies_block {addNext : Block → Parse Block} (h : AddsProper addNext) (kind : BlockKind)
    (opener : Token) : Tidies false (block kind opener addNext) BlockProper := by
  rw [block_eq]
  refine tidies_optAttributes.bind fun attrs hattrs => passing_siteAt.bind fun site => ?_
  refine Tidies.bind (P := BlockProper) (.rounds BlockProper ?_ fun b hb => ?_) fun b hb =>
    looks_spanFrom.bind fun _ => .pure ?_
  · exact Node.proper_iff.2 (by simpa [AllProper] using hattrs)
  · refine passing_skipSeparators.bind fun _ => passing_eatIf.bind fun closed => ?_
    split
    · exact .pure hb
    refine looks_atEnd.bind fun done => ?_
    split
    · refine .failing fun _ _ _ hrun => ?_
      obtain ⟨_, _, hrun, -⟩ := bind_ok hrun
      exact failHere_ok hrun
    · exact (h b hb).bind fun b' hb' => .pure hb'
  · exact Node.proper_iff.2 ⟨fun h => Bool.noConfusion h, fun c hc => (Node.proper_iff.1 hb).2 c hc⟩

/-! ## Signatures -/

theorem tidies_outputs : Tidies false outputs (AllProper .plain .name) := by
  refine .rounds (AllProper .plain .name) .nil fun ns hns => looks_peekKind?.bind fun kind => ?_
  split
  · exact passing_advance.bind fun _ => .pure hns
  · exact passing_advance.bind fun _ => .pure hns
  · exact tidies_identifier.bind fun n hn => .pure (hns.concat hn)
  · exact .failing fun _ _ _ => unexpected_ok

theorem tidies_signature (start : Location) :
    Tidies false (signature start) fun sig => Node.Proper .plain (.signature sig) := by
  have hhead : Tidies false signatureHead fun head =>
      AllProper .plain .name head.1 ∧ Node.Proper .plain (.name head.2) := by
    refine passing_eatIf.bind fun bracket => ?_
    split
    · exact tidies_outputs.bind fun outs houts => (passing_discard passing_expect).bind fun _ =>
        tidies_dottedName.bind fun n hn => .pure ⟨houts, hn⟩
    refine tidies_dottedName.bind fun first hfirst => looks_check.bind fun equals => ?_
    split
    · have hname : Tidies false (do
          advance
          return ([first], ← dottedName)) fun head =>
            AllProper .plain .name head.1 ∧ Node.Proper .plain (.name head.2) :=
        passing_advance.bind fun _ => tidies_dottedName.bind fun n hn =>
          .pure ⟨List.forall_mem_singleton.2 hfirst, hn⟩
      split
      · refine .failing fun _ _ _ hrun => ?_
        obtain ⟨_, _, hrun, -⟩ := bind_ok hrun
        exact fail_ok hrun
      · exact hname
    · exact .pure ⟨.nil, hfirst⟩
  refine hhead.bind fun head hhead => passing_eatIf.bind fun paren => ?_
  have hend : ∀ ins, AllProper .free .name ins → Tidies false
      (do return Signature.mk (← siteFrom start) head.2 ins head.1)
      fun sig => Node.Proper .plain (.signature sig) := by
    refine fun ins hins => passing_siteFrom.bind fun _ => .pure (Node.proper_iff.2 ?_)
    simpa [AllProper, or_imp, forall_and] using And.intro hhead.1 (And.intro hhead.2 hins)
  dsimp only
  split
  · exact tidies_parameters.bind fun ins hins => hend ins hins
  · exact hend [] .nil

theorem tidies_validationBlocks : Tidies false validationBlocks (AllProper .plain .block) := by
  rw [validationBlocks_eq]
  refine .rounds (AllProper .plain .block) .nil fun bs hbs => passing_skipSeparators.bind fun _ =>
    passing_eatIf.bind fun found => ?_
  cases found with
  | some opener =>
    exact (tidies_block addsProper_addProperty .arguments opener).bind fun b hb =>
      .pure (hbs.concat hb)
  | none => exact .pure hbs

/-! ## Functions -/

structure FunctionProper (f : FunctionDef) : Prop where
  proper : Node.Proper .plain (.function f)
  flat : f.nested = []

structure OpenProper (f : OpenFunction) : Prop where
  signature : Node.Proper .plain (.signature f.signature)
  validation : AllProper .plain .block f.validation
  body : AllProper .plain .stmt f.body

def RunProper (run : FunctionRun) : Prop := ∀ e ∈ run.entries, ∀ f ∈ e.function, FunctionProper f

theorem OpenProper.finish {f : OpenFunction} (h : OpenProper f) (terminated : Bool) :
    FunctionProper (f.finish terminated) := by
  refine ⟨Node.proper_iff.2 ?_, rfl⟩
  simpa [AllProper, or_imp, forall_and, OpenFunction.finish] using
    And.intro h.signature (And.intro h.validation h.body)

theorem FunctionProper.nest {f : FunctionDef} {inner : List FunctionDef} (h : FunctionProper f)
    (hinner : AllProper .plain .function inner) :
    Node.Proper .plain (.function { f with nested := inner }) := by
  refine Node.proper_iff.2 ⟨fun h => Bool.noConfusion h, fun c hc => ?_⟩
  obtain hold | ⟨g, hg, rfl⟩ := FunctionRun.mem_children_nest hc
  · exact (Node.proper_iff.1 h.proper).2 c hold
  · exact hinner g hg

namespace RunProper

variable {run : FunctionRun} {f : OpenFunction}

theorem empty : RunProper {} := FunctionRun.Every.empty

theorem push (h : RunProper run) (parent : Option Nat) : RunProper (run.push parent) :=
  FunctionRun.Every.push h parent

theorem fill (h : RunProper run) (hf : OpenProper f) (i : Nat) (terminated : Bool) :
    RunProper (run.fill i (f.finish terminated)) :=
  FunctionRun.Every.fill h (hf.finish terminated) i

theorem fill_all {fs : List OpenFunction} (h : RunProper run) (hfs : ∀ f ∈ fs, OpenProper f) :
    RunProper (fs.foldl (fun run f => run.fill f.index (f.finish false)) run) :=
  FunctionRun.Every.fill_all h fun f hf => (hfs f hf).finish false

theorem resolve (h : RunProper run) : AllProper .plain .function run.resolve :=
  FunctionRun.Every.resolve h (fun _ _ hf => hf.nest)
    (fun _ hf _ hg => absurd hg (hf.flat ▸ List.not_mem_nil)) fun _ hf => hf.proper

end RunProper

/-! ## Runs of functions -/

theorem tidies_openFunction {run : FunctionRun} (hrun : RunProper run) (parent : Option Nat)
    (opener : Token) : Tidies false (openFunction run parent opener) fun r =>
      OpenProper r.1 ∧ RunProper r.2 := by
  intro s r s' hs h
  obtain ⟨id, s₁, sig, s₂, validation, hid, hsig, hvalidation, rfl⟩ := openFunction_ok h
  obtain ⟨⟨_, hpass⟩, hflag⟩ := passing_freshId hid
  obtain ⟨hmid, hsignature⟩ := tidies_signature opener.location (hs.past hpass hflag) hsig
  have hframe : State.Awaits false { s₂ with frames := .function :: s₂.frames } :=
    ⟨hmid.named, hmid.flag, hmid.bracket⟩
  obtain ⟨hs', hblocks⟩ := tidies_validationBlocks hframe hvalidation
  exact ⟨hs', ⟨hsignature, hblocks, .nil⟩, hrun.push _⟩

theorem tidies_closeWithEnd {f : OpenFunction} {run : FunctionRun} (hf : OpenProper f)
    (hrun : RunProper run) : Tidies false (closeWithEnd f run) RunProper := by
  intro s run' s' hs h
  obtain ⟨e, s₁, s₂, heat, hend, rfl, rfl⟩ := closeWithEnd_ok h
  obtain ⟨⟨_, hpass⟩, hflag⟩ := passing_eatIf heat
  have h₁ := hs.past hpass hflag
  have hused : State.Awaits false (useEnd f s₁) := by
    rw [useEnd]
    split
    · exact h₁
    · exact ⟨h₁.named, h₁.flag, h₁.bracket⟩
  obtain ⟨⟨_, hpass⟩, hflag⟩ := passing_endStatement hend
  have h₂ := hused.past hpass hflag
  exact ⟨⟨h₂.named, h₂.flag, h₂.bracket⟩, hrun.fill hf f.index true⟩

structure RunningProper (soFar : RunSoFar) : Prop where
  opens : ∀ f ∈ soFar.current :: soFar.enclosing, OpenProper f
  run : RunProper soFar.run

theorem tidies_functionRound (soFar : RunSoFar) (hsoFar : RunningProper soFar) :
    Tidies false (functionRound soFar) (Round.Holds RunningProper RunProper) := by
  intro s r s' hs hround
  obtain ⟨body, mid, hbody, hcases⟩ := functionRound_ok hround
  obtain ⟨hmid, hstmts⟩ := tidies_statements hs hbody
  obtain ⟨hcurrent, henclosing⟩ := List.forall_mem_cons.1 hsoFar.opens
  have hlonger : OpenProper { soFar.current with body := soFar.current.body ++ body } :=
    { hcurrent with body := List.forall_mem_append.2 ⟨hcurrent.body, hstmts⟩ }
  have hopens := List.forall_mem_cons.2 ⟨hlonger, henclosing⟩
  rcases hcases with ⟨opener, s₁, inner, run, heat, hopen, rfl⟩ | ⟨-, run, hclose, rfl⟩ |
    ⟨run, -, hclose, rfl⟩
  · obtain ⟨⟨_, hpass⟩, hflag⟩ := passing_eatIf heat
    obtain ⟨hs', hinner, hrun⟩ :=
      tidies_openFunction hsoFar.run _ opener (hmid.past hpass hflag) hopen
    exact ⟨hs', List.forall_mem_cons.2 ⟨hinner, hopens⟩, hrun⟩
  · obtain ⟨rfl, -, rfl⟩ := closeAtEndOfFile_ok hclose
    exact ⟨hmid, hsoFar.run.fill_all hopens⟩
  · obtain ⟨hs', hfilled⟩ := tidies_closeWithEnd hlonger hsoFar.run hmid hclose
    cases hparents : soFar.enclosing with
    | nil => exact ⟨hs', hfilled⟩
    | cons parent enclosing =>
      rw [hparents] at henclosing
      exact ⟨hs', henclosing, hfilled⟩

theorem tidies_function {run : FunctionRun} (hrun : RunProper run) (opener : Token) :
    Tidies false (function run opener) RunProper := by
  intro s run' s' hs h
  obtain ⟨first, run₁, s₁, s₂, hopen, hrounds, rfl⟩ := function_ok h
  obtain ⟨h₁, hfirst, hrun₁⟩ := tidies_openFunction hrun none opener hs hopen
  have hstart : RunningProper ⟨first, [], run₁⟩ := ⟨List.forall_mem_singleton.2 hfirst, hrun₁⟩
  obtain ⟨h₂, hrun'⟩ := Tidies.rounds RunningProper hstart tidies_functionRound h₁ hrounds
  exact ⟨⟨h₂.named, h₂.flag, h₂.bracket⟩, hrun'⟩

theorem tidies_localFunctions : Tidies false localFunctions (AllProper .plain .function) := by
  rw [localFunctions_eq]
  refine Tidies.bind (P := RunProper) (.rounds RunProper .empty fun run hrun => ?_)
    fun run hrun => .pure hrun.resolve
  intro s r s' hs hround
  obtain ⟨mid, hskip, hcases⟩ := localRound_ok hround
  obtain ⟨⟨_, hpass⟩, hflag⟩ := passing_skipSeparators hskip
  have hmid := hs.past hpass hflag
  rcases hcases with ⟨opener, s₁, run', heat, hfunction, rfl⟩ | ⟨-, rfl, rfl⟩
  · obtain ⟨⟨_, hpass⟩, hflag⟩ := passing_eatIf heat
    exact tidies_function hrun opener (hmid.past hpass hflag) hfunction
  · exact ⟨hmid, hrun⟩

/-! ## Classes -/

theorem tidies_addMethods (start : Location) (fs : List FunctionDef)
    (hfs : AllProper .plain .function fs) {b : Block} (hb : BlockProper b) :
    Tidies false (fs.foldlM (fun b method => addItem start b (.method method)) b) BlockProper := by
  induction fs generalizing b with
  | nil => exact .pure hb
  | cons f fs ih =>
    obtain ⟨hf, hfs⟩ := List.forall_mem_cons.1 hfs
    rw [List.foldlM_cons]
    exact (tidies_addItem start (.method f) hb hf).bind fun b' hb' => ih hfs hb'

theorem addsProper_addNext (kind : BlockKind) : AddsProper (addNext kind) := by
  cases kind with
  | properties | arguments => exact addsProper_addProperty
  | methods =>
    refine fun b hb => looks_here.bind fun start => passing_eatIf.bind fun found => ?_
    cases found with
    | some opener =>
      exact (tidies_function .empty opener).inMethods.bind fun run hrun =>
        tidies_addMethods start run.resolve hrun.resolve hb
    | none =>
      exact (tidies_signature start).bind fun sig hsig =>
        tidies_addStatement start (.signature sig) hb hsig
  | events =>
    refine fun b hb => looks_here.bind fun start => tidies_identifier.bind fun n hn => ?_
    refine passing_siteAt.bind fun site => tidies_addStatement start (.event ⟨site, n⟩) hb ?_
    exact Node.proper_iff.2 (by simp [Node.ofItem, hn])
  | enumeration =>
    refine fun b hb => looks_here.bind fun start => tidies_identifier.bind fun n hn => ?_
    have hadd : ∀ es, AllProper .plain .expr es → Tidies false
        (do addStatement start b (.enumerator ⟨← siteFrom start, n, es⟩)) BlockProper := by
      refine fun es hes => passing_siteFrom.bind fun site => ?_
      refine tidies_addStatement start (.enumerator ⟨site, n, es⟩) hb ?_
      exact Node.proper_iff.2 (by simpa [AllProper, Node.ofItem, hn] using hes)
    refine looks_check.bind fun paren => ?_
    split
    · exact (tidies_arguments tidies_expression).bind fun es hes => hadd es hes
    · exact hadd [] .nil

theorem tidies_classBlocks (opener : Token) :
    Tidies false (classBlocks opener) (AllProper .plain .block) := by
  rw [classBlocks_eq]
  refine .rounds (AllProper .plain .block) .nil fun bs hbs => passing_skipSeparators.bind fun _ =>
    passing_eatIf.bind fun closed => ?_
  split
  · exact passing_endStatement.bind fun _ => .pure hbs
  refine .current? fun t _ => ?_
  cases t with
  | none => exact .failing fun _ _ _ => failHere_ok
  | some t =>
    dsimp only
    split
    · rename_i kind _
      exact passing_advance.bind fun _ => (tidies_block (addsProper_addNext kind) kind t).bind
        fun b hb => .pure (hbs.concat hb)
    · exact .failing fun _ _ _ => failHere_ok

theorem tidies_superclasses : Tidies false superclasses (AllProper .plain .name) := by
  rw [superclasses_eq]
  refine passing_eatIf.bind fun found => ?_
  split
  · exact .pure .nil
  refine tidies_dottedName.bind fun first hfirst => .rounds (AllProper .plain .name)
    (List.forall_mem_singleton.2 hfirst) fun ns hns => passing_eatIf.bind fun found => ?_
  split
  · exact tidies_dottedName.bind fun n hn => .pure (hns.concat hn)
  · exact .pure hns

theorem tidies_classDef (opener : Token) :
    Tidies false (classDef opener) fun c => Node.Proper .plain (.definition c) := by
  refine passing_freshId.bind fun id => tidies_optAttributes.bind fun attrs hattrs => ?_
  refine tidies_identifier.bind fun n hn => tidies_superclasses.bind fun supers hsupers => ?_
  refine looks_spanFrom.bind fun place => (tidies_classBlocks opener).bind fun bs hbs => .pure ?_
  refine Node.proper_iff.2 ?_
  simpa [AllProper, or_imp, forall_and, hn] using And.intro hattrs (And.intro hsupers hbs)

/-! ## Files -/

theorem tidies_fileUnit : Tidies false fileUnit fun unit => Node.Proper .plain (.unit unit) := by
  refine passing_skipSeparators.bind fun _ => looks_checkWord.bind fun found => ?_
  split
  · refine passing_freshId.bind fun id => tidies_localFunctions.bind fun fs hfs => ?_
    refine looks_wholeFile.bind fun place => .pure (Node.proper_iff.2 ?_)
    simpa [AllProper] using hfs
  refine passing_eatIf.bind fun found => ?_
  cases found with
  | some opener =>
    refine passing_freshId.bind fun id => (tidies_classDef opener).inFrame.bind fun c hc => ?_
    refine tidies_localFunctions.bind fun fs hfs => looks_wholeFile.bind fun place => ?_
    exact .pure (Node.proper_iff.2 (by simpa [AllProper, hc] using hfs))
  | none =>
    refine passing_freshId.bind fun id => tidies_statements.bind fun body hbody => ?_
    refine tidies_localFunctions.bind fun fs hfs => looks_wholeFile.bind fun place => ?_
    exact .pure (Node.proper_iff.2 (by
      simpa [AllProper, or_imp, forall_and] using And.intro hbody hfs))

end Grammar.Parse

open Grammar Parse

namespace FileUnit

variable {source : SourceText} {settings : Settings} {unit : FileUnit} {way : Way} {node : Node}

theorem awaits_ofSource {buffer : TokenBuffer}
    (h : TokenBuffer.ofSource source settings = .ok buffer) :
    (State.ofTokens source.name buffer.tokens).Awaits false where
  named t ht := named_ofSource h (.word "~") rfl t (mem_significant ht).1
  flag := rfl
  bracket h := Bool.noConfusion h

/-- In the tree of a source that is accepted, a placeholder is one of the targets of an assignment
to several, an input of a function or a parameter of a lambda. The one other place is in a row of a
matrix that is not all of an expression statement but what the statement begins with: only a
statement that is nothing but the matrix is looked at once it turns out not to be an assignment. -/
theorem ofSource_placeholder (h : ofSource source settings = .ok unit)
    (hnode : (Node.unit unit).Reaches way node) (hplaceholder : node.isPlaceholder = true) :
    (∃ step outer, way = step :: outer ∧ leavesOut step = true) ∨
      ∃ element row chain alone outer, way = element :: row :: (chain ++ alone :: outer) ∧
        entersRow element = true ∧ entersMatrix row = true ∧ standsAlone alone = true ∧
          chain ≠ [] ∧ ∀ step ∈ chain, begins step = true := by
  rw [ofSource] at h
  split at h
  · cases h
  · rename_i buffer hbuffer
    obtain ⟨st, hparse⟩ := outcome_ok h
    obtain ⟨-, hproper⟩ := tidies_fileUnit (awaits_ofSource hbuffer) hparse
    exact Spot.way_of_free (hproper way node hnode hplaceholder)

/-- An assignment that has no use for the second of two results. -/
def ignoring : SourceText := .ofString "t.m" "[a, ~] = f(x)\n" {}

def isIgnoring : FileUnit → Bool
  | .script _ [.multiAssign _ [_, second] _] [] => (Node.name second).isPlaceholder
  | _ => false

theorem ofSource_placeholder_ignoring : ∃ unit way node, ofSource ignoring {} = .ok unit ∧
    (Node.unit unit).Reaches way node ∧ node.isPlaceholder = true ∧
      ((∃ step outer, way = step :: outer ∧ leavesOut step = true) ∨
        ∃ element row chain alone outer, way = element :: row :: (chain ++ alone :: outer) ∧
          entersRow element = true ∧ entersMatrix row = true ∧ standsAlone alone = true ∧
            chain ≠ [] ∧ ∀ step ∈ chain, begins step = true) := by
  have hrun : (ofSource ignoring {}).toOption.any isIgnoring = true := by decide +kernel
  cases hunit : ofSource ignoring {} with
  | error e =>
    rw [hunit] at hrun
    cases hrun
  | ok unit =>
    rw [hunit] at hrun
    change isIgnoring unit = true at hrun
    unfold isIgnoring at hrun
    split at hrun
    · rename_i _ place site first second rhs
      have hroot : (Node.unit (.script place [.multiAssign site [first, second] rhs] [])).Reaches
          [] _ := .here
      have hassign := hroot.child
        (c := (.statement, .stmt (.multiAssign site [first, second] rhs))) (by simp)
      have hsecond := hassign.child (c := (.lhs, .name second)) (by simp)
      exact ⟨_, _, _, rfl, hsecond, hrun, ofSource_placeholder hunit hsecond hrun⟩
    · cases hrun

def transposed : SourceText := .ofString "t.m" "[~]'\n" {}

def isTransposed : FileUnit → Bool
  | .script _ [.naked _ (.unary _ _ (.matrix _ [⟨_, [first]⟩]))] [] =>
    (Node.expr first).isPlaceholder
  | _ => false

/-- A placeholder that nothing is left out for. -/
theorem ofSource_transposed : ∃ unit way node, ofSource transposed {} = .ok unit ∧
    (Node.unit unit).Reaches way node ∧ node.isPlaceholder = true ∧
      ¬ ∃ step outer, way = step :: outer ∧ leavesOut step = true := by
  have hrun : (ofSource transposed {}).toOption.any isTransposed = true := by decide +kernel
  cases hunit : ofSource transposed {} with
  | error e =>
    rw [hunit] at hrun
    cases hrun
  | ok unit =>
    rw [hunit] at hrun
    change isTransposed unit = true at hrun
    unfold isTransposed at hrun
    split at hrun
    · rename_i _ place site quoted op matrix row first
      have hroot : (Node.unit (.script place
          [.naked site (.unary quoted op (.matrix matrix [⟨row, [first]⟩]))] [])).Reaches
            [] _ := .here
      have hstmt := hroot.child (c := (.statement,
        .stmt (.naked site (.unary quoted op (.matrix matrix [⟨row, [first]⟩]))))) (by simp)
      have hwhole := hstmt.child (c := (.expression,
        .expr (.unary quoted op (.matrix matrix [⟨row, [first]⟩])))) (by simp)
      have hmatrix := hwhole.child (c := (.operand,
        .expr (.matrix matrix [⟨row, [first]⟩]))) (by simp)
      have hrow := hmatrix.child (c := (.row, .row ⟨row, [first]⟩)) (by simp)
      have hfirst := hrow.child (c := (.element, .expr first)) (by simp)
      refine ⟨_, _, _, rfl, hfirst, hrun, ?_⟩
      rintro ⟨step, outer, hway, hout⟩
      cases hway
      cases hout
    · cases hrun

end FileUnit

end MFile
