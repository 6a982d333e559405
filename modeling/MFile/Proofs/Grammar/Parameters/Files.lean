import MFile.Proofs.Grammar.Contents.Files
import MFile.Proofs.Grammar.Functions.EndOptional
import MFile.Proofs.Grammar.Parameters.Statements

/-!
The inputs of a function are listed in parentheses, like the parameters of a lambda, so in a whole
file every list of parameters is what stands between two parentheses of the source.
-/

namespace MFile

namespace Grammar.Parse

variable {view : List Token}

/-! ## Declarations -/

theorem draws_optArguments {opener close : Kind} :
    Draws view (optArguments opener close) (AllListed view .expr) := by
  refine onward_check.before fun found => ?_
  split
  · exact draws_arguments draws_expression
  · exact .pure .nil

theorem draws_optName : Draws view optName fun n => AllListed view .name n.toList := by
  refine onward_check.before fun found => ?_
  split
  · exact draws_dottedName.some
  · exact .pure .nil

theorem draws_optValue : Draws view optValue fun e => AllListed view .expr e.toList := by
  refine onward_eatIf.before fun found => ?_
  split
  · exact draws_expression.some
  · exact .pure .nil

theorem draws_oneAttribute : Draws view oneAttribute fun a => Node.Listed view (.attr a) :=
  onward_here.before fun _ => onward_eatIf.before fun _ => onward_expect.before fun _ =>
    draws_optValue.bind fun _ he => onward_siteFrom.before fun _ =>
      .pure (Node.listed_iff.2 (by simpa [AllListed] using he))

theorem draws_optAttributes : Draws view optAttributes (AllListed view .attr) := by
  refine onward_check.before fun found => ?_
  split
  · rw [attributes_eq]
    refine onward_advance.before fun _ => .rounds (AllListed view .attr) .nil fun as has => ?_
    refine onward_eatIf.before fun closed => ?_
    split
    · exact .pure has
    split
    · exact onward_punctuation.before fun _ => draws_oneAttribute.bind fun a ha =>
        .pure (has.concat ha)
    · exact draws_oneAttribute.bind fun a ha => .pure (has.concat ha)
  · exact .pure .nil

theorem draws_property : Draws view property fun p => Node.Listed view (.property p) := by
  rw [property_eq]
  refine onward_here.before fun _ => draws_dottedName.bind fun n hn => ?_
  refine draws_optArguments.bind fun dimensions hdimensions => ?_
  refine draws_optName.bind fun cls hcls => draws_optArguments.bind fun validators hvalidators => ?_
  refine draws_optValue.bind fun e he => onward_siteFrom.before fun _ => .pure ?_
  apply Node.listed_iff.2
  simpa [AllListed, or_imp, forall_and, hn] using
    And.intro hdimensions (And.intro hcls (And.intro hvalidators he))

/-! ## Blocks -/

abbrev BlockListed (view : List Token) (b : Block) : Prop := Node.Listed view (.block b)

theorem BlockListed.add {b b' : Block} {item : BlockItem} (hb : BlockListed view b)
    (hitem : (Node.ofItem item).2.Listed view) (hadd : b.add item = .ok b') :
    BlockListed view b' := by
  rw [Block.add] at hadd
  split at hadd
  · cases hadd
    have hchildren := (Node.listed_iff.1 hb).2
    refine Node.listed_iff.2 ⟨enclosed_nil view, fun c hc => ?_⟩
    rw [Node.children, List.map_append, ← List.append_assoc] at hc
    obtain hold | hnew := List.mem_append.1 hc
    · exact hchildren c hold
    · rw [List.map_singleton, List.mem_singleton] at hnew
      exact hnew ▸ hitem
  · cases hadd

theorem draws_addItem {b : Block} (start : Location) (item : BlockItem) (hb : BlockListed view b)
    (hitem : (Node.ofItem item).2.Listed view) :
    Draws view (addItem start b item) (BlockListed view) := by
  rw [addItem]
  split
  · exact .pure (hb.add hitem ‹_›)
  · exact .failing fun _ _ _ => throw_ok

theorem draws_addStatement {b : Block} (start : Location) (item : BlockItem)
    (hb : BlockListed view b) (hitem : (Node.ofItem item).2.Listed view) :
    Draws view (addStatement start b item) (BlockListed view) :=
  (draws_addItem start item hb hitem).bind fun _ hb' => onward_endStatement.before fun _ =>
    .pure hb'

abbrev AddsListed (view : List Token) (addNext : Block → Parse Block) : Prop :=
  ∀ b, BlockListed view b → Draws view (addNext b) (BlockListed view)

theorem addsListed_addProperty : AddsListed view addProperty :=
  fun _ hb => onward_here.before fun start => draws_property.bind fun p hp =>
    draws_addStatement start (.property p) hb hp

theorem draws_block {addNext : Block → Parse Block} (h : AddsListed view addNext)
    (kind : BlockKind) (opener : Token) :
    Draws view (block kind opener addNext) (BlockListed view) := by
  rw [block_eq]
  refine draws_optAttributes.bind fun attrs hattrs => onward_siteAt.before fun site => ?_
  refine Draws.bind (P := BlockListed view) (.rounds (BlockListed view) ?_ fun b hb => ?_)
    fun b hb => onward_spanFrom.before fun _ => .pure ?_
  · exact Node.listed_iff.2 (by simpa [AllListed] using hattrs)
  · refine onward_skipSeparators.before fun _ => onward_eatIf.before fun closed => ?_
    split
    · exact .pure hb
    refine onward_atEnd.before fun done => ?_
    split
    · exact onward_failHere.before fun _ => (h b hb).bind fun b' hb' => .pure hb'
    · exact (h b hb).bind fun b' hb' => .pure hb'
  · exact Node.listed_iff.2 ⟨enclosed_nil view, (Node.listed_iff.1 hb).2⟩

/-! ## Signatures -/

theorem draws_outputs : Draws view outputs (AllListed view .name) := by
  refine .rounds (AllListed view .name) .nil fun ns hns => onward_peekKind?.before fun kind => ?_
  split
  · exact onward_advance.before fun _ => .pure hns
  · exact onward_advance.before fun _ => .pure hns
  · exact draws_identifier.bind fun n hn => .pure (hns.concat hn)
  · exact .failing fun _ _ _ => unexpected_ok

theorem draws_signatureHead : Draws view signatureHead fun head =>
    AllListed view .name head.1 ∧ Node.Listed view (.name head.2) := by
  refine onward_eatIf.before fun bracket => ?_
  split
  · exact draws_outputs.bind fun outs houts => onward_punctuation.before fun _ =>
      draws_dottedName.bind fun n hn => .pure ⟨houts, hn⟩
  refine draws_dottedName.bind fun first hfirst => onward_check.before fun equals => ?_
  split
  · have hname : Draws view (do
        advance
        return ([first], ← dottedName)) fun head =>
          AllListed view .name head.1 ∧ Node.Listed view (.name head.2) :=
      onward_advance.before fun _ => draws_dottedName.bind fun n hn =>
        .pure ⟨List.forall_mem_singleton.2 hfirst, hn⟩
    split
    · exact Onward.fail.before fun _ => hname
    · exact hname
  · exact .pure ⟨.nil, hfirst⟩

theorem draws_signature (start : Location) :
    Draws view (signature start) fun sig => Node.Listed view (.signature sig) := by
  refine draws_signatureHead.bind fun (outs, name) ⟨houts, hname⟩ => ?_
  have hend : ∀ ins, Enclosed view ins → Draws view
      (do return Signature.mk (← siteFrom start) name ins outs)
      fun sig => Node.Listed view (.signature sig) := by
    intro ins hins
    have hlisted := hins.listed
    refine onward_siteFrom.before fun _ => .pure (Node.listed_iff.2 ⟨hins, ?_⟩)
    simpa [AllListed, or_imp, forall_and, hname] using And.intro houts hlisted
  exact .parenthesised (fun _ => rfl) hend (hend [] (enclosed_nil view))

theorem draws_validationBlocks : Draws view validationBlocks (AllListed view .block) := by
  rw [validationBlocks_eq]
  refine .rounds (AllListed view .block) .nil fun bs hbs => ?_
  refine onward_skipSeparators.before fun _ => onward_eatIf.before fun found => ?_
  cases found with
  | some opener =>
    exact (draws_block addsListed_addProperty .arguments opener).bind fun b hb =>
      .pure (hbs.concat hb)
  | none => exact .pure hbs

/-! ## Functions -/

abbrev FunctionListed (view : List Token) (f : FunctionDef) : Prop :=
  Node.Listed view (.function f)

abbrev RunListed (view : List Token) (run : FunctionRun) : Prop := run.Every (FunctionListed view)

theorem FunctionListed.nest {f : FunctionDef} {inner : List FunctionDef}
    (h : FunctionListed view f) (hinner : AllListed view .function inner) :
    FunctionListed view { f with nested := inner } := by
  refine Node.listed_iff.2 ⟨enclosed_nil view, fun c hc => ?_⟩
  obtain hown | ⟨g, hg, rfl⟩ := FunctionRun.mem_children_nest hc
  · exact (Node.listed_iff.1 h).2 c hown
  · exact hinner g hg

theorem RunListed.resolve {run : FunctionRun} (h : RunListed view run) :
    AllListed view .function run.resolve :=
  FunctionRun.Every.resolve h (fun _ _ hf => hf.nest)
    (fun f hf g hg => (Node.listed_iff.1 hf).2 (.nested, .function g) (by simp [hg])) fun _ hf => hf

structure OpenListed (view : List Token) (f : OpenFunction) : Prop where
  signature : Node.Listed view (.signature f.signature)
  validation : AllListed view .block f.validation
  body : AllListed view .stmt f.body

theorem OpenListed.finish {f : OpenFunction} (h : OpenListed view f) (terminated : Bool) :
    FunctionListed view (f.finish terminated) := by
  apply Node.listed_iff.2
  simpa [AllListed, or_imp, forall_and, OpenFunction.finish, h.signature] using
    And.intro h.validation h.body

theorem draws_openFunction {run : FunctionRun} (hrun : RunListed view run) (parent : Option Nat)
    (opener : Token) : Draws view (openFunction run parent opener) fun r =>
      OpenListed view r.1 ∧ RunListed view r.2 :=
  onward_freshId.before fun _ => (draws_signature opener.location).bind fun _ hsig =>
    .get fun _ => .modify (fun _ => rfl) fun _ => draws_validationBlocks.bind fun _ hvalidation =>
      .pure ⟨⟨hsig, hvalidation, .nil⟩, hrun.push parent⟩

theorem draws_closeWithEnd {f : OpenFunction} {run : FunctionRun} (hf : OpenListed view f)
    (hrun : RunListed view run) : Draws view (closeWithEnd f run) (RunListed view) := by
  intro s run' s' hs h
  have hview := (onward_closeWithEnd f run).view_eq h
  obtain ⟨_, _, _, -, -, -, rfl⟩ := closeWithEnd_ok h
  exact ⟨hview.trans hs, hrun.fill (hf.finish true) f.index⟩

theorem draws_closeAtEndOfFile {fs : List OpenFunction} {run : FunctionRun}
    (hfs : ∀ f ∈ fs, OpenListed view f) (hrun : RunListed view run) :
    Draws view (closeAtEndOfFile fs run) (RunListed view) := by
  intro s run' s' hs h
  obtain ⟨rfl, -, rfl⟩ := closeAtEndOfFile_ok h
  exact ⟨hs, hrun.fill_all fun f hf => (hfs f hf).finish false⟩

structure RunningListed (view : List Token) (soFar : RunSoFar) : Prop where
  opens : ∀ f ∈ soFar.current :: soFar.enclosing, OpenListed view f
  run : RunListed view soFar.run

theorem draws_functionRound {soFar : RunSoFar} (h : RunningListed view soFar) :
    Draws view (functionRound soFar) (Round.Holds (RunningListed view) (RunListed view)) := by
  refine draws_statements.bind fun body hbody => ?_
  obtain ⟨hcurrent, henclosing⟩ := List.forall_mem_cons.1 h.opens
  have hlonger : OpenListed view { soFar.current with body := soFar.current.body ++ body } :=
    { hcurrent with body := List.forall_mem_append.2 ⟨hcurrent.body, hbody⟩ }
  have hopens := List.forall_mem_cons.2 ⟨hlonger, henclosing⟩
  refine onward_eatIf.before fun found => ?_
  cases found with
  | some opener =>
    refine (draws_openFunction h.run _ opener).bind fun (inner, run) ⟨hinner, hrun⟩ => .pure ?_
    exact ⟨List.forall_mem_cons.2 ⟨hinner, hopens⟩, hrun⟩
  | none =>
    refine onward_atEnd.before fun done => ?_
    split
    · exact (draws_closeAtEndOfFile hopens h.run).bind fun run hrun => .pure hrun
    refine (draws_closeWithEnd hlonger h.run).bind fun run hrun => ?_
    cases hparents : soFar.enclosing with
    | nil => exact .pure hrun
    | cons parent enclosing =>
      rw [hparents] at henclosing
      exact .pure ⟨henclosing, hrun⟩

theorem draws_function {run : FunctionRun} (hrun : RunListed view run) (opener : Token) :
    Draws view (function run opener) (RunListed view) := by
  refine Draws.bracketed ?_ (fun _ => rfl) fun _ _ => rfl
  refine (draws_openFunction hrun none opener).bind fun (first, run₁) ⟨hfirst, hrun₁⟩ => ?_
  exact .rounds (RunningListed view) ⟨List.forall_mem_singleton.2 hfirst, hrun₁⟩
    fun _ => draws_functionRound

theorem draws_localFunctions : Draws view localFunctions (AllListed view .function) := by
  rw [localFunctions_eq]
  refine Draws.bind (P := RunListed view) (.rounds (RunListed view) .empty fun run hrun => ?_)
    fun run hrun => .pure hrun.resolve
  refine onward_skipSeparators.before fun _ => onward_eatIf.before fun found => ?_
  cases found with
  | some opener => exact (draws_function hrun opener).bind fun run' hrun' => .pure hrun'
  | none =>
    refine onward_current?.before fun t => ?_
    cases t with
    | none => exact .pure hrun
    | some t =>
      dsimp only
      split
      · exact .failing fun _ _ _ => fail_ok
      · exact .failing fun _ _ _ => failHere_ok

/-! ## Classes -/

theorem draws_addMethods (start : Location) (methods : List FunctionDef)
    (hmethods : AllListed view .function methods) {b : Block} (hb : BlockListed view b) :
    Draws view (methods.foldlM (fun b method => addItem start b (.method method)) b)
      (BlockListed view) := by
  induction methods generalizing b with
  | nil => exact .pure hb
  | cons f methods ih =>
    obtain ⟨hf, hmethods⟩ := List.forall_mem_cons.1 hmethods
    rw [List.foldlM_cons]
    exact (draws_addItem start (.method f) hb hf).bind fun b' hb' => ih hmethods hb'

theorem addsListed_addNext (kind : BlockKind) : AddsListed view (addNext kind) := by
  intro b hb
  cases kind with
  | properties | arguments => exact addsListed_addProperty b hb
  | methods =>
    refine onward_here.before fun start => onward_eatIf.before fun found => ?_
    cases found with
    | some opener =>
      have hmethods : Draws view (inMethods (function {} opener)) (RunListed view) :=
        (draws_function .empty opener).bracketed (fun _ => rfl) fun _ _ => rfl
      exact hmethods.bind fun run hrun => draws_addMethods start run.resolve hrun.resolve hb
    | none =>
      exact (draws_signature start).bind fun sig hsig =>
        draws_addStatement start (.signature sig) hb hsig
  | events =>
    refine onward_here.before fun start => draws_identifier.bind fun n hn => ?_
    refine onward_siteAt.before fun site => draws_addStatement start (.event ⟨site, n⟩) hb ?_
    exact Node.listed_iff.2 (by simp [Node.ofItem, hn])
  | enumeration =>
    change Draws view (addEnumerator b) _
    rw [addEnumerator_eq]
    refine onward_here.before fun start => draws_identifier.bind fun n hn => ?_
    refine draws_optArguments.bind fun es hes => onward_siteFrom.before fun site => ?_
    refine draws_addStatement start (.enumerator ⟨site, n, es⟩) hb (Node.listed_iff.2 ?_)
    simpa [AllListed, Node.ofItem, hn] using hes

theorem draws_classBlocks (opener : Token) :
    Draws view (classBlocks opener) (AllListed view .block) := by
  rw [classBlocks_eq]
  refine .rounds (AllListed view .block) .nil fun bs hbs => ?_
  refine onward_skipSeparators.before fun _ => onward_eatIf.before fun closed => ?_
  split
  · exact onward_endStatement.before fun _ => .pure hbs
  refine onward_current?.before fun t => ?_
  cases t with
  | none => exact .failing fun _ _ _ => failHere_ok
  | some t =>
    dsimp only
    split
    · rename_i kind _
      exact onward_advance.before fun _ => (draws_block (addsListed_addNext kind) kind t).bind
        fun b hb => .pure (hbs.concat hb)
    · exact .failing fun _ _ _ => failHere_ok

theorem draws_superclasses : Draws view superclasses (AllListed view .name) := by
  rw [superclasses_eq]
  refine onward_eatIf.before fun found => ?_
  split
  · exact .pure .nil
  refine draws_dottedName.bind fun first hfirst => .rounds (AllListed view .name)
    (List.forall_mem_singleton.2 hfirst) fun ns hns => onward_eatIf.before fun found => ?_
  split
  · exact draws_dottedName.bind fun n hn => .pure (hns.concat hn)
  · exact .pure hns

theorem draws_classDef (opener : Token) :
    Draws view (classDef opener) fun c => Node.Listed view (.definition c) := by
  refine onward_freshId.before fun id => draws_optAttributes.bind fun attrs hattrs => ?_
  refine draws_identifier.bind fun n hn => draws_superclasses.bind fun supers hsupers => ?_
  refine onward_spanFrom.before fun place => (draws_classBlocks opener).bind fun bs hbs => .pure ?_
  apply Node.listed_iff.2
  simpa [AllListed, or_imp, forall_and, hn] using And.intro hattrs (And.intro hsupers hbs)

/-! ## Files -/

theorem draws_fileUnit : Draws view fileUnit fun unit => Node.Listed view (.unit unit) := by
  refine onward_skipSeparators.before fun _ => onward_checkWord.before fun found => ?_
  split
  · refine onward_freshId.before fun id => draws_localFunctions.bind fun fs hfs => ?_
    refine onward_wholeFile.before fun place => .pure (Node.listed_iff.2 ?_)
    simpa [AllListed] using hfs
  refine onward_eatIf.before fun found => ?_
  cases found with
  | some opener =>
    refine onward_freshId.before fun id => (draws_classDef opener).inFrame.bind fun c hc => ?_
    refine draws_localFunctions.bind fun fs hfs => onward_wholeFile.before fun place => ?_
    exact .pure (Node.listed_iff.2 (by simpa [AllListed, hc] using hfs))
  | none =>
    refine onward_freshId.before fun id => draws_statements.bind fun body hbody => ?_
    refine draws_localFunctions.bind fun fs hfs => onward_wholeFile.before fun place => ?_
    exact .pure (Node.listed_iff.2 (by
      simpa [AllListed, or_imp, forall_and] using And.intro hbody hfs))

/-! ## Lists that are accepted -/

/-- What follows the parameters of a lambda. -/
def lambdaBody (inner : Parse Expr) (mark : Token) (names : List Name) : Parse Expr := do
  let body ← outsideIndex inner
  return .lambda (← siteBetween mark.location body.site.location) names body

section Accepted

variable {s mid : State} {opener closer : Token} {items rest : List Token}
  (hitems : ∀ t ∈ items, t.isParameter = true ∨ t.kind = .comma) (hcloser : closer.kind = .rparen)

include hitems hcloser

theorem exists_signature {head : List Name × Name} (start : Location)
    (hhead : signatureHead s = .ok head mid)
    (hahead : mid.ahead = opener :: (items ++ closer :: rest)) (hopener : opener.kind = .lparen) :
    ∃ sig s', signature start s = .ok sig s' ∧ s'.ahead = rest ∧ Listing items sig.inputs := by
  have heat : eat .lparen mid = .ok (some opener) (mid.past opener (items ++ closer :: rest)) :=
    eatIf_of hahead (by simp [hopener])
  obtain ⟨names, s', hnames, hrest, hlisting⟩ :=
    exists_parameters (s := mid.past opener (items ++ closer :: rest)) rfl hitems hcloser
  obtain ⟨outs, name⟩ := head
  refine ⟨⟨⟨s'.nodes, start.extendTo s'.lastPlace⟩, name, names, outs⟩, s'.numbered, ?_, hrest,
    hlisting⟩
  rw [signature, bind_run hhead]
  exact (bind_run heat _).trans (bind_run hnames _)

theorem exists_handle (inner : Parse Expr) (mark : Token)
    (hahead : s.ahead = opener :: (items ++ closer :: rest)) (hopener : opener.kind = .lparen) :
    ∃ names s', handle inner mark s = lambdaBody inner mark names s' ∧ s'.ahead = rest ∧
      Listing items names := by
  have heat : eat .lparen s = .ok (some opener) (s.past opener (items ++ closer :: rest)) :=
    eatIf_of hahead (by simp [hopener])
  obtain ⟨names, s', hnames, hrest, hlisting⟩ :=
    exists_parameters (s := s.past opener (items ++ closer :: rest)) rfl hitems hcloser
  refine ⟨names, s', ?_, hrest, hlisting⟩
  rw [handle, bind_run heat]
  exact bind_run hnames _

end Accepted

end Grammar.Parse

open Grammar Parse

namespace FileUnit

variable {source : SourceText} {settings : Settings} {unit : FileUnit}

/-- Each list of parameters in the tree of a source that is accepted is what stands between two
parentheses of the source: its parameters in order, with commas anywhere among them. All that
stands so is accepted, as the inputs of a function and as the parameters of a lambda: commas may
come first, last, several at a time or not at all, and tell nothing. -/
theorem ofSource_parameters (h : ofSource source settings = .ok unit) :
    (∃ buffer, TokenBuffer.ofSource source settings = .ok buffer ∧
      ∀ node ∈ unit.nodes, node.parameters ≠ [] → ∃ before opener items closer after,
        significant false buffer.tokens = before ++ opener :: (items ++ closer :: after) ∧
          opener.kind = .lparen ∧ closer.kind = .rparen ∧ Listing items node.parameters) ∧
    ∀ (items : List Token) (opener closer : Token) (rest : List Token),
      (∀ t ∈ items, t.isParameter = true ∨ t.kind = .comma) →
      opener.kind = .lparen → closer.kind = .rparen →
        (∀ start s head mid, signatureHead s = .ok head mid →
          mid.ahead = opener :: (items ++ closer :: rest) →
            ∃ sig s', signature start s = .ok sig s' ∧ s'.ahead = rest ∧
              Listing items sig.inputs) ∧
        ∀ inner mark s, s.ahead = opener :: (items ++ closer :: rest) →
          ∃ names s', handle inner mark s = lambdaBody inner mark names s' ∧ s'.ahead = rest ∧
            Listing items names := by
  constructor
  · rw [ofSource] at h
    split at h
    · cases h
    · rename_i buffer hbuffer
      obtain ⟨st, hparse⟩ := outcome_ok h
      exact ⟨buffer, hbuffer, (draws_fileUnit rfl hparse).2⟩
  · intro items opener closer rest hitems hopener hcloser
    constructor
    · intro start s head mid hhead hahead
      exact exists_signature hitems hcloser start hhead hahead hopener
    · intro inner mark s hahead
      exact exists_handle hitems hcloser inner mark hahead hopener

def scattered : SourceText := .ofString "t.m" "g = @(,a ~,,b,) a;\n" {}

theorem ofSource_parameters_scattered : ∃ unit buffer node before opener items closer after,
    ofSource scattered {} = .ok unit ∧ TokenBuffer.ofSource scattered {} = .ok buffer ∧
      node ∈ unit.nodes ∧ node.parameters.length = 3 ∧
        significant false buffer.tokens = before ++ opener :: (items ++ closer :: after) ∧
          opener.kind = .lparen ∧ closer.kind = .rparen ∧ Listing items node.parameters := by
  have hrun : (ofSource scattered {}).toOption.any (fun unit =>
      unit.nodes.any fun node => node.parameters.length == 3) = true := by decide +kernel
  cases hunit : ofSource scattered {} with
  | error e =>
    rw [hunit] at hrun
    cases hrun
  | ok unit =>
    rw [hunit] at hrun
    obtain ⟨node, hnode, hlength⟩ := List.any_eq_true.1 hrun
    have hlength := beq_iff_eq.1 hlength
    have hne : node.parameters ≠ [] := by
      intro hnil
      rw [hnil] at hlength
      cases hlength
    obtain ⟨⟨buffer, hbuffer, hlists⟩, -⟩ := ofSource_parameters hunit
    obtain ⟨before, opener, items, closer, after, hlisting⟩ := hlists node hnode hne
    exact ⟨unit, buffer, node, before, opener, items, closer, after, rfl, hbuffer, hnode, hlength,
      hlisting⟩

def juxtaposed : SourceText := .ofString "t.m" "function f(a b)\n" {}

/-- Nothing stands between two parameters that are accepted as a list. -/
theorem ofSource_juxtaposed : ∃ unit buffer node, ofSource juxtaposed {} = .ok unit ∧
    TokenBuffer.ofSource juxtaposed {} = .ok buffer ∧ node ∈ unit.nodes ∧
      node.parameters.length = 2 ∧ ∀ t ∈ buffer.tokens, t.kind ≠ .comma := by
  have hrun : (ofSource juxtaposed {}).toOption.any (fun unit =>
      unit.nodes.any fun node => node.parameters.length == 2) = true := by decide +kernel
  have hcommas : (TokenBuffer.ofSource juxtaposed {}).toOption.any (fun buffer =>
      buffer.tokens.all fun t => t.kind != .comma) = true := by decide +kernel
  cases hunit : ofSource juxtaposed {} with
  | error e =>
    rw [hunit] at hrun
    cases hrun
  | ok unit =>
    cases hbuffer : TokenBuffer.ofSource juxtaposed {} with
    | error e =>
      rw [hbuffer] at hcommas
      cases hcommas
    | ok buffer =>
      rw [hunit] at hrun
      rw [hbuffer] at hcommas
      obtain ⟨node, hnode, hlength⟩ := List.any_eq_true.1 hrun
      refine ⟨unit, buffer, node, rfl, rfl, hnode, beq_iff_eq.1 hlength, fun t ht => ?_⟩
      simpa using List.all_eq_true.1 hcommas t ht

end FileUnit

end MFile
