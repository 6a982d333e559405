import MFile.Proofs.Grammar.Extent.Statements
import MFile.Proofs.Grammar.Contents.Files
import MFile.Proofs.Grammar.Functions.Steps

/-!
Files. Statements come into a tree as they have been read, whatever becomes of the functions around
them, so each of them still has its place among the tokens.
-/

namespace MFile

open Grammar

namespace Node

variable {tokens : List Token} {node : Node}

def Sound (tokens : List Token) (node : Node) : Prop :=
  ∀ s, Node.stmt s ∈ node.nodes → Extends tokens s

theorem sound_iff (hnode : ∀ s, node ≠ .stmt s) :
    node.Sound tokens ↔ ∀ c ∈ node.children, c.2.Sound tokens := by
  constructor
  · exact fun h c hc s hs => h s (mem_nodes_iff.2 (.inr ⟨c, hc, hs⟩))
  · intro h s hs
    rcases mem_nodes_iff.1 hs with rfl | ⟨c, hc, hs⟩
    · exact absurd rfl (hnode s)
    · exact h c hc s hs

theorem sound_of_value {node : Node} (h : node.isValue = true) : node.Sound tokens := by
  refine (sound_iff ?_).2 fun c hc => sound_of_value (isValue_children h hc)
  rintro s rfl
  cases h
termination_by sizeOf node
decreasing_by exact sizeOf_lt_of_mem_children hc

theorem sound_of_values (hnode : ∀ s, node ≠ .stmt s)
    (h : ∀ c ∈ node.children, c.2.isValue = true) : node.Sound tokens :=
  (sound_iff hnode).2 fun c hc => sound_of_value (h c hc)

end Node

def AllSound {α : Type} (tokens : List Token) (node : α → Node) (as : List α) : Prop :=
  ∀ a ∈ as, (node a).Sound tokens

namespace Grammar

open Parse

variable {tokens : List Token}

theorem Held.sound {m m' : Front} {ss : List Stmt} (h : Held m m' (ss.map .stmt)) :
    AllSound m.tokens .stmt ss :=
  fun _ hs s' hs' => (h.each _ (List.mem_map_of_mem hs) _ hs').extent s' rfl

/-! ## Blocks -/

theorem sound_attr (a : Attribute) : (Node.attr a).Sound tokens :=
  Node.sound_of_values (by simp) (by simp [Node.isValue])

theorem sound_block_iff {b : Block} : (Node.block b).Sound tokens ↔
    ∀ item ∈ b.items, (Node.ofItem item).2.Sound tokens := by
  refine (Node.sound_iff (by simp)).trans ?_
  simp [or_imp, forall_and, sound_attr]

theorem sound_item {item : BlockItem} (h : ∀ f, item ≠ .method f) :
    (Node.ofItem item).2.Sound tokens := by
  cases item with
  | method f => exact absurd rfl (h f)
  | signature => exact Node.sound_of_value rfl
  | property | event | enumerator =>
    exact Node.sound_of_values (by simp [Node.ofItem])
      (by simp [Node.isValue, Node.ofItem, or_imp, forall_and])

theorem sound_definition_iff {c : ClassDef} :
    (Node.definition c).Sound tokens ↔ AllSound tokens .block c.blocks := by
  have hname : ∀ n : Name, (Node.name n).Sound tokens := fun n => Node.sound_of_value rfl
  refine (Node.sound_iff (by simp)).trans ?_
  simp [AllSound, or_imp, forall_and, hname, sound_attr]

/-! ## Functions -/

theorem sound_function_iff {f : FunctionDef} : (Node.function f).Sound tokens ↔
    AllSound tokens .block f.validation ∧ AllSound tokens .stmt f.body ∧
      AllSound tokens .function f.nested := by
  have hsignature : (Node.signature f.signature).Sound tokens := Node.sound_of_value rfl
  refine (Node.sound_iff (by simp)).trans ?_
  simp [AllSound, or_imp, forall_and, hsignature]

structure OpenSound (tokens : List Token) (f : OpenFunction) : Prop where
  validation : AllSound tokens .block f.validation
  body : AllSound tokens .stmt f.body

def RunSound (tokens : List Token) (run : FunctionRun) : Prop :=
  ∀ e ∈ run.entries, ∀ f ∈ e.function, (Node.function f).Sound tokens

theorem OpenSound.finish {f : OpenFunction} (h : OpenSound tokens f) (terminated : Bool) :
    (Node.function (f.finish terminated)).Sound tokens :=
  sound_function_iff.2 ⟨h.validation, h.body, List.forall_mem_nil _⟩

theorem FunctionDef.sound_nest {f : FunctionDef} {inner : List FunctionDef}
    (h : (Node.function f).Sound tokens) (hinner : AllSound tokens .function inner) :
    (Node.function { f with nested := inner }).Sound tokens := by
  obtain ⟨hvalidation, hbody, -⟩ := sound_function_iff.1 h
  exact sound_function_iff.2 ⟨hvalidation, hbody, hinner⟩

namespace RunSound

variable {run : FunctionRun} {f : OpenFunction}

theorem empty : RunSound tokens {} := FunctionRun.Every.empty

theorem push (h : RunSound tokens run) (parent : Option Nat) : RunSound tokens (run.push parent) :=
  FunctionRun.Every.push h parent

theorem fill (h : RunSound tokens run) (hf : OpenSound tokens f) (i : Nat) (terminated : Bool) :
    RunSound tokens (run.fill i (f.finish terminated)) :=
  FunctionRun.Every.fill h (hf.finish terminated) i

theorem fill_all {fs : List OpenFunction} (h : RunSound tokens run)
    (hfs : ∀ f ∈ fs, OpenSound tokens f) :
    RunSound tokens (fs.foldl (fun run f => run.fill f.index (f.finish false)) run) :=
  FunctionRun.Every.fill_all h fun f hf => (hfs f hf).finish false

theorem resolve (h : RunSound tokens run) : AllSound tokens .function run.resolve :=
  FunctionRun.Every.resolve h (fun _ _ hf => FunctionDef.sound_nest hf)
    (fun _ hf => (sound_function_iff.1 hf).2.2) fun _ hf => hf

end RunSound

/-! ## Parsers over the tokens of a file -/

def State.Over (file : String) (tokens : List Token) (s : State) : Prop :=
  s.file = file ∧ s.front.tokens = tokens

namespace State.Over

variable {file : String} {s s' : State} {t : Token} {rest : List Token}

theorem leads (h : s.Over file tokens) (hleads : s.front.Leads s'.front) : s'.Over file tokens :=
  ⟨hleads.file.trans h.1, hleads.tokens.trans h.2⟩

theorem past (h : s.Over file tokens) (hahead : s.ahead = t :: rest) :
    (s.past t rest).Over file tokens :=
  h.leads (.past .refl hahead)

theorem successive (h : s.Over file tokens) (htokens : Successive file tokens) :
    Successive s.file s.front.tokens := by
  rw [h.1, h.2]
  exact htokens

end State.Over

namespace Parse

variable {α β : Type} {file : String} {s : State} {p : Parse α} {P : α → Prop} {Q : β → Prop}

def Gives (file : String) (tokens : List Token) (p : Parse α) (P : α → Prop) : Prop :=
  ∀ s, s.Over file tokens → Meets false p s fun a s' => s'.Over file tokens ∧ P a

abbrev Stays (file : String) (tokens : List Token) (p : Parse α) : Prop :=
  Gives file tokens p fun _ => True

namespace Gives

theorem bind {f : α → Parse β} {Q : β → State → Prop} (h : Gives file tokens p P)
    (hs : s.Over file tokens)
    (hf : ∀ a mid, mid.Over file tokens → P a → Meets false (f a) mid Q) :
    Meets false (p >>= f) s Q :=
  (h s hs).bind fun a mid ⟨hmid, ha⟩ => hf a mid hmid ha

theorem rounds {body : α → Parse (Round α β)} {a : α} (ha : P a)
    (hbody : ∀ a s, P a → s.Over file tokens → Meets false (body a) s
      (Leaves (fun a' s' => s'.Over file tokens ∧ P a') fun b s' => s'.Over file tokens ∧ Q b)) :
    Gives file tokens (Parse.rounds a body) Q :=
  fun _ hs => .rounds (I := fun a st => st.Over file tokens ∧ P a) ⟨hs, ha⟩
    fun a st ⟨hst, ha⟩ => hbody a st ha hst

end Gives

theorem Moves.stays (h : Moves p) : Stays file tokens p :=
  fun s hs => (h s).mono fun _ _ hleads => ⟨hs.leads hleads, trivial⟩

section Over

variable (htokens : Successive file tokens)

include htokens

theorem Fitting.stays {w : α → List Node} (h : Fitting p w) : Stays file tokens p :=
  fun s hs => (h s (hs.successive htokens)).mono fun _ _ ha => ⟨hs.leads ha.leads, trivial⟩

theorem gives_statements : Gives file tokens statements (AllSound tokens .stmt) := by
  refine fun s hs => (held_statements (hs.successive htokens)).mono fun ss s' hss => ?_
  exact ⟨hs.leads hss.leads, hs.2 ▸ hss.sound⟩

/-! ### Declarations -/

theorem stays_optArguments {opener close : Kind} :
    Stays file tokens (optArguments opener close) := by
  refine fun s hs => .check fun found hfound => ?_
  split
  · rename_i h
    obtain ⟨t, rest, hahead, -⟩ := hfound h
    refine (fits_arguments fitting_expression (.nil (hs.successive htokens)) hahead).mono ?_
    exact fun es s' hes => ⟨hs.leads hes.leads, trivial⟩
  · exact .pure ⟨hs, trivial⟩

theorem stays_optName : Stays file tokens optName := by
  refine fun s hs => .check fun found _ => ?_
  split
  · exact fitting_dottedName.some.stays htokens s hs
  · exact .pure ⟨hs, trivial⟩

theorem stays_optValue : Stays file tokens optValue :=
  fun _ hs => .eat (fun _ _ hahead _ => fitting_expression.some.stays htokens _ (hs.past hahead))
    (.pure ⟨hs, trivial⟩)

theorem stays_oneAttribute : Stays file tokens oneAttribute := by
  have hrest : ∀ (start : Location) (negated : Bool) (st : State), st.Over file tokens → Meets false
      (do
        let name ← expect .identifier .identifier
        let value ← optValue
        return Attribute.mk (← siteFrom start) name.raw negated value) st
      fun _ s' => s'.Over file tokens ∧ True :=
    fun start negated st hst => .expect fun name _ hahead _ =>
      (stays_optValue htokens).bind (hst.past hahead) fun value mid hmid _ =>
        .siteFrom (.pure ⟨hmid, trivial⟩)
  exact fun s hs => .here (.eatOperator (fun _ _ hahead _ _ => hrest _ true _ (hs.past hahead))
    (hrest _ false s hs))

theorem stays_optAttributes : Stays file tokens optAttributes := by
  refine fun s hs => .check fun found hfound => ?_
  split
  · rename_i h
    obtain ⟨t, rest, hahead, -⟩ := hfound h
    rw [attributes_eq]
    refine .advance hahead (Gives.rounds (P := fun _ => True) trivial ?_ _ (hs.past hahead))
    intro as s _ hs
    have hnext : ∀ st : State, st.Over file tokens → Meets false
        (do return (.again (as ++ [← oneAttribute]) : Round (List Attribute) (List Attribute))) st
        (Leaves (fun (_ : List Attribute) s' => s'.Over file tokens ∧ True)
          fun (_ : List Attribute) s' => s'.Over file tokens ∧ True) :=
      fun st hst => (stays_oneAttribute htokens).bind hst fun a mid hmid _ => .pure ⟨hmid, trivial⟩
    refine .eat (fun _ _ hahead _ => .pure ⟨hs.past hahead, trivial⟩) ?_
    simp only [Option.isSome_none, Bool.false_eq_true, if_false]
    split
    · exact moves_discardExpect.stays.bind hs fun _ mid hmid _ => hnext mid hmid
    · exact hnext s hs
  · exact .pure ⟨hs, trivial⟩

theorem stays_property : Stays file tokens property := by
  rw [property_eq]
  refine fun s hs => .here ((fitting_dottedName.stays htokens).bind hs fun n mid hmid _ => ?_)
  refine (stays_optArguments htokens).bind hmid fun dimensions mid₁ hmid₁ _ => ?_
  refine (stays_optName htokens).bind hmid₁ fun cls mid₂ hmid₂ _ => ?_
  refine (stays_optArguments htokens).bind hmid₂ fun validators mid₃ hmid₃ _ => ?_
  refine (stays_optValue htokens).bind hmid₃ fun default mid₄ hmid₄ _ => .siteFrom (.pure ?_)
  exact ⟨hmid₄, trivial⟩

/-! ### Blocks -/

def AddsSound (file : String) (tokens : List Token) (addNext : Block → Parse Block) : Prop :=
  ∀ b, (Node.block b).Sound tokens →
    Gives file tokens (addNext b) fun b' => (Node.block b').Sound tokens

omit htokens in
theorem gives_addItem (start : Location) {b : Block} {item : BlockItem}
    (hb : (Node.block b).Sound tokens) (hitem : (Node.ofItem item).2.Sound tokens) :
    Gives file tokens (addItem start b item) fun b' => (Node.block b').Sound tokens := by
  intro s hs
  rw [addItem, Block.add]
  split
  · rename_i b' hadd
    split at hadd <;> cases hadd
    refine .pure ⟨hs, sound_block_iff.2 (List.forall_mem_append.2 ⟨sound_block_iff.1 hb, ?_⟩)⟩
    exact List.forall_mem_singleton.2 hitem
  · exact .of_error rfl

omit htokens in
theorem gives_addStatement (start : Location) {b : Block} {item : BlockItem}
    (hb : (Node.block b).Sound tokens) (hitem : ∀ f, item ≠ .method f) :
    Gives file tokens (addStatement start b item) fun b' => (Node.block b').Sound tokens :=
  fun _ hs => (gives_addItem start hb (sound_item hitem)).bind hs fun _ _ hmid hb' =>
    moves_endStatement.stays.bind hmid fun _ _ hmid' _ => .pure ⟨hmid', hb'⟩

theorem addsSound_addProperty : AddsSound file tokens addProperty :=
  fun _ hb _ hs => .here ((stays_property htokens).bind hs fun _ _ hmid _ =>
    gives_addStatement _ hb (by simp) _ hmid)

theorem gives_block (kind : BlockKind) (opener : Token) {addNext : Block → Parse Block}
    (h : AddsSound file tokens addNext) :
    Gives file tokens (block kind opener addNext) fun b => (Node.block b).Sound tokens := by
  intro s hs
  rw [block_eq]
  refine (stays_optAttributes htokens).bind hs fun attrs mid hmid _ => .siteAt ?_
  refine Gives.bind (P := fun b => (Node.block b).Sound tokens) (.rounds (P := fun b =>
    (Node.block b).Sound tokens) (sound_block_iff.2 (List.forall_mem_nil _)) ?_) hmid
    fun b mid₁ hmid₁ hb => .spanFrom (.pure ⟨hmid₁, ?_⟩)
  · intro b st hb hst
    refine moves_skipSeparators.stays.bind hst fun _ st₁ hst₁ _ => ?_
    refine .eatWord (fun _ _ hahead _ => .pure ⟨hst₁.past hahead, hb⟩) (.atEnd ?_)
    split
    · exact .failHere_bind
    · exact (h b hb).bind hst₁ fun b' st₂ hst₂ hb' => .pure ⟨hst₂, hb'⟩
  · exact sound_block_iff.2 fun item hitem => sound_block_iff.1 hb item hitem

/-! ### Signatures -/

omit htokens in
theorem fitting_outputs : Fitting outputs fun ns => ns.map .name := by
  have hround : FitsOn outputsRound (fun ns => ns.map Node.name) fun ns => ns.map .name := by
    refine fun ns m s hns => .peekFirst? (fun _ => .unexpected) fun t rest hahead => ?_
    split
    · exact .advance hahead (.pure (hns.past hahead))
    · exact .advance hahead (.pure (hns.past hahead))
    · refine fitting_identifier.after hns fun n mid hn => .pure ?_
      change Fits m mid.front ((ns ++ [n]).map .name)
      rw [List.map_append]
      exact hn
    · exact .unexpected
  rw [outputs_eq]
  exact fun s hs => hround.rounds (.nil hs)

theorem stays_signatureHead : Stays file tokens signatureHead := by
  have hname := fitting_dottedName.stays htokens
  refine fun s hs => .eat (fun _ _ hahead _ => ?_) ?_
  · refine (fitting_outputs.stays htokens).bind (hs.past hahead) fun outs mid hmid _ => ?_
    refine moves_discardExpect.stays.bind hmid fun _ mid₁ hmid₁ _ => ?_
    exact hname.bind hmid₁ fun n mid₂ hmid₂ _ => .pure ⟨hmid₂, trivial⟩
  · refine hname.bind hs fun first mid hmid _ => .check fun found hfound => ?_
    split
    · rename_i h
      obtain ⟨t, rest, hahead, -⟩ := hfound h
      have hrest : Meets false
          (do
            advance
            return ([first], ← dottedName)) mid fun _ s' => s'.Over file tokens ∧ True :=
        .advance hahead (hname.bind (hmid.past hahead) fun n mid₁ hmid₁ _ => .pure ⟨hmid₁, trivial⟩)
      split
      · exact .fail_bind
      · exact hrest
    · exact .pure ⟨hmid, trivial⟩

theorem stays_signature (start : Location) : Stays file tokens (signature start) := by
  refine fun s hs => (stays_signatureHead htokens).bind hs fun (outs, n) mid hmid _ => ?_
  refine .eat (fun _ _ hahead _ => ?_) (.step rfl (.siteFrom (.pure ⟨hmid, trivial⟩)))
  exact (fitting_parameters.stays htokens).bind (hmid.past hahead) fun ins mid₁ hmid₁ _ =>
    .siteFrom (.pure ⟨hmid₁, trivial⟩)

/-! ### Functions -/

theorem gives_validationBlocks : Gives file tokens validationBlocks (AllSound tokens .block) := by
  rw [validationBlocks_eq]
  refine .rounds (P := AllSound tokens .block) (List.forall_mem_nil _) fun bs st hbs hst => ?_
  refine moves_skipSeparators.stays.bind hst fun _ mid hmid _ => ?_
  refine .eatWord (fun opener _ hahead _ => ?_) (.pure ⟨hmid, hbs⟩)
  refine (gives_block htokens .arguments opener (addsSound_addProperty htokens)).bind
    (hmid.past hahead) fun b mid₁ hmid₁ hb => .pure ⟨hmid₁, ?_⟩
  exact List.forall_mem_append.2 ⟨hbs, List.forall_mem_singleton.2 hb⟩

theorem gives_openFunction {run : FunctionRun} (hrun : RunSound tokens run) (parent : Option Nat)
    (opener : Token) : Gives file tokens (openFunction run parent opener) fun r =>
      OpenSound tokens r.1 ∧ RunSound tokens r.2 := by
  refine fun s hs => .freshId ((stays_signature htokens opener.location).bind (s := s.numbered) hs
    fun sig mid hmid _ => .get (.modify ?_))
  refine (gives_validationBlocks htokens).bind (s := { mid with frames := .function :: mid.frames })
    hmid fun blocks mid₁ hmid₁ hblocks => .pure ?_
  exact ⟨hmid₁, ⟨hblocks, List.forall_mem_nil _⟩, hrun.push parent⟩

omit htokens in
theorem gives_closeWithEnd {run : FunctionRun} {f : OpenFunction} (hrun : RunSound tokens run)
    (hf : OpenSound tokens f) : Gives file tokens (closeWithEnd f run) (RunSound tokens) := by
  have hrest : ∀ st : State, st.Over file tokens → Meets false
      (do
        endStatement
        popFrame
        return run.fill f.index (f.finish true)) st
      fun run' s' => s'.Over file tokens ∧ RunSound tokens run' :=
    fun st hst => moves_endStatement.stays.bind hst fun _ mid hmid _ =>
      .modify (.pure ⟨hmid, hrun.fill hf _ true⟩)
  refine fun s hs =>
    .eatWord (fun _ _ hahead _ => ?_) (.current? (fun _ => ?_) fun t rest _ => .fail_bind)
  · simp only [Option.isNone_some, Bool.false_eq_true, if_false]
    split
    · exact hrest _ (hs.past hahead)
    · exact .modify (hrest _ (hs.past hahead))
  · exact Meets.unexpected.bind fun _ _ h => (h : False).elim

structure RunningSound (tokens : List Token) (soFar : RunSoFar) : Prop where
  opens : ∀ f ∈ soFar.current :: soFar.enclosing, OpenSound tokens f
  run : RunSound tokens soFar.run

theorem running_functionRound {soFar : RunSoFar} (h : RunningSound tokens soFar)
    (hs : s.Over file tokens) : Meets false (functionRound soFar) s (Leaves
      (fun soFar' s' => s'.Over file tokens ∧ RunningSound tokens soFar')
      fun run s' => s'.Over file tokens ∧ RunSound tokens run) := by
  refine (gives_statements htokens).bind hs fun body mid hmid hbody => ?_
  obtain ⟨hcurrent, henclosing⟩ := List.forall_mem_cons.1 h.opens
  have hlonger : OpenSound tokens { soFar.current with body := soFar.current.body ++ body } :=
    { hcurrent with body := List.forall_mem_append.2 ⟨hcurrent.body, hbody⟩ }
  have hopens := List.forall_mem_cons.2 ⟨hlonger, henclosing⟩
  refine .eatWord (fun opener rest hahead _ => ?_) (.atEnd ?_)
  · refine (gives_openFunction htokens h.run _ opener).bind (hmid.past hahead)
      fun (inner, run) mid₁ hmid₁ ⟨hinner, hrun⟩ => .pure ⟨hmid₁, ?_⟩
    exact ⟨List.forall_mem_cons.2 ⟨hinner, hopens⟩, hrun⟩
  split
  · have hclose : Gives file tokens (closeAtEndOfFile ({ soFar.current with
        body := soFar.current.body ++ body } :: soFar.enclosing) soFar.run) (RunSound tokens) := by
      refine fun s hs => .get ?_
      dsimp only
      split
      · exact .fail
      · exact .pure ⟨hs, h.run.fill_all hopens⟩
    exact hclose.bind hmid fun run mid₁ hmid₁ hrun => .pure ⟨hmid₁, hrun⟩
  · refine (gives_closeWithEnd h.run hlonger).bind hmid fun run mid₁ hmid₁ hrun => ?_
    generalize soFar.enclosing = enclosing at henclosing
    cases enclosing with
    | nil => exact .pure ⟨hmid₁, hrun⟩
    | cons parent enclosing => exact .pure ⟨hmid₁, henclosing, hrun⟩

theorem gives_function {run : FunctionRun} (hrun : RunSound tokens run) (opener : Token) :
    Gives file tokens (function run opener) (RunSound tokens) := by
  refine fun s hs => .bracketed ?_
  refine (gives_openFunction htokens hrun none opener).bind (s := s) hs
    fun (first, run₁) mid hmid ⟨hfirst, hrun₁⟩ => ?_
  exact .rounds (I := fun soFar st => st.Over file tokens ∧ RunningSound tokens soFar)
    ⟨hmid, List.forall_mem_singleton.2 hfirst, hrun₁⟩
    fun soFar st ⟨hst, hsoFar⟩ => running_functionRound htokens hsoFar hst

theorem gives_localFunctions : Gives file tokens localFunctions (AllSound tokens .function) := by
  rw [localFunctions_eq]
  refine fun s hs => Gives.bind (P := RunSound tokens) (.rounds (P := RunSound tokens) .empty
    fun run st hrun hst => ?_) hs fun run mid hmid hrun => .pure ⟨hmid, hrun.resolve⟩
  refine moves_skipSeparators.stays.bind hst fun _ mid hmid _ => ?_
  refine .eatWord (fun opener rest hahead _ => ?_)
    (.current? (fun _ => .pure ⟨hmid, hrun⟩) fun t rest _ => ?_)
  · exact (gives_function htokens hrun opener).bind (hmid.past hahead) fun run' mid₁ hmid₁ hrun' =>
      .pure ⟨hmid₁, hrun'⟩
  · dsimp only
    split
    · exact .fail
    · exact .failHere

/-! ### Classes -/

omit htokens in
theorem gives_addMethods (start : Location) (fs : List FunctionDef) {b : Block}
    (hfs : AllSound tokens .function fs) (hb : (Node.block b).Sound tokens) :
    Gives file tokens (fs.foldlM (fun b method => addItem start b (.method method)) b)
      fun b' => (Node.block b').Sound tokens := by
  induction fs generalizing b with
  | nil => exact fun s hs => .pure ⟨hs, hb⟩
  | cons f fs ih =>
    obtain ⟨hf, hfs⟩ := List.forall_mem_cons.1 hfs
    rw [List.foldlM_cons]
    have hadd : Gives file tokens (addItem start b (.method f)) fun b' =>
        (Node.block b').Sound tokens := gives_addItem start hb hf
    exact fun s hs => hadd.bind hs fun b' mid hmid hb' => ih hfs hb' mid hmid

theorem addsSound_addMethod : AddsSound file tokens addMethod := by
  refine fun b hb s hs => .here (.eatWord (fun opener rest hahead _ => ?_) ?_)
  · have hfunction : Gives file tokens (inMethods (function {} opener)) (RunSound tokens) :=
      fun s hs => .bracketed (gives_function htokens .empty opener
        { s with methodDepth := s.methodDepth + 1 } hs)
    exact hfunction.bind (hs.past hahead) fun run mid hmid hrun =>
      gives_addMethods _ _ hrun.resolve hb mid hmid
  · exact (stays_signature htokens _).bind hs fun sig mid hmid _ =>
      gives_addStatement _ hb (by simp) mid hmid

theorem addsSound_addNext (kind : BlockKind) : AddsSound file tokens (addNext kind) := by
  have hidentifier : Stays file tokens identifier := fitting_identifier.stays htokens
  cases kind with
  | properties | arguments => exact addsSound_addProperty htokens
  | methods => exact addsSound_addMethod htokens
  | events =>
    exact fun b hb s hs => .here (hidentifier.bind hs fun n mid hmid _ =>
      .siteAt (gives_addStatement _ hb (by simp) _ hmid))
  | enumeration =>
    intro b hb s hs
    change Meets false (addEnumerator b) s _
    rw [addEnumerator_eq]
    refine .here (hidentifier.bind hs fun n mid hmid _ => ?_)
    exact (stays_optArguments htokens).bind hmid fun args mid₁ hmid₁ _ =>
      .siteFrom (gives_addStatement _ hb (by simp) _ hmid₁)

theorem stays_superclasses : Stays file tokens superclasses := by
  have hname : Stays file tokens dottedName := fitting_dottedName.stays htokens
  rw [superclasses_eq]
  refine fun s hs => .eatOperator (fun _ _ hahead _ _ => ?_) (.pure ⟨hs, trivial⟩)
  refine hname.bind (hs.past hahead) fun first mid hmid _ => ?_
  refine Gives.rounds (P := fun _ => True) trivial (fun ns st _ hst => ?_) mid hmid
  refine .eatOperator (fun _ _ hahead _ _ => ?_) (.pure ⟨hst, trivial⟩)
  exact hname.bind (hst.past hahead) fun n mid₁ hmid₁ _ => .pure ⟨hmid₁, trivial⟩

theorem gives_classBlocks (opener : Token) :
    Gives file tokens (classBlocks opener) (AllSound tokens .block) := by
  rw [classBlocks_eq]
  refine .rounds (P := AllSound tokens .block) (List.forall_mem_nil _) fun bs st hbs hst => ?_
  refine moves_skipSeparators.stays.bind hst fun _ mid hmid _ => ?_
  refine .eatWord (fun _ _ hahead _ => ?_) (.current? (fun _ => .failHere) fun t rest hahead => ?_)
  · exact moves_endStatement.stays.bind (hmid.past hahead) fun _ mid₁ hmid₁ _ => .pure ⟨hmid₁, hbs⟩
  · dsimp only
    split
    · rename_i kind _
      refine .advance hahead ((gives_block htokens kind t (addsSound_addNext htokens kind)).bind
        (hmid.past hahead) fun b mid₁ hmid₁ hb => .pure ⟨hmid₁, ?_⟩)
      exact List.forall_mem_append.2 ⟨hbs, List.forall_mem_singleton.2 hb⟩
    · exact .failHere

theorem gives_classDef (opener : Token) :
    Gives file tokens (classDef opener) fun c => AllSound tokens .block c.blocks := by
  refine fun s hs => .freshId ((stays_optAttributes htokens).bind (s := s.numbered) hs
    fun attrs mid hmid _ => ?_)
  refine (fitting_identifier.stays htokens).bind hmid fun n mid₁ hmid₁ _ => ?_
  refine (stays_superclasses htokens).bind hmid₁ fun supers mid₂ hmid₂ _ => .spanFrom ?_
  exact (gives_classBlocks htokens opener).bind hmid₂ fun blocks mid₃ hmid₃ hblocks =>
    .pure ⟨hmid₃, hblocks⟩

/-! ### Units -/

theorem gives_fileUnit :
    Gives file tokens fileUnit fun unit => (Node.unit unit).Sound tokens := by
  refine fun s hs => moves_skipSeparators.stays.bind hs fun _ mid hmid _ =>
    .checkWord fun isFunction => ?_
  split
  · refine .freshId ((gives_localFunctions htokens).bind (s := mid.numbered) hmid
      fun fs mid₁ hmid₁ hfs => .wholeFile (.pure ⟨hmid₁, ?_⟩))
    refine (Node.sound_iff (by simp)).2 ?_
    simpa [AllSound] using hfs
  · refine .eatWord (fun opener rest hahead _ => .freshId ?_) (.freshId ?_)
    · have hclass : Gives file tokens (inFrame .classBody (classDef opener))
          fun c => AllSound tokens .block c.blocks :=
        fun s hs => .bracketed (gives_classDef htokens opener
          { s with frames := .classBody :: s.frames } hs)
      refine hclass.bind (s := (mid.past opener rest).numbered) (hmid.past hahead)
        fun c mid₁ hmid₁ hc => ?_
      refine (gives_localFunctions htokens).bind hmid₁ fun fs mid₂ hmid₂ hfs =>
        .wholeFile (.pure ⟨hmid₂, ?_⟩)
      refine (Node.sound_iff (by simp)).2 ?_
      simpa [AllSound, sound_definition_iff.2 hc] using hfs
    · refine (gives_statements htokens).bind (s := mid.numbered) hmid
        fun body mid₁ hmid₁ hbody => ?_
      refine (gives_localFunctions htokens).bind hmid₁ fun fs mid₂ hmid₂ hfs =>
        .wholeFile (.pure ⟨hmid₂, ?_⟩)
      refine (Node.sound_iff (by simp)).2 ?_
      simpa [AllSound, or_imp, forall_and] using And.intro hbody hfs

end Over

end Parse

end Grammar

open Parse

namespace FileUnit

/-- The locations in a file that is accepted nest. Each statement is read from some of the tokens,
one after the other, from the first of which it begins to the last of which it ends, but for the
words of an import, which are statements of their own. It covers everything below it, and each value
below it covers its children. -/
theorem ofSource_extends {source : SourceText} {settings : Settings} {unit : FileUnit}
    (h : FileUnit.ofSource source settings = .ok unit) :
    ∃ buffer, TokenBuffer.ofSource source settings = .ok buffer ∧
      Successive source.name (significant false buffer.tokens) ∧
      ∀ s, Node.stmt s ∈ unit.nodes → Extends (significant false buffer.tokens) s := by
  rw [ofSource] at h
  split at h
  · cases h
  rename_i buffer hbuffer
  have htokens : Successive source.name (significant false buffer.tokens) := by
    have hscan := Scan.ofSource_successive source settings
    rw [TokenBuffer.ofSource] at hbuffer
    split at hbuffer
    · cases hbuffer
    · cases hbuffer
      exact hscan.sublist (significant_sublist false _)
  obtain ⟨st, hparse⟩ := outcome_ok h
  exact ⟨buffer, hbuffer, htokens, ((gives_fileUnit htokens _ ⟨rfl, rfl⟩).ok hparse).2⟩

def spread : SourceText :=
  .ofString "t.m" "x = [1 a.b'\n (2)];\nwhile f(1, ...\n  y)\n  import p.q r\nend\n" {}

theorem ofSource_extends_spread : ∃ unit buffer s, FileUnit.ofSource spread {} = .ok unit ∧
    TokenBuffer.ofSource spread {} = .ok buffer ∧ Node.stmt s ∈ unit.nodes ∧
      s.site.location.stop?.isSome = true ∧ Extends (significant false buffer.tokens) s := by
  have hrun : (FileUnit.ofSource spread {}).toOption.any (fun unit =>
      unit.nodes.any fun node => node.isLoop && node.location.stop?.isSome) = true := by
    decide +kernel
  cases hunit : FileUnit.ofSource spread {} with
  | ok unit =>
    rw [hunit] at hrun
    obtain ⟨buffer, hbuffer, -, hextends⟩ := ofSource_extends hunit
    obtain ⟨node, hnode, hloop⟩ := List.any_eq_true.1 hrun
    obtain ⟨hloop, hstop⟩ := Bool.and_eq_true_iff.1 hloop
    cases node with
    | stmt s => exact ⟨unit, buffer, s, rfl, hbuffer, hnode, hstop, hextends s hnode⟩
    | _ => cases hloop
  | error e =>
    rw [hunit] at hrun
    cases hrun

end FileUnit

end MFile
