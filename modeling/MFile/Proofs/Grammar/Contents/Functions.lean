import MFile.Grammar.Class
import MFile.Proofs.Grammar.Contents.Statements
import MFile.Proofs.Grammar.Functions.Methods

/-!
Blocks of declarations, signatures, functions and classes lose no token. While functions are read,
what the tokens behind have said is said by the functions that are filled in and by those that are
still open; each of these has its own place in the run, so none is lost or filled in twice.
-/

namespace MFile.Grammar.Parse

variable {x : Terminal} {c k : Nat} {s : State}

/-! ## Attributes and properties -/

theorem tells_optArguments {opener close : Kind} (hopen : opener.isSilent = true)
    (hclose : close.isSilent = true) :
    Tells x (optArguments opener close) (tallies x .expr) := by
  refine fun c s => .check fun found hfound => ?_
  split
  · rename_i h
    exact says_arguments tells_expression hclose fun t ht =>
      Token.silent_of_eq hopen (hfound h t ht)
  · exact .pure rfl

theorem tells_optName : Tells x optName fun n => tallies x .name n.toList := by
  refine fun c s => .check fun _ _ => ?_
  split
  · exact tells_dottedName.some c s
  · exact .pure rfl

theorem tells_optValue : Tells x optValue fun e => tallies x .expr e.toList :=
  fun _ _ => .eat rfl (fun _ mid => tells_expression.some _ mid) (.pure rfl)

theorem tells_oneAttribute : Tells x oneAttribute fun a => Node.tally x (.attr a) := by
  have hrest : ∀ (start : Location) (negated : Bool), Tells x
      (do
        let name ← expect .identifier .identifier
        let value ← optValue
        return Attribute.mk (← siteFrom start) name.raw negated value)
      fun a => Node.tally x (.attr a) := by
    refine fun start negated c s =>
      .expect fun t mid hk _ => tells_optValue.bind fun value _ _ => ?_
    refine .siteFrom fun _ _ _ => .pure ?_
    simp [content?_identifier hk, Nat.add_assoc]
  exact fun c s => .here fun start => .eatOperator (fun _ mid => hrest start true c mid)
    (hrest start false c s)

theorem turns_attributesRound : Turns x attributesRound (tallies x .attr) (tallies x .attr) := by
  have hnext : ∀ (attrs : List Attribute) (c : Nat) (s : State), Says x (c + tallies x .attr attrs)
      (do return (.again (attrs ++ [← oneAttribute]) : Round (List Attribute) (List Attribute))) s
      fun r c' _ => c' = c + Round.weigh (tallies x .attr) (tallies x .attr) r := by
    exact fun attrs c s => tells_oneAttribute.bind fun a _ _ =>
      .pure (by simp [Round.weigh, Nat.add_assoc])
  refine fun attrs c s => .eat rfl (fun _ _ => .pure rfl) ?_
  simp only [Option.isSome_none, Bool.false_eq_true, if_false]
  split
  · exact .discardSilent rfl fun _ => hnext attrs c _
  · exact hnext attrs c s

theorem tells_optAttributes : Tells x optAttributes (tallies x .attr) := by
  refine fun c s => .check fun found hfound => ?_
  split
  · rename_i h
    rw [attributes_eq]
    exact .pass (fun t ht => Token.silent_of_eq rfl (hfound h t ht)) fun _ =>
      turns_attributesRound.rounds [] c _
  · exact .pure rfl

theorem tells_property : Tells x property fun p => Node.tally x (.property p) := by
  rw [property_eq]
  refine fun c s => .here fun start => tells_dottedName.bind fun n _ _ => ?_
  refine (tells_optArguments rfl rfl).bind fun dimensions _ _ =>
    tells_optName.bind fun cls _ _ => ?_
  refine (tells_optArguments rfl rfl).bind fun validators _ _ => tells_optValue.bind fun e _ _ => ?_
  exact .siteFrom fun _ _ _ => .pure (by simp [Nat.add_assoc])

/-! ## Items -/

abbrev AddsUp (x : Terminal) (addNext : Block → Parse Block) : Prop :=
  ∀ b c s, Says x (c + Node.tally x (.block b)) (addNext b) s
    fun b' c' _ => c' = c + Node.tally x (.block b')

theorem says_addItem (start : Location) (b : Block) (item : BlockItem)
    (hc : c = k + Node.tally x (.block b) + (Node.ofItem item).2.tally x) :
    Says x c (addItem start b item) s fun b' c' _ => c' = k + Node.tally x (.block b') := by
  subst hc
  rw [addItem, Block.add]
  split
  · rename_i b' hadd
    split at hadd <;> cases hadd
    exact .pure (by simp [Nat.add_assoc])
  · exact .failing fun _ _ => throw_ok

theorem says_addStatement (start : Location) (b : Block) (item : BlockItem)
    (hc : c = k + Node.tally x (.block b) + (Node.ofItem item).2.tally x) :
    Says x c (addStatement start b item) s fun b' c' _ => c' = k + Node.tally x (.block b') := by
  refine (says_addItem start b item hc).bind fun b' c' _ _ hc' => ?_
  subst hc'
  exact silent_endStatement.bind fun _ _ _ => .pure rfl

theorem addsUp_addProperty : AddsUp x addProperty :=
  fun b _ _ => .here fun start => tells_property.bind fun p _ _ =>
    says_addStatement start b (.property p) rfl

theorem turns_blockRound (opener : Token) {addNext : Block → Parse Block} (h : AddsUp x addNext) :
    Turns x (blockRound opener addNext)
      (fun b => Node.tally x (.block b)) (fun b => Node.tally x (.block b)) := by
  refine fun b c s => silent_skipSeparators.bind fun _ mid _ => ?_
  refine .eatWord (fun _ _ _ _ => .pure rfl) (.atEnd ?_)
  split
  · exact .failing_bind fun _ _ => failHere_ok
  · refine (h b c mid).bind fun b' c' _ _ hc' => ?_
    subst hc'
    exact .pure rfl

theorem tells_block (kind : BlockKind) (opener : Token) {addNext : Block → Parse Block}
    (h : AddsUp x addNext) :
    Tells x (block kind opener addNext) fun b => Node.tally x (.block b) := by
  rw [block_eq]
  refine fun c s => tells_optAttributes.bind fun attrs _ _ => .siteAt fun _ _ => ?_
  refine .turns (k := c) (by simp) (turns_blockRound opener h)
    fun b _ => .spanFrom fun _ => .pure ?_
  simp

/-! ## Signatures -/

theorem turns_outputsRound : Turns x outputsRound (tallies x .name) (tallies x .name) := by
  refine fun ns c s => .peekFirst? fun k hpass => ?_
  split
  · exact .pass (hpass _ rfl rfl) fun _ => .pure rfl
  · exact .pass (hpass _ rfl rfl) fun _ => .pure rfl
  · exact tells_identifier.bind fun n _ _ => .pure (by simp [Round.weigh, Nat.add_assoc])
  · exact .failing fun _ _ => unexpected_ok

theorem tells_outputs : Tells x outputs (tallies x .name) :=
  turns_outputsRound.rounds []

theorem tells_signatureHead : Tells x signatureHead fun h =>
    tallies x .name h.1 + Node.tally x (.name h.2) := by
  refine fun c s => .eat rfl (fun _ _ => ?_) (tells_dottedName.bind fun first mid _ => ?_)
  · refine tells_outputs.bind fun outs _ _ => .discardSilent rfl fun _ => ?_
    exact tells_dottedName.bind fun n _ _ => .pure (Nat.add_assoc _ _ _)
  · refine .check fun found hfound => ?_
    split
    · rename_i h
      have hpass : ∀ t ∈ mid.ahead.head?, t.content? = none :=
        fun t ht => Token.silent_of_eq rfl (hfound h t ht)
      split
      · exact .failing_bind fun _ _ => fail_ok
      · refine .pass hpass fun _ => tells_dottedName.bind fun n _ _ => .pure ?_
        simp [Nat.add_assoc]
    · exact .pure (by simp)

theorem tells_signature (start : Location) :
    Tells x (signature start) fun sig => Node.tally x (.signature sig) := by
  have hrest : ∀ (outs ins : List Name) (n : Name) (c : Nat) (s : State), Says x
      (c + (tallies x .name outs + Node.tally x (.name n)) + tallies x .name ins)
      (do return Signature.mk (← siteFrom start) n ins outs) s
      fun sig c' _ => c' = c + Node.tally x (.signature sig) := by
    exact fun outs ins n c s => .siteFrom fun _ _ _ => .pure (by simp [Nat.add_assoc])
  refine fun c s => tells_signatureHead.bind fun (outs, n) _ _ => .eat rfl (fun _ _ => ?_)
    (hrest outs [] n c _)
  exact tells_parameters.bind fun ins _ _ => hrest outs ins n c _

end MFile.Grammar.Parse

namespace MFile.Grammar

namespace FunctionRun

variable {x : Terminal} {run : FunctionRun} {opens : List Nat} {i : Nat} {e : RunEntry}
  {f : FunctionDef}

theorem filled_push (run : FunctionRun) (parent : Option Nat) :
    (run.push parent).filled = run.filled := by
  simp [push, filled]

section Measure

variable {M : Type} [AddCommMonoid M] {μ : FunctionDef → M}

theorem sum_filled_fill (he : run.entries[i]? = some e) (hnone : e.function = none) :
    ((run.fill i f).filled.map μ).sum = (run.filled.map μ).sum + μ f := by
  obtain ⟨entries⟩ := run
  simp only [fill, filled] at he ⊢
  induction entries generalizing i with
  | nil => simp at he
  | cons e' es ih =>
    cases i with
    | zero =>
      cases he
      simp [hnone, add_comm]
    | succ i =>
      rw [List.modify_succ_cons]
      have hi := ih (by simpa using he)
      cases hf : e'.function with
      | none => rw [List.filterMap_cons_none hf, List.filterMap_cons_none hf, hi]
      | some g =>
        rw [List.filterMap_cons_some hf, List.filterMap_cons_some hf, List.map_cons, List.sum_cons,
          List.map_cons, List.sum_cons, hi, add_assoc]

def Flat (run : FunctionRun) : Prop := ∀ e ∈ run.entries, ∀ f ∈ e.function, f.nested = []

variable (hμ : ∀ f inner, f.nested = [] → μ { f with nested := inner } = μ f + (inner.map μ).sum)

include hμ

theorem sum_nestFrom (k : Nat) {es : List RunEntry}
    (h : ∀ e ∈ es, ∀ f ∈ e.function, f.nested = []) :
    (((nestFrom k es).map (·.2)).map μ).sum = ((es.filterMap (·.function)).map μ).sum := by
  induction es generalizing k with
  | nil => rfl
  | cons e es ih =>
    obtain ⟨he, hes⟩ := List.forall_mem_cons.1 h
    have hlater := ih (k + 1) hes
    cases hf : e.function with
    | none => rw [nestFrom, hf, List.filterMap_cons_none hf, hlater]
    | some f =>
      have hsplit : ((((nestFrom (k + 1) es).filter (·.1 == some k)).map (·.2)).map μ).sum +
          ((((nestFrom (k + 1) es).filter (·.1 != some k)).map (·.2)).map μ).sum =
            (((nestFrom (k + 1) es).map (·.2)).map μ).sum := by
        rw [← List.sum_append, ← List.map_append, ← List.map_append]
        exact (((List.filter_append_perm _ _).map _).map _).sum_eq
      rw [nestFrom, hf, List.filterMap_cons_some hf, List.map_cons, List.map_cons, List.sum_cons,
        List.map_cons, List.sum_cons, he f hf, List.reverse_nil, List.append_nil,
        hμ f _ (he f hf), add_assoc, hsplit, hlater]

/-- What adds up over nested functions is the same once functions are nested in each other. -/
theorem sum_resolve (h : run.Flat) : (run.resolve.map μ).sum = (run.filled.map μ).sum := by
  rw [resolve]
  split
  · rw [nest_eq]
    exact sum_nestFrom hμ 0 h
  · rfl

end Measure

theorem tallies_fill (he : run.entries[i]? = some e) (hnone : e.function = none) :
    tallies x .function (run.fill i f).filled =
      tallies x .function run.filled + Node.tally x (.function f) :=
  sum_filled_fill he hnone

theorem tallies_resolve (h : run.Flat) :
    tallies x .function run.resolve = tallies x .function run.filled := by
  refine sum_resolve (fun f inner hf => ?_) h
  rw [Node.tally_function, Node.tally_function, hf, tallies_nil, Nat.add_zero]
  rfl

end FunctionRun

namespace Parse

variable {x : Terminal} {c k : Nat} {s st : State} {run : FunctionRun} {f : OpenFunction}
  {opens : List OpenFunction}

def OpenFunction.tally (x : Terminal) (f : OpenFunction) : Nat :=
  Node.tally x (.signature f.signature) + tallies x .block f.validation + tallyBody x f.body

theorem OpenFunction.tally_finish (f : OpenFunction) (terminated : Bool) :
    Node.tally x (.function (f.finish terminated)) = f.tally x := by
  rw [Node.tally_function]
  rfl

/-- What has been said after `k` is said by the functions of a run, read or still open. -/
structure Holds (x : Terminal) (k : Nat) (run : FunctionRun) (opens : List OpenFunction)
    (c : Nat) (st : State) : Prop where
  pending : run.Pending (opens.map (·.index))
  flat : run.Flat
  imports : ∀ f ∈ opens, ImportsWithin 0 st.nodes f.body
  count : c = k + tallies x .function run.filled + (opens.map (·.tally x)).sum

namespace Holds

theorem start (x : Terminal) (c : Nat) (st : State) : Holds x c {} [] c st :=
  ⟨.empty, FunctionRun.Every.empty, fun _ hf => absurd hf List.not_mem_nil, rfl⟩

theorem later (h : Holds x k run opens c s) (hst : s.nodes ≤ st.nodes) :
    Holds x k run opens c st :=
  { h with imports := fun f hf => (h.imports f hf).mono (Nat.le_refl _) hst }

theorem push (h : Holds x k run opens c s) (hindex : f.index = run.size) (hbody : f.body = []) :
    Holds x k (run.push (opens.head?.map (·.index))) (f :: opens) (c + f.tally x) s := by
  refine ⟨?_, FunctionRun.Every.push h.flat _, List.forall_mem_cons.2 ⟨?_, h.imports⟩, ?_⟩
  · rw [List.map_cons, hindex, ← List.head?_map]
    exact h.pending.push
  · rw [hbody]
    exact fun _ hs => absurd hs List.not_mem_nil
  · rw [h.count, FunctionRun.filled_push, List.map_cons, List.sum_cons]
    omega

theorem fill (h : Holds x k run (f :: opens) c s) (terminated : Bool) :
    Holds x k (run.fill f.index (f.finish terminated)) opens c s := by
  have hindex := List.mem_cons_self (a := f.index) (l := opens.map (·.index))
  obtain ⟨e, he⟩ : ∃ e, run.entries[f.index]? = some e :=
    ⟨_, List.getElem?_eq_getElem (h.pending.lt _ hindex)⟩
  refine ⟨h.pending.fill _, FunctionRun.Every.fill h.flat rfl f.index,
    (List.forall_mem_cons.1 h.imports).2, ?_⟩
  · rw [h.count, FunctionRun.tallies_fill he ((h.pending.unfilled _ e he).2 hindex),
      OpenFunction.tally_finish, List.map_cons, List.sum_cons]
    omega

theorem fill_all (h : Holds x k run opens c s) :
    Holds x k (opens.foldl (fun run f => run.fill f.index (f.finish false)) run) [] c s := by
  induction opens generalizing run with
  | nil => exact h
  | cons f opens ih => exact ih (h.fill false)

theorem body (h : Holds x k run (f :: opens) c s) {ss : List Stmt}
    (hss : ImportsWithin (s.nodes + 1) st.nodes ss) (hst : s.nodes ≤ st.nodes) :
    Holds x k run ({ f with body := f.body ++ ss } :: opens) (c + tallyBody x ss) st := by
  obtain ⟨hf, hopens⟩ := List.forall_mem_cons.1 h.imports
  have htally : OpenFunction.tally x { f with body := f.body ++ ss } =
      f.tally x + tallyBody x ss := by
    rw [OpenFunction.tally, tallyBody_append hf hss, ← Nat.add_assoc]
    rfl
  refine ⟨h.pending, h.flat, List.forall_mem_cons.2 ⟨fun u hu => ?_, fun g hg => ?_⟩, ?_⟩
  · exact (List.mem_append.1 hu).elim (hf.mono (Nat.le_refl _) hst u)
      (hss.mono (Nat.zero_le _) (Nat.le_refl _) u)
  · exact (hopens g hg).mono (Nat.le_refl _) hst
  · rw [h.count, List.map_cons, List.sum_cons, List.map_cons, List.sum_cons, htally]
    omega

end Holds

/-! ## Runs of functions -/

theorem turns_validationRound : Turns x validationRound (tallies x .block) (tallies x .block) := by
  refine fun bs c s => silent_skipSeparators.bind fun _ _ _ => .eatWord (fun opener _ _ _ => ?_)
    (.pure rfl)
  exact (tells_block .arguments opener addsUp_addProperty).bind fun b _ _ =>
    .pure (by simp [Round.weigh, Nat.add_assoc])

theorem says_openFunction (h : Holds x k run opens c s) (opener : Token) :
    Says x c (openFunction run (opens.head?.map (·.index)) opener) s
      fun r c' st => Holds x k r.2 (r.1 :: opens) c' st := by
  have hopen : ∀ parent, Says x c (openFunction run parent opener) s fun r c' _ =>
      c' = c + r.1.tally x ∧ r.1.index = run.size ∧ r.1.body = [] ∧ r.2 = run.push parent := by
    intro parent
    refine .freshId fun id s₁ => (tells_signature opener.location).bind fun sig s₂ _ => ?_
    refine .get (.modify rfl rfl ?_)
    rw [validationBlocks_eq]
    refine .turns (k := c + Node.tally x (.signature sig)) rfl turns_validationRound fun bs st => ?_
    exact .pure ⟨Nat.add_assoc _ _ _, rfl, rfl, rfl⟩
  refine (hopen _).mono fun ⟨f, run'⟩ c' st hnodes ⟨hc', hindex, hbody, hrun⟩ => ?_
  subst hc' hrun
  exact (h.push hindex hbody).later hnodes

theorem says_closeWithEnd (h : Holds x k run (f :: opens) c s) :
    Says x c (closeWithEnd f run) s fun run' c' st => Holds x k run' opens c' st := by
  have hclose : Says x c (closeWithEnd f run) s fun run' c' _ =>
      c' = c ∧ run' = run.fill f.index (f.finish true) := by
    have hrest : ∀ st : State, Says x c
        (do
          endStatement
          popFrame
          return run.fill f.index (f.finish true)) st fun run' c' _ =>
            c' = c ∧ run' = run.fill f.index (f.finish true) :=
      fun st => silent_endStatement.bind fun _ _ _ => .modify rfl rfl (.pure ⟨rfl, rfl⟩)
    refine .eatWord (fun _ _ _ _ => ?_) (.current? ?_)
    · simp only [Option.isNone_some, Bool.false_eq_true, if_false]
      split
      · exact hrest _
      · exact .modify rfl rfl (hrest _)
    · cases s.ahead.head? with
      | some t => exact .failing_bind fun _ _ => fail_ok
      | none => exact .failing_bind fun _ _ => unexpected_ok
  refine hclose.mono fun run' c' st hnodes ⟨hc', hrun⟩ => ?_
  subst hc' hrun
  exact (h.fill true).later hnodes

theorem says_closeAtEndOfFile (h : Holds x k run opens c s) :
    Says x c (closeAtEndOfFile opens run) s fun run' c' st => Holds x k run' [] c' st := by
  refine .get ?_
  dsimp only
  split
  · exact .failing fun _ _ => fail_ok
  · exact .pure h.fill_all

theorem says_functionRound {soFar : RunSoFar}
    (h : Holds x k soFar.run (soFar.current :: soFar.enclosing) c s) :
    Says x c (functionRound soFar) s (Round.After
      (fun soFar => Holds x k soFar.run (soFar.current :: soFar.enclosing))
      fun run => Holds x k run []) := by
  refine says_statements.bind fun body c' mid hnodes ⟨hc', hbody⟩ => ?_
  subst hc'
  have hmid := h.body hbody hnodes
  refine .eatWord (fun opener m₁ _ hnodes' => ?_) (.atEnd ?_)
  · exact (says_openFunction (hmid.later hnodes') opener).bind fun r c' _ _ hr => .pure hr
  · split
    · refine (says_closeAtEndOfFile hmid).bind fun run' c' _ _ hrun => .pure hrun
    · refine (says_closeWithEnd hmid).bind fun run' c' _ _ hrun => ?_
      generalize soFar.enclosing = enclosing at hrun
      cases enclosing <;> exact .pure hrun

theorem says_function (h : Holds x k run [] c s) (opener : Token) :
    Says x c (function run opener) s fun run' c' st => Holds x k run' [] c' st := by
  refine .bracketed ⟨rfl, rfl⟩ (fun _ => ⟨rfl, rfl⟩) ?_
  refine (says_openFunction h opener).bind fun (first, run₁) c' mid _ hfirst => ?_
  refine (Says.rounds (I := fun soFar => Holds x k soFar.run (soFar.current :: soFar.enclosing))
    (V := fun run' => Holds x k run' []) hfirst
    fun soFar c' st _ h => says_functionRound h).mono fun run' c' st _ hrun => ?_
  exact { hrun with }

theorem tells_localFunctions : Tells x localFunctions (tallies x .function) := by
  rw [localFunctions_eq]
  refine fun c s => Says.bind (U := fun run c' _ => c' = c + tallies x .function run.resolve)
    (.rounds (I := fun run c' st => Holds x c run [] c' st) (.start x c s)
      fun run c' mid _ h => silent_skipSeparators.bind fun _ st hnodes => ?_)
        fun run c' _ _ hc' => .pure hc'
  have hst := h.later hnodes
  refine .eatWord (fun opener m₁ _ hnodes' => ?_) (.current? ?_)
  · exact (says_function (hst.later hnodes') opener).bind fun run' c' _ _ hrun => .pure hrun
  · cases st.ahead.head? with
    | none =>
      have hcount : c' = c + tallies x .function run.resolve := by
        rw [FunctionRun.tallies_resolve hst.flat]
        exact hst.count
      exact .pure hcount
    | some t =>
      dsimp only
      split
      · exact .failing fun _ _ => fail_ok
      · exact .failing fun _ _ => failHere_ok

/-! ## Classes -/

theorem says_addMethods (start : Location) (b : Block) (fs : List FunctionDef) :
    Says x (c + Node.tally x (.block b) + tallies x .function fs)
      (fs.foldlM (fun b method => addItem start b (.method method)) b) s
      fun b' c' _ => c' = c + Node.tally x (.block b') := by
  induction fs generalizing b s with
  | nil => exact .pure rfl
  | cons f fs ih =>
    rw [List.foldlM_cons]
    refine (says_addItem (k := c + tallies x .function fs) start b (.method f) ?_).bind
      fun b' c' mid _ hc' => ?_
    · simp only [tallies_cons, Node.ofItem]
      omega
    · rw [hc', Nat.add_right_comm]
      exact ih b'

theorem addsUp_addMethod : AddsUp x addMethod := by
  refine fun b c s => .here fun start => .eatWord (fun opener _ _ _ => ?_) ?_
  · refine Says.bind (U := fun run c' _ => c' = c + Node.tally x (.block b) +
      tallies x .function run.resolve) (.bracketed ⟨rfl, rfl⟩ (fun _ => ⟨rfl, rfl⟩) ?_)
        fun run c' _ _ hc' => ?_
    · refine (says_function (.start x _ _) opener).mono fun run c' _ _ h => ?_
      rw [FunctionRun.tallies_resolve h.flat]
      exact h.count
    · subst hc'
      exact says_addMethods start b _
  · exact (tells_signature start).bind fun sig _ _ => says_addStatement start b (.signature sig) rfl

theorem addsUp_addNext (kind : BlockKind) : AddsUp x (addNext kind) := by
  cases kind with
  | properties | arguments => exact addsUp_addProperty
  | methods => exact addsUp_addMethod
  | events =>
    refine fun b c s => .here fun start => tells_identifier.bind fun n _ _ => .siteAt fun _ _ => ?_
    exact says_addStatement start b (.event ⟨_, n⟩) (by simp [Node.ofItem])
  | enumeration =>
    refine fun b c s => .here fun start => tells_identifier.bind fun n mid _ => ?_
    have hadd : ∀ (es : List Expr) (st : State), Says x
        (c + Node.tally x (.block b) + Node.tally x (.name n) + tallies x .expr es)
        (do addStatement start b (.enumerator ⟨← siteFrom start, n, es⟩)) st
        fun b' c' _ => c' = c + Node.tally x (.block b') := by
      refine fun es st => .siteFrom fun site _ _ => ?_
      exact says_addStatement start b (.enumerator ⟨site, n, es⟩)
        (by simp [Node.ofItem, Nat.add_assoc])
    refine .check fun paren hparen => ?_
    split
    · rename_i h
      refine (says_arguments tells_expression rfl fun t ht =>
        Token.silent_of_eq rfl (hparen h t ht)).bind fun es _ _ _ hes => ?_
      subst hes
      exact hadd es _
    · exact hadd [] _

theorem turns_classRound (opener : Token) :
    Turns x (classRound opener) (tallies x .block) (tallies x .block) := by
  refine fun bs c s => silent_skipSeparators.bind fun _ mid _ => .eatWord (fun _ _ _ _ => ?_) ?_
  · exact silent_endStatement.bind fun _ _ _ => .pure rfl
  · refine .current? ?_
    cases ht : mid.ahead.head? with
    | none => exact .failing fun _ _ => failHere_ok
    | some t =>
      dsimp only
      split
      · rename_i kind hkind
        refine .pass (silent_head ht rfl (ofWord?_word hkind).1) fun _ => ?_
        exact (tells_block kind t (addsUp_addNext kind)).bind fun b _ _ =>
          .pure (by simp [Round.weigh, Nat.add_assoc])
      · exact .failing fun _ _ => failHere_ok

theorem tells_superclasses : Tells x superclasses (tallies x .name) := by
  rw [superclasses_eq]
  refine fun c s =>
    .eatOperator (fun _ _ => tells_dottedName.bind fun first mid _ => ?_) (.pure rfl)
  have hround : Turns x superclassRound (tallies x .name) (tallies x .name) := fun ns c s =>
    .eatOperator (fun _ _ => tells_dottedName.bind fun n _ _ =>
      .pure (by simp [Round.weigh, Nat.add_assoc])) (.pure rfl)
  exact hround.rounds [first] c mid

theorem tells_classDef (opener : Token) :
    Tells x (classDef opener) fun c => Node.tally x (.definition c) := by
  refine fun c s => .freshId fun id _ => tells_optAttributes.bind fun attrs _ _ => ?_
  refine tells_identifier.bind fun n _ _ => tells_superclasses.bind fun supers _ _ => ?_
  refine .spanFrom fun place => ?_
  rw [classBlocks_eq]
  refine .turns (k := c + tallies x .attr attrs + Node.tally x (.name n) + tallies x .name supers)
    rfl (turns_classRound opener) fun bs _ => .pure ?_
  simp
  omega

end Parse

end MFile.Grammar
