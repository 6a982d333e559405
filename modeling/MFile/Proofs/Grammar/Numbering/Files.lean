import Mathlib.Tactic.Abel
import MFile.Proofs.Grammar.Contents.Files
import MFile.Proofs.Grammar.Numbering.Statements

/-!
In a whole file every number is given out once. A function has its number before its parts and
keeps it when it is put in its place among the others.
-/

namespace MFile

namespace Node

theorem shares_script (site : Site) (body : List Stmt) (fs : List FunctionDef) :
    (unit (.script site body fs)).shares = ({site.id}, importCommands body, {body}) +
      (sharesOf .stmt body + sharesOf .function fs) := by
  rw [shares_eq]
  simp [share, id, Node.site, FileUnit.site]

theorem shares_functionFile (site : Site) (fs : List FunctionDef) :
    (unit (.functionFile site fs)).shares = ({site.id}, 0, 0) + sharesOf .function fs := by
  rw [shares_eq]
  simp [share, id, Node.site, FileUnit.site]

theorem shares_classFile (site : Site) (c : ClassDef) (fs : List FunctionDef) :
    (unit (.classFile site c fs)).shares = ({site.id}, 0, 0) +
      ((definition c).shares + sharesOf .function fs) := by
  rw [shares_eq]
  simp [share, id, Node.site, FileUnit.site]

theorem shares_function (f : FunctionDef) :
    (function f).shares = ({f.site.id}, importCommands f.body, {f.body}) +
      ((signature f.signature).shares + (sharesOf .block f.validation + (sharesOf .stmt f.body +
        sharesOf .function f.nested))) := by
  rw [shares_eq]
  simp [share, id, site]

theorem shares_definition (c : ClassDef) :
    (definition c).shares = ({c.site.id}, 0, 0) + ((name c.name).shares +
      (sharesOf .attr c.attributes +
        (sharesOf .name c.superclasses + sharesOf .block c.blocks))) := by
  rw [shares_eq]
  simp [share, id, site]

theorem shares_block (b : Block) :
    (block b).shares = ({b.site.id}, 0, 0) +
      (sharesOf .attr b.attributes + sharesOf (fun i => (ofItem i).2) b.items) := by
  rw [shares_eq]
  simp [share, id, site]
  rfl

end Node

theorem sharesOf_map {α : Type} (node : α → Node) (as : List α) :
    sharesOf (fun node => node) (as.map node) = sharesOf node as := by
  rw [sharesOf, List.map_map]
  rfl

namespace Numbers

variable {α : Type} {m n : Nat} {node : α → Node}

theorem takes_list {as : List α} (h : Numbers m n 0 (as.map node)) :
    Takes m n (sharesOf node as) := by
  have hall := h.takes
  rwa [sharesOf_map, show (((0, 0, 0) : Share) = 0) from rfl, add_zero] at hall

theorem takes_node {d : Node} (h : Numbers m n 0 [d]) : Takes m n d.shares := by
  have hall := h.takes
  rwa [sharesOf_cons, sharesOf_nil, show (((0, 0, 0) : Share) = 0) from rfl, add_zero,
    add_zero] at hall

end Numbers

theorem NumbersBody.takes {k n : Nat} {ss : List Stmt} (h : NumbersBody k n ss) :
    Takes k n (sharesOf .stmt ss + (0, importCommands ss, 0)) := by
  have hall := h.numbers.takes
  rwa [sharesOf_map] at hall

namespace Grammar.Parse

variable {α : Type} {m : Nat} {s : State}

/-! ## Blocks of declarations -/

theorem numbered_optArguments {opener close : Kind} :
    Numbered (optArguments opener close) fun es => es.map .expr := by
  refine fun s => .check fun found hfound => ?_
  split
  · rename_i h
    obtain ⟨t, rest, hahead, -⟩ := hfound h
    exact numbered_arguments numbered_expression hahead
  · exact .pure (.nil s.nodes)

theorem numbered_optName : Numbered optName fun n => n.toList.map .name := by
  refine fun s => .check fun found _ => ?_
  split
  · exact numbered_dottedName.some s
  · exact .pure (.nil s.nodes)

theorem numbered_optValue : Numbered optValue fun e => e.toList.map .expr :=
  fun s => .eat (fun t rest _ _ => numbered_expression.some (s.past t rest)) (.pure (.nil s.nodes))

theorem numbered_oneAttribute : Numbered oneAttribute fun a => [.attr a] := by
  have hrest : ∀ (start : Location) (negated : Bool) (st : State), Meets false
      (do
        let name ← expect .identifier .identifier
        let value ← optValue
        return Attribute.mk (← siteFrom start) name.raw negated value) st
      fun a s' => Numbers st.nodes s'.nodes 0 [.attr a] :=
    fun start negated st => .expect fun name _ _ _ => numbered_optValue.bind fun value mid hvalue =>
      .siteFrom (.pure (hvalue.close (by simp) rfl rfl))
  exact fun s => .here (.eatOperator (fun _ _ _ _ _ => hrest _ true _) (hrest _ false s))

theorem numbered_optAttributes : Numbered optAttributes fun as => as.map .attr := by
  refine fun s => .check fun found hfound => ?_
  split
  · rename_i h
    obtain ⟨t, rest, hahead, -⟩ := hfound h
    have hround :
        NumbersOn attributesRound (fun as => as.map Node.attr) fun as => as.map .attr := by
      intro as m s has
      have hnext : ∀ st : State, st.nodes = s.nodes → Meets false
          (do return (.again (as ++ [← oneAttribute]) : Round (List Attribute) (List Attribute))) st
          (Leaves (fun as' s' => Numbers m s'.nodes 0 (as'.map Node.attr))
            fun as' s' => Numbers m s'.nodes 0 (as'.map Node.attr)) := by
        refine fun st hst => numbered_oneAttribute.bind fun a mid ha => .pure ?_
        change Numbers m mid.nodes 0 ((as ++ [a]).map .attr)
        rw [List.map_append]
        rw [hst] at ha
        exact has.append ha
      refine .eat (fun _ _ _ _ => .pure has) ?_
      simp only [Option.isSome_none, Bool.false_eq_true, if_false]
      split
      · exact numbersNone_discardExpect.bind fun _ mid hmid => hnext mid hmid
      · exact hnext s rfl
    rw [attributes_eq]
    exact .advance hahead (hround.rounds (.nil s.nodes))
  · exact .pure (.nil s.nodes)

theorem numbered_property : Numbered property fun p => [.property p] := by
  rw [property_eq]
  refine fun s => .here (numbered_dottedName.bind fun n mid hn => ?_)
  refine numbered_optArguments.bind fun dimensions mid₁ hdimensions => ?_
  refine numbered_optName.bind fun cls mid₂ hcls => ?_
  refine numbered_optArguments.bind fun validators mid₃ hvalidators => ?_
  refine numbered_optValue.bind fun default mid₄ hdefault => .siteFrom (.pure ?_)
  have hparts := hn.append (((hdimensions.append hcls).append hvalidators).append hdefault)
  exact hparts.close (by simp) rfl rfl

def TakesOne (addNext : Block → Parse Block) : Prop :=
  ∀ b m s, Takes m s.nodes (Node.block b).shares → Meets false (addNext b) s fun b' s' =>
    Takes m s'.nodes (Node.block b').shares

theorem shares_addItem (start : Location) (b : Block) (item : BlockItem) :
    Meets false (addItem start b item) s fun b' s' => s'.nodes = s.nodes ∧
      (Node.block b').shares = (Node.block b).shares + (Node.ofItem item).2.shares := by
  rw [addItem, Block.add]
  split
  · rename_i b' hadd
    split at hadd <;> cases hadd
    refine .pure ⟨rfl, ?_⟩
    rw [Node.shares_block, Node.shares_block, sharesOf_append, sharesOf_cons,
      sharesOf_nil, add_zero]
    simp only [add_assoc]
  · exact .of_error rfl

theorem takes_addStatement (start : Location) {b : Block} {item : BlockItem}
    (h : Takes m s.nodes ((Node.block b).shares + (Node.ofItem item).2.shares)) :
    Meets false (addStatement start b item) s fun b' s' =>
      Takes m s'.nodes (Node.block b').shares := by
  refine (shares_addItem start b item).bind fun b' mid ⟨hmid, hb'⟩ => ?_
  refine numbersNone_endStatement.bind fun _ mid' hmid' => .pure ?_
  rwa [hmid', hmid, hb']

theorem takesOne_addProperty : TakesOne addProperty :=
  fun _ _ _ hb => .here
    (numbered_property.bind fun _ _ hp => takes_addStatement _ (hb.add hp.takes_node))

theorem takes_block (kind : BlockKind) (opener : Token) {addNext : Block → Parse Block}
    (h : TakesOne addNext) (s : State) : Meets false (block kind opener addNext) s fun b s' =>
      Takes s.nodes s'.nodes (Node.block b).shares := by
  rw [block_eq]
  refine numbered_optAttributes.bind fun attrs mid hattrs => .siteAt ?_
  have hempty : Takes s.nodes (mid.nodes + 1)
      (Node.block ⟨⟨mid.nodes, opener.location⟩, kind, attrs, []⟩).shares := by
    rw [Node.shares_block, sharesOf_nil, add_zero, add_comm (({mid.nodes}, 0, 0) : Share)]
    exact hattrs.takes_list.add (.single _)
  refine Meets.bind (P := fun b st => Takes s.nodes st.nodes (Node.block b).shares)
    (.rounds (I := fun b st => Takes s.nodes st.nodes (Node.block b).shares) hempty ?_)
    fun b mid' hb => .spanFrom (.pure ?_)
  · refine fun b st hb => numbersNone_skipSeparators.bind fun _ st₁ hst₁ => ?_
    rw [← hst₁] at hb
    refine .eatWord (fun _ _ _ _ => .pure hb) (.atEnd ?_)
    split
    · exact .failHere_bind
    · exact (h b _ st₁ hb).bind fun b' st₂ hb' => .pure hb'
  · rw [Node.shares_block] at hb ⊢
    exact hb

/-! ## Signatures -/

theorem numbered_outputs : Numbered outputs fun ns => ns.map .name := by
  have hround : NumbersOn outputsRound (fun ns => ns.map Node.name) fun ns => ns.map .name := by
    refine fun ns m s hns => .peekFirst? (fun _ => .unexpected) fun t rest hahead => ?_
    split
    · exact .advance hahead (.pure hns)
    · exact .advance hahead (.pure hns)
    · refine numbered_identifier.bind fun n mid hn => .pure ?_
      change Numbers m mid.nodes 0 ((ns ++ [n]).map .name)
      rw [List.map_append]
      exact hns.append hn
    · exact .unexpected
  rw [outputs_eq]
  exact fun s => hround.rounds (.nil s.nodes)

theorem numbered_signatureHead : Numbered signatureHead fun h => h.1.map .name ++ [.name h.2] := by
  refine fun s => .eat (fun _ _ _ _ => ?_) ?_
  · refine numbered_outputs.bind fun outs mid houts => ?_
    refine numbersNone_discardExpect.bind fun _ mid₁ hmid₁ => ?_
    rw [← hmid₁] at houts
    exact numbered_dottedName.bind fun n mid₂ hn => .pure (houts.append hn)
  · refine numbered_dottedName.bind fun first mid hfirst => .check fun found hfound => ?_
    split
    · rename_i h
      obtain ⟨t, rest, hahead, -⟩ := hfound h
      have hrest : Meets false
          (do
            advance
            return ([first], ← dottedName)) mid fun h s' =>
              Numbers s.nodes s'.nodes 0 (h.1.map .name ++ [.name h.2]) :=
        .advance hahead (numbered_dottedName.bind fun n mid₁ hn => .pure (hfirst.append hn))
      split
      · exact .fail_bind
      · exact hrest
    · exact .pure hfirst

theorem numbered_signature (start : Location) :
    Numbered (signature start) fun sig => [.signature sig] := by
  refine fun s => numbered_signatureHead.bind fun (outs, n) mid hhead => ?_
  refine .eat (fun _ _ _ _ => ?_) (.step rfl (.siteFrom (.pure ?_)))
  · refine numbered_parameters.bind fun ins mid₁ hins => .siteFrom (.pure ?_)
    exact (hhead.append hins).close (by simp) rfl rfl
  · exact hhead.close (by simp) rfl rfl

/-! ## Functions -/

def OpenFunction.shares (f : OpenFunction) : Share :=
  ({f.id}, importCommands f.body, 0) +
    ((Node.signature f.signature).shares + (sharesOf .block f.validation + sharesOf .stmt f.body))

theorem OpenFunction.shares_finish (f : OpenFunction) (terminated : Bool) :
    (Node.function (f.finish terminated)).shares = f.shares + (0, 0, {f.body}) := by
  have hown : (({f.id}, importCommands f.body, {f.body}) : Share) =
      ({f.id}, importCommands f.body, 0) + (0, 0, {f.body}) := by
    rw [Prod.mk_add_mk, Prod.mk_add_mk, add_zero, add_zero, zero_add]
  rw [Node.shares_function, OpenFunction.shares]
  simp only [OpenFunction.finish, hown, sharesOf_nil, add_zero]
  abel

structure Rises (n : Nat) (ss : List Stmt) : Prop where
  inOrder : InOrder ss
  below : ∀ i ∈ (ss.map Node.stmt).flatMap Node.exits, i < n
  imports : ImportsWithin 0 n ss

namespace Rises

variable {k n : Nat} {ss ss' : List Stmt}

theorem nil (n : Nat) : Rises n [] :=
  ⟨.nil, fun _ h => absurd h List.not_mem_nil, fun _ h => absurd h List.not_mem_nil⟩

theorem mono (h : Rises k ss) (hk : k ≤ n) : Rises n ss :=
  ⟨h.inOrder, fun i hi => (h.below i hi).trans_le hk, h.imports.mono (Nat.le_refl _) hk⟩

theorem append (h : Rises k ss) (h' : NumbersBody k n ss') : Rises n (ss ++ ss') := by
  have hbounds := Climbs.bounds h'.numbers
  refine ⟨?_, fun i hi => ?_, fun s hs => ?_⟩
  · rw [InOrder, List.map_append, List.flatMap_append, List.pairwise_append]
    exact ⟨h.inOrder, Climbs.sorted h'.numbers,
      fun i hi j hj => (h.below i hi).trans_le (hbounds j hj).1⟩
  · rw [List.map_append, List.flatMap_append, List.mem_append] at hi
    exact hi.elim (fun hi => (h.below i hi).trans_le h'.numbers.le) fun hi => (hbounds i hi).2
  · exact (List.mem_append.1 hs).elim (h.imports.mono (Nat.le_refl _) h'.numbers.le s)
      (h'.imports.mono (Nat.zero_le _) (Nat.le_refl _) s)

end Rises

theorem OpenFunction.shares_append {f : OpenFunction} {k n : Nat} {ss : List Stmt}
    (h : Rises k f.body) (h' : NumbersBody k n ss) :
    OpenFunction.shares { f with body := f.body ++ ss } =
      f.shares + (sharesOf .stmt ss + (0, importCommands ss, 0)) := by
  have himports : (({f.id}, importCommands (f.body ++ ss), 0) : Share) =
      ({f.id}, importCommands f.body, 0) + (0, importCommands ss, 0) := by
    rw [h.imports.importCommands_append h'.imports, Prod.mk_add_mk, Prod.mk_add_mk, add_zero,
      add_zero]
  simp only [OpenFunction.shares, himports, sharesOf_append]
  abel

structure Gathers (m : Nat) (run : FunctionRun) (opens : List OpenFunction) (n : Nat) : Prop where
  pending : run.Pending (opens.map (·.index))
  flat : run.Flat
  rises : ∀ f ∈ opens, Rises n f.body
  takes : Takes m n (sharesOf .function run.filled + (opens.map (·.shares)).sum)

namespace Gathers

variable {k n : Nat} {run : FunctionRun} {opens : List OpenFunction} {f : OpenFunction}

theorem start (m : Nat) : Gathers m {} [] m :=
  ⟨.empty, fun _ he => absurd he List.not_mem_nil, fun _ hf => absurd hf List.not_mem_nil, .zero m⟩

theorem push (h : Gathers m run opens k) (hindex : f.index = run.size) (hbody : f.body = [])
    (hf : Takes k n f.shares) (hkn : k ≤ n) :
    Gathers m (run.push (opens.head?.map (·.index))) (f :: opens) n := by
  refine ⟨?_, fun e he => ?_, List.forall_mem_cons.2
    ⟨by rw [hbody]; exact .nil n, fun g hg => (h.rises g hg).mono hkn⟩, ?_⟩
  · rw [List.map_cons, hindex, ← List.head?_map]
    exact h.pending.push
  · rw [FunctionRun.push, List.mem_append, List.mem_singleton] at he
    rcases he with he | rfl
    · exact h.flat e he
    · exact fun _ hf => absurd hf (by simp)
  · rw [FunctionRun.filled_push, List.map_cons, List.sum_cons, add_comm f.shares, ← add_assoc]
    exact h.takes.add hf

theorem fill (h : Gathers m run (f :: opens) n) (terminated : Bool) :
    Gathers m (run.fill f.index (f.finish terminated)) opens n := by
  have hindex := List.mem_cons_self (a := f.index) (l := opens.map (·.index))
  obtain ⟨e, he⟩ : ∃ e, run.entries[f.index]? = some e :=
    ⟨_, List.getElem?_eq_getElem (h.pending.lt _ hindex)⟩
  obtain ⟨hf, hopens⟩ := List.forall_mem_cons.1 h.rises
  refine ⟨h.pending.fill _, fun e' he' => ?_, hopens, ?_⟩
  · rcases FunctionRun.mem_fill he' with he' | he'
    · exact h.flat e' he'
    · rintro g hg
      rw [he'] at hg
      cases hg
      rfl
  · have hshares := h.takes.body hf.inOrder
    rw [List.map_cons, List.sum_cons] at hshares
    rw [sharesOf, FunctionRun.sum_filled_fill he ((h.pending.unfilled _ e he).2 hindex),
      OpenFunction.shares_finish]
    convert hshares using 1
    rw [sharesOf]
    abel

theorem fill_all (h : Gathers m run opens n) :
    Gathers m (opens.foldl (fun run f => run.fill f.index (f.finish false)) run) [] n := by
  induction opens generalizing run with
  | nil => exact h
  | cons f opens ih => exact ih (h.fill false)

theorem body (h : Gathers m run (f :: opens) k) {ss : List Stmt} (hss : NumbersBody k n ss) :
    Gathers m run ({ f with body := f.body ++ ss } :: opens) n := by
  obtain ⟨hf, hopens⟩ := List.forall_mem_cons.1 h.rises
  refine ⟨h.pending, h.flat, List.forall_mem_cons.2
    ⟨hf.append hss, fun g hg => (hopens g hg).mono hss.numbers.le⟩, ?_⟩
  have hshares := h.takes.add hss.takes
  rw [List.map_cons, List.sum_cons] at hshares
  rw [List.map_cons, List.sum_cons, OpenFunction.shares_append hf hss]
  convert hshares using 1
  abel

theorem resolve (h : Gathers m run [] n) : Takes m n (sharesOf .function run.resolve) := by
  have hshares := h.takes
  rw [List.map_nil, List.sum_nil, add_zero] at hshares
  rwa [sharesOf, FunctionRun.sum_resolve (fun f inner hf => ?_) h.flat]
  rw [Node.shares_function, Node.shares_function, hf, sharesOf_nil, add_zero]
  simp only [add_assoc]
  rfl

end Gathers

theorem takes_validationBlocks (s : State) : Meets false validationBlocks s fun bs s' =>
    Takes s.nodes s'.nodes (sharesOf .block bs) := by
  rw [validationBlocks_eq]
  refine .rounds (I := fun bs st => Takes s.nodes st.nodes (sharesOf .block bs)) (.zero s.nodes) ?_
  refine fun bs st hbs => numbersNone_skipSeparators.bind fun _ mid hmid => ?_
  rw [← hmid] at hbs
  refine .eatWord (fun opener _ _ _ => ?_) (.pure hbs)
  refine (takes_block .arguments opener takesOne_addProperty _).bind fun b mid₁ hb => .pure ?_
  change Takes s.nodes mid₁.nodes (sharesOf .block (bs ++ [b]))
  rw [sharesOf_append, sharesOf_cons, sharesOf_nil, add_zero]
  exact hbs.add hb

theorem gathers_openFunction {run : FunctionRun} {opens : List OpenFunction} (opener : Token)
    (h : Gathers m run opens s.nodes) :
    Meets false (openFunction run (opens.head?.map (·.index)) opener) s fun r s' =>
      Gathers m r.2 (r.1 :: opens) s'.nodes := by
  refine .freshId ((numbered_signature opener.location).bind fun sig mid hsig => .get (.modify ?_))
  refine (takes_validationBlocks _).bind fun blocks mid₁ hblocks => .pure ?_
  have hown := (Takes.single s.nodes).add (hsig.takes_node.add hblocks)
  refine h.push rfl rfl ?_ hown.le
  rw [OpenFunction.shares, sharesOf_nil, add_zero]
  exact hown

theorem gathers_closeWithEnd {run : FunctionRun} {f : OpenFunction} {opens : List OpenFunction}
    (h : Gathers m run (f :: opens) s.nodes) :
    Meets false (closeWithEnd f run) s fun run' s' => Gathers m run' opens s'.nodes := by
  have hrest : ∀ st : State, st.nodes = s.nodes → Meets false
      (do
        endStatement
        popFrame
        return run.fill f.index (f.finish true)) st fun run' s' =>
      Gathers m run' opens s'.nodes := by
    refine fun st hst => numbersNone_endStatement.bind fun _ mid hmid => .modify (.pure ?_)
    change Gathers m _ opens mid.nodes
    rw [hmid, hst]
    exact h.fill true
  refine .eatWord (fun _ _ _ _ => ?_) (.current? (fun _ => ?_) fun t rest _ => .fail_bind)
  · simp only [Option.isNone_some, Bool.false_eq_true, if_false]
    split
    · exact hrest _ rfl
    · exact .modify (hrest _ rfl)
  · exact Meets.unexpected.bind fun _ _ h => (h : False).elim

theorem gathers_functionRound {soFar : RunSoFar}
    (h : Gathers m soFar.run (soFar.current :: soFar.enclosing) s.nodes) :
    Meets false (functionRound soFar) s (Leaves
      (fun soFar' s' => Gathers m soFar'.run (soFar'.current :: soFar'.enclosing) s'.nodes)
      fun run s' => Gathers m run [] s'.nodes) := by
  refine numbers_statements.bind fun body mid hbody => ?_
  have hmid := h.body hbody
  refine .eatWord (fun opener rest _ _ => ?_) (.atEnd ?_)
  · have hopen := gathers_openFunction (s := mid.past opener rest) opener hmid
    exact hopen.bind fun (inner, run) mid₁ hr => .pure hr
  · split
    · have hclose : Meets false (closeAtEndOfFile ({ soFar.current with
          body := soFar.current.body ++ body } :: soFar.enclosing) soFar.run) mid
            fun run s' => Gathers m run [] s'.nodes := by
        refine .get ?_
        dsimp only
        split
        · exact .fail
        · exact .pure hmid.fill_all
      exact hclose.bind fun run mid₁ hrun => .pure hrun
    · refine (gathers_closeWithEnd hmid).bind fun run mid₁ hrun => ?_
      generalize soFar.enclosing = enclosing at hrun
      cases enclosing <;> exact .pure hrun

theorem gathers_function {run : FunctionRun} (opener : Token) (h : Gathers m run [] s.nodes) :
    Meets false (function run opener) s fun run' s' => Gathers m run' [] s'.nodes := by
  refine .bracketed ?_
  refine (gathers_openFunction opener h).bind fun (first, run₁) mid hfirst => ?_
  exact .rounds
    (I := fun soFar st => Gathers m soFar.run (soFar.current :: soFar.enclosing) st.nodes)
    hfirst fun soFar st hsoFar => gathers_functionRound hsoFar

theorem takes_localFunctions (s : State) : Meets false localFunctions s fun fs s' =>
    Takes s.nodes s'.nodes (sharesOf .function fs) := by
  rw [localFunctions_eq]
  refine Meets.bind (P := fun run st => Gathers s.nodes run [] st.nodes)
    (.rounds (I := fun run st => Gathers s.nodes run [] st.nodes) (.start s.nodes) ?_)
    fun run mid hrun => .pure hrun.resolve
  refine fun run st hrun => numbersNone_skipSeparators.bind fun _ mid hmid => ?_
  rw [← hmid] at hrun
  refine .eatWord (fun opener rest _ _ => ?_) (.current? (fun _ => .pure hrun) fun t rest _ => ?_)
  · have hfunction := gathers_function (s := mid.past opener rest) opener hrun
    exact hfunction.bind fun run' mid₁ hrun' => .pure hrun'
  · dsimp only
    split
    · exact .fail
    · exact .failHere

/-! ## Classes -/

theorem shares_addMethods (start : Location) (fs : List FunctionDef) (b : Block) :
    Meets false (fs.foldlM (fun b method => addItem start b (.method method)) b) s fun b' s' =>
      s'.nodes = s.nodes ∧
        (Node.block b').shares = (Node.block b).shares + sharesOf .function fs := by
  induction fs generalizing b s with
  | nil => exact .pure ⟨rfl, by rw [sharesOf_nil, add_zero]⟩
  | cons f fs ih =>
    rw [List.foldlM_cons]
    refine (shares_addItem start b (.method f)).bind fun b' mid ⟨hmid, hb'⟩ => ?_
    refine (ih b').mono fun b'' s' ⟨hs', hb''⟩ => ⟨hs'.trans hmid, ?_⟩
    rw [hb'', hb', sharesOf_cons, add_assoc]
    rfl

theorem takesOne_addMethod : TakesOne addMethod := by
  refine fun b m s hb => .here (.eatWord (fun opener rest _ _ => ?_) ?_)
  · refine Meets.bind (P := fun run st => Gathers s.nodes run [] st.nodes)
      (.bracketed (gathers_function opener (.start s.nodes))) fun run mid hrun => ?_
    refine (shares_addMethods _ _ b).mono fun b' s' ⟨hs', hb'⟩ => ?_
    rw [hs', hb']
    exact hb.add hrun.resolve
  · exact (numbered_signature _).bind
      fun sig mid hsig => takes_addStatement _ (hb.add hsig.takes_node)

theorem takesOne_addNext (kind : BlockKind) : TakesOne (addNext kind) := by
  cases kind with
  | properties | arguments => exact takesOne_addProperty
  | methods => exact takesOne_addMethod
  | events =>
    refine fun b m s hb => .here (numbered_identifier.bind fun n mid hn => .siteAt ?_)
    exact takes_addStatement _ (hb.add (hn.close rfl rfl rfl).takes_node)
  | enumeration =>
    intro b m s hb
    change Meets false (addEnumerator b) s _
    rw [addEnumerator_eq]
    refine .here (numbered_identifier.bind fun n mid hn => ?_)
    refine numbered_optArguments.bind fun args mid₁ hargs => .siteFrom ?_
    refine takes_addStatement _ (hb.add (Numbers.takes_node ?_))
    exact (hn.append hargs).close (by simp [Node.ofItem]) rfl rfl

theorem numbered_superclasses : Numbered superclasses fun ns => ns.map .name := by
  rw [superclasses_eq]
  refine fun s => .eatOperator (fun _ _ _ _ _ => ?_) (.pure (.nil s.nodes))
  have hround : NumbersOn superclassRound (fun ns => ns.map Node.name) fun ns => ns.map .name := by
    refine fun ns m s hns => .eatOperator (fun _ _ _ _ _ => ?_) (.pure hns)
    refine numbered_dottedName.bind fun n mid hn => .pure ?_
    change Numbers m mid.nodes 0 ((ns ++ [n]).map .name)
    rw [List.map_append]
    exact hns.append hn
  exact numbered_dottedName.bind fun first mid hfirst => hround.rounds (a := [first]) hfirst

theorem takes_classBlocks (opener : Token) (s : State) : Meets false (classBlocks opener) s
    fun bs s' => Takes s.nodes s'.nodes (sharesOf .block bs) := by
  rw [classBlocks_eq]
  refine .rounds (I := fun bs st => Takes s.nodes st.nodes (sharesOf .block bs)) (.zero s.nodes) ?_
  refine fun bs st hbs => numbersNone_skipSeparators.bind fun _ mid hmid => ?_
  rw [← hmid] at hbs
  refine .eatWord (fun _ _ _ _ => ?_) (.current? (fun _ => .failHere) fun t rest hahead => ?_)
  · refine numbersNone_endStatement.bind fun _ mid₁ hmid₁ => .pure ?_
    change Takes s.nodes mid₁.nodes (sharesOf .block bs)
    rwa [hmid₁]
  · dsimp only
    split
    · rename_i kind _
      refine .advance hahead ((takes_block kind t (takesOne_addNext kind) _).bind
        fun b mid₁ hb => ?_)
      refine .pure ?_
      change Takes s.nodes mid₁.nodes (sharesOf .block (bs ++ [b]))
      rw [sharesOf_append, sharesOf_cons, sharesOf_nil, add_zero]
      exact hbs.add hb
    · exact .failHere

theorem takes_classDef (opener : Token) (s : State) : Meets false (classDef opener) s fun c s' =>
    Takes s.nodes s'.nodes (Node.definition c).shares := by
  refine .freshId (numbered_optAttributes.bind fun attrs mid hattrs => ?_)
  refine numbered_identifier.bind fun n mid₁ hn => ?_
  refine numbered_superclasses.bind fun supers mid₂ hsupers => .spanFrom ?_
  refine (takes_classBlocks opener _).bind fun blocks mid₃ hblocks => .pure ?_
  have hparts := (Takes.single s.nodes).add (hattrs.takes_list.add (hn.takes_node.add
    (hsupers.takes_list.add hblocks)))
  rw [Node.shares_definition]
  convert hparts using 1
  dsimp only
  abel

/-! ## Files -/

theorem takes_fileUnit (s : State) : Meets false fileUnit s fun unit s' =>
    Takes s.nodes s'.nodes (Node.unit unit).shares ∧ unit.site.id = s.nodes := by
  refine numbersNone_skipSeparators.bind fun _ mid hmid => .checkWord fun isFunction => ?_
  rw [← hmid]
  split
  · refine .freshId ((takes_localFunctions _).bind fun fs mid₁ hfs => .wholeFile (.pure ⟨?_, rfl⟩))
    rw [Node.shares_functionFile]
    exact (Takes.single _).add hfs
  · refine .eatWord (fun opener rest _ _ => .freshId ?_) (.freshId ?_)
    · refine Meets.bind (P := fun c st => Takes (mid.nodes + 1) st.nodes (Node.definition c).shares)
        (.bracketed (takes_classDef opener _)) fun c mid₁ hc => ?_
      refine (takes_localFunctions _).bind fun fs mid₂ hfs => .wholeFile (.pure ⟨?_, rfl⟩)
      rw [Node.shares_classFile]
      exact (Takes.single _).add (hc.add hfs)
    · refine numbers_statements.bind fun body mid₁ hbody => ?_
      refine (takes_localFunctions _).bind fun fs mid₂ hfs => .wholeFile (.pure ⟨?_, rfl⟩)
      have hshares := (Takes.single mid.nodes).add
        ((hbody.takes.body (Climbs.sorted hbody.numbers)).add hfs)
      have hown : (({mid.nodes}, importCommands body, {body}) : Share) =
          ({mid.nodes}, 0, 0) + ((0, importCommands body, 0) + (0, 0, {body})) := by
        simp only [Prod.mk_add_mk, add_zero, zero_add]
      rw [Node.shares_script, hown]
      convert hshares using 1
      abel

end Grammar.Parse

open Grammar Parse

namespace FileUnit

theorem sum_discards (nodes : List Node) : (nodes.map Node.discards).sum =
    2 * nodes.countP Node.isMultiAssign +
      (nodes.map fun node => (node.bodies.map MFile.importCommands).sum).sum := by
  induction nodes with
  | nil => rfl
  | cons node nodes ih =>
    have hown : (if node.isMultiAssign = true then 1 else 0) = node.isMultiAssign.toNat := by
      cases node.isMultiAssign <;> rfl
    rw [List.map_cons, List.sum_cons, ih, List.countP_cons, hown, List.map_cons, List.sum_cons,
      Node.discards]
    omega

theorem ofTokens_climbs {file : String} {tokens : List Token} {unit : FileUnit}
    (h : FileUnit.ofTokens file tokens = .ok unit) :
    ∃ st ids, fileUnit (State.ofTokens file tokens) = .ok unit st ∧ unit.site.id = 0 ∧
      ids.Perm (unit.nodes.map Node.id) ∧
      Climbs 0 st.nodes (unit.nodes.map Node.discards).sum ids ∧
      ∀ node ∈ unit.nodes, ∀ body ∈ node.bodies, InOrder body := by
  obtain ⟨st, hparse⟩ := outcome_ok h
  obtain ⟨htakes, hid⟩ := (takes_fileUnit _).ok hparse
  have hshares : (Node.unit unit).shares = (↑(unit.nodes.map Node.id),
      (unit.nodes.map Node.discards).sum, ↑(unit.nodes.flatMap Node.bodies)) :=
    Node.sum_share unit.nodes
  rw [hshares] at htakes
  obtain ⟨ids, hids, hclimb⟩ := htakes.climb
  exact ⟨st, ids, hparse, hid, Multiset.coe_eq_coe.1 hids, hclimb, fun node hnode body hbody =>
    htakes.inOrder body (Multiset.mem_coe.2 (List.mem_flatMap.2 ⟨node, hnode, hbody⟩))⟩

theorem nodup_ofTokens {file : String} {tokens : List Token} {unit : FileUnit}
    (h : FileUnit.ofTokens file tokens = .ok unit) : (unit.nodes.map Node.id).Nodup := by
  obtain ⟨_, _, -, -, hperm, hclimb, -⟩ := ofTokens_climbs h
  exact hperm.nodup_iff.1 (hclimb.sorted.imp Nat.ne_of_lt)

/-- Every node of a file that is accepted has a number of its own, and the file has the first. No
number is without a node, but for those of the matrix and the row that a multiple assignment was
read from and that of the word `import` of each command. Along the statements of each list, and in
each statement, the numbers climb in the order in which a walk leaves the nodes. -/
theorem ofTokens_numbered {file : String} {tokens : List Token} {unit : FileUnit}
    (h : FileUnit.ofTokens file tokens = .ok unit) :
    ∃ st, fileUnit (State.ofTokens file tokens) = .ok unit st ∧
      (unit.nodes.map Node.id).Nodup ∧ (∀ node ∈ unit.nodes, node.id < st.nodes) ∧
      unit.site.id = 0 ∧
      unit.nodes.length + 2 * unit.nodes.countP Node.isMultiAssign + unit.importCommands =
        st.nodes ∧
      unit.contents.count (.word "import") + unit.importCommands =
        (tokens.filterMap Token.content?).count (.word "import") ∧
      (∀ s, Node.stmt s ∈ unit.nodes → (Node.stmt s).exits.Pairwise (· < ·)) ∧
      ∀ node ∈ unit.nodes, ∀ body ∈ node.bodies,
        ((body.map Node.stmt).flatMap Node.exits).Pairwise (· < ·) := by
  obtain ⟨st, ids, hparse, hid, hperm, hclimb, hbodies⟩ := ofTokens_climbs h
  refine ⟨st, hparse, nodup_ofTokens h, fun node hnode => ?_, hid, ?_, ?_, fun s hs => ?_, hbodies⟩
  · exact (hclimb.bounds _ (hperm.mem_iff.2 (List.mem_map_of_mem hnode))).2
  · have hcount : 0 + ids.length + (unit.nodes.map Node.discards).sum = st.nodes := hclimb.count
    rw [sum_discards, hperm.length_eq, List.length_map] at hcount
    rw [importCommands]
    omega
  · have hword : ("import" : String) ≠ "~" := by decide
    have hcount := ofTokens_count (named_word_of_ne hword) h
    rwa [List.count_append, List.count_replicate_self] at hcount
  · rcases Node.mem_bodies_of_nodes hs with hroot | ⟨node, hnode, body, hbody, hmem⟩
    · cases hroot
    · refine (hbodies node hnode body hbody).sublist ?_
      exact List.sublist_flatten_of_mem (List.mem_map_of_mem (List.mem_map_of_mem hmem))

def numbering : List Token :=
  (TokenBuffer.ofSource (.ofString "t.m"
    "function f\nimport a.b c\n[x, y] = g(1, 'two');\nfunction h\nz = x';\n" {}) {}).toOption.elim
      [] (·.tokens)

theorem ofTokens_numbered_twoFunctions : ∃ unit st, FileUnit.ofTokens "t.m" numbering = .ok unit ∧
    fileUnit (State.ofTokens "t.m" numbering) = .ok unit st ∧ unit.functions.length = 2 ∧
      (unit.nodes.map Node.id).Nodup ∧ unit.nodes.length + 2 * 1 + 1 = st.nodes ∧
        ∀ node ∈ unit.nodes, ∀ body ∈ node.bodies,
          ((body.map Node.stmt).flatMap Node.exits).Pairwise (· < ·) := by
  have hrun : ((FileUnit.ofTokens "t.m" numbering).toOption.any fun unit =>
      unit.functions.length == 2 && unit.nodes.countP Node.isMultiAssign == 1 &&
        unit.importCommands == 1) = true := by
    decide +kernel
  cases hunit : FileUnit.ofTokens "t.m" numbering with
  | ok unit =>
    rw [hunit] at hrun
    change (_ && _ && _) = true at hrun
    simp only [Bool.and_eq_true, beq_iff_eq] at hrun
    obtain ⟨⟨hfunctions, hmulti⟩, himports⟩ := hrun
    obtain ⟨st, hparse, hnodup, -, -, hcount, -, -, hbodies⟩ := ofTokens_numbered hunit
    rw [hmulti, himports] at hcount
    exact ⟨unit, st, rfl, hparse, hfunctions, hnodup, hcount, hbodies⟩
  | error e =>
    rw [hunit] at hrun
    cases hrun

end FileUnit

end MFile
