import MFile.Proofs.Grammar.Extent.Expression
import MFile.Proofs.Grammar.Numbering.Statements
import MFile.Proofs.Grammar.Progress.Statements

/-!
A statement reaches from its first token to its last one, the separator behind it left out, and so
over everything below it. The words of an import are statements of their own.
-/

namespace MFile

namespace Grammar

open Parse

abbrev Parse.blockWithin (fuel : Nat) : BlockParser :=
  fun frame => inFrame frame (statementsWithin fuel)

/-- Somewhere in the tokens a statement is read, up to what ends it, and `s` comes of it; `run` is
what has been read. -/
def ReadFrom (tokens run : List Token) (s : Stmt) : Prop :=
  ∃ (fuel : Nat) (t : Token) (ss : List Stmt) (st st' st'' : State),
    st.front.tokens = tokens ∧ st.ahead.head? = some t ∧
    statementHead (blockWithin fuel) t st = .ok ss st' ∧ st.Passes run st' ∧
      endStatement st' = .ok () st'' ∧ s ∈ ss

def SpansRun (run : List Token) : Stmt → Prop
  | .importNames site chain => ∃ word ∈ run, site.location = word.location ∧
      chain = (Text.pieces '.' word.value.toList).map String.ofList
  | s => ∃ first last, run.head? = some first ∧ run.getLast? = some last ∧
      s.site.location.begins = first.location.begins ∧ s.site.location.ends = last.location.ends

/-- A statement reaches over the tokens that it is read from and over all nodes below it, and each
value below it over its children. -/
structure Extends (tokens : List Token) (s : Stmt) : Prop where
  run : ∃ run, ReadFrom tokens run s ∧ SpansRun run s
  covers : ∀ d ∈ (Node.stmt s).nodes, s.site.location.Covers d.location
  values : ∀ d ∈ (Node.stmt s).nodes, d.isValue = true →
    ∀ c ∈ d.children, d.location.Covers c.2.location

theorem spansRun_of {run : List Token} {s : Stmt} {first last : Token} (hs : s.importId? = none)
    (hfirst : run.head? = some first) (hlast : run.getLast? = some last)
    (hbegins : s.site.location.begins = first.location.begins)
    (hends : s.site.location.ends = last.location.ends) : SpansRun run s := by
  cases s with
  | importNames => cases hs
  | _ => exact ⟨first, last, hfirst, hlast, hbegins, hends⟩

/-! ## What is read lies between two fronts -/

namespace Front

structure Between (m m' : Front) (l : Location) : Prop where
  range : l.IsRange m.file
  begins : m.upcoming ≤ l.begins
  ends : l.ends ≤ m'.reached

structure Lies (m m' : Front) (d : Node) : Prop where
  between : m.Between m' d.location
  values : d.isValue = true → ∀ c ∈ d.children, d.location.Covers c.2.location
  extent : ∀ s, d = .stmt s → Extends m.tokens s

variable {m mid m' : Front} {l : Location} {d : Node}

theorem Between.weaken (h : mid.Between m' l) (hm : Successive m.file m.tokens) (h₁ : m.Leads mid) :
    m.Between m' l :=
  ⟨h₁.file ▸ h.range, (h₁.le hm).1.trans h.begins, h.ends⟩

theorem Between.later (h : m.Between mid l) (hm : Successive mid.file mid.tokens)
    (h₂ : mid.Leads m') : m.Between m' l :=
  ⟨h.range, h.begins, h.ends.trans (h₂.le hm).2⟩

end Front

structure Held (m m' : Front) (nodes : List Node) : Prop where
  successive : Successive m.file m.tokens
  leads : m.Leads m'
  each : ∀ node ∈ nodes, ∀ d ∈ node.nodes, m.Lies m' d

theorem Fits.held {m m' : Front} {nodes : List Node} (h : Fits m m' nodes) : Held m m' nodes := by
  refine ⟨h.successive, h.leads, fun node hnode d hd => ?_⟩
  obtain ⟨hvalue, hrange, hcovers⟩ := h.tidy node hnode d hd
  obtain ⟨hbegins, hends⟩ := h.within node hnode
  have hcover := (h.tidy node hnode).covers hd
  refine ⟨⟨hrange, hbegins.trans hcover.begins, hcover.ends.trans hends⟩, fun _ => hcovers, ?_⟩
  rintro s rfl
  cases hvalue

namespace Held

variable {m mid m' : Front} {ns ns' u : List Node} {node : Node} {t : Token} {rest : List Token}
  {l : Location}

theorem nil (h : Successive m.file m.tokens) : Held m m [] := ⟨h, .refl, List.forall_mem_nil _⟩

theorem successive' (h : Held m m' ns) : Successive m'.file m'.tokens :=
  h.leads.successive h.successive

theorem append (h : Held m mid ns) (h' : Held mid m' ns') : Held m m' (ns ++ ns') := by
  refine ⟨h.successive, h.leads.trans h'.leads, List.forall_mem_append.2 ⟨fun node hnode d hd => ?_,
    fun node hnode d hd => ?_⟩⟩
  · obtain ⟨hbetween, hvalues, hextent⟩ := h.each node hnode d hd
    exact ⟨hbetween.later h'.successive h'.leads, hvalues, hextent⟩
  · obtain ⟨hbetween, hvalues, hextent⟩ := h'.each node hnode d hd
    exact ⟨hbetween.weaken h.successive h.leads, hvalues, h.leads.tokens ▸ hextent⟩

theorem skip (h : Held m mid ns) (hleads : mid.Leads m') : Held m m' ns := by
  have hboth := h.append (⟨h.successive', hleads, List.forall_mem_nil _⟩ : Held mid m' [])
  rwa [List.append_nil] at hboth

theorem past (h : Held m mid ns) (hahead : mid.ahead = t :: rest) : Held m (mid.past t rest) ns :=
  h.skip (.past .refl hahead)

theorem between_past (h : Held m mid ns) (hahead : mid.ahead = t :: rest) :
    m.Between (mid.past t rest) t.location := by
  have hrange := h.successive'.ranges t (by simp [Front.tokens, hahead])
  have hbetween : mid.Between (mid.past t rest) t.location :=
    ⟨hrange, (Front.upcoming_eq hahead).le, le_rfl⟩
  exact hbetween.weaken h.successive h.leads

theorem below (h : Held m m' ns) (hns : ∀ c ∈ ns', ∃ node ∈ ns, c ∈ node.nodes) :
    Held m m' ns' := by
  refine ⟨h.successive, h.leads, fun c hc d hd => ?_⟩
  obtain ⟨node, hnode, hc⟩ := hns c hc
  exact h.each node hnode d (Node.nodes_trans hc hd)

theorem close (h : Held m m' (u ++ ns)) (hchildren : node.children.map (·.2) = ns)
    (hnode : m.Lies m' node) : Held m m' (u ++ [node]) := by
  obtain ⟨hfront, hns⟩ := List.forall_mem_append.1 h.each
  refine ⟨h.successive, h.leads, List.forall_mem_append.2 ⟨hfront, List.forall_mem_singleton.2 ?_⟩⟩
  intro d hd
  rcases Node.mem_nodes_iff.1 hd with rfl | ⟨c, hc, hd⟩
  · exact hnode
  · exact hns c.2 (hchildren ▸ List.mem_map_of_mem hc) d hd

theorem clause {node : Clause → Node} {clauses : List Clause} {head : Option Expr} {i : Nat}
    {ss : List Stmt}
    (h : Held m m' (u ++ clauses.map node ++ head.toList.map .expr ++ ss.map .stmt))
    (hl : m.Between m' l) (hnode : node = .action ∨ node = .arm) :
    Held m m' (u ++ (clauses ++ [Clause.mk ⟨i, l⟩ head ss]).map node) := by
  rw [List.append_assoc _ (head.toList.map _)] at h
  rw [List.map_append, ← List.append_assoc]
  rcases hnode with rfl | rfl
  · exact h.close (by simp) ⟨hl, Bool.noConfusion, fun _ => Node.noConfusion⟩
  · exact h.close (by simp) ⟨hl, Bool.noConfusion, fun _ => Node.noConfusion⟩

theorem name {n : Name} (h : Held m m' [.expr (.name n)]) : Held m m' [.name n] := by
  refine ⟨h.successive, h.leads, List.forall_mem_singleton.2 fun d hd => ?_⟩
  have hexpr := h.each _ (List.mem_singleton_self _)
  rcases Node.mem_nodes_iff.1 hd with rfl | ⟨c, hc, hd⟩
  · obtain ⟨hbetween, hvalues, -⟩ := hexpr _ (Node.mem_nodes_self _)
    exact ⟨hbetween, fun _ => hvalues rfl, fun _ => Node.noConfusion⟩
  · exact hexpr d (Node.mem_nodes_iff.2 (.inr ⟨c, hc, hd⟩))

theorem names {site : Site} {row : Row} {ns : List Name}
    (h : Held m m' [.expr (.matrix site [row])]) (hns : row.items = ns.map .name) :
    Held m m' (ns.map .name) := by
  refine ⟨h.successive, h.leads, List.forall_mem_map.2 fun n hn => ?_⟩
  have hitem : Held m m' [.expr (.name n)] := by
    refine h.below (List.forall_mem_singleton.2 ⟨_, List.mem_singleton_self _, ?_⟩)
    refine Node.mem_nodes_iff.2 (.inr ⟨(.row, .row row), by simp, ?_⟩)
    refine Node.mem_nodes_iff.2 (.inr ⟨(.element, .expr (.name n)), ?_, Node.mem_nodes_self _⟩)
    simp [hns, hn]
  exact hitem.name.each _ (List.mem_singleton_self _)

end Held

namespace Parse

variable {α β : Type} {m : Front} {s : State} {t : Token} {u : List Node} {block : BlockParser}

/-! ## Moves -/

def Moves (p : Parse α) : Prop := ∀ s, Meets false p s fun _ s' => s.front.Leads s'.front

theorem Moves.after {p : Parse α} {f : α → Parse β} {Q : β → State → Prop} (h : Moves p)
    (hs : Held m s.front u) (hf : ∀ a mid, Held m mid.front u → Meets false (f a) mid Q) :
    Meets false (p >>= f) s Q :=
  (h s).bind fun a mid ha => hf a mid (hs.skip ha)

theorem Fitting.follows {p : Parse α} {f : α → Parse β} {w : α → List Node} {Q : β → State → Prop}
    (h : Fitting p w) (hs : Held m s.front u)
    (hf : ∀ a mid, Held m mid.front (u ++ w a) → Meets false (f a) mid Q) :
    Meets false (p >>= f) s Q :=
  (h s hs.successive').bind fun a mid ha => hf a mid (hs.append ha.held)

theorem Fitting.some {p : Parse α} {node : α → Node} (h : Fitting p fun a => [node a]) :
    Fitting (Option.some <$> p) fun a => a.toList.map node :=
  fun s hs => .map (h s hs)

theorem moves_skipSeparators : Moves skipSeparators :=
  fun s => .of_run rfl (Front.Leads.across (m := s.front) _ List.takeWhile_append_dropWhile.symm)

theorem moves_endStatement : Moves endStatement := by
  refine fun s => .eatIf (fun _ _ hahead _ => .pure (.past .refl hahead)) fun _ =>
    .current? (fun _ => .pure .refl) fun t rest _ => ?_
  dsimp only
  split
  · exact .unexpected
  · exact .pure .refl

theorem moves_requireLoop (t : Token) : Moves (requireLoop t) := by
  refine fun s => .get ?_
  split
  · exact .pure .refl
  · exact .fail

theorem moves_blockEnd (opener : Token) : Moves (blockEnd opener) :=
  fun _ => .eatWord (fun _ _ hahead _ => .pure (.past .refl hahead)) .failHere

theorem moves_discardExpect {kind : Kind} {what : Expectation} :
    Moves (discard (expect kind what)) := by
  intro s
  rw [← bind_pure (discard _)]
  exact .discard_bind (.expect fun _ _ hahead _ => .pure (.past .refl hahead))

/-! ## Statements with blocks -/

def MakesBetween (m m' : Front) (make : Site → Stmt) : Prop :=
  ∃ nodes, Held m m' nodes ∧ ∀ site, (Node.stmt (make site)).children.map (·.2) = nodes ∧
    (make site).site = site ∧ (make site).importId? = none

abbrev MakesStmt (p : Parse (Site → Stmt)) : Prop :=
  ∀ m s, Held m s.front [] → Meets false p s fun make s' => MakesBetween m s'.front make

abbrev HeldBlock (block : BlockParser) : Prop := ∀ frame s, Successive s.file s.front.tokens →
  Meets false (block frame) s fun ss s' => Held s.front s'.front (ss.map .stmt)

theorem HeldBlock.follows {f : List Stmt → Parse β} {Q : β → State → Prop} (h : HeldBlock block)
    (frame : Frame) (hs : Held m s.front u)
    (hf : ∀ ss mid, Held m mid.front (u ++ ss.map .stmt) → Meets false (f ss) mid Q) :
    Meets false (block frame >>= f) s Q :=
  (h frame s hs.successive').bind fun ss mid hss => hf ss mid (hs.append hss)

section Blocks

variable (hblock : HeldBlock block)

include hblock

theorem makes_lastBlock {make : List Stmt → Site → Stmt} (frame : Frame) (opener : Token)
    (h : Held m s.front u)
    (hmake : ∀ ss site, (Node.stmt (make ss site)).children.map (·.2) = u ++ ss.map .stmt ∧
      (make ss site).site = site ∧ (make ss site).importId? = none) :
    Meets false
      (do
        let body ← block frame
        blockEnd opener
        return make body) s fun make s' => MakesBetween m s'.front make :=
  hblock.follows frame h fun ss _ hss => (moves_blockEnd opener).after hss fun _ _ hss =>
    .pure ⟨_, hss, hmake ss⟩

theorem makes_ifStmt (opener : Token) (h : Held m s.front [])
    (hopener : m.Between s.front opener.location) :
    Meets false (ifStmt block opener) s fun make s' =>
      MakesBetween m s'.front make ∧ s.front.Leads s'.front := by
  let I (soFar : Token × Option Expr × List Clause) (st : State) : Prop :=
    Held m st.front (soFar.2.2.map Node.action ++ soFar.2.1.toList.map Node.expr) ∧
      m.Between st.front soFar.1.location ∧ s.front.Leads st.front
  refine (fitting_expression s h.successive').bind fun guard mid hguard => ?_
  refine Meets.bind (P := fun branches st => Held m st.front (branches.map .action) ∧
    s.front.Leads st.front) (.rounds (I := I) ⟨h.append hguard.held,
      hopener.later h.successive' hguard.leads, hguard.leads⟩ ?_)
    fun branches mid₁ ⟨hbranches, hmid₁⟩ => ?_
  · refine fun (word, head, branches) st ⟨h, hword, hst⟩ =>
      (hblock _ st h.successive').bind fun body st₁ hbody => .siteAt ?_
    have hall := Held.clause (u := []) (h.append hbody) (l := word.location) (i := st₁.nodes)
      (hword.later h.successive' hbody.leads) (.inl rfl)
    have hst₁ := hst.trans hbody.leads
    dsimp only
    split
    · exact .pure ⟨hall, hst₁⟩
    refine .eatWord (fun word _ hahead _ => ?_) (.eatWord (fun word _ hahead _ => .pure ?_)
      (.pure ⟨hall, hst₁⟩))
    · have hpast := hall.past hahead
      refine (fitting_expression _ hpast.successive').bind fun guard st₂ hguard => .pure ?_
      exact ⟨hpast.append hguard.held,
        (hall.between_past hahead).later hpast.successive' hguard.leads,
        (hst₁.past hahead).trans hguard.leads⟩
    · have hpast := hall.past hahead
      exact ⟨hpast.append (.nil hpast.successive'), hall.between_past hahead, hst₁.past hahead⟩
  · refine (moves_blockEnd opener mid₁).bind fun _ mid₂ hmid₂ => .pure ?_
    exact ⟨⟨_, hbranches.skip hmid₂, fun site => ⟨by simp, rfl, rfl⟩⟩, hmid₁.trans hmid₂⟩

theorem makes_switchStmt (opener : Token) : MakesStmt (switchStmt block opener) := by
  refine fun m s h => fitting_expression.follows h fun subject mid hsubject => ?_
  refine Meets.bind (P := fun arms st => Held m st.front ([.expr subject] ++ arms.map .arm))
    (.rounds
      (I := fun (arms : List Clause) st => Held m st.front ([.expr subject] ++ arms.map .arm))
      hsubject ?_) fun arms mid₁ harms => ?_
  · intro arms s h
    have harm : ∀ (word : Token) (head : Option Expr) (st : State),
        Held m st.front ([.expr subject] ++ arms.map .arm ++ head.toList.map .expr) →
        m.Between st.front word.location → Meets false
          (do
            let body ← block .switch
            return Round.again (arms ++ [⟨← siteAt word.location, head, body⟩])) st
          (Leaves
            (fun (arms' : List Clause) s' =>
              Held m s'.front ([.expr subject] ++ arms'.map .arm))
            fun (arms' : List Clause) s' =>
              Held m s'.front ([.expr subject] ++ arms'.map .arm)) := by
      refine fun word head st hst hword => (hblock .switch st hst.successive').bind
        fun body st' hbody => .siteAt (.pure ?_)
      have hall := (hst.append hbody).clause (i := st'.nodes)
        (hword.later hst.successive' hbody.leads) (.inr rfl)
      exact hall
    refine moves_skipSeparators.after h fun _ st hst => ?_
    refine .eatWord (fun word _ hahead _ => ?_) (.eatWord (fun word _ hahead _ => ?_)
      (.checkWord fun closed => ?_))
    · have hpast := hst.past hahead
      refine (fitting_expression _ hpast.successive').bind fun value st' hvalue => ?_
      exact harm word (some value) st' (hpast.append hvalue.held)
        ((hst.between_past hahead).later hpast.successive' hvalue.leads)
    · have hpast := hst.past hahead
      exact harm word none _ (hpast.append (.nil hpast.successive')) (hst.between_past hahead)
    · split
      · exact .pure hst
      · exact .unexpected
  · refine (moves_blockEnd opener).after harms fun _ mid₂ harms => .pure ?_
    exact ⟨_, harms, fun site => ⟨by simp, rfl, rfl⟩⟩

omit hblock in
theorem held_loopHead {f : Name × Expr → Parse β} {Q : β → State → Prop} (h : Held m s.front u)
    (hf : ∀ var range mid, Held m mid.front (u ++ [.name var, .expr range]) →
      Meets false (f (var, range)) mid Q) : Meets false (loopHead >>= f) s Q := by
  have hhead : Meets false loopHead s fun r s' =>
      Held m s'.front (u ++ [.name r.1, .expr r.2]) := by
    refine fitting_identifier.follows h fun var mid hvar => ?_
    refine moves_discardExpect.after hvar fun _ mid₁ hvar => ?_
    refine fitting_expression.follows hvar fun range mid₂ hboth => .pure ?_
    rwa [List.append_assoc] at hboth
  exact hhead.bind fun (var, range) mid hmid => hf var range mid hmid

theorem makes_forStmt (opener : Token) : MakesStmt (forStmt block opener) := by
  refine fun m s h => .eat (fun _ _ hahead _ => ?_) ?_
  · refine held_loopHead (h.past hahead) fun var range mid hhead => ?_
    refine moves_discardExpect.after hhead fun _ mid₁ hhead => ?_
    exact makes_lastBlock hblock _ _ hhead fun _ _ => ⟨by simp, rfl, rfl⟩
  · exact held_loopHead h fun var range mid hhead =>
      makes_lastBlock hblock _ _ hhead fun _ _ => ⟨by simp, rfl, rfl⟩

theorem makes_parForStmt (opener : Token) : MakesStmt (parForStmt block opener) := by
  intro m s h
  have hbody : ∀ {st : State} (var : Name) (range : Expr) (workers : Option Expr),
      Held m st.front ([.name var, .expr range] ++ workers.toList.map .expr) → Meets false
        (do
          let body ← block .loop
          blockEnd opener
          return (Stmt.parFor · var range workers body)) st fun make s' =>
        MakesBetween m s'.front make :=
    fun var range workers h => makes_lastBlock hblock _ _ h fun _ _ => ⟨by simp, rfl, rfl⟩
  refine .eat (fun _ _ hahead _ => ?_) ?_
  · refine held_loopHead (h.past hahead) fun var range mid hhead => ?_
    refine .eat (fun _ _ hahead' _ => ?_) ?_
    · refine fitting_expression.some.follows (hhead.past hahead') fun workers mid₁ hworkers => ?_
      exact moves_discardExpect.after hworkers fun _ _ hworkers => hbody var range workers hworkers
    · exact moves_discardExpect.after hhead fun _ _ hhead => hbody var range none hhead
  · exact held_loopHead h fun var range mid hhead => hbody var range none hhead

theorem makes_whileStmt (opener : Token) : MakesStmt (whileStmt block opener) :=
  fun _ _ h => fitting_expression.follows h fun _ _ hguard =>
    makes_lastBlock hblock _ _ hguard fun _ _ => ⟨by simp, rfl, rfl⟩

theorem makes_tryStmt (opener : Token) : MakesStmt (tryStmt block opener) := by
  refine fun m s h => hblock.follows .region h fun body mid hbody =>
    .eatWord (fun _ rest hahead _ => ?_) ?_
  · have hhandler : ∀ {st : State} (var : Option Name),
        Held m st.front ([] ++ body.map .stmt ++ var.toList.map .name) → Meets false
          (do
            let handler ← block .region
            blockEnd opener
            return (Stmt.tryCatch · body var (some handler))) st
          fun make s' => MakesBetween m s'.front make :=
      fun var h => makes_lastBlock hblock _ _ h fun _ _ => ⟨by simp, rfl, rfl⟩
    have hpast := hbody.past hahead
    refine .get ?_
    split
    · exact fitting_identifier.some.follows hpast fun var mid₁ hvar => hhandler var hvar
    · exact hhandler none (hpast.append (.nil hpast.successive'))
  · refine (moves_blockEnd opener).after hbody fun _ mid₁ hbody => .pure ?_
    exact ⟨_, hbody, fun site => ⟨by simp, rfl, rfl⟩⟩

theorem makes_spmdStmt (opener : Token) : MakesStmt (spmdStmt block opener) := by
  refine fun m s h => .check fun paren hparen => ?_
  split
  · rename_i hopen
    obtain ⟨t, rest, hahead, -⟩ := hparen hopen
    refine (fits_arguments fitting_expression (.nil h.successive') hahead).bind
      fun options mid hoptions => ?_
    exact makes_lastBlock hblock _ _ (h.append hoptions.held) fun _ _ => ⟨by simp, rfl, rfl⟩
  · exact makes_lastBlock hblock _ _ h fun _ _ => ⟨by simp, rfl, rfl⟩

end Blocks

/-! ## Statements without a block -/

theorem fits_words {g : Token → Parse α} (node : α → Node)
    (hg : ∀ w s, Meets false (g w) s fun a s' => s'.front = s.front ∧ (node a).children = [] ∧
      (node a).isValue = true ∧ (node a).location = w.location)
    (ws : List Token) {rest : List Token} {mid : Front} (h : Fits m mid u)
    (hahead : mid.ahead = ws ++ rest) (hs : s.front = ⟨mid.file, ws.reverse ++ mid.behind, rest⟩) :
    Meets false (ws.mapM g) s fun as s' => Fits m s'.front (u ++ as.map node) := by
  induction ws generalizing mid u s with
  | nil =>
    obtain ⟨file, behind, ahead⟩ := mid
    cases hahead
    refine .pure ?_
    change Fits m s.front (u ++ [])
    rw [List.append_nil, hs]
    exact h
  | cons w ws ih =>
    rw [List.mapM_cons]
    refine (hg w s).bind fun a s' ⟨hs', hchildren, hvalue, hlocation⟩ => ?_
    have hleaf := h.append (.leaf h.successive' hahead hchildren hvalue hlocation)
    rw [hs, List.reverse_cons, List.append_assoc] at hs'
    refine (ih hleaf rfl hs').bind fun as s'' has => .pure ?_
    rwa [List.append_assoc] at has

theorem fitting_declaredNames : Fitting declaredNames fun ns => ns.map .name := by
  refine fun s hs => (fitting_identifier s hs).bind fun first mid hfirst => .step rfl ?_
  refine (fits_words (g := identifierOf) .name (fun w s => .siteAt (.pure ⟨rfl, rfl, rfl, rfl⟩))
    _ hfirst List.takeWhile_append_dropWhile.symm rfl).bind fun names mid' hnames => .pure hnames

theorem makes_expressionStmt : MakesStmt expressionStmt := by
  refine fun m s h => .check fun bracketed _ => .modify ?_
  refine (fitting_expression { s with placeholders := bracketed } h.successive').bind
    fun lhs mid hlhs => .modify ?_
  have hheld : Held m mid.front [.expr lhs] := h.append hlhs.held
  refine .eatIf (fun _ _ hahead _ => ?_) fun _ => ?_
  · have hpast := hheld.past hahead
    simp only [Option.isNone_some, Bool.false_eq_true, if_false]
    split
    · rename_i site row
      refine (meets_assignableNames _).bind fun ns mid₁ ⟨hmid₁, hns⟩ => ?_
      subst hmid₁
      have hnames := hpast.names hns
      refine fitting_expression.follows hnames fun rhs mid₂ hrhs => .pure ?_
      exact ⟨_, hrhs, fun site => ⟨by simp, rfl, rfl⟩⟩
    · refine (meets_assignableName _).bind fun n mid₁ ⟨hmid₁, hn⟩ => ?_
      subst hmid₁ hn
      refine fitting_expression.follows hpast.name fun rhs mid₂ hrhs => .pure ?_
      exact ⟨_, hrhs, fun site => ⟨by simp, rfl, rfl⟩⟩
  · simp only [Option.isNone_none, if_true]
    split
    · exact .fail_bind
    · exact .pure ⟨_, hheld, fun site => ⟨by simp, rfl, rfl⟩⟩

/-! ## Commands -/

theorem imports_drafted (id : Nat) (ws : List Token) : ∀ s ∈ importsFrom id ws, ∃ w ∈ ws, ∃ id,
    s = .importNames ⟨id, w.location⟩ ((Text.pieces '.' w.value.toList).map String.ofList) := by
  induction ws generalizing id with
  | nil => exact List.forall_mem_nil _
  | cons w ws ih =>
    refine List.forall_mem_cons.2 ⟨⟨w, List.mem_cons_self, id, rfl⟩, fun s hs => ?_⟩
    obtain ⟨w', hw', hid⟩ := ih (id + 1) s hs
    exact ⟨w', List.mem_cons_of_mem _ hw', hid⟩

/-- From `s` to `s'` a statement is read that has its place there, or a word of an import. -/
structure Drafts (s s' : State) (stmt : Stmt) : Prop where
  children : Held s.front s'.front ((Node.stmt stmt).children.map (·.2))
  place : (stmt.importId? = none ∧
      Spans s.file s.front.upcoming s'.front.reached stmt.site.location) ∨
    ∃ id word, (∀ run, s.Passes run s' → word ∈ run) ∧ stmt = .importNames ⟨id, word.location⟩
      ((Text.pieces '.' word.value.toList).map String.ofList)

theorem drafts_commandHead (hs : Successive s.file s.front.tokens) :
    Meets false commandHead s fun ss s' =>
      s.front.Leads s'.front ∧ ∀ stmt ∈ ss, Drafts s s' stmt := by
  refine (fits_dottedName hs).bind fun head mid ⟨hhead, hbegins⟩ => .step rfl ?_
  generalize hw : mid.ahead.takeWhile _ = words
  generalize hr : mid.ahead.dropWhile _ = rest
  have hahead : mid.ahead = words ++ rest := by
    rw [← hw, ← hr, List.takeWhile_append_dropWhile]
  have hleads := hhead.leads.trans (.across (m := mid.front) words hahead)
  split
  · refine .of_run (imports_run _ _) ⟨hleads, fun stmt hstmt => ?_⟩
    obtain ⟨word, hword, id, rfl⟩ := imports_drafted _ _ stmt hstmt
    refine ⟨⟨hs, hleads, List.forall_mem_nil _⟩, .inr ⟨id, word, fun run hrun => ?_, rfl⟩⟩
    obtain ⟨before, hbefore⟩ := hhead.leads.passes
    have hrest : s.ahead = run ++ rest := hrun.ahead
    rw [hbefore.ahead, hahead, ← List.append_assoc, List.append_cancel_right_eq] at hrest
    rw [← hrest]
    exact List.mem_append_right _ hword
  · refine (fits_words .expr (fun w st => .siteAt (.pure ⟨rfl, rfl, rfl, rfl⟩)) words hhead
      hahead rfl).bind fun args mid₁ hargs => .siteFrom (.siteFrom (.pure ?_))
    have hplace : Spans s.file s.front.upcoming mid₁.front.reached
        (head.site.location.extendTo mid₁.lastPlace) := by
      rw [← hbegins]
      exact hargs.spans_place (List.mem_append_left _ (List.mem_singleton_self _))
    refine ⟨hargs.leads, List.forall_mem_singleton.2 ⟨?_, .inl ⟨rfl, hplace⟩⟩⟩
    refine (Fits.name_iff (u := []).2 ?_).held
    exact Fits.close_place (u := []) hargs rfl (by simp) rfl rfl

/-! ## Whole statements -/

section Lists

variable (hblock : HeldBlock block) {rest : List Token}

include hblock

theorem makes_keywordStmt (hs : Successive s.file s.front.tokens) (hahead : s.ahead = t :: rest) :
    Meets false (keywordStmt block t) s fun make s' =>
      MakesBetween s.front s'.front make ∧ (s.front.past t rest).Leads s'.front := by
  have hnil : Held s.front s.front [] := .nil hs
  have hpast : Held s.front (s.past t rest).front [] := hnil.past hahead
  have hopened : ∀ {p : Parse (Site → Stmt)}, MakesStmt p →
      Meets false (advance >>= fun _ => p) s fun make s' =>
        MakesBetween s.front s'.front make ∧ (s.front.past t rest).Leads s'.front := by
    refine fun hp => .advance hahead ((hp (s.past t rest).front (s.past t rest)
      (.nil hpast.successive')).mono fun make s' ⟨nodes, hnodes, hmake⟩ => ?_)
    exact ⟨⟨nodes, hpast.append hnodes, hmake⟩, hnodes.leads⟩
  have hdeclared : ∀ {make : List Name → Site → Stmt},
      (∀ ns site, (Node.stmt (make ns site)).children.map (·.2) = ns.map .name ∧
        (make ns site).site = site ∧ (make ns site).importId? = none) →
      MakesStmt (do
        let names ← declaredNames
        return make names) := by
    refine fun hmake m s h => fitting_declaredNames.follows h fun names mid hnames => .pure ?_
    exact ⟨_, hnames, hmake names⟩
  have hlooped : ∀ {make : Site → Stmt},
      (∀ site, (Node.stmt (make site)).children.map (·.2) = [] ∧
        (make site).site = site ∧ (make site).importId? = none) →
      MakesStmt (do
        requireLoop t
        return make) :=
    fun hmake m s h => (moves_requireLoop t).after h fun _ mid hmid => .pure ⟨_, hmid, hmake⟩
  rw [keywordStmt]
  dsimp only
  split
  · exact .advance hahead (makes_ifStmt hblock t hpast (hnil.between_past hahead))
  · exact hopened (makes_switchStmt hblock t)
  · exact hopened (makes_forStmt hblock t)
  · exact hopened (makes_parForStmt hblock t)
  · exact hopened (makes_whileStmt hblock t)
  · exact hopened (makes_tryStmt hblock t)
  · exact hopened (makes_spmdStmt hblock t)
  · exact hopened (hdeclared fun ns l => ⟨by simp, rfl, rfl⟩)
  · exact hopened (hdeclared fun ns l => ⟨by simp, rfl, rfl⟩)
  · exact hopened (hlooped fun site => ⟨rfl, rfl, rfl⟩)
  · exact hopened (hlooped fun site => ⟨rfl, rfl, rfl⟩)
  · exact hopened fun m st h => .pure ⟨_, h, fun site => ⟨rfl, rfl, rfl⟩⟩
  · exact .fail

theorem drafts_statementHead (hs : Successive s.file s.front.tokens)
    (hahead : s.ahead = t :: rest) :
    Meets false (statementHead block t) s fun ss s' =>
      (s.front.past t rest).Leads s'.front ∧ ∀ stmt ∈ ss, Drafts s s' stmt := by
  have hnil : Held s.front s.front [] := .nil hs
  have hpast : Held s.front (s.past t rest).front [] := hnil.past hahead
  have hmade : ∀ {make : Site → Stmt} (mid : State), MakesBetween s.front mid.front make →
      (s.front.past t rest).Leads mid.front → Meets false
        (do return [make (← siteFrom t.location)]) mid fun ss s' =>
          (s.front.past t rest).Leads s'.front ∧ ∀ stmt ∈ ss, Drafts s s' stmt := by
    rintro make mid ⟨nodes, hnodes, hmake⟩ hleads
    refine .siteFrom (.pure ⟨hleads, List.forall_mem_singleton.2 ?_⟩)
    obtain ⟨hchildren, hsite, himport⟩ := hmake ⟨mid.nodes, t.location.extendTo mid.lastPlace⟩
    refine ⟨hchildren ▸ hnodes, .inl ⟨himport, ?_⟩⟩
    have hfile : mid.file = s.file := hnodes.leads.file
    have hrange := (hnil.between_past hahead).range
    have hspans := spans_lastPlace hnodes.successive' (hfile ▸ hrange)
      (hleads.le hpast.successive').2
    rw [hsite]
    rw [hfile, ← Front.upcoming_eq (m := s.front) hahead] at hspans
    exact hspans
  refine .get ?_
  split
  · refine ((drafts_commandHead hs).and fun ss s' hrun =>
      (advances_commandHead s (Nat.lt_succ_self _)).ok hrun).mono fun ss s' h => ?_
    exact ⟨h.1.1.past_first hahead h.2, h.1.2⟩
  split
  · exact (makes_keywordStmt hblock hs hahead).bind
      fun make mid ⟨hmake, hmid⟩ => hmade mid hmake hmid
  · refine .advance hahead (.step rfl (hmade (s.past t rest) ?_ .refl))
    exact ⟨_, hpast, fun site => ⟨rfl, rfl, rfl⟩⟩
  · refine ((makes_expressionStmt s.front s hnil).and fun make mid hrun =>
      (advances_expressionStmt s (Nat.lt_succ_self _)).ok hrun).bind fun make mid h => ?_
    obtain ⟨⟨nodes, hnodes, hmake⟩, hshorter⟩ := h
    exact hmade mid ⟨nodes, hnodes, hmake⟩ (hnodes.leads.past_first hahead hshorter)

omit hblock in
theorem between_of_mem {s' : State} {run : List Token} {u : Token}
    (hs : Successive s.file s.front.tokens) (hpass : s.Passes run s') (hfile : s'.file = s.file)
    (hu : u ∈ run) : s.front.Between s'.front u.location := by
  obtain ⟨before, behind, rfl⟩ := List.append_of_mem hu
  have hahead : s.front.ahead = before ++ (u :: (behind ++ s'.ahead)) := by
    rw [← List.cons_append, ← List.append_assoc]
    exact hpass.ahead
  have hfirst := (Held.nil (m := s.front) hs).skip (.across before hahead)
  have hlater : ((⟨s.file, before.reverse ++ s.behind, u :: (behind ++ s'.ahead)⟩ : Front).past u
      (behind ++ s'.ahead)).Leads s'.front := by
    have hend :
        s'.front = ⟨s.file, behind.reverse ++ u :: (before.reverse ++ s.behind), s'.ahead⟩ := by
      rw [State.front, hfile, hpass.behind, List.reverse_append, List.reverse_cons,
        List.append_assoc, List.append_assoc]
      rfl
    rw [hend]
    exact .across behind rfl
  exact (hfirst.between_past rfl).later (hfirst.past rfl).successive' hlater

omit hblock in
theorem Drafts.held {s' : State} {stmt : Stmt} (h : Drafts s s' stmt)
    (hs : Successive s.file s.front.tokens) (hahead : s.ahead = t :: rest)
    (hleads : (s.front.past t rest).Leads s'.front)
    (hread : ∀ run, s.Passes run s' → ReadFrom s.front.tokens run stmt) :
    Held s.front s'.front [.stmt stmt] := by
  obtain ⟨run, hrun⟩ := Front.Leads.passes (s := s.past t rest) hleads
  have hpass : s.Passes (t :: run) s' := (s.passes_past t rest hahead).trans hrun
  obtain ⟨last, hlast⟩ : ∃ last, (t :: run).getLast? = some last :=
    ⟨_, List.getLast?_eq_some_getLast (List.cons_ne_nil t run)⟩
  have hreached : s'.front.reached = last.location.ends := by
    rw [Front.reached, State.front, hpass.behind, List.head?_append, List.head?_reverse, hlast]
    rfl
  have hbetween : s.front.Between s'.front stmt.site.location := by
    rcases h.place with ⟨-, hspans⟩ | ⟨id, word, hword, rfl⟩
    · exact ⟨hspans.range, hspans.begins.ge, hspans.ends.le⟩
    · exact between_of_mem hs hpass h.children.leads.file (hword _ hpass)
  have hspans : SpansRun (t :: run) stmt := by
    rcases h.place with ⟨himport, hspans⟩ | ⟨id, word, hword, rfl⟩
    · refine spansRun_of himport rfl hlast (hspans.begins.trans ?_) (hspans.ends.trans hreached)
      exact Front.upcoming_eq (m := s.front) hahead
    · exact ⟨word, hword _ hpass, rfl, rfl⟩
  have hbelow : ∀ d ∈ (Node.stmt stmt).nodes, d = .stmt stmt ∨ s.front.Lies s'.front d ∧
      stmt.site.location.Covers d.location := by
    intro d hd
    rcases Node.mem_nodes_iff.1 hd with rfl | ⟨c, hc, hd⟩
    · exact .inl rfl
    have hlies := h.children.each c.2 (List.mem_map_of_mem hc) d hd
    refine .inr ⟨hlies, ?_⟩
    rcases h.place with ⟨-, hspans⟩ | ⟨id, word, -, rfl⟩
    · refine hspans.range.covers hlies.between.range ?_ ?_
      · exact hspans.begins.trans_le hlies.between.begins
      · exact hlies.between.ends.trans hspans.ends.ge
    · cases hc
  refine Held.close (u := []) h.children rfl ⟨hbetween, Bool.noConfusion, ?_⟩
  rintro _ ⟨⟩
  refine ⟨⟨_, hread _ hpass, hspans⟩, fun d hd => ?_, fun d hd hvalue => ?_⟩
  · rcases hbelow d hd with rfl | ⟨-, hcovers⟩
    · exact hbetween.range.covers hbetween.range le_rfl le_rfl
    · exact hcovers
  · rcases hbelow d hd with rfl | ⟨hlies, -⟩
    · cases hvalue
    · exact hlies.values hvalue

end Lists

/-! ## Lists of statements -/

theorem held_statement {fuel : Nat} {rest : List Token} (hblock : HeldBlock (blockWithin fuel))
    (hs : Successive s.file s.front.tokens) (hahead : s.ahead = t :: rest) :
    Meets false (statement (blockWithin fuel) t) s fun ss s' =>
      Held s.front s'.front (ss.map .stmt) := by
  rw [statement_eq]
  refine ((drafts_statementHead hblock hs hahead).and fun ss mid hrun => hrun).bind
    fun ss mid ⟨⟨hleads, hss⟩, hhead⟩ => ?_
  refine ((moves_endStatement mid).and fun _ mid' hrun => hrun).bind
    fun u mid' ⟨hmid', hend⟩ => .pure ?_
  have hstep : s.front.Leads (s.front.past t rest) := .past .refl hahead
  have hheld : Held s.front mid.front (ss.map .stmt) := by
    refine ⟨hs, hstep.trans hleads, List.forall_mem_map.2 fun stmt hstmt => ?_⟩
    have hone := (hss stmt hstmt).held hs hahead hleads fun run hrun =>
      ⟨fuel, t, ss, s, mid, mid', rfl, by rw [hahead]; rfl, hhead, hrun, hend, hstmt⟩
    exact hone.each _ (List.mem_singleton_self _)
  exact hheld.skip hmid'

theorem held_statementList {fuel : Nat} (hblock : HeldBlock (blockWithin fuel))
    (hs : Successive s.file s.front.tokens) :
    Meets false (statementList (blockWithin fuel)) s fun ss s' =>
      Held s.front s'.front (ss.map .stmt) := by
  rw [statementList_eq]
  refine .rounds (I := fun ss st => Held s.front st.front (ss.map .stmt)) (.nil hs) ?_
  refine fun ss st hss => moves_skipSeparators.after hss fun _ mid hss => ?_
  refine .current? (fun _ => .pure hss) fun t rest hahead => ?_
  rw [statementChoice]
  split
  · exact .pure hss
  split
  · refine .get ?_
    split
    · exact .pure hss
    · exact .pure hss
    · exact .fail
  split
  · exact .fail
  · refine (held_statement hblock hss.successive' hahead).bind fun more mid₁ hmore => .pure ?_
    change Held s.front mid₁.front _
    rw [List.map_append]
    exact hss.append hmore

theorem held_statementsWithin (fuel : Nat) (s : State) (hs : Successive s.file s.front.tokens) :
    Meets false (statementsWithin fuel) s fun ss s' => Held s.front s'.front (ss.map .stmt) := by
  induction fuel generalizing s with
  | zero => exact .step (here_run s) (.of_error rfl)
  | succ fuel ih =>
    refine held_statementList (fun frame s hs => .bracketed ?_) hs
    exact ih { s with frames := frame :: s.frames } hs

theorem held_statements (hs : Successive s.file s.front.tokens) :
    Meets false statements s fun ss s' => Held s.front s'.front (ss.map .stmt) :=
  .get (held_statementsWithin _ s hs)

end Parse

end Grammar

end MFile
