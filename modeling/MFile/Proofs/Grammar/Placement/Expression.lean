import MFile.Grammar.Expr
import MFile.Proofs.Grammar.Placement.Yields
import MFile.Proofs.Tree.Placement

/-!
Expressions may stand where they are read: `end` and a lone colon are read in argument lists only.
-/

namespace MFile.Grammar.Parse

variable {α : Type} {loop index : Bool} {node : α → Node} {as : List α} {a : α} {t : Token}
  {inner p : Parse Expr}

def AllPlaced (loop index : Bool) (node : α → Node) (as : List α) : Prop :=
  ∀ a ∈ as, (node a).Placed loop index

theorem AllPlaced.nil : AllPlaced loop index node [] := List.forall_mem_nil _

theorem AllPlaced.concat (has : AllPlaced loop index node as) (ha : (node a).Placed loop index) :
    AllPlaced loop index node (as ++ [a]) :=
  List.forall_mem_append.2 ⟨has, List.forall_mem_singleton.2 ha⟩

abbrev YieldsExpr (p : Parse Expr) : Prop :=
  ∀ loop index, Yields loop index p fun e => Node.Placed loop index (.expr e)

abbrev YieldsName (p : Parse Name) : Prop :=
  ∀ loop index, Yields loop index p fun n => Node.Placed loop index (.name n)

/-! ## Names -/

theorem placed_identifier (site : Site) (text : String) :
    Node.Placed loop index (.name (.identifier site text)) :=
  Node.placed_iff.2 (by simp)

theorem yields_identifierOf (t : Token) : YieldsName (identifierOf t) :=
  fun _ _ => still_siteAt.bind fun _ => .pure (placed_identifier _ _)

theorem yields_identifier : YieldsName identifier :=
  fun _ _ => still_expect.bind fun t => yields_identifierOf t _ _

theorem yields_placeholderOf (t : Token) : YieldsName (placeholderOf t) :=
  fun _ _ => still_siteAt.bind fun _ => .pure (placed_identifier _ _)

theorem yields_dottedName : YieldsName dottedName := by
  refine fun l i => (yields_identifier l i).bind fun first hfirst => .rounds
    (fun n => Node.Placed l i (.name n)) hfirst fun n hn => ?_
  refine still_check.bind fun _ => still_peekKind?.bind fun _ => ?_
  split
  · refine still_advance.bind fun _ => still_expect.bind fun field => ?_
    exact still_siteBetween.bind fun _ => .pure (Node.placed_iff.2 (by simp [hn]))
  · exact .pure hn

theorem yields_parameters : Yields loop index parameters (AllPlaced loop index .name) := by
  refine .rounds (AllPlaced loop index .name) .nil fun ns hns => still_current?.bind fun t => ?_
  cases t with
  | none => exact .failing fun _ _ _ => unexpected_ok
  | some t =>
    dsimp only
    split
    · exact still_advance.bind fun _ => .pure hns
    · exact still_advance.bind fun _ => .pure hns
    · exact (yields_identifier _ _).bind fun n hn => .pure (hns.concat hn)
    · split
      · exact still_advance.bind fun _ => (yields_placeholderOf t _ _).bind fun n hn =>
          .pure (hns.concat hn)
      · exact .failing fun _ _ _ => unexpected_ok
    · exact .failing fun _ _ _ => unexpected_ok

/-! ## Arguments and suffixes -/

section Inner

variable (hinner : YieldsExpr inner)

include hinner

theorem yields_arguments {close : Kind} :
    Yields loop index (arguments inner close) (AllPlaced loop true .expr) := by
  have hinside : Yields loop true (argumentsInside inner close) (AllPlaced loop true .expr) := by
    refine still_eatIf.bind fun closed => ?_
    split
    · exact .pure .nil
    refine .rounds (AllPlaced loop true .expr) .nil fun es hes => (hinner _ _).bind fun e he => ?_
    refine still_eatIf.bind fun closed => ?_
    split
    · exact .pure (hes.concat he)
    refine still_eatIf.bind fun comma => ?_
    split
    · exact .pure (hes.concat he)
    · exact .failing fun _ _ _ => unexpected_ok
  refine still_advance.bind fun _ => ?_
  intro s es s' hs hrun
  obtain ⟨_, _, hopen, h₁⟩ := bind_ok hrun
  obtain ⟨_, mid, hargs, h₂⟩ := bind_ok h₁
  obtain ⟨_, _, hclose, h₃⟩ := bind_ok h₂
  cases hopen
  cases hclose
  obtain ⟨rfl, rfl⟩ := pure_ok h₃
  obtain ⟨hmid, hes⟩ := hinside (s := { s with indexDepth := s.indexDepth + 1 })
    ⟨hs.frames, by simp⟩ hargs
  exact ⟨⟨hmid.frames, congrArg (· - 1) hmid.depth⟩, hes⟩

theorem yields_suffix? {n : Name} (hn : Node.Placed loop index (.name n)) :
    Yields loop index (suffix? inner n) fun longer =>
      Node.Placed loop index (.name (longer.getD n)) := by
  refine still_peekKind?.bind fun kind => ?_
  split
  · refine (yields_arguments hinner).bind fun es hes => still_siteFrom.bind fun _ => .pure ?_
    exact Node.placed_iff.2 (by simpa [AllPlaced, hn] using hes)
  · refine (yields_arguments hinner).bind fun es hes => still_siteFrom.bind fun _ => .pure ?_
    exact Node.placed_iff.2 (by simpa [AllPlaced, hn] using hes)
  · refine still_advance.bind fun _ => still_eatIf.bind fun paren => ?_
    split
    · refine (hinner _ _).outsideIndex.bind fun e he => ?_
      refine (still_discard still_expect).bind fun _ => still_siteFrom.bind fun _ => .pure ?_
      exact Node.placed_iff.2 (by simp [hn, he])
    · refine still_expect.bind fun field => still_siteFrom.bind fun _ => .pure ?_
      exact Node.placed_iff.2 (by simp [hn])
  · exact .pure hn

end Inner

theorem yields_superclassChain (methods : List Name) (n : Name)
    (hmethods : AllPlaced loop index .name methods) (hn : Node.Placed loop index (.name n)) :
    Yields loop index (superclassChain methods n) fun n' => Node.Placed loop index (.name n') := by
  induction methods generalizing n with
  | nil => exact .pure hn
  | cons method methods ih =>
    obtain ⟨hmethod, hmethods⟩ := List.forall_mem_cons.1 hmethods
    exact still_siteBetween.bind fun site =>
      ih _ hmethods (Node.placed_iff.2 (by simp [hmethod, hn]))

theorem yields_name (hinner : YieldsExpr inner) : YieldsName (name inner) := by
  intro l i
  refine (yields_identifier _ _).bind fun first hfirst => ?_
  let P (m : List Name × Name) : Prop := AllPlaced l i .name m.1 ∧ Node.Placed l i (.name m.2)
  refine Yields.bind (P := P) (.rounds P ⟨.nil, hfirst⟩ fun m hm => ?_) fun m hm => ?_
  · refine still_check.bind fun _ => still_peekKind?.bind fun _ => ?_
    split
    · refine still_advance.bind fun _ => (yields_identifier _ _).bind fun n hn => .pure ?_
      exact ⟨List.forall_mem_cons.2 ⟨hm.2, hm.1⟩, hn⟩
    · exact .pure hm
  · refine Yields.bind (.rounds (fun n => Node.Placed l i (.name n)) hm.2 fun n hn => ?_)
      fun n hn => yields_superclassChain _ _ hm.1 hn
    refine (yields_suffix? hinner hn).bind fun longer hlonger => ?_
    cases longer <;> exact .pure hlonger

/-! ## Rows and operands -/

theorem yields_finishRow {rows : List Row} {items : List Expr}
    (hrows : AllPlaced loop index .row rows) (hitems : AllPlaced loop index .expr items) :
    Yields loop index (finishRow rows items) (AllPlaced loop index .row) := by
  cases items with
  | nil => exact .pure hrows
  | cons first rest =>
    exact still_siteBetween.bind fun _ =>
      .pure (hrows.concat (Node.placed_iff.2 (by simpa [AllPlaced] using hitems)))

theorem placed_atom? {next : Option Kind} {make : Site → Expr}
    (h : atom? index t next = some make) (site : Site) :
    Node.Placed loop index (.expr (make site)) := by
  rw [atom?] at h
  split at h
  · cases h
    exact Node.placed_iff.2 (by simp)
  · cases h
    exact Node.placed_iff.2 (by simp)
  · cases h
    exact Node.placed_iff.2 (by simp)
  · split at h
    · rename_i hend
      cases h
      exact Node.placed_iff.2 (by simp [hend.2])
    · cases h
  · split at h
    · rename_i hcolon
      cases h
      exact Node.placed_iff.2 (by simp [(Bool.and_eq_true_iff.1 hcolon).1])
    · cases h
  · cases h

theorem placed_name_iff {n : Name} :
    Node.Placed loop index (.expr (.name n)) ↔ Node.Placed loop index (.name n) := by
  constructor
  · exact fun h => h.more rfl rfl rfl fun _ hc => .inl hc
  · exact fun h => h.more rfl rfl rfl fun _ hc => .inl hc

section Inner

variable (hinner : YieldsExpr inner)

include hinner

theorem yields_rows {close : Kind} :
    Yields loop index (rows inner close) fun r => AllPlaced loop index .row r.1 := by
  refine still_here.bind fun _ => still_advance.bind fun _ => .get fun s _ => ?_
  refine Still.bind (p := modify _) (still_modify fun _ => ⟨rfl, rfl⟩) fun _ => ?_
  refine Yields.bind (P := AllPlaced loop index .row) (.rounds (fun soFar =>
    AllPlaced loop index .row soFar.rows ∧ AllPlaced loop index .expr soFar.items) ⟨.nil, .nil⟩
      fun soFar h => still_current?.bind fun t => ?_)
        fun rows hrows => still_spanFrom.bind fun _ => .pure hrows
  cases t with
  | none => exact .failing fun _ _ _ => unexpected_ok
  | some t =>
    dsimp only
    split
    · exact still_advance.bind fun _ => (yields_finishRow h.1 h.2).bind fun rows hrows =>
        .pure hrows
    split
    · exact still_advance.bind fun _ => (yields_finishRow h.1 h.2).bind fun rows hrows =>
        .pure ⟨hrows, .nil⟩
    split
    · exact still_advance.bind fun _ => .pure h
    split
    · exact .failing fun _ _ _ => unexpected_ok
    refine still_peekKind?.bind fun _ => ?_
    split
    · exact still_advance.bind fun _ => (yields_placeholderOf t _ _).bind fun n hn =>
        .pure ⟨h.1, h.2.concat (placed_name_iff.2 hn)⟩
    · exact (hinner _ _).bind fun e he => .pure ⟨h.1, h.2.concat he⟩

theorem yields_handle (mark : Token) : YieldsExpr (handle inner mark) := by
  refine fun l i => still_eatIf.bind fun paren => ?_
  split
  · refine yields_parameters.bind fun ns hns => (hinner _ _).outsideIndex.bind fun e he => ?_
    exact still_siteBetween.bind fun _ => .pure (Node.placed_iff.2 (by
      simpa [AllPlaced, or_imp, forall_and, he] using hns))
  · exact (yields_dottedName _ _).bind fun n hn => still_siteBetween.bind fun _ =>
      .pure (Node.placed_iff.2 (by simp [hn]))

theorem yields_compound (t : Token) : YieldsExpr (compound inner t) := by
  intro l i
  rw [compound]
  split
  · exact (yields_name hinner _ _).bind fun n hn => .pure (placed_name_iff.2 hn)
  · exact still_advance.bind fun _ => (hinner _ _).bind fun e he =>
      (still_discard still_expect).bind fun _ => .pure he
  · exact (yields_rows hinner).bind fun rows hrows => still_siteAt.bind fun _ =>
      .pure (Node.placed_iff.2 (by simpa [AllPlaced] using hrows))
  · exact (yields_rows hinner).bind fun rows hrows => still_siteAt.bind fun _ =>
      .pure (Node.placed_iff.2 (by simpa [AllPlaced] using hrows))
  · exact still_advance.bind fun _ => yields_handle hinner t _ _
  · exact still_advance.bind fun _ => (yields_dottedName _ _).bind fun n hn =>
      still_siteBetween.bind fun _ => .pure (Node.placed_iff.2 (by simp [hn]))
  · exact .failing fun _ _ _ => unexpected_ok

theorem yields_operand : YieldsExpr (operand inner) := by
  refine fun l i => still_current?.bind fun t => ?_
  cases t with
  | none => exact .failing fun _ _ _ => unexpected_ok
  | some t =>
    refine .get fun s hs => still_peekKind?.bind fun next => ?_
    rw [hs.depth]
    split
    · rename_i make hmake
      exact still_advance.bind fun _ => still_siteAt.bind fun site =>
        .pure (placed_atom? hmake site)
    · exact yields_compound hinner t _ _

end Inner

/-! ## Levels -/

theorem yields_allSigned (ops : List Token) {e : Expr} (he : Node.Placed loop index (.expr e)) :
    Yields loop index (allSigned ops e) fun e' => Node.Placed loop index (.expr e') := by
  induction ops with
  | nil => exact .pure he
  | cons op ops ih =>
    exact ih.bind fun e' he' => still_siteBetween.bind fun _ =>
      .pure (Node.placed_iff.2 (by simp [he']))

theorem yields_signed (hp : YieldsExpr p) :
    YieldsExpr (do
      let signs ← eatWhile isSign
      allSigned signs (← p)) :=
  fun _ _ => still_eatWhile.bind fun ops => (hp _ _).bind fun _ he => yields_allSigned ops he

theorem yields_binary (op : Token) {e e' : Expr} (he : Node.Placed loop index (.expr e))
    (he' : Node.Placed loop index (.expr e')) :
    Yields loop index (binary op e e') fun joined => Node.Placed loop index (.expr joined) := by
  rw [binary]
  split
  · exact still_siteBetween.bind fun _ => .pure (Node.placed_iff.2 (by simp [he, he']))
  · exact .failing fun _ _ _ => throw_ok

theorem yields_binaryLevel {symbols : List String} (hp : YieldsExpr p) :
    YieldsExpr (binaryLevel symbols p) := by
  intro l i
  refine (hp _ _).bind fun e he => .rounds (fun e => Node.Placed l i (.expr e)) he fun e he => ?_
  refine still_eatIf.bind fun op => ?_
  cases op with
  | some op => exact (hp _ _).bind fun e' he' => (yields_binary op he he').bind fun _ h => .pure h
  | none => exact .pure he

section Inner

variable (hinner : YieldsExpr inner)

include hinner

theorem yields_powers : YieldsExpr (powers inner) := by
  refine fun l i => (yields_operand hinner _ _).bind fun e he => .rounds
    (fun e => Node.Placed l i (.expr e)) he fun e he => ?_
  refine still_eatIf.bind fun op => ?_
  cases op with
  | some op =>
    simp only [transposed, bind_assoc, pure_bind]
    exact still_siteBetween.bind fun _ => .pure (Node.placed_iff.2 (by simp [he]))
  | none =>
    refine still_eatIf.bind fun op => ?_
    cases op with
    | some op =>
      exact (yields_signed (yields_operand hinner) _ _).bind fun e' he' =>
        (yields_binary op he he').bind fun _ h => .pure h
    | none => exact .pure he

theorem yields_sums : YieldsExpr (sums inner) :=
  yields_binaryLevel (yields_binaryLevel (yields_signed (yields_powers hinner)))

theorem yields_ranges : YieldsExpr (ranges inner) := by
  have hsums := yields_sums hinner
  refine fun l i => (hsums _ _).bind fun first hfirst => still_eatIf.bind fun colon => ?_
  split
  · exact .pure hfirst
  have hrange : ∀ stride stop, AllPlaced l i .expr (Option.toList stride) →
      Node.Placed l i (.expr stop) → Yields l i
        (do return .range (← siteBetween first.site.location stop.site.location) first stride stop)
        fun e => Node.Placed l i (.expr e) := by
    refine fun stride stop hstride hstop => still_siteBetween.bind fun _ => .pure ?_
    exact Node.placed_iff.2 (by simpa [AllPlaced, or_imp, forall_and, hfirst, hstop] using hstride)
  refine (hsums _ _).bind fun second hsecond => still_eatIf.bind fun colon => ?_
  split
  · exact (hsums _ _).bind fun stop hstop => hrange (some second) stop (by simpa [AllPlaced]) hstop
  · exact hrange none second .nil hsecond

theorem yields_shortOrs : YieldsExpr (shortOrs inner) :=
  yields_binaryLevel (yields_binaryLevel (yields_binaryLevel (yields_binaryLevel
    (yields_binaryLevel (yields_ranges hinner)))))

end Inner

theorem yields_expressionWithin (fuel : Nat) : YieldsExpr (expressionWithin fuel) := by
  induction fuel with
  | zero => exact fun _ _ => .failing fun _ _ _ => stalled_ok
  | succ fuel ih => exact yields_shortOrs ih

theorem yields_expression : YieldsExpr expression :=
  fun _ _ => .get fun _ _ => yields_expressionWithin _ _ _

end MFile.Grammar.Parse
