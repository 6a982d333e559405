import MFile.Grammar.Expr
import MFile.Proofs.Grammar.Placeholders.Tidies

/-!
Placeholders in expressions. Parameters may be left out, and so may elements of the matrix that a
statement begins with: while that matrix is read, it is the front of all that is read of the
expression so far.
-/

namespace MFile.Grammar.Parse

variable {α : Type} {spot : Spot} {opened : Bool} {node : α → Node} {as : List α} {a : α}
  {t : Token} {inner p : Parse Expr}

def AllProper (spot : Spot) (node : α → Node) (as : List α) : Prop := ∀ a ∈ as, (node a).Proper spot

theorem AllProper.nil : AllProper spot node [] := List.forall_mem_nil _

theorem AllProper.concat (has : AllProper spot node as) (ha : (node a).Proper spot) :
    AllProper spot node (as ++ [a]) :=
  List.forall_mem_append.2 ⟨has, List.forall_mem_singleton.2 ha⟩

def spotAt (opened : Bool) : Spot := if opened then .front else .plain

def rowSpot (opened : Bool) : Spot := if opened then .row else .plain

def elementSpot (opened : Bool) : Spot := if opened then .free else .plain

abbrev TidiesExpr (p : Parse Expr) : Prop :=
  ∀ opened, Tidies opened p fun e => Node.Proper (spotAt opened) (.expr e)

abbrev TidiesName (p : Parse Name) : Prop := Tidies false p fun n => Node.Proper .plain (.name n)

theorem proper_name_iff {n : Name} :
    Node.Proper spot (.expr (.name n)) ↔ Node.Proper spot (.name n) := by
  have hbelow : ∀ r, spot.below (.expr (.name n), r) = spot.below (.name n, r) := by
    intro r
    cases r <;> rfl
  rw [Node.proper_iff, Node.proper_iff]
  simp only [hbelow]
  cases n <;> rfl

/-! ## Names -/

theorem proper_identifier {site : Site} {text : String} (h : text ≠ "~") :
    Node.Proper spot (.name (.identifier site text)) :=
  Node.proper_iff.2 (by simp [h])

theorem proper_placeholder (n : Name) (h : n.identifier?.isSome) :
    Node.Proper .free (.name n) := by
  cases n with
  | identifier site text => exact Node.proper_iff.2 (by simp)
  | _ => cases h

theorem tidies_identifierOf (h : t.raw ≠ "~") : TidiesName (identifierOf t) :=
  passing_siteAt.bind fun _ => .pure (proper_identifier h)

theorem tidies_placeholderOf (t : Token) :
    Tidies false (placeholderOf t) fun n => Node.Proper .free (.name n) :=
  passing_siteAt.bind fun _ => .pure (proper_placeholder _ rfl)

theorem tidies_identifier : TidiesName identifier := by
  intro s n s' hs hrun
  obtain ⟨t, mid, hexpect, hrest⟩ := bind_ok hrun
  obtain ⟨hkind, hpass⟩ := expect_ok hexpect
  have hmem : t ∈ s.ahead := by
    rw [hpass.ahead]
    exact List.mem_cons_self
  obtain ⟨-, hflag⟩ := passing_expect hexpect
  exact tidies_identifierOf (hs.named t hmem hkind) (hs.past hpass hflag) hrest

theorem tidies_dottedName : TidiesName dottedName := by
  refine tidies_identifier.bind fun first hfirst => .rounds
    (fun n => Node.Proper .plain (.name n)) hfirst fun n hn => ?_
  refine looks_check.bind fun _ => looks_peekKind?.bind fun _ => ?_
  split
  · refine passing_advance.bind fun _ => passing_expect.bind fun field => ?_
    exact passing_siteBetween.bind fun _ => .pure (Node.proper_iff.2 (by simp [hn]))
  · exact .pure hn

theorem tidies_parameters : Tidies false parameters (AllProper .free .name) := by
  refine .rounds (AllProper .free .name) .nil fun ns hns => .current? fun t _ => ?_
  cases t with
  | none => exact .failing fun _ _ _ => unexpected_ok
  | some t =>
    dsimp only
    split
    · exact passing_advance.bind fun _ => .pure hns
    · exact passing_advance.bind fun _ => .pure hns
    · exact tidies_identifier.bind fun n hn => .pure (hns.concat (hn.of_plain _))
    · split
      · exact passing_advance.bind fun _ => (tidies_placeholderOf t).bind fun n hn =>
          .pure (hns.concat hn)
      · exact .failing fun _ _ _ => unexpected_ok
    · exact .failing fun _ _ _ => unexpected_ok

/-! ## Arguments and suffixes -/

section Inner

variable (hinner : TidiesExpr inner)

include hinner

theorem tidies_arguments {close : Kind} :
    Tidies false (arguments inner close) (AllProper .plain .expr) := by
  have hinside : Tidies false (argumentsInside inner close) (AllProper .plain .expr) := by
    refine passing_eatIf.bind fun closed => ?_
    split
    · exact .pure .nil
    refine .rounds (AllProper .plain .expr) .nil fun es hes => (hinner false).bind fun e he => ?_
    refine passing_eatIf.bind fun closed => ?_
    split
    · exact .pure (hes.concat he)
    refine passing_eatIf.bind fun comma => ?_
    split
    · exact .pure (hes.concat he)
    · exact .failing fun _ _ _ => unexpected_ok
  refine passing_advance.bind fun _ => ?_
  refine Passing.bind (p := modify _) (passing_modify fun _ => ⟨⟨rfl, rfl⟩, rfl⟩) fun _ => ?_
  refine hinside.bind fun es hes => ?_
  exact Passing.bind (p := modify _) (passing_modify fun _ => ⟨⟨rfl, rfl⟩, rfl⟩) fun _ => .pure hes

theorem tidies_suffix? {n : Name} (hn : Node.Proper .plain (.name n)) :
    Tidies false (suffix? inner n) fun longer => Node.Proper .plain (.name (longer.getD n)) := by
  refine looks_peekKind?.bind fun kind => ?_
  split
  · refine (tidies_arguments hinner).bind fun es hes => passing_siteFrom.bind fun _ => .pure ?_
    exact Node.proper_iff.2 (by simpa [AllProper, hn] using hes)
  · refine (tidies_arguments hinner).bind fun es hes => passing_siteFrom.bind fun _ => .pure ?_
    exact Node.proper_iff.2 (by simpa [AllProper, hn] using hes)
  · refine passing_advance.bind fun _ => passing_eatIf.bind fun paren => ?_
    split
    · refine (hinner false).outsideIndex.bind fun e he => ?_
      refine (passing_discard passing_expect).bind fun _ => passing_siteFrom.bind fun _ => .pure ?_
      have he' : Node.Proper .plain (.expr e) := he
      exact Node.proper_iff.2 (by simp [hn, he'])
    · refine passing_expect.bind fun field => passing_siteFrom.bind fun _ => .pure ?_
      exact Node.proper_iff.2 (by simp [hn])
  · exact .pure hn

end Inner

theorem tidies_superclassChain (methods : List Name) (n : Name)
    (hmethods : AllProper .plain .name methods) (hn : Node.Proper .plain (.name n)) :
    Tidies false (superclassChain methods n) fun n' => Node.Proper .plain (.name n') := by
  induction methods generalizing n with
  | nil => exact .pure hn
  | cons method methods ih =>
    obtain ⟨hmethod, hmethods⟩ := List.forall_mem_cons.1 hmethods
    exact passing_siteBetween.bind fun site =>
      ih _ hmethods (Node.proper_iff.2 (by simp [hmethod, hn]))

theorem tidies_name (hinner : TidiesExpr inner) : TidiesName (name inner) := by
  refine tidies_identifier.bind fun first hfirst => ?_
  let P (m : List Name × Name) : Prop := AllProper .plain .name m.1 ∧ Node.Proper .plain (.name m.2)
  refine Tidies.bind (P := P) (.rounds P ⟨.nil, hfirst⟩ fun m hm => ?_) fun m hm => ?_
  · refine looks_check.bind fun _ => looks_peekKind?.bind fun _ => ?_
    split
    · refine passing_advance.bind fun _ => tidies_identifier.bind fun n hn => .pure ?_
      exact ⟨List.forall_mem_cons.2 ⟨hm.2, hm.1⟩, hn⟩
    · exact .pure hm
  · refine Tidies.bind (.rounds (fun n => Node.Proper .plain (.name n)) hm.2 fun n hn => ?_)
      fun n hn => tidies_superclassChain _ _ hm.1 hn
    refine (tidies_suffix? hinner hn).bind fun longer hlonger => ?_
    cases longer <;> exact .pure hlonger

/-! ## Rows and operands -/

theorem tidies_finishRow {rows : List Row} {items : List Expr}
    (hrows : AllProper (rowSpot opened) .row rows)
    (hitems : AllProper (elementSpot opened) .expr items) :
    Tidies false (finishRow rows items) (AllProper (rowSpot opened) .row) := by
  cases items with
  | nil => exact .pure hrows
  | cons first rest =>
    refine passing_siteBetween.bind fun site => .pure (hrows.concat (Node.proper_iff.2 ?_))
    cases opened <;> simpa [AllProper, rowSpot, elementSpot] using hitems

theorem proper_atom? {index : Bool} {next : Option Kind} {make : Site → Expr}
    (h : atom? index t next = some make) (site : Site) : Node.Proper spot (.expr (make site)) := by
  rw [atom?] at h
  split at h
  · cases h
    exact Node.proper_iff.2 (by simp)
  · cases h
    exact Node.proper_iff.2 (by simp)
  · cases h
    exact Node.proper_iff.2 (by simp)
  · split at h <;> cases h
    exact Node.proper_iff.2 (by simp)
  · split at h <;> cases h
    exact Node.proper_iff.2 (by simp)
  · cases h

section Inner

variable (hinner : TidiesExpr inner)

include hinner

theorem tidies_rowsRound {close : Kind} (soFar : RowsSoFar)
    (h : AllProper (rowSpot opened) .row soFar.rows ∧
      AllProper (elementSpot opened) .expr soFar.items) :
    Tidies false (rowsRound inner close opened soFar) (Round.Holds
      (fun soFar => AllProper (rowSpot opened) .row soFar.rows ∧
        AllProper (elementSpot opened) .expr soFar.items) (AllProper (rowSpot opened) .row)) := by
  refine .current? fun t _ => ?_
  cases t with
  | none => exact .failing fun _ _ _ => unexpected_ok
  | some t =>
    dsimp only
    split
    · exact passing_advance.bind fun _ => (tidies_finishRow h.1 h.2).bind fun rows hrows =>
        .pure hrows
    split
    · exact passing_advance.bind fun _ => (tidies_finishRow h.1 h.2).bind fun rows hrows =>
        .pure ⟨hrows, .nil⟩
    split
    · exact passing_advance.bind fun _ => .pure h
    split
    · exact .failing fun _ _ _ => unexpected_ok
    refine looks_peekKind?.bind fun _ => ?_
    split
    · rename_i hplaceholder
      obtain ⟨hopened, -⟩ := Bool.and_eq_true_iff.1 (Bool.and_eq_true_iff.1 hplaceholder).1
      subst hopened
      exact passing_advance.bind fun _ => (tidies_placeholderOf t).bind fun n hn =>
        .pure ⟨h.1, h.2.concat (proper_name_iff.2 hn)⟩
    · refine (hinner false).bind fun e he => .pure ⟨h.1, h.2.concat ?_⟩
      cases opened
      · exact he
      · exact Node.Proper.of_plain he _

theorem tidies_rows {close : Kind} :
    Tidies opened (rows inner close) fun r => AllProper (rowSpot opened) .row r.1 := by
  refine looks_here.bind fun start => ?_
  intro s r s' hs hrun
  obtain ⟨_, s₁, hadvance, h₁⟩ := bind_ok hrun
  obtain ⟨_, _, hget, h₂⟩ := bind_ok h₁
  obtain ⟨_, s₂, hmodify, h₃⟩ := bind_ok h₂
  cases hget
  obtain ⟨⟨run, hpass⟩, hflag⟩ := passing_advance hadvance
  have hopened : s₁.placeholders = opened := hflag.trans hs.flag
  have hmid : State.Awaits false s₂ := by
    cases hmodify
    refine ⟨fun t ht => hs.named t ?_, rfl, fun h => Bool.noConfusion h⟩
    rw [hpass.ahead]
    exact List.mem_append_right run ht
  rw [hopened] at h₃
  have hrounds : Tidies false (do
      let rows ← rounds {} (rowsRound inner close opened)
      return (rows, ← spanFrom start)) fun r => AllProper (rowSpot opened) .row r.1 :=
    Tidies.bind (.rounds _ ⟨.nil, .nil⟩ fun soFar h => tidies_rowsRound hinner soFar h)
      fun rows hrows => looks_spanFrom.bind fun _ => .pure hrows
  exact hrounds hmid h₃

theorem tidies_handle (mark : Token) :
    Tidies false (handle inner mark) fun e => Node.Proper .plain (.expr e) := by
  refine passing_eatIf.bind fun paren => ?_
  split
  · refine tidies_parameters.bind fun ns hns => (hinner false).outsideIndex.bind fun e he => ?_
    have he' : Node.Proper .plain (.expr e) := he
    exact passing_siteBetween.bind fun _ => .pure (Node.proper_iff.2 (by
      simpa [AllProper, or_imp, forall_and, he'] using hns))
  · exact tidies_dottedName.bind fun n hn => passing_siteBetween.bind fun _ =>
      .pure (Node.proper_iff.2 (by simp [hn]))

theorem tidies_compound (t : Token) (hkind : opened = true → t.kind = .lbracket) :
    Tidies opened (compound inner t) fun e => Node.Proper (spotAt opened) (.expr e) := by
  have hmatrix : ∀ place rows, AllProper (rowSpot opened) .row rows →
      Node.Proper (spotAt opened) (.expr (.matrix place rows)) := by
    intro place rows hrows
    refine Node.proper_iff.2 ?_
    cases opened <;> simpa [AllProper, rowSpot, spotAt] using hrows
  by_cases hbracket : t.kind = .lbracket
  · rw [compound, hbracket]
    exact (tidies_rows hinner).bind fun rows hrows => passing_siteAt.bind fun _ =>
      .pure (hmatrix _ _ hrows)
  have hclosed : opened = false := by
    cases opened
    · rfl
    · exact absurd (hkind rfl) hbracket
  subst hclosed
  change Tidies false _ fun e => Node.Proper .plain (.expr e)
  rw [compound]
  split
  · exact (tidies_name hinner).bind fun n hn => .pure (proper_name_iff.2 hn)
  · exact passing_advance.bind fun _ => (hinner false).bind fun e he =>
      (passing_discard passing_expect).bind fun _ => .pure he
  · exact absurd ‹_› hbracket
  · exact (tidies_rows hinner).bind fun rows hrows => passing_siteAt.bind fun _ =>
      .pure (Node.proper_iff.2 (by simpa [AllProper, rowSpot] using hrows))
  · exact passing_advance.bind fun _ => tidies_handle hinner t
  · exact passing_advance.bind fun _ => tidies_dottedName.bind fun n hn =>
      passing_siteBetween.bind fun _ => .pure (Node.proper_iff.2 (by simp [hn]))
  · exact .failing fun _ _ _ => unexpected_ok

theorem tidies_operand : TidiesExpr (operand inner) := by
  refine fun opened => .current? fun t ht => ?_
  cases t with
  | none => exact .failing fun _ _ _ => unexpected_ok
  | some t =>
    have hkind : opened = true → t.kind = .lbracket := fun h => Option.some.inj (ht h)
    refine .get fun s _ => looks_peekKind?.bind fun next => ?_
    split
    · rename_i make hmake
      have hclosed : opened = false := by
        cases opened
        · rfl
        · rw [atom?, hkind rfl] at hmake
          cases hmake
      subst hclosed
      exact passing_advance.bind fun _ => passing_siteAt.bind fun site =>
        .pure (proper_atom? hmake site)
    · exact tidies_compound hinner t hkind

end Inner

/-! ## Levels -/

theorem tidies_allSigned (ops : List Token) {e : Expr} (he : Node.Proper .plain (.expr e)) :
    Tidies false (allSigned ops e) fun e' => Node.Proper .plain (.expr e') := by
  induction ops with
  | nil => exact .pure he
  | cons op ops ih =>
    exact ih.bind fun e' he' => passing_siteBetween.bind fun _ =>
      .pure (Node.proper_iff.2 (by simp [he']))

theorem tidies_signed (hp : TidiesExpr p) :
    TidiesExpr (do
      let signs ← eatWhile isSign
      allSigned signs (← p)) := by
  intro opened
  cases opened with
  | false =>
    exact passing_eatWhile.bind fun ops => (hp false).bind fun _ he => tidies_allSigned ops he
  | true =>
    intro s e s' hs hrun
    obtain ⟨signs, mid, heat, hrest⟩ := bind_ok hrun
    obtain ⟨hsigns, hpass⟩ := eatWhile_ok heat
    have hbracket := hs.bracket rfl
    have hnone : signs = [] := by
      cases signs with
      | nil => rfl
      | cons sign signs =>
        have hsign := hsigns sign List.mem_cons_self
        rw [hpass.ahead] at hbracket
        have hkind : sign.kind = .lbracket := Option.some.inj hbracket
        rw [isSign, hkind] at hsign
        cases hsign
    subst hnone
    have hahead : mid.ahead = s.ahead := hpass.ahead.symm
    obtain ⟨-, hflag⟩ := passing_eatWhile heat
    have hmid : State.Awaits true mid :=
      ⟨hahead ▸ hs.named, hflag.trans hs.flag, fun _ => hahead ▸ hbracket⟩
    exact Tidies.bind (f := allSigned []) (hp true) (fun e he => .pure he) hmid hrest

theorem tidies_binary (op : Token) {e e' : Expr} (he : Node.Proper (spotAt opened) (.expr e))
    (he' : Node.Proper .plain (.expr e')) :
    Tidies false (binary op e e') fun joined => Node.Proper (spotAt opened) (.expr joined) := by
  rw [binary]
  split
  · refine passing_siteBetween.bind fun _ => .pure (Node.proper_iff.2 ?_)
    cases opened <;> simp_all [spotAt]
  · exact .failing fun _ _ _ => throw_ok

theorem tidies_binaryLevel {symbols : List String} (hp : TidiesExpr p) :
    TidiesExpr (binaryLevel symbols p) := by
  intro opened
  refine (hp opened).bind fun e he => .rounds (fun e => Node.Proper (spotAt opened) (.expr e)) he
    fun e he => ?_
  refine passing_eatIf.bind fun op => ?_
  cases op with
  | some op =>
    exact (hp false).bind fun e' he' => (tidies_binary op he he').bind fun _ h => .pure h
  | none => exact .pure he

section Inner

variable (hinner : TidiesExpr inner)

include hinner

theorem tidies_powers : TidiesExpr (powers inner) := by
  intro opened
  refine (tidies_operand hinner opened).bind fun e he => .rounds
    (fun e => Node.Proper (spotAt opened) (.expr e)) he fun e he => ?_
  refine passing_eatIf.bind fun op => ?_
  cases op with
  | some op =>
    simp only [transposed, bind_assoc, pure_bind]
    refine passing_siteBetween.bind fun _ => .pure (Node.proper_iff.2 ?_)
    have hfollows : (UnaryOp.ofTranspose op.raw).followsOperand = true := by
      rw [UnaryOp.ofTranspose]
      split <;> rfl
    cases opened <;> simp_all [spotAt]
  | none =>
    refine passing_eatIf.bind fun op => ?_
    cases op with
    | some op =>
      exact (tidies_signed (tidies_operand hinner) false).bind fun e' he' =>
        (tidies_binary op he he').bind fun _ h => .pure h
    | none => exact .pure he

theorem tidies_sums : TidiesExpr (sums inner) :=
  tidies_binaryLevel (tidies_binaryLevel (tidies_signed (tidies_powers hinner)))

theorem tidies_ranges : TidiesExpr (ranges inner) := by
  have hsums := tidies_sums hinner
  intro opened
  refine (hsums opened).bind fun first hfirst => passing_eatIf.bind fun colon => ?_
  split
  · exact .pure hfirst
  have hrange : ∀ stride stop, AllProper .plain .expr (Option.toList stride) →
      Node.Proper .plain (.expr stop) → Tidies false
        (do return .range (← siteBetween first.site.location stop.site.location) first stride stop)
        fun e => Node.Proper (spotAt opened) (.expr e) := by
    refine fun stride stop hstride hstop => passing_siteBetween.bind fun _ => .pure ?_
    refine Node.proper_iff.2 ?_
    cases opened <;> simpa [AllProper, spotAt, or_imp, forall_and] using
      And.intro hfirst (And.intro hstride hstop)
  refine (hsums false).bind fun second hsecond => passing_eatIf.bind fun colon => ?_
  split
  · exact (hsums false).bind fun stop hstop =>
      hrange (some second) stop (List.forall_mem_singleton.2 hsecond) hstop
  · exact hrange none second .nil hsecond

theorem tidies_shortOrs : TidiesExpr (shortOrs inner) :=
  tidies_binaryLevel (tidies_binaryLevel (tidies_binaryLevel (tidies_binaryLevel
    (tidies_binaryLevel (tidies_ranges hinner)))))

end Inner

theorem tidies_expressionWithin (fuel : Nat) : TidiesExpr (expressionWithin fuel) := by
  induction fuel with
  | zero => exact fun _ => .failing fun _ _ _ => stalled_ok
  | succ fuel ih => exact tidies_shortOrs ih

theorem tidies_expression : TidiesExpr expression :=
  fun opened => .get fun _ _ => tidies_expressionWithin _ opened

theorem tidies_plain : Tidies false expression fun e => Node.Proper .plain (.expr e) :=
  tidies_expression false

end MFile.Grammar.Parse
