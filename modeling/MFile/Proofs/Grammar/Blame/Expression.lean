import MFile.Proofs.Grammar.Blame.Moves
import MFile.Proofs.Grammar.Extent.Expression

/-! Errors in names and expressions are about the file that is read. -/

namespace MFile.Grammar.Parse

variable {file : String} {inner p : Parse Expr} {t : Token}

/-! ## Names -/

theorem blames_identifierOf : BlamesOnly file (identifierOf t) :=
  blames_siteAt.next fun _ => .done

theorem blames_identifier : BlamesOnly file identifier :=
  blames_expect.next fun _ => blames_identifierOf

theorem blames_placeholderOf : BlamesOnly file (placeholderOf t) :=
  blames_siteAt.next fun _ => .done

theorem blames_dottedName : BlamesOnly file dottedName := by
  refine blames_identifier.next fun _ => .rounds_only fun n => ?_
  refine blames_check.next fun _ => blames_peekKind?.next fun _ => ?_
  split
  · refine blames_advance.next fun _ => blames_expect.next fun _ => ?_
    exact blames_siteBetween.next fun _ => .done
  · exact .done

theorem blames_parameters : BlamesOnly file parameters := by
  refine .rounds_only fun ns => blames_current?.next fun t => ?_
  cases t with
  | none => exact blames_unexpected
  | some t =>
    dsimp only
    split
    · exact blames_advance.next fun _ => .done
    · exact blames_advance.next fun _ => .done
    · exact blames_identifier.next fun _ => .done
    · split
      · exact blames_advance.next fun _ => blames_placeholderOf.next fun _ => .done
      · exact blames_unexpected
    · exact blames_unexpected

/-! ## Arguments and suffixes -/

theorem blames_superclassChain (methods : List Name) (n : Name) :
    BlamesOnly file (superclassChain methods n) := by
  induction methods generalizing n with
  | nil => exact .done
  | cons _ _ ih => exact blames_siteBetween.next fun _ => ih _

theorem BlamesOnly.outsideIndex {α : Type} {p : Parse α} (h : BlamesOnly file p) :
    BlamesOnly file (Parse.outsideIndex p) :=
  .bracketed h (fun _ => rfl) fun _ _ => rfl

section Inner

variable (hinner : BlamesOnly file inner)

include hinner

theorem blames_arguments {close : Kind} : BlamesOnly file (arguments inner close) := by
  have hinside : BlamesOnly file (argumentsInside inner close) := by
    refine blames_eatIf.next fun closed => ?_
    split
    · exact .done
    refine .rounds_only fun es => hinner.next fun e => blames_eatIf.next fun closed => ?_
    split
    · exact .done
    refine blames_eatIf.next fun comma => ?_
    split
    · exact .done
    · exact blames_unexpected
  exact blames_advance.next fun _ => .modify (fun _ => rfl) fun _ => hinside.next fun _ =>
    .modify (fun _ => rfl) fun _ => .done

theorem blames_suffix? (n : Name) : BlamesOnly file (suffix? inner n) := by
  refine blames_peekKind?.next fun kind => ?_
  split
  · exact (blames_arguments hinner).next fun _ => blames_siteFrom.next fun _ => .done
  · exact (blames_arguments hinner).next fun _ => blames_siteFrom.next fun _ => .done
  · refine blames_advance.next fun _ => blames_eatIf.next fun paren => ?_
    split
    · refine hinner.outsideIndex.next fun _ => (blames_discard blames_expect).next fun _ => ?_
      exact blames_siteFrom.next fun _ => .done
    · exact blames_expect.next fun _ => blames_siteFrom.next fun _ => .done
  · exact .done

theorem blames_name : BlamesOnly file (name inner) := by
  have hmethods : ∀ m, BlamesOnly file (methodsRound m) := by
    intro m
    refine blames_check.next fun _ => blames_peekKind?.next fun _ => ?_
    split
    · exact blames_advance.next fun _ => blames_identifier.next fun _ => .done
    · exact .done
  have hsuffixes : ∀ n, BlamesOnly file (suffixRound inner n) := by
    refine fun n => (blames_suffix? hinner n).next fun longer => ?_
    cases longer <;> exact .done
  refine blames_identifier.next fun first => (Blames.rounds_only hmethods).next fun m => ?_
  exact (Blames.rounds_only hsuffixes).next fun n => blames_superclassChain _ _

/-! ## Rows and operands -/

omit hinner in
theorem blames_finishRow (rows : List Row) (items : List Expr) :
    BlamesOnly file (finishRow rows items) := by
  cases items with
  | nil => exact .done
  | cons _ _ => exact blames_siteBetween.next fun _ => .done

theorem blames_rows {close : Kind} : BlamesOnly file (rows inner close) := by
  refine blames_here.next fun _ => blames_advance.next fun _ => .get fun s _ => ?_
  refine .modify (fun _ => rfl) fun _ => ?_
  refine (Blames.rounds_only fun soFar => ?_).next fun rows =>
    blames_spanFrom.next fun _ => .done
  refine blames_current?.next fun t => ?_
  cases t with
  | none => exact blames_unexpected
  | some t =>
    dsimp only
    split
    · exact blames_advance.next fun _ => (blames_finishRow _ _).next fun _ => .done
    split
    · exact blames_advance.next fun _ => (blames_finishRow _ _).next fun _ => .done
    split
    · exact blames_advance.next fun _ => .done
    split
    · exact blames_unexpected
    refine blames_peekKind?.next fun _ => ?_
    split
    · exact blames_advance.next fun _ => blames_placeholderOf.next fun _ => .done
    · exact hinner.next fun _ => .done

theorem blames_handle (mark : Token) : BlamesOnly file (handle inner mark) := by
  refine blames_eatIf.next fun paren => ?_
  split
  · refine blames_parameters.next fun _ => hinner.outsideIndex.next fun _ => ?_
    exact blames_siteBetween.next fun _ => .done
  · exact blames_dottedName.next fun _ => blames_siteBetween.next fun _ => .done

theorem blames_compound (t : Token) : BlamesOnly file (compound inner t) := by
  rw [compound]
  split
  · exact (blames_name hinner).next fun _ => .done
  · exact blames_advance.next fun _ => hinner.next fun _ =>
      (blames_discard blames_expect).next fun _ => .done
  · exact (blames_rows hinner).next fun _ => blames_siteAt.next fun _ => .done
  · exact (blames_rows hinner).next fun _ => blames_siteAt.next fun _ => .done
  · exact blames_advance.next fun _ => blames_handle hinner t
  · exact blames_advance.next fun _ => blames_dottedName.next fun _ =>
      blames_siteBetween.next fun _ => .done
  · exact blames_unexpected

theorem blames_operand : BlamesOnly file (operand inner) := by
  refine blames_current?.next fun t => ?_
  cases t with
  | none => exact blames_unexpected
  | some t =>
    refine .get fun s _ => blames_peekKind?.next fun next => ?_
    split
    · exact blames_advance.next fun _ => blames_siteAt.next fun _ => .done
    · exact blames_compound hinner t

end Inner

/-! ## Levels -/

theorem blames_allSigned (ops : List Token) (e : Expr) : BlamesOnly file (allSigned ops e) := by
  induction ops with
  | nil => exact .done
  | cons _ _ ih => exact ih.next fun _ => blames_siteBetween.next fun _ => .done

theorem blames_signed (hp : BlamesOnly file p) :
    BlamesOnly file (do
      let signs ← eatWhile isSign
      allSigned signs (← p)) :=
  blames_eatWhile.next fun _ => hp.next fun _ => blames_allSigned _ _

theorem blames_binary {op : Token} (hop : op.location.file = file) (lhs rhs : Expr) :
    BlamesOnly file (binary op lhs rhs) := by
  rw [binary]
  split
  · exact blames_siteBetween.next fun _ => .done
  · exact .throw hop

theorem blames_binaryLevel {symbols : List String} (hp : BlamesOnly file p) :
    BlamesOnly file (binaryLevel symbols p) := by
  refine hp.next fun _ => .rounds_only fun lhs => blames_eatIf.bind fun op hop => ?_
  cases op with
  | some op => exact hp.next fun _ => (blames_binary (hop op rfl) _ _).next fun _ => .done
  | none => exact .done

section Inner

variable (hinner : BlamesOnly file inner)

include hinner

theorem blames_powers : BlamesOnly file (powers inner) := by
  refine (blames_operand hinner).next fun _ => .rounds_only fun e => blames_eatIf.next fun op => ?_
  cases op with
  | some op =>
    simp only [transposed, bind_assoc, pure_bind]
    exact blames_siteBetween.next fun _ => .done
  | none =>
    refine blames_eatIf.bind fun op hop => ?_
    cases op with
    | some op =>
      exact (blames_signed (blames_operand hinner)).next fun _ =>
        (blames_binary (hop op rfl) _ _).next fun _ => .done
    | none => exact .done

theorem blames_sums : BlamesOnly file (sums inner) :=
  blames_binaryLevel (blames_binaryLevel (blames_signed (blames_powers hinner)))

theorem blames_ranges : BlamesOnly file (ranges inner) := by
  have hsums := blames_sums hinner
  refine hsums.next fun first => blames_eatIf.next fun colon => ?_
  split
  · exact .done
  have hrange : ∀ (stride : Option Expr) (stop : Expr), BlamesOnly file
      (do
        let site ← siteBetween first.site.location stop.site.location
        return Expr.range site first stride stop) :=
    fun _ _ => blames_siteBetween.next fun _ => .done
  refine hsums.next fun second => blames_eatIf.next fun colon => ?_
  split
  · exact hsums.next fun stop => hrange (some second) stop
  · exact hrange none second

theorem blames_shortOrs : BlamesOnly file (shortOrs inner) :=
  blames_binaryLevel (blames_binaryLevel (blames_binaryLevel (blames_binaryLevel
    (blames_binaryLevel (blames_ranges hinner)))))

end Inner

theorem blames_expressionWithin (fuel : Nat) : BlamesOnly file (expressionWithin fuel) := by
  induction fuel with
  | zero => exact blames_stalled
  | succ fuel ih => exact blames_shortOrs ih

theorem blames_expression : BlamesOnly file expression :=
  .get fun _ _ => blames_expressionWithin _

theorem blames_expression_tidy :
    Blames file expression fun e => (Node.expr e).Tidy file :=
  blames_expression.and fun s e s' hs hrun => by
    rw [← hs.file_eq]
    exact ((fitting_expression s hs.front).ok hrun).tidy _ (List.mem_singleton_self _)

theorem blames_dottedName_tidy :
    Blames file dottedName fun n => (Node.name n).Tidy file :=
  blames_dottedName.and fun s n s' hs hrun => by
    rw [← hs.file_eq]
    exact ((fitting_dottedName s hs.front).ok hrun).tidy _ (List.mem_singleton_self _)

end MFile.Grammar.Parse
