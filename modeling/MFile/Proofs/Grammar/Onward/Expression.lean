import MFile.Proofs.Grammar.Progress.Expression

/-!
A parse only moves on. Whatever it is asked for, and also where it fails, it passes some of the
tokens ahead and leaves the others where they are. How deep it may go is no part of that: given a
deeper parser for what stands inside, a parse does the same, unless it has stalled.
-/

namespace MFile.Grammar.Parse

variable {α β : Type} {p q : Parse α} {s s' : State}

/-- A repetition has run out of rounds, or a bracket or block out of depth. -/
def Stalls (r : EStateM.Result ParseError State α) : Prop :=
  ∃ l s', r = .error (.internal l .stalled) s'

/-- `p` passes tokens and does no more to them, also where it fails, and unless it stalls `q` does
the same as `p`. -/
def Onward (p q : Parse α) : Prop :=
  ∀ s, (∃ run, s.Passes run (reached (p s))) ∧ (Stalls (p s) ∨ q s = p s)

abbrev MovesOn (p : Parse α) : Prop := Onward p p

namespace Onward

variable {f g : α → Parse β}

theorem of_passes (h : ∀ s : State, ∃ run, s.Passes run (reached (p s))) : MovesOn p :=
  fun s => ⟨h s, .inr rfl⟩

theorem still (hahead : ∀ s, s.ahead = (reached (p s)).ahead)
    (hbehind : ∀ s, (reached (p s)).behind = s.behind) : MovesOn p :=
  .of_passes fun s => ⟨[], hahead s, hbehind s⟩

theorem done {a : α} : MovesOn (pure a : Parse α) := .still (fun _ => rfl) fun _ => rfl

theorem throw {e : ParseError} : MovesOn (MonadExcept.throw e : Parse α) :=
  .still (fun _ => rfl) fun _ => rfl

theorem fail {l : Location} {cause : Cause} : MovesOn (Parse.fail l cause : Parse α) := .throw

theorem bind (h : Onward p q) (hf : ∀ a, Onward (f a) (g a)) : Onward (p >>= f) (q >>= g) := by
  intro s
  obtain ⟨⟨run, hrun⟩, hsame⟩ := h s
  cases hp : p s with
  | error e mid =>
    rw [hp] at hrun hsame
    rw [bind_error hp]
    refine ⟨⟨run, hrun⟩, hsame.imp (fun ⟨l, s', h⟩ => ?_) fun hq => bind_error hq g⟩
    cases h
    exact ⟨l, _, rfl⟩
  | ok a mid =>
    rw [hp] at hrun hsame
    have hq : q s = .ok a mid := hsame.resolve_left fun ⟨_, _, h⟩ => nomatch h
    obtain ⟨⟨more, hmore⟩, hrest⟩ := hf a mid
    rw [bind_run hp, bind_run hq]
    exact ⟨⟨run ++ more, hrun.trans hmore⟩, hrest⟩

theorem map {g : α → β} (h : Onward p q) : Onward (g <$> p) (g <$> q) := by
  rw [map_eq_pure_bind, map_eq_pure_bind]
  exact h.bind fun _ => .done

theorem discard (h : Onward p q) : Onward (discard p) (discard q) := h.bind fun _ => .done

theorem get {f g : State → Parse β} (h : ∀ s, Onward (f s) (g s)) :
    Onward (MonadState.get >>= f) (MonadState.get >>= g) := fun s => h s s

theorem modify {change : State → State} {f g : PUnit → Parse β}
    (hahead : ∀ s, s.ahead = (change s).ahead) (hbehind : ∀ s, (change s).behind = s.behind)
    (h : ∀ u, Onward (f u) (g u)) :
    Onward (modifyGet (fun s => (⟨⟩, change s)) >>= f)
      (modifyGet (fun s => (⟨⟩, change s)) >>= g) :=
  Onward.bind (.still hahead hbehind) h

theorem mapM {f g : α → Parse β} (as : List α) (h : ∀ a, Onward (f a) (g a)) :
    Onward (as.mapM f) (as.mapM g) := by
  induction as with
  | nil => exact .done
  | cons a as ih =>
    rw [List.mapM_cons, List.mapM_cons]
    exact (h a).bind fun _ => ih.bind fun _ => .done

end Onward

/-! ## Moves -/

theorem onward_here : MovesOn here := by
  refine .of_passes fun s => ⟨[], ?_⟩
  rw [here_run]
  exact .refl s

theorem onward_current? : MovesOn current? := .still (fun _ => rfl) fun _ => rfl

theorem onward_peekKind? {n : Nat} : MovesOn (peekKind? n) := .still (fun _ => rfl) fun _ => rfl

theorem onward_check {kind : Kind} : MovesOn (check kind) := .still (fun _ => rfl) fun _ => rfl

theorem onward_checkWord {word : String} : MovesOn (checkWord word) :=
  .still (fun _ => rfl) fun _ => rfl

theorem onward_atEnd : MovesOn atEnd := .still (fun _ => rfl) fun _ => rfl

theorem onward_freshId : MovesOn freshId := .still (fun _ => rfl) fun _ => rfl

theorem onward_wholeFile : MovesOn wholeFile := .still (fun _ => rfl) fun _ => rfl

theorem onward_spanFrom {start : Location} : MovesOn (spanFrom start) :=
  .still (fun _ => rfl) fun _ => rfl

theorem onward_siteAt {l : Location} : MovesOn (siteAt l) := .still (fun _ => rfl) fun _ => rfl

theorem onward_siteFrom {start : Location} : MovesOn (siteFrom start) :=
  .still (fun _ => rfl) fun _ => rfl

theorem onward_siteBetween {first last : Location} : MovesOn (siteBetween first last) :=
  .still (fun _ => rfl) fun _ => rfl

theorem onward_eatIf {q : Token → Bool} : MovesOn (eatIf q) := by
  refine .of_passes fun s => ?_
  rw [eatIf]
  cases hahead : s.ahead with
  | nil => exact ⟨[], .refl s⟩
  | cons t rest =>
    dsimp only
    split
    · exact ⟨[t], s.passes_past t rest hahead⟩
    · exact ⟨[], .refl s⟩

theorem onward_eatWhile {q : Token → Bool} : MovesOn (eatWhile q) :=
  .of_passes fun s => ⟨s.ahead.takeWhile q, List.takeWhile_append_dropWhile.symm, rfl⟩

theorem onward_advance : MovesOn advance := onward_eatIf.discard

theorem onward_failHere {cause : Option Token → Cause} : MovesOn (failHere cause : Parse α) :=
  onward_here.bind fun _ => onward_current?.bind fun _ => .fail

theorem onward_unexpected {what : Expectation} : MovesOn (unexpected what : Parse α) :=
  onward_failHere

theorem onward_stalled (q : Parse α) : Onward stalled q := by
  have hstalled : ∀ s, (stalled : Parse α) s = .error (.internal s.nextPlace .stalled) s :=
    fun s => bind_run (here_run s) _
  intro s
  rw [hstalled]
  exact ⟨⟨[], .refl s⟩, .inl ⟨_, _, rfl⟩⟩

theorem onward_expect {kind : Kind} {what : Expectation} : MovesOn (expect kind what) := by
  refine onward_eatIf.bind fun t => ?_
  cases t with
  | none => exact onward_unexpected
  | some t => exact .done

theorem onward_skipSeparators : MovesOn skipSeparators := onward_eatWhile.discard

theorem onward_endStatement : MovesOn endStatement := by
  refine onward_eatIf.bind fun t => ?_
  split
  · refine onward_current?.bind fun next => ?_
    cases next with
    | none => exact .done
    | some t =>
      dsimp only
      split
      · exact onward_unexpected
      · exact .done
  · exact .done

/-! ## Repetitions and brackets -/

namespace Onward

theorem roundsWithin {body body' : α → Parse (Round α β)} (h : ∀ a, Onward (body a) (body' a))
    {m n : Nat} (hmn : m ≤ n) (a : α) :
    Onward (Parse.roundsWithin body m a) (Parse.roundsWithin body' n a) := by
  induction m generalizing n a with
  | zero => exact onward_stalled _
  | succ m ih =>
    obtain ⟨n, rfl⟩ := Nat.exists_eq_add_of_lt hmn
    refine (h a).bind fun r => ?_
    cases r with
    | again a => exact ih (by omega) a
    | done b => exact .done

theorem rounds {body body' : α → Parse (Round α β)} (h : ∀ a, Onward (body a) (body' a)) {a : α} :
    Onward (Parse.rounds a body) (Parse.rounds a body') := by
  refine (h a).bind fun r => ?_
  cases r with
  | again a => exact .get fun _ => .roundsWithin h (Nat.le_refl _) a
  | done b => exact .done

theorem bracketed {change : State → State} {undo : State → State → State} (h : Onward p q)
    (hchange : ∀ s, (change s).ahead = s.ahead ∧ (change s).behind = s.behind)
    (hundo : ∀ s s', (undo s s').ahead = s'.ahead ∧ (undo s s').behind = s'.behind) :
    Onward (Parse.bracketed change undo p) (Parse.bracketed change undo q) := by
  intro s
  obtain ⟨⟨run, hrun⟩, hsame⟩ := h (change s)
  have hpasses : ∀ s', (change s).Passes run s' → s.Passes run (undo s s') := by
    intro s' h
    refine ⟨?_, ?_⟩
    · rw [(hundo s s').1, ← h.ahead, (hchange s).1]
    · rw [(hundo s s').2, h.behind, (hchange s).2]
  rw [Parse.bracketed, Parse.bracketed]
  cases hp : p (change s) with
  | ok a s' =>
    rw [hp] at hrun hsame
    refine ⟨⟨run, hpasses s' hrun⟩, .inr ?_⟩
    obtain ⟨_, _, h⟩ | hq := hsame
    · cases h
    · rw [hq]
  | error e s' =>
    rw [hp] at hrun hsame
    refine ⟨⟨run, hpasses s' hrun⟩, ?_⟩
    obtain ⟨l, _, h⟩ | hq := hsame
    · cases h
      exact .inl ⟨l, _, rfl⟩
    · rw [hq]
      exact .inr rfl

theorem outsideIndex (h : Onward p q) : Onward (Parse.outsideIndex p) (Parse.outsideIndex q) :=
  .bracketed h (fun _ => ⟨rfl, rfl⟩) fun _ _ => ⟨rfl, rfl⟩

end Onward

/-! ## Names -/

theorem onward_identifierOf {t : Token} : MovesOn (identifierOf t) :=
  onward_siteAt.bind fun _ => .done

theorem onward_identifier : MovesOn identifier :=
  onward_expect.bind fun _ => onward_identifierOf

theorem onward_placeholderOf {t : Token} : MovesOn (placeholderOf t) :=
  onward_siteAt.bind fun _ => .done

theorem onward_dottedName : MovesOn dottedName := by
  refine onward_identifier.bind fun _ => .rounds fun n => ?_
  refine onward_check.bind fun _ => onward_peekKind?.bind fun _ => ?_
  split
  · refine onward_advance.bind fun _ => onward_expect.bind fun _ => ?_
    exact onward_siteBetween.bind fun _ => .done
  · exact .done

theorem onward_parameters : MovesOn parameters := by
  refine .rounds fun ns => onward_current?.bind fun t => ?_
  cases t with
  | none => exact onward_unexpected
  | some t =>
    dsimp only
    split
    · exact onward_advance.bind fun _ => .done
    · exact onward_advance.bind fun _ => .done
    · exact onward_identifier.bind fun _ => .done
    · split
      · exact onward_advance.bind fun _ => onward_placeholderOf.bind fun _ => .done
      · exact onward_unexpected
    · exact onward_unexpected

theorem onward_superclassChain (methods : List Name) (n : Name) :
    MovesOn (superclassChain methods n) := by
  induction methods generalizing n with
  | nil => exact .done
  | cons _ _ ih => exact onward_siteBetween.bind fun _ => ih _

theorem onward_methodsRound (m : List Name × Name) : MovesOn (methodsRound m) := by
  refine onward_check.bind fun _ => onward_peekKind?.bind fun _ => ?_
  split
  · exact onward_advance.bind fun _ => onward_identifier.bind fun _ => .done
  · exact .done

theorem onward_finishRow (rows : List Row) (items : List Expr) :
    MovesOn (finishRow rows items) := by
  cases items with
  | nil => exact .done
  | cons _ _ => exact onward_siteBetween.bind fun _ => .done

/-! ## Operands -/

section Inner

variable {inner inner' : Parse Expr} (hinner : Onward inner inner')

include hinner

theorem onward_argumentsInside (close : Kind) :
    Onward (argumentsInside inner close) (argumentsInside inner' close) := by
  refine onward_eatIf.bind fun closed => ?_
  split
  · exact .done
  refine .rounds fun es => hinner.bind fun e => onward_eatIf.bind fun closed => ?_
  split
  · exact .done
  refine onward_eatIf.bind fun comma => ?_
  split
  · exact .done
  · exact onward_unexpected

theorem onward_arguments (close : Kind) : Onward (arguments inner close) (arguments inner' close) :=
  onward_advance.bind fun _ => .modify (fun _ => rfl) (fun _ => rfl) fun _ =>
    (onward_argumentsInside hinner close).bind fun _ =>
      .modify (fun _ => rfl) (fun _ => rfl) fun _ => .done

theorem onward_suffix? (n : Name) : Onward (suffix? inner n) (suffix? inner' n) := by
  refine onward_peekKind?.bind fun kind => ?_
  split
  · exact (onward_arguments hinner _).bind fun _ => onward_siteFrom.bind fun _ => .done
  · exact (onward_arguments hinner _).bind fun _ => onward_siteFrom.bind fun _ => .done
  · refine onward_advance.bind fun _ => onward_eatIf.bind fun paren => ?_
    split
    · refine hinner.outsideIndex.bind fun _ => onward_expect.discard.bind fun _ => ?_
      exact onward_siteFrom.bind fun _ => .done
    · exact onward_expect.bind fun _ => onward_siteFrom.bind fun _ => .done
  · exact .done

theorem onward_name : Onward (name inner) (name inner') := by
  have hsuffixes : ∀ n, Onward (suffixRound inner n) (suffixRound inner' n) := by
    refine fun n => (onward_suffix? hinner n).bind fun longer => ?_
    cases longer <;> exact .done
  refine onward_identifier.bind fun _ => (Onward.rounds onward_methodsRound).bind fun m => ?_
  exact (Onward.rounds hsuffixes).bind fun n => onward_superclassChain _ _

theorem onward_rows (close : Kind) : Onward (rows inner close) (rows inner' close) := by
  refine onward_here.bind fun _ => onward_advance.bind fun _ => .get fun s => ?_
  refine .modify (fun _ => rfl) (fun _ => rfl) fun _ => ?_
  refine (Onward.rounds fun soFar => ?_).bind fun rows => onward_spanFrom.bind fun _ => .done
  refine onward_current?.bind fun t => ?_
  cases t with
  | none => exact onward_unexpected
  | some t =>
    dsimp only
    split
    · exact onward_advance.bind fun _ => (onward_finishRow _ _).bind fun _ => .done
    split
    · exact onward_advance.bind fun _ => (onward_finishRow _ _).bind fun _ => .done
    split
    · exact onward_advance.bind fun _ => .done
    split
    · exact onward_unexpected
    refine onward_peekKind?.bind fun _ => ?_
    split
    · exact onward_advance.bind fun _ => onward_placeholderOf.bind fun _ => .done
    · exact hinner.bind fun _ => .done

theorem onward_handle (mark : Token) : Onward (handle inner mark) (handle inner' mark) := by
  refine onward_eatIf.bind fun paren => ?_
  split
  · refine onward_parameters.bind fun _ => hinner.outsideIndex.bind fun _ => ?_
    exact onward_siteBetween.bind fun _ => .done
  · exact onward_dottedName.bind fun _ => onward_siteBetween.bind fun _ => .done

theorem onward_compound (t : Token) : Onward (compound inner t) (compound inner' t) := by
  rw [compound, compound]
  split
  · exact (onward_name hinner).bind fun _ => .done
  · exact onward_advance.bind fun _ => hinner.bind fun _ =>
      onward_expect.discard.bind fun _ => .done
  · exact (onward_rows hinner _).bind fun _ => onward_siteAt.bind fun _ => .done
  · exact (onward_rows hinner _).bind fun _ => onward_siteAt.bind fun _ => .done
  · exact onward_advance.bind fun _ => onward_handle hinner t
  · exact onward_advance.bind fun _ => onward_dottedName.bind fun _ =>
      onward_siteBetween.bind fun _ => .done
  · exact onward_unexpected

theorem onward_operand : Onward (operand inner) (operand inner') := by
  refine onward_current?.bind fun t => ?_
  cases t with
  | none => exact onward_unexpected
  | some t =>
    refine .get fun s => onward_peekKind?.bind fun next => ?_
    split
    · exact onward_advance.bind fun _ => onward_siteAt.bind fun _ => .done
    · exact onward_compound hinner t

end Inner

/-! ## Levels -/

theorem onward_allSigned (ops : List Token) (e : Expr) : MovesOn (allSigned ops e) := by
  induction ops with
  | nil => exact .done
  | cons _ _ ih => exact ih.bind fun _ => onward_siteBetween.bind fun _ => .done

theorem onward_binary (op : Token) (lhs rhs : Expr) : MovesOn (binary op lhs rhs) := by
  rw [binary]
  split
  · exact onward_siteBetween.bind fun _ => .done
  · exact .throw

section Level

variable {p p' : Parse Expr} (hp : Onward p p')

include hp

theorem onward_signed :
    Onward (do
      let signs ← eatWhile isSign
      allSigned signs (← p)) (do
      let signs ← eatWhile isSign
      allSigned signs (← p')) :=
  onward_eatWhile.bind fun _ => hp.bind fun _ => onward_allSigned _ _

theorem onward_binaryRound (symbols : List String) (lhs : Expr) :
    Onward (binaryRound symbols p lhs) (binaryRound symbols p' lhs) := by
  refine onward_eatIf.bind fun op => ?_
  cases op with
  | some op => exact hp.bind fun _ => (onward_binary op _ _).bind fun _ => .done
  | none => exact .done

theorem onward_binaryLevel (symbols : List String) :
    Onward (binaryLevel symbols p) (binaryLevel symbols p') :=
  hp.bind fun _ => .rounds (onward_binaryRound hp symbols)

end Level

def rangeBehind (inner : Parse Expr) (start : Expr) : Parse Expr := do
  if (← eat .colon).isNone then return start
  let second ← sums inner
  let (stride, stop) ←
    if (← eat .colon).isSome then pure (some second, ← sums inner) else pure (none, second)
  return .range (← siteBetween start.site.location stop.site.location) start stride stop

theorem ranges_eq (inner : Parse Expr) : ranges inner = sums inner >>= rangeBehind inner := rfl

section Inner

variable {inner inner' : Parse Expr} (hinner : Onward inner inner')

include hinner

theorem onward_powersRound (e : Expr) : Onward (powersRound inner e) (powersRound inner' e) := by
  refine onward_eatIf.bind fun op => ?_
  cases op with
  | some op =>
    simp only [transposed, bind_assoc, pure_bind]
    exact onward_siteBetween.bind fun _ => .done
  | none =>
    refine onward_eatIf.bind fun op => ?_
    cases op with
    | some op =>
      exact (onward_signed (onward_operand hinner)).bind fun _ =>
        (onward_binary op _ _).bind fun _ => .done
    | none => exact .done

theorem onward_powers : Onward (powers inner) (powers inner') :=
  (onward_operand hinner).bind fun _ => .rounds (onward_powersRound hinner)

theorem onward_sums : Onward (sums inner) (sums inner') :=
  onward_binaryLevel (onward_binaryLevel (onward_signed (onward_powers hinner)) _) _

theorem onward_rangeBehind (first : Expr) :
    Onward (rangeBehind inner first) (rangeBehind inner' first) := by
  have hsums := onward_sums hinner
  refine onward_eatIf.bind fun colon => ?_
  split
  · exact .done
  have hrange : ∀ (stride : Option Expr) (stop : Expr), MovesOn (do
      let site ← siteBetween first.site.location stop.site.location
      return Expr.range site first stride stop) :=
    fun _ _ => onward_siteBetween.bind fun _ => .done
  refine hsums.bind fun second => onward_eatIf.bind fun colon => ?_
  split
  · exact hsums.bind fun stop => hrange (some second) stop
  · exact hrange none second

theorem onward_ranges : Onward (ranges inner) (ranges inner') := by
  rw [ranges_eq, ranges_eq]
  exact (onward_sums hinner).bind (onward_rangeBehind hinner)

theorem onward_shortOrs : Onward (shortOrs inner) (shortOrs inner') :=
  onward_binaryLevel (onward_binaryLevel (onward_binaryLevel (onward_binaryLevel
    (onward_binaryLevel (onward_ranges hinner) _) _) _) _) _

end Inner

theorem onward_expressionWithin {m n : Nat} (h : m ≤ n) :
    Onward (expressionWithin m) (expressionWithin n) := by
  induction m generalizing n with
  | zero => exact onward_stalled _
  | succ m ih =>
    obtain ⟨n, rfl⟩ := Nat.exists_eq_add_of_lt h
    exact onward_shortOrs (ih (by omega))

theorem Meets.not_stalls {Q : α → State → Prop} (h : Meets true p s Q) : ¬ Stalls (p s) := by
  rintro ⟨l, s', hp⟩
  exact nomatch h.not_fatal hp

theorem not_stalls_expression (s : State) : ¬ Stalls (expression s) :=
  (advances_expression s (Nat.lt_succ_self _)).not_stalls

theorem expressionWithin_eq {n : Nat} (h : s.ahead.length < n) :
    expressionWithin n s = expression s :=
  (onward_expressionWithin h s).2.resolve_left (not_stalls_expression s)

theorem onward_within_expression (n : Nat) : Onward (expressionWithin n) expression := by
  intro s
  refine ⟨(onward_expressionWithin (Nat.le_refl n) s).1, ?_⟩
  obtain hn | hn := Nat.lt_or_ge s.ahead.length n
  · exact .inr (expressionWithin_eq hn).symm
  · exact (onward_expressionWithin (Nat.le_succ_of_le hn) s).2

/-- An expression is read as its loosest level, with expressions inside of its brackets. -/
theorem expression_eq : expression = shortOrs expression := by
  funext s
  have hdeeper : expression s = shortOrs (expressionWithin (s.ahead.length + 1)) s :=
    (expressionWithin_eq (Nat.lt_succ_of_lt (Nat.lt_succ_self _))).symm
  have hsame := (onward_shortOrs (onward_within_expression (s.ahead.length + 1)) s).2
  rw [← hdeeper] at hsame
  exact (hsame.resolve_left (not_stalls_expression s)).symm

theorem onward_expression : MovesOn expression :=
  .get fun _ => onward_expressionWithin (Nat.le_refl _)

end MFile.Grammar.Parse
