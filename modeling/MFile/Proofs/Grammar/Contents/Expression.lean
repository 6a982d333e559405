import MFile.Grammar.Expr
import MFile.Proofs.Grammar.Contents.Counting

/-! Expressions lose no token. -/

namespace MFile.Grammar.Parse

variable {x : Terminal} {c : Nat} {s : State} {t : Token} {inner p : Parse Expr}

abbrev TellsExpr (x : Terminal) (p : Parse Expr) : Prop :=
  Tells x p fun e => Node.tally x (.expr e)

abbrev TellsName (x : Terminal) (p : Parse Name) : Prop :=
  Tells x p fun n => Node.tally x (.name n)

theorem content?_identifier (h : t.kind = .identifier) : t.content? = some (.word t.raw) := by
  rw [Token.content?, h]

theorem silent_head {kind : Kind} (ht : s.ahead.head? = some t) (hkind : kind.isSilent = true)
    (hk : t.kind = kind) : ∀ u ∈ s.ahead.head?, u.content? = none := by
  intro u hu
  cases ht.symm.trans hu
  exact Token.silent_of_eq hkind hk

/-! ## Names -/

theorem tells_identifier : TellsName x identifier := by
  refine fun c s => .expect fun t mid hk hraw => .siteAt fun _ _ => .pure ?_
  dsimp only
  rw [Node.tally_named (hraw rfl), content?_identifier hk]
  rfl

theorem tells_placeholderOf (t : Token) : TellsName x (placeholderOf t) :=
  fun _ _ => .siteAt fun _ _ => .pure (by simp)

theorem turns_dottedRound : Turns x dottedRound
    (fun n => Node.tally x (.name n)) (fun n => Node.tally x (.name n)) := by
  refine fun n c s => .check fun dot hdot => .peekKind? ?_
  split
  · rename_i h
    have hdot := hdot (Bool.and_eq_true_iff.1 h).1
    refine .pass (fun t ht => Token.silent_of_eq rfl (hdot t ht)) fun _ => ?_
    refine .expect fun t _ hk _ => .siteBetween fun _ _ _ => .pure ?_
    simp [Round.weigh, content?_identifier hk, Nat.add_assoc]
  · exact .pure rfl

theorem tells_dottedName : TellsName x dottedName :=
  fun c _ => tells_identifier.bind fun first mid _ => turns_dottedRound.rounds first c mid

theorem turns_parametersRound : Turns x parametersRound (tallies x .name) (tallies x .name) := by
  refine fun ns c s => .current? ?_
  cases ht : s.ahead.head? with
  | none => exact .failing fun _ _ => unexpected_ok
  | some t =>
    dsimp only
    generalize hkind : t.kind = kind
    split
    · exact .pass (silent_head ht rfl hkind) fun _ => .pure rfl
    · exact .pass (silent_head ht rfl hkind) fun _ => .pure rfl
    · exact tells_identifier.bind fun n _ _ => .pure (by simp [Round.weigh, Nat.add_assoc])
    · split
      · refine .pass (silent_head ht rfl hkind) fun _ => ?_
        exact (tells_placeholderOf t).bind fun n _ _ =>
          .pure (by simp [Round.weigh, Nat.add_assoc])
      · exact .failing fun _ _ => unexpected_ok
    · exact .failing fun _ _ => unexpected_ok

theorem tells_parameters : Tells x parameters (tallies x .name) :=
  turns_parametersRound.rounds []

/-! ## Arguments and suffixes -/

section Inner

variable (hinner : TellsExpr x inner)

include hinner

theorem turns_argumentsRound {close : Kind} (hclose : close.isSilent = true) :
    Turns x (argumentsRound inner close) (tallies x .expr) (tallies x .expr) := by
  refine fun es c s => hinner.bind fun e _ _ => .eat hclose (fun _ _ => .pure ?_)
    (.eat rfl (fun _ _ => .pure ?_) (.failing fun _ _ => unexpected_ok))
  all_goals simp [Round.weigh, Nat.add_assoc]

theorem says_arguments {close : Kind} (hclose : close.isSilent = true)
    (hs : ∀ t ∈ s.ahead.head?, t.content? = none) :
    Says x c (arguments inner close) s fun es c' _ => c' = c + tallies x .expr es := by
  have hinside : Tells x (argumentsInside inner close) (tallies x .expr) := fun c s =>
    .eat hclose (fun _ _ => .pure rfl) ((turns_argumentsRound hinner hclose).rounds [] c s)
  exact .pass hs fun _ => .modify rfl rfl (hinside.bind fun _ _ _ => .modify rfl rfl (.pure rfl))

theorem tells_outsideIndex : TellsExpr x (outsideIndex inner) :=
  fun c _ => .bracketed ⟨rfl, rfl⟩ (fun _ => ⟨rfl, rfl⟩) (hinner c _)

theorem turns_suffixRound : Turns x (suffixRound inner)
    (fun n => Node.tally x (.name n)) (fun n => Node.tally x (.name n)) := by
  intro n c s
  have hsuffix : Says x (c + Node.tally x (.name n)) (suffix? inner n) s
      fun longer c' _ => c' = c + Node.tally x (.name (longer.getD n)) := by
    refine .peekFirst? fun k hpass => ?_
    split
    · refine (says_arguments hinner rfl (hpass _ rfl rfl)).bind fun es _ _ _ hes => ?_
      subst hes
      exact .siteFrom fun _ _ _ => .pure (by simp [Nat.add_assoc])
    · refine (says_arguments hinner rfl (hpass _ rfl rfl)).bind fun es _ _ _ hes => ?_
      subst hes
      exact .siteFrom fun _ _ _ => .pure (by simp [Nat.add_assoc])
    · refine .pass (hpass _ rfl rfl) fun _ => .eat rfl (fun _ _ => ?_) ?_
      · refine (tells_outsideIndex hinner).bind fun e _ _ => ?_
        exact .discardSilent rfl fun _ => .siteFrom fun _ _ _ => .pure (by simp [Nat.add_assoc])
      · refine .expect fun t _ hkind _ => .siteFrom fun _ _ _ => .pure ?_
        simp [content?_identifier hkind, Nat.add_assoc]
    · exact .pure rfl
  refine hsuffix.bind fun longer _ _ _ hlonger => ?_
  subst hlonger
  cases longer <;> exact .pure rfl

end Inner

theorem turns_methodsRound : Turns x methodsRound
    (fun m => tallies x .name m.1 + Node.tally x (.name m.2))
    (fun m => tallies x .name m.1 + Node.tally x (.name m.2)) := by
  rintro ⟨methods, last⟩ c s
  refine .check fun mark hmark => .peekKind? ?_
  split
  · rename_i h
    have hmark := hmark (Bool.and_eq_true_iff.1 h).1
    refine .pass (fun t ht => Token.silent_of_eq rfl (hmark t ht)) fun _ => ?_
    refine tells_identifier.bind fun n _ _ => .pure ?_
    simp only [Round.weigh, tallies_cons]
    omega
  · exact .pure rfl

theorem says_superclassChain (methods : List Name) (n : Name) :
    Says x (c + tallies x .name methods + Node.tally x (.name n)) (superclassChain methods n) s
      fun n' c' _ => c' = c + Node.tally x (.name n') := by
  induction methods generalizing n s with
  | nil => exact .pure rfl
  | cons method methods ih =>
    refine .siteBetween fun site mid _ => ?_
    convert ih (.superclass site method n) (s := mid) using 1
    simp only [tallies_cons, Node.tally_superclass]
    omega

theorem tells_name (hinner : TellsExpr x inner) : TellsName x (name inner) := by
  refine fun c s => tells_identifier.bind fun first mid _ => ?_
  have hmethods := (turns_methodsRound (x := x)).rounds ([], first) c mid
  rw [tallies_nil, Nat.zero_add] at hmethods
  refine hmethods.bind fun m _ mid _ hm => ?_
  subst hm
  rw [← Nat.add_assoc]
  refine ((turns_suffixRound hinner).rounds m.2 _ mid).bind fun n _ last _ hn => ?_
  subst hn
  exact says_superclassChain m.1 n

/-! ## Rows and operands -/

theorem says_finishRow (rows : List Row) (items : List Expr) :
    Says x (c + tallies x .row rows + tallies x .expr items) (finishRow rows items) s
      fun rows' c' _ => c' = c + tallies x .row rows' := by
  cases items with
  | nil => exact .pure rfl
  | cons first rest => exact .siteBetween fun _ _ _ => .pure (by simp [Nat.add_assoc])

theorem atom?_tally {inIndex : Bool} {next : Option Kind} {make : Site → Expr}
    (h : atom? inIndex t next = some make) (site : Site) :
    Node.tally x (.expr (make site)) = t.content?.toList.count x := by
  rw [atom?] at h
  rw [Token.content?]
  generalize t.kind = kind at h ⊢
  split at h
  · cases h
    exact Node.tally_number
  · cases h
    exact Node.tally_charArray
  · cases h
    exact Node.tally_string
  · split at h <;> cases h
    exact Node.tally_last
  · split at h <;> cases h
    exact Node.tally_reshape
  · cases h

section Inner

variable (hinner : TellsExpr x inner)

include hinner

theorem turns_rowsRound {close : Kind} (hclose : close.isSilent = true) (placeholders : Bool) :
    Turns x (rowsRound inner close placeholders)
      (fun soFar => tallies x .row soFar.rows + tallies x .expr soFar.items) (tallies x .row) := by
  refine fun soFar c s => .current? ?_
  cases ht : s.ahead.head? with
  | none => exact .failing fun _ _ => unexpected_ok
  | some t =>
    dsimp only
    rw [← Nat.add_assoc]
    split
    · rename_i hk
      refine .pass (silent_head ht hclose hk) fun _ => ?_
      refine (says_finishRow _ _).bind fun rows _ _ _ hrows => ?_
      subst hrows
      exact .pure rfl
    split
    · rename_i hk
      refine .pass (hk.elim (silent_head ht rfl) (silent_head ht rfl)) fun _ => ?_
      refine (says_finishRow _ _).bind fun rows _ _ _ hrows => ?_
      subst hrows
      exact .pure rfl
    split
    · rename_i hk
      exact .pass (silent_head ht rfl hk) fun _ => .pure (Nat.add_assoc _ _ _)
    split
    · exact .failing fun _ _ => unexpected_ok
    refine .peekKind? ?_
    split
    · rename_i hop
      simp only [Bool.and_eq_true, Token.isOperator, beq_iff_eq] at hop
      refine .pass (silent_head ht rfl hop.1.2.1) fun _ => ?_
      exact (tells_placeholderOf t).bind fun n _ _ =>
        .pure (by simp [Round.weigh, Nat.add_assoc])
    · exact hinner.bind fun e _ _ => .pure (by simp [Round.weigh, Nat.add_assoc])

theorem says_rows {close : Kind} (hclose : close.isSilent = true)
    (hs : ∀ t ∈ s.ahead.head?, t.content? = none) :
    Says x c (rows inner close) s fun rows c' _ => c' = c + tallies x .row rows.1 := by
  refine .here fun _ => .pass hs fun _ => .get (.modify rfl rfl ?_)
  refine ((turns_rowsRound hinner hclose _).rounds {} c _).bind fun rows _ _ _ hrows => ?_
  subst hrows
  exact .spanFrom fun _ => .pure rfl

theorem tells_handle (mark : Token) : TellsExpr x (handle inner mark) := by
  refine fun c s => .eat rfl (fun _ _ => ?_) ?_
  · refine tells_parameters.bind fun ns _ _ => (tells_outsideIndex hinner).bind fun e _ _ => ?_
    exact .siteBetween fun _ _ _ => .pure (by simp [Nat.add_assoc])
  · exact tells_dottedName.bind fun n _ _ => .siteBetween fun _ _ _ => .pure (by simp)

theorem says_compound (ht : s.ahead.head? = some t) :
    Says x c (compound inner t) s fun e c' _ => c' = c + Node.tally x (.expr e) := by
  rw [compound]
  split
  · exact (tells_name hinner).bind fun n _ _ => .pure (by simp)
  · rename_i hk
    refine .pass (silent_head ht rfl hk) fun _ => hinner.bind fun e _ _ => ?_
    exact .discardSilent rfl fun _ => .pure rfl
  · rename_i hk
    refine (says_rows hinner rfl (silent_head ht rfl hk)).bind fun rows _ _ _ hrows => ?_
    subst hrows
    exact .siteAt fun _ _ => .pure (by simp)
  · rename_i hk
    refine (says_rows hinner rfl (silent_head ht rfl hk)).bind fun rows _ _ _ hrows => ?_
    subst hrows
    exact .siteAt fun _ _ => .pure (by simp)
  · rename_i hk
    exact .pass (silent_head ht rfl hk) fun _ => tells_handle hinner t c _
  · rename_i hk
    refine .pass (silent_head ht rfl hk) fun _ => tells_dottedName.bind fun n _ _ => ?_
    exact .siteBetween fun _ _ _ => .pure (by simp)
  · exact .failing fun _ _ => unexpected_ok

theorem tells_operand : TellsExpr x (operand inner) := by
  refine fun c s => .current? ?_
  cases ht : s.ahead.head? with
  | none => exact .failing fun _ _ => unexpected_ok
  | some t =>
    refine .get (.peekKind? ?_)
    split
    · rename_i make hmake
      exact .advance ht fun _ => .siteAt fun _ _ =>
        .pure (congrArg (c + ·) (atom?_tally hmake _).symm)
    · exact says_compound hinner ht

end Inner

/-! ## Levels -/

theorem says_allSigned (ops : List Token) (e : Expr) :
    Says x (c + Node.tally x (.expr e)) (allSigned ops e) s
      fun e' c' _ => c' = c + Node.tally x (.expr e') := by
  induction ops generalizing s with
  | nil => exact .pure rfl
  | cons op ops ih =>
    refine ih.bind fun e' _ _ _ he' => ?_
    subst he'
    simp only [signed]
    exact .siteBetween fun _ _ _ => .pure (by simp)

theorem tells_signed (hp : TellsExpr x p) :
    TellsExpr x (do
      let signs ← eatWhile isSign
      allSigned signs (← p)) := by
  refine fun c s => .eatWhile fun ops mid hops _ _ => hp.bind fun e _ _ => ?_
  subst hops
  rw [said_silent fun t ht => ?_, Nat.add_zero]
  · exact says_allSigned _ e
  · have hop := List.mem_takeWhile_imp ht
    rw [isSign, Bool.and_eq_true, beq_iff_eq] at hop
    exact Token.silent_of_eq rfl hop.1

theorem says_binary (op : Token) (e e' : Expr) :
    Says x (c + Node.tally x (.expr e) + Node.tally x (.expr e')) (binary op e e') s
      fun joined c' _ => c' = c + Node.tally x (.expr joined) := by
  rw [binary]
  split
  · exact .siteBetween fun _ _ _ => .pure (by simp [Nat.add_assoc])
  · exact .failing fun _ _ => throw_ok

theorem tells_rounds {round : Expr → Parse (Round Expr Expr)} (hp : TellsExpr x p)
    (h : Turns x round (fun e => Node.tally x (.expr e)) (fun e => Node.tally x (.expr e))) :
    TellsExpr x (do rounds (← p) round) :=
  fun c _ => hp.bind fun e mid _ => h.rounds e c mid

theorem says_joined (op : Token) (e : Expr) (hp : TellsExpr x p) :
    Says x (c + Node.tally x (.expr e))
      (do
        let rhs ← p
        return (Round.again (← binary op e rhs) : Round Expr Expr)) s fun r c' _ =>
          c' = c +
            Round.weigh (fun e => Node.tally x (.expr e)) (fun e => Node.tally x (.expr e)) r := by
  refine hp.bind fun e' _ _ => (says_binary op e e').bind fun joined _ _ _ hjoined => ?_
  subst hjoined
  exact .pure rfl

theorem tells_binaryLevel {symbols : List String} (hp : TellsExpr x p) :
    TellsExpr x (binaryLevel symbols p) :=
  tells_rounds hp fun e _ _ => .eatOperator (fun op _ => says_joined op e hp) (.pure rfl)

section Inner

variable (hinner : TellsExpr x inner)

include hinner

theorem tells_powers : TellsExpr x (powers inner) := by
  refine tells_rounds (tells_operand hinner) fun e c s => .eatOperator (fun op _ => ?_)
    (.eatOperator (fun op _ => says_joined op e (tells_signed (tells_operand hinner))) (.pure rfl))
  simp only [transposed, bind_assoc, pure_bind]
  exact .siteBetween fun _ _ _ => .pure (by simp [Round.weigh])

theorem tells_sums : TellsExpr x (sums inner) :=
  tells_binaryLevel (tells_binaryLevel (tells_signed (tells_powers hinner)))

theorem tells_ranges : TellsExpr x (ranges inner) := by
  have hsums := tells_sums hinner
  refine fun c s => hsums.bind fun first _ _ => .eat rfl (fun _ _ => ?_) (.pure rfl)
  have hrange : ∀ (c : Nat) (s : State) (stride : Option Expr) (stop : Expr), Says x
      (c + Node.tally x (.expr first) + tallies x .expr stride.toList + Node.tally x (.expr stop))
      (do return .range (← siteBetween first.site.location stop.site.location) first stride stop)
      s fun e c' _ => c' = c + Node.tally x (.expr e) := by
    exact fun c s stride stop => .siteBetween fun _ _ _ => .pure (by simp [Nat.add_assoc])
  refine hsums.bind fun second _ _ => .eat rfl (fun _ _ => ?_) (hrange c _ none second)
  exact hsums.bind fun stop _ _ => hrange c _ (some second) stop

theorem tells_shortOrs : TellsExpr x (shortOrs inner) :=
  tells_binaryLevel (tells_binaryLevel (tells_binaryLevel (tells_binaryLevel
    (tells_binaryLevel (tells_ranges hinner)))))

end Inner

theorem tells_expressionWithin (fuel : Nat) : TellsExpr x (expressionWithin fuel) := by
  induction fuel with
  | zero => exact .failing fun _ _ _ => stalled_ok
  | succ fuel ih => exact tells_shortOrs ih

theorem tells_expression : TellsExpr x expression :=
  fun c s => .get (tells_expressionWithin _ c s)

end MFile.Grammar.Parse
