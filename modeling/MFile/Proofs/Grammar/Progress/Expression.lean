import MFile.Proofs.Grammar.Outcomes

/-!
Expressions get on. Every bracket passes a token before the expression inside of it begins, and
every round of a repetition passes one, so neither runs out; and each operator that joins two
operands is one that the tree knows.
-/

namespace MFile.Grammar

theorem State.past_shorter {s : State} {t : Token} {rest : List Token} (h : s.ahead = t :: rest) :
    (s.past t rest).ahead.length < s.ahead.length := by
  rw [h]
  exact Nat.lt_succ_self _

namespace Parse

variable {α β : Type} {n : Nat} {p inner : Parse α} {s : State}

/-- With fewer than `n` tokens ahead `p` passes one, or fails for a reason in the text. -/
def Advances (n : Nat) (p : Parse α) : Prop :=
  ∀ s, s.ahead.length < n → Meets true p s fun _ s' => s'.ahead.length < s.ahead.length

def Settles (n : Nat) (p : Parse α) : Prop :=
  ∀ s, s.ahead.length < n → Meets true p s fun _ s' => s'.ahead.length ≤ s.ahead.length

def GoesOn (n : Nat) (body : α → Parse (Round α β)) : Prop :=
  ∀ a s, s.ahead.length < n → Meets true (body a) s
    (Leaves (fun _ s' => s'.ahead.length < s.ahead.length)
      fun _ s' => s'.ahead.length ≤ s.ahead.length)

theorem Advances.settles (h : Advances n p) : Settles n p :=
  fun s hs => (h s hs).mono fun _ _ => Nat.le_of_lt

theorem Settles.none (p : Parse α) : Settles 0 p := fun _ hs => absurd hs (Nat.not_lt_zero _)

theorem Advances.none (p : Parse α) : Advances 0 p := fun _ hs => absurd hs (Nat.not_lt_zero _)

theorem GoesOn.rounds {body : α → Parse (Round α β)} (h : GoesOn n body) (a : α) :
    Settles n (Parse.rounds a body) := by
  intro s hs
  refine .rounds_shortening (I := fun _ st => st.ahead.length ≤ s.ahead.length) (Nat.le_refl _) ?_
  refine fun a st hst => (h a st (by omega)).mono fun r st' hr => ?_
  cases r with
  | again a => exact ⟨hr.le.trans hst, hr⟩
  | done b => exact hr.trans hst

theorem Settles.bind {f : α → Parse β} {Q : β → State → Prop} (h : Settles n p)
    (hs : s.ahead.length < n)
    (hf : ∀ a mid, mid.ahead.length ≤ s.ahead.length → Meets true (f a) mid Q) :
    Meets true (p >>= f) s Q :=
  (h s hs).bind hf

theorem Advances.bind {f : α → Parse β} {Q : β → State → Prop} (h : Advances n p)
    (hs : s.ahead.length < n)
    (hf : ∀ a mid, mid.ahead.length < s.ahead.length → Meets true (f a) mid Q) :
    Meets true (p >>= f) s Q :=
  (h s hs).bind hf

/-! ## Names -/

theorem advances_expect {kind : Kind} {what : Expectation} : Advances n (expect kind what) := by
  intro s _
  rw [← bind_pure (expect kind what)]
  exact .expect fun t rest hahead _ => .pure (State.past_shorter hahead)

theorem advances_identifier : Advances n identifier :=
  fun _ hs => advances_expect.bind hs fun _ _ hmid => .siteAt (.pure hmid)

theorem advances_dottedName : Advances n dottedName := by
  have hround : GoesOn n dottedRound := by
    refine fun name s hs => .check fun dot hdot => ?_
    refine .peekKind? ?_
    split
    · rename_i h
      obtain ⟨t, rest, hahead, -⟩ := hdot (Bool.and_eq_true_iff.1 h).1
      have hshorter := State.past_shorter hahead
      refine .advance hahead (advances_expect.bind (hshorter.trans hs) fun field mid hmid => ?_)
      exact .siteBetween (.pure (hmid.trans hshorter))
    · exact .pure (Nat.le_refl _)
  intro s hs
  refine advances_identifier.bind hs fun name mid hmid => ?_
  exact (hround.rounds name mid (hmid.trans hs)).mono fun _ _ h => Nat.lt_of_le_of_lt h hmid

theorem settles_placeholderOf (t : Token) : Settles n (placeholderOf t) :=
  fun _ _ => .siteAt (.pure (Nat.le_refl _))

theorem settles_parameters : Settles n parameters := by
  refine GoesOn.rounds
    (fun names s hs => .current? (fun _ => .unexpected) fun t rest hahead => ?_) []
  have hshorter := State.past_shorter hahead
  dsimp only
  split
  · exact .advance hahead (.pure hshorter.le)
  · exact .advance hahead (.pure hshorter)
  · exact advances_identifier.bind hs fun name mid hmid => .pure hmid
  · split
    · refine .advance hahead ((settles_placeholderOf t).bind (Nat.lt_succ_self _)
        fun name mid hmid => ?_)
      exact .pure (Nat.lt_of_le_of_lt hmid hshorter)
    · exact .unexpected
  · exact .unexpected

/-! ## Arguments and rows -/

section Inner

variable {inner : Parse Expr}

theorem settles_argumentsInside (h : Advances n inner) (close : Kind) :
    Settles n (argumentsInside inner close) := by
  have hround : GoesOn n (argumentsRound inner close) := by
    refine fun args s hs => h.bind hs fun e mid hmid => ?_
    refine .eat (fun t rest hahead _ => ?_) ?_
    · exact .pure ((State.past_shorter hahead).trans hmid).le
    · refine .eat (fun t rest hahead _ => ?_) .unexpected
      exact .pure ((State.past_shorter hahead).trans hmid)
  refine fun s hs => .eat (fun t rest hahead _ => ?_) ?_
  · exact .pure (State.past_shorter hahead).le
  · exact hround.rounds [] s hs

theorem advances_arguments (h : Advances n inner) {close : Kind} {t : Token} {rest : List Token}
    (hahead : s.ahead = t :: rest) (hs : s.ahead.length < n + 1) :
    Meets true (arguments inner close) s fun _ s' => s'.ahead.length < s.ahead.length := by
  have hshorter := State.past_shorter hahead
  refine .advance hahead (.modify ?_)
  refine (settles_argumentsInside h close).bind ?_ fun args mid hmid => .modify (.pure ?_)
  · exact hshorter.trans_le (Nat.lt_succ_iff.1 hs)
  · exact Nat.lt_of_le_of_lt hmid hshorter

theorem advances_outsideIndex {p : Parse α} (h : Advances n p) : Advances n (outsideIndex p) :=
  fun s hs => .bracketed (h { s with indexDepth := 0 } hs)

theorem goesOn_suffixRound (h : Advances n inner) : GoesOn (n + 1) (suffixRound inner) := by
  intro name s hs
  have hsuffix : Meets true (suffix? inner name) s fun found s' =>
      (found.isSome → s'.ahead.length < s.ahead.length) ∧ s'.ahead.length ≤ s.ahead.length := by
    refine .peekFirst? (fun _ => .pure ⟨nofun, Nat.le_refl _⟩) fun t rest hahead => ?_
    have hshorter := State.past_shorter hahead
    have hdone : ∀ mid : State, mid.ahead.length < s.ahead.length → ∀ make : Site → Name,
        Meets true (do return some (make (← siteFrom name.site.location))) mid fun found s' =>
          (found.isSome → s'.ahead.length < s.ahead.length) ∧
            s'.ahead.length ≤ s.ahead.length :=
      fun mid hmid make => .siteFrom (.pure ⟨fun _ => hmid, hmid.le⟩)
    split
    · exact (advances_arguments h hahead hs).bind fun args mid hmid => hdone mid hmid _
    · exact (advances_arguments h hahead hs).bind fun args mid hmid => hdone mid hmid _
    · refine .advance hahead (.eat (fun paren more hmore _ => ?_) ?_)
      · have hpast := State.past_shorter hmore
        refine (advances_outsideIndex h).bind (by omega) fun field mid hmid => .discard_bind ?_
        refine advances_expect.bind (n := n) (by omega) fun _ mid' hmid' => ?_
        exact hdone mid' (by omega) _
      · refine advances_expect.bind (n := n) (by omega) fun field mid hmid => ?_
        exact hdone mid (by omega) _
    · exact .pure ⟨nofun, Nat.le_refl _⟩
  refine hsuffix.bind fun found mid hmid => ?_
  cases found with
  | none => exact .pure hmid.2
  | some longer => exact .pure (hmid.1 rfl)

theorem settles_superclassChain (methods : List Name) (name : Name) :
    Settles n (superclassChain methods name) := by
  induction methods generalizing name with
  | nil => exact fun s _ => .pure (Nat.le_refl _)
  | cons method methods ih => exact fun s hs => .siteBetween (ih _ s.numbered hs)

theorem goesOn_methodsRound : GoesOn n methodsRound := by
  refine fun (methods, last) s hs => .check fun at_ hat => .peekKind? ?_
  split
  · rename_i h
    obtain ⟨t, rest, hahead, -⟩ := hat (Bool.and_eq_true_iff.1 h).1
    have hshorter := State.past_shorter hahead
    refine .advance hahead (advances_identifier.bind (hshorter.trans hs) fun _ mid hmid => ?_)
    exact .pure (hmid.trans hshorter)
  · exact .pure (Nat.le_refl _)

theorem advances_name (h : Advances n inner) : Advances (n + 1) (name inner) := by
  refine fun s hs => advances_identifier.bind hs fun first mid hmid => ?_
  refine (goesOn_methodsRound.rounds _).bind (hmid.trans hs) fun (methods, last) mid₁ hmid₁ => ?_
  refine ((goesOn_suffixRound h).rounds last).bind (by omega) fun longer mid₂ hmid₂ => ?_
  refine (settles_superclassChain methods longer mid₂ (Nat.lt_succ_self _)).mono fun _ s' hs' => ?_
  omega

theorem settles_finishRow (rows : List Row) (items : List Expr) :
    Settles n (finishRow rows items) := by
  intro s _
  cases items with
  | nil => exact .pure (Nat.le_refl _)
  | cons first rest => exact .siteBetween (.pure (Nat.le_refl _))

theorem goesOn_rowsRound (h : Advances n inner) (close : Kind) (placeholders : Bool) :
    GoesOn n (rowsRound inner close placeholders) := by
  refine fun soFar s hs => .current? (fun _ => .unexpected) fun t rest hahead => ?_
  have hshorter := State.past_shorter hahead
  dsimp only
  split
  · refine .advance hahead ((settles_finishRow _ _).bind (Nat.lt_succ_self _)
      fun rows mid hmid => ?_)
    exact .pure (hmid.trans hshorter.le)
  split
  · refine .advance hahead ((settles_finishRow _ _).bind (Nat.lt_succ_self _)
      fun rows mid hmid => ?_)
    exact .pure (Nat.lt_of_le_of_lt hmid hshorter)
  split
  · exact .advance hahead (.pure hshorter)
  split
  · exact .unexpected
  refine .peekKind? ?_
  split
  · refine .advance hahead ((settles_placeholderOf t).bind (Nat.lt_succ_self _)
      fun item mid hmid => ?_)
    exact .pure (Nat.lt_of_le_of_lt hmid hshorter)
  · exact h.bind hs fun item mid hmid => .pure hmid

theorem advances_rows (h : Advances n inner) {close : Kind} {t : Token} {rest : List Token}
    (hahead : s.ahead = t :: rest) (hs : s.ahead.length < n + 1) :
    Meets true (rows inner close) s fun _ s' => s'.ahead.length < s.ahead.length := by
  have hshorter := State.past_shorter hahead
  refine .here (.advance hahead (.get (.modify ?_)))
  refine ((goesOn_rowsRound h close _).rounds _).bind
    (s := { s.past t rest with placeholders := false })
    (hshorter.trans_le (Nat.lt_succ_iff.1 hs)) fun rows mid hmid => ?_
  exact .spanFrom (.pure (Nat.lt_of_le_of_lt hmid hshorter))

/-! ## Operands -/

theorem settles_handle (h : Advances n inner) (mark : Token) : Settles n (handle inner mark) := by
  refine fun s hs => .eat (fun t rest hahead _ => ?_) ?_
  · have hshorter := State.past_shorter hahead
    refine settles_parameters.bind (hshorter.trans hs) fun params mid hmid => ?_
    refine (advances_outsideIndex h).bind (by omega) fun body mid' hmid' => ?_
    exact .siteBetween (.pure (show mid'.ahead.length ≤ _ by omega))
  · exact advances_dottedName.bind hs fun name mid hmid => .siteBetween (.pure hmid.le)

theorem advances_compound (h : Advances n inner) {t : Token} {rest : List Token}
    (hahead : s.ahead = t :: rest) (hs : s.ahead.length < n + 1) :
    Meets true (compound inner t) s fun _ s' => s'.ahead.length < s.ahead.length := by
  have hshorter := State.past_shorter hahead
  rw [compound]
  split
  · exact (advances_name h).bind hs fun name mid hmid => .pure hmid
  · refine .advance hahead (h.bind (by omega) fun e mid hmid => .discard_bind ?_)
    exact advances_expect.bind (Nat.lt_succ_self _) fun _ mid' hmid' =>
      .pure (show mid'.ahead.length < _ by omega)
  · exact (advances_rows h hahead hs).bind fun _ mid hmid => .siteAt (.pure hmid)
  · exact (advances_rows h hahead hs).bind fun _ mid hmid => .siteAt (.pure hmid)
  · refine .advance hahead ((settles_handle h t _ (by omega)).mono fun _ s' hs' => ?_)
    exact Nat.lt_of_le_of_lt hs' hshorter
  · refine .advance hahead (advances_dottedName.bind (Nat.lt_succ_self _) fun name mid hmid => ?_)
    exact .siteBetween (.pure (hmid.trans hshorter))
  · exact .unexpected

theorem advances_operand (h : Advances n inner) : Advances (n + 1) (operand inner) := by
  refine fun s hs => .current? (fun _ => .unexpected) fun t rest hahead => ?_
  refine .get (.peekKind? ?_)
  split
  · exact .advance hahead (.siteAt (.pure (State.past_shorter hahead)))
  · exact advances_compound h hahead hs

end Inner

/-! ## Levels -/

theorem settles_signed (op : Token) (e : Expr) : Settles n (signed op e) :=
  fun _ _ => .siteBetween (.pure (Nat.le_refl _))

theorem settles_transposed (op : Token) (e : Expr) : Settles n (transposed op e) :=
  fun _ _ => .siteBetween (.pure (Nat.le_refl _))

theorem settles_allSigned (ops : List Token) (e : Expr) : Settles n (allSigned ops e) := by
  induction ops with
  | nil => exact fun _ _ => .pure (Nat.le_refl _)
  | cons op ops ih =>
    refine fun s hs => ih.bind hs fun e mid hmid => ?_
    exact (settles_signed op e mid (Nat.lt_succ_self _)).mono fun _ _ h => h.trans hmid

theorem advances_signs {p : Parse Expr} (h : Advances n p) : Advances n (do
    let signs ← eatWhile isSign
    allSigned signs (← p)) := by
  intro s hs
  have hdrop : (s.ahead.dropWhile isSign).length ≤ s.ahead.length :=
    (List.dropWhile_suffix _).length_le
  refine .step rfl (h.bind (Nat.lt_of_le_of_lt hdrop hs) fun e mid hmid => ?_)
  refine (settles_allSigned _ e mid (Nat.lt_succ_self _)).mono fun _ _ h => ?_
  exact Nat.lt_of_le_of_lt h (hmid.trans_le hdrop)

theorem settles_binary {op : Token} (h : (BinaryOp.ofSymbol? op.raw).isSome = true)
    (lhs rhs : Expr) :
    Settles n (binary op lhs rhs) := by
  intro s _
  rw [binary]
  obtain ⟨symbol, hsymbol⟩ := Option.isSome_iff_exists.1 h
  rw [hsymbol]
  exact .siteBetween (.pure (Nat.le_refl _))

theorem advances_binaryLevel {symbols : List String} {operand : Parse Expr}
    (hsymbols : ∀ symbol ∈ symbols, (BinaryOp.ofSymbol? symbol).isSome = true)
    (h : Advances n operand) : Advances n (binaryLevel symbols operand) := by
  have hround : GoesOn n (binaryRound symbols operand) := by
    refine fun lhs s hs => .eatOperator (fun op rest hahead _ hop => ?_) (.pure (Nat.le_refl _))
    have hshorter := State.past_shorter hahead
    refine h.bind (hshorter.trans hs) fun rhs mid hmid => ?_
    refine (settles_binary (hsymbols _ hop) lhs rhs).bind (Nat.lt_succ_self _)
      fun e mid' hmid' => ?_
    exact .pure (show mid'.ahead.length < _ by omega)
  refine fun s hs => h.bind hs fun lhs mid hmid => ?_
  exact (hround.rounds lhs mid (hmid.trans hs)).mono fun _ _ hle => Nat.lt_of_le_of_lt hle hmid

section Levels

variable {inner : Parse Expr} (h : Advances n inner)

include h

theorem advances_powers : Advances (n + 1) (powers inner) := by
  have hround : GoesOn (n + 1) (powersRound inner) := by
    refine fun e s hs => .eatOperator (fun op rest hahead _ _ => ?_) ?_
    · refine (settles_transposed op e).bind (Nat.lt_succ_self _) fun _ mid hmid => ?_
      exact .pure (Nat.lt_of_le_of_lt hmid (State.past_shorter hahead))
    refine .eatOperator (fun op rest hahead _ hop => ?_) (.pure (Nat.le_refl _))
    have hshorter := State.past_shorter hahead
    have hsymbol : (BinaryOp.ofSymbol? op.raw).isSome = true := by
      have hall : ∀ symbol ∈ ["^", ".^"], (BinaryOp.ofSymbol? symbol).isSome = true := by decide
      exact hall _ hop
    refine (advances_signs (advances_operand h)).bind (hshorter.trans hs) fun rhs mid hmid => ?_
    refine (settles_binary hsymbol e rhs).bind (Nat.lt_succ_self _) fun _ mid' hmid' => ?_
    exact .pure (show mid'.ahead.length < _ by omega)
  refine fun s hs => (advances_operand h).bind hs fun e mid hmid => ?_
  exact (hround.rounds e mid (hmid.trans hs)).mono fun _ _ hle => Nat.lt_of_le_of_lt hle hmid

theorem advances_sums : Advances (n + 1) (sums inner) :=
  advances_binaryLevel (by decide) (advances_binaryLevel (by decide)
    (advances_signs (advances_powers h)))

theorem advances_ranges : Advances (n + 1) (ranges inner) := by
  refine fun s hs => (advances_sums h).bind hs fun start mid hmid => ?_
  refine .eat (fun t rest hahead _ => ?_) (.pure hmid)
  have hshorter := State.past_shorter hahead
  refine (advances_sums h).bind (by omega) fun second mid₁ hmid₁ => ?_
  refine .eat (fun u more hmore _ => ?_) (.step rfl (.siteBetween (.pure (hmid₁.trans ?_))))
  · have hpast := State.past_shorter hmore
    refine (advances_sums h).bind (by omega) fun stop mid₂ hmid₂ => ?_
    exact .step rfl (.siteBetween (.pure (show mid₂.ahead.length < _ by omega)))
  · exact hshorter.trans hmid

theorem advances_shortOrs : Advances (n + 1) (shortOrs inner) :=
  advances_binaryLevel (by decide) (advances_binaryLevel (by decide)
    (advances_binaryLevel (by decide) (advances_binaryLevel (by decide)
      (advances_binaryLevel (by decide) (advances_ranges h)))))

end Levels

theorem advances_expressionWithin (fuel : Nat) : Advances fuel (expressionWithin fuel) := by
  induction fuel with
  | zero => exact .none _
  | succ fuel ih => exact advances_shortOrs ih

theorem advances_expression : Advances n expression :=
  fun s _ => .get (advances_expressionWithin _ s (Nat.lt_succ_self _))

end Parse

end MFile.Grammar
