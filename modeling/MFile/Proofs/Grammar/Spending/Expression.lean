import MFile.Proofs.Grammar.Exits

/-!
How many numbers an expression takes. Every token that is passed pays for two, and what is left of
that pays for the nodes that are made of several parts: a row is paid by its first element, a call
by its bracket, an operation by its operator. Nothing is owed where a parse fails, and an expression
that is read to its end leaves one number over.
-/

namespace MFile.Grammar

/-- The numbers that have been taken, and two for each token that is still to pay. -/
def State.cost (s : State) : Nat := s.nodes + 2 * s.ahead.length

theorem State.cost_numbered (s : State) : s.numbered.cost = s.cost + 1 :=
  Nat.add_right_comm s.nodes 1 _

theorem State.cost_past {s : State} {t : Token} {rest : List Token} (h : s.ahead = t :: rest) :
    (s.past t rest).cost + 2 = s.cost := by
  rw [State.cost, State.cost, h, List.length_cons, Nat.mul_succ, ← Nat.add_assoc]
  rfl

theorem State.cost_passed {s : State} {taken rest : List Token} (h : s.ahead = taken ++ rest)
    (behind : List Token) :
    { s with behind := behind, ahead := rest : State }.cost + 2 * taken.length = s.cost := by
  show s.nodes + 2 * rest.length + 2 * taken.length = s.cost
  rw [State.cost, h, List.length_append]
  omega

namespace Parse

variable {α β : Type} {b k n : Nat} {s : State} {t : Token} {rest : List Token}
  {inner p : Parse Expr}

/-- With `k` numbers in advance `p` takes at most two for each token that it passes, and `n` fewer
if it does not fail. -/
def Pays (k n : Nat) (p : Parse α) : Prop :=
  ∀ b s, s.cost + k ≤ b → Exits p s (fun _ s' => s'.cost + n ≤ b) (·.cost ≤ b)

def PaysOn (k : α → Nat) (n : Nat) (body : α → Parse (Round α β)) : Prop :=
  ∀ a b s, s.cost + k a ≤ b → Exits (body a) s
    (Leaves (fun a' s' => s'.cost + k a' ≤ b) fun _ s' => s'.cost + n ≤ b) (·.cost ≤ b)

theorem Pays.bind {p : Parse α} {f : α → Parse β} {Q : β → State → Prop} (h : Pays k n p) (m : Nat)
    (hs : s.cost + k + m ≤ b)
    (hf : ∀ a mid, mid.cost + n + m ≤ b → Exits (f a) mid Q (·.cost ≤ b)) :
    Exits (p >>= f) s Q (·.cost ≤ b) := by
  have hp := h (b - m) s (by omega)
  refine (hp.mono (fun a mid hmid => ?_) fun mid hmid => ?_).bind hf
  · omega
  · omega

theorem Pays.seq {p : Parse α} {f : α → Parse β} {k' n' : Nat} (h : Pays k n p)
    (hk : k' ≤ n) (hf : ∀ a, Pays k' n' (f a)) : Pays k n' (p >>= f) :=
  fun b _ hs => h.bind 0 hs fun a mid hmid => hf a b mid (by omega)

theorem Pays.more {p : Parse α} (h : Pays k n p) : Pays (k + 1) n p :=
  fun b s hs => h b s (by omega)

theorem Pays.pure (a : α) : Pays k k (Pure.pure a) := fun _ _ hs => Exits.pure hs

theorem Pays.discard {p : Parse α} (h : Pays k n p) : Pays k n (discard p) :=
  fun b s hs => by
    rw [← bind_pure (Functor.discard p)]
    exact .discard_bind (h.bind 0 hs fun _ _ hmid => .pure hmid)

theorem Pays.map {p : Parse α} {g : α → β} (h : Pays k n p) : Pays k n (g <$> p) :=
  fun b s hs => .map (h b s hs)

theorem PaysOn.rounds {k : α → Nat} {body : α → Parse (Round α β)} (h : PaysOn k n body) (a : α) :
    Pays (k a) n (rounds a body) :=
  fun b _ hs => .rounds (I := fun a st => st.cost + k a ≤ b) hs (fun _ _ hst => by omega)
    fun a st hst => h a b st hst

/-! ## Names -/

theorem pays_identifierOf (t : Token) : Pays 1 0 (identifierOf t) :=
  fun _ s hs => .siteAt fun _ => .pure (by rw [s.cost_numbered]; exact hs)

theorem pays_placeholderOf (t : Token) : Pays 1 0 (placeholderOf t) :=
  fun _ s hs => .siteAt fun _ => .pure (by rw [s.cost_numbered]; exact hs)

theorem pays_expect {kind : Kind} {what : Expectation} : Pays 0 2 (expect kind what) := by
  intro b s hs
  rw [← bind_pure (expect kind what)]
  refine .expect hs fun t rest hahead _ => .pure ?_
  rw [State.cost_past hahead]
  exact hs

theorem pays_identifier : Pays 0 1 identifier :=
  fun _ _ hs => pays_expect.bind 0 hs fun t _ hmid => (pays_identifierOf t).bind 1 hmid
    fun _ _ hmid' => hmid'

def numbersLeft (n : Name) : Nat := if n.identifier?.isSome then 1 else 2

theorem numbersLeft_pos (n : Name) : 1 ≤ numbersLeft n := by
  rw [numbersLeft]
  split <;> omega

theorem exits_dottedName (hs : s.cost ≤ b) :
    Exits dottedName s (fun n s' => s'.cost + numbersLeft n ≤ b) (·.cost ≤ b) := by
  have hfirst : Exits identifier s (fun n s' => s'.cost + numbersLeft n ≤ b) (·.cost ≤ b) :=
    pays_expect.bind 0 hs fun t mid hmid => .siteAt fun _ => .pure (by
      rw [numbersLeft, mid.cost_numbered]
      exact hmid)
  refine hfirst.bind fun name mid hname => .rounds (I := fun n st => st.cost + numbersLeft n ≤ b)
    hname (fun _ _ h => by omega) fun n st hst => .check fun dot hdot => .peekKind? ?_
  split
  · rename_i h
    obtain ⟨t, rest, hahead, -⟩ := hdot (Bool.and_eq_true_iff.1 h).1
    have hpast := State.cost_past hahead
    have hone := numbersLeft_pos n
    refine .advance hahead (pays_expect.bind 1 (by omega) fun field mid hmid => ?_)
    exact .siteBetween fun _ => .pure (show mid.numbered.cost + 2 ≤ b by
      rw [mid.cost_numbered]; omega)
  · exact .pure hst

theorem pays_dottedName : Pays 0 1 dottedName := by
  refine fun b s hs => (exits_dottedName hs).mono (fun n s' h => ?_) fun _ h => h
  have hone := numbersLeft_pos n
  omega

theorem pays_parameters : Pays 0 0 parameters := by
  have hround : PaysOn (fun _ => 0) 0 parametersRound := by
    refine fun names b s hs => .current? (fun _ => .unexpected hs) fun t rest hahead => ?_
    have hpast := State.cost_past hahead
    dsimp only
    split
    · exact .advance hahead (.pure (show (s.past t rest).cost + 0 ≤ b by omega))
    · exact .advance hahead (.pure (show (s.past t rest).cost + 0 ≤ b by omega))
    · exact pays_identifier.bind 0 hs fun _ mid hmid => .pure (show mid.cost + 0 ≤ b by omega)
    · split
      · exact .advance hahead ((pays_placeholderOf t).bind 0 (by omega) fun _ _ hmid => .pure hmid)
      · exact .unexpected hs
    · exact .unexpected hs
  exact hround.rounds []

/-! ## Arguments and rows -/

section Inner

variable (hinner : Pays 0 1 inner)

include hinner

theorem pays_argumentsInside (close : Kind) : Pays 0 0 (argumentsInside inner close) := by
  have hround : PaysOn (fun _ => 0) 0 (argumentsRound inner close) := by
    refine fun args b s hs => hinner.bind 0 hs fun e mid hmid => ?_
    refine .eat (fun t rest hahead _ => ?_) fun _ => .eat (fun t rest hahead _ => ?_) fun _ => ?_
    all_goals try have hpast := State.cost_past hahead
    · exact .pure (show (mid.past t rest).cost + 0 ≤ b by omega)
    · exact .pure (show (mid.past t rest).cost + 0 ≤ b by omega)
    · exact .unexpected (by omega)
  refine fun b s hs => .eat (fun t rest hahead _ => ?_) fun _ => hround.rounds [] b s hs
  have hpast := State.cost_past hahead
  exact .pure (by omega)

theorem pays_arguments {close : Kind} (hahead : s.ahead = t :: rest) (hs : s.cost ≤ b) :
    Exits (arguments inner close) s (fun _ s' => s'.cost + 2 ≤ b) (·.cost ≤ b) := by
  have hpast := State.cost_past hahead
  refine .advance hahead (.modify ?_)
  refine (pays_argumentsInside hinner close).bind 2 (s := { s.past t rest with indexDepth := _ })
    (show (s.past t rest).cost + 0 + 2 ≤ b by omega) fun args mid hmid => .modify (.pure ?_)
  exact show mid.cost + 2 ≤ b by omega

theorem pays_outsideIndex : Pays 0 1 (outsideIndex inner) :=
  fun b s hs => .bracketed (hinner b { s with indexDepth := 0 } hs)

theorem pays_suffixRound : PaysOn (fun _ => 1) 1 (suffixRound inner) := by
  intro name b s hs
  have hsuffix : Exits (suffix? inner name) s (fun _ s' => s'.cost + 1 ≤ b) (·.cost ≤ b) := by
    have hdone : ∀ (mid : State) (make : Site → Name), mid.cost + 2 ≤ b →
        Exits (do return some (make (← siteFrom name.site.location))) mid
          (fun _ s' => s'.cost + 1 ≤ b) (·.cost ≤ b) := by
      refine fun mid make hmid => .siteFrom fun _ => .pure ?_
      rw [mid.cost_numbered]
      exact hmid
    refine .peekFirst? (fun _ => .pure hs) fun t rest hahead => ?_
    have hpast := State.cost_past hahead
    split
    · exact .bind (pays_arguments hinner hahead (by omega)) fun _ mid hmid => hdone mid _ hmid
    · exact .bind (pays_arguments hinner hahead (by omega)) fun _ mid hmid => hdone mid _ hmid
    · refine .advance hahead (.eat (fun paren more hmore _ => ?_) fun _ => ?_)
      · have hopen := State.cost_past hmore
        refine (pays_outsideIndex hinner).bind 2 (by omega) fun field mid hmid => .discard_bind ?_
        exact pays_expect.bind 1 (by omega) fun _ mid' hmid' => hdone mid' _ (by omega)
      · exact pays_expect.bind 1 (by omega) fun _ mid hmid => hdone mid _ (by omega)
    · exact .pure hs
  refine hsuffix.bind fun longer mid hmid => ?_
  cases longer <;> exact .pure hmid

end Inner

theorem pays_superclassChain (methods : List Name) (name : Name) :
    Pays methods.length 0 (superclassChain methods name) := by
  induction methods generalizing name with
  | nil => exact fun _ _ hs => .pure hs
  | cons method methods ih =>
    refine fun b s hs => .siteBetween fun _ => ih _ b s.numbered ?_
    rw [s.cost_numbered, Nat.add_right_comm]
    exact hs

theorem exits_methodsRound (w : List Name × Name) (hs : s.cost + w.1.length + 1 ≤ b) :
    Exits (methodsRound w) s
      (Leaves (fun w' s' => s'.cost + w'.1.length + 1 ≤ b)
        fun w' s' => s'.cost + w'.1.length + 1 ≤ b)
      (·.cost ≤ b) := by
  obtain ⟨methods, last⟩ := w
  dsimp only at hs
  refine .check fun at_ hat => .peekKind? ?_
  split
  · rename_i hmark
    obtain ⟨t, rest, hahead, -⟩ := hat (Bool.and_eq_true_iff.1 hmark).1
    have hpast := State.cost_past hahead
    refine .advance hahead (pays_identifier.bind (methods.length + 1) (by omega)
      fun _ mid hmid => ?_)
    exact .pure (show mid.cost + (methods.length + 1) + 1 ≤ b by omega)
  · exact .pure hs

section Inner

variable (hinner : Pays 0 1 inner)

include hinner

theorem pays_name : Pays 0 1 (name inner) := by
  refine fun b s hs => pays_identifier.bind 0 hs fun first mid hmid => ?_
  have hmethods : Exits (rounds ([], first) methodsRound) mid
      (fun w s' => s'.cost + w.1.length + 1 ≤ b) (·.cost ≤ b) :=
    .rounds (I := fun w st => st.cost + w.1.length + 1 ≤ b) (by simpa using hmid)
      (fun _ _ hst => by omega) fun w _ => exits_methodsRound w
  refine hmethods.bind fun (methods, last) mid₁ hmid₁ => ?_
  dsimp only at hmid₁
  refine ((pays_suffixRound hinner).rounds last).bind methods.length
    (show mid₁.cost + 1 + methods.length ≤ b by omega) fun longer mid₂ hmid₂ => ?_
  have hchain := pays_superclassChain methods longer (b - 1) mid₂ (by omega)
  exact hchain.mono (fun _ _ h => by omega) fun _ h => by omega

omit hinner in
theorem exits_finishRow (rows : List Row) (items : List Expr) (hs : s.cost + items.length ≤ b) :
    Exits (finishRow rows items) s (fun _ s' => s'.cost ≤ b) (·.cost ≤ b) := by
  cases items with
  | nil => exact .pure hs
  | cons first more =>
    refine .siteBetween fun _ => .pure ?_
    rw [s.cost_numbered]
    rw [List.length_cons] at hs
    omega

theorem pays_rowsRound (close : Kind) (placeholders : Bool) :
    PaysOn (fun soFar => soFar.items.length) 0 (rowsRound inner close placeholders) := by
  refine fun soFar b s (hs : s.cost + soFar.items.length ≤ b) =>
    .current? (fun _ => .unexpected (by omega)) fun t rest hahead => ?_
  have hpast := State.cost_past hahead
  have hadd : ∀ (e : Expr) (mid : State), mid.cost + soFar.items.length + 1 ≤ b →
      Exits (pure (.again { soFar with items := soFar.items ++ [e], afterItem := true })) mid
        (Leaves (fun a' s' => s'.cost + a'.items.length ≤ b)
          fun (_ : List Row) s' => s'.cost + 0 ≤ b)
        (·.cost ≤ b) := by
    refine fun e mid hmid => .pure (show mid.cost + (soFar.items ++ [e]).length ≤ b from ?_)
    rw [List.length_append]
    exact hmid
  have hfinish := exits_finishRow (s := s.past t rest) soFar.rows soFar.items (b := b) (by omega)
  dsimp only
  split
  · exact .advance hahead (hfinish.bind fun rows mid hmid => .pure hmid)
  split
  · exact .advance hahead (hfinish.bind fun rows mid hmid => .pure hmid)
  split
  · exact .advance hahead (.pure (show (s.past t rest).cost + soFar.items.length ≤ b by omega))
  split
  · exact .unexpected (by omega)
  refine .peekKind? ?_
  split
  · exact .advance hahead ((pays_placeholderOf t).bind (soFar.items.length + 1) (by omega)
      fun item mid hmid => hadd _ mid (by omega))
  · exact hinner.bind soFar.items.length (by omega) fun item mid hmid => hadd _ mid (by omega)

theorem exits_rows {close : Kind} (hahead : s.ahead = t :: rest) (hs : s.cost ≤ b) :
    Exits (rows inner close) s (fun _ s' => s'.cost + 2 ≤ b) (·.cost ≤ b) := by
  have hpast := State.cost_past hahead
  refine .here fun _ => .advance hahead (.get (.modify ?_))
  refine ((pays_rowsRound hinner close _).rounds {}).bind 2
    (s := { s.past t rest with placeholders := false })
    (show (s.past t rest).cost + 0 + 2 ≤ b by omega) fun rows mid hmid => .spanFrom fun _ => ?_
  exact .pure (by omega)

/-! ## Operands -/

theorem pays_handle (mark : Token) : Pays 0 0 (handle inner mark) := by
  refine fun b s hs => .eat (fun t rest hahead _ => ?_) fun _ => ?_
  · have hpast := State.cost_past hahead
    refine pays_parameters.bind 0 (by omega) fun params mid hmid => ?_
    refine (pays_outsideIndex hinner).bind 0 (by omega) fun body mid' hmid' => ?_
    exact .siteBetween fun _ => .pure (by rw [State.cost_numbered]; exact hmid')
  · refine pays_dottedName.bind 0 hs fun name mid hmid => ?_
    exact .siteBetween fun _ => .pure (by rw [State.cost_numbered]; exact hmid)

theorem exits_compound (hahead : s.ahead = t :: rest) (hs : s.cost ≤ b) :
    Exits (compound inner t) s (fun _ s' => s'.cost + 1 ≤ b) (·.cost ≤ b) := by
  have hpast := State.cost_past hahead
  have hrows : ∀ {close : Kind} (make : Site → List Row → Expr),
      Exits (rows inner close >>= fun read => return make (← siteAt read.2) read.1) s
        (fun _ s' => s'.cost + 1 ≤ b) (·.cost ≤ b) := by
    refine fun make => (exits_rows hinner hahead hs).bind fun _ mid hmid => ?_
    exact .siteAt fun _ => .pure (by rw [State.cost_numbered]; exact hmid)
  rw [compound]
  split
  · exact (pays_name hinner).bind 0 hs fun _ mid hmid => .pure hmid
  · refine .advance hahead (hinner.bind 0 (by omega) fun e mid hmid => .discard_bind ?_)
    exact pays_expect.bind 0 (by omega) fun _ mid' hmid' => .pure (by omega)
  · exact hrows fun site rows => .matrix site rows
  · exact hrows fun site rows => .cell site rows
  · refine .advance hahead ((pays_handle hinner t (b - 2) _ (by omega)).mono (fun _ _ h => ?_)
      fun _ h => ?_)
    · omega
    · omega
  · refine .advance hahead (pays_dottedName.bind 1 (by omega) fun name mid hmid => ?_)
    exact .siteBetween fun _ => .pure (by rw [State.cost_numbered]; omega)
  · exact .unexpected hs

theorem pays_operand : Pays 0 1 (operand inner) := by
  refine fun b s hs => .current? (fun _ => .unexpected hs) fun t rest hahead => ?_
  refine .get (.peekKind? ?_)
  split
  · have hpast := State.cost_past hahead
    exact .advance hahead (.siteAt fun _ => .pure (by rw [State.cost_numbered]; omega))
  · exact exits_compound hinner hahead hs

end Inner

/-! ## Levels -/

theorem pays_allSigned (ops : List Token) (e : Expr) : Pays ops.length 0 (allSigned ops e) := by
  induction ops with
  | nil => exact fun _ _ hs => .pure hs
  | cons op ops ih =>
    refine fun b s hs => ih.bind 1 (by rw [List.length_cons] at hs; omega) fun e mid hmid => ?_
    exact .siteBetween fun _ => .pure (by rw [State.cost_numbered]; omega)

theorem pays_signed (hp : Pays 0 1 p) : Pays 0 1 (do
    let signs ← eatWhile isSign
    allSigned signs (← p)) := by
  refine fun b s hs => .eatWhile fun signs rest hahead _ _ => ?_
  have hpassed := State.cost_passed hahead (signs.reverse ++ s.behind)
  refine hp.bind (2 * signs.length) (by omega) fun e mid hmid => ?_
  refine (pays_allSigned signs e (b - 1) mid (by omega)).mono (fun _ _ h => ?_) fun _ h => ?_
  · omega
  · omega

theorem pays_binary (op : Token) (lhs rhs : Expr) : Pays 1 0 (binary op lhs rhs) := by
  intro b s hs
  rw [binary]
  split
  · exact .siteBetween fun _ => .pure (by rw [State.cost_numbered]; exact hs)
  · exact .throw (by omega)

theorem exits_joined (hp : Pays 0 1 p) (op : Token) (lhs : Expr) (hs : s.cost + 1 ≤ b) :
    Exits (do
      let rhs ← p
      return (Round.again (← binary op lhs rhs) : Round Expr Expr)) s
      (Leaves (fun _ s' => s'.cost + 1 ≤ b) fun _ s' => s'.cost + 1 ≤ b) (·.cost ≤ b) := by
  refine hp.bind 1 hs fun rhs mid hmid => ?_
  refine (pays_binary op lhs rhs).bind 1 hmid fun e mid' hmid' => .pure ?_
  exact show mid'.cost + 1 ≤ b by omega

theorem pays_binaryLevel {symbols : List String} (hp : Pays 0 1 p) :
    Pays 0 1 (binaryLevel symbols p) := by
  have hround : PaysOn (fun _ => 1) 1 (binaryRound symbols p) := by
    refine fun lhs b s hs => .eatOperator (fun op rest hahead _ _ => ?_) fun _ => .pure hs
    have hpast := State.cost_past hahead
    exact exits_joined hp op lhs (by omega)
  exact fun _ _ hs => hp.bind 0 hs fun lhs mid hmid => hround.rounds lhs _ mid hmid

section Inner

variable (hinner : Pays 0 1 inner)

include hinner

theorem pays_powers : Pays 0 1 (powers inner) := by
  have hround : PaysOn (fun _ => 1) 1 (powersRound inner) := by
    refine fun e b s hs => .eatOperator (fun op rest hahead _ _ => ?_) fun _ => ?_
    · have hpast := State.cost_past hahead
      have hturned : Exits (transposed op e) (s.past op rest) (fun _ s' => s'.cost + 1 ≤ b)
          (·.cost ≤ b) :=
        .siteBetween fun _ => .pure (by rw [State.cost_numbered]; omega)
      exact hturned.bind fun _ _ hmid => .pure hmid
    · refine .eatOperator (fun op rest hahead _ _ => ?_) fun _ => .pure hs
      have hpast := State.cost_past hahead
      exact exits_joined (pays_signed (pays_operand hinner)) op e (by omega)
  exact fun _ _ hs => (pays_operand hinner).bind 0 hs fun e mid hmid => hround.rounds e _ mid hmid

theorem pays_sums : Pays 0 1 (sums inner) :=
  pays_binaryLevel (pays_binaryLevel (pays_signed (pays_powers hinner)))

theorem pays_ranges : Pays 0 1 (ranges inner) := by
  have hsums := pays_sums hinner
  refine fun b s hs => hsums.bind 0 hs fun start mid hmid => ?_
  refine .eat (fun t rest hahead _ => ?_) fun _ => .pure hmid
  have hcolon := State.cost_past hahead
  refine hsums.bind 1 (by omega) fun second mid₁ hmid₁ => ?_
  refine .eat (fun u more hmore _ => ?_) fun _ => ?_
  · have hcolon' := State.cost_past hmore
    refine hsums.bind 1 (by omega) fun stop mid₂ hmid₂ => .step rfl (.siteBetween fun _ => ?_)
    exact .pure (by rw [State.cost_numbered]; omega)
  · exact .step rfl (.siteBetween fun _ => .pure (by rw [State.cost_numbered]; omega))

theorem pays_shortOrs : Pays 0 1 (shortOrs inner) :=
  pays_binaryLevel (pays_binaryLevel (pays_binaryLevel (pays_binaryLevel
    (pays_binaryLevel (pays_ranges hinner)))))

end Inner

theorem pays_expressionWithin (fuel : Nat) : Pays 0 1 (expressionWithin fuel) := by
  induction fuel with
  | zero => exact fun _ _ hs => .stalled hs
  | succ fuel ih => exact pays_shortOrs ih

theorem pays_expression : Pays 0 1 expression :=
  fun b s hs => .get (pays_expressionWithin _ b s hs)

end Parse

end MFile.Grammar
