import MFile.Proofs.Grammar.Soundness.Operands

/-!
An expression is what it was read from. The tokens that a parse of an expression passes have the
layout of its tree, so none is dropped, doubled, moved or attached elsewhere, and rows end where
the tokens end them. Each level of the grammar keeps this, given that the levels below do.
-/

namespace MFile.Grammar.Parse

variable {inner : Parse Expr} {st st' : State}

/-! ## Operators -/

theorem layout_binary {op : Token} {lhs rhs e : Expr} (hop : op.kind = .operator)
    (h : binary op lhs rhs st = .ok e st') :
    st.Passes [] st' ∧ ∃ x, op.mark? = some (.terminal x) ∧
      e.layout = lhs.layout ++ .terminal x :: rhs.layout := by
  cases hsymbol : BinaryOp.ofSymbol? op.raw with
  | none =>
    simp only [binary, hsymbol] at h
    exact absurd h throw_ok
  | some symbol =>
    simp only [binary, hsymbol] at h
    obtain ⟨site, mid, hsite, h⟩ := bind_ok h
    obtain ⟨rfl, rfl⟩ := pure_ok h
    refine ⟨siteBetween_ok hsite, .operator symbol.symbol, ?_, rfl⟩
    rw [Token.mark?, hop, ← Terminal.ofOperator_ofSymbol? hsymbol]

theorem eatOperator_some {symbols : List String} {op : Token}
    (h : eatOperator symbols st = .ok (some op) st') :
    op.kind = .operator ∧ op.raw ∈ symbols ∧ st.Passes [op] st' := by
  obtain ⟨hop, hpass⟩ := eatIf_some h
  simp only [Bool.and_eq_true, beq_iff_eq, List.contains_iff_mem] at hop
  exact ⟨hop.1, hop.2, hpass⟩

theorem layout_transposed {op : Token} {operand e : Expr} (hop : op.raw ∈ ["'", ".'"])
    (h : transposed op operand st = .ok e st') :
    st.Passes [] st' ∧ e.layout = operand.layout ++ [.terminal (.ofOperator op.raw)] := by
  obtain ⟨site, mid, hsite, h⟩ := bind_ok h
  obtain ⟨rfl, rfl⟩ := pure_ok h
  refine ⟨siteBetween_ok hsite, ?_⟩
  rw [Terminal.ofOperator_ofTranspose hop]
  simp only [List.mem_cons, List.not_mem_nil, or_false] at hop
  rcases hop with hop | hop <;> rw [hop] <;> rfl

theorem layout_signed {op : Token} {operand e : Expr} (hop : isSign op = true)
    (h : signed op operand st = .ok e st') :
    st.Passes [] st' ∧ ∃ x, op.mark? = some (.terminal x) ∧
      e.layout = .terminal x :: operand.layout := by
  obtain ⟨site, mid, hsite, h⟩ := bind_ok h
  obtain ⟨rfl, rfl⟩ := pure_ok h
  simp only [isSign, Bool.and_eq_true, beq_iff_eq, List.contains_iff_mem] at hop
  refine ⟨siteBetween_ok hsite, .ofOperator op.raw, by rw [Token.mark?, hop.1], ?_⟩
  rw [Terminal.ofOperator_ofSign hop.2]
  have hraw := hop.2
  simp only [List.mem_cons, List.not_mem_nil, or_false] at hraw
  rcases hraw with hraw | hraw | hraw | hraw <;> rw [hraw] <;> rfl

theorem covers_allSigned {signs : List Token} {operand e : Expr} {first mid : State}
    (hsigns : ∀ t ∈ signs, isSign t = true) (hpass : st.Passes signs first)
    (hoperand : Covers first operand.layout mid) (h : allSigned signs operand mid = .ok e st') :
    Covers st e.layout st' := by
  induction signs generalizing st e st' with
  | nil =>
    obtain ⟨rfl, rfl⟩ := pure_ok h
    exact hoperand.after hpass
  | cons op ops ih =>
    obtain ⟨below, last, hbelow, h⟩ := bind_ok h
    obtain ⟨rest, hop, hops⟩ := hpass.split
    have hcovers := ih (fun t ht => hsigns t (List.mem_cons_of_mem _ ht)) hops hbelow
    obtain ⟨hfresh, x, hmark, hlayout⟩ := layout_signed (hsigns op List.mem_cons_self) h
    rw [hlayout]
    exact ((Covers.terminal hop hmark).append hcovers).fresh hfresh

theorem sound_signs {p : Parse Expr} (hp : Sound p Expr.layout) :
    Sound (do
      let signs ← eatWhile isSign
      allSigned signs (← p)) Expr.layout := by
  intro st e st' h
  obtain ⟨signs, first, hsigns, h⟩ := bind_ok h
  obtain ⟨operand, mid, hoperand, h⟩ := bind_ok h
  obtain ⟨hall, hpass⟩ := eatWhile_ok hsigns
  exact covers_allSigned hall hpass (hp hoperand) h

theorem keeps_binaryRound {symbols : List String} {p : Parse Expr} {start : State}
    (hp : Sound p Expr.layout) : Keeps (binaryRound symbols p)
      (fun e s => Covers start e.layout s) fun e s => Covers start e.layout s := by
  intro lhs s r s' hlhs hround
  obtain ⟨found, next, heat, hfound⟩ := bind_ok hround
  cases found with
  | none =>
    obtain ⟨rfl, -⟩ := eatIf_none heat
    obtain ⟨rfl, rfl⟩ := pure_ok hfound
    exact hlhs
  | some op =>
    obtain ⟨hop, -, hpass⟩ := eatOperator_some heat
    obtain ⟨rhs, last, hrhs, hcombine⟩ := bind_ok hfound
    obtain ⟨e', s'', hbinary, hdone⟩ := bind_ok hcombine
    obtain ⟨rfl, rfl⟩ := pure_ok hdone
    obtain ⟨hfresh, x, hmark, hlayout⟩ := layout_binary hop hbinary
    change Covers start e'.layout _
    rw [hlayout]
    exact (hlhs.append ((Covers.terminal hpass hmark).append (hp hrhs))).fresh hfresh

theorem sound_binaryLevel {symbols : List String} {p : Parse Expr} (hp : Sound p Expr.layout) :
    Sound (binaryLevel symbols p) Expr.layout := by
  intro st e st' h
  obtain ⟨first, mid, hfirst, hrounds⟩ := bind_ok h
  exact (keeps_binaryRound hp).rounds (hp hfirst) hrounds

/-! ## Levels -/

theorem keeps_powersRound {start : State} (hinner : Sound inner Expr.layout) :
    Keeps (powersRound inner) (fun e s => Covers start e.layout s)
      fun e s => Covers start e.layout s := by
  intro lhs s r s' hlhs h
  obtain ⟨found, s₁, htranspose, h₁⟩ := bind_ok h
  cases found with
  | some op =>
    obtain ⟨e, s₂, he, h₂⟩ := bind_ok h₁
    obtain ⟨rfl, rfl⟩ := pure_ok h₂
    obtain ⟨hkind, hraw, hpass⟩ := eatOperator_some htranspose
    obtain ⟨hfresh, hlayout⟩ := layout_transposed hraw he
    change Covers start e.layout _
    rw [hlayout]
    exact (hlhs.append (Covers.terminal hpass (by rw [Token.mark?, hkind]))).fresh hfresh
  | none =>
    obtain ⟨rfl, -⟩ := eatIf_none htranspose
    obtain ⟨found, s₂, hpower, h₂⟩ := bind_ok h₁
    cases found with
    | some op =>
      obtain ⟨rhs, s₃, hrhs, h₃⟩ := bind_ok h₂
      obtain ⟨e, s₄, he, h₄⟩ := bind_ok h₃
      obtain ⟨rfl, rfl⟩ := pure_ok h₄
      obtain ⟨hkind, -, hpass⟩ := eatOperator_some hpower
      obtain ⟨hfresh, x, hmark, hlayout⟩ := layout_binary hkind he
      have hpowered := (Covers.terminal hpass hmark).append
        (sound_signs (sound_operand hinner) hrhs)
      change Covers start e.layout _
      rw [hlayout]
      exact (hlhs.append hpowered).fresh hfresh
    | none =>
      obtain ⟨rfl, -⟩ := eatIf_none hpower
      obtain ⟨rfl, rfl⟩ := pure_ok h₂
      exact hlhs

theorem sound_powers (hinner : Sound inner Expr.layout) : Sound (powers inner) Expr.layout := by
  intro st e st' h
  obtain ⟨first, s₁, hfirst, hrounds⟩ := bind_ok h
  exact (keeps_powersRound hinner).rounds (sound_operand hinner hfirst) hrounds

theorem sound_sums (hinner : Sound inner Expr.layout) : Sound (sums inner) Expr.layout :=
  sound_binaryLevel (sound_binaryLevel (sound_signs (sound_powers hinner)))

theorem sound_ranges (hinner : Sound inner Expr.layout) : Sound (ranges inner) Expr.layout := by
  intro st e st' h
  have hcolon : ∀ {s t s'}, eat .colon s = .ok (some t) s' →
      Covers s [.terminal (.sign .colon)] s' := by
    intro s t s' heat
    obtain ⟨hkind, hpass⟩ := eatIf_some heat
    exact Covers.terminal hpass (by rw [Token.mark?, show t.kind = .colon by simpa using hkind])
  obtain ⟨start, s₁, hstart, h₁⟩ := bind_ok h
  obtain ⟨found, s₂, heat, h₂⟩ := bind_ok h₁
  have hfirst := sound_sums hinner hstart
  cases found with
  | none =>
    obtain ⟨rfl, -⟩ := eatIf_none heat
    obtain ⟨rfl, rfl⟩ := pure_ok h₂
    exact hfirst
  | some colon =>
    obtain ⟨second, s₃, hsecond, h₃⟩ := bind_ok h₂
    obtain ⟨found, s₄, heat', h₄⟩ := bind_ok h₃
    have htwo := hfirst.append ((hcolon heat).append (sound_sums hinner hsecond))
    cases found with
    | none =>
      obtain ⟨rfl, -⟩ := eatIf_none heat'
      obtain ⟨parts, s₅, hparts, h₅⟩ := bind_ok h₄
      obtain ⟨rfl, rfl⟩ := pure_ok hparts
      obtain ⟨site, s₆, hsite, h₆⟩ := bind_ok h₅
      obtain ⟨rfl, rfl⟩ := pure_ok h₆
      exact htwo.fresh (siteBetween_ok hsite)
    | some colon' =>
      obtain ⟨stop, s₅, hstop, h₅⟩ := bind_ok h₄
      obtain ⟨parts, s₆, hparts, h₆⟩ := bind_ok h₅
      obtain ⟨rfl, rfl⟩ := pure_ok hparts
      obtain ⟨site, s₇, hsite, h₇⟩ := bind_ok h₆
      obtain ⟨rfl, rfl⟩ := pure_ok h₇
      have hthree := htwo.append ((hcolon heat').append (sound_sums hinner hstop))
      exact hthree.fresh (siteBetween_ok hsite)

theorem sound_shortOrs (hinner : Sound inner Expr.layout) :
    Sound (shortOrs inner) Expr.layout :=
  sound_binaryLevel (sound_binaryLevel (sound_binaryLevel (sound_binaryLevel
    (sound_binaryLevel (sound_ranges hinner)))))

theorem sound_expressionWithin (fuel : Nat) : Sound (expressionWithin fuel) Expr.layout := by
  induction fuel with
  | zero => exact fun _ _ _ h => absurd h stalled_ok
  | succ fuel ih => exact sound_shortOrs ih

/-- The tokens of `[a, !b` and, on the next line, `2'];`. -/
def twoRows : List Token :=
  [plainToken .lbracket "[", plainToken .identifier "a", plainToken .comma ",",
    plainToken .operator "!", plainToken .identifier "b", plainToken .newline "\n",
    plainToken .number "2", plainToken .operator "'", plainToken .rbracket "]",
    plainToken .semicolon ";"]

/-- Wherever an expression is read, the tokens passed are exactly those that the tree shows: from
left to right they are its terminals, and with brackets and row ends they are its layout. -/
theorem expression_sound {st st' : State} {e : Expr} (h : expression st = .ok e st') :
    ∃ run, st.Passes run st' ∧ run.filterMap Token.terminal? = e.yield ∧
      Mark.tidy .start (run.filterMap Token.mark?) = e.layout := by
  obtain ⟨s, mid, hget, hrun⟩ := bind_ok h
  cases hget
  obtain ⟨run, hpass, hturns⟩ := sound_expressionWithin _ hrun
  have htidy : Mark.tidy .start (run.filterMap Token.mark?) = e.layout := by
    simpa only [List.append_nil, Mark.tidy, Gap.lead, List.nil_append] using hturns .start []
  refine ⟨run, hpass, ?_, htidy⟩
  rw [Expr.yield, ← htidy, Mark.terminals_tidy, List.filterMap_filterMap]
  rfl

theorem expression_sound_matrix :
    ∃ e st' run, expression (.ofTokens "" twoRows) = .ok e st' ∧
      (State.ofTokens "" twoRows).Passes run st' ∧
      run.filterMap Token.terminal? = e.yield ∧
      Mark.tidy .start (run.filterMap Token.mark?) = e.layout := by
  have hruns : succeeds expression (State.ofTokens "" twoRows) = true := by decide +kernel
  obtain ⟨e, st', h⟩ := exists_ok hruns
  obtain ⟨run, hrun⟩ := expression_sound h
  exact ⟨e, st', run, h, hrun⟩

end MFile.Grammar.Parse
