import MFile.Proofs.Grammar.Precedence.Operands

/-!
The grammar reads back what is written. An expression is read at its own level first; at a looser
one it stands as it is, and at a tighter one it stands in parentheses, which are an operand. Left
operands of a chain are rounds that have already been made, so a chain is read as a spine.
-/

namespace MFile.Grammar.Parse

variable {inner : Parse Expr} {n : Nat} {i : Bool} {rest : List Token} {text : List Face}

/-- `e` is read at its own level, as the beginning of a chain, and as the right side of a power. -/
structure ReadsBack (inner : Parse Expr) (n : Nat) (e : Expr) : Prop where
  own : ∀ {i : Bool} {rest : List Token}, e.wellFormed i = true → (e.text false).length ≤ n →
    Stops e.level rest → Reads (atLevel inner e.level) (e.text false) rest i (Same e)
  spine : e.level ∈ chainLevels → ∀ {i : Bool} {rest : List Token}, e.wellFormed i = true →
    (e.text false).length ≤ n → Stops (e.level - 1) rest →
    Spine (atLevel inner (e.level - 1)) (roundAt inner e.level) (e.text false) rest i (Same e)
  power : ∀ {i : Bool} {rest : List Token}, e.wellFormed i = true → (e.written 3).length ≤ n →
    Stops 1 rest → Reads (atLevel inner 3) (e.written 3) rest i (Same e)

/-! ## Places -/

theorem length_of_enclosed {e : Expr} {allowed : Nat} (hfits : fits allowed e.level = false)
    (hlen : (e.written allowed).length ≤ n) : (e.text false).length < n := by
  rw [Expr.written_of_not_fits hfits, List.length_cons, List.length_append] at hlen
  exact Nat.lt_of_lt_of_le (by omega) hlen

theorem reads_enclosed {e : Expr} {allowed : Nat} (hinner : ReadsWithin inner n)
    (hwf : e.wellFormed i = true) (hlen : (e.written allowed).length ≤ n)
    (hfits : fits allowed e.level = false) :
    Reads (operand inner) (e.written allowed) rest i (Same e) := by
  have hlen' := length_of_enclosed hfits hlen
  rw [Expr.written_of_not_fits hfits]
  exact reads_parentheses hinner hwf hlen'

theorem begins_enclosed {e : Expr} {allowed : Nat} (hfits : fits allowed e.level = false) :
    Begins True (e.written allowed) := by
  rw [Expr.written_of_not_fits hfits]
  exact ⟨_, _, rfl, rfl, fun _ => by decide⟩

theorem reads_power {e : Expr} (hinner : ReadsWithin inner n) (hlevel : e.level ≠ 4)
    (hown : e.level = 1 → Reads (operand inner) (e.text false) rest i (Same e))
    (hwf : e.wellFormed i = true) (hlen : (e.written 3).length ≤ n) :
    Reads (atLevel inner 3) (e.written 3) rest i (Same e) := by
  by_cases hone : e.level = 1
  · have hfits : fits 3 e.level = true := by
      rw [hone]
      rfl
    rw [Expr.written_of_fits hfits, Expr.text_eq hlevel]
    exact reads_signsThen ((e.begins_text false).mono fun _ => by omega) (hown hone)
  · have hfits : fits 3 e.level = false := by
      rw [fits, if_pos rfl, beq_eq_false_iff_ne.2 hone, beq_eq_false_iff_ne.2 hlevel]
      rfl
    exact reads_signsThen (begins_enclosed hfits) (reads_enclosed hinner hwf hlen hfits)

namespace ReadsBack

theorem written {e : Expr} (h : ReadsBack inner n e) (hinner : ReadsWithin inner n) {top : Nat}
    (hpos : 1 ≤ top) (htop : top ≤ 13) (hne : top ≠ 3) (hwf : e.wellFormed i = true)
    (hlen : (e.written top).length ≤ n) (hstops : Stops top rest) :
    Reads (atLevel inner top) (e.written top) rest i (Same e) := by
  by_cases hle : e.level ≤ top
  · have htext := Expr.written_of_fits (fits_of_le hle hne)
    rw [beq_eq_false_iff_ne.2 hne] at htext
    rw [htext] at hlen ⊢
    exact climb e.level_bounds.1 hle htop e.level_bounds.2.1 hne (e.begins_text false) hstops
      (h.own hwf hlen (hstops.mono hle))
  · have hfits := fits_eq_false (Nat.lt_of_not_le hle) hne
    exact climb (Nat.le_refl 1) hpos htop (by decide) hne
      ((begins_enclosed hfits).mono fun _ => trivial) hstops (reads_enclosed hinner hwf hlen hfits)

theorem spine_written {e : Expr} (h : ReadsBack inner n e) (hinner : ReadsWithin inner n)
    {level : Nat} (hlevel : level ∈ chainLevels) (hwf : e.wellFormed i = true)
    (hlen : (e.written level).length ≤ n) (hstops : Stops (level - 1) rest) :
    Spine (atLevel inner (level - 1)) (roundAt inner level) (e.written level) rest i (Same e) := by
  obtain ⟨hlow, hne, hne', -, hhigh⟩ := chainLevels_bounds hlevel
  by_cases heq : e.level = level
  · have htext := Expr.written_of_fits (fits_of_le (Nat.le_of_eq heq) hne)
    rw [beq_eq_false_iff_ne.2 hne] at htext
    rw [htext] at hlen ⊢
    subst heq
    exact h.spine hlevel hwf hlen hstops
  · -- A tighter or an enclosed operand is written alike one level down.
    have htext : e.written level = e.written (level - 1) :=
      Expr.written_pred heq hne (by omega)
    rw [htext] at hlen ⊢
    exact .of_reads (h.written hinner (by omega) (by omega) (by omega) hwf hlen hstops)

/-! ## Trees -/

theorem of_operand {e : Expr} (hinner : ReadsWithin inner n) (hlevel : e.level = 1 ∨ e.level = 13)
    (hbegins : Begins True (e.text false)) : ReadsBack inner n e := by
  refine ⟨fun {i rest} hwf hlen hstops => ?_, fun hchain => ?_, fun {i rest} hwf hlen hstops => ?_⟩
  · have hoperand := reads_operand hinner hwf hlen hlevel hstops
    obtain ⟨hpos, hne, htop⟩ := e.level_bounds
    exact climb (Nat.le_refl 1) hpos htop (by decide) hne (hbegins.mono fun _ => trivial) hstops
      hoperand
  · have hbounds := chainLevels_bounds hchain
    omega
  · refine reads_power hinner (by omega) (fun hone => ?_) hwf hlen
    rw [Expr.written_of_fits (by rw [hone]; rfl), Expr.text_eq (by omega)] at hlen
    exact reads_operand hinner hwf hlen hlevel (hone.symm ▸ hstops)

theorem of_chain {e : Expr} (hinner : ReadsWithin inner n) (hlevel : e.level ∈ chainLevels)
    (h : ∀ {i : Bool} {rest : List Token}, e.wellFormed i = true →
      (e.text false).length ≤ n → Stops (e.level - 1) rest →
      Spine (atLevel inner (e.level - 1)) (roundAt inner e.level) (e.text false) rest i (Same e)) :
    ReadsBack inner n e := by
  obtain ⟨hlow, -, hne, -⟩ := chainLevels_bounds hlevel
  refine ⟨fun hwf hlen hstops => ?_, fun _ => h, fun hwf hlen _ => ?_⟩
  · exact reads_chain hlevel hstops (h hwf hlen (hstops.mono (Nat.sub_le _ _)))
  · exact reads_power hinner hne (fun hone => by omega) hwf hlen

theorem right_operand {op : BinaryOp} {e : Expr} (h : ReadsBack inner n e)
    (hinner : ReadsWithin inner n) (hwf : e.wellFormed i = true)
    (hlen : (e.written op.rightLevel).length ≤ n) (hstops : Stops (op.level - 1) rest) :
    Reads (atLevel inner op.rightLevel) (e.written op.rightLevel) rest i (Same e) := by
  have hbounds := chainLevels_bounds (level_mem_chainLevels op)
  rw [BinaryOp.rightLevel] at hlen ⊢
  split at hlen
  · rename_i htwo
    rw [if_pos htwo]
    exact h.power hwf hlen (hstops.mono (by omega))
  · rename_i htwo
    rw [if_neg htwo]
    exact h.written hinner (by omega) (by omega) (by omega) hwf hlen hstops

theorem of_binary {op : BinaryOp} {lhs rhs : Expr} (hinner : ReadsWithin inner n)
    (hlhs : ReadsBack inner n lhs) (hrhs : ReadsBack inner n rhs) (s : Site) :
    ReadsBack inner n (.binary s op lhs rhs) := by
  have hlevel : op.level ∈ chainLevels := level_mem_chainLevels op
  have hbounds := chainLevels_bounds hlevel
  refine of_chain hinner hlevel fun {i rest} hwf hlen hstops => ?_
  rw [Expr.wellFormed, Bool.and_eq_true] at hwf
  have hlen' : (lhs.written op.level).length + ((rhs.written op.rightLevel).length + 1) ≤ n := by
    rw [Expr.text, List.length_append, List.length_cons] at hlen
    exact hlen
  have hleft : ∀ more, more.map Token.face =
      (.operator, op.symbol) :: rhs.written op.rightLevel →
      Spine (atLevel inner (op.level - 1)) (roundAt inner op.level) (lhs.written op.level)
        (more ++ rest) i (Same lhs) := by
    intro more hmore
    have hfollows : Stops (op.level - 1) (more ++ rest) :=
      stops_of_faces hmore fun l hl => goesOn_symbol op (by omega)
    exact hlhs.spine_written hinner hlevel hwf.1 (by omega) hfollows
  exact .snoc (List.cons_ne_nil _ _) hleft fun a ha =>
    reads_round_again rfl ha s (right_operand hrhs hinner hwf.2 (by omega) hstops)

theorem of_transposed {op : UnaryOp} {operand : Expr} (hinner : ReadsWithin inner n)
    (hop : op.followsOperand = true) (h : ReadsBack inner n operand) (s : Site) :
    ReadsBack inner n (.unary s op operand) := by
  have hlevel : (Expr.unary s op operand).level = 2 := if_pos hop
  refine of_chain hinner (hlevel ▸ by decide) fun {i rest} hwf hlen _ => ?_
  rw [hlevel]
  rw [Expr.text, if_pos hop] at hlen ⊢
  rw [List.length_append] at hlen
  refine .snoc (List.cons_ne_nil _ _) (fun more hmore => ?_) fun a ha =>
    reads_round_transposed hop ha s
  refine h.spine_written hinner (by decide) hwf (Nat.le_trans (Nat.le_add_right _ _) hlen) ?_
  exact stops_of_faces hmore fun l hl => goesOn_operator hl op.symbol

theorem of_signed {op : UnaryOp} {operand : Expr} (hinner : ReadsWithin inner n)
    (hop : op.followsOperand = false) (h : ReadsBack inner n operand) (s : Site) :
    ReadsBack inner n (.unary s op operand) := by
  have hlevel : (Expr.unary s op operand).level = 4 := if_neg (by rw [hop]; decide)
  refine ⟨fun {i rest} hwf hlen hstops => ?_, fun hchain => ?_, fun {i rest} hwf hlen hstops => ?_⟩
  · rw [hlevel] at hstops ⊢
    rw [Expr.text_signed hop] at hlen ⊢
    have hoperand : Reads (atLevel inner 4) (operand.written 4) rest i (Same operand) :=
      h.written hinner (by decide) (by decide) (by decide) hwf (Nat.le_of_succ_le hlen) hstops
    exact reads_signsThen_cons hop s hoperand
  · have hbounds := chainLevels_bounds hchain
    omega
  · rw [Expr.written_of_fits (by rw [hlevel]; rfl), Expr.text_signed hop] at hlen ⊢
    exact reads_signsThen_cons hop s (h.power hwf (Nat.le_of_succ_le hlen) hstops)

theorem of_range {start stop : Expr} {stride : Option Expr} (hinner : ReadsWithin inner n)
    (hstart : ReadsBack inner n start) (hstride : ∀ e, stride = some e → ReadsBack inner n e)
    (hstop : ReadsBack inner n stop) (s : Site) :
    ReadsBack inner n (.range s start stride stop) := by
  have hpart : ∀ {e : Expr} {i : Bool} {rest : List Token}, ReadsBack inner n e →
      e.wellFormed i = true → (e.written 6).length ≤ n → Stops 6 rest →
      Reads (sums inner) (e.written 6) rest i (Same e) :=
    fun h => h.written hinner (by decide) (by decide) (by decide)
  refine ⟨fun {i rest} hwf hlen hstops => ?_, nofun, fun {i rest} hwf hlen hstops => ?_⟩
  · cases stride with
    | none =>
      rw [Expr.wellFormed, Bool.and_eq_true] at hwf
      have hlen' : (start.written 6).length + ((stop.written 6).length + 1) ≤ n := by
        rw [Expr.text, List.length_append, List.length_cons] at hlen
        exact hlen
      exact reads_ranges_two hstops (hpart hstart hwf.1 (by omega))
        (hpart hstop hwf.2 (by omega)) s
    | some stride =>
      rw [Expr.wellFormed, Bool.and_eq_true, Bool.and_eq_true] at hwf
      have hlen' : (start.written 6).length +
          ((stride.written 6).length + ((stop.written 6).length + 1) + 1) ≤ n := by
        rw [Expr.text, List.length_append, List.length_cons, List.length_append,
          List.length_cons] at hlen
        exact hlen
      exact reads_ranges_three hstops (hpart hstart hwf.1.1 (by omega))
        (hpart (hstride stride rfl) hwf.1.2 (by omega)) (hpart hstop hwf.2 (by omega)) s
  · have hlevel : (Expr.range s start stride stop).level = 7 := rfl
    exact reads_power hinner (by omega) (fun hone => by omega) hwf hlen

end ReadsBack

theorem readsBack (hinner : ReadsWithin inner n) : ∀ e : Expr, ReadsBack inner n e
  | .binary s _ lhs rhs => .of_binary hinner (readsBack hinner lhs) (readsBack hinner rhs) s
  | .unary s op operand => by
    cases hop : op.followsOperand with
    | true => exact .of_transposed hinner hop (readsBack hinner operand) s
    | false => exact .of_signed hinner hop (readsBack hinner operand) s
  | .range s start none stop => by
    refine .of_range hinner (readsBack hinner start) ?_ (readsBack hinner stop) s
    nofun
  | .range s start (some stride) stop => by
    refine .of_range hinner (readsBack hinner start) ?_ (readsBack hinner stop) s
    rintro _ ⟨⟩
    exact readsBack hinner stride
  | .lambda .. => .of_operand hinner (Or.inr rfl) ⟨_, _, rfl, rfl, fun _ => by decide⟩
  | .name x => by
    obtain ⟨f, fs, htext⟩ := x.text_head
    exact .of_operand hinner (Or.inl rfl) ⟨_, _, htext, rfl, fun _ => by simp⟩
  | .number .. | .charArray .. | .string .. | .reshape .. | .last .. | .matrix ..
  | .cell .. | .functionHandle .. | .metaclass .. =>
    .of_operand hinner (Or.inl rfl) ⟨_, _, rfl, rfl, fun _ => by simp⟩

/-! ## Whole expressions -/

theorem ending_of_closesArgument {kind : Kind} (h : closesArgument (some kind) = true) :
    kind.isClosing = true ∨ kind.isSeparator = true := by
  cases kind <;> first | exact Or.inl rfl | exact Or.inr rfl | cases h

theorem reads_expressionWithin (n : Nat) : ReadsWithin (expressionWithin n) n := by
  induction n with
  | zero => exact ⟨fun _ hlen => absurd hlen (Nat.not_lt_zero _), fun _ hone => by omega⟩
  | succ n ih =>
    refine ⟨fun {e i rest} hwf hlen hstops => ?_, fun {rest} s _ hcloses => ?_⟩
    · rw [← e.written_top] at hlen ⊢
      exact (readsBack ih e).written ih (by decide) (by decide) (by decide) hwf
        (Nat.le_of_lt_succ hlen) hstops
    · have hstops : Stops 13 rest := by
        intro t ht l _
        rw [ht] at hcloses
        exact goesOn_of_ending (ending_of_closesArgument hcloses) _ l
      have hcolon : Reads (operand (expressionWithin n)) [(.colon, ":")] rest true
          (Same (.reshape s)) := by
        refine reads_atom fun t inIndex ht hindex => ⟨.reshape, ?_, fun site => rfl⟩
        rw [atom?, kind_of_face ht, hindex rfl]
        exact if_pos hcloses
      exact climb (Nat.le_refl 1) (by decide) (Nat.le_refl 13) (by decide) (by decide)
        ⟨_, _, rfl, rfl, fun _ => by decide⟩ hstops hcolon

theorem significant_append {tokens : List Token} (h : Visible (tokens.map Token.face))
    (rest : List Token) :
    significant false (tokens ++ rest) = tokens ++ significant false rest := by
  induction tokens with
  | nil => rfl
  | cons t ts ih =>
    obtain ⟨ht, hts⟩ := List.forall_mem_cons.1 h
    obtain ⟨htrivia, hnewline⟩ := Bool.and_eq_true_iff.1 ht
    have hkept : t.kind.isTrivia = false := Bool.not_eq_true' _ ▸ htrivia
    have hbreak : (t.kind == .newline) = false := beq_eq_false_iff_ne.2 (bne_iff_ne.1 hnewline)
    rw [List.cons_append, significant, hkept, hbreak, Bool.and_false, if_neg (by decide),
      if_neg (by decide), ih hts, List.cons_append]

/-- The tree of `(a + 1)^-b(end, :)`. -/
def powerOfElement : Expr :=
  .binary blankSite .power
    (.binary blankSite .add (.name (.identifier blankSite "a")) (.number blankSite "1"))
    (.unary blankSite .minus
      (.name (.reference blankSite (.identifier blankSite "b")
        [.last blankSite, .reshape blankSite])))

def plainTokens (text : List Face) : List Token := text.map fun f => plainToken f.1 f.2

/-- The grammar reads back every expression that can be written, and stops right behind it, at the
end of the text or before a separator. -/
theorem expression_written {e : Expr} (hwf : e.wellFormed false = true) (file : String)
    {tokens rest : List Token} (htokens : tokens.map Token.face = e.written 13)
    (hrest : ∀ t, (significant false rest).head? = some t → t.isSeparator = true) :
    ∃ e' st', expression (.ofTokens file (tokens ++ rest)) = .ok e' st' ∧ e'.bare = e.bare ∧
      st'.behind = tokens.reverse ∧ st'.ahead = significant false rest := by
  have hvisible : Visible (tokens.map Token.face) := by
    rw [htokens, e.written_top]
    exact e.visible_text false
  have hahead : (State.ofTokens file (tokens ++ rest)).ahead = tokens ++ significant false rest :=
    significant_append hvisible rest
  have hready : State.Ready (e.text false) (significant false rest) false
      (.ofTokens file (tokens ++ rest)) :=
    ⟨⟨tokens, hahead, by rw [htokens, e.written_top]⟩, nofun, rfl⟩
  have hlen : (e.text false).length < (State.ofTokens file (tokens ++ rest)).ahead.length + 1 := by
    rw [hahead, List.length_append, ← e.written_top, ← htokens, List.length_map]
    omega
  have hstops : Stops 13 (significant false rest) :=
    fun t ht l _ => goesOn_of_ending (Or.inr (hrest t ht)) _ l
  obtain ⟨e', st', hrun, hsame, hreach⟩ :=
    (reads_expressionWithin _).expr hwf hlen hstops hready
  refine ⟨e', st', (bind_run rfl _).trans hrun, hsame, ?_, hreach.ahead⟩
  -- What has been passed is what was ahead, less what still is.
  obtain ⟨run, hpass⟩ := hreach.passes
  have hrunTokens : run = tokens := by
    have hsplit := hahead.symm.trans hpass.ahead
    rw [hreach.ahead] at hsplit
    exact (List.append_cancel_right hsplit).symm
  rw [hpass.behind, hrunTokens]
  exact List.append_nil _

theorem expression_written_powerOfElement :
    powerOfElement.wellFormed false = true ∧
      ∃ e' st', expression (.ofTokens "" (plainTokens (powerOfElement.written 13) ++
          [plainToken .semicolon ";"])) = .ok e' st' ∧
        e'.bare = powerOfElement.bare ∧ st'.ahead = [plainToken .semicolon ";"] := by
  have hwf : powerOfElement.wellFormed false = true := by decide
  have htokens : (plainTokens (powerOfElement.written 13)).map Token.face =
      powerOfElement.written 13 := rfl
  have hrest : ∀ t, (significant false [plainToken .semicolon ";"]).head? = some t →
      t.isSeparator = true := by
    rintro t ⟨⟩
    rfl
  obtain ⟨e', st', hrun, hbare, -, hahead⟩ := expression_written hwf "" htokens hrest
  exact ⟨hwf, e', st', hrun, hbare, hahead⟩

end MFile.Grammar.Parse
