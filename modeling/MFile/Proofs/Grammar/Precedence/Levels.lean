import MFile.Proofs.Grammar.Precedence.Reading

/-!
The levels of the grammar. What one level has read, a looser level reads as well where nothing
goes on with it; an operator and its right operand are one more round of the operator's level; and
signs are bound to what comes after them, the first one last.
-/

namespace MFile.Grammar

/-! ## What may follow -/

def symbolsAt : Nat → List String
  | 2 => ["'", ".'", "^", ".^"]
  | 5 => ["*", ".*", "/", "./", "\\", ".\\"]
  | 6 => ["+", "-"]
  | 8 => ["==", "~=", "!=", "<", "<=", ">", ">="]
  | 9 => ["&"]
  | 10 => ["|"]
  | 11 => ["&&"]
  | 12 => ["||"]
  | _ => []

def goesOn (level : Nat) (f : Face) : Bool :=
  match level with
  | 1 => f.1 == .lparen || f.1 == .lbrace || f.1 == .selection || f.1 == .handle
  | 7 => f.1 == .colon
  | level => f.1 == .operator && (symbolsAt level).contains f.2

def Stops (level : Nat) (rest : List Token) : Prop :=
  ∀ t, rest.head? = some t → ∀ l ≤ level, goesOn l t.face = false

section

variable {level : Nat} {rest more : List Token} {f : Face} {text : List Face}

theorem Stops.mono {l : Nat} (h : Stops level rest) (hl : l ≤ level) : Stops l rest :=
  fun t ht k hk => h t ht k (Nat.le_trans hk hl)

theorem head_of_faces (h : more.map Token.face = f :: text) (rest : List Token) :
    ∃ t, (more ++ rest).head? = some t ∧ t.face = f := by
  obtain ⟨t, ts, rfl, ht, -⟩ := List.map_eq_cons_iff.1 h
  exact ⟨t, rfl, ht⟩

theorem stops_of_faces (h : more.map Token.face = f :: text)
    (hf : ∀ l ≤ level, goesOn l f = false) : Stops level (more ++ rest) := by
  obtain ⟨t, hhead, rfl⟩ := head_of_faces h rest
  intro t' ht'
  cases hhead.symm.trans ht'
  exact hf

theorem goesOn_suffixes (f : Face) :
    goesOn 1 f = (f.1 == .lparen || f.1 == .lbrace || f.1 == .selection || f.1 == .handle) := rfl

theorem goesOn_ranges (f : Face) : goesOn 7 f = (f.1 == .colon) := rfl

theorem goesOn_chain {l : Nat} (hl : l ≠ 1 ∧ l ≠ 7) (f : Face) :
    goesOn l f = (f.1 == .operator && (symbolsAt l).contains f.2) := by
  rcases l with _ | _ | _ | _ | _ | _ | _ | _ | l
  case succ.zero => exact absurd rfl hl.1
  case succ.succ.succ.succ.succ.succ.succ.zero => exact absurd rfl hl.2
  all_goals rfl

theorem goesOn_of_not_mem {kind : Kind}
    (h : kind ∉ [.lparen, .lbrace, .selection, .handle, .colon, .operator])
    (text : String) (l : Nat) : goesOn l (kind, text) = false := by
  simp only [List.mem_cons, List.not_mem_nil, or_false, not_or, ← beq_eq_false_iff_ne] at h
  obtain ⟨hparen, hbrace, hselection, hhandle, hcolon, hoperator⟩ := h
  by_cases hsuffixes : l = 1
  · rw [hsuffixes, goesOn_suffixes, hparen, hbrace, hselection, hhandle]
    rfl
  by_cases hranges : l = 7
  · rw [hranges, goesOn_ranges, hcolon]
  · rw [goesOn_chain ⟨hsuffixes, hranges⟩, hoperator, Bool.false_and]

theorem goesOn_of_ending {kind : Kind} (h : kind.isClosing = true ∨ kind.isSeparator = true)
    (text : String) (l : Nat) : goesOn l (kind, text) = false := by
  refine goesOn_of_not_mem ?_ text l
  cases kind <;> first | decide | exact absurd h (by decide)

theorem goesOn_symbol (op : BinaryOp) {l : Nat} (h : l < op.level) :
    goesOn l (.operator, op.symbol) = false := by
  have hall : ∀ op : BinaryOp, ∀ l < op.level, goesOn l (.operator, op.symbol) = false := by
    intro op
    cases op <;> decide
  exact hall op l h

theorem goesOn_operator {l : Nat} (h : l ≤ 1) (s : String) : goesOn l (.operator, s) = false := by
  rcases Nat.le_one_iff_eq_zero_or_eq_one.1 h with rfl | rfl <;> rfl

theorem goesOn_colon {l : Nat} (h : l < 7) (s : String) : goesOn l (.colon, s) = false := by
  by_cases hsuffixes : l = 1
  · subst hsuffixes
    rfl
  · rw [goesOn_chain ⟨hsuffixes, Nat.ne_of_lt h⟩]
    rfl

theorem raw_of_face {t : Token} {kind : Kind} {s : String} (h : t.face = (kind, s))
    (hkind : ∀ raw, kind.valueOf raw = raw) : t.kind = kind ∧ t.raw = s := by
  have hk := kind_of_face h
  refine ⟨hk, ?_⟩
  rw [← value_of_face h, Token.value, hk, hkind]

end

namespace Parse

variable {inner : Parse Expr} {i : Bool} {rest : List Token} {text text' : List Face}

/-- The tree is `e` up to numbers and places. -/
def Same (e e' : Expr) : Prop := e'.bare = e.bare

/-! ## Operators -/

theorem reads_eatOperator {symbols : List String} {s : String} (hs : s ∈ symbols) :
    Reads (eatOperator symbols) [(.operator, s)] rest i
      fun found => ∃ t, found = some t ∧ t.raw = s := by
  refine (reads_eatIf fun t ht => ?_).mono ?_
  · obtain ⟨hkind, hraw⟩ := raw_of_face ht fun _ => rfl
    rw [hkind, hraw, Bool.and_eq_true]
    exact ⟨rfl, List.contains_iff_mem.2 hs⟩
  · rintro found ⟨t, rfl, ht⟩
    exact ⟨t, rfl, (raw_of_face ht fun _ => rfl).2⟩

theorem reads_eatOperator_none {symbols : List String} {l : Nat} (hstops : Stops l rest)
    (hl : l ≠ 1 ∧ l ≠ 7) (hsymbols : ∀ s ∈ symbols, s ∈ symbolsAt l) :
    Reads (eatOperator symbols) [] rest i (· = none) := by
  refine reads_eatIf_none fun t ht => ?_
  by_contra hop
  rw [Bool.not_eq_false, Bool.and_eq_true, beq_iff_eq, List.contains_iff_mem] at hop
  have hgoes : goesOn l t.face = true := by
    have hvalue : t.value = t.raw := by rw [Token.value, hop.1]; rfl
    rw [goesOn_chain hl, Token.face, hop.1, hvalue, Bool.and_eq_true]
    exact ⟨rfl, List.contains_iff_mem.2 (hsymbols _ hop.2)⟩
  rw [hstops t ht l (Nat.le_refl l)] at hgoes
  cases hgoes

theorem reads_eatOperator_other {symbols : List String} {s : String} {more : List Token}
    (hmore : more.map Token.face = (.operator, s) :: text) (hs : s ∉ symbols) :
    Reads (eatOperator symbols) [] (more ++ rest) i (· = none) := by
  refine reads_eatIf_none fun t ht => ?_
  obtain ⟨t', hhead, hface⟩ := head_of_faces hmore rest
  cases hhead.symm.trans ht
  obtain ⟨hkind, hraw⟩ := raw_of_face hface fun _ => rfl
  rw [hkind, hraw, Bool.and_eq_false_iff, Bool.eq_false_iff, Bool.eq_false_iff]
  exact Or.inr fun h => hs (List.contains_iff_mem.1 h)

theorem reads_eat_none {kind : Kind} (h : ∀ t, rest.head? = some t → t.kind ≠ kind) :
    Reads (eat kind) [] rest i (· = none) :=
  reads_eatIf_none fun t ht => beq_eq_false_iff_ne.2 (h t ht)

theorem reads_eat_colon_none (hstops : Stops 7 rest) :
    Reads (eat .colon) [] rest i (· = none) := by
  refine reads_eat_none fun t ht hkind => ?_
  have hgoes := hstops t ht 7 (Nat.le_refl 7)
  rw [goesOn_ranges, Token.face, hkind] at hgoes
  cases hgoes

theorem reads_binary {op : Token} {symbol : BinaryOp} {a b lhs rhs : Expr}
    (hop : op.raw = symbol.symbol) (hlhs : Same a lhs) (hrhs : Same b rhs) (s : Site) :
    Reads (binary op lhs rhs) [] rest i (Same (.binary s symbol a b)) := by
  rw [binary, hop, BinaryOp.ofSymbol?_symbol]
  refine .last (reads_siteBetween _ _) fun site _ => .pure ?_
  rw [Same, Expr.bare, Expr.bare, hlhs, hrhs]

theorem reads_transposed {op : Token} {symbol : UnaryOp} {a operand : Expr}
    (hop : op.raw = symbol.symbol) (hfollows : symbol.followsOperand = true)
    (hoperand : Same a operand) (s : Site) :
    Reads (transposed op operand) [] rest i (Same (.unary s symbol a)) := by
  refine .last (reads_siteBetween _ _) fun site _ => .pure ?_
  have hsymbol : UnaryOp.ofTranspose op.raw = symbol := by
    rw [hop]
    cases symbol <;> first | rfl | cases hfollows
  rw [Same, Expr.bare, Expr.bare, hoperand, hsymbol]

theorem reads_signed {op : Token} {symbol : UnaryOp} {a operand : Expr}
    (hop : op.raw = symbol.symbol) (hfollows : symbol.followsOperand = false)
    (hoperand : Same a operand) (s : Site) :
    Reads (signed op operand) [] rest i (Same (.unary s symbol a)) := by
  refine .last (reads_siteBetween _ _) fun site _ => .pure ?_
  have hsymbol : UnaryOp.ofSign op.raw = symbol := by
    rw [hop]
    cases symbol <;> first | rfl | cases hfollows
  rw [Same, Expr.bare, Expr.bare, hoperand, hsymbol]

/-! ## Signs -/

def signsThen (p : Parse Expr) : Parse Expr := do
  let signs ← eatWhile isSign
  allSigned signs (← p)

theorem signsThen_of_none (p : Parse Expr) {st : State}
    (h : ∀ t, st.ahead.head? = some t → isSign t = false) : signsThen p st = p st := by
  have hnone : eatWhile isSign st = .ok [] st := by
    obtain ⟨file, behind, ahead, nodes, frames, depth, methods, used, plain⟩ := st
    cases ahead with
    | nil => rfl
    | cons t ts =>
      have ht : isSign t = false := h t rfl
      simp only [eatWhile, List.takeWhile_cons, List.dropWhile_cons, ht]
      rfl
  rw [signsThen, bind_run hnone]
  exact congrFun (bind_pure p) st

theorem signsThen_cons (p : Parse Expr) {st : State} {op : Token} {ts : List Token}
    (hahead : st.ahead = op :: ts) (hop : isSign op = true) :
    signsThen p st =
      (signsThen p >>= signed op) { st with behind := op :: st.behind, ahead := ts } := by
  have hsigns : eatWhile isSign st = .ok (op :: ts.takeWhile isSign)
      { st with
        behind := (ts.takeWhile isSign).reverse ++ op :: st.behind
        ahead := ts.dropWhile isSign } := by
    simp only [eatWhile, hahead, List.takeWhile_cons, List.dropWhile_cons, hop, if_true,
      List.reverse_cons, List.append_assoc, List.singleton_append]
  have hmore : eatWhile isSign { st with behind := op :: st.behind, ahead := ts } =
      .ok (ts.takeWhile isSign)
        { st with
          behind := (ts.takeWhile isSign).reverse ++ op :: st.behind
          ahead := ts.dropWhile isSign } := rfl
  rw [signsThen, bind_run hsigns, bind_assoc, bind_run hmore, bind_assoc]
  rfl

theorem reads_signsThen_cons {p : Parse Expr} {symbol : UnaryOp} {a : Expr}
    (hfollows : symbol.followsOperand = false) (s : Site)
    (h : Reads (signsThen p) text rest i (Same a)) :
    Reads (signsThen p) ((.operator, symbol.symbol) :: text) rest i
      (Same (.unary s symbol a)) := by
  intro st hst
  obtain ⟨op, more, hahead, hface, hmore⟩ := hst.cons
  obtain ⟨hkind, hraw⟩ := raw_of_face hface fun _ => rfl
  have hop : isSign op = true := by
    rw [isSign, hkind, hraw]
    cases symbol <;> first | decide | cases hfollows
  have hready : State.Ready text rest i
      { st with behind := op :: st.behind, ahead := more ++ rest } :=
    ⟨⟨more, rfl, hmore⟩, hst.depth, hst.plain⟩
  obtain ⟨e, st', hrun, he, hreach⟩ :=
    (Reads.last h fun a ha => reads_signed hraw hfollows ha s) hready
  refine ⟨e, st', (signsThen_cons p hahead hop).trans hrun, he, ?_⟩
  obtain ⟨⟨run, hpass⟩, hrest, hdepth, hplain⟩ := hreach
  refine ⟨⟨op :: run, ?_, ?_⟩, hrest, hdepth, hplain⟩
  · rw [hahead, List.cons_append]
    exact congrArg (op :: ·) hpass.ahead
  · rw [hpass.behind, List.reverse_cons, List.append_assoc]
    rfl

theorem reads_signsThen {p : Parse Expr} {Q : Expr → Prop} (hbegins : Begins True text)
    (h : Reads p text rest i Q) : Reads (signsThen p) text rest i Q := by
  intro st hst
  obtain ⟨f, fs, rfl, -, hoperator⟩ := hbegins
  obtain ⟨t, more, hahead, hface, -⟩ := hst.cons
  rw [signsThen_of_none]
  · exact h hst
  · intro t' ht'
    rw [hahead] at ht'
    cases ht'
    have hkind : t.kind ≠ .operator := by
      rw [kind_of_face hface]
      exact hoperator trivial
    rw [isSign, beq_eq_false_iff_ne.2 hkind, Bool.false_and]

/-! ## Levels -/

def atLevel (inner : Parse Expr) : Nat → Parse Expr
  | 2 => powers inner
  | 3 => powerOperand inner
  | 4 => signedPowers inner
  | 5 => products inner
  | 6 => sums inner
  | 7 => ranges inner
  | 8 => comparisons inner
  | 9 => elemAnds inner
  | 10 => elemOrs inner
  | 11 => shortAnds inner
  | 12 | 13 => shortOrs inner
  | _ => operand inner

def chainLevels : List Nat := [2, 5, 6, 8, 9, 10, 11, 12]

theorem chainLevels_bounds {level : Nat} (h : level ∈ chainLevels) :
    2 ≤ level ∧ level ≠ 3 ∧ level ≠ 4 ∧ level ≠ 7 ∧ level ≤ 12 := by
  simp only [chainLevels, List.mem_cons, List.not_mem_nil, or_false] at h
  omega

theorem level_mem_chainLevels (op : BinaryOp) : op.level ∈ chainLevels := by
  cases op <;> decide

def roundAt (inner : Parse Expr) (level : Nat) : Expr → Parse (Round Expr Expr) :=
  if level = 2 then powersRound inner
  else binaryRound (symbolsAt level) (atLevel inner (level - 1))

theorem atLevel_chain {level : Nat} (h : level ∈ chainLevels) :
    atLevel inner level =
      (atLevel inner (level - 1) >>= fun e => rounds e (roundAt inner level)) := by
  simp only [chainLevels, List.mem_cons, List.not_mem_nil, or_false] at h
  rcases h with rfl | rfl | rfl | rfl | rfl | rfl | rfl | rfl <;> rfl

theorem reads_round_done {level : Nat} (h : level ∈ chainLevels) (hstops : Stops level rest)
    (e : Expr) :
    Reads (roundAt inner level e) [] rest i fun r => ∃ c, r = .done c ∧ c = e := by
  have hne : level ≠ 1 ∧ level ≠ 7 := by
    have hbounds := chainLevels_bounds h
    omega
  by_cases h₂ : level = 2
  · subst h₂
    refine .last (reads_eatOperator_none hstops hne (by decide)) fun found hfound => ?_
    subst hfound
    refine .last (reads_eatOperator_none hstops hne (by decide)) fun found hfound => ?_
    subst hfound
    exact .pure ⟨e, rfl, rfl⟩
  · rw [roundAt, if_neg h₂]
    refine .last (reads_eatOperator_none hstops hne fun _ hs => hs) fun found hfound => ?_
    subst hfound
    exact .pure ⟨e, rfl, rfl⟩

theorem reads_round_again {level : Nat} {op : BinaryOp} {a b lhs : Expr} (hop : op.level = level)
    (hlhs : Same a lhs) (s : Site)
    (hrhs : Reads (atLevel inner op.rightLevel) text rest i (Same b)) :
    Reads (roundAt inner level lhs) ((.operator, op.symbol) :: text) rest i
      fun r => ∃ c, r = .again c ∧ Same (.binary s op a b) c := by
  by_cases h₂ : level = 2
  · subst h₂
    have hsymbol : op.symbol ∈ ["^", ".^"] ∧ op.symbol ∉ ["'", ".'"] := by
      cases op <;> first | decide | cases hop
    have hright : op.rightLevel = 3 := if_pos hop
    rw [hright] at hrhs
    refine .after (fun more hmore => reads_eatOperator_other hmore hsymbol.2)
      fun more found _ hfound => ?_
    subst hfound
    refine .cons (fun _ _ => reads_eatOperator hsymbol.1) ?_
    rintro found ⟨t, rfl, hraw⟩
    refine .last hrhs fun rhs hrhs' => ?_
    exact .last (reads_binary hraw hlhs hrhs' s) fun e he => .pure ⟨e, rfl, he⟩
  · have hsymbol : op.symbol ∈ symbolsAt level := by
      subst hop
      cases op <;> decide
    have hright : op.rightLevel = level - 1 := by
      rw [BinaryOp.rightLevel, hop, if_neg h₂]
    rw [hright] at hrhs
    rw [roundAt, if_neg h₂]
    refine .cons (fun _ _ => reads_eatOperator hsymbol) ?_
    rintro found ⟨t, rfl, hraw⟩
    refine .last hrhs fun rhs hrhs' => ?_
    exact .last (reads_binary hraw hlhs hrhs' s) fun e he => .pure ⟨e, rfl, he⟩

theorem reads_round_transposed {op : UnaryOp} {a operand : Expr} (hop : op.followsOperand = true)
    (ha : Same a operand) (s : Site) :
    Reads (roundAt inner 2 operand) [(.operator, op.symbol)] rest i
      fun r => ∃ c, r = .again c ∧ Same (.unary s op a) c := by
  have hsymbol : op.symbol ∈ ["'", ".'"] := by
    cases op <;> first | decide | cases hop
  refine .cons (fun _ _ => reads_eatOperator hsymbol) ?_
  rintro found ⟨t, rfl, hraw⟩
  refine .last (reads_transposed hraw hop ha s) fun e he => .pure ⟨e, rfl, he⟩

/-! ## Ranges -/

theorem stops_before_colon {more : List Token} (h : more.map Token.face = (.colon, ":") :: text)
    (rest : List Token) : Stops 6 (more ++ rest) :=
  stops_of_faces h fun _ hl => goesOn_colon (Nat.lt_succ_of_le hl) ":"

section

variable {start stride stop : Expr} {first second last : List Face}

theorem reads_ranges_two (hstops : Stops 7 rest)
    (hstart : ∀ {rest}, Stops 6 rest → Reads (sums inner) first rest i (Same start))
    (hstop : ∀ {rest}, Stops 6 rest → Reads (sums inner) last rest i (Same stop)) (s : Site) :
    Reads (ranges inner) (first ++ (.colon, ":") :: last) rest i
      (Same (.range s start none stop)) := by
  refine .bind (fun _ hmore => hstart (stops_before_colon hmore rest)) fun _ start' _ hstart' => ?_
  refine .cons (fun _ _ => reads_eat .colon ":") ?_
  rintro found ⟨t, rfl, -⟩
  refine .last (hstop (hstops.mono (by decide))) fun stop' hstop' => ?_
  refine .last (reads_eat_colon_none hstops) fun found hfound => ?_
  subst hfound
  rw [if_neg (by decide), pure_bind]
  refine .last (reads_siteBetween _ _) fun site _ => .pure ?_
  rw [Same, Expr.bare, Expr.bare, hstart', hstop']

theorem reads_ranges_three (hstops : Stops 7 rest)
    (hstart : ∀ {rest}, Stops 6 rest → Reads (sums inner) first rest i (Same start))
    (hstride : ∀ {rest}, Stops 6 rest → Reads (sums inner) second rest i (Same stride))
    (hstop : ∀ {rest}, Stops 6 rest → Reads (sums inner) last rest i (Same stop)) (s : Site) :
    Reads (ranges inner) (first ++ (.colon, ":") :: (second ++ (.colon, ":") :: last)) rest i
      (Same (.range s start (some stride) stop)) := by
  refine .bind (fun _ hmore => hstart (stops_before_colon hmore rest)) fun _ start' _ hstart' => ?_
  refine .cons (fun _ _ => reads_eat .colon ":") ?_
  rintro found ⟨t, rfl, -⟩
  refine .bind (fun _ hmore => hstride (stops_before_colon hmore rest))
    fun _ stride' _ hstride' => ?_
  refine .cons (fun _ _ => reads_eat .colon ":") ?_
  rintro found ⟨t', rfl, -⟩
  refine .last (hstop (hstops.mono (by decide))) fun stop' hstop' => ?_
  rw [pure_bind]
  refine .last (reads_siteBetween _ _) fun site _ => .pure ?_
  rw [Same, Expr.bare, Expr.bare, hstart', hstride', hstop']

end

/-! ## Climbing -/

theorem reads_chain {level : Nat} {Q : Expr → Prop} (h : level ∈ chainLevels)
    (hstops : Stops level rest)
    (hspine : Spine (atLevel inner (level - 1)) (roundAt inner level) text rest i Q) :
    Reads (atLevel inner level) text rest i Q := by
  rw [atLevel_chain h]
  refine hspine.rounds fun e he => (reads_round_done h hstops e).mono ?_
  rintro r ⟨c, rfl, rfl⟩
  exact ⟨c, rfl, he⟩

theorem climb_once {level : Nat} {Q : Expr → Prop} (hlevel : 4 ≤ level) (htop : level < 13)
    (hstops : Stops (level + 1) rest) (h : Reads (atLevel inner level) text rest i Q) :
    Reads (atLevel inner (level + 1)) text rest i Q := by
  by_cases hrange : level = 6
  · subst hrange
    refine .last h fun start hstart => ?_
    refine .last (reads_eat_colon_none hstops) fun found hfound => ?_
    subst hfound
    exact .pure hstart
  · by_cases hlast : level = 12
    · subst hlast
      exact h
    · have hchain : level + 1 ∈ chainLevels := by
        simp only [chainLevels, List.mem_cons, List.not_mem_nil, or_false]
        omega
      exact reads_chain hchain hstops (.of_reads h)

theorem climb_ladder {level top : Nat} {Q : Expr → Prop} (hlevel : 4 ≤ level) (hle : level ≤ top)
    (htop : top ≤ 13) (hstops : Stops top rest) (h : Reads (atLevel inner level) text rest i Q) :
    Reads (atLevel inner top) text rest i Q := by
  induction top, hle using Nat.le_induction with
  | base => exact h
  | succ top hle ih =>
    exact climb_once (by omega) (by omega) hstops (ih (by omega) (hstops.mono (by omega)))

/-- What a tight level reads, a looser one reads as well, where nothing goes on with it. Signs
come in between, so the text of a power or of an operand must not begin with one. -/
theorem climb {level top : Nat} {Q : Expr → Prop} (hpos : 1 ≤ level) (hle : level ≤ top)
    (htop : top ≤ 13) (hlevel : level ≠ 3) (hne : top ≠ 3) (hbegins : Begins (level ≤ 2) text)
    (hstops : Stops top rest) (h : Reads (atLevel inner level) text rest i Q) :
    Reads (atLevel inner top) text rest i Q := by
  by_cases htight : level ≤ 2
  · have hbegins' : Begins True text := hbegins.mono fun _ => htight
    by_cases hone : top = 1
    · obtain rfl : level = top := by omega
      exact h
    have htwo : Reads (atLevel inner 2) text rest i Q := by
      by_cases hlevel₂ : level = 2
      · exact hlevel₂ ▸ h
      · obtain rfl : level = 1 := by omega
        exact reads_chain (by decide) (hstops.mono (by omega)) (.of_reads h)
    by_cases htop₂ : top = 2
    · exact htop₂ ▸ htwo
    · have hfour : Reads (atLevel inner 4) text rest i Q := reads_signsThen hbegins' htwo
      exact climb_ladder (Nat.le_refl 4) (by omega) htop hstops hfour
  · exact climb_ladder (by omega) hle htop hstops h

end Parse

end MFile.Grammar
