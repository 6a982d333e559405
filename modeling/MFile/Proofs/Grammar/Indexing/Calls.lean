import MFile.Proofs.Grammar.Indexing.Expression
import MFile.Proofs.Grammar.Onward.Expression

/-!
One parser that is asked for expressions again and again, also behind one that it has failed to
read. All that it still knows of what it has read is how many argument lists are open: each call
that fails adds those that it leaves open, and while there are any `end` and a lone colon are read
as values, outside of any list.
-/

namespace MFile.Grammar

/-- A parser at some tokens, of which it has passed none. -/
def State.freshAt (file : String) (ahead : List Token) : State := { file, ahead }

theorem State.eq_freshAt {s : State} (hframes : s.frames = []) (hmethods : s.methodDepth = 0)
    (hends : s.endUsed = false) (hplain : s.placeholders = false) :
    s = { freshAt s.file s.ahead with
      behind := s.behind, nodes := s.nodes, indexDepth := s.indexDepth } := by
  cases s
  cases hframes
  cases hmethods
  cases hends
  cases hplain
  rfl

namespace Parse

variable {s : State} {t : Token} {rest : List Token} {p q r inner : Parse Expr}

/-! ## One call -/

def passedBy (s : State) : List Token :=
  s.ahead.take (s.ahead.length - (reached (expression s)).ahead.length)

structure Called (s s' : State) (run : List Token) (lists : Nat) : Prop where
  passes : s.Passes run s'
  indexDepth : s'.indexDepth = s.indexDepth + lists
  file : s'.file = s.file
  frames : s'.frames = s.frames
  methodDepth : s'.methodDepth = s.methodDepth
  endUsed : s'.endUsed = s.endUsed
  placeholders : s.placeholders = false → s'.placeholders = false

theorem passedBy_of_passes {run : List Token} (h : s.Passes run (reached (expression s))) :
    passedBy s = run := by
  rw [passedBy, h.ahead, List.length_append, Nat.add_sub_cancel]
  exact List.take_left

theorem called_of_stands {n : Nest} {d : Nat} (h : Stands s d n (reached (expression s)))
    (hd : d = s.indexDepth + listsAmong n.layers.reverse) :
    Called s (reached (expression s)) (passedBy s) (openLists (passedBy s)) ∧
      openLists (passedBy s) = listsAmong n.layers.reverse := by
  obtain ⟨run, hpasses, hn⟩ := h.run
  rw [passedBy_of_passes hpasses, openLists, hn]
  refine ⟨?_, rfl⟩
  exact ⟨hpasses, h.indexDepth.trans hd, h.file, h.frames, h.methodDepth, h.endUsed, h.placeholders⟩

theorem listsAmong_around {inner : List Layer} {top : Layer} (htop : top.enclosure = .group) :
    listsAmong (inner ++ [top]).reverse = listsAmong inner.reverse := by
  rw [List.reverse_append, List.reverse_singleton, List.singleton_append, listsAmong, htop]

theorem called_expression (s : State) :
    Called s (reached (expression s)) (passedBy s) (openLists (passedBy s)) ∧
      (succeeds expression s = true → openLists (passedBy s) = 0) := by
  have hcall := loose_expression (Stands.refl s)
  cases hrun : expression s with
  | ok e s' =>
    have hreached : reached (expression s) = s' := by rw [hrun]; rfl
    obtain ⟨⟨n, ⟨bodies, last, hstands, -, hstuck⟩, -⟩, -⟩ := hcall.ok hrun
    have hnone :
        listsAmong (bodies ++ [{ enclosure := .group, colons := n : Layer }]).reverse = 0 := by
      rw [listsAmong_around rfl]
      exact listsAmong_bodies fun b hb => hstuck.body b (List.mem_reverse.1 hb)
    rw [← hreached] at hstands
    have hcalled := called_of_stands hstands (by rw [hnone]; rfl)
    rw [hreached] at hcalled
    exact ⟨hcalled.1, fun _ => hcalled.2.trans hnone⟩
  | error e s' =>
    have hreached : reached (expression s) = s' := by rw [hrun]; rfl
    obtain ⟨inner, top, last, htop, hstands⟩ := hcall.error hrun
    rw [← hreached] at hstands
    have hcalled := called_of_stands hstands (by rw [listsAmong_around htop])
    rw [hreached] at hcalled
    refine ⟨hcalled.1, fun hok => ?_⟩
    rw [succeeds, hrun] at hok
    cases hok

/-- Behind `f(@() g(` only the list around the lambda counts. -/
example : openLists [plainToken .identifier "f", plainToken .lparen "(", plainToken .handle "@",
    plainToken .lparen "(", plainToken .rparen ")", plainToken .identifier "g",
    plainToken .lparen "("] = 1 := by decide

/-! ## The first operand of a call -/

def Begins (p q : Parse Expr) : Prop := ∃ k : Expr → Parse Expr, (∀ e, MovesOn (k e)) ∧ p = q >>= k

theorem Begins.refl (p : Parse Expr) : Begins p p := ⟨pure, fun _ => .done, (bind_pure p).symm⟩

theorem Begins.then (h : Begins p q) {k : Expr → Parse Expr} (hk : ∀ e, MovesOn (k e)) :
    Begins (p >>= k) q := by
  obtain ⟨k', hk', rfl⟩ := h
  exact ⟨fun e => k' e >>= k, fun e => (hk' e).bind hk, bind_assoc _ _ _⟩

theorem Begins.level (h : Begins p q) (hq : MovesOn q) (symbols : List String) :
    Begins (binaryLevel symbols p) q := by
  have hp : MovesOn p := by
    obtain ⟨k, hk, rfl⟩ := h
    exact hq.bind hk
  exact h.then fun _ => .rounds (onward_binaryRound hp symbols)

theorem begins_shortOrs (hinner : MovesOn inner) :
    Begins (shortOrs inner) (signedPowers inner) := by
  have hsigned : MovesOn (signedPowers inner) := onward_signed (onward_powers hinner)
  have hsums : Begins (sums inner) (signedPowers inner) :=
    ((Begins.refl _).level hsigned _).level hsigned _
  have hranges : Begins (ranges inner) (signedPowers inner) := by
    rw [ranges_eq]
    exact hsums.then (onward_rangeBehind hinner)
  exact ((((hranges.level hsigned _).level hsigned _).level hsigned _).level hsigned _).level
    hsigned _

theorem bind_run_congr {α β : Type} {p q : Parse α} (h : p s = q s) (k : α → Parse β) :
    (p >>= k) s = (q >>= k) s := by
  change EStateM.bind p k s = EStateM.bind q k s
  rw [EStateM.bind, EStateM.bind, h]

theorem expression_operand (hsign : ∀ t ∈ s.ahead.head?, isSign t = false) :
    ∃ k : Expr → Parse Expr, (∀ e, MovesOn (k e)) ∧
      expression s = (operand expression >>= k) s := by
  have hnone : eatWhile isSign s = .ok [] s := by
    have htaken : s.ahead.takeWhile isSign = [] ∧ s.ahead.dropWhile isSign = s.ahead := by
      cases hahead : s.ahead with
      | nil => exact ⟨rfl, rfl⟩
      | cons t rest =>
        have ht := hsign t (by rw [hahead]; rfl)
        simp [ht]
    rw [eatWhile, htaken.1, htaken.2]
    rfl
  obtain ⟨k, hk, heq⟩ := begins_shortOrs onward_expression
  refine ⟨fun e => (rounds e (powersRound expression) >>= fun e => allSigned [] e) >>= k,
    fun e => ?_, ?_⟩
  · exact ((Onward.rounds (onward_powersRound onward_expression)).bind
      (onward_allSigned [])).bind hk
  · have hsigned : signedPowers expression s = (powers expression >>= fun e => allSigned [] e) s :=
      bind_run hnone _
    calc expression s = (signedPowers expression >>= k) s := congrFun (expression_eq.trans heq) s
      _ = ((powers expression >>= fun e => allSigned [] e) >>= k) s := bind_run_congr hsigned k
      _ = _ := by simp only [powers, bind_assoc]

/-! ## Values of an index -/

def IndexValue (t : Token) (next : Option Kind) : Prop :=
  t.isWord "end" = true ∨ t.kind = .colon ∧ closesArgument next = true

theorem atom?_indexValue {next : Option Kind} (h : IndexValue t next) :
    atom? false t next = none ∧ (atom? true t next).isSome = true := by
  obtain hword | ⟨hkind, hnext⟩ := h
  · rw [Token.isWord, Bool.and_eq_true, beq_iff_eq, beq_iff_eq] at hword
    simp [atom?, hword.1, hword.2]
  · simp [atom?, hkind, hnext]

theorem isSign_indexValue {next : Option Kind} (h : IndexValue t next) : isSign t = false := by
  obtain hword | ⟨hkind, -⟩ := h
  · rw [Token.isWord, Bool.and_eq_true, beq_iff_eq] at hword
    simp [isSign, hword.1]
  · simp [isSign, hkind]

theorem operand_outside (hahead : s.ahead = t :: rest)
    (hvalue : IndexValue t (rest.head?.map (·.kind))) (hdepth : s.indexDepth = 0) :
    ∃ e, operand inner s = .error e s := by
  have hno : Exits (operand inner) s (fun _ _ => False) (· = s) := by
    refine .current? (fun _ => .unexpected rfl) fun u more hmore => .get (.peekKind? ?_)
    obtain ⟨rfl, rfl⟩ := List.cons.inj (hahead.symm.trans hmore)
    have hnext : s.ahead[1]? = rest.head? := by rw [hahead, List.head?_eq_getElem?]; rfl
    rw [hdepth, hnext, decide_eq_false (Nat.lt_irrefl 0), (atom?_indexValue hvalue).1]
    have hkind : t.kind = .keyword ∨ t.kind = .colon := by
      obtain hword | ⟨hkind, -⟩ := hvalue
      · rw [Token.isWord, Bool.and_eq_true, beq_iff_eq] at hword
        exact .inl hword.1
      · exact .inr hkind
    dsimp only
    obtain hkind | hkind := hkind <;> rw [compound, hkind] <;> exact .unexpected rfl
  cases hrun : operand inner s with
  | ok e s' => exact (hno.ok hrun).elim
  | error e s' => exact ⟨e, by rw [hno.error hrun]⟩

theorem operand_inside (hahead : s.ahead = t :: rest)
    (hvalue : IndexValue t (rest.head?.map (·.kind))) (hdepth : 0 < s.indexDepth) :
    ∃ e s', operand inner s = .ok e s' ∧ s'.ahead = rest := by
  have hyes : Exits (operand inner) s (fun _ s' => s'.ahead = rest) (fun _ => False) := by
    refine .current? (fun hnone => by rw [hahead] at hnone; cases hnone) fun u more hmore =>
      .get (.peekKind? ?_)
    obtain ⟨rfl, rfl⟩ := List.cons.inj (hahead.symm.trans hmore)
    have hnext : s.ahead[1]? = rest.head? := by rw [hahead, List.head?_eq_getElem?]; rfl
    obtain ⟨make, hmake⟩ := Option.isSome_iff_exists.1 (atom?_indexValue hvalue).2
    rw [hnext, decide_eq_true hdepth, hmake]
    exact .advance hahead (.siteAt fun _ => .pure rfl)
  cases hrun : operand inner s with
  | ok e s' => exact ⟨e, s', rfl, hyes.ok hrun⟩
  | error e s' => exact (hyes.error hrun).elim

theorem reached_indexValue (hahead : s.ahead = t :: rest)
    (hvalue : IndexValue t (rest.head?.map (·.kind))) :
    (reached (expression s)).ahead = s.ahead ↔ s.indexDepth = 0 := by
  have hsign : ∀ u ∈ s.ahead.head?, isSign u = false := by
    rw [hahead]
    rintro u ⟨⟩
    exact isSign_indexValue hvalue
  obtain ⟨k, hk, hrun⟩ := expression_operand hsign
  rw [hrun]
  constructor
  · intro hsame
    by_contra hdepth
    obtain ⟨e, mid, hoperand, hmid⟩ := operand_inside hahead hvalue (Nat.pos_of_ne_zero hdepth)
    obtain ⟨run, hpasses⟩ := (hk e mid).1
    rw [bind_run hoperand, hahead] at hsame
    have hlength := congrArg List.length (hmid.symm.trans hpasses.ahead)
    rw [hsame, List.length_append, List.length_cons] at hlength
    omega
  · intro hdepth
    obtain ⟨e, hoperand⟩ : ∃ e, operand expression s = .error e s :=
      operand_outside hahead hvalue hdepth
    rw [bind_error hoperand]
    rfl

/-! ## One call after the other -/

/-- The state after `n` calls on one parser, each of which goes on where the one before stopped. -/
def afterCalls : Nat → State → State
  | 0, s => s
  | n + 1, s => afterCalls n (reached (expression s))

def passedByCalls : Nat → State → List Token
  | 0, _ => []
  | n + 1, s => passedBy s ++ passedByCalls n (reached (expression s))

def leftOpen : Nat → State → Nat
  | 0, _ => 0
  | n + 1, s => openLists (passedBy s) + leftOpen n (reached (expression s))

theorem called_afterCalls (n : Nat) (s : State) :
    Called s (afterCalls n s) (passedByCalls n s) (leftOpen n s) := by
  induction n generalizing s with
  | zero => exact ⟨.refl s, rfl, rfl, rfl, rfl, rfl, id⟩
  | succ n ih =>
    have hfirst := (called_expression s).1
    have hrest := ih (reached (expression s))
    refine ⟨hfirst.passes.trans hrest.passes, ?_, hrest.file.trans hfirst.file,
      hrest.frames.trans hfirst.frames, hrest.methodDepth.trans hfirst.methodDepth,
      hrest.endUsed.trans hfirst.endUsed, fun h => hrest.placeholders (hfirst.placeholders h)⟩
    show (afterCalls n _).indexDepth = s.indexDepth + (openLists (passedBy s) + leftOpen n _)
    rw [hrest.indexDepth, hfirst.indexDepth, Nat.add_assoc]

/-- What `n` calls from `start` leave to the next one, which begins in `s`. -/
structure NextCall (start : State) (n : Nat) (s : State) : Prop where
  /-- Beside its place and the next number, all that it knows of them is how many lists they have
  left open. -/
  state : s = { State.freshAt start.file s.ahead with
    behind := (passedByCalls n start).reverse
    nodes := s.nodes
    indexDepth := leftOpen n start }
  view : start.ahead = passedByCalls n start ++ s.ahead
  /-- Whether it fails or not, it keeps the frames and adds the lists that it leaves open. -/
  frames : (reached (expression s)).frames = s.frames
  indexDepth : (reached (expression s)).indexDepth = s.indexDepth + openLists (passedBy s)
  /-- Only a call that fails leaves a list open. -/
  success : succeeds expression s = true → openLists (passedBy s) = 0
  /-- A parser that is made at `end` or at a lone colon fails there, and this one does so if and
  only if no list has been left open. -/
  value : ∀ t rest, s.ahead = t :: rest → IndexValue t (rest.head?.map (·.kind)) →
    (reached (expression (State.freshAt start.file s.ahead))).ahead = s.ahead ∧
      ((reached (expression s)).ahead = s.ahead ↔ leftOpen n start = 0)

/-- Calls that have failed change how a parser goes on exactly by the argument lists that they have
left open, outside of the bodies of lambdas and of fields. -/
theorem nextCall_afterCalls (file : String) (tokens : List Token) (n : Nat) :
    NextCall (State.ofTokens file tokens) n (afterCalls n (State.ofTokens file tokens)) := by
  have hcalls := called_afterCalls n (State.ofTokens file tokens)
  have hnext := called_expression (afterCalls n (State.ofTokens file tokens))
  have hdepth : (afterCalls n (State.ofTokens file tokens)).indexDepth =
      leftOpen n (State.ofTokens file tokens) := hcalls.indexDepth.trans (Nat.zero_add _)
  refine ⟨?_, hcalls.passes.ahead, hnext.1.frames, hnext.1.indexDepth, hnext.2,
    fun t rest hahead hvalue => ⟨?_, ?_⟩⟩
  · have hbehind := hcalls.passes.behind.trans (List.append_nil _)
    have hfile : (State.ofTokens file tokens).file = _ := hcalls.file.symm
    rw [← hbehind, ← hdepth, hfile]
    exact State.eq_freshAt hcalls.frames hcalls.methodDepth hcalls.endUsed (hcalls.placeholders rfl)
  · exact (reached_indexValue (s := State.freshAt _ _) hahead hvalue).2 rfl
  · rw [← hdepth]
    exact reached_indexValue hahead hvalue

/-- A list that is left open: `end` behind `f(1` is a value to the parser that has failed there. -/
theorem expression_leavesOpen :
    let s := State.ofTokens "f.m" [plainToken .identifier "f", plainToken .lparen "(",
      plainToken .number "1", plainToken .keyword "end"]
    let s' := reached (expression s)
    succeeds expression s = false ∧ s.indexDepth = 0 ∧ s'.indexDepth = 1 ∧
      succeeds expression s' = true ∧
      succeeds expression (State.freshAt "f.m" s'.ahead) = false := by
  decide +kernel

end Parse

end MFile.Grammar
