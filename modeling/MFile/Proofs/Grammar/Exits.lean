import MFile.Proofs.Grammar.Outcomes

/-!
Both ways out of a parse. What has been reached when a parse fails matters as much as what it gives
when it does not: the tokens that it has passed, the numbers that it has taken and what it
remembers are there for whoever goes on. There is one rule for each move, and where a move can fail
the rule asks for what is to hold there.
-/

namespace MFile.Grammar.Parse

variable {α β : Type} {s : State} {E : State → Prop}

/-- From `s` the parse gives something with `P`, or it fails in a state with `E`. -/
def Exits (p : Parse α) (s : State) (P : α → State → Prop) (E : State → Prop) : Prop :=
  match p s with
  | .ok a s' => P a s'
  | .error _ s' => E s'

namespace Exits

variable {p : Parse α} {f : α → Parse β} {P : α → State → Prop} {Q : β → State → Prop}

theorem of_run {a : α} {s' : State} (hp : p s = .ok a s') (h : P a s') : Exits p s P E := by
  rw [Exits, hp]
  exact h

theorem of_error {e : ParseError} {s' : State} (hp : p s = .error e s') (h : E s') :
    Exits p s P E := by
  rw [Exits, hp]
  exact h

theorem ok (h : Exits p s P E) {a : α} {s' : State} (hp : p s = .ok a s') : P a s' := by
  rw [Exits, hp] at h
  exact h

theorem error (h : Exits p s P E) {e : ParseError} {s' : State} (hp : p s = .error e s') :
    E s' := by
  rw [Exits, hp] at h
  exact h

theorem reached {R : State → Prop} (h : Exits p s (fun _ s' => R s') R) :
    R (Parse.reached (p s)) := by
  cases hp : p s with
  | ok a s' => exact h.ok hp
  | error e s' => exact h.error hp

theorem mono {P' : α → State → Prop} {E' : State → Prop} (h : Exits p s P E)
    (hP : ∀ a s', P a s' → P' a s') (hE : ∀ s', E s' → E' s') : Exits p s P' E' := by
  cases hp : p s with
  | ok a s' => exact .of_run hp (hP a s' (h.ok hp))
  | error e s' => exact .of_error hp (hE s' (h.error hp))

theorem and {P' : α → State → Prop} (h : Exits p s P E)
    (h' : ∀ a s', p s = .ok a s' → P' a s') : Exits p s (fun a s' => P a s' ∧ P' a s') E := by
  cases hp : p s with
  | ok a s' => exact .of_run hp ⟨h.ok hp, h' a s' hp⟩
  | error e s' => exact .of_error hp (h.error hp)

theorem pure {a : α} (h : P a s) : Exits (Pure.pure a) s P E := h

theorem bind (h : Exits p s P E) (hf : ∀ a mid, P a mid → Exits (f a) mid Q E) :
    Exits (p >>= f) s Q E := by
  cases hp : p s with
  | ok a mid =>
    rw [Exits, bind_run hp]
    exact hf a mid (h.ok hp)
  | error e mid => exact .of_error (bind_error hp f) (h.error hp)

theorem map {g : α → β} (h : Exits p s (fun a s' => Q (g a) s') E) : Exits (g <$> p) s Q E := by
  rw [map_eq_pure_bind]
  exact h.bind fun a mid ha => .pure ha

theorem step {a : α} {mid : State} (hp : p s = .ok a mid) (h : Exits (f a) mid Q E) :
    Exits (p >>= f) s Q E := by
  rw [Exits, bind_run hp]
  exact h

theorem discard_bind {f : Unit → Parse β} (h : Exits (p >>= fun _ => f ()) s Q E) :
    Exits (discard p >>= f) s Q E := by
  rw [discard, map_const, Function.comp_apply, bind_map_left]
  exact h

/-! ## Failures -/

theorem throw {e : ParseError} (h : E s) : Exits (MonadExcept.throw e : Parse α) s P E := h

theorem fail {l : Location} {cause : Cause} (h : E s) :
    Exits (Parse.fail l cause : Parse α) s P E :=
  .throw h

theorem failHere {cause : Option Token → Cause} (h : E s) :
    Exits (Parse.failHere cause : Parse α) s P E :=
  .step (here_run s) (.step rfl (.fail h))

theorem unexpected {what : Expectation} (h : E s) :
    Exits (Parse.unexpected what : Parse α) s P E :=
  .failHere h

theorem stalled (h : E s) : Exits (Parse.stalled : Parse α) s P E := .step (here_run s) (.throw h)

theorem stop (h : Exits p s (fun _ _ => False) E) : Exits (p >>= f) s Q E :=
  h.bind fun _ _ hfalse => hfalse.elim

/-! ## Looking -/

theorem get {f : State → Parse β} (h : Exits (f s) s Q E) :
    Exits (MonadState.get >>= f) s Q E :=
  .step rfl h

theorem current? {f : Option Token → Parse β} (hnone : s.ahead = [] → Exits (f none) s Q E)
    (hsome : ∀ t rest, s.ahead = t :: rest → Exits (f (some t)) s Q E) :
    Exits (Parse.current? >>= f) s Q E := by
  refine .step (current?_run s) ?_
  cases hahead : s.ahead with
  | nil => exact hnone hahead
  | cons t rest => exact hsome t rest hahead

theorem peekKind? {n : Nat} {f : Option Kind → Parse β}
    (h : Exits (f (s.ahead[n]?.map (·.kind))) s Q E) : Exits (Parse.peekKind? n >>= f) s Q E :=
  .step rfl h

theorem peekFirst? {f : Option Kind → Parse β} (hnone : s.ahead = [] → Exits (f none) s Q E)
    (hsome : ∀ t rest, s.ahead = t :: rest → Exits (f (some t.kind)) s Q E) :
    Exits (Parse.peekKind? 0 >>= f) s Q E := by
  refine .step (peekFirst?_run s) ?_
  cases hahead : s.ahead with
  | nil => exact hnone hahead
  | cons t rest => exact hsome t rest hahead

theorem check {kind : Kind} {f : Bool → Parse β}
    (h : ∀ b, (b = true → ∃ t rest, s.ahead = t :: rest ∧ t.kind = kind) → Exits (f b) s Q E) :
    Exits (Parse.check kind >>= f) s Q E :=
  .step (check_run kind s) (h _ exists_of_firstKind)

theorem checkWord {word : String} {f : Bool → Parse β} (h : ∀ b, Exits (f b) s Q E) :
    Exits (Parse.checkWord word >>= f) s Q E :=
  .step rfl (h _)

theorem atEnd {f : Bool → Parse β} (h : ∀ b, Exits (f b) s Q E) :
    Exits (Parse.atEnd >>= f) s Q E :=
  .step rfl (h _)

theorem here {f : Location → Parse β} (h : ∀ l, Exits (f l) s Q E) :
    Exits (Parse.here >>= f) s Q E :=
  .step (here_run s) (h _)

theorem spanFrom {start : Location} {f : Location → Parse β} (h : ∀ l, Exits (f l) s Q E) :
    Exits (Parse.spanFrom start >>= f) s Q E :=
  .step rfl (h _)

theorem wholeFile {f : Location → Parse β} (h : ∀ l, Exits (f l) s Q E) :
    Exits (Parse.wholeFile >>= f) s Q E :=
  .step rfl (h _)

/-! ## Changing the state -/

theorem modify {g : State → State} {f : Unit → Parse β} (h : Exits (f ()) (g s) Q E) :
    Exits (modify g >>= f) s Q E :=
  .step rfl h

theorem freshId {f : NodeId → Parse β} (h : ∀ id, Exits (f id) s.numbered Q E) :
    Exits (Parse.freshId >>= f) s Q E :=
  .step rfl (h _)

theorem siteAt {l : Location} {f : Site → Parse β} (h : ∀ site, Exits (f site) s.numbered Q E) :
    Exits (Parse.siteAt l >>= f) s Q E :=
  .step rfl (h _)

theorem siteFrom {start : Location} {f : Site → Parse β}
    (h : ∀ site, Exits (f site) s.numbered Q E) : Exits (Parse.siteFrom start >>= f) s Q E :=
  .step rfl (h _)

theorem siteBetween {first last : Location} {f : Site → Parse β}
    (h : ∀ site, Exits (f site) s.numbered Q E) :
    Exits (Parse.siteBetween first last >>= f) s Q E :=
  .step rfl (h _)

theorem eatWhile {q : Token → Bool} {f : List Token → Parse β}
    (h : ∀ taken rest, s.ahead = taken ++ rest → taken = s.ahead.takeWhile q →
      (∀ t ∈ rest.head?, q t = false) →
      Exits (f taken) { s with behind := taken.reverse ++ s.behind, ahead := rest } Q E) :
    Exits (Parse.eatWhile q >>= f) s Q E := by
  have hstop : ∀ t ∈ (s.ahead.dropWhile q).head?, q t = false := by
    intro t ht
    have hhead := List.head?_dropWhile_not q s.ahead
    rwa [Option.mem_def.1 ht] at hhead
  exact .step rfl (h (s.ahead.takeWhile q) (s.ahead.dropWhile q)
    List.takeWhile_append_dropWhile.symm rfl hstop)

theorem eatIf {q : Token → Bool} {f : Option Token → Parse β}
    (hsome : ∀ t rest, s.ahead = t :: rest → q t = true → Exits (f (some t)) (s.past t rest) Q E)
    (hnone : (∀ t ∈ s.ahead.head?, q t = false) → Exits (f none) s Q E) :
    Exits (Parse.eatIf q >>= f) s Q E := by
  obtain ⟨t, rest, hahead, hq, hrun⟩ | ⟨hq, hrun⟩ := eatIf_cases q s
  · exact .step hrun (hsome t rest hahead hq)
  · exact .step hrun (hnone hq)

theorem eat {kind : Kind} {f : Option Token → Parse β}
    (hsome : ∀ t rest, s.ahead = t :: rest → t.kind = kind → Exits (f (some t)) (s.past t rest) Q E)
    (hnone : (∀ t ∈ s.ahead.head?, t.kind ≠ kind) → Exits (f none) s Q E) :
    Exits (Parse.eat kind >>= f) s Q E :=
  .eatIf (fun t rest hahead ht => hsome t rest hahead (beq_iff_eq.1 ht)) fun h =>
    hnone fun t ht => by simpa using h t ht

theorem eatOperator {symbols : List String} {f : Option Token → Parse β}
    (hsome : ∀ t rest, s.ahead = t :: rest → t.kind = .operator → t.raw ∈ symbols →
      Exits (f (some t)) (s.past t rest) Q E)
    (hnone : (∀ t ∈ s.ahead.head?, t.kind = .operator → t.raw ∉ symbols) → Exits (f none) s Q E) :
    Exits (Parse.eatOperator symbols >>= f) s Q E := by
  refine .eatIf (fun t rest hahead ht => ?_) fun h => hnone fun t ht hkind hmem => ?_
  · rw [Bool.and_eq_true, beq_iff_eq] at ht
    exact hsome t rest hahead ht.1 (List.contains_iff_mem.1 ht.2)
  · have hno := h t ht
    rw [hkind, List.contains_iff_mem.2 hmem] at hno
    cases hno

theorem advance {t : Token} {rest : List Token} {f : Unit → Parse β} (hahead : s.ahead = t :: rest)
    (h : Exits (f ()) (s.past t rest) Q E) : Exits (Parse.advance >>= f) s Q E :=
  .step (advance_run hahead) h

theorem expect {kind : Kind} {what : Expectation} {f : Token → Parse β} (hE : E s)
    (h : ∀ t rest, s.ahead = t :: rest → t.kind = kind → Exits (f t) (s.past t rest) Q E) :
    Exits (Parse.expect kind what >>= f) s Q E := by
  rw [Parse.expect, bind_assoc]
  exact .eat h fun _ => .stop (.unexpected hE)

theorem bracketed {change : State → State} {undo : State → State → State}
    (h : Exits p (change s) (fun a s' => P a (undo s s')) fun s' => E (undo s s')) :
    Exits (Parse.bracketed change undo p) s P E := by
  cases hp : p (change s) with
  | ok a s' => exact .of_run (by rw [Parse.bracketed, hp]) (h.ok hp)
  | error e s' => exact .of_error (by rw [Parse.bracketed, hp]) (h.error hp)

/-! ## Repetitions -/

section Rounds

variable {body : α → Parse (Round α β)} {I : α → State → Prop}

theorem roundsWithin (hE : ∀ a st, I a st → E st)
    (hbody : ∀ a st, I a st → Exits (body a) st (Leaves I Q) E) (fuel : Nat) {a : α} (hI : I a s) :
    Exits (Parse.roundsWithin body fuel a) s Q E := by
  induction fuel generalizing a s with
  | zero => exact .stalled (hE a s hI)
  | succ fuel ih =>
    refine (hbody a s hI).bind fun r mid hr => ?_
    cases r with
    | again a' => exact ih hr
    | done b => exact .pure hr

theorem rounds {a : α} (hI : I a s) (hE : ∀ a st, I a st → E st)
    (hbody : ∀ a st, I a st → Exits (body a) st (Leaves I Q) E) :
    Exits (Parse.rounds a body) s Q E := by
  refine (hbody a s hI).bind fun r mid hr => ?_
  cases r with
  | again a' => exact .get (.roundsWithin hE hbody _ hr)
  | done b => exact .pure hr

end Rounds

theorem mapM {g : α → Parse β} {I : Nat → State → Prop} (as : List α) {n : Nat}
    (hI : I (as.length + n) s)
    (hg : ∀ a ∈ as, ∀ n st, I (n + 1) st → Exits (g a) st (fun _ st' => I n st') E) :
    Exits (as.mapM g) s (fun _ s' => I n s') E := by
  induction as generalizing s with
  | nil => exact .pure (by simpa using hI)
  | cons a as ih =>
    obtain ⟨ha, has⟩ := List.forall_mem_cons.1 hg
    rw [List.mapM_cons]
    refine (ha (as.length + n) s (by simpa [Nat.add_right_comm] using hI)).bind fun b mid hmid => ?_
    exact (ih hmid has).bind fun bs mid' hmid' => .pure hmid'

end Exits

end MFile.Grammar.Parse
