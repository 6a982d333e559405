import Mathlib.Data.List.TakeWhile
import MFile.Grammar.Expr

/-!
What a run of a parse says about the tokens. A run that ends well has passed some tokens, which
were ahead and now lie behind; what runs one after the other pass stands one after the other.
-/

namespace MFile.Grammar

/-- A token of a text that is not at hand. -/
def plainToken (kind : Kind) (raw : String) : Token :=
  { kind := kind, raw := raw, location := { file := "" }, span := ⟨0, 0⟩ }

/-- From `st` to `st'` the tokens of `run` are passed, in order, and no others. -/
structure State.Passes (st : State) (run : List Token) (st' : State) : Prop where
  ahead : st.ahead = run ++ st'.ahead
  behind : st'.behind = run.reverse ++ st.behind

namespace State.Passes

variable {st mid st' : State} {t : Token} {a b : List Token}

theorem refl (st : State) : st.Passes [] st := ⟨rfl, rfl⟩

theorem trans (h : st.Passes a mid) (h' : mid.Passes b st') : st.Passes (a ++ b) st' := by
  constructor
  · rw [h.ahead, h'.ahead, List.append_assoc]
  · rw [h'.behind, h.behind, List.reverse_append, List.append_assoc]

theorem head (h : st.Passes (t :: a) st') : st.ahead.head? = some t := by
  rw [h.ahead]
  rfl

theorem split (h : st.Passes (t :: a) st') : ∃ mid, st.Passes [t] mid ∧ mid.Passes a st' := by
  refine ⟨{ st with ahead := a ++ st'.ahead, behind := t :: st.behind }, ⟨h.ahead, rfl⟩, rfl, ?_⟩
  rw [h.behind, List.reverse_cons, List.append_assoc]
  rfl

end State.Passes

namespace Parse

variable {α β : Type} {st st' : State}

/-! ## Steps and rounds -/

theorem bind_ok {x : Parse α} {f : α → Parse β} {b : β} (h : (x >>= f) st = .ok b st') :
    ∃ a mid, x st = .ok a mid ∧ f a mid = .ok b st' := by
  change EStateM.bind x f st = _ at h
  rw [EStateM.bind] at h
  split at h
  · rename_i a mid hx
    exact ⟨a, mid, hx, h⟩
  · cases h

theorem bind_run {x : Parse α} {a : α} {mid : State} (h : x st = .ok a mid) (f : α → Parse β) :
    (x >>= f) st = f a mid := by
  change EStateM.bind x f st = _
  rw [EStateM.bind, h]

theorem bind_error {x : Parse α} {e : ParseError} (h : x st = .error e st') (f : α → Parse β) :
    (x >>= f) st = .error e st' := by
  change EStateM.bind x f st = _
  rw [EStateM.bind, h]

theorem pure_ok {a b : α} (h : (pure a : Parse α) st = .ok b st') : b = a ∧ st' = st := by
  cases h
  exact ⟨rfl, rfl⟩

theorem throw_ok {e : ParseError} {b : α} : (throw e : Parse α) st ≠ .ok b st' := nofun

theorem fail_ok {l : Location} {cause : Cause} {b : α} :
    (fail l cause : Parse α) st ≠ .ok b st' := nofun

theorem failHere_ok {cause : Option Token → Cause} {b : α} :
    (failHere cause : Parse α) st ≠ .ok b st' := by
  intro h
  obtain ⟨_, _, -, h⟩ := bind_ok h
  obtain ⟨_, _, -, h⟩ := bind_ok h
  exact fail_ok h

theorem unexpected_ok {what : Expectation} {b : α} :
    (unexpected what : Parse α) st ≠ .ok b st' :=
  failHere_ok

theorem stalled_ok {b : α} : (stalled : Parse α) st ≠ .ok b st' := by
  intro h
  obtain ⟨_, _, -, h⟩ := bind_ok h
  exact throw_ok h

def succeeds (x : Parse α) (st : State) : Bool :=
  match x st with
  | .ok .. => true
  | .error .. => false

theorem exists_ok {x : Parse α} (h : succeeds x st = true) : ∃ a st', x st = .ok a st' := by
  rw [succeeds] at h
  cases hx : x st with
  | ok a st' => exact ⟨a, st', rfl⟩
  | error e st' =>
    rw [hx] at h
    cases h

section Rounds

variable {body : α → Parse (Round α β)} {I : α → State → Prop} {Q : β → State → Prop}

def Leaves (I : α → State → Prop) (Q : β → State → Prop) : Round α β → State → Prop
  | .again a, st => I a st
  | .done b, st => Q b st

def Keeps (body : α → Parse (Round α β)) (I : α → State → Prop) (Q : β → State → Prop) : Prop :=
  ∀ ⦃a st r st'⦄, I a st → body a st = .ok r st' → Leaves I Q r st'

theorem Keeps.roundsWithin (hbody : Keeps body I Q) {fuel : Nat} {a : α} {b : β} (hI : I a st)
    (h : roundsWithin body fuel a st = .ok b st') : Q b st' := by
  induction fuel generalizing a st with
  | zero => exact absurd h stalled_ok
  | succ fuel ih =>
    obtain ⟨r, mid, hr, h⟩ := bind_ok h
    have hround := hbody hI hr
    cases r with
    | again a' => exact ih hround h
    | done b' =>
      obtain ⟨rfl, rfl⟩ := pure_ok h
      exact hround

theorem Keeps.rounds (hbody : Keeps body I Q) {a : α} {b : β} (hI : I a st)
    (h : rounds a body st = .ok b st') : Q b st' := by
  obtain ⟨r, mid, hr, h⟩ := bind_ok h
  have hround := hbody hI hr
  cases r with
  | again a' =>
    obtain ⟨_, _, hget, h⟩ := bind_ok h
    cases hget
    exact hbody.roundsWithin hround h
  | done b' =>
    obtain ⟨rfl, rfl⟩ := pure_ok h
    exact hround

end Rounds

/-! ## Moves -/

theorem current?_run (st : State) : current? st = .ok st.ahead.head? st :=
  congrArg (EStateM.Result.ok · st) List.head?_eq_getElem?.symm

theorem peekFirst?_run (st : State) :
    peekKind? 0 st = .ok (st.ahead.head?.map (·.kind)) st :=
  congrArg (EStateM.Result.ok · st) (by rw [List.head?_eq_getElem?])

theorem check_run (kind : Kind) (st : State) :
    check kind st = .ok (st.ahead.head?.map (·.kind) == some kind) st :=
  congrArg (EStateM.Result.ok · st) (by rw [List.head?_eq_getElem?])

theorem checkWord_run (word : String) (st : State) :
    checkWord word st = .ok (st.ahead.head?.any (·.isWord word)) st :=
  congrArg (EStateM.Result.ok · st) (by rw [List.head?_eq_getElem?])

theorem eatIf_head {p : Token → Bool} {t : Token} {l : List Token} (h : st.ahead = t :: l) :
    eatIf p st = if p t then .ok (some t) { st with behind := t :: st.behind, ahead := l }
      else .ok none st := by
  simp only [eatIf, h]

theorem eatIf_skip {p : Token → Bool} (h : ∀ t ∈ st.ahead.head?, p t = false) :
    eatIf p st = .ok none st := by
  cases hahead : st.ahead with
  | nil => simp only [eatIf, hahead]
  | cons t l => rw [eatIf_head hahead, h t (by rw [hahead]; rfl), if_neg Bool.false_ne_true]

theorem eatIf_cases (p : Token → Bool) (st : State) :
    (∃ t l, st.ahead = t :: l ∧ p t = true ∧
      eatIf p st = .ok (some t) { st with behind := t :: st.behind, ahead := l }) ∨
    (∀ t ∈ st.ahead.head?, p t = false) ∧ eatIf p st = .ok none st := by
  by_cases hnone : ∀ t ∈ st.ahead.head?, p t = false
  · exact .inr ⟨hnone, eatIf_skip hnone⟩
  · cases hahead : st.ahead with
    | nil => simp [hahead] at hnone
    | cons t l =>
      have ht : p t = true := by simpa [hahead] using hnone
      exact .inl ⟨t, l, rfl, ht, (eatIf_head hahead).trans (if_pos ht)⟩

theorem advance_run {t : Token} {l : List Token} (h : st.ahead = t :: l) :
    advance st = .ok () { st with behind := t :: st.behind, ahead := l } :=
  bind_run (x := eatIf fun _ => true) ((eatIf_head h).trans (if_pos rfl)) _

theorem exists_of_firstKind {kind : Kind}
    (h : (st.ahead.head?.map (·.kind) == some kind) = true) :
    ∃ t l, st.ahead = t :: l ∧ t.kind = kind := by
  cases hahead : st.ahead with
  | nil => simp [hahead] at h
  | cons t l => exact ⟨t, l, rfl, by simpa [hahead] using h⟩

theorem skipSeparators_still (h : ∀ t ∈ st.ahead.head?, t.isSeparator = false) :
    skipSeparators st = .ok () st := by
  have hsplit : st.ahead.takeWhile (·.isSeparator) = [] ∧
      st.ahead.dropWhile (·.isSeparator) = st.ahead := by
    cases hahead : st.ahead with
    | nil => exact ⟨rfl, rfl⟩
    | cons t ts =>
      have ht : t.isSeparator = false := h t (by rw [hahead]; rfl)
      simp [ht]
  have hskip : eatWhile (·.isSeparator) st = .ok [] st := by
    rw [eatWhile, hsplit.1, hsplit.2]
    rfl
  exact bind_run hskip fun _ => pure ()

theorem peekKind?_ok {n : Nat} {k : Option Kind} (h : peekKind? n st = .ok k st') :
    k = st.ahead[n]?.map (·.kind) ∧ st' = st := by
  cases h
  exact ⟨rfl, rfl⟩

theorem check_ok {kind : Kind} {b : Bool} (h : check kind st = .ok b st') :
    b = (st.ahead[0]?.map (·.kind) == some kind) ∧ st' = st := by
  cases h
  exact ⟨rfl, rfl⟩

theorem current?_ok {t : Option Token} (h : current? st = .ok t st') :
    t = st.ahead.head? ∧ st' = st := by
  cases h
  exact ⟨List.head?_eq_getElem?.symm, rfl⟩

theorem eatIf_some {p : Token → Bool} {t : Token} (h : eatIf p st = .ok (some t) st') :
    p t = true ∧ st.Passes [t] st' := by
  rw [eatIf] at h
  split at h
  · cases h
  · rename_i t' rest hahead
    split at h
    · rename_i hp
      cases h
      exact ⟨hp, hahead, rfl⟩
    · cases h

theorem eatIf_none {p : Token → Bool} (h : eatIf p st = .ok none st') :
    st' = st ∧ ∀ t, st.ahead.head? = some t → p t = false := by
  rw [eatIf] at h
  split at h
  · rename_i hahead
    cases h
    simp [hahead]
  · rename_i t rest hahead
    split at h
    · cases h
    · rename_i hp
      cases h
      refine ⟨rfl, fun t' ht' => ?_⟩
      rw [hahead] at ht'
      cases ht'
      simpa using hp

theorem eatWhile_ok {p : Token → Bool} {run : List Token} (h : eatWhile p st = .ok run st') :
    (∀ t ∈ run, p t = true) ∧ st.Passes run st' := by
  cases h
  exact ⟨fun t ht => List.mem_takeWhile_imp ht, List.takeWhile_append_dropWhile.symm, rfl⟩

theorem advance_ok {u : Unit} {t : Token} (hhead : st.ahead.head? = some t)
    (h : advance st = .ok u st') : st.Passes [t] st' := by
  obtain ⟨found, mid, heat, h⟩ := bind_ok (x := eatIf fun _ => true) h
  obtain ⟨-, rfl⟩ := pure_ok h
  cases found with
  | none => exact nomatch (eatIf_none heat).2 t hhead
  | some t' =>
    obtain ⟨-, hpass⟩ := eatIf_some heat
    cases hhead.symm.trans hpass.head
    exact hpass

theorem advance_kind {u : Unit} {kind : Kind} (hkind : st.ahead[0]?.map (·.kind) = some kind)
    (h : advance st = .ok u st') : ∃ t, t.kind = kind ∧ st.Passes [t] st' := by
  obtain ⟨t, hhead, ht⟩ := Option.map_eq_some_iff.1 hkind
  exact ⟨t, ht, advance_ok (List.head?_eq_getElem?.trans hhead) h⟩

theorem expect_ok {kind : Kind} {what : Expectation} {t : Token}
    (h : expect kind what st = .ok t st') : t.kind = kind ∧ st.Passes [t] st' := by
  obtain ⟨found, mid, heat, h⟩ := bind_ok h
  cases found with
  | none => exact absurd h unexpected_ok
  | some t' =>
    obtain ⟨rfl, rfl⟩ := pure_ok h
    obtain ⟨hkind, hpass⟩ := eatIf_some heat
    exact ⟨by simpa using hkind, hpass⟩

/-! ## Places -/

theorem here_ok {l : Location} (h : here st = .ok l st') : st' = st := by
  obtain ⟨t, mid, hcurrent, h⟩ := bind_ok h
  obtain ⟨-, rfl⟩ := current?_ok hcurrent
  cases t <;> cases h <;> rfl

theorem siteAt_ok {l : Location} {s : Site} (h : siteAt l st = .ok s st') : st.Passes [] st' := by
  cases h
  exact ⟨rfl, rfl⟩

theorem siteBetween_ok {first last : Location} {s : Site}
    (h : siteBetween first last st = .ok s st') : st.Passes [] st' := by
  cases h
  exact ⟨rfl, rfl⟩

theorem siteFrom_ok {start : Location} {s : Site} (h : siteFrom start st = .ok s st') :
    st.Passes [] st' := by
  cases h
  exact ⟨rfl, rfl⟩

theorem outsideIndex_ok {p : Parse α} {a : α} (h : outsideIndex p st = .ok a st') :
    ∃ mid, p { st with indexDepth := 0 } = .ok a mid ∧
      st' = { mid with indexDepth := st.indexDepth } := by
  rw [outsideIndex, bracketed] at h
  split at h
  · rename_i a' mid hp
    cases h
    exact ⟨mid, hp, rfl⟩
  · cases h

end Parse

end MFile.Grammar
