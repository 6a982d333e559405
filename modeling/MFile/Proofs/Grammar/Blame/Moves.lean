import MFile.Proofs.Grammar.Extent.Fronts
import MFile.Proofs.Grammar.Placement.Yields

/-!
Which file an error is about. A parse that starts in a file stays in it: the tokens behind and ahead
are those of the file, and so is the place that an error names, whether it is that of a token, of a
node or of the whole file.
-/

namespace MFile

namespace Grammar

structure State.Within (file : String) (s : State) : Prop where
  file_eq : s.file = file
  tokens : Successive file s.front.tokens

namespace State.Within

variable {file : String} {s s' : State}

theorem congr (hs : s.Within file) (hfile : s'.file = s.file)
    (htokens : s'.front.tokens = s.front.tokens) : s'.Within file :=
  ⟨hfile.trans hs.file_eq, htokens ▸ hs.tokens⟩

theorem token (hs : s.Within file) {t : Token} (ht : t ∈ s.front.tokens) :
    t.location.file = file :=
  (hs.tokens.ranges t ht).file_eq

theorem next (hs : s.Within file) {t : Token} (ht : t ∈ s.ahead) : t.location.file = file :=
  hs.token (List.mem_append_right _ ht)

theorem nextPlace (hs : s.Within file) : s.nextPlace.file = file := by
  rw [State.nextPlace, State.lastPlace]
  cases hahead : s.ahead with
  | nil =>
    cases hbehind : s.behind with
    | nil => exact hs.file_eq
    | cons t behind => exact hs.token (by simp [Front.tokens, State.front, hbehind])
  | cons t ahead => exact hs.next (by simp [hahead])

theorem front (hs : s.Within file) : Successive s.file s.front.tokens := by
  rw [hs.file_eq]
  exact hs.tokens

end State.Within

namespace Parse

variable {α β : Type} {file : String} {p : Parse α} {f : α → Parse β} {P : α → Prop}
  {Q : β → Prop}

/-- From a state in the file `p` stays in the file and gives something with `Q`, or it fails with an
error about the file. -/
def Blames (file : String) (p : Parse α) (Q : α → Prop) : Prop :=
  ∀ ⦃s⦄, s.Within file →
    match p s with
    | .ok a s' => s'.Within file ∧ Q a
    | .error e _ => e.location.file = file

abbrev BlamesOnly (file : String) (p : Parse α) : Prop := Blames file p fun _ => True

namespace Blames

theorem of_ok (h : ∀ ⦃s⦄, s.Within file → ∃ a s', p s = .ok a s' ∧ s'.Within file ∧ P a) :
    Blames file p P := by
  intro s hs
  obtain ⟨a, s', hrun, hs', ha⟩ := h hs
  rw [hrun]
  exact ⟨hs', ha⟩

theorem ok (h : Blames file p P) {s s' : State} {a : α} (hs : s.Within file)
    (hrun : p s = .ok a s') : s'.Within file ∧ P a := by
  have hp := h hs
  rwa [hrun] at hp

theorem error (h : Blames file p P) {s s' : State} {e : ParseError} (hs : s.Within file)
    (hrun : p s = .error e s') : e.location.file = file := by
  have hp := h hs
  rwa [hrun] at hp

theorem and {P' : α → Prop} (h : Blames file p P)
    (h' : ∀ ⦃s a s'⦄, s.Within file → p s = .ok a s' → P' a) : Blames file p P' := by
  intro s hs
  cases hrun : p s with
  | ok a s' => exact ⟨(h.ok hs hrun).1, h' hs hrun⟩
  | error e s' => exact h.error hs hrun

theorem pure {a : α} (h : P a) : Blames file (Pure.pure a) P := fun _ hs => ⟨hs, h⟩

theorem done {a : α} : BlamesOnly file (Pure.pure a : Parse α) := .pure trivial

theorem throw {e : ParseError} (h : e.location.file = file) :
    Blames file (MonadExcept.throw e : Parse α) P :=
  fun _ _ => h

theorem fail {l : Location} {cause : Cause} (h : l.file = file) :
    Blames file (Parse.fail l cause : Parse α) P :=
  .throw h

theorem bind (h : Blames file p P) (hf : ∀ a, P a → Blames file (f a) Q) :
    Blames file (p >>= f) Q := by
  intro s hs
  cases hp : p s with
  | ok a mid =>
    obtain ⟨hmid, ha⟩ := h.ok hs hp
    rw [bind_run hp]
    exact hf a ha hmid
  | error e mid =>
    rw [bind_error hp]
    exact h.error hs hp

theorem next (h : Blames file p P) (hf : ∀ a, Blames file (f a) Q) : Blames file (p >>= f) Q :=
  h.bind fun a _ => hf a

theorem stop (h : Blames file p fun _ => False) : Blames file (p >>= f) Q :=
  h.bind fun _ hfalse => hfalse.elim

theorem map_only {g : α → β} (h : Blames file p P) : BlamesOnly file (g <$> p) := by
  rw [map_eq_pure_bind]
  exact h.next fun _ => .done

theorem get {f : State → Parse β} (h : ∀ s, s.Within file → Blames file (f s) Q) :
    Blames file (MonadState.get >>= f) Q := fun s hs => h s hs hs

theorem mapM {g : α → Parse β} (as : List α) (hg : ∀ a ∈ as, Blames file (g a) Q) :
    BlamesOnly file (as.mapM g) := by
  induction as with
  | nil => exact .done
  | cons a as ih =>
    obtain ⟨ha, has⟩ := List.forall_mem_cons.1 hg
    rw [List.mapM_cons]
    exact ha.bind fun _ _ => (ih has).bind fun _ _ => .done

end Blames

/-! ## Moves -/

theorem Blames.of_front (h : ∀ s : State, ∃ a s', p s = .ok a s' ∧ s'.file = s.file ∧
    s'.front.tokens = s.front.tokens ∧ P a) : Blames file p P :=
  .of_ok fun s hs => by
    obtain ⟨a, s', hrun, hfile, htokens, ha⟩ := h s
    exact ⟨a, s', hrun, hs.congr hfile htokens, ha⟩

theorem blames_here : Blames file here (·.file = file) :=
  .of_ok fun s hs => ⟨_, _, here_run s, hs, hs.nextPlace⟩

theorem blames_current? : Blames file current? fun t => ∀ u ∈ t, u.location.file = file :=
  .of_ok fun _ hs => ⟨_, _, rfl, hs, fun _ hu => hs.next (List.mem_of_getElem? hu)⟩

theorem blames_peekKind? {n : Nat} : BlamesOnly file (peekKind? n) :=
  .of_front fun _ => ⟨_, _, rfl, rfl, rfl, trivial⟩

theorem blames_check {kind : Kind} : BlamesOnly file (check kind) :=
  .of_front fun _ => ⟨_, _, rfl, rfl, rfl, trivial⟩

theorem blames_checkWord {word : String} : BlamesOnly file (checkWord word) :=
  .of_front fun _ => ⟨_, _, rfl, rfl, rfl, trivial⟩

theorem blames_atEnd : BlamesOnly file atEnd :=
  .of_front fun _ => ⟨_, _, rfl, rfl, rfl, trivial⟩

theorem blames_freshId : BlamesOnly file freshId :=
  .of_front fun _ => ⟨_, _, rfl, rfl, rfl, trivial⟩

theorem blames_wholeFile : BlamesOnly file wholeFile :=
  .of_front fun _ => ⟨_, _, rfl, rfl, rfl, trivial⟩

theorem blames_spanFrom {start : Location} : BlamesOnly file (spanFrom start) :=
  .of_front fun _ => ⟨_, _, rfl, rfl, rfl, trivial⟩

theorem blames_siteAt {l : Location} : BlamesOnly file (siteAt l) :=
  .of_front fun _ => ⟨_, _, rfl, rfl, rfl, trivial⟩

theorem blames_siteFrom {start : Location} : BlamesOnly file (siteFrom start) :=
  .of_front fun _ => ⟨_, _, rfl, rfl, rfl, trivial⟩

theorem blames_siteBetween {first last : Location} : BlamesOnly file (siteBetween first last) :=
  .of_front fun _ => ⟨_, _, rfl, rfl, rfl, trivial⟩

theorem Blames.modify {g : State → State} {f : PUnit → Parse β} (hg : ∀ s, (g s).front = s.front)
    (h : ∀ u, Blames file (f u) Q) : Blames file (modifyGet (fun s => (⟨⟩, g s)) >>= f) Q :=
  Blames.next (P := fun _ => True) (.of_front fun s =>
    ⟨_, _, rfl, congrArg Front.file (hg s), congrArg Front.tokens (hg s), trivial⟩) h

theorem blames_eatIf {q : Token → Bool} :
    Blames file (eatIf q) fun t => ∀ u ∈ t, u.location.file = file := by
  refine .of_ok fun s hs => ?_
  rw [eatIf]
  cases hahead : s.ahead with
  | nil => exact ⟨_, _, rfl, hs, fun u hu => absurd hu (Option.not_mem_none u)⟩
  | cons t rest =>
    dsimp only
    split
    · refine ⟨_, _, rfl, hs.congr rfl ?_, fun u hu => hs.next ?_⟩
      · simp [Front.tokens, State.front, hahead]
      · cases hu
        rw [hahead]
        exact List.mem_cons_self
    · exact ⟨_, _, rfl, hs, fun u hu => absurd hu (Option.not_mem_none u)⟩

theorem blames_eatWhile {q : Token → Bool} : BlamesOnly file (eatWhile q) :=
  .of_front fun _ => ⟨_, _, rfl, rfl, by simp [Front.tokens, State.front], trivial⟩

theorem blames_discard (h : Blames file p P) : BlamesOnly file (discard p) :=
  h.bind fun _ _ => .done

theorem blames_advance : BlamesOnly file advance := blames_discard blames_eatIf

theorem blames_failHere {cause : Option Token → Cause} :
    Blames file (failHere cause : Parse α) P :=
  blames_here.bind fun _ hl => blames_current?.bind fun _ _ => .fail hl

theorem blames_unexpected {what : Expectation} : Blames file (unexpected what : Parse α) P :=
  blames_failHere

theorem blames_stalled : Blames file (stalled : Parse α) P :=
  blames_here.bind fun _ hl => .throw hl

theorem blames_expect {kind : Kind} {what : Expectation} :
    Blames file (expect kind what) (·.location.file = file) := by
  refine blames_eatIf.bind fun t ht => ?_
  cases t with
  | none => exact blames_unexpected
  | some t => exact .pure (ht t rfl)

theorem blames_skipSeparators : BlamesOnly file skipSeparators := blames_discard blames_eatWhile

theorem blames_endStatement : BlamesOnly file endStatement := by
  refine blames_eatIf.bind fun t _ => ?_
  split
  · refine blames_current?.bind fun next _ => ?_
    cases next with
    | none => exact .done
    | some t =>
      dsimp only
      split
      · exact blames_unexpected
      · exact .done
  · exact .done

/-! ## Repetitions and brackets -/

section Rounds

variable {body : α → Parse (Round α β)} (P : α → Prop)
  (hbody : ∀ a, P a → Blames file (body a) (Round.Holds P Q))

include hbody

theorem Blames.roundsWithin (fuel : Nat) {a : α} (ha : P a) :
    Blames file (Parse.roundsWithin body fuel a) Q := by
  induction fuel generalizing a with
  | zero => exact blames_stalled
  | succ fuel ih =>
    refine (hbody a ha).bind fun r hr => ?_
    cases r with
    | again a => exact ih hr
    | done b => exact .pure hr

theorem Blames.rounds {a : α} (ha : P a) : Blames file (Parse.rounds a body) Q := by
  refine (hbody a ha).bind fun r hr => ?_
  cases r with
  | again a => exact .get fun _ _ => .roundsWithin P hbody _ hr
  | done b => exact .pure hr

end Rounds

theorem Blames.rounds_only {body : α → Parse (Round α β)} {a : α}
    (h : ∀ a, BlamesOnly file (body a)) : BlamesOnly file (Parse.rounds a body) :=
  .rounds (fun _ => True) (fun a _ => (h a).and fun _ r _ _ _ => by cases r <;> trivial) trivial

theorem Blames.bracketed {change : State → State} {undo : State → State → State}
    (h : Blames file p P) (hchange : ∀ s, (change s).front = s.front)
    (hundo : ∀ s s', (undo s s').front = s'.front) :
    Blames file (Parse.bracketed change undo p) P := by
  intro s hs
  have hp := h (hs.congr (congrArg Front.file (hchange s)) (congrArg Front.tokens (hchange s)))
  rw [Parse.bracketed]
  cases hrun : p (change s) with
  | ok a s' =>
    rw [hrun] at hp
    exact ⟨hp.1.congr (congrArg Front.file (hundo s s')) (congrArg Front.tokens (hundo s s')), hp.2⟩
  | error e s' =>
    rw [hrun] at hp
    exact hp

end Parse

end Grammar

end MFile
