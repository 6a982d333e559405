import MFile.Grammar.File
import MFile.Proofs.Grammar.Runs

/-!
What a parse comes to from a given state: what it gives and the state after it, or an error. One
rule for each move says what the state is after it, so that a property of a parse follows its text
from one move to the next.
-/

namespace MFile.Grammar

def State.past (s : State) (t : Token) (rest : List Token) : State :=
  { s with behind := t :: s.behind, ahead := rest }

def State.numbered (s : State) : State := { s with nodes := s.nodes + 1 }

def State.lastPlace (s : State) : Location :=
  s.behind.head?.elim ⟨s.file, .file, none⟩ (·.location)

def State.nextPlace (s : State) : Location := s.ahead.head?.elim s.lastPlace (·.location)

namespace State

variable (s : State) (t : Token) (rest : List Token)

@[simp] theorem past_ahead : (s.past t rest).ahead = rest := rfl
@[simp] theorem past_behind : (s.past t rest).behind = t :: s.behind := rfl
@[simp] theorem past_nodes : (s.past t rest).nodes = s.nodes := rfl
@[simp] theorem past_file : (s.past t rest).file = s.file := rfl
@[simp] theorem numbered_ahead : s.numbered.ahead = s.ahead := rfl
@[simp] theorem numbered_behind : s.numbered.behind = s.behind := rfl
@[simp] theorem numbered_nodes : s.numbered.nodes = s.nodes + 1 := rfl
@[simp] theorem numbered_file : s.numbered.file = s.file := rfl

theorem passes_past (h : s.ahead = t :: rest) : s.Passes [t] (s.past t rest) := ⟨h, rfl⟩

end State

namespace Parse

variable {α β : Type} {strict : Bool} {s : State}

/-- What `p` gives from `s`, and the state after it, have `Q`. If `strict`, then no error of `p` is
the fault of the grammar itself. -/
def Meets (strict : Bool) (p : Parse α) (s : State) (Q : α → State → Prop) : Prop :=
  match p s with
  | .ok a s' => Q a s'
  | .error e _ => strict = true → e.isFatal = false

namespace Meets

variable {p : Parse α} {f : α → Parse β} {P : α → State → Prop} {Q : β → State → Prop}

theorem of_run {a : α} {s' : State} (hp : p s = .ok a s') (h : P a s') : Meets strict p s P := by
  rw [Meets, hp]
  exact h

theorem of_failed {e : ParseError} {s' : State} (hp : p s = .error e s')
    (h : strict = true → e.isFatal = false) : Meets strict p s P := by
  rw [Meets, hp]
  exact h

theorem of_error {e : ParseError} {s' : State} (hp : p s = .error e s') : Meets false p s P :=
  .of_failed hp fun h => absurd h Bool.false_ne_true

theorem ok (h : Meets strict p s P) {a : α} {s' : State} (hp : p s = .ok a s') : P a s' := by
  rw [Meets, hp] at h
  exact h

theorem not_fatal (h : Meets true p s P) {e : ParseError} {s' : State} (hp : p s = .error e s') :
    e.isFatal = false := by
  rw [Meets, hp] at h
  exact h rfl

theorem mono {P' : α → State → Prop} (h : Meets strict p s P) (hP : ∀ a s', P a s' → P' a s') :
    Meets strict p s P' := by
  cases hp : p s with
  | ok a s' => exact .of_run hp (hP a s' (h.ok hp))
  | error e s' =>
    rw [Meets, hp] at h
    exact .of_failed hp h

theorem and {P' : α → State → Prop} (h : Meets strict p s P)
    (h' : ∀ a s', p s = .ok a s' → P' a s') : Meets strict p s fun a s' => P a s' ∧ P' a s' := by
  cases hp : p s with
  | ok a s' => exact .of_run hp ⟨h.ok hp, h' a s' hp⟩
  | error e s' =>
    rw [Meets, hp] at h
    exact .of_failed hp h

theorem pure {a : α} (h : P a s) : Meets strict (Pure.pure a) s P := h

theorem bind (h : Meets strict p s P) (hf : ∀ a mid, P a mid → Meets strict (f a) mid Q) :
    Meets strict (p >>= f) s Q := by
  cases hp : p s with
  | ok a mid =>
    rw [Meets, bind_run hp]
    exact hf a mid (h.ok hp)
  | error e mid =>
    rw [Meets, hp] at h
    exact .of_failed (bind_error hp f) h

theorem map {g : α → β} (h : Meets strict p s fun a s' => Q (g a) s') :
    Meets strict (g <$> p) s Q := by
  rw [map_eq_pure_bind]
  exact h.bind fun a mid ha => .pure ha

theorem step {a : α} {mid : State} (hp : p s = .ok a mid) (h : Meets strict (f a) mid Q) :
    Meets strict (p >>= f) s Q :=
  (Meets.of_run (P := fun b st => b = a ∧ st = mid) hp ⟨rfl, rfl⟩).bind fun b st hb => by
    rw [hb.1, hb.2]
    exact h

/-! ## Failures -/

theorem fail {l : Location} {cause : Cause} : Meets strict (Parse.fail l cause : Parse α) s P :=
  .of_failed (e := .grammatical l cause) rfl fun _ => rfl

theorem fail_bind {l : Location} {cause : Cause} :
    Meets strict ((Parse.fail l cause : Parse α) >>= f) s Q :=
  Meets.fail.bind fun _ _ h => (h : False).elim

end Meets

theorem here_run (s : State) : Parse.here s = .ok s.nextPlace s := by
  obtain ⟨file, behind, ahead, nodes, frames, indexDepth, methodDepth, endUsed, placeholders⟩ := s
  cases ahead <;> rfl

namespace Meets

variable {p : Parse α} {f : α → Parse β} {P : α → State → Prop} {Q : β → State → Prop}

theorem failHere {cause : Option Token → Cause} :
    Meets strict (Parse.failHere cause : Parse α) s P :=
  .step (here_run s) (.step rfl .fail)

theorem failHere_bind {cause : Option Token → Cause} :
    Meets strict ((Parse.failHere cause : Parse α) >>= f) s Q :=
  Meets.failHere.bind fun _ _ h => (h : False).elim

theorem unexpected {what : Expectation} : Meets strict (Parse.unexpected what : Parse α) s P :=
  .failHere

/-! ## Looking -/

theorem get {f : State → Parse β} (h : Meets strict (f s) s Q) :
    Meets strict (MonadState.get >>= f) s Q :=
  .step rfl h

theorem current? {f : Option Token → Parse β} (hnone : s.ahead = [] → Meets strict (f none) s Q)
    (hsome : ∀ t rest, s.ahead = t :: rest → Meets strict (f (some t)) s Q) :
    Meets strict (Parse.current? >>= f) s Q := by
  refine .step (current?_run s) ?_
  cases hahead : s.ahead with
  | nil => exact hnone hahead
  | cons t rest => exact hsome t rest hahead

theorem peekKind? {n : Nat} {f : Option Kind → Parse β}
    (h : Meets strict (f (s.ahead[n]?.map (·.kind))) s Q) :
    Meets strict (Parse.peekKind? n >>= f) s Q :=
  .step rfl h

theorem peekFirst? {f : Option Kind → Parse β} (hnone : s.ahead = [] → Meets strict (f none) s Q)
    (hsome : ∀ t rest, s.ahead = t :: rest → Meets strict (f (some t.kind)) s Q) :
    Meets strict (Parse.peekKind? 0 >>= f) s Q := by
  refine .step (peekFirst?_run s) ?_
  cases hahead : s.ahead with
  | nil => exact hnone hahead
  | cons t rest => exact hsome t rest hahead

theorem check {kind : Kind} {f : Bool → Parse β}
    (h : ∀ b, (b = true → ∃ t rest, s.ahead = t :: rest ∧ t.kind = kind) → Meets strict (f b) s Q) :
    Meets strict (Parse.check kind >>= f) s Q :=
  .step (check_run kind s) (h _ exists_of_firstKind)

theorem checkWord {word : String} {f : Bool → Parse β} (h : ∀ b, Meets strict (f b) s Q) :
    Meets strict (Parse.checkWord word >>= f) s Q :=
  .step rfl (h _)

theorem atEnd {f : Bool → Parse β} (h : Meets strict (f s.ahead.isEmpty) s Q) :
    Meets strict (Parse.atEnd >>= f) s Q :=
  .step rfl h

theorem here {f : Location → Parse β} (h : Meets strict (f s.nextPlace) s Q) :
    Meets strict (Parse.here >>= f) s Q :=
  .step (here_run s) h

theorem spanFrom {start : Location} {f : Location → Parse β}
    (h : Meets strict (f (start.extendTo s.lastPlace)) s Q) :
    Meets strict (Parse.spanFrom start >>= f) s Q :=
  .step rfl h

theorem wholeFile {f : Location → Parse β} (h : Meets strict (f ⟨s.file, .file, none⟩) s Q) :
    Meets strict (Parse.wholeFile >>= f) s Q :=
  .step rfl h

/-! ## Changing the state -/

theorem modify {g : State → State} {f : Unit → Parse β} (h : Meets strict (f ()) (g s) Q) :
    Meets strict (modify g >>= f) s Q :=
  .step rfl h

theorem freshId {f : NodeId → Parse β} (h : Meets strict (f s.nodes) s.numbered Q) :
    Meets strict (Parse.freshId >>= f) s Q :=
  .step rfl h

theorem siteAt {l : Location} {f : Site → Parse β}
    (h : Meets strict (f ⟨s.nodes, l⟩) s.numbered Q) :
    Meets strict (Parse.siteAt l >>= f) s Q :=
  .step rfl h

theorem siteFrom {start : Location} {f : Site → Parse β}
    (h : Meets strict (f ⟨s.nodes, start.extendTo s.lastPlace⟩) s.numbered Q) :
    Meets strict (Parse.siteFrom start >>= f) s Q :=
  .step rfl h

theorem siteBetween {first last : Location} {f : Site → Parse β}
    (h : Meets strict (f ⟨s.nodes, first.extendTo last⟩) s.numbered Q) :
    Meets strict (Parse.siteBetween first last >>= f) s Q :=
  .step rfl h

theorem eatIf {q : Token → Bool} {f : Option Token → Parse β}
    (hsome : ∀ t rest, s.ahead = t :: rest → q t = true →
      Meets strict (f (some t)) (s.past t rest) Q)
    (hnone : (∀ t ∈ s.ahead.head?, q t = false) → Meets strict (f none) s Q) :
    Meets strict (Parse.eatIf q >>= f) s Q := by
  obtain ⟨t, rest, hahead, hq, hrun⟩ | ⟨hq, hrun⟩ := eatIf_cases q s
  · exact .step hrun (hsome t rest hahead hq)
  · exact .step hrun (hnone hq)

theorem eat {kind : Kind} {f : Option Token → Parse β}
    (hsome : ∀ t rest, s.ahead = t :: rest → t.kind = kind →
      Meets strict (f (some t)) (s.past t rest) Q)
    (hnone : Meets strict (f none) s Q) : Meets strict (Parse.eat kind >>= f) s Q :=
  .eatIf (fun t rest hahead ht => hsome t rest hahead (beq_iff_eq.1 ht)) fun _ => hnone

theorem eatWord {word : String} {f : Option Token → Parse β}
    (hsome : ∀ t rest, s.ahead = t :: rest → t.isWord word = true →
      Meets strict (f (some t)) (s.past t rest) Q)
    (hnone : Meets strict (f none) s Q) : Meets strict (Parse.eatWord word >>= f) s Q :=
  .eatIf hsome fun _ => hnone

theorem eatOperator {symbols : List String} {f : Option Token → Parse β}
    (hsome : ∀ t rest, s.ahead = t :: rest → t.kind = .operator → t.raw ∈ symbols →
      Meets strict (f (some t)) (s.past t rest) Q)
    (hnone : Meets strict (f none) s Q) : Meets strict (Parse.eatOperator symbols >>= f) s Q := by
  refine .eatIf (fun t rest hahead ht => ?_) fun _ => hnone
  rw [Bool.and_eq_true, beq_iff_eq] at ht
  exact hsome t rest hahead ht.1 (List.contains_iff_mem.1 ht.2)

theorem advance {t : Token} {rest : List Token} {f : Unit → Parse β} (hahead : s.ahead = t :: rest)
    (h : Meets strict (f ()) (s.past t rest) Q) : Meets strict (Parse.advance >>= f) s Q :=
  .step (advance_run hahead) h

theorem expect {kind : Kind} {what : Expectation} {f : Token → Parse β}
    (h : ∀ t rest, s.ahead = t :: rest → t.kind = kind → Meets strict (f t) (s.past t rest) Q) :
    Meets strict (Parse.expect kind what >>= f) s Q := by
  rw [Parse.expect, bind_assoc]
  exact .eat h (Meets.unexpected.bind fun _ _ hfalse => (hfalse : False).elim)

theorem discard_bind {f : Unit → Parse β} (h : Meets strict (p >>= fun _ => f ()) s Q) :
    Meets strict (discard p >>= f) s Q := by
  rw [discard, map_const, Function.comp_apply, bind_map_left]
  exact h

theorem bracketed {change : State → State} {undo : State → State → State}
    (h : Meets strict p (change s) fun a s' => P a (undo s s')) :
    Meets strict (Parse.bracketed change undo p) s P := by
  cases hp : p (change s) with
  | ok a s' => exact .of_run (by rw [Parse.bracketed, hp]) (h.ok hp)
  | error e s' =>
    rw [Meets, hp] at h
    exact .of_failed (by rw [Parse.bracketed, hp]) h

/-! ## Repetitions -/

section Rounds

variable {body : α → Parse (Round α β)} {I : α → State → Prop}

theorem rounds {a : α} (hI : I a s)
    (hbody : ∀ a st, I a st → Meets false (body a) st (Leaves I Q)) :
    Meets false (Parse.rounds a body) s Q := by
  cases hrun : Parse.rounds a body s with
  | ok b s' =>
    exact .of_run hrun
      (Keeps.rounds (fun a st r st' ha hround => (hbody a st ha).ok hround) hI hrun)
  | error e s' => exact .of_failed hrun nofun

theorem roundsWithin {fuel : Nat} {a : α} (hI : I a s) (hfuel : s.ahead.length < fuel)
    (hbody : ∀ a st, I a st → Meets true (body a) st
      (Leaves (fun a' st' => I a' st' ∧ st'.ahead.length < st.ahead.length) Q)) :
    Meets true (Parse.roundsWithin body fuel a) s Q := by
  induction fuel generalizing a s with
  | zero => exact absurd hfuel (Nat.not_lt_zero _)
  | succ fuel ih =>
    refine (hbody a s hI).bind fun r mid hr => ?_
    cases r with
    | again a' =>
      obtain ⟨ha', hshorter⟩ := hr
      exact ih ha' (by omega)
    | done b => exact .pure hr

/-- A repetition of which every round but the last passes a token does not run out of rounds. -/
theorem rounds_shortening {a : α} (hI : I a s)
    (hbody : ∀ a st, I a st → Meets true (body a) st
      (Leaves (fun a' st' => I a' st' ∧ st'.ahead.length < st.ahead.length) Q)) :
    Meets true (Parse.rounds a body) s Q := by
  refine (hbody a s hI).bind fun r mid hr => ?_
  cases r with
  | again a' => exact .get (.roundsWithin hr.1 (Nat.lt_succ_self _) hbody)
  | done b => exact .pure hr

end Rounds

end Meets

end Parse

end MFile.Grammar
