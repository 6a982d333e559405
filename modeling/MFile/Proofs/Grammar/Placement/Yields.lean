import MFile.Grammar.File
import MFile.Proofs.Grammar.Runs

/-!
What a parse yields where it stands. Most of it leaves the frames and the open argument lists as
they are, so what it reads stands where the parse stands.
-/

namespace MFile.Grammar

open Parse

/-- A loop of the current function is open if `loop`, and an argument list if `index`. -/
structure State.Around (loop index : Bool) (s : State) : Prop where
  frames : isLoopOpen s.frames = loop
  depth : decide (0 < s.indexDepth) = index

structure State.Beside (s s' : State) : Prop where
  frames : s'.frames = s.frames
  depth : s'.indexDepth = s.indexDepth

namespace State.Beside

variable {s mid s' : State} {loop index : Bool}

theorem refl (s : State) : s.Beside s := ⟨rfl, rfl⟩

theorem trans (h : s.Beside mid) (h' : mid.Beside s') : s.Beside s' :=
  ⟨h'.frames.trans h.frames, h'.depth.trans h.depth⟩

theorem around (h : s.Beside s') (hs : s.Around loop index) : s'.Around loop index := by
  constructor
  · rw [h.frames, hs.frames]
  · rw [h.depth, hs.depth]

end State.Beside

namespace Parse

def Round.Holds {α β : Type} (P : α → Prop) (Q : β → Prop) : Round α β → Prop
  | .again a => P a
  | .done b => Q b

/-- Around `p` stand a loop if `loop` and an argument list if `index`; `p` leaves them open, and
what it reads has `Q`. -/
def Yields {α : Type} (loop index : Bool) (p : Parse α) (Q : α → Prop) : Prop :=
  ∀ ⦃s a s'⦄, State.Around loop index s → p s = .ok a s' → s.Beside s' ∧ Q a

def Still {α : Type} (p : Parse α) : Prop := ∀ ⦃s a s'⦄, p s = .ok a s' → s.Beside s'

variable {α β : Type} {loop index : Bool} {p : Parse α} {f : α → Parse β} {P : α → Prop}
  {Q : β → Prop}

namespace Yields

theorem mono {P' : α → Prop} (h : Yields loop index p P) (hP : ∀ a, P a → P' a) :
    Yields loop index p P' :=
  fun _ a _ hs hrun => ⟨(h hs hrun).1, hP a (h hs hrun).2⟩

theorem still (h : Still p) : Yields loop index p fun _ => True :=
  fun _ _ _ _ hrun => ⟨h hrun, trivial⟩

theorem failing (h : ∀ s a s', p s ≠ .ok a s') : Yields loop index p P :=
  fun s a s' _ hrun => absurd hrun (h s a s')

theorem pure {a : α} (h : P a) : Yields loop index (Pure.pure a) P := by
  intro s b s' _ hrun
  obtain ⟨rfl, rfl⟩ := pure_ok hrun
  exact ⟨.refl _, h⟩

theorem bind (h : Yields loop index p P) (hf : ∀ a, P a → Yields loop index (f a) Q) :
    Yields loop index (p >>= f) Q := by
  intro s b s' hs hrun
  obtain ⟨a, mid, hp, hrest⟩ := bind_ok hrun
  obtain ⟨hmid, ha⟩ := h hs hp
  obtain ⟨hs', hb⟩ := hf a ha (hmid.around hs) hrest
  exact ⟨hmid.trans hs', hb⟩

theorem map {g : α → β} (h : Yields loop index p fun a => Q (g a)) :
    Yields loop index (g <$> p) Q := by
  rw [map_eq_pure_bind]
  exact h.bind fun a ha => .pure ha

theorem get {f : State → Parse β} (h : ∀ s, State.Around loop index s → Yields loop index (f s) Q) :
    Yields loop index (MonadState.get >>= f) Q := by
  intro s b s' hs hrun
  obtain ⟨_, _, hget, hrun⟩ := bind_ok hrun
  cases hget
  exact h s hs hs hrun

theorem rounds (P : α → Prop) {body : α → Parse (Round α β)} {a : α} (ha : P a)
    (hbody : ∀ a, P a → Yields loop index (body a) (Round.Holds P Q)) :
    Yields loop index (Parse.rounds a body) Q := by
  intro s b s' hs hrun
  refine Keeps.rounds (I := fun a st => s.Beside st ∧ P a) (Q := fun b st => s.Beside st ∧ Q b) ?_
    ⟨.refl s, ha⟩ hrun
  intro a st r st' ⟨hst, ha⟩ hround
  obtain ⟨hst', hr⟩ := hbody a ha (hst.around hs) hround
  cases r <;> exact ⟨hst.trans hst', hr⟩

theorem mapM {g : α → Parse β} (as : List α) (hg : ∀ a ∈ as, Yields loop index (g a) Q) :
    Yields loop index (as.mapM g) fun bs => ∀ b ∈ bs, Q b := by
  induction as with
  | nil => exact .pure (List.forall_mem_nil _)
  | cons a as ih =>
    obtain ⟨ha, has⟩ := List.forall_mem_cons.1 hg
    rw [List.mapM_cons]
    exact ha.bind fun b hb => (ih has).bind fun bs hbs => .pure (List.forall_mem_cons.2 ⟨hb, hbs⟩)

end Yields

namespace Still

theorem of_yields (h : ∀ loop index, Yields loop index p fun _ => True) : Still p :=
  fun _ _ _ hrun => (h _ _ ⟨rfl, rfl⟩ hrun).1

theorem bind (h : Still p) (hf : ∀ a, Yields loop index (f a) Q) :
    Yields loop index (p >>= f) Q :=
  (Yields.still h).bind fun a _ => hf a

end Still

/-! ## Moves -/

section Moves

theorem still_peekKind? {n : Nat} : Still (peekKind? n) := by
  rintro s a s' ⟨⟩
  exact .refl s

theorem still_current? : Still current? := by
  rintro s a s' ⟨⟩
  exact .refl s

theorem still_check {kind : Kind} : Still (check kind) := by
  rintro s a s' ⟨⟩
  exact .refl s

theorem still_checkWord {word : String} : Still (checkWord word) := by
  rintro s a s' ⟨⟩
  exact .refl s

theorem still_atEnd : Still atEnd := by
  rintro s a s' ⟨⟩
  exact .refl s

theorem still_here : Still here := by
  intro s a s' h
  rw [here_ok h]
  exact .refl s

theorem still_spanFrom {start : Location} : Still (spanFrom start) := by
  rintro s a s' ⟨⟩
  exact .refl s

theorem still_wholeFile : Still wholeFile := by
  rintro s a s' ⟨⟩
  exact .refl s

theorem still_freshId : Still freshId := by
  rintro s a s' ⟨⟩
  exact ⟨rfl, rfl⟩

theorem still_siteAt {l : Location} : Still (siteAt l) := by
  rintro s a s' ⟨⟩
  exact ⟨rfl, rfl⟩

theorem still_siteFrom {start : Location} : Still (siteFrom start) := by
  rintro s a s' ⟨⟩
  exact ⟨rfl, rfl⟩

theorem still_siteBetween {first last : Location} : Still (siteBetween first last) := by
  rintro s a s' ⟨⟩
  exact ⟨rfl, rfl⟩

theorem still_eatIf {q : Token → Bool} : Still (eatIf q) := by
  intro s a s' h
  rw [eatIf] at h
  split at h
  · cases h
    exact .refl s
  · split at h <;> cases h <;> exact ⟨rfl, rfl⟩

theorem still_eatWhile {q : Token → Bool} : Still (eatWhile q) := by
  rintro s a s' ⟨⟩
  exact ⟨rfl, rfl⟩

theorem still_discard (h : Still p) : Still (discard p) := by
  intro s a s' hrun
  obtain ⟨_, mid, hp, hrun⟩ := bind_ok (x := p) hrun
  obtain ⟨-, rfl⟩ := pure_ok hrun
  exact h hp

theorem still_advance : Still advance := still_discard still_eatIf

theorem still_skipSeparators : Still skipSeparators := still_discard still_eatWhile

theorem still_expect {kind : Kind} {what : Expectation} : Still (expect kind what) := by
  refine .of_yields fun _ _ => still_eatIf.bind fun t => ?_
  cases t with
  | none => exact .failing fun _ _ _ => unexpected_ok
  | some t => exact .pure trivial

theorem still_endStatement : Still endStatement := by
  refine .of_yields fun _ _ => still_eatIf.bind fun t => ?_
  split
  · refine still_current?.bind fun next => ?_
    cases next with
    | none => exact .pure trivial
    | some t =>
      dsimp only
      split
      · exact .failing fun _ _ _ => unexpected_ok
      · exact .pure trivial
  · exact .pure trivial

theorem still_modify {g : State → State} (h : ∀ s : State, s.Beside (g s)) : Still (modify g) := by
  rintro s a s' ⟨⟩
  exact h s

end Moves

/-! ## What stands around a part -/

theorem Yields.outsideIndex (h : Yields loop false p P) :
    Yields loop index (Parse.outsideIndex p) P := by
  intro s a s' hs hrun
  obtain ⟨mid, hp, rfl⟩ := outsideIndex_ok hrun
  obtain ⟨hmid, ha⟩ := h (s := { s with indexDepth := 0 }) ⟨hs.frames, rfl⟩ hp
  exact ⟨⟨hmid.frames, rfl⟩, ha⟩

@[simp] def loopInside (outside : Bool) : Frame → Bool
  | .loop => true
  | .function => false
  | _ => outside

theorem isLoopOpen_cons (frame : Frame) (frames : List Frame) :
    isLoopOpen (frame :: frames) = loopInside (isLoopOpen frames) frame := by
  cases frame <;> rfl

theorem Yields.inFrame {frame : Frame} (h : Yields (loopInside loop frame) index p P) :
    Yields loop index (Parse.inFrame frame p) P := by
  intro s a s' hs hrun
  rw [Parse.inFrame, bracketed] at hrun
  split at hrun
  · rename_i a' mid hp
    cases hrun
    obtain ⟨hmid, ha⟩ := h (s := { s with frames := frame :: s.frames })
      ⟨by rw [isLoopOpen_cons, hs.frames], hs.depth⟩ hp
    exact ⟨⟨by rw [hmid.frames]; rfl, hmid.depth⟩, ha⟩
  · cases hrun

end Parse

end MFile.Grammar
