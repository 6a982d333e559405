import MFile.Proofs.Tree.Placement
import MFile.Proofs.Grammar.Placement.Yields

/-!
Where a placeholder may stand: where names are declared or assigned and one of them is left out,
and in a row of the matrix that a longer expression begins with, if that expression is a statement
by itself. What may stand at a node depends on the steps from the root to it.
-/

namespace MFile

/-- What the steps above a node say about placeholders. -/
inductive Spot
  | plain
  /-- A placeholder may stand here. -/
  | free
  /-- An expression that is a statement by itself. -/
  | whole
  /-- What such an expression begins with, but not all of it. -/
  | front
  /-- A row of a matrix at the front. -/
  | row
deriving DecidableEq

/-- One of several names, of which some may be left out. -/
def leavesOut : Node × Relation → Bool
  | (.stmt (.multiAssign ..), .lhs) => true
  | (.signature _, .input) => true
  | (.expr (.lambda ..), .parameter) => true
  | _ => false

def standsAlone : Node × Relation → Bool
  | (.stmt (.naked ..), .expression) => true
  | _ => false

/-- The operand that an expression begins with, if it does not begin with a token of its own. -/
def begins : Node × Relation → Bool
  | (.expr (.unary _ op _), .operand) => op.followsOperand
  | (.expr (.binary ..), .lhs) => true
  | (.expr (.range ..), .first) => true
  | _ => false

def entersMatrix : Node × Relation → Bool
  | (.expr (.matrix ..), .row) => true
  | _ => false

def entersRow : Node × Relation → Bool
  | (.row _, .element) => true
  | _ => false

namespace Spot

def below (spot : Spot) (step : Node × Relation) : Spot :=
  if leavesOut step then free
  else if standsAlone step then whole
  else
    match spot with
    | whole => if begins step then front else plain
    | front => if begins step then front else if entersMatrix step then row else plain
    | row => if entersRow step then free else plain
    | _ => plain

def along (spot : Spot) (way : Way) : Spot := way.foldr (fun step spot => spot.below step) spot

variable {spot : Spot} {step : Node × Relation} {way : Way}

theorem along_concat (spot : Spot) (way : Way) (step : Node × Relation) :
    spot.along (way ++ [step]) = (spot.below step).along way := by
  rw [along, List.foldr_append]
  rfl

theorem along_plain (spot : Spot) (way : Way) :
    plain.along way = plain ∨ plain.along way = spot.along way := by
  induction way with
  | nil => exact .inl rfl
  | cons step way ih =>
    change (plain.along way).below step = plain ∨
      (plain.along way).below step = (spot.along way).below step
    obtain hplain | hsame := ih
    · rw [hplain]
      cases spot.along way <;> grind [below]
    · rw [hsame]
      exact .inr rfl

theorem whole_of_below (h : spot.below step = whole) : standsAlone step = true := by
  cases spot <;> grind [below]

theorem front_of_below (h : spot.below step = front) :
    (spot = whole ∨ spot = front) ∧ begins step = true := by
  cases spot <;> grind [below]

theorem row_of_below (h : spot.below step = row) : spot = front ∧ entersMatrix step = true := by
  cases spot <;> grind [below]

theorem free_of_below (h : spot.below step = free) :
    leavesOut step = true ∨ spot = row ∧ entersRow step = true := by
  cases spot <;> grind [below]

theorem way_of_front (h : plain.along way = front) :
    ∃ chain alone outer, way = chain ++ alone :: outer ∧ standsAlone alone = true ∧ chain ≠ [] ∧
      ∀ step ∈ chain, begins step = true := by
  induction way with
  | nil => cases h
  | cons step way ih =>
    obtain ⟨hwhole | hfront, hbegins⟩ := front_of_below h
    · cases way with
      | nil => cases hwhole
      | cons alone outer =>
        exact ⟨[step], alone, outer, rfl, whole_of_below hwhole, List.cons_ne_nil _ _,
          List.forall_mem_singleton.2 hbegins⟩
    · obtain ⟨chain, alone, outer, rfl, halone, -, hchain⟩ := ih hfront
      exact ⟨step :: chain, alone, outer, rfl, halone, List.cons_ne_nil _ _,
        List.forall_mem_cons.2 ⟨hbegins, hchain⟩⟩

theorem way_of_free (h : plain.along way = free) :
    (∃ step outer, way = step :: outer ∧ leavesOut step = true) ∨
      ∃ element row chain alone outer, way = element :: row :: (chain ++ alone :: outer) ∧
        entersRow element = true ∧ entersMatrix row = true ∧ standsAlone alone = true ∧
          chain ≠ [] ∧ ∀ step ∈ chain, begins step = true := by
  cases way with
  | nil => cases h
  | cons step way =>
    obtain hout | ⟨hspot, hrow⟩ := free_of_below h
    · exact .inl ⟨step, way, rfl, hout⟩
    · cases way with
      | nil => cases hspot
      | cons outer way =>
        obtain ⟨hfront, hmatrix⟩ := row_of_below hspot
        obtain ⟨chain, alone, above, rfl, halone, hne, hchain⟩ := way_of_front hfront
        exact .inr ⟨step, outer, chain, alone, above, rfl, hrow, hmatrix, halone, hne, hchain⟩

end Spot

namespace Node

def isPlaceholder : Node → Bool
  | expr (.name (.identifier _ text)) | name (.identifier _ text) => text == "~"
  | _ => false

/-- No placeholder below stands where none may. -/
def Proper (spot : Spot) (root : Node) : Prop :=
  ∀ way node, root.Reaches way node → node.isPlaceholder = true → spot.along way = .free

variable {spot : Spot} {root node : Node}

theorem proper_iff : root.Proper spot ↔ (root.isPlaceholder = true → spot = .free) ∧
    ∀ c ∈ root.children, c.2.Proper (spot.below (root, c.1)) := by
  constructor
  · intro h
    refine ⟨h [] root .here, fun c hc way node hnode hplaceholder => ?_⟩
    rw [← Spot.along_concat]
    exact h _ node (hnode.of_child hc) hplaceholder
  · rintro ⟨hroot, hchildren⟩ way node hnode hplaceholder
    rcases hnode.cases_first with ⟨rfl, rfl⟩ | ⟨c, hc, rest, hrest, rfl⟩
    · exact hroot hplaceholder
    · rw [Spot.along_concat]
      exact hchildren c hc rest node hrest hplaceholder

attribute [simp] isPlaceholder Spot.below leavesOut standsAlone begins entersMatrix entersRow

theorem Proper.move {spot' : Spot} (h : root.Proper spot)
    (hroot : root.isPlaceholder = true → spot' = .free)
    (hbelow : ∀ c ∈ root.children, spot'.below (root, c.1) = spot.below (root, c.1)) :
    root.Proper spot' := by
  refine proper_iff.2 ⟨hroot, fun c hc => ?_⟩
  rw [hbelow c hc]
  exact (proper_iff.1 h).2 c hc

theorem Proper.of_plain (h : root.Proper .plain) (spot : Spot) : root.Proper spot := by
  intro way node hnode hplaceholder
  have hfree := h way node hnode hplaceholder
  obtain hplain | hsame := Spot.along_plain spot way
  · rw [hplain] at hfree
    cases hfree
  · rw [← hsame, hfree]

end Node

end MFile

/-!
## Tidy parses

Parses of tokens that were read from a text, where no identifier is spelled like a placeholder. One
matrix may hold placeholders if the state says so, which it does at the beginning of a statement
only; whatever else is read holds none that is not meant.
-/

namespace MFile.Grammar

open Parse

/-- No identifier ahead looks like a placeholder. If `opened`, the matrix that comes next may hold
placeholders. -/
structure State.Awaits (opened : Bool) (s : State) : Prop where
  named : ∀ t ∈ s.ahead, t.kind = .identifier → t.raw ≠ "~"
  flag : s.placeholders = opened
  bracket : opened = true → s.ahead.head?.map (·.kind) = some .lbracket

theorem State.Awaits.past {s s' : State} {run : List Token} (h : s.Awaits false)
    (hpass : s.Passes run s') (hflag : s'.placeholders = s.placeholders) : s'.Awaits false := by
  refine ⟨fun t ht => h.named t ?_, hflag.trans h.flag, fun h => Bool.noConfusion h⟩
  rw [hpass.ahead]
  exact List.mem_append_right run ht

namespace Parse

/-- What `p` reads has `Q`, and then no matrix may hold placeholders. -/
def Tidies {α : Type} (opened : Bool) (p : Parse α) (Q : α → Prop) : Prop :=
  ∀ ⦃s a s'⦄, State.Awaits opened s → p s = .ok a s' → s'.Awaits false ∧ Q a

def Looks {α : Type} (p : Parse α) : Prop := ∀ ⦃s a s'⦄, p s = .ok a s' → s' = s

def Passing {α : Type} (p : Parse α) : Prop :=
  ∀ ⦃s a s'⦄, p s = .ok a s' → (∃ run, s.Passes run s') ∧ s'.placeholders = s.placeholders

variable {α β : Type} {opened : Bool} {p : Parse α} {f : α → Parse β} {P : α → Prop}
  {Q : β → Prop}

namespace Tidies

theorem mono {P' : α → Prop} (h : Tidies opened p P) (hP : ∀ a, P a → P' a) :
    Tidies opened p P' :=
  fun _ a _ hs hrun => ⟨(h hs hrun).1, hP a (h hs hrun).2⟩

theorem failing (h : ∀ s a s', p s ≠ .ok a s') : Tidies opened p P :=
  fun s a s' _ hrun => absurd hrun (h s a s')

theorem pure {a : α} (h : P a) : Tidies false (Pure.pure a) P := by
  intro s b s' hs hrun
  obtain ⟨rfl, rfl⟩ := pure_ok hrun
  exact ⟨hs, h⟩

theorem bind (h : Tidies opened p P) (hf : ∀ a, P a → Tidies false (f a) Q) :
    Tidies opened (p >>= f) Q := by
  intro s b s' hs hrun
  obtain ⟨a, mid, hp, hrest⟩ := bind_ok hrun
  obtain ⟨hmid, ha⟩ := h hs hp
  exact hf a ha hmid hrest

theorem map {g : α → β} (h : Tidies opened p fun a => Q (g a)) : Tidies opened (g <$> p) Q := by
  rw [map_eq_pure_bind]
  exact h.bind fun a ha => .pure ha

theorem get {f : State → Parse β} (h : ∀ s, State.Awaits opened s → Tidies opened (f s) Q) :
    Tidies opened (MonadState.get >>= f) Q := by
  intro s b s' hs hrun
  obtain ⟨_, _, hget, hrun⟩ := bind_ok hrun
  cases hget
  exact h s hs hs hrun

theorem current? {f : Option Token → Parse β}
    (h : ∀ t, (opened = true → t.map (·.kind) = some .lbracket) → Tidies opened (f t) Q) :
    Tidies opened (Parse.current? >>= f) Q := by
  intro s b s' hs hrun
  obtain ⟨t, mid, hcurrent, hrun⟩ := bind_ok hrun
  obtain ⟨rfl, rfl⟩ := current?_ok hcurrent
  exact h _ hs.bracket hs hrun

theorem rounds (P : α → Prop) {body : α → Parse (Round α β)} {a : α} (ha : P a)
    (hbody : ∀ a, P a → Tidies false (body a) (Round.Holds P Q)) :
    Tidies false (Parse.rounds a body) Q := by
  intro s b s' hs hrun
  refine Keeps.rounds (I := fun a st => st.Awaits false ∧ P a)
    (Q := fun b st => st.Awaits false ∧ Q b) ?_ ⟨hs, ha⟩ hrun
  intro a st r st' ⟨hst, ha⟩ hround
  obtain ⟨hst', hr⟩ := hbody a ha hst hround
  cases r <;> exact ⟨hst', hr⟩

theorem mapM {g : α → Parse β} (as : List α) (hg : ∀ a ∈ as, Tidies false (g a) Q) :
    Tidies false (as.mapM g) fun bs => ∀ b ∈ bs, Q b := by
  induction as with
  | nil => exact .pure (List.forall_mem_nil _)
  | cons a as ih =>
    obtain ⟨ha, has⟩ := List.forall_mem_cons.1 hg
    rw [List.mapM_cons]
    exact ha.bind fun b hb => (ih has).bind fun bs hbs => .pure (List.forall_mem_cons.2 ⟨hb, hbs⟩)

end Tidies

theorem Looks.bind (h : Looks p) (hf : ∀ a, Tidies opened (f a) Q) :
    Tidies opened (p >>= f) Q := by
  intro s b s' hs hrun
  obtain ⟨a, mid, hp, hrest⟩ := bind_ok hrun
  rw [h hp] at hrest
  exact hf a hs hrest

theorem Passing.bind (h : Passing p) (hf : ∀ a, Tidies false (f a) Q) :
    Tidies false (p >>= f) Q := by
  intro s b s' hs hrun
  obtain ⟨a, mid, hp, hrest⟩ := bind_ok hrun
  obtain ⟨⟨run, hpass⟩, hflag⟩ := h hp
  exact hf a (hs.past hpass hflag) hrest

/-! ## Moves -/

theorem looks_peekKind? {n : Nat} : Looks (peekKind? n) := fun _ _ _ h => (peekKind?_ok h).2

theorem looks_check {kind : Kind} : Looks (check kind) := fun _ _ _ h => (check_ok h).2

theorem looks_here : Looks here := fun _ _ _ h => here_ok h

theorem looks_checkWord {word : String} : Looks (checkWord word) := by
  rintro s a s' ⟨⟩
  rfl

theorem looks_atEnd : Looks atEnd := by
  rintro s a s' ⟨⟩
  rfl

theorem looks_spanFrom {start : Location} : Looks (spanFrom start) := by
  rintro s a s' ⟨⟩
  rfl

theorem looks_wholeFile : Looks wholeFile := by
  rintro s a s' ⟨⟩
  rfl

theorem passing_freshId : Passing freshId := by
  rintro s a s' ⟨⟩
  exact ⟨⟨[], rfl, rfl⟩, rfl⟩

theorem passing_siteAt {l : Location} : Passing (siteAt l) := by
  rintro s a s' ⟨⟩
  exact ⟨⟨[], rfl, rfl⟩, rfl⟩

theorem passing_siteFrom {start : Location} : Passing (siteFrom start) := by
  rintro s a s' ⟨⟩
  exact ⟨⟨[], rfl, rfl⟩, rfl⟩

theorem passing_siteBetween {first last : Location} : Passing (siteBetween first last) := by
  rintro s a s' ⟨⟩
  exact ⟨⟨[], rfl, rfl⟩, rfl⟩

theorem passing_eatIf {q : Token → Bool} : Passing (eatIf q) := by
  intro s t s' h
  cases t with
  | none =>
    obtain ⟨rfl, -⟩ := eatIf_none h
    exact ⟨⟨[], .refl s'⟩, rfl⟩
  | some t =>
    refine ⟨⟨[t], (eatIf_some h).2⟩, ?_⟩
    rw [eatIf] at h
    split at h
    · cases h
    · split at h <;> cases h
      rfl

theorem passing_eatWhile {q : Token → Bool} : Passing (eatWhile q) := by
  intro s run s' h
  refine ⟨⟨run, (eatWhile_ok h).2⟩, ?_⟩
  cases h
  rfl

theorem passing_discard (h : Passing p) : Passing (discard p) := by
  intro s a s' hrun
  obtain ⟨_, mid, hp, hrun⟩ := bind_ok (x := p) hrun
  obtain ⟨-, rfl⟩ := pure_ok hrun
  exact h hp

theorem passing_advance : Passing advance := passing_discard passing_eatIf

theorem passing_skipSeparators : Passing skipSeparators := passing_discard passing_eatWhile

theorem passing_expect {kind : Kind} {what : Expectation} : Passing (expect kind what) := by
  intro s t s' h
  obtain ⟨found, mid, heat, hrest⟩ := bind_ok h
  cases found with
  | none => exact absurd hrest unexpected_ok
  | some t' =>
    obtain ⟨-, rfl⟩ := pure_ok hrest
    exact passing_eatIf heat

theorem passing_endStatement : Passing endStatement := by
  intro s u s' h
  obtain ⟨found, mid, heat, hrest⟩ := bind_ok h
  have hmid := passing_eatIf heat
  split at hrest
  · obtain ⟨t, after, hcurrent, hrest⟩ := bind_ok hrest
    obtain ⟨-, rfl⟩ := current?_ok hcurrent
    cases t with
    | none =>
      obtain ⟨-, rfl⟩ := pure_ok hrest
      exact hmid
    | some t =>
      dsimp only at hrest
      split at hrest
      · exact absurd hrest unexpected_ok
      · obtain ⟨-, rfl⟩ := pure_ok hrest
        exact hmid
  · obtain ⟨-, rfl⟩ := pure_ok hrest
    exact hmid

theorem passing_modify {change : State → State}
    (h : ∀ s : State, s.Passes [] (change s) ∧ (change s).placeholders = s.placeholders) :
    Passing (modify change) := by
  rintro s a s' ⟨⟩
  exact ⟨⟨[], (h s).1⟩, (h s).2⟩

/-! ## What stands around a part -/

theorem Tidies.bracketed {change : State → State} {undo : State → State → State}
    (hchange : ∀ s, (change s).ahead = s.ahead ∧ (change s).placeholders = s.placeholders)
    (hundo : ∀ s s', (undo s s').ahead = s'.ahead ∧ (undo s s').placeholders = s'.placeholders)
    (h : Tidies opened p P) : Tidies opened (Parse.bracketed change undo p) P := by
  have hmove : ∀ {o : Bool} {s s' : State}, s'.ahead = s.ahead →
      s'.placeholders = s.placeholders → s.Awaits o → s'.Awaits o := by
    intro o s s' hahead hflag hs
    exact ⟨hahead ▸ hs.named, hflag.trans hs.flag, hahead ▸ hs.bracket⟩
  intro s a s' hs hrun
  rw [Parse.bracketed] at hrun
  split at hrun
  · rename_i a' mid hp
    cases hrun
    obtain ⟨hmid, ha⟩ := h (hmove (hchange s).1 (hchange s).2 hs) hp
    exact ⟨hmove (hundo s mid).1 (hundo s mid).2 hmid, ha⟩
  · cases hrun

theorem Tidies.opening {next : Parse β} (h : ∀ opened, Tidies opened next Q) :
    Tidies false (check .lbracket >>= fun bracketed =>
      modify (fun st => { st with placeholders := bracketed }) >>= fun _ => next) Q := by
  intro s b s' hs hrun
  obtain ⟨bracketed, mid, hcheck, hrest⟩ := bind_ok hrun
  obtain ⟨hbracketed, rfl⟩ := check_ok hcheck
  obtain ⟨_, after, hmodify, hnext⟩ := bind_ok hrest
  cases hmodify
  have hafter : State.Awaits bracketed { mid with placeholders := bracketed } := by
    refine ⟨hs.named, rfl, fun hopened => ?_⟩
    rw [hopened] at hbracketed
    rw [List.head?_eq_getElem?]
    exact beq_iff_eq.1 hbracketed.symm
  exact h bracketed hafter hnext

theorem Tidies.closing {next : Parse β} (h : Tidies false next Q) :
    Tidies false (modify (fun st => { st with placeholders := false }) >>= fun _ => next) Q := by
  intro s b s' hs hrun
  obtain ⟨_, mid, hmodify, hnext⟩ := bind_ok hrun
  cases hmodify
  have hafter : State.Awaits false { s with placeholders := false } :=
    ⟨hs.named, rfl, fun h => Bool.noConfusion h⟩
  exact h hafter hnext

theorem Tidies.outsideIndex (h : Tidies false p P) : Tidies false (Parse.outsideIndex p) P :=
  .bracketed (fun _ => ⟨rfl, rfl⟩) (fun _ _ => ⟨rfl, rfl⟩) h

theorem Tidies.inFrame {frame : Frame} (h : Tidies false p P) :
    Tidies false (Parse.inFrame frame p) P :=
  .bracketed (fun _ => ⟨rfl, rfl⟩) (fun _ _ => ⟨rfl, rfl⟩) h

theorem Tidies.inMethods (h : Tidies false p P) : Tidies false (Parse.inMethods p) P :=
  .bracketed (fun _ => ⟨rfl, rfl⟩) (fun _ _ => ⟨rfl, rfl⟩) h

end Parse

end MFile.Grammar
