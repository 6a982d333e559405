import Mathlib.Data.List.Forall2
import MFile.Proofs.Grammar.Onward.Files
import MFile.Proofs.Grammar.Placement.Yields
import MFile.Proofs.Grammar.Precedence.Reading
import MFile.Proofs.Tree.Contents

/-!
Lists of parameters. A list is read token by token: names and placeholders are taken as they come,
commas are passed, and a closing parenthesis ends the list. So commas may stand anywhere among the
parameters, and nothing depends on where they do.
-/

namespace MFile

/-- A token that is a parameter by itself: a name, or the sign that leaves one out. -/
def Token.isParameter (t : Token) : Bool := t.kind == .identifier || t.isOperator "~"

def Name.ReadFrom (n : Name) (t : Token) : Prop := ∃ id, n = .identifier ⟨id, t.location⟩ t.raw

/-- Parameters and commas in any order, and the names that the parameters are. -/
structure Listing (items : List Token) (names : List Name) : Prop where
  mixed : ∀ t ∈ items, t.isParameter = true ∨ t.kind = .comma
  named : List.Forall₂ Name.ReadFrom names (items.filter Token.isParameter)

namespace Listing

variable {items more : List Token} {names names' : List Name} {t : Token} {n : Name}

theorem nil : Listing [] [] := ⟨List.forall_mem_nil _, .nil⟩

theorem append (h : Listing items names) (h' : Listing more names') :
    Listing (items ++ more) (names ++ names') := by
  constructor
  · exact List.forall_mem_append.2 ⟨h.mixed, h'.mixed⟩
  · rw [List.filter_append]
    exact List.rel_append h.named h'.named

theorem parameter (ht : t.isParameter = true) (hn : n.ReadFrom t) : Listing [t] [n] := by
  constructor
  · simp [ht]
  · simpa [ht] using hn

theorem comma (ht : t.kind = .comma) : Listing [t] [] := by
  constructor
  · simp [ht]
  · simp [Token.isParameter, Token.isOperator, ht]

end Listing

namespace Grammar.Parse

variable {s s' : State} {t : Token} {items rest : List Token} {names : List Name}

/-! ## One round -/

section Rounds

variable (hahead : s.ahead = t :: rest)

include hahead

theorem current?_some : current? s = .ok (some t) s := by
  rw [current?_run, hahead, List.head?_cons]

theorem eatIf_of {p : Token → Bool} (ht : p t = true) :
    eatIf p s = .ok (some t) (s.past t rest) :=
  (eatIf_head hahead).trans (if_pos ht)

theorem identifier_run (ht : t.kind = .identifier) :
    identifier s = .ok (.identifier ⟨s.nodes, t.location⟩ t.raw) (s.past t rest).numbered := by
  have heat : eat .identifier s = .ok (some t) (s.past t rest) := eatIf_of hahead (by simp [ht])
  rw [identifier, expect, bind_assoc, bind_run heat]
  rfl

theorem parametersRound_close (ht : t.kind = .rparen) :
    parametersRound names s = .ok (.done names) (s.past t rest) := by
  rw [parametersRound, bind_run (current?_some hahead)]
  simp only [ht]
  exact bind_run (advance_run hahead) _

theorem parametersRound_comma (ht : t.kind = .comma) :
    parametersRound names s = .ok (.again names) (s.past t rest) := by
  rw [parametersRound, bind_run (current?_some hahead)]
  simp only [ht]
  exact bind_run (advance_run hahead) _

theorem parametersRound_parameter (ht : t.isParameter = true) : parametersRound names s =
    .ok (.again (names ++ [.identifier ⟨s.nodes, t.location⟩ t.raw])) (s.past t rest).numbered := by
  simp only [Token.isParameter, Token.isOperator, Bool.or_eq_true, Bool.and_eq_true,
    beq_iff_eq] at ht
  rw [parametersRound, bind_run (current?_some hahead)]
  obtain hkind | ⟨hkind, hraw⟩ := ht
  · simp only [hkind]
    exact bind_run (identifier_run hahead hkind) _
  · simp only [hkind, hraw, if_true]
    exact bind_run (advance_run hahead) _

theorem parametersRound_other (hclose : t.kind ≠ .rparen) (hcomma : t.kind ≠ .comma)
    (hparameter : t.isParameter = false) {r : Round (List Name) (List Name)} :
    parametersRound names s ≠ .ok r s' := by
  simp only [Token.isParameter, Token.isOperator, Bool.or_eq_false_iff, Bool.and_eq_false_iff,
    beq_eq_false_iff_ne] at hparameter
  rw [parametersRound, bind_run (current?_some hahead)]
  cases hkind : t.kind with
  | rparen => exact absurd hkind hclose
  | comma => exact absurd hkind hcomma
  | identifier => exact absurd hkind hparameter.1
  | operator =>
    simp only [hkind, hparameter.2.resolve_left (not_not_intro hkind), if_false]
    exact unexpected_ok
  | _ =>
    simp only [hkind]
    exact unexpected_ok

end Rounds

theorem parametersRound_ok {r : Round (List Name) (List Name)}
    (h : parametersRound names s = .ok r s') : ∃ t, s.Passes [t] s' ∧
      (t.kind = .rparen ∧ r = .done names ∨
        ∃ more, Listing [t] more ∧ r = .again (names ++ more)) := by
  cases hahead : s.ahead with
  | nil =>
    rw [parametersRound, bind_run (current?_run s), hahead] at h
    exact absurd h unexpected_ok
  | cons t rest =>
    by_cases hclose : t.kind = .rparen
    · cases (parametersRound_close hahead hclose).symm.trans h
      exact ⟨t, ⟨hahead, rfl⟩, .inl ⟨hclose, rfl⟩⟩
    by_cases hcomma : t.kind = .comma
    · cases (parametersRound_comma hahead hcomma).symm.trans h
      exact ⟨t, ⟨hahead, rfl⟩, .inr ⟨[], .comma hcomma, by simp⟩⟩
    cases hparameter : t.isParameter with
    | true =>
      cases (parametersRound_parameter hahead hparameter).symm.trans h
      exact ⟨t, ⟨hahead, rfl⟩, .inr ⟨_, .parameter hparameter ⟨s.nodes, rfl⟩, rfl⟩⟩
    | false => exact absurd h (parametersRound_other hahead hclose hcomma hparameter)

/-! ## Whole lists -/

theorem parameters_ok (h : parameters s = .ok names s') : ∃ items closer,
    s.Passes (items ++ [closer]) s' ∧ closer.kind = .rparen ∧ Listing items names := by
  refine Keeps.rounds (I := fun ns st => ∃ items, s.Passes items st ∧ Listing items ns)
    (Q := fun ns st => ∃ items closer,
      s.Passes (items ++ [closer]) st ∧ closer.kind = .rparen ∧ Listing items ns)
    ?_ ⟨[], .refl s, .nil⟩ h
  intro ns st r st' hlisted hround
  obtain ⟨items, hpasses, hlisting⟩ := hlisted
  obtain ⟨t, ht, ⟨hclose, rfl⟩ | ⟨more, hmore, rfl⟩⟩ := parametersRound_ok hround
  · exact ⟨items, t, hpasses.trans ht, hclose, hlisting⟩
  · exact ⟨items ++ [t], hpasses.trans ht, hlisting.append hmore⟩

theorem exists_again (hahead : s.ahead = items ++ rest)
    (hitems : ∀ t ∈ items, t.isParameter = true ∨ t.kind = .comma) (names : List Name) :
    ∃ more s', Relation.ReflTransGen (Again parametersRound) (names, s) (names ++ more, s') ∧
      s'.ahead = rest ∧ Listing items more := by
  induction items generalizing s names with
  | nil => exact ⟨[], s, by simp [Relation.ReflTransGen.refl], hahead, .nil⟩
  | cons t items ih =>
    obtain ⟨ht, hitems⟩ := List.forall_mem_cons.1 hitems
    have hshorter : (items ++ rest).length < s.ahead.length := by simp [hahead]
    obtain hparameter | hcomma := ht
    · obtain ⟨more, s', hagain, hrest, hmore⟩ := ih (s := (s.past t (items ++ rest)).numbered) rfl
        hitems (names ++ [.identifier ⟨s.nodes, t.location⟩ t.raw])
      rw [List.append_assoc] at hagain
      exact ⟨_, s', .head ⟨parametersRound_parameter hahead hparameter, hshorter⟩ hagain, hrest,
        (Listing.parameter hparameter ⟨s.nodes, rfl⟩).append hmore⟩
    · obtain ⟨more, s', hagain, hrest, hmore⟩ := ih (s := s.past t (items ++ rest)) rfl hitems names
      exact ⟨more, s', .head ⟨parametersRound_comma hahead hcomma, hshorter⟩ hagain, hrest,
        (Listing.comma hcomma).append hmore⟩

theorem exists_parameters {closer : Token} (hahead : s.ahead = items ++ closer :: rest)
    (hitems : ∀ t ∈ items, t.isParameter = true ∨ t.kind = .comma)
    (hcloser : closer.kind = .rparen) :
    ∃ names s', parameters s = .ok names s' ∧ s'.ahead = rest ∧ Listing items names := by
  obtain ⟨names, mid, hagain, hrest, hlisting⟩ := exists_again hahead hitems []
  exact ⟨names, mid.past closer rest,
    rounds_of_again hagain (parametersRound_close hrest hcloser), rfl, hlisting⟩

/-! ## What is drawn from the tokens of a file -/

end Grammar.Parse

def Enclosed (view : List Token) (names : List Name) : Prop :=
  names ≠ [] → ∃ before opener items closer after,
    view = before ++ opener :: (items ++ closer :: after) ∧
      opener.kind = .lparen ∧ closer.kind = .rparen ∧ Listing items names

@[simp] theorem enclosed_nil (view : List Token) : Enclosed view [] := fun h => absurd rfl h

namespace Node

variable {view : List Token} {node : Node}

/-- The inputs of a function and the parameters of a lambda. -/
@[simp] def parameters : Node → List Name
  | signature sig => sig.inputs
  | expr (.lambda _ names _) => names
  | _ => []

/-- All parameters of a tree stand in parentheses among these tokens. -/
def Listed (view : List Token) (node : Node) : Prop := ∀ d ∈ node.nodes, Enclosed view d.parameters

theorem listed_iff : node.Listed view ↔
    Enclosed view node.parameters ∧ ∀ c ∈ node.children, c.2.Listed view := by
  constructor
  · intro h
    exact ⟨h node (mem_nodes_self node), fun c hc d hd => h d (mem_nodes_iff.2 (.inr ⟨c, hc, hd⟩))⟩
  · rintro ⟨hnode, hchildren⟩ d hd
    obtain rfl | ⟨c, hc, hd⟩ := mem_nodes_iff.1 hd
    · exact hnode
    · exact hchildren c hc d hd

end Node

def AllListed {α : Type} (view : List Token) (node : α → Node) (as : List α) : Prop :=
  ∀ a ∈ as, (node a).Listed view

namespace AllListed

variable {α : Type} {view : List Token} {node : α → Node} {as : List α} {a : α}

theorem nil : AllListed view node [] := List.forall_mem_nil _

theorem concat (has : AllListed view node as) (ha : (node a).Listed view) :
    AllListed view node (as ++ [a]) :=
  List.forall_mem_append.2 ⟨has, List.forall_mem_singleton.2 ha⟩

end AllListed

theorem listed_identifier {view : List Token} (site : Site) (text : String) :
    (Node.name (.identifier site text)).Listed view :=
  Node.listed_iff.2 (by simp)

theorem Enclosed.listed {view : List Token} {names : List Name} (h : Enclosed view names) :
    AllListed view .name names := by
  intro n hn
  obtain ⟨before, opener, items, closer, after, -, -, -, hlisting⟩ := h (List.ne_nil_of_mem hn)
  have hnames : List.Forall₂ (fun n t => (Node.name n).Listed view ∧ n.ReadFrom t) names
      (items.filter Token.isParameter) := by
    apply hlisting.named.imp
    rintro n t ⟨id, rfl⟩
    exact ⟨listed_identifier _ _, id, rfl⟩
  exact ((List.forall₂_and_left _ _).1 hnames).1 n hn

namespace Grammar.Parse

variable {α β : Type} {view : List Token} {p : Parse α} {f : α → Parse β} {P : α → Prop}
  {Q : β → Prop}

/-- Anywhere in these tokens, `p` only moves among them, and what it draws from them has `P`. -/
def Draws (view : List Token) (p : Parse α) (P : α → Prop) : Prop :=
  ∀ ⦃s a s'⦄, s.view = view → p s = .ok a s' → s'.view = view ∧ P a

theorem MovesOn.view_eq (h : MovesOn p) {s s' : State} {a : α} (hrun : p s = .ok a s') :
    s'.view = s.view := by
  obtain ⟨run, hpasses⟩ := (h s).1
  rw [hrun] at hpasses
  exact hpasses.view_eq

theorem onward_punctuation {kind : Kind} {what : Expectation} :
    MovesOn (discard (expect kind what)) :=
  onward_expect.discard

theorem MovesOn.before (h : MovesOn p) (hf : ∀ a, Draws view (f a) Q) :
    Draws view (p >>= f) Q := by
  intro s b s' hs hrun
  obtain ⟨a, mid, hp, hrest⟩ := bind_ok hrun
  exact hf a ((h.view_eq hp).trans hs) hrest

namespace Draws

theorem failing (h : ∀ s a s', p s ≠ .ok a s') : Draws view p P :=
  fun s a s' _ hrun => absurd hrun (h s a s')

theorem pure {a : α} (h : P a) : Draws view (Pure.pure a) P := by
  intro s b s' hs hrun
  obtain ⟨rfl, rfl⟩ := pure_ok hrun
  exact ⟨hs, h⟩

theorem mono {P' : α → Prop} (h : Draws view p P) (hP : ∀ a, P a → P' a) : Draws view p P' :=
  fun _ a _ hs hrun => ⟨(h hs hrun).1, hP a (h hs hrun).2⟩

theorem bind (h : Draws view p P) (hf : ∀ a, P a → Draws view (f a) Q) :
    Draws view (p >>= f) Q := by
  intro s b s' hs hrun
  obtain ⟨a, mid, hp, hrest⟩ := bind_ok hrun
  obtain ⟨hmid, ha⟩ := h hs hp
  exact hf a ha hmid hrest

theorem map {g : α → β} (h : Draws view p fun a => Q (g a)) : Draws view (g <$> p) Q := by
  rw [map_eq_pure_bind]
  exact h.bind fun a ha => .pure ha

theorem get {f : State → Parse β} (h : ∀ s, Draws view (f s) Q) :
    Draws view (MonadState.get >>= f) Q :=
  fun s _ _ hs hrun => h s hs hrun

theorem modify {g : State → State} {f : PUnit → Parse β} (hg : ∀ s, (g s).view = s.view)
    (h : ∀ u, Draws view (f u) Q) :
    Draws view (MonadStateOf.modifyGet (fun s => (⟨⟩, g s)) >>= f) Q :=
  fun s _ _ hs hrun => h ⟨⟩ ((hg s).trans hs) hrun

theorem rounds (P : α → Prop) {body : α → Parse (Round α β)} {a : α} (ha : P a)
    (hbody : ∀ a, P a → Draws view (body a) (Round.Holds P Q)) :
    Draws view (Parse.rounds a body) Q := by
  intro s b s' hs hrun
  refine Keeps.rounds (I := fun a st => st.view = view ∧ P a)
    (Q := fun b st => st.view = view ∧ Q b) ?_ ⟨hs, ha⟩ hrun
  intro a st r st' ⟨hst, ha⟩ hround
  have hr := hbody a ha hst hround
  cases r <;> exact hr

theorem mapM {g : α → Parse β} (as : List α) (hg : ∀ a ∈ as, Draws view (g a) Q) :
    Draws view (as.mapM g) fun bs => ∀ b ∈ bs, Q b := by
  induction as with
  | nil => exact .pure (List.forall_mem_nil _)
  | cons a as ih =>
    obtain ⟨ha, has⟩ := List.forall_mem_cons.1 hg
    rw [List.mapM_cons]
    exact ha.bind fun b hb => (ih has).bind fun bs hbs => .pure (List.forall_mem_cons.2 ⟨hb, hbs⟩)

theorem bracketed {change : State → State} {undo : State → State → State} (h : Draws view p P)
    (hchange : ∀ s, (change s).view = s.view) (hundo : ∀ s s', (undo s s').view = s'.view) :
    Draws view (Parse.bracketed change undo p) P := by
  intro s a s' hs hrun
  rw [Parse.bracketed] at hrun
  split at hrun
  · rename_i hp
    cases hrun
    obtain ⟨hmid, ha⟩ := h ((hchange s).trans hs) hp
    exact ⟨(hundo _ _).trans hmid, ha⟩
  · cases hrun

theorem outsideIndex (h : Draws view p P) : Draws view (Parse.outsideIndex p) P :=
  h.bracketed (fun _ => rfl) fun _ _ => rfl

theorem parenthesised {f : Option Token → Parse β} {g : List Name → Parse β}
    (hopen : ∀ t, f (some t) = parameters >>= g)
    (hg : ∀ names, Enclosed view names → Draws view (g names) Q) (hnone : Draws view (f none) Q) :
    Draws view (eat .lparen >>= f) Q := by
  intro s b s' hs hrun
  obtain ⟨found, mid, heat, hrun⟩ := bind_ok hrun
  have hmid := (onward_eatIf.view_eq heat).trans hs
  cases found with
  | none => exact hnone hmid hrun
  | some opener =>
    obtain ⟨hopener, hpast⟩ := eatIf_some heat
    rw [hopen] at hrun
    obtain ⟨names, mid', hnames, hrun⟩ := bind_ok hrun
    obtain ⟨items, closer, hpasses, hcloser, hlisting⟩ := parameters_ok hnames
    refine hg names (fun _ => ?_) ((onward_parameters.view_eq hnames).trans hmid) hrun
    refine ⟨s.behind.reverse, opener, items, closer, mid'.ahead, ?_, by simpa using hopener,
      hcloser, hlisting⟩
    rw [← hs, State.view, hpast.ahead, hpasses.ahead]
    simp

end Draws

end Grammar.Parse

end MFile
