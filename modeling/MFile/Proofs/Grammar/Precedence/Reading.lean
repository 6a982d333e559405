import Mathlib.Logic.Relation
import MFile.Proofs.Grammar.Runs
import MFile.Proofs.Grammar.Precedence.Writing

/-!
Parses that are sure to end well. A parse reads a text if from every state that has the text ahead
it comes to the state right behind it; what may follow is said of the tokens that do. One rule for
a sequence and one for a repetition put texts together, so the moves of a state are spelled out
only here.
-/

namespace MFile.Grammar

/-- The next tokens have the faces of `text`, and then comes `rest`. -/
structure State.Ready (text : List Face) (rest : List Token) (inIndex : Bool) (st : State) :
    Prop where
  ahead : ∃ run, st.ahead = run ++ rest ∧ run.map Token.face = text
  depth : inIndex = true → 0 < st.indexDepth
  plain : st.placeholders = false

/-- `st'` is further on, where `rest` begins, and agrees with `st` on where it stands otherwise. -/
structure State.Reaches (st : State) (rest : List Token) (st' : State) : Prop where
  passes : ∃ run, st.Passes run st'
  ahead : st'.ahead = rest
  indexDepth : st'.indexDepth = st.indexDepth
  plain : st.placeholders = false → st'.placeholders = false

/-- From every state with the text ahead, `p` ends well right behind it. -/
def Reads {α : Type} (p : Parse α) (text : List Face) (rest : List Token) (inIndex : Bool)
    (Q : α → Prop) : Prop :=
  ∀ ⦃st⦄, st.Ready text rest inIndex → ∃ a st', p st = .ok a st' ∧ Q a ∧ st.Reaches rest st'

section

variable {st mid st' : State} {text text' : List Face} {rest rest' : List Token} {i : Bool}

theorem State.Reaches.refl (st : State) : st.Reaches st.ahead st :=
  ⟨⟨[], .refl st⟩, rfl, rfl, id⟩

theorem State.Reaches.trans (h : st.Reaches rest mid) (h' : mid.Reaches rest' st') :
    st.Reaches rest' st' := by
  obtain ⟨run, hpass⟩ := h.passes
  obtain ⟨run', hpass'⟩ := h'.passes
  exact ⟨⟨run ++ run', hpass.trans hpass'⟩, h'.ahead, h'.indexDepth.trans h.indexDepth,
    fun hplain => h'.plain (h.plain hplain)⟩

theorem State.Ready.split (h : st.Ready (text ++ text') rest i) :
    ∃ more, more.map Token.face = text' ∧ st.Ready text (more ++ rest) i := by
  obtain ⟨run, hahead, hrun⟩ := h.ahead
  obtain ⟨first, more, rfl, hfirst, hmore⟩ := List.map_eq_append_iff.1 hrun
  exact ⟨more, hmore, ⟨first, by rw [hahead, List.append_assoc], hfirst⟩, h.depth, h.plain⟩

theorem State.Reaches.ready {more : List Token} (h : st.Reaches (more ++ rest) mid)
    (hst : st.Ready text' (more ++ rest) i) (hmore : more.map Token.face = text) :
    mid.Ready text rest i :=
  ⟨⟨more, h.ahead, hmore⟩, fun hi => h.indexDepth ▸ hst.depth hi, h.plain hst.plain⟩

theorem State.Ready.nil (h : st.Ready [] rest i) : st.ahead = rest := by
  obtain ⟨run, hahead, hrun⟩ := h.ahead
  rw [hahead, List.map_eq_nil_iff.1 hrun, List.nil_append]

theorem State.Ready.cons {f : Face} (h : st.Ready (f :: text) rest i) :
    ∃ t more, st.ahead = t :: (more ++ rest) ∧ t.face = f ∧ more.map Token.face = text := by
  obtain ⟨run, hahead, hrun⟩ := h.ahead
  obtain ⟨t, more, rfl, ht, hmore⟩ := List.map_eq_cons_iff.1 hrun
  exact ⟨t, more, hahead, ht, hmore⟩

end

namespace Reads

variable {α β : Type} {text text' : List Face} {rest : List Token} {i : Bool}
  {Q : α → Prop} {R : β → Prop}

theorem pure {a : α} (h : Q a) : Reads (Pure.pure a) [] rest i Q := by
  intro st hst
  exact ⟨a, st, rfl, h, hst.nil ▸ .refl st⟩

theorem mono {p : Parse α} {Q' : α → Prop} (h : Reads p text rest i Q) (hQ : ∀ a, Q a → Q' a) :
    Reads p text rest i Q' := by
  intro st hst
  obtain ⟨a, st', hrun, ha, hreach⟩ := h hst
  exact ⟨a, st', hrun, hQ a ha, hreach⟩

/-- One parse after the other reads the one text and then the other. What the first one gives may
depend on the tokens that follow it. -/
theorem bind {x : Parse α} {f : α → Parse β} {S : List Token → α → Prop}
    (hx : ∀ more, more.map Token.face = text' → Reads x text (more ++ rest) i (S more))
    (hf : ∀ more a, more.map Token.face = text' → S more a → Reads (f a) text' rest i R) :
    Reads (x >>= f) (text ++ text') rest i R := by
  intro st hst
  obtain ⟨more, hmore, hfirst⟩ := hst.split
  obtain ⟨a, mid, hrun, ha, hreach⟩ := hx more hmore hfirst
  obtain ⟨b, st', hrun', hb, hreach'⟩ := hf more a hmore ha (hreach.ready hfirst hmore)
  exact ⟨b, st', (Parse.bind_run hrun f).trans hrun', hb, hreach.trans hreach'⟩

theorem after {x : Parse α} {f : α → Parse β} {S : List Token → α → Prop}
    (hx : ∀ more, more.map Token.face = text → Reads x [] (more ++ rest) i (S more))
    (hf : ∀ more a, more.map Token.face = text → S more a → Reads (f a) text rest i R) :
    Reads (x >>= f) text rest i R :=
  bind hx hf

theorem cons {x : Parse α} {f : α → Parse β} {first : Face}
    (hx : ∀ more, more.map Token.face = text → Reads x [first] (more ++ rest) i Q)
    (hf : ∀ a, Q a → Reads (f a) text rest i R) : Reads (x >>= f) (first :: text) rest i R :=
  bind hx fun _ a _ ha => hf a ha

theorem last {x : Parse α} {f : α → Parse β} (hx : Reads x text rest i Q)
    (hf : ∀ a, Q a → Reads (f a) [] rest i R) : Reads (x >>= f) text rest i R := by
  rw [← List.append_nil text]
  refine bind (fun more hmore => ?_) fun _ a _ ha => hf a ha
  rw [List.map_eq_nil_iff.1 hmore]
  exact hx

theorem still {p : Parse α} {Q : α → Prop}
    (h : ∀ st, st.Ready [] rest i → ∃ a, p st = .ok a st ∧ Q a) : Reads p [] rest i Q := by
  intro st hst
  obtain ⟨a, hrun, ha⟩ := h st hst
  exact ⟨a, st, hrun, ha, hst.nil ▸ .refl st⟩

theorem fresh {p : Parse α} (h : ∀ st, ∃ a, p st = .ok a { st with nodes := st.nodes + 1 }) :
    Reads p [] rest i fun _ => True := by
  intro st hst
  obtain ⟨a, hrun⟩ := h st
  exact ⟨a, _, hrun, trivial, ⟨[], rfl, rfl⟩, hst.nil, rfl, id⟩

end Reads

namespace Parse

variable {α β : Type} {text text' : List Face} {rest : List Token} {i : Bool}

theorem reads_siteAt (l : Location) : Reads (siteAt l) [] rest i fun _ => True :=
  .fresh fun _ => ⟨_, rfl⟩

theorem reads_siteBetween (first last : Location) :
    Reads (siteBetween first last) [] rest i fun _ => True :=
  .fresh fun _ => ⟨_, rfl⟩

theorem reads_siteFrom (start : Location) : Reads (siteFrom start) [] rest i fun _ => True :=
  .fresh fun _ => ⟨_, rfl⟩

theorem reads_spanFrom (start : Location) : Reads (spanFrom start) [] rest i fun _ => True :=
  .still fun _ _ => ⟨_, rfl, trivial⟩

theorem reads_current? : Reads current? [] rest i (· = rest.head?) :=
  .still fun st hst => ⟨_, rfl, by rw [hst.nil, List.head?_eq_getElem?]⟩

theorem reads_here : Reads here [] rest i fun _ => True := by
  refine .after (fun _ _ => reads_current?) fun _ found _ _ => ?_
  cases found with
  | none => exact .still fun _ _ => ⟨_, rfl, trivial⟩
  | some t => exact .pure trivial

theorem reads_peekKind? (n : Nat) :
    Reads (peekKind? n) [] rest i (· = rest[n]?.map (·.kind)) :=
  .still fun st hst => ⟨_, rfl, by rw [hst.nil]⟩

theorem reads_check (kind : Kind) :
    Reads (check kind) [] rest i (· = (rest.head?.map (·.kind) == some kind)) :=
  .still fun st hst => ⟨_, rfl, by rw [hst.nil, List.head?_eq_getElem?]⟩

theorem reads_eatIf {p : Token → Bool} {f : Face} (h : ∀ t, t.face = f → p t = true) :
    Reads (eatIf p) [f] rest i fun found => ∃ t, found = some t ∧ t.face = f := by
  intro st hst
  obtain ⟨t, more, hahead, ht, hmore⟩ := hst.cons
  obtain rfl := List.map_eq_nil_iff.1 hmore
  refine ⟨some t, { st with behind := t :: st.behind, ahead := rest }, ?_, ⟨t, rfl, ht⟩,
    ⟨[t], hahead, rfl⟩, rfl, rfl, id⟩
  rw [eatIf, hahead]
  exact if_pos (h t ht)

theorem reads_eatIf_none {p : Token → Bool} (h : ∀ t, rest.head? = some t → p t = false) :
    Reads (eatIf p) [] rest i (· = none) := by
  refine .still fun st hst => ⟨none, ?_, rfl⟩
  have hahead := hst.nil
  cases rest with
  | nil => rw [eatIf, hahead]
  | cons t ts =>
    rw [eatIf, hahead]
    exact if_neg (by rw [h t rfl]; decide)

theorem reads_advance (f : Face) : Reads advance [f] rest i fun _ => True := by
  intro st hst
  obtain ⟨found, st', hrun, -, hreach⟩ := reads_eatIf (fun _ _ => rfl) hst
  exact ⟨(), st', bind_run (x := eatIf fun _ => true) hrun _, trivial, hreach⟩

theorem reads_eat (kind : Kind) (s : String) :
    Reads (eat kind) [(kind, s)] rest i fun found => ∃ t, found = some t ∧ t.face = (kind, s) :=
  reads_eatIf fun _ ht => beq_iff_eq.2 (kind_of_face ht)

theorem reads_expect (kind : Kind) (s : String) (what : Expectation) :
    Reads (expect kind what) [(kind, s)] rest i fun t => t.face = (kind, s) := by
  intro st hst
  obtain ⟨found, st', hrun, ⟨t, rfl, ht⟩, hreach⟩ := reads_eat kind s hst
  exact ⟨t, st', bind_run (x := eat kind) hrun _, ht, hreach⟩

theorem reads_outsideIndex {p : Parse α} {Q : α → Prop} (h : Reads p text rest false Q) :
    Reads (outsideIndex p) text rest i Q := by
  intro st hst
  have hzero : State.Ready text rest false { st with indexDepth := 0 } :=
    ⟨hst.ahead, nofun, hst.plain⟩
  obtain ⟨a, st', hrun, ha, ⟨run, hpass⟩, hahead, -, hplain⟩ := h hzero
  refine ⟨a, { st' with indexDepth := st.indexDepth }, ?_, ha, ⟨run, hpass.ahead, hpass.behind⟩,
    hahead, rfl, hplain⟩
  rw [outsideIndex, bracketed, hrun]

/-! ## Repetition -/

section Rounds

variable {body : α → Parse (Round α β)} {a : α} {Q : α → Prop} {R : β → Prop}

def Again (body : α → Parse (Round α β)) (x y : α × State) : Prop :=
  body x.1 x.2 = .ok (.again y.1) y.2 ∧ y.2.ahead.length < x.2.ahead.length

theorem again_of_reads {st : State} (hne : text ≠ [])
    (h : Reads (body a) text rest i fun r => ∃ b, r = .again b ∧ Q b)
    (hst : st.Ready text rest i) :
    ∃ b st', Again body (a, st) (b, st') ∧ Q b ∧ st.Reaches rest st' := by
  obtain ⟨r, st', hrun, ⟨b, rfl, hb⟩, hreach⟩ := h hst
  obtain ⟨f, fs, rfl⟩ := List.exists_cons_of_ne_nil hne
  obtain ⟨t, more, hahead, -, -⟩ := hst.cons
  refine ⟨b, st', ⟨hrun, ?_⟩, hb, hreach⟩
  simp only [hahead, hreach.ahead, List.length_cons, List.length_append]
  omega

theorem roundsWithin_of_again {fuel : Nat} {x y : α × State} {b : β} {st' : State}
    (hchain : Relation.ReflTransGen (Again body) x y) (hdone : body y.1 y.2 = .ok (.done b) st')
    (hfuel : x.2.ahead.length < fuel) : roundsWithin body fuel x.1 x.2 = .ok b st' := by
  -- Each round of the chain passes a token, so the bound on the fuel goes down with the tokens.
  induction hchain using Relation.ReflTransGen.head_induction_on generalizing fuel with
  | refl =>
    obtain ⟨fuel, rfl⟩ := Nat.exists_eq_succ_of_ne_zero (by omega : fuel ≠ 0)
    exact (bind_run hdone _).trans rfl
  | head hagain _ ih =>
    obtain ⟨fuel, rfl⟩ := Nat.exists_eq_succ_of_ne_zero (by omega : fuel ≠ 0)
    obtain ⟨hrun, hshorter⟩ := hagain
    exact (bind_run hrun _).trans (ih (by omega))

theorem rounds_of_again {x y : α × State} {b : β} {st' : State}
    (hchain : Relation.ReflTransGen (Again body) x y) (hdone : body y.1 y.2 = .ok (.done b) st') :
    rounds x.1 body x.2 = .ok b st' := by
  induction hchain using Relation.ReflTransGen.head_induction_on with
  | refl => exact (bind_run hdone _).trans rfl
  | head hagain hrest _ =>
    refine (bind_run hagain.1 _).trans ?_
    exact roundsWithin_of_again hrest hdone (Nat.lt_succ_self _)

def Finishes (body : α → Parse (Round α β)) (a : α) (text : List Face) (rest : List Token)
    (inIndex : Bool) (R : β → Prop) : Prop :=
  ∀ ⦃st⦄, st.Ready text rest inIndex → ∃ b mid c st',
    Relation.ReflTransGen (Again body) (a, st) (b, mid) ∧ body b mid = .ok (.done c) st' ∧
      R c ∧ st.Reaches rest st'

theorem Finishes.done (h : Reads (body a) text rest i fun r => ∃ c, r = .done c ∧ R c) :
    Finishes body a text rest i R := by
  intro st hst
  obtain ⟨r, st', hrun, ⟨c, rfl, hc⟩, hreach⟩ := h hst
  exact ⟨a, st, c, st', .refl, hrun, hc, hreach⟩

theorem Finishes.cons (hne : text ≠ [])
    (hround : ∀ more, more.map Token.face = text' →
      Reads (body a) text (more ++ rest) i fun r => ∃ b, r = .again b ∧ Q b)
    (h : ∀ b, Q b → Finishes body b text' rest i R) :
    Finishes body a (text ++ text') rest i R := by
  intro st hst
  obtain ⟨more, hmore, hfirst⟩ := hst.split
  obtain ⟨b, mid, hagain, hb, hreach⟩ := again_of_reads hne (hround more hmore) hfirst
  obtain ⟨b', mid', c, st', hchain, hrun, hc, hreach'⟩ := h b hb (hreach.ready hfirst hmore)
  exact ⟨b', mid', c, st', hchain.head hagain, hrun, hc, hreach.trans hreach'⟩

theorem Finishes.rounds (h : Finishes body a text rest i R) :
    Reads (rounds a body) text rest i R := by
  intro st hst
  obtain ⟨b, mid, c, st', hchain, hrun, hc, hreach⟩ := h hst
  exact ⟨c, st', rounds_of_again hchain hrun, hc, hreach⟩

/-- A first parse and then some rounds, none of them the last, read the text. -/
def Spine (first : Parse α) (body : α → Parse (Round α β)) (text : List Face)
    (rest : List Token) (inIndex : Bool) (Q : α → Prop) : Prop :=
  ∀ ⦃st⦄, st.Ready text rest inIndex → ∃ a mid b st', first st = .ok a mid ∧
    Relation.ReflTransGen (Again body) (a, mid) (b, st') ∧ Q b ∧ st.Reaches rest st'

variable {first : Parse α}

theorem Spine.of_reads (h : Reads first text rest i Q) : Spine first body text rest i Q := by
  intro st hst
  obtain ⟨a, st', hrun, ha, hreach⟩ := h hst
  exact ⟨a, st', a, st', hrun, .refl, ha, hreach⟩

theorem Spine.snoc {Q' : α → Prop} (hne : text' ≠ [])
    (h : ∀ more, more.map Token.face = text' → Spine first body text (more ++ rest) i Q)
    (hround : ∀ b, Q b → Reads (body b) text' rest i fun r => ∃ c, r = .again c ∧ Q' c) :
    Spine first body (text ++ text') rest i Q' := by
  intro st hst
  obtain ⟨more, hmore, hfirst⟩ := hst.split
  obtain ⟨a, start, b, mid, hrun, hchain, hb, hreach⟩ := h more hmore hfirst
  obtain ⟨c, st', hagain, hc, hreach'⟩ :=
    again_of_reads hne (hround b hb) (hreach.ready hfirst hmore)
  exact ⟨a, start, c, st', hrun, hchain.tail hagain, hc, hreach.trans hreach'⟩

theorem Spine.rounds (h : Spine first body text rest i Q)
    (hdone : ∀ b, Q b → Reads (body b) [] rest i fun r => ∃ c, r = .done c ∧ R c) :
    Reads (first >>= fun a => Parse.rounds a body) text rest i R := by
  intro st hst
  obtain ⟨a, start, b, mid, hrun, hchain, hb, hreach⟩ := h hst
  have hmid : State.Ready [] rest i mid :=
    ⟨⟨[], hreach.ahead, rfl⟩, fun hi => hreach.indexDepth ▸ hst.depth hi, hreach.plain hst.plain⟩
  obtain ⟨r, st', hlast, ⟨c, rfl, hc⟩, hreach'⟩ := hdone b hb hmid
  exact ⟨c, st', (bind_run hrun _).trans (rounds_of_again hchain hlast), hc,
    hreach.trans hreach'⟩

end Rounds

end Parse

end MFile.Grammar
