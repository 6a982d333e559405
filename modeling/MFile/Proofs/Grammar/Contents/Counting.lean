import MFile.Proofs.Grammar.Runs
import MFile.Proofs.Tree.Contents

/-!
Counting what the tokens say. No token is lost if, wherever a parse stands, what has been said so
far and what the tokens ahead say add up to the same, and what has been said so far is what the
tree says in the end.
-/

namespace MFile

/-- What a token says, as the tree keeps it. -/
def Token.content? (t : Token) : Option Terminal :=
  match t.kind with
  | .identifier => some (.word t.raw)
  | .number => some (.number t.raw)
  | .string => some (.string t.value)
  | .charArray | .directory => some (.charArray t.value)
  | _ => none

def Kind.isSilent : Kind → Bool
  | identifier | number | string | charArray | directory => false
  | _ => true

theorem Token.content?_silent {t : Token} (h : t.kind.isSilent = true) : t.content? = none := by
  rw [content?]
  cases hk : t.kind <;> simp [Kind.isSilent, hk] at h ⊢

theorem Token.silent_of_eq {t : Token} {kind : Kind} (hk : kind.isSilent = true)
    (h : t.kind = kind) : t.content? = none :=
  content?_silent (h ▸ hk)

theorem Token.silent_word {t : Token} {word : String} (h : t.isWord word = true) :
    t.content? = none := by
  rw [isWord, Bool.and_eq_true, beq_iff_eq] at h
  exact silent_of_eq rfl h.1

def said (x : Terminal) (run : List Token) : Nat := (run.filterMap Token.content?).count x

section Said

variable {x : Terminal} {t : Token} {run run' : List Token}

theorem said_nil : said x [] = 0 := rfl

theorem said_append : said x (run ++ run') = said x run + said x run' := by
  rw [said, List.filterMap_append, List.count_append, said, said]

theorem said_cons : said x (t :: run) = t.content?.toList.count x + said x run := by
  rw [said, List.filterMap_cons]
  cases t.content? with
  | none => simp [said]
  | some y =>
    rw [List.count_cons, Option.toList_some, List.count_singleton, said]
    exact Nat.add_comm _ _

theorem tallies_said {α : Type} {node : α → Node} {as : List α}
    (h : List.Forall₂ (fun t a => (node a).tally x = t.content?.toList.count x) run as) :
    tallies x node as = said x run := by
  induction h with
  | nil => rfl
  | cons ha _ ih => rw [tallies_cons, ha, ih, said_cons]

theorem said_silent (h : ∀ t ∈ run, t.content? = none) : said x run = 0 := by
  rw [said, List.filterMap_eq_nil_iff.2 h, List.count_nil]

end Said

/-- If it is the placeholder that is counted, then no name among the tokens is one. -/
def Named (x : Terminal) (run : List Token) : Prop :=
  x = .word "~" → ∀ t ∈ run, t.kind = .identifier → t.raw ≠ "~"

section Named

variable {x : Terminal} {run run' : List Token}

theorem named_word_of_ne {w : String} (h : w ≠ "~") : Named (.word w) run :=
  fun hw => absurd (Terminal.word.inj hw) h

theorem Named.append_left (h : Named x (run ++ run')) : Named x run :=
  fun hx t ht => h hx t (List.mem_append_left _ ht)

theorem Named.append_right (h : Named x (run ++ run')) : Named x run' :=
  fun hx t ht => h hx t (List.mem_append_right _ ht)

theorem Node.tally_named {site : Site} {text : String} (h : x = .word "~" → text ≠ "~") :
    (Node.name (.identifier site text)).tally x = [Terminal.word text].count x := by
  rw [tally_identifier]
  split
  · rename_i htext
    rw [List.count_singleton, if_neg]
    rw [beq_iff_eq, htext]
    exact fun hx => h hx.symm htext
  · rfl

end Named

namespace Grammar.Parse

variable {α β : Type} {x : Terminal} {c k : Nat} {s : State}

def Round.After (I : α → Nat → State → Prop) (V : β → Nat → State → Prop) :
    Round α β → Nat → State → Prop
  | .again a => I a
  | .done b => V b

/-- Whenever `p` ends well, where `x` has been said `c` times before, then `U` holds of how often
it has been said by then. -/
def Says (x : Terminal) (c : Nat) (p : Parse α) (s : State) (U : α → Nat → State → Prop) : Prop :=
  Named x s.ahead → ∀ ⦃a s₁⦄, p s = .ok a s₁ →
    Named x s₁.ahead ∧ s.nodes ≤ s₁.nodes ∧
      ∃ c', c + said x s.ahead = c' + said x s₁.ahead ∧ U a c' s₁

def Tells (x : Terminal) (p : Parse α) (w : α → Nat) : Prop :=
  ∀ c s, Says x c p s fun a c' _ => c' = c + w a

namespace Says

variable {p : Parse α} {f : α → Parse β} {U : α → Nat → State → Prop} {V : β → Nat → State → Prop}

theorem mono {U' : α → Nat → State → Prop} (h : Says x c p s U)
    (hU : ∀ a c' s₁, s.nodes ≤ s₁.nodes → U a c' s₁ → U' a c' s₁) : Says x c p s U' := by
  intro hnamed a s₁ hrun
  obtain ⟨hnamed', hnodes, c', hc', ha⟩ := h hnamed hrun
  exact ⟨hnamed', hnodes, c', hc', hU a c' s₁ hnodes ha⟩

theorem and {P : α → State → Prop} (h : Says x c p s U) (hP : ∀ a s₁, p s = .ok a s₁ → P a s₁) :
    Says x c p s fun a c' s₁ => U a c' s₁ ∧ P a s₁ := by
  intro hnamed a s₁ hrun
  obtain ⟨hnamed', hnodes, c', hc', ha⟩ := h hnamed hrun
  exact ⟨hnamed', hnodes, c', hc', ha, hP a s₁ hrun⟩

theorem failing (h : ∀ a s₁, p s ≠ .ok a s₁) : Says x c p s U :=
  fun _ a s₁ hrun => absurd hrun (h a s₁)

theorem failing_bind (h : ∀ a s₁, p s ≠ .ok a s₁) : Says x c (p >>= f) s V := by
  refine .failing fun b s₁ hrun => ?_
  obtain ⟨a, mid, hp, -⟩ := bind_ok hrun
  exact h a mid hp

theorem pure {a : α} (h : U a c s) : Says x c (Pure.pure a) s U := by
  intro hnamed b s₁ hrun
  obtain ⟨rfl, rfl⟩ := pure_ok hrun
  exact ⟨hnamed, Nat.le_refl _, c, rfl, h⟩

theorem bind (h : Says x c p s U)
    (hf : ∀ a c' mid, s.nodes ≤ mid.nodes → U a c' mid → Says x c' (f a) mid V) :
    Says x c (p >>= f) s V := by
  intro hnamed b s₁ hrun
  obtain ⟨a, mid, hp, hrest⟩ := bind_ok hrun
  obtain ⟨hmid, hnodes, c', hc', ha⟩ := h hnamed hp
  obtain ⟨hnamed', hnodes', c'', hc'', hb⟩ := hf a c' mid hnodes ha hmid hrest
  exact ⟨hnamed', hnodes.trans hnodes', c'', hc'.trans hc'', hb⟩

theorem map {F : α → β} (h : Says x c p s fun a c' s₁ => V (F a) c' s₁) :
    Says x c (F <$> p) s V := by
  rw [map_eq_pure_bind]
  exact h.bind fun a c' mid _ ha => .pure ha

theorem look {a : α} (hp : p s = .ok a s) (h : Says x c (f a) s V) : Says x c (p >>= f) s V := by
  intro hnamed b s₁ hrun
  rw [bind_run hp] at hrun
  exact h hnamed hrun

theorem step {a : α} (run : List Token) (mid : State) (hp : p s = .ok a mid)
    (hahead : s.ahead = run ++ mid.ahead) (hnodes : s.nodes ≤ mid.nodes)
    (h : Named x run → Says x (c + said x run) (f a) mid V) : Says x c (p >>= f) s V := by
  intro hnamed b s₁ hrun
  rw [bind_run hp] at hrun
  rw [hahead] at hnamed ⊢
  obtain ⟨hnamed', hnodes', c', hc', hb⟩ :=
    h hnamed.append_left hnamed.append_right hrun
  refine ⟨hnamed', hnodes.trans hnodes', c', ?_, hb⟩
  rw [said_append, ← Nat.add_assoc, hc']

theorem of_ok (h : ∀ a s₁, p s = .ok a s₁ → ∃ run, s.ahead = run ++ s₁.ahead ∧
    s.nodes ≤ s₁.nodes ∧ (Named x run → U a (c + said x run) s₁)) : Says x c p s U := by
  intro hnamed a s₁ hrun
  obtain ⟨run, hahead, hnodes, ha⟩ := h a s₁ hrun
  rw [hahead] at hnamed ⊢
  refine ⟨hnamed.append_right, hnodes, c + said x run, ?_,
    ha hnamed.append_left⟩
  rw [said_append, Nat.add_assoc]

theorem rounds {body : α → Parse (Round α β)} {I : α → Nat → State → Prop} {a : α}
    (hstart : I a c s)
    (hbody : ∀ a c' mid, s.nodes ≤ mid.nodes → I a c' mid →
      Says x c' (body a) mid (Round.After I V)) : Says x c (Parse.rounds a body) s V := by
  intro hnamed b s₁ hrun
  let J (U : Nat → State → Prop) (st : State) : Prop := Named x st.ahead ∧ s.nodes ≤ st.nodes ∧
    ∃ c', c + said x s.ahead = c' + said x st.ahead ∧ U c' st
  refine Keeps.rounds (I := fun a => J (I a)) (Q := fun b => J (V b)) ?_
    ⟨hnamed, Nat.le_refl _, c, rfl, hstart⟩ hrun
  intro a st r st' ⟨hst, hnodes, c', hc', hI⟩ hround
  obtain ⟨hst', hnodes', c'', hc'', hr⟩ := hbody a c' st hnodes hI hst hround
  cases r with
  | again a' => exact ⟨hst', hnodes.trans hnodes', c'', hc'.trans hc'', hr⟩
  | done b => exact ⟨hst', hnodes.trans hnodes', c'', hc'.trans hc'', hr⟩

theorem bracketed {change : State → State} {undo : State → State → State}
    (hchange : (change s).ahead = s.ahead ∧ (change s).nodes = s.nodes)
    (hundo : ∀ mid, (undo s mid).ahead = mid.ahead ∧ (undo s mid).nodes = mid.nodes)
    (h : Says x c p (change s) fun a c' mid => U a c' (undo s mid)) :
    Says x c (Parse.bracketed change undo p) s U := by
  intro hnamed a s₁ hrun
  rw [Parse.bracketed] at hrun
  split at hrun
  · rename_i a' mid hp
    cases hrun
    rw [← hchange.1] at hnamed
    rw [(hundo mid).1, (hundo mid).2, ← hchange.1, ← hchange.2]
    exact h hnamed hp
  · cases hrun

end Says

namespace Tells

variable {p : Parse α} {f : α → Parse β} {w : α → Nat} {V : β → Nat → State → Prop}

theorem bind (h : Tells x p w)
    (hf : ∀ a mid, s.nodes ≤ mid.nodes → Says x (c + w a) (f a) mid V) :
    Says x c (p >>= f) s V := by
  refine (h c s).bind fun a c' mid hnodes hc' => ?_
  subst hc'
  exact hf a mid hnodes

theorem failing (h : ∀ s a s₁, p s ≠ .ok a s₁) : Tells x p w := fun _ s => .failing (h s)

end Tells

def Round.weigh (v : α → Nat) (w : β → Nat) : Round α β → Nat
  | .again a => v a
  | .done b => w b

def Turns (x : Terminal) (body : α → Parse (Round α β)) (v : α → Nat) (w : β → Nat) : Prop :=
  ∀ a c s, Says x (c + v a) (body a) s fun r c' _ => c' = c + Round.weigh v w r

theorem Turns.rounds {body : α → Parse (Round α β)} {v : α → Nat} {w : β → Nat}
    (h : Turns x body v w) (a : α) (c : Nat) (s : State) :
    Says x (c + v a) (Parse.rounds a body) s fun b c' _ => c' = c + w b := by
  refine .rounds (I := fun a c' _ => c' = c + v a) rfl fun a c' mid _ hc' => ?_
  subst hc'
  refine (h a c mid).mono fun r c'' _ _ hr => ?_
  cases r <;> exact hr

theorem Says.turns {body : α → Parse (Round α β)} {γ : Type} {f : β → Parse γ} {v : α → Nat}
    {w : β → Nat} {V : γ → Nat → State → Prop} {a : α} (hstart : c = k + v a)
    (h : Turns x body v w) (hf : ∀ b mid, Says x (k + w b) (f b) mid V) :
    Says x c (Parse.rounds a body >>= f) s V := by
  subst hstart
  refine (h.rounds a k s).bind fun b _ mid _ hb => ?_
  subst hb
  exact hf b mid

abbrev Silent (p : Parse α) : Prop := ∀ x, Tells x p fun _ => 0

theorem Silent.bind {p : Parse α} {f : α → Parse β} {V : β → Nat → State → Prop} (h : Silent p)
    (hf : ∀ a mid, s.nodes ≤ mid.nodes → Says x c (f a) mid V) : Says x c (p >>= f) s V :=
  (h x).bind hf

/-! ## Moves -/

namespace Says

variable {V : β → Nat → State → Prop}

theorem get {f : State → Parse β} (h : Says x c (f s) s V) :
    Says x c (MonadState.get >>= f) s V :=
  .look rfl h

theorem current? {f : Option Token → Parse β} (h : Says x c (f s.ahead.head?) s V) :
    Says x c (Parse.current? >>= f) s V :=
  .look (current?_run s) h

theorem peekKind? {n : Nat} {f : Option Kind → Parse β}
    (h : Says x c (f (s.ahead[n]?.map (·.kind))) s V) :
    Says x c (Parse.peekKind? n >>= f) s V :=
  .look rfl h

theorem peekFirst? {f : Option Kind → Parse β}
    (h : ∀ k, (∀ kind : Kind, kind.isSilent = true → k = some kind →
      ∀ t ∈ s.ahead.head?, t.content? = none) → Says x c (f k) s V) :
    Says x c (Parse.peekKind? 0 >>= f) s V := by
  refine .peekKind? (h _ fun kind hkind hk t ht => ?_)
  rw [← List.head?_eq_getElem?, Option.mem_def.1 ht] at hk
  exact Token.silent_of_eq hkind (Option.some.inj hk)

theorem check {kind : Kind} {f : Bool → Parse β}
    (h : ∀ b, (b = true → ∀ t ∈ s.ahead.head?, t.kind = kind) → Says x c (f b) s V) :
    Says x c (Parse.check kind >>= f) s V := by
  refine .look (a := s.ahead[0]?.map (·.kind) == some kind) rfl (h _ fun hb t ht => ?_)
  rw [beq_iff_eq, ← List.head?_eq_getElem?, Option.mem_def.1 ht] at hb
  exact Option.some.inj hb

theorem checkWord {word : String} {f : Bool → Parse β} (h : ∀ b, Says x c (f b) s V) :
    Says x c (Parse.checkWord word >>= f) s V :=
  .look rfl (h _)

theorem atEnd {f : Bool → Parse β} (h : Says x c (f s.ahead.isEmpty) s V) :
    Says x c (Parse.atEnd >>= f) s V :=
  .look rfl h

theorem here {f : Location → Parse β} (h : ∀ l, Says x c (f l) s V) :
    Says x c (Parse.here >>= f) s V := by
  refine .bind (U := fun _ c' st => c' = c ∧ st = s) (.of_ok fun l s₁ hrun => ?_)
    fun l c' mid _ ⟨hc', hmid⟩ => by subst hc' hmid; exact h l
  rw [here_ok hrun]
  exact ⟨[], rfl, Nat.le_refl _, fun _ => ⟨rfl, rfl⟩⟩

theorem spanFrom {start : Location} {f : Location → Parse β} (h : ∀ l, Says x c (f l) s V) :
    Says x c (Parse.spanFrom start >>= f) s V :=
  .look rfl (h _)

theorem modify {g : State → State} {f : Unit → Parse β} (hahead : (g s).ahead = s.ahead)
    (hnodes : (g s).nodes = s.nodes) (h : Says x c (f ()) (g s) V) :
    Says x c (modify g >>= f) s V :=
  .step [] (g s) rfl hahead.symm hnodes.ge fun _ => h

theorem siteAt {l : Location} {f : Site → Parse β}
    (h : ∀ mid, s.nodes < mid.nodes → Says x c (f ⟨s.nodes, l⟩) mid V) :
    Says x c (Parse.siteAt l >>= f) s V :=
  .step [] { s with nodes := s.nodes + 1 } rfl rfl (Nat.le_succ _)
    fun _ => h _ (Nat.lt_succ_self _)

theorem siteFrom {start : Location} {f : Site → Parse β}
    (h : ∀ site mid, s.nodes < mid.nodes → Says x c (f site) mid V) :
    Says x c (Parse.siteFrom start >>= f) s V :=
  .step [] { s with nodes := s.nodes + 1 } rfl rfl (Nat.le_succ _)
    fun _ => h _ _ (Nat.lt_succ_self _)

theorem siteBetween {first last : Location} {f : Site → Parse β}
    (h : ∀ site mid, s.nodes < mid.nodes → Says x c (f site) mid V) :
    Says x c (Parse.siteBetween first last >>= f) s V :=
  .siteAt (h _)

theorem freshId {f : NodeId → Parse β} (h : ∀ id mid, Says x c (f id) mid V) :
    Says x c (Parse.freshId >>= f) s V :=
  .step [] { s with nodes := s.nodes + 1 } rfl rfl (Nat.le_succ _)
    fun _ => h _ _

theorem eatIf {q : Token → Bool} {f : Option Token → Parse β}
    (hsome : ∀ t mid, s.ahead.head? = some t → q t = true → s.nodes ≤ mid.nodes →
      (x = .word "~" → t.kind = .identifier → t.raw ≠ "~") →
        Says x (c + t.content?.toList.count x) (f (some t)) mid V)
    (hnone : (∀ t ∈ s.ahead.head?, q t = false) → Says x c (f none) s V) :
    Says x c (Parse.eatIf q >>= f) s V := by
  cases hahead : s.ahead with
  | nil => exact .look (by simp only [Parse.eatIf, hahead]) (hnone (by simp [hahead]))
  | cons t rest =>
    by_cases hq : q t = true
    · refine .step [t] { s with behind := t :: s.behind, ahead := rest }
        (by simp only [Parse.eatIf, hahead, hq, if_true]; rfl) hahead (Nat.le_refl _) fun ht => ?_
      rw [said_cons, said_nil, Nat.add_zero]
      exact hsome t _ (by rw [hahead]; rfl) hq (Nat.le_refl _) fun hx => ht hx t List.mem_cons_self
    · rw [Bool.not_eq_true] at hq
      refine .look (by simp only [Parse.eatIf, hahead, hq, Bool.false_eq_true, if_false]) (hnone ?_)
      rw [hahead]
      rintro u ⟨⟩
      exact hq

theorem eatSilent {q : Token → Bool} {f : Option Token → Parse β}
    (hq : ∀ t, q t = true → t.content? = none)
    (hsome : ∀ t mid, q t = true → s.nodes ≤ mid.nodes → Says x c (f (some t)) mid V)
    (hnone : Says x c (f none) s V) : Says x c (Parse.eatIf q >>= f) s V := by
  refine .eatIf (fun t mid _ ht hnodes _ => ?_) fun _ => hnone
  rw [hq t ht, Option.toList_none, List.count_nil]
  exact hsome t mid ht hnodes

theorem eat {kind : Kind} {f : Option Token → Parse β} (hkind : kind.isSilent = true)
    (hsome : ∀ t mid, Says x c (f (some t)) mid V) (hnone : Says x c (f none) s V) :
    Says x c (Parse.eat kind >>= f) s V :=
  .eatSilent (fun _ ht => Token.silent_of_eq hkind (beq_iff_eq.1 ht)) (fun t mid _ _ => hsome t mid)
    hnone

theorem eatWord {word : String} {f : Option Token → Parse β}
    (hsome : ∀ t mid, t.isWord word = true → s.nodes ≤ mid.nodes → Says x c (f (some t)) mid V)
    (hnone : Says x c (f none) s V) : Says x c (Parse.eatWord word >>= f) s V :=
  .eatSilent (fun _ => Token.silent_word) hsome hnone

theorem eatOperator {symbols : List String} {f : Option Token → Parse β}
    (hsome : ∀ t mid, Says x c (f (some t)) mid V) (hnone : Says x c (f none) s V) :
    Says x c (Parse.eatOperator symbols >>= f) s V := by
  refine .eatSilent (fun t ht => ?_) (fun t mid _ _ => hsome t mid) hnone
  rw [Bool.and_eq_true, beq_iff_eq] at ht
  exact Token.silent_of_eq rfl ht.1

theorem eatWhile {q : Token → Bool} {f : List Token → Parse β}
    (h : ∀ taken mid, taken = s.ahead.takeWhile q → s.nodes ≤ mid.nodes → Named x taken →
      Says x (c + said x taken) (f taken) mid V) :
    Says x c (Parse.eatWhile q >>= f) s V :=
  .step _ _ rfl List.takeWhile_append_dropWhile.symm (Nat.le_refl _) (h _ _ rfl (Nat.le_refl _))

theorem discard_bind (p : Parse α) (f : Unit → Parse β) :
    discard p >>= f = p >>= fun _ => f () := by
  rw [discard, map_const, Function.comp_apply, bind_map_left]

theorem advance {t : Token} {f : Unit → Parse β} (ht : s.ahead.head? = some t)
    (h : ∀ mid, Says x (c + t.content?.toList.count x) (f ()) mid V) :
    Says x c (Parse.advance >>= f) s V := by
  rw [Parse.advance, discard_bind]
  refine .eatIf (fun u mid hu _ _ _ => ?_) fun hnone => nomatch hnone t ht
  cases ht.symm.trans hu
  exact h mid

theorem pass {f : Unit → Parse β} (hs : ∀ t ∈ s.ahead.head?, t.content? = none)
    (h : ∀ mid, Says x c (f ()) mid V) : Says x c (Parse.advance >>= f) s V := by
  rw [Parse.advance, discard_bind]
  refine .eatIf (fun t mid ht _ _ _ => ?_) fun hnone => ?_
  · rw [hs t ht, Option.toList_none, List.count_nil]
    exact h mid
  · cases hahead : s.ahead with
    | nil => exact h s
    | cons t rest => exact nomatch hnone t (by rw [hahead]; rfl)

theorem expect {kind : Kind} {what : Expectation} {f : Token → Parse β}
    (h : ∀ t mid, t.kind = kind → (kind = .identifier → x = .word "~" → t.raw ≠ "~") →
      Says x (c + t.content?.toList.count x) (f t) mid V) :
    Says x c (Parse.expect kind what >>= f) s V := by
  rw [Parse.expect, bind_assoc]
  refine .eatIf (fun t mid _ ht _ hraw => ?_) fun _ => .failing fun _ _ hrun => ?_
  · have hkind : t.kind = kind := beq_iff_eq.1 ht
    exact h t mid hkind fun hk hx => hraw hx (hkind.trans hk)
  · obtain ⟨_, _, hfail, -⟩ := bind_ok hrun
    exact unexpected_ok hfail

theorem expectSilent {kind : Kind} {what : Expectation} {f : Token → Parse β}
    (hkind : kind.isSilent = true) (h : ∀ t mid, Says x c (f t) mid V) :
    Says x c (Parse.expect kind what >>= f) s V := by
  refine .expect fun t mid ht _ => ?_
  rw [Token.silent_of_eq hkind ht, Option.toList_none, List.count_nil]
  exact h t mid

theorem discardSilent {kind : Kind} {what : Expectation} {f : Unit → Parse β}
    (hkind : kind.isSilent = true) (h : ∀ mid, Says x c (f ()) mid V) :
    Says x c (discard (Parse.expect kind what) >>= f) s V := by
  rw [discard_bind]
  exact .expectSilent hkind fun _ => h

theorem mapM {g : α → Parse β} {R : α → β → Prop} (as : List α)
    (hg : ∀ a ∈ as, ∀ s, Says x c (g a) s fun b c' _ => c' = c ∧ R a b) (s : State) :
    Says x c (as.mapM g) s fun bs c' _ => c' = c ∧ List.Forall₂ R as bs := by
  induction as generalizing s with
  | nil => exact .pure ⟨rfl, .nil⟩
  | cons a as ih =>
    obtain ⟨ha, has⟩ := List.forall_mem_cons.1 hg
    rw [List.mapM_cons]
    refine (ha s).bind fun b c' mid _ ⟨hc', hb⟩ => ?_
    subst hc'
    refine (ih has mid).bind fun bs c' last _ ⟨hc', hbs⟩ => ?_
    subst hc'
    exact .pure ⟨rfl, .cons hb hbs⟩

end Says

end Grammar.Parse

end MFile
