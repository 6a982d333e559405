import MFile.Proofs.Grammar.Lockstep.Tracks

/-!
Names side by side. A parse of part of an expression is steady if what it passes is such a part,
of at least the given length, and a second parse tracks it.
-/

namespace MFile.Grammar.Parse

variable {α β : Type} {n m k l : Nat} {s : State} {inner inner' : Parse Expr}

def Part (s : State) (least : Nat) (run : List Token) : Prop :=
  Phrase (decide (0 < s.indexDepth)) run ∧ least ≤ run.length

def Steady (least n : Nat) (p q : Parse α) : Prop :=
  ∀ s, Tracks n p q s fun _ run _ => Part s least run

namespace Part

variable {mid : State} {run run' : List Token} {t : Token} {kind : Kind}

theorem nil (s : State) : Part s 0 [] := ⟨.nil, Nat.le_refl _⟩

theorem append (h : Part s k run) (hmid : mid.indexDepth = s.indexDepth) (h' : Part mid l run') :
    Part s (k + l) (run ++ run') := by
  rw [Part, hmid] at h'
  refine ⟨h.1.append h'.1, ?_⟩
  rw [List.length_append]
  exact Nat.add_le_add h.2 h'.2

theorem least (h : Part s k run) (hl : l ≤ k) : Part s l run := ⟨h.1, hl.trans h.2⟩

theorem ne_nil (h : Part s (1 + k) run) : run ≠ [] := by
  have hlen := h.2
  rintro rfl
  simp at hlen

theorem inside (h : Part s k run) : Calm true run := h.1.toCalm.inside

def plainKind (kind : Kind) : Bool :=
  !(kind.isOpening || kind.isClosing || kind.isSeparator || kind == .keyword || kind == .directory)

theorem of_kind (h : t.kind = kind) (hkind : plainKind kind = true) : Part s 1 [t] := by
  subst h
  simp only [plainKind, Bool.not_eq_true', Bool.or_eq_false_iff, beq_eq_false_iff_ne] at hkind
  obtain ⟨⟨⟨⟨ho, hc⟩, hs⟩, hk⟩, hp⟩ := hkind
  exact ⟨.of_kind ho hc hs hk hp, Nat.le_refl _⟩

theorem all (h : ∀ t ∈ run, Part s 1 [t]) : Part s 0 run := by
  induction run with
  | nil => exact .nil s
  | cons t run ih =>
    obtain ⟨ht, hrun⟩ := List.forall_mem_cons.1 h
    exact (ht.append rfl (ih hrun)).least (by omega)

theorem closed {opener : Token} (h : Closes run) (ho : opener.kind.isOpening = true) :
    Part s 1 (opener :: run) :=
  ⟨h.phrase ho, Nat.le_add_left _ _⟩

end Part

theorem Tracks.next {x y : Parse α} {f g : α → Parse β} {V : α → List Token → State → Prop}
    (h : Tracks n x y s V)
    (hf : ∀ a run mid, s.Walks run mid → V a run mid → Part s k run ∧
      Tracks (n - k) (f a) (g a) mid fun _ more _ => Part mid l more) :
    Tracks n (x >>= f) (y >>= g) s fun _ run _ => Part s (k + l) run := by
  refine h.bind fun a run mid hwalks ha => ?_
  obtain ⟨hpart, hrest⟩ := hf a run mid hwalks ha
  refine (hrest.fewer (Nat.sub_le_sub_left hpart.2 n)).mono fun b more s₁ _ hmore => ?_
  exact hpart.append hwalks.indexDepth hmore

namespace Steady

variable {p q : Parse α} {f g : α → Parse β}

theorem fewer (h : Steady k n p q) (hm : m ≤ n) : Steady k m p q := fun s => (h s).fewer hm

theorem least (h : Steady k n p q) (hl : l ≤ k) : Steady l n p q :=
  fun s => (h s).mono fun _ _ _ _ hpart => hpart.least hl

theorem pure (a : α) : Steady 0 n (Pure.pure a) (Pure.pure a) := fun s => .pure (.nil s)

theorem bind (h : Steady k n p q) (hf : ∀ a, Steady l (n - k) (f a) (g a)) :
    Steady (k + l) n (p >>= f) (q >>= g) :=
  fun s => (h s).next fun a _ mid _ hpart => ⟨hpart, hf a mid⟩

theorem after (h : Steady 0 n p q) (hf : ∀ a, Steady l n (f a) (g a)) :
    Steady l n (p >>= f) (q >>= g) :=
  (h.bind hf).least (by omega)

theorem failing (h : ∀ s a s₁, p s ≠ .ok a s₁) : Steady k n p q := fun s => .failing (h s)

end Steady

theorem steady_siteAt (l : Location) : Steady 0 n (siteAt l) (siteAt l) :=
  fun s => (tracks_siteAt l).mono fun _ _ _ _ h => h.2.1 ▸ .nil s

theorem steady_siteBetween (first last : Location) :
    Steady 0 n (siteBetween first last) (siteBetween first last) :=
  steady_siteAt _

theorem steady_siteFrom (start : Location) : Steady 0 n (siteFrom start) (siteFrom start) :=
  fun s => (tracks_siteFrom start).mono fun _ _ _ _ h => h.2.1 ▸ .nil s

theorem steady_expect {kind : Kind} {what : Expectation} (hkind : Part.plainKind kind = true) :
    Steady 1 n (expect kind what) (expect kind what) :=
  fun _ => (tracks_expect kind what).mono fun _ _ _ _ h => h.1 ▸ .of_kind h.2 hkind

theorem steady_eat {kind : Kind} (hkind : Part.plainKind kind = true) :
    Steady 0 n (eat kind) (eat kind) := by
  refine fun s => (tracks_eatIf _).mono fun found run s₁ _ h => ?_
  cases found with
  | none => exact h.1 ▸ .nil s
  | some t => exact h.1 ▸ (Part.of_kind (by simpa using h.2.1 t rfl) hkind).least (Nat.zero_le _)

theorem tracks_advance_kind {t : Token} {kind : Kind} (ht : s.ahead.head? = some t)
    (h : t.kind = kind) (hkind : Part.plainKind kind = true) :
    Tracks n advance advance s fun _ run _ => Part s 1 run :=
  (tracks_advance ht).mono fun _ _ _ _ hrun => hrun ▸ .of_kind h hkind

theorem tracks_identifierOf (t : Token) :
    Tracks n (identifierOf t) (identifierOf t) s fun _ run _ => run = [] :=
  (tracks_siteAt t.location).bind fun _ _ _ _ h => .pure (by rw [h.2.1, List.append_nil])

theorem steady_identifierOf (t : Token) : Steady 0 n (identifierOf t) (identifierOf t) :=
  fun s => (tracks_identifierOf t).mono fun _ _ _ _ h => h ▸ .nil s

theorem steady_placeholderOf (t : Token) : Steady 0 n (placeholderOf t) (placeholderOf t) :=
  (steady_siteAt t.location).after fun _ => .pure _

theorem steady_identifier : Steady 1 n identifier identifier :=
  (steady_expect (by decide)).bind fun t => steady_identifierOf t

/-! ## Rounds -/

/-- What a round passes, if the rounds together pass a part of an expression. -/
def Turn (s : State) : Round α β → List Token → Prop
  | .again _, run => Part s 1 run
  | .done _, run => Part s 0 run

theorem Turn.of_part {r : Round α β} {run : List Token} (h : Part s (1 + k) run) :
    Turn s r run := by
  cases r <;> exact h.least (by omega)

theorem steady_rounds {body body' : α → Parse (Round α β)} (a : α)
    (hbody : ∀ a s, Tracks n (body a) (body' a) s fun r run _ => Turn s r run) :
    Steady 0 n (rounds a body) (rounds a body') := by
  refine fun s => Tracks.rounds (I := fun _ run _ => Part s 0 run) (.nil s)
    fun a run mid hwalks hpart => ((hbody a mid).fewer (Nat.sub_le _ _)).mono
      fun r more s₁ _ hmore => ?_
  cases r with
  | again b =>
    exact ⟨hmore.ne_nil (k := 0), (hpart.append hwalks.indexDepth hmore).least (by omega)⟩
  | done b => exact hpart.append hwalks.indexDepth hmore

theorem Tracks.turn {x y : Parse (Round α β)}
    (h : Tracks n x y s fun _ run _ => Part s (1 + k) run) :
    Tracks n x y s fun r run _ => Turn s r run :=
  h.mono fun _ _ _ _ hpart => .of_part hpart

def ClosingTurn : Round α β → List Token → Prop
  | .again _, run => run ≠ [] ∧ Calm true run
  | .done _, run => Closes run

theorem tracks_rounds_closing {body body' : α → Parse (Round α β)} (a : α)
    (hbody : ∀ a s, Tracks n (body a) (body' a) s fun r run _ => ClosingTurn r run) :
    Tracks n (rounds a body) (rounds a body') s fun _ run _ => Closes run := by
  refine Tracks.rounds (I := fun _ run _ => Calm true run) .nil
    fun a run mid hwalks hcalm => ((hbody a mid).fewer (Nat.sub_le _ _)).mono
      fun r more s₁ _ hmore => ?_
  cases r with
  | again b => exact ⟨hmore.1, hcalm.append hmore.2⟩
  | done b => exact .after hcalm hmore

/-! ## Dotted names and parameters -/

theorem tracks_dottedRound (name : Name) :
    Tracks n (dottedRound name) (dottedRound name) s fun r run _ => Turn s r run := by
  refine .check (.peekSecond? fun k hk => ?_)
  by_cases hselect : s.ahead.head?.map (·.kind) = some .selection
  · obtain ⟨t, ht, hkind⟩ := Option.map_eq_some_iff.1 hselect
    rw [hk (by rintro u hu; cases ht.symm.trans hu; rw [Token.isSeparator, hkind]; rfl)]
    split
    · exact .turn ((tracks_advance_kind ht hkind (by decide)).next fun _ _ mid _ hrun =>
        ⟨hrun, (steady_expect (by decide)).bind (fun field => (steady_siteBetween _ _).after
          fun _ => .pure _) mid⟩)
    · exact .pure (.nil s)
  · have hfalse : (s.ahead.head?.map (·.kind) == some .selection) = false := by simpa using hselect
    simp only [hfalse, Bool.false_and, Bool.false_eq_true, if_false]
    exact .pure (.nil s)

theorem steady_dottedName : Steady 1 n dottedName dottedName :=
  steady_identifier.bind fun first => steady_rounds first fun name _ => tracks_dottedRound name

theorem tracks_parametersRound (names : List Name) :
    Tracks n (parametersRound names) (parametersRound names) s
      fun r run _ => ClosingTurn r run := by
  refine .current? ?_
  cases ht : s.ahead.head? with
  | none => exact .failing fun _ _ => unexpected_ok
  | some t =>
    dsimp only
    generalize hkind : t.kind = kind
    split
    · refine (tracks_advance ht).bind fun _ run _ _ hrun => .pure ?_
      subst hrun
      exact Closes.single (by rw [hkind]; rfl)
    · refine (tracks_advance ht).bind fun _ run _ _ hrun => .pure ?_
      subst hrun
      exact ⟨List.cons_ne_nil _ _, .of_kind (by rw [hkind]; rfl) (by rw [hkind]; rfl)
        (by rw [hkind]; decide) (by rw [hkind]; decide)⟩
    · refine (steady_identifier s).bind fun name run _ _ hrun => .pure ?_
      rw [List.append_nil]
      exact ⟨hrun.ne_nil (k := 0), hrun.inside⟩
    · split
      · refine (tracks_advance_kind ht hkind (by decide)).bind fun _ run mid _ hrun => ?_
        refine (steady_placeholderOf t mid).bind fun name more _ _ hmore => .pure ?_
        rw [List.append_nil]
        exact ⟨by simp [hrun.ne_nil (k := 0)], hrun.inside.append hmore.inside⟩
      · exact .failing fun _ _ => unexpected_ok
    · exact .failing fun _ _ => unexpected_ok

theorem tracks_parameters : Tracks n parameters parameters s fun _ run _ => Closes run :=
  tracks_rounds_closing [] fun names _ => tracks_parametersRound names

end MFile.Grammar.Parse
