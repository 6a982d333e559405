import MFile.Proofs.Grammar.Relayout.Texts

/-!
The runs of a parse on two layouts. `Repeats p s q s' Q` says that `q` reads from `s'` what `p`
reads from `s`, with `Q` of what both have read and of the states they reach. Where the layout is
not respaced, `q` also fails as `p` does.
-/

namespace MFile.Grammar

open Parse

namespace Relayout

variable (ρ : Relayout) {α α' β β' : Type}

structure Repeats (p : Parse α) (s : State) (q : Parse α') (s' : State)
    (Q : α → α' → State → State → Prop) : Prop where
  ok : ∀ a t, p s = .ok a t → ∃ a' t', q s' = .ok a' t' ∧ Q a a' t t'
  error : ρ.respaced = false → ∀ e t, p s = .error e t → ∃ t', q s' = .error (ρ.error e) t'

def Done (k : Nat) (d : Depths) (F : α → α') (a : α) (a' : α') (s s' : State) : Prop :=
  ρ.Past k d s s' ∧ a' = F a

def Stay (k : Nat) (d : Depths) (F : α → α') (a : α) (a' : α') (s s' : State) : Prop :=
  ρ.At k d true s s' ∧ a' = F a

def Turn (Again : α → α' → State → State → Prop) (Q : β → β' → State → State → Prop) :
    Round α β → Round α' β' → State → State → Prop
  | .again a, .again a', s, s' => Again a a' s s'
  | .done b, .done b', s, s' => Q b b' s s'
  | _, _, _, _ => False

def Reads (k : Nat) (p : Parse α) (q : Parse α') (F : α → α') : Prop :=
  ∀ ⦃j d level s s'⦄, j < k → d.Sound → ρ.At j d level s s' →
    ρ.Repeats p s q s' (ρ.Done j d F)

section Rules

variable {ρ} {k j : Nat} {d : Depths} {level : Bool} {s s' : State} {p : Parse α} {q : Parse α'}
  {P : α → α' → State → State → Prop} {Q : β → β' → State → State → Prop} {f : α → Parse β}
  {g : α' → Parse β'} {F : α → α'}

namespace Done

theorem mono {a : α} {a' : α'} (h : ρ.Done j d F a a' s s') (hj : j ≤ k) :
    ρ.Done k d F a a' s s' :=
  ⟨h.1.mono hj, h.2⟩

theorem stay {a : α} {a' : α'} (h : ρ.Done k d F a a' s s') : ρ.Stay k d F a a' s s' :=
  ⟨h.1.toAt, h.2⟩

end Done

theorem Stay.mono {a : α} {a' : α'} (h : ρ.Stay j d F a a' s s') (hj : j ≤ k) :
    ρ.Stay k d F a a' s s' :=
  ⟨h.1.mono hj, h.2⟩

theorem Reads.fewer (h : ρ.Reads k p q F) (hj : j ≤ k) : ρ.Reads j p q F :=
  fun _ _ _ _ _ hi hd hs => h (hi.trans_le hj) hd hs

namespace Repeats

theorem mono {P' : α → α' → State → State → Prop} (h : ρ.Repeats p s q s' P)
    (hP : ∀ a a' t t', P a a' t t' → P' a a' t t') : ρ.Repeats p s q s' P' := by
  refine ⟨fun a t hrun => ?_, h.error⟩
  obtain ⟨a', t', hrun', ha⟩ := h.ok a t hrun
  exact ⟨a', t', hrun', hP a a' t t' ha⟩

theorem pure {a : α} {a' : α'} (h : P a a' s s') :
    ρ.Repeats (Pure.pure a) s (Pure.pure a') s' P := by
  constructor
  · rintro b t ⟨⟩
    exact ⟨a', s', rfl, h⟩
  · rintro - e t ⟨⟩

theorem failing (hρ : ρ.respaced = true) (h : ∀ a t, p s ≠ .ok a t) : ρ.Repeats p s q s' P :=
  ⟨fun a t hrun => absurd hrun (h a t), fun hρ' => absurd (hρ.symm.trans hρ') (by decide)⟩

theorem throw {e e' : ParseError} (h : ρ.respaced = false → e' = ρ.error e) :
    ρ.Repeats (throw e : Parse α) s (throw e' : Parse α') s' P := by
  constructor
  · rintro a t ⟨⟩
  · rintro hρ _ _ ⟨⟩
    exact ⟨s', by rw [h hρ]; rfl⟩

theorem fail {l l' : Location} {c c' : Cause} (hl : l' = ρ.place l) (hc : c' = ρ.cause c) :
    ρ.Repeats (Parse.fail l c : Parse α) s (Parse.fail l' c' : Parse α') s' P :=
  .throw fun _ => by rw [hl, hc]; rfl

theorem bind (h : ρ.Repeats p s q s' P)
    (hf : ∀ a a' t t', P a a' t t' → ρ.Repeats (f a) t (g a') t' Q) :
    ρ.Repeats (p >>= f) s (q >>= g) s' Q := by
  constructor
  · intro b u hrun
    obtain ⟨a, t, hp, hrest⟩ := bind_ok hrun
    obtain ⟨a', t', hq, ha⟩ := h.ok a t hp
    obtain ⟨b', u', hrest', hb⟩ := (hf a a' t t' ha).ok b u hrest
    exact ⟨b', u', (bind_run hq g).trans hrest', hb⟩
  · intro hρ e u hrun
    change EStateM.bind p f s = _ at hrun
    change ∃ u', EStateM.bind q g s' = _
    rw [EStateM.bind] at hrun
    rw [EStateM.bind]
    cases hp : p s with
    | ok a t =>
      rw [hp] at hrun
      obtain ⟨a', t', hq, ha⟩ := h.ok a t hp
      rw [hq]
      exact (hf a a' t t' ha).error hρ e u hrun
    | error e' t =>
      rw [hp] at hrun
      cases hrun
      obtain ⟨t', hq⟩ := h.error hρ e u hp
      rw [hq]
      exact ⟨t', rfl⟩

theorem map {F : α → β} {F' : α' → β'}
    (h : ρ.Repeats p s q s' fun a a' t t' => Q (F a) (F' a') t t') :
    ρ.Repeats (F <$> p) s (F' <$> q) s' Q := by
  rw [map_eq_pure_bind, map_eq_pure_bind]
  exact h.bind fun a a' t t' ha => .pure ha

theorem of_eq {p₁ : Parse α} {q₁ : Parse α'} {s₁ s₁' : State} (h : ρ.Repeats p₁ s₁ q₁ s₁' P)
    (hp : p s = p₁ s₁) (hq : q s' = q₁ s₁') : ρ.Repeats p s q s' P := by
  constructor
  · rw [hp, hq]
    exact h.ok
  · rw [hp, hq]
    exact h.error

/-! ## Looking at the state -/

theorem get {f : State → Parse β} {g : State → Parse β'} (h : ρ.Repeats (f s) s (g s') s' Q) :
    ρ.Repeats (MonadState.get >>= f) s (MonadState.get >>= g) s' Q :=
  h.of_eq rfl rfl

theorem current? {f : Option Token → Parse β} {g : Option Token → Parse β'}
    (h : ρ.Repeats (f s.ahead[0]?) s (g s'.ahead[0]?) s' Q) :
    ρ.Repeats (Parse.current? >>= f) s (Parse.current? >>= g) s' Q :=
  h.of_eq rfl rfl

theorem peekKind? {n : Nat} {f : Option Kind → Parse β} {g : Option Kind → Parse β'}
    (h : ρ.Repeats (f (s.ahead[n]?.map (·.kind))) s (g (s'.ahead[n]?.map (·.kind))) s' Q) :
    ρ.Repeats (Parse.peekKind? n >>= f) s (Parse.peekKind? n >>= g) s' Q :=
  h.of_eq rfl rfl

theorem check {kind : Kind} {f : Bool → Parse β} {g : Bool → Parse β'}
    (h : ρ.Repeats (f (s.ahead[0]?.map (·.kind) == some kind)) s
      (g (s'.ahead[0]?.map (·.kind) == some kind)) s' Q) :
    ρ.Repeats (Parse.check kind >>= f) s (Parse.check kind >>= g) s' Q :=
  h.of_eq rfl rfl

theorem checkWord {word : String} {f : Bool → Parse β} {g : Bool → Parse β'}
    (h : ρ.Repeats (f (s.ahead[0]?.any (·.isWord word))) s
      (g (s'.ahead[0]?.any (·.isWord word))) s' Q) :
    ρ.Repeats (Parse.checkWord word >>= f) s (Parse.checkWord word >>= g) s' Q :=
  h.of_eq rfl rfl

theorem atEnd {f : Bool → Parse β} {g : Bool → Parse β'}
    (h : ρ.Repeats (f s.ahead.isEmpty) s (g s'.ahead.isEmpty) s' Q) :
    ρ.Repeats (Parse.atEnd >>= f) s (Parse.atEnd >>= g) s' Q :=
  h.of_eq rfl rfl

theorem done (h : ρ.Repeats p s q s' (ρ.Done k d F))
    (hf : ∀ a t t' j, j < k → ρ.At j d true t t' → ρ.Repeats (f a) t (g (F a)) t' Q) :
    ρ.Repeats (p >>= f) s (q >>= g) s' Q := by
  refine h.bind ?_
  rintro a _ t t' ⟨⟨j, hj, ht⟩, rfl⟩
  exact hf a t t' j hj ht

theorem stay (h : ρ.Repeats p s q s' (ρ.Stay k d F))
    (hf : ∀ a t t', ρ.At k d true t t' → ρ.Repeats (f a) t (g (F a)) t' Q) :
    ρ.Repeats (p >>= f) s (q >>= g) s' Q := by
  refine h.bind ?_
  rintro a _ t t' ⟨ht, rfl⟩
  exact hf a t t' ht

end Repeats

theorem Reads.some (hp : ρ.Reads k p q F) :
    ρ.Reads k (some <$> p) (some <$> q) (Option.map F) := by
  intro i d level s s' hi hd h
  refine .map ((hp hi hd h).mono ?_)
  rintro e _ u u' ⟨hu, rfl⟩
  exact ⟨hu, rfl⟩

/-! ## Moves -/

theorem Facing.take {t : Token} (h : ρ.Facing k d level t s s') :
    ∃ ts ts', s.ahead = t :: ts ∧ s'.ahead = ρ.token t :: ts' ∧ ∃ j < k,
      ρ.At j (d.nest t.kind) true { s with behind := t :: s.behind, ahead := ts }
        { s' with behind := ρ.token t :: s'.behind, ahead := ts' } := by
  obtain ⟨ts, ts', hs, hs', n, hn, hahead⟩ := h.next
  exact ⟨ts, ts', hs, hs', n, hn, h.onto rfl ⟨n, Nat.le_refl n, hahead⟩ fun _ => rfl⟩

theorem Facing.advance {t : Token} {f : Unit → Parse β} {g : Unit → Parse β'}
    (h : ρ.Facing k d level t s s')
    (hf : ∀ u u' j, j < k → ρ.At j (d.nest t.kind) true u u' → ρ.Repeats (f ()) u (g ()) u' Q) :
    ρ.Repeats (Parse.advance >>= f) s (Parse.advance >>= g) s' Q := by
  obtain ⟨ts, ts', hs, hs', j, hj, hat⟩ := h.take
  refine (hf _ _ j hj hat).of_eq ?_ ?_
  · exact bind_run (advance_run hs) f
  · exact bind_run (advance_run hs') g

section Taken

variable {P : Token → Bool} {f : Option Token → Parse β} {g : Option Token → Parse β'}

theorem Repeats.taken {t t' : Token} {ts ts' : List Token} (hs : s.ahead = t :: ts)
    (hs' : s'.ahead = t' :: ts') (ht : P t = true) (ht' : P t' = true)
    (h : ρ.Repeats (f (some t)) { s with behind := t :: s.behind, ahead := ts }
      (g (some t')) { s' with behind := t' :: s'.behind, ahead := ts' } Q) :
    ρ.Repeats (Parse.eatIf P >>= f) s (Parse.eatIf P >>= g) s' Q := by
  refine h.of_eq (bind_run ?_ f) (bind_run ?_ g)
  · rw [eatIf_head hs, if_pos ht]
  · rw [eatIf_head hs', if_pos ht']

theorem Repeats.left (hs : ∀ t ∈ s.ahead.head?, P t = false)
    (hs' : ∀ t ∈ s'.ahead.head?, P t = false) (h : ρ.Repeats (f none) s (g none) s' Q) :
    ρ.Repeats (Parse.eatIf P >>= f) s (Parse.eatIf P >>= g) s' Q :=
  h.of_eq (bind_run (eatIf_skip hs) f) (bind_run (eatIf_skip hs') g)

end Taken

theorem At.eatIf {P : Token → Bool} {f : Option Token → Parse β} {g : Option Token → Parse β'}
    (h : ρ.At k d level s s') (hP : ∀ t, P (ρ.token t) = P t)
    (hsep : 0 < d.brackets ∨ ∀ t, t.isSeparator = true → P t = false)
    (hsome : ∀ t u u' j, P t = true → j < k → ρ.At j (d.nest t.kind) true u u' →
      ρ.Repeats (f (some t)) u (g (some (ρ.token t))) u' Q)
    (hnone : ρ.Repeats (f none) s (g none) s' Q) :
    ρ.Repeats (Parse.eatIf P >>= f) s (Parse.eatIf P >>= g) s' Q := by
  obtain ⟨hs, hs'⟩ | ⟨t, ht⟩ | hgap := h.view
  · exact .left (by simp [hs]) (by simp [hs']) hnone
  · obtain ⟨ts, ts', hs, hs', j, hj, hat⟩ := ht.take
    cases hPt : P t with
    | true => exact .taken hs hs' hPt ((hP t).trans hPt) (hsome t _ _ j hPt hj hat)
    | false =>
      refine .left ?_ ?_ hnone
      · simpa [hs] using hPt
      · simpa [hs', hP] using hPt
  · obtain ⟨t, t', ts, ts', hs, hs', ht, ht'⟩ := hgap.next
    have hblind := hsep.resolve_left (by rw [hgap.depth]; exact Nat.lt_irrefl 0)
    refine .left ?_ ?_ hnone
    · simpa [hs] using hblind t ht
    · simpa [hs'] using hblind t' ht'

theorem test_separator {kind : Kind} {t : Token} (hkind : kind.isSeparator = false)
    (ht : t.isSeparator = true) (b : Bool) : (t.kind == kind && b) = false := by
  rw [Bool.and_eq_false_iff]
  refine .inl (beq_eq_false_iff_ne.2 fun h => ?_)
  rw [Token.isSeparator, h, hkind] at ht
  cases ht

theorem At.eat {kind : Kind} {f : Option Token → Parse β} {g : Option Token → Parse β'}
    (h : ρ.At k d level s s') (hkind : 0 < d.brackets ∨ kind.isSeparator = false)
    (hsome : ∀ t u u' j, t.kind = kind → j < k → ρ.At j (d.nest kind) true u u' →
      ρ.Repeats (f (some t)) u (g (some (ρ.token t))) u' Q)
    (hnone : ρ.Repeats (f none) s (g none) s' Q) :
    ρ.Repeats (Parse.eat kind >>= f) s (Parse.eat kind >>= g) s' Q := by
  refine h.eatIf (fun t => by rw [ρ.kind_token]) (hkind.imp_right fun hkind t ht => ?_) ?_ hnone
  · rw [← Bool.and_true (t.kind == kind)]
    exact test_separator hkind ht true
  · intro t u u' j ht hj hu
    obtain rfl := eq_of_beq ht
    exact hsome t u u' j rfl hj hu

theorem At.eatText {kind : Kind} {p : String → Bool} {f : Option Token → Parse β}
    {g : Option Token → Parse β'} (h : ρ.At k d level s s') (hkind : kind.isSeparator = false)
    (hnest : ∀ d, kind.nest d = d)
    (hsome : ∀ t u u' j, t.kind = kind → j < k → ρ.At j d true u u' →
      ρ.Repeats (f (some t)) u (g (some (ρ.token t))) u' Q)
    (hnone : ρ.Repeats (f none) s (g none) s' Q) :
    ρ.Repeats (Parse.eatIf (fun t => t.kind == kind && p t.raw) >>= f) s
      (Parse.eatIf (fun t => t.kind == kind && p t.raw) >>= g) s' Q := by
  refine h.eatIf (fun t => ρ.test_token hkind p) (.inr fun t ht => test_separator hkind ht _) ?_
    hnone
  intro t u u' j ht hj hu
  have hk : t.kind = kind := eq_of_beq (Bool.and_eq_true_iff.1 ht).1
  rw [hk, Depths.nest, hnest] at hu
  exact hsome t u u' j hk hj hu

theorem At.eatWord {word : String} {f : Option Token → Parse β} {g : Option Token → Parse β'}
    (h : ρ.At k d level s s')
    (hsome : ∀ t u u' j, t.kind = .keyword → j < k → ρ.At j d true u u' →
      ρ.Repeats (f (some t)) u (g (some (ρ.token t))) u' Q)
    (hnone : ρ.Repeats (f none) s (g none) s' Q) :
    ρ.Repeats (Parse.eatWord word >>= f) s (Parse.eatWord word >>= g) s' Q :=
  h.eatText (p := (· == word)) rfl (fun _ => rfl) hsome hnone

theorem At.eatOperator {symbols : List String} {f : Option Token → Parse β}
    {g : Option Token → Parse β'} (h : ρ.At k d level s s')
    (hsome : ∀ t u u' j, t.kind = .operator → j < k → ρ.At j d true u u' →
      ρ.Repeats (f (some t)) u (g (some (ρ.token t))) u' Q)
    (hnone : ρ.Repeats (f none) s (g none) s' Q) :
    ρ.Repeats (Parse.eatOperator symbols >>= f) s (Parse.eatOperator symbols >>= g) s' Q :=
  h.eatText (p := symbols.contains) rfl (fun _ => rfl) hsome hnone

theorem At.eatWhile {P : Token → Bool} {f : List Token → Parse β} {g : List Token → Parse β'}
    (h : ρ.At k d level s s') (hP : ∀ t, P (ρ.token t) = P t)
    (hsep : ∀ t, t.isSeparator = true → P t = false)
    (hnest : ∀ t d, P t = true → t.kind.nest d = d)
    (hf : ∀ run u u', (∀ t ∈ run, P t = true) → ρ.At k d level u u' →
      ρ.Repeats (f run) u (g (run.map ρ.token)) u' Q) :
    ρ.Repeats (Parse.eatWhile P >>= f) s (Parse.eatWhile P >>= g) s' Q := by
  obtain ⟨n, hn, hahead⟩ := h.ahead
  obtain ⟨htake, m, hm, hdrop⟩ := hahead.split_while hP hsep hnest
  have hu : ρ.At k d level
      (s.onto ((s.ahead.takeWhile P).reverse ++ s.behind) (s.ahead.dropWhile P))
      (s'.onto ((s'.ahead.takeWhile P).reverse ++ s'.behind) (s'.ahead.dropWhile P)) := by
    refine h.onto rfl ⟨m, hm.trans hn, hdrop⟩ fun hl => ?_
    simp only [htake, List.head?_append, ← List.map_reverse, List.head?_map, h.last hl]
    cases (s.ahead.takeWhile P).reverse.head? <;> rfl
  refine (hf (s.ahead.takeWhile P) _ _ (fun t ht => List.mem_takeWhile_imp ht) hu).of_eq rfl ?_
  rw [← htake]
  rfl

/-! ## Places -/

theorem At.lastLocation (h : ρ.At k d level s s') (hlevel : ρ.respaced = false ∨ level = true)
    {f : Location → Parse β} {g : Location → Parse β'}
    (hf : ∀ l, ρ.Repeats (f l) s (g (ρ.place l)) s' Q) :
    ρ.Repeats (Parse.lastLocation >>= f) s (Parse.lastLocation >>= g) s' Q := by
  refine (hf (s.behind.head?.elim ⟨s.file, .file, none⟩ (·.location))).of_eq rfl ?_
  have hlast : s'.behind.head?.elim ⟨s'.file, .file, none⟩ (·.location) =
      ρ.place (s.behind.head?.elim ⟨s.file, .file, none⟩ (·.location)) := by
    rw [h.last hlevel, h.file]
    cases s.behind.head? with
    | none => exact (ρ.place_file s.file).symm
    | some t => exact ρ.location_token t
  rw [← hlast]
  rfl

theorem Facing.here {t : Token} {f : Location → Parse β} {g : Location → Parse β'}
    (h : ρ.Facing k d level t s s')
    (hf : ρ.Repeats (f t.location) s (g (ρ.place t.location)) s' Q) :
    ρ.Repeats (Parse.here >>= f) s (Parse.here >>= g) s' Q := by
  rw [Parse.here, bind_assoc, bind_assoc]
  refine .current? ?_
  rw [h.current, h.current']
  simp only [pure_bind, ρ.location_token]
  exact hf

theorem At.here {f : Location → Parse β} {g : Location → Parse β'} (h : ρ.At k d level s s')
    (hlevel : ρ.respaced = false ∨ level = true) (hd : ρ.respaced = false ∨ 0 < d.brackets)
    (hf : ∀ l, ρ.Repeats (f l) s (g (ρ.place l)) s' Q) :
    ρ.Repeats (Parse.here >>= f) s (Parse.here >>= g) s' Q := by
  obtain ⟨hs, hs'⟩ | ⟨t, ht⟩ | hgap := h.view
  · rw [Parse.here, bind_assoc, bind_assoc]
    refine .current? ?_
    rw [hs, hs', List.getElem?_nil]
    exact h.lastLocation hlevel hf
  · exact ht.here (hf t.location)
  · obtain hρ | hd := hd
    · exact absurd (hgap.respaced.symm.trans hρ) (by decide)
    · exact absurd hgap.depth hd.ne'

theorem At.failHere {c c' : Option Token → Cause} (h : ρ.At k d level s s')
    (hc : ∀ found, c' (found.map ρ.token) = ρ.cause (c found)) :
    ρ.Repeats (Parse.failHere c : Parse α) s (Parse.failHere c' : Parse α') s' P := by
  cases hρ : ρ.respaced with
  | true => exact .failing hρ fun _ _ => failHere_ok
  | false =>
    refine h.here (.inl hρ) (.inl hρ) fun l => .current? (.fail rfl ?_)
    rw [h.ahead_eq hρ, List.getElem?_map, hc]

theorem At.unexpected {what : Expectation} (h : ρ.At k d level s s') :
    ρ.Repeats (Parse.unexpected what : Parse α) s (Parse.unexpected what : Parse α') s' P :=
  h.failHere fun _ => rfl

theorem At.expect {kind : Kind} {what : Expectation} {f : Token → Parse β} {g : Token → Parse β'}
    (h : ρ.At k d level s s') (hkind : 0 < d.brackets ∨ kind.isSeparator = false)
    (hf : ∀ t u u' j, t.kind = kind → j < k → ρ.At j (d.nest kind) true u u' →
      ρ.Repeats (f t) u (g (ρ.token t)) u' Q) :
    ρ.Repeats (Parse.expect kind what >>= f) s (Parse.expect kind what >>= g) s' Q := by
  rw [Parse.expect, bind_assoc, bind_assoc]
  refine h.eat hkind (fun t u u' j ht hj hu => ?_) ?_
  · simp only [pure_bind]
    exact hf t u u' j ht hj hu
  · exact h.unexpected.bind fun _ _ _ _ h => h

theorem At.discardExpect {kind : Kind} {what : Expectation} {f : Unit → Parse β}
    {g : Unit → Parse β'} (h : ρ.At k d level s s')
    (hkind : 0 < d.brackets ∨ kind.isSeparator = false)
    (hf : ∀ u u' j, j < k → ρ.At j (d.nest kind) true u u' → ρ.Repeats (f ()) u (g ()) u' Q) :
    ρ.Repeats (discard (Parse.expect kind what) >>= f) s
      (discard (Parse.expect kind what) >>= g) s' Q := by
  have hexpect : ρ.Repeats (Parse.expect kind what >>= fun _ => f ()) s
      (Parse.expect kind what >>= fun _ => g ()) s' Q :=
    h.expect hkind fun _ u u' j _ => hf u u' j
  refine hexpect.of_eq ?_ ?_
  · exact congrFun (bind_assoc (Parse.expect kind what) _ f) s
  · exact congrFun (bind_assoc (Parse.expect kind what) _ g) s'

/-! ## Numbers and places of nodes -/

structure Quiet (change : State → State) : Prop where
  onto : ∀ s behind ahead, change (s.onto behind ahead) = (change s).onto behind ahead
  index : ∀ s, (change s).indexDepth = s.indexDepth

namespace Quiet

variable {change : State → State}

theorem behind (h : Quiet change) (s : State) : (change s).behind = s.behind :=
  (congrArg State.behind (h.onto s s.behind s.ahead)).trans rfl

theorem ahead (h : Quiet change) (s : State) : (change s).ahead = s.ahead :=
  (congrArg State.ahead (h.onto s s.behind s.ahead)).trans rfl

end Quiet

theorem At.change (h : ρ.At k d level s s') (change : State → State) (hq : Quiet change) :
    ρ.At k d level (change s) (change s') := by
  refine ⟨?_, (hq.index s).trans h.index, ?_, fun hl => ?_⟩
  · rw [hq.behind, hq.ahead, ← hq.onto, ← h.rest]
  · rw [hq.ahead, hq.ahead]
    exact h.ahead
  · rw [hq.behind, hq.behind]
    exact h.last hl

theorem At.modified {change : State → State} {f : PUnit → Parse β} {g : PUnit → Parse β'}
    (h : ρ.At k d level s s') (hq : Quiet change)
    (hf : ρ.At k d level (change s) (change s') →
      ρ.Repeats (f ()) (change s) (g ()) (change s') Q) :
    ρ.Repeats (modify change >>= f) s (modify change >>= g) s' Q :=
  (hf (h.change change hq)).of_eq rfl rfl

theorem At.reindexed {f : PUnit → Parse β} {g : PUnit → Parse β'} (h : ρ.At k d level s s')
    (change : Nat → Nat)
    (hf : ∀ u u', ρ.At k { d with index := change d.index } level u u' →
      ρ.Repeats (f ()) u (g ()) u' Q) :
    ρ.Repeats ((modify fun st => { st with indexDepth := change st.indexDepth }) >>= f) s
      ((modify fun st => { st with indexDepth := change st.indexDepth }) >>= g) s' Q := by
  refine (hf _ _ (h.reindex (change d.index))).of_eq ?_ ?_
  · rw [← h.index]
    rfl
  · rw [← h.index, ← h.indexDepth]
    rfl

theorem At.freshId {f : NodeId → Parse β} {g : NodeId → Parse β'} (h : ρ.At k d level s s')
    (hf : ∀ id u u', ρ.At k d level u u' → ρ.Repeats (f id) u (g id) u' Q) :
    ρ.Repeats (Parse.freshId >>= f) s (Parse.freshId >>= g) s' Q := by
  have hfresh := h.change (fun st => { st with nodes := st.nodes + 1 })
    ⟨fun _ _ _ => rfl, fun _ => rfl⟩
  refine (hf s.nodes _ _ hfresh).of_eq rfl ?_
  rw [← h.nodes]
  rfl

theorem At.siteAt {l : Location} {f : Site → Parse β} {g : Site → Parse β'}
    (h : ρ.At k d level s s')
    (hf : ∀ site u u', ρ.At k d level u u' →
      ρ.Repeats (f site) u (g (site.relocate ρ.place)) u' Q) :
    ρ.Repeats (Parse.siteAt l >>= f) s (Parse.siteAt (ρ.place l) >>= g) s' Q := by
  rw [Parse.siteAt, Parse.siteAt, bind_assoc, bind_assoc]
  exact h.freshId fun id u u' hu => hf ⟨id, l⟩ u u' hu

theorem At.siteBetween {first last : Location} {f : Site → Parse β} {g : Site → Parse β'}
    (h : ρ.At k d level s s')
    (hf : ∀ site u u', ρ.At k d level u u' →
      ρ.Repeats (f site) u (g (site.relocate ρ.place)) u' Q) :
    ρ.Repeats (Parse.siteBetween first last >>= f) s
      (Parse.siteBetween (ρ.place first) (ρ.place last) >>= g) s' Q := by
  rw [Parse.siteBetween, Parse.siteBetween, ← ρ.place_extendTo]
  exact h.siteAt hf

theorem At.spanFrom {start : Location} {f : Location → Parse β} {g : Location → Parse β'}
    (h : ρ.At k d true s s') (hf : ∀ l, ρ.Repeats (f l) s (g (ρ.place l)) s' Q) :
    ρ.Repeats (Parse.spanFrom start >>= f) s (Parse.spanFrom (ρ.place start) >>= g) s' Q := by
  rw [Parse.spanFrom, Parse.spanFrom, bind_assoc, bind_assoc]
  refine h.lastLocation (.inr rfl) fun l => ?_
  rw [pure_bind, pure_bind, ← ρ.place_extendTo]
  exact hf _

theorem At.siteFrom {start : Location} {f : Site → Parse β} {g : Site → Parse β'}
    (h : ρ.At k d true s s')
    (hf : ∀ site u u', ρ.At k d true u u' →
      ρ.Repeats (f site) u (g (site.relocate ρ.place)) u' Q) :
    ρ.Repeats (Parse.siteFrom start >>= f) s (Parse.siteFrom (ρ.place start) >>= g) s' Q := by
  rw [Parse.siteFrom, Parse.siteFrom, bind_assoc, bind_assoc]
  exact h.spanFrom fun l => h.siteAt hf

/-! ## Changed states -/

theorem Repeats.bracketed {change : State → State} {undo : State → State → State}
    {P' : α → α' → State → State → Prop} (h : ρ.Repeats p (change s) q (change s') P)
    (hP : ∀ a a' t t', P a a' t t' → P' a a' (undo s t) (undo s' t')) :
    ρ.Repeats (Parse.bracketed change undo p) s (Parse.bracketed change undo q) s' P' := by
  constructor
  · intro a t hrun
    rw [Parse.bracketed] at hrun
    split at hrun
    · rename_i b u hp
      cases hrun
      obtain ⟨b', u', hq, hb⟩ := h.ok a u hp
      exact ⟨b', undo s' u', by rw [Parse.bracketed, hq], hP a b' u u' hb⟩
    · cases hrun
  · intro hρ e t hrun
    rw [Parse.bracketed] at hrun
    split at hrun
    · cases hrun
    · rename_i e' u hp
      cases hrun
      obtain ⟨u', hq⟩ := h.error hρ e u hp
      exact ⟨undo s' u', by rw [Parse.bracketed, hq]⟩

theorem At.outsideIndex (h : ρ.At j d level s s') (hj : j < k) (hp : ρ.Reads k p q F) :
    ρ.Repeats (Parse.outsideIndex p) s (Parse.outsideIndex q) s' (ρ.Done j d F) := by
  refine (hp hj (Nat.zero_le _) (h.reindex 0)).bracketed ?_
  rintro a a' t t' ⟨⟨i, hi, ht⟩, ha⟩
  rw [h.indexDepth, h.index]
  exact ⟨⟨i, hi, ht.reindex d.index⟩, ha⟩

/-! ## Repetitions -/

section Rounds

variable {body : α → Parse (Round α β)} {body' : α' → Parse (Round α' β')}
  {S : Nat → State → State → Prop}

def Turns (S : Nat → State → State → Prop) (j : Nat) (F : α → α')
    (Q : β → β' → State → State → Prop) :
    Round α β → Round α' β' → State → State → Prop :=
  Turn (fun a a' t t' => (∃ i < j, S i t t') ∧ a' = F a) Q

theorem Repeats.roundsWithin {fuel fuel' : Nat} {a : α}
    (hfuel : ρ.respaced = false → fuel' = fuel) (hk : k < fuel') (hs : S k s s')
    (hbody : ∀ j ≤ k, ∀ a t t', S j t t' →
      ρ.Repeats (body a) t (body' (F a)) t' (Turns S j F Q)) :
    ρ.Repeats (Parse.roundsWithin body fuel a) s (Parse.roundsWithin body' fuel' (F a)) s' Q := by
  induction fuel generalizing fuel' a k s s' with
  | zero =>
    cases hρ : ρ.respaced with
    | true => exact .failing hρ fun _ _ => stalled_ok
    | false => exact absurd hk (by rw [hfuel hρ]; exact Nat.not_lt_zero k)
  | succ fuel ih =>
    obtain ⟨fuel', rfl⟩ : ∃ n, fuel' = n + 1 := ⟨fuel' - 1, by omega⟩
    refine (hbody k (Nat.le_refl k) a s s' hs).bind fun r r' t t' hr => ?_
    cases r <;> cases r'
    case again.again a a' =>
      obtain ⟨⟨i, hi, ht⟩, rfl⟩ := hr
      exact ih (fun hρ => Nat.succ.inj (hfuel hρ)) (by omega) ht
        fun j hj => hbody j (hj.trans hi.le)
    case done.done b b' => exact .pure hr
    all_goals exact hr.elim

/-- The rounds of both are as many, for each but the last passes a token that stands in both
texts. -/
theorem Repeats.rounds {a : α} (hs : S k s s')
    (hexact : ∀ j t t', S j t t' → ∃ i ≤ j, i ≤ t'.ahead.length ∧ S i t t')
    (hlength : ρ.respaced = false → ∀ j t t', S j t t' → t'.ahead.length = t.ahead.length)
    (hbody : ∀ j ≤ k, ∀ a t t', S j t t' →
      ρ.Repeats (body a) t (body' (F a)) t' (Turns S j F Q)) :
    ρ.Repeats (Parse.rounds a body) s (Parse.rounds (F a) body') s' Q := by
  refine (hbody k (Nat.le_refl k) a s s' hs).bind fun r r' t t' hr => ?_
  cases r <;> cases r'
  case again.again a a' =>
    obtain ⟨⟨i, hi, ht⟩, rfl⟩ := hr
    obtain ⟨n, hn, hlen, hn'⟩ := hexact i t t' ht
    refine .get (.roundsWithin (fun hρ => ?_) (Nat.lt_succ_of_le hlen) hn' fun j hj => hbody j ?_)
    · rw [hlength hρ n t t' hn']
    · omega
  case done.done b b' => exact .pure hr
  all_goals exact hr.elim

theorem At.rounds {a : α} (h : ρ.At k d level s s')
    (hbody : ∀ j ≤ k, ∀ a t t', ρ.At j d level t t' →
      ρ.Repeats (body a) t (body' (F a)) t' (Turn (ρ.Done j d F) Q)) :
    ρ.Repeats (Parse.rounds a body) s (Parse.rounds (F a) body') s' Q := by
  refine .rounds (S := fun j => ρ.At j d level) h (fun j t t' ht => ht.exactly)
    (fun hρ j t t' ht => by rw [ht.ahead_eq hρ, List.length_map]) fun j hj a t t' ht => ?_
  refine (hbody j hj a t t' ht).mono fun r r' u u' hr => ?_
  cases r <;> cases r'
  case again.again a a' =>
    obtain ⟨⟨i, hi, hu⟩, ha⟩ := hr
    exact ⟨⟨i, hi, hu.any level⟩, ha⟩
  case done.done b b' => exact hr
  all_goals exact hr.elim

end Rounds

theorem At.mapM {γ γ' : Type} {G : γ → γ'} {x : γ → Parse α} {y : γ' → Parse α'}
    (h : ρ.At k d level s s') (cs : List γ)
    (hx : ∀ c ∈ cs, ∀ t t', ρ.At k d level t t' → ρ.Repeats (x c) t (y (G c)) t'
      fun a a' u u' => ρ.At k d level u u' ∧ a' = F a) :
    ρ.Repeats (cs.mapM x) s ((cs.map G).mapM y) s'
      fun as as' t t' => ρ.At k d level t t' ∧ as' = as.map F := by
  induction cs generalizing s s' with
  | nil => exact .pure ⟨h, rfl⟩
  | cons c cs ih =>
    obtain ⟨hc, hcs⟩ := List.forall_mem_cons.1 hx
    rw [List.map_cons, List.mapM_cons, List.mapM_cons]
    refine (hc s s' h).bind ?_
    rintro a _ t t' ⟨ht, rfl⟩
    refine (ih ht hcs).bind ?_
    rintro as _ u u' ⟨hu, rfl⟩
    exact .pure ⟨hu, rfl⟩

end Rules

end Relayout

end MFile.Grammar
