import MFile.Proofs.Grammar.Precedence.Reading
import MFile.Proofs.Token.Depth

/-!
Two parses side by side. What a parse makes of a run depends on little around it: on the number
and place it starts with, on the frames up to the innermost function, and, of the tokens behind
the run, on those up to the next separator. So wherever a run stands in the same surroundings it
gives the same tree, with the same numbers and places.

The bound on the length of the run is for expressions, whose depth the second parse may limit.
-/

namespace MFile.Grammar

/-- `st'` is further on by `run`, and stands otherwise as `st` does. -/
structure State.Walks (st : State) (run : List Token) (st' : State) : Prop
    extends State.Passes st run st' where
  file : st'.file = st.file
  frames : st'.frames = st.frames
  indexDepth : st'.indexDepth = st.indexDepth
  methodDepth : st'.methodDepth = st.methodDepth
  endUsed : st'.endUsed = st.endUsed
  nodes : st.nodes ≤ st'.nodes

namespace State.Walks

variable {st mid st' : State} {run run' : List Token} {t : Token}

theorem refl (st : State) : st.Walks [] st := ⟨.refl st, rfl, rfl, rfl, rfl, rfl, Nat.le_refl _⟩

theorem trans (h : st.Walks run mid) (h' : mid.Walks run' st') : st.Walks (run ++ run') st' :=
  ⟨h.toPasses.trans h'.toPasses, h'.file.trans h.file, h'.frames.trans h.frames,
    h'.indexDepth.trans h.indexDepth, h'.methodDepth.trans h.methodDepth,
    h'.endUsed.trans h.endUsed, h.nodes.trans h'.nodes⟩

theorem unique (h : st.Walks run st') (h' : st.Passes run' st') : run = run' :=
  List.append_cancel_right (h.ahead.symm.trans h'.ahead)

theorem fresh (st : State) : st.Walks [] { st with nodes := st.nodes + 1 } :=
  ⟨⟨rfl, rfl⟩, rfl, rfl, rfl, rfl, rfl, Nat.le_succ _⟩

theorem eat (rest : List Token) (h : st.ahead = run ++ rest) :
    st.Walks run { st with behind := run.reverse ++ st.behind, ahead := rest } :=
  ⟨⟨h, rfl⟩, rfl, rfl, rfl, rfl, rfl, Nat.le_refl _⟩

end State.Walks

/-- Two texts that are the same up to a separator, or up to the end of both. -/
inductive Alike : List Token → List Token → Prop
  | nil : Alike [] []
  | stop {t : Token} {l l' : List Token} (h : t.isSeparator = true) : Alike (t :: l) (t :: l')
  | cons {t : Token} {l l' : List Token} (h : Alike l l') : Alike (t :: l) (t :: l')

namespace Alike

variable {l l' : List Token}

theorem append (h : Alike l l') (run : List Token) : Alike (run ++ l) (run ++ l') := by
  induction run with
  | nil => exact h
  | cons t run ih => exact .cons ih

theorem refl (l : List Token) : Alike l l := by simpa using Alike.nil.append l

theorem head? (h : Alike l l') : l'.head? = l.head? := by cases h <;> rfl

theorem isEmpty (h : Alike l l') : l'.isEmpty = l.isEmpty := by cases h <;> rfl

theorem tail (h : Alike l l') (hl : ∀ t ∈ l.head?, t.isSeparator = false) :
    Alike (l.drop 1) (l'.drop 1) := by
  cases h with
  | nil => exact .nil
  | stop ht => exact absurd ht (by simp [hl _ rfl])
  | cons h => exact h

theorem second? (h : Alike l l') (hl : ∀ t ∈ l.head?, t.isSeparator = false) :
    l'[1]? = l[1]? := by
  have hhead := (h.tail hl).head?
  rwa [List.head?_drop, List.head?_drop] at hhead

end Alike

def framesInside (frames : List Frame) : List Frame := frames.takeWhile (· != .function)

theorem framesInside_cons {fs fs' : List Frame} (h : framesInside fs' = framesInside fs)
    (f : Frame) : framesInside (f :: fs') = framesInside (f :: fs) := by
  simp only [framesInside, List.takeWhile_cons] at h ⊢
  rw [h]

structure State.Peer (st st' : State) : Prop where
  file : st'.file = st.file
  nodes : st'.nodes = st.nodes
  frames : framesInside st'.frames = framesInside st.frames
  indexDepth : st'.indexDepth = st.indexDepth
  methodDepth : st'.methodDepth = st.methodDepth
  placeholders : st'.placeholders = st.placeholders

/-- Nothing around the tokens ahead tells the states apart. -/
structure State.Twin (st st' : State) : Prop extends State.Peer st st' where
  last : st'.behind.head? = st.behind.head?

namespace State.Twin

variable {st st' : State}

theorem refl (st : State) : st.Twin st := ⟨⟨rfl, rfl, rfl, rfl, rfl, rfl⟩, rfl⟩

theorem fresh (h : st.Twin st') : State.Twin { st with nodes := st.nodes + 1 }
    { st' with nodes := st'.nodes + 1 } :=
  { h with nodes := congrArg (· + 1) h.nodes }

end State.Twin

theorem State.Peer.eat {st st' : State} (h : st.Peer st') (run : List Token)
    (hlast : run = [] → st'.behind.head? = st.behind.head?) (l l' : List Token) :
    State.Twin { st with behind := run.reverse ++ st.behind, ahead := l }
      { st' with behind := run.reverse ++ st'.behind, ahead := l' } := by
  refine { h with last := ?_ }
  simp only [List.head?_append]
  cases hrun : run.reverse with
  | nil => exact hlast (List.reverse_eq_nil_iff.1 hrun)
  | cons t ts => rfl

namespace Parse

variable {α β : Type} {n m : Nat} {s : State} {U : α → List Token → State → Prop}

/-- Whenever `p` ends well, it has passed a run of which `U` holds, and `q` gives the same for
that run wherever it stands in the same surroundings. -/
def Tracks (n : Nat) (p q : Parse α) (s : State) (U : α → List Token → State → Prop) : Prop :=
  ∀ ⦃a s₁⦄, p s = .ok a s₁ → ∃ run, s.Walks run s₁ ∧ U a run s₁ ∧
    (run.length < n → ∀ ⦃s' rest⦄, s.Twin s' → s'.ahead = run ++ rest → Alike s₁.ahead rest →
      ∃ s₁', q s' = .ok a s₁' ∧ s₁.Twin s₁' ∧ s'.Walks run s₁')

namespace Tracks

variable {p q : Parse α} {V : β → List Token → State → Prop} {f g : α → Parse β}

theorem mono {U' : α → List Token → State → Prop} (h : Tracks n p q s U)
    (hU : ∀ a run s₁, s.Walks run s₁ → U a run s₁ → U' a run s₁) : Tracks n p q s U' := by
  intro a s₁ hrun
  obtain ⟨run, hwalks, ha, htwin⟩ := h hrun
  exact ⟨run, hwalks, hU a run s₁ hwalks ha, htwin⟩

theorem fewer (h : Tracks n p q s U) (hm : m ≤ n) : Tracks m p q s U := by
  intro a s₁ hrun
  obtain ⟨run, hwalks, ha, htwin⟩ := h hrun
  exact ⟨run, hwalks, ha, fun hlen => htwin (hlen.trans_le hm)⟩

theorem alone (h : Tracks n p q s U) (q' : Parse α) : Tracks 0 p q' s U := by
  intro a s₁ hrun
  obtain ⟨run, hwalks, ha, -⟩ := h hrun
  exact ⟨run, hwalks, ha, nofun⟩

theorem failing (h : ∀ a s₁, p s ≠ .ok a s₁) : Tracks n p q s U :=
  fun a s₁ hrun => absurd hrun (h a s₁)

theorem pure {a : α} (h : U a [] s) : Tracks n (Pure.pure a) (Pure.pure a) s U := by
  intro b s₁ hrun
  obtain ⟨rfl, rfl⟩ := pure_ok hrun
  refine ⟨[], .refl _, h, fun _ s' rest htwin hahead _ => ⟨s', rfl, htwin, .refl s'⟩⟩

theorem bind {x y : Parse α} (h : Tracks n x y s U)
    (hf : ∀ a run mid, s.Walks run mid → U a run mid →
      Tracks (n - run.length) (f a) (g a) mid fun b more s₁ => V b (run ++ more) s₁) :
    Tracks n (x >>= f) (y >>= g) s V := by
  intro b s₁ hrun
  obtain ⟨a, mid, hx, hrest⟩ := bind_ok hrun
  obtain ⟨run, hwalks, ha, htwin⟩ := h hx
  obtain ⟨more, hwalks', hb, htwin'⟩ := hf a run mid hwalks ha hrest
  refine ⟨run ++ more, hwalks.trans hwalks', hb, fun hlen s' rest hs' hahead halike => ?_⟩
  rw [List.length_append] at hlen
  rw [List.append_assoc] at hahead
  obtain ⟨mid', hy, hmid', hwalk⟩ :=
    htwin (by omega) hs' hahead (by rw [hwalks'.ahead]; exact halike.append more)
  have hahead' : mid'.ahead = more ++ rest :=
    List.append_cancel_left (hwalk.ahead.symm.trans hahead)
  obtain ⟨s₁', hg, hs₁', hwalk'⟩ := htwin' (by omega) hmid' hahead' halike
  exact ⟨s₁', (bind_run hy g).trans hg, hs₁', hwalk.trans hwalk'⟩

theorem map {F : α → β} (h : Tracks n p q s fun a run s₁ => V (F a) run s₁) :
    Tracks n (F <$> p) (F <$> q) s V := by
  rw [map_eq_pure_bind, map_eq_pure_bind]
  exact h.bind fun a run mid _ ha => .pure (by rwa [List.append_nil])

/-- First a parse that reads the state and leaves it. The second parse may read another thing,
as long as nothing that follows makes a difference of it. -/
theorem look_at {x y : Parse α} {a : α} (hx : x s = .ok a s)
    (hy : ∀ s', s.Twin s' → Alike s.ahead s'.ahead → ∃ a', y s' = .ok a' s' ∧
      Tracks n (f a) (g a') s V) (h : ∃ a', Tracks n (f a) (g a') s V) :
    Tracks n (x >>= f) (y >>= g) s V := by
  intro b s₁ hrun
  rw [bind_run hx] at hrun
  obtain ⟨_, hfirst⟩ := h
  obtain ⟨run, hwalks, hb, -⟩ := hfirst hrun
  refine ⟨run, hwalks, hb, fun hlen s' rest hs' hahead halike => ?_⟩
  obtain ⟨a', hy', hsecond⟩ := hy s' hs' (by rw [hwalks.ahead, hahead]; exact halike.append run)
  obtain ⟨run', hwalks', -, htwin⟩ := hsecond hrun
  obtain rfl := hwalks.unique hwalks'.toPasses
  obtain ⟨s₁', hg, hs₁', hwalk⟩ := htwin hlen hs' hahead halike
  exact ⟨s₁', (bind_run hy' g).trans hg, hs₁', hwalk⟩

theorem look {x y : Parse α} {a : α} (hx : x s = .ok a s)
    (hy : ∀ s', s.Twin s' → Alike s.ahead s'.ahead → y s' = .ok a s')
    (h : Tracks n (f a) (g a) s V) : Tracks n (x >>= f) (y >>= g) s V :=
  look_at hx (fun s' hs' halike => ⟨a, hy s' hs' halike, h⟩) ⟨a, h⟩

theorem within {x y p q : Parse α} (change : State → State) (undo : State → State → State)
    (hp : ∀ a s₁, p s = .ok a s₁ → ∃ mid, x (change s) = .ok a mid ∧ s₁ = undo s mid)
    (hq : ∀ s' a mid, y (change s') = .ok a mid → q s' = .ok a (undo s' mid))
    (hchange : ∀ s', s.Twin s' → (change s).Twin (change s') ∧ (change s').ahead = s'.ahead)
    (hundo : ∀ s' run mid, (change s').Walks run mid → s'.Walks run (undo s' mid) ∧
      (undo s' mid).ahead = mid.ahead)
    (hboth : ∀ s' run mid mid', s.Twin s' → (change s).Walks run mid →
      (change s').Walks run mid' → mid.Twin mid' → (undo s mid).Twin (undo s' mid'))
    (h : Tracks n x y (change s) fun a run mid => U a run (undo s mid)) : Tracks n p q s U := by
  intro a s₁ hrun
  obtain ⟨mid, hx, rfl⟩ := hp a s₁ hrun
  obtain ⟨run, hwalks, ha, htwin⟩ := h hx
  obtain ⟨hwalk, hsame⟩ := hundo s run mid hwalks
  refine ⟨run, hwalk, ha, fun hlen s' rest hs' hahead halike => ?_⟩
  obtain ⟨hs'', hahead'⟩ := hchange s' hs'
  obtain ⟨mid', hy, hmid', hwalk'⟩ := htwin hlen hs'' (hahead'.trans hahead) (hsame ▸ halike)
  exact ⟨undo s' mid', hq s' a mid' hy, hboth s' run mid mid' hs' hwalks hwalk' hmid',
    (hundo s' run mid' hwalk').1⟩

theorem bracketed_ok {x : Parse α} {change : State → State} {undo : State → State → State}
    (a : α) (s₁ : State) (h : bracketed change undo x s = .ok a s₁) :
    ∃ mid, x (change s) = .ok a mid ∧ s₁ = undo s mid := by
  rw [bracketed] at h
  split at h
  · rename_i a' mid hx
    cases h
    exact ⟨mid, hx, rfl⟩
  · cases h

theorem bracketed_run {x : Parse α} {change : State → State} {undo : State → State → State}
    (s' : State) (a : α) (mid : State) (h : x (change s') = .ok a mid) :
    bracketed change undo x s' = .ok a (undo s' mid) := by
  rw [bracketed, h]

theorem inFrame {x y : Parse α} {frame : Frame}
    (h : Tracks n x y { s with frames := frame :: s.frames } fun a run mid =>
      U a run { mid with frames := mid.frames.tail }) :
    Tracks n (Parse.inFrame frame x) (Parse.inFrame frame y) s U := by
  refine within _ _ bracketed_ok bracketed_run
    (fun s' hs' => ⟨?_, rfl⟩) (fun s' run mid hwalks => ?_)
    (fun s' run mid mid' hs' hwalks hwalks' hmid => ?_) h
  · exact { hs' with frames := framesInside_cons hs'.frames frame }
  · have hframes : mid.frames = frame :: s'.frames := hwalks.frames
    exact ⟨{ hwalks with frames := by rw [hframes]; rfl }, rfl⟩
  · have hframes : mid.frames = frame :: s.frames := hwalks.frames
    have hframes' : mid'.frames = frame :: s'.frames := hwalks'.frames
    exact { hmid with frames := by rw [hframes, hframes']; exact hs'.frames }

theorem outsideIndex {x y : Parse α} (h : Tracks n x y { s with indexDepth := 0 }
      fun a run mid => U a run { mid with indexDepth := s.indexDepth }) :
    Tracks n (Parse.outsideIndex x) (Parse.outsideIndex y) s U := by
  refine within _ _ bracketed_ok bracketed_run (fun s' hs' => ⟨{ hs' with indexDepth := rfl }, rfl⟩)
    (fun s' run mid hwalks => ⟨{ hwalks with indexDepth := rfl }, rfl⟩)
    (fun s' run mid mid' hs' _ _ hmid => { hmid with indexDepth := hs'.indexDepth }) h

end Tracks

/-! ## Moves -/

theorem Tracks.get {f g : State → Parse β} {V : β → List Token → State → Prop}
    (h : ∀ s', s.Twin s' → Alike s.ahead s'.ahead → Tracks n (f s) (g s') s V) :
    Tracks n (MonadState.get >>= f) (MonadState.get >>= g) s V :=
  .look_at rfl (fun s' hs' halike => ⟨s', rfl, h s' hs' halike⟩) ⟨s, h s (.refl s) (.refl _)⟩

variable {f g : α → Parse β} {V : β → List Token → State → Prop}

theorem Tracks.current? {f g : Option Token → Parse β} (h : Tracks n (f s.ahead.head?)
    (g s.ahead.head?) s V) : Tracks n (Parse.current? >>= f) (Parse.current? >>= g) s V :=
  .look (current?_run s) (fun s' _ halike => by rw [← halike.head?, current?_run]) h

theorem Tracks.peekKind? {f g : Option Kind → Parse β} (h : Tracks n
    (f (s.ahead.head?.map (·.kind))) (g (s.ahead.head?.map (·.kind))) s V) :
    Tracks n (Parse.peekKind? 0 >>= f) (Parse.peekKind? 0 >>= g) s V :=
  .look (peekFirst?_run s) (fun s' _ halike => by rw [← halike.head?, peekFirst?_run]) h

theorem Tracks.check {kind : Kind} {f g : Bool → Parse β}
    (h : Tracks n (f (s.ahead.head?.map (·.kind) == some kind))
      (g (s.ahead.head?.map (·.kind) == some kind)) s V) :
    Tracks n (Parse.check kind >>= f) (Parse.check kind >>= g) s V :=
  .look (check_run kind s) (fun s' _ halike => by rw [← halike.head?, check_run]) h

theorem Tracks.checkWord {word : String} {f g : Bool → Parse β}
    (h : Tracks n (f (s.ahead.head?.any (·.isWord word))) (g (s.ahead.head?.any (·.isWord word)))
      s V) :
    Tracks n (Parse.checkWord word >>= f) (Parse.checkWord word >>= g) s V :=
  .look (checkWord_run word s) (fun s' _ halike => by rw [← halike.head?, checkWord_run]) h

theorem Tracks.atEnd {f g : Bool → Parse β}
    (h : Tracks n (f s.ahead.isEmpty) (g s.ahead.isEmpty) s V) :
    Tracks n (Parse.atEnd >>= f) (Parse.atEnd >>= g) s V := by
  refine .look rfl (fun s' _ halike => ?_) h
  rw [← halike.isEmpty]
  rfl

theorem Tracks.peekSecond? {f g : Option Kind → Parse β}
    (h : ∀ k, ((∀ t ∈ s.ahead.head?, t.isSeparator = false) → k = s.ahead[1]?.map (·.kind)) →
      Tracks n (f (s.ahead[1]?.map (·.kind))) (g k) s V) :
    Tracks n (Parse.peekKind? 1 >>= f) (Parse.peekKind? 1 >>= g) s V :=
  .look_at rfl (fun s' _ halike => ⟨s'.ahead[1]?.map (·.kind), rfl,
    h _ fun hhead => by rw [halike.second? hhead]⟩) ⟨_, h _ fun _ => rfl⟩

theorem Tracks.here {f g : Location → Parse β} (h : ∀ l, Tracks n (f l) (g l) s V) :
    Tracks n (Parse.here >>= f) (Parse.here >>= g) s V := by
  have hhere : ∀ s' : State, Parse.here s' = .ok (s'.ahead.head?.elim
      (s'.behind.head?.elim ⟨s'.file, .file, none⟩ (·.location)) (·.location)) s' := by
    intro s'
    refine (bind_run (current?_run s') _).trans ?_
    cases s'.ahead.head? <;> rfl
  refine .look (hhere s) (fun s' hs' halike => ?_) (h _)
  rw [hhere s', halike.head?, hs'.last, hs'.file]

theorem Tracks.spanFrom {start : Location} {f g : Location → Parse β}
    (h : ∀ l, Tracks n (f l) (g l) s V) :
    Tracks n (Parse.spanFrom start >>= f) (Parse.spanFrom start >>= g) s V := by
  have hspan : ∀ s' : State, Parse.spanFrom start s' = .ok (start.extendTo
      (s'.behind.head?.elim ⟨s'.file, .file, none⟩ (·.location))) s' := fun _ => rfl
  refine .look (hspan s) (fun s' hs' _ => ?_) (h _)
  rw [hspan s', hs'.last, hs'.file]

theorem tracks_fresh {x : Parse α} {a : State → α}
    (hx : ∀ s', x s' = .ok (a s') { s' with nodes := s'.nodes + 1 })
    (ha : ∀ s', s.Twin s' → a s' = a s) :
    Tracks n x x s fun b run s₁ => b = a s ∧ run = [] ∧ s₁.nodes = s.nodes + 1 := by
  intro b s₁ hrun
  obtain ⟨rfl, rfl⟩ : a s = b ∧ { s with nodes := s.nodes + 1 } = s₁ := by
    rw [hx] at hrun
    cases hrun
    exact ⟨rfl, rfl⟩
  refine ⟨[], .fresh s, ⟨rfl, rfl, rfl⟩, fun _ s' rest hs' _ _ => ?_⟩
  exact ⟨_, by rw [hx, ha s' hs'], hs'.fresh, .fresh s'⟩

theorem tracks_siteAt (l : Location) : Tracks n (siteAt l) (siteAt l) s
    fun site run s₁ => site = ⟨s.nodes, l⟩ ∧ run = [] ∧ s₁.nodes = s.nodes + 1 := by
  have hsite : ∀ s', siteAt l s' = .ok (Site.mk s'.nodes l) { s' with nodes := s'.nodes + 1 } :=
    fun _ => rfl
  exact tracks_fresh hsite fun s' hs' => by rw [hs'.nodes]

theorem tracks_siteFrom (start : Location) : Tracks n (siteFrom start) (siteFrom start) s
    fun site run s₁ => site.id = s.nodes ∧ run = [] ∧ s₁.nodes = s.nodes + 1 := by
  have hsite : ∀ s', siteFrom start s' = .ok (Site.mk s'.nodes (start.extendTo
      (s'.behind.head?.elim ⟨s'.file, .file, none⟩ (·.location))))
      { s' with nodes := s'.nodes + 1 } := fun _ => rfl
  refine (tracks_fresh hsite fun s' hs' => ?_).mono fun _ _ _ _ h => ?_
  · rw [hs'.nodes, hs'.last, hs'.file]
  · exact ⟨congrArg Site.id h.1, h.2⟩

theorem tracks_siteBetween (first last : Location) :
    Tracks n (siteBetween first last) (siteBetween first last) s
      fun site run s₁ => site = ⟨s.nodes, first.extendTo last⟩ ∧ run = [] ∧
        s₁.nodes = s.nodes + 1 :=
  tracks_siteAt _

theorem tracks_freshId : Tracks n freshId freshId s
    fun id run s₁ => id = s.nodes ∧ run = [] ∧ s₁.nodes = s.nodes + 1 := by
  have hfresh : ∀ s', freshId s' = .ok s'.nodes { s' with nodes := s'.nodes + 1 } := fun _ => rfl
  exact tracks_fresh hfresh fun s' hs' => hs'.nodes

theorem tracks_eatIf (p : Token → Bool) : Tracks n (eatIf p) (eatIf p) s
    fun found run _ => run = found.toList ∧ (∀ t ∈ found, p t = true) ∧
      (found = none → ∀ t ∈ s.ahead.head?, p t = false) := by
  intro found s₁ hrun
  cases found with
  | none =>
    obtain ⟨rfl, hhead⟩ := eatIf_none hrun
    refine ⟨[], .refl _, ⟨rfl, by simp, fun _ => hhead⟩, fun _ s' rest hs' hahead halike => ?_⟩
    rw [List.nil_append] at hahead
    refine ⟨s', eatIf_skip ?_, hs', .refl s'⟩
    rw [hahead, halike.head?]
    exact hhead
  | some t =>
    have hp := (eatIf_some hrun).1
    have hpass := (eatIf_some hrun).2
    have hs₁ : s₁ = { s with behind := t :: s.behind, ahead := s₁.ahead } := by
      simp only [eatIf, hpass.ahead, List.cons_append, List.nil_append, hp, if_true] at hrun
      exact (EStateM.Result.ok.inj hrun).2.symm
    refine ⟨[t], hs₁ ▸ .eat _ hpass.ahead, ⟨rfl, by rintro u ⟨⟩; exact hp, by simp⟩, ?_⟩
    intro _ s' rest hs' hahead _
    refine ⟨{ s' with behind := t :: s'.behind, ahead := rest }, ?_, ?_, .eat _ hahead⟩
    · rw [eatIf_head hahead, if_pos hp]
      rfl
    · rw [hs₁]
      exact hs'.eat [t] (fun _ => hs'.last) _ _

theorem takeWhile_of_head {p : Token → Bool} {l : List Token}
    (h : ∀ t ∈ l.head?, p t = false) : l.takeWhile p = [] ∧ l.dropWhile p = l := by
  cases l with
  | nil => exact ⟨rfl, rfl⟩
  | cons t l => simp [h t rfl]

theorem head?_dropWhile {p : Token → Bool} (l : List Token) :
    ∀ t ∈ (l.dropWhile p).head?, p t = false := by
  intro t ht
  have hnot := List.head?_dropWhile_not p l
  rw [Option.mem_def.1 ht] at hnot
  simpa using hnot

theorem tracks_eatWhile (p : Token → Bool) : Tracks n (eatWhile p) (eatWhile p) s
    fun taken run s₁ => run = taken ∧ (∀ t ∈ taken, p t = true) ∧
      ∀ t ∈ s₁.ahead.head?, p t = false := by
  intro taken s₁ hrun
  obtain ⟨hall, hpass⟩ := eatWhile_ok hrun
  have hstop : ∀ t ∈ s₁.ahead.head?, p t = false := by
    cases hrun
    exact head?_dropWhile _
  have hs₁ : s₁ = { s with behind := taken.reverse ++ s.behind, ahead := s₁.ahead } := by
    cases hrun
    rfl
  refine ⟨taken, hs₁ ▸ .eat _ hpass.ahead, ⟨rfl, hall, hstop⟩, ?_⟩
  intro _ s' rest hs' hahead halike
  rw [← halike.head?] at hstop
  refine ⟨{ s' with behind := taken.reverse ++ s'.behind, ahead := rest }, ?_, ?_,
    .eat _ hahead⟩
  · simp only [eatWhile, hahead, List.takeWhile_append_of_pos hall,
      List.dropWhile_append_of_pos hall, takeWhile_of_head hstop, List.append_nil]
  · rw [hs₁]
    exact hs'.eat taken (fun _ => hs'.last) _ _

theorem tracks_advance {t : Token} (ht : s.ahead.head? = some t) :
    Tracks n advance advance s fun _ run _ => run = [t] := by
  refine Tracks.bind (tracks_eatIf fun _ => true) fun found run mid hwalks hfound => ?_
  obtain ⟨hrun, -, hnone⟩ := hfound
  cases found with
  | none => exact nomatch hnone rfl t ht
  | some u =>
    obtain rfl : run = [u] := hrun
    refine .pure ?_
    cases ht.symm.trans hwalks.head
    rfl

theorem tracks_expect (kind : Kind) (what : Expectation) :
    Tracks n (expect kind what) (expect kind what) s
      fun t run _ => run = [t] ∧ t.kind = kind := by
  refine Tracks.bind (tracks_eatIf _) fun found run mid hwalks hfound => ?_
  cases found with
  | none => exact .failing fun _ _ => unexpected_ok
  | some t =>
    obtain ⟨rfl, hp, -⟩ := hfound
    exact .pure ⟨rfl, by simpa using hp t rfl⟩

theorem tracks_placeholders (b : Bool) :
    Tracks n (modify fun st : State => { st with placeholders := b })
      (modify fun st : State => { st with placeholders := b }) s
      fun _ run s₁ => run = [] ∧ s₁ = { s with placeholders := b } := by
  intro u s₁ hrun
  cases hrun
  exact ⟨[], { State.Walks.refl s with }, ⟨rfl, rfl⟩, fun _ s' rest hs' _ _ =>
    ⟨_, rfl, { hs' with placeholders := rfl }, { State.Walks.refl s' with }⟩⟩

theorem Tracks.inIndex {x y : Parse α} (h : Tracks n x y { s with indexDepth := s.indexDepth + 1 }
      fun a run mid => U a run { mid with indexDepth := mid.indexDepth - 1 }) :
    Tracks n
      (do
        modify fun st : State => { st with indexDepth := st.indexDepth + 1 }
        let a ← x
        modify fun st : State => { st with indexDepth := st.indexDepth - 1 }
        return a)
      (do
        modify fun st : State => { st with indexDepth := st.indexDepth + 1 }
        let a ← y
        modify fun st : State => { st with indexDepth := st.indexDepth - 1 }
        return a) s U := by
  refine within (fun st => { st with indexDepth := st.indexDepth + 1 })
    (fun _ mid => { mid with indexDepth := mid.indexDepth - 1 }) ?_ ?_
    (fun s' hs' => ⟨{ hs' with indexDepth := congrArg (· + 1) hs'.indexDepth }, rfl⟩)
    (fun s' run mid hwalks => ⟨{ hwalks with indexDepth := congrArg (· - 1) hwalks.indexDepth },
      rfl⟩)
    (fun s' run mid mid' _ _ _ hmid =>
      { hmid with indexDepth := congrArg (· - 1) hmid.indexDepth }) h
  · intro a s₁ hrun
    obtain ⟨_, _, hopen, hrun⟩ := bind_ok hrun
    obtain ⟨a', mid, hx, hrun⟩ := bind_ok hrun
    obtain ⟨_, _, hclose, hrun⟩ := bind_ok hrun
    cases hopen
    cases hclose
    cases hrun
    exact ⟨mid, hx, rfl⟩
  · intro s' a mid hy
    exact (bind_run rfl _).trans ((bind_run hy _).trans rfl)

/-! ## Rounds -/

theorem roundsWithin_again {body : α → Parse (Round α β)} {fuel : Nat} {a : α} {b : β}
    {s₁ : State} (h : roundsWithin body fuel a s = .ok b s₁) :
    ∃ r mid, body a s = .ok r mid ∧ (r = .done b ∧ s₁ = mid ∨
      ∃ a' fuel', r = .again a' ∧ roundsWithin body fuel' a' mid = .ok b s₁ ∧ fuel' < fuel) := by
  cases fuel with
  | zero => exact absurd h stalled_ok
  | succ fuel =>
    obtain ⟨r, mid, hr, hrest⟩ := bind_ok h
    cases r with
    | again a' => exact ⟨_, mid, hr, .inr ⟨a', fuel, rfl, hrest, Nat.lt_succ_self _⟩⟩
    | done b' =>
      obtain ⟨rfl, rfl⟩ := pure_ok hrest
      exact ⟨_, _, hr, .inl ⟨rfl, rfl⟩⟩

theorem roundsWithin_succ {body : α → Parse (Round α β)} {fuel : Nat} {a : α} {r : Round α β}
    {mid : State} (hr : body a s = .ok r mid) : roundsWithin body (fuel + 1) a s =
      match r with
      | .again a' => roundsWithin body fuel a' mid
      | .done b => .ok b mid := by
  refine (bind_run hr _).trans ?_
  cases r <;> rfl

theorem roundsWithin_of_rounds {body : α → Parse (Round α β)} {a : α} {b : β} {s₁ : State}
    (h : rounds a body s = .ok b s₁) : ∃ fuel, roundsWithin body fuel a s = .ok b s₁ := by
  obtain ⟨r, mid, hr, hrest⟩ := bind_ok h
  cases r with
  | again a' =>
    obtain ⟨_, _, hget, hrest⟩ := bind_ok hrest
    cases hget
    exact ⟨_ + 1, (roundsWithin_succ hr).trans hrest⟩
  | done b' => exact ⟨1, (roundsWithin_succ hr).trans hrest⟩

/-- A round passes a token unless it is the last one, so the second parse never runs out of
rounds. `I` tells of what the rounds so far have passed. -/
theorem Tracks.rounds {body body' : α → Parse (Round α β)} {I : α → List Token → State → Prop}
    {a : α} (hstart : I a [] s)
    (hbody : ∀ a run mid, s.Walks run mid → I a run mid →
      Tracks (n - run.length) (body a) (body' a) mid fun r more s₁ =>
        match r with
        | .again a' => more ≠ [] ∧ I a' (run ++ more) s₁
        | .done b => V b (run ++ more) s₁) :
    Tracks n (Parse.rounds a body) (Parse.rounds a body') s V := by
  have hchain : ∀ fuel, ∀ ⦃a run mid b s₁⦄, s.Walks run mid → I a run mid →
      roundsWithin body fuel a mid = .ok b s₁ →
      ∃ more, mid.Walks more s₁ ∧ V b (run ++ more) s₁ ∧
        (more.length < n - run.length → ∀ ⦃s' rest⦄, mid.Twin s' → s'.ahead = more ++ rest →
          Alike s₁.ahead rest → ∃ y s₁', Relation.ReflTransGen (Again body') (a, s') y ∧
            body' y.1 y.2 = .ok (.done b) s₁' ∧ s₁.Twin s₁' ∧ s'.Walks more s₁') := by
    -- On the rounds of the first parse; the bound on the text goes down with what they pass.
    intro fuel
    induction fuel using Nat.strongRecOn with
    | ind fuel ih =>
      intro a run mid b s₁ hwalks hI hrun
      obtain ⟨r, next, hr, hrest⟩ := roundsWithin_again hrun
      obtain ⟨more, hmore, hV, htwin⟩ := hbody a run mid hwalks hI hr
      rcases hrest with ⟨rfl, rfl⟩ | ⟨a', fuel', rfl, hrest, hfuel⟩
      · refine ⟨more, hmore, hV, fun hlen s' rest hs' hahead halike => ?_⟩
        obtain ⟨s₁', hdone, hs₁', hwalk⟩ := htwin hlen hs' hahead halike
        exact ⟨(a, s'), s₁', .refl, hdone, hs₁', hwalk⟩
      · obtain ⟨hne, hI'⟩ := hV
        obtain ⟨later, hlater, hV', htwin'⟩ := ih fuel' hfuel (hwalks.trans hmore) hI' hrest
        refine ⟨more ++ later, hmore.trans hlater, by rwa [← List.append_assoc], ?_⟩
        intro hlen s' rest hs' hahead halike
        simp only [List.length_append] at hlen htwin'
        rw [List.append_assoc] at hahead
        obtain ⟨next', hagain, hnext', hwalk⟩ := htwin (by omega) hs' hahead
          (by rw [hlater.ahead]; exact halike.append later)
        have hahead' : next'.ahead = later ++ rest :=
          List.append_cancel_left (hwalk.ahead.symm.trans hahead)
        obtain ⟨y, s₁', hrounds, hdone, hs₁', hwalk'⟩ :=
          htwin' (by omega) hnext' hahead' halike
        have hshorter : next'.ahead.length < s'.ahead.length := by
          rw [hwalk.ahead, List.length_append]
          have hpos := List.length_pos_iff.2 hne
          omega
        exact ⟨y, s₁', .head ⟨hagain, hshorter⟩ hrounds, hdone, hs₁', hwalk.trans hwalk'⟩
  intro b s₁ hrun
  obtain ⟨fuel, hfuel⟩ := roundsWithin_of_rounds hrun
  obtain ⟨more, hmore, hV, htwin⟩ := hchain fuel (.refl s) hstart hfuel
  refine ⟨more, hmore, hV, fun hlen s' rest hs' hahead halike => ?_⟩
  obtain ⟨y, s₁', hrounds, hdone, hs₁', hwalk⟩ := htwin (by simpa using hlen) hs' hahead halike
  exact ⟨s₁', rounds_of_again hrounds hdone, hs₁', hwalk⟩

end Parse

end MFile.Grammar
