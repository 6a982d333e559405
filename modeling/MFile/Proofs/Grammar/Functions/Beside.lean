import MFile.Proofs.Grammar.Functions.Steps
import MFile.Proofs.Grammar.Lockstep.Blocks

/-!
A function that is closed by `end`, beside the same function before the next one. Up to the
separator before the `end` both are read in lockstep; the separators there may differ, but they
are skipped before anything is decided by what follows.
-/

namespace MFile.Grammar

theorem Alike.of_separator {r : List Token} (h : ∃ t ∈ r.getLast?, t.isSeparator = true)
    (l l' : List Token) : Alike (r ++ l) (r ++ l') := by
  obtain ⟨t, ht, hsep⟩ := h
  obtain ⟨init, rfl⟩ := List.getLast?_eq_some_iff.1 ht
  rw [List.append_assoc, List.append_assoc]
  exact (Alike.stop hsep).append init

namespace Parse

structure Plain (s : State) : Prop where
  indexDepth : s.indexDepth = 0
  frames : framesInside s.frames = []

theorem Plain.walks {s mid : State} {run : List Token} (h : Plain s) (hwalks : s.Walks run mid) :
    Plain mid :=
  ⟨hwalks.indexDepth.trans h.indexDepth, hwalks.frames ▸ h.frames⟩

/-- What follows the rest of a function: its `end`, or the next function, or nothing. -/
structure Parting (k g : List Token) : Prop where
  closer : ∃ e k', k = e :: k' ∧ e.isWord "end" = true
  next : ∀ t ∈ g.head?, t.isWord "function" = true

/-- `r` is the rest of a function, behind which `k` stands, and in the second text `g` behind
separators. -/
structure Beside (k g : List Token) (s s' : State) (r : List Token) : Prop where
  peer : s.Peer s'
  ahead : s.ahead = r ++ k
  gap : ∃ seps, (∀ t ∈ seps, t.isSeparator = true) ∧ s'.ahead = r ++ (seps ++ g)
  last : r ≠ [] → (∃ t ∈ r.getLast?, t.isSeparator = true) ∧ s'.behind.head? = s.behind.head?
  unused : s'.endUsed = false

namespace Beside

variable {α β : Type} {n m : Nat} {k g r r₁ : List Token} {s s' mid : State}
  {U : α → List Token → State → Prop}

theorem last_rest (h : Beside k g s s' r) {run : List Token} (hr : r = run ++ r₁) (hr₁ : r₁ ≠ []) :
    ∃ t ∈ r₁.getLast?, t.isSeparator = true := by
  have hne : r ≠ [] := by simp [hr, hr₁]
  have hlast := (h.last hne).1
  rwa [hr, List.getLast?_append, List.getLast?_eq_some_getLast hr₁, Option.some_or,
    ← List.getLast?_eq_some_getLast hr₁] at hlast

theorem eat (h : Beside k g s s' r) {run seps : List Token} (hr : r = run ++ r₁)
    (hseps : ∀ t ∈ seps, t.isSeparator = true) :
    Beside k g { s with behind := run.reverse ++ s.behind, ahead := r₁ ++ k }
      { s' with behind := run.reverse ++ s'.behind, ahead := r₁ ++ (seps ++ g) } r₁ := by
  refine ⟨{ h.peer with }, rfl, ⟨seps, hseps, rfl⟩, fun hr₁ => ⟨h.last_rest hr hr₁, ?_⟩, h.unused⟩
  exact (h.peer.eat run (fun _ => (h.last (by simp [hr, hr₁])).2) [] []).last

theorem skip (h : Beside k g s s' r) (hpart : Parting k g) {u : Unit}
    (hrun : skipSeparators s = .ok u mid) : ∃ mid', skipSeparators s' = .ok u mid' ∧
      Beside k g mid mid' (r.dropWhile (·.isSeparator)) ∧
        (r.dropWhile (·.isSeparator) = [] → mid'.ahead = g) := by
  obtain ⟨e, k', rfl, he⟩ := hpart.closer
  obtain ⟨seps, hseps, hahead'⟩ := h.gap
  have hword : ∀ {t : Token} {word : String}, t.isWord word = true → t.isSeparator = false := by
    intro t word ht
    rw [Token.isSeparator, (Shuts.isWord_iff.1 ht).1]
    rfl
  have hg : (seps ++ g).dropWhile (·.isSeparator) = g := by
    rw [List.dropWhile_append_of_pos hseps]
    cases g with
    | nil => rfl
    | cons t g => simp [hword (hpart.next t rfl)]
  cases hrun
  refine ⟨_, rfl, ?_, fun hall => ?_⟩
  · by_cases hall : r.dropWhile (·.isSeparator) = []
    · rw [hall]
      refine ⟨{ h.peer with }, ?_, ⟨[], by simp, ?_⟩, fun hne => absurd rfl hne, h.unused⟩
      · change s.ahead.dropWhile _ = _
        rw [h.ahead, List.dropWhile_append, hall, List.isEmpty_nil, if_pos rfl]
        simp [hword he]
      · change s'.ahead.dropWhile _ = _
        rw [hahead', List.dropWhile_append, hall, List.isEmpty_nil, if_pos rfl, hg]
        rfl
    · have heat := h.eat (List.takeWhile_append_dropWhile (p := (·.isSeparator))).symm hseps
      have hlen : (r.takeWhile (·.isSeparator)).length ≠ r.length := by
        have hlength := congrArg List.length (List.takeWhile_append_dropWhile
          (p := (·.isSeparator)) (l := r))
        rw [List.length_append] at hlength
        have hpos := List.length_pos_iff.2 hall
        omega
      have hempty : (r.dropWhile (·.isSeparator)).isEmpty = false := by simpa using hall
      simpa only [h.ahead, hahead', List.dropWhile_append, List.takeWhile_append, hempty,
        if_neg hlen, Bool.false_eq_true, if_false] using heat
  · change s'.ahead.dropWhile _ = g
    rw [hahead', List.dropWhile_append, hall, List.isEmpty_nil, if_pos rfl, hg]

theorem step (h : Beside k g s s' r) {p q : Parse α} (ht : Tracks n p q s U) (hn : r.length < n)
    {a : α} (hrun : p s = .ok a mid) (hmid : mid.ahead = r₁ ++ k)
    (hU : ∀ run, U a run mid → run ≠ [] ∧ ∀ t ∈ run.getLast?, t.isSeparator = false) :
    ∃ mid', q s' = .ok a mid' ∧ Beside k g mid mid' r₁ ∧ r₁ ≠ [] ∧
      mid'.ahead.length < s'.ahead.length := by
  obtain ⟨seps, hseps, hahead'⟩ := h.gap
  obtain ⟨run, hwalks, ha, htwin⟩ := ht hrun
  obtain ⟨hne, hsolid⟩ := hU run ha
  have hr : r = run ++ r₁ := by
    have hahead := hwalks.ahead
    rw [h.ahead, hmid, ← List.append_assoc] at hahead
    exact List.append_cancel_right hahead
  have hr₁ : r₁ ≠ [] := by
    rintro rfl
    obtain ⟨t, ht, hsep⟩ := (h.last (by simpa [hr] using hne)).1
    rw [hr, List.append_nil] at ht
    rw [hsolid t ht] at hsep
    cases hsep
  have hlast := h.last_rest hr hr₁
  have hs' : s.Twin s' := { h.peer with last := (h.last (by simp [hr, hr₁])).2 }
  have hsplit : s'.ahead = run ++ (r₁ ++ (seps ++ g)) := by rw [hahead', hr, List.append_assoc]
  obtain ⟨mid', hq, hmid', hwalks'⟩ := htwin (by rw [hr, List.length_append] at hn; omega) hs'
    hsplit (by rw [hmid]; exact .of_separator hlast _ _)
  have hahead : mid'.ahead = r₁ ++ (seps ++ g) := by
    have hsame := hwalks'.ahead
    rw [hsplit] at hsame
    exact (List.append_cancel_left hsame).symm
  refine ⟨mid', hq, ⟨hmid'.toPeer, hmid, ⟨seps, hseps, hahead⟩, fun _ => ⟨hlast, hmid'.last⟩,
    hwalks'.endUsed.trans h.unused⟩, hr₁, ?_⟩
  rw [hwalks'.ahead, List.length_append]
  have hpos := List.length_pos_iff.2 hne
  omega

theorem endStatement (h : Beside k g s s' r) (hr : r ≠ []) {u : Unit}
    (hrun : Parse.endStatement s = .ok u mid) : ∃ mid' r₁, Parse.endStatement s' = .ok u mid' ∧
      Beside k g mid mid' r₁ ∧ mid'.ahead.length ≤ s'.ahead.length := by
  obtain ⟨seps, hseps, hahead'⟩ := h.gap
  obtain ⟨t, r₁, rfl⟩ := List.exists_cons_of_ne_nil hr
  have heat : eatIf (·.isSeparator) s = _ := eatIf_head h.ahead
  have heat' : eatIf (·.isSeparator) s' = _ := eatIf_head hahead'
  obtain ⟨found, st, hfound, hrest⟩ := bind_ok hrun
  by_cases hsep : t.isSeparator = true
  · rw [if_pos hsep] at heat heat'
    rw [heat] at hfound
    cases hfound
    cases hrest
    exact ⟨_, r₁, bind_run heat' _, h.eat (List.singleton_append).symm hseps, by simp [hahead']⟩
  · rw [if_neg hsep] at heat heat'
    rw [heat] at hfound
    cases hfound
    obtain ⟨_, last, hcurrent, hrest⟩ := bind_ok hrest
    obtain ⟨rfl, hlast⟩ := current?_ok hcurrent
    rw [hlast] at hrest
    have hhead : s.ahead.head? = some t := by rw [h.ahead]; rfl
    have hhead' : s'.ahead.head? = some t := by rw [hahead']; rfl
    rw [hhead] at hrest
    dsimp only at hrest
    split at hrest
    · exact absurd hrest unexpected_ok
    · rename_i hcloser
      obtain ⟨rfl, rfl⟩ := pure_ok hrest
      refine ⟨s', t :: r₁, (bind_run heat' _).trans ((bind_run (current?_run s') _).trans ?_), h,
        Nat.le_refl _⟩
      rw [hhead']
      dsimp only
      rw [if_neg hcloser]
      rfl

/-! ## Repetitions -/

section Rounds

variable {body body' : α → Parse (Round α β)} {P : List Token → Prop} {Q : State → Prop}

def RoundBeside (m : Nat) (k g : List Token) (body body' : α → Parse (Round α β))
    (P : List Token → Prop) (Q : State → Prop) : Prop :=
  ∀ ⦃a s s' r res mid r₁⦄, Beside k g s s' r → r.length ≤ m → Plain s →
    body a s = .ok res mid → mid.ahead = r₁ ++ k → (∀ b, res = .done b → P r₁) →
    ∃ mid', body' a s' = .ok res mid' ∧ Beside k g mid mid' r₁ ∧
      (∀ b, res = .done b → Q mid') ∧
      (∀ a, res = .again a → mid'.ahead.length < s'.ahead.length)

theorem rounds (hbody : RoundBeside m k g body body' P Q)
    (hwalks : ∀ a s res mid, Plain s → body a s = .ok res mid → ∃ run, s.Walks run mid)
    (h : Beside k g s s' r) (hm : r.length ≤ m) (hs : Plain s) {a : α} {b : β}
    (hrun : Parse.rounds a body s = .ok b mid) (hmid : mid.ahead = r₁ ++ k) (hP : P r₁) :
    ∃ mid', Parse.rounds a body' s' = .ok b mid' ∧ Beside k g mid mid' r₁ ∧ Q mid' := by
  have hrest : ∀ {fuel a s}, Plain s → roundsWithin body fuel a s = .ok b mid →
      ∃ run, s.Walks run mid := by
    intro fuel a s hs hrun
    refine Keeps.roundsWithin (I := fun _ st => ∃ run, s.Walks run st)
      (Q := fun _ st => ∃ run, s.Walks run st) ?_ ⟨[], .refl s⟩ hrun
    rintro a st res next ⟨run, hst⟩ hround
    obtain ⟨more, hmore⟩ := hwalks a st res next (hs.walks hst) hround
    cases res <;> exact ⟨run ++ more, hst.trans hmore⟩
  have hchain : ∀ fuel, ∀ ⦃a s s' r⦄, Beside k g s s' r → r.length ≤ m → Plain s →
      roundsWithin body fuel a s = .ok b mid →
      ∃ y mid', Relation.ReflTransGen (Again body') (a, s') y ∧
        body' y.1 y.2 = .ok (.done b) mid' ∧ Beside k g mid mid' r₁ ∧ Q mid' := by
    intro fuel
    induction fuel using Nat.strongRecOn with
    | ind fuel ih =>
      intro a s s' r h hm hs hrun
      obtain ⟨res, next, hround, hrun⟩ := roundsWithin_again hrun
      rcases hrun with ⟨rfl, rfl⟩ | ⟨a', fuel', rfl, hrun, hfuel⟩
      · obtain ⟨mid', hround', hmid', hQ, -⟩ := hbody h hm hs hround hmid fun _ _ => hP
        exact ⟨(a, s'), mid', .refl, hround', hmid', hQ b rfl⟩
      · obtain ⟨run, hnext⟩ := hwalks a s _ next hs hround
        obtain ⟨more, hmore⟩ := hrest (hs.walks hnext) hrun
        have hahead : next.ahead = (more ++ r₁) ++ k := by
          rw [hmore.ahead, hmid, List.append_assoc]
        have hr : r = run ++ (more ++ r₁) := by
          have hsplit := h.ahead.symm.trans hnext.ahead
          rw [hahead, ← List.append_assoc] at hsplit
          exact List.append_cancel_right hsplit
        obtain ⟨next', hround', hnext', -, hshorter⟩ := hbody h hm hs hround hahead nofun
        have hm' : (more ++ r₁).length ≤ m := by
          rw [hr, List.length_append] at hm
          omega
        obtain ⟨y, mid', hsteps, hlast, hmid', hQ⟩ :=
          ih fuel' hfuel hnext' hm' (hs.walks hnext) hrun
        exact ⟨y, mid', .head ⟨hround', hshorter a' rfl⟩ hsteps, hlast, hmid', hQ⟩
  obtain ⟨fuel, hfuel⟩ := roundsWithin_of_rounds hrun
  obtain ⟨y, mid', hsteps, hlast, hmid', hQ⟩ := hchain fuel h hm hs hfuel
  exact ⟨mid', rounds_of_again hsteps hlast, hmid', hQ⟩

end Rounds

/-! ## Statements -/

theorem statementChoice_done {block : BlockParser} (stmts : List Stmt)
    (hg : ∀ t ∈ g.head?, t.isWord "function" = true) (hs : framesInside s.frames = []) :
    statementChoice block stmts g.head? s = .ok (.done stmts) s := by
  cases g with
  | nil => rfl
  | cons t g =>
    have hword := hg t rfl
    have hcloser : t.isCloser = false := by
      obtain ⟨hk, hraw⟩ := Shuts.isWord_iff.1 hword
      rw [Token.isCloser, hk, hraw]
      rfl
    simp only [List.head?_cons, statementChoice, hcloser, hword, Bool.false_eq_true, if_false,
      if_true]
    refine (bind_run rfl _).trans ?_
    rcases hframes : s.frames with _ | ⟨f, fs⟩
    · rfl
    · rw [hframes] at hs
      cases f <;> first | rfl | simp [framesInside] at hs

/-- Where the list of statements goes on, a statement has been read, and with other parsers of
blocks one would be read as well. -/
theorem statementChoice_ok {block : BlockParser} {stmts : List Stmt} {t : Token}
    {res : Round (List Stmt) (List Stmt)}
    (h : statementChoice block stmts (some t) s = .ok res mid) :
    (mid = s ∧ res = .done stmts) ∨
      ∃ more, statement block t s = .ok more mid ∧ res = .again (stmts ++ more) ∧
        ∀ block', statementChoice block' stmts (some t) = do
          return .again (stmts ++ (← statement block' t)) := by
  rw [statementChoice] at h
  split at h
  · obtain ⟨hres, hmid⟩ := pure_ok h
    exact .inl ⟨hmid, hres⟩
  split at h
  · obtain ⟨_, _, hget, h⟩ := bind_ok h
    cases hget
    have hdone : (pure (.done stmts) : Parse (Round (List Stmt) (List Stmt))) s = .ok res mid →
        mid = s ∧ res = .done stmts := fun hdone => ⟨(pure_ok hdone).2, (pure_ok hdone).1⟩
    rcases hframes : s.frames with _ | ⟨f, fs⟩
    · rw [hframes] at h
      exact .inl (hdone h)
    · rw [hframes] at h
      cases f <;> first | exact .inl (hdone h) | exact absurd h fail_ok
  split at h
  · exact absurd h fail_ok
  · rename_i hcloser hfunction hclass
    obtain ⟨more, last, hstatement, h⟩ := bind_ok h
    obtain ⟨rfl, rfl⟩ := pure_ok h
    refine .inr ⟨more, hstatement, rfl, fun block' => ?_⟩
    rw [statementChoice, if_neg hcloser, if_neg hfunction, if_neg hclass]

section Choice

variable {block block' : BlockParser} {stmts : List Stmt} {res : Round (List Stmt) (List Stmt)}

theorem choice_end (hpart : Parting k g) (h : Beside k g s s' []) (hs : Plain s)
    (hg : s'.ahead = g) (hrun : statementChoice block stmts s.ahead.head? s = .ok res mid) :
    mid = s ∧ res = .done stmts ∧
      statementChoice block' stmts s'.ahead.head? s' = .ok (.done stmts) s' := by
  obtain ⟨e, k', rfl, he⟩ := hpart.closer
  have hcloser : e.isCloser = true := by
    obtain ⟨hk, hraw⟩ := Shuts.isWord_iff.1 he
    rw [Token.isCloser, hk, hraw]
    rfl
  simp only [h.ahead, List.nil_append, List.head?_cons, statementChoice, hcloser, if_true] at hrun
  obtain ⟨rfl, rfl⟩ := pure_ok hrun
  refine ⟨rfl, rfl, ?_⟩
  rw [hg]
  exact statementChoice_done stmts hpart.next (h.peer.frames.trans hs.frames)

theorem choice_statement (hblock : Nested m block block') {c : Token} {more : List Stmt}
    (h : Beside k g s s' (c :: r)) (hm : (c :: r).length < m + 1) (hs : Plain s)
    (hrun : statement block c s = .ok more mid) (hmid : mid.ahead = r₁ ++ k) :
    ∃ mid', statement block' c s' = .ok more mid' ∧ Beside k g mid mid' r₁ ∧
      mid'.ahead.length < s'.ahead.length := by
  have hc : s.ahead.head? = some c := by rw [h.ahead]; rfl
  rw [statement_eq] at hrun
  obtain ⟨_, st, hhead, hrun⟩ := bind_ok hrun
  obtain ⟨_, last, hends, hrun⟩ := bind_ok hrun
  obtain ⟨rfl, rfl⟩ := pure_ok hrun
  obtain ⟨seps, hseps, -⟩ := tracks_endStatement (n := 0) hends
  have hahead : st.ahead = (seps ++ r₁) ++ k := by
    rw [hseps.ahead, hmid, List.append_assoc]
  obtain ⟨st', hhead', hst, hne, hshorter⟩ := h.step
    (tracks_statementHead hblock hc hs.indexDepth) hm hhead hahead fun run hrun =>
      ⟨hrun.ne_nil, hrun.solid⟩
  obtain ⟨mid', r₃, hends', hmid', hle⟩ := hst.endStatement hne hends
  obtain rfl : r₁ = r₃ := List.append_cancel_right (hmid.symm.trans hmid'.ahead)
  refine ⟨mid', ?_, hmid', hle.trans_lt hshorter⟩
  rw [statement_eq]
  exact (bind_run hhead' _).trans (bind_run hends' _)

end Choice

theorem statementRound (hpart : Parting k g) {block block' : BlockParser}
    (hblock : Nested m block block') : RoundBeside m k g (Parse.statementRound block)
      (Parse.statementRound block') (· = []) (·.ahead = g) := by
  intro stmts s s' r res mid r₁ h hm hs hrun hmid hdone
  obtain ⟨_, st, hskip, hrest⟩ := bind_ok hrun
  obtain ⟨st', hskip', hst, hend⟩ := h.skip hpart hskip
  obtain ⟨_, hwalks, -, -⟩ := tracks_skipSeparators (n := 0) hskip
  obtain ⟨_, hwalks', -, -⟩ := tracks_skipSeparators (n := 0) hskip'
  have hplain := hs.walks hwalks
  have hrun' : ∀ {res}, statementChoice block' stmts st'.ahead.head? st' = res →
      Parse.statementRound block' stmts s' = res :=
    fun hres => (bind_run hskip' _).trans ((bind_run (current?_run st') _).trans hres)
  rw [bind_run (current?_run st)] at hrest
  cases hr : r.dropWhile (·.isSeparator) with
  | nil =>
    rw [hr] at hst
    obtain ⟨rfl, rfl, hchoice⟩ := choice_end hpart hst hplain (hend hr) hrest
    obtain rfl : r₁ = [] := hdone _ rfl
    exact ⟨st', hrun' hchoice, hst, fun _ _ => hend hr, fun _ hres => by cases hres⟩
  | cons c r₂ =>
    rw [hr] at hst
    have hc : st.ahead.head? = some c := by rw [hst.ahead]; rfl
    have hc' : st'.ahead.head? = some c := by
      obtain ⟨seps, -, hahead'⟩ := hst.gap
      rw [hahead']
      rfl
    rw [hc] at hrest
    obtain ⟨rfl, rfl⟩ | ⟨more, hstatement, rfl, hchoice⟩ := statementChoice_ok hrest
    · -- Nothing has been read, but there is something left of the rest.
      rw [hst.ahead, hdone _ rfl] at hmid
      exact absurd (List.append_cancel_right (hmid : (c :: r₂) ++ k = [] ++ k))
        (List.cons_ne_nil _ _)
    · have hlen : (c :: r₂).length < m + 1 := by
        have hdrop := (List.dropWhile_suffix (l := r) (·.isSeparator)).length_le
        rw [hr] at hdrop
        omega
      obtain ⟨mid', hstatement', hmid', hshorter⟩ :=
        choice_statement hblock hst hlen hplain hstatement hmid
      refine ⟨mid', hrun' ?_, hmid', fun _ hres => (by cases hres), fun _ _ => ?_⟩
      · rw [hc', hchoice]
        exact (bind_run hstatement' _).trans rfl
      · have hskipped := hwalks'.ahead
        rw [hskipped, List.length_append]
        omega

theorem statements (h : Beside k g s s' r) (hpart : Parting k g) (hs : Plain s)
    {body : List Stmt} (hrun : Parse.statements s = .ok body mid) (hmid : mid.ahead = k) :
    ∃ mid', Parse.statements s' = .ok body mid' ∧ Beside k g mid mid' [] ∧ mid'.ahead = g := by
  obtain ⟨_, _, hget, hrun⟩ := bind_ok hrun
  cases hget
  obtain ⟨seps, -, hahead'⟩ := h.gap
  have hm : r.length ≤ s'.ahead.length := by
    rw [hahead', List.length_append]
    omega
  have hnested : Nested s'.ahead.length
      (fun frame => inFrame frame (statementsWithin s.ahead.length))
      (fun frame => inFrame frame (statementsWithin s'.ahead.length)) :=
    fun frame st hst => .inFrame (tracks_statementsWithin (s := { st with
      frames := frame :: st.frames }) _ hst)
  have hwalks : ∀ a st res next, Plain st →
      Parse.statementRound (fun frame => inFrame frame (statementsWithin s.ahead.length)) a st =
        .ok res next → ∃ run, st.Walks run next := by
    intro a st res next hst hround
    obtain ⟨run, hwalks, -⟩ := tracks_statementRound hnested a hst.indexDepth hround
    exact ⟨run, hwalks⟩
  rw [statementsWithin, statementList_eq] at hrun
  have hmid₀ : mid.ahead = [] ++ k := hmid
  obtain ⟨mid', hrun', hmid', hend⟩ :=
    rounds (statementRound hpart hnested) hwalks h hm hs hrun hmid₀ rfl
  refine ⟨mid', (bind_run rfl _).trans ?_, hmid', hend⟩
  rw [statementsWithin, statementList_eq]
  exact hrun'

/-! ## Functions up to their bodies -/

theorem eatWord_none {word : String} (hword : word ≠ "function") (h : Beside k g s s' r)
    (hpart : Parting k g) (hend : r = [] → s'.ahead = g)
    (hrun : Parse.eatWord word s = .ok none mid) : Parse.eatWord word s' = .ok none s' := by
  obtain ⟨-, hnone⟩ := eatIf_none hrun
  obtain ⟨seps, -, hahead'⟩ := h.gap
  refine eatIf_skip fun t ht => ?_
  cases r with
  | nil =>
    rw [hend rfl] at ht
    rw [Token.isWord, (Shuts.isWord_iff.1 (hpart.next t ht)).2, beq_eq_false_iff_ne.2 hword.symm]
    exact Bool.and_false _
  | cons c r =>
    rw [hahead'] at ht
    rw [h.ahead] at hnone
    obtain rfl : c = t := Option.some.inj ht
    exact hnone c rfl

theorem eatWord_some {word : String} {t : Token} (hword : word ≠ "end") (h : Beside k g s s' r)
    (hpart : Parting k g) (hrun : Parse.eatWord word s = .ok (some t) mid) :
    ∃ r₁ mid', Parse.eatWord word s' = .ok (some t) mid' ∧ Beside k g mid mid' r₁ ∧
      mid'.ahead.length < s'.ahead.length := by
  obtain ⟨ht, hpass⟩ := eatIf_some hrun
  obtain ⟨seps, hseps, hahead'⟩ := h.gap
  have hhead := hpass.head
  rw [h.ahead] at hhead
  cases r with
  | nil =>
    obtain ⟨e, k', rfl, he⟩ := hpart.closer
    obtain rfl : e = t := Option.some.inj hhead
    exact absurd ((Shuts.isWord_iff.1 ht).2.symm.trans (Shuts.isWord_iff.1 he).2) hword
  | cons c r =>
    obtain rfl : c = t := Option.some.inj hhead
    rw [Parse.eatWord, eatIf_head h.ahead, if_pos ht] at hrun
    cases hrun
    have hrun' : Parse.eatWord word s' = _ := (eatIf_head hahead').trans (if_pos ht)
    refine ⟨r, _, hrun', h.eat (List.singleton_append).symm hseps, ?_⟩
    rw [hahead']
    exact Nat.lt_succ_self _

theorem validationRound (hpart : Parting k g) : RoundBeside m k g Parse.validationRound
    Parse.validationRound (fun _ => True) (fun _ => True) := by
  intro blocks s s' r res mid r₁ h _ hs hrun hmid _
  obtain ⟨_, st, hskip, hrest⟩ := bind_ok hrun
  obtain ⟨st', hskip', hst, hend⟩ := h.skip hpart hskip
  obtain ⟨_, hwalks, -, -⟩ := tracks_skipSeparators (n := 0) hskip
  obtain ⟨_, hwalks', -, -⟩ := tracks_skipSeparators (n := 0) hskip'
  obtain ⟨found, st₁, heat, hround⟩ := bind_ok hrest
  -- Only a word within the rest begins a block.
  cases found with
  | none =>
    have heat' := hst.eatWord_none (by decide) hpart hend heat
    obtain ⟨rfl, -⟩ := eatIf_none heat
    obtain ⟨rfl, rfl⟩ := pure_ok hround
    obtain rfl : r₁ = r.dropWhile (·.isSeparator) :=
      List.append_cancel_right (hmid.symm.trans hst.ahead)
    exact ⟨st', (bind_run hskip' _).trans ((bind_run heat' _).trans rfl), hst, fun _ _ => trivial,
      fun _ hres => by cases hres⟩
  | some t =>
    obtain ⟨r₂, st₁', heat', hst₁, hless⟩ := hst.eatWord_some (by decide) hpart heat
    obtain ⟨run, hpassed, -⟩ := tracks_eatWord (n := 0) "arguments" heat
    obtain ⟨block, st₂, hblock, hlast⟩ := bind_ok hround
    obtain ⟨rfl, rfl⟩ := pure_ok hlast
    have hplain := (hs.walks hwalks).walks hpassed
    obtain ⟨st₂', hblock', hst₂, -, hshorter⟩ := hst₁.step
      (tracks_block (n := r₂.length + 1) .arguments t hplain.indexDepth fun block s hs =>
        tracks_addProperty block hs) (Nat.lt_succ_self _) hblock hmid fun run hrun =>
        hrun.2.solid
    refine ⟨st₂', (bind_run hskip' _).trans ((bind_run heat' _).trans ((bind_run hblock' _).trans
      rfl)), hst₂, fun _ hres => (by cases hres), fun _ _ => ?_⟩
    have hskipped := hwalks'.ahead
    rw [hskipped, List.length_append]
    omega

theorem validationBlocks (h : Beside k g s s' r) (hpart : Parting k g) (hs : Plain s)
    {blocks : List Block} (hrun : Parse.validationBlocks s = .ok blocks mid)
    (hmid : mid.ahead = r₁ ++ k) :
    ∃ mid', Parse.validationBlocks s' = .ok blocks mid' ∧ Beside k g mid mid' r₁ := by
  have hwalks : ∀ a st res next, Plain st → Parse.validationRound a st = .ok res next →
      ∃ run, st.Walks run next := by
    intro a st res next hst hround
    obtain ⟨run, hwalks, -⟩ := tracks_validationRound (n := 0) a hst.indexDepth hround
    exact ⟨run, hwalks⟩
  rw [validationBlocks_eq] at hrun
  obtain ⟨mid', hrun', hmid', -⟩ := rounds (m := r.length) (validationRound hpart) hwalks h
    (Nat.le_refl _) hs hrun hmid trivial
  exact ⟨mid', by rw [validationBlocks_eq]; exact hrun', hmid'⟩

theorem openFunction (h : Beside k g s s' r) (hpart : Parting k g) (hs : s.indexDepth = 0)
    {run run' run₁ : FunctionRun} (hsize : run'.size = run.size) {parent : Option Nat} {t : Token}
    {f : OpenFunction} (hrun : Parse.openFunction run parent t s = .ok (f, run₁) mid)
    (hmid : mid.ahead = r₁ ++ k) (parent' : Option Nat) :
    ∃ mid', Parse.openFunction run' parent' t s' = .ok (f, run'.push parent') mid' ∧
      Beside k g mid mid' r₁ := by
  obtain ⟨id, s₁, sig, s₂, validation, hid, hsig, hvalidation, hf⟩ := openFunction_ok hrun
  obtain ⟨rfl, rfl⟩ : id = s.nodes ∧ s₁ = { s with nodes := s.nodes + 1 } := by
    cases hid
    exact ⟨rfl, rfl⟩
  have hid' : freshId s' = .ok s.nodes { s' with nodes := s'.nodes + 1 } := by
    rw [← h.peer.nodes]
    rfl
  have hs₁ : Beside k g { s with nodes := s.nodes + 1 } { s' with nodes := s'.nodes + 1 } r :=
    { h with peer := { h.peer with nodes := congrArg (· + 1) h.peer.nodes } }
  obtain ⟨run₂, hsecond, -, -⟩ := steady_signature (n := 0) t.location _ hsig
  have hplain : Plain { s₂ with frames := .function :: s₂.frames } :=
    ⟨hsecond.indexDepth.trans hs, rfl⟩
  obtain ⟨more, hmore, -, -⟩ := tracks_validationBlocks (n := 0) hplain.indexDepth hvalidation
  have hahead : s₂.ahead = (more ++ r₁) ++ k := by
    have hmore : s₂.ahead = more ++ mid.ahead := hmore.ahead
    rw [hmore, hmid, List.append_assoc]
  obtain ⟨s₂', hsig', hs₂, -, -⟩ := hs₁.step (steady_signature (n := r.length + 1) t.location _)
    (Nat.lt_succ_self _) hsig hahead fun run hrun => by
      have hsentence := hrun.sentence hs
      exact ⟨hsentence.ne_nil, hsentence.solid⟩
  have hframed : Beside k g { s₂ with frames := .function :: s₂.frames }
      { s₂' with frames := .function :: s₂'.frames } (more ++ r₁) :=
    { hs₂ with peer := { hs₂.peer with frames := rfl } }
  obtain ⟨mid', hvalidation', hmid'⟩ := hframed.validationBlocks hpart hplain hvalidation hmid
  refine ⟨mid', ?_, hmid'⟩
  refine (bind_run hid' _).trans ((bind_run hsig' _).trans ((bind_run rfl _).trans
    ((bind_run rfl _).trans ((bind_run hvalidation' _).trans ?_))))
  obtain ⟨rfl, -⟩ := Prod.mk.inj hf
  rw [hs₂.peer.methodDepth, hsize]
  rfl

end Beside

end Parse

end MFile.Grammar
