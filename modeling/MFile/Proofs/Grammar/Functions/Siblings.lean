import Mathlib.Data.List.Induction
import MFile.Proofs.Grammar.Functions.Beside
import MFile.Proofs.Token.Closing

/-!
Functions closed one by one, beside the same functions read inside of each other. With an `end`
each function is over before the next one begins, and is a run round of its own. Without, all stay
open to the end of the file, and are closed there.
-/

namespace MFile.Grammar

namespace FunctionRun

variable {run : FunctionRun}

theorem modify_append {α : Type} (l : List α) (a : α) (l' : List α) (f : α → α) :
    (l ++ a :: l').modify l.length f = l ++ f a :: l' := by
  induction l with
  | nil => rfl
  | cons b l ih => rw [List.cons_append, List.length_cons, List.modify_succ_cons, ih]; rfl

def closedEntry (f : Parse.OpenFunction) : RunEntry := ⟨none, some (f.finish true)⟩

theorem nestFrom_closed (fs : List Parse.OpenFunction) (k : Nat) :
    nestFrom k (fs.map closedEntry) = fs.map fun f => (none, f.finish true) := by
  induction fs generalizing k with
  | nil => rfl
  | cons f fs ih =>
    have hnone : ((fs.map fun f => ((none : Option Nat), f.finish true)).filter
        (·.1 == some k)) = [] := by simp
    have hall : ((fs.map fun f => ((none : Option Nat), f.finish true)).filter
        (·.1 != some k)) = fs.map fun f => (none, f.finish true) := by simp
    rw [List.map_cons, nestFrom, ih, List.map_cons]
    simp only [closedEntry, hnone, hall]
    rfl

theorem resolve_closed {fs : List Parse.OpenFunction} (h : run.entries = fs.map closedEntry) :
    run.resolve = fs.map (·.finish true) := by
  have hnest : run.nest = fs.map (·.finish true) := by
    rw [nest_eq, h, nestFrom_closed, List.map_map]
    rfl
  have hfilled : run.filled = fs.map (·.finish true) := by
    rw [filled, h, List.filterMap_map]
    exact List.filterMap_eq_map ▸ rfl
  rw [resolve, hnest, hfilled, ite_self]

end FunctionRun

namespace Parse

open FunctionRun

structure Settled (fs : List OpenFunction) (run run' : FunctionRun) : Prop where
  closed : run.entries = fs.map closedEntry
  size : run'.size = fs.length
  unfilled : ∀ e ∈ run'.entries, e.function = none
  index : fs.map (·.index) = List.range fs.length
  free : ∀ f ∈ fs, f.inMethod = false

namespace Settled

variable {fs : List OpenFunction} {run run' : FunctionRun} {f : OpenFunction}

theorem push (h : Settled fs run run') (hindex : f.index = fs.length) (hfree : f.inMethod = false)
    (parent : Option Nat) :
    Settled (fs ++ [f]) ((run.push none).fill f.index (f.finish true)) (run'.push parent) := by
  have hlength : run.entries.length = fs.length := by rw [h.closed, List.length_map]
  refine ⟨?_, ?_, fun e he => ?_, ?_, fun g hg => ?_⟩
  · rw [fill, FunctionRun.push, hindex, ← hlength, modify_append, h.closed, List.map_append]
    rfl
  · rw [FunctionRun.size, FunctionRun.push, List.length_append, ← FunctionRun.size, h.size,
      List.length_append]
    rfl
  · rw [FunctionRun.push, List.mem_append, List.mem_singleton] at he
    exact he.elim (h.unfilled e) fun he => by rw [he]
  · rw [List.map_append, h.index, List.length_append, List.map_singleton, hindex,
      List.length_singleton, List.range_succ]
  · rcases List.mem_append.1 hg with hg | hg
    · exact h.free g hg
    · rw [List.mem_singleton.1 hg, hfree]

theorem filled_foldl {es later : List RunEntry} (hes : es.length = fs.length)
    (hindex : fs.map (·.index) = List.range fs.length) (hrun : run.entries = es ++ later) :
    (fs.reverse.foldl (fun run f => run.fill f.index (f.finish false)) run).filled =
      fs.map (·.finish false) ++ later.filterMap (·.function) := by
  induction fs using List.reverseRecOn generalizing run es later with
  | nil =>
    rw [List.length_eq_zero_iff.1 hes, List.nil_append] at hrun
    rw [List.reverse_nil, List.foldl_nil, filled, hrun]
    rfl
  | append_singleton fs f ih =>
    rw [List.length_append, List.length_singleton] at hes hindex
    rw [List.map_append, List.range_succ] at hindex
    obtain ⟨hindex, hlast⟩ := List.append_inj' hindex rfl
    obtain ⟨es, a, rfl⟩ : ∃ es' a, es = es' ++ [a] :=
      ⟨_, _, (List.dropLast_concat_getLast (List.ne_nil_of_length_eq_add_one hes)).symm⟩
    rw [List.length_append, List.length_singleton, Nat.add_right_cancel_iff] at hes
    rw [List.append_assoc, List.singleton_append] at hrun
    have hf : f.index = es.length := by simpa [hes] using hlast
    have hfill : (run.fill f.index (f.finish false)).entries =
        es ++ { a with function := some (f.finish false) } :: later := by
      rw [fill, hf, hrun, modify_append]
    rw [List.reverse_append, List.reverse_singleton, List.singleton_append, List.foldl_cons,
      ih hes hindex hfill, List.map_append, List.append_assoc]
    rfl

theorem closeAtEndOfFile (h : Settled fs run run') {st : State} (hunused : st.endUsed = false) :
    ∃ last, Parse.closeAtEndOfFile fs.reverse run' st = .ok last st ∧
      last.filled = fs.map (·.finish false) := by
  have hnone : (fs.reverse.find? fun f => f.inMethod || st.endUsed) = none := by
    rw [List.find?_eq_none]
    intro f hf
    rw [h.free f (List.mem_reverse.1 hf), hunused]
    decide
  refine ⟨fs.reverse.foldl (fun run f => run.fill f.index (f.finish false)) run',
    (bind_run rfl _).trans ?_, ?_⟩
  · rw [hnone]
    rfl
  · have hfilled := filled_foldl h.size h.index (List.append_nil _).symm
    rwa [List.filterMap_nil, List.append_nil] at hfilled

end Settled

structure Abreast (d : Depth) (ts : List Token) (m m' : State) : Prop where
  inFunction : InFunction d ts
  ahead : m.ahead = significant false ts
  ahead' : m'.ahead = significant false (withoutEnds d false ts)
  twin : m.Twin m'
  plain : Plain m
  methodDepth : m.methodDepth = 0
  unused : m'.endUsed = false

structure Moved (st st' : State) : Prop where
  file : st'.file = st.file
  nodes : st'.nodes = st.nodes
  frames : st'.frames = st.frames
  indexDepth : st'.indexDepth = st.indexDepth
  methodDepth : st'.methodDepth = st.methodDepth
  placeholders : st'.placeholders = st.placeholders

namespace Moved

variable {st mid st' : State}

theorem refl (st : State) : Moved st st := ⟨rfl, rfl, rfl, rfl, rfl, rfl⟩

theorem trans (h : Moved st mid) (h' : Moved mid st') : Moved st st' :=
  ⟨h'.file.trans h.file, h'.nodes.trans h.nodes, h'.frames.trans h.frames,
    h'.indexDepth.trans h.indexDepth, h'.methodDepth.trans h.methodDepth,
    h'.placeholders.trans h.placeholders⟩

theorem eatIf {p : Token → Bool} {found : Option Token} (h : Parse.eatIf p st = .ok found st') :
    Moved st st' := by
  rw [Parse.eatIf] at h
  split at h
  · cases h
    exact .refl st
  · split at h <;> cases h <;> exact ⟨rfl, rfl, rfl, rfl, rfl, rfl⟩

theorem skipSeparators {u : Unit} (h : Parse.skipSeparators st = .ok u st') : Moved st st' := by
  cases h
  exact ⟨rfl, rfl, rfl, rfl, rfl, rfl⟩

theorem endStatement {u : Unit} (h : Parse.endStatement st = .ok u st') : Moved st st' := by
  obtain ⟨found, mid, heat, hrest⟩ := bind_ok h
  have hmid := eatIf heat
  cases found with
  | some t =>
    obtain ⟨-, rfl⟩ := pure_ok hrest
    exact hmid
  | none =>
    obtain ⟨_, last, hcurrent, hrest⟩ := bind_ok hrest
    obtain ⟨rfl, rfl⟩ := current?_ok hcurrent
    cases hhead : last.ahead.head? with
    | none =>
      rw [hhead] at hrest
      obtain ⟨-, rfl⟩ := pure_ok hrest
      exact hmid
    | some t =>
      rw [hhead] at hrest
      dsimp only at hrest
      split at hrest
      · exact absurd hrest unexpected_ok
      · obtain ⟨-, rfl⟩ := pure_ok hrest
        exact hmid

theorem useEnd (f : OpenFunction) (st : State) : Moved st (Parse.useEnd f st) := by
  rw [Parse.useEnd]
  split <;> exact ⟨rfl, rfl, rfl, rfl, rfl, rfl⟩

end Moved

variable {d : Depth} {ts : List Token} {m st : State} {t : Token} {run run' : FunctionRun}

theorem function_closed (hin : InFunction d ts) (hm : m.ahead = significant false ts)
    (hplain : Plain m) (hrun : function run t m = .ok run' st) :
    ∃ f s₁ body mid passed e seps, openFunction run none t m = .ok (f, run.push none) s₁ ∧
      statements s₁ = .ok body mid ∧
      State.Walks { m with frames := .function :: m.frames } passed mid ∧ Level passed ∧
      mid.ahead = e :: (seps ++ st.ahead) ∧ e.isWord "end" = true ∧
      (∀ t ∈ seps, t.isSeparator = true) ∧
      run' = (run.push none).fill f.index ({ f with body := body }.finish true) ∧
      st.frames = m.frames ∧ Moved mid { st with frames := mid.frames } := by
  obtain ⟨f, run₁, s₁, s₂, hopen, hrounds, rfl⟩ := function_ok hrun
  obtain ⟨head, hhead, hhead', hindex, -, hbody, -, rfl⟩ :=
    openFunction_walks hplain.indexDepth hopen
  obtain ⟨r, s₃, hround, hrest⟩ := bind_ok hrounds
  obtain ⟨body, mid, hstatements, hcases⟩ := functionRound_ok hround
  obtain ⟨stretch, hstretch, hstretch', -⟩ := tracks_statements (n := 0)
    (hhead.indexDepth.trans hplain.indexDepth) hstatements
  have hahead : m.ahead = (head ++ stretch) ++ mid.ahead := (hhead.trans hstretch).ahead
  obtain ⟨t', rest, hk, ht'⟩ := hin.goesOn (hhead'.append hstretch') (hm ▸ hahead)
  have hframes : mid.frames = .function :: m.frames := hstretch.frames.trans hhead.frames
  -- Neither another function nor the end of the file comes next, so what is left is its own `end`.
  rcases hcases with ⟨opener, m₁, inner, run', heat, -, -⟩ | ⟨hempty, -⟩ | ⟨run', -, hclose, rfl⟩
  · rw [eatWord, eatIf_head hk, if_neg (by rw [ht']; decide)] at heat
    cases heat
  · exact (List.cons_ne_nil _ _ (hk.symm.trans hempty)).elim
  · obtain ⟨rfl, rfl⟩ := pure_ok hrest
    obtain ⟨e, s₄, s₅, heat, hends, rfl, rfl⟩ := closeWithEnd_ok hclose
    obtain ⟨_, hend, ⟨rfl, hword, -⟩, -⟩ := tracks_eatWord (n := 0) "end" heat
    obtain ⟨seps, hseps, hseps', -⟩ := tracks_endStatement (n := 0) hends
    have hused : ∀ g, (useEnd g s₄).ahead = s₄.ahead ∧ (useEnd g s₄).frames = s₄.frames := by
      intro g
      rw [useEnd]
      split <;> exact ⟨rfl, rfl⟩
    have hback : s₅.frames.tail = m.frames := by
      rw [hseps.frames, (hused _).2, hend.frames, hframes]
      rfl
    have hst : s₅.frames.tail.drop (s₅.frames.tail.length - m.frames.length) = m.frames := by
      rw [hback, Nat.sub_self, List.drop_zero]
    refine ⟨f, s₁, body, mid, head ++ stretch, e, seps, hopen, hstatements, hhead.trans hstretch,
      hhead'.append hstretch', ?_, hword e rfl, hseps', ?_, hst, ?_⟩
    · have hsplit := hseps.ahead
      rw [(hused _).1] at hsplit
      rw [hend.ahead, hsplit]
      rfl
    · rw [hbody]
      rfl
    · have hmoved := ((Moved.eatIf heat).trans (.useEnd _ s₄)).trans (.endStatement hends)
      exact { hmoved with frames := rfl }

theorem function_beside {m' s₁ mid : State} {f : OpenFunction} {body : List Stmt}
    {g passed seps : List Token} (h : Abreast d ts m m')
    (hopen : openFunction run none t m = .ok (f, run.push none) s₁)
    (hstatements : statements s₁ = .ok body mid) (hahead : m.ahead = passed ++ mid.ahead)
    (hpart : Parting mid.ahead g) (hlast : ∃ t ∈ passed.getLast?, t.isSeparator = true)
    (hseps : ∀ t ∈ seps, t.isSeparator = true) (hahead' : m'.ahead = passed ++ (seps ++ g))
    (hsize : run'.size = run.size) (parent : Option Nat) :
    ∃ s₁' mid', openFunction run' parent t m' = .ok (f, run'.push parent) s₁' ∧
      s₁'.ahead.length ≤ m'.ahead.length ∧ statements s₁' = .ok body mid' ∧
      mid'.ahead.length ≤ s₁'.ahead.length ∧ mid'.ahead = g ∧ mid.Peer mid' ∧
      mid'.endUsed = false := by
  have hm : Beside mid.ahead g m m' passed :=
    ⟨h.twin.toPeer, hahead, ⟨seps, hseps, hahead'⟩, fun _ => ⟨hlast, h.twin.last⟩, h.unused⟩
  obtain ⟨_, hwalks, -⟩ := openFunction_walks h.plain.indexDepth hopen
  have hplain : Plain s₁ :=
    ⟨hwalks.indexDepth.trans h.plain.indexDepth, by rw [hwalks.frames]; rfl⟩
  obtain ⟨stretch, hstretch, -⟩ := tracks_statements (n := 0) hplain.indexDepth hstatements
  obtain ⟨s₁', hopen', hs₁⟩ := hm.openFunction hpart h.plain.indexDepth hsize hopen
    hstretch.ahead parent
  obtain ⟨mid', hstatements', hmid', hg⟩ := hs₁.statements hpart hplain hstatements rfl
  obtain ⟨_, hwalks', -⟩ :=
    openFunction_walks (h.twin.indexDepth.trans h.plain.indexDepth) hopen'
  have hshorter : s₁'.ahead.length ≤ m'.ahead.length := by
    have hfirst : m'.ahead = _ ++ s₁'.ahead := hwalks'.ahead
    rw [hfirst, List.length_append]
    exact Nat.le_add_left _ _
  obtain ⟨more, -, hrest⟩ := hs₁.gap
  refine ⟨s₁', mid', hopen', hshorter, hstatements', ?_, hg, hmid'.peer, hmid'.unused⟩
  rw [hrest, hg, List.length_append, List.length_append]
  omega

theorem Abreast.next {d' : Depth} {ts' passed behind : List Token} {m' mid mid' next : State}
    {opener : Token} (h : Abreast d ts m m')
    (hpassed : State.Walks { m with frames := .function :: m.frames } passed mid)
    (hpeer : mid.Peer mid') (hunused : mid'.endUsed = false)
    (hmoved : Moved mid { next with frames := mid.frames }) (hframes : next.frames = m.frames)
    (hin : InFunction d' ts') (hahead : next.ahead = significant false ts')
    (hbehind : next.behind = opener :: behind) :
    Abreast d' ts' next { mid' with
      behind := opener :: mid'.behind, ahead := significant false (withoutEnds d' false ts') } := by
  have hmid : Plain mid := ⟨hpassed.indexDepth.trans h.plain.indexDepth,
    by rw [hpassed.frames]; rfl⟩
  have hinside : framesInside mid'.frames = framesInside next.frames := by
    rw [hpeer.frames, hmid.frames, hframes, h.plain.frames]
  have htwin : next.Twin { mid' with
      behind := opener :: mid'.behind, ahead := significant false (withoutEnds d' false ts') } := by
    refine ⟨⟨?_, ?_, hinside, ?_, ?_, ?_⟩, ?_⟩
    · exact hpeer.file.trans hmoved.file.symm
    · exact hpeer.nodes.trans hmoved.nodes.symm
    · exact hpeer.indexDepth.trans hmoved.indexDepth.symm
    · exact hpeer.methodDepth.trans hmoved.methodDepth.symm
    · exact hpeer.placeholders.trans hmoved.placeholders.symm
    · rw [hbehind]
      rfl
  have hplain : Plain next :=
    ⟨hmoved.indexDepth.trans hmid.indexDepth, by rw [hframes, h.plain.frames]⟩
  have hmethod : next.methodDepth = 0 :=
    hmoved.methodDepth.trans (hpassed.methodDepth.trans h.methodDepth)
  exact ⟨hin, hahead, rfl, htwin, hplain, hmethod, hunused⟩

theorem functionRound_next {soFar : RunSoFar} {body : List Stmt} {s mid m₁ st : State}
    {opener : Token} {inner : OpenFunction} (hbody : statements s = .ok body mid)
    (heat : eatWord "function" mid = .ok (some opener) m₁)
    (hopen : openFunction soFar.run (some soFar.current.index) opener m₁ = .ok (inner, run) st) :
    functionRound soFar s = .ok (.again ⟨inner, { soFar.current with
      body := soFar.current.body ++ body } :: soFar.enclosing, run⟩) st :=
  (bind_run hbody _).trans ((bind_run heat _).trans ((bind_run hopen _).trans rfl))

theorem functionRound_last {soFar : RunSoFar} {body : List Stmt} {s mid st : State}
    (hbody : statements s = .ok body mid) (hempty : mid.ahead = [])
    (hclose : closeAtEndOfFile ({ soFar.current with body := soFar.current.body ++ body } ::
      soFar.enclosing) soFar.run mid = .ok run st) :
    functionRound soFar s = .ok (.done run) st := by
  refine (bind_run hbody _).trans ((bind_run (eatIf_skip (by rw [hempty]; simp)) _).trans
    ((bind_run rfl _).trans ?_))
  rw [hempty]
  exact (bind_run hclose _).trans rfl

theorem rounds_siblings {fuel : Nat} : ∀ {fs : List OpenFunction} {d : Depth} {ts : List Token}
    {t : Token} {m m' st last : State} {run run₁ run' final : FunctionRun},
    Abreast d ts m m' → Settled fs run run' → function run t m = .ok run₁ st →
    roundsWithin localRound fuel run₁ st = .ok final last → ∀ parent : Option Nat,
    ∃ (f : OpenFunction) (s₁' : State) (y : RunSoFar × State) (last' : State)
      (fs' : List OpenFunction) (final' : FunctionRun),
      openFunction run' parent t m' = .ok (f, run'.push parent) s₁' ∧
      s₁'.ahead.length ≤ m'.ahead.length ∧
      Relation.ReflTransGen (Again functionRound) (⟨f, fs.reverse, run'.push parent⟩, s₁') y ∧
      functionRound y.1 y.2 = .ok (.done final') last' ∧ last'.ahead = [] ∧
      last'.file = last.file ∧
      final.entries = fs'.map closedEntry ∧ final'.filled = fs'.map (·.finish false) := by
  induction fuel using Nat.strongRecOn with
  | ind fuel ih =>
    intro fs d ts t m m' st last run run₁ run' final h hsettled hrun hrounds parent
    obtain ⟨f, s₁, body, mid, passed, e, seps, hopen, hstatements, hpassed, hlevel, hmid, he,
      hseps, rfl, hframes, hmoved⟩ := function_closed h.inFunction h.ahead h.plain hrun
    obtain ⟨r, next, hround, hrest⟩ := roundsWithin_again hrounds
    obtain ⟨st₁, hskip, hcases⟩ := localRound_ok hround
    obtain ⟨more, hmore, ⟨hmore', -⟩, -⟩ := tracks_skipSeparators (n := 0) hskip
    have hahead : m.ahead = passed ++ mid.ahead := hpassed.ahead
    have hgap : ∀ t ∈ seps ++ more, t.isSeparator = true := fun t ht =>
      (List.mem_append.1 ht).elim (hseps t) (hmore' t)
    have hview : significant false ts = passed ++ e :: ((seps ++ more) ++ st₁.ahead) := by
      rw [← h.ahead, hahead, hmid, hmore.ahead, List.append_assoc]
    obtain ⟨_, _, _, hindex, -, hbody, hmethod, -⟩ := openFunction_walks h.plain.indexDepth hopen
    have hsize : run.size = fs.length := by
      rw [FunctionRun.size, hsettled.closed, List.length_map]
    rw [h.methodDepth] at hmethod
    have hsettled' := hsettled.push (f := { f with body := body }) (hindex.trans hsize) hmethod
      parent
    have hskipped : Moved { st with frames := mid.frames } { st₁ with frames := mid.frames } :=
      { Moved.skipSeparators hskip with frames := rfl }
    have hst₁ := hmoved.trans hskipped
    rcases hcases with ⟨t₂, st₂, run₂, heat, hrun₂, rfl⟩ | ⟨hempty, rfl, rfl⟩
    · -- Without its `end`, this function is still open around the next one.
      obtain ⟨hword, hpass⟩ := eatIf_some heat
      obtain ⟨⟨⟩, -⟩ | ⟨_, fuel', ⟨⟩, hrounds', hless⟩ := hrest
      have hst₂ : st₁.ahead = t₂ :: st₂.ahead := hpass.ahead
      obtain ⟨hlast, seps', hseps', hnext⟩ := withoutEnds_function h.inFunction hlevel he hview
        hgap (by rw [hst₂]; rintro x ⟨⟩; exact hword)
      obtain ⟨hnone, -⟩ | ⟨_, ts', d', hcons, hin, hsig⟩ := hnext
      · exact (List.cons_ne_nil _ _ (hst₂.symm.trans hnone)).elim
      obtain ⟨rfl, hts'⟩ := List.cons.inj (hst₂.symm.trans hcons)
      obtain ⟨s₁', mid', hopen', hshorter, hstatements', hlonger, hg, hpeer, hunused⟩ :=
        function_beside h hopen hstatements hahead ⟨⟨e, _, hmid, he⟩, by rintro x ⟨⟩; exact hword⟩
          hlast hseps' (h.ahead'.trans hsig) (hsettled.size.trans hsize.symm) parent
      have heat' : eatWord "function" mid' = _ := (eatIf_head hg).trans (if_pos hword)
      have hmove : Moved { st₁ with frames := mid.frames } { st₂ with frames := mid.frames } :=
        { Moved.eatIf heat with frames := rfl }
      have hframes₂ : st₂.frames = m.frames :=
        (Moved.eatIf heat).frames.trans ((Moved.skipSeparators hskip).frames.trans hframes)
      have habreast := h.next hpassed hpeer hunused (hst₁.trans hmove) hframes₂ hin hts'
        hpass.behind
      obtain ⟨f₂, s₂', y, last', fs', final', hopen₂, hshorter₂, hsteps, hdone⟩ :=
        ih fuel' hless habreast hsettled' hrun₂ hrounds' (some f.index)
      have hround' : functionRound ⟨f, fs.reverse, run'.push parent⟩ s₁' = _ :=
        functionRound_next hstatements' heat' hopen₂
      rw [hbody] at hround'
      rw [List.reverse_append, List.reverse_singleton, List.singleton_append] at hsteps
      refine ⟨f, s₁', y, last', fs', final', hopen', hshorter, .head ⟨hround', ?_⟩ hsteps, hdone⟩
      have hlength := congrArg List.length hg
      rw [List.length_cons] at hlength
      exact hshorter₂.trans_lt (by simp only at hshorter₂ ⊢; omega)
    · -- The end of the file closes all that are still open.
      obtain ⟨⟨⟩, rfl⟩ | ⟨_, _, ⟨⟩, -⟩ := hrest
      obtain ⟨hlast, seps', hseps', hnext⟩ :=
        withoutEnds_function h.inFunction hlevel he hview hgap (by simp [hempty])
      have hahead' : m'.ahead = passed ++ (seps' ++ []) := by
        rw [h.ahead', List.append_nil]
        rcases hnext with ⟨-, hsig⟩ | ⟨_, _, _, hcons, -⟩
        · exact hsig
        · exact (List.cons_ne_nil _ _ (hcons.symm.trans hempty)).elim
      obtain ⟨s₁', mid', hopen', hshorter, hstatements', -, hg, hpeer, hunused⟩ :=
        function_beside h hopen hstatements hahead ⟨⟨e, _, hmid, he⟩, by simp⟩ hlast hseps' hahead'
          (hsettled.size.trans hsize.symm) parent
      obtain ⟨final', hclose, hfilled⟩ := hsettled'.closeAtEndOfFile hunused
      rw [List.reverse_append, List.reverse_singleton, List.singleton_append] at hclose
      refine ⟨f, s₁', (⟨f, fs.reverse, run'.push parent⟩, s₁'), mid',
        fs ++ [{ f with body := body }], final', hopen', hshorter, .refl,
        functionRound_last hstatements' hg ?_, hg, ?_, hsettled'.closed, hfilled⟩
      · rw [hbody]
        exact hclose
      · exact hpeer.file.trans hst₁.file.symm

end Parse

end MFile.Grammar
