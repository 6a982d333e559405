import Mathlib.Data.List.Forall2
import MFile.Proofs.Grammar.Functions.Steps
import MFile.Proofs.Token.Depth
import MFile.Proofs.Grammar.Lockstep.Blocks

/-!
A run of functions against the tokens read for it. The `function` words tell the run: each entry
has the place of its word, and the parent that the blocks open at that word tell.
-/

namespace MFile

namespace Depth

theorem functionWords_single (d : Depth) {t : Token} (h : t.isWord "function" = true) :
    functionWords d [t] = [⟨t.location, d.innermost?, d.inMethods⟩] := by
  rw [functionWords, if_pos h, functionWords]

end Depth

namespace Grammar.Parse

/-- Where `d` is once the functions of a run have begun and only `opens` are still open. -/
def depthInside (d : Depth) (run : FunctionRun) (opens : List OpenFunction) : Depth :=
  { d with
    blocks := opens.map (fun f => ⟨"function", d.functions + f.index⟩) ++ d.blocks
    functions := d.functions + run.size }

section Inside

variable {d : Depth} {run : FunctionRun} {opens : List OpenFunction} {f : OpenFunction}
  {t : Token}

theorem innermost?_depthInside (hd : d.innermost? = none) :
    (depthInside d run opens).innermost? =
      (opens.head?.map (·.index)).map (d.functions + ·) := by
  cases opens with
  | nil => exact hd
  | cons f opens => rfl

theorem inMethods_depthInside : (depthInside d run opens).inMethods = d.inMethods := by
  rw [Depth.inMethods, depthInside, List.any_append]
  refine Bool.or_eq_right_iff_imp.2 fun h => ?_
  simp at h

theorem depthInside_function (hd : d.brackets = 0) (ht : t.isWord "function" = true)
    (hf : f.index = run.size) (parent : Option Nat) :
    (depthInside d run opens).step t = depthInside d (run.push parent) (f :: opens) := by
  obtain ⟨hk, hraw⟩ := Shuts.isWord_iff.1 ht
  rw [Depth.step_keyword _ hk (by exact hd), hraw]
  simp [depthInside, Depth.blocksAfter, Lexing.Block.ofWord?, hf, FunctionRun.size,
    FunctionRun.push, Nat.add_assoc]

theorem depthInside_end (hd : d.brackets = 0) (ht : t.isWord "end" = true) (g : FunctionDef) :
    (depthInside d run (f :: opens)).step t = depthInside d (run.fill f.index g) opens := by
  obtain ⟨hk, hraw⟩ := Shuts.isWord_iff.1 ht
  rw [Depth.step_keyword _ hk (by exact hd), hraw]
  simp only [depthInside, FunctionRun.size_fill]
  rfl

end Inside

/-- The tokens `W`, read from `d` on, tell the run, of which `opens` are still open. -/
structure Records (d : Depth) (run : FunctionRun) (opens : List OpenFunction) (W : List Token) :
    Prop where
  pending : run.Pending (opens.map (·.index))
  parents : (functionWords d W).map (·.parent) =
    run.entries.map (·.parent.map (d.functions + ·))
  inMethods : ∀ w ∈ functionWords d W, w.inMethods = d.inMethods
  filled : ∀ (i : Nat) (f : FunctionDef), run.entries[i]?.bind (·.function) = some f →
    (functionWords d W)[i]?.map (·.location) = some f.site.location
  opened : ∀ f ∈ opens, (functionWords d W)[f.index]?.map (·.location) = some f.opener.location

namespace Records

variable {d : Depth} {run : FunctionRun} {opens : List OpenFunction} {f : OpenFunction}
  {W more : List Token} {t : Token}

theorem empty (d : Depth) : Records d {} [] [] :=
  ⟨.empty, rfl, by simp [functionWords], by simp, by simp⟩

theorem length (h : Records d run opens W) : (functionWords d W).length = run.size := by
  have hlength := congrArg List.length h.parents
  rwa [List.length_map, List.length_map] at hlength

theorem quiet (h : Records d run opens W) (hmore : ∀ t ∈ more, t.isWord "function" = false) :
    Records d run opens (W ++ more) := by
  have hwords : functionWords d (W ++ more) = functionWords d W := by
    rw [functionWords_append, functionWords_eq_nil hmore, List.append_nil]
  exact ⟨h.pending, hwords ▸ h.parents, hwords ▸ h.inMethods, hwords ▸ h.filled,
    hwords ▸ h.opened⟩

theorem location_append (h : Records d run opens W) {i : Nat} (hi : i < run.size)
    (w : FunctionWord) : (functionWords d W ++ [w])[i]? = (functionWords d W)[i]? :=
  List.getElem?_append_left (by rwa [h.length])

theorem push (h : Records d run opens W) (hd : d.innermost? = none)
    (hW : d.past W = depthInside d run opens) (ht : t.isWord "function" = true)
    (hf : f.index = run.size) (hopener : f.opener = t) :
    Records d (run.push (opens.head?.map (·.index))) (f :: opens) (W ++ [t]) := by
  have hwords : functionWords d (W ++ [t]) = functionWords d W ++ [⟨t.location,
      (opens.head?.map (·.index)).map (d.functions + ·), d.inMethods⟩] := by
    rw [functionWords_append, hW, Depth.functionWords_single _ ht, innermost?_depthInside hd,
      inMethods_depthInside]
  constructor
  · have hpush := h.pending.push
    rwa [List.head?_map, ← hf] at hpush
  · rw [hwords, List.map_append, h.parents, FunctionRun.push, List.map_append]
    rfl
  · rw [hwords]
    intro w hw
    rcases List.mem_append.1 hw with hw | hw
    · exact h.inMethods w hw
    · rw [List.mem_singleton.1 hw]
  · intro i g hg
    have hi : i < run.size := by
      by_contra hi
      rw [FunctionRun.push, List.getElem?_append_right (Nat.le_of_not_lt hi)] at hg
      cases hsub : i - run.entries.length <;> simp [hsub] at hg
    rw [hwords, h.location_append hi]
    refine h.filled i g ?_
    rwa [FunctionRun.push, List.getElem?_append_left hi] at hg
  · intro g hg
    rw [hwords]
    rcases List.mem_cons.1 hg with rfl | hg
    · rw [hf, ← h.length, List.getElem?_concat_length, hopener]
      rfl
    · rw [h.location_append (h.pending.lt _ (List.mem_map_of_mem hg))]
      exact h.opened g hg

theorem fill (h : Records d run (f :: opens) W) (terminated : Bool) :
    Records d (run.fill f.index (f.finish terminated)) opens W := by
  refine ⟨h.pending.fill _, ?_, h.inMethods, fun i g hg => ?_,
    fun g hg => h.opened g (List.mem_cons_of_mem _ hg)⟩
  · rw [h.parents]
    have hparents := congrArg (List.map (Option.map (d.functions + ·)))
      (FunctionRun.parents_fill run f.index (f.finish terminated))
    simpa only [List.map_map, Function.comp_def] using hparents.symm
  · rw [FunctionRun.entries_fill] at hg
    split at hg
    · rename_i hi
      subst hi
      have hopener := h.opened f List.mem_cons_self
      cases hentry : run.entries[f.index]? with
      | none => simp [hentry] at hg
      | some e =>
        rw [hentry] at hg
        cases hg
        exact hopener
    · exact h.filled i g hg

theorem fillAll (h : Records d run opens W) (terminated : Bool) :
    Records d (opens.foldl (fun run f => run.fill f.index (f.finish terminated)) run) [] W := by
  induction opens generalizing run with
  | nil => exact h
  | cons f opens ih => exact ih (h.fill terminated)

theorem listed (h : Records d run [] W) :
    (run.entries.filterMap (FunctionRun.RunEntry.listed? d.functions)).map
      (fun f => (f.location, f.parent)) =
        (functionWords d W).map fun w => (w.location, w.parent) := by
  have hboth : List.Forall₂ (fun e w => (FunctionRun.RunEntry.listed? d.functions e).map
      (fun f => (f.location, f.parent)) = some (w.location, w.parent))
      run.entries (functionWords d W) := by
    refine List.forall₂_iff_get.2 ⟨h.length.symm, fun i hi hi' => ?_⟩
    obtain ⟨f, hf⟩ := Option.isSome_iff_exists.1 (h.pending.filled _ (List.get_mem _ ⟨i, hi⟩))
    have hlocation := h.filled i f (by rw [List.getElem?_eq_getElem hi]; exact hf)
    have hparent := congrArg (·[i]?) h.parents
    rw [List.getElem?_eq_getElem hi'] at hlocation
    simp only [List.getElem?_map, List.getElem?_eq_getElem hi, List.getElem?_eq_getElem hi',
      Option.map_some, Option.some.injEq] at hparent hlocation
    rw [FunctionRun.RunEntry.listed?, hf, List.get_eq_getElem, List.get_eq_getElem, hlocation,
      hparent]
    rfl
  generalize run.entries = es at hboth
  generalize functionWords d W = ws at hboth
  induction hboth with
  | nil => rfl
  | @cons e w es ws he _ ih =>
    obtain ⟨f, hf, hw⟩ := Option.map_eq_some_iff.1 he
    rw [List.filterMap_cons_some hf, List.map_cons, List.map_cons, ih, hw]

end Records

end Grammar.Parse

end MFile

/-!
## Reading

Reading a run of functions. Each move keeps what the tokens behind it tell of the run. While a
function is read to its `end` all functions before it were; a function that is still open at the
end of the file means that none was closed.
-/

namespace MFile.Grammar

/-- The functions of a run read so far all have their `end`, or none has, and nothing is nested in
them yet. -/
def FunctionRun.Uniform (run : FunctionRun) (terminated : Bool) : Prop :=
  ∀ e ∈ run.entries, ∀ f ∈ e.function, f.terminated = terminated ∧ f.nested = []

theorem FunctionRun.Uniform.flat {run : FunctionRun} {terminated : Bool}
    (h : run.Uniform terminated) : ∀ e ∈ run.entries, ∀ f ∈ e.function, f.nested = [] :=
  fun e he f hf => (h e he f hf).2

namespace Parse

structure Ground (d : Depth) (s₀ : State) : Prop where
  brackets : d.brackets = 0
  innermost : d.innermost? = none
  indexDepth : s₀.indexDepth = 0

/-- From `s₀` on, where `d` stands, the functions of a run have been read but for `opens`, which
still have to be closed. -/
structure Reading (d : Depth) (s₀ : State) (run : FunctionRun) (opens : List OpenFunction)
    (st : State) : Prop where
  passed : ∃ W, s₀.Walks W { st with frames := s₀.frames, endUsed := s₀.endUsed } ∧
    Records d run opens W ∧ d.past W = depthInside d run opens
  closed : run.Uniform true
  unused : s₀.methodDepth = 0 → st.endUsed = false → ∀ e ∈ run.entries, e.function = none
  inMethod : ∀ f ∈ opens, f.inMethod = decide (0 < s₀.methodDepth)
  kept : 0 < s₀.methodDepth → st.endUsed = s₀.endUsed
  frames : st.frames = opens.map (fun _ => Frame.function) ++ s₀.frames

structure ReadThrough (d : Depth) (s₀ : State) (run : FunctionRun) (terminated : Bool)
    (st : State) : Prop where
  ahead : st.ahead = []
  records : Records d run [] s₀.ahead
  filled : run.Uniform terminated

namespace Reading

variable {d : Depth} {s₀ st mid st' : State} {run run' : FunctionRun} {opens : List OpenFunction}
  {f : OpenFunction} {t : Token} {more : List Token}

theorem start (d : Depth) (s₀ : State) : Reading d s₀ {} [] s₀ :=
  ⟨⟨[], .refl s₀, .empty d, rfl⟩, fun e he => absurd he List.not_mem_nil, by simp, by simp,
    fun _ => rfl, rfl⟩

theorem indexDepth (h : Reading d s₀ run opens st) (hground : Ground d s₀) :
    st.indexDepth = 0 := by
  obtain ⟨_, hwalks, -⟩ := h.passed
  exact hwalks.indexDepth.trans hground.indexDepth

theorem methodDepth (h : Reading d s₀ run opens st) : st.methodDepth = s₀.methodDepth := by
  obtain ⟨_, hwalks, -⟩ := h.passed
  exact hwalks.methodDepth

theorem level (h : Reading d s₀ run opens st) (hground : Ground d s₀)
    (hwalks : st.Walks more st') (hmore : Level more) : Reading d s₀ run opens st' := by
  obtain ⟨W, hW, hrecords, hdepth⟩ := h.passed
  refine ⟨⟨W ++ more, hW.trans ({ hwalks with frames := rfl, endUsed := rfl }),
    hrecords.quiet hmore.noFunction, ?_⟩,
    h.closed, ?_, h.inMethod, ?_, hwalks.frames.trans h.frames⟩
  · rw [Depth.past_append, hdepth]
    exact hmore.past_eq _ hground.brackets
  · rw [hwalks.endUsed]
    exact h.unused
  · rw [hwalks.endUsed]
    exact h.kept

theorem body (h : Reading d s₀ run (f :: opens) st) (stmts : List Stmt) :
    Reading d s₀ run ({ f with body := stmts } :: opens) st := by
  obtain ⟨⟨W, hW, ⟨hpending, hparents, hmethods, hfilled, hopened⟩, hdepth⟩, hclosed, hunused,
    hinMethod, hkept, hframes⟩ := h
  refine ⟨⟨W, hW, ⟨hpending, hparents, hmethods, hfilled, ?_⟩, hdepth⟩, hclosed, hunused, ?_,
    hkept, hframes⟩
  · exact List.forall_mem_cons.2 (List.forall_mem_cons.1 hopened)
  · exact List.forall_mem_cons.2 (List.forall_mem_cons.1 hinMethod)

theorem begin (h : Reading d s₀ run opens st) (hground : Ground d s₀) (hwalks : st.Walks [t] mid)
    (ht : t.isWord "function" = true) (hindex : f.index = run.size) (hopener : f.opener = t)
    (hmethod : f.inMethod = decide (0 < s₀.methodDepth)) :
    Reading d s₀ (run.push (opens.head?.map (·.index))) (f :: opens)
      { mid with frames := .function :: mid.frames } := by
  obtain ⟨W, hW, hrecords, hdepth⟩ := h.passed
  have hentries : ∀ e ∈ (run.push (opens.head?.map (·.index))).entries,
      e ∈ run.entries ∨ e.function = none := by
    intro e he
    rw [FunctionRun.push, List.mem_append, List.mem_singleton] at he
    exact he.imp_right fun he => congrArg RunEntry.function he
  refine ⟨⟨W ++ [t], hW.trans ({ hwalks with frames := rfl, endUsed := rfl }),
    hrecords.push hground.innermost hdepth ht hindex hopener, ?_⟩, ?_, ?_, ?_, ?_, ?_⟩
  · rw [Depth.past_append, hdepth]
    exact depthInside_function hground.brackets ht hindex _
  · intro e he g hg
    rcases hentries e he with he | hnone
    · exact h.closed e he g hg
    · rw [hnone] at hg
      cases hg
  · intro hdepth₀ hused e he
    exact (hentries e he).elim (h.unused hdepth₀ (hwalks.endUsed ▸ hused) e) id
  · exact List.forall_mem_cons.2 ⟨hmethod, h.inMethod⟩
  · exact fun hmethods => hwalks.endUsed.trans (h.kept hmethods)
  · rw [List.map_cons, List.cons_append, ← h.frames, ← hwalks.frames]

theorem openFunction (h : Reading d s₀ run opens st) (hground : Ground d s₀)
    (hwalks : st.Walks [t] mid) (ht : t.isWord "function" = true)
    (hopen : Parse.openFunction run (opens.head?.map (·.index)) t mid = .ok (f, run') st') :
    Reading d s₀ run' (f :: opens) st' := by
  obtain ⟨passed, hpassed, hlevel, hindex, hopener, -, hmethod, rfl⟩ :=
    openFunction_walks (hwalks.indexDepth.trans (h.indexDepth hground)) hopen
  rw [hwalks.methodDepth.trans h.methodDepth] at hmethod
  exact (h.begin hground hwalks ht hindex hopener hmethod).level hground hpassed hlevel

theorem closeWithEnd (h : Reading d s₀ run (f :: opens) st) (hground : Ground d s₀)
    (hclose : Parse.closeWithEnd f run st = .ok run' st') : Reading d s₀ run' opens st' := by
  obtain ⟨e, s₁, s₂, heat, hend, rfl, rfl⟩ := closeWithEnd_ok hclose
  obtain ⟨_, heat, ⟨rfl, hword, -⟩, -⟩ := tracks_eatWord (n := 0) "end" heat
  obtain ⟨seps, hend, hseps, -⟩ := tracks_endStatement (n := 0) hend
  have hpopped : State.Walks { useEnd f s₁ with frames := s₂.frames.tail } seps
      { s₂ with frames := s₂.frames.tail } := { hend with frames := rfl }
  refine Reading.level ?_ hground hpopped (level_separators hseps)
  obtain ⟨W, hW, hrecords, hdepth⟩ := h.passed
  have hmethod := h.inMethod f List.mem_cons_self
  have hs₁ : { useEnd f s₁ with frames := s₀.frames, endUsed := s₀.endUsed } =
      { s₁ with frames := s₀.frames, endUsed := s₀.endUsed } := by
    rw [useEnd]
    split <;> rfl
  refine ⟨⟨W ++ [e], ?_, (hrecords.fill true).quiet ?_, ?_⟩, ?_, ?_,
    fun g hg => h.inMethod g (List.mem_cons_of_mem _ hg), ?_, ?_⟩
  · change s₀.Walks (W ++ [e]) { useEnd f s₁ with frames := s₀.frames, endUsed := s₀.endUsed }
    rw [hs₁]
    exact hW.trans { heat with frames := rfl, endUsed := rfl }
  · intro t ht
    rw [List.mem_singleton.1 ht, Token.isWord, (Shuts.isWord_iff.1 (hword e rfl)).2]
    exact Bool.and_false _
  · rw [Depth.past_append, hdepth]
    exact depthInside_end hground.brackets (hword e rfl) _
  · exact FunctionRun.Every.fill h.closed ⟨rfl, rfl⟩ f.index
  · intro hmethods hused
    rw [hmethods] at hmethod
    rw [useEnd, hmethod] at hused
    cases hused
  · intro hmethods
    change (useEnd f s₁).endUsed = s₀.endUsed
    rw [useEnd, hmethod, if_pos (decide_eq_true hmethods)]
    exact heat.endUsed.trans (h.kept hmethods)
  · have hused : (useEnd f s₁).frames = s₁.frames := by
      rw [useEnd]
      split <;> rfl
    change s₂.frames.tail = _
    rw [hend.frames, hused, heat.frames, h.frames]
    rfl

theorem closeAtEndOfFile (h : Reading d s₀ run (f :: opens) st) (hempty : st.ahead = [])
    (hclose : Parse.closeAtEndOfFile (f :: opens) run st = .ok run' st') :
    s₀.methodDepth = 0 ∧ ReadThrough d s₀ run' false st' := by
  obtain ⟨rfl, hall, rfl⟩ := closeAtEndOfFile_ok hclose
  obtain ⟨W, hW, hrecords, -⟩ := h.passed
  obtain ⟨hf, hused⟩ := hall f List.mem_cons_self
  have hmethods : s₀.methodDepth = 0 := by
    rw [h.inMethod f List.mem_cons_self, decide_eq_false_iff_not] at hf
    omega
  refine ⟨hmethods, hempty, ?_, ?_⟩
  · have hahead : s₀.ahead = W ++ st'.ahead := hW.ahead
    rw [hahead, hempty, List.append_nil]
    exact hrecords.fillAll false
  · have hnone := h.unused hmethods hused
    have hstart : run.Uniform false := by
      intro e he g hg
      rw [hnone e he] at hg
      cases hg
    exact FunctionRun.Every.fill_all hstart fun _ _ => ⟨rfl, rfl⟩

theorem functionRound (hground : Ground d s₀) :
    Keeps Parse.functionRound
      (fun soFar st => Reading d s₀ soFar.run (soFar.current :: soFar.enclosing) st)
      (fun run st => Reading d s₀ run [] st ∨
        s₀.methodDepth = 0 ∧ ReadThrough d s₀ run false st) := by
  rintro ⟨current, enclosing, run⟩ st r st' h hround
  obtain ⟨stmts, mid, hstmts, hcases⟩ := functionRound_ok hround
  obtain ⟨_, hwalks, hlevel, -⟩ := tracks_statements (n := 0) (h.indexDepth hground) hstmts
  have hbody := (h.level hground hwalks hlevel).body (current.body ++ stmts)
  rcases hcases with ⟨opener, m₁, inner, run', heat, hopen, rfl⟩ | ⟨hempty, run', hclose, rfl⟩ |
    ⟨run', hword, hclose, rfl⟩
  · obtain ⟨_, heat, ⟨rfl, hopener, -⟩, -⟩ := tracks_eatWord (n := 0) "function" heat
    exact hbody.openFunction hground heat (hopener opener rfl) hopen
  · exact .inr (hbody.closeAtEndOfFile hempty hclose)
  · have hclosed := hbody.closeWithEnd hground hclose
    cases enclosing with
    | nil => exact .inl hclosed
    | cons parent enclosing => exact hclosed

theorem function (h : Reading d s₀ run [] st) (hground : Ground d s₀) (hwalks : st.Walks [t] mid)
    (ht : t.isWord "function" = true) (hrun : Parse.function run t mid = .ok run' st') :
    Reading d s₀ run' [] st' ∨ s₀.methodDepth = 0 ∧ ReadThrough d s₀ run' false st' := by
  obtain ⟨first, run₁, s₁, s₂, hopen, hrounds, rfl⟩ := function_ok hrun
  have hfirst := h.openFunction hground hwalks ht hopen
  rcases (functionRound hground).rounds hfirst hrounds with hread | ⟨hmethods, hend⟩
  · left
    have hframes : s₂.frames.drop (s₂.frames.length - mid.frames.length) = s₂.frames := by
      rw [hwalks.frames, h.frames, hread.frames, Nat.sub_self, List.drop_zero]
    rw [hframes]
    exact hread
  · exact .inr ⟨hmethods, hend.ahead, hend.records, hend.filled⟩

theorem localRound (hground : Ground d s₀) :
    Keeps Parse.localRound
      (fun run st => Reading d s₀ run [] st ∨ ReadThrough d s₀ run false st)
      (fun run st => ∃ terminated, ReadThrough d s₀ run terminated st) := by
  intro run st r st' h hround
  obtain ⟨mid, hskip, hcases⟩ := localRound_ok hround
  obtain ⟨seps, hskip, ⟨hseps, -⟩, -⟩ := tracks_skipSeparators (n := 0) hskip
  have hmid : Reading d s₀ run [] mid ∨ ReadThrough d s₀ run false mid := by
    refine h.imp (fun h => h.level hground hskip (level_separators hseps)) fun h => ?_
    have hahead := hskip.ahead
    rw [h.ahead] at hahead
    exact { h with ahead := (List.append_eq_nil_iff.1 hahead.symm).2 }
  rcases hcases with ⟨opener, m₁, run', heat, hrun, rfl⟩ | ⟨hempty, rfl, rfl⟩
  · obtain ⟨_, heat, ⟨rfl, hword, -⟩, -⟩ := tracks_eatWord (n := 0) "function" heat
    rcases hmid with hmid | hmid
    · exact (hmid.function hground heat (hword opener rfl) hrun).imp_right (·.2)
    · exact nomatch hmid.ahead.symm.trans heat.ahead
  · rcases hmid with hmid | hmid
    · obtain ⟨W, hW, hrecords, -⟩ := hmid.passed
      have hahead : s₀.ahead = W ++ st'.ahead := hW.ahead
      rw [hempty, List.append_nil] at hahead
      exact ⟨true, hempty, hahead ▸ hrecords, hmid.closed⟩
    · exact ⟨false, hmid⟩

end Reading

/-! ## What a run becomes -/

section Resolve

variable {d : Depth} {run : FunctionRun} {terminated : Bool} {W : List Token}

theorem mem_filled {f : FunctionDef} :
    f ∈ run.filled ↔ ∃ e ∈ run.entries, e.function = some f :=
  List.mem_filterMap

theorem resolve_nest (h : run.Uniform true) (hfilled : FunctionRun.Filled run.entries) :
    run.resolve = run.nest := by
  rw [FunctionRun.resolve]
  split
  · rfl
  · rename_i hnone
    cases hentries : run.entries with
    | nil =>
      rw [FunctionRun.nest_eq, FunctionRun.filled, hentries]
      rfl
    | cons e es =>
      have he : e ∈ run.entries := hentries ▸ List.mem_cons_self
      obtain ⟨f, hf⟩ := Option.isSome_iff_exists.1 (hfilled e he)
      exact absurd (List.any_eq_true.2 ⟨f, mem_filled.2 ⟨e, he, hf⟩, (h e he f hf).1⟩) hnone

theorem resolve_filled (h : run.Uniform false) : run.resolve = run.filled := by
  rw [FunctionRun.resolve, if_neg]
  rw [List.any_eq_true]
  rintro ⟨f, hf, hterminated⟩
  obtain ⟨e, he, hfunction⟩ := mem_filled.1 hf
  rw [(h e he f hfunction).1] at hterminated
  cases hterminated

theorem Records.terminated_resolve (h : Records d run [] W) (hrun : run.Uniform terminated)
    (base : Nat) : ∀ f ∈ listFunctions none base run.resolve, f.terminated = terminated := by
  intro f hf
  cases terminated with
  | true =>
    rw [resolve_nest hrun h.pending.filled, FunctionRun.listFunctions_nest h.pending.stack
      h.pending.filled hrun.flat] at hf
    obtain ⟨e, he, hlisted⟩ := List.mem_filterMap.1 hf
    obtain ⟨g, hg, rfl⟩ := Option.map_eq_some_iff.1 hlisted
    exact (hrun e he g hg).1
  | false =>
    have hflat : ∀ g ∈ run.filled, g.terminated = false ∧ g.nested = [] := by
      intro g hg
      obtain ⟨e, he, hfunction⟩ := mem_filled.1 hg
      exact hrun e he g hfunction
    rw [resolve_filled hrun, listFunctions_siblings _ _ fun g hg => (hflat g hg).2] at hf
    obtain ⟨g, hg, rfl⟩ := List.mem_map.1 hf
    exact (hflat g hg).1

theorem Records.listing_resolve (h : Records d run [] W) (hrun : run.Uniform true) :
    (listFunctions none d.functions run.resolve).map (fun f => (f.location, f.parent)) =
      (functionWords d W).map fun w => (w.location, w.parent) := by
  rw [resolve_nest hrun h.pending.filled, FunctionRun.listFunctions_nest h.pending.stack
    h.pending.filled hrun.flat]
  exact h.listed

theorem Records.siblings_resolve (h : Records d run [] W) (hrun : run.Uniform false) :
    (∀ f ∈ run.resolve, f.nested = []) ∧
      run.resolve.map (·.site.location) = (functionWords d W).map (·.location) := by
  rw [resolve_filled hrun]
  constructor
  · intro f hf
    obtain ⟨e, he, hfunction⟩ := mem_filled.1 hf
    exact (hrun e he f hfunction).2
  · have hlisted := congrArg (List.map Prod.fst) h.listed
    simpa only [List.map_map, List.map_filterMap, Function.comp_def, FunctionRun.RunEntry.listed?,
      Option.map_map, FunctionRun.filled] using hlisted

theorem Records.count_resolve (h : Records d run [] W) (hrun : run.Uniform terminated) :
    countFunctions run.resolve = run.size := by
  rw [← h.length, ← length_listFunctions none d.functions]
  cases terminated with
  | true =>
    have hlength := congrArg List.length (h.listing_resolve hrun)
    rwa [List.length_map, List.length_map] at hlength
  | false =>
    obtain ⟨hflat, hlocations⟩ := h.siblings_resolve hrun
    have hlength := congrArg List.length hlocations
    rw [List.length_map, List.length_map] at hlength
    rw [listFunctions_siblings _ _ hflat, List.length_map, hlength]

theorem Records.uniform (h : Records d run [] W) (hrun : run.Uniform terminated)
    {terminated' : Bool}
    (hall : ∀ f ∈ listFunctions none 0 run.resolve, f.terminated = terminated') :
    run.Uniform terminated' := by
  by_cases hsame : terminated = terminated'
  · exact hsame ▸ hrun
  · have hnone : listFunctions none 0 run.resolve = [] := by
      refine List.eq_nil_iff_forall_not_mem.2 fun f hf => hsame ?_
      rw [← h.terminated_resolve hrun 0 f hf, hall f hf]
    have hsize := h.count_resolve hrun
    rw [← length_listFunctions none 0, hnone] at hsize
    intro e he
    rw [List.length_eq_zero_iff.1 hsize.symm] at he
    exact absurd he List.not_mem_nil

end Resolve

theorem localFunctions_ok {d : Depth} {s₀ st' : State} {fs : List FunctionDef}
    (hground : Ground d s₀) (h : localFunctions s₀ = .ok fs st') :
    ∃ run terminated, fs = run.resolve ∧ ReadThrough d s₀ run terminated st' := by
  obtain ⟨run, last, hrounds, h⟩ := bind_ok h
  obtain ⟨rfl, rfl⟩ := pure_ok h
  obtain ⟨terminated, hread⟩ := (Reading.localRound hground).rounds (.inl (.start d s₀)) hrounds
  exact ⟨run, terminated, rfl, hread⟩

end Parse

end MFile.Grammar
