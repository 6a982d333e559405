import MFile.Grammar.Function
import MFile.Tree.Node
import MFile.Proofs.Grammar.Functions.Forest
import MFile.Proofs.Grammar.Lockstep.Blocks

/-!
What a round of a run of functions can do: begin a function inside of the current one, close the
current one at its `end`, or close all that are open at the end of the file. The functions that
are still open are the ones whose places in the run are empty, innermost first.
-/

namespace MFile.Grammar

namespace Begins

variable {k : Nat} {σ τ : List Nat} {ps : List (Option Nat)}

theorem lt (h : Begins k σ ps τ) (hσ : ∀ j ∈ σ, j < k) : ∀ j ∈ τ, j < k + ps.length := by
  induction h with
  | done h => exact fun j hj => hσ j (h.subset hj)
  | @next k σ σ' τ ps h _ ih =>
    intro j hj
    have hlt := ih (by
      intro i hi
      rcases List.mem_cons.1 hi with rfl | hi
      · exact Nat.lt_succ_self _
      · exact Nat.lt_succ_of_lt (hσ i (h.subset hi))) j hj
    rw [List.length_cons]
    omega

theorem nodup (h : Begins k σ ps τ) (hσ : ∀ j ∈ σ, j < k) (hnodup : σ.Nodup) : τ.Nodup := by
  induction h with
  | done h => exact h.sublist.nodup hnodup
  | @next k σ σ' τ ps h _ ih =>
    have hbelow : ∀ j ∈ σ', j < k := fun j hj => hσ j (h.subset hj)
    refine ih (fun j hj => ?_) ?_
    · rcases List.mem_cons.1 hj with rfl | hj
      · exact Nat.lt_succ_self _
      · exact Nat.lt_succ_of_lt (hbelow j hj)
    · exact List.nodup_cons.2 ⟨fun hk => Nat.lt_irrefl k (hbelow k hk), h.sublist.nodup hnodup⟩

end Begins

namespace FunctionRun

variable {run : FunctionRun} {opens : List Nat} {i j : Nat} {e : RunEntry} {f : FunctionDef}

theorem entries_fill (i j : Nat) (f : FunctionDef) :
    (run.fill i f).entries[j]? =
      if i = j then run.entries[j]?.map fun e => { e with function := some f }
      else run.entries[j]? := by
  rw [fill, List.getElem?_modify]
  split <;> simp

theorem mem_fill (h : e ∈ (run.fill i f).entries) : e ∈ run.entries ∨ e.function = some f := by
  obtain ⟨j, hj⟩ := List.getElem?_of_mem h
  rw [entries_fill] at hj
  split at hj
  · obtain ⟨e', -, rfl⟩ := Option.map_eq_some_iff.1 hj
    exact .inr rfl
  · exact .inl (List.mem_of_getElem? hj)

theorem size_fill (i : Nat) (f : FunctionDef) : (run.fill i f).size = run.size :=
  List.length_modify _ _ _

theorem parents_fill (run : FunctionRun) (i : Nat) (f : FunctionDef) :
    (run.fill i f).entries.map (·.parent) = run.entries.map (·.parent) := by
  refine List.ext_getElem? fun j => ?_
  rw [List.getElem?_map, List.getElem?_map, entries_fill]
  split
  · cases run.entries[j]? <;> rfl
  · rfl

/-- The functions with these places are open: the innermost first, each read inside of the next,
and all others are read to their end. -/
structure Pending (run : FunctionRun) (opens : List Nat) : Prop where
  stack : Begins 0 [] (run.entries.map (·.parent)) opens
  unfilled : ∀ i e, run.entries[i]? = some e → (e.function = none ↔ i ∈ opens)

namespace Pending

theorem empty : Pending {} [] := ⟨.done (List.suffix_refl _), fun i e h => by simp at h⟩

theorem lt (h : Pending run opens) : ∀ j ∈ opens, j < run.size := by
  intro j hj
  have hlt := h.stack.lt (by simp) j hj
  rwa [Nat.zero_add, List.length_map] at hlt

theorem nodup (h : Pending run opens) : opens.Nodup := h.stack.nodup (by simp) List.nodup_nil

theorem push (h : Pending run opens) : Pending (run.push opens.head?) (run.size :: opens) := by
  constructor
  · have hstack := h.stack.concat
    rw [List.length_map, Nat.zero_add] at hstack
    rw [FunctionRun.push, List.map_append]
    exact hstack
  · intro i e he
    rw [FunctionRun.push, List.getElem?_append] at he
    split at he
    · rename_i hlt
      rw [h.unfilled i e he, List.mem_cons]
      exact (or_iff_right (Nat.ne_of_lt hlt)).symm
    · rename_i hge
      obtain ⟨hi, rfl⟩ := List.getElem?_eq_some_iff.1 he
      rw [List.length_singleton] at hi
      have hsize : i = run.size := by
        rw [FunctionRun.size]
        omega
      simp [hsize]

theorem fill (h : Pending run (i :: opens)) (f : FunctionDef) : Pending (run.fill i f) opens := by
  constructor
  · rw [parents_fill]
    exact h.stack.close (List.suffix_cons _ _)
  · intro j e he
    rw [entries_fill] at he
    have hi : i ∉ opens := (List.nodup_cons.1 h.nodup).1
    split at he
    · rename_i hij
      subst hij
      obtain ⟨e', he', rfl⟩ := Option.map_eq_some_iff.1 he
      simpa using hi
    · rename_i hij
      rw [h.unfilled j e he, List.mem_cons]
      exact or_iff_right fun hji => hij hji.symm

theorem filled (h : Pending run []) : Filled run.entries := by
  intro e he
  obtain ⟨i, hi⟩ := List.getElem?_of_mem he
  rw [Option.isSome_iff_ne_none]
  exact fun hnone => List.not_mem_nil ((h.unfilled i e hi).1 hnone)

end Pending

/-! ### What all functions of a run have in common -/

theorem mem_children_nest {f : FunctionDef} {inner : List FunctionDef} {c : Node.Child}
    (h : c ∈ (Node.function { f with nested := inner }).children) :
    c ∈ (Node.function f).children ∨ ∃ g ∈ inner, c = (.nested, .function g) := by
  rw [Node.children, ← List.cons_append] at h ⊢
  obtain hown | hinner := List.mem_append.1 h
  · exact .inl (List.mem_append_left _ hown)
  · obtain ⟨g, hg, rfl⟩ := List.mem_map.1 hinner
    exact .inr ⟨g, hg, rfl⟩

def Every (P : FunctionDef → Prop) (run : FunctionRun) : Prop :=
  ∀ e ∈ run.entries, ∀ f ∈ e.function, P f

namespace Every

variable {P Q : FunctionDef → Prop}

theorem empty : Every P {} := List.forall_mem_nil _

theorem push (h : run.Every P) (parent : Option Nat) : (run.push parent).Every P := by
  refine List.forall_mem_append.2 ⟨h, List.forall_mem_singleton.2 fun f hf => ?_⟩
  cases hf

theorem fill (h : run.Every P) (hf : P f) (i : Nat) : (run.fill i f).Every P := by
  intro e he g hg
  obtain he | he := mem_fill he
  · exact h e he g hg
  · rw [he] at hg
    cases hg
    exact hf

theorem fill_all {fs : List Parse.OpenFunction} (h : run.Every P)
    (hfs : ∀ f ∈ fs, P (f.finish false)) :
    (fs.foldl (fun run f => run.fill f.index (f.finish false)) run).Every P := by
  induction fs generalizing run with
  | nil => exact h
  | cons f fs ih =>
    obtain ⟨hf, hfs⟩ := List.forall_mem_cons.1 hfs
    exact ih (h.fill hf f.index) hfs

theorem nestFrom (hnest : ∀ f inner, P f → (∀ g ∈ inner, Q g) → Q { f with nested := inner })
    (hown : ∀ f, P f → ∀ g ∈ f.nested, Q g) (k : Nat) {es : List RunEntry}
    (h : ∀ e ∈ es, ∀ f ∈ e.function, P f) :
    ∀ r ∈ FunctionRun.nestFrom k es, Q r.2 := by
  induction es generalizing k with
  | nil => exact List.forall_mem_nil _
  | cons e es ih =>
    obtain ⟨he, hes⟩ := List.forall_mem_cons.1 h
    have hlater := ih (k + 1) hes
    rw [FunctionRun.nestFrom]
    cases hf : e.function with
    | none => exact hlater
    | some f =>
      refine List.forall_mem_cons.2 ⟨hnest f _ (he f hf) (List.forall_mem_append.2 ⟨?_, ?_⟩),
        fun r hr => hlater r (List.mem_filter.1 hr).1⟩
      · exact List.forall_mem_map.2 fun r hr => hlater r (List.mem_filter.1 hr).1
      · exact fun g hg => hown f (he f hf) g (List.mem_reverse.1 hg)

theorem resolve (h : run.Every P)
    (hnest : ∀ f inner, P f → (∀ g ∈ inner, Q g) → Q { f with nested := inner })
    (hown : ∀ f, P f → ∀ g ∈ f.nested, Q g) (hflat : ∀ f, P f → Q f) :
    ∀ f ∈ run.resolve, Q f := by
  intro f hf
  rw [FunctionRun.resolve] at hf
  split at hf
  · rw [nest_eq] at hf
    obtain ⟨r, hr, rfl⟩ := List.mem_map.1 hf
    exact nestFrom hnest hown 0 h r hr
  · obtain ⟨e, he, hfunction⟩ := List.mem_filterMap.1 hf
    exact hflat f (h e he f hfunction)

end Every

end FunctionRun

namespace Parse

variable {run run' : FunctionRun} {st st' : State}

theorem openFunction_ok {parent : Option Nat} {opener : Token} {r : OpenFunction × FunctionRun}
    (h : openFunction run parent opener st = .ok r st') : ∃ id s₁ sig s₂ validation,
      freshId st = .ok id s₁ ∧ signature opener.location s₁ = .ok sig s₂ ∧
        validationBlocks { s₂ with frames := .function :: s₂.frames } = .ok validation st' ∧
          r = (⟨opener, run.size, id, sig, validation, [], decide (0 < s₂.methodDepth)⟩,
            run.push parent) := by
  obtain ⟨id, s₁, hid, h₁⟩ := bind_ok h
  obtain ⟨sig, s₂, hsig, h₂⟩ := bind_ok h₁
  obtain ⟨_, _, hget, h₃⟩ := bind_ok h₂
  obtain ⟨_, _, hpush, h₄⟩ := bind_ok h₃
  obtain ⟨validation, s₃, hvalidation, h₅⟩ := bind_ok h₄
  cases hget
  cases hpush
  obtain ⟨rfl, rfl⟩ := pure_ok h₅
  exact ⟨id, s₁, sig, s₂, validation, hid, hsig, hvalidation, rfl⟩

theorem openFunction_walks {parent : Option Nat} {opener : Token} {f : OpenFunction}
    (hst : st.indexDepth = 0) (h : openFunction run parent opener st = .ok (f, run') st') :
    ∃ passed, State.Walks { st with frames := .function :: st.frames } passed st' ∧ Level passed ∧
      f.index = run.size ∧ f.opener = opener ∧ f.body = [] ∧
        f.inMethod = decide (0 < st.methodDepth) ∧ run' = run.push parent := by
  obtain ⟨id, s₁, sig, s₂, validation, hid, hsig, hvalidation, hf⟩ := openFunction_ok h
  cases hf
  obtain ⟨_, hid, ⟨-, rfl, -⟩, -⟩ := tracks_freshId (n := 0) hid
  obtain ⟨head, hsig, hpart, -⟩ := steady_signature (n := 0) _ _ hsig
  have hs₁ : s₁.indexDepth = 0 := hid.indexDepth.trans hst
  obtain ⟨blocks, hblocks, hlevel, -⟩ := tracks_validationBlocks (n := 0)
    (s := { s₂ with frames := .function :: s₂.frames }) (hsig.indexDepth.trans hs₁) hvalidation
  have hhead := hid.trans hsig
  refine ⟨head ++ blocks, ?_, (hpart.level hs₁).append hlevel, rfl, rfl, rfl, ?_, rfl⟩
  · have hframed : State.Walks { st with frames := .function :: st.frames } head
        { s₂ with frames := .function :: s₂.frames } :=
      { hhead with frames := congrArg (Frame.function :: ·) hhead.frames }
    exact hframed.trans hblocks
  · rw [hhead.methodDepth]

def useEnd (f : OpenFunction) (st : State) : State :=
  if f.inMethod then st else { st with endUsed := true }

theorem closeWithEnd_ok {f : OpenFunction} (h : closeWithEnd f run st = .ok run' st') :
    ∃ e s₁ s₂, eatWord "end" st = .ok (some e) s₁ ∧ endStatement (useEnd f s₁) = .ok () s₂ ∧
      st' = { s₂ with frames := s₂.frames.tail } ∧ run' = run.fill f.index (f.finish true) := by
  obtain ⟨found, s₁, heat, h₁⟩ := bind_ok h
  cases found with
  | none =>
    simp only [Option.isNone_none, if_true] at h₁
    obtain ⟨found, _, -, h₁⟩ := bind_ok h₁
    cases found with
    | none =>
      obtain ⟨_, _, h₁, -⟩ := bind_ok h₁
      exact absurd h₁ unexpected_ok
    | some t =>
      obtain ⟨_, _, h₁, -⟩ := bind_ok h₁
      exact absurd h₁ fail_ok
  | some e =>
    simp only [Option.isNone_some, Bool.false_eq_true, if_false] at h₁
    have hrest : ∀ {s : State}, (do
        endStatement
        popFrame
        return run.fill f.index (f.finish true) : Parse FunctionRun) s = .ok run' st' →
        ∃ s₂, endStatement s = .ok () s₂ ∧ st' = { s₂ with frames := s₂.frames.tail } ∧
          run' = run.fill f.index (f.finish true) := by
      intro s h
      obtain ⟨_, s₂, hend, h⟩ := bind_ok h
      obtain ⟨_, _, hpop, h⟩ := bind_ok h
      cases hpop
      obtain ⟨rfl, rfl⟩ := pure_ok h
      exact ⟨s₂, hend, rfl, rfl⟩
    split at h₁
    · rename_i hmethod
      obtain ⟨s₂, hend, hst, hrun⟩ := hrest h₁
      exact ⟨e, s₁, s₂, heat, by rwa [useEnd, if_pos hmethod], hst, hrun⟩
    · rename_i hmethod
      obtain ⟨_, _, hused, h₂⟩ := bind_ok h₁
      cases hused
      obtain ⟨s₂, hend, hst, hrun⟩ := hrest h₂
      exact ⟨e, s₁, s₂, heat, by rwa [useEnd, if_neg hmethod], hst, hrun⟩

theorem closeAtEndOfFile_ok {fs : List OpenFunction}
    (h : closeAtEndOfFile fs run st = .ok run' st') :
    st' = st ∧ (∀ f ∈ fs, f.inMethod = false ∧ st.endUsed = false) ∧
      run' = fs.foldl (fun run f => run.fill f.index (f.finish false)) run := by
  obtain ⟨_, _, hget, h₁⟩ := bind_ok h
  cases hget
  dsimp only at h₁
  cases hfind : fs.find? fun f => f.inMethod || st.endUsed with
  | some f =>
    rw [hfind] at h₁
    exact absurd h₁ fail_ok
  | none =>
    rw [hfind] at h₁
    obtain ⟨rfl, rfl⟩ := pure_ok h₁
    refine ⟨rfl, fun f hf => ?_, rfl⟩
    simpa using List.find?_eq_none.1 hfind f hf

theorem functionRound_ok {soFar : RunSoFar} {r : Round RunSoFar FunctionRun}
    (h : functionRound soFar st = .ok r st') : ∃ body mid,
      statements st = .ok body mid ∧
        ((∃ opener m₁ inner run,
          eatWord "function" mid = .ok (some opener) m₁ ∧
          openFunction soFar.run (some soFar.current.index) opener m₁ = .ok (inner, run) st' ∧
          r = .again ⟨inner, { soFar.current with body := soFar.current.body ++ body } ::
            soFar.enclosing, run⟩) ∨
        (mid.ahead = [] ∧ ∃ run, closeAtEndOfFile ({ soFar.current with
            body := soFar.current.body ++ body } :: soFar.enclosing) soFar.run mid = .ok run st' ∧
          r = .done run) ∨
        ∃ run, (∀ t ∈ mid.ahead.head?, t.isWord "function" = false) ∧
          closeWithEnd { soFar.current with body := soFar.current.body ++ body } soFar.run mid =
            .ok run st' ∧
          r = match soFar.enclosing with
            | [] => .done run
            | parent :: enclosing => .again ⟨parent, enclosing, run⟩) := by
  obtain ⟨body, mid, hbody, h₁⟩ := bind_ok h
  refine ⟨body, mid, hbody, ?_⟩
  obtain ⟨found, m₁, heat, h₂⟩ := bind_ok h₁
  cases found with
  | some opener =>
    obtain ⟨⟨inner, run⟩, s₂, hopen, h₃⟩ := bind_ok h₂
    obtain ⟨rfl, rfl⟩ := pure_ok h₃
    exact .inl ⟨opener, m₁, inner, run, heat, hopen, rfl⟩
  | none =>
    obtain ⟨rfl, hword⟩ := eatIf_none heat
    obtain ⟨done, _, hend, h₃⟩ := bind_ok h₂
    cases hend
    simp only at h₃
    split at h₃
    · rename_i hempty
      obtain ⟨run, s₂, hclose, h₄⟩ := bind_ok h₃
      obtain ⟨rfl, rfl⟩ := pure_ok h₄
      exact .inr (.inl ⟨List.isEmpty_iff.1 hempty, run, hclose, rfl⟩)
    · obtain ⟨run, s₂, hclose, h₄⟩ := bind_ok h₃
      refine .inr (.inr ⟨run, hword, ?_⟩)
      cases henclosing : soFar.enclosing with
      | nil =>
        rw [henclosing] at h₄
        obtain ⟨rfl, rfl⟩ := pure_ok h₄
        exact ⟨hclose, rfl⟩
      | cons parent enclosing =>
        rw [henclosing] at h₄
        obtain ⟨rfl, rfl⟩ := pure_ok h₄
        exact ⟨hclose, rfl⟩

theorem function_ok {opener : Token} (h : function run opener st = .ok run' st') :
    ∃ first run₁ s₁ s₂, openFunction run none opener st = .ok (first, run₁) s₁ ∧
      rounds ⟨first, [], run₁⟩ functionRound s₁ = .ok run' s₂ ∧
        st' = { s₂ with
          frames := s₂.frames.drop (s₂.frames.length - st.frames.length) } := by
  rw [function, keepingFrames, bracketed] at h
  split at h
  · rename_i run'' s₂ hrun
    cases h
    obtain ⟨⟨first, run₁⟩, s₁, hopen, hrounds⟩ := bind_ok hrun
    exact ⟨first, run₁, s₁, s₂, hopen, hrounds, rfl⟩
  · cases h

theorem localRound_ok {r : Round FunctionRun FunctionRun} (h : localRound run st = .ok r st') :
    ∃ mid, skipSeparators st = .ok () mid ∧
      ((∃ opener m₁ run', eatWord "function" mid = .ok (some opener) m₁ ∧
        function run opener m₁ = .ok run' st' ∧ r = .again run') ∨
      mid.ahead = [] ∧ st' = mid ∧ r = .done run) := by
  obtain ⟨_, mid, hskip, h₁⟩ := bind_ok h
  refine ⟨mid, hskip, ?_⟩
  obtain ⟨found, m₁, heat, h₂⟩ := bind_ok h₁
  cases found with
  | some opener =>
    obtain ⟨run', s₂, hrun, h₃⟩ := bind_ok h₂
    obtain ⟨rfl, rfl⟩ := pure_ok h₃
    exact .inl ⟨opener, m₁, run', heat, hrun, rfl⟩
  | none =>
    obtain ⟨rfl, -⟩ := eatIf_none heat
    obtain ⟨current, s₂, hcurrent, h₃⟩ := bind_ok h₂
    obtain ⟨rfl, rfl⟩ := current?_ok hcurrent
    right
    cases hhead : s₂.ahead.head? with
    | none =>
      rw [hhead] at h₃
      obtain ⟨rfl, rfl⟩ := pure_ok h₃
      exact ⟨List.head?_eq_none_iff.1 hhead, rfl, rfl⟩
    | some t =>
      rw [hhead] at h₃
      dsimp only at h₃
      split at h₃
      · exact absurd h₃ fail_ok
      · exact absurd h₃ failHere_ok

theorem function_size {opener : Token} (h : function run opener st = .ok run' st') :
    run.size < run'.size := by
  obtain ⟨first, run₁, s₁, s₂, hopen, hrounds, -⟩ := function_ok h
  obtain ⟨_, _, _, _, _, -, -, -, hpush⟩ := openFunction_ok hopen
  have hpushed : ∀ (run : FunctionRun) parent, (run.push parent).size = run.size + 1 :=
    fun run parent => List.length_append
  have hstart : run.size < run₁.size := by
    rw [(Prod.mk.inj hpush).2, hpushed]
    exact Nat.lt_succ_self _
  have hfills : ∀ (fs : List OpenFunction) (run : FunctionRun), (fs.foldl (fun run f =>
      run.fill f.index (f.finish false)) run).size = run.size := by
    intro fs
    induction fs with
    | nil => exact fun _ => rfl
    | cons f fs ih => exact fun run => (ih _).trans (FunctionRun.size_fill _ _)
  refine Keeps.rounds (I := fun soFar _ => run.size < soFar.run.size)
    (Q := fun run' _ => run.size < run'.size) ?_ hstart hrounds
  intro soFar st r st' hsize hround
  obtain ⟨_, _, -, hcases⟩ := functionRound_ok hround
  rcases hcases with ⟨_, _, _, run', -, hopen, rfl⟩ | ⟨-, run', hclose, rfl⟩ |
    ⟨run', -, hclose, rfl⟩
  · obtain ⟨_, _, _, _, _, -, -, -, hpush⟩ := openFunction_ok hopen
    refine hsize.trans ?_
    rw [(Prod.mk.inj hpush).2, hpushed]
    exact Nat.lt_succ_self _
  · obtain ⟨-, -, rfl⟩ := closeAtEndOfFile_ok hclose
    exact hsize.trans_eq (hfills _ _).symm
  · obtain ⟨_, _, _, -, -, -, rfl⟩ := closeWithEnd_ok hclose
    cases soFar.enclosing <;> exact hsize.trans_eq (FunctionRun.size_fill _ _).symm

end Parse

end MFile.Grammar
