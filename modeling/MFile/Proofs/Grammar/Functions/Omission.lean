import MFile.Proofs.Grammar.Functions.EndOptional
import MFile.Proofs.Grammar.Functions.Siblings

/-!
The `end` of functions that are closed one by one may be left out. The rest of the tree, with its
numbers and places, stays what it is.
-/

namespace MFile

namespace FileUnit

def withFunctions (functions : List FunctionDef) : FileUnit → FileUnit
  | script site body _ => .script site body functions
  | functionFile site _ => .functionFile site functions
  | classFile site definition _ => .classFile site definition functions

end FileUnit

def FunctionDef.unterminated (f : FunctionDef) : FunctionDef := { f with terminated := false }

namespace Grammar

theorem alike_withoutEnds {d : Depth} {ts : List Token} (h : closedApart d false ts = true) :
    Alike (significant false ts) (significant false (withoutEnds d false ts)) := by
  induction ts generalizing d with
  | nil => exact .nil
  | cons t ts ih =>
    rw [withoutEnds]
    rw [closedApart] at h
    split at h
    · rename_i htrivia
      rw [if_pos htrivia, significant_trivia htrivia, significant_trivia htrivia]
      exact ih h
    · rename_i htrivia
      simp only [Bool.and_eq_true, Bool.or_eq_true, Bool.not_eq_true', Bool.false_eq_true,
        or_false] at h
      obtain ⟨⟨-, hcloses⟩, hrest⟩ := h
      rw [if_neg htrivia, Bool.false_and, if_neg Bool.false_ne_true, hcloses,
        if_neg Bool.false_ne_true]
      have hkept : ∀ ts,
          significant false (t :: ts) = t :: significant (t.kind == .newline) ts := by
        intro ts
        rw [significant, if_neg htrivia]
        rfl
      rw [hkept, hkept]
      by_cases hseparator : t.isSeparator = true
      · exact .stop hseparator
      · have hkind : (t.kind == .newline) = false := by
          rw [beq_eq_false_iff_ne]
          intro hk
          rw [Token.isSeparator, hk] at hseparator
          exact hseparator rfl
        rw [Bool.not_eq_true] at hseparator
        rw [hseparator] at hrest
        rw [hkind]
        exact .cons (ih hrest)

namespace Parse

variable {s s' last : State} {functions : List FunctionDef} {unit : FileUnit}

inductive Omits : List Token → List Token → Prop
  | nil : Omits [] []
  | cons {d : Depth} {t : Token} {ts : List Token} (ht : t.isWord "function" = true)
      (h : InFunction d ts) :
      Omits (t :: significant false ts) (t :: significant false (withoutEnds d false ts))

theorem Omits.alike {w w' : List Token} (h : Omits w w') : Alike w w' := by
  cases h with
  | nil => exact .nil
  | cons ht h => exact .cons (alike_withoutEnds h.apart)

theorem omits_first {d : Depth} {run w ts : List Token} (hbrackets : d.brackets = 0)
    (hblocks : d.blocks = []) (hrun : Level run) (hview : significant false ts = run ++ w)
    (hw : ∀ t ∈ w.head?, t.isWord "function" = true) (h : closedApart d false ts = true) :
    ∃ w', significant false (withoutEnds d false ts) = run ++ w' ∧ Omits w w' := by
  rcases withoutEnds_first hbrackets hblocks hrun hview hw h with
    ⟨rfl, hview'⟩ | ⟨t, ts', d', rfl, hin, hview'⟩
  · exact ⟨[], by rw [hview', List.append_nil], .nil⟩
  · exact ⟨_, hview', .cons (hw t rfl) hin⟩

theorem localFunctions_first (h : localFunctions s = .ok functions last) :
    ∃ mid, skipSeparators s = .ok () mid ∧
      ((mid.ahead = [] ∧ functions = [] ∧ last = mid) ∨
      ∃ t m run st final fuel, eatWord "function" mid = .ok (some t) m ∧
        function {} t m = .ok run st ∧ roundsWithin localRound fuel run st = .ok final last ∧
          functions = final.resolve) := by
  rw [localFunctions_eq] at h
  obtain ⟨final, last', hrounds, h⟩ := bind_ok h
  obtain ⟨rfl, rfl⟩ := pure_ok h
  obtain ⟨fuel, hfuel⟩ := roundsWithin_of_rounds hrounds
  obtain ⟨r, st, hround, hrest⟩ := roundsWithin_again hfuel
  obtain ⟨mid, hskip, hcases⟩ := localRound_ok hround
  refine ⟨mid, hskip, ?_⟩
  rcases hcases with ⟨t, m, run, heat, hrun, rfl⟩ | ⟨hempty, rfl, rfl⟩
  · obtain ⟨⟨⟩, -⟩ | ⟨_, fuel', ⟨⟩, hrest, -⟩ := hrest
    exact .inr ⟨t, m, run, st, final, fuel', heat, hrun, hrest, rfl⟩
  · obtain ⟨⟨⟩, rfl⟩ | ⟨_, _, ⟨⟩, -⟩ := hrest
    exact .inl ⟨hempty, rfl, rfl⟩

theorem function_run {run final : FunctionRun} {t : Token} {f : OpenFunction} {run₁ : FunctionRun}
    {s₁ : State} (hopen : openFunction run none t s = .ok (f, run₁) s₁)
    (hrounds : rounds ⟨f, [], run₁⟩ functionRound s₁ = .ok final s') :
    ∃ st, function run t s = .ok final st ∧ st.ahead = s'.ahead ∧ st.file = s'.file := by
  refine ⟨{ s' with frames := s'.frames.drop (s'.frames.length - s.frames.length) }, ?_, rfl, rfl⟩
  simp only [function, keepingFrames, bracketed, id_eq, bind_run hopen, hrounds]

theorem rounds_omits {d : Depth} {ts : List Token} {t : Token} {m m' mid' st : State}
    {run final : FunctionRun} {fuel : Nat} (habreast : Abreast d ts m m')
    (hfunction : function {} t m = .ok run st)
    (hrounds : roundsWithin localRound fuel run st = .ok final last)
    (hskip : skipSeparators s' = .ok () mid') (heat : eatWord "function" mid' = .ok (some t) m') :
    ∃ final' last', rounds {} localRound s' = .ok final' last' ∧ last'.file = last.file ∧
      final'.resolve = final.resolve.map (·.unterminated) ∧
        ∀ f ∈ final.resolve, f.terminated = true ∧ f.nested = [] := by
  have hsettled : Settled [] {} {} := ⟨rfl, rfl, by simp, rfl, by simp⟩
  obtain ⟨f, s₁, y, mid₁, fs, final', hopen, -, hsteps, hdone, hempty, hfile, hclosed, hfilled⟩ :=
    rounds_siblings habreast hsettled hfunction hrounds none
  obtain ⟨last', hfunction', hempty', hfile'⟩ := function_run hopen (rounds_of_again hsteps hdone)
  rw [hempty] at hempty'
  have hround : localRound {} s' = .ok (.again final') last' :=
    (bind_run hskip _).trans ((bind_run heat _).trans ((bind_run hfunction' _).trans rfl))
  have hround' := localRound_end final' (skipSeparators_still (by simp [hempty'])) hempty'
  have hrounds' : rounds {} localRound s' = .ok final' last' :=
    (bind_run hround _).trans ((bind_run rfl _).trans ((bind_run hround' _).trans rfl))
  rw [FunctionRun.resolve_closed hclosed]
  refine ⟨final', last', hrounds', hfile'.trans hfile, ?_, fun g hg => ?_⟩
  · rw [FunctionRun.resolve, if_neg, hfilled, List.map_map]
    · rfl
    · simp [hfilled, OpenFunction.finish]
  · obtain ⟨g, -, rfl⟩ := List.mem_map.1 hg
    exact ⟨rfl, rfl⟩

theorem localFunctions_omits {seps w w' : List Token} (htwin : s.Twin s') (hplain : Plain s)
    (hmethod : s.methodDepth = 0) (hunused : s'.endUsed = false) (hahead : s.ahead = seps ++ w)
    (hseps : ∀ t ∈ seps, t.isSeparator = true) (hahead' : s'.ahead = seps ++ w')
    (homits : Omits w w') (h : localFunctions s = .ok functions last) :
    ∃ last', localFunctions s' = .ok (functions.map (·.unterminated)) last' ∧
      last'.file = last.file ∧ ∀ f ∈ functions, f.terminated = true ∧ f.nested = [] := by
  obtain ⟨mid, hskip, hcases⟩ := localFunctions_first h
  obtain ⟨run, hwalks, ⟨hrun, hstop⟩, hboth⟩ := tracks_skipSeparators (n := seps.length + 1) hskip
  have hw : ∀ t ∈ w.head?, t.isSeparator = false := by
    intro t ht
    cases homits with
    | nil => cases ht
    | cons hword _ =>
      cases ht
      rw [Token.isSeparator, (Shuts.isWord_iff.1 hword).1]
      rfl
  have hmid : mid.ahead = w := by
    cases hskip
    change s.ahead.dropWhile _ = w
    rw [hahead, List.dropWhile_append_of_pos hseps, (takeWhile_of_head hw).2]
  obtain rfl : run = seps :=
    List.append_cancel_right (hwalks.ahead.symm.trans (hahead.trans (by rw [hmid])))
  obtain ⟨mid', hskip', hmid', hwalks'⟩ :=
    hboth (Nat.lt_succ_self _) htwin hahead' (hmid ▸ homits.alike)
  have hview : mid'.ahead = w' :=
    List.append_cancel_left (hwalks'.ahead.symm.trans hahead')
  rw [localFunctions_eq]
  rcases hcases with ⟨hempty, rfl, rfl⟩ |
    ⟨t, m, run₁, st, final, fuel, heat, hfunction, hrounds, rfl⟩
  · have hempty' : mid'.ahead = [] := by
      rw [hview]
      rw [hmid] at hempty
      cases homits with
      | nil => rfl
      | cons => cases hempty
    have hrounds : rounds {} localRound s' = .ok {} mid' :=
      (bind_run (localRound_end {} hskip' hempty') _).trans rfl
    exact ⟨mid', (bind_run hrounds _).trans rfl, hmid'.file, by simp⟩
  · obtain ⟨hword, hpass⟩ := eatIf_some heat
    cases homits with
    | nil => exact (List.cons_ne_nil _ _ (hpass.ahead.symm.trans hmid)).elim
    | @cons d t' ts ht hin =>
      obtain ⟨rfl, hm⟩ := List.cons.inj (hmid.symm.trans hpass.ahead)
      have heat' : eatWord "function" mid' = .ok (some t') { mid' with
          behind := t' :: mid'.behind, ahead := significant false (withoutEnds d false ts) } :=
        (eatIf_head hview).trans (if_pos hword)
      rw [eatWord, eatIf_head hmid, if_pos hword] at heat
      cases heat
      have habreast : Abreast d ts { mid with
            behind := t' :: mid.behind, ahead := significant false ts } { mid' with
            behind := t' :: mid'.behind, ahead := significant false (withoutEnds d false ts) } :=
        ⟨hin, rfl, rfl, hmid'.eat [t'] (fun _ => hmid'.last) _ _, { hplain.walks hwalks with },
          hwalks.methodDepth.trans hmethod, hwalks'.endUsed.trans hunused⟩
      obtain ⟨final', last', hrounds', hfile, hfunctions, hplain⟩ :=
        rounds_omits habreast hfunction hrounds hskip' heat'
      refine ⟨last', (bind_run hrounds' _).trans ?_, hfile, hplain⟩
      rw [hfunctions]
      rfl

inductive UnitHead
  | functions (id : NodeId)
  | classWord (opener : Token)
  | statements (id : NodeId) (body : List Stmt)

def unitHead : Parse UnitHead := do
  skipSeparators
  if ← checkWord "function" then return .functions (← freshId)
  match ← eatWord "classdef" with
  | some opener => return .classWord opener
  | none =>
    let id ← freshId
    return .statements id (← statements)

def unitRest : UnitHead → Parse FileUnit
  | .functions id => do
    let functions ← localFunctions
    return .functionFile ⟨id, ← wholeFile⟩ functions
  | .classWord opener => do
    let id ← freshId
    let definition ← inFrame .classBody (classDef opener)
    let functions ← localFunctions
    return .classFile ⟨id, ← wholeFile⟩ definition functions
  | .statements id body => do
    let functions ← localFunctions
    return .script ⟨id, ← wholeFile⟩ body functions

theorem fileUnit_eq : fileUnit = unitHead >>= unitRest := by
  rw [fileUnit, unitHead, bind_assoc]
  refine bind_congr fun _ => ?_
  rw [bind_assoc]
  refine bind_congr fun isFunction => ?_
  rw [bind_of_ite]
  split
  · rfl
  · rw [bind_assoc]
    refine bind_congr fun found => ?_
    cases found with
    | some opener => rfl
    | none => simp only [bind_assoc, pure_bind, unitRest]

theorem tracks_unitHead {n : Nat} (hs : s.indexDepth = 0) : Tracks n unitHead unitHead s
    fun head run _ => (∀ opener, head ≠ .classWord opener) → Level run := by
  refine Tracks.bind tracks_skipSeparators fun _ seps mid hskip hseps => .checkWord ?_
  have hlevel := level_separators hseps.1
  have hmid := hskip.indexDepth.trans hs
  split
  · refine Tracks.bind tracks_freshId fun id run _ _ hid => .pure fun _ => ?_
    rw [hid.2.1]
    exact hlevel.append .nil
  · refine Tracks.bind (tracks_eatWord "classdef") fun found run st heat hfound => ?_
    cases found with
    | some t => exact .pure fun hnone => absurd rfl (hnone t)
    | none =>
      obtain ⟨rfl, -⟩ := hfound
      refine Tracks.bind tracks_freshId fun id run st' hid hnil => ?_
      obtain ⟨-, rfl, -⟩ := hnil
      refine Tracks.bind (tracks_statements
        (hid.indexDepth.trans (heat.indexDepth.trans hmid))) fun body run _ _ hrun =>
          .pure fun _ => ?_
      exact hlevel.append (by simpa using hrun)

theorem fileUnit_omits (hs : s.indexDepth = 0) (hkind : unit.kindName ≠ "ClassFile")
    (h : fileUnit s = .ok unit last) : ∃ before mid, s.Walks before mid ∧ Level before ∧
      localFunctions mid = .ok unit.functions last ∧
      ∀ ⦃s' rest⦄, s.Twin s' → s'.ahead = before ++ rest → Alike mid.ahead rest →
        ∃ mid', mid.Twin mid' ∧ s'.Walks before mid' ∧ ∀ ⦃functions last'⦄,
          localFunctions mid' = .ok functions last' → last'.file = last.file →
            fileUnit s' = .ok (unit.withFunctions functions) last' := by
  rw [fileUnit_eq] at h
  obtain ⟨head, mid, hhead, h⟩ := bind_ok h
  have hrest : (∀ opener, head ≠ .classWord opener) ∧
      localFunctions mid = .ok unit.functions last ∧ ∀ ⦃mid' functions last'⦄,
        localFunctions mid' = .ok functions last' → last'.file = last.file →
          unitRest head mid' = .ok (unit.withFunctions functions) last' := by
    cases head with
    | classWord opener =>
      obtain ⟨id, _, _, h⟩ := bind_ok h
      obtain ⟨definition, _, _, h⟩ := bind_ok h
      obtain ⟨functions, _, _, h⟩ := bind_ok h
      obtain ⟨_, _, _, h⟩ := bind_ok h
      obtain ⟨rfl, -⟩ := pure_ok h
      exact absurd rfl hkind
    | functions id =>
      obtain ⟨functions, _, hfunctions, h⟩ := bind_ok h
      obtain ⟨_, _, hplace, h⟩ := bind_ok h
      cases hplace
      obtain ⟨rfl, rfl⟩ := pure_ok h
      refine ⟨by simp, hfunctions, fun mid' functions' last' hmid' hfile => ?_⟩
      rw [unitRest, bind_run hmid', FileUnit.withFunctions, ← hfile]
      rfl
    | statements id body =>
      obtain ⟨functions, _, hfunctions, h⟩ := bind_ok h
      obtain ⟨_, _, hplace, h⟩ := bind_ok h
      cases hplace
      obtain ⟨rfl, rfl⟩ := pure_ok h
      refine ⟨by simp, hfunctions, fun mid' functions' last' hmid' hfile => ?_⟩
      rw [unitRest, bind_run hmid', FileUnit.withFunctions, ← hfile]
      rfl
  obtain ⟨hplain, hfunctions, hnext⟩ := hrest
  obtain ⟨before, hwalks, hlevel, -⟩ := tracks_unitHead (n := 0) hs hhead
  refine ⟨before, mid, hwalks, hlevel hplain, hfunctions, fun s' rest hs' hahead halike => ?_⟩
  obtain ⟨run, hwalks', -, htwin⟩ := tracks_unitHead (n := before.length + 1) hs hhead
  obtain rfl := hwalks.unique hwalks'.toPasses
  obtain ⟨mid', hhead', hmid', hwalk⟩ := htwin (Nat.lt_succ_self _) hs' hahead halike
  refine ⟨mid', hmid', hwalk, fun functions last' hfunctions' hfile => ?_⟩
  rw [fileUnit_eq]
  exact (bind_run hhead' _).trans (hnext hfunctions' hfile)

end Parse

end Grammar

open Grammar Parse

/-- In a file whose functions are closed one by one, and not inside of each other, the `end` of
each may be left out. The tree is the same then, but for the mark that they have one. -/
theorem FileUnit.ofTokens_withoutEnds {file : String} {tokens : List Token} {unit : FileUnit}
    (h : FileUnit.ofTokens file tokens = .ok unit) (hkind : unit.kindName ≠ "ClassFile")
    (hclosed : closedApart {} false tokens = true) :
    (∀ f ∈ unit.functions, f.terminated = true ∧ f.nested = []) ∧
    FileUnit.ofTokens file (withoutEnds {} false tokens) =
      .ok (unit.withFunctions (unit.functions.map (·.unterminated))) := by
  obtain ⟨last, hparse⟩ := outcome_ok h
  obtain ⟨before, mid, hwalks, hlevel, hfunctions, hboth⟩ := fileUnit_omits rfl hkind hparse
  obtain ⟨st, hskip, hcases⟩ := localFunctions_first hfunctions
  obtain ⟨seps, hseps, ⟨hseps', -⟩, -⟩ := tracks_skipSeparators (n := 0) hskip
  have hword : ∀ t ∈ st.ahead.head?, t.isWord "function" = true := by
    rcases hcases with ⟨hempty, -⟩ | ⟨t, m, _, _, _, _, heat, -⟩
    · simp [hempty]
    · obtain ⟨hword, hpass⟩ := eatIf_some heat
      rw [hpass.ahead]
      rintro _ ⟨⟩
      exact hword
  have hview : significant false tokens = (before ++ seps) ++ st.ahead := by
    have hahead : significant false tokens = before ++ mid.ahead := hwalks.ahead
    rw [hahead, hseps.ahead, List.append_assoc]
  obtain ⟨w', hview', homits⟩ := omits_first rfl rfl (hlevel.append (level_separators hseps')) hview
    hword hclosed
  have hstart : (State.ofTokens file tokens).Twin
      (State.ofTokens file (withoutEnds {} false tokens)) := ⟨⟨rfl, rfl, rfl, rfl, rfl, rfl⟩, rfl⟩
  rw [List.append_assoc] at hview'
  obtain ⟨mid', hmid', hwalks', hunit⟩ := hboth hstart hview'
    (by rw [hseps.ahead]; exact homits.alike.append seps)
  have hahead' : mid'.ahead = seps ++ w' :=
    List.append_cancel_left (hwalks'.ahead.symm.trans hview')
  obtain ⟨last', hfunctions', hfile, hplain⟩ := localFunctions_omits hmid'
    ⟨hwalks.indexDepth, by rw [hwalks.frames]; rfl⟩ hwalks.methodDepth hwalks'.endUsed hseps.ahead
    hseps' hahead' homits hfunctions
  refine ⟨hplain, ?_⟩
  rw [FileUnit.ofTokens, hunit hfunctions' hfile]
  rfl

namespace FileUnit

/-- A script with two functions, each with its `end`. -/
def closedFunctions : List Token :=
  let word (line : Nat) (raw : String) : Token :=
    { plainToken .keyword raw with location := { file := "", place := .line line } }
  let lineEnd := plainToken .newline "\n"
  let name := plainToken .identifier
  [name "x", lineEnd, word 2 "function", name "f", lineEnd, name "y", plainToken .semicolon ";",
    word 3 "end", plainToken .semicolon ";", plainToken .comment "% then g", lineEnd,
    word 4 "function", name "g", lineEnd, word 5 "if", name "z", lineEnd, word 5 "end", lineEnd,
    word 6 "end"]

theorem ofTokens_withoutEnds_closedFunctions : ∃ unit,
    FileUnit.ofTokens "" closedFunctions = .ok unit ∧ unit.kindName ≠ "ClassFile" ∧
    closedApart {} false closedFunctions = true ∧ unit.functions.length = 2 ∧
    (∀ f ∈ unit.functions, f.terminated = true ∧ f.nested = []) ∧
    FileUnit.ofTokens "" (withoutEnds {} false closedFunctions) =
      .ok (unit.withFunctions (unit.functions.map (·.unterminated))) := by
  have hrun : ((FileUnit.ofTokens "" closedFunctions).toOption.any fun unit =>
      unit.kindName != "ClassFile" && unit.functions.length == 2) = true := by decide +kernel
  have hclosed : closedApart {} false closedFunctions = true := by decide +kernel
  cases hunit : FileUnit.ofTokens "" closedFunctions with
  | ok unit =>
    rw [hunit] at hrun
    simp only [Except.toOption, Option.any_some, Bool.and_eq_true, bne_iff_ne, beq_iff_eq] at hrun
    exact ⟨unit, rfl, hrun.1, hclosed, hrun.2, FileUnit.ofTokens_withoutEnds hunit hrun.1 hclosed⟩
  | error e =>
    rw [hunit] at hrun
    cases hrun

end FileUnit

end MFile
