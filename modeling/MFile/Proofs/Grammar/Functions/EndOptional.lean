import MFile.Grammar.File
import MFile.Proofs.Grammar.Functions.Methods
import MFile.Proofs.Token.View

/-!
Whole files. All functions outside of methods have their `end` or none has. With their `end` they
are nested as the blocks around their words say, and without it they stand side by side.
-/

namespace MFile

namespace Grammar.Parse

variable {s s' : State} {unit : FileUnit}

theorem outcome_ok {α : Type} {r : EStateM.Result ParseError State α} {a : α}
    (h : outcome r = .ok a) : ∃ st, r = .ok a st := by
  cases r with
  | ok b st =>
    cases h
    exact ⟨st, rfl⟩
  | error e st => cases h

theorem fileUnit_ok (hs : s.indexDepth = 0) (h : fileUnit s = .ok unit s') : ∃ before s₁,
    s.Walks before s₁ ∧ Brings false unit.methods before ∧
      localFunctions s₁ = .ok unit.functions s' := by
  obtain ⟨_, mid, hskip, h⟩ := bind_ok h
  obtain ⟨seps, hskip, ⟨hseps, -⟩, -⟩ := tracks_skipSeparators (n := 0) hskip
  have hlevel := level_separators hseps
  have hmid := hskip.indexDepth.trans hs
  obtain ⟨_, _, hcheck, h⟩ := bind_ok h
  obtain ⟨_, st, hcurrent, hcheck⟩ := bind_ok hcheck
  obtain ⟨rfl, rfl⟩ := pure_ok hcheck
  obtain ⟨rfl, rfl⟩ := current?_ok hcurrent
  split at h
  · obtain ⟨id, s₁, hid, h⟩ := bind_ok h
    obtain ⟨functions, last, hfunctions, h⟩ := bind_ok h
    obtain ⟨_, _, hplace, h⟩ := bind_ok h
    cases hplace
    obtain ⟨rfl, rfl⟩ := pure_ok h
    obtain ⟨_, hid, ⟨-, rfl, -⟩, -⟩ := tracks_freshId (n := 0) hid
    exact ⟨seps ++ [], s₁, hskip.trans hid, .level (hlevel.append .nil), hfunctions⟩
  · obtain ⟨found, s₁, heat, h⟩ := bind_ok h
    obtain ⟨_, heat, ⟨rfl, hword, -⟩, -⟩ := tracks_eatWord (n := 0) "classdef" heat
    cases found with
    | some t =>
      obtain ⟨id, s₂, hid, h⟩ := bind_ok h
      obtain ⟨definition, s₃, hclass, h⟩ := bind_ok h
      obtain ⟨functions, last, hfunctions, h⟩ := bind_ok h
      obtain ⟨_, _, hplace, h⟩ := bind_ok h
      cases hplace
      obtain ⟨rfl, rfl⟩ := pure_ok h
      obtain ⟨_, hid, ⟨-, rfl, -⟩, -⟩ := tracks_freshId (n := 0) hid
      have hdepth := hid.indexDepth.trans (heat.indexDepth.trans hmid)
      obtain ⟨run, hclass, hbrings, -⟩ := Tracks.inFrame (U := fun definition run _ =>
        Brings false (definition.blocks.flatMap (·.methods)) (t :: run))
        (tracks_classDef (s := { s₂ with frames := .classBody :: s₂.frames }) (hword t rfl) hdepth)
        hclass
      refine ⟨_, s₃, hskip.trans (heat.trans (hid.trans hclass)), ?_, hfunctions⟩
      exact (Brings.level hlevel).append hbrings
    | none =>
      obtain ⟨id, s₂, hid, h⟩ := bind_ok h
      obtain ⟨body, s₃, hbody, h⟩ := bind_ok h
      obtain ⟨functions, last, hfunctions, h⟩ := bind_ok h
      obtain ⟨_, _, hplace, h⟩ := bind_ok h
      cases hplace
      obtain ⟨rfl, rfl⟩ := pure_ok h
      obtain ⟨_, hid, ⟨-, rfl, -⟩, -⟩ := tracks_freshId (n := 0) hid
      obtain ⟨run, hbody, hrun, -⟩ := tracks_statements (n := 0)
        (hid.indexDepth.trans (heat.indexDepth.trans hmid)) hbody
      refine ⟨_, s₃, hskip.trans (heat.trans (hid.trans hbody)), .level ?_, hfunctions⟩
      exact hlevel.append hrun

theorem fileUnit_functions (hs : s.indexDepth = 0) (h : fileUnit s = .ok unit s') :
    ∃ before after run terminated, s.ahead = before ++ after ∧ s'.ahead = [] ∧
      Brings false unit.methods before ∧ unit.functions = run.resolve ∧
        run.Uniform terminated ∧
          Records { functions := countFunctions unit.methods } run [] after := by
  obtain ⟨before, s₁, hwalks, hbrings, hlocal⟩ := fileUnit_ok hs h
  obtain ⟨run, terminated, hresolve, hread⟩ := localFunctions_ok
    (d := { functions := countFunctions unit.methods }) ⟨rfl, rfl, hwalks.indexDepth.trans hs⟩
    hlocal
  exact ⟨before, s₁.ahead, run, terminated, hwalks.ahead, hread.ahead, hbrings, hresolve,
    hread.filled, hread.records⟩

theorem listing_append {methods : List FunctionDef} {before : List Token}
    (h : Brings false methods before) (after : List Token) :
    functionWords {} (before ++ after) =
      (listFunctions none 0 methods).map (fun f => ⟨f.location, f.parent, true⟩) ++
        functionWords { functions := countFunctions methods } after := by
  have hstart : Outer false {} := ⟨rfl, rfl, fun h => absurd h Bool.false_ne_true⟩
  rw [functionWords_append, h.words _ hstart, h.past_eq _ hstart]
  simp

end Grammar.Parse

open Grammar Parse

/-- In a file that is accepted the functions outside of `methods` blocks all have their `end`, or
none has; those inside always do. Without it they stand side by side, and with it they are nested
as their words say. -/
theorem FileUnit.ofTokens_functions {file : String} {tokens : List Token} {unit : FileUnit}
    (h : FileUnit.ofTokens file tokens = .ok unit) :
    (∃ terminated, ∀ f ∈ listFunctions none 0 unit.functions, f.terminated = terminated) ∧
    (∀ f ∈ listFunctions none 0 unit.methods, f.terminated = true) ∧
    ((∀ f ∈ listFunctions none 0 unit.functions, f.terminated = false) →
      (∀ f ∈ unit.functions, f.nested = []) ∧
      unit.functions.map (·.site.location) =
        ((functionWords {} tokens).filter (!·.inMethods)).map (·.location)) ∧
    ((∀ f ∈ listFunctions none 0 unit.functions, f.terminated = true) →
      (listFunctions none 0 (unit.methods ++ unit.functions)).map (fun f => (f.location, f.parent))
        = (functionWords {} tokens).map fun w => (w.location, w.parent)) := by
  obtain ⟨s', hparse⟩ := outcome_ok h
  obtain ⟨before, after, run, terminated, hahead, -, hbrings, hresolve, hrun, hrecords⟩ :=
    fileUnit_functions rfl hparse
  have hwords := listing_append hbrings after
  rw [← hahead, State.ofTokens, functionWords_significant] at hwords
  rw [hresolve, hwords]
  refine ⟨⟨terminated, hrecords.terminated_resolve hrun 0⟩, hbrings.terminated 0, fun hnone => ?_,
    fun hall => ?_⟩
  · obtain ⟨hflat, hlocations⟩ := hrecords.siblings_resolve (hrecords.uniform hrun hnone)
    refine ⟨hflat, hlocations.trans ?_⟩
    have hmethods : ((listFunctions none 0 unit.methods).map fun f =>
        (⟨f.location, f.parent, true⟩ : FunctionWord)).filter (!·.inMethods) = [] := by
      simp [List.filter_map, Function.comp_def]
    rw [List.filter_append, hmethods, List.nil_append, List.filter_eq_self.2]
    intro w hw
    rw [hrecords.inMethods w hw]
    rfl
  · have hlisted := hrecords.listing_resolve (hrecords.uniform hrun hall)
    rw [listFunctions_append, List.map_append, List.map_append, ← hlisted, List.map_map,
      Nat.zero_add]
    rfl

namespace FileUnit

/-- A class with a function inside of a method, and a function after it that has no `end`. -/
def nestedMethod : List Token :=
  let word (line : Nat) (raw : String) : Token :=
    { plainToken .keyword raw with location := { file := "", place := .line line } }
  let lineEnd := plainToken .newline "\n"
  let name := plainToken .identifier
  [word 1 "classdef", name "C", lineEnd, word 2 "methods", lineEnd,
    word 3 "function", name "f", lineEnd, word 4 "function", name "g", lineEnd,
    word 5 "end", lineEnd, word 6 "end", lineEnd, word 7 "end", lineEnd, word 8 "end", lineEnd,
    word 9 "function", name "h", lineEnd]

theorem ofTokens_nestedMethod : ∃ unit, FileUnit.ofTokens "" nestedMethod = .ok unit ∧
    unit.functions ≠ [] ∧ (∀ f ∈ listFunctions none 0 unit.functions, f.terminated = false) ∧
      ∃ f ∈ unit.methods ++ unit.functions, f.nested ≠ [] := by
  have hrun : ((FileUnit.ofTokens "" nestedMethod).toOption.any fun unit =>
      !unit.functions.isEmpty && (listFunctions none 0 unit.functions).all (!·.terminated) &&
        (unit.methods ++ unit.functions).any (!·.nested.isEmpty)) = true := by decide +kernel
  cases hunit : FileUnit.ofTokens "" nestedMethod with
  | ok unit =>
    rw [hunit] at hrun
    simp only [Except.toOption, Option.any_some, Bool.and_eq_true, Bool.not_eq_true',
      List.isEmpty_eq_false_iff, List.all_eq_true, List.any_eq_true] at hrun
    exact ⟨unit, rfl, hrun.1.1, hrun.1.2, hrun.2⟩
  | error e =>
    rw [hunit] at hrun
    cases hrun

theorem ofTokens_functions_nestedMethod : ∃ unit, FileUnit.ofTokens "" nestedMethod = .ok unit ∧
    (∃ terminated, ∀ f ∈ listFunctions none 0 unit.functions, f.terminated = terminated) ∧
    (∀ f ∈ listFunctions none 0 unit.methods, f.terminated = true) ∧
    ((∀ f ∈ listFunctions none 0 unit.functions, f.terminated = false) →
      (∀ f ∈ unit.functions, f.nested = []) ∧
      unit.functions.map (·.site.location) =
        ((functionWords {} nestedMethod).filter (!·.inMethods)).map (·.location)) ∧
    ((∀ f ∈ listFunctions none 0 unit.functions, f.terminated = true) →
      (listFunctions none 0 (unit.methods ++ unit.functions)).map (fun f => (f.location, f.parent))
        = (functionWords {} nestedMethod).map fun w => (w.location, w.parent)) := by
  have hrun : (FileUnit.ofTokens "" nestedMethod).toOption.isSome = true := by decide +kernel
  cases hunit : FileUnit.ofTokens "" nestedMethod with
  | ok unit => exact ⟨unit, rfl, FileUnit.ofTokens_functions hunit⟩
  | error e =>
    rw [hunit] at hrun
    cases hrun

end FileUnit

end MFile
