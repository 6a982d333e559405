import Mathlib.Data.List.Forall2
import Mathlib.Data.List.Perm.Basic
import MFile.Proofs.Grammar.Functions.Forest

/-!
Nesting a run rebuilds the forest that its parents describe, whatever they are, as long as a parent
comes before its functions. From any function on, what has been nested are the functions from there
whose parents come earlier, in their order, each with all of its own inside.
-/

namespace MFile.Grammar

def alone (f : FunctionDef) : FunctionDef := { f with nested := [] }

theorem alone_nesting {f : FunctionDef} (h : f.nested = []) (inner : List FunctionDef) :
    alone { f with nested := inner } = f := by
  cases f
  cases h
  rfl

/-- Where the functions of a run stand: the number of one, and those that are directly in it. -/
inductive Nesting
  | node (number : Nat) (inner : List Nesting)

namespace Nesting

def number : Nesting → Nat
  | node number _ => number

def inner : Nesting → List Nesting
  | node _ inner => inner

mutual

def all : Nesting → List Nesting
  | node number inner => node number inner :: allOf inner

def allOf : List Nesting → List Nesting
  | [] => []
  | t :: ts => all t ++ allOf ts

end

theorem allOf_eq_flatMap (ts : List Nesting) : allOf ts = ts.flatMap all := by
  induction ts with
  | nil => rfl
  | cons t ts ih => rw [allOf, ih, List.flatMap_cons]

/-- A function is the recorded one but for the functions in it, which stand as they are told to. -/
inductive Holds (recorded : Nat → Option FunctionDef) : Nesting → FunctionDef → Prop
  | node {number : Nat} {inner : List Nesting} {f : FunctionDef}
      (hrecorded : recorded number = some (alone f))
      (hinner : List.Forall₂ (Holds recorded) inner f.nested) :
      Holds recorded (.node number inner) f

end Nesting

namespace FunctionRun

open Nesting

variable {run : FunctionRun}

def recorded (run : FunctionRun) (number : Nat) : Option FunctionDef :=
  run.entries[number]?.bind (·.function)

def parent (run : FunctionRun) (number : Nat) : Option Nat :=
  run.entries[number]?.bind (·.parent)

/-- The functions that are recorded with this parent, or without any. -/
def inside (run : FunctionRun) (parent : Option Nat) : List Nat :=
  (List.range run.size).filter fun number => run.parent number == parent

theorem inside_increases (run : FunctionRun) (parent : Option Nat) :
    (run.inside parent).Pairwise (· < ·) :=
  List.pairwise_lt_range.filter _

/-- All functions of a run are read, none has been given its nested ones, and parents come first. -/
structure Recorded (run : FunctionRun) : Prop where
  filled : Filled run.entries
  flat : ∀ e ∈ run.entries, ∀ f ∈ e.function, f.nested = []
  before : ∀ number < run.size, ∀ p ∈ run.parent number, p < number

theorem Recorded.parent_lt (h : run.Recorded) {number p : Nat} (hp : run.parent number = some p) :
    p < number := by
  apply h.before number _ p hp
  by_contra hsize
  rw [parent, List.getElem?_eq_none (Nat.le_of_not_lt hsize)] at hp
  cases hp

/-- What the functions from `number` on have been nested to: the forest of those whose parents come
before that. -/
structure NestedFrom (run : FunctionRun) (number count : Nat) (forest : List Nesting)
    (functions : List (Option Nat × FunctionDef)) : Prop where
  holds : List.Forall₂ (fun t r => run.parent t.number = r.1 ∧ Holds run.recorded t r.2) forest
    functions
  roots : forest.map Nesting.number =
    (List.range' number count).filter fun n => (run.parent n).all (· < number)
  once : ((allOf forest).map Nesting.number).Perm (List.range' number count)
  inner : ∀ t ∈ allOf forest, t.inner.map Nesting.number = run.inside (some t.number)

section Step

variable {number count : Nat} {forest : List Nesting} {functions : List (Option Nat × FunctionDef)}
  {f : FunctionDef}

theorem inside_eq_later (h : run.Recorded) (hsize : run.size = number + 1 + count) :
    run.inside (some number) =
      (List.range' (number + 1) count).filter fun n => run.parent n == some number := by
  have hnone : (List.range' 0 (number + 1)).filter (fun n => run.parent n == some number) = [] := by
    apply List.filter_eq_nil_iff.2
    intro n hn hparent
    have hlt := h.parent_lt (eq_of_beq hparent)
    have hle := (List.mem_range'_1.1 hn).2
    omega
  rw [inside, List.range_eq_range', hsize, ← List.range'_append_1, List.filter_append, hnone,
    List.nil_append, Nat.zero_add]

def ownOf (run : FunctionRun) (number : Nat) (forest : List Nesting) : List Nesting :=
  forest.filter fun t => run.parent t.number == some number

def othersOf (run : FunctionRun) (number : Nat) (forest : List Nesting) : List Nesting :=
  forest.filter fun t => !(run.parent t.number == some number)

theorem allOf_own_others (run : FunctionRun) (number : Nat) (forest : List Nesting) :
    (allOf (run.ownOf number forest) ++ allOf (run.othersOf number forest)).Perm
      (allOf forest) := by
  simp only [allOf_eq_flatMap, ← List.flatMap_append]
  exact (List.filter_append_perm _ forest).flatMap_right all

namespace NestedFrom

theorem own (h : run.Recorded) (hsize : run.size = number + 1 + count)
    (hlater : run.NestedFrom (number + 1) count forest functions) :
    (run.ownOf number forest).map Nesting.number = run.inside (some number) := by
  have hmap : (run.ownOf number forest).map Nesting.number =
      (forest.map Nesting.number).filter fun n => run.parent n == some number := by
    rw [List.filter_map]
    rfl
  rw [hmap, hlater.roots, List.filter_filter, inside_eq_later h hsize]
  apply List.filter_congr
  intro n _
  cases hparent : run.parent n with
  | none => rfl
  | some p =>
    rw [Bool.and_eq_left_iff_imp]
    intro hp
    cases eq_of_beq hp
    simp

theorem others (hlater : run.NestedFrom (number + 1) count forest functions) :
    (run.othersOf number forest).map Nesting.number =
      (List.range' (number + 1) count).filter fun n => (run.parent n).all (· < number) := by
  have hmap : (run.othersOf number forest).map Nesting.number =
      (forest.map Nesting.number).filter fun n => !(run.parent n == some number) := by
    rw [List.filter_map]
    rfl
  rw [hmap, hlater.roots, List.filter_filter]
  apply List.filter_congr
  intro n _
  cases hparent : run.parent n with
  | none => rfl
  | some p =>
    rw [Bool.eq_iff_iff]
    simp
    omega

theorem cons (h : run.Recorded) (hsize : run.size = number + 1 + count)
    (hf : run.recorded number = some f) (hflat : f.nested = [])
    (hlater : run.NestedFrom (number + 1) count forest functions) :
    run.NestedFrom number (count + 1)
      (.node number (run.ownOf number forest) :: run.othersOf number forest)
      ((run.parent number,
          { f with nested := (functions.filter (·.1 == some number)).map (·.2) }) ::
        functions.filter (·.1 != some number)) where
  holds := by
    have hown : List.Forall₂ (fun t r => run.parent t.number = r.1 ∧ Holds run.recorded t r.2)
        (run.ownOf number forest) (functions.filter (·.1 == some number)) :=
      List.rel_filter (fun t r hr => by simp [hr.1]) hlater.holds
    have hothers : List.Forall₂ (fun t r => run.parent t.number = r.1 ∧ Holds run.recorded t r.2)
        (run.othersOf number forest) (functions.filter (·.1 != some number)) :=
      List.rel_filter (fun t r hr => by simp [hr.1]) hlater.holds
    refine .cons ⟨rfl, .node ?_ ?_⟩ hothers
    · rw [hf, alone_nesting hflat]
    · exact List.forall₂_map_right_iff.2 (hown.imp fun _ _ hr => hr.2)
  roots := by
    have hnumber : (run.parent number).all (· < number) = true := by
      rw [Option.all_eq_true]
      exact fun p hp => decide_eq_true (h.parent_lt hp)
    rw [List.map_cons, hlater.others, List.range'_succ, List.filter_cons, if_pos hnumber]
    rfl
  once := by
    have hall := ((run.allOf_own_others number forest).map Nesting.number).trans hlater.once
    rw [List.range'_succ]
    exact hall.cons number
  inner := by
    intro t ht
    obtain rfl | ht := List.mem_cons.1 ht
    · exact hlater.own h hsize
    · exact hlater.inner t ((run.allOf_own_others number forest).subset ht)

end NestedFrom

end Step

theorem exists_nestedFrom (h : run.Recorded) {number : Nat} {entries : List RunEntry}
    (hentries : run.entries.drop number = entries) :
    ∃ forest, run.NestedFrom number entries.length forest (nestFrom number entries) := by
  induction entries generalizing number with
  | nil => exact ⟨[], .nil, rfl, .nil, nofun⟩
  | cons entry entries ih =>
    have hentry : run.entries[number]? = some entry := by
      rw [← List.head?_drop, hentries, List.head?_cons]
    have hsize : run.size = number + 1 + entries.length := by
      have hlength := congrArg List.length hentries
      rw [List.length_drop, List.length_cons] at hlength
      rw [size]
      omega
    have hmem := List.mem_of_getElem? hentry
    obtain ⟨f, hf⟩ := Option.isSome_iff_exists.1 (h.filled entry hmem)
    have hdrop : run.entries.drop (number + 1) = entries := by
      rw [← List.drop_drop, hentries, List.drop_succ_cons, List.drop_zero]
    obtain ⟨forest, hlater⟩ := ih hdrop
    have hrecorded : run.recorded number = some f := by rw [recorded, hentry, Option.bind_some, hf]
    have hparent : run.parent number = entry.parent := by rw [parent, hentry, Option.bind_some]
    have hflat := h.flat entry hmem f hf
    simp only [nestFrom, hf, ← hparent, hflat, List.reverse_nil, List.append_nil]
    exact ⟨_, hlater.cons h hsize hrecorded hflat⟩

/-- Nesting a run gives back the forest that was recorded: every function once and as it was, under
the parent it was recorded with, and among its siblings in the order of the run. -/
theorem nest_rebuilds (h : run.Recorded) : ∃ forest : List Nesting,
    List.Forall₂ (Holds run.recorded) forest run.nest ∧
    ((allOf forest).map Nesting.number).Perm (List.range run.size) ∧
    forest.map Nesting.number = run.inside none ∧
    (∀ t ∈ allOf forest, t.inner.map Nesting.number = run.inside (some t.number)) ∧
    ∀ parent, (run.inside parent).Pairwise (· < ·) := by
  obtain ⟨forest, hforest⟩ := exists_nestedFrom h List.drop_zero
  rw [nest_eq]
  refine ⟨forest, ?_, ?_, ?_, hforest.inner, run.inside_increases⟩
  · exact List.forall₂_map_right_iff.2 (hforest.holds.imp fun _ _ hr => hr.2)
  · rw [List.range_eq_range']
    exact hforest.once
  · rw [hforest.roots, inside, List.range_eq_range']
    apply List.filter_congr
    intro n _
    cases run.parent n <;> simp

def fiveFunctions : FunctionRun :=
  let function (name : String) : FunctionDef :=
    let site : Site := ⟨0, { file := "f.m" }⟩
    ⟨site, ⟨site, .identifier site name, [], []⟩, [], [], [], true⟩
  ⟨[⟨none, function "a"⟩, ⟨some 0, function "b"⟩, ⟨some 1, function "c"⟩, ⟨some 0, function "d"⟩,
    ⟨none, function "e"⟩]⟩

theorem nest_rebuilds_fiveFunctions : fiveFunctions.Recorded ∧ ∃ forest : List Nesting,
    List.Forall₂ (Holds fiveFunctions.recorded) forest fiveFunctions.nest ∧
    ((allOf forest).map Nesting.number).Perm (List.range 5) ∧
    forest.map Nesting.number = [0, 4] ∧
    (∀ t ∈ allOf forest, t.inner.map Nesting.number = fiveFunctions.inside (some t.number)) ∧
    ∀ parent, (fiveFunctions.inside parent).Pairwise (· < ·) := by
  have hrecorded : fiveFunctions.Recorded := {
    filled := by simp [fiveFunctions, Filled]
    flat := by simp [fiveFunctions]
    before := by decide }
  exact ⟨hrecorded, nest_rebuilds hrecorded⟩

example : (List.range 5).map (fiveFunctions.inside ∘ some) = [[1, 3], [2], [], [], []] := by decide

end FunctionRun

end MFile.Grammar
