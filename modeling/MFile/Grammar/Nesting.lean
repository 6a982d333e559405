import MFile.Tree.Decl

/-!
Functions whose `end` may be missing. Without an `end`, each `function` keyword starts a sibling
rather than a nested function, which is only known once the whole file is read. Until then every
function is listed with the one that it was read inside of; then the list becomes the functions of
the file: siblings if no function was closed by `end`, and otherwise nested as read.
-/

namespace MFile.Grammar

structure RunEntry where
  parent : Option Nat
  function : Option FunctionDef

structure FunctionRun where
  entries : List RunEntry := []

namespace FunctionRun

def size (run : FunctionRun) : Nat := run.entries.length

def push (run : FunctionRun) (parent : Option Nat) : FunctionRun :=
  ⟨run.entries ++ [⟨parent, none⟩]⟩

def fill (run : FunctionRun) (index : Nat) (function : FunctionDef) : FunctionRun :=
  ⟨run.entries.modify index fun entry => { entry with function := some function }⟩

def filled (run : FunctionRun) : List FunctionDef := run.entries.filterMap (·.function)

/-- The pass that nests a run: the functions that still wait in their places, each with those that
have come to it so far, and the functions that are in no other. Both lists grow at their ends. -/
structure Slots where
  waiting : List (Option FunctionDef)
  roots : List FunctionDef := []

namespace Slots

def comeTo (slots : Slots) (parent : Option Nat) (function : FunctionDef) : Slots :=
  match parent.bind fun p => slots.waiting[p]?.join.map (p, ·) with
  | some (p, outer) =>
    let outer := { outer with nested := outer.nested ++ [function] }
    { slots with waiting := slots.waiting.set p (some outer) }
  | none => { slots with roots := slots.roots ++ [function] }

/-- The function at `index` leaves its place. What came to it came last first. -/
def settle (parents : List (Option Nat)) (index : Nat) (slots : Slots) : Slots :=
  match slots.waiting[index]?.join with
  | none => slots
  | some function =>
    let left : Slots := { slots with waiting := slots.waiting.set index none }
    left.comeTo (parents[index]?.join.filter (· < index))
      { function with nested := function.nested.reverse }

/-- A function comes before those inside of it, so from the back each is complete when it leaves. -/
def settleBelow (parents : List (Option Nat)) : Nat → Slots → Slots
  | 0, slots => slots
  | index + 1, slots => settleBelow parents index (slots.settle parents index)

end Slots

def nest (run : FunctionRun) : List FunctionDef :=
  let slots : Slots := { waiting := run.entries.map (·.function) }
  (slots.settleBelow (run.entries.map (·.parent)) run.size).roots.reverse

def resolve (run : FunctionRun) : List FunctionDef :=
  if run.filled.any (·.terminated) then run.nest else run.filled

end FunctionRun

end MFile.Grammar
