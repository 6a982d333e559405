import MFile.Tree.Decl

/-!
The functions of a file in a list, each before the functions nested in it. They are numbered in
this order, and each is listed with the number of the function that it is nested in.
-/

namespace MFile

structure ListedFunction where
  location : Location
  parent : Option Nat
  terminated : Bool
deriving DecidableEq

mutual

/-- How many functions a function is, those nested in it included. -/
def FunctionDef.count : FunctionDef → Nat
  | ⟨_, _, _, _, nested, _⟩ => countFunctions nested + 1

def countFunctions : List FunctionDef → Nat
  | [] => 0
  | f :: fs => f.count + countFunctions fs

end

mutual

def FunctionDef.listing (parent : Option Nat) (number : Nat) : FunctionDef → List ListedFunction
  | ⟨site, _, _, _, nested, terminated⟩ =>
    ⟨site.location, parent, terminated⟩ :: listFunctions (some number) (number + 1) nested

def listFunctions (parent : Option Nat) (number : Nat) :
    List FunctionDef → List ListedFunction
  | [] => []
  | f :: fs => f.listing parent number ++ listFunctions parent (number + f.count) fs

end

mutual

theorem FunctionDef.length_listing (parent : Option Nat) (number : Nat) :
    ∀ f : FunctionDef, (f.listing parent number).length = f.count
  | ⟨_, _, _, _, nested, _⟩ => by
    rw [FunctionDef.listing, List.length_cons, length_listFunctions, FunctionDef.count]

theorem length_listFunctions (parent : Option Nat) (number : Nat) :
    ∀ fs : List FunctionDef, (listFunctions parent number fs).length = countFunctions fs
  | [] => rfl
  | f :: fs => by
    rw [listFunctions, List.length_append, f.length_listing, length_listFunctions, countFunctions]

end

theorem countFunctions_append (fs gs : List FunctionDef) :
    countFunctions (fs ++ gs) = countFunctions fs + countFunctions gs := by
  induction fs with
  | nil => exact (Nat.zero_add _).symm
  | cons f fs ih => rw [List.cons_append, countFunctions, countFunctions, ih, Nat.add_assoc]

theorem listFunctions_append (parent : Option Nat) (number : Nat) (fs gs : List FunctionDef) :
    listFunctions parent number (fs ++ gs) =
      listFunctions parent number fs ++ listFunctions parent (number + countFunctions fs) gs := by
  induction fs generalizing number with
  | nil => rfl
  | cons f fs ih =>
    rw [List.cons_append, listFunctions, listFunctions, ih, List.append_assoc, countFunctions,
      Nat.add_assoc]

theorem listFunctions_siblings (parent : Option Nat) (number : Nat) {fs : List FunctionDef}
    (h : ∀ f ∈ fs, f.nested = []) : listFunctions parent number fs =
      fs.map fun f => ⟨f.site.location, parent, f.terminated⟩ := by
  induction fs generalizing number with
  | nil => rfl
  | cons f fs ih =>
    obtain ⟨hf, hfs⟩ := List.forall_mem_cons.1 h
    obtain ⟨_, _, _, _, nested, _⟩ := f
    obtain rfl : nested = [] := hf
    rw [listFunctions, ih _ hfs]
    rfl

def BlockItem.method? : BlockItem → Option FunctionDef
  | .method f => some f
  | _ => none

def Block.methods (block : Block) : List FunctionDef := block.items.filterMap (·.method?)

def FileUnit.methods : FileUnit → List FunctionDef
  | .classFile _ definition _ => definition.blocks.flatMap (·.methods)
  | _ => []

end MFile
