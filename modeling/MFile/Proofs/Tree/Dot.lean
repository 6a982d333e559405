import Mathlib.Algebra.BigOperators.Group.List.Basic
import MFile.Text.Blank
import MFile.Tree.Rendering

/-!
Reading a graph in the DOT notation back. A statement is a name or an arrow between two names, with
a label in quotes; inside of the quotes a backslash takes the next character as it is, so the text
of a label ends at its own quote, whatever stands in it.
-/

namespace MFile

open Text

namespace Dot

structure Box where
  name : String
  label : String
deriving DecidableEq

structure Arrow where
  source : String
  target : String
  label : String
deriving DecidableEq

inductive Statement
  | box (b : Box)
  | arrow (a : Arrow)
deriving DecidableEq

def boxes (statements : List Statement) : List Box :=
  statements.filterMap fun s => match s with
    | .box b => some b
    | .arrow _ => none

def arrows (statements : List Statement) : List Arrow :=
  statements.filterMap fun s => match s with
    | .box _ => none
    | .arrow a => some a

/-! ## The reader -/

def isSpace (c : Char) : Bool := isBlank c || isBreak c

def skipSpace (cs : List Char) : List Char := cs.dropWhile isSpace

def marks? : List (List Char) → List Char → Option (List Char)
  | [], cs => some cs
  | mark :: marks, cs =>
    if mark.isPrefixOf (skipSpace cs) then marks? marks ((skipSpace cs).drop mark.length) else none

def name? (cs : List Char) : Option (String × List Char) :=
  let name := (skipSpace cs).takeWhile isNameChar
  if name = [] then none else some (String.ofList name, (skipSpace cs).dropWhile isNameChar)

/-- What stands in quotes, from behind the first of them, and what stands behind the second. -/
def quoted? : List Char → Option (List Char × List Char)
  | [] => none
  | '"' :: rest => some ([], rest)
  | '\\' :: c :: rest => (quoted? rest).map fun (cs, rest) => (c :: cs, rest)
  | c :: rest => (quoted? rest).map fun (cs, rest) => (c :: cs, rest)

def label? (cs : List Char) : Option (String × List Char) := do
  let inside ← marks? [['['], "label".toList, ['='], ['"']] cs
  let (label, behind) ← quoted? inside
  let rest ← marks? [[']'], [';']] behind
  return (String.ofList label, rest)

def statement? (cs : List Char) : Option (Statement × List Char) := do
  let (name, behind) ← name? cs
  match marks? [['-', '>']] behind with
  | some behind =>
    let (target, behind) ← name? behind
    let (label, rest) ← label? behind
    return (.arrow ⟨name, target, label⟩, rest)
  | none =>
    let (label, rest) ← label? behind
    return (.box ⟨name, label⟩, rest)

def statements? : Nat → List Char → Option (List Statement)
  | 0, _ => none
  | fuel + 1, cs =>
    match marks? [['}']] cs with
    | some rest => if skipSpace rest = [] then some [] else none
    | none => do
      let (s, rest) ← statement? cs
      let ss ← statements? fuel rest
      return s :: ss

def preamble : List (List Char) :=
  ["digraph".toList, "ast".toList, ['{'], "node".toList, ['['], "shape".toList, ['='], "box".toList,
    [']'], [';']]

def read? (text : String) : Option (List Statement) := do
  let cs ← marks? preamble text.toList
  statements? (text.length + 1) cs

/-! ## Quotes -/

/-- One replacement in a text: a backslash before each `c`. -/
def backslashed (c : Char) (cs : List Char) : List Char :=
  cs.flatMap fun d => if d = c then ['\\', d] else [d]

/-- The backslashes are replaced first, so a second replacement for the quotes leaves them alone. -/
theorem toList_dotEscaped (label : String) : (Visit.dotEscaped label).toList =
    backslashed '"' (backslashed '\\' label.toList) := by
  have hone : ∀ c, (if c = '\\' ∨ c = '"' then ['\\', c] else [c]) =
      backslashed '"' (if c = '\\' then ['\\', c] else [c]) := by
    intro c
    by_cases hslash : c = '\\'
    · subst hslash
      rfl
    · rw [if_neg hslash, backslashed, List.flatMap_singleton]
      simp only [hslash, false_or]
  rw [Visit.dotEscaped, String.toList_ofList]
  simp only [hone]
  rw [backslashed, backslashed, List.flatMap_assoc]
  rfl

theorem quoted?_escaped (label : String) (rest : List Char) :
    quoted? ((Visit.dotEscaped label).toList ++ '"' :: rest) = some (label.toList, rest) := by
  rw [Visit.dotEscaped, String.toList_ofList]
  induction label.toList with
  | nil => rfl
  | cons c cs ih =>
    rw [List.flatMap_cons, List.append_assoc]
    by_cases hc : c = '\\' ∨ c = '"'
    · rw [if_pos hc, List.cons_append, List.singleton_append, quoted?, ih]
      rfl
    · rw [if_neg hc, List.singleton_append]
      rw [not_or] at hc
      simp [quoted?, hc, ih]

example : quoted? ['\\', '\\', '\\', '"', '"', ']'] = some (['\\', '"'], [']']) := rfl

/-! ## Statements -/

variable {name label : String} {rest : List Char}

structure IsName (name : String) : Prop where
  ne_nil : name.toList ≠ []
  chars : ∀ c ∈ name.toList, isNameChar c = true

theorem isSpace_of_isNameChar {c : Char} (h : isNameChar c = true) : isSpace c = false := by
  rw [Bool.eq_false_iff]
  intro hspace
  simp only [isSpace, isBlank, isBreak, Bool.or_eq_true, beq_iff_eq] at hspace
  rcases hspace with (rfl | rfl) | (rfl | rfl) <;> cases h

theorem skipSpace_append (h : IsName name) {blanks : List Char}
    (hblanks : ∀ c ∈ blanks, isSpace c = true) (rest : List Char) :
    skipSpace (blanks ++ (name.toList ++ rest)) = name.toList ++ rest := by
  obtain ⟨c, cs, hname⟩ := List.exists_cons_of_ne_nil h.ne_nil
  have hc : isSpace c = false := isSpace_of_isNameChar (h.chars c (hname ▸ List.mem_cons_self))
  rw [skipSpace, List.dropWhile_append_of_pos hblanks, hname, List.cons_append,
    List.dropWhile_cons_of_neg (by rw [hc]; exact Bool.false_ne_true)]

theorem name?_append (h : IsName name) {blanks : List Char}
    (hblanks : ∀ c ∈ blanks, isSpace c = true) (rest : List Char)
    (hrest : startsWithAny isNameChar rest = false) :
    name? (blanks ++ (name.toList ++ rest)) = some (name, rest) := by
  have hrun := run_append h.chars hrest
  have htake := take_run isNameChar (name.toList ++ rest)
  have hdrop := drop_run isNameChar (name.toList ++ rest)
  rw [hrun, List.take_left] at htake
  rw [hrun, List.drop_left] at hdrop
  rw [name?, skipSpace_append h hblanks, ← htake, ← hdrop, String.ofList_toList]
  exact if_neg h.ne_nil

theorem marks?_close (h : IsName name) {blanks : List Char}
    (hblanks : ∀ c ∈ blanks, isSpace c = true) (rest : List Char) :
    marks? [['}']] (blanks ++ (name.toList ++ rest)) = none := by
  obtain ⟨c, cs, hname⟩ := List.exists_cons_of_ne_nil h.ne_nil
  have hc : ('}' == c) = false := by
    refine beq_false_of_ne ?_
    rintro rfl
    cases h.chars _ (hname ▸ List.mem_cons_self)
  rw [marks?, skipSpace_append h hblanks, hname, List.cons_append, List.isPrefixOf, hc,
    Bool.false_and, if_neg Bool.false_ne_true]

def labelFront : List Char := " [label=\"".toList

def labelBack : List Char := "\"];\n".toList

def labelled (label : String) : List Char :=
  labelFront ++ ((Visit.dotEscaped label).toList ++ labelBack)

theorem label?_labelled (label : String) (rest : List Char) :
    label? (labelled label ++ rest) = some (label, '\n' :: rest) := by
  have hfront : ∀ inside : List Char,
      marks? [['['], "label".toList, ['='], ['"']] (labelFront ++ inside) = some inside :=
    fun _ => rfl
  have hback : labelBack ++ rest = '"' :: ']' :: ';' :: '\n' :: rest := rfl
  have hend : marks? [[']'], [';']] (']' :: ';' :: '\n' :: rest) = some ('\n' :: rest) := rfl
  rw [label?, labelled, List.append_assoc, hfront, Option.bind_eq_bind, Option.bind_some,
    List.append_assoc, hback, quoted?_escaped, Option.bind_eq_bind, Option.bind_some]
  dsimp only
  rw [hend, String.ofList_toList]
  rfl

def Statement.front : Statement → String
  | .box b => b.name
  | .arrow a => a.source

def Statement.back : Statement → List Char
  | .box b => labelled b.label
  | .arrow a => [' ', '-', '>', ' '] ++ (a.target.toList ++ labelled a.label)

def Statement.line (s : Statement) : List Char := [' ', ' '] ++ (s.front.toList ++ s.back)

structure Statement.Named (s : Statement) : Prop where
  front : IsName s.front
  target : ∀ a, s = .arrow a → IsName a.target

section Lines

variable {s : Statement} {breaks : List Char}

theorem line_append (s : Statement) (breaks rest : List Char) :
    breaks ++ (s.line ++ rest) = breaks ++ [' ', ' '] ++ (s.front.toList ++ (s.back ++ rest)) := by
  simp only [Statement.line, List.append_assoc]

theorem statement?_line (h : s.Named) (hbreaks : ∀ c ∈ breaks, isSpace c = true)
    (rest : List Char) : statement? (breaks ++ (s.line ++ rest)) = some (s, '\n' :: rest) := by
  have hblanks : ∀ c ∈ breaks ++ [' ', ' '], isSpace c = true :=
    List.forall_mem_append.2 ⟨hbreaks, List.all_eq_true.1 rfl⟩
  rw [line_append, statement?]
  cases s with
  | box b =>
    have hname := name?_append h.front hblanks (labelled b.label ++ rest) rfl
    have harrow : marks? [['-', '>']] (labelled b.label ++ rest) = none := rfl
    simp only [Statement.back, hname, Option.bind_eq_bind, Option.bind_some, harrow,
      label?_labelled]
    rfl
  | arrow a =>
    have hback : (Statement.arrow a).back ++ rest =
        [' ', '-', '>', ' '] ++ (a.target.toList ++ (labelled a.label ++ rest)) := by
      simp only [Statement.back, List.append_assoc]
    have hsource := name?_append h.front hblanks
      ([' ', '-', '>', ' '] ++ (a.target.toList ++ (labelled a.label ++ rest))) rfl
    have harrow : marks? [['-', '>']] ([' ', '-', '>', ' '] ++
        (a.target.toList ++ (labelled a.label ++ rest))) =
          some ([' '] ++ (a.target.toList ++ (labelled a.label ++ rest))) := rfl
    have htarget : name? ([' '] ++ (a.target.toList ++ (labelled a.label ++ rest))) =
        some (a.target, labelled a.label ++ rest) :=
      name?_append (h.target a rfl) (List.all_eq_true.1 rfl) _ rfl
    rw [hback, hsource]
    simp only [Option.bind_eq_bind, Option.bind_some, harrow, htarget, label?_labelled]
    rfl

theorem statements?_lines {ss : List Statement} (h : ∀ s ∈ ss, s.Named) {fuel : Nat}
    (hfuel : ss.length < fuel) :
    statements? fuel ('\n' :: (ss.flatMap Statement.line ++ ['}', '\n'])) = some ss := by
  induction ss generalizing fuel with
  | nil =>
    obtain ⟨fuel, rfl⟩ := Nat.exists_eq_add_of_lt hfuel
    rfl
  | cons s ss ih =>
    obtain ⟨hs, hss⟩ := List.forall_mem_cons.1 h
    obtain ⟨fuel, rfl⟩ : ∃ k, fuel = k + 1 := ⟨fuel - 1, by omega⟩
    have hbreak : ∀ c ∈ ['\n'], isSpace c = true := List.all_eq_true.1 rfl
    have hblanks : ∀ c ∈ ['\n'] ++ [' ', ' '], isSpace c = true := List.all_eq_true.1 rfl
    have hopen : marks? [['}']] (['\n'] ++ (s.line ++ (ss.flatMap Statement.line ++ ['}', '\n']))) =
        none := by
      rw [line_append]
      exact marks?_close hs.front hblanks _
    have hline := statement?_line hs hbreak (ss.flatMap Statement.line ++ ['}', '\n'])
    rw [List.flatMap_cons, List.append_assoc, ← List.singleton_append, statements?, hopen]
    simp only [hline, Option.bind_eq_bind, Option.bind_some,
      ih hss (Nat.lt_of_succ_lt_succ hfuel)]
    rfl

end Lines

def opening : String := "digraph ast \x7b\n  node [shape=box];\n"

def closing : String := "\x7d\n"

theorem marks?_opening (rest : List Char) :
    marks? preamble (opening.toList ++ rest) = some ('\n' :: rest) := rfl

theorem read?_lines {text : String} {ss : List Statement} (h : ∀ s ∈ ss, s.Named)
    (htext : text.toList = opening.toList ++ (ss.flatMap Statement.line ++ closing.toList)) :
    read? text = some ss := by
  have hlength : ss.length < text.length + 1 := by
    have hlong : ss.length ≤ (ss.flatMap Statement.line).length := by
      rw [List.length_flatMap, ← List.length_map (f := fun s : Statement => s.line.length)]
      exact List.length_le_sum_of_one_le _ (List.forall_mem_map.2 fun s _ => Nat.succ_pos _)
    rw [← String.length_toList, htext, List.length_append, List.length_append]
    omega
  have hclosing : closing.toList = ['}', '\n'] := rfl
  rw [read?, htext, marks?_opening, Option.bind_eq_bind, Option.bind_some, hclosing,
    statements?_lines h hlength]

end Dot

end MFile
