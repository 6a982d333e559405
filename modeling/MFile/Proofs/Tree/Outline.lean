import MFile.Text.Bytes
import MFile.Text.Blank
import MFile.Tree.Rendering

/-!
Reading an outline back. A line tells a node's depth by its indentation, then the relation to its
parent and its label. Relations are words, so the first colon of a line ends the relation, whatever
stands in the label; and the depths of all lines in order tell which node is below which.
-/

namespace MFile

namespace Text

variable {separator : Char} {line cs : List Char}

theorem pieces_line (h : separator ∉ line) (cs : List Char) :
    pieces separator (line ++ separator :: cs) = line :: pieces separator cs := by
  induction line with
  | nil => rw [List.nil_append, pieces, if_pos rfl]
  | cons c line ih =>
    rw [List.mem_cons, not_or] at h
    rw [List.cons_append, pieces, if_neg (Ne.symm h.1), ih h.2]

theorem pieces_lines {α : Type} {f : α → List Char} {as : List α}
    (h : ∀ a ∈ as, separator ∉ f a) :
    pieces separator (as.flatMap fun a => f a ++ [separator]) = as.map f ++ [[]] := by
  induction as with
  | nil => rfl
  | cons a as ih =>
    obtain ⟨ha, has⟩ := List.forall_mem_cons.1 h
    rw [List.flatMap_cons, List.append_assoc, List.singleton_append, pieces_line ha, ih has,
      List.map_cons, List.cons_append]

end Text

open Text

structure Entry where
  depth : Nat
  relation : String
  label : String
deriving DecidableEq

inductive Shape
  | node (relation label : String) (below : List Shape)

mutual

def Shape.entries (depth : Nat) : Shape → List Entry
  | .node relation label below => ⟨depth, relation, label⟩ :: entriesOf (depth + 1) below

def entriesOf (depth : Nat) : List Shape → List Entry
  | [] => []
  | s :: ss => s.entries depth ++ entriesOf depth ss

end

/-! ## Depths tell the tree -/

def Above (depth : Nat) (rest : List Entry) : Prop := ∀ l ∈ rest.head?, l.depth < depth

theorem Above.entriesOf {depth : Nat} {rest : List Entry} (h : Above depth rest)
    (ss : List Shape) : Above (depth + 1) (entriesOf depth ss ++ rest) := by
  cases ss with
  | nil => exact fun l hl => Nat.lt_succ_of_lt (h l hl)
  | cons s ss =>
    cases s
    rintro l ⟨⟩
    exact Nat.lt_succ_self depth

theorem not_above_entries (depth : Nat) (s : Shape) (rest : List Entry) :
    ¬ Above depth (s.entries depth ++ rest) := by
  cases s
  exact fun h => Nat.lt_irrefl depth (h _ rfl)

mutual

theorem Shape.eq_of_entries {depth : Nat} {rest rest' : List Entry} (hrest : Above (depth + 1) rest)
    (hrest' : Above (depth + 1) rest') : ∀ s s' : Shape,
    s.entries depth ++ rest = s'.entries depth ++ rest' → s = s' ∧ rest = rest'
  | .node relation label below, .node relation' label' below', h => by
    rw [Shape.entries, Shape.entries, List.cons_append, List.cons_append] at h
    obtain ⟨hentry, hentries⟩ := List.cons.inj h
    cases hentry
    obtain ⟨rfl, hsame⟩ := eq_of_entriesOf hrest hrest' below below' hentries
    exact ⟨rfl, hsame⟩

theorem eq_of_entriesOf {depth : Nat} {rest rest' : List Entry} (hrest : Above depth rest)
    (hrest' : Above depth rest') : ∀ ss ss' : List Shape,
    entriesOf depth ss ++ rest = entriesOf depth ss' ++ rest' → ss = ss' ∧ rest = rest'
  | [], [], h => ⟨rfl, h⟩
  | [], s :: ss, h => by
    rw [entriesOf, entriesOf, List.nil_append, List.append_assoc] at h
    exact absurd (h ▸ hrest) (not_above_entries depth s _)
  | s :: ss, [], h => by
    rw [entriesOf, entriesOf, List.nil_append, List.append_assoc] at h
    exact absurd (h ▸ hrest') (not_above_entries depth s _)
  | s :: ss, s' :: ss', h => by
    rw [entriesOf, entriesOf, List.append_assoc, List.append_assoc] at h
    obtain ⟨rfl, hlater⟩ := Shape.eq_of_entries (hrest.entriesOf ss) (hrest'.entriesOf ss') s s' h
    obtain ⟨rfl, hsame⟩ := eq_of_entriesOf hrest hrest' ss ss' hlater
    exact ⟨rfl, hsame⟩

end

theorem Shape.entries_injective {depth : Nat} {s s' : Shape}
    (h : s.entries depth = s'.entries depth) : s = s' := by
  have hnil : Above (depth + 1) [] := by simp [Above]
  exact (Shape.eq_of_entries hnil hnil s s' (by rw [h])).1

/-! ## Walks -/

def Visit.entry (v : Visit) : Entry := ⟨v.depth, v.relation.label, v.node.label⟩

namespace Node

def shape (relation : Relation) (node : Node) : Shape :=
  .node relation.label node.label
    (node.children.attach.map fun ⟨child, _⟩ => child.2.shape child.1)
termination_by sizeOf node
decreasing_by exact Node.sizeOf_lt_of_mem_children ‹_›

theorem shape_eq (relation : Relation) (node : Node) : node.shape relation =
    .node relation.label node.label (node.children.map fun child => child.2.shape child.1) := by
  conv => rhs; rw [← List.attach_map_subtype_val node.children]
  rw [shape, List.map_map]
  rfl

/-- A walk goes down and comes back to its depth, and enters the nodes of a tree in order. -/
theorem visitsFrom_walk (depth : Nat) (node : Node) (parent : Option Node) (relation : Relation)
    (events : List WalkEvent) :
    (visitsFrom depth (node.walk parent relation ++ events)).map Visit.entry =
      (node.shape relation).entries depth ++ (visitsFrom depth events).map Visit.entry := by
  -- Below a node, one child after the other is entered one level down, each with its own rest.
  induction hsize : sizeOf node using Nat.strongRecOn
    generalizing depth node parent relation events with
  | _ n ih =>
    have hchildren : ∀ (cs : List Child) (events : List WalkEvent), cs ⊆ node.children →
        (visitsFrom (depth + 1) (cs.flatMap (fun c => c.2.walk (some node) c.1) ++ events)).map
            Visit.entry =
          entriesOf (depth + 1) (cs.map fun c => c.2.shape c.1) ++
            (visitsFrom (depth + 1) events).map Visit.entry := by
      intro cs events hcs
      induction cs with
      | nil => rfl
      | cons c cs ihcs =>
        obtain ⟨hc, hcs⟩ := List.cons_subset.1 hcs
        rw [List.flatMap_cons, List.append_assoc,
          ih _ (hsize ▸ sizeOf_lt_of_mem_children hc) (depth + 1) c.2 _ _ _ rfl, ihcs hcs,
          List.map_cons, entriesOf, List.append_assoc]
    rw [walk_eq, shape_eq, Shape.entries, List.cons_append, List.append_assoc, visitsFrom,
      List.map_cons, hchildren _ _ (List.Subset.refl _)]
    rfl

end Node

def FileUnit.shape (unit : FileUnit) : Shape := (Node.unit unit).shape .root

theorem FileUnit.entries_visits (unit : FileUnit) :
    (visits unit.walk).map Visit.entry = unit.shape.entries 0 := by
  have hwalk := Node.visitsFrom_walk 0 (.unit unit) none .root []
  rwa [List.append_nil, visitsFrom, List.map_nil, List.append_nil] at hwalk

/-! ## Lines -/

theorem Relation.label_letters (r : Relation) :
    r.label.toList ≠ [] ∧ (r.label.toList.all Char.isAlpha) = true := by
  cases r <;> decide

namespace Entry

def line (l : Entry) : List Char :=
  List.replicate (2 * l.depth) ' ' ++ (l.relation.toList ++ ':' :: ' ' :: l.label.toList)

/-- What stands before and behind the first colon with a blank behind it. -/
def parts : List Char → List Char × List Char
  | [] => ([], [])
  | c :: cs =>
    if [':', ' '].isPrefixOf (c :: cs) then ([], cs.drop 1)
    else
      let (front, back) := parts cs
      (c :: front, back)

def ofLine (cs : List Char) : Entry :=
  let blanks := run (· == ' ') cs
  let (relation, label) := parts (cs.drop blanks)
  ⟨blanks / 2, String.ofList relation, String.ofList label⟩

theorem parts_append {relation : List Char} (h : ':' ∉ relation) (label : List Char) :
    parts (relation ++ ':' :: ' ' :: label) = (relation, label) := by
  induction relation with
  | nil => rfl
  | cons c relation ih =>
    rw [List.mem_cons, not_or] at h
    have hc : [':', ' '].isPrefixOf (c :: (relation ++ ':' :: ' ' :: label)) = false := by
      rw [List.isPrefixOf, beq_false_of_ne h.1, Bool.false_and]
    rw [List.cons_append, parts, hc, if_neg Bool.false_ne_true, ih h.2]

structure Plain (l : Entry) : Prop where
  ne_nil : l.relation.toList ≠ []
  letters : ∀ c ∈ l.relation.toList, c.isAlpha = true

theorem Plain.notMem {l : Entry} (h : l.Plain) {c : Char} (hc : c.isAlpha = false) :
    c ∉ l.relation.toList := by
  intro hmem
  rw [h.letters c hmem] at hc
  cases hc

theorem ofLine_line {l : Entry} (h : l.Plain) : ofLine l.line = l := by
  have hstop : startsWithAny (· == ' ')
      (l.relation.toList ++ ':' :: ' ' :: l.label.toList) = false := by
    obtain ⟨c, cs, hcs⟩ := List.exists_cons_of_ne_nil h.ne_nil
    have hc : c ≠ ' ' := by
      rintro rfl
      exact h.notMem rfl (hcs ▸ List.mem_cons_self)
    rw [hcs]
    exact beq_false_of_ne hc
  have hblanks : run (· == ' ') l.line = 2 * l.depth := by
    rw [line, run_append (fun c hc => beq_iff_eq.2 (List.eq_of_mem_replicate hc)) hstop,
      List.length_replicate]
  have hrest : l.line.drop (2 * l.depth) = l.relation.toList ++ ':' :: ' ' :: l.label.toList :=
    List.drop_left' List.length_replicate
  rw [ofLine, hblanks, hrest, parts_append (h.notMem rfl), Nat.mul_div_cancel_left _ Nat.two_pos]
  dsimp only
  rw [String.ofList_toList, String.ofList_toList]

theorem lineFeed_notMem {l : Entry} (h : l.Plain) (hlabel : '\n' ∉ l.label.toList) :
    '\n' ∉ l.line := by
  rw [line, List.mem_append, List.mem_append, List.mem_replicate, List.mem_cons, List.mem_cons,
    not_or, not_or, not_or, not_or]
  exact ⟨fun hblank => absurd hblank.2 (by decide), h.notMem rfl, by decide, by decide, hlabel⟩

end Entry

theorem Visit.plain (v : Visit) : v.entry.Plain :=
  ⟨v.relation.label_letters.1, List.all_eq_true.1 v.relation.label_letters.2⟩

theorem Visit.toList_outlineLine (v : Visit) :
    v.outlineLine.toList = v.entry.line ++ ['\n'] := by
  simp [outlineLine, Entry.line, entry]

namespace FileUnit

theorem toList_outline (unit : FileUnit) :
    unit.outline.toList = (visits unit.walk).flatMap fun v => v.entry.line ++ ['\n'] := by
  rw [outline]
  induction visits unit.walk with
  | nil => rfl
  | cons v vs ih =>
    rw [List.map_cons, String.join_cons, String.toList_append, ih, v.toList_outlineLine,
      List.flatMap_cons]

/-- Reads a whole outline. The last line feed ends the last line. -/
def readOutline (text : String) : List Entry :=
  (pieces '\n' text.toList).dropLast.map Entry.ofLine

theorem pieces_outline {unit : FileUnit} (h : ∀ v ∈ visits unit.walk, '\n' ∉ v.node.label.toList) :
    pieces '\n' unit.outline.toList = (visits unit.walk).map (·.entry.line) ++ [[]] := by
  rw [toList_outline]
  exact pieces_lines fun v hv => Entry.lineFeed_notMem v.plain (h v hv)

theorem readOutline_outline {unit : FileUnit}
    (h : ∀ v ∈ visits unit.walk, '\n' ∉ v.node.label.toList) :
    readOutline unit.outline = (visits unit.walk).map Visit.entry := by
  rw [readOutline, pieces_outline h, List.dropLast_concat, List.map_map]
  exact List.map_congr_left fun v _ => Entry.ofLine_line v.plain

end FileUnit

end MFile
