import Mathlib.Data.List.Nodup
import Mathlib.Logic.Relation
import MFile.Proofs.Tree.Dot
import MFile.Proofs.Tree.Contents
import MFile.Proofs.Grammar.Numbering.Files

/-!
The graph of a tree. A walk enters each node with the node above it; all nodes but the first hang as
children from a node of the tree, and from the first one, from node to child, the way leads to every
other. Read back, the graph has one box for each node, and one arrow to each but the first, from the
node above it. Where no two nodes have the same number, the names of the boxes are different, so the
graph is the tree again. The nodes of a file have different numbers, so each is a box of its own.
-/

namespace MFile

open Text Visit

/-! ## Branches -/

structure Branch where
  parent : Option Node
  relation : Relation
  node : Node

def WalkEvent.branch? : WalkEvent → Option Branch
  | .enter relation node parent => some ⟨parent, relation, node⟩
  | .leave .. => none

def Visit.branch (v : Visit) : Branch := ⟨v.parent, v.relation, v.node⟩

theorem map_branch_visitsFrom (depth : Nat) (events : List WalkEvent) :
    (visitsFrom depth events).map Visit.branch = events.filterMap WalkEvent.branch? := by
  induction events generalizing depth with
  | nil => rfl
  | cons e events ih =>
    cases e with
    | enter relation node parent => exact congrArg (⟨parent, relation, node⟩ :: ·) (ih (depth + 1))
    | leave => exact ih (depth - 1)

namespace Node

theorem filterMap_walk (node : Node) (parent : Option Node) (relation : Relation) :
    (node.walk parent relation).filterMap WalkEvent.branch? = ⟨parent, relation, node⟩ ::
      node.children.flatMap fun c => (c.2.walk (some node) c.1).filterMap WalkEvent.branch? := by
  have henter : WalkEvent.branch? (.enter relation node parent) =
      some ⟨parent, relation, node⟩ := rfl
  have hleave : [WalkEvent.leave relation node parent].filterMap WalkEvent.branch? = [] := rfl
  rw [walk_eq, List.filterMap_cons_some henter, List.filterMap_append, List.filterMap_flatMap,
    hleave, List.append_nil]

def below (node : Node) : List Branch :=
  ((node.walk none .root).filterMap WalkEvent.branch?).tail

theorem branches_walk (node : Node) (parent : Option Node) (relation : Relation) :
    (node.walk parent relation).filterMap WalkEvent.branch? =
      ⟨parent, relation, node⟩ :: node.below := by
  rw [below, filterMap_walk, filterMap_walk, List.tail_cons]

theorem below_eq (node : Node) :
    node.below = node.children.flatMap fun c => ⟨some node, c.1, c.2⟩ :: c.2.below := by
  rw [below, filterMap_walk, List.tail_cons]
  simp only [branches_walk]

theorem nodes_eq_below (node : Node) : node.nodes = node :: node.below.map Branch.node := by
  have hentered : WalkEvent.entered? = fun e => e.branch?.map Branch.node := by
    funext e
    cases e <;> rfl
  rw [nodes, hentered, ← List.map_filterMap, branches_walk, List.map_cons]

theorem mem_below_iff {node : Node} {b : Branch} : b ∈ node.below ↔
    ∃ c ∈ node.children, b = ⟨some node, c.1, c.2⟩ ∨ b ∈ c.2.below := by
  simp only [below_eq node, List.mem_flatMap, List.mem_cons]

theorem hangs_of_mem_below {node : Node} {b : Branch} (h : b ∈ node.below) :
    ∃ parent ∈ node.nodes, b.parent = some parent ∧ (b.relation, b.node) ∈ parent.children := by
  obtain ⟨c, hc, rfl | hb⟩ := mem_below_iff.1 h
  · exact ⟨node, mem_nodes_self node, rfl, hc⟩
  · obtain ⟨parent, hparent, hangs⟩ := hangs_of_mem_below hb
    exact ⟨parent, mem_nodes_iff.2 (.inr ⟨c, hc, hparent⟩), hangs⟩
termination_by sizeOf node
decreasing_by exact sizeOf_lt_of_mem_children hc

def Hangs (node parent child : Node) : Prop :=
  ∃ b ∈ node.below, b.parent = some parent ∧ b.node = child

theorem reaches_of_mem_nodes {node d : Node} (h : d ∈ node.nodes) :
    Relation.ReflTransGen node.Hangs node d := by
  rcases mem_nodes_iff.1 h with rfl | ⟨c, hc, hd⟩
  · exact .refl
  · have hstep : node.Hangs node c.2 := ⟨_, mem_below_iff.2 ⟨c, hc, .inl rfl⟩, rfl, rfl⟩
    have hinside : ∀ parent child, c.2.Hangs parent child → node.Hangs parent child := by
      rintro parent child ⟨b, hb, hangs⟩
      exact ⟨b, mem_below_iff.2 ⟨c, hc, .inr hb⟩, hangs⟩
    exact .head hstep (Relation.ReflTransGen.mono hinside _ _ (reaches_of_mem_nodes hd))
termination_by sizeOf node
decreasing_by exact sizeOf_lt_of_mem_children hc

end Node

theorem FileUnit.map_branch_visits (unit : FileUnit) :
    (visits unit.walk).map Visit.branch = ⟨none, .root, .unit unit⟩ :: (Node.unit unit).below := by
  rw [visits, map_branch_visitsFrom, walk, Node.branches_walk]

/-! ## Graphs -/

namespace Dot

def boxNames (ss : List Statement) : List String := (boxes ss).map Box.name

def targets (ss : List Statement) : List String := (arrows ss).map Arrow.target

def Joined (ss : List Statement) (source target : String) : Prop :=
  ∃ a ∈ arrows ss, a.source = source ∧ a.target = target

/-- A graph in which no arrow leads to `root`, one arrow to every other box, and from `root` a way
to all of them. -/
structure IsTree (root : String) (ss : List Statement) : Prop where
  nodup : (boxNames ss).Nodup
  root_mem : root ∈ boxNames ss
  ends : ∀ a ∈ arrows ss, a.source ∈ boxNames ss ∧ a.target ∈ boxNames ss
  root_free : root ∉ targets ss
  one : ∀ name ∈ boxNames ss, name ≠ root → (targets ss).count name = 1
  reached : ∀ name ∈ boxNames ss, Relation.ReflTransGen (Joined ss) root name

theorem filter_target {as : List Arrow} {a : Arrow} (h : (as.map Arrow.target).Nodup)
    (ha : a ∈ as) : as.filter (·.target = a.target) = [a] := by
  induction as with
  | nil => cases ha
  | cons b as ih =>
    obtain ⟨hb, has⟩ := List.nodup_cons.1 h
    rcases List.mem_cons.1 ha with rfl | ha
    · have hrest : as.filter (·.target = a.target) = [] :=
        List.filter_eq_nil_iff.2 fun d hd htarget =>
          hb (of_decide_eq_true htarget ▸ List.mem_map_of_mem hd)
      rw [List.filter_cons, if_pos (decide_eq_true rfl), hrest]
    · have hne : b.target ≠ a.target := fun heq => hb (heq ▸ List.mem_map_of_mem ha)
      rw [List.filter_cons_of_neg (by simpa using hne), ih has ha]

end Dot

open Dot

theorem isName_dotNode (id : NodeId) : IsName (dotNode id) := by
  have hname : (dotNode id).toList = 'n' :: Nat.toDigits 10 id := by
    simp [dotNode]
  refine ⟨?_, ?_⟩
  · rw [hname]
    exact List.cons_ne_nil _ _
  · rw [hname]
    refine List.forall_mem_cons.2 ⟨rfl, fun c hc => ?_⟩
    have hdigit := Nat.isDigit_of_mem_toDigits (by decide) (by decide) hc
    rw [isNameChar, Char.isAlphanum, hdigit, Bool.or_true, Bool.true_or]

theorem dotNode_injective : Function.Injective dotNode := by
  intro i j h
  rw [dotNode, dotNode, String.append_right_inj, Nat.toString_eq_ofList_toDigits,
    Nat.toString_eq_ofList_toDigits] at h
  have hvalue : ∀ n, Nat.ofDigitChars 10 (Nat.toDigits 10 n) 0 = n := fun n =>
    Nat.ofDigitChars_toDigits (by decide) (by decide)
  rw [← hvalue i, String.ofList_inj.1 h, hvalue]

namespace Branch

def name (b : Branch) : String := dotNode b.node.id

def arrow? (b : Branch) : Option Arrow :=
  b.parent.map fun parent => ⟨dotNode parent.id, b.name, b.relation.label⟩

def statements (b : Branch) : List Statement :=
  .box ⟨b.name, b.node.label⟩ :: (b.arrow?.map .arrow).toList

theorem named_statements (b : Branch) : ∀ s ∈ b.statements, s.Named := by
  refine List.forall_mem_cons.2 ⟨⟨isName_dotNode _, fun a h => nomatch h⟩, ?_⟩
  rw [arrow?]
  cases b.parent with
  | none => exact fun s hs => nomatch hs
  | some parent =>
    refine List.forall_mem_singleton.2 ⟨isName_dotNode _, ?_⟩
    rintro a ⟨⟩
    exact isName_dotNode _

theorem boxes_statements (bs : List Branch) :
    boxes (bs.flatMap statements) = bs.map fun b => ⟨b.name, b.node.label⟩ := by
  induction bs with
  | nil => rfl
  | cons b bs ih =>
    have hone : boxes b.statements = [⟨b.name, b.node.label⟩] := by
      rw [statements]
      cases b.arrow? <;> rfl
    rw [List.flatMap_cons, boxes, List.filterMap_append, ← boxes, ← boxes, ih, hone,
      List.singleton_append, List.map_cons]

theorem arrows_statements (bs : List Branch) :
    arrows (bs.flatMap statements) = bs.filterMap arrow? := by
  induction bs with
  | nil => rfl
  | cons b bs ih =>
    have hone : arrows b.statements = b.arrow?.toList := by
      rw [statements]
      cases b.arrow? <;> rfl
    rw [List.flatMap_cons, arrows, List.filterMap_append, ← arrows, ← arrows, ih, hone,
      List.filterMap_cons]
    cases b.arrow? <;> rfl

end Branch

namespace Visit

theorem dotEscaped_label (r : Relation) : dotEscaped r.label = r.label := by
  cases r <;> decide

theorem toList_dotLines (v : Visit) :
    v.dotLines.toList = v.branch.statements.flatMap Statement.line := by
  have hblanks : "  ".toList = [' ', ' '] := rfl
  have harrow : " -> ".toList = [' ', '-', '>', ' '] := rfl
  have hfront : " [label=\"".toList = labelFront := rfl
  have hback : "\"];\n".toList = labelBack := rfl
  have hbox : ("  " ++ dotNode v.node.id ++ " [label=\"" ++ dotEscaped v.node.label ++
      "\"];\n").toList = (Statement.box ⟨v.branch.name, v.branch.node.label⟩).line := by
    simp only [String.toList_append, hblanks, hfront, hback, Statement.line, Statement.front,
      Statement.back, labelled, List.append_assoc, branch, Branch.name]
  rw [dotLines, Branch.statements, List.flatMap_cons, String.toList_append, hbox, Branch.arrow?]
  cases v with
  | mk depth relation node parent =>
    cases parent with
    | none => rfl
    | some parent =>
      refine congrArg (Statement.line _ ++ ·) ?_
      simp only [Option.elim_some, String.toList_append, hblanks, harrow, hfront, hback, branch,
        Branch.name, Option.map_some, Option.toList_some, List.flatMap_cons, List.flatMap_nil,
        List.append_nil, Statement.line, Statement.front, Statement.back, labelled,
        List.append_assoc, dotEscaped_label]

end Visit

/-! ## Trees -/

namespace Node

/-- All branches of a tree, that of its first node from nothing. -/
def branches (node : Node) : List Branch := ⟨none, .root, node⟩ :: node.below

def statements (node : Node) : List Statement := node.branches.flatMap Branch.statements

variable {node : Node}

theorem arrow?_of_mem_below {b : Branch} (h : b ∈ node.below) : ∃ parent ∈ node.nodes,
    b.arrow? = some ⟨dotNode parent.id, b.name, b.relation.label⟩ := by
  obtain ⟨parent, hmem, hparent, -⟩ := hangs_of_mem_below h
  exact ⟨parent, hmem, by rw [Branch.arrow?, hparent, Option.map_some]⟩

theorem arrows_eq (node : Node) : arrows node.statements = node.below.filterMap Branch.arrow? := by
  rw [statements, Branch.arrows_statements]
  rfl

theorem boxNames_eq_nodes (node : Node) :
    boxNames node.statements = node.nodes.map fun d => dotNode d.id := by
  rw [boxNames, statements, Branch.boxes_statements, List.map_map, nodes_eq_below, branches,
    List.map_cons, List.map_cons, List.map_map]
  rfl

theorem boxNames_eq_targets (node : Node) :
    boxNames node.statements = dotNode node.id :: targets node.statements := by
  have htargets : ∀ bs ⊆ node.below,
      (bs.filterMap Branch.arrow?).map Arrow.target = bs.map Branch.name := by
    intro bs hbs
    induction bs with
    | nil => rfl
    | cons b bs ih =>
      obtain ⟨hb, hbs⟩ := List.cons_subset.1 hbs
      obtain ⟨parent, -, harrow⟩ := arrow?_of_mem_below hb
      rw [List.filterMap_cons_some harrow, List.map_cons, ih hbs, List.map_cons]
  rw [targets, arrows_eq, htargets _ (List.Subset.refl _), boxNames, statements,
    Branch.boxes_statements, List.map_map]
  rfl

theorem nodup_boxNames (h : (node.nodes.map id).Nodup) : (boxNames node.statements).Nodup := by
  have hmap : node.nodes.map (fun d => dotNode d.id) = (node.nodes.map id).map dotNode := by
    rw [List.map_map]
    rfl
  rw [boxNames_eq_nodes, hmap]
  exact h.map dotNode_injective

theorem nodup_targets (h : (node.nodes.map id).Nodup) :
    dotNode node.id ∉ targets node.statements ∧ (targets node.statements).Nodup := by
  have hnodup := nodup_boxNames h
  rwa [boxNames_eq_targets, List.nodup_cons] at hnodup

theorem Hangs.joined {parent child : Node} (h : node.Hangs parent child) :
    Joined node.statements (dotNode parent.id) (dotNode child.id) := by
  obtain ⟨b, hb, hparent, rfl⟩ := h
  refine ⟨⟨dotNode parent.id, b.name, b.relation.label⟩, ?_, rfl, rfl⟩
  rw [arrows_eq]
  exact List.mem_filterMap.2 ⟨b, hb, by rw [Branch.arrow?, hparent, Option.map_some]⟩

theorem isTree_statements (h : (node.nodes.map id).Nodup) :
    IsTree (dotNode node.id) node.statements := by
  have hnames := boxNames_eq_targets node
  obtain ⟨hroot, htargets⟩ := nodup_targets h
  refine ⟨nodup_boxNames h, hnames ▸ List.mem_cons_self, fun a ha => ⟨?_, ?_⟩, hroot,
    fun name hname hother => ?_, fun name hname => ?_⟩
  · rw [arrows_eq] at ha
    obtain ⟨b, hb, harrow⟩ := List.mem_filterMap.1 ha
    obtain ⟨parent, hparent, hsome⟩ := arrow?_of_mem_below hb
    obtain rfl := Option.some.inj (hsome.symm.trans harrow)
    rw [boxNames_eq_nodes]
    exact List.mem_map_of_mem (f := fun d : Node => dotNode d.id) hparent
  · rw [hnames]
    exact List.mem_cons_of_mem _ (List.mem_map_of_mem ha)
  · rw [hnames, List.mem_cons] at hname
    exact List.count_eq_one_of_mem htargets (hname.resolve_left hother)
  · rw [boxNames_eq_nodes] at hname
    obtain ⟨d, hd, rfl⟩ := List.mem_map.1 hname
    exact Relation.ReflTransGen.lift (fun d : Node => dotNode d.id) (fun _ _ => Hangs.joined) _ _
      (reaches_of_mem_nodes hd)

theorem arrows_to {b : Branch} (h : (node.nodes.map id).Nodup) (hb : b ∈ node.branches) :
    (arrows node.statements).filter (·.target = b.name) = b.arrow?.toList := by
  obtain ⟨hroot, htargets⟩ := nodup_targets h
  rcases List.mem_cons.1 hb with rfl | hb
  · refine List.filter_eq_nil_iff.2 fun a ha htarget => hroot ?_
    rw [← show a.target = dotNode node.id from of_decide_eq_true htarget]
    exact List.mem_map_of_mem ha
  · obtain ⟨parent, -, harrow⟩ := arrow?_of_mem_below hb
    rw [harrow]
    refine filter_target htargets (a := ⟨dotNode parent.id, b.name, b.relation.label⟩) ?_
    rw [arrows_eq]
    exact List.mem_filterMap.2 ⟨b, hb, harrow⟩

end Node

namespace FileUnit

theorem toList_graph (unit : FileUnit) : unit.graph.toList =
    opening.toList ++ ((Node.unit unit).statements.flatMap Statement.line ++ closing.toList) := by
  have hlines : ∀ vs : List Visit, (String.join (vs.map Visit.dotLines)).toList =
      ((vs.map Visit.branch).flatMap Branch.statements).flatMap Statement.line := by
    intro vs
    induction vs with
    | nil => rfl
    | cons v vs ih =>
      rw [List.map_cons, String.join_cons, String.toList_append, ih, v.toList_dotLines,
        List.map_cons, List.flatMap_cons, List.flatMap_append]
  have happend : ∀ a b c : String, (a ++ b ++ c).toList = a.toList ++ (b.toList ++ c.toList) := by
    intro a b c
    rw [String.toList_append, String.toList_append, List.append_assoc]
  rw [Node.statements, Node.branches, ← map_branch_visits, ← hlines]
  exact happend opening _ closing

/-- Whatever the tree, its graph is read back. -/
theorem read?_graph (unit : FileUnit) : read? unit.graph = some (Node.unit unit).statements :=
  read?_lines (fun _ hs => (List.mem_flatMap.1 hs).elim fun b hb => b.named_statements _ hb.2)
    (toList_graph unit)

end FileUnit

/-! ## Files -/

section Files

open Dot Grammar Parse

namespace FileUnit

variable {source : SourceText} {settings : Settings} {unit : FileUnit}

theorem nodup_ofSource (h : ofSource source settings = .ok unit) :
    (unit.nodes.map Node.id).Nodup := by
  rw [ofSource] at h
  split at h
  · cases h
  · exact nodup_ofTokens h

/-- The graph of a file is read back as one box for each node that a walk visits, all of different
names, and for each of them but the unit the one arrow from the node above it, with its relation. So
the graph is a tree from the unit on. A label ends at its own quote, whatever stands in it. -/
theorem ofSource_graph (h : ofSource source settings = .ok unit) :
    (∃ ss, read? unit.graph = some ss ∧
      boxes ss = (visits unit.walk).map (fun v => ⟨dotNode v.node.id, v.node.label⟩) ∧
      (boxNames ss).Nodup ∧
      (∀ v ∈ visits unit.walk,
        v.node = .unit unit ∧ v.parent = none ∧
            (arrows ss).filter (·.target = dotNode v.node.id) = [] ∨
          ∃ parent ∈ unit.nodes, v.parent = some parent ∧
            (v.relation, v.node) ∈ parent.children ∧
            (arrows ss).filter (·.target = dotNode v.node.id) =
              [⟨dotNode parent.id, dotNode v.node.id, v.relation.label⟩]) ∧
      IsTree (dotNode unit.site.id) ss) ∧
    ∀ (label : String) (rest : List Char),
      (dotEscaped label).toList = backslashed '"' (backslashed '\\' label.toList) ∧
      quoted? ((dotEscaped label).toList ++ '"' :: rest) = some (label.toList, rest) := by
  have hnodup : ((Node.unit unit).nodes.map Node.id).Nodup := nodup_ofSource h
  have hbranches := map_branch_visits unit
  have htree : IsTree (dotNode unit.site.id) (Node.unit unit).statements :=
    @Node.isTree_statements (.unit unit) hnodup
  refine ⟨⟨(Node.unit unit).statements, read?_graph unit, ?_, htree.nodup, fun v hv => ?_, htree⟩,
    fun label rest => ⟨toList_dotEscaped label, quoted?_escaped label rest⟩⟩
  · rw [Node.statements, Branch.boxes_statements, Node.branches, ← hbranches, List.map_map]
    rfl
  · have hv : v.branch ∈ (Node.unit unit).branches := by
      rw [Node.branches, ← hbranches]
      exact List.mem_map_of_mem hv
    have hto : (arrows (Node.unit unit).statements).filter (·.target = dotNode v.node.id) =
        v.branch.arrow?.toList := Node.arrows_to (b := v.branch) hnodup hv
    rw [hto]
    rcases List.mem_cons.1 hv with hroot | hbelow
    · obtain ⟨hparent, -, hnode⟩ := Branch.mk.inj hroot
      exact .inl ⟨hnode, hparent, by rw [Branch.arrow?, hroot]; rfl⟩
    · obtain ⟨parent, hmem, hparent, hchild⟩ := Node.hangs_of_mem_below hbelow
      exact .inr ⟨parent, hmem, hparent, hchild, by rw [Branch.arrow?, hparent]; rfl⟩

def quotes : SourceText := .ofString "t.m" "for i = 1:2\n  x = 'a\\\"b\\\\';\nend\n" {}

theorem ofSource_graph_quotes : ∃ unit ss, ofSource quotes {} = .ok unit ∧
    unit.nodes.length = 9 ∧ unit.nodes.any (·.label.toList.count '\\' == 3) = true ∧
    read? unit.graph = some ss ∧ (boxNames ss).Nodup ∧ IsTree (dotNode unit.site.id) ss := by
  have hrun : (FileUnit.ofSource quotes {}).toOption.any (fun unit =>
      unit.nodes.length == 9 && unit.nodes.any (·.label.toList.count '\\' == 3)) = true := by
    decide +kernel
  cases hunit : FileUnit.ofSource quotes {} with
  | ok unit =>
    obtain ⟨⟨ss, hread, -, hnodup, -, htree⟩, -⟩ := ofSource_graph hunit
    rw [hunit] at hrun
    obtain ⟨hnodes, hlabel⟩ := Bool.and_eq_true_iff.1 hrun
    exact ⟨unit, ss, rfl, eq_of_beq hnodes, hlabel, hread, hnodup, htree⟩
  | error e =>
    rw [hunit] at hrun
    cases hrun

end FileUnit

end Files

end MFile
