import MFile.Tree.Node

/-!
Walking a tree, parents before children and children in order. A walk is the list of its events:
each node is entered, then each of its children is walked, then it is left. Every child is smaller
than its parent, so a walk ends.
-/

namespace MFile

namespace Node

theorem sizeOf_le_of_mem_map {α : Type} [SizeOf α] {f : α → Node}
    (hf : ∀ a, sizeOf (f a) = 1 + sizeOf a) {relation r : Relation} {items : List α} {c : Node}
    (h : (r, c) ∈ items.map fun a => (relation, f a)) : sizeOf c ≤ sizeOf items := by
  obtain ⟨a, ha, he⟩ := List.mem_map.1 h
  obtain ⟨-, rfl⟩ := Prod.mk.inj he
  have := List.sizeOf_lt_of_mem ha
  rw [hf]
  omega

theorem sizeOf_le_of_mem_exprs {relation r : Relation} {items : List Expr} {c : Node}
    (h : (r, c) ∈ exprs relation items) : sizeOf c ≤ sizeOf items :=
  sizeOf_le_of_mem_map (fun _ => by simp) h

theorem sizeOf_le_of_mem_optExpr {relation r : Relation} {e : Option Expr} {c : Node}
    (h : (r, c) ∈ optExpr relation e) : sizeOf c ≤ sizeOf e := by
  cases e with
  | none => simp [optExpr, exprs] at h
  | some e =>
    simp only [optExpr, exprs, Option.toList, List.map_cons, List.map_nil, List.mem_singleton,
      Prod.mk.injEq] at h
    rw [h.2]
    simp

theorem sizeOf_le_of_mem_stmts {relation r : Relation} {items : List Stmt} {c : Node}
    (h : (r, c) ∈ stmts relation items) : sizeOf c ≤ sizeOf items :=
  sizeOf_le_of_mem_map (fun _ => by simp) h

theorem sizeOf_le_of_mem_names {relation r : Relation} {items : List Name} {c : Node}
    (h : (r, c) ∈ names relation items) : sizeOf c ≤ sizeOf items :=
  sizeOf_le_of_mem_map (fun _ => by simp) h

theorem sizeOf_le_of_mem_optName {relation r : Relation} {n : Option Name} {c : Node}
    (h : (r, c) ∈ names relation n.toList) : sizeOf c ≤ sizeOf n := by
  cases n with
  | none => simp [names] at h
  | some n =>
    simp only [names, Option.toList, List.map_cons, List.map_nil, List.mem_singleton,
      Prod.mk.injEq] at h
    rw [h.2]
    simp

theorem sizeOf_le_of_mem_functions {relation r : Relation} {items : List FunctionDef} {c : Node}
    (h : (r, c) ∈ functions relation items) : sizeOf c ≤ sizeOf items :=
  sizeOf_le_of_mem_map (fun _ => by simp) h

theorem sizeOf_le_of_mem_blocks {relation r : Relation} {items : List Block} {c : Node}
    (h : (r, c) ∈ blocks relation items) : sizeOf c ≤ sizeOf items :=
  sizeOf_le_of_mem_map (fun _ => by simp) h

theorem sizeOf_le_of_mem_attrs {r : Relation} {items : List Attribute} {c : Node}
    (h : (r, c) ∈ attrs items) : sizeOf c ≤ sizeOf items :=
  sizeOf_le_of_mem_map (fun _ => by simp) h

theorem sizeOf_le_of_mem_rows {r : Relation} {items : List Row} {c : Node}
    (h : (r, c) ∈ rows items) : sizeOf c ≤ sizeOf items :=
  sizeOf_le_of_mem_map (fun _ => by simp) h

theorem sizeOf_le_of_mem_items {r : Relation} {items : List BlockItem} {c : Node}
    (h : (r, c) ∈ items.map ofItem) : sizeOf c ≤ sizeOf items := by
  obtain ⟨i, hi, he⟩ := List.mem_map.1 h
  have := List.sizeOf_lt_of_mem hi
  cases i <;> simp [ofItem] at he this <;> obtain ⟨-, rfl⟩ := he <;> simp <;> omega

theorem sizeOf_le_of_mem_clauses {f : Clause → Node} (hf : ∀ a, sizeOf (f a) = 1 + sizeOf a)
    {relation r : Relation} {items : List Clause} {c : Node}
    (h : (r, c) ∈ items.map fun a => (relation, f a)) : sizeOf c ≤ sizeOf items :=
  sizeOf_le_of_mem_map hf h

theorem sizeOf_le_of_mem_nameChildren {n : Name} {r : Relation} {c : Node}
    (h : (r, c) ∈ nameChildren n) : sizeOf c ≤ sizeOf n := by
  cases n with
  | identifier => simp [nameChildren] at h
  | reference site base args | cellReference site base args =>
    rcases List.mem_cons.1 h with h | h
    · cases h; simp; omega
    · have := sizeOf_le_of_mem_exprs h
      simp; omega
  | selection site base field =>
    cases List.mem_singleton.1 h
    simp; omega
  | dynamicSelection site base field | superclass site base field =>
    rcases List.mem_cons.1 h with h | h
    · cases h; simp; omega
    · cases List.mem_singleton.1 h
      simp; omega

theorem sizeOf_le_of_mem_exprChildren {e : Expr} {r : Relation} {c : Node}
    (h : (r, c) ∈ exprChildren e) : sizeOf c ≤ sizeOf e := by
  cases e with
  | name n =>
    have := sizeOf_le_of_mem_nameChildren h
    simp; omega
  | number | charArray | string | reshape | last => simp [exprChildren] at h
  | unary site op operand =>
    cases List.mem_singleton.1 h
    simp; omega
  | binary site op lhs rhs =>
    rcases List.mem_cons.1 h with h | h
    · cases h; simp; omega
    · cases List.mem_singleton.1 h
      simp; omega
  | range site start stride stop =>
    rcases List.mem_cons.1 h with h | h
    · cases h; simp; omega
    · rcases List.mem_append.1 h with h | h
      · have := sizeOf_le_of_mem_optExpr h
        simp; omega
      · cases List.mem_singleton.1 h
        simp; omega
  | matrix site rs | cell site rs =>
    have := sizeOf_le_of_mem_rows h
    simp; omega
  | lambda site params body =>
    rcases List.mem_append.1 h with h | h
    · have := sizeOf_le_of_mem_names h
      simp; omega
    · cases List.mem_singleton.1 h
      simp; omega
  | functionHandle site n | metaclass site n =>
    cases List.mem_singleton.1 h
    simp

theorem sizeOf_le_of_mem_stmtChildren {s : Stmt} {r : Relation} {c : Node}
    (h : (r, c) ∈ stmtChildren s) : sizeOf c ≤ sizeOf s := by
  cases s with
  | importNames | breakLoop | continueLoop | returnCall | shell => simp [stmtChildren] at h
  | assign site lhs rhs =>
    rcases List.mem_cons.1 h with h | h
    · cases h; simp; omega
    · cases List.mem_singleton.1 h
      simp; omega
  | multiAssign site lhs rhs =>
    rcases List.mem_append.1 h with h | h
    · have := sizeOf_le_of_mem_names h
      simp; omega
    · cases List.mem_singleton.1 h
      simp; omega
  | ifElse site branches =>
    have := sizeOf_le_of_mem_clauses (fun _ => by simp) h
    simp; omega
  | switch site subject arms =>
    rcases List.mem_cons.1 h with h | h
    · cases h; simp; omega
    · have := sizeOf_le_of_mem_clauses (fun _ => by simp) h
      simp; omega
  | forLoop site var range body =>
    rcases List.mem_cons.1 h with h | h
    · cases h; simp; omega
    · rcases List.mem_cons.1 h with h | h
      · cases h; simp; omega
      · have := sizeOf_le_of_mem_stmts h
        simp; omega
  | parFor site var range workers body =>
    rcases List.mem_cons.1 h with h | h
    · cases h; simp; omega
    · rcases List.mem_cons.1 h with h | h
      · cases h; simp; omega
      · rcases List.mem_append.1 h with h | h
        · have := sizeOf_le_of_mem_optExpr h
          simp; omega
        · have := sizeOf_le_of_mem_stmts h
          simp; omega
  | whileLoop site guard body =>
    rcases List.mem_cons.1 h with h | h
    · cases h; simp; omega
    · have := sizeOf_le_of_mem_stmts h
      simp; omega
  | tryCatch site body catchVar handler =>
    rcases List.mem_append.1 h with h | h
    · rcases List.mem_append.1 h with h | h
      · have := sizeOf_le_of_mem_stmts h
        simp; omega
      · have := sizeOf_le_of_mem_optName h
        simp; omega
    · have := sizeOf_le_of_mem_stmts h
      cases handler with
      | none => simp [stmts] at h
      | some handler =>
        simp at this ⊢
        omega
  | spmd site options body =>
    rcases List.mem_append.1 h with h | h
    · have := sizeOf_le_of_mem_exprs h
      simp; omega
    · have := sizeOf_le_of_mem_stmts h
      simp; omega
  | global site ns | persistent site ns =>
    have := sizeOf_le_of_mem_names h
    simp; omega
  | naked site e =>
    cases List.mem_singleton.1 h
    simp

theorem sizeOf_le_of_mem_unitChildren {u : FileUnit} {r : Relation} {c : Node}
    (h : (r, c) ∈ unitChildren u) : sizeOf c ≤ sizeOf u := by
  cases u with
  | script site body fs =>
    rcases List.mem_append.1 h with h | h
    · have := sizeOf_le_of_mem_stmts h
      simp; omega
    · have := sizeOf_le_of_mem_functions h
      simp; omega
  | functionFile site fs =>
    have := sizeOf_le_of_mem_functions h
    simp; omega
  | classFile site c fs =>
    rcases List.mem_cons.1 h with h | h
    · cases h; simp; omega
    · have := sizeOf_le_of_mem_functions h
      simp; omega

theorem sizeOf_lt_of_mem_children {node : Node} {r : Relation} {c : Node}
    (h : (r, c) ∈ node.children) : sizeOf c < sizeOf node := by
  cases node with
  | unit u =>
    have := sizeOf_le_of_mem_unitChildren h
    simp; omega
  | function f =>
    cases f
    rcases List.mem_cons.1 h with h | h
    · cases h; simp; omega
    · rcases List.mem_append.1 h with h | h
      · rcases List.mem_append.1 h with h | h
        · have := sizeOf_le_of_mem_blocks h
          simp at this ⊢; omega
        · have := sizeOf_le_of_mem_stmts h
          simp at this ⊢; omega
      · have := sizeOf_le_of_mem_functions h
        simp at this ⊢; omega
  | signature s =>
    cases s
    rcases List.mem_append.1 h with h | h
    · have := sizeOf_le_of_mem_names h
      simp at this ⊢; omega
    · rcases List.mem_cons.1 h with h | h
      · cases h; simp; omega
      · have := sizeOf_le_of_mem_names h
        simp at this ⊢; omega
  | definition d =>
    cases d
    rcases List.mem_cons.1 h with h | h
    · cases h; simp; omega
    · rcases List.mem_append.1 h with h | h
      · rcases List.mem_append.1 h with h | h
        · have := sizeOf_le_of_mem_attrs h
          simp at this ⊢; omega
        · have := sizeOf_le_of_mem_names h
          simp at this ⊢; omega
      · have := sizeOf_le_of_mem_blocks h
        simp at this ⊢; omega
  | block b =>
    cases b
    rcases List.mem_append.1 h with h | h
    · have := sizeOf_le_of_mem_attrs h
      simp at this ⊢; omega
    · have := sizeOf_le_of_mem_items h
      simp at this ⊢; omega
  | attr a =>
    cases a
    have := sizeOf_le_of_mem_optExpr h
    simp at this ⊢; omega
  | property p =>
    cases p
    rcases List.mem_cons.1 h with h | h
    · cases h; simp; omega
    · rcases List.mem_append.1 h with h | h
      · rcases List.mem_append.1 h with h | h
        · rcases List.mem_append.1 h with h | h
          · have := sizeOf_le_of_mem_exprs h
            simp at this ⊢; omega
          · have := sizeOf_le_of_mem_optName h
            simp at this ⊢; omega
        · have := sizeOf_le_of_mem_exprs h
          simp at this ⊢; omega
      · have := sizeOf_le_of_mem_optExpr h
        simp at this ⊢; omega
  | event e =>
    cases e
    cases List.mem_singleton.1 h
    simp only [Node.name.sizeOf_spec, Node.event.sizeOf_spec, EventDecl.mk.sizeOf_spec]
    omega
  | enumerator e =>
    cases e
    rcases List.mem_cons.1 h with h | h
    · cases h; simp; omega
    · have := sizeOf_le_of_mem_exprs h
      simp at this ⊢; omega
  | stmt s =>
    have := sizeOf_le_of_mem_stmtChildren h
    simp; omega
  | action a | arm a =>
    cases a
    rcases List.mem_append.1 h with h | h
    · have := sizeOf_le_of_mem_optExpr h
      simp at this ⊢; omega
    · have := sizeOf_le_of_mem_stmts h
      simp at this ⊢; omega
  | expr e =>
    have := sizeOf_le_of_mem_exprChildren h
    simp; omega
  | row row =>
    cases row
    have := sizeOf_le_of_mem_exprs h
    simp at this ⊢; omega
  | name n =>
    have := sizeOf_le_of_mem_nameChildren h
    simp; omega

end Node

inductive WalkEvent
  | enter (relation : Relation) (node : Node) (parent : Option Node)
  | leave (relation : Relation) (node : Node) (parent : Option Node)

/-- Without a parent the walk starts at `node`. -/
def Node.walk (node : Node) (parent : Option Node) (relation : Relation) : List WalkEvent :=
  .enter relation node parent ::
    (node.children.attach.flatMap (fun ⟨child, _⟩ => child.2.walk (some node) child.1) ++
      [.leave relation node parent])
termination_by sizeOf node
decreasing_by exact Node.sizeOf_lt_of_mem_children ‹_›

theorem Node.walk_eq (node : Node) (parent : Option Node) (relation : Relation) :
    node.walk parent relation =
      .enter relation node parent ::
        (node.children.flatMap (fun child => child.2.walk (some node) child.1) ++
          [.leave relation node parent]) := by
  conv => rhs; rw [← List.attach_map_subtype_val node.children]
  rw [walk, List.flatMap_map]

def FileUnit.walk (unit : FileUnit) : List WalkEvent := (Node.unit unit).walk none .root

structure Visit where
  depth : Nat
  relation : Relation
  node : Node
  parent : Option Node

def visitsFrom : Nat → List WalkEvent → List Visit
  | _, [] => []
  | depth, .enter relation node parent :: events =>
    ⟨depth, relation, node, parent⟩ :: visitsFrom (depth + 1) events
  | depth, .leave .. :: events => visitsFrom (depth - 1) events

def visits (events : List WalkEvent) : List Visit := visitsFrom 0 events

end MFile
