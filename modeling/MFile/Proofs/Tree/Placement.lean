import MFile.Tree.Node

/-!
Where a node may stand: `break` and `continue` in a loop of the function around them, `end` and a
lone colon in an argument list, and declarations in blocks that take them. What lies above a node
decides the first two; the nearest node above that has a say is the one that counts.
-/

namespace MFile

/-- The nodes above a node, the innermost first, each with its relation to the next one below. -/
abbrev Way := List (Node × Relation)

namespace Node

/-- From `root`, over its children and theirs, `way` leads to a node. -/
inductive Reaches (root : Node) : Way → Node → Prop
  | here : Reaches root [] root
  | child {way : Way} {node : Node} {c : Child} (h : Reaches root way node)
    (hc : c ∈ node.children) : Reaches root ((node, c.1) :: way) c.2

def isLoop : Node → Bool
  | stmt (.forLoop ..) | stmt (.parFor ..) | stmt (.whileLoop ..) => true
  | _ => false

def isFunction : Node → Bool
  | function _ => true
  | _ => false

def isLambda : Node → Bool
  | expr (.lambda ..) => true
  | _ => false

end Node

def Relation.isArgument : Relation → Bool
  | argument | option | dimension | validator => true
  | _ => false

/-- The body of a lambda and a dynamic field are no index, whatever stands around them. -/
def leavesArguments : Node × Relation → Bool
  | (_, .field) => true
  | (node, .body) => node.isLambda
  | _ => false

def insideLoop (outside : Bool) (way : Way) : Bool :=
  (way.find? fun step => step.1.isLoop || step.1.isFunction).elim outside (·.1.isLoop)

/-- The nearest step above that enters or leaves an argument list enters one. -/
def insideArguments (outside : Bool) (way : Way) : Bool :=
  (way.find? fun step => step.2.isArgument || leavesArguments step).elim outside (·.2.isArgument)

section Way

variable {way : Way} {decides holds : Node × Relation → Bool}

theorem exists_deciding (h : (way.find? decides).elim false holds = true) :
    ∃ inner step outer, way = inner ++ step :: outer ∧ holds step = true ∧
      ∀ between ∈ inner, decides between = false := by
  cases hfind : way.find? decides with
  | none =>
    rw [hfind] at h
    cases h
  | some step =>
    rw [hfind] at h
    obtain ⟨-, inner, outer, hway, hinner⟩ := List.find?_eq_some_iff_append.1 hfind
    exact ⟨inner, step, outer, hway, h, fun between hbetween =>
      Bool.not_eq_eq_eq_not.1 (hinner between hbetween)⟩

theorem loop_of_insideLoop (h : insideLoop false way = true) :
    ∃ inner step outer, way = inner ++ step :: outer ∧ step.1.isLoop = true ∧
      ∀ between ∈ inner, between.1.isFunction = false := by
  obtain ⟨inner, step, outer, hway, hloop, hinner⟩ := exists_deciding h
  exact ⟨inner, step, outer, hway, hloop, fun between hbetween =>
    (Bool.or_eq_false_iff.1 (hinner between hbetween)).2⟩

theorem argument_of_insideArguments (h : insideArguments false way = true) :
    ∃ inner step outer, way = inner ++ step :: outer ∧ step.2.isArgument = true ∧
      ∀ between ∈ inner, leavesArguments between = false := by
  obtain ⟨inner, step, outer, hway, hargument, hinner⟩ := exists_deciding h
  exact ⟨inner, step, outer, hway, hargument, fun between hbetween =>
    (Bool.or_eq_false_iff.1 (hinner between hbetween)).2⟩

end Way

namespace Node

def fits (loop index : Bool) : Node → Bool
  | stmt (.breakLoop _) | stmt (.continueLoop _) => loop
  | stmt (.ifElse _ branches) =>
    branches.head?.any (·.head.isSome) && branches.dropLast.all (·.head.isSome)
  | expr (.last _) | expr (.reshape _) => index
  | definition c => c.blocks.all (·.kind != .arguments)
  | function f => f.validation.all (·.kind == .arguments)
  | block b => b.items.all b.kind.accepts
  | _ => true

/-- Everything below a node may stand where it stands. -/
def Placed (loop index : Bool) (root : Node) : Prop :=
  ∀ way node, root.Reaches way node →
    node.fits (insideLoop loop way) (insideArguments index way) = true

def loopBelow (outside : Bool) (node : Node) : Bool := node.isLoop || !node.isFunction && outside

def indexBelow (outside : Bool) (node : Node) (r : Relation) : Bool :=
  r.isArgument || !leavesArguments (node, r) && outside

variable {loop index : Bool} {root node : Node} {way : Way}

theorem Reaches.of_child {c : Child} (hc : c ∈ root.children) (h : c.2.Reaches way node) :
    root.Reaches (way ++ [(root, c.1)]) node := by
  induction h with
  | here => exact .child .here hc
  | child _ hd ih => exact .child ih hd

theorem Reaches.cases_first (h : root.Reaches way node) : (way = [] ∧ node = root) ∨
    ∃ c ∈ root.children, ∃ rest, c.2.Reaches rest node ∧ way = rest ++ [(root, c.1)] := by
  induction h with
  | here => exact .inl ⟨rfl, rfl⟩
  | @child way node c _ hc ih =>
    rcases ih with ⟨rfl, rfl⟩ | ⟨d, hd, rest, hrest, rfl⟩
    · exact .inr ⟨c, hc, [], .here, rfl⟩
    · exact .inr ⟨d, hd, (node, c.1) :: rest, .child hrest hc, rfl⟩

theorem insideLoop_append (r : Relation) :
    insideLoop loop (way ++ [(root, r)]) = insideLoop (root.loopBelow loop) way := by
  rw [insideLoop, List.find?_append, insideLoop]
  cases way.find? fun step => step.1.isLoop || step.1.isFunction with
  | some step => rfl
  | none => cases hloop : root.isLoop <;> cases hfunction : root.isFunction <;> simp [*, loopBelow]

theorem insideArguments_append (r : Relation) :
    insideArguments index (way ++ [(root, r)]) = insideArguments (root.indexBelow index r) way := by
  rw [insideArguments, List.find?_append, insideArguments]
  cases way.find? fun step => step.2.isArgument || leavesArguments step with
  | some step => rfl
  | none =>
    cases henters : r.isArgument <;> cases hleaves : leavesArguments (root, r) <;>
      simp [*, indexBelow]

theorem placed_iff : root.Placed loop index ↔ root.fits loop index = true ∧
    ∀ c ∈ root.children, c.2.Placed (root.loopBelow loop) (root.indexBelow index c.1) := by
  constructor
  · intro h
    refine ⟨h [] root .here, fun c hc way node hnode => ?_⟩
    rw [← insideLoop_append c.1, ← insideArguments_append]
    exact h _ node (hnode.of_child hc)
  · rintro ⟨hroot, hchildren⟩ way node hnode
    rcases hnode.cases_first with ⟨rfl, rfl⟩ | ⟨c, hc, rest, hrest, rfl⟩
    · exact hroot
    · rw [insideLoop_append, insideArguments_append]
      exact hchildren c hc rest node hrest

theorem indexBelow_congr {node' : Node} (h : node'.isLambda = node.isLambda) (r : Relation) :
    node'.indexBelow index r = node.indexBelow index r := by
  cases r <;> simp only [indexBelow, leavesArguments, h]

theorem Placed.more {node' : Node} (h : node.Placed loop index)
    (hfits : node'.fits loop index = true) (hloop : node'.loopBelow loop = node.loopBelow loop)
    (hlambda : node'.isLambda = node.isLambda) (hchildren : ∀ c ∈ node'.children,
      c ∈ node.children ∨ c.2.Placed (node'.loopBelow loop) (node'.indexBelow index c.1)) :
    node'.Placed loop index := by
  refine placed_iff.2 ⟨hfits, fun c hc => (hchildren c hc).elim (fun hold => ?_) fun hnew => hnew⟩
  rw [hloop, indexBelow_congr hlambda]
  exact (placed_iff.1 h).2 c hold

attribute [simp] fits loopBelow indexBelow isLoop isFunction isLambda leavesArguments
  Relation.isArgument

/-! ## Values -/

/-- Nodes below which only expressions and their parts stand. -/
def isValue : Node → Bool
  | expr _ | row _ | name _ | signature _ => true
  | _ => false

theorem isValue_children {c : Child} (h : node.isValue = true) (hc : c ∈ node.children) :
    c.2.isValue = true := by
  have hname : ∀ n : Name, ∀ c ∈ nameChildren n, c.2.isValue = true := by
    intro n
    cases n <;> simp [isValue]
  cases node with
  | name n => exact hname n c hc
  | row r | signature s => revert c; simp [isValue, or_imp, forall_and]
  | expr e =>
    cases e with
    | name n => exact hname n c hc
    | _ => revert c; simp [isValue, or_imp, forall_and]
  | _ => cases h

theorem Reaches.isValue (hroot : root.isValue = true) (h : root.Reaches way node) :
    node.isValue = true := by
  induction h with
  | here => exact hroot
  | child _ hc ih => exact isValue_children ih hc

/-- No statement stands below an expression, so no loop matters there. -/
theorem Placed.in_loop {loop' : Bool} (hroot : root.isValue = true) (h : root.Placed loop index) :
    root.Placed loop' index := by
  intro way node hnode
  have hfits := h way node hnode
  have hvalue := hnode.isValue hroot
  cases node with
  | expr e => cases e <;> exact hfits
  | row _ | name _ | signature _ => rfl
  | _ => cases hvalue

end Node

end MFile
