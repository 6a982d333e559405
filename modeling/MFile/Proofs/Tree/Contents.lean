import Mathlib.Algebra.BigOperators.Group.List.Basic
import Mathlib.Algebra.GroupWithZero.Nat
import MFile.Tree.Walk
import MFile.Proofs.Grammar.Soundness.Layout

/-!
What a tree says: its names, fields, attributes and literals, as a walk over its nodes finds them.
An `import` of several names is one command of a text and several statements of the tree, which
are numbered one after the other.
-/

namespace MFile

def WalkEvent.entered? : WalkEvent → Option Node
  | .enter _ node _ => some node
  | .leave .. => none

def Stmt.importId? : Stmt → Option Nat
  | .importNames site _ => some site.id
  | _ => none

def endsImport (s : Stmt) (next : Option Stmt) : Bool :=
  s.importId?.any fun id => next.bind (·.importId?) != some (id + 1)

def importCommands : List Stmt → Nat
  | [] => 0
  | s :: rest => (endsImport s rest.head?).toNat + importCommands rest

theorem importCommands_append {stmts more : List Stmt}
    (h : ∀ s ∈ stmts, ∀ i ∈ s.importId?, ∀ t ∈ more.head?, t.importId? ≠ some (i + 1)) :
    importCommands (stmts ++ more) = importCommands stmts + importCommands more := by
  induction stmts with
  | nil => rw [List.nil_append, importCommands, Nat.zero_add]
  | cons s rest ih =>
    obtain ⟨hs, hrest⟩ := List.forall_mem_cons.1 h
    rw [List.cons_append, importCommands, importCommands, ih hrest, Nat.add_assoc]
    congr 2
    cases rest with
    | cons t rest => rfl
    | nil =>
      rw [endsImport, endsImport]
      cases hid : s.importId? with
      | none => rfl
      | some i =>
        cases hmore : more.head? with
        | none => simp [hmore]
        | some t =>
          have hnext : (t.importId? != some (i + 1)) = true := bne_iff_ne.2 (hs i hid t hmore)
          simp only [List.nil_append, hmore, Option.any_some, Option.bind_some, hnext]
          rfl

def importWeight (x : Terminal) (ss : List Stmt) : Nat :=
  [Terminal.word "import"].count x * importCommands ss

theorem importWeight_nil (x : Terminal) : importWeight x [] = 0 := rfl

namespace Node

/-- The nodes of a tree, in the order in which a walk enters them. -/
def nodes (node : Node) : List Node := (node.walk none .root).filterMap WalkEvent.entered?

theorem nodes_eq (node : Node) : node.nodes = node :: node.children.flatMap (·.2.nodes) := by
  have hwalk : ∀ (node : Node) parent relation,
      (node.walk parent relation).filterMap WalkEvent.entered? =
        node :: node.children.flatMap fun c =>
          (c.2.walk (some node) c.1).filterMap WalkEvent.entered? := by
    intro node parent relation
    have henter : WalkEvent.entered? (.enter relation node parent) = some node := rfl
    have hleave : [WalkEvent.leave relation node parent].filterMap WalkEvent.entered? = [] := rfl
    rw [walk_eq, List.filterMap_cons_some henter, List.filterMap_append, List.filterMap_flatMap,
      hleave, List.append_nil]
  rw [nodes, hwalk]
  refine congrArg _ (congrArg (List.flatMap · node.children) (funext fun c => ?_))
  rw [nodes, hwalk, hwalk]

theorem mem_nodes_self (node : Node) : node ∈ node.nodes := by
  rw [nodes_eq]
  exact List.mem_cons_self

theorem mem_nodes_iff {node d : Node} :
    d ∈ node.nodes ↔ d = node ∨ ∃ c ∈ node.children, d ∈ c.2.nodes := by
  rw [nodes_eq, List.mem_cons, List.mem_flatMap]

theorem nodes_trans {node d e : Node} (h : d ∈ node.nodes) (he : e ∈ d.nodes) : e ∈ node.nodes := by
  rcases mem_nodes_iff.1 h with rfl | ⟨c, hc, hd⟩
  · exact he
  · exact mem_nodes_iff.2 (.inr ⟨c, hc, nodes_trans hd he⟩)
termination_by sizeOf node
decreasing_by exact sizeOf_lt_of_mem_children hc

def nameContents : Name → List Terminal
  | .identifier _ text => if text = "~" then [] else [.word text]
  | .selection _ _ field => [.word field]
  | _ => []

/-- What a node says itself. The placeholder `~` is no name. -/
def contents : Node → List Terminal
  | name n | expr (.name n) => nameContents n
  | expr (.number _ text) => [.number text]
  | expr (.charArray _ text) => [.charArray text]
  | expr (.string _ text) => [.string text]
  | attr a => [.word a.name]
  | stmt (.importNames _ chain) => [.charArray (".".intercalate chain)]
  | _ => []

/-- The lists of statements of a node. -/
def bodies : Node → List (List Stmt)
  | unit (.script _ body _) => [body]
  | function f => [f.body]
  | stmt (.forLoop _ _ _ body) | stmt (.parFor _ _ _ _ body) | stmt (.whileLoop _ _ body)
  | stmt (.spmd _ _ body) => [body]
  | stmt (.tryCatch _ body _ handler) => body :: handler.toList
  | action c | arm c => [c.body]
  | _ => []

def weight (x : Terminal) (node : Node) : Nat :=
  node.contents.count x + (node.bodies.map (importWeight x)).sum

def total {M : Type} [AddCommMonoid M] (g : Node → M) (node : Node) : M := (node.nodes.map g).sum

theorem total_eq {M : Type} [AddCommMonoid M] (g : Node → M) (node : Node) :
    node.total g = g node + (node.children.map fun c => c.2.total g).sum := by
  rw [total, nodes_eq, List.map_cons, List.sum_cons, List.map_flatMap, List.flatMap_def,
    List.sum_flatten, List.map_map]
  rfl

def tally (x : Terminal) (node : Node) : Nat := (node.nodes.map (weight x)).sum

variable {x : Terminal}

theorem tally_eq (node : Node) :
    node.tally x = node.weight x + (node.children.map fun c => c.2.tally x).sum :=
  total_eq (weight x) node

end Node

/-! ## Lists of nodes -/

section Lists

variable {α : Type} {x : Terminal} {node : α → Node}

def tallies (x : Terminal) (node : α → Node) (as : List α) : Nat :=
  (as.map fun a => (node a).tally x).sum

@[simp] theorem tallies_nil : tallies x node [] = 0 := rfl

@[simp] theorem tallies_cons (a : α) (as : List α) :
    tallies x node (a :: as) = (node a).tally x + tallies x node as := by
  rw [tallies, List.map_cons, List.sum_cons, tallies]

@[simp] theorem tallies_append (as as' : List α) :
    tallies x node (as ++ as') = tallies x node as + tallies x node as' := by
  rw [tallies, List.map_append, List.sum_append, tallies, tallies]

@[simp] theorem sum_children (r : Relation) (as : List α) :
    (as.map ((fun c : Node.Child => c.2.tally x) ∘ fun a => (r, node a))).sum =
      tallies x node as :=
  rfl

def tallyBody (x : Terminal) (ss : List Stmt) : Nat := tallies x .stmt ss + importWeight x ss

end Lists

/-! ## Nodes -/

attribute [simp] Node.weight Node.contents Node.nameContents Node.bodies

namespace Node

variable {x : Terminal} {site : Site} {e e' : Expr} {n n' : Name} {es : List Expr}
  {ns : List Name} {body : List Stmt} {text : String}

@[simp] theorem tally_identifier :
    (name (.identifier site text)).tally x =
      if text = "~" then 0 else [Terminal.word text].count x := by
  rw [tally_eq]
  split <;> simp [*]

@[simp] theorem tally_reference :
    (name (.reference site n es)).tally x = (name n).tally x + tallies x .expr es := by
  rw [tally_eq]
  simp

@[simp] theorem tally_cellReference :
    (name (.cellReference site n es)).tally x = (name n).tally x + tallies x .expr es := by
  rw [tally_eq]
  simp

@[simp] theorem tally_selection :
    (name (.selection site n text)).tally x = (name n).tally x + [Terminal.word text].count x := by
  rw [tally_eq]
  simp
  omega

@[simp] theorem tally_dynamicSelection :
    (name (.dynamicSelection site n e)).tally x = (name n).tally x + (expr e).tally x := by
  rw [tally_eq]
  simp

@[simp] theorem tally_superclass :
    (name (.superclass site n n')).tally x = (name n).tally x + (name n').tally x := by
  rw [tally_eq]
  simp

@[simp] theorem tally_name : (expr (.name n)).tally x = (name n).tally x := by
  rw [tally_eq, tally_eq]
  rfl

@[simp] theorem tally_number :
    (expr (.number site text)).tally x = [Terminal.number text].count x := by
  rw [tally_eq]
  simp

@[simp] theorem tally_charArray :
    (expr (.charArray site text)).tally x = [Terminal.charArray text].count x := by
  rw [tally_eq]
  simp

@[simp] theorem tally_string :
    (expr (.string site text)).tally x = [Terminal.string text].count x := by
  rw [tally_eq]
  simp

@[simp] theorem tally_unary {op : UnaryOp} :
    (expr (.unary site op e)).tally x = (expr e).tally x := by
  rw [tally_eq]
  simp

@[simp] theorem tally_binary {op : BinaryOp} :
    (expr (.binary site op e e')).tally x = (expr e).tally x + (expr e').tally x := by
  rw [tally_eq]
  simp

@[simp] theorem tally_range {stride : Option Expr} :
    (expr (.range site e stride e')).tally x =
      (expr e).tally x + tallies x .expr stride.toList + (expr e').tally x := by
  rw [tally_eq]
  simp
  omega

@[simp] theorem tally_reshape :
    (expr (.reshape site)).tally x = 0 := by
  rw [tally_eq]
  simp

@[simp] theorem tally_last :
    (expr (.last site)).tally x = 0 := by
  rw [tally_eq]
  simp

@[simp] theorem tally_matrix {rs : List Row} :
    (expr (.matrix site rs)).tally x = tallies x .row rs := by
  rw [tally_eq]
  simp

@[simp] theorem tally_cell {rs : List Row} :
    (expr (.cell site rs)).tally x = tallies x .row rs := by
  rw [tally_eq]
  simp

@[simp] theorem tally_lambda :
    (expr (.lambda site ns e)).tally x = tallies x .name ns + (expr e).tally x := by
  rw [tally_eq]
  simp

@[simp] theorem tally_functionHandle :
    (expr (.functionHandle site n)).tally x = (name n).tally x := by
  rw [tally_eq]
  simp

@[simp] theorem tally_metaclass :
    (expr (.metaclass site n)).tally x = (name n).tally x := by
  rw [tally_eq]
  simp

@[simp] theorem tally_row (r : Row) : (row r).tally x = tallies x .expr r.items := by
  rw [tally_eq]
  simp

@[simp] theorem tally_assign :
    (stmt (.assign site n e)).tally x = (name n).tally x + (expr e).tally x := by
  rw [tally_eq]
  simp

@[simp] theorem tally_multiAssign :
    (stmt (.multiAssign site ns e)).tally x = tallies x .name ns + (expr e).tally x := by
  rw [tally_eq]
  simp

@[simp] theorem tally_ifElse {cs : List Clause} :
    (stmt (.ifElse site cs)).tally x = tallies x .action cs := by
  rw [tally_eq]
  simp

@[simp] theorem tally_switch {cs : List Clause} :
    (stmt (.switch site e cs)).tally x = (expr e).tally x + tallies x .arm cs := by
  rw [tally_eq]
  simp

@[simp] theorem tally_forLoop :
    (stmt (.forLoop site n e body)).tally x =
      (name n).tally x + (expr e).tally x + tallyBody x body := by
  rw [tally_eq]
  simp [tallyBody]
  omega

@[simp] theorem tally_parFor {workers : Option Expr} :
    (stmt (.parFor site n e workers body)).tally x =
      (name n).tally x + (expr e).tally x + tallies x .expr workers.toList + tallyBody x body := by
  rw [tally_eq]
  simp [tallyBody]
  omega

@[simp] theorem tally_whileLoop :
    (stmt (.whileLoop site e body)).tally x = (expr e).tally x + tallyBody x body := by
  rw [tally_eq]
  simp [tallyBody]
  omega

@[simp] theorem tally_tryCatch {var : Option Name} {handler : Option (List Stmt)} :
    (stmt (.tryCatch site body var handler)).tally x =
      tallyBody x body + tallies x .name var.toList + tallyBody x (handler.getD []) := by
  rw [tally_eq]
  cases handler <;>
    simp [tallyBody, importWeight_nil]
  all_goals omega

@[simp] theorem tally_spmd :
    (stmt (.spmd site es body)).tally x = tallies x .expr es + tallyBody x body := by
  rw [tally_eq]
  simp [tallyBody]
  omega

@[simp] theorem tally_global :
    (stmt (.global site ns)).tally x = tallies x .name ns := by
  rw [tally_eq]
  simp

@[simp] theorem tally_persistent :
    (stmt (.persistent site ns)).tally x = tallies x .name ns := by
  rw [tally_eq]
  simp

@[simp] theorem tally_importNames {chain : List String} :
    (stmt (.importNames site chain)).tally x =
      [Terminal.charArray (".".intercalate chain)].count x := by
  rw [tally_eq]
  simp

@[simp] theorem tally_naked :
    (stmt (.naked site e)).tally x = (expr e).tally x := by
  rw [tally_eq]
  simp

@[simp] theorem tally_breakLoop :
    (stmt (.breakLoop site)).tally x = 0 := by
  rw [tally_eq]
  simp

@[simp] theorem tally_continueLoop :
    (stmt (.continueLoop site)).tally x = 0 := by
  rw [tally_eq]
  simp

@[simp] theorem tally_returnCall :
    (stmt (.returnCall site)).tally x = 0 := by
  rw [tally_eq]
  simp

@[simp] theorem tally_shell :
    (stmt (.shell site text)).tally x = 0 := by
  rw [tally_eq]
  simp

@[simp] theorem tally_action (c : Clause) :
    (action c).tally x = tallies x .expr c.head.toList + tallyBody x c.body := by
  rw [tally_eq]
  simp [tallyBody]
  omega

@[simp] theorem tally_arm (c : Clause) :
    (arm c).tally x = tallies x .expr c.head.toList + tallyBody x c.body := by
  rw [tally_eq]
  simp [tallyBody]
  omega

@[simp] theorem tally_attr (a : Attribute) :
    (attr a).tally x = [Terminal.word a.name].count x + tallies x .expr a.value.toList := by
  rw [tally_eq]
  simp

@[simp] theorem tally_property (p : Property) :
    (property p).tally x =
      (name p.name).tally x + tallies x .expr p.dimensions + tallies x .name p.className.toList +
        tallies x .expr p.validators + tallies x .expr p.default.toList := by
  rw [tally_eq]
  simp
  omega

@[simp] theorem tally_event (e : EventDecl) : (event e).tally x = (name e.name).tally x := by
  rw [tally_eq]
  simp

@[simp] theorem tally_enumerator (e : Enumerator) :
    (enumerator e).tally x = (name e.name).tally x + tallies x .expr e.args := by
  rw [tally_eq]
  simp

@[simp] theorem tally_signature (s : Signature) :
    (signature s).tally x =
      tallies x .name s.outputs + (name s.name).tally x + tallies x .name s.inputs := by
  rw [tally_eq]
  simp
  omega

@[simp] theorem tally_block (b : Block) :
    (block b).tally x =
      tallies x .attr b.attributes + tallies x (fun i => (ofItem i).2) b.items := by
  rw [tally_eq]
  simp
  rfl

@[simp] theorem tally_function (f : FunctionDef) :
    (function f).tally x =
      (signature f.signature).tally x + tallies x .block f.validation + tallyBody x f.body +
        tallies x .function f.nested := by
  rw [tally_eq]
  simp [tallyBody]
  omega

@[simp] theorem tally_definition (c : ClassDef) :
    (definition c).tally x =
      (name c.name).tally x + tallies x .attr c.attributes + tallies x .name c.superclasses +
        tallies x .block c.blocks := by
  rw [tally_eq]
  simp
  omega

@[simp] theorem tally_script {fs : List FunctionDef} :
    (unit (.script site body fs)).tally x = tallyBody x body + tallies x .function fs := by
  rw [tally_eq]
  simp [tallyBody]
  omega

@[simp] theorem tally_functionFile {fs : List FunctionDef} :
    (unit (.functionFile site fs)).tally x = tallies x .function fs := by
  rw [tally_eq]
  simp

@[simp] theorem tally_classFile {c : ClassDef} {fs : List FunctionDef} :
    (unit (.classFile site c fs)).tally x = (definition c).tally x + tallies x .function fs := by
  rw [tally_eq]
  simp

end Node

end MFile
