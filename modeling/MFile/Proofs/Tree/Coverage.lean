import Mathlib.Data.List.Nodup
import Mathlib.Data.List.Perm.Basic
import MFile.Tree.Walk

/-!
What a walk comes across. `Holds` says which nodes stand in the fields of a node, field by field and
without the table of children; an address leads from field to field. A walk enters one node for each
address of the tree and none else. Its events are a run of the nodes that are open: each one has
entered the nodes below it in the order of its children, and is left after the last of them.
-/

namespace MFile

namespace Node

/-- A field of the first node holds the second one, at the index `i` of the field if that is a list.
What the field says about it is the relation. -/
inductive Holds : Node → Relation → Nat → Node → Prop
  | statement {s : Site} {body : List Stmt} {fs : List FunctionDef} {i : Nat} {a : Stmt}
    (h : body[i]? = some a) : Holds (unit (.script s body fs)) .statement i (stmt a)
  | localFunction {u : FileUnit} {i : Nat} {f : FunctionDef} (h : u.functions[i]? = some f) :
    Holds (unit u) .function i (function f)
  | definition {s : Site} {c : ClassDef} {fs : List FunctionDef} :
    Holds (unit (.classFile s c fs)) .definition 0 (definition c)
  | functionSignature {f : FunctionDef} : Holds (function f) .signature 0 (signature f.signature)
  | validation {f : FunctionDef} {i : Nat} {b : Block} (h : f.validation[i]? = some b) :
    Holds (function f) .validation i (block b)
  | functionBody {f : FunctionDef} {i : Nat} {a : Stmt} (h : f.body[i]? = some a) :
    Holds (function f) .body i (stmt a)
  | nested {f g : FunctionDef} {i : Nat} (h : f.nested[i]? = some g) :
    Holds (function f) .nested i (function g)
  | signatureName {s : Signature} : Holds (signature s) .name 0 (name s.name)
  | input {s : Signature} {i : Nat} {n : Name} (h : s.inputs[i]? = some n) :
    Holds (signature s) .input i (name n)
  | output {s : Signature} {i : Nat} {n : Name} (h : s.outputs[i]? = some n) :
    Holds (signature s) .output i (name n)
  | className {c : ClassDef} : Holds (Node.definition c) .name 0 (name c.name)
  | classAttribute {c : ClassDef} {i : Nat} {a : Attribute} (h : c.attributes[i]? = some a) :
    Holds (Node.definition c) .attr i (attr a)
  | superclass {c : ClassDef} {i : Nat} {n : Name} (h : c.superclasses[i]? = some n) :
    Holds (Node.definition c) .superclass i (name n)
  | classBlock {c : ClassDef} {i : Nat} {b : Block} (h : c.blocks[i]? = some b) :
    Holds (Node.definition c) .block i (block b)
  | blockAttribute {b : Block} {i : Nat} {a : Attribute} (h : b.attributes[i]? = some a) :
    Holds (block b) .attr i (attr a)
  | propertyItem {b : Block} {i : Nat} {p : Property} (h : b.items[i]? = some (.property p)) :
    Holds (block b) .property i (property p)
  | methodItem {b : Block} {i : Nat} {f : FunctionDef} (h : b.items[i]? = some (.method f)) :
    Holds (block b) .method i (function f)
  | signatureItem {b : Block} {i : Nat} {s : Signature} (h : b.items[i]? = some (.signature s)) :
    Holds (block b) .declaration i (signature s)
  | eventItem {b : Block} {i : Nat} {e : EventDecl} (h : b.items[i]? = some (.event e)) :
    Holds (block b) .event i (event e)
  | enumeratorItem {b : Block} {i : Nat} {e : Enumerator}
    (h : b.items[i]? = some (.enumerator e)) : Holds (block b) .item i (enumerator e)
  | attributeValue {a : Attribute} {e : Expr} (h : a.value = some e) :
    Holds (attr a) .value 0 (expr e)
  | propertyName {p : Property} : Holds (property p) .name 0 (name p.name)
  | dimension {p : Property} {i : Nat} {e : Expr} (h : p.dimensions[i]? = some e) :
    Holds (property p) .dimension i (expr e)
  | propertyClass {p : Property} {n : Name} (h : p.className = some n) :
    Holds (property p) .className 0 (name n)
  | validator {p : Property} {i : Nat} {e : Expr} (h : p.validators[i]? = some e) :
    Holds (property p) .validator i (expr e)
  | default {p : Property} {e : Expr} (h : p.default = some e) :
    Holds (property p) .default 0 (expr e)
  | eventName {e : EventDecl} : Holds (event e) .name 0 (name e.name)
  | enumeratorName {e : Enumerator} : Holds (enumerator e) .name 0 (name e.name)
  | enumeratorArgument {e : Enumerator} {i : Nat} {a : Expr} (h : e.args[i]? = some a) :
    Holds (enumerator e) .argument i (expr a)
  | assignLeft {s : Site} {n : Name} {e : Expr} : Holds (stmt (.assign s n e)) .lhs 0 (name n)
  | assignRight {s : Site} {n : Name} {e : Expr} : Holds (stmt (.assign s n e)) .rhs 0 (expr e)
  | multiAssignLeft {s : Site} {ns : List Name} {e : Expr} {i : Nat} {n : Name}
    (h : ns[i]? = some n) : Holds (stmt (.multiAssign s ns e)) .lhs i (name n)
  | multiAssignRight {s : Site} {ns : List Name} {e : Expr} :
    Holds (stmt (.multiAssign s ns e)) .rhs 0 (expr e)
  | branch {s : Site} {cs : List Clause} {i : Nat} {c : Clause} (h : cs[i]? = some c) :
    Holds (stmt (.ifElse s cs)) .action i (action c)
  | subject {s : Site} {e : Expr} {cs : List Clause} :
    Holds (stmt (.switch s e cs)) .subject 0 (expr e)
  | switchArm {s : Site} {e : Expr} {cs : List Clause} {i : Nat} {c : Clause}
    (h : cs[i]? = some c) : Holds (stmt (.switch s e cs)) .arm i (arm c)
  | forVariable {s : Site} {n : Name} {e : Expr} {body : List Stmt} :
    Holds (stmt (.forLoop s n e body)) .loopVar 0 (name n)
  | forRange {s : Site} {n : Name} {e : Expr} {body : List Stmt} :
    Holds (stmt (.forLoop s n e body)) .range 0 (expr e)
  | forBody {s : Site} {n : Name} {e : Expr} {body : List Stmt} {i : Nat} {a : Stmt}
    (h : body[i]? = some a) : Holds (stmt (.forLoop s n e body)) .body i (stmt a)
  | parForVariable {s : Site} {n : Name} {e : Expr} {w : Option Expr} {body : List Stmt} :
    Holds (stmt (.parFor s n e w body)) .loopVar 0 (name n)
  | parForRange {s : Site} {n : Name} {e : Expr} {w : Option Expr} {body : List Stmt} :
    Holds (stmt (.parFor s n e w body)) .range 0 (expr e)
  | workers {s : Site} {n : Name} {e w : Expr} {body : List Stmt} :
    Holds (stmt (.parFor s n e (some w) body)) .workers 0 (expr w)
  | parForBody {s : Site} {n : Name} {e : Expr} {w : Option Expr} {body : List Stmt} {i : Nat}
    {a : Stmt} (h : body[i]? = some a) : Holds (stmt (.parFor s n e w body)) .body i (stmt a)
  | whileGuard {s : Site} {e : Expr} {body : List Stmt} :
    Holds (stmt (.whileLoop s e body)) .guard 0 (expr e)
  | whileBody {s : Site} {e : Expr} {body : List Stmt} {i : Nat} {a : Stmt}
    (h : body[i]? = some a) : Holds (stmt (.whileLoop s e body)) .body i (stmt a)
  | tryBody {s : Site} {body : List Stmt} {n : Option Name} {handler : Option (List Stmt)} {i : Nat}
    {a : Stmt} (h : body[i]? = some a) :
    Holds (stmt (.tryCatch s body n handler)) .body i (stmt a)
  | catchVariable {s : Site} {body : List Stmt} {n : Name} {handler : Option (List Stmt)} :
    Holds (stmt (.tryCatch s body (some n) handler)) .identifier 0 (name n)
  | handler {s : Site} {body handler : List Stmt} {n : Option Name} {i : Nat} {a : Stmt}
    (h : handler[i]? = some a) :
    Holds (stmt (.tryCatch s body n (some handler))) .handler i (stmt a)
  | option {s : Site} {es : List Expr} {body : List Stmt} {i : Nat} {e : Expr}
    (h : es[i]? = some e) : Holds (stmt (.spmd s es body)) .option i (expr e)
  | spmdBody {s : Site} {es : List Expr} {body : List Stmt} {i : Nat} {a : Stmt}
    (h : body[i]? = some a) : Holds (stmt (.spmd s es body)) .body i (stmt a)
  | globalName {s : Site} {ns : List Name} {i : Nat} {n : Name} (h : ns[i]? = some n) :
    Holds (stmt (.global s ns)) .name i (name n)
  | persistentName {s : Site} {ns : List Name} {i : Nat} {n : Name} (h : ns[i]? = some n) :
    Holds (stmt (.persistent s ns)) .name i (name n)
  | expression {s : Site} {e : Expr} : Holds (stmt (.naked s e)) .expression 0 (expr e)
  | actionGuard {c : Clause} {e : Expr} (h : c.head = some e) : Holds (action c) .guard 0 (expr e)
  | actionBody {c : Clause} {i : Nat} {a : Stmt} (h : c.body[i]? = some a) :
    Holds (action c) .body i (stmt a)
  | armValue {c : Clause} {e : Expr} (h : c.head = some e) : Holds (arm c) .value 0 (expr e)
  | armBody {c : Clause} {i : Nat} {a : Stmt} (h : c.body[i]? = some a) :
    Holds (arm c) .body i (stmt a)
  /-- An expression that is a name holds what the name holds. -/
  | ofName {n : Name} {r : Relation} {i : Nat} {c : Node} (h : Holds (name n) r i c) :
    Holds (expr (.name n)) r i c
  | operand {s : Site} {op : UnaryOp} {e : Expr} :
    Holds (expr (.unary s op e)) .operand 0 (expr e)
  | binaryLeft {s : Site} {op : BinaryOp} {e e' : Expr} :
    Holds (expr (.binary s op e e')) .lhs 0 (expr e)
  | binaryRight {s : Site} {op : BinaryOp} {e e' : Expr} :
    Holds (expr (.binary s op e e')) .rhs 0 (expr e')
  | first {s : Site} {e e' : Expr} {stride : Option Expr} :
    Holds (expr (.range s e stride e')) .first 0 (expr e)
  | stride {s : Site} {e e' stride : Expr} :
    Holds (expr (.range s e (some stride) e')) .stride 0 (expr stride)
  | stop {s : Site} {e e' : Expr} {stride : Option Expr} :
    Holds (expr (.range s e stride e')) .stop 0 (expr e')
  | matrixRow {s : Site} {rs : List Row} {i : Nat} {r : Row} (h : rs[i]? = some r) :
    Holds (expr (.matrix s rs)) .row i (row r)
  | cellRow {s : Site} {rs : List Row} {i : Nat} {r : Row} (h : rs[i]? = some r) :
    Holds (expr (.cell s rs)) .row i (row r)
  | element {r : Row} {i : Nat} {e : Expr} (h : r.items[i]? = some e) :
    Holds (row r) .element i (expr e)
  | parameter {s : Site} {ns : List Name} {e : Expr} {i : Nat} {n : Name} (h : ns[i]? = some n) :
    Holds (expr (.lambda s ns e)) .parameter i (name n)
  | lambdaBody {s : Site} {ns : List Name} {e : Expr} :
    Holds (expr (.lambda s ns e)) .body 0 (expr e)
  | handleTarget {s : Site} {n : Name} : Holds (expr (.functionHandle s n)) .function 0 (name n)
  | metaclassName {s : Site} {n : Name} : Holds (expr (.metaclass s n)) .className 0 (name n)
  | referenceBase {s : Site} {n : Name} {es : List Expr} :
    Holds (name (.reference s n es)) .base 0 (name n)
  | referenceArgument {s : Site} {n : Name} {es : List Expr} {i : Nat} {e : Expr}
    (h : es[i]? = some e) : Holds (name (.reference s n es)) .argument i (expr e)
  | cellBase {s : Site} {n : Name} {es : List Expr} :
    Holds (name (.cellReference s n es)) .base 0 (name n)
  | cellArgument {s : Site} {n : Name} {es : List Expr} {i : Nat} {e : Expr}
    (h : es[i]? = some e) : Holds (name (.cellReference s n es)) .argument i (expr e)
  | selectionBase {s : Site} {n : Name} {text : String} :
    Holds (name (.selection s n text)) .base 0 (name n)
  | dynamicBase {s : Site} {n : Name} {e : Expr} :
    Holds (name (.dynamicSelection s n e)) .base 0 (name n)
  | dynamicField {s : Site} {n : Name} {e : Expr} :
    Holds (name (.dynamicSelection s n e)) .field 0 (expr e)
  | superclassMethod {s : Site} {n n' : Name} : Holds (name (.superclass s n n')) .method 0 (name n)
  | superclassParent {s : Site} {n n' : Name} :
    Holds (name (.superclass s n n')) .superclass 0 (name n')

/-! ## Fields

What `Holds` says one field at a time, as lists: what a node holds, field by field. The fields one
after the other are the children. -/

def nameFields : Name → List (List Child)
  | .identifier .. => []
  | .reference _ base args | .cellReference _ base args =>
    [[(.base, name base)], exprs .argument args]
  | .selection _ base _ => [[(.base, name base)]]
  | .dynamicSelection _ base field => [[(.base, name base)], [(.field, expr field)]]
  | .superclass _ method parent => [[(.method, name method)], [(.superclass, name parent)]]

def exprFields : Expr → List (List Child)
  | .name n => nameFields n
  | .unary _ _ operand => [[(.operand, expr operand)]]
  | .binary _ _ lhs rhs => [[(.lhs, expr lhs)], [(.rhs, expr rhs)]]
  | .range _ start stride stop =>
    [[(.first, expr start)], optExpr .stride stride, [(.stop, expr stop)]]
  | .matrix _ rs | .cell _ rs => [rows rs]
  | .lambda _ params body => [names .parameter params, [(.body, expr body)]]
  | .functionHandle _ n => [[(.function, name n)]]
  | .metaclass _ n => [[(.className, name n)]]
  | .number .. | .charArray .. | .string .. | .reshape _ | .last _ => []

def stmtFields : Stmt → List (List Child)
  | .assign _ lhs rhs => [[(.lhs, name lhs)], [(.rhs, expr rhs)]]
  | .multiAssign _ lhs rhs => [names .lhs lhs, [(.rhs, expr rhs)]]
  | .ifElse _ branches => [branches.map fun c => (.action, action c)]
  | .switch _ subject arms => [[(.subject, expr subject)], arms.map fun c => (.arm, arm c)]
  | .forLoop _ var range body =>
    [[(.loopVar, name var)], [(.range, expr range)], stmts .body body]
  | .parFor _ var range workers body =>
    [[(.loopVar, name var)], [(.range, expr range)], optExpr .workers workers, stmts .body body]
  | .whileLoop _ guard body => [[(.guard, expr guard)], stmts .body body]
  | .tryCatch _ body catchVar handler =>
    [stmts .body body, names .identifier catchVar.toList, stmts .handler (handler.getD [])]
  | .spmd _ options body => [exprs .option options, stmts .body body]
  | .global _ ns | .persistent _ ns => [names .name ns]
  | .naked _ e => [[(.expression, expr e)]]
  | .importNames .. | .breakLoop _ | .continueLoop _ | .returnCall _ | .shell .. => []

def unitFields : FileUnit → List (List Child)
  | .script _ body fs => [stmts .statement body, functions .function fs]
  | .functionFile _ fs => [functions .function fs]
  | .classFile _ c fs => [[(.definition, definition c)], functions .function fs]

def fields : Node → List (List Child)
  | unit u => unitFields u
  | function f =>
    [[(.signature, signature f.signature)], blocks .validation f.validation, stmts .body f.body,
      functions .nested f.nested]
  | signature s => [names .output s.outputs, [(.name, name s.name)], names .input s.inputs]
  | definition c =>
    [[(.name, name c.name)], attrs c.attributes, names .superclass c.superclasses,
      blocks .block c.blocks]
  | block b => [attrs b.attributes, b.items.map ofItem]
  | attr a => [optExpr .value a.value]
  | property p =>
    [[(.name, name p.name)], exprs .dimension p.dimensions, names .className p.className.toList,
      exprs .validator p.validators, optExpr .default p.default]
  | event e => [[(.name, name e.name)]]
  | enumerator e => [[(.name, name e.name)], exprs .argument e.args]
  | stmt s => stmtFields s
  | action c => [optExpr .guard c.head, stmts .body c.body]
  | arm c => [optExpr .value c.head, stmts .body c.body]
  | expr e => exprFields e
  | row r => [exprs .element r.items]
  | name n => nameFields n

attribute [simp] fields nameFields exprFields stmtFields unitFields

section Fields

variable {node c : Node} {r : Relation} {i : Nat}

theorem flatten_nameFields (n : Name) : (nameFields n).flatten = nameChildren n := by
  cases n <;> simp

theorem flatten_exprFields (e : Expr) : (exprFields e).flatten = exprChildren e := by
  cases e with
  | name n => exact flatten_nameFields n
  | _ => simp

theorem flatten_fields (node : Node) : node.fields.flatten = node.children := by
  cases node with
  | unit u => cases u <;> simp
  | stmt s => cases s <;> simp
  | expr e => exact flatten_exprFields e
  | name n => exact flatten_nameFields n
  | _ => simp

def Apart (f g : List Child) : Prop := ∀ c ∈ f, ∀ d ∈ g, c.1 ≠ d.1

theorem attr_ne_ofItem (item : BlockItem) : Relation.attr ≠ (ofItem item).1 := by
  cases item <;> simp [ofItem]

theorem apart_fields (node : Node) : node.fields.Pairwise Apart := by
  unfold fields unitFields stmtFields exprFields nameFields
  repeat' split
  all_goals
    simp only [Apart, names, exprs, optExpr, stmts, functions, blocks, attrs, rows,
      List.pairwise_cons, List.Pairwise.nil, List.forall_mem_cons, List.not_mem_nil,
      List.forall_mem_map, attr_ne_ofItem, ne_eq, reduceCtorEq, not_false_eq_true, false_implies,
      implies_true, and_true]

theorem Holds.mem_fields (h : node.Holds r i c) : ∃ f ∈ node.fields, f[i]? = some (r, c) := by
  induction h with
  | ofName _ ih => exact ih
  | @localFunction u i f h =>
    have hlast : functions .function u.functions ∈ unitFields u := by
      cases u <;> simp [FileUnit.functions, -functions]
    exact ⟨_, hlast, by simp [h]⟩
  | _ =>
    simp only [fields, unitFields, stmtFields, exprFields, nameFields, names, exprs, optExpr,
      stmts, functions, blocks, attrs, rows, ofItem, List.mem_cons, exists_eq_or_imp,
      List.getElem?_map, List.getElem?_cons_zero, Option.map_some, Option.toList_some,
      Option.getD_some, List.map_cons, *, true_or, or_true]

section Entries

variable {α : Type} {a b : α}

theorem getElem?_single : [a][i]? = some b ↔ i = 0 ∧ a = b := by
  simp [List.getElem?_singleton]

theorem getElem?_toList {o : Option α} : o.toList[i]? = some a ↔ i = 0 ∧ o = some a := by
  cases o <;> simp [getElem?_single]

theorem getElem?_getD {o : Option (List α)} :
    (o.getD [])[i]? = some a ↔ ∃ as, o = some as ∧ as[i]? = some a := by
  cases o <;> simp

end Entries

theorem holds_ofItem {b : Block} {item : BlockItem} (h : b.items[i]? = some item) :
    (block b).Holds (ofItem item).1 i (ofItem item).2 := by
  cases item <;> (constructor; exact h)

theorem holds_of_mem_fields (h : ∃ f ∈ node.fields, f[i]? = some (r, c)) : node.Holds r i c := by
  unfold fields unitFields stmtFields exprFields nameFields at h
  repeat' split at h
  all_goals
    simp only [names, exprs, optExpr, stmts, functions, blocks, attrs, rows, List.mem_cons,
      List.not_mem_nil, or_false, exists_eq_or_imp, exists_eq_left, getElem?_single,
      getElem?_toList, getElem?_getD, List.getElem?_map, Option.map_eq_some_iff, Prod.mk.injEq,
      false_and, exists_false] at h
  all_goals grind [Holds, holds_ofItem, FileUnit.functions]

theorem holds_iff : node.Holds r i c ↔ ∃ f ∈ node.fields, f[i]? = some (r, c) :=
  ⟨Holds.mem_fields, holds_of_mem_fields⟩

end Fields

/-! ## What a node holds, in the order of its children -/

abbrev Held := (Relation × Nat) × Node

def heldIn (f : List Child) : List Held := f.zipIdx.map fun (c, i) => ((c.1, i), c.2)

def held (node : Node) : List Held := node.fields.flatMap heldIn

section Held

variable {node c : Node} {r : Relation} {i : Nat}

theorem mem_heldIn {f : List Child} : ((r, i), c) ∈ heldIn f ↔ f[i]? = some (r, c) := by
  simp only [heldIn, List.mem_map, Prod.exists, List.mem_zipIdx_iff_getElem?]
  constructor
  · rintro ⟨_, _, _, h, he⟩
    cases he
    exact h
  · exact fun h => ⟨r, c, i, h, rfl⟩

theorem mem_held : ((r, i), c) ∈ node.held ↔ node.Holds r i c := by
  simp only [held, List.mem_flatMap, mem_heldIn, holds_iff]

theorem map_heldIn (f : List Child) : (heldIn f).map (fun h => (h.1.1, h.2)) = f := by
  rw [heldIn, List.map_map]
  exact List.zipIdx_map_fst 0 f

theorem map_held (node : Node) : node.held.map (fun h => (h.1.1, h.2)) = node.children := by
  rw [held, List.map_flatMap, funext map_heldIn, List.flatMap_id', flatten_fields]

theorem nodup_held (node : Node) : (node.held.map (·.1)).Nodup := by
  rw [held, List.map_flatMap, List.nodup_flatMap]
  constructor
  · intro f _
    refine List.Nodup.of_map Prod.snd ?_
    rw [heldIn, List.map_map, List.map_map]
    exact List.zipIdx_map_snd 0 f ▸ List.nodup_range'
  · refine node.apart_fields.imp fun {f g} hfg => ?_
    refine List.disjoint_left.2 fun slot hf hg => ?_
    obtain ⟨⟨⟨r, i⟩, c⟩, hc, rfl⟩ := List.mem_map.1 hf
    obtain ⟨⟨_, d⟩, hd, rfl⟩ := List.mem_map.1 hg
    exact hfg _ (List.mem_of_getElem? (mem_heldIn.1 hc)) _
      (List.mem_of_getElem? (mem_heldIn.1 hd)) rfl

end Held

end Node

/-! ## Addresses -/

/-- A node of a tree where it stands: the fields that lead to it with their indexes, the last one
first, the relation to its parent, and the parent. -/
structure Occurrence where
  address : List (Relation × Nat)
  relation : Relation
  node : Node
  parent : Option Node

namespace Occurrence

def child (o : Occurrence) (r : Relation) (i : Nat) (c : Node) : Occurrence :=
  ⟨(r, i) :: o.address, r, c, some o.node⟩

inductive Leads (o : Occurrence) : Occurrence → Prop
  | here : Leads o o
  | field {q : Occurrence} {r : Relation} {i : Nat} {c : Node} (h : Leads o q)
    (hc : q.node.Holds r i c) : Leads o (q.child r i c)

def entering (o : Occurrence) : WalkEvent := .enter o.relation o.node o.parent

def leaving (o : Occurrence) : WalkEvent := .leave o.relation o.node o.parent

variable {o q : Occurrence} {r : Relation} {i : Nat} {c : Node}

theorem Leads.of_child (hc : o.node.Holds r i c) (h : (o.child r i c).Leads q) : o.Leads q := by
  induction h with
  | here => exact .field .here hc
  | field _ hd ih => exact .field ih hd

theorem leads_iff : o.Leads q ↔
    q = o ∨ ∃ r i c, o.node.Holds r i c ∧ (o.child r i c).Leads q := by
  constructor
  · intro h
    induction h with
    | here => exact .inl rfl
    | field _ hc ih =>
      rcases ih with rfl | ⟨r, i, d, hd, hq⟩
      · exact .inr ⟨_, _, _, hc, .here⟩
      · exact .inr ⟨r, i, d, hd, .field hq hc⟩
  · rintro (rfl | ⟨r, i, c, hc, h⟩)
    · exact .here
    · exact .of_child hc h

theorem Leads.address (h : o.Leads q) : ∃ way, q.address = way ++ o.address := by
  induction h with
  | here => exact ⟨[], rfl⟩
  | @field q r i c _ _ ih =>
    obtain ⟨way, hway⟩ := ih
    exact ⟨(r, i) :: way, by rw [child, hway, List.cons_append]⟩

theorem Leads.disjoint {o' q' : Occurrence} (h : o.Leads q) (h' : o'.Leads q')
    (haddress : o.address.length = o'.address.length) (hne : o.address ≠ o'.address) :
    q.address ≠ q'.address := by
  obtain ⟨way, hway⟩ := h.address
  obtain ⟨way', hway'⟩ := h'.address
  rw [hway, hway']
  exact fun he => hne (List.append_inj_right' he haddress)

end Occurrence

def WalkEvent.isEnter : WalkEvent → Bool
  | .enter .. => true
  | .leave .. => false

/-- The events enter the occurrences at and below `o` in the order of the list, each one once, and
they leave the same ones. -/
structure Occurrence.Entered (o : Occurrence) (events : List WalkEvent) (os : List Occurrence) :
    Prop where
  nodup : (os.map Occurrence.address).Nodup
  mem_iff : ∀ q, q ∈ os ↔ o.Leads q
  entering : events.filter WalkEvent.isEnter = os.map Occurrence.entering
  leaving : (events.filter fun e => !e.isEnter).Perm (os.map Occurrence.leaving)

namespace Occurrence

theorem exists_entered (o : Occurrence) : ∃ os, o.Entered (o.node.walk o.parent o.relation) os := by
  induction hsize : sizeOf o.node using Nat.strongRecOn generalizing o with
  | _ n ih =>
    have hchild : ∀ h : Node.Held, h ∈ o.node.held → ∃ os,
        (o.child h.1.1 h.1.2 h.2).Entered (h.2.walk (some o.node) h.1.1) os := by
      intro h hh
      have hmem : (h.1.1, h.2) ∈ o.node.children := by
        rw [← Node.map_held]
        exact List.mem_map_of_mem hh
      exact ih _ (hsize ▸ Node.sizeOf_lt_of_mem_children hmem) (o.child h.1.1 h.1.2 h.2) rfl
    choose! below hbelow using hchild
    refine ⟨o :: o.node.held.flatMap below, ?_, ?_, ?_, ?_⟩
    · rw [List.map_cons, List.nodup_cons, List.map_flatMap, List.nodup_flatMap]
      refine ⟨fun hmem => ?_, fun h hh => (hbelow h hh).nodup, ?_⟩
      · obtain ⟨h, hh, hq⟩ := List.mem_flatMap.1 hmem
        obtain ⟨q, hq, he⟩ := List.mem_map.1 hq
        obtain ⟨way, hway⟩ := (((hbelow h hh).mem_iff q).1 hq).address
        have hlength := congrArg List.length (hway.symm.trans he)
        simp only [child, List.length_append, List.length_cons] at hlength
        omega
      · -- The ways below two fields differ in their first step.
        refine (List.pairwise_map.1 (Node.nodup_held o.node)).imp_of_mem fun {h h'} hh hh' hne => ?_
        refine List.disjoint_left.2 fun address hmem hmem' => ?_
        obtain ⟨q, hq, rfl⟩ := List.mem_map.1 hmem
        obtain ⟨q', hq', he⟩ := List.mem_map.1 hmem'
        have hslot : h.1 :: o.address ≠ h'.1 :: o.address := fun he => hne (List.cons.inj he).1
        exact Leads.disjoint (((hbelow h hh).mem_iff q).1 hq)
          (((hbelow h' hh').mem_iff q').1 hq') rfl hslot he.symm
    · intro q
      rw [leads_iff, List.mem_cons, List.mem_flatMap]
      refine or_congr_right ⟨?_, ?_⟩
      · rintro ⟨⟨⟨r, i⟩, c⟩, hc, hq⟩
        exact ⟨r, i, c, Node.mem_held.1 hc, ((hbelow _ hc).mem_iff q).1 hq⟩
      · rintro ⟨r, i, c, hc, hq⟩
        have hc := Node.mem_held.2 hc
        exact ⟨_, hc, ((hbelow _ hc).mem_iff q).2 hq⟩
    · rw [Node.walk_eq, ← Node.map_held, List.flatMap_map, List.filter_cons_of_pos rfl,
        List.filter_append, List.filter_flatMap, List.filter_cons_of_neg Bool.false_ne_true,
        List.filter_nil, List.append_nil, List.map_cons, List.map_flatMap]
      exact congrArg (List.cons _) (List.flatMap_congr fun h hh => (hbelow h hh).entering)
    · rw [Node.walk_eq, ← Node.map_held, List.flatMap_map,
        List.filter_cons_of_neg Bool.false_ne_true, List.filter_append, List.filter_flatMap,
        List.filter_cons_of_pos rfl, List.filter_nil, List.map_cons, List.map_flatMap]
      refine List.perm_append_comm.trans (.cons _ ?_)
      exact List.Perm.flatMap_left _ fun h hh => (hbelow h hh).leaving

end Occurrence

/-! ## Brackets -/

/-- A node that has been entered and not left, with the children that are still to be entered. -/
structure Opened where
  relation : Relation
  node : Node
  parent : Option Node
  ahead : List Node.Child

/-- The events that are left when the nodes of the stack are open, the innermost first. -/
inductive Follows : List Opened → List WalkEvent → Prop
  | done : Follows [] []
  | enter {top : Opened} {c : Node.Child} {ahead : List Node.Child} {stack : List Opened}
    {events : List WalkEvent} (hahead : top.ahead = c :: ahead)
    (h : Follows (⟨c.1, c.2, some top.node, c.2.children⟩ :: { top with ahead } :: stack) events) :
    Follows (top :: stack) (.enter c.1 c.2 (some top.node) :: events)
  | leave {top : Opened} {stack : List Opened} {events : List WalkEvent} (hahead : top.ahead = [])
    (h : Follows stack events) :
    Follows (top :: stack) (.leave top.relation top.node top.parent :: events)

theorem Follows.walk (node : Node) (parent : Option Node) (relation : Relation)
    {stack : List Opened} {events : List WalkEvent} (h : Follows stack events) :
    Follows (⟨relation, node, parent, node.children⟩ :: stack)
      (node.children.flatMap (fun c => c.2.walk (some node) c.1) ++
        .leave relation node parent :: events) := by
  induction hsize : sizeOf node using Nat.strongRecOn
    generalizing node parent relation stack events with
  | _ n ih =>
    have hchildren : ∀ cs ⊆ node.children, Follows (⟨relation, node, parent, cs⟩ :: stack)
        (cs.flatMap (fun c => c.2.walk (some node) c.1) ++
          .leave relation node parent :: events) := by
      intro cs
      induction cs with
      | nil => exact fun _ => .leave rfl h
      | cons c cs ihcs =>
        intro hcs
        obtain ⟨hc, hcs⟩ := List.cons_subset.1 hcs
        rw [List.flatMap_cons, Node.walk_eq, List.cons_append, List.cons_append, List.append_assoc,
          List.append_assoc]
        exact .enter rfl
          (ih _ (hsize ▸ Node.sizeOf_lt_of_mem_children hc) c.2 _ _ (ihcs hcs) rfl)
    exact hchildren _ (List.Subset.refl _)

/-- A walk enters and leaves each node that a field of the unit holds once for the field and none
else. It is one run from the unit on, in which each node enters its children in their order and is
left after that, and the parent of an event is the innermost open node. -/
theorem FileUnit.walk_covers (unit : FileUnit) :
    (∃ os, Occurrence.Entered ⟨[], .root, .unit unit, none⟩ unit.walk os) ∧
      ∃ events, unit.walk = .enter .root (.unit unit) none :: events ∧
        Follows [⟨.root, .unit unit, none, (Node.unit unit).children⟩] events :=
  ⟨Occurrence.exists_entered ⟨[], .root, .unit unit, none⟩, _, Node.walk_eq _ _ _,
    Follows.walk _ _ _ .done⟩

end MFile
