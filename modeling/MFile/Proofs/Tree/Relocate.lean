import Mathlib.Logic.Basic
import MFile.Tree.Decl

/-!
Trees with other places. `relocate place` moves every node of a tree to where `place` puts it and
keeps everything else, the numbers of the nodes among it. Two trees that are equal once all their
places are forgotten are equal up to locations.
-/

namespace MFile

variable {place : Location → Location}

def Site.relocate (place : Location → Location) (s : Site) : Site := ⟨s.id, place s.location⟩

@[simp] theorem Site.relocate_id_field (s : Site) : (s.relocate place).id = s.id := rfl

@[simp] theorem Site.relocate_location (s : Site) :
    (s.relocate place).location = place s.location := rfl

/-- Only the file is left. -/
def Location.forget (l : Location) : Location := ⟨l.file, .file, none⟩

/-! ## Expressions -/

mutual

def Expr.relocate (place : Location → Location) : Expr → Expr
  | .name n => .name (n.relocate place)
  | .number s text => .number (s.relocate place) text
  | .charArray s text => .charArray (s.relocate place) text
  | .string s text => .string (s.relocate place) text
  | .unary s op operand => .unary (s.relocate place) op (operand.relocate place)
  | .binary s op lhs rhs => .binary (s.relocate place) op (lhs.relocate place) (rhs.relocate place)
  | .range s start none stop =>
    .range (s.relocate place) (start.relocate place) none (stop.relocate place)
  | .range s start (some stride) stop =>
    .range (s.relocate place) (start.relocate place) (some (stride.relocate place))
      (stop.relocate place)
  | .reshape s => .reshape (s.relocate place)
  | .last s => .last (s.relocate place)
  | .matrix s rows => .matrix (s.relocate place) (relocateRows place rows)
  | .cell s rows => .cell (s.relocate place) (relocateRows place rows)
  | .lambda s params body =>
    .lambda (s.relocate place) (relocateNames place params) (body.relocate place)
  | .functionHandle s n => .functionHandle (s.relocate place) (n.relocate place)
  | .metaclass s n => .metaclass (s.relocate place) (n.relocate place)

def Name.relocate (place : Location → Location) : Name → Name
  | .identifier s text => .identifier (s.relocate place) text
  | .reference s base args =>
    .reference (s.relocate place) (base.relocate place) (relocateExprs place args)
  | .cellReference s base args =>
    .cellReference (s.relocate place) (base.relocate place) (relocateExprs place args)
  | .selection s base field => .selection (s.relocate place) (base.relocate place) field
  | .dynamicSelection s base field =>
    .dynamicSelection (s.relocate place) (base.relocate place) (field.relocate place)
  | .superclass s method parent =>
    .superclass (s.relocate place) (method.relocate place) (parent.relocate place)

def Row.relocate (place : Location → Location) : Row → Row
  | ⟨s, items⟩ => ⟨s.relocate place, relocateExprs place items⟩

def relocateExprs (place : Location → Location) : List Expr → List Expr
  | [] => []
  | e :: es => e.relocate place :: relocateExprs place es

def relocateNames (place : Location → Location) : List Name → List Name
  | [] => []
  | n :: ns => n.relocate place :: relocateNames place ns

def relocateRows (place : Location → Location) : List Row → List Row
  | [] => []
  | row :: rows => row.relocate place :: relocateRows place rows

end

@[simp] theorem relocateExprs_eq_map (es : List Expr) :
    relocateExprs place es = es.map (Expr.relocate place) := by
  induction es with
  | nil => rfl
  | cons e es ih => rw [relocateExprs, ih, List.map_cons]

@[simp] theorem relocateNames_eq_map (ns : List Name) :
    relocateNames place ns = ns.map (Name.relocate place) := by
  induction ns with
  | nil => rfl
  | cons n ns ih => rw [relocateNames, ih, List.map_cons]

@[simp] theorem relocateRows_eq_map (rows : List Row) :
    relocateRows place rows = rows.map (Row.relocate place) := by
  induction rows with
  | nil => rfl
  | cons row rows ih => rw [relocateRows, ih, List.map_cons]

@[simp] theorem Expr.relocate_range (s : Site) (start stop : Expr) (stride : Option Expr) :
    (Expr.range s start stride stop).relocate place =
      .range (s.relocate place) (start.relocate place) (stride.map (Expr.relocate place))
        (stop.relocate place) := by
  cases stride <;> rfl

attribute [simp] Name.relocate Row.relocate

namespace Name

variable (n : Name)

@[simp] theorem site_relocate : (n.relocate place).site = n.site.relocate place := by
  cases n <;> rfl

@[simp] theorem identifier?_relocate : (n.relocate place).identifier? = n.identifier? := by
  cases n <;> rfl

@[simp] theorem kindName_relocate : (n.relocate place).kindName = n.kindName := by
  cases n <;> rfl

@[simp] theorem dotted?_relocate : ∀ n : Name, (n.relocate place).dotted? = n.dotted?
  | .selection _ base _ => by
    rw [relocate, dotted?, dotted?, base.dotted?_relocate]
  | .identifier .. | .reference .. | .cellReference .. | .dynamicSelection ..
  | .superclass .. => rfl

end Name

namespace Expr

variable (e : Expr)

@[simp] theorem site_relocate : (e.relocate place).site = e.site.relocate place := by
  cases e with
  | name n => exact n.site_relocate
  | range => rw [relocate_range, site, site]
  | _ => rfl

@[simp] theorem name?_relocate :
    (e.relocate place).name? = e.name?.map (Name.relocate place) := by
  cases e with
  | range => rw [relocate_range]; rfl
  | _ => rfl

@[simp] theorem kindName_relocate : (e.relocate place).kindName = e.kindName := by
  cases e with
  | name n => exact n.kindName_relocate
  | range => rw [relocate_range, kindName, kindName]
  | _ => rfl

end Expr

/-! ## Statements -/

mutual

def Stmt.relocate (place : Location → Location) : Stmt → Stmt
  | .assign s lhs rhs => .assign (s.relocate place) (lhs.relocate place) (rhs.relocate place)
  | .multiAssign s lhs rhs =>
    .multiAssign (s.relocate place) (lhs.map (Name.relocate place)) (rhs.relocate place)
  | .ifElse s branches => .ifElse (s.relocate place) (relocateClauses place branches)
  | .switch s subject arms =>
    .switch (s.relocate place) (subject.relocate place) (relocateClauses place arms)
  | .forLoop s var range body =>
    .forLoop (s.relocate place) (var.relocate place) (range.relocate place)
      (relocateStmts place body)
  | .parFor s var range workers body =>
    .parFor (s.relocate place) (var.relocate place) (range.relocate place)
      (workers.map (Expr.relocate place)) (relocateStmts place body)
  | .whileLoop s guard body =>
    .whileLoop (s.relocate place) (guard.relocate place) (relocateStmts place body)
  | .tryCatch s body catchVar none =>
    .tryCatch (s.relocate place) (relocateStmts place body) (catchVar.map (Name.relocate place))
      none
  | .tryCatch s body catchVar (some handler) =>
    .tryCatch (s.relocate place) (relocateStmts place body) (catchVar.map (Name.relocate place))
      (some (relocateStmts place handler))
  | .spmd s options body =>
    .spmd (s.relocate place) (options.map (Expr.relocate place)) (relocateStmts place body)
  | .global s names => .global (s.relocate place) (names.map (Name.relocate place))
  | .persistent s names => .persistent (s.relocate place) (names.map (Name.relocate place))
  | .importNames s chain => .importNames (s.relocate place) chain
  | .breakLoop s => .breakLoop (s.relocate place)
  | .continueLoop s => .continueLoop (s.relocate place)
  | .returnCall s => .returnCall (s.relocate place)
  | .naked s e => .naked (s.relocate place) (e.relocate place)
  | .shell s text => .shell (s.relocate place) text

def Clause.relocate (place : Location → Location) : Clause → Clause
  | ⟨s, head, body⟩ =>
    ⟨s.relocate place, head.map (Expr.relocate place), relocateStmts place body⟩

def relocateStmts (place : Location → Location) : List Stmt → List Stmt
  | [] => []
  | s :: ss => s.relocate place :: relocateStmts place ss

def relocateClauses (place : Location → Location) : List Clause → List Clause
  | [] => []
  | c :: cs => c.relocate place :: relocateClauses place cs

end

@[simp] theorem relocateStmts_eq_map (ss : List Stmt) :
    relocateStmts place ss = ss.map (Stmt.relocate place) := by
  induction ss with
  | nil => rfl
  | cons s ss ih => rw [relocateStmts, ih, List.map_cons]

@[simp] theorem relocateClauses_eq_map (cs : List Clause) :
    relocateClauses place cs = cs.map (Clause.relocate place) := by
  induction cs with
  | nil => rfl
  | cons c cs ih => rw [relocateClauses, ih, List.map_cons]

@[simp] theorem Stmt.relocate_tryCatch (s : Site) (body : List Stmt) (catchVar : Option Name)
    (handler : Option (List Stmt)) :
    (Stmt.tryCatch s body catchVar handler).relocate place =
      .tryCatch (s.relocate place) (body.map (Stmt.relocate place))
        (catchVar.map (Name.relocate place)) (handler.map (List.map (Stmt.relocate place))) := by
  cases handler <;> simp [Stmt.relocate]

attribute [simp] Stmt.relocate Clause.relocate

/-! ## Definitions -/

section Definitions

def Signature.relocate (place : Location → Location) (s : Signature) : Signature :=
  ⟨s.site.relocate place, s.name.relocate place, s.inputs.map (Name.relocate place),
    s.outputs.map (Name.relocate place)⟩

def Attribute.relocate (place : Location → Location) (a : Attribute) : Attribute :=
  ⟨a.site.relocate place, a.name, a.negated, a.value.map (Expr.relocate place)⟩

def Property.relocate (place : Location → Location) (p : Property) : Property :=
  ⟨p.site.relocate place, p.name.relocate place, p.dimensions.map (Expr.relocate place),
    p.className.map (Name.relocate place), p.validators.map (Expr.relocate place),
    p.default.map (Expr.relocate place)⟩

def EventDecl.relocate (place : Location → Location) (e : EventDecl) : EventDecl :=
  ⟨e.site.relocate place, e.name.relocate place⟩

def Enumerator.relocate (place : Location → Location) (e : Enumerator) : Enumerator :=
  ⟨e.site.relocate place, e.name.relocate place, e.args.map (Expr.relocate place)⟩

end Definitions

mutual

def FunctionDef.relocate (place : Location → Location) : FunctionDef → FunctionDef
  | ⟨s, signature, validation, body, nested, terminated⟩ =>
    ⟨s.relocate place, signature.relocate place, relocateBlocks place validation,
      body.map (Stmt.relocate place), relocateFunctions place nested, terminated⟩

def Block.relocate (place : Location → Location) : Block → Block
  | ⟨s, kind, attributes, items⟩ =>
    ⟨s.relocate place, kind, attributes.map (Attribute.relocate place), relocateItems place items⟩

def BlockItem.relocate (place : Location → Location) : BlockItem → BlockItem
  | .property p => .property (p.relocate place)
  | .method f => .method (f.relocate place)
  | .signature s => .signature (s.relocate place)
  | .event e => .event (e.relocate place)
  | .enumerator e => .enumerator (e.relocate place)

def relocateFunctions (place : Location → Location) : List FunctionDef → List FunctionDef
  | [] => []
  | f :: fs => f.relocate place :: relocateFunctions place fs

def relocateBlocks (place : Location → Location) : List Block → List Block
  | [] => []
  | b :: bs => b.relocate place :: relocateBlocks place bs

def relocateItems (place : Location → Location) : List BlockItem → List BlockItem
  | [] => []
  | i :: is => i.relocate place :: relocateItems place is

end

@[simp] theorem relocateFunctions_eq_map (fs : List FunctionDef) :
    relocateFunctions place fs = fs.map (FunctionDef.relocate place) := by
  induction fs with
  | nil => rfl
  | cons f fs ih => rw [relocateFunctions, ih, List.map_cons]

@[simp] theorem relocateBlocks_eq_map (bs : List Block) :
    relocateBlocks place bs = bs.map (Block.relocate place) := by
  induction bs with
  | nil => rfl
  | cons b bs ih => rw [relocateBlocks, ih, List.map_cons]

@[simp] theorem relocateItems_eq_map (is : List BlockItem) :
    relocateItems place is = is.map (BlockItem.relocate place) := by
  induction is with
  | nil => rfl
  | cons i is ih => rw [relocateItems, ih, List.map_cons]

attribute [simp] FunctionDef.relocate Block.relocate BlockItem.relocate

def ClassDef.relocate (place : Location → Location) (c : ClassDef) : ClassDef :=
  ⟨c.site.relocate place, c.name.relocate place, c.attributes.map (Attribute.relocate place),
    c.superclasses.map (Name.relocate place), c.blocks.map (Block.relocate place)⟩

def FileUnit.relocate (place : Location → Location) : FileUnit → FileUnit
  | .script s body functions =>
    .script (s.relocate place) (body.map (Stmt.relocate place))
      (functions.map (FunctionDef.relocate place))
  | .functionFile s functions =>
    .functionFile (s.relocate place) (functions.map (FunctionDef.relocate place))
  | .classFile s definition functions =>
    .classFile (s.relocate place) (definition.relocate place)
      (functions.map (FunctionDef.relocate place))

/-! ## Everything in its place -/

mutual

theorem Expr.relocate_id : ∀ e : Expr, e.relocate id = e
  | .name n => congrArg Expr.name n.relocate_id
  | .number .. | .charArray .. | .string .. | .reshape _ | .last _ => rfl
  | .unary s op operand => congrArg (Expr.unary s op) operand.relocate_id
  | .binary s op lhs rhs => congrArg₂ (Expr.binary s op) lhs.relocate_id rhs.relocate_id
  | .range s start none stop =>
    congrArg₂ (Expr.range s · none ·) start.relocate_id stop.relocate_id
  | .range s start (some stride) stop => by
    rw [Expr.relocate, start.relocate_id, stride.relocate_id, stop.relocate_id]
    rfl
  | .matrix s rows => congrArg (Expr.matrix s) (relocateRows_id rows)
  | .cell s rows => congrArg (Expr.cell s) (relocateRows_id rows)
  | .lambda s params body => congrArg₂ (Expr.lambda s) (relocateNames_id params) body.relocate_id
  | .functionHandle s n => congrArg (Expr.functionHandle s) n.relocate_id
  | .metaclass s n => congrArg (Expr.metaclass s) n.relocate_id

theorem Name.relocate_id : ∀ n : Name, n.relocate id = n
  | .identifier .. => rfl
  | .reference s base args => congrArg₂ (Name.reference s) base.relocate_id (relocateExprs_id args)
  | .cellReference s base args =>
    congrArg₂ (Name.cellReference s) base.relocate_id (relocateExprs_id args)
  | .selection s base field => congrArg (Name.selection s · field) base.relocate_id
  | .dynamicSelection s base field =>
    congrArg₂ (Name.dynamicSelection s) base.relocate_id field.relocate_id
  | .superclass s method parent =>
    congrArg₂ (Name.superclass s) method.relocate_id parent.relocate_id

theorem Row.relocate_id : ∀ row : Row, row.relocate id = row
  | ⟨s, items⟩ => congrArg (Row.mk s) (relocateExprs_id items)

theorem relocateExprs_id : ∀ es : List Expr, relocateExprs id es = es
  | [] => rfl
  | e :: es => congrArg₂ List.cons e.relocate_id (relocateExprs_id es)

theorem relocateNames_id : ∀ ns : List Name, relocateNames id ns = ns
  | [] => rfl
  | n :: ns => congrArg₂ List.cons n.relocate_id (relocateNames_id ns)

theorem relocateRows_id : ∀ rows : List Row, relocateRows id rows = rows
  | [] => rfl
  | row :: rows => congrArg₂ List.cons row.relocate_id (relocateRows_id rows)

end

theorem map_relocate_id {α : Type} {f : α → α} (h : ∀ a, f a = a) (as : List α) :
    as.map f = as := by
  rw [funext h]
  exact List.map_id' as

theorem option_relocate_id {α : Type} {f : α → α} (h : ∀ a, f a = a) (o : Option α) :
    o.map f = o := by
  cases o with
  | none => rfl
  | some a => exact congrArg some (h a)

mutual

theorem Stmt.relocate_id : ∀ s : Stmt, s.relocate id = s
  | .assign s lhs rhs => congrArg₂ (Stmt.assign s) lhs.relocate_id rhs.relocate_id
  | .multiAssign s lhs rhs =>
    congrArg₂ (Stmt.multiAssign s) (map_relocate_id Name.relocate_id lhs) rhs.relocate_id
  | .ifElse s branches => congrArg (Stmt.ifElse s) (relocateClauses_id branches)
  | .switch s subject arms =>
    congrArg₂ (Stmt.switch s) subject.relocate_id (relocateClauses_id arms)
  | .forLoop s var range body => by
    rw [Stmt.relocate, var.relocate_id, range.relocate_id, relocateStmts_id body]
    rfl
  | .parFor s var range workers body => by
    rw [Stmt.relocate, var.relocate_id, range.relocate_id, relocateStmts_id body,
      option_relocate_id Expr.relocate_id]
    rfl
  | .whileLoop s guard body =>
    congrArg₂ (Stmt.whileLoop s) guard.relocate_id (relocateStmts_id body)
  | .tryCatch s body catchVar none =>
    congrArg₂ (Stmt.tryCatch s · · none) (relocateStmts_id body)
      (option_relocate_id Name.relocate_id catchVar)
  | .tryCatch s body catchVar (some handler) => by
    rw [Stmt.relocate, relocateStmts_id body, relocateStmts_id handler,
      option_relocate_id Name.relocate_id]
    rfl
  | .spmd s options body =>
    congrArg₂ (Stmt.spmd s) (map_relocate_id Expr.relocate_id options) (relocateStmts_id body)
  | .global s names => congrArg (Stmt.global s) (map_relocate_id Name.relocate_id names)
  | .persistent s names => congrArg (Stmt.persistent s) (map_relocate_id Name.relocate_id names)
  | .naked s e => congrArg (Stmt.naked s) e.relocate_id
  | .importNames .. | .breakLoop _ | .continueLoop _ | .returnCall _ | .shell .. => rfl

theorem Clause.relocate_id : ∀ c : Clause, c.relocate id = c
  | ⟨s, head, body⟩ =>
    congrArg₂ (Clause.mk s) (option_relocate_id Expr.relocate_id head) (relocateStmts_id body)

theorem relocateStmts_id : ∀ ss : List Stmt, relocateStmts id ss = ss
  | [] => rfl
  | s :: ss => congrArg₂ List.cons s.relocate_id (relocateStmts_id ss)

theorem relocateClauses_id : ∀ cs : List Clause, relocateClauses id cs = cs
  | [] => rfl
  | c :: cs => congrArg₂ List.cons c.relocate_id (relocateClauses_id cs)

end

theorem Signature.relocate_id (s : Signature) : s.relocate id = s := by
  rw [Signature.relocate, s.name.relocate_id, map_relocate_id Name.relocate_id,
    map_relocate_id Name.relocate_id]
  rfl

theorem Attribute.relocate_id (a : Attribute) : a.relocate id = a := by
  rw [Attribute.relocate, option_relocate_id Expr.relocate_id]
  rfl

theorem Property.relocate_id (p : Property) : p.relocate id = p := by
  rw [Property.relocate, p.name.relocate_id, map_relocate_id Expr.relocate_id,
    map_relocate_id Expr.relocate_id, option_relocate_id Name.relocate_id,
    option_relocate_id Expr.relocate_id]
  rfl

theorem EventDecl.relocate_id (e : EventDecl) : e.relocate id = e := by
  rw [EventDecl.relocate, e.name.relocate_id]
  rfl

theorem Enumerator.relocate_id (e : Enumerator) : e.relocate id = e := by
  rw [Enumerator.relocate, e.name.relocate_id, map_relocate_id Expr.relocate_id]
  rfl

mutual

theorem FunctionDef.relocate_id : ∀ f : FunctionDef, f.relocate id = f
  | ⟨s, signature, validation, body, nested, terminated⟩ => by
    rw [FunctionDef.relocate, signature.relocate_id, relocateBlocks_id validation,
      map_relocate_id Stmt.relocate_id, relocateFunctions_id nested]
    rfl

theorem Block.relocate_id : ∀ b : Block, b.relocate id = b
  | ⟨s, kind, attributes, items⟩ =>
    congrArg₂ (Block.mk s kind) (map_relocate_id Attribute.relocate_id attributes)
      (relocateItems_id items)

theorem BlockItem.relocate_id : ∀ i : BlockItem, i.relocate id = i
  | .property p => congrArg BlockItem.property p.relocate_id
  | .method f => congrArg BlockItem.method f.relocate_id
  | .signature s => congrArg BlockItem.signature s.relocate_id
  | .event e => congrArg BlockItem.event e.relocate_id
  | .enumerator e => congrArg BlockItem.enumerator e.relocate_id

theorem relocateFunctions_id : ∀ fs : List FunctionDef, relocateFunctions id fs = fs
  | [] => rfl
  | f :: fs => congrArg₂ List.cons f.relocate_id (relocateFunctions_id fs)

theorem relocateBlocks_id : ∀ bs : List Block, relocateBlocks id bs = bs
  | [] => rfl
  | b :: bs => congrArg₂ List.cons b.relocate_id (relocateBlocks_id bs)

theorem relocateItems_id : ∀ is : List BlockItem, relocateItems id is = is
  | [] => rfl
  | i :: is => congrArg₂ List.cons i.relocate_id (relocateItems_id is)

end

theorem ClassDef.relocate_id (c : ClassDef) : c.relocate id = c := by
  rw [ClassDef.relocate, c.name.relocate_id, map_relocate_id Attribute.relocate_id,
    map_relocate_id Name.relocate_id, map_relocate_id Block.relocate_id]
  rfl

theorem FileUnit.relocate_id (unit : FileUnit) : unit.relocate id = unit := by
  cases unit <;> rw [FileUnit.relocate] <;>
    simp only [map_relocate_id Stmt.relocate_id, map_relocate_id FunctionDef.relocate_id,
      ClassDef.relocate_id] <;> rfl

end MFile
