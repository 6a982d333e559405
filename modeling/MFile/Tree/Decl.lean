import MFile.Tree.Stmt

/-!
Definitions: functions, classes, the blocks of declarations inside them, and whole files. A block
takes items of its own kind only; anything else is refused when it is added.
-/

namespace MFile

structure Signature where
  site : Site
  name : Name
  inputs : List Name
  outputs : List Name

structure Attribute where
  site : Site
  name : String
  negated : Bool
  value : Option Expr

/-- A property of a class, or one argument of an `arguments` block. -/
structure Property where
  site : Site
  name : Name
  dimensions : List Expr
  className : Option Name
  validators : List Expr
  default : Option Expr

structure EventDecl where
  site : Site
  name : Name

structure Enumerator where
  site : Site
  name : Name
  args : List Expr

inductive BlockKind
  | properties
  | methods
  | events
  | enumeration
  | arguments
deriving DecidableEq, Repr

namespace BlockKind

def all : List BlockKind := [properties, methods, events, enumeration, arguments]

def word : BlockKind → String
  | properties => "properties"
  | methods => "methods"
  | events => "events"
  | enumeration => "enumeration"
  | arguments => "arguments"

def ofWord? (text : String) : Option BlockKind := all.find? (·.word == text)

def nodeName : BlockKind → String
  | properties => "Properties"
  | methods => "Methods"
  | events => "Events"
  | enumeration => "Enumerations"
  | arguments => "Arguments"

theorem ofWord?_word (kind : BlockKind) : ofWord? kind.word = some kind := by cases kind <;> rfl

end BlockKind

mutual

structure FunctionDef where
  site : Site
  signature : Signature
  validation : List Block
  body : List Stmt
  nested : List FunctionDef
  terminated : Bool

structure Block where
  site : Site
  kind : BlockKind
  attributes : List Attribute
  items : List BlockItem

inductive BlockItem
  | property (property : Property)
  | method (function : FunctionDef)
  | signature (signature : Signature)
  | event (event : EventDecl)
  | enumerator (enumerator : Enumerator)

end

namespace BlockItem

def kindName : BlockItem → String
  | property _ => "property"
  | method _ => "method"
  | signature _ => "method signature"
  | event _ => "event"
  | enumerator _ => "enumeration literal"

end BlockItem

def BlockKind.accepts : BlockKind → BlockItem → Bool
  | .properties, .property _ | .arguments, .property _ | .methods, .method _
  | .methods, .signature _ | .events, .event _ | .enumeration, .enumerator _ => true
  | _, _ => false

structure Misplaced where
  kind : BlockKind
  item : String
deriving DecidableEq, Repr

def Misplaced.message (m : Misplaced) : String := s!"{m.kind.word} block cannot hold a {m.item}"

def Block.add (block : Block) (item : BlockItem) : Except Misplaced Block :=
  if block.kind.accepts item then .ok { block with items := block.items ++ [item] }
  else .error ⟨block.kind, item.kindName⟩

structure ClassDef where
  site : Site
  name : Name
  attributes : List Attribute
  superclasses : List Name
  blocks : List Block

/-- What one file holds. Functions after the statements of a script, or after a class, are local
to it. -/
inductive FileUnit
  | script (site : Site) (body : List Stmt) (functions : List FunctionDef)
  | functionFile (site : Site) (functions : List FunctionDef)
  | classFile (site : Site) (definition : ClassDef) (functions : List FunctionDef)

namespace FileUnit

def site : FileUnit → Site
  | script s _ _ | functionFile s _ | classFile s _ _ => s

def kindName : FileUnit → String
  | script .. => "ScriptFile"
  | functionFile .. => "FunctionFile"
  | classFile .. => "ClassFile"

def functions : FileUnit → List FunctionDef
  | script _ _ fs | functionFile _ fs | classFile _ _ fs => fs

end FileUnit

end MFile
