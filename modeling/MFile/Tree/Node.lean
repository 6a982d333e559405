import MFile.Text.Quoted
import MFile.Tree.Decl

/-!
Every node of a tree under one type, with its number, place and label, and its children in order,
each under the name of its relation to the parent.
-/

namespace MFile

inductive Relation
  | root
  | start
  | statement
  | function
  | definition
  | signature
  | validation
  | body
  | nested
  | output
  | name
  | input
  | attr
  | superclass
  | block
  | property
  | method
  | declaration
  | event
  | item
  | value
  | dimension
  | className
  | validator
  | default
  | argument
  | lhs
  | rhs
  | action
  | subject
  | arm
  | loopVar
  | range
  | workers
  | guard
  | identifier
  | handler
  | option
  | expression
  | operand
  | first
  | stride
  | stop
  | row
  | element
  | parameter
  | base
  | field
deriving DecidableEq, Repr

def Relation.label : Relation → String
  | root => "Root"
  | start => "Start"
  | statement => "Statement"
  | function => "Function"
  | definition => "Class"
  | signature => "Signature"
  | validation => "Validation"
  | body => "Body"
  | nested => "Nested"
  | output => "Output"
  | name => "Name"
  | input => "Input"
  | attr => "Attribute"
  | superclass => "Superclass"
  | block => "Block"
  | property => "Property"
  | method => "Method"
  | declaration => "Declaration"
  | event => "Event"
  | item => "Item"
  | value => "Value"
  | dimension => "Dimension"
  | className => "Class"
  | validator => "Validator"
  | default => "Default"
  | argument => "Argument"
  | lhs => "LHS"
  | rhs => "RHS"
  | action => "Action"
  | subject => "Subject"
  | arm => "Case"
  | loopVar => "Variable"
  | range => "Range"
  | workers => "Workers"
  | guard => "Guard"
  | identifier => "Identifier"
  | handler => "Handler"
  | option => "Option"
  | expression => "Expression"
  | operand => "Operand"
  | first => "Start"
  | stride => "Stride"
  | stop => "Stop"
  | row => "Row"
  | element => "Element"
  | parameter => "Parameter"
  | base => "Prefix"
  | field => "Field"

inductive Node
  | unit (unit : FileUnit)
  | function (function : FunctionDef)
  | signature (signature : Signature)
  | definition (definition : ClassDef)
  | block (block : Block)
  | attr (attr : Attribute)
  | property (property : Property)
  | event (event : EventDecl)
  | enumerator (enumerator : Enumerator)
  | stmt (stmt : Stmt)
  | action (clause : Clause)
  | arm (clause : Clause)
  | expr (expr : Expr)
  | row (row : Row)
  | name (name : Name)

namespace Node

def site : Node → Site
  | unit n => n.site
  | function n => n.site
  | signature n => n.site
  | definition n => n.site
  | block n => n.site
  | attr n => n.site
  | property n => n.site
  | event n => n.site
  | enumerator n => n.site
  | stmt n => n.site
  | action n => n.site
  | arm n => n.site
  | expr n => n.site
  | row n => n.site
  | name n => n.site

def id (node : Node) : NodeId := node.site.id

def location (node : Node) : Location := node.site.location

def kindName : Node → String
  | unit n => n.kindName
  | function _ => "Function"
  | signature _ => "Signature"
  | definition _ => "Classdef"
  | block n => n.kind.nodeName
  | attr _ => "Attribute"
  | property _ => "Property"
  | event _ => "Event"
  | enumerator _ => "EnumerationItem"
  | stmt n => n.kindName
  | action n => if n.head.isNone then "Else" else "Action"
  | arm n => if n.head.isNone then "Otherwise" else "Case"
  | expr n => n.kindName
  | row _ => "Row"
  | name n => n.kindName

def nameDetail? : Name → Option String
  | .identifier _ text => some text
  | .selection _ _ field => some ("." ++ field)
  | _ => none

def detail? : Node → Option String
  | function n => n.signature.name.dotted?
  | signature n => n.name.dotted?
  | definition n => n.name.dotted?
  | attr n => some ((if n.negated then "~" else "") ++ n.name)
  | property n => n.name.dotted?
  | event n => n.name.dotted?
  | enumerator n => n.name.dotted?
  | stmt (.importNames _ chain) => some (".".intercalate chain)
  | stmt (.shell _ text) => some text
  | expr (.name n) => nameDetail? n
  | expr (.number _ text) => some text
  | expr (.charArray _ text) => some (Text.enquote '\'' text)
  | expr (.string _ text) => some (Text.enquote '"' text)
  | expr (.unary _ op _) => some op.symbol
  | expr (.binary _ op _ _) => some op.symbol
  | name n => nameDetail? n
  | _ => none

def label (node : Node) : String :=
  match node.detail? with
  | some detail => node.kindName ++ " " ++ detail
  | none => node.kindName

abbrev Child := Relation × Node

def exprs (relation : Relation) (es : List Expr) : List Child := es.map fun e => (relation, expr e)

def optExpr (relation : Relation) (e : Option Expr) : List Child := exprs relation e.toList

def stmts (relation : Relation) (ss : List Stmt) : List Child := ss.map fun s => (relation, stmt s)

def names (relation : Relation) (ns : List Name) : List Child := ns.map fun n => (relation, name n)

def functions (relation : Relation) (fs : List FunctionDef) : List Child :=
  fs.map fun f => (relation, function f)

def blocks (relation : Relation) (bs : List Block) : List Child :=
  bs.map fun b => (relation, block b)

def attrs (as : List Attribute) : List Child := as.map fun a => (.attr, attr a)

def rows (rs : List Row) : List Child := rs.map fun r => (.row, row r)

def ofItem : BlockItem → Child
  | .property p => (.property, property p)
  | .method f => (.method, function f)
  | .signature s => (.declaration, signature s)
  | .event e => (.event, event e)
  | .enumerator e => (.item, enumerator e)

def nameChildren : Name → List Child
  | .identifier .. => []
  | .reference _ base args | .cellReference _ base args =>
    (.base, name base) :: exprs .argument args
  | .selection _ base _ => [(.base, name base)]
  | .dynamicSelection _ base field => [(.base, name base), (.field, expr field)]
  | .superclass _ method parent => [(.method, name method), (.superclass, name parent)]

def exprChildren : Expr → List Child
  | .name n => nameChildren n
  | .unary _ _ operand => [(.operand, expr operand)]
  | .binary _ _ lhs rhs => [(.lhs, expr lhs), (.rhs, expr rhs)]
  | .range _ start stride stop =>
    (.first, expr start) :: (optExpr .stride stride ++ [(.stop, expr stop)])
  | .matrix _ rs | .cell _ rs => rows rs
  | .lambda _ params body => names .parameter params ++ [(.body, expr body)]
  | .functionHandle _ n => [(.function, name n)]
  | .metaclass _ n => [(.className, name n)]
  | .number .. | .charArray .. | .string .. | .reshape _ | .last _ => []

def stmtChildren : Stmt → List Child
  | .assign _ lhs rhs => [(.lhs, name lhs), (.rhs, expr rhs)]
  | .multiAssign _ lhs rhs => names .lhs lhs ++ [(.rhs, expr rhs)]
  | .ifElse _ branches => branches.map fun c => (.action, action c)
  | .switch _ subject arms => (.subject, expr subject) :: arms.map fun c => (.arm, arm c)
  | .forLoop _ var range body =>
    (.loopVar, name var) :: (.range, expr range) :: stmts .body body
  | .parFor _ var range workers body =>
    (.loopVar, name var) :: (.range, expr range) :: (optExpr .workers workers ++ stmts .body body)
  | .whileLoop _ guard body => (.guard, expr guard) :: stmts .body body
  | .tryCatch _ body catchVar handler =>
    stmts .body body ++ names .identifier catchVar.toList ++ stmts .handler (handler.getD [])
  | .spmd _ options body => exprs .option options ++ stmts .body body
  | .global _ ns | .persistent _ ns => names .name ns
  | .naked _ e => [(.expression, expr e)]
  | .importNames .. | .breakLoop _ | .continueLoop _ | .returnCall _ | .shell .. => []

def unitChildren : FileUnit → List Child
  | .script _ body fs => stmts .statement body ++ functions .function fs
  | .functionFile _ fs => functions .function fs
  | .classFile _ c fs => (.definition, definition c) :: functions .function fs

def children : Node → List Child
  | unit u => unitChildren u
  | function f =>
    (.signature, signature f.signature) ::
      (blocks .validation f.validation ++ stmts .body f.body ++ functions .nested f.nested)
  | signature s => names .output s.outputs ++ (.name, name s.name) :: names .input s.inputs
  | definition c =>
    (.name, name c.name) ::
      (attrs c.attributes ++ names .superclass c.superclasses ++ blocks .block c.blocks)
  | block b => attrs b.attributes ++ b.items.map ofItem
  | attr a => optExpr .value a.value
  | property p =>
    (.name, name p.name) ::
      (exprs .dimension p.dimensions ++ names .className p.className.toList ++
        exprs .validator p.validators ++ optExpr .default p.default)
  | event e => [(.name, name e.name)]
  | enumerator e => (.name, name e.name) :: exprs .argument e.args
  | stmt s => stmtChildren s
  | action c => optExpr .guard c.head ++ stmts .body c.body
  | arm c => optExpr .value c.head ++ stmts .body c.body
  | expr e => exprChildren e
  | row r => exprs .element r.items
  | name n => nameChildren n

attribute [simp] children nameChildren exprChildren stmtChildren unitChildren exprs optExpr stmts
  names functions blocks attrs rows

end Node

end MFile
