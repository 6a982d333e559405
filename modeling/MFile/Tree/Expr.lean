import MFile.Location
import MFile.Tree.Operator

/-!
Expressions and names. A name is whatever can be assigned to or called; an expression that is only
a name has that name's number and place. Every node carries a number of its own and its place.
-/

namespace MFile

abbrev NodeId := Nat

structure Site where
  id : NodeId
  location : Location
deriving DecidableEq

mutual

inductive Expr
  | name (name : Name)
  | number (site : Site) (text : String)
  | charArray (site : Site) (text : String)
  | string (site : Site) (text : String)
  | unary (site : Site) (op : UnaryOp) (operand : Expr)
  | binary (site : Site) (op : BinaryOp) (lhs rhs : Expr)
  | range (site : Site) (start : Expr) (stride : Option Expr) (stop : Expr)
  /-- A lone colon, for a whole dimension. -/
  | reshape (site : Site)
  /-- The last index, written `end`. -/
  | last (site : Site)
  | matrix (site : Site) (rows : List Row)
  | cell (site : Site) (rows : List Row)
  | lambda (site : Site) (params : List Name) (body : Expr)
  | functionHandle (site : Site) (name : Name)
  | metaclass (site : Site) (name : Name)

inductive Name
  | identifier (site : Site) (text : String)
  | reference (site : Site) (base : Name) (args : List Expr)
  | cellReference (site : Site) (base : Name) (args : List Expr)
  | selection (site : Site) (base : Name) (field : String)
  | dynamicSelection (site : Site) (base : Name) (field : Expr)
  | superclass (site : Site) (method : Name) (parent : Name)

structure Row where
  site : Site
  items : List Expr

end

namespace Name

def site : Name → Site
  | identifier s _ | reference s _ _ | cellReference s _ _ | selection s _ _
  | dynamicSelection s _ _ | superclass s _ _ => s

def identifier? : Name → Option String
  | identifier _ text => some text
  | _ => none

def dotted? : Name → Option String
  | identifier _ text => some text
  | selection _ base field => base.dotted?.map (· ++ "." ++ field)
  | _ => none

def kindName : Name → String
  | identifier .. => "Identifier"
  | reference .. => "Reference"
  | cellReference .. => "CellReference"
  | selection .. => "Selection"
  | dynamicSelection .. => "DynamicSelection"
  | superclass .. => "SuperclassReference"

end Name

namespace Expr

def site : Expr → Site
  | name n => n.site
  | number s _ | charArray s _ | string s _ | unary s _ _ | binary s _ _ _ | range s _ _ _
  | reshape s | last s | matrix s _ | cell s _ | lambda s _ _ | functionHandle s _
  | metaclass s _ => s

def name? : Expr → Option Name
  | name n => some n
  | _ => none

def kindName : Expr → String
  | name n => n.kindName
  | number .. => "Number"
  | charArray .. => "CharArray"
  | string .. => "String"
  | unary .. => "Unary"
  | binary .. => "Binary"
  | range .. => "Range"
  | reshape .. => "Reshape"
  | last .. => "End"
  | matrix .. => "Matrix"
  | cell .. => "Cell"
  | lambda .. => "Lambda"
  | functionHandle .. => "FunctionHandle"
  | metaclass .. => "Metaclass"

end Expr

end MFile
