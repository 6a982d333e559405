import MFile.Tree.Expr

/-!
Statements. A clause is one branch of an `if` or one arm of a `switch`; without a head it is the
`else` or the `otherwise`.
-/

namespace MFile

mutual

inductive Stmt
  | assign (site : Site) (lhs : Name) (rhs : Expr)
  | multiAssign (site : Site) (lhs : List Name) (rhs : Expr)
  | ifElse (site : Site) (branches : List Clause)
  | switch (site : Site) (subject : Expr) (arms : List Clause)
  | forLoop (site : Site) (var : Name) (range : Expr) (body : List Stmt)
  | parFor (site : Site) (var : Name) (range : Expr) (workers : Option Expr) (body : List Stmt)
  | whileLoop (site : Site) (guard : Expr) (body : List Stmt)
  /-- Without a handler there is no `catch` at all. -/
  | tryCatch (site : Site) (body : List Stmt) (catchVar : Option Name)
      (handler : Option (List Stmt))
  | spmd (site : Site) (options : List Expr) (body : List Stmt)
  | global (site : Site) (names : List Name)
  | persistent (site : Site) (names : List Name)
  | importNames (site : Site) (chain : List String)
  | breakLoop (site : Site)
  | continueLoop (site : Site)
  | returnCall (site : Site)
  /-- An expression for its effect, a command among them. -/
  | naked (site : Site) (expr : Expr)
  | shell (site : Site) (text : String)

structure Clause where
  site : Site
  head : Option Expr
  body : List Stmt

end

namespace Stmt

def site : Stmt → Site
  | assign s _ _ | multiAssign s _ _ | ifElse s _ | switch s _ _ | forLoop s _ _ _
  | parFor s _ _ _ _ | whileLoop s _ _ | tryCatch s _ _ _ | spmd s _ _ | global s _
  | persistent s _ | importNames s _ | breakLoop s | continueLoop s | returnCall s | naked s _
  | shell s _ => s

def kindName : Stmt → String
  | assign .. => "Assignment"
  | multiAssign .. => "MultiAssignment"
  | ifElse .. => "If"
  | switch .. => "Switch"
  | forLoop .. => "For"
  | parFor .. => "ParFor"
  | whileLoop .. => "While"
  | tryCatch .. => "Try"
  | spmd .. => "Spmd"
  | global .. => "Global"
  | persistent .. => "Persistent"
  | importNames .. => "Import"
  | breakLoop .. => "Break"
  | continueLoop .. => "Continue"
  | returnCall .. => "Return"
  | naked .. => "NakedExpression"
  | shell .. => "Shell"

end Stmt

end MFile
