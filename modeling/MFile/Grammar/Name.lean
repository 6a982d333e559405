import MFile.Grammar.State

/-! The names that stand without arguments: identifiers, dotted names and lists of parameters. -/

namespace MFile.Grammar.Parse

def identifierOf (t : Token) : Parse Name := return .identifier (← siteAt t.location) t.raw

def identifier : Parse Name := do identifierOf (← expect .identifier .identifier)

def placeholderOf (t : Token) : Parse Name := return .identifier (← siteAt t.location) "~"

def dottedRound (name : Name) : Parse (Round Name Name) := do
  if (← check .selection) && (← peekKind? 1) == some .identifier then
    advance
    let field ← expect .identifier .identifier
    return .again (.selection (← siteBetween name.site.location field.location) name field.raw)
  else return .done name

def dottedName : Parse Name := do rounds (← identifier) dottedRound

def parametersRound (names : List Name) : Parse (Round (List Name) (List Name)) := do
  match ← current? with
  | none => unexpected (.closer .rparen)
  | some t =>
    match t.kind with
    | .rparen =>
      advance
      return .done names
    | .comma =>
      advance
      return .again names
    | .identifier => return .again (names ++ [← identifier])
    | .operator =>
      if t.raw = "~" then
        advance
        return .again (names ++ [← placeholderOf t])
      else unexpected (.closer .rparen)
    | _ => unexpected (.closer .rparen)

def parameters : Parse (List Name) := rounds [] parametersRound

end MFile.Grammar.Parse
