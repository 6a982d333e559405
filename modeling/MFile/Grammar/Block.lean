import MFile.Grammar.Stmt

/-! Blocks of declarations, which classes and functions share. -/

namespace MFile.Grammar.Parse

/-- `(Name, ~Name, Name = value, ...)`. -/
def attributes : Parse (List Attribute) := do
  advance
  rounds [] fun attrs => do
    if (← eat .rparen).isSome then return .done attrs
    if !attrs.isEmpty then discard (expect .comma (.closer .rparen))
    let start ← here
    let negated := (← eatOperator ["~", "!"]).isSome
    let name ← expect .identifier .identifier
    let value ← if (← eat .assignment).isSome then some <$> expression else pure none
    return .again (attrs ++ [⟨← siteFrom start, name.raw, negated, value⟩])

def optAttributes : Parse (List Attribute) := do
  if ← check .lparen then attributes else return []

/-- `name (dimensions) Class {validators} = default`, where only the name must stand. -/
def property : Parse Property := do
  let start ← here
  let name ← dottedName
  let dimensions ← if ← check .lparen then arguments expression .rparen else pure []
  let className ← if ← check .identifier then some <$> dottedName else pure none
  let validators ← if ← check .lbrace then arguments expression .rbrace else pure []
  let default ← if (← eat .assignment).isSome then some <$> expression else pure none
  return ⟨← siteFrom start, name, dimensions, className, validators, default⟩

def addItem (start : Location) (block : Block) (item : BlockItem) : Parse Block := do
  match block.add item with
  | .ok block => return block
  | .error misplaced => throw (.internal start (.misplaced misplaced))

def addStatement (start : Location) (block : Block) (item : BlockItem) : Parse Block := do
  let block ← addItem start block item
  endStatement
  return block

def addProperty (block : Block) : Parse Block := do
  let start ← here
  addStatement start block (.property (← property))

/-- A block from its keyword, already read, to its `end`; `addNext` reads one item into it. -/
def block (kind : BlockKind) (opener : Token) (addNext : Block → Parse Block) : Parse Block := do
  let attrs ← optAttributes
  let empty : Block := ⟨← siteAt opener.location, kind, attrs, []⟩
  let filled ← rounds empty fun block => do
    skipSeparators
    if (← eatWord "end").isSome then return .done block
    if ← atEnd then failHere (.openBlock opener.raw (opener.location.line?.getD 0))
    return .again (← addNext block)
  return { filled with site := ⟨filled.site.id, ← spanFrom opener.location⟩ }

end MFile.Grammar.Parse
