import MFile.Grammar.Function

/-! Classes and the blocks inside them. -/

namespace MFile.Grammar.Parse

/-- A method with its body, or the signature of one that is defined elsewhere. -/
def addMethod (block : Block) : Parse Block := do
  let start ← here
  match ← eatWord "function" with
  | some opener =>
    let run ← inMethods (function {} opener)
    run.resolve.foldlM (fun block method => addItem start block (.method method)) block
  | none => addStatement start block (.signature (← signature start))

def addEvent (block : Block) : Parse Block := do
  let start ← here
  let name ← identifier
  addStatement start block (.event ⟨← siteAt name.site.location, name⟩)

def addEnumerator (block : Block) : Parse Block := do
  let start ← here
  let name ← identifier
  let args ← if ← check .lparen then arguments expression .rparen else pure []
  addStatement start block (.enumerator ⟨← siteFrom start, name, args⟩)

def addNext : BlockKind → Block → Parse Block
  | .properties | .arguments => addProperty
  | .methods => addMethod
  | .events => addEvent
  | .enumeration => addEnumerator

def classBlock? (t : Token) : Option BlockKind :=
  if t.kind = .keyword then (BlockKind.ofWord? t.raw).filter (· != .arguments) else none

def superclasses : Parse (List Name) := do
  if (← eatOperator ["<"]).isNone then return []
  rounds [← dottedName] fun names => do
    if (← eatOperator ["&"]).isSome then return .again (names ++ [← dottedName])
    else return .done names

def classBlocks (opener : Token) : Parse (List Block) :=
  rounds [] fun blocks => do
    skipSeparators
    if (← eatWord "end").isSome then
      endStatement
      return .done blocks
    match ← current? with
    | none => failHere (.openBlock opener.raw (opener.location.line?.getD 0))
    | some t =>
      match classBlock? t with
      | some kind =>
        advance
        return .again (blocks ++ [← block kind t (addNext kind)])
      | none => failHere .classItem

/-- `classdef (attributes) Name < Super & pkg.Other` and its blocks, after the keyword. -/
def classDef (opener : Token) : Parse ClassDef := do
  let id ← freshId
  let attrs ← optAttributes
  let name ← identifier
  let supers ← superclasses
  let place ← spanFrom opener.location
  let blocks ← classBlocks opener
  return ⟨⟨id, place⟩, name, attrs, supers, blocks⟩

end MFile.Grammar.Parse
