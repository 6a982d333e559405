import MFile.Grammar.Block
import MFile.Grammar.Nesting

/-! Functions: signatures, and runs of functions with or without their `end`. -/

namespace MFile.Grammar.Parse

def outputs : Parse (List Name) :=
  rounds [] fun names => do
    match ← peekKind? 0 with
    | some .rbracket =>
      advance
      return .done names
    | some .comma =>
      advance
      return .again names
    | some .identifier => return .again (names ++ [← identifier])
    | _ => unexpected .identifier

def signatureHead : Parse (List Name × Name) := do
  if (← eat .lbracket).isSome then
    let names ← outputs
    discard (expect .assignment .outputAssignment)
    return (names, ← dottedName)
  else
    let first ← dottedName
    if ← check .assignment then
      if first.identifier?.isNone then fail first.site.location .compoundOutput
      advance
      return ([first], ← dottedName)
    else return ([], first)

/-- `[outs] = name(ins)`, `out = name(ins)`, `name(ins)` or `name`. -/
def signature (start : Location) : Parse Signature := do
  let (outs, name) ← signatureHead
  let ins ← if (← eat .lparen).isSome then parameters else pure []
  return ⟨← siteFrom start, name, ins, outs⟩

structure OpenFunction where
  opener : Token
  index : Nat
  id : NodeId
  signature : Signature
  validation : List Block
  body : List Stmt
  inMethod : Bool

def OpenFunction.finish (f : OpenFunction) (terminated : Bool) : FunctionDef :=
  ⟨⟨f.id, f.opener.location⟩, f.signature, f.validation, f.body, [], terminated⟩

def OpenFunction.shownName (f : OpenFunction) : String :=
  f.signature.name.dotted?.getD f.signature.name.kindName

def pushFrame (frame : Frame) : Parse Unit :=
  modify fun st => { st with frames := frame :: st.frames }

def popFrame : Parse Unit := modify fun st => { st with frames := st.frames.tail }

def validationBlocks : Parse (List Block) :=
  rounds [] fun blocks => do
    skipSeparators
    match ← eatWord "arguments" with
    | some opener => return .again (blocks ++ [← block .arguments opener addProperty])
    | none => return .done blocks

/-- A function up to its body, after its keyword. The frame of the function is left open. -/
def openFunction (run : FunctionRun) (parent : Option Nat) (opener : Token) :
    Parse (OpenFunction × FunctionRun) := do
  let id ← freshId
  let signature ← signature opener.location
  let inMethod := 0 < (← get).methodDepth
  pushFrame .function
  let validation ← validationBlocks
  return (⟨opener, run.size, id, signature, validation, [], inMethod⟩, run.push parent)

def closeWithEnd (f : OpenFunction) (run : FunctionRun) : Parse FunctionRun := do
  if (← eatWord "end").isNone then
    match ← current? with
    | some t => fail t.location (.strayCloser t.raw)
    | none => unexpected .blockEnd
  unless f.inMethod do modify fun st => { st with endUsed := true }
  endStatement
  popFrame
  return run.fill f.index (f.finish true)

/-- Closes the functions that are open at the end of the file, innermost first, which is allowed
where no function has an `end`. -/
def closeAtEndOfFile (functions : List OpenFunction) (run : FunctionRun) : Parse FunctionRun := do
  let endUsed := (← get).endUsed
  match functions.find? fun f => f.inMethod || endUsed with
  | some f =>
    fail f.opener.location
      (if f.inMethod then .openMethod f.shownName else .openFunction f.shownName)
  | none => return functions.foldl (fun run f => run.fill f.index (f.finish false)) run

structure RunSoFar where
  current : OpenFunction
  enclosing : List OpenFunction
  run : FunctionRun

def functionRound (soFar : RunSoFar) : Parse (Round RunSoFar FunctionRun) := do
  let body ← statements
  let current := { soFar.current with body := soFar.current.body ++ body }
  match ← eatWord "function" with
  | some opener =>
    let (inner, run) ← openFunction soFar.run (some current.index) opener
    return .again ⟨inner, current :: soFar.enclosing, run⟩
  | none =>
    if ← atEnd then return .done (← closeAtEndOfFile (current :: soFar.enclosing) soFar.run)
    let run ← closeWithEnd current soFar.run
    match soFar.enclosing with
    | [] => return .done run
    | parent :: enclosing => return .again ⟨parent, enclosing, run⟩

/-- A function, after its keyword, up to the `end` that closes it or to the end of the file, with
every function inside of it. -/
def function (run : FunctionRun) (opener : Token) : Parse FunctionRun :=
  keepingFrames do
    let (first, run) ← openFunction run none opener
    rounds ⟨first, [], run⟩ functionRound

def localFunctions : Parse (List FunctionDef) := do
  let run ← rounds ({} : FunctionRun) fun run => do
    skipSeparators
    match ← eatWord "function" with
    | some opener => return .again (← function run opener)
    | none =>
      match ← current? with
      | none => return .done run
      | some t =>
        if t.isCloser then fail t.location (.strayCloser t.raw) else failHere .afterFunctions
  return run.resolve

end MFile.Grammar.Parse
