import MFile.Grammar.Error

/-!
What a parse remembers, and the moves on it. Tokens lie behind or ahead; a parse only ever moves
tokens from one side to the other, in order, and keeps what it has reached when it fails. Every
repetition consumes a token a round, so the tokens ahead bound the rounds, and running out of them
is a defect.
-/

namespace MFile.Grammar

structure State where
  file : String
  behind : List Token := []
  ahead : List Token
  nodes : Nat := 0
  frames : List Frame := []
  /-- Open argument lists, in which `end` and a lone `:` are values. -/
  indexDepth : Nat := 0
  /-- Open `methods` blocks, whose functions always need their `end`. -/
  methodDepth : Nat := 0
  /-- A function outside of `methods` blocks has been closed by `end`. -/
  endUsed : Bool := false
  /-- The next matrix may hold placeholders. -/
  placeholders : Bool := false

/-- The tokens that the grammar sees: no comments, no continuations and no two line breaks in a
row; `afterBreak` if one has just been passed. -/
def significant : Bool → List Token → List Token
  | _, [] => []
  | afterBreak, t :: ts =>
    if t.kind.isTrivia then significant afterBreak ts
    else if afterBreak && t.kind == .newline then significant true ts
    else t :: significant (t.kind == .newline) ts

def State.ofTokens (file : String) (tokens : List Token) : State :=
  { file := file, ahead := significant false tokens }

abbrev Parse := EStateM ParseError State

inductive Round (α β : Type)
  | again (a : α)
  | done (b : β)

namespace Parse

def peek? (n : Nat) : Parse (Option Token) := return (← get).ahead[n]?

def peekKind? (n : Nat) : Parse (Option Kind) := return (← peek? n).map (·.kind)

def current? : Parse (Option Token) := peek? 0

def atEnd : Parse Bool := return (← get).ahead.isEmpty

def eatIf (p : Token → Bool) : Parse (Option Token) := fun st =>
  match st.ahead with
  | [] => .ok none st
  | t :: rest =>
    if p t then .ok (some t) { st with behind := t :: st.behind, ahead := rest } else .ok none st

def eatWhile (p : Token → Bool) : Parse (List Token) := fun st =>
  let taken := st.ahead.takeWhile p
  .ok taken { st with behind := taken.reverse ++ st.behind, ahead := st.ahead.dropWhile p }

def eat (kind : Kind) : Parse (Option Token) := eatIf (·.kind == kind)

def eatWord (word : String) : Parse (Option Token) := eatIf (·.isWord word)

def eatOperator (symbols : List String) : Parse (Option Token) :=
  eatIf fun t => t.kind == .operator && symbols.contains t.raw

def advance : Parse Unit := discard (eatIf fun _ => true)

def check (kind : Kind) : Parse Bool := return (← peekKind? 0) == some kind

def checkWord (word : String) : Parse Bool := return (← current?).any (·.isWord word)

def lastLocation : Parse Location := do
  let st ← get
  return st.behind.head?.elim ⟨st.file, .file, none⟩ (·.location)

def here : Parse Location := do
  match ← current? with
  | some t => return t.location
  | none => lastLocation

def spanFrom (start : Location) : Parse Location := return start.extendTo (← lastLocation)

def fail {α : Type} (location : Location) (cause : Cause) : Parse α :=
  throw (.grammatical location cause)

def failHere {α : Type} (cause : Option Token → Cause) : Parse α := do
  fail (← here) (cause (← current?))

def unexpected {α : Type} (what : Expectation) : Parse α := failHere (.expected what)

def stalled {α : Type} : Parse α := do throw (.internal (← here) .stalled)

def expect (kind : Kind) (what : Expectation) : Parse Token := do
  match ← eat kind with
  | some t => return t
  | none => unexpected what

def freshId : Parse NodeId := modifyGet fun st => (st.nodes, { st with nodes := st.nodes + 1 })

def siteAt (location : Location) : Parse Site := return ⟨← freshId, location⟩

def siteFrom (start : Location) : Parse Site := do siteAt (← spanFrom start)

def siteBetween (first last : Location) : Parse Site := siteAt (first.extendTo last)

/-- Runs `p` on a changed state and then undoes the change, also when `p` fails. -/
def bracketed {α : Type} (change : State → State) (undo : State → State → State) (p : Parse α) :
    Parse α := fun st =>
  match p (change st) with
  | .ok a st' => .ok a (undo st st')
  | .error e st' => .error e (undo st st')

def inFrame {α : Type} (frame : Frame) (p : Parse α) : Parse α :=
  bracketed (fun st => { st with frames := frame :: st.frames })
    (fun _ st' => { st' with frames := st'.frames.tail }) p

def keepingFrames {α : Type} (p : Parse α) : Parse α :=
  bracketed id
    (fun st st' =>
      { st' with frames := st'.frames.drop (st'.frames.length - st.frames.length) }) p

def outsideIndex {α : Type} (p : Parse α) : Parse α :=
  bracketed (fun st => { st with indexDepth := 0 })
    (fun st st' => { st' with indexDepth := st.indexDepth }) p

def inMethods {α : Type} (p : Parse α) : Parse α :=
  bracketed (fun st => { st with methodDepth := st.methodDepth + 1 })
    (fun _ st' => { st' with methodDepth := st'.methodDepth - 1 }) p

def roundsWithin {α β : Type} (body : α → Parse (Round α β)) : Nat → α → Parse β
  | 0, _ => stalled
  | fuel + 1, a => do
    match ← body a with
    | .again a => roundsWithin body fuel a
    | .done b => return b

/-- Most repetitions end in their first round, so the tokens are counted after it. -/
def rounds {α β : Type} (start : α) (body : α → Parse (Round α β)) : Parse β := do
  match ← body start with
  | .again a => roundsWithin body ((← get).ahead.length + 1) a
  | .done b => return b

def skipSeparators : Parse Unit := discard (eatWhile (·.isSeparator))

/-- A statement ends at a separator, at the end of the file, or right before a word that closes
the block around it. -/
def endStatement : Parse Unit := do
  if (← eatIf (·.isSeparator)).isNone then
    match ← current? with
    | some t => if !t.isCloser then unexpected .separator
    | none => return

end Parse

end MFile.Grammar
