import MFile.Proofs.Grammar.Runs
import MFile.Proofs.Grammar.Exits

/-!
What is open behind some tokens of an expression. This is read off the tokens alone, one after the
other: a bracket behind a name opens an argument list, a parenthesis behind `@` opens the parameters
of a lambda, and behind `.` a dynamic field. The body of a lambda begins behind its parameters and
has no bracket of its own. It ends with whatever is around it, or at a colon that would be its
third: a range has two at most, so that colon belongs to a range outside.
-/

namespace MFile.Grammar

inductive Enclosure
  | arguments
  | field
  | parameters
  | body
  | group
deriving DecidableEq

/-- Something open, with the colons of the range that is being read in it. -/
structure Layer where
  enclosure : Enclosure
  colons : Nat := 0

inductive Last
  | name
  | value
  | handle
  | dot
  | nothing
deriving DecidableEq

def Last.endsOperand : Last → Bool
  | .name | .value => true
  | _ => false

/-- What is open, the innermost first, and what the last token was. The outermost layer is whatever
the tokens stand in. -/
structure Nest where
  layers : List Layer := [{ enclosure := .group }]
  last : Last := .nothing

def Layer.isBody (l : Layer) : Bool := l.enclosure == .body

def Layer.isFull (l : Layer) : Bool := l.isBody && 2 ≤ l.colons

def transposeSymbols : List String := ["'", ".'"]

def looseSymbols : List String := ["==", "~=", "!=", "<", "<=", ">", ">=", "&", "|", "&&", "||"]

namespace Nest

def opened (n : Nest) (enclosure : Enclosure) : Nest := ⟨{ enclosure } :: n.layers, .nothing⟩

def left (l : Layer) (outer : List Layer) : Nest :=
  match l.enclosure with
  | .arguments | .field => ⟨outer, .name⟩
  | .parameters => ⟨{ enclosure := .body } :: outer, .nothing⟩
  | .body | .group => ⟨outer, .value⟩

def closed (n : Nest) : Nest :=
  match n.layers.dropWhile Layer.isBody with
  | [] => ⟨[], .value⟩
  | l :: outer => left l outer

def restarted : List Layer → List Layer
  | [] => []
  | l :: outer => { l with colons := 0 } :: outer

def counted : List Layer → List Layer
  | [] => []
  | l :: outer => { l with colons := l.colons + 1 } :: outer

def next (n : Nest) (t : Token) : Nest :=
  match t.kind with
  | .identifier => { n with last := .name }
  | .number | .charArray | .string | .keyword => { n with last := .value }
  | .lparen =>
    match n.last with
    | .name => n.opened .arguments
    | .dot => n.opened .field
    | .handle => n.opened .parameters
    | .value | .nothing => n.opened .group
  | .lbrace => if n.last = .name then n.opened .arguments else n.opened .group
  | .lbracket => n.opened .group
  | .rparen | .rbracket | .rbrace => n.closed
  | .comma | .semicolon | .newline =>
    ⟨restarted (n.layers.dropWhile Layer.isBody), .nothing⟩
  | .colon =>
    if n.last.endsOperand then ⟨counted (n.layers.dropWhile Layer.isFull), .nothing⟩
    else { n with last := .value }
  | .operator =>
    if t.raw ∈ transposeSymbols then { n with last := .value }
    else if t.raw ∈ looseSymbols then ⟨restarted n.layers, .nothing⟩
    else { n with last := .nothing }
  | .selection => { n with last := .dot }
  | .handle => { n with last := .handle }
  | _ => { n with last := .nothing }

def of (run : List Token) : Nest := run.foldl next {}

theorem of_append_singleton (run : List Token) (t : Token) :
    of (run ++ [t]) = (of run).next t := by
  rw [of, List.foldl_append]
  rfl

/-! ## What a token does -/

section Next

variable {layers : List Layer} {last : Last} {t : Token}

theorem next_name (h : t.kind = .identifier) : next ⟨layers, last⟩ t = ⟨layers, .name⟩ := by
  rw [next, h]

theorem next_value
    (h : t.kind = .number ∨ t.kind = .charArray ∨ t.kind = .string ∨ t.kind = .keyword) :
    next ⟨layers, last⟩ t = ⟨layers, .value⟩ := by
  obtain h | h | h | h := h <;> rw [next, h]

theorem next_loneColon (h : t.kind = .colon) : next ⟨layers, .nothing⟩ t = ⟨layers, .value⟩ := by
  rw [next, h]
  rfl

theorem next_colon (h : t.kind = .colon) (hlast : last.endsOperand = true) :
    next ⟨layers, last⟩ t = ⟨counted (layers.dropWhile Layer.isFull), .nothing⟩ := by
  rw [next, h]
  exact if_pos hlast

theorem next_arguments (h : t.kind = .lparen ∨ t.kind = .lbrace) :
    next ⟨layers, .name⟩ t = ⟨{ enclosure := .arguments } :: layers, .nothing⟩ := by
  obtain h | h := h <;> rw [next, h] <;> rfl

theorem next_field (h : t.kind = .lparen) :
    next ⟨layers, .dot⟩ t = ⟨{ enclosure := .field } :: layers, .nothing⟩ := by
  rw [next, h]
  rfl

theorem next_parameters (h : t.kind = .lparen) :
    next ⟨layers, .handle⟩ t = ⟨{ enclosure := .parameters } :: layers, .nothing⟩ := by
  rw [next, h]
  rfl

theorem next_group (h : t.kind = .lparen ∨ t.kind = .lbracket ∨ t.kind = .lbrace) :
    next ⟨layers, .nothing⟩ t = ⟨{ enclosure := .group } :: layers, .nothing⟩ := by
  obtain h | h | h := h <;> rw [next, h] <;> rfl

theorem next_closing (n : Nest) (h : t.kind.isClosing = true) : n.next t = n.closed := by
  cases hkind : t.kind <;> simp only [hkind, Kind.isClosing, Bool.false_eq_true] at h <;>
    rw [next, hkind]

theorem next_separator (n : Nest) (h : t.kind.isSeparator = true) :
    n.next t = ⟨restarted (n.layers.dropWhile Layer.isBody), .nothing⟩ := by
  cases hkind : t.kind <;> simp only [hkind, Kind.isSeparator, Bool.false_eq_true] at h <;>
    rw [next, hkind]

theorem next_transpose (h : t.kind = .operator) (hraw : t.raw ∈ transposeSymbols) :
    next ⟨layers, last⟩ t = ⟨layers, .value⟩ := by
  rw [next, h]
  exact if_pos hraw

theorem next_loose (h : t.kind = .operator) (hraw : t.raw ∈ looseSymbols) :
    next ⟨layers, last⟩ t = ⟨restarted layers, .nothing⟩ := by
  have hno : t.raw ∉ transposeSymbols := by
    intro hmem
    simp only [looseSymbols, transposeSymbols, List.mem_cons, List.not_mem_nil, or_false]
      at hraw hmem
    obtain hmem | hmem := hmem <;> simp [hmem] at hraw
  rw [next, h]
  exact (if_neg hno).trans (if_pos hraw)

theorem next_tight (h : t.kind = .operator) (hraw : t.raw ∉ transposeSymbols ++ looseSymbols) :
    next ⟨layers, last⟩ t = ⟨layers, .nothing⟩ := by
  rw [List.mem_append, not_or] at hraw
  rw [next, h]
  exact (if_neg hraw.1).trans (if_neg hraw.2)

theorem foldl_next_tight {ops : List Token}
    (h : ∀ op ∈ ops, op.kind = .operator ∧ op.raw ∉ transposeSymbols ++ looseSymbols) :
    ops.foldl next ⟨layers, .nothing⟩ = ⟨layers, .nothing⟩ := by
  induction ops with
  | nil => rfl
  | cons op ops ih =>
    obtain ⟨⟨hkind, hraw⟩, hops⟩ := List.forall_mem_cons.1 h
    rw [List.foldl_cons, next_tight hkind hraw, ih hops]

theorem next_dot (h : t.kind = .selection) : next ⟨layers, last⟩ t = ⟨layers, .dot⟩ := by
  rw [next, h]

theorem next_handle (h : t.kind = .handle) : next ⟨layers, last⟩ t = ⟨layers, .handle⟩ := by
  rw [next, h]

theorem next_metaclass (h : t.kind = .metaclass) :
    next ⟨layers, last⟩ t = ⟨layers, .nothing⟩ := by
  rw [next, h]

end Next

/-! ## The end of bodies -/

section Bodies

variable {bodies outer : List Layer} {l : Layer} {last : Last}

theorem dropWhile_bodies (hbodies : ∀ b ∈ bodies, b.isBody = true) (hl : l.isBody = false) :
    (bodies ++ l :: outer).dropWhile Layer.isBody = l :: outer := by
  rw [List.dropWhile_append_of_pos hbodies, List.dropWhile_cons_of_neg (by simp [hl])]

theorem closed_bodies (hbodies : ∀ b ∈ bodies, b.isBody = true) (hl : l.isBody = false) :
    closed ⟨bodies ++ l :: outer, last⟩ = left l outer := by
  rw [closed, dropWhile_bodies hbodies hl]

theorem dropWhile_full (hbodies : ∀ b ∈ bodies, b.isFull = true) (hl : l.colons < 2) :
    (bodies ++ l :: outer).dropWhile Layer.isFull = l :: outer := by
  rw [List.dropWhile_append_of_pos hbodies, List.dropWhile_cons_of_neg]
  rw [Layer.isFull, Bool.and_eq_true, decide_eq_true_eq]
  omega

end Bodies

end Nest

/-! ## Open argument lists -/

/-- The argument lists among some layers, the outermost first. What stands in the body of a lambda
or in a field is no index, whatever is around it, and does not count. -/
def listsAmong : List Layer → Nat
  | [] => 0
  | l :: inner =>
    match l.enclosure with
    | .arguments => listsAmong inner + 1
    | .field | .body => 0
    | .parameters | .group => listsAmong inner

def openLists (run : List Token) : Nat := listsAmong (Nest.of run).layers.reverse

theorem listsAmong_bodies {bodies : List Layer} (h : ∀ b ∈ bodies, b.isBody = true) :
    listsAmong bodies = 0 := by
  cases bodies with
  | nil => rfl
  | cons b bodies =>
    have hb : b.enclosure = .body := beq_iff_eq.1 (h b List.mem_cons_self)
    rw [listsAmong, hb]

/-!
## Where a parse stands

Where a parse stands in an expression: which tokens it has passed, what is open behind them, and
how many argument lists it remembers to be open. A parse that ends goes back to what was open before
it, but for bodies of lambdas, which nothing has closed yet and which no operator can go on. A parse
that fails has as many argument lists more in mind as are open inside.
-/

/-- Between `s₀` and `s` some tokens have been passed, and `n` is open behind them. In `s` it is
remembered that `d` argument lists are open, and all else that was remembered in `s₀`. -/
structure Stands (s₀ : State) (d : Nat) (n : Nest) (s : State) : Prop where
  run : ∃ run, s₀.Passes run s ∧ Nest.of run = n
  indexDepth : s.indexDepth = d
  file : s.file = s₀.file
  frames : s.frames = s₀.frames
  methodDepth : s.methodDepth = s₀.methodDepth
  endUsed : s.endUsed = s₀.endUsed
  placeholders : s₀.placeholders = false → s.placeholders = false

def bindingSymbols : List String :=
  ["||", "&&", "|", "&", "==", "~=", "!=", "<", "<=", ">", ">=", "+", "-", "*", ".*", "/", "./",
    "\\", ".\\", "'", ".'", "^", ".^"]

def State.NoneOf (s : State) (symbols : List String) : Prop :=
  ∀ t ∈ s.ahead.head?, t.kind = .operator → t.raw ∉ symbols

def State.ColonNext (s : State) : Prop := ∃ t ∈ s.ahead.head?, t.kind = .colon

theorem State.NoneOf.append {s : State} {symbols symbols' : List String} (h : s.NoneOf symbols)
    (h' : s.NoneOf symbols') : s.NoneOf (symbols ++ symbols') := by
  intro t ht hkind hmem
  obtain hmem | hmem := List.mem_append.1 hmem
  · exact h t ht hkind hmem
  · exact h' t ht hkind hmem

/-- Bodies that have been read as far as they go: neither an operator nor a colon goes on. -/
structure Stuck (bodies : List Layer) (s : State) : Prop where
  body : ∀ b ∈ bodies, b.isBody = true
  operator : bodies ≠ [] → s.NoneOf bindingSymbols
  colon : s.ColonNext → ∀ b ∈ bodies, 2 ≤ b.colons

def Inside (s₀ : State) (d : Nat) (top : Layer) (below : List Layer) (s : State) : Prop :=
  ∃ bodies last, Stands s₀ d ⟨bodies ++ top :: below, last⟩ s ∧ ∀ b ∈ bodies, b.isBody = true

def Ended (s₀ : State) (d : Nat) (top : Layer) (below : List Layer) (s : State) : Prop :=
  ∃ bodies last, Stands s₀ d ⟨bodies ++ top :: below, last⟩ s ∧ last.endsOperand = true ∧
    Stuck bodies s

def Broken (s₀ : State) (d : Nat) (enclosure : Enclosure) (below : List Layer) (s : State) : Prop :=
  ∃ inner top last, top.enclosure = enclosure ∧
    Stands s₀ (d + listsAmong inner.reverse) ⟨inner ++ top :: below, last⟩ s

variable {s₀ s : State} {d d' : Nat} {n : Nest} {t : Token} {rest taken : List Token}
  {top : Layer} {below bodies : List Layer} {last : Last} {e : Enclosure}

namespace Stands

theorem refl (s : State) : Stands s s.indexDepth {} s :=
  ⟨⟨[], .refl s, rfl⟩, rfl, rfl, rfl, rfl, rfl, id⟩

theorem past (h : Stands s₀ d n s) (hahead : s.ahead = t :: rest) :
    Stands s₀ d (n.next t) (s.past t rest) := by
  obtain ⟨run, hpasses, rfl⟩ := h.run
  exact { h with
    run := ⟨run ++ [t], hpasses.trans (s.passes_past t rest hahead),
      Nest.of_append_singleton run t⟩ }

theorem numbered (h : Stands s₀ d n s) : Stands s₀ d n s.numbered := by
  obtain ⟨run, hpasses, hn⟩ := h.run
  exact { h with run := ⟨run, ⟨hpasses.ahead, hpasses.behind⟩, hn⟩ }

theorem remembering (h : Stands s₀ d n s) (d' : Nat) :
    Stands s₀ d' n { s with indexDepth := d' } := by
  obtain ⟨run, hpasses, hn⟩ := h.run
  exact { h with run := ⟨run, ⟨hpasses.ahead, hpasses.behind⟩, hn⟩, indexDepth := rfl }

theorem plain (h : Stands s₀ d n s) : Stands s₀ d n { s with placeholders := false } := by
  obtain ⟨run, hpasses, hn⟩ := h.run
  exact { h with
    run := ⟨run, ⟨hpasses.ahead, hpasses.behind⟩, hn⟩
    placeholders := fun _ => rfl }

theorem passed (h : Stands s₀ d n s) (hahead : s.ahead = taken ++ rest) :
    Stands s₀ d (taken.foldl Nest.next n)
      { s with behind := taken.reverse ++ s.behind, ahead := rest } := by
  obtain ⟨run, hpasses, rfl⟩ := h.run
  exact { h with run := ⟨run ++ taken, hpasses.trans ⟨hahead, rfl⟩, List.foldl_append⟩ }

theorem inside (h : Stands s₀ d ⟨top :: below, last⟩ s) : Inside s₀ d top below s :=
  ⟨[], last, h, by simp⟩

theorem ended (h : Stands s₀ d ⟨top :: below, last⟩ s) (hlast : last.endsOperand = true) :
    Ended s₀ d top below s :=
  ⟨[], last, h, hlast, by simp, fun hne => absurd rfl hne, by simp⟩

theorem broken (h : Stands s₀ d ⟨top :: below, last⟩ s) : Broken s₀ d top.enclosure below s :=
  ⟨[], top, last, rfl, h⟩

end Stands

namespace Inside

theorem broken (h : Inside s₀ d top below s) : Broken s₀ d top.enclosure below s := by
  obtain ⟨bodies, last, hstands, hbodies⟩ := h
  have hnone : listsAmong bodies.reverse = 0 :=
    listsAmong_bodies fun b hb => hbodies b (List.mem_reverse.1 hb)
  exact ⟨bodies, top, last, rfl, by rwa [hnone]⟩

theorem closed (h : Inside s₀ d top below s) (hahead : s.ahead = t :: rest)
    (hkind : t.kind.isClosing = true) (htop : top.isBody = false) :
    Stands s₀ d (Nest.left top below) (s.past t rest) := by
  obtain ⟨bodies, last, hstands, hbodies⟩ := h
  have hpast := hstands.past hahead
  rw [Nest.next_closing _ hkind, Nest.closed_bodies hbodies htop] at hpast
  exact hpast

theorem separated (h : Inside s₀ d ⟨e, d'⟩ below s) (hahead : s.ahead = t :: rest)
    (hkind : t.kind.isSeparator = true) (he : Layer.isBody ⟨e, d'⟩ = false) :
    Stands s₀ d ⟨⟨e, 0⟩ :: below, .nothing⟩ (s.past t rest) := by
  obtain ⟨bodies, last, hstands, hbodies⟩ := h
  have hpast := hstands.past hahead
  rw [Nest.next_separator _ hkind] at hpast
  dsimp only at hpast
  rw [Nest.dropWhile_bodies hbodies he] at hpast
  exact hpast

end Inside

namespace Ended

theorem inside (h : Ended s₀ d top below s) : Inside s₀ d top below s := by
  obtain ⟨bodies, last, hstands, -, hstuck⟩ := h
  exact ⟨bodies, last, hstands, hstuck.body⟩

theorem broken (h : Ended s₀ d top below s) : Broken s₀ d top.enclosure below s := h.inside.broken

theorem numbered (h : Ended s₀ d top below s) : Ended s₀ d top below s.numbered := by
  obtain ⟨bodies, last, hstands, hlast, hstuck⟩ := h
  exact ⟨bodies, last, hstands.numbered, hlast, ⟨hstuck.body, hstuck.operator, hstuck.colon⟩⟩

theorem remembering (h : Ended s₀ d top below s) (d' : Nat) :
    Ended s₀ d' top below { s with indexDepth := d' } := by
  obtain ⟨bodies, last, hstands, hlast, hstuck⟩ := h
  refine ⟨bodies, last, hstands.remembering d', hlast, ?_⟩
  exact ⟨hstuck.body, hstuck.operator, hstuck.colon⟩

theorem stands (h : Ended s₀ d top below s) (hahead : s.ahead = t :: rest)
    (hkind : t.kind = .operator) (hraw : t.raw ∈ bindingSymbols) :
    ∃ last, Stands s₀ d ⟨top :: below, last⟩ s := by
  obtain ⟨bodies, last, hstands, hlast, hstuck⟩ := h
  cases bodies with
  | nil => exact ⟨last, hstands⟩
  | cons b bodies =>
    have hnone := hstuck.operator (List.cons_ne_nil _ _) t (by rw [hahead]; rfl) hkind
    exact absurd hraw hnone

theorem colon (h : Ended s₀ d ⟨e, d'⟩ below s) (hahead : s.ahead = t :: rest)
    (hkind : t.kind = .colon) (hroom : d' < 2) :
    Stands s₀ d ⟨⟨e, d' + 1⟩ :: below, .nothing⟩ (s.past t rest) := by
  obtain ⟨bodies, last, hstands, hlast, hstuck⟩ := h
  have hfull : ∀ b ∈ bodies, b.isFull = true := by
    intro b hb
    have hcolons := hstuck.colon ⟨t, by rw [hahead]; rfl, hkind⟩ b hb
    rw [Layer.isFull, hstuck.body b hb, decide_eq_true hcolons]
    rfl
  have hpast := hstands.past hahead
  rw [Nest.next_colon hkind hlast, Nest.dropWhile_full hfull hroom] at hpast
  exact hpast

end Ended

namespace Broken

variable {l : Layer}

theorem widen (h : Broken s₀ d' e (top :: below) s)
    (hd : ∀ (l : Layer) (inner : List Layer), l.enclosure = e →
      d + listsAmong (l :: inner) = d' + listsAmong inner) :
    Broken s₀ d top.enclosure below s := by
  obtain ⟨inner, l, last, hl, hstands⟩ := h
  refine ⟨inner ++ [l], top, last, rfl, ?_⟩
  rw [List.reverse_append, List.reverse_singleton, List.singleton_append, hd l _ hl,
    List.append_assoc]
  exact hstands

theorem arguments (h : Broken s₀ (d + 1) .arguments (top :: below) s) :
    Broken s₀ d top.enclosure below s :=
  h.widen fun l inner hl => by
    rw [listsAmong, hl]
    exact Nat.add_left_comm d _ 1 |>.trans (Nat.add_comm _ _)

theorem group (h : Broken s₀ d .group (top :: below) s) : Broken s₀ d top.enclosure below s :=
  h.widen fun l inner hl => by rw [listsAmong, hl]

theorem parameters (h : Broken s₀ d .parameters (top :: below) s) :
    Broken s₀ d top.enclosure below s :=
  h.widen fun l inner hl => by rw [listsAmong, hl]

theorem restored (h : Broken s₀ d' e (top :: below) s) (he : e = .body ∨ e = .field) (d : Nat) :
    Broken s₀ d top.enclosure below { s with indexDepth := d } := by
  obtain ⟨inner, l, last, hl, hstands⟩ := h
  have hnone : listsAmong (l :: inner.reverse) = 0 := by
    obtain rfl | rfl := he <;> rw [listsAmong, hl]
  refine ⟨inner ++ [l], top, last, rfl, ?_⟩
  rw [List.reverse_append, List.reverse_singleton, List.singleton_append, hnone, List.append_assoc]
  exact hstands.remembering d

end Broken

theorem Ended.restored (h : Ended s₀ d ⟨e, d'⟩ (top :: below) s) (he : e = .body ∨ e = .field) :
    Broken s₀ d top.enclosure below s := by
  have hbroken : Broken s₀ s.indexDepth top.enclosure below s := h.broken.restored he s.indexDepth
  obtain ⟨_, _, hstands, _⟩ := h
  rwa [hstands.indexDepth] at hbroken

end MFile.Grammar
