import Mathlib.Algebra.BigOperators.Ring.List
import Mathlib.Algebra.Ring.Nat
import MFile.Proofs.Grammar.Contents.Functions
import MFile.Proofs.Grammar.Functions.EndOptional
import MFile.Proofs.Lexing.Identifiers

/-!
Files lose no token: every name, number and text that a source spells is a node of its tree, as
often as it is spelled.
-/

namespace MFile

namespace Grammar.Parse

variable {x : Terminal}

theorem tells_fileUnit : Tells x fileUnit fun unit => Node.tally x (.unit unit) := by
  refine fun c s => silent_skipSeparators.bind fun _ _ _ => .checkWord fun found => ?_
  split
  · refine .freshId fun id _ => tells_localFunctions.bind fun fs _ _ => ?_
    exact .look rfl (.pure (by simp))
  · refine .eatWord (fun opener _ _ _ => .freshId fun id mid => ?_) (.freshId fun id mid => ?_)
    · have hclass : Tells x (inFrame .classBody (classDef opener)) fun c =>
          Node.tally x (.definition c) := fun c _ =>
        Says.bracketed ⟨rfl, rfl⟩ (fun _ => ⟨rfl, rfl⟩) (tells_classDef opener c _)
      refine hclass.bind fun definition _ _ => tells_localFunctions.bind fun fs _ _ => ?_
      exact .look rfl (.pure (by simp [Nat.add_assoc]))
    · refine says_statements.bind fun body c' _ _ ⟨hc', _⟩ => ?_
      subst hc'
      exact tells_localFunctions.bind fun fs _ _ => .look rfl (.pure (by simp [Nat.add_assoc]))

end Grammar.Parse

open Grammar Parse

theorem filterMap_significant (afterBreak : Bool) (tokens : List Token) :
    (significant afterBreak tokens).filterMap Token.content? = tokens.filterMap Token.content? := by
  induction tokens generalizing afterBreak with
  | nil => rfl
  | cons t ts ih =>
    rw [significant]
    split
    · rename_i htrivia
      have hnone : t.content? = none := by
        refine Token.content?_silent ?_
        cases hk : t.kind <;> simp [hk, Kind.isTrivia] at htrivia <;> rfl
      rw [ih, List.filterMap_cons_none hnone]
    split
    · rename_i hbreak
      rw [Bool.and_eq_true, beq_iff_eq] at hbreak
      rw [ih, List.filterMap_cons_none (Token.silent_of_eq rfl hbreak.2)]
    · rw [List.filterMap_cons, List.filterMap_cons, ih]

namespace Terminal

def word? : Terminal → Option String
  | word text => some text
  | _ => none

def number? : Terminal → Option String
  | number text => some text
  | _ => none

def string? : Terminal → Option String
  | string text => some text
  | _ => none

def charArray? : Terminal → Option String
  | charArray text => some text
  | _ => none

end Terminal

theorem filterMap_content? {select : Terminal → Option String} {q : Token → Bool}
    {text : Token → String}
    (h : ∀ t : Token, t.content?.bind select = if q t then some (text t) else none)
    (tokens : List Token) :
    (tokens.filterMap Token.content?).filterMap select = (tokens.filter q).map text := by
  rw [List.filterMap_filterMap, funext h]
  induction tokens with
  | nil => rfl
  | cons t ts ih =>
    rw [List.filter_cons, List.filterMap_cons, ih]
    split <;> simp_all

/-- The identifiers of a text begin with a letter, so none of them is the placeholder. -/
theorem named_ofSource {source : SourceText} {settings : Settings} {buffer : TokenBuffer}
    (h : TokenBuffer.ofSource source settings = .ok buffer) (x : Terminal) :
    Named x buffer.tokens := by
  rw [TokenBuffer.ofSource] at h
  split at h
  · cases h
  · cases h
    intro _ t ht hk hraw
    obtain ⟨c, hc, halpha⟩ := Scan.identifier_alpha _ _ _ t ht hk
    rw [hraw] at hc
    cases hc
    cases halpha

section Select

variable (t : Token)

theorem content?_word : t.content?.bind Terminal.word? =
    if t.kind == .identifier then some t.raw else none := by
  rw [Token.content?]
  cases t.kind <;> rfl

theorem content?_number : t.content?.bind Terminal.number? =
    if t.kind == .number then some t.raw else none := by
  rw [Token.content?]
  cases t.kind <;> rfl

theorem content?_string : t.content?.bind Terminal.string? =
    if t.kind == .string then some t.value else none := by
  rw [Token.content?]
  cases t.kind <;> rfl

theorem content?_charArray : t.content?.bind Terminal.charArray? =
    if t.kind == .charArray || t.kind == .directory then some t.value else none := by
  rw [Token.content?]
  cases t.kind <;> rfl

end Select

namespace FileUnit

def nodes (unit : FileUnit) : List Node := unit.walk.filterMap WalkEvent.entered?

def contents (unit : FileUnit) : List Terminal := unit.nodes.flatMap Node.contents

/-- How many `import` commands a file has. -/
def importCommands (unit : FileUnit) : Nat :=
  (unit.nodes.map fun node => (node.bodies.map MFile.importCommands).sum).sum

theorem tally_unit (unit : FileUnit) (x : Terminal) : Node.tally x (.unit unit) =
    (unit.contents ++ List.replicate unit.importCommands (Terminal.word "import")).count x := by
  have hweight : ∀ node : Node, node.weight x = node.contents.count x +
      [Terminal.word "import"].count x * (node.bodies.map MFile.importCommands).sum := by
    intro node
    rw [Node.weight, ← List.sum_map_mul_left]
    rfl
  have hnodes : (Node.unit unit).nodes = unit.nodes := rfl
  rw [Node.tally, funext hweight, hnodes, List.sum_map_add, List.sum_map_mul_left,
    List.count_append, contents, List.count_flatMap, List.count_replicate, List.count_singleton]
  simp only [importCommands, beq_iff_eq, eq_comm (b := x)]
  split <;> simp [Function.comp_def]

theorem ofTokens_count {file : String} {tokens : List Token} {unit : FileUnit} {x : Terminal}
    (hnamed : Named x tokens) (h : FileUnit.ofTokens file tokens = .ok unit) :
    (unit.contents ++ List.replicate unit.importCommands (Terminal.word "import")).count x =
      (tokens.filterMap Token.content?).count x := by
  obtain ⟨st, hparse⟩ := outcome_ok h
  obtain ⟨_, _, _, _, -, hahead, -⟩ := fileUnit_functions rfl hparse
  obtain ⟨-, -, c', hc', rfl⟩ := tells_fileUnit (x := x) 0 _
    (fun hx t ht => hnamed hx t (mem_significant ht).1) hparse
  rw [hahead, said_nil, Nat.add_zero, Nat.zero_add, Nat.zero_add] at hc'
  rw [← tally_unit, ← filterMap_significant false]
  exact hc'.symm

theorem ofTokens_contents {file : String} {tokens : List Token} {unit : FileUnit}
    (hnamed : ∀ x, Named x tokens) (h : FileUnit.ofTokens file tokens = .ok unit) :
    ∃ st, fileUnit (State.ofTokens file tokens) = .ok unit st ∧ st.ahead = [] ∧
      (unit.contents ++ List.replicate unit.importCommands (Terminal.word "import")).Perm
        (tokens.filterMap Token.content?) := by
  obtain ⟨st, hparse⟩ := outcome_ok h
  obtain ⟨_, _, _, _, -, hahead, -⟩ := fileUnit_functions rfl hparse
  exact ⟨st, hparse, hahead, List.perm_iff_count.2 fun x => ofTokens_count (hnamed x) h⟩

/-- A file that is accepted is read to its end, and its tree has the names, numbers and texts of
its tokens, each as often as the tokens have it. -/
theorem ofSource_contents {source : SourceText} {settings : Settings} {unit : FileUnit}
    (h : FileUnit.ofSource source settings = .ok unit) :
    ∃ buffer st, TokenBuffer.ofSource source settings = .ok buffer ∧
      fileUnit (State.ofTokens source.name buffer.tokens) = .ok unit st ∧ st.ahead = [] ∧
      (unit.contents.filterMap Terminal.word? ++
        List.replicate unit.importCommands "import").Perm
          ((buffer.tokens.filter (·.kind == .identifier)).map (·.raw)) ∧
      (unit.contents.filterMap Terminal.number?).Perm
        ((buffer.tokens.filter (·.kind == .number)).map (·.raw)) ∧
      (unit.contents.filterMap Terminal.string?).Perm
        ((buffer.tokens.filter (·.kind == .string)).map (·.value)) ∧
      (unit.contents.filterMap Terminal.charArray?).Perm
        ((buffer.tokens.filter fun t => t.kind == .charArray || t.kind == .directory).map
          (·.value)) := by
  rw [ofSource] at h
  split at h
  · cases h
  · rename_i buffer hbuffer
    obtain ⟨st, hparse, hahead, hperm⟩ := ofTokens_contents (named_ofSource hbuffer) h
    have hselect : ∀ (f : Terminal → Option String) {q : Token → Bool} {text : Token → String},
        (∀ t : Token, t.content?.bind f = if q t then some (text t) else none) →
        (unit.contents.filterMap f ++ (List.replicate unit.importCommands
          (Terminal.word "import")).filterMap f).Perm ((buffer.tokens.filter q).map text) := by
      intro f q text hq
      rw [← List.filterMap_append, ← filterMap_content? hq]
      exact hperm.filterMap _
    have hothers : ∀ {f : Terminal → Option String} {q : Token → Bool} {text : Token → String},
        f (.word "import") = none →
        (∀ t : Token, t.content?.bind f = if q t then some (text t) else none) →
        (unit.contents.filterMap f).Perm ((buffer.tokens.filter q).map text) := by
      intro f q text hf hq
      have hfiltered := hselect f hq
      rwa [List.filterMap_replicate_of_none hf, List.append_nil] at hfiltered
    have hwords := hselect Terminal.word? content?_word
    rw [List.filterMap_replicate_of_some (f := Terminal.word?) rfl] at hwords
    exact ⟨buffer, st, hbuffer, hparse, hahead, hwords, hothers rfl content?_number,
      hothers rfl content?_string, hothers rfl content?_charArray⟩

def importing : SourceText := .ofString "t.m" "import a.b c\nx = [1 'two' \"three\"];\n" {}

theorem ofSource_contents_importing : ∃ unit buffer, FileUnit.ofSource importing {} = .ok unit ∧
    unit.importCommands = 1 ∧ TokenBuffer.ofSource importing {} = .ok buffer ∧
      (unit.contents.filterMap Terminal.word? ++
        List.replicate unit.importCommands "import").Perm
          ((buffer.tokens.filter (·.kind == .identifier)).map (·.raw)) ∧
      (unit.contents.filterMap Terminal.charArray?).Perm
        ((buffer.tokens.filter fun t => t.kind == .charArray || t.kind == .directory).map
          (·.value)) := by
  have hrun : ((FileUnit.ofSource importing {}).toOption.any (·.importCommands == 1)) = true := by
    decide +kernel
  cases hunit : FileUnit.ofSource importing {} with
  | ok unit =>
    obtain ⟨buffer, st, hbuffer, -, -, hwords, -, -, htexts⟩ := FileUnit.ofSource_contents hunit
    rw [hunit] at hrun
    exact ⟨unit, buffer, rfl, beq_iff_eq.1 hrun, hbuffer, hwords, htexts⟩
  | error e =>
    rw [hunit] at hrun
    cases hrun

end FileUnit

end MFile
