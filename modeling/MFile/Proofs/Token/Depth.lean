import MFile.Lexing.State

/-!
What stands around a token, told from the tokens before it alone: the brackets that are open, the
words that have opened the blocks around it, and how many functions have begun. An `end` inside
brackets is a value; everywhere else it closes the innermost block.
-/

namespace MFile

structure OpenBlock where
  word : String
  /-- How many functions have begun before it. -/
  number : Nat
deriving DecidableEq

structure Depth where
  brackets : Nat := 0
  /-- The innermost block first. -/
  blocks : List OpenBlock := []
  functions : Nat := 0
deriving DecidableEq

namespace Depth

def blocksAfter (d : Depth) (word : String) : List OpenBlock :=
  if (Lexing.Block.ofWord? word).isSome then ⟨word, d.functions⟩ :: d.blocks
  else if word = "end" then d.blocks.tail
  else d.blocks

def step (d : Depth) (t : Token) : Depth :=
  if t.kind.isOpening then { d with brackets := d.brackets + 1 }
  else if t.kind.isClosing then { d with brackets := d.brackets - 1 }
  else if t.kind = .keyword ∧ d.brackets = 0 then
    { d with
      blocks := d.blocksAfter t.raw
      functions := d.functions + if t.raw = "function" then 1 else 0 }
  else d

def past (d : Depth) (run : List Token) : Depth := run.foldl step d

def innermost? (d : Depth) : Option Nat :=
  (d.blocks.find? (·.word == "function")).map (·.number)

def inMethods (d : Depth) : Bool := d.blocks.any (·.word == "methods")

variable (d : Depth) {t : Token}

@[simp] theorem past_nil : d.past [] = d := rfl

@[simp] theorem past_cons (t : Token) (run : List Token) :
    d.past (t :: run) = (d.step t).past run := rfl

@[simp] theorem past_append (run run' : List Token) :
    d.past (run ++ run') = (d.past run).past run' := List.foldl_append

theorem step_opening (h : t.kind.isOpening = true) :
    d.step t = { d with brackets := d.brackets + 1 } := if_pos h

theorem not_isOpening_of_isClosing {kind : Kind} (h : kind.isClosing = true) :
    kind.isOpening = false := by
  cases kind <;> first | rfl | cases h

theorem step_closing (h : t.kind.isClosing = true) :
    d.step t = { d with brackets := d.brackets - 1 } := by
  rw [step, if_neg (by rw [not_isOpening_of_isClosing h]; decide), if_pos h]

theorem step_other (ho : t.kind.isOpening = false) (hc : t.kind.isClosing = false)
    (hk : t.kind ≠ .keyword) : d.step t = d := by
  rw [step, if_neg (by rw [ho]; decide), if_neg (by rw [hc]; decide), if_neg fun h => hk h.1]

theorem step_keyword (hk : t.kind = .keyword) (hb : d.brackets = 0) :
    d.step t = { d with
      blocks := d.blocksAfter t.raw
      functions := d.functions + if t.raw = "function" then 1 else 0 } := by
  rw [step, if_neg (by rw [hk]; decide), if_neg (by rw [hk]; decide), if_pos ⟨hk, hb⟩]

theorem step_keyword_inside (hk : t.kind = .keyword) (hb : 0 < d.brackets) : d.step t = d := by
  rw [step, if_neg (by rw [hk]; decide), if_neg (by rw [hk]; decide), if_neg fun h => by omega]

end Depth

/-- A `function` word, with the number of the innermost function that is open at it. -/
structure FunctionWord where
  location : Location
  parent : Option Nat
  inMethods : Bool
deriving DecidableEq

def functionWords : Depth → List Token → List FunctionWord
  | _, [] => []
  | d, t :: ts =>
    if t.isWord "function" then
      ⟨t.location, d.innermost?, d.inMethods⟩ :: functionWords (d.step t) ts
    else functionWords (d.step t) ts

theorem functionWords_append (d : Depth) (run run' : List Token) :
    functionWords d (run ++ run') = functionWords d run ++ functionWords (d.past run) run' := by
  induction run generalizing d with
  | nil => rfl
  | cons t run ih =>
    rw [List.cons_append, functionWords, functionWords, ih]
    split <;> rfl

theorem functionWords_eq_nil {run : List Token} (h : ∀ t ∈ run, t.isWord "function" = false)
    (d : Depth) : functionWords d run = [] := by
  induction run generalizing d with
  | nil => rfl
  | cons t run ih =>
    obtain ⟨ht, hrun⟩ := List.forall_mem_cons.1 h
    rw [functionWords, ht, if_neg (by decide), ih hrun]

/-! ## Runs that change nothing -/

/-- Part of an expression: whatever it opens it closes, and no function or path is in it. If it is
`deep`, it may hold an `end`, and then stands inside brackets. -/
structure Calm (deep : Bool) (run : List Token) : Prop where
  past_eq : ∀ d : Depth, (deep = true → 0 < d.brackets) → d.past run = d
  noFunction : ∀ t ∈ run, t.isWord "function" = false
  noPath : ∀ t ∈ run, t.kind ≠ .directory

/-- Part of a body: whatever it opens outside of brackets it closes, and no function begins. -/
structure Level (run : List Token) : Prop where
  past_eq : ∀ d : Depth, d.brackets = 0 → d.past run = d
  noFunction : ∀ t ∈ run, t.isWord "function" = false

namespace Calm

variable {deep : Bool} {run run' : List Token} {t : Token}

theorem nil : Calm deep [] :=
  ⟨fun _ _ => rfl, fun _ ht => absurd ht List.not_mem_nil, fun _ ht => absurd ht List.not_mem_nil⟩

theorem append (h : Calm deep run) (h' : Calm deep run') : Calm deep (run ++ run') := by
  refine ⟨fun d hd => ?_, fun t ht => ?_, fun t ht => ?_⟩
  · rw [Depth.past_append, h.past_eq d hd, h'.past_eq d hd]
  · exact (List.mem_append.1 ht).elim (h.noFunction t) (h'.noFunction t)
  · exact (List.mem_append.1 ht).elim (h.noPath t) (h'.noPath t)

theorem deepen (h : Calm false run) : Calm deep run :=
  ⟨fun d _ => h.past_eq d nofun, h.noFunction, h.noPath⟩

theorem inside (h : Calm deep run) : Calm true run :=
  ⟨fun d hd => h.past_eq d fun _ => hd rfl, h.noFunction, h.noPath⟩

theorem of_kind (ho : t.kind.isOpening = false) (hc : t.kind.isClosing = false)
    (hk : t.kind ≠ .keyword) (hp : t.kind ≠ .directory) : Calm deep [t] := by
  refine ⟨fun d _ => d.step_other ho hc hk, ?_, ?_⟩
  · rintro u hu
    rw [List.mem_singleton.1 hu, Token.isWord, beq_eq_false_iff_ne.2 hk, Bool.false_and]
  · rintro u hu
    rwa [List.mem_singleton.1 hu]

theorem last (hk : t.kind = .keyword) (hraw : t.raw = "end") : Calm true [t] := by
  refine ⟨fun d hd => d.step_keyword_inside hk (hd rfl), ?_, ?_⟩
  · rintro u hu
    rw [List.mem_singleton.1 hu, Token.isWord, hraw]
    exact Bool.and_false _
  · rintro u hu
    rw [List.mem_singleton.1 hu, hk]
    decide

theorem level (h : Calm false run) : Level run := ⟨fun d _ => h.past_eq d nofun, h.noFunction⟩

end Calm

theorem last_append {run run' : List Token} {t : Token} (h : t ∈ (run ++ run').getLast?) :
    t ∈ run'.getLast? ∨ run' = [] ∧ t ∈ run.getLast? := by
  rw [List.getLast?_append] at h
  cases hlast : run'.getLast? with
  | none => exact .inr ⟨List.getLast?_eq_none_iff.1 hlast, by rwa [hlast] at h⟩
  | some u => exact .inl (by rwa [hlast] at h)

structure Phrase (deep : Bool) (run : List Token) : Prop extends Calm deep run where
  solid : ∀ t ∈ run.getLast?, t.isSeparator = false

namespace Phrase

variable {deep : Bool} {run run' : List Token} {t : Token}

theorem nil : Phrase deep [] := ⟨.nil, by simp⟩

theorem append (h : Phrase deep run) (h' : Phrase deep run') : Phrase deep (run ++ run') := by
  refine ⟨h.toCalm.append h'.toCalm, fun t ht => ?_⟩
  exact (last_append ht).elim (h'.solid t) fun hrun => h.solid t hrun.2

theorem single (h : Calm deep [t]) (ht : t.isSeparator = false) : Phrase deep [t] :=
  ⟨h, by simpa using ht⟩

theorem deepen (h : Phrase false run) : Phrase deep run := ⟨h.toCalm.deepen, h.solid⟩

theorem of_kind (ho : t.kind.isOpening = false) (hc : t.kind.isClosing = false)
    (hs : t.kind.isSeparator = false) (hk : t.kind ≠ .keyword) (hp : t.kind ≠ .directory) :
    Phrase deep [t] :=
  .single (.of_kind ho hc hk hp) hs

end Phrase

def Closes (run : List Token) : Prop :=
  ∃ inside closer, run = inside ++ [closer] ∧ Calm true inside ∧ closer.kind.isClosing = true

namespace Closes

variable {deep : Bool} {run run' : List Token} {opener closer : Token}

theorem single (h : closer.kind.isClosing = true) : Closes [closer] := ⟨[], closer, rfl, .nil, h⟩

theorem after (h : Calm deep run) (h' : Closes run') : Closes (run ++ run') := by
  obtain ⟨inside, closer, rfl, hinside, hcloser⟩ := h'
  exact ⟨run ++ inside, closer, (List.append_assoc _ _ _).symm, h.inside.append hinside, hcloser⟩

theorem not_word {kind : Kind} (h : kind.isOpening = true ∨ kind.isClosing = true) :
    kind ≠ .keyword ∧ kind ≠ .directory := by
  cases kind <;> simp [Kind.isOpening, Kind.isClosing] at h ⊢

theorem calm (h : Closes run) (ho : opener.kind.isOpening = true) :
    Calm deep (opener :: run) := by
  obtain ⟨inside, closer, rfl, hinside, hcloser⟩ := h
  have hkinds : ∀ t ∈ opener :: (inside ++ [closer]),
      t ∈ inside ∨ t.kind ≠ .keyword ∧ t.kind ≠ .directory := by
    intro t ht
    simp only [List.mem_cons, List.mem_append, List.not_mem_nil, or_false] at ht
    rcases ht with rfl | ht | rfl
    · exact Or.inr (not_word (Or.inl ho))
    · exact Or.inl ht
    · exact Or.inr (not_word (Or.inr hcloser))
  refine ⟨fun d _ => ?_, fun t ht => ?_, fun t ht => ?_⟩
  · have hinner := hinside.past_eq { d with brackets := d.brackets + 1 } fun _ => Nat.succ_pos _
    rw [Depth.past_cons, d.step_opening ho, Depth.past_append, hinner, Depth.past_cons,
      Depth.past_nil, Depth.step_closing _ hcloser, Nat.add_sub_cancel]
  · rcases hkinds t ht with hmem | hkind
    · exact hinside.noFunction t hmem
    · rw [Token.isWord, beq_eq_false_iff_ne.2 hkind.1, Bool.false_and]
  · rcases hkinds t ht with hmem | hkind
    · exact hinside.noPath t hmem
    · exact hkind.2

theorem phrase (h : Closes run) (ho : opener.kind.isOpening = true) :
    Phrase deep (opener :: run) := by
  refine ⟨h.calm ho, fun t ht => ?_⟩
  obtain ⟨inside, closer, rfl, -, hcloser⟩ := h
  rw [← List.cons_append, List.getLast?_concat] at ht
  cases ht
  rw [Token.isSeparator]
  generalize t.kind = kind at hcloser
  cases kind <;> first | rfl | cases hcloser

end Closes

namespace Level

variable {run run' : List Token} {opener closer t : Token}

theorem nil : Level [] := Calm.nil.level

theorem append (h : Level run) (h' : Level run') : Level (run ++ run') := by
  refine ⟨fun d hd => ?_, fun t ht => ?_⟩
  · rw [Depth.past_append, h.past_eq d hd, h'.past_eq d hd]
  · exact (List.mem_append.1 ht).elim (h.noFunction t) (h'.noFunction t)

theorem cons (h : Level [t]) (h' : Level run) : Level (t :: run) := h.append h'

theorem of_kind (ho : t.kind.isOpening = false) (hc : t.kind.isClosing = false)
    (hk : t.kind ≠ .keyword) : Level [t] := by
  refine ⟨fun d _ => d.step_other ho hc hk, ?_⟩
  rintro u hu
  rw [List.mem_singleton.1 hu, Token.isWord, beq_eq_false_iff_ne.2 hk, Bool.false_and]

theorem all {p : Token → Bool} (hp : ∀ t, p t = true → Level [t]) (h : ∀ t ∈ run, p t = true) :
    Level run := by
  induction run with
  | nil => exact .nil
  | cons t run ih =>
    obtain ⟨ht, hrun⟩ := List.forall_mem_cons.1 h
    exact (hp t ht).cons (ih hrun)

theorem separator (h : t.isSeparator = true) : Level [t] := by
  rw [Token.isSeparator] at h
  refine .of_kind ?_ ?_ ?_ <;> generalize t.kind = kind at h <;> cases kind <;>
    first | rfl | decide | cases h

theorem word (hk : t.kind = .keyword) (hopen : Lexing.Block.ofWord? t.raw = none)
    (hend : t.raw ≠ "end") : Level [t] := by
  have hfunction : t.raw ≠ "function" := by
    intro h
    rw [h] at hopen
    cases hopen
  refine ⟨fun d hd => ?_, ?_⟩
  · rw [Depth.past_cons, Depth.past_nil, d.step_keyword hk hd, Depth.blocksAfter, hopen,
      if_neg nofun, if_neg hend, if_neg hfunction]
    rfl
  · rintro u hu
    rw [List.mem_singleton.1 hu, Token.isWord, beq_eq_false_iff_ne.2 hfunction, Bool.and_false]

theorem noFunctionWords (h : Level run) (d : Depth) : functionWords d run = [] :=
  functionWords_eq_nil h.noFunction d

end Level

structure Sentence (run : List Token) : Prop extends Level run where
  ne_nil : run ≠ []
  solid : ∀ t ∈ run.getLast?, t.isSeparator = false

namespace Sentence

variable {run run' : List Token} {t : Token}

theorem of_phrase (h : Phrase false run) (hne : run ≠ []) : Sentence run := ⟨h.level, hne, h.solid⟩

theorem after (h : Level run) (h' : Sentence run') : Sentence (run ++ run') := by
  refine ⟨h.append h'.toLevel, by simp [h'.ne_nil], fun t ht => ?_⟩
  exact (last_append ht).elim (h'.solid t) fun hrun => absurd hrun.1 h'.ne_nil

theorem append (h : Sentence run) (h' : Phrase false run') : Sentence (run ++ run') := by
  refine ⟨h.toLevel.append h'.level, by simp [h.ne_nil], fun t ht => ?_⟩
  exact (last_append ht).elim (h'.solid t) fun hrun => h.solid t hrun.2

theorem single (h : Level [t]) (ht : t.isSeparator = false) : Sentence [t] :=
  ⟨h, List.cons_ne_nil _ _, by simpa using ht⟩

theorem all {more : List Token} (h : Sentence run) (hall : ∀ t ∈ more, Sentence [t]) :
    Sentence (run ++ more) := by
  induction more generalizing run with
  | nil => rwa [List.append_nil]
  | cons t more ih =>
    obtain ⟨ht, hmore⟩ := List.forall_mem_cons.1 hall
    rw [List.append_cons]
    exact ih (.after h.toLevel ht) hmore

theorem word (hk : t.kind = .keyword) (hopen : Lexing.Block.ofWord? t.raw = none)
    (hend : t.raw ≠ "end") : Sentence [t] :=
  .single (.word hk hopen hend) (by rw [Token.isSeparator, hk]; rfl)

end Sentence

def Shuts (run : List Token) : Prop :=
  ∃ body closer, run = body ++ [closer] ∧ Level body ∧ closer.isWord "end" = true

namespace Shuts

variable {run run' : List Token} {opener closer : Token}

theorem single (h : closer.isWord "end" = true) : Shuts [closer] := ⟨[], closer, rfl, .nil, h⟩

theorem after (h : Level run) (h' : Shuts run') : Shuts (run ++ run') := by
  obtain ⟨body, closer, rfl, hbody, hcloser⟩ := h'
  exact ⟨run ++ body, closer, (List.append_assoc _ _ _).symm, h.append hbody, hcloser⟩

theorem isWord_iff {t : Token} {word : String} :
    t.isWord word = true ↔ t.kind = .keyword ∧ t.raw = word := by
  rw [Token.isWord, Bool.and_eq_true, beq_iff_eq, beq_iff_eq]

theorem past_eq (h : Shuts run) {d : Depth} (hd : d.brackets = 0) :
    d.past run = { d with blocks := d.blocks.tail } := by
  obtain ⟨body, closer, rfl, hbody, hcloser⟩ := h
  obtain ⟨hk, hraw⟩ := isWord_iff.1 hcloser
  rw [Depth.past_append, hbody.past_eq d hd, Depth.past_cons, Depth.past_nil,
    d.step_keyword hk hd, hraw]
  rfl

theorem noFunction (h : Shuts run) : ∀ t ∈ run, t.isWord "function" = false := by
  obtain ⟨body, closer, rfl, hbody, hcloser⟩ := h
  intro t ht
  rcases List.mem_append.1 ht with hmem | hmem
  · exact hbody.noFunction t hmem
  · rw [List.mem_singleton.1 hmem, Token.isWord, (isWord_iff.1 hcloser).2]
    exact Bool.and_false _

theorem level (h : Shuts run) (hk : opener.kind = .keyword)
    (hopen : (Lexing.Block.ofWord? opener.raw).isSome = true) (hword : opener.raw ≠ "function") :
    Level (opener :: run) := by
  refine ⟨fun d hd => ?_, fun t ht => ?_⟩
  · rw [Depth.past_cons, d.step_keyword hk hd, h.past_eq (by exact hd), Depth.blocksAfter,
      if_pos hopen, if_neg hword]
    rfl
  · rcases List.mem_cons.1 ht with rfl | hmem
    · rw [Token.isWord, beq_eq_false_iff_ne.2 hword, Bool.and_false]
    · exact h.noFunction t hmem

theorem solid (h : Shuts run) : run ≠ [] ∧ ∀ t ∈ run.getLast?, t.isSeparator = false := by
  obtain ⟨body, closer, rfl, -, hcloser⟩ := h
  refine ⟨by simp, fun t ht => ?_⟩
  rw [List.getLast?_concat] at ht
  cases ht
  rw [Token.isSeparator, (isWord_iff.1 hcloser).1]
  rfl

theorem sentence (h : Shuts run) (hk : opener.kind = .keyword)
    (hopen : (Lexing.Block.ofWord? opener.raw).isSome = true) (hword : opener.raw ≠ "function") :
    Sentence (opener :: run) := by
  refine ⟨h.level hk hopen hword, List.cons_ne_nil _ _, fun t ht => ?_⟩
  rw [← List.singleton_append] at ht
  exact (last_append ht).elim (h.solid.2 t) fun hnone => absurd hnone.1 h.solid.1

end Shuts

end MFile
