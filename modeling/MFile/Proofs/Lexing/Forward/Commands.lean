import MFile.Proofs.Lexing.Forward.Assignments

/-!
A command, and the call of its name with the words of the command as quoted arguments: the tokens
that are read from either text. Behind the name of a command, words are read one after the other
up to the end of the line, whatever they look like.
-/

namespace MFile

open Lexing Text

def Lexing.Command.isWordChar (c : Char) : Bool :=
  !([' ', '\t', '\n', '\r', ';', ',', '%', '#', '\''].contains c)

structure CommandWord where
  first : Char
  more : List Char
  wordChars : ∀ c ∈ first :: more, Command.isWordChar c = true
  noDots : Command.continues (first :: more) = false

namespace CommandWord

def chars (w : CommandWord) : List Char := w.first :: w.more

def text (w : CommandWord) : String := String.ofList w.chars

def leads (w : CommandWord) : Bool :=
  w.first != '(' && !(w.first == '=' && !startsWithAny (· == '=') w.more) &&
    !Command.infixOperators.contains w.chars

end CommandWord

/-- A name and words, of which the first one makes the line a command. -/
structure CommandLine where
  name : Identifier
  first : CommandWord
  more : List CommandWord
  free : name.text ∉ ["import", "cd", "mkdir", "rmdir"]
  leads : first.leads = true

def CommandLine.chars (line : CommandLine) : List Char :=
  line.name.chars ++
    ((line.first :: line.more).flatMap (fun w => ' ' :: w.chars) ++ ['\n'])

def CommandLine.tokens (file : String) (line : CommandLine) : List Token :=
  Token.spelling file .identifier line.name.chars ::
    ((line.first :: line.more).map (fun w => Token.spelling file .charArray w.chars) ++
      [Token.spelling file .newline ['\n']])

/-! ## Words -/

namespace CommandWord

theorem class_of {c : Char} (h : Command.isWordChar c = true) :
    isBlank c = false ∧ isBreak c = false ∧ Command.isStop c = false ∧ c ≠ '\'' ∧ c ≠ '\t' := by
  have hne : ∀ d ∈ [' ', '\t', '\n', '\r', ';', ',', '%', '#', '\''], (c == d) = false := by
    intro d hd
    rw [beq_eq_false_iff_ne]
    rintro rfl
    rw [Command.isWordChar, List.contains_iff_mem.2 hd] at h
    cases h
  rw [Command.isStop, isBlank, isBreak, hne ' ' (by decide), hne '\t' (by decide),
    hne '\n' (by decide), hne '\r' (by decide), hne ';' (by decide), hne ',' (by decide),
    hne '%' (by decide), hne '#' (by decide)]
  exact ⟨rfl, rfl, rfl, beq_eq_false_iff_ne.1 (hne '\'' (by decide)),
    beq_eq_false_iff_ne.1 (hne '\t' (by decide))⟩

theorem notMem (w : CommandWord) {d : Char} (hd : Command.isWordChar d = false) : d ∉ w.chars :=
  notMem_of_class w.wordChars hd

theorem isQuote : '\'' = '\'' ∨ '\'' = '"' := .inl rfl

theorem isPlain (w : CommandWord) : ∀ c ∈ w.chars, isBreak c = false ∧ c ≠ '\t' := by
  intro c hc
  obtain ⟨-, hbreak, -, -, htab⟩ := class_of (w.wordChars c hc)
  exact ⟨hbreak, htab⟩

def literal (w : CommandWord) : Literal where
  quote := '\''
  body := w.chars
  isQuote := isQuote
  plain := w.isPlain

end CommandWord

def argumentsChars (ls : List Literal) : List Char := ls.flatMap fun l => ',' :: ' ' :: l.chars

def argumentsTokens (file : String) (ls : List Literal) : List Token :=
  ls.flatMap fun l => [Token.spelling file .comma [','], Token.spelling file l.kind l.chars]

namespace Literal

theorem operand (l : Literal) : (Previous.ofText l.kind l.chars).Operand := by
  refine operand_of_class ?_ l.chars
  rw [kind]
  split <;> rfl

theorem closed_before (l : Literal) (ls : List Literal) (cs : List Char) :
    startsWithAny (· == l.quote) (argumentsChars ls ++ ')' :: cs) = false := by
  obtain hquote | hquote := l.isQuote <;> rw [hquote] <;> cases ls <;> rfl

end Literal

def CommandLine.callChars (line : CommandLine) : List Char :=
  line.name.chars ++
    '(' :: (line.first.literal.chars ++
      ((line.more.flatMap fun w => ',' :: ' ' :: w.literal.chars) ++ [')', '\n']))

def CommandLine.callTokens (file : String) (line : CommandLine) : List Token :=
  Token.spelling file .identifier line.name.chars :: Token.spelling file .lparen ['('] ::
    Token.spelling file .charArray line.first.literal.chars ::
      (line.more.flatMap (fun w => [Token.spelling file .comma [','],
        Token.spelling file .charArray w.literal.chars]) ++
        [Token.spelling file .rparen [')'], Token.spelling file .newline ['\n']])

namespace Lexing

variable {c d : Char} {cs after rest : List Char} {last : Previous} {st : State}

theorem Command.text_run {kind : CommandKind} {w : List Char}
    (hw : ∀ c ∈ w, (isStop c || (kind == .words && isBlank c)) = false ∧ c ≠ '\'')
    (hrest : ∀ d ∈ rest.head?, (isStop d || (kind == .words && isBlank d)) = true) :
    text kind false (w ++ rest) = .ok w.length := by
  induction w with
  | nil =>
    cases rest with
    | nil => rfl
    | cons d rest =>
      rw [List.nil_append, text]
      exact if_pos (hrest d rfl)
  | cons c w ih =>
    obtain ⟨⟨hc, hquote⟩, hw⟩ := List.forall_mem_cons.1 hw
    have hopen : (c == '\'') = false := beq_eq_false_iff_ne.2 hquote
    rw [List.cons_append, text, hc, if_neg (by decide), hopen, ih hw]
    exact congrArg Except.ok (Nat.add_comm _ _)

theorem Command.text_word {w : List Char} (hw : ∀ c ∈ w, isWordChar c = true)
    (hd : d = ' ' ∨ d = '\n') (rest : List Char) :
    text .words false (w ++ d :: rest) = .ok w.length := by
  refine text_run (fun c hc => ?_) ?_
  · obtain ⟨hblank, -, hstop, hquote, -⟩ := CommandWord.class_of (hw c hc)
    rw [hblank, hstop]
    exact ⟨rfl, hquote⟩
  · rintro _ ⟨⟩
    obtain rfl | rfl := hd <;> rfl

theorem isWordChar_operators : ∀ op ∈ Command.infixOperators, ∀ c ∈ op,
    Command.isWordChar c = true := by
  have hall : (Command.infixOperators.all fun op => op.all Command.isWordChar) = true := by
    decide
  exact fun op hop => List.all_eq_true.1 (List.all_eq_true.1 hall op hop)

theorem Command.startsInfix_word (w : CommandWord)
    (halone : (!infixOperators.contains w.chars) = true)
    (hafter : startsWithAny isWordChar after = false) : startsInfix (w.chars ++ after) = false := by
  rw [startsInfix, find?_before hafter isWordChar_operators]
  cases hfind : infixOperators.find? (·.isPrefixOf w.chars) with
  | none => rfl
  | some op =>
    obtain ⟨tail, htail⟩ := List.isPrefixOf_iff_prefix.1 (List.find?_some hfind :)
    cases tail with
    | nil =>
      rw [List.append_nil] at htail
      rw [← htail, List.contains_iff_mem.2 (List.mem_of_find?_eq_some hfind)] at halone
      cases halone
    | cons e tail =>
      -- The word goes on behind the operator, so the operator does not stand alone.
      have he : e ∈ w.chars := by
        rw [← htail]
        exact List.mem_append_right _ List.mem_cons_self
      obtain ⟨heblank, hebreak, -⟩ := CommandWord.class_of (w.wordChars e he)
      dsimp only
      rw [← htail, List.append_assoc, drop_length_append, List.cons_append]
      dsimp only
      rw [heblank, hebreak]
      rfl

theorem Command.follows_word (w : CommandWord) (hleads : w.leads = true)
    (hafter : startsWithAny isWordChar after = false) :
    follows (' ' :: (w.chars ++ after)) = true := by
  obtain ⟨hblank, -, hstop, -, -⟩ := CommandWord.class_of (w.wordChars _ List.mem_cons_self)
  have hbody : (' ' :: (w.chars ++ after)).dropWhile isBlank = w.chars ++ after := by
    rw [List.dropWhile_cons_of_pos rfl, CommandWord.chars, List.cons_append,
      List.dropWhile_cons_of_neg (by simp [hblank])]
  rw [CommandWord.leads, Bool.and_eq_true, Bool.and_eq_true] at hleads
  obtain ⟨⟨hparen, hassign⟩, halone⟩ := hleads
  have hdots : continues (w.chars ++ after) = false :=
    (isPrefixOf_before hafter (forall_of_all rfl) w.chars).trans w.noDots
  have hoperator : startsInfix (w.chars ++ after) = false := startsInfix_word w halone hafter
  have hopen : (w.first == '(') = false := Bool.not_eq_true' _ ▸ hparen
  have hsign : startsWithAny (· == '=') (w.more ++ after) = startsWithAny (· == '=') w.more := by
    cases after with
    | nil => rw [List.append_nil]
    | cons d rest =>
      have hd : (d == '=') = false := by
        rw [beq_eq_false_iff_ne]
        rintro rfl
        cases hafter
      exact startsWithAny_cut (p := (· == '=')) hd w.more rest
  rw [follows, hbody, hdots, hoperator, CommandWord.chars, List.cons_append]
  dsimp only
  rw [hsign, hstop, hassign, hopen]
  rfl

namespace State

variable (file : String) (octave : Bool)

theorem read_word (w : CommandWord) (hd : d = ' ' ∨ d = '\n')
    (h : Midway (.command .words) [] last false (' ' :: (w.chars ++ d :: rest)) st)
    (hparams : last.endsParams = false) (hlast : last.kind ≠ .handle) :
    ∃ next, Gives file octave st [Token.spelling file .charArray w.chars] next ∧
      Midway (.command .words) [] (.ofText .charArray w.chars) false (d :: rest) next := by
  obtain ⟨hblank, -, hstop, -, -⟩ := CommandWord.class_of (w.wordChars _ List.mem_cons_self)
  have hline : '\n' ∉ w.first :: w.more := w.notMem rfl
  have hdots : Command.continues (w.first :: (w.more ++ d :: rest)) = false := by
    have hdot : d ∉ ['.', '.', '.'] := by obtain rfl | rfl := hd <;> decide
    exact (isPrefixOf_cut hdot w.chars rest).trans w.noDots
  have htext : Command.text .words false (w.first :: (w.more ++ d :: rest)) =
      .ok (w.more.length + 1) := Command.text_word w.wordChars hd rest
  have hdecide : ∀ st', Midway (.command .words) [] last true
      (w.first :: (w.more ++ d :: rest)) st' →
      st'.decide octave w.first (w.more ++ d :: rest) =
        .token .charArray w.more.length (.command .words) := by
    intro st' h'
    rw [decide, h'.mode]
    dsimp only
    rw [hstop, if_neg (by decide), decideCommand, hdots, if_neg (by decide), htext]
    dsimp only
    rw [h'.mode]
    rfl
  have hfirst : Midway (.command .words) [] last false
      ([' '] ++ w.first :: (w.more ++ d :: rest)) st := h
  have hread := hfirst.read file octave (fun _ => rfl) (forall_of_all rfl) hblank hparams hlast rfl
    (by rwa [take_length_append]) hdecide
  rw [take_length_append, drop_length_append] at hread
  exact hread

theorem read_words (words : List CommandWord)
    (h : Midway (.command .words) [] last false
      (words.flatMap (fun w => ' ' :: w.chars) ++ ['\n']) st)
    (hparams : last.endsParams = false) (hlast : last.kind ≠ .handle) :
    ∃ last' next, Gives file octave st
        (words.map fun w => Token.spelling file .charArray w.chars) next ∧
      Midway (.command .words) [] last' false ['\n'] next ∧ last'.endsParams = false := by
  induction words generalizing st last with
  | nil => exact ⟨last, st, .refl st, h, hparams⟩
  | cons w words ih =>
    obtain ⟨d, rest, hrest, hd⟩ : ∃ d rest,
        words.flatMap (fun w => ' ' :: w.chars) ++ ['\n'] = d :: rest ∧ (d = ' ' ∨ d = '\n') := by
      cases words with
      | nil => exact ⟨'\n', [], rfl, .inr rfl⟩
      | cons v words => exact ⟨' ', _, rfl, .inl rfl⟩
    rw [List.flatMap_cons, List.append_assoc, List.cons_append, hrest] at h
    obtain ⟨mid, hgives, hmid⟩ := read_word file octave w hd h hparams hlast
    rw [← hrest] at hmid
    obtain ⟨last', next, hgives', hnext⟩ := ih hmid rfl Kind.noConfusion
    exact ⟨last', next, hgives.trans hgives', hnext⟩

theorem read_arguments (ls : List Literal)
    (h : Amid [.lparen] last false (argumentsChars ls ++ ')' :: cs) st) (hlast : last.Plain) :
    ∃ last' next, Gives file octave st (argumentsTokens file ls) next ∧
      Amid [.lparen] last' false (')' :: cs) next ∧ last'.Plain := by
  induction ls generalizing st last with
  | nil => exact ⟨last, st, .refl st, h, hlast⟩
  | cons l ls ih =>
    rw [argumentsChars, List.flatMap_cons, List.append_assoc] at h
    have hcomma : Amid [.lparen] last false
        (',' :: ([' '] ++ (l.chars ++ (argumentsChars ls ++ ')' :: cs)))) st := h
    obtain ⟨mid, hgives, hmid⟩ := hcomma.read_comma file octave hlast (by simp)
    obtain ⟨next, hgives', hnext⟩ := hmid.read_literal file octave l (forall_of_all rfl)
      ⟨rfl, by decide, by decide⟩ (.inl (by decide)) (l.closed_before ls cs)
    obtain ⟨last', final, hgives'', hfinal⟩ := ih hnext l.operand.toPlain
    exact ⟨last', final, hgives.trans (hgives'.trans hgives''), hfinal⟩

end State

end Lexing

namespace Scan

open State State.Midway

variable (line : CommandLine) {text : String} (file : String) (octave : Bool)

theorem ofState_command (htext : text.toList = line.chars) :
    (ofState file octave (.ofText text)).tokens.map Token.unplaced = line.tokens file ∧
      (ofState file octave (.ofText text)).failure = none := by
  let words := (line.first :: line.more).flatMap (fun w => ' ' :: w.chars) ++ ['\n']
  obtain ⟨d, rest, hrest, hd⟩ : ∃ d rest,
      line.more.flatMap (fun w => ' ' :: w.chars) ++ ['\n'] = d :: rest ∧
        (d = ' ' ∨ d = '\n') := by
    cases line.more with
    | nil => exact ⟨'\n', [], rfl, .inr rfl⟩
    | cons v words => exact ⟨' ', _, rfl, .inl rfl⟩
  have hwords : words = ' ' :: (line.first.chars ++ d :: rest) := by
    rw [← hrest, ← List.append_assoc]
    rfl
  have hfollows : Command.follows words = true := by
    refine hwords ▸ Command.follows_word line.first line.leads ?_
    obtain rfl | rfl := hd <;> rfl
  have hpath : Command.pathHeads.contains line.name.text = false := by
    rw [Bool.eq_false_iff, ne_eq, List.contains_iff_mem]
    exact fun h => line.free (List.mem_cons_of_mem _ h)
  have hdecide : (ofText text).decide octave line.name.first (line.name.more ++ words) =
      .token .identifier line.name.more.length (.command .words) := by
    rw [decide_first line.name text octave rfl rfl, hfollows, hpath]
    rfl
  obtain ⟨named, hnamed, hst⟩ := read_first file octave htext (not_isBlank line.name.letter) rfl
    rfl rfl (notMem_of_class line.name.class rfl) hdecide
  obtain ⟨last, spoken, hspoken, hst, hlast⟩ :=
    read_words file octave (line.first :: line.more) hst rfl Kind.noConfusion
  have hclosing : Midway (.command .words) [] last false
      ([] ++ (Ending.lineBreak false).chars) spoken := hst
  obtain ⟨final, hfinal, hend⟩ := hclosing.read_ending file octave (.lineBreak false)
    (fun _ => rfl) (List.forall_mem_nil _) hlast
  exact (hnamed.trans (hspoken.trans hfinal)).ends hend

theorem ofState_quoted (x : Identifier) (first : Literal) (more : List Literal) (e : Ending)
    (htext : text.toList =
      x.chars ++ '(' :: (first.chars ++ (argumentsChars more ++ ')' :: e.chars))) :
    (ofState file octave (.ofText text)).tokens.map Token.unplaced =
        Token.spelling file .identifier x.chars :: Token.spelling file .lparen ['('] ::
          Token.spelling file first.kind first.chars :: (argumentsTokens file more ++
            Token.spelling file .rparen [')'] :: e.tokens file) ∧
      (ofState file octave (.ofText text)).failure = none := by
  let arguments := first.chars ++ (argumentsChars more ++ ')' :: e.chars)
  have hdecide : (ofText text).decide octave x.first (x.more ++ '(' :: arguments) =
      .token .identifier x.more.length .normal := decide_first x text octave rfl rfl
  obtain ⟨named, hnamed, hst⟩ := read_first file octave htext (not_isBlank x.letter) rfl rfl rfl
    (notMem_of_class x.class rfl) hdecide
  have hparen : Amid [] (.ofText .identifier x.chars) false ([] ++ '(' :: ([] ++ arguments))
    named := hst
  obtain ⟨opened, hopened, hst⟩ := Amid.read_other file octave hparen (by simp) rfl
    (operand_of_class rfl _).toPlain rfl (by decide) (.inl rfl)
    fun st' h' => h'.decide_symbol (Lexeme.ofChars?_single rfl (by decide) (fun _ => rfl) _)
  have hfirst : Amid [.lparen] (.ofText .lparen ['(']) false ([] ++ arguments) opened := hst
  obtain ⟨quoted, hquoted, hst⟩ := hfirst.read_literal file octave first (by simp)
    ⟨rfl, by decide, by decide⟩ (.inr rfl) (first.closed_before more e.chars)
  obtain ⟨last, filled, hfilled, hst, hlast⟩ :=
    read_arguments file octave more hst first.operand.toPlain
  have hclose : Amid [.lparen] last false ([] ++ ')' :: ([] ++ e.chars)) filled := hst
  obtain ⟨closed, hclosed, hst⟩ := Amid.read_other file octave hclose (by simp) rfl
    hlast rfl (by decide) (.inl rfl)
    fun st' h' => h'.decide_symbol (Lexeme.ofChars?_single rfl (by decide) (fun _ => rfl) _)
  have hend : Amid [] (.ofText .rparen [')']) false ([] ++ e.chars) closed := hst
  obtain ⟨final, hfinal, hrest⟩ :=
    hend.read_ending file octave e (fun _ => rfl) (List.forall_mem_nil _) rfl
  exact (hnamed.trans (hopened.trans (hquoted.trans (hfilled.trans (hclosed.trans hfinal))))).ends
    hrest

theorem ofState_calling (htext : text.toList = line.callChars) :
    (ofState file octave (.ofText text)).tokens.map Token.unplaced = line.callTokens file ∧
      (ofState file octave (.ofText text)).failure = none := by
  have hchars : argumentsChars (line.more.map CommandWord.literal) =
      line.more.flatMap fun w => ',' :: ' ' :: w.literal.chars :=
    List.flatMap_map _ _ _
  have htokens : argumentsTokens file (line.more.map CommandWord.literal) =
      line.more.flatMap fun w => [Token.spelling file .comma [','],
        Token.spelling file .charArray w.literal.chars] :=
    List.flatMap_map _ _ _
  have hlist : text.toList = line.name.chars ++ '(' :: (line.first.literal.chars ++
      (argumentsChars (line.more.map CommandWord.literal) ++
        ')' :: (Ending.lineBreak false).chars)) := by
    rw [hchars]
    exact htext
  have hquoted := ofState_quoted file octave line.name line.first.literal
    (line.more.map CommandWord.literal) (.lineBreak false) hlist
  rw [htokens] at hquoted
  exact hquoted

end Scan

end MFile
