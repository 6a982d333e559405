import MFile.Proofs.Lexing.Forward.Commands
import MFile.Proofs.Lexing.Reached

/-!
A directory command takes the rest of its line as one path. Blanks behind the path do not belong to
it, and neither does what ends the statement. A continuation cannot stand in a path, but one right
behind the name keeps the line from being a command at all.
-/

namespace MFile

open Lexing Text

def Lexing.Command.isPathChar (c : Char) : Bool := c == ' ' || isWordChar c

def dots : List Char := ['.', '.', '.']

inductive DirectoryHead
  | cd
  | mkdir
  | rmdir

def DirectoryHead.name : DirectoryHead → Identifier
  | cd => ⟨'c', ['d'], rfl, forall_of_all rfl, by decide⟩
  | mkdir => ⟨'m', ['k', 'd', 'i', 'r'], rfl, forall_of_all rfl, by decide⟩
  | rmdir => ⟨'r', ['m', 'd', 'i', 'r'], rfl, forall_of_all rfl, by decide⟩

/-- A name, a path with no blank at either end, and what ends the line behind some blanks. Neither
the first character of the path nor its first word makes the line an expression. -/
structure DirectoryLine where
  head : DirectoryHead
  first : Char
  more : List Char
  pathChars : ∀ c ∈ first :: more, Command.isPathChar c = true
  noBlankFirst : first ≠ ' '
  noBlankLast : (first :: more).getLast? ≠ some ' '
  noParen : first ≠ '('
  noAssignment : first = '=' → more.head? = some '='
  noOperator : (first :: more).takeWhile (· ≠ ' ') ∉ Command.infixOperators
  gap : List Char
  blank : ∀ c ∈ gap, isBlank c = true
  ending : Ending

/-! ## Characters -/

namespace Lexing

variable {c : Char} {cs : List Char}

theorem Command.class_of_isPathChar (h : isPathChar c = true) :
    isBreak c = false ∧ isStop c = false ∧ c ≠ '\'' ∧ c ≠ '\t' := by
  rw [isPathChar, Bool.or_eq_true, beq_iff_eq] at h
  obtain rfl | h := h
  · exact ⟨rfl, rfl, by decide, by decide⟩
  · obtain ⟨-, hbreak, hstop, hquote, htab⟩ := CommandWord.class_of h
    exact ⟨hbreak, hstop, hquote, htab⟩

theorem Command.class_of_isBlank (h : isBlank c = true) : isStop c = false ∧ c ≠ '\'' := by
  rw [isBlank, Bool.or_eq_true, beq_iff_eq, beq_iff_eq] at h
  obtain rfl | rfl := h <;> exact ⟨rfl, by decide⟩

theorem Command.isWordChar_of_ends (h : isBlank c = true ∨ isStop c = true) :
    isWordChar c = false := by
  rw [Bool.eq_false_iff]
  intro hword
  obtain ⟨hblank, -, hstop, -⟩ := CommandWord.class_of hword
  obtain h | h := h
  · rw [hblank] at h
    cases h
  · rw [hstop] at h
    cases h

theorem Command.continues_iff : continues cs = true ↔ dots <+: cs :=
  List.isPrefixOf_iff_prefix

theorem Command.dotsAt?_eq_none_iff : dotsAt? cs = none ↔ ¬ dots <:+: cs := by
  induction cs with
  | nil => exact ⟨fun _ h => absurd (List.infix_nil.1 h) (by decide), fun _ => rfl⟩
  | cons c cs ih =>
    rw [dotsAt?, List.infix_cons_iff, not_or, ← ih, ← continues_iff]
    split
    · rename_i hcontinues
      exact ⟨fun h => absurd h (Option.some_ne_none _), fun h => absurd hcontinues h.1⟩
    · rename_i hcontinues
      rw [Option.map_eq_none_iff]
      exact ⟨fun h => ⟨hcontinues, h⟩, fun h => h.2⟩

theorem throughBreak_eq_length (h : '\n' ∉ cs.dropLast) : throughBreak cs = cs.length := by
  have hrun : cs.length ≤ run (· ≠ '\n') cs + 1 := by
    induction cs with
    | nil => exact Nat.zero_le _
    | cons c cs ih =>
      cases cs with
      | nil => exact Nat.succ_le_succ (Nat.zero_le _)
      | cons d cs =>
        rw [List.dropLast_cons_cons, List.mem_cons, not_or] at h
        rw [run, List.takeWhile_cons_of_pos (p := (· ≠ '\n')) (decide_eq_true (Ne.symm h.1)),
          List.length_cons, List.length_cons]
        exact Nat.succ_le_succ (ih h.2)
  exact Nat.min_eq_right hrun

end Lexing

theorem Text.trimEnd_append {p : Char → Bool} {w gap : List Char} (hgap : ∀ c ∈ gap, p c = true)
    (hlast : ∀ c ∈ w.getLast?, p c = false) : trimEnd p (w ++ gap) = w := by
  have hw : w.reverse.dropWhile p = w.reverse := by
    cases hreverse : w.reverse with
    | nil => rfl
    | cons c cs =>
      have hc : p c = false := hlast c (by rw [← List.head?_reverse, hreverse]; rfl)
      exact List.dropWhile_cons_of_neg (by rw [hc]; decide)
  rw [trimEnd, List.reverse_append,
    List.dropWhile_append_of_pos fun c hc => hgap c (List.mem_reverse.1 hc), hw,
    List.reverse_reverse]

namespace Ending

theorem stop_head (e : Ending) : ∀ c ∈ e.chars.head?, Command.isStop c = true := by
  obtain ⟨hchars, -⟩ | ⟨kind, c, cs, hchars, -, hcloses⟩ := e.textEnd_or_closes
  · rw [hchars]
    exact nofun
  · rw [hchars]
    rintro _ ⟨⟩
    exact hcloses.stop

theorem lineFeed_notMem_dropLast (e : Ending) : '\n' ∉ e.chars.dropLast := by
  cases e with
  | lineBreak afterReturn => cases afterReturn <;> decide
  | comment mark body hmark hbody =>
    intro h
    obtain hfirst | hlater := List.mem_cons.1 (List.dropLast_subset _ h)
    · obtain hmark | hmark := hmark <;> exact absurd (hfirst.trans hmark) (by decide)
    · cases hbody _ hlater
  | _ => decide

end Ending

namespace DirectoryLine

variable (line : DirectoryLine)

def path : List Char := line.first :: line.more

def after : List Char := line.gap ++ line.ending.chars

def chars : List Char := line.head.name.chars ++ ' ' :: (line.path ++ line.after)

def tokens (file : String) : List Token :=
  Token.spelling file .identifier line.head.name.chars ::
    Token.spelling file .directory line.path :: line.ending.tokens file

theorem isPlain : ∀ c ∈ line.path, isBreak c = false ∧ c ≠ '\t' := by
  intro c hc
  obtain ⟨hbreak, -, -, htab⟩ := Command.class_of_isPathChar (line.pathChars c hc)
  exact ⟨hbreak, htab⟩

def literal : Literal where
  quote := '\''
  body := line.path
  isQuote := CommandWord.isQuote
  plain := line.isPlain

def callChars : List Char :=
  line.head.name.chars ++ '(' :: (line.literal.chars ++ ')' :: line.ending.chars)

def callTokens (file : String) : List Token :=
  Token.spelling file .identifier line.head.name.chars :: Token.spelling file .lparen ['('] ::
    Token.spelling file .charArray line.literal.chars ::
      Token.spelling file .rparen [')'] :: line.ending.tokens file

theorem notMem {c : Char} (hc : Command.isPathChar c = false) : c ∉ line.path :=
  notMem_of_class line.pathChars hc

theorem not_isBlank_first : isBlank line.first = false := by
  have htab := (Command.class_of_isPathChar (line.pathChars _ List.mem_cons_self)).2.2.2
  rw [isBlank, beq_false_of_ne line.noBlankFirst, beq_false_of_ne htab]
  rfl

theorem wordChar_after : startsWithAny Command.isWordChar line.after = false := by
  rw [after]
  cases hgap : line.gap with
  | nil =>
    rw [List.nil_append]
    cases hchars : line.ending.chars with
    | nil => rfl
    | cons c cs => exact Command.isWordChar_of_ends (.inr (line.ending.stop_head c (hchars ▸ rfl)))
  | cons c cs => exact Command.isWordChar_of_ends (.inl (line.blank c (hgap ▸ List.mem_cons_self)))

theorem takeWhile_path :
    line.path.takeWhile (· ≠ ' ') = line.first :: line.more.takeWhile (· ≠ ' ') :=
  List.takeWhile_cons_of_pos (decide_eq_true line.noBlankFirst)

theorem wordChar_first : ∀ c ∈ line.first :: line.more.takeWhile (· ≠ ' '),
    Command.isWordChar c = true := by
  intro c hc
  rw [← takeWhile_path] at hc
  have hpath := line.pathChars c ((List.takeWhile_subset _) hc)
  have hne : c ≠ ' ' := of_decide_eq_true (List.mem_takeWhile_imp (p := (· ≠ ' ')) hc)
  rw [Command.isPathChar, beq_false_of_ne hne, Bool.false_or] at hpath
  exact hpath

theorem continues_first (hdots : ¬ dots <+: line.path) :
    Command.continues (line.first :: line.more.takeWhile (· ≠ ' ')) = false := by
  rw [← takeWhile_path, Bool.eq_false_iff, ne_eq, Command.continues_iff]
  exact fun h => hdots (h.trans (List.takeWhile_prefix _))

theorem wordChar_rest : startsWithAny Command.isWordChar
    (line.path.dropWhile (· ≠ ' ') ++ line.after) = false := by
  cases hdrop : line.path.dropWhile (· ≠ ' ') with
  | nil => exact line.wordChar_after
  | cons c cs =>
    have hc := List.head?_dropWhile_not (· ≠ ' ') line.path
    rw [hdrop] at hc
    obtain rfl : c = ' ' := by simpa using hc
    rfl

def word (hdots : ¬ dots <+: line.path) : CommandWord where
  first := line.first
  more := line.more.takeWhile (· ≠ ' ')
  wordChars := line.wordChar_first
  noDots := line.continues_first hdots

theorem leads_word (hdots : ¬ dots <+: line.path) : (line.word hdots).leads = true := by
  have hoperator : line.first :: line.more.takeWhile (· ≠ ' ') ∉ Command.infixOperators :=
    line.takeWhile_path ▸ line.noOperator
  have hsign : line.first = '=' →
      startsWithAny (· == '=') (line.more.takeWhile (· ≠ ' ')) = true := by
    intro h
    obtain ⟨cs, hcs⟩ := List.head?_eq_some_iff.1 (line.noAssignment h)
    rw [hcs]
    rfl
  have hassign : (line.first == '=' &&
      !startsWithAny (· == '=') (line.more.takeWhile (· ≠ ' '))) = false := by
    by_cases h : line.first = '='
    · rw [hsign h, Bool.not_true, Bool.and_false]
    · rw [beq_false_of_ne h, Bool.false_and]
  rw [CommandWord.leads, Bool.and_eq_true, Bool.and_eq_true]
  refine ⟨⟨bne_iff_ne.2 line.noParen, Bool.not_eq_true' _ ▸ hassign⟩, ?_⟩
  rw [Bool.not_eq_true', ← Bool.not_eq_true, List.contains_iff_mem]
  exact hoperator

theorem follows_path (hdots : ¬ dots <+: line.path) :
    Command.follows (' ' :: (line.path ++ line.after)) = true := by
  have hpath : (line.word hdots).chars ++ line.path.dropWhile (· ≠ ' ') = line.path := by
    rw [CommandWord.chars, word, ← takeWhile_path]
    exact List.takeWhile_append_dropWhile
  rw [← hpath, List.append_assoc]
  exact Command.follows_word _ (line.leads_word hdots) line.wordChar_rest

theorem not_follows_dots (hdots : dots <+: line.path) :
    Command.follows (' ' :: (line.path ++ line.after)) = false := by
  have hbody : (' ' :: (line.path ++ line.after)).dropWhile isBlank = line.path ++ line.after := by
    rw [List.dropWhile_cons_of_pos rfl, path, List.cons_append,
      List.dropWhile_cons_of_neg (by simp [line.not_isBlank_first])]
  have hcontinues : Command.continues (line.path ++ line.after) = true :=
    Command.continues_iff.2 (hdots.trans (List.prefix_append _ _))
  rw [Command.follows, hbody, hcontinues, Bool.not_true, Bool.and_false, Bool.false_and]

theorem lineFeed_notMem_dropLast : '\n' ∉ (line.path ++ line.after).dropLast := by
  have hline : '\n' ∉ line.path ++ line.gap := by
    rw [List.mem_append, not_or]
    exact ⟨line.notMem rfl, fun h => Bool.noConfusion (line.blank _ h)⟩
  rw [after, ← List.append_assoc]
  cases hchars : line.ending.chars with
  | nil =>
    rw [List.append_nil]
    exact fun h => hline (List.dropLast_subset _ h)
  | cons c cs =>
    rw [List.dropLast_append_of_ne_nil (List.cons_ne_nil c cs), List.mem_append, ← hchars]
    exact not_or.2 ⟨hline, line.ending.lineFeed_notMem_dropLast⟩

theorem exists_continuation (hdots : dots <+: line.path) : ∃ cs,
    line.path ++ line.after = '.' :: cs ∧
      Lexeme.ofChars? '.' cs = some (.continuation cs.length) := by
  obtain ⟨tail, htail⟩ := hdots
  have hline : line.path ++ line.after = dots ++ (tail ++ line.after) := by
    rw [← htail, List.append_assoc]
  have hbreak : throughBreak (tail ++ line.after) = (tail ++ line.after).length := by
    refine throughBreak_eq_length fun h => line.lineFeed_notMem_dropLast ?_
    have hne : tail ++ line.after ≠ [] := by
      intro hnil
      rw [hnil] at h
      cases h
    rw [hline, List.dropLast_append_of_ne_nil hne]
    exact List.mem_append_right dots h
  refine ⟨'.' :: '.' :: (tail ++ line.after), hline, ?_⟩
  rw [Lexeme.ofChars?.eq_def, if_neg (by decide), if_neg (by decide), if_neg (by decide),
    if_neg (by decide), if_neg (by decide), if_pos ⟨rfl, rfl⟩, List.drop_succ_cons,
    List.drop_succ_cons, List.drop_zero, hbreak, Nat.add_comm]
  rfl

theorem text_path : Command.text .path false (line.path ++ line.after) =
    .ok (line.path ++ line.gap).length := by
  rw [after, ← List.append_assoc]
  refine Command.text_run (fun c hc => ?_) fun c hc => ?_
  · rw [Bool.or_eq_false_iff]
    obtain hc | hc := List.mem_append.1 hc
    · obtain ⟨-, hstop, hquote, -⟩ := Command.class_of_isPathChar (line.pathChars c hc)
      exact ⟨⟨hstop, rfl⟩, hquote⟩
    · obtain ⟨hstop, hquote⟩ := Command.class_of_isBlank (line.blank c hc)
      exact ⟨⟨hstop, rfl⟩, hquote⟩
  · rw [line.ending.stop_head c hc]
    rfl

theorem trimEnd_path : trimEnd isBlank (line.path ++ line.gap) = line.path := by
  refine trimEnd_append line.blank fun c hc => ?_
  have hpath := line.pathChars c (List.mem_of_getLast? hc)
  have htab := (Command.class_of_isPathChar hpath).2.2.2
  have hblank : c ≠ ' ' := by
    rintro rfl
    exact line.noBlankLast hc
  rw [isBlank, beq_false_of_ne hblank, beq_false_of_ne htab]
  rfl

theorem decide_path (octave : Bool) {last : Previous} {st : State} (hdots : ¬ dots <+: line.path)
    (h : State.Midway (.command .path) [] last true (line.path ++ line.after) st) :
    st.decide octave line.first (line.more ++ line.after) =
      match Command.dotsAt? line.path with
      | some skipped => .fault .continuationInDirectoryCommand skipped 3
      | none => .token .directory line.more.length (.command .path) := by
  have hstop := (Command.class_of_isPathChar (line.pathChars _ List.mem_cons_self)).2.1
  have hcontinues : Command.continues (line.path ++ line.after) = false := by
    have hcut : dots.isPrefixOf (line.path ++ line.after) = dots.isPrefixOf line.path :=
      isPrefixOf_before line.wordChar_after (forall_of_all rfl) line.path
    exact hcut.trans (Bool.eq_false_iff.2 (mt Command.continues_iff.1 hdots))
  have htext := line.text_path
  have htaken : (line.path ++ line.after).take (line.path ++ line.gap).length =
      line.path ++ line.gap := by
    rw [after, ← List.append_assoc, take_length_append]
  have hcons : line.path ++ line.after = line.first :: (line.more ++ line.after) := rfl
  rw [hcons] at hcontinues htext htaken
  rw [State.decide, h.mode]
  dsimp only
  rw [hstop, if_neg (by decide), State.decideCommand, hcontinues, if_neg (by decide)]
  dsimp only
  rw [htext]
  dsimp only
  -- Only what is left without the blanks behind it is searched for dots.
  rw [htaken, line.trimEnd_path, h.mode]
  rfl

end DirectoryLine

namespace Scan

open State State.Midway

variable (line : DirectoryLine) {text : String} (file : String) (octave : Bool)

theorem read_head (htext : text.toList = line.chars) : ∃ named,
    Gives file octave (ofText text) [Token.spelling file .identifier line.head.name.chars] named ∧
      Midway
        (if Command.follows (' ' :: (line.path ++ line.after)) then .command .path else .normal)
        [] (.ofText .identifier line.head.name.chars) false (' ' :: (line.path ++ line.after))
        named := by
  have hpath : Command.pathHeads.contains line.head.name.text = true := by
    cases line.head <;> decide
  have hdecide : (ofText text).decide octave line.head.name.first
      (line.head.name.more ++ ' ' :: (line.path ++ line.after)) = _ :=
    decide_first line.head.name text octave rfl rfl
  rw [hpath, if_pos rfl] at hdecide
  exact read_first file octave htext (not_isBlank line.head.name.letter) rfl rfl rfl
    (notMem_of_class line.head.name.class rfl) hdecide

theorem read_commandHead (hstart : ¬ dots <+: line.path) (htext : text.toList = line.chars) :
    ∃ named,
      Gives file octave (ofText text) [Token.spelling file .identifier line.head.name.chars] named ∧
      Midway (.command .path) [] (.ofText .identifier line.head.name.chars) false
        ([' '] ++ line.first :: (line.more ++ line.after)) named := by
  obtain ⟨named, hnamed, hst⟩ := read_head line file octave htext
  rw [line.follows_path hstart, if_pos rfl] at hst
  exact ⟨named, hnamed, hst⟩

theorem ofState_directory (hdots : ¬ dots <:+: line.path) (htext : text.toList = line.chars) :
    (ofState file octave (.ofText text)).tokens.map Token.unplaced = line.tokens file ∧
      (ofState file octave (.ofText text)).failure = none := by
  have hstart : ¬ dots <+: line.path := fun h => hdots h.isInfix
  obtain ⟨named, hnamed, hfirst⟩ := read_commandHead line file octave hstart htext
  obtain ⟨taken, htaken, hst⟩ := hfirst.read file octave (fun _ => rfl) (forall_of_all rfl)
    line.not_isBlank_first rfl Kind.noConfusion rfl (by
      rw [take_length_append]
      exact line.notMem rfl) fun st' h' => by
        rw [line.decide_path octave hstart h', Command.dotsAt?_eq_none_iff.2 hdots]
  rw [separates_outside, if_neg (by decide), take_length_append, List.nil_append] at htaken
  rw [take_length_append, drop_length_append] at hst
  obtain ⟨final, hfinal, hrest⟩ :=
    hst.read_ending file octave line.ending (fun _ => rfl) line.blank rfl
  exact (hnamed.trans (htaken.trans hfinal)).ends hrest

theorem failure_directory (hdots : dots <:+: line.path) (hstart : ¬ dots <+: line.path)
    (htext : text.toList = line.chars) :
    ∃ e, (ofState file octave (.ofText text)).failure = some e ∧
      e.fault = .continuationInDirectoryCommand := by
  obtain ⟨named, hnamed, hfirst⟩ := read_commandHead line file octave hstart htext
  have hready := hfirst.pastBlanks (fun _ => rfl) (forall_of_all rfl) line.not_isBlank_first
  have hdecide := line.decide_path octave hstart hready
  cases hfound : Command.dotsAt? line.path with
  | none => exact absurd hdots (Command.dotsAt?_eq_none_iff.1 hfound)
  | some skipped =>
    rw [hfound] at hdecide
    have hstep : named.step file octave = .failed _ := step_of_fault hready.ahead hdecide
    have hfailed := ofState_failed hstep
    exact ⟨_, hnamed.failure.trans (congrArg Scan.failure hfailed), rfl⟩

theorem ofState_continued (hdots : dots <+: line.path) (htext : text.toList = line.chars) :
    (ofState file octave (.ofText text)).tokens.map Token.unplaced =
        [Token.spelling file .identifier line.head.name.chars,
          Token.spelling file .continuation (line.path ++ line.after)] ∧
      (ofState file octave (.ofText text)).failure = none := by
  obtain ⟨named, hnamed, hst⟩ := read_head line file octave htext
  rw [line.not_follows_dots hdots, if_neg (by decide)] at hst
  obtain ⟨cs, hline, hlexeme⟩ := line.exists_continuation hdots
  rw [hline] at hst ⊢
  have hdecide : ∀ st', Amid [] (.ofText .identifier line.head.name.chars) true ('.' :: cs) st' →
      st'.decide octave '.' cs = .token .continuation cs.length .normal := by
    intro st' h'
    rw [Amid.decide_eq h', decidePlain, hlexeme]
    dsimp only
    rw [h'.mode]
  have hfirst : Amid [] (.ofText .identifier line.head.name.chars) false ([' '] ++ '.' :: cs)
      named := hst
  obtain ⟨final, hfinal, hrest⟩ :=
    hfirst.read_rest file octave (fun _ => rfl) (forall_of_all rfl) rfl rfl hdecide
  exact (hnamed.trans hfinal).ends hrest

theorem ofState_directoryCall (htext : text.toList = line.callChars) :
    (ofState file octave (.ofText text)).tokens.map Token.unplaced = line.callTokens file ∧
      (ofState file octave (.ofText text)).failure = none :=
  ofState_quoted file octave line.head.name line.literal [] line.ending htext

end Scan

end MFile
