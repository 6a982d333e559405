import MFile.Proofs.Grammar.Precedence.Commands
import MFile.Proofs.Grammar.Relayout.Rows
import MFile.Proofs.Lexing.Forward.Commands
import MFile.Proofs.Lexing.Forward.Directories

/-!
A command says the same as the call of its name with the words of the command in quotes: both
texts give the same nodes with the same numbers, in other places.
-/

namespace MFile

open Lexing Text Grammar Parse

variable {file : String}

/-! ## Faces -/

theorem CommandWord.dequote_chars (w : CommandWord) :
    dequote '\'' (String.ofList w.chars) = w.text := by
  rw [dequote, String.toList_ofList, dequoteFrom_of_notMem (w.notMem rfl)]
  rfl

namespace CommandLine

def words (line : CommandLine) : List String := (line.first :: line.more).map CommandWord.text

theorem faces_tokens (file : String) (line : CommandLine) :
    (line.tokens file).map Token.face =
      (.identifier, line.name.text) :: (line.words.map (.charArray, ·) ++ [(.newline, "\n")]) := by
  have hword : ∀ w : CommandWord,
      (Token.spelling file .charArray w.chars).face = (.charArray, w.text) :=
    fun w => congrArg (Prod.mk Kind.charArray) w.dequote_chars
  rw [tokens, words, List.map_cons, List.map_append, List.map_map, List.map_map]
  refine congrArg (_ :: · ++ _) (List.map_congr_left fun w _ => hword w)

theorem faces_callTokens (file : String) (line : CommandLine) :
    (line.callTokens file).map Token.face =
      (calling line.name.text line.words).text ++ [(.newline, "\n")] := by
  have hword : ∀ w : CommandWord,
      (Token.spelling file .charArray w.literal.chars).face = (.charArray, w.text) :=
    fun w => congrArg (Prod.mk Kind.charArray) (dequote_literal w.literal)
  have hitems : ∀ (first : CommandWord) (more : List CommandWord),
      (Token.spelling file .charArray first.literal.chars ::
        more.flatMap (fun w => [Token.spelling file .comma [','],
          Token.spelling file .charArray w.literal.chars])).map Token.face =
        itemsText (((first :: more).map CommandWord.text).map (.charArray blankSite)) := by
    intro first more
    induction more generalizing first with
    | nil => exact congrArg (· :: []) (hword first)
    | cons next more ih =>
      rw [List.flatMap_cons, List.map_cons, hword, List.cons_append, List.cons_append,
        List.nil_append, List.map_cons, ih]
      rfl
  rw [callTokens, ← List.cons_append, List.map_cons, List.map_cons, List.map_append, hitems,
    calling, Name.text, Name.text, List.cons_append, List.nil_append, List.cons_append,
    List.cons_append, List.append_assoc]
  rfl

/-! ## Texts -/

def source (name : String) (settings : Settings) (line : CommandLine) : SourceText :=
  .ofString name (String.ofList line.chars) settings

def callSource (name : String) (settings : Settings) (line : CommandLine) : SourceText :=
  .ofString name (String.ofList line.callChars) settings

variable (name : String) (settings : Settings) (line : CommandLine)

theorem text_source : (line.source name settings).text.toList = line.chars := by
  have hmark : line.name.first ≠ '\ufeff' := ne_of_isAlpha line.name.letter rfl
  have htab : '\t' ∉ line.chars := by
    have hname : '\t' ∉ line.name.chars := notMem_of_class line.name.class rfl
    have hword : ∀ w : CommandWord, '\t' ∉ w.chars := fun w => w.notMem rfl
    simp [chars, hname, hword]
  exact (congrArg String.toList (text_ofString name settings hmark htab)).trans
    String.toList_ofList

theorem text_callSource : (line.callSource name settings).text.toList = line.callChars := by
  have hmark : line.name.first ≠ '\ufeff' := ne_of_isAlpha line.name.letter rfl
  have htab : '\t' ∉ line.callChars := by
    have hname : '\t' ∉ line.name.chars := notMem_of_class line.name.class rfl
    have hword : ∀ w : CommandWord, '\t' ∉ w.literal.chars := fun w => w.literal.notMem (.inr rfl)
    simp [callChars, hname, hword]
  exact (congrArg String.toList (text_ofString name settings hmark htab)).trans
    String.toList_ofList

end CommandLine

namespace FileUnit

/-- A command and the call that it stands for are both accepted, and give the same script up to
places, with the same numbers: the call of the name with the words of the line. -/
theorem ofSource_command (name : String) (settings : Settings) (line : CommandLine) :
    ∃ spoken called, ofSource (line.source name settings) settings = .ok spoken ∧
      ofSource (line.callSource name settings) settings = .ok called ∧
      ∀ place, spoken.relocate (fun _ => place) = called.relocate (fun _ => place) ∧
        called.relocate (fun _ => place) = callScript place line.name.text line.words := by
  obtain ⟨htokens, hfailure⟩ := Scan.ofState_command line name settings.octave
    (line.text_source name settings)
  obtain ⟨htokens', hfailure'⟩ := Scan.ofState_calling line name settings.octave
    (line.text_callSource name settings)
  have hfaces := line.faces_tokens name
  have hfaces' := line.faces_callTokens name
  rw [← htokens, List.map_map] at hfaces
  rw [← htokens', List.map_map] at hfaces'
  have himport : line.name.text ≠ "import" := fun h => line.free (h ▸ List.mem_cons_self)
  obtain ⟨spoken, hspoken, hshape⟩ := ofTokens_command name himport (List.cons_ne_nil _ _) hfaces
  obtain ⟨called, hcalled, hshape'⟩ := ofTokens_call name hfaces'
  refine ⟨spoken, called, ?_, ?_, fun place => ⟨?_, hshape' place⟩⟩
  · rw [ofSource_eq]
    change (Scan.ofState name settings.octave _).failure.elim _ _ = _
    rw [hfailure]
    exact hspoken
  · rw [ofSource_eq]
    change (Scan.ofState name settings.octave _).failure.elim _ _ = _
    rw [hfailure']
    exact hcalled
  · rw [hshape, hshape']
    rfl

def oddWords : CommandLine where
  name := ⟨'d', ['o', 'c'], rfl, forall_of_all rfl, by decide⟩
  first := ⟨'-', ['a', 'l', 'l'], forall_of_all rfl, rfl⟩
  more := [⟨'(', [], forall_of_all rfl, rfl⟩, ⟨'e', ['n', 'd'], forall_of_all rfl, rfl⟩,
    ⟨'1', ['.', '5'], forall_of_all rfl, rfl⟩]
  free := by decide
  leads := by decide

example : String.ofList oddWords.chars = "doc -all ( end 1.5\n" ∧
    String.ofList oddWords.callChars = "doc('-all', '(', 'end', '1.5')\n" := by decide

end FileUnit

/-!
## Directories

A directory command says the same as the call of its name with the path in quotes. Tabs stand only
before what ends the line and in a comment, so the text that is read has the same path.
-/

namespace Ending

def expanded (width column : Nat) : Ending → Ending
  | comment mark body isMark inLine =>
    .comment mark (expandTabsFrom width (column + 1) body) isMark fun c hc =>
      (mem_expandTabsFrom hc).elim (fun h => h ▸ rfl) (inLine c)
  | e => e

theorem chars_expanded (width column : Nat) (e : Ending) :
    (e.expanded width column).chars = expandTabsFrom width column e.chars := by
  cases e with
  | comment mark body hmark =>
    obtain rfl | rfl := hmark <;> rfl
  | lineBreak afterReturn => cases afterReturn <;> rfl
  | _ => rfl

theorem endsFile (e : Ending) (file : String) : EndsFile ((e.tokens file).map Token.face) := by
  cases e with
  | textEnd => exact .inl rfl
  | comment => exact .inr ⟨_, rfl, .inl rfl⟩
  | _ => exact .inr ⟨_, rfl, .inr rfl⟩

end Ending

namespace DirectoryLine

variable (line : DirectoryLine)

/-! ## Faces -/

theorem valueOf_path : Kind.valueOf .directory (String.ofList line.path) =
    String.ofList line.path := by
  have hfirst : line.first ≠ '\'' :=
    (Command.class_of_isPathChar (line.pathChars _ List.mem_cons_self)).2.2.1
  have hquoted : isQuotedPath line.path = false := by
    have hhead : (line.path.head? == some '\'') = false :=
      beq_false_of_ne fun h => hfirst (Option.some.inj h)
    rw [isQuotedPath, hhead, Bool.and_false, Bool.false_and]
  rw [Kind.valueOf, String.toList_ofList, hquoted, if_neg (by decide)]

theorem faces_tokens (file : String) : (line.tokens file).map Token.face =
    (.identifier, line.head.name.text) :: ([(.directory, String.ofList line.path)] ++
      (line.ending.tokens file).map Token.face) := by
  have hpath : (Token.spelling file .directory line.path).face =
      (.directory, String.ofList line.path) :=
    congrArg (Prod.mk Kind.directory) line.valueOf_path
  rw [tokens, List.map_cons, List.map_cons, hpath]
  rfl

theorem faces_callTokens (file : String) : (line.callTokens file).map Token.face =
    (calling line.head.name.text [String.ofList line.path]).text ++
      (line.ending.tokens file).map Token.face := by
  have hliteral : (Token.spelling file .charArray line.literal.chars).face =
      (.charArray, String.ofList line.path) :=
    congrArg (Prod.mk Kind.charArray) (dequote_literal line.literal)
  rw [callTokens, List.map_cons, List.map_cons, List.map_cons, List.map_cons, hliteral]
  rfl

/-! ## Texts -/

def source (name : String) (settings : Settings) : SourceText :=
  .ofString name (String.ofList line.chars) settings

def callSource (name : String) (settings : Settings) : SourceText :=
  .ofString name (String.ofList line.callChars) settings

def expanded (width : Nat) : DirectoryLine :=
  let column := (line.head.name.chars ++ ' ' :: line.path).length
  let gap := expandTabsFrom width column line.gap
  { line with
    gap := gap
    blank := fun c hc => (mem_expandTabsFrom hc).elim (fun h => h ▸ rfl) (line.blank c)
    ending := line.ending.expanded width (column + gap.length) }

def shown (settings : Settings) : DirectoryLine :=
  (SourceText.tabStops settings line.chars).elim line line.expanded

theorem head_shown (settings : Settings) : (line.shown settings).head = line.head := by
  rw [shown]
  cases SourceText.tabStops settings line.chars <;> rfl

theorem path_shown (settings : Settings) : (line.shown settings).path = line.path := by
  rw [shown]
  cases SourceText.tabStops settings line.chars <;> rfl

theorem text_source (name : String) (settings : Settings) :
    (line.source name settings).text.toList = (line.shown settings).chars := by
  have hmark : line.head.name.first ≠ '\ufeff' := ne_of_isAlpha line.head.name.letter rfl
  have hfront : ∀ c, c = '\t' ∨ c = '\n' → c ∉ line.head.name.chars ++ ' ' :: line.path := by
    rintro c (rfl | rfl)
    · simp [notMem_of_class line.head.name.class (d := '\t') rfl, line.notMem (c := '\t') rfl]
    · simp [notMem_of_class line.head.name.class (d := '\n') rfl, line.notMem (c := '\n') rfl]
  have hchars : (line.head.name.chars ++ ' ' :: line.path) ++ (line.gap ++ line.ending.chars) =
      line.chars := by
    rw [List.append_assoc]
    rfl
  have htext : (line.source name settings).text.toList =
      (line.head.name.chars ++ ' ' :: line.path) ++
        (SourceText.tabStops settings line.chars).elim (line.gap ++ line.ending.chars)
          (expandTabsFrom · (line.head.name.chars ++ ' ' :: line.path).length
            (line.gap ++ line.ending.chars)) := by
    rw [source, ← hchars]
    exact SourceText.toList_ofString_append name settings hmark (hfront _ (.inl rfl))
      (hfront _ (.inr rfl)) _
  rw [htext, shown]
  cases SourceText.tabStops settings line.chars with
  | none => exact hchars
  | some width =>
    have hgap : '\n' ∉ line.gap := fun h => Bool.noConfusion (line.blank _ h)
    rw [Option.elim_some, Option.elim_some, expandTabsFrom_append hgap, ← Ending.chars_expanded,
      List.append_assoc]
    rfl

theorem exists_callText (name : String) (settings : Settings) : ∃ e : Ending,
    (line.callSource name settings).text.toList = { line with ending := e }.callChars := by
  let front := line.head.name.chars ++ '(' :: (line.literal.chars ++ [')'])
  have hmark : line.head.name.first ≠ '\ufeff' := ne_of_isAlpha line.head.name.letter rfl
  have hfront : ∀ c, c = '\t' ∨ c = '\n' → c ∉ front := by
    rintro c hc hmem
    have hliteral : c ∉ line.literal.chars := line.literal.notMem hc.symm
    obtain rfl | rfl := hc
    · simp [front, notMem_of_class line.head.name.class (d := '\t') rfl, hliteral] at hmem
    · simp [front, notMem_of_class line.head.name.class (d := '\n') rfl, hliteral] at hmem
  have hchars : ∀ e : Ending, front ++ e.chars = { line with ending := e }.callChars := by
    intro e
    rw [List.append_assoc, List.cons_append, List.append_assoc]
    rfl
  have htext : (line.callSource name settings).text.toList =
      front ++ (SourceText.tabStops settings line.callChars).elim line.ending.chars
        (expandTabsFrom · front.length line.ending.chars) := by
    rw [callSource, ← hchars line.ending]
    exact SourceText.toList_ofString_append name settings hmark (hfront _ (.inl rfl))
      (hfront _ (.inr rfl)) _
  rw [htext]
  cases SourceText.tabStops settings line.callChars with
  | none => exact ⟨line.ending, hchars line.ending⟩
  | some width =>
    refine ⟨line.ending.expanded width front.length, ?_⟩
    rw [Option.elim_some, ← Ending.chars_expanded]
    exact hchars _

end DirectoryLine

namespace FileUnit

open DirectoryLine

/-- A directory command takes its path from the line as it stands, without the blanks behind it,
and both it and the call of its name with the path in quotes are accepted and give the same script
up to places, with the same numbers. Dots inside of the path are a fault; right behind the name
they continue the line instead. -/
theorem ofSource_directory (name : String) (settings : Settings) (line : DirectoryLine) :
    (¬ dots <:+: line.path →
      (Scan.ofSource (line.source name settings) settings).tokens.map Token.unplaced =
          Token.spelling name .identifier line.head.name.chars ::
            Token.spelling name .directory line.path ::
              (line.shown settings).ending.tokens name ∧
      (Scan.ofSource (line.source name settings) settings).failure = none ∧
      ∃ spoken called, ofSource (line.source name settings) settings = .ok spoken ∧
        ofSource (line.callSource name settings) settings = .ok called ∧
        ∀ place, spoken.relocate (fun _ => place) = called.relocate (fun _ => place) ∧
          called.relocate (fun _ => place) =
            callScript place line.head.name.text [String.ofList line.path]) ∧
    (dots <:+: line.path → ¬ dots <+: line.path →
      ∃ e, (Scan.ofSource (line.source name settings) settings).failure = some e ∧
        e.fault = .continuationInDirectoryCommand) ∧
    (dots <+: line.path →
      (Scan.ofSource (line.source name settings) settings).failure = none) := by
  -- The lexer sees the line with its tabs expanded, which changes neither its name nor its path.
  have htext := line.text_source name settings
  refine ⟨fun hdots => ?_, fun hdots hstart => ?_, fun hdots => ?_⟩
  · have hpath : ¬ dots <:+: (line.shown settings).path := line.path_shown settings ▸ hdots
    obtain ⟨htokens, hfailure⟩ := Scan.ofState_directory _ name settings.octave hpath htext
    obtain ⟨e, hcall⟩ := line.exists_callText name settings
    obtain ⟨htokens', hfailure'⟩ := Scan.ofState_directoryCall _ name settings.octave hcall
    have hfaces := (line.shown settings).faces_tokens name
    have hfaces' := { line with ending := e }.faces_callTokens name
    rw [← htokens, List.map_map, line.head_shown, line.path_shown] at hfaces
    rw [← htokens', List.map_map] at hfaces'
    have himport : line.head.name.text ≠ "import" := by cases line.head <;> decide
    obtain ⟨spoken, hspoken, hshape⟩ := ofTokens_texts name himport (List.cons_ne_nil _ _)
      (List.forall_mem_singleton.2 rfl) ((line.shown settings).ending.endsFile name) hfaces
    obtain ⟨called, hcalled, hshape'⟩ := ofTokens_called name (e.endsFile name) hfaces'
    have hread : ofSource (line.source name settings) settings = ofTokens name _ :=
      ofSource_of_scan hfailure
    have hread' : ofSource (line.callSource name settings) settings = ofTokens name _ :=
      ofSource_of_scan hfailure'
    refine ⟨?_, hfailure, spoken, called, hread.trans hspoken, hread'.trans hcalled,
      fun place => ⟨?_, hshape' place⟩⟩
    · rw [← line.head_shown settings, ← line.path_shown settings]
      exact htokens
    · rw [hshape, hshape']
      rfl
  · rw [← line.path_shown settings] at hdots hstart
    exact Scan.failure_directory _ name settings.octave hdots hstart htext
  · rw [← line.path_shown settings] at hdots
    exact (Scan.ofState_continued _ name settings.octave hdots htext).2

def spacedPath : DirectoryLine where
  head := .cd
  first := '.'
  more := ['.', '/', 'a', ' ', 'b']
  pathChars := forall_of_all rfl
  noBlankFirst := by decide
  noBlankLast := by decide
  noParen := by decide
  noAssignment := nofun
  noOperator := by decide
  gap := [' ', '\t']
  blank := forall_of_all rfl
  ending := .comment '%' ['\t', 'u', 'p'] (.inl rfl) (forall_of_all rfl)

def dottedPath : DirectoryLine where
  head := .mkdir
  first := 'a'
  more := ['.', '.', '.', 'b']
  pathChars := forall_of_all rfl
  noBlankFirst := by decide
  noBlankLast := by decide
  noParen := by decide
  noAssignment := nofun
  noOperator := by decide
  gap := []
  blank := List.forall_mem_nil _
  ending := .semicolon

def continuedPath : DirectoryLine where
  head := .rmdir
  first := '.'
  more := ['.', '.', 'b']
  pathChars := forall_of_all rfl
  noBlankFirst := by decide
  noBlankLast := by decide
  noParen := by decide
  noAssignment := nofun
  noOperator := by decide
  gap := []
  blank := List.forall_mem_nil _
  ending := .lineBreak true

theorem ofSource_directory_threePaths :
    (¬ dots <:+: spacedPath.path ∧ ∃ spoken called,
      ofSource (spacedPath.source "t.m" {}) {} = .ok spoken ∧
        ofSource (spacedPath.callSource "t.m" {}) {} = .ok called ∧
        ∀ place, spoken.relocate (fun _ => place) = called.relocate (fun _ => place) ∧
          called.relocate (fun _ => place) = callScript place "cd" ["../a b"]) ∧
    (dots <:+: dottedPath.path ∧ ¬ dots <+: dottedPath.path ∧
      ∃ e, (Scan.ofSource (dottedPath.source "t.m" {}) {}).failure = some e ∧
        e.fault = .continuationInDirectoryCommand) ∧
    (dots <+: continuedPath.path ∧
      (Scan.ofSource (continuedPath.source "t.m" {}) {}).failure = none) := by
  have hspaced : ¬ dots <:+: spacedPath.path := by decide
  have hdotted : dots <:+: dottedPath.path ∧ ¬ dots <+: dottedPath.path := by decide
  have hcontinued : dots <+: continuedPath.path := by decide
  obtain ⟨-, -, hsame⟩ := (ofSource_directory "t.m" {} spacedPath).1 hspaced
  exact ⟨⟨hspaced, hsame⟩,
    ⟨hdotted.1, hdotted.2, (ofSource_directory "t.m" {} dottedPath).2.1 hdotted.1 hdotted.2⟩,
    hcontinued, (ofSource_directory "t.m" {} continuedPath).2.2 hcontinued⟩

example : String.ofList spacedPath.chars = "cd ../a b \t%\tup" ∧
    String.ofList spacedPath.callChars = "cd('../a b')%\tup" := by decide

end FileUnit

end MFile
