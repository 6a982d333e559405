import MFile.Proofs.Lexing.Forward.Tokens
import MFile.Proofs.Lexing.Forward.Elements

/-!
The text that assigns one row to a name, and the tokens that are read from it. What ends a statement
outside of brackets, be it a command or not, is the end of the text, a line break, a semicolon, a
comma or a comment.
-/

namespace MFile

open Lexing Text

inductive Ending
  | textEnd
  | lineBreak (afterReturn : Bool)
  | semicolon
  | comma
  | comment (mark : Char) (body : List Char) (isMark : mark = '%' ∨ mark = '#')
    (inLine : ∀ c ∈ body, isBreak c = false)

namespace Ending

def chars : Ending → List Char
  | textEnd => []
  | lineBreak afterReturn => if afterReturn then ['\r', '\n'] else ['\n']
  | semicolon => [';']
  | comma => [',']
  | comment mark body .. => mark :: body

def kind? : Ending → Option Kind
  | textEnd => none
  | lineBreak _ => some .newline
  | semicolon => some .semicolon
  | comma => some .comma
  | comment .. => some .comment

def tokens (file : String) (e : Ending) : List Token :=
  e.kind?.toList.map (Token.spelling file · e.chars)

structure Closes (kind : Kind) (c : Char) (cs : List Char) : Prop where
  blank : isBlank c = false
  stop : Command.isStop c = true
  decides : ∀ (octave : Bool) (st : State), st.firstInLine = false →
    st.decidePlain octave c cs = .token kind cs.length st.mode

theorem closes_mark {c : Char} {kind : Kind} (hc : c ≠ '.') (hmark : Lexeme.mark? c = some kind)
    (hblank : isBlank c = false) (hstop : Command.isStop c = true) : Closes kind c [] := by
  refine ⟨hblank, hstop, fun octave st _ => ?_⟩
  rw [State.decidePlain, Lexeme.ofChars?_mark hmark hc rfl]
  rfl

theorem closes_comment {mark : Char} {body : List Char} (hmark : mark = '%' ∨ mark = '#')
    (hbody : ∀ c ∈ body, isBreak c = false) : Closes .comment mark body := by
  have hrest : restOfLine body = body.length := by
    have hrun : restOfLine (body ++ []) = body.length :=
      run_append (fun c hc => by rw [hbody c hc]; rfl) rfl
    rwa [List.append_nil] at hrun
  have hlexeme : Lexeme.ofChars? mark body = some (.comment body.length) := by
    obtain rfl | rfl := hmark <;> rw [Lexeme.ofChars?.eq_def, hrest] <;> rfl
  refine ⟨by obtain rfl | rfl := hmark <;> rfl, by obtain rfl | rfl := hmark <;> rfl, ?_⟩
  intro octave st hline
  rw [State.decidePlain, hlexeme]
  dsimp only
  rw [State.decideComment, hline]
  split <;> rfl

theorem textEnd_or_closes (e : Ending) : (e.chars = [] ∧ e.kind? = none) ∨
    ∃ kind c cs, e.chars = c :: cs ∧ e.kind? = some kind ∧ Closes kind c cs := by
  cases e with
  | textEnd => exact .inl ⟨rfl, rfl⟩
  | lineBreak afterReturn =>
    cases afterReturn with
    | false => exact .inr ⟨_, _, _, rfl, rfl, rfl, rfl, fun _ _ _ => rfl⟩
    | true => exact .inr ⟨_, _, _, rfl, rfl, rfl, rfl, fun _ _ _ => rfl⟩
  | semicolon => exact .inr ⟨_, _, _, rfl, rfl, closes_mark (by decide) rfl rfl rfl⟩
  | comma => exact .inr ⟨_, _, _, rfl, rfl, closes_mark (by decide) rfl rfl rfl⟩
  | comment mark body hmark hbody => exact .inr ⟨_, _, _, rfl, rfl, closes_comment hmark hbody⟩

end Ending

namespace Lexing.State

variable {mode mode' : Mode} {opened : List Kind} {last : Previous} {blank : Bool} {c : Char}
  {cs gap : List Char}
  {st next : State} {kind : Kind} {file : String} {octave : Bool} {ts : List Token}

theorem Gives.ends (h : Gives file octave st ts next)
    (hrest : ∀ c ∈ next.cursor.rest, isBlank c = true) :
    (Scan.ofState file octave st).tokens.map Token.unplaced = ts ∧
      (Scan.ofState file octave st).failure = none := by
  have hend : next.step file octave = .finished := by
    have hready : next.pastBlanks.cursor.rest = [] := by
      rw [pastBlanks_rest, List.dropWhile_eq_nil_iff]
      exact hrest
    rw [step]
    dsimp only
    rw [hready]
  have hscan := Scan.ofState_finished hend
  refine ⟨?_, ?_⟩
  · rw [h.tokens, hscan]
    exact List.append_nil ts
  · rw [h.failure, hscan]

namespace Midway

theorem decide_stop (h : Midway mode opened last blank (c :: cs) st)
    (hmode : ∀ offset, mode.reached offset = mode) (hstop : Command.isStop c = true) :
    st.decide octave c cs = { st with mode := .normal }.decidePlain octave c cs := by
  rw [decide, h.mode]
  cases mode with
  | normal =>
    have hst : { st with mode := .normal } = st := by
      rw [← h.mode]
    rw [hst]
  | command kind => exact if_pos hstop
  | commandAfter offset kind =>
    have hreached := hmode offset
    rw [Mode.reached, if_pos rfl] at hreached
    cases hreached

theorem read_rest (file : String) (octave : Bool)
    (h : Midway mode [] last false (gap ++ c :: cs) st)
    (hmode : ∀ offset, mode.reached offset = mode) (hgap : ∀ d ∈ gap, isBlank d = true)
    (hc : isBlank c = false) (hparams : last.endsParams = false)
    (hdecide : ∀ st', Midway mode [] last (!gap.isEmpty) (c :: cs) st' →
      st'.decide octave c cs = .token kind cs.length mode') :
    ∃ next, Gives file octave st [Token.spelling file kind (c :: cs)] next ∧
      ∀ d ∈ next.cursor.rest, isBlank d = true := by
  have hread := h.gives_read file octave hmode hgap hc hparams hdecide
  rw [separates_outside, if_neg (by decide), List.take_length] at hread
  refine ⟨_, hread, fun d hd => ?_⟩
  rw [take_next_cursor, Cursor.rest_skip, decided_cursor, (h.pastBlanks hmode hgap hc).ahead,
    List.drop_succ_cons, List.drop_length] at hd
  cases hd

theorem read_ending (file : String) (octave : Bool) (e : Ending)
    (h : Midway mode [] last false (gap ++ e.chars) st)
    (hmode : ∀ offset, mode.reached offset = mode) (hgap : ∀ d ∈ gap, isBlank d = true)
    (hparams : last.endsParams = false) :
    ∃ next, Gives file octave st (e.tokens file) next ∧
      ∀ c ∈ next.cursor.rest, isBlank c = true := by
  obtain ⟨hchars, hkind⟩ | ⟨kind, c, cs, hchars, hkind, hcloses⟩ := e.textEnd_or_closes
  · rw [Ending.tokens, hkind]
    refine ⟨st, .refl st, ?_⟩
    rwa [h.ahead, hchars, List.append_nil]
  · rw [hchars] at h
    rw [Ending.tokens, hkind, hchars]
    have hdecide : ∀ st', Midway mode [] last (!gap.isEmpty) (c :: cs) st' →
        st'.decide octave c cs = .token kind cs.length .normal := by
      intro st' h'
      rw [h'.decide_stop hmode hcloses.stop]
      exact hcloses.decides octave { st' with mode := .normal } h'.firstInLine
    exact h.read_rest file octave hmode hgap hcloses.blank hparams hdecide

end Midway

end Lexing.State

end MFile

/-! ## Assignments -/

namespace MFile

open Lexing Text

inductive Enclosure
  | matrix
  | cell

namespace Enclosure

def opening : Enclosure → Kind
  | matrix => .lbracket
  | cell => .lbrace

def closing : Enclosure → Kind
  | matrix => .rbracket
  | cell => .rbrace

def openChar : Enclosure → Char
  | matrix => '['
  | cell => '\x7b'

def closeChar : Enclosure → Char
  | matrix => ']'
  | cell => '\x7d'

end Enclosure

/-- `target = [first …];`, or the same with braces. -/
def assignmentChars (target : Identifier) (around : Enclosure) (sep : Separator) (first : Element)
    (more : List Element) : List Char :=
  target.chars ++
    (" = ".toList ++ around.openChar :: (rowChars sep first more ++ [around.closeChar, ';']))

def assignmentTokens (file : String) (target : Identifier) (around : Enclosure) (sep : Separator)
    (first : Element) (more : List Element) : List Token :=
  Token.spelling file .identifier target.chars :: Token.spelling file .assignment ['='] ::
    Token.spelling file around.opening [around.openChar] :: (rowTokens file sep first more ++
      [Token.spelling file around.closing [around.closeChar], Token.spelling file .semicolon [';']])

namespace Lexing

variable {last : Previous} {c : Char} {cs after : List Char} {st : State}

theorem lead_outside (file : String) (last : Previous) (gap : List Char) :
    lead file [] last gap = [] := by
  rw [lead, List.head?_nil, Option.any_none, Bool.and_false, Bool.false_and, if_neg (by decide)]

theorem Lexeme.ofChars?_single {kind : Kind} (hmark : mark? c = some kind) (hdot : c ≠ '.')
    (hpair : ∀ d, isPair c d = false) (cs : List Char) :
    ofChars? c cs = some (symbol kind 0) := by
  refine ofChars?_mark hmark hdot ?_
  cases cs with
  | nil => rfl
  | cons d cs => exact hpair d

namespace State

theorem decide_first (x : Identifier) (text : String) (octave : Bool)
    (hafter : startsWithAny isNameChar after = false) (hchain : Command.chain after = 0) :
    (ofText text).decide octave x.first (x.more ++ after) =
      .token .identifier x.more.length
        (if Command.follows after then
          .command (if Command.pathHeads.contains x.text then .path else .words)
        else .normal) := by
  have hblock : (ofText text).opensBlock x.text after = false := by
    rw [opensBlock]
    change (Word.isPositional x.text && if x.text = "arguments" then _ else false) = false
    split <;> simp [ofText]
  rw [decide, ofText]
  dsimp only
  rw [← ofText, decidePlain, Lexeme.ofChars?_alpha x.letter]
  dsimp only
  rw [decideWord, run_append x.nameChars hafter, take_length_append, drop_length_append]
  change (if Word.isReserved (String.ofList (x.first :: x.more)) = true then _
    else if ((ofText text).opensBlock x.text after) = true then _ else _) = _
  rw [x.free, hblock, if_neg (by decide), if_neg (by decide), modeAfterName, hchain]
  rfl

namespace Amid

variable (file : String) (octave : Bool)

theorem read_opening (around : Enclosure) (h : Amid [] last false (' ' :: around.openChar :: cs) st)
    (hlast : last.Plain) :
    ∃ next, Gives file octave st [Token.spelling file around.opening [around.openChar]] next ∧
      Amid [around.opening] (.ofText around.opening [around.openChar]) false cs next := by
  have hsymbol : Lexeme.ofChars? around.openChar cs = some (.symbol around.opening 0) := by
    cases around <;> exact Lexeme.ofChars?_single rfl (by decide) (fun _ => rfl) cs
  have hfirst : Amid [] last false ([' '] ++ around.openChar :: ([] ++ cs)) st := h
  obtain ⟨next, hgives, hnext⟩ := read_element file octave hfirst (forall_of_all rfl)
    (by cases around <;> rfl) hlast (by cases around <;> rfl) (by cases around <;> decide)
    (by cases around <;> rfl) fun st' h' => h'.decide_symbol hsymbol
  have hnest : around.opening.opened [] = [around.opening] := by cases around <;> rfl
  rw [lead_outside, List.nil_append] at hgives
  rw [hnest] at hnext
  exact ⟨next, hgives, hnext⟩

theorem read_closing (around : Enclosure)
    (h : Amid [around.opening] last false (around.closeChar :: cs) st) (hlast : last.Plain) :
    ∃ next, Gives file octave st [Token.spelling file around.closing [around.closeChar]] next ∧
      Amid [] (.ofText around.closing [around.closeChar]) false cs next := by
  have hsymbol : Lexeme.ofChars? around.closeChar cs = some (.symbol around.closing 0) := by
    cases around <;> exact Lexeme.ofChars?_single rfl (by decide) (fun _ => rfl) cs
  have hfirst : Amid [around.opening] last false ([] ++ around.closeChar :: ([] ++ cs)) st := h
  obtain ⟨next, hgives, hnext⟩ := read_other file octave hfirst (by simp)
    (by cases around <;> rfl) hlast (by cases around <;> rfl) (by cases around <;> decide)
    (.inl rfl) fun st' h' => h'.decide_symbol hsymbol
  have hnest : around.closing.opened [around.opening] = [] := by cases around <;> rfl
  rw [hnest] at hnext
  exact ⟨next, hgives, hnext⟩

end Amid

end State

end Lexing

namespace Scan

open State State.Midway

theorem ofState_assignment (target : Identifier) (around : Enclosure) (sep : Separator)
    (first : Element) (more : List Element) {text : String}
    (htext : text.toList = assignmentChars target around sep first more) (file : String)
    (octave : Bool) :
    (ofState file octave (.ofText text)).tokens.map Token.unplaced =
        assignmentTokens file target around sep first more ∧
      (ofState file octave (.ofText text)).failure = none := by
  let row := rowChars sep first more ++ [around.closeChar, ';']
  have hdecide : (ofText text).decide octave target.first
      (target.more ++ (" = ".toList ++ around.openChar :: row)) =
        .token .identifier target.more.length .normal := decide_first target text octave rfl rfl
  obtain ⟨named, hnamed, hst⟩ := read_first file octave htext (not_isBlank target.letter) rfl rfl
    rfl (notMem_of_class target.class rfl) hdecide
  have hsign : Amid [] (.ofText .identifier target.chars) false
      ([' '] ++ '=' :: ([] ++ (' ' :: around.openChar :: row))) named := hst
  obtain ⟨assigned, hassigned, hst⟩ := Amid.read_other file octave hsign (forall_of_all rfl)
    rfl
    (operand_of_class rfl _).toPlain rfl (by decide) (.inr rfl)
    fun st' h' => h'.decide_symbol (Lexeme.ofChars?_mark rfl (by decide) rfl)
  obtain ⟨opened, hopened, hst⟩ :=
    Amid.read_opening file octave around hst ⟨rfl, by decide, by decide⟩
  have hinside : Amid [around.opening] (.ofText around.opening [around.openChar]) false
      (rowChars sep first more ++ around.closeChar :: [';']) opened := hst
  obtain ⟨last, filled, hfilled, hst, hlast⟩ := hinside.read_row file octave
    (by cases around <;> rfl) sep first more (by cases around <;> exact ⟨rfl, by decide, by decide⟩)
    (by cases around <;> rfl) (by cases around <;> rfl)
  obtain ⟨closed, hclosed, hst⟩ := Amid.read_closing file octave around hst hlast.toPlain
  have hclosing : Amid [] (.ofText around.closing [around.closeChar]) false
      ([] ++ Ending.semicolon.chars) closed := hst
  obtain ⟨final, hfinal, hrest⟩ := hclosing.read_ending file octave .semicolon (fun _ => rfl)
    (List.forall_mem_nil _) (by cases around <;> rfl)
  have hall := hnamed.trans (hassigned.trans (hopened.trans (hfilled.trans (hclosed.trans hfinal))))
  exact hall.ends hrest

end Scan

end MFile
