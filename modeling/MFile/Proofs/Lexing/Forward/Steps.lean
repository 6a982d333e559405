import MFile.Proofs.Lexing.Continuations.Pieces
import MFile.Proofs.Lexing.Cut

/-!
Reading a text whose characters are known. Each token that comes out is written down without its
place, and the reader is described by what it knows in the middle of a statement: the brackets
that are open, the last token, and what lies ahead.
-/

namespace MFile

open Lexing Text

def Token.unplaced (t : Token) : Token where
  kind := t.kind
  raw := t.raw
  location := t.location.forget
  span := ⟨0, 0⟩

def Token.spelling (file : String) (kind : Kind) (chars : List Char) : Token where
  kind := kind
  raw := String.ofList chars
  location := ⟨file, .file, none⟩
  span := ⟨0, 0⟩

def Kind.opened (kind : Kind) (opened : List Kind) : List Kind :=
  if kind.isOpening then kind :: opened else if kind.isClosing then opened.tail else opened

namespace Lexing

namespace State

/-- Reading on from `st` gives the tokens, and then whatever reading on from `next` gives. -/
structure Gives (file : String) (octave : Bool) (st : State) (ts : List Token) (next : State) :
    Prop where
  tokens : (Scan.ofState file octave st).tokens.map Token.unplaced =
    ts ++ (Scan.ofState file octave next).tokens.map Token.unplaced
  failure : (Scan.ofState file octave st).failure = (Scan.ofState file octave next).failure

variable {file : String} {octave : Bool} {st mid next : State} {ts ts' : List Token}

theorem Gives.refl (st : State) : Gives file octave st [] st := ⟨rfl, rfl⟩

theorem Gives.trans (h : Gives file octave st ts mid) (h' : Gives file octave mid ts' next) :
    Gives file octave st (ts ++ ts') next :=
  ⟨by rw [h.tokens, h'.tokens, List.append_assoc], h.failure.trans h'.failure⟩

theorem gives_step {pieces : List Piece} (h : st.step file octave = .taken pieces next) :
    Gives file octave st (pieces.map (·.token.unplaced)) next := by
  refine ⟨?_, ?_⟩
  · rw [Scan.ofState_taken h, Scan.tokens, Scan.tokens, List.map_append, List.map_append,
      List.map_map]
    rfl
  · rw [Scan.ofState_taken h]

end State

/-! ## The middle of a statement -/

def Previous.ofText (kind : Kind) (chars : List Char) : Previous where
  kind := kind
  transpose := kind == .operator && (String.ofList chars == "'" || String.ofList chars == ".'")
  endsValue :=
    [.identifier, .number, .charArray, .string].contains kind || kind.isClosing ||
      kind == .operator && (String.ofList chars == "'" || String.ofList chars == ".'") ||
      (kind == .keyword && String.ofList chars == "end")
  endsParams := false

/-- In the middle of a statement: `opened` are the brackets, of which none holds the parameters of
an anonymous function, `last` is the last token and `rest` lies ahead. -/
structure State.Midway (mode : Mode) (opened : List Kind) (last : Previous) (blank : Bool)
    (rest : List Char) (st : State) : Prop where
  ahead : st.cursor.rest = rest
  brackets : st.brackets = opened.map (⟨·, false⟩)
  previous : st.previous = some last
  afterBlank : st.afterBlank = blank
  mode : st.mode = mode
  firstInLine : st.firstInLine = false
  firstInStatement : st.firstInStatement = false

abbrev State.Amid (opened : List Kind) (last : Previous) (blank : Bool) (rest : List Char)
    (st : State) : Prop :=
  State.Midway .normal opened last blank rest st

def goesOnWithin (opened : List Kind) : Kind → Bool
  | .newline | .comment | .continuation | .keyword => false
  | .semicolon | .comma => !opened.isEmpty
  | _ => true

def separates (opened : List Kind) (last : Previous) (blank : Bool) (kind : Kind)
    (chars after : List Char) : Bool :=
  blank && opened.head?.any (fun k => k == .lbracket || k == .lbrace) && last.endsValue &&
    State.opensElement kind (String.ofList chars) after

theorem separates_outside (last : Previous) (blank : Bool) (kind : Kind)
    (chars after : List Char) : separates [] last blank kind chars after = false := by
  rw [separates, List.head?_nil, Option.any_none, Bool.and_false, Bool.false_and, Bool.false_and]

namespace State.Midway

variable {file : String} {mode mode' : Mode} {opened : List Kind} {last : Previous} {blank : Bool}
  {c : Char} {cs gap : List Char} {st : State} {kind : Kind} {more : Nat}

theorem pastBlanks (h : Midway mode opened last false (gap ++ c :: cs) st)
    (hmode : ∀ offset, mode.reached offset = mode) (hgap : ∀ d ∈ gap, isBlank d = true)
    (hc : isBlank c = false) :
    Midway mode opened last (!gap.isEmpty) (c :: cs) st.pastBlanks := by
  have hrun : run isBlank st.cursor.rest = gap.length := by
    rw [h.ahead, run, List.takeWhile_append_of_pos hgap,
      List.takeWhile_cons_of_neg (by simp [hc]), List.append_nil]
  refine ⟨?_, h.brackets, h.previous, ?_, ?_, h.firstInLine, h.firstInStatement⟩
  · rw [pastBlanks_rest, h.ahead, List.dropWhile_append_of_pos hgap,
      List.dropWhile_cons_of_neg (by simp [hc])]
  · change (st.afterBlank || Decidable.decide (0 < run isBlank st.cursor.rest)) = _
    rw [hrun, h.afterBlank]
    cases gap <;> simp
  · change st.mode.reached _ = _
    rw [h.mode, hmode]

theorem comma (h : Midway mode opened last blank (c :: cs) st) (hlast : last.endsParams = false)
    (file : String) (kind : Kind) (more : Nat) :
    ((st.take file kind more).comma.toList.map Token.unplaced) =
      if separates opened last blank kind (c :: cs.take more) (cs.drop more) then
        [Token.spelling file .comma []]
      else [] := by
  have hneeds : st.needsComma kind (String.ofList (st.cursor.rest.take (more + 1)))
      (st.cursor.skip (more + 1)).rest =
      separates opened last blank kind (c :: cs.take more) (cs.drop more) := by
    have hrow : st.inRow = opened.head?.any (fun k => k == .lbracket || k == .lbrace) := by
      rw [inRow, h.brackets]
      cases opened <;> rfl
    rw [needsComma, separates, hrow, h.afterBlank, h.previous, Option.any_some, hlast,
      Cursor.rest_skip, h.ahead]
    simp
  rw [take]
  dsimp only
  rw [hneeds]
  split <;> rfl

theorem token (h : Midway mode opened last blank (c :: cs) st) :
    (st.take file kind more).token.unplaced = Token.spelling file kind (c :: cs.take more) := by
  rw [Token.unplaced, Token.spelling, take_token_raw, h.ahead]
  rfl

theorem next (h : Midway mode opened last blank (c :: cs) st)
    (hkind : goesOnWithin opened kind = true) (hlast : last.kind ≠ .handle)
    (hline : '\n' ∉ c :: cs.take more) (file : String) :
    Midway mode (kind.opened opened) (.ofText kind (c :: cs.take more)) false (cs.drop more)
      (st.take file kind more).next := by
  have htext : st.cursor.rest.take (more + 1) = c :: cs.take more := by rw [h.ahead]; rfl
  have hparams : (st.brackets.head?.any (·.params)) = false := by
    rw [h.brackets]
    cases opened <;> rfl
  have hhandle : st.previous.any (·.kind == .handle) = false := by simp [h.previous, hlast]
  refine ⟨?_, ?_, ?_, ?_, h.mode, ?_, ?_⟩
  · rw [take_next_cursor, Cursor.rest_skip, h.ahead]
    rfl
  · change st.bracketsAfter kind = _
    rw [bracketsAfter, Kind.opened, h.brackets, hhandle, Bool.and_false]
    split
    · rfl
    split
    · exact List.map_tail.symm
    · rfl
  · change st.previousAfter kind (String.ofList (st.cursor.rest.take (more + 1))) = _
    rw [previousAfter, htext, hparams, if_neg (by cases kind <;> simp_all [goesOnWithin,
      Kind.isTrivia])]
    simp only [Previous.ofText, Bool.and_false]
  · change (kind == .continuation) = false
    cases kind <;> first | rfl | cases hkind
  · rw [take_next_firstInLine, htext]
    simpa using hline
  · change st.firstInStatementAfter kind _ = false
    have hempty : st.brackets.isEmpty = opened.isEmpty := by
      rw [h.brackets]
      cases opened <;> rfl
    cases kind <;> first | rfl | cases hkind | skip
    all_goals
      rw [firstInStatementAfter, hempty]
      exact Bool.not_eq_true' _ ▸ hkind

theorem decided (h : Midway mode opened last blank (c :: cs) st.pastBlanks) (mode' : Mode) :
    Midway mode' opened last blank (c :: cs) (st.decided mode') :=
  ⟨h.ahead, h.brackets, h.previous, h.afterBlank, rfl, h.firstInLine, h.firstInStatement⟩

theorem gives_read (file : String) (octave : Bool)
    (h : Midway mode opened last false (gap ++ c :: cs) st)
    (hmode : ∀ offset, mode.reached offset = mode) (hgap : ∀ d ∈ gap, isBlank d = true)
    (hc : isBlank c = false) (hparams : last.endsParams = false)
    (hdecide : ∀ st', Midway mode opened last (!gap.isEmpty) (c :: cs) st' →
      st'.decide octave c cs = .token kind more mode') :
    Gives file octave st
      ((if separates opened last (!gap.isEmpty) kind (c :: cs.take more) (cs.drop more) then
        [Token.spelling file .comma []] else []) ++
          [Token.spelling file kind (c :: cs.take more)])
      ((st.decided mode').take file kind more).next := by
  have hready := h.pastBlanks hmode hgap hc
  have hstep : st.step file octave = .taken _ _ := step_of_decide hready.ahead (hdecide _ hready)
  have hgives := gives_step hstep
  rw [commas, List.map_append, List.map_map, List.map_cons, List.map_nil,
    (hready.decided mode').token] at hgives
  rw [← (hready.decided mode').comma hparams file kind more]
  exact hgives

theorem read (file : String) (octave : Bool)
    (h : Midway mode opened last false (gap ++ c :: cs) st)
    (hmode : ∀ offset, mode.reached offset = mode) (hgap : ∀ d ∈ gap, isBlank d = true)
    (hc : isBlank c = false) (hparams : last.endsParams = false) (hlast : last.kind ≠ .handle)
    (hkind : goesOnWithin opened kind = true) (hline : '\n' ∉ c :: cs.take more)
    (hdecide : ∀ st', Midway mode opened last (!gap.isEmpty) (c :: cs) st' →
      st'.decide octave c cs = .token kind more mode') :
    ∃ next, Gives file octave st
        ((if separates opened last (!gap.isEmpty) kind (c :: cs.take more) (cs.drop more) then
          [Token.spelling file .comma []] else []) ++
            [Token.spelling file kind (c :: cs.take more)]) next ∧
      Midway mode' (kind.opened opened) (.ofText kind (c :: cs.take more)) false (cs.drop more)
        next :=
  ⟨_, h.gives_read file octave hmode hgap hc hparams hdecide,
    ((h.pastBlanks hmode hgap hc).decided mode').next hkind hlast hline file⟩

end State.Midway

/-! ## The beginning of a text -/

namespace State

variable {mode : Mode} {c : Char} {cs after : List Char} {text : String} {kind : Kind}

theorem read_first (file : String) (octave : Bool) {w : List Char}
    (htext : text.toList = c :: (w ++ after)) (hc : isBlank c = false)
    (hkind : goesOnWithin [] kind = true) (hparams : kind.isOpening = false)
    (hclosing : kind.isClosing = false) (hline : '\n' ∉ c :: w)
    (hdecide : (ofText text).decide octave c (w ++ after) = .token kind w.length mode) :
    ∃ next, Gives file octave (ofText text) [Token.spelling file kind (c :: w)] next ∧
      Midway mode [] (.ofText kind (c :: w)) false after next := by
  have hrest : (ofText text).cursor.rest = c :: (w ++ after) := htext
  have hready : (ofText text).pastBlanks = ofText text := by
    rw [pastBlanks, hrest, run, List.takeWhile_cons_of_neg (by simp [hc])]
    rfl
  have hstep : (ofText text).step file octave = .taken _ _ :=
    step_of_decide (by rw [hready, hrest]) (by rw [hready, hdecide])
  have hdecided : (ofText text).decided mode = { ofText text with mode := mode } := by
    rw [decided, hready]
  have htake : text.toList.take (w.length + 1) = c :: w := by
    rw [htext, List.take_succ_cons, List.take_left' rfl]
  rw [hdecided] at hstep
  have hcomma : commas (take { ofText text with mode := mode } file kind w.length) = [] := by
    rw [commas, comma_of_touching rfl]
    rfl
  rw [hcomma] at hstep
  refine ⟨(take { ofText text with mode := mode } file kind w.length).next, ?_,
    ⟨?_, ?_, ?_, ?_, rfl, ?_, ?_⟩⟩
  · have hgives := gives_step hstep
    have htoken : (take { ofText text with mode := mode } file kind w.length).token.unplaced =
        Token.spelling file kind (c :: w) := by
      rw [← htake]
      rfl
    rw [List.nil_append, List.map_cons, htoken] at hgives
    exact hgives
  · rw [take_next_cursor, Cursor.rest_skip]
    change text.toList.drop (w.length + 1) = after
    rw [htext, List.drop_succ_cons, List.drop_left' rfl]
  · change bracketsAfter _ kind = _
    rw [bracketsAfter, if_neg (by rw [hparams]; decide), if_neg (by rw [hclosing]; decide)]
    rfl
  · change previousAfter _ kind (String.ofList (text.toList.take (w.length + 1))) = _
    rw [previousAfter, htake, if_neg (by cases kind <;> simp_all [goesOnWithin, Kind.isTrivia])]
    simp only [Previous.ofText, hclosing, Bool.false_and]
  · change (kind == .continuation) = false
    cases kind <;> first | rfl | cases hkind
  · rw [take_next_firstInLine]
    change (text.toList.take (w.length + 1)).contains '\n' = false
    rw [htake]
    simpa using hline
  · change firstInStatementAfter _ kind _ = false
    cases kind <;> first | rfl | cases hkind

end State

end Lexing

end MFile
