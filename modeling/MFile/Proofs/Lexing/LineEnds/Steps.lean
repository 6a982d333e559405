import MFile.Proofs.Lexing.Identifiers
import MFile.Proofs.Lexing.LineUse
import MFile.Proofs.Lexing.LineEnds.Lines
import MFile.Proofs.Lexing.LineEnds.Places

/-!
Reading a text with and without carriage returns before its line feeds. Both readings decide the
same at the same places, so they take the same tokens, up to the text of line breaks, comments and
continuations, or find the same fault.
-/

namespace MFile.Lexing

open Text

/-! ## Lexemes -/

section Lexemes

variable {c : Char} {cs : List Char} {n : Nat}

def Lexeme.withReturns (cs : List Char) : Lexeme → Lexeme
  | continuation more => continuation (returned cs more)
  | other => other

theorem Lexeme.symbol?_withReturns (c : Char) (cs : List Char) :
    symbol? c (Text.withReturns cs) = symbol? c cs := by
  have hclass : isPair c '\r' = isPair c '\n' := by
    rw [isPair.eq_def, isPair.eq_def]
    split <;> rfl
  rw [symbol?, symbol?, startsWithAny_withReturns hclass]

theorem ite_some_map {α β : Type} {p : Prop} [Decidable p] {f : α → β} {a : α} {b : β}
    {x : Option α} {y : Option β} (hp : p → b = f a) (h : y = x.map f) :
    (if p then some b else y) = (if p then some a else x).map f := by
  by_cases hcase : p
  · rw [if_pos hcase, if_pos hcase, hp hcase, Option.map_some]
  · rw [if_neg hcase, if_neg hcase, h]

theorem Lexeme.ofChars?_withReturns (hc : isBreak c = false) (cs : List Char) :
    ofChars? c (Text.withReturns cs) = (ofChars? c cs).map (withReturns cs) := by
  have hn : c ≠ '\n' := by rintro rfl; cases hc
  have hr : c ≠ '\r' := by rintro rfl; cases hc
  rw [ofChars?.eq_def, ofChars?.eq_def, if_neg hn, if_neg hn, if_neg hr, if_neg hr,
    restOfLine_withReturns, run_withReturns (by decide) (by decide),
    Number.afterDigit_withReturns, isPrefixOf_withReturns (stay_of_all rfl),
    startsWithAny_withReturns (by decide), Number.afterDot_withReturns,
    extent_withReturns (by decide), startsWithAny_withReturns (by decide), symbol?_withReturns]
  refine ite_some_map (fun _ => rfl) <| ite_some_map (fun _ => rfl) <|
    ite_some_map (fun _ => rfl) <| ite_some_map ?_ <| ite_some_map (fun _ => rfl) <|
      ite_some_map (fun _ => rfl) <| ite_some_map (fun _ => rfl) <|
        ite_some_map (fun _ => rfl) ?_
  · intro hdots
    obtain ⟨rest, rfl⟩ := List.isPrefixOf_iff_prefix.1 hdots.2
    have hdrop : (Text.withReturns (['.', '.'] ++ rest)).drop 2 = Text.withReturns rest := rfl
    rw [hdrop, throughBreak_withReturns]
    exact congrArg continuation (returned_append_left ['.', '.'] rest _).symm
  · cases hsymbol : symbol? c cs with
    | none => rfl
    | some lexeme =>
      obtain ⟨kind, more, rfl, -⟩ := symbol?_word hsymbol
      rfl

end Lexemes

/-! ## Decisions -/

/-- Decisions about the same token or fault. What is taken stays on its line, unless it is a line
break or nothing that the grammar sees. -/
inductive Decision.Alike (c c' : Cursor) : Decision → Decision → Prop
  | token {kind : Kind} {more more' : Nat} {mode mode' : Mode}
      (hpass : Passes c.rest (more + 1) (more' + 1))
      (htext : Stays c.rest (more + 1) ∨ kind.isTrivia = true ∨
        kind = .newline ∧ c.rest.head? = some '\n')
      (hmode : Mode.Alike c c' mode mode') :
      Alike c c' (.token kind more mode) (.token kind more' mode')
  | fault (fault : Fault) {skipped length : Nat} (h : Stays c.rest (skipped + length)) :
      Alike c c' (.fault fault skipped length) (.fault fault skipped length)

/-- What the extents in a lexeme reach stays on its line, and only a break begins a line break. -/
def Lexeme.Stands (c : Char) (cs : List Char) : Lexeme → Prop
  | newline _ => isBreak c = true
  | number extent | text extent => Stays cs extent.reach
  | _ => True

theorem Lexeme.stands_ofChars? {c : Char} {cs : List Char} {lexeme : Lexeme}
    (h : ofChars? c cs = some lexeme) : lexeme.Stands c cs := by
  cases reading_ofChars? h with
  | lineFeed hc | carriageReturn hc => exact hc ▸ rfl
  | comment | word | dots | quote | bang => trivial
  | digit => exact Number.stays_afterDigit_reach c cs
  | point => exact Number.stays_afterDot_reach cs
  | text => exact stays_extent_reach (by decide) _ cs
  | symbol _ h =>
    obtain ⟨kind, more, rfl, -⟩ := symbol?_word h
    trivial

namespace State

/-- Two readers that have read the same, and keep the line that they have come to. -/
structure Beside (behind : List Char) (st st' : State) : Prop where
  plain : '\r' ∉ behind
  follows : st.Follows behind
  follows' : st'.Follows (withReturns behind)

/-- Two readers of a text that stand at the same place of it, and know the same of what lies
behind. -/
structure Alike (st st' : State) : Prop where
  rest : st' = { st with cursor := st'.cursor, line := st'.line, mode := st'.mode }
  cursor : st.cursor.Alike st'.cursor
  lines : ∃ behind, Beside behind st st'
  mode : Mode.Alike st.cursor st'.cursor st.mode st'.mode

variable {st st' : State} {octave : Bool} {c : Char} {cs : List Char} {more : Nat}

namespace Alike

theorem same {α : Type} (h : Alike st st') (f : State → α)
    (hf : ∀ cursor line mode, f { st with cursor := cursor, line := line, mode := mode } = f st) :
    f st' = f st := by
  rw [h.rest, hf]

theorem statementStart (h : Alike st st') : st'.statementStart = st.statementStart :=
  h.same State.statementStart fun _ _ _ => rfl

theorem quoteReading (h : Alike st st') : st'.quoteReading = st.quoteReading :=
  h.same State.quoteReading fun _ _ _ => rfl

theorem blocks (h : Alike st st') : st'.blocks = st.blocks := h.same State.blocks fun _ _ _ => rfl

theorem previous (h : Alike st st') : st'.previous = st.previous :=
  h.same State.previous fun _ _ _ => rfl

theorem firstInLine (h : Alike st st') : st'.firstInLine = st.firstInLine :=
  h.same State.firstInLine fun _ _ _ => rfl

theorem moded (h : Alike st st') {mode mode' : Mode}
    (hmode : Mode.Alike st.cursor st'.cursor mode mode') :
    Alike { st with mode := mode } { st' with mode := mode' } := by
  obtain ⟨behind, hplain, hfollows, hfollows'⟩ := h.lines
  exact ⟨congrArg (fun s : State => { s with mode := mode' }) h.rest, h.cursor,
    ⟨behind, hplain, ⟨hfollows.offset_eq, hfollows.tracks⟩,
      ⟨hfollows'.offset_eq, hfollows'.tracks⟩⟩, hmode⟩

theorem normal (h : Alike st st') :
    Alike { st with mode := .normal } { st' with mode := .normal } := h.moded .normal

theorem within {kind : Kind} {mode mode' : Mode} (hrest : st.cursor.rest = c :: cs)
    (hc : isBreak c = false) (hs : Stays cs more)
    (hmode : Mode.Alike st.cursor st'.cursor mode mode') :
    Decision.Alike st.cursor st'.cursor (.token kind more mode) (.token kind more mode') := by
  have hstays : Stays st.cursor.rest (more + 1) := by
    rw [hrest]
    exact Stays.succ hc hs
  exact .token (.stays hstays) (.inl hstays) hmode

theorem fault (fault : Fault) {skipped length : Nat} (hrest : st.cursor.rest = cs)
    (h : Stays cs (skipped + length)) :
    Decision.Alike st.cursor st'.cursor (.fault fault skipped length)
      (.fault fault skipped length) :=
  .fault fault (by rwa [hrest])

theorem ofExtent (h : Alike st st') {kind : Kind} {extent : Extent}
    (hrest : st.cursor.rest = c :: cs) (hc : isBreak c = false) (hs : Stays cs extent.reach) :
    Decision.Alike st.cursor st'.cursor (.ofExtent kind st.mode extent)
      (.ofExtent kind st'.mode extent) := by
  cases extent with
  | sound more => exact within hrest hc hs h.mode
  | faulty fault more =>
    exact Alike.fault fault hrest (by rw [Nat.zero_add]; exact Stays.succ hc hs)

end Alike

/-! ## Names -/

theorem opensBlock_withReturns (h : Alike st st') (word : String) (after : List Char) :
    st'.opensBlock word (withReturns after) = st.opensBlock word after := by
  rw [opensBlock, opensBlock, h.blocks, dropWhile_withReturns (by decide) (by decide)]
  cases after.dropWhile isBlank with
  | nil => rfl
  | cons c cs =>
    by_cases hc : c = '\n'
    · rw [hc]
      rfl
    · rw [withReturns_cons hc]

theorem alike_modeAfterName (h : Alike st st') (hrest : st.cursor.rest = c :: cs)
    (hc : isBreak c = false) (hs : Stays cs more) (word : String) :
    Mode.Alike st.cursor st'.cursor (st.modeAfterName more word (cs.drop more))
      (st'.modeAfterName more word (withReturns (cs.drop more))) := by
  have hchain : Stays (cs.drop more) (Command.chain (cs.drop more)) := Command.stays_chainFrom _ _
  rw [modeAfterName, modeAfterName, h.statementStart, h.blocks, Command.chain_withReturns]
  dsimp only
  rw [hchain.drop_withReturns, Command.follows_withReturns]
  split
  · split
    · split
      · exact .command _
      · refine .ahead .words ?_
        rw [hrest]
        exact (Stays.succ hc hs).add hchain
    · exact h.mode
  · exact h.mode

theorem alike_decideWord (h : Alike st st') (hrest : st.cursor.rest = c :: cs)
    (hc : isBreak c = false) (hs : Stays cs more) :
    Decision.Alike st.cursor st'.cursor (st.decideWord c cs more)
      (st'.decideWord c (withReturns cs) more) := by
  rw [decideWord, decideWord, hs.take_withReturns, hs.drop_withReturns, h.previous,
    h.statementStart, opensBlock_withReturns h]
  split
  · exact Alike.within hrest hc hs h.mode
  split
  · exact Alike.within hrest hc hs h.mode
  split
  · exact Alike.within hrest hc hs h.mode
  · exact Alike.within hrest hc hs (alike_modeAfterName h hrest hc hs _)

/-! ## Other lexemes -/

theorem alike_decideComment (h : Alike st st') (hrest : st.cursor.rest = c :: cs)
    (hc : isBreak c = false) :
    Decision.Alike st.cursor st'.cursor (st.decideComment c cs (restOfLine cs))
      (st'.decideComment c (withReturns cs) (restOfLine cs)) := by
  have hs := stays_restOfLine cs
  have hplain := h.cursor.plain
  rw [hrest] at hplain
  have hcs : '\r' ∉ cs.drop (restOfLine cs) := fun hmem =>
    hplain (List.mem_cons_of_mem c (List.mem_of_mem_drop hmem))
  rw [decideComment, decideComment, hs.take_withReturns, hs.drop_withReturns, h.firstInLine]
  split
  · rename_i close _
    split
    · rw [blockBody?_withReturns close hcs]
      cases blockBody? close (cs.drop (restOfLine cs)) with
      | some body =>
        refine .token ?_ (.inr (.inl rfl)) h.mode
        have hbody := (Passes.stays (Stays.succ hc hs)).add
          (.returned ((c :: cs).drop (restOfLine cs + 1)) body)
        rwa [List.drop_succ_cons, Nat.add_right_comm, Nat.add_right_comm _ 1, ← hrest] at hbody
      | none => exact Alike.fault _ hrest (by rw [Nat.zero_add]; exact Stays.succ hc hs)
    · exact Alike.within hrest hc hs h.mode
  · exact Alike.within hrest hc hs h.mode

theorem alike_decideQuote (h : Alike st st') (hrest : st.cursor.rest = '\'' :: cs) :
    Decision.Alike st.cursor st'.cursor (st.decideQuote cs)
      (st'.decideQuote (withReturns cs)) := by
  rw [decideQuote, decideQuote, h.quoteReading, extent_withReturns (by decide)]
  split
  · exact Alike.within hrest (by decide) (Stays.zero cs) h.mode
  · exact Alike.fault _ hrest (Stays.succ (by decide) (Stays.zero cs))
  · exact h.ofExtent hrest (by decide) (stays_extent_reach (by decide) _ cs)

theorem alike_decideBang (h : Alike st st') (hrest : st.cursor.rest = '!' :: cs)
    (hs : Stays cs more) :
    Decision.Alike st.cursor st'.cursor (st.decideBang octave cs more)
      (st'.decideBang octave (withReturns cs) more) := by
  rw [decideBang, decideBang, h.statementStart, hs.drop_withReturns, restOfLine_withReturns]
  split
  · exact Alike.within hrest (by decide) hs h.mode
  split
  · exact Alike.within hrest (by decide) (hs.add (stays_restOfLine _)) h.mode
  · exact Alike.fault _ hrest (Stays.succ (by decide) (Stays.zero cs))

theorem alike_decidePlain (h : Alike st st') (hrest : st.cursor.rest = c :: cs)
    (hc : isBreak c = false) :
    Decision.Alike st.cursor st'.cursor (st.decidePlain octave c cs)
      (st'.decidePlain octave c (withReturns cs)) := by
  rw [decidePlain, decidePlain, Lexeme.ofChars?_withReturns hc]
  cases hlexeme : Lexeme.ofChars? c cs with
  | none => exact Alike.fault _ hrest (Stays.succ hc (Stays.zero cs))
  | some lexeme =>
    have hkeeps := Lexeme.keeps_ofChars hlexeme
    have hstands := Lexeme.stands_ofChars? hlexeme
    cases lexeme with
    | newline more => exact absurd (hc.symm.trans hstands) (by decide)
    | continuation more =>
      refine .token ?_ (.inr (.inl rfl)) h.mode
      rw [hrest]
      exact .char (by rintro rfl; cases hc) (.returned cs more)
    | comment more =>
      obtain ⟨-, rfl⟩ := hkeeps
      exact alike_decideComment h hrest hc
    | word more => exact alike_decideWord h hrest hc hkeeps.2
    | number extent => exact h.ofExtent hrest hc hstands
    | quote =>
      obtain rfl := hkeeps
      exact alike_decideQuote h hrest
    | text extent => exact h.ofExtent hrest hc hstands
    | bang more =>
      obtain ⟨rfl, hs⟩ := hkeeps
      exact alike_decideBang h hrest hs
    | symbol kind more => exact Alike.within hrest hc hkeeps.2.2 h.mode

/-! ## Commands -/

theorem alike_decideCommand (h : Alike st st') (kind : CommandKind)
    (hrest : st.cursor.rest = c :: cs) (hc : isBreak c = false) :
    Decision.Alike st.cursor st'.cursor (st.decideCommand kind c cs)
      (st'.decideCommand kind c (withReturns cs)) := by
  have hn : c ≠ '\n' := by rintro rfl; cases hc
  have hwithin : ∀ {k : Kind} {n : Nat}, Stays (c :: cs) n →
      Decision.Alike st.cursor st'.cursor (.token k (n - 1) st.mode)
        (.token k (n - 1) st'.mode) := by
    intro k n hs
    have hstays : Stays st.cursor.rest (n - 1 + 1) := by
      rw [hrest]
      exact stays_pred hc hs
    exact .token (.stays hstays) (.inl hstays) h.mode
  rw [decideCommand.eq_def, decideCommand.eq_def, ← withReturns_cons hn,
    Command.continues_withReturns, Command.text_withReturns]
  split
  · rename_i hdots
    cases kind with
    | words =>
      dsimp only
      rw [throughBreak_withReturns]
      refine .token ?_ (.inr (.inl rfl)) h.mode
      rw [hrest]
      exact .char hn (.returned cs _)
    | path => exact Alike.fault _ hrest (Stays.word (stay_of_all rfl) hdots)
  · cases htext : Command.text kind false (c :: cs) with
    | error n =>
      have hs := stays_commandText_error htext
      cases kind with
      | words | path => exact Alike.fault _ hrest (by rwa [Nat.zero_add])
    | ok n =>
      have hs := stays_commandText htext
      cases kind with
      | words => exact hwithin hs
      | path =>
        dsimp only
        rw [hs.take_withReturns]
        have hlength : (trimEnd isBlank ((c :: cs).take n)).length ≤ n :=
          (length_trimEnd_le _ _).trans (List.length_take_le n _)
        split
        · rename_i skipped hskipped
          exact Alike.fault _ hrest (hs.mono ((dotsAt?_le hskipped).trans hlength))
        · exact hwithin (hs.mono hlength)

/-! ## All decisions -/

theorem decide_cases (h : Alike st st') (octave : Bool) (c c' : Char) (cs cs' : List Char) :
    (st.decide octave c cs = st.decidePlain octave c cs ∧
        st'.decide octave c' cs' = st'.decidePlain octave c' cs') ∨
      ∃ kind, st.decide octave c cs =
          (if Command.isStop c then ({ st with mode := .normal } : State).decidePlain octave c cs
            else st.decideCommand kind c cs) ∧
        st'.decide octave c' cs' =
          if Command.isStop c' then ({ st' with mode := .normal } : State).decidePlain octave c' cs'
            else st'.decideCommand kind c' cs' := by
  have hmode := h.mode
  rw [decide, decide]
  generalize st.mode = mode at hmode
  generalize st'.mode = mode' at hmode
  cases hmode with
  | normal | ahead | behind => exact .inl ⟨rfl, rfl⟩
  | command kind => exact .inr ⟨kind, rfl, rfl⟩

theorem alike_lineFeed (h : Alike st st') (hrest : st.cursor.rest = '\n' :: cs) :
    Decision.Alike st.cursor st'.cursor (st.decidePlain octave '\n' cs)
      (st'.decidePlain octave '\r' ('\n' :: withReturns cs)) := by
  refine .token ?_ (.inr (.inr ⟨rfl, by rw [hrest]; rfl⟩)) h.mode
  rw [hrest, Nat.add_comm 1, blankLines_withReturns]
  exact .lineFeed (.returned cs _)

theorem alike_decide (octave : Bool) (h : Alike st st') (hrest : st.cursor.rest = c :: cs) :
    ∃ c' cs', st'.cursor.rest = c' :: cs' ∧
      Decision.Alike st.cursor st'.cursor (st.decide octave c cs) (st'.decide octave c' cs') := by
  have hplain := h.cursor.plain
  rw [hrest] at hplain
  have hr : c ≠ '\r' := fun hr => hplain (hr ▸ List.mem_cons_self)
  by_cases hn : c = '\n'
  · subst hn
    refine ⟨'\r', '\n' :: withReturns cs, by rw [h.cursor.rest, hrest, withReturns_break], ?_⟩
    obtain ⟨hd, hd'⟩ | ⟨kind, hd, hd'⟩ :=
      decide_cases h octave '\n' '\r' cs ('\n' :: withReturns cs)
    · rw [hd, hd']
      exact alike_lineFeed h hrest
    · rw [hd, hd', if_pos (by decide), if_pos (by decide)]
      exact alike_lineFeed h.normal hrest
  · refine ⟨c, withReturns cs, by rw [h.cursor.rest, hrest, withReturns_cons hn], ?_⟩
    have hc : isBreak c = false := by simp [isBreak, hn, hr]
    obtain ⟨hd, hd'⟩ | ⟨kind, hd, hd'⟩ := decide_cases h octave c c cs (withReturns cs)
    · rw [hd, hd']
      exact alike_decidePlain h hrest hc
    · rw [hd, hd']
      split
      · exact alike_decidePlain h.normal hrest hc
      · exact alike_decideCommand h kind hrest hc

end State

end MFile.Lexing
