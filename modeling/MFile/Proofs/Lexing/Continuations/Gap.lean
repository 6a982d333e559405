import MFile.Proofs.Grammar.Relayout.Forgotten
import MFile.Proofs.Lexing.Continuations.Before

/-!
At the gap. A continuation is taken from the second text and leaves what a blank leaves, except that
the next token is the first of its line. Only a comment would ask for that, so both texts go on in
the same way.
-/

namespace MFile

open Text

namespace Lexing

variable {c : Char} {cs after rest rest' : List Char} {kind : Kind} {more : Nat} {mode : Mode}
  {octave : Bool} {file : String}

namespace State

variable {st st' next : State}

theorem decidePlain_firstInLine (hblank : st.afterBlank = true)
    (h : st.decidePlain octave c cs = .token kind more mode) (hkind : kind ≠ .comment)
    (first : Bool) :
    { st with firstInLine := first }.decidePlain octave c cs = .token kind more mode := by
  have hquote : { st with firstInLine := first }.quoteReading = st.quoteReading := by
    simp [quoteReading, hblank]
  rw [decidePlain] at h ⊢
  cases hlexeme : Lexeme.ofChars? c cs with
  | none =>
    rw [hlexeme] at h
    cases h
  | some lexeme =>
    rw [hlexeme] at h
    cases lexeme with
    | comment n =>
      refine absurd ?_ hkind
      simp only [decideComment] at h
      repeat' split at h
      all_goals
        cases h
        try rfl
    | quote =>
      dsimp only at h ⊢
      rw [decideQuote] at h ⊢
      rw [hquote]
      exact h
    | _ => exact h

theorem decide_firstInLine (hblank : st.afterBlank = true)
    (h : st.decide octave c cs = .token kind more mode) (hkind : kind ≠ .comment) (first : Bool) :
    { st with firstInLine := first }.decide octave c cs = .token kind more mode := by
  obtain ⟨place, line, inLine, inStatement, afterBlank, previous, brackets, blocks, mode₀⟩ := st
  rw [decide] at h ⊢
  cases mode₀ with
  | command command =>
    dsimp only at h ⊢
    by_cases hstop : Command.isStop c = true
    · rw [if_pos hstop] at h ⊢
      refine decidePlain_firstInLine ?_ h hkind first
      exact hblank
    · rw [if_neg hstop] at h ⊢
      exact h
  | _ => exact decidePlain_firstInLine hblank h hkind first

theorem decide_dots (hmode : st.mode = .normal ∨ st.mode = .command .words) (after : List Char) :
    st.decide octave '.' ('.' :: '.' :: '\n' :: after) = .token .continuation 3 st.mode := by
  have hcontinues : Command.continues ('.' :: '.' :: '.' :: '\n' :: after) = true := by
    simp [Command.continues]
  have hthrough : throughBreak ('.' :: '.' :: '\n' :: after) = 3 := by
    simp [throughBreak, run]
  have hlexeme : Lexeme.ofChars? '.' ('.' :: '.' :: '\n' :: after) = some (.continuation 3) := by
    have hbreak : throughBreak ('\n' :: after) = 1 := by simp [throughBreak, run]
    rw [Lexeme.ofChars?.eq_def, if_neg (by decide), if_neg (by decide), if_neg (by decide),
      if_neg (by decide), if_neg (by decide), if_pos ⟨rfl, by simp⟩, List.drop_succ_cons,
      List.drop_succ_cons, List.drop_zero, hbreak]
  obtain h | h := hmode
  · rw [decide, h]
    dsimp only
    rw [decidePlain, hlexeme, h]
  · rw [decide, h]
    dsimp only
    rw [if_neg (by decide), decideCommand, if_pos hcontinues, hthrough, h]

theorem Before.mode_reached (h : Before rest rest' [] st st') (hmode : st.mode ≠ .command .path) :
    st.mode.reached st.cursor.offset = .normal ∨
      st.mode.reached st.cursor.offset = .command .words := by
  cases hst : st.mode with
  | normal => exact .inl rfl
  | command command =>
    cases command with
    | words => exact .inr rfl
    | path => exact absurd hst hmode
  | commandAfter headEnd command =>
    obtain ⟨rfl, -⟩ := h.headed _ _ hst
    have hle : headEnd ≤ st.cursor.offset := h.inside _ _ hst
    rw [Mode.reached]
    split
    · exact .inr rfl
    · rename_i hne
      rw [if_pos (lt_of_le_of_ne hle (Ne.symm hne))]
      exact .inl rfl

theorem take_continuation (st : State) (file : String) (more : Nat) :
    (st.take file .continuation more).next = { st with
      cursor := st.cursor.skip (more + 1)
      line := (st.take file .continuation more).next.line
      firstInLine := (st.cursor.rest.take (more + 1)).contains '\n'
      afterBlank := true } := rfl

theorem Before.afterBlank_gap (h : Before rest rest' [] st st') :
    st.pastBlanks.afterBlank = true := by
  have hahead : st.cursor.rest = ' ' :: rest := h.ahead
  rw [State.pastBlanks, hahead]
  simp [Text.run, isBlank]

theorem Before.pastBlanks_gap (h : Before rest rest' [] st st') :
    st'.pastBlanks = { st.pastBlanks with
      cursor := st'.pastBlanks.cursor
      line := st'.line } := by
  have hahead : st.cursor.rest = ' ' :: rest := h.ahead
  have hahead' : st'.cursor.rest = ' ' :: '.' :: rest' := h.ahead'
  have hblank : ∀ cs, Decidable.decide (0 < Text.run isBlank (' ' :: cs)) = true := by
    intro cs
    rw [decide_eq_true_eq, Text.run, List.takeWhile_cons_of_pos rfl]
    exact Nat.succ_pos _
  rw [State.pastBlanks, State.pastBlanks, hahead, hahead', h.offset, hblank, hblank]
  exact congrArg (fun s : State => { s with
    cursor := st'.cursor.skip (Text.run isBlank (' ' :: '.' :: rest'))
    afterBlank := s.afterBlank || true
    mode := s.mode.reached st.cursor.offset }) h.same

/-- The continuation is taken, and what it leaves is what a blank leaves at the start of a line. -/
theorem Before.step_gap (h : Before rest ('.' :: '.' :: '\n' :: rest.dropWhile isBlank) [] st st')
    (hmode : st.mode ≠ .command .path) (file : String) (octave : Bool) :
    ∃ t next', st'.step file octave = .taken [⟨[' '], t⟩] next' ∧ t.kind = .continuation ∧
      Shifted { st.pastBlanks with firstInLine := true } next' := by
  have hahead : st.cursor.rest = ' ' :: rest := h.ahead
  have hahead' : st'.cursor.rest = ' ' :: '.' :: '.' :: '.' :: '\n' :: rest.dropWhile isBlank :=
    h.ahead'
  have hready := h.pastBlanks_gap
  have hreached : st'.pastBlanks.mode = .normal ∨ st'.pastBlanks.mode = .command .words := by
    rw [hready]
    exact h.mode_reached hmode
  have hrest : st'.pastBlanks.cursor.rest =
      '.' :: '.' :: '.' :: '\n' :: rest.dropWhile isBlank := by
    rw [pastBlanks_rest, hahead']
    rfl
  have hdecide : st'.pastBlanks.decide octave '.' ('.' :: '.' :: '\n' :: rest.dropWhile isBlank) =
      .token .continuation 3 st'.pastBlanks.mode := decide_dots hreached (rest.dropWhile isBlank)
  have hstep : st'.step file octave = .taken _ _ := step_of_decide hrest hdecide
  have hcomma : commas ((st'.decided st'.pastBlanks.mode).take file .continuation 3) = [] := by
    rw [commas, comma_continuation]
    rfl
  rw [hcomma, hahead', take_continuation] at hstep
  refine ⟨_, _, hstep, rfl, ?_, ?_, ?_⟩
  · have hblank := h.afterBlank_gap
    have hraw :
        ((st'.decided st'.pastBlanks.mode).cursor.rest.take (3 + 1)).contains '\n' = true := by
      rw [decided_cursor, hrest]
      simp
    rw [hraw, decided, hready]
    simp only [hblank]
  · rw [Cursor.rest_skip, decided_cursor, hrest, pastBlanks_rest, hahead]
    rfl
  · have hmode' : st'.pastBlanks.mode = st.pastBlanks.mode := by rw [hready]
    change st.pastBlanks.mode.Shifted _ _ st'.pastBlanks.mode
    rw [← hmode']
    obtain hnormal | hcommand := hreached
    · rw [hnormal]
      exact .normal
    · rw [hcommand]
      exact .command _

theorem pastBlanks_pastBlanks (hblank : st.pastBlanks.afterBlank = true)
    (hmode : st.pastBlanks.mode.reached st.pastBlanks.cursor.offset = st.pastBlanks.mode) :
    { st.pastBlanks with firstInLine := true }.pastBlanks =
      { st.pastBlanks with firstInLine := true } := by
  have hrun : Text.run isBlank st.pastBlanks.cursor.rest = 0 := by
    rw [pastBlanks_rest, Text.run]
    cases hrest : st.cursor.rest.dropWhile isBlank with
    | nil => rfl
    | cons c cs =>
      rw [List.takeWhile_cons_of_neg]
      · rfl
      · rw [pastBlanks_head ((pastBlanks_rest st).trans hrest)]
        decide
  rw [pastBlanks]
  dsimp only
  rw [hrun, hmode, hblank]
  rfl

/-- The token behind the gap is the same, whether or not it is the first of its line. -/
theorem step_firstInLine {pieces : List Piece} (hblank : st.pastBlanks.afterBlank = true)
    (hmode : st.pastBlanks.mode.reached st.pastBlanks.cursor.offset = st.pastBlanks.mode)
    (hstep : st.step file octave = .taken pieces next)
    (hcomment : ∀ p ∈ pieces, p.token.kind ≠ .comment) :
    ∃ pieces', { st.pastBlanks with firstInLine := true }.step file octave =
        .taken pieces' next ∧
      pieces'.map (·.token.placeless) = pieces.map (·.token.placeless) := by
  obtain ⟨c, cs, kind, more, mode, hrest, hdecide, rfl, rfl⟩ := step_taken hstep
  have hkind : kind ≠ .comment := hcomment _ (List.mem_append_right _ List.mem_cons_self)
  have hready := pastBlanks_pastBlanks hblank hmode
  generalize hs : { st.pastBlanks with firstInLine := true } = s at hready ⊢
  have hrest' : s.pastBlanks.cursor.rest = c :: cs := by
    rw [hready, ← hs]
    exact hrest
  have hdecide' : s.pastBlanks.decide octave c cs = .token kind more mode := by
    rw [hready, ← hs]
    exact decide_firstInLine hblank hdecide hkind true
  have hstep' : s.step file octave = .taken _ _ := step_of_decide hrest' hdecide'
  have hdecided : s.decided mode = { st.decided mode with firstInLine := true } := by
    rw [decided, hready, ← hs]
    rfl
  rw [hdecided] at hstep'
  refine ⟨_, hstep', ?_⟩
  rw [commas, Shifted.placeless_pieces, Shifted.placeless_pieces]
  rfl

end State

end Lexing

namespace Scan

open Lexing State

variable {file : String} {octave : Bool} {st st' : Lexing.State} {rest : List Char}

theorem seen_gap (h : Before rest ('.' :: '.' :: '\n' :: rest.dropWhile isBlank) [] st st')
    (hmode : st.mode ≠ .command .path) (hne : (ofState file octave st).pieces ≠ [])
    (hcomment : ∀ p ∈ ((ofState file octave st).pieces.filter fun p => !p.token.anonymous).head?,
      p.token.kind ≠ .comment) :
    (ofState file octave st').seen = (ofState file octave st).seen ∧
      (ofState file octave st').failure.isSome = (ofState file octave st).failure.isSome := by
  obtain ⟨t, next', hstep', ht, hshifted⟩ := h.step_gap hmode file octave
  cases hstep : st.step file octave with
  | finished =>
    rw [ofState_finished hstep] at hne
    exact absurd rfl hne
  | failed e =>
    rw [ofState_failed hstep] at hne
    exact absurd rfl hne
  | taken pieces next =>
    have hready : st.pastBlanks.mode.reached st.pastBlanks.cursor.offset = st.pastBlanks.mode := by
      obtain hnormal | hcommand :
          st.pastBlanks.mode = .normal ∨ st.pastBlanks.mode = .command .words :=
        h.mode_reached hmode
      · rw [hnormal]
        rfl
      · rw [hcommand]
        rfl
    have hplain : ∀ p ∈ pieces, p.token.kind ≠ .comment := by
      obtain ⟨c, cs, kind, more, mode, -, -, rfl, -⟩ := step_taken hstep
      rw [ofState_taken hstep, ← commas, List.append_assoc, List.filter_append,
        List.filter_eq_nil_iff.2 fun q hq => by simp [anonymous_of_mem_commas hq],
        List.nil_append, List.cons_append, List.filter_cons_of_pos (by simp)] at hcomment
      intro p hp
      obtain hcomma | hlast := List.mem_append.1 hp
      · obtain ⟨comma, hmem, rfl⟩ := List.mem_map.1 hcomma
        rw [(take_comma (Option.mem_toList.1 hmem)).2.1]
        decide
      · rw [List.mem_singleton.1 hlast]
        exact hcomment _ rfl
    obtain ⟨pieces', hs, hsame⟩ := step_firstInLine h.afterBlank_gap hready hstep hplain
    have hscan : Shifted (ofState file octave { st.pastBlanks with firstInLine := true })
        (ofState file octave next') := shifted_ofState _ _ hshifted
    obtain ⟨htokens, hfailure⟩ := hscan
    rw [ofState_taken hs] at htokens hfailure
    rw [ofState_taken hstep', ofState_taken hstep]
    refine ⟨?_, hfailure⟩
    have htrivia : ¬ (!t.placeless.kind.isTrivia) = true := by
      change ¬ (!t.kind.isTrivia) = true
      rw [ht]
      decide
    simp only [tokens, List.map_append, List.map_map] at htokens hsame
    simp only [seen, tokens, List.map_append, List.map_map, List.map_cons, List.cons_append,
      List.nil_append]
    rw [List.filter_cons, if_neg htrivia, htokens]
    exact congrArg _ (congrArg (· ++ _) hsame)

end Scan

end MFile
