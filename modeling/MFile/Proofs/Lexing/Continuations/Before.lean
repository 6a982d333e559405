import MFile.Proofs.Lexing.Continuations.Pieces

/-!
Up to the gap. Two texts that are the same up to a blank, and of which the second goes on with dots
behind it, are read into the same tokens up to there. The last of them must not be one that looks
further: a path, or the head of a command.
-/

namespace MFile.Lexing

open Text

variable {c : Char} {cs : List Char} {kind : Kind} {more : Nat} {mode : Mode} {octave : Bool}
  {file : String}

namespace State

variable {st st' : State}

section Moved

variable {cursor : Cursor} {line : CurrentLine Nat}

theorem decideWord_cursor
    (h : (cursor.skip (more + 1 + Command.chain (cs.drop more))).offset =
      (st.cursor.skip (more + 1 + Command.chain (cs.drop more))).offset) :
    { st with cursor := cursor, line := line }.decideWord c cs more = st.decideWord c cs more := by
  have hmode : ∀ word,
      { st with cursor := cursor, line := line }.modeAfterName more word (cs.drop more) =
        st.modeAfterName more word (cs.drop more) := by
    intro word
    rw [modeAfterName, modeAfterName]
    dsimp only
    rw [h]
    rfl
  rw [decideWord, decideWord, hmode]
  rfl

theorem decidePlain_cursor
    (h : st.decidePlain octave c cs = .token kind more mode)
    (hoffset : (cursor.skip (more + 1 + Command.chain (cs.drop more))).offset =
      (st.cursor.skip (more + 1 + Command.chain (cs.drop more))).offset) :
    { st with cursor := cursor, line := line }.decidePlain octave c cs = .token kind more mode := by
  rw [decidePlain] at h ⊢
  cases hlexeme : Lexeme.ofChars? c cs with
  | none =>
    rw [hlexeme] at h
    cases h
  | some lexeme =>
    rw [hlexeme] at h
    cases lexeme with
    | word n =>
      dsimp only at h ⊢
      obtain ⟨k, m, hdecide, -⟩ := st.decideWord_token c cs n
      rw [hdecide] at h
      cases h
      rw [decideWord_cursor hoffset, hdecide]
    | _ => exact h

theorem decide_cursor (h : st.decide octave c cs = .token kind more mode)
    (hoffset : (cursor.skip (more + 1 + Command.chain (cs.drop more))).offset =
      (st.cursor.skip (more + 1 + Command.chain (cs.drop more))).offset) :
    { st with cursor := cursor, line := line }.decide octave c cs = .token kind more mode := by
  obtain ⟨place, line, inLine, inStatement, afterBlank, previous, brackets, blocks, mode₀⟩ := st
  rw [decide] at h ⊢
  cases mode₀ with
  | command command =>
    dsimp only at h ⊢
    by_cases hstop : Command.isStop c = true
    · rw [if_pos hstop] at h ⊢
      exact decidePlain_cursor h hoffset
    · rw [if_neg hstop] at h ⊢
      exact h
  | _ => exact decidePlain_cursor h hoffset

theorem take_cursor
    (hraw : cursor.rest.take (more + 1) = st.cursor.rest.take (more + 1))
    (hafter : ∀ p, startsWithAny p (cursor.skip (more + 1)).rest =
      startsWithAny p (st.cursor.skip (more + 1)).rest) :
    ({ st with cursor := cursor, line := line }.take file kind more).comma.map Token.placeless =
        (st.take file kind more).comma.map Token.placeless ∧
      ({ st with cursor := cursor, line := line }.take file kind more).token.placeless =
        (st.take file kind more).token.placeless ∧
      ({ st with cursor := cursor, line := line }.take file kind more).next =
        { (st.take file kind more).next with
          cursor := cursor.skip (more + 1)
          line := ({ st with cursor := cursor, line := line }.take file kind more).next.line } := by
  have hopens : ∀ raw, opensElement kind raw (cursor.skip (more + 1)).rest =
      opensElement kind raw (st.cursor.skip (more + 1)).rest := by
    intro raw
    cases kind <;> simp only [opensElement, hafter]
  have hneeds : ∀ raw, { st with cursor := cursor, line := line }.needsComma kind raw
      (cursor.skip (more + 1)).rest = st.needsComma kind raw (st.cursor.skip (more + 1)).rest := by
    intro raw
    rw [needsComma, needsComma, hopens]
    rfl
  refine ⟨?_, ?_, ?_⟩
  · simp only [take, hraw, hneeds]
    split <;> rfl
  · simp only [take, Token.placeless, Token.isSeparator, hraw]
    rfl
  · simp only [take, hraw]
    rfl

end Moved

variable {rest rest' : List Char} {pieces others later : List Piece} {next : State}

theorem startsWithAny_blank (p : Char → Bool) (w rest rest' : List Char) :
    startsWithAny p (w ++ ' ' :: rest') = startsWithAny p (w ++ ' ' :: rest) := by
  cases w <;> rfl

structure Turn (file : String) (octave : Bool) (rest : List Char) (pieces others later : List Piece)
    (st : State) (c : Char) (w : List Char) (kind : Kind) (mode : Mode) (next : State) : Prop where
  ready : st.pastBlanks.cursor.rest = c :: (w ++ spelled others ++ ' ' :: rest)
  decide : st.pastBlanks.decide octave c (w ++ spelled others ++ ' ' :: rest) =
    .token kind w.length mode
  spelled_eq : spelled pieces = st.cursor.rest.takeWhile isBlank ++ c :: (w ++ spelled others)
  pieces_eq : pieces = commas ((st.decided mode).take file kind w.length) ++
    ⟨st.cursor.rest.takeWhile isBlank, ((st.decided mode).take file kind w.length).token⟩ :: others
  next_eq : next = ((st.decided mode).take file kind w.length).next
  written : EndsWritten others
  later : (Scan.ofState file octave next).pieces = others ++ later

theorem exists_turn (hst : st.cursor.rest = spelled pieces ++ ' ' :: rest) (hne : pieces ≠ [])
    (hlast : EndsWritten pieces)
    (hpieces : (Scan.ofState file octave st).pieces = pieces ++ later) :
    ∃ others c w kind mode next,
      Turn file octave rest pieces others later st c w kind mode next := by
  obtain ⟨c, cs, kind, more, mode, hrest, hdecide, others, hsplit, hothers, hlater⟩ :=
    Scan.pieces_cons hne hlast hpieces
  have hspelled : spelled pieces = st.cursor.rest.takeWhile isBlank ++
      c :: (cs.take more ++ spelled others) := by
    rw [hsplit, spelled_commas fun p => anonymous_of_mem_commas, spelled_cons rfl, take_token_raw,
      decided_cursor, hrest, String.toList_ofList, List.take_succ_cons, List.append_assoc,
      List.cons_append]
  have hcs : cs = cs.take more ++ spelled others ++ ' ' :: rest := by
    have hblanks : st.cursor.rest.takeWhile isBlank ++ c :: cs = st.cursor.rest := by
      rw [← hrest, pastBlanks_rest, List.takeWhile_append_dropWhile]
    rw [hspelled, List.append_assoc] at hst
    exact (List.cons.inj (List.append_cancel_left (hblanks.trans hst))).2
  have hlength := congrArg List.length hcs
  simp only [List.length_append, List.length_cons, List.length_take] at hlength
  have hmore : more = (cs.take more).length := by
    rw [List.length_take]
    omega
  generalize cs.take more = w at hspelled hcs hmore
  subst hcs hmore
  exact ⟨others, c, w, kind, mode, _, hrest, hdecide, hspelled, hsplit, rfl, hothers, hlater⟩

theorem length_bracketsAfter (st : State) (kind : Kind) :
    (st.bracketsAfter kind).length = kind.nest st.brackets.length := by
  cases kind <;> simp [bracketsAfter, Kind.nest, Kind.isOpening, Kind.isClosing]

theorem endsHead_commas {depth : Nat} (h : EndsHead depth pieces) :
    EndsHead depth (commas (st.take file kind more) ++ pieces) := by
  rw [commas]
  cases hcomma : (st.take file kind more).comma with
  | none => exact h
  | some t =>
    refine .inr ?_
    rw [(take_comma hcomma).2.1]
    exact h

theorem Headed.mode_after (h : st.Headed) (hst : st.pastBlanks.statementStart = true)
    (hkind : kind = .identifier ∨ kind = .keyword) {w : List Char}
    (hdecide : st.pastBlanks.decide octave c cs = .token kind more mode)
    (hcs : cs.drop more = w ++ ' ' :: rest) :
    mode = .normal ∨ mode = .commandAfter
      ((st.pastBlanks.cursor.skip (more + 1)).skip (Command.chain w)).offset .words ∨
      Command.chain w = 0 := by
  have hready : (∀ command, st.pastBlanks.mode ≠ .command command) →
      st.pastBlanks.mode = .normal := by
    intro hcommand
    cases hmode : st.pastBlanks.mode with
    | normal => rfl
    | command command => exact absurd hmode (hcommand command)
    | commandAfter headEnd command => exact absurd hmode (h.begins hst headEnd command)
  obtain ⟨hsame, hcommand⟩ | hnormal | ⟨rfl, -, hcommand, hname⟩ := decide_mode hdecide
  · refine .inl (hsame.trans (hready fun command hmode => ?_))
    obtain ⟨hidentifier, hkeyword⟩ := hcommand command hmode
    exact not_or.2 ⟨hidentifier, hkeyword⟩ hkind
  · exact .inl hnormal
  · rw [hcs] at hname
    rw [modeAfterName, Command.chain_cut cuts_blank] at hname
    split at hname
    · dsimp only at hname
      split at hname
      · split at hname
        · rename_i hchain
          exact .inr (.inr hchain)
        · rw [Cursor.skip_skip]
          exact .inr (.inl hname)
      · exact .inl (hname.trans (hready hcommand))
    · exact .inl (hname.trans (hready hcommand))

namespace Turn

variable {w : List Char}
  (ht : Turn file octave rest pieces others later st c w kind mode next)

include ht

theorem cursor : next.cursor =
    st.cursor.skip (run isBlank st.cursor.rest + (w.length + 1)) := by
  rw [ht.next_eq]
  exact Cursor.skip_skip st.cursor _ _

theorem mode_eq : next.mode = mode := by
  rw [ht.next_eq]
  rfl

theorem length : (spelled pieces).length =
    run isBlank st.cursor.rest + (w.length + 1) + (spelled others).length := by
  rw [ht.spelled_eq, List.length_append, List.length_cons, List.length_append, run]
  omega

theorem rest_eq : next.cursor.rest = spelled others ++ ' ' :: rest := by
  rw [ht.cursor, ← Cursor.skip_skip, Cursor.rest_skip]
  change st.pastBlanks.cursor.rest.drop _ = _
  rw [ht.ready, List.drop_succ_cons, List.append_assoc, List.drop_left]

theorem step_eq : st.step file octave = .taken
    (commas ((st.decided mode).take file kind w.length) ++
      [⟨st.cursor.rest.takeWhile isBlank, ((st.decided mode).take file kind w.length).token⟩])
    next := by
  rw [ht.next_eq]
  exact step_of_decide ht.ready ht.decide

theorem pastChain (hheaded : st.Headed) (hhead : ¬ EndsHead st.brackets.length pieces)
    (hkind : kind = .identifier ∨ kind = .keyword)
    (hstart : st.pastBlanks.statementStart = true) : PastChain (spelled others) := by
  by_contra hchain
  have hmode := hheaded.mode_after (w := spelled others) hstart hkind ht.decide
    (by rw [List.append_assoc, List.drop_left])
  have hcursor : st.pastBlanks.cursor.skip (w.length + 1) = next.cursor := by
    rw [ht.next_eq]
    rfl
  rw [hcursor, ← ht.mode_eq] at hmode
  have hdotted := Scan.dotted_of_chain ht.rest_eq hmode hchain rfl ht.written ht.later
  obtain ⟨hfirst, hempty⟩ := Bool.and_eq_true_iff.1 hstart
  refine hhead ?_
  rw [ht.pieces_eq]
  refine endsHead_commas (.inl ⟨?_, hfirst, hkind, hdotted⟩)
  exact List.length_eq_zero_iff.2 (List.isEmpty_iff.1 hempty)

theorem pastPath (hpath : ∀ p ∈ pieces.getLast?, p.token.kind ≠ .directory)
    (hkind : kind = .directory) : (spelled others).dropWhile isBlank ≠ [] := by
  intro hblank
  have hnil := Scan.pieces_eq_nil hblank rfl ht.written ht.later
  rw [ht.pieces_eq, hnil, List.getLast?_concat] at hpath
  exact hpath _ rfl hkind

theorem not_endsHead (hhead : ¬ EndsHead st.brackets.length pieces) :
    ¬ EndsHead next.brackets.length others := by
  intro hothers
  refine hhead ?_
  rw [ht.pieces_eq]
  refine endsHead_commas (.inr ?_)
  rw [ht.next_eq] at hothers
  rw [take_token_kind, ← length_bracketsAfter]
  exact hothers

theorem mode_ne_path (hheaded : st.Headed) (hhead : ¬ EndsHead st.brackets.length pieces)
    (hpath : ∀ p ∈ pieces.getLast?, p.token.kind ≠ .directory) (hnil : others = []) :
    next.mode ≠ .command .path := by
  rw [ht.mode_eq]
  rintro rfl
  obtain hkind | ⟨hkind, hstart⟩ := decide_path ht.decide
  · exact ht.pastPath hpath hkind (by rw [hnil]; rfl)
  · exact ht.pastChain hheaded hhead (.inl hkind) hstart (by rw [hnil]; rfl)

end Turn

/-- What is ahead up to the gap: the text of the pieces, and then a blank in both texts. -/
structure Before (rest rest' : List Char) (pieces : List Piece) (st st' : State) : Prop where
  same : st' = { st with cursor := st'.cursor, line := st'.line }
  ahead : st.cursor.rest = spelled pieces ++ ' ' :: rest
  ahead' : st'.cursor.rest = spelled pieces ++ ' ' :: '.' :: rest'
  offset : st'.cursor.offset = st.cursor.offset
  headed : st.Headed
  inside : ∀ headEnd command, st.mode = .commandAfter headEnd command →
    headEnd ≤ (st.cursor.skip (spelled pieces).length).offset

namespace Before

theorem offset_skip (h : Before rest rest' pieces st st') {n : Nat}
    (hn : n ≤ (spelled pieces).length) :
    (st'.cursor.skip n).offset = (st.cursor.skip n).offset := by
  rw [Cursor.offset_skip, Cursor.offset_skip, h.offset, h.ahead, h.ahead',
    List.take_append_of_le_length hn, List.take_append_of_le_length hn]

theorem rest_skip (h : Before rest rest' pieces st st') {n : Nat}
    (hn : n ≤ (spelled pieces).length) :
    (st'.cursor.skip n).rest = (spelled pieces).drop n ++ ' ' :: '.' :: rest' := by
  rw [Cursor.rest_skip, h.ahead', List.drop_append_of_le_length hn]

theorem run_isBlank (h : Before rest rest' pieces st st') {w : List Char}
    (hspelled : spelled pieces = st.cursor.rest.takeWhile isBlank ++ c :: w)
    (hc : isBlank c = false) : run isBlank st'.cursor.rest = run isBlank st.cursor.rest := by
  rw [h.ahead', run, run, hspelled, List.append_assoc,
    List.takeWhile_append_of_pos fun _ => List.mem_takeWhile_imp, List.cons_append,
    List.takeWhile_cons_of_neg (by simp [hc]), List.append_nil]

theorem pastBlanks (h : Before rest rest' pieces st st')
    (hblanks : run isBlank st'.cursor.rest = run isBlank st.cursor.rest) :
    st'.pastBlanks = { st.pastBlanks with
      cursor := st'.cursor.skip (run isBlank st.cursor.rest)
      line := st'.line } := by
  rw [State.pastBlanks, hblanks, h.offset]
  exact congrArg (fun s : State => { s with
    cursor := st'.cursor.skip (run isBlank st.cursor.rest)
    afterBlank := s.afterBlank || 0 < run isBlank st.cursor.rest
    mode := s.mode.reached st.cursor.offset }) h.same

section Turn

variable {w : List Char} {command : CommandKind} {headEnd : Nat}
  (h : Before rest rest' pieces st st')
  (ht : Turn file octave rest pieces others later st c w kind mode next)

include h ht

theorem decided_eq : st'.pastBlanks = { st.pastBlanks with
    cursor := st'.cursor.skip (run isBlank st.cursor.rest)
    line := st'.line } :=
  h.pastBlanks (h.run_isBlank ht.spelled_eq (pastBlanks_head ht.ready))

theorem ready : st'.pastBlanks.cursor.rest =
    c :: (w ++ spelled others ++ ' ' :: '.' :: rest') := by
  have hlength := ht.length
  rw [h.decided_eq ht]
  dsimp only
  rw [h.rest_skip (by omega), ht.spelled_eq, run, List.drop_left]
  rfl

theorem rest_eq : (st'.pastBlanks.cursor.skip (w.length + 1)).rest =
    spelled others ++ ' ' :: '.' :: rest' := by
  rw [Cursor.rest_skip, h.ready ht, List.drop_succ_cons, List.append_assoc, List.drop_left]

theorem decide (hword : kind = .identifier ∨ kind = .keyword →
      st.pastBlanks.statementStart = true → PastChain (spelled others))
    (hpath : kind = .directory → (spelled others).dropWhile isBlank ≠ []) :
    st'.pastBlanks.decide octave c (w ++ spelled others ++ ' ' :: '.' :: rest') =
      .token kind w.length mode := by
  have hlength := ht.length
  have hchain := Command.chain_le (spelled others)
  rw [h.decided_eq ht]
  refine decide_cursor (decide_within (by decide) rest' ht.decide (by simp) ?_ ?_) ?_
  · rwa [List.drop_left]
  · rwa [List.drop_left]
  · rw [List.append_assoc, List.drop_left, Command.chain_cut cuts_blank, Cursor.skip_skip]
    exact (h.offset_skip (by omega)).trans (by rw [← Cursor.skip_skip]; rfl)

theorem take : ((st'.decided mode).take file kind w.length).comma.map Token.placeless =
      ((st.decided mode).take file kind w.length).comma.map Token.placeless ∧
    ((st'.decided mode).take file kind w.length).token.placeless =
      ((st.decided mode).take file kind w.length).token.placeless ∧
    ((st'.decided mode).take file kind w.length).next =
      { next with
        cursor := st'.pastBlanks.cursor.skip (w.length + 1)
        line := ((st'.decided mode).take file kind w.length).next.line } := by
  have hdecided : st'.decided mode = { st.decided mode with
      cursor := st'.pastBlanks.cursor
      line := st'.line } := by
    rw [decided, h.decided_eq ht]
    rfl
  rw [hdecided, ht.next_eq]
  refine take_cursor ?_ ?_
  · rw [h.ready ht, decided_cursor, ht.ready, List.take_succ_cons, List.take_succ_cons,
      List.append_assoc, List.append_assoc, List.take_left, List.take_left]
  · intro p
    have hrest :
        ((st.decided mode).cursor.skip (w.length + 1)).rest = spelled others ++ ' ' :: rest := by
      rw [← ht.rest_eq, ht.next_eq]
      rfl
    rw [h.rest_eq ht, hrest, startsWithAny_blank]

theorem headEnd_le (hmode : next.mode = .commandAfter headEnd command) :
    headEnd ≤ (next.cursor.skip (spelled others).length).offset := by
  have hlength := ht.length
  have hgap : next.cursor.skip (spelled others).length =
      st.cursor.skip (spelled pieces).length := by
    rw [ht.cursor, Cursor.skip_skip, hlength]
  have hready : st.pastBlanks.mode = .commandAfter headEnd command →
      headEnd ≤ (next.cursor.skip (spelled others).length).offset := by
    intro hready
    rw [hgap]
    exact h.inside _ _ (mode_of_pastBlanks hready).1
  rw [ht.mode_eq] at hmode
  subst hmode
  obtain ⟨hsame, -⟩ | hnormal | ⟨-, -, -, hname⟩ := decide_mode ht.decide
  · exact hready hsame.symm
  · cases hnormal
  · rw [modeAfterName] at hname
    split at hname
    · dsimp only at hname
      split at hname
      · split at hname
        · cases hname
        · cases hname
          have hchain := Command.chain_le (spelled others)
          have hcursor : st.pastBlanks.cursor.skip (w.length + 1) = next.cursor := by
            rw [ht.next_eq]
            rfl
          obtain ⟨k, hk⟩ := Nat.exists_eq_add_of_le hchain
          rw [List.append_assoc, List.drop_left, Command.chain_cut cuts_blank, ← Cursor.skip_skip,
            hcursor, hk, ← Cursor.skip_skip]
          exact Cursor.offset_le_skip _ k
      · exact hready hname.symm
    · exact hready hname.symm

end Turn

theorem step (h : Before rest rest' pieces st st') (hne : pieces ≠ [])
    (hlast : EndsWritten pieces) (hpath : ∀ p ∈ pieces.getLast?, p.token.kind ≠ .directory)
    (hhead : ¬ EndsHead st.brackets.length pieces)
    (hpieces : (Scan.ofState file octave st).pieces = pieces ++ later) :
    ∃ first first' others next next', pieces = first ++ others ∧ first ≠ [] ∧
      st.step file octave = .taken first next ∧ st'.step file octave = .taken first' next' ∧
      first'.map (·.token.placeless) = first.map (·.token.placeless) ∧
      Before rest rest' others next next' ∧ EndsWritten others ∧
      ¬ EndsHead next.brackets.length others ∧
      (Scan.ofState file octave next).pieces = others ++ later ∧
      (others = [] → next.mode ≠ .command .path) := by
  obtain ⟨others, c, w, kind, mode, next, ht⟩ := exists_turn h.ahead hne hlast hpieces
  have hdecide := h.decide ht (ht.pastChain h.headed hhead) (ht.pastPath hpath)
  obtain ⟨hcomma, htoken, hnext⟩ := h.take ht
  refine ⟨_, _, others, next, _, ?_, by simp, ht.step_eq,
    step_of_decide (h.ready ht) hdecide, ?_, ?_,
    ht.written, ht.not_endsHead hhead, ht.later, ht.mode_ne_path h.headed hhead hpath⟩
  · rw [List.append_assoc]
    exact ht.pieces_eq
  · rw [commas, commas, Shifted.placeless_pieces, Shifted.placeless_pieces, hcomma, htoken]
  · rw [hnext]
    refine ⟨rfl, ht.rest_eq, h.rest_eq ht, ?_, h.headed.step ht.step_eq, fun _ _ => h.headEnd_le ht⟩
    have hlength := ht.length
    rw [h.decided_eq ht, ht.cursor]
    exact (congrArg Cursor.offset (Cursor.skip_skip _ _ _)).trans (h.offset_skip (by omega))

theorem run (h : Before rest rest' pieces st st') (hne : pieces ≠ []) (hlast : EndsWritten pieces)
    (hpath : ∀ p ∈ pieces.getLast?, p.token.kind ≠ .directory)
    (hhead : ¬ EndsHead st.brackets.length pieces)
    (hpieces : (Scan.ofState file octave st).pieces = pieces ++ later) :
    ∃ next next', Before rest rest' [] next next' ∧ next.mode ≠ .command .path ∧
      (Scan.ofState file octave next).pieces = later ∧
      (Scan.ofState file octave next).failure = (Scan.ofState file octave st).failure ∧
      (Scan.ofState file octave next').failure = (Scan.ofState file octave st').failure ∧
      (Scan.ofState file octave st').tokens.map Token.placeless =
        pieces.map (·.token.placeless) ++
          (Scan.ofState file octave next').tokens.map Token.placeless := by
  induction hlength : pieces.length using Nat.strong_induction_on generalizing st st' pieces with
  | _ length ih =>
    obtain ⟨first, first', others, next, next', rfl, hfirst, hstep, hstep', hsame, hbefore,
      hwritten, hothers, hlater, hmode⟩ := h.step hne hlast hpath hhead hpieces
    have htokens : (Scan.ofState file octave st').tokens.map Token.placeless =
        first.map (·.token.placeless) ++
          (Scan.ofState file octave next').tokens.map Token.placeless := by
      rw [Scan.ofState_taken hstep', ← hsame]
      simp only [Scan.tokens, List.map_append, List.map_map]
      rfl
    have hfailure := congrArg Scan.failure (Scan.ofState_taken hstep)
    have hfailure' := congrArg Scan.failure (Scan.ofState_taken hstep')
    by_cases hnil : others = []
    · subst hnil
      rw [List.append_nil]
      exact ⟨next, next', hbefore, hmode rfl, hlater, hfailure.symm, hfailure'.symm, htokens⟩
    · obtain ⟨last, last', hrun, hpath', hrest, hend, hend', htokens'⟩ := ih others.length
        (by
          rw [← hlength, List.length_append]
          have := List.length_pos_iff.2 hfirst
          omega) hbefore hnil hwritten
        (fun p hp => hpath p (by rw [List.getLast?_append, Option.mem_def.1 hp]; rfl)) hothers
        hlater rfl
      refine ⟨last, last', hrun, hpath', hrest, hend.trans hfailure.symm,
        hend'.trans hfailure'.symm, ?_⟩
      rw [htokens, htokens', List.map_append, List.append_assoc]

end Before

end State

end MFile.Lexing
