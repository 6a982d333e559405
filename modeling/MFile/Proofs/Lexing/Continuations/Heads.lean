import MFile.Proofs.Grammar.Relayout.Texts
import MFile.Proofs.Lexing.Continuations.Decisions
import MFile.Proofs.Lexing.Identifiers

/-!
The heads of commands. The words of a command begin behind a dotted name, which is read token by
token first; no statement begins in between, so the name is read as it would be anywhere else.
-/

namespace MFile.Lexing

open Text

variable {c d : Char} {cs : List Char} {kind : Kind} {more : Nat} {mode : Mode} {octave : Bool}

theorem Cursor.offset_skip (c : Cursor) (n : Nat) :
    (c.skip n).offset = c.offset + byteCount (c.rest.take n) := by
  induction n generalizing c with
  | zero => rfl
  | succ n ih =>
    rw [skip, ih, rest_next, next]
    cases c.rest with
    | nil => simp
    | cons ch rest =>
      rw [List.drop_one, List.tail_cons, List.take_succ_cons, byteCount_cons]
      exact Nat.add_assoc _ _ _

theorem Cursor.skip_skip (c : Cursor) (m n : Nat) : (c.skip m).skip n = c.skip (m + n) := by
  induction m generalizing c with
  | zero => rw [skip, Nat.zero_add]
  | succ m ih => rw [skip, ih, Nat.add_right_comm, skip]

/-! ## Lexemes of a dotted name -/

theorem Cursor.offset_skip_lt (c : Cursor) {m n : Nat} (hm : m < n) (hn : n ≤ c.rest.length) :
    (c.skip m).offset < (c.skip n).offset := by
  obtain ⟨k, rfl⟩ := Nat.exists_eq_add_of_lt hm
  have hne : (c.skip m).rest ≠ [] := by
    rw [rest_skip]
    refine List.ne_nil_of_length_pos ?_
    rw [List.length_drop]
    omega
  obtain ⟨ch, cs, hrest⟩ := List.exists_cons_of_ne_nil hne
  rw [Nat.add_assoc, ← skip_skip]
  exact offset_lt_skip hrest k

theorem ne_of_isAlpha (hc : c.isAlpha = true) (hd : d.isAlpha = false) : c ≠ d := by
  rintro rfl
  rw [hc] at hd
  cases hd

theorem not_isDigit (hc : c.isAlpha = true) : c.isDigit = false := by
  change (decide (c.val ≥ 'A'.val ∧ c.val ≤ 'Z'.val) ||
    (decide (c.val ≥ 'a'.val) && decide (c.val ≤ 'z'.val))) = true at hc
  change (decide (c.val ≥ '0'.val) && decide (c.val ≤ '9'.val)) = false
  simp only [Bool.or_eq_true, Bool.and_eq_true, decide_eq_true_eq, Bool.and_eq_false_iff,
    decide_eq_false_iff_not, ge_iff_le, UInt32.le_iff_toNat_le, Char.reduceVal,
    UInt32.reduceToNat] at hc ⊢
  omega

theorem Lexeme.ofChars?_alpha (hc : c.isAlpha = true) (cs : List Char) :
    ofChars? c cs = some (word (run isNameChar cs)) := by
  rw [ofChars?.eq_def, if_neg (ne_of_isAlpha hc rfl), if_neg (ne_of_isAlpha hc rfl),
    if_neg (not_or.2 ⟨ne_of_isAlpha hc rfl, ne_of_isAlpha hc rfl⟩), if_pos hc]

theorem Lexeme.ofChars?_dot (hd : d.isAlpha = true) (cs : List Char) :
    ofChars? '.' (d :: cs) = some (symbol .selection 0) := by
  have hne : ∀ e : Char, e.isAlpha = false → (d == e) = false := fun e he =>
    beq_eq_false_iff_ne.2 (ne_of_isAlpha hd he)
  have hdots : ['.', '.'].isPrefixOf (d :: cs) = false := by
    rw [List.isPrefixOf, BEq.comm, hne '.' rfl]
    rfl
  have hpair : isPair '.' d = false := by
    rw [isPair, hne _ rfl, hne _ rfl, hne _ rfl, hne _ rfl, hne _ rfl]
    rfl
  rw [ofChars?.eq_def, if_neg (by decide), if_neg (by decide), if_neg (by decide),
    if_neg (by decide), if_neg (by decide), hdots, if_neg (by decide), startsWithAny,
    not_isDigit hd, if_neg (by decide), if_neg (by decide), if_neg (by decide),
    if_neg (by decide), symbol?, startsWithAny, hpair]
  rfl

/-! ## Modes -/

namespace State

variable {st next : State} {file : String}

theorem ofExtent_mode {k : Kind} {extent : Extent} {m : Mode}
    (h : Decision.ofExtent k m extent = .token kind more mode) : mode = m :=
  (token_of_ofExtent h).2.2.symm

theorem decidePlain_mode (h : st.decidePlain octave c cs = .token kind more mode) :
    mode = st.mode ∨ (c.isAlpha = true ∧ kind = .identifier ∧ st.statementStart = true ∧
      mode = st.modeAfterName more (String.ofList (c :: cs.take more)) (cs.drop more)) := by
  rw [decidePlain] at h
  cases hlexeme : Lexeme.ofChars? c cs with
  | none =>
    rw [hlexeme] at h
    cases h
  | some lexeme =>
    have hbegins := Lexeme.begins_ofChars? hlexeme
    rw [hlexeme] at h
    cases lexeme with
    | newline | continuation | symbol =>
      cases h
      exact .inl rfl
    | comment =>
      simp only [decideComment] at h
      repeat' split at h
      all_goals
        cases h
        try exact .inl rfl
    | word =>
      simp only [decideWord] at h
      split at h
      · cases h
        exact .inl rfl
      split at h
      · cases h
        exact .inl rfl
      split at h
      · cases h
        exact .inl rfl
      cases h
      by_cases hstart : (st.statementStart && st.blocks.head? != some .declarations) = true
      · exact .inr ⟨hbegins, rfl, (Bool.and_eq_true_iff.1 hstart).1, rfl⟩
      · exact .inl (by rw [modeAfterName, if_neg hstart])
    | number | text => exact .inl (ofExtent_mode h)
    | quote =>
      simp only [decideQuote] at h
      split at h
      · cases h
        exact .inl rfl
      · cases h
      · exact .inl (ofExtent_mode h)
    | bang =>
      simp only [decideBang] at h
      repeat' split at h
      all_goals
        cases h
        try exact .inl rfl

theorem decideCommand_mode {command : CommandKind}
    (h : st.decideCommand command c cs = .token kind more mode) :
    mode = st.mode ∧ (command = .path → kind = .directory) ∧
      kind ≠ .identifier ∧ kind ≠ .keyword := by
  rw [decideCommand.eq_def] at h
  split at h
  · cases command with
    | words =>
      cases h
      exact ⟨rfl, fun h => absurd h (by decide), by decide, by decide⟩
    | path => cases h
  · cases htext : Command.text command false (c :: cs) with
    | error length =>
      rw [htext] at h
      cases command <;> cases h
    | ok length =>
      rw [htext] at h
      cases command with
      | words =>
        cases h
        exact ⟨rfl, fun h => absurd h (by decide), by decide, by decide⟩
      | path =>
        dsimp only at h
        split at h
        · cases h
        · cases h
          exact ⟨rfl, fun _ => rfl, by decide, by decide⟩

theorem not_isStop (hc : c.isAlpha = true) : Command.isStop c = false := by
  have hne : ∀ d : Char, d.isAlpha = false → (c == d) = false := fun d hd =>
    beq_eq_false_iff_ne.2 (ne_of_isAlpha hc hd)
  rw [Command.isStop, isBreak, hne _ rfl, hne _ rfl, hne _ rfl, hne _ rfl, hne _ rfl, hne _ rfl]
  rfl

theorem decide_mode (h : st.decide octave c cs = .token kind more mode) :
    (mode = st.mode ∧ ∀ command, st.mode = .command command →
      kind ≠ .identifier ∧ kind ≠ .keyword) ∨
    mode = .normal ∨ (kind = .identifier ∧ st.statementStart = true ∧
      (∀ command, st.mode ≠ .command command) ∧
      mode = st.modeAfterName more (String.ofList (c :: cs.take more)) (cs.drop more)) := by
  rw [decide] at h
  split at h
  · split at h
    · rename_i hstop
      obtain hmode | ⟨hc, -⟩ := decidePlain_mode h
      · exact .inr (.inl hmode)
      · rw [not_isStop hc] at hstop
        cases hstop
    · obtain ⟨hmode, -, hkind⟩ := decideCommand_mode h
      exact .inl ⟨hmode, fun _ _ => hkind⟩
  · rename_i hmode
    obtain hsame | ⟨-, hkind, hstart, hname⟩ := decidePlain_mode h
    · exact .inl ⟨hsame, fun command hcommand => absurd hcommand (hmode command)⟩
    · exact .inr (.inr ⟨hkind, hstart, hmode, hname⟩)

theorem decide_path (h : st.decide octave c cs = .token kind more (.command .path)) :
    kind = .directory ∨ (kind = .identifier ∧ st.statementStart = true) := by
  rw [decide] at h
  split at h
  · rename_i command hmode
    split at h
    · obtain hnormal | ⟨-, hk, hstart, -⟩ := decidePlain_mode h
      · cases hnormal
      · exact .inr ⟨hk, hstart⟩
    · obtain ⟨hsame, hpath, -⟩ := decideCommand_mode h
      rw [hmode] at hsame
      exact .inl (hpath (Mode.command.inj hsame).symm)
  · rename_i hmode
    obtain hsame | ⟨-, hk, hstart, -⟩ := decidePlain_mode h
    · exact absurd hsame.symm (hmode .path)
    · exact .inr ⟨hk, hstart⟩

/-! ## Dotted names -/

def dotted (st : State) : Bool := st.previous.any (·.kind == .selection)

theorem decide_dot (hmode : ∀ command, st.mode ≠ .command command) (hd : d.isAlpha = true)
    (cs : List Char) : st.decide octave '.' (d :: cs) = .token .selection 0 st.mode := by
  rw [decide]
  split
  · rename_i command hcommand
    exact absurd hcommand (hmode command)
  · rw [decidePlain, Lexeme.ofChars?_dot hd]

theorem decide_name (hmode : ∀ command, st.mode ≠ .command command) (hdotted : st.dotted = true)
    (hc : c.isAlpha = true) (cs : List Char) :
    st.decide octave c cs = .token .identifier (run isNameChar cs) st.mode := by
  rw [decide]
  split
  · rename_i command hcommand
    exact absurd hcommand (hmode command)
  · rw [decidePlain, Lexeme.ofChars?_alpha hc]
    dsimp only
    rw [dotted] at hdotted
    rw [decideWord, if_pos hdotted]

theorem chainFrom_name (hc : isNameChar c = true) (cs : List Char) :
    Command.chainFrom true (c :: cs) = 1 + Command.chainFrom true cs := by
  rw [Command.chainFrom.eq_def]
  dsimp only
  rw [Bool.true_and, if_pos hc]

theorem chainFrom_true (cs : List Char) :
    Command.chainFrom true cs =
      run isNameChar cs + Command.chain (cs.drop (run isNameChar cs)) := by
  induction cs with
  | nil => rfl
  | cons c cs ih =>
    by_cases hc : isNameChar c = true
    · rw [chainFrom_name hc, ih, run, run, List.takeWhile_cons_of_pos hc, List.length_cons,
        List.drop_succ_cons]
      omega
    · rw [run, List.takeWhile_cons_of_neg hc, List.length_nil, List.drop_zero, Nat.zero_add,
        Command.chain, Command.chainFrom.eq_def, Command.chainFrom.eq_def]
      dsimp only
      rw [Bool.true_and, if_neg hc, Bool.false_and, if_neg Bool.false_ne_true]

theorem chain_part {cs : List Char} (h : Command.chain cs ≠ 0) :
    ∃ d ds, cs = '.' :: d :: ds ∧ d.isAlpha = true ∧
      Command.chain cs = 2 + Command.chainFrom true ds := by
  rcases cs with _ | ⟨c, _ | ⟨d, ds⟩⟩
  · exact absurd rfl h
  · exact absurd (by simp [Command.chain, Command.chainFrom]) h
  · rw [Command.chain, Command.chainFrom, Bool.false_and, if_neg Bool.false_ne_true] at h
    by_cases hdot : c = '.' ∧ d.isAlpha = true
    · obtain ⟨rfl, hd⟩ := hdot
      refine ⟨d, ds, rfl, hd, ?_⟩
      rw [Command.chain, Command.chainFrom, Bool.false_and, if_neg Bool.false_ne_true,
        if_pos ⟨rfl, hd⟩]
    · rw [if_neg hdot] at h
      exact absurd rfl h

structure InHead (st : State) (headEnd : Nat) : Prop where
  within : st.firstInStatement = false
  chain : headEnd = (st.cursor.skip (Command.chainFrom st.dotted st.cursor.rest)).offset
  name : st.dotted = true → startsWithAny Char.isAlpha st.cursor.rest = true

/-- Words that are still to come follow the name ahead. -/
def Headed (st : State) : Prop :=
  ∀ headEnd kind, st.mode = .commandAfter headEnd kind →
    kind = .words ∧ (st.cursor.offset < headEnd → st.InHead headEnd)

theorem pastBlanks_cursor {rest : List Char} (hrest : st.cursor.rest = c :: rest)
    (hc : isBlank c = false) : st.pastBlanks.cursor = st.cursor := by
  rw [pastBlanks, hrest, run, List.takeWhile_cons_of_neg (by simp [hc])]
  rfl

theorem mode_of_pastBlanks {headEnd : Nat} {command : CommandKind}
    (h : st.pastBlanks.mode = .commandAfter headEnd command) :
    st.mode = .commandAfter headEnd command ∧ st.cursor.offset < headEnd := by
  change st.mode.reached st.cursor.offset = _ at h
  cases hmode : st.mode with
  | normal | command =>
    rw [hmode] at h
    cases h
  | commandAfter headEnd' kind =>
    rw [hmode, Mode.reached] at h
    split at h
    · cases h
    split at h
    · cases h
    · cases h
      exact ⟨rfl, by omega⟩

theorem not_isBlank (hc : c.isAlpha = true) : isBlank c = false := by
  have hne : ∀ d : Char, d.isAlpha = false → (c == d) = false := fun d hd =>
    beq_eq_false_iff_ne.2 (ne_of_isAlpha hc hd)
  rw [isBlank, hne _ rfl, hne _ rfl]
  rfl

theorem isNameChar_of_isAlpha (hc : c.isAlpha = true) : isNameChar c = true := by
  rw [isNameChar, Char.isAlphanum, hc]
  rfl

theorem InHead.step {headEnd : Nat} (h : st.InHead headEnd) (hlt : st.cursor.offset < headEnd)
    (hmode : ∀ command, st.pastBlanks.mode ≠ .command command)
    (hrest : st.pastBlanks.cursor.rest = c :: cs)
    (hdecide : st.pastBlanks.decide octave c cs = .token kind more mode) :
    ((st.decided mode).take file kind more).next.InHead headEnd := by
  have hchain := h.chain
  cases hdotted : st.dotted with
  | true =>
    -- Right behind a dot the name of a part is read, anywhere else the dot of the next part.
    have hname := h.name hdotted
    cases hstart : st.cursor.rest with
    | nil =>
      rw [hstart] at hname
      cases hname
    | cons a as =>
      rw [hstart] at hname
      have ha : a.isAlpha = true := hname
      have hcursor := pastBlanks_cursor hstart (not_isBlank ha)
      rw [hcursor, hstart] at hrest
      cases hrest
      rw [decide_name hmode hdotted ha] at hdecide
      cases hdecide
      refine ⟨rfl, ?_, nofun⟩
      rw [hdotted, hstart, chainFrom_name (isNameChar_of_isAlpha ha), chainFrom_true] at hchain
      rw [take_next_cursor, decided_cursor, hcursor, Cursor.rest_skip, hstart, List.drop_succ_cons,
        Cursor.skip_skip, hchain, ← Nat.add_assoc, Nat.add_comm 1]
      rfl
  | false =>
    rw [hdotted] at hchain
    have hne : Command.chain st.cursor.rest ≠ 0 := by
      intro hzero
      rw [Command.chain] at hzero
      rw [hzero] at hchain
      exact absurd hchain hlt.ne'
    obtain ⟨d, ds, hstart, hd, hpart⟩ := chain_part hne
    have hcursor := pastBlanks_cursor hstart (by decide)
    rw [hcursor, hstart] at hrest
    cases hrest
    rw [decide_dot hmode hd] at hdecide
    cases hdecide
    refine ⟨rfl, ?_, fun _ => ?_⟩
    · rw [take_next_cursor, decided_cursor, hcursor, Cursor.rest_skip, hstart, Cursor.skip_skip]
      have hdot : ((st.decided st.pastBlanks.mode).take file .selection 0).next.dotted = true := rfl
      rw [hdot, hchain, ← Command.chain, hpart, List.drop_succ_cons, List.drop_zero,
        chainFrom_name (isNameChar_of_isAlpha hd), ← Nat.add_assoc]
    · rw [take_next_cursor, decided_cursor, hcursor, Cursor.rest_skip, hstart]
      exact hd

theorem Headed.begins (h : st.Headed) (hstart : st.pastBlanks.statementStart = true)
    (headEnd : Nat) (command : CommandKind) :
    st.pastBlanks.mode ≠ .commandAfter headEnd command := by
  intro hready
  have hfirst : st.firstInStatement = true := (Bool.and_eq_true_iff.1 hstart).1
  obtain ⟨hmode, hlt⟩ := mode_of_pastBlanks hready
  rw [((h _ _ hmode).2 hlt).within] at hfirst
  cases hfirst

theorem Headed.step (h : st.Headed) {pieces : List Piece}
    (hstep : st.step file octave = .taken pieces next) : next.Headed := by
  obtain ⟨c, cs, kind, more, mode, hrest, hdecide, -, rfl⟩ := step_taken hstep
  intro headEnd command hmode
  change mode = _ at hmode
  subst hmode
  obtain ⟨hsame, -⟩ | hnormal | ⟨rfl, hstart, -, hname⟩ := decide_mode hdecide
  · obtain ⟨hmode, hlt⟩ := mode_of_pastBlanks hsame.symm
    obtain ⟨hkind, hin⟩ := h _ _ hmode
    refine ⟨hkind, fun _ => (hin hlt).step hlt ?_ hrest hdecide⟩
    rw [← hsame]
    exact fun _ h => Mode.noConfusion h
  · cases hnormal
  · have hready := h.begins hstart headEnd command
    rw [modeAfterName] at hname
    split at hname
    · dsimp only at hname
      split at hname
      · split at hname
        · cases hname
        · cases hname
          refine ⟨rfl, fun _ => ⟨rfl, ?_, fun h => Bool.noConfusion h⟩⟩
          rw [take_next_cursor, decided_cursor, Cursor.skip_skip, Cursor.rest_skip, hrest]
          rfl
      · exact absurd hname.symm hready
    · exact absurd hname.symm hready

end State

end MFile.Lexing
