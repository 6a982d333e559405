import MFile.Proofs.Lexing.Origins
import MFile.Proofs.Lexing.Reached

/-!
The words of a command stand apart. Blanks or a continuation come before each of them, since the
command's head is followed by blanks and a word goes on to blanks or to a stop.
-/

namespace MFile.Lexing

open Text

variable {text front rest cs : List Char} {c : Char} {kind : Kind} {more : Nat} {mode : Mode}
  {octave : Bool}

def BlankAt (text : List Char) (offset : Nat) : Prop :=
  ∃ front rest, text = front ++ rest ∧ byteCount front = offset ∧
    startsWithAny isBlank rest = true

theorem rest_eq_of_byteCount {front' rest' : List Char} (h : front ++ rest = front' ++ rest')
    (hcount : byteCount front = byteCount front') : rest = rest' := by
  have hempty : ∀ {as bs : List Char}, byteCount as = byteCount (as ++ bs) → bs = [] := by
    intro as bs heq
    by_contra hne
    have hpos := byteCount_pos hne
    rw [byteCount_append] at heq
    omega
  rcases List.append_eq_append_iff.1 h with ⟨between, hfront, hrest⟩ | ⟨between, hfront, hrest⟩
  · rw [hfront] at hcount
    rw [hrest, hempty hcount, List.nil_append]
  · rw [hfront] at hcount
    rw [hrest, hempty hcount.symm, List.nil_append]

theorem BlankAt.ahead {cursor : Cursor} {behind : List Char} (h : BlankAt text cursor.offset)
    (hstands : cursor.Stands text behind) : startsWithAny isBlank cursor.rest = true := by
  obtain ⟨front, rest, htext, hcount, hblank⟩ := h
  have heq : rest = cursor.rest :=
    rest_eq_of_byteCount (htext.symm.trans hstands.text_eq) (hcount.trans hstands.offset_eq)
  exact heq ▸ hblank

namespace Command

theorem text_ends {command : CommandKind} {quoted : Bool} {n : Nat}
    (h : Command.text command quoted cs = .ok n) :
    ∀ d ∈ (cs.drop n).head?, isStop d = true ∨ (command = .words ∧ isBlank d = true) := by
  fun_induction Command.text command quoted cs generalizing n with
  | case1 =>
    cases h
    simp
  | case2 | case5 => cases h
  | case3 c cs hstop =>
    cases h
    intro d hd
    cases hd
    simpa using hstop
  | case4 c cs _ ih | case9 c cs _ _ ih =>
    obtain ⟨k, hk, rfl⟩ := mapped_ok h
    rw [Nat.add_comm, List.drop_succ_cons]
    exact ih hk
  | case6 ds _ ih =>
    obtain ⟨k, hk, rfl⟩ := mapped_ok h
    rw [Nat.add_comm, List.drop_succ_cons, List.drop_succ_cons]
    exact ih hk
  | case7 d ds _ _ ih =>
    obtain ⟨k, hk, rfl⟩ := mapped_ok h
    rw [Nat.add_comm, List.drop_succ_cons]
    exact ih hk
  | case8 =>
    cases h
    simp

theorem text_ne_zero {command : CommandKind} {n : Nat} (hstop : isStop c = false)
    (hblank : isBlank c = false) (h : Command.text command false (c :: cs) = .ok n) : n ≠ 0 := by
  rw [Command.text, hstop, hblank, Bool.and_false, Bool.or_false, if_neg Bool.false_ne_true] at h
  obtain ⟨k, -, rfl⟩ := mapped_ok h
  omega

theorem blank_of_follows (h : follows cs = true) : startsWithAny isBlank cs = true := by
  rw [follows, Bool.and_eq_true, Bool.and_eq_true, Bool.and_eq_true] at h
  exact h.1.1.1

end Command

namespace State

variable {st : State} {behind : List Char}

structure Apart (text : List Char) (st : State) : Prop where
  head : ∀ headEnd command, st.mode = .commandAfter headEnd command → BlankAt text headEnd
  word : st.mode = .command .words → st.afterBlank = true ∨
    ∀ c ∈ st.cursor.rest.head?, isBlank c = true ∨ Command.isStop c = true

theorem apart_ofText (text : List Char) (source : String) : (ofText source).Apart text :=
  ⟨fun _ _ h => Mode.noConfusion h, fun h => Mode.noConfusion h⟩

theorem afterBlank_of_blank (st : State) (h : startsWithAny isBlank st.cursor.rest = true) :
    st.pastBlanks.afterBlank = true := by
  cases hrest : st.cursor.rest with
  | nil =>
    rw [hrest] at h
    cases h
  | cons c cs =>
    rw [hrest] at h
    have hc : isBlank c = true := h
    simp [pastBlanks, hrest, run, List.takeWhile_cons_of_pos hc]

theorem Apart.afterBlank (h : st.Apart text) (hstands : st.cursor.Stands text behind)
    (hrest : st.pastBlanks.cursor.rest = c :: cs) (hstop : Command.isStop c = false)
    (hmode : st.pastBlanks.mode = .command .words) : st.pastBlanks.afterBlank = true := by
  change st.mode.reached st.cursor.offset = _ at hmode
  cases hbefore : st.mode with
  | normal =>
    rw [hbefore] at hmode
    cases hmode
  | commandAfter headEnd command =>
    rw [hbefore, Mode.reached] at hmode
    split at hmode
    · rename_i hend
      have hblank := h.head headEnd command hbefore
      rw [← hend] at hblank
      exact afterBlank_of_blank st (hblank.ahead hstands)
    split at hmode
    · cases hmode
    · cases hmode
  | command command =>
    rw [hbefore] at hmode
    obtain hblank | hahead := h.word (hbefore.trans hmode)
    · simp [pastBlanks, hblank]
    cases hstart : st.cursor.rest with
    | nil =>
      rw [pastBlanks_rest, hstart] at hrest
      cases hrest
    | cons d ds =>
      by_cases hd : isBlank d = true
      · apply afterBlank_of_blank st
        rw [hstart]
        exact hd
      · rw [pastBlanks_rest, hstart, List.dropWhile_cons_of_neg hd] at hrest
        cases hrest
        obtain hblank | hstopped := hahead c (by rw [hstart]; rfl)
        · exact absurd hblank hd
        · rw [hstop] at hstopped
          cases hstopped

theorem modeAfterName_cases (st : State) (more : Nat) (word : String) (after : List Char) :
    st.modeAfterName more word after = st.mode ∨
      startsWithAny isBlank (after.drop (Command.chain after)) = true ∧
        ((Command.chain after = 0 ∧
            ∃ command, st.modeAfterName more word after = .command command) ∨
          st.modeAfterName more word after =
            .commandAfter (st.cursor.skip (more + 1 + Command.chain after)).offset .words) := by
  rw [modeAfterName]
  split
  · dsimp only
    split
    · rename_i hfollows
      apply Or.inr
      refine ⟨Command.blank_of_follows hfollows, ?_⟩
      split
      · rename_i hchain
        exact .inl ⟨hchain, _, rfl⟩
      · exact .inr rfl
    · exact .inl rfl
  · exact .inl rfl

theorem decideCommand_words (hstop : Command.isStop c = false) (hblank : isBlank c = false)
    (h : st.decideCommand .words c cs = .token kind more mode) :
    kind = .continuation ∨
      ∀ d ∈ (cs.drop more).head?, isBlank d = true ∨ Command.isStop d = true := by
  rw [decideCommand.eq_def] at h
  split at h
  · cases h
    exact .inl rfl
  · cases hword : Command.text .words false (c :: cs) with
    | error length =>
      rw [hword] at h
      cases h
    | ok length =>
      rw [hword] at h
      cases h
      have hends := Command.text_ends hword
      obtain ⟨n, rfl⟩ := Nat.exists_eq_succ_of_ne_zero (Command.text_ne_zero hstop hblank hword)
      rw [List.drop_succ_cons] at hends
      apply Or.inr
      intro d hd
      obtain hd | ⟨-, hd⟩ := hends d hd
      · exact .inr hd
      · exact .inl hd

theorem startsWithAny_eq_true {p : Char → Bool} (h : startsWithAny p cs = true) :
    ∀ d ∈ cs.head?, p d = true := by
  cases cs with
  | nil => cases h
  | cons c cs =>
    intro d hd
    cases hd
    exact h

theorem blank_of_decidePlain {plain : Mode} (hstands : st.cursor.Stands text behind)
    (hrest : st.cursor.rest = c :: cs)
    (h : ({ st with mode := plain } : State).decidePlain octave c cs = .token kind more mode) :
    mode = plain ∨
      (∃ command, mode = .command command ∧ startsWithAny isBlank (cs.drop more) = true) ∨
      ∃ headEnd, mode = .commandAfter headEnd .words ∧ BlankAt text headEnd := by
  obtain hsame | ⟨-, -, -, hname⟩ := decidePlain_mode h
  · exact .inl hsame
  obtain hsame | ⟨hblank, ⟨hchain, command, hcommand⟩ | hcommand⟩ :=
    modeAfterName_cases { st with mode := plain } more (String.ofList (c :: cs.take more))
      (cs.drop more)
  · exact .inl (hname.trans hsame)
  · rw [hchain, List.drop_zero] at hblank
    exact .inr (.inl ⟨command, hname.trans hcommand, hblank⟩)
  · refine .inr (.inr ⟨_, hname.trans hcommand, _, _, (hstands.skip _).text_eq,
      (hstands.offset_skip _).symm, ?_⟩)
    rwa [Cursor.rest_skip, hrest, Nat.add_right_comm, List.drop_succ_cons, ← List.drop_drop]

theorem Apart.take (h : st.Apart text) (hstands : st.cursor.Stands text behind)
    (htakes : Takes octave st c cs kind more mode) (file : String) :
    ((st.decided mode).take file kind more).next.Apart text := by
  have hrest : ((st.decided mode).take file kind more).next.cursor.rest = cs.drop more :=
    htakes.rest file
  obtain ⟨command, hcommand, hstop, hdecide⟩ | ⟨plain, hplain, hsame, hdecide⟩ :=
    decide_eq_command_or_plain st.pastBlanks octave c cs
  · have htoken := hdecide.symm.trans htakes.decides
    obtain ⟨hmode, -⟩ := decideCommand_mode htoken
    rw [hcommand] at hmode
    subst hmode
    refine ⟨fun _ _ h => Mode.noConfusion h, fun hwords => ?_⟩
    cases hwords
    obtain rfl | hends := decideCommand_words hstop (pastBlanks_head htakes.ahead) htoken
    · exact .inl rfl
    · rw [hrest]
      exact .inr hends
  · have htoken := hdecide.symm.trans htakes.decides
    obtain rfl | ⟨command, rfl, hblank⟩ | ⟨headEnd, rfl, hblank⟩ :=
      blank_of_decidePlain (stands_pastBlanks hstands) htakes.ahead htoken
    · refine ⟨fun headEnd command hafter => ?_, fun hwords => absurd hwords (hplain .words)⟩
      obtain hnormal | hsame := hsame
      · exact Mode.noConfusion (hnormal.symm.trans hafter)
      · exact h.head headEnd command (mode_of_pastBlanks (hsame.symm.trans hafter)).1
    · refine ⟨fun _ _ h => Mode.noConfusion h, fun _ => .inr fun d hd => .inl ?_⟩
      rw [hrest] at hd
      exact startsWithAny_eq_true hblank d hd
    · refine ⟨fun end' command hafter => ?_, fun h => Mode.noConfusion h⟩
      cases hafter
      exact hblank

theorem Reads.apart {source file : String} {pieces : List Piece}
    (h : Reads file octave (ofText source) pieces st) : st.Apart source.toList := by
  induction h with
  | start => exact apart_ofText _ source
  | step hreads hstep ih =>
    obtain ⟨behind, hstands⟩ := hreads.stands (Cursor.stands_start source.toList)
    obtain ⟨c, cs, kind, more, mode, htakes, -, rfl⟩ := takes_of_step hstep
    exact ih.take hstands htakes file

end State

end MFile.Lexing
