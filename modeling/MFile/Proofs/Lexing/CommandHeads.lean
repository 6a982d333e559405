import MFile.Proofs.Lexing.Words

/-!
A command that is announced is come to. Its dotted head is measured when its first name is read, and
read again token by token from there. Both take a dot and the name behind it at a time, and as long
as a part is to come the announcement stays; so reading stands just behind the head at some point,
and goes on with the words of the command.
-/

namespace MFile.Lexing.State

open Text

variable {file : String} {octave : Bool} {st next : State} {c : Char} {cs : List Char}
  {kind : Kind} {more headEnd : Nat} {mode : Mode} {command : CommandKind} {pieces : List Piece}

/-- The words of a command follow the dotted name that goes on ahead, up to an offset. -/
structure Announces (st : State) (headEnd : Nat) (command : CommandKind) : Prop where
  mode : st.mode = .commandAfter headEnd command
  headEnd : headEnd = (st.cursor.skip (Command.chain st.cursor.rest)).offset
  follows : Command.follows (st.cursor.rest.drop (Command.chain st.cursor.rest)) = true

/-- Reading goes on with parts of a name, a dot and a name at a time, and with nothing in between;
all the while the state has the same mode. -/
inductive ReadsHead (file : String) (octave : Bool) (plan : Mode) :
    State → List Piece → State → Prop
  | done {st : State} (hplan : st.mode = plan) : ReadsHead file octave plan st [] st
  | part {st mid next last : State} {dot name : Piece} {parts : List Piece}
      (hplan : st.mode = plan) (hdot : st.step file octave = .taken [dot] mid)
      (hmid : mid.mode = plan) (hname : mid.step file octave = .taken [name] next)
      (hparts : ReadsHead file octave plan next parts last) :
      ReadsHead file octave plan st (dot :: name :: parts) last

theorem ReadsHead.reads {start last : State} {plan : Mode} {parts : List Piece}
    (h : ReadsHead file octave plan st parts last) (hst : Reads file octave start pieces st) :
    Reads file octave start (pieces ++ parts) last := by
  induction h generalizing pieces with
  | done => rwa [List.append_nil]
  | part _ hdot _ hname _ ih =>
    have hnext := ih ((hst.step hdot).step hname)
    rwa [List.append_assoc, List.append_assoc, List.singleton_append, List.singleton_append]
      at hnext

theorem Reads.ends {start : State} (h : Reads file octave start pieces st) :
    ∀ p ∈ pieces.getLast?, pieces ≠ [] → p.token.span.stop = st.cursor.offset := by
  intro p hp hne
  cases h with
  | start => exact absurd rfl hne
  | step hreads hstep =>
    obtain ⟨c, cs, kind, more, mode, -, rfl, rfl⟩ := takes_of_step hstep
    rw [← List.append_assoc, List.getLast?_append] at hp
    cases hp
    rfl

structure Touches (st : State) (kind : Kind) (more : Nat) (p : Piece) (next : State) : Prop where
  gap : p.gap = []
  kind_eq : p.token.kind = kind
  mode : next.mode = st.mode
  cursor : next.cursor = st.cursor.skip (more + 1)
  touching : next.afterBlank = false
  dotted : next.dotted = (kind == .selection)

/-- While a head goes on, a token that touches what stands before it is taken alone, in the mode
that is the same for the next. -/
theorem step_touching (file : String) (octave : Bool)
    (hmode : st.mode = .commandAfter headEnd command)
    (hlt : st.cursor.offset < headEnd) (hrest : st.cursor.rest = c :: cs) (hc : isBlank c = false)
    (hdecide : (∀ k, st.pastBlanks.mode ≠ .command k) →
      st.pastBlanks.decide octave c cs = .token kind more st.pastBlanks.mode)
    (hkind : kind.isTrivia = false) (hcomma : kind = .selection ∨ st.afterBlank = false) :
    ∃ p next, st.step file octave = .taken [p] next ∧ st.Touches kind more p next := by
  have hready : st.pastBlanks.mode = st.mode := pastBlanks_mode (.inr hmode) hlt
  have hcursor : st.pastBlanks.cursor = st.cursor := pastBlanks_cursor hrest hc
  have htakes : Takes octave st c cs kind more st.mode := by
    refine ⟨by rw [hcursor, hrest], ?_⟩
    rw [← hready]
    apply hdecide
    intro k hk
    exact Mode.noConfusion (hmode.symm.trans (hready.symm.trans hk))
  have halone : ((st.decided st.mode).take file kind more).comma = none := by
    obtain rfl | htouching := hcomma
    · exact comma_selection more
    · exact comma_of_touching ((pastBlanks_touching hrest hc).trans htouching) kind more
  have hstep := htakes.step file
  rw [commas, halone, hrest, List.takeWhile_cons_of_neg (by simp [hc])] at hstep
  refine ⟨_, _, hstep, ⟨rfl, rfl, rfl, ?_, ?_, ?_⟩⟩
  · rw [take_next_cursor, decided_cursor, hcursor]
  · cases kind with
    | continuation => cases hkind
    | _ => rfl
  · change ((st.decided st.mode).previousAfter kind _).any (·.kind == .selection) = _
    rw [previousAfter, hkind]
    rfl

theorem Announces.part (h : st.Announces headEnd command)
    (hchain : Command.chain st.cursor.rest ≠ 0) (file : String) (octave : Bool) :
    ∃ dot mid name next, st.step file octave = .taken [dot] mid ∧ mid.mode = st.mode ∧
      mid.step file octave = .taken [name] next ∧
      (dot.gap = [] ∧ dot.token.kind = .selection) ∧
      (name.gap = [] ∧ name.token.kind = .identifier) ∧ next.Announces headEnd command ∧
      Command.chain next.cursor.rest < Command.chain st.cursor.rest := by
  obtain ⟨d, ds, hrest, hd, hlength⟩ := chain_part hchain
  rw [chainFrom_true] at hlength
  have hle := Command.chain_le st.cursor.rest
  have hwithin : ∀ n < Command.chain st.cursor.rest, (st.cursor.skip n).offset < headEnd := by
    intro n hn
    rw [h.headEnd]
    exact st.cursor.offset_skip_lt hn hle
  obtain ⟨dot, mid, hdot, hmid⟩ := step_touching file octave h.mode (hwithin 0 (by omega)) hrest
    (by decide) (fun hplain => decide_dot hplain hd ds) rfl (.inl rfl)
  have hrest' : mid.cursor.rest = d :: ds := by
    rw [hmid.cursor, Cursor.rest_skip, hrest, List.drop_succ_cons, List.drop_zero]
  obtain ⟨name, next, hname, hnext⟩ := step_touching file octave (hmid.mode.trans h.mode)
    (by rw [hmid.cursor]; exact hwithin 1 (by omega)) hrest' (not_isBlank hd)
    (fun hplain => decide_name hplain hmid.dotted hd ds) rfl (.inr hmid.touching)
  have hcursor : next.cursor = st.cursor.skip (2 + run isNameChar ds) := by
    rw [hnext.cursor, hmid.cursor, Cursor.skip_skip]
    congr 1
    omega
  have hahead : next.cursor.rest = ds.drop (run isNameChar ds) := by
    rw [hcursor, Cursor.rest_skip, hrest, Nat.add_comm, List.drop_succ_cons, List.drop_succ_cons]
  refine ⟨dot, mid, name, next, hdot, hmid.mode, hname, ⟨hmid.gap, hmid.kind_eq⟩,
    ⟨hnext.gap, hnext.kind_eq⟩, ⟨?_, ?_, ?_⟩, ?_⟩
  · rw [hnext.mode, hmid.mode, h.mode]
  · rw [hahead, hcursor, Cursor.skip_skip, h.headEnd, hlength, Nat.add_assoc]
  · have hfollows := h.follows
    rwa [hlength, ← Nat.add_assoc, ← List.drop_drop, ← Cursor.rest_skip, ← hcursor, ← hahead]
      at hfollows
  · rw [hahead]
    omega

/-- Reading comes to the end of the head that is announced. -/
theorem Announces.exists_readsHead (h : st.Announces headEnd command) (file : String)
    (octave : Bool) :
    ∃ parts last, ReadsHead file octave (.commandAfter headEnd command) st parts last ∧
      Dotted parts ∧ last.Announces headEnd command ∧ Command.chain last.cursor.rest = 0 ∧
      (Command.chain st.cursor.rest ≠ 0 → parts ≠ []) := by
  induction hn : Command.chain st.cursor.rest using Nat.strong_induction_on generalizing st with
  | _ n ih =>
    by_cases hchain : Command.chain st.cursor.rest = 0
    · exact ⟨[], st, .done h.mode, trivial, h, hchain, fun hne => absurd hchain (hn ▸ hne)⟩
    · obtain ⟨dot, mid, name, next, hdot, hmid, hname, hdotKind, hnameKind, hnext, hlt⟩ :=
        h.part hchain file octave
      obtain ⟨parts, last, hreads, hdotted, hlast, hend, -⟩ := ih _ (hn ▸ hlt) hnext rfl
      refine ⟨dot :: name :: parts, last, ?_, ⟨hdotKind, hnameKind, hdotted⟩, hlast, hend,
        fun _ => List.cons_ne_nil _ _⟩
      exact .part h.mode hdot (hmid.trans h.mode) hname hreads

theorem Announces.arrives (h : st.Announces headEnd command)
    (hchain : Command.chain st.cursor.rest = 0) :
    st.cursor.offset = headEnd ∧ st.pastBlanks.mode = .command command ∧
      ∃ c cs, st.pastBlanks.cursor.rest = c :: cs ∧ ∀ octave,
        st.pastBlanks.decide octave c cs = st.pastBlanks.decideCommand command c cs := by
  have hoffset : st.cursor.offset = headEnd := by rw [h.headEnd, hchain, Cursor.skip]
  have hmode : st.pastBlanks.mode = .command command := by
    change st.mode.reached st.cursor.offset = _
    rw [h.mode, Mode.reached, if_pos hoffset]
  refine ⟨hoffset, hmode, ?_⟩
  have hfollows := h.follows
  rw [hchain, List.drop_zero, Command.follows, ← pastBlanks_rest] at hfollows
  cases hrest : st.pastBlanks.cursor.rest with
  | nil => simp [hrest] at hfollows
  | cons c cs =>
    have hstop : Command.isStop c = false := by
      by_contra hstop
      simp [hrest, hstop] at hfollows
    refine ⟨c, cs, rfl, fun octave => ?_⟩
    rw [decide, hmode]
    simp [hstop]

theorem Takes.announces (h : Takes octave st c cs kind more mode)
    (hmode : mode = .commandAfter headEnd command) (hnew : st.pastBlanks.mode ≠ mode)
    (file : String) :
    ((st.decided mode).take file kind more).next.Announces headEnd command ∧
      Command.chain ((st.decided mode).take file kind more).next.cursor.rest ≠ 0 := by
  obtain ⟨hsame, -⟩ | hnormal | ⟨rfl, -, -, hname⟩ := decide_mode h.decides
  · exact absurd hsame.symm hnew
  · exact Mode.noConfusion (hmode.symm.trans hnormal)
  have hrest := h.rest file
  rw [modeAfterName] at hname
  split at hname
  · dsimp only at hname
    split at hname
    · rename_i hfollows
      split at hname
      · exact Mode.noConfusion (hmode.symm.trans hname)
      · rename_i hchain
        rw [hmode] at hname
        cases hname
        refine ⟨⟨hmode, ?_, by rwa [hrest]⟩, by rwa [hrest]⟩
        rw [hrest, take_next_cursor, decided_cursor, Cursor.skip_skip]
    · exact absurd hname.symm hnew
  · exact absurd hname.symm hnew

end MFile.Lexing.State

namespace MFile.Scan

open Lexing State

variable {source : SourceText} {settings : Settings} {pieces taken : List Piece}
  {st next : Lexing.State} {headEnd : Nat} {command : CommandKind}

/-- Once a step has announced a command, reading goes on with the parts of its head and nothing
else, ends the last of them where the head was measured to end, and reads words from there. -/
theorem announced_heads_end
    (hreads : Reads source.name settings.octave (ofText source.text) pieces st)
    (hstep : st.step source.name settings.octave = .taken taken next)
    (hplan : next.mode = .commandAfter headEnd command) (hnew : st.pastBlanks.mode ≠ next.mode) :
    ∃ parts later last,
      (ofSource source settings).pieces = pieces ++ taken ++ parts ++ later ∧
      Dotted parts ∧
      ReadsHead source.name settings.octave (.commandAfter headEnd command) next parts last ∧
      (∃ p ∈ parts.getLast?, p.token.span.stop = headEnd) ∧
      last.pastBlanks.mode = .command command ∧
      ∃ c cs, last.pastBlanks.cursor.rest = c :: cs ∧
        last.pastBlanks.decide settings.octave c cs =
          last.pastBlanks.decideCommand command c cs := by
  obtain ⟨c, cs, kind, more, mode, htakes, -, rfl⟩ := takes_of_step hstep
  obtain ⟨hannounces, hchain⟩ := htakes.announces hplan hnew source.name
  obtain ⟨parts, last, hhead, hdotted, hlast, hend, hne⟩ :=
    hannounces.exists_readsHead source.name settings.octave
  have hreached := hhead.reads (hreads.step hstep)
  obtain ⟨hoffset, hmode, c', cs', hrest, hdecide⟩ := hlast.arrives hend
  refine ⟨parts, _, last, (reads_pieces hreached).1, hdotted, hhead, ?_, hmode, c', cs', hrest,
    hdecide settings.octave⟩
  have hlastPart := List.getLast?_eq_some_getLast (hne hchain)
  refine ⟨_, hlastPart, ?_⟩
  rw [hreached.ends _ _ (by simp [hne hchain]), hoffset]
  rw [List.getLast?_append, hlastPart]
  rfl

/-- The first step reads `a` and announces the words behind `a.b.c`. -/
def dottedCommand : SourceText := .ofString "t.m" "a.b.c on\n" {}

theorem announced_heads_end_dottedCommand : ∃ taken next,
    (ofText dottedCommand.text).step "t.m" false = .taken taken next ∧
    next.mode = .commandAfter 5 .words ∧ (ofText dottedCommand.text).pastBlanks.mode = .normal ∧
    ∃ parts later, (ofSource dottedCommand {}).pieces = taken ++ parts ++ later ∧ Dotted parts ∧
      ∃ p ∈ parts.getLast?, p.token.span.stop = 5 := by
  have hfirst : ∃ taken next, (ofText dottedCommand.text).step "t.m" false = .taken taken next ∧
      next.mode = .commandAfter 5 .words := ⟨_, _, rfl, by decide +kernel⟩
  obtain ⟨taken, next, hstep, hplan⟩ := hfirst
  have hstart : Reads dottedCommand.name ({} : Settings).octave (ofText dottedCommand.text) [] _ :=
    .start
  obtain ⟨parts, later, last, hpieces, hdotted, -, hend, -⟩ :=
    announced_heads_end hstart hstep hplan (by rw [hplan]; exact Mode.noConfusion)
  exact ⟨taken, next, hstep, hplan, rfl, parts, later, hpieces, hdotted, hend⟩

example : ((ofSource dottedCommand {}).pieces.map fun p => (p.token.kind, p.token.raw)) =
    [(.identifier, "a"), (.selection, "."), (.identifier, "b"), (.selection, "."),
      (.identifier, "c"), (.charArray, "on"), (.newline, "\n")] := by
  decide +kernel

end MFile.Scan
