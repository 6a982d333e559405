import MFile.Proofs.Lexing.Continuations.Heads
import MFile.Proofs.Lexing.Shifted

/-!
Pieces that have been read, as far as they end at one that stands in the text. The first of them
comes from the first step, and if the rest of them goes on with a dotted name, so do the pieces.
-/

namespace MFile

open Lexing Text

namespace Lexing

def spelled (pieces : List Piece) : List Char :=
  (pieces.filter fun p => !p.token.anonymous).flatMap fun p => p.gap ++ p.token.raw.toList

def Dotted : List Piece → Prop
  | [] => True
  | [_] => False
  | dot :: name :: parts =>
    (dot.gap = [] ∧ dot.token.kind = .selection) ∧
      (name.gap = [] ∧ name.token.kind = .identifier) ∧ Dotted parts

instance decidableDotted : ∀ pieces, Decidable (Dotted pieces)
  | [] => inferInstanceAs (Decidable True)
  | [_] => inferInstanceAs (Decidable False)
  | dot :: name :: parts =>
    have := decidableDotted parts
    inferInstanceAs (Decidable ((dot.gap = [] ∧ dot.token.kind = .selection) ∧
      (name.gap = [] ∧ name.token.kind = .identifier) ∧ Dotted parts))

/-- The pieces, before which `depth` brackets are open, end with the first word of a statement or
with a dotted name that it begins. -/
def EndsHead : Nat → List Piece → Prop
  | _, [] => False
  | depth, p :: pieces =>
    (depth = 0 ∧ p.token.firstInStatement = true ∧
      (p.token.kind = .identifier ∨ p.token.kind = .keyword) ∧ Dotted pieces) ∨
    EndsHead (p.token.kind.nest depth) pieces

instance decidableEndsHead : ∀ depth pieces, Decidable (EndsHead depth pieces)
  | _, [] => inferInstanceAs (Decidable False)
  | depth, p :: pieces =>
    have := decidableEndsHead (p.token.kind.nest depth) pieces
    inferInstanceAs (Decidable ((depth = 0 ∧ p.token.firstInStatement = true ∧
      (p.token.kind = .identifier ∨ p.token.kind = .keyword) ∧ Dotted pieces) ∨
      EndsHead (p.token.kind.nest depth) pieces))

def EndsWritten (pieces : List Piece) : Prop := ∀ p ∈ pieces.getLast?, p.token.anonymous = false

variable {p : Piece} {pieces : List Piece}

theorem spelled_cons (hp : p.token.anonymous = false) (pieces : List Piece) :
    spelled (p :: pieces) = p.gap ++ p.token.raw.toList ++ spelled pieces := by
  rw [spelled, List.filter_cons_of_pos (by simp [hp]), List.flatMap_cons, spelled]

theorem spelled_commas {commas : List Piece} (h : ∀ p ∈ commas, p.token.anonymous = true)
    (pieces : List Piece) : spelled (commas ++ pieces) = spelled pieces := by
  rw [spelled, List.filter_append, List.filter_eq_nil_iff.2 (by simpa using h), List.nil_append,
    spelled]

theorem EndsWritten.later {earlier : List Piece} (h : EndsWritten (earlier ++ pieces)) :
    EndsWritten pieces := by
  intro q hq
  rw [EndsWritten, List.getLast?_append] at h
  exact h q (by rw [Option.mem_def.1 hq]; rfl)

theorem EndsWritten.mem_written (h : EndsWritten pieces) (hne : pieces ≠ []) :
    ∃ p ∈ pieces, p.token.anonymous = false :=
  ⟨_, List.getLast_mem hne, h _ (List.getLast?_eq_some_getLast hne)⟩

namespace State

variable {st next : State} {file : String} {octave : Bool} {c : Char} {cs : List Char} {kind : Kind}
  {more : Nat} {mode : Mode}

/-- The comma that nobody wrote before a token, as a piece of its own. -/
def commas (taken : Taken) : List Piece := taken.comma.toList.map (⟨[], ·⟩)

theorem anonymous_of_mem_commas {p : Piece} (h : p ∈ commas (st.take file kind more)) :
    p.token.anonymous = true := by
  obtain ⟨t, ht, rfl⟩ := List.mem_map.1 h
  exact (take_comma (Option.mem_toList.1 ht)).1

theorem step_of_decide (hrest : st.pastBlanks.cursor.rest = c :: cs)
    (hdecide : st.pastBlanks.decide octave c cs = .token kind more mode) :
    st.step file octave = .taken
      (commas ((st.decided mode).take file kind more) ++
        [⟨st.cursor.rest.takeWhile isBlank, ((st.decided mode).take file kind more).token⟩])
      ((st.decided mode).take file kind more).next := by
  rw [step]
  dsimp only
  rw [hrest]
  dsimp only
  rw [hdecide]
  rfl

theorem comma_of_touching (h : st.afterBlank = false) (kind : Kind) (more : Nat) :
    (st.take file kind more).comma = none := by
  simp [take, needsComma, h]

theorem comma_selection (more : Nat) : (st.take file .selection more).comma = none := by
  simp [take, needsComma, opensElement]

theorem comma_continuation (more : Nat) : (st.take file .continuation more).comma = none := by
  simp [take, needsComma, opensElement]

theorem pastBlanks_touching (hst : st.cursor.rest = c :: cs) (hc : isBlank c = false) :
    st.pastBlanks.afterBlank = st.afterBlank := by
  simp [pastBlanks, hst, run, List.takeWhile_cons_of_neg, hc]

theorem pastBlanks_mode {headEnd : Nat} {command : CommandKind}
    (hmode : st.mode = .normal ∨ st.mode = .commandAfter headEnd command)
    (hlt : st.cursor.offset < headEnd) : st.pastBlanks.mode = st.mode := by
  change st.mode.reached st.cursor.offset = _
  obtain h | h := hmode
  · rw [h]
    rfl
  · rw [h, Mode.reached, if_neg hlt.ne, if_neg hlt.not_gt]

end State

end Lexing

namespace Scan

open Lexing State

variable {file : String} {octave : Bool} {st : Lexing.State} {pieces later : List Piece} {c : Char}
  {cs : List Char} {kind : Kind} {more : Nat} {mode : Mode}

theorem pieces_cons (hne : pieces ≠ []) (hlast : EndsWritten pieces)
    (h : (ofState file octave st).pieces = pieces ++ later) :
    ∃ c cs kind more mode, st.pastBlanks.cursor.rest = c :: cs ∧
      st.pastBlanks.decide octave c cs = .token kind more mode ∧ ∃ others,
      pieces = commas ((st.decided mode).take file kind more) ++
        ⟨st.cursor.rest.takeWhile isBlank, ((st.decided mode).take file kind more).token⟩ ::
          others ∧
      EndsWritten others ∧
      (ofState file octave ((st.decided mode).take file kind more).next).pieces =
        others ++ later := by
  cases hstep : st.step file octave with
  | finished =>
    rw [ofState_finished hstep] at h
    exact absurd (List.append_eq_nil_iff.1 h.symm).1 hne
  | failed e =>
    rw [ofState_failed hstep] at h
    exact absurd (List.append_eq_nil_iff.1 h.symm).1 hne
  | taken taken next =>
    obtain ⟨c, cs, kind, more, mode, hrest, hdecide, rfl, rfl⟩ := step_taken hstep
    rw [ofState_taken hstep] at h
    refine ⟨c, cs, kind, more, mode, hrest, hdecide, ?_⟩
    suffices hsplit : ∃ others, pieces = commas ((st.decided mode).take file kind more) ++
        [⟨st.cursor.rest.takeWhile isBlank, ((st.decided mode).take file kind more).token⟩] ++
          others ∧
        (ofState file octave ((st.decided mode).take file kind more).next).pieces =
          others ++ later by
      obtain ⟨others, rfl, hlater⟩ := hsplit
      refine ⟨others, ?_, hlast.later, hlater⟩
      rw [List.append_assoc, List.singleton_append]
    obtain ⟨others, hpieces, hlater⟩ | ⟨others, hpieces, hlater⟩ := List.append_eq_append_iff.1 h
    · exact ⟨others, hpieces, hlater⟩
    cases others using List.reverseRecOn with
    | nil =>
      rw [List.append_nil] at hpieces
      exact ⟨[], by rw [List.append_nil]; exact hpieces.symm, hlater.symm⟩
    | append_singleton others last =>
      rw [← List.append_assoc] at hpieces
      have hcommas := (List.append_inj_left' hpieces rfl).symm
      obtain ⟨p, hp, hwritten⟩ := hlast.mem_written hne
      have hanonymous := anonymous_of_mem_commas (hcommas ▸ List.mem_append_left others hp)
      rw [hwritten] at hanonymous
      cases hanonymous

theorem pieces_eq_nil {w : List Char} (hw : w.dropWhile isBlank = [])
    (hspelled : spelled pieces = w)
    (hlast : EndsWritten pieces) (h : (ofState file octave st).pieces = pieces ++ later) :
    pieces = [] := by
  by_contra hne
  obtain ⟨c, cs, kind, more, mode, hrest, -, others, rfl, -, -⟩ := pieces_cons hne hlast h
  have hc : c ∈ w := by
    rw [← hspelled, spelled_commas fun p => anonymous_of_mem_commas, spelled_cons rfl,
      take_token_raw, decided_cursor, hrest, String.toList_ofList, List.take_succ_cons]
    simp
  have hblank := List.dropWhile_eq_nil_iff.1 hw c hc
  rw [pastBlanks_head hrest] at hblank
  cases hblank

theorem pieces_cons_touching (hst : st.cursor.rest = c :: cs) (hc : isBlank c = false)
    (hdecide : st.pastBlanks.decide octave c cs = .token kind more mode)
    (hcomma : ((st.decided mode).take file kind more).comma = none) (hne : pieces ≠ [])
    (hlast : EndsWritten pieces) (h : (ofState file octave st).pieces = pieces ++ later) :
    ∃ others, pieces = ⟨[], ((st.decided mode).take file kind more).token⟩ :: others ∧
      EndsWritten others ∧
      (ofState file octave ((st.decided mode).take file kind more).next).pieces =
        others ++ later := by
  obtain ⟨c', cs', kind', more', mode', hrest, hdecide', others, hpieces, hothers⟩ :=
    pieces_cons hne hlast h
  rw [pastBlanks_cursor hst hc, hst] at hrest
  cases hrest
  rw [hdecide] at hdecide'
  cases hdecide'
  rw [commas, hcomma, hst, List.takeWhile_cons_of_neg (by simp [hc])] at hpieces
  exact ⟨others, hpieces, hothers⟩

section Parts

variable {d : Char} {ds rest : List Char} {headEnd : Nat}

theorem not_command (hmode : st.mode = .normal ∨ st.mode = .commandAfter headEnd .words) :
    ∀ command, st.mode ≠ .command command := by
  intro command hcommand
  obtain h | h := hmode <;> rw [hcommand] at h <;> cases h

theorem pieces_dot (hst : st.cursor.rest = '.' :: d :: ds) (hd : d.isAlpha = true)
    (hmode : st.mode = .normal ∨ st.mode = .commandAfter headEnd .words)
    (hahead : st.cursor.offset < headEnd) (hspelled : spelled pieces = '.' :: d :: rest)
    (hlast : EndsWritten pieces) (h : (ofState file octave st).pieces = pieces ++ later) :
    ∃ dot names next, pieces = dot :: names ∧ (dot.gap = [] ∧ dot.token.kind = .selection) ∧
      EndsWritten names ∧ spelled names = d :: rest ∧ next.cursor = st.cursor.skip 1 ∧
      next.mode = st.mode ∧ next.afterBlank = false ∧ next.dotted = true ∧
      (ofState file octave next).pieces = names ++ later := by
  have hready := pastBlanks_mode hmode hahead
  have hdot : st.pastBlanks.decide octave '.' (d :: ds) = .token .selection 0 st.mode := by
    rw [← hready]
    exact decide_dot (by rw [hready]; exact not_command hmode) hd _
  have hne : pieces ≠ [] := by
    rintro rfl
    cases hspelled
  obtain ⟨names, rfl, hnames, hlater⟩ := pieces_cons_touching hst (by decide) hdot
    (comma_selection 0) hne hlast h
  rw [spelled_cons rfl, take_token_raw, decided_cursor, pastBlanks_cursor hst (by decide), hst,
    String.toList_ofList] at hspelled
  refine ⟨_, names, ((st.decided st.mode).take file .selection 0).next, rfl, ⟨rfl, rfl⟩, hnames,
    (List.cons.inj hspelled).2, ?_, rfl, rfl, rfl, hlater⟩
  rw [take_next_cursor, decided_cursor, pastBlanks_cursor hst (by decide)]

theorem pieces_name (hst : st.cursor.rest = d :: ds) (hd : d.isAlpha = true)
    (hmode : st.mode = .normal ∨ st.mode = .commandAfter headEnd .words)
    (hahead : st.cursor.offset < headEnd) (hblank : st.afterBlank = false)
    (hdotted : st.dotted = true) (hspelled : spelled pieces = d :: rest)
    (hlast : EndsWritten pieces) (h : (ofState file octave st).pieces = pieces ++ later) :
    ∃ name parts next, pieces = name :: parts ∧ (name.gap = [] ∧ name.token.kind = .identifier) ∧
      EndsWritten parts ∧ next.cursor = st.cursor.skip (run isNameChar ds + 1) ∧
      next.mode = st.mode ∧ (ofState file octave next).pieces = parts ++ later ∧
      d :: rest = d :: ds.take (run isNameChar ds) ++ spelled parts := by
  have hready := pastBlanks_mode hmode hahead
  have hname :
      st.pastBlanks.decide octave d ds = .token .identifier (run isNameChar ds) st.mode := by
    rw [← hready]
    refine decide_name (by rw [hready]; exact not_command hmode) ?_ hd ds
    exact hdotted
  have hne : pieces ≠ [] := by
    rintro rfl
    cases hspelled
  have hcomma : ((st.decided st.mode).take file .identifier (run isNameChar ds)).comma = none :=
    comma_of_touching ((pastBlanks_touching hst (not_isBlank hd)).trans hblank) _ _
  obtain ⟨parts, rfl, hparts, hlater⟩ := pieces_cons_touching hst (not_isBlank hd) hname hcomma hne
    hlast h
  rw [spelled_cons rfl, take_token_raw, decided_cursor, pastBlanks_cursor hst (not_isBlank hd), hst,
    String.toList_ofList] at hspelled
  refine ⟨_, parts, ((st.decided st.mode).take file .identifier (run isNameChar ds)).next, rfl,
    ⟨rfl, rfl⟩, hparts, ?_, rfl, hlater, hspelled.symm⟩
  rw [take_next_cursor, decided_cursor, pastBlanks_cursor hst (not_isBlank hd)]

theorem pieces_part (hst : st.cursor.rest = '.' :: d :: ds) (hd : d.isAlpha = true)
    (hmode : st.mode = .normal ∨ st.mode = .commandAfter headEnd .words)
    (hahead : (st.cursor.skip 1).offset < headEnd) (hspelled : spelled pieces = '.' :: d :: rest)
    (hlast : EndsWritten pieces) (h : (ofState file octave st).pieces = pieces ++ later) :
    ∃ dot name parts next, pieces = dot :: name :: parts ∧
      (dot.gap = [] ∧ dot.token.kind = .selection) ∧
      (name.gap = [] ∧ name.token.kind = .identifier) ∧ EndsWritten parts ∧
      next.cursor = st.cursor.skip (2 + run isNameChar ds) ∧ next.mode = st.mode ∧
      (ofState file octave next).pieces = parts ++ later ∧
      d :: rest = d :: ds.take (run isNameChar ds) ++ spelled parts := by
  obtain ⟨dot, names, mid, rfl, hdot, hnames, hspelled', hcursor, hmid, hblank, hdotted, hlater⟩ :=
    pieces_dot hst hd hmode ((Cursor.offset_next_lt hst).trans hahead) hspelled hlast h
  have hrest : mid.cursor.rest = d :: ds := by
    rw [hcursor, Cursor.rest_skip, hst]
    rfl
  obtain ⟨name, parts, next, rfl, hname, hparts, hcursor', hnext, hlater', hsplit⟩ :=
    pieces_name hrest hd (hmid ▸ hmode) (by rw [hcursor]; exact hahead) hblank hdotted hspelled'
      hnames hlater
  refine ⟨dot, name, parts, next, rfl, hdot, hname, hparts, ?_, hnext.trans hmid, hlater', hsplit⟩
  rw [hcursor', hcursor, Cursor.skip_skip]
  congr 1
  omega

end Parts

theorem dotted_of_chain {w rest : List Char} (hst : st.cursor.rest = w ++ ' ' :: rest)
    (hmode : st.mode = .normal ∨
      st.mode = .commandAfter (st.cursor.skip (Command.chain w)).offset .words ∨
      Command.chain w = 0)
    (hblank : ¬ PastChain w) (hspelled : spelled pieces = w) (hlast : EndsWritten pieces)
    (h : (ofState file octave st).pieces = pieces ++ later) : Dotted pieces := by
  induction hlength : w.length using Nat.strong_induction_on generalizing st w pieces with
  | _ length ih =>
    by_cases hchain : Command.chain w = 0
    · rw [PastChain, not_not, hchain, List.drop_zero] at hblank
      rw [pieces_eq_nil hblank hspelled hlast h]
      trivial
    have hle := Command.chain_le w
    obtain ⟨d, ds, rfl, hd, hpart⟩ := chain_part hchain
    have hrun : run isNameChar (ds ++ ' ' :: rest) = run isNameChar ds := run_cut rfl _ _
    have hfit : (ds ++ ' ' :: rest).take (run isNameChar ds) = ds.take (run isNameChar ds) :=
      List.take_append_of_le_length (run_le _ _)
    rw [chainFrom_true] at hpart
    have hahead : (st.cursor.skip 1).offset <
        (st.cursor.skip (Command.chain ('.' :: d :: ds))).offset := by
      refine Cursor.offset_skip_lt _ (by omega) ?_
      rw [hst, List.length_append]
      omega
    rw [List.cons_append, List.cons_append] at hst
    obtain ⟨dot, name, parts, next, rfl, hdot, hname, hparts, hcursor, hnext, hlater, hrest⟩ :=
      pieces_part hst hd (hmode.imp_right fun hmode => hmode.resolve_right hchain) hahead hspelled
        hlast h
    rw [hrun] at hcursor hrest
    rw [hfit] at hrest
    have hdrop : spelled parts = ds.drop (run isNameChar ds) := by
      refine (List.append_cancel_left
        ((List.take_append_drop (run isNameChar ds) ds).trans ?_)).symm
      exact (List.cons.inj hrest).2
    have hends : next.cursor.skip (Command.chain (ds.drop (run isNameChar ds))) =
        st.cursor.skip (Command.chain ('.' :: d :: ds)) := by
      rw [hcursor, Cursor.skip_skip, hpart, Nat.add_assoc]
    refine ⟨hdot, hname, ih _ ?_ ?_ ?_ ?_ hdrop hparts hlater rfl⟩
    · rw [← hlength, List.length_drop]
      simp only [List.length_cons]
      omega
    · rw [hcursor, Cursor.rest_skip, hst, Nat.add_comm 2, List.drop_succ_cons, List.drop_succ_cons,
        List.drop_append_of_le_length (run_le _ _)]
    · rw [hnext, hends]
      exact hmode.imp_right fun hmode => .inl (hmode.resolve_right hchain)
    · rw [PastChain, hpart, ← List.drop_drop, List.drop_succ_cons, List.drop_succ_cons,
        List.drop_zero, ← List.drop_drop] at hblank
      exact hblank

end Scan

end MFile
