import Mathlib.Data.List.Forall2
import MFile.Proofs.Lexing.LineEnds.Steps

/-!
Whole scans of a text with and without carriage returns before its line feeds. They give the same
tokens, up to what the grammar does not look at, and the same error up to its byte offsets.
-/

namespace MFile

open Lexing Text

/-- What the grammar sees of a token: neither where it lies in bytes nor how a separator is
written. -/
def Token.seen (t : Token) : Token where
  kind := t.kind
  raw := if t.isSeparator then "" else t.raw
  location := t.location
  span := ⟨0, 0⟩
  anonymous := t.anonymous

theorem Token.seen_eq {t t' : Token} (hkind : t'.kind = t.kind)
    (hraw : t.isSeparator = false → t'.raw = t.raw) (hlocation : t'.location = t.location)
    (hanonymous : t'.anonymous = t.anonymous) : t'.seen = t.seen := by
  have hsep : t'.isSeparator = t.isSeparator := congrArg Kind.isSeparator hkind
  rw [Token.seen, Token.seen, hkind, hlocation, hanonymous, hsep]
  cases h : t.isSeparator with
  | true => rfl
  | false => rw [hraw h]

structure Token.Agrees (t t' : Token) : Prop where
  kind : t'.kind = t.kind
  seen : t.kind.isTrivia = false → t'.seen = t.seen

def LexError.Agrees (e e' : LexError) : Prop := e' = { e with span := e'.span }

namespace Lexing

inductive Step.Alike : Step → Step → Prop
  | finished : Alike .finished .finished
  | failed {e e' : LexError} (h : e.Agrees e') : Alike (.failed e) (.failed e')
  | taken {pieces pieces' : List Piece} {next next' : State}
      (h : List.Forall₂ Token.Agrees (pieces.map (·.token)) (pieces'.map (·.token)))
      (hnext : next.Alike next') : Alike (.taken pieces next) (.taken pieces' next')

namespace State

variable {st st' : State} {file : String} {octave : Bool} {kind : Kind} {more more' : Nat}
  {mode mode' : Mode}

theorem Beside.pastBlanks {behind : List Char} (h : Beside behind st st')
    (hcursor : st.cursor.Alike st'.cursor) :
    Beside (behind ++ st.cursor.rest.takeWhile isBlank) st.pastBlanks st'.pastBlanks where
  plain := by
    rw [List.mem_append, not_or]
    exact ⟨h.plain, fun hmem => hcursor.plain ((List.takeWhile_prefix _).subset hmem)⟩
  follows := h.follows.pastBlanks
  follows' := by
    have hready := h.follows'.pastBlanks
    rwa [hcursor.rest, takeWhile_withReturns (by decide) (by decide),
      ← withReturns_eq_self (lineFeed_notMem_blanks _), ← withReturns_append] at hready

theorem alike_pastBlanks (h : Alike st st') : Alike st.pastBlanks st'.pastBlanks := by
  have hblanks : run isBlank st'.cursor.rest = run isBlank st.cursor.rest := by
    rw [h.cursor.rest, run_withReturns (by decide) (by decide)]
  have hstays : Stays st.cursor.rest (run isBlank st.cursor.rest) :=
    Stays.run (fun _ => not_break_of_class (by decide) (by decide)) _
  obtain ⟨hcursor, hmode⟩ := h.cursor.skip (.stays hstays)
  obtain ⟨behind, hlines⟩ := h.lines
  refine ⟨?_, ?_, ⟨_, hlines.pastBlanks h.cursor⟩, ?_⟩
  · rw [pastBlanks, pastBlanks, hblanks]
    exact congrArg (fun s : State => { s with
      cursor := st'.cursor.skip (run isBlank st.cursor.rest)
      afterBlank := s.afterBlank || 0 < run isBlank st.cursor.rest
      mode := st'.mode.reached st'.cursor.offset }) h.rest
  · rw [pastBlanks, pastBlanks, hblanks]
    exact hcursor
  · rw [pastBlanks, pastBlanks, hblanks]
    exact hmode _ _ (h.mode.reached h.cursor)

theorem alike_error (h : Alike st st') (fault : Fault) {skipped length : Nat}
    (hstays : Stays st.cursor.rest (skipped + length)) :
    (st.error file fault skipped length).Agrees (st'.error file fault skipped length) := by
  obtain ⟨behind, hlines⟩ := h.lines
  have hskipped := hstays.mono (Nat.le_add_right skipped length)
  obtain ⟨hstart, -⟩ := h.cursor.skip (.stays hskipped)
  have hlength : Stays (st.cursor.skip skipped).rest length := by
    intro c hc
    rw [Cursor.rest_skip] at hc
    refine hstays c ?_
    rw [List.take_add]
    exact List.mem_append_right _ hc
  have hpassed : st'.cursor.rest.take skipped = st.cursor.rest.take skipped := by
    rw [h.cursor.rest, hskipped.take_withReturns]
  have htext : (st'.cursor.skip skipped).rest.take length =
      (st.cursor.skip skipped).rest.take length := by
    rw [hstart.rest, hlength.take_withReturns]
  have hbehind : withReturns behind ++ st.cursor.rest.take skipped =
      withReturns (behind ++ st.cursor.rest.take skipped) := by
    rw [withReturns_append, withReturns_eq_self hskipped.lineFeed_notMem]
  have hplain : '\r' ∉ behind ++ st.cursor.rest.take skipped := by
    rw [List.mem_append, not_or]
    exact ⟨hlines.plain, fun hmem => h.cursor.plain (List.mem_of_mem_take hmem)⟩
  have hlocation : (st'.error file fault skipped length).location =
      (st.error file fault skipped length).location := by
    rw [hlines.follows.error_location file fault hskipped.lineFeed_notMem,
      hlines.follows'.error_location file fault (hpassed ▸ hskipped.lineFeed_notMem), hpassed,
      htext, hstart.rest, hbehind, located_withReturns hplain hstart.plain]
  simp only [error] at hlocation
  simp only [LexError.Agrees, error]
  rw [hlocation, htext]

/-! ## What is taken -/

theorem text_alike (h : st.cursor.Alike st'.cursor)
    (hpass : Passes st.cursor.rest (more + 1) (more' + 1))
    (htext : Stays st.cursor.rest (more + 1) ∨ kind.isTrivia = true ∨
      kind = .newline ∧ st.cursor.rest.head? = some '\n') :
    st'.cursor.rest.take (more' + 1) = st.cursor.rest.take (more + 1) ∨ kind.isTrivia = true ∨
      kind = .newline ∧ st.cursor.rest.head? = some '\n' := by
  refine htext.imp_left fun hs => ?_
  rw [h.rest, hpass.take, withReturns_eq_self hs.lineFeed_notMem]

theorem after_alike (h : Alike st st') {raw raw' : String} (after : List Char)
    (hraw : raw' = raw ∨ kind.isTrivia = true ∨ kind = .newline) :
    st'.needsComma kind raw' (withReturns after) = st.needsComma kind raw after ∧
      st'.firstInStatementAfter kind raw' = st.firstInStatementAfter kind raw ∧
      st'.previousAfter kind raw' = st.previousAfter kind raw ∧
      st'.blocksAfter kind raw' = st.blocksAfter kind raw := by
  have hcomma := h.same (fun s => s.needsComma kind raw' (withReturns after)) fun _ _ _ => rfl
  have hfirst := h.same (fun s => s.firstInStatementAfter kind raw') fun _ _ _ => rfl
  have hprevious := h.same (fun s => s.previousAfter kind raw') fun _ _ _ => rfl
  have hblocks := h.same (fun s => s.blocksAfter kind raw') fun _ _ _ => rfl
  rw [hcomma, hfirst, hprevious, hblocks]
  obtain rfl | hkind := hraw
  · have hopens : opensElement kind raw' (withReturns after) = opensElement kind raw' after := by
      rw [opensElement.eq_def, opensElement.eq_def, startsWithAny_withReturns (by decide)]
    exact ⟨by rw [needsComma, needsComma, hopens], rfl, rfl, rfl⟩
  · cases kind <;> first | exact ⟨rfl, rfl, rfl, rfl⟩ | exact absurd hkind (by decide)

/-- The location of a token is the same: at a line break one column, with and without a return. -/
theorem token_location_alike {behind : List Char} (h : Alike st st') (hlines : Beside behind st st')
    (file : String) (hpass : Passes st.cursor.rest (more + 1) (more' + 1))
    (htext : st'.cursor.rest.take (more' + 1) = st.cursor.rest.take (more + 1) ∨
      st.cursor.rest.head? = some '\n') :
    (st'.take file kind more').token.location = (st.take file kind more).token.location := by
  rw [hlines.follows.token_location, hlines.follows'.token_location, h.cursor.rest,
    located_withReturns hlines.plain h.cursor.plain]
  obtain htext | hhead := htext
  · rw [← h.cursor.rest, htext]
  · obtain ⟨cs, hrest⟩ := List.head?_eq_some_iff.1 hhead
    rw [hpass.take, hrest, List.take_succ_cons, withReturns_break]
    rfl

theorem comma_location_alike {behind : List Char} {t t' : Token} (h : Alike st st')
    (hlines : Beside behind st st') (ht : (st.take file kind more).comma = some t)
    (ht' : (st'.take file kind more').comma = some t') : t'.location = t.location := by
  rw [hlines.follows.comma_location ht, hlines.follows'.comma_location ht', h.cursor.rest,
    located_withReturns hlines.plain h.cursor.plain]

theorem Beside.take {behind : List Char} (h : Beside behind st st')
    (hcursor : st.cursor.Alike st'.cursor) (file : String) (kind : Kind)
    (hpass : Passes st.cursor.rest (more + 1) (more' + 1)) :
    Beside (behind ++ st.cursor.rest.take (more + 1)) (st.take file kind more).next
      (st'.take file kind more').next where
  plain := by
    rw [List.mem_append, not_or]
    exact ⟨h.plain, fun hmem => hcursor.plain (List.mem_of_mem_take hmem)⟩
  follows := h.follows.take file kind more
  follows' := by
    have hnext := h.follows'.take file kind more'
    rwa [hcursor.rest, hpass.take, ← withReturns_append] at hnext

theorem alike_comma {behind : List Char} (h : Alike st st') (hlines : Beside behind st st')
    (hneeds : (st'.take file kind more').comma.isSome = (st.take file kind more).comma.isSome) :
    List.Forall₂ Token.Agrees (st.take file kind more).comma.toList
      (st'.take file kind more').comma.toList := by
  cases hcomma : (st.take file kind more).comma with
  | none =>
    rw [hcomma, Option.isSome_none, Option.isSome_eq_false_iff, Option.isNone_iff_eq_none] at hneeds
    rw [hneeds]
    exact .nil
  | some t =>
    rw [hcomma, Option.isSome_some] at hneeds
    obtain ⟨t', hcomma'⟩ := Option.isSome_iff_exists.1 hneeds
    rw [hcomma']
    obtain ⟨hanonymous, hkind, hraw, -⟩ := take_comma hcomma
    obtain ⟨hanonymous', hkind', hraw', -⟩ := take_comma hcomma'
    exact .cons ⟨hkind'.trans hkind.symm, fun _ => Token.seen_eq (hkind'.trans hkind.symm)
      (fun _ => hraw'.trans hraw.symm) (comma_location_alike h hlines hcomma hcomma')
      (hanonymous'.trans hanonymous.symm)⟩ .nil

theorem alike_take (file : String) (h : Alike st st')
    (hpass : Passes st.cursor.rest (more + 1) (more' + 1))
    (htext : Stays st.cursor.rest (more + 1) ∨ kind.isTrivia = true ∨
      kind = .newline ∧ st.cursor.rest.head? = some '\n') :
    List.Forall₂ Token.Agrees
        ((st.take file kind more).comma.toList ++ [(st.take file kind more).token])
        ((st'.take file kind more').comma.toList ++ [(st'.take file kind more').token]) ∧
      Alike (st.take file kind more).next (st'.take file kind more').next := by
  have htext := text_alike h.cursor hpass htext
  obtain ⟨behind, hlines⟩ := h.lines
  obtain ⟨hstop, hmode⟩ := h.cursor.skip hpass
  have hraw := htext.imp (congrArg String.ofList) (Or.imp_right And.left)
  obtain ⟨hcomma, hfirst, hprevious, hblocks⟩ :=
    after_alike h (st.cursor.skip (more + 1)).rest hraw
  rw [← hstop.rest] at hcomma
  refine ⟨?_, ?_, hstop, ⟨_, hlines.take h.cursor file kind hpass⟩, hmode _ _ h.mode⟩
  · refine List.rel_append (alike_comma h hlines ?_) (.cons ⟨rfl, fun htrivia => ?_⟩ .nil)
    · simp only [take, hcomma]
      split <;> rfl
    · rw [take_token_kind] at htrivia
      refine Token.seen_eq rfl (fun hsep => ?_) ?_ rfl
      · rw [take_token_raw, take_token_raw]
        refine hraw.resolve_right fun hkind => hkind.elim (fun h => ?_) fun h => ?_
        · exact absurd (htrivia.symm.trans h) (by decide)
        · rw [Token.isSeparator, take_token_kind, h] at hsep
          cases hsep
      · exact token_location_alike h hlines file hpass (htext.imp_right fun hkind =>
          (hkind.resolve_left (by rw [htrivia]; decide)).2)
  · have hbreak : (st'.cursor.rest.take (more' + 1)).contains '\n' =
        (st.cursor.rest.take (more + 1)).contains '\n' := by
      rw [Bool.eq_iff_iff, List.contains_iff_mem, List.contains_iff_mem, h.cursor.rest, hpass.take,
        mem_withReturns (by decide)]
    have hbrackets : st'.bracketsAfter kind = st.bracketsAfter kind :=
      h.same (fun s => s.bracketsAfter kind) fun _ _ _ => rfl
    simp only [take, hbreak, hfirst, hprevious, hblocks, hbrackets]

theorem alike_step (file : String) (octave : Bool) (h : Alike st st') :
    Step.Alike (st.step file octave) (st'.step file octave) := by
  have hready := alike_pastBlanks h
  rw [step, step]
  cases hrest : st.pastBlanks.cursor.rest with
  | nil =>
    have hrest' : st'.pastBlanks.cursor.rest = [] := by
      rw [hready.cursor.rest, hrest, withReturns_nil]
    rw [hrest']
    exact .finished
  | cons c cs =>
    obtain ⟨c', cs', hrest', hdecide⟩ := alike_decide octave hready hrest
    rw [hrest']
    dsimp only
    generalize st.pastBlanks.decide octave c cs = decision at hdecide
    generalize st'.pastBlanks.decide octave c' cs' = decision' at hdecide
    cases hdecide with
    | fault fault hstays => exact .failed (alike_error hready fault hstays)
    | @token kind more more' mode mode' hpass htext hmode =>
      obtain ⟨htokens, hnext⟩ := alike_take file (hready.moded hmode) hpass htext
      have hmap : ∀ (comma : Option Token) (gap : List Char) (t : Token),
          (comma.toList.map (Piece.mk [] ·) ++ [Piece.mk gap t]).map Piece.token =
            comma.toList ++ [t] := by
        intro comma gap t
        cases comma <;> rfl
      refine .taken ?_ hnext
      rw [hmap, hmap]
      exact htokens

end State

end Lexing

namespace Scan

variable {file : String} {octave : Bool} {st st' next : Lexing.State}

theorem ofState_finished (h : st.step file octave = .finished) :
    ofState file octave st = ⟨[], none, st.cursor.rest⟩ := by
  rw [ofState]
  split <;> simp_all

theorem ofState_failed {e : LexError} (h : st.step file octave = .failed e) :
    ofState file octave st = ⟨[], some e, st.cursor.rest⟩ := by
  rw [ofState]
  split <;> simp_all

theorem ofState_taken {pieces : List Piece} (h : st.step file octave = .taken pieces next) :
    ofState file octave st =
      { ofState file octave next with pieces := pieces ++ (ofState file octave next).pieces } := by
  rw [ofState]
  split <;> simp_all

/-- The same tokens, up to what the grammar does not look at, and the same fault or none. -/
structure Alike (scan scan' : Scan) : Prop where
  tokens : List.Forall₂ Token.Agrees scan.tokens scan'.tokens
  failure : Option.Rel LexError.Agrees scan.failure scan'.failure

theorem alike_ofState (st : Lexing.State) : ∀ st', st.Alike st' →
    Alike (ofState file octave st) (ofState file octave st') := by
  apply ofState_rec (motive := fun st scan => ∀ st', st.Alike st' →
    Alike scan (ofState file octave st'))
  case finished =>
    intro st hstep st' h
    have halike := State.alike_step file octave h
    rw [hstep] at halike
    cases hstep' : st'.step file octave with
    | finished =>
      rw [ofState_finished hstep']
      exact ⟨.nil, .none⟩
    | failed | taken =>
      rw [hstep'] at halike
      cases halike
  case failed =>
    intro st e hstep st' h
    have halike := State.alike_step file octave h
    rw [hstep] at halike
    cases hstep' : st'.step file octave with
    | failed e' =>
      rw [hstep'] at halike
      cases halike with
      | failed he =>
        rw [ofState_failed hstep']
        exact ⟨.nil, .some he⟩
    | finished | taken =>
      rw [hstep'] at halike
      cases halike
  case taken =>
    intro st pieces next later hstep ih st' h
    have halike := State.alike_step file octave h
    rw [hstep] at halike
    cases hstep' : st'.step file octave with
    | taken pieces' next' =>
      rw [hstep'] at halike
      cases halike with
      | taken hpieces hnext =>
        obtain ⟨htokens, hfailure⟩ := ih next' hnext
        rw [ofState_taken hstep']
        refine ⟨?_, hfailure⟩
        rw [tokens, tokens, List.map_append, List.map_append]
        exact List.rel_append hpieces htokens
    | finished | failed =>
      rw [hstep'] at halike
      cases halike

end Scan

end MFile
