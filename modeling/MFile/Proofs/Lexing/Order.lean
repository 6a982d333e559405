import MFile.Grammar.State
import MFile.Proofs.Location
import MFile.Proofs.Lexing.Step
import MFile.Proofs.Text.Lookups

/-!
The tokens of a text stand one behind the other: the location of each begins no earlier than that of
the token in front of it ends. Beginnings and ends are compared by line and then by column.
-/

namespace MFile

open Text

/-- The tokens are ranges of the file, and none begins before the one in front of it has ended. -/
structure Successive (file : String) (tokens : List Token) : Prop where
  ranges : ∀ t ∈ tokens, t.location.IsRange file
  sorted : tokens.Pairwise fun t u => t.location.ends ≤ u.location.begins

theorem Successive.sublist {file : String} {tokens tokens' : List Token}
    (h : Successive file tokens) (hsub : tokens'.Sublist tokens) : Successive file tokens' :=
  ⟨fun t ht => h.ranges t (hsub.subset ht), h.sorted.sublist hsub⟩

namespace Lexing.CurrentLine

variable {behind rest : List Char} (file : String)

theorem begins_located (text : List Char) :
    (located file behind rest text).begins = toLex (position behind) := rfl

theorem ends_located_le (text : List Char) :
    (located file behind rest text).ends ≤ toLex (position (behind ++ text)) := by
  have hline : '\n' ∉ text.takeWhile (· ≠ '\n') := fun hmem => by
    simpa using List.mem_takeWhile_imp hmem
  have hfirst := position_append_of_notMem (a := behind) hline
  have hwhole : position (behind ++ text) =
      position (behind ++ text.takeWhile (· ≠ '\n') ++ text.dropWhile (· ≠ '\n')) := by
    rw [List.append_assoc, List.takeWhile_append_dropWhile]
  rw [hwhole]
  refine le_trans ?_ (position_le_append _ _)
  rw [hfirst]
  refine Prod.Lex.toLex_le_toLex.2 (.inr ⟨rfl, ?_⟩)
  change (position behind).2 + max (run (· ≠ '\n') text) 1 - 1 ≤
    (position behind).2 + run (· ≠ '\n') text
  omega

end Lexing.CurrentLine

namespace Scan

open Lexing

theorem successive_step {st next : State} {file : String} {octave : Bool} {pieces : List Piece}
    {behind : List Char} (hst : st.Follows behind) (h : st.step file octave = .taken pieces next) :
    ∃ more, next.Follows (behind ++ more) ∧ Successive file (pieces.map (·.token)) ∧
      ∀ p ∈ pieces, toLex (position behind) ≤ p.token.location.begins ∧
        p.token.location.ends ≤ toLex (position (behind ++ more)) := by
  obtain ⟨c, cs, kind, more, mode, -, -, rfl, rfl⟩ := State.step_taken h
  have hready := hst.pastBlanks
  generalize hgap : st.cursor.rest.takeWhile isBlank = gap at hready
  have hdecided : (st.decided mode).Follows (behind ++ gap) := ⟨hready.offset_eq, hready.tracks⟩
  have hbegin : toLex (position behind) ≤ toLex (position (behind ++ gap)) :=
    position_le_append behind gap
  have hnext := hdecided.take file kind more
  refine ⟨gap ++ (st.decided mode).cursor.rest.take (more + 1), ?_, ?_⟩
  · rwa [← List.append_assoc]
  rw [← List.append_assoc]
  have hstop := position_le_append (behind ++ gap) ((st.decided mode).cursor.rest.take (more + 1))
  have hlocation := hdecided.token_location file kind more
  have hrange : ((st.decided mode).take file kind more).token.location.IsRange file := .ofSpan ..
  have hbegins : ((st.decided mode).take file kind more).token.location.begins =
      toLex (position (behind ++ gap)) := by
    rw [hlocation, CurrentLine.begins_located]
  have hend : ((st.decided mode).take file kind more).token.location.ends ≤
      toLex (position (behind ++ gap ++ (st.decided mode).cursor.rest.take (more + 1))) := by
    rw [hlocation]
    exact CurrentLine.ends_located_le file _
  cases hfound : ((st.decided mode).take file kind more).comma with
  | none =>
    exact ⟨⟨List.forall_mem_singleton.2 hrange, List.pairwise_singleton _ _⟩,
      List.forall_mem_singleton.2 ⟨hbegin.trans_eq hbegins.symm, hend⟩⟩
  | some t =>
    have hcomma := hdecided.comma_location hfound
    have hends : t.location.ends ≤ toLex (position (behind ++ gap ++ [])) := by
      rw [hcomma]
      exact CurrentLine.ends_located_le file []
    rw [List.append_nil] at hends
    refine ⟨⟨List.forall_mem_cons.2 ⟨?_, List.forall_mem_singleton.2 hrange⟩,
      List.pairwise_pair.2 (hends.trans_eq hbegins.symm)⟩, List.forall_mem_cons.2 ⟨⟨?_, ?_⟩,
        List.forall_mem_singleton.2 ⟨hbegin.trans_eq hbegins.symm, hend⟩⟩⟩
    · rw [hcomma]
      exact .ofSpan ..
    · rw [hcomma, CurrentLine.begins_located]
      exact hbegin
    · exact hends.trans hstop

theorem ofState_successive (st : State) (file : String) (octave : Bool) {behind : List Char}
    (hst : st.Follows behind) : Successive file (ofState file octave st).tokens ∧
      ∀ t ∈ (ofState file octave st).tokens, toLex (position behind) ≤ t.location.begins := by
  revert behind
  apply ofState_rec (motive := fun st scan => ∀ {behind}, st.Follows behind →
    Successive file scan.tokens ∧
      ∀ t ∈ scan.tokens, toLex (position behind) ≤ t.location.begins)
  case finished => exact fun _ _ _ _ => ⟨⟨List.forall_mem_nil _, .nil⟩, List.forall_mem_nil _⟩
  case failed => exact fun _ _ _ _ _ => ⟨⟨List.forall_mem_nil _, .nil⟩, List.forall_mem_nil _⟩
  case taken =>
    intro st pieces next later h ih behind hst
    obtain ⟨more, hnext, hpieces, hwithin⟩ := successive_step hst h
    obtain ⟨hlater, hbehind⟩ := ih hnext
    have hfirst : ∀ p ∈ pieces, ∀ t ∈ later.tokens, p.token.location.ends ≤ t.location.begins :=
      fun p hp t ht => (hwithin p hp).2.trans (hbehind t ht)
    have hmoved := position_le_append behind more
    have htokens : Scan.tokens { later with pieces := pieces ++ later.pieces } =
        pieces.map (·.token) ++ later.tokens := List.map_append
    rw [htokens]
    refine ⟨⟨List.forall_mem_append.2 ⟨hpieces.ranges, hlater.ranges⟩,
      List.pairwise_append.2 ⟨hpieces.sorted, hlater.sorted, ?_⟩⟩,
      List.forall_mem_append.2 ⟨?_, fun t ht => hmoved.trans (hbehind t ht)⟩⟩
    · exact List.forall_mem_map.2 hfirst
    · exact List.forall_mem_map.2 fun p hp => (hwithin p hp).1

theorem ofSource_successive (source : SourceText) (settings : Settings) :
    Successive source.name (ofSource source settings).tokens :=
  (ofState_successive _ _ _ (State.follows_ofText source.text)).1

end Scan

namespace Grammar

theorem significant_sublist (b : Bool) (tokens : List Token) :
    (significant b tokens).Sublist tokens := by
  induction tokens generalizing b with
  | nil => exact .refl _
  | cons t tokens ih =>
    rw [significant]
    split
    · exact (ih _).cons _
    split
    · exact (ih _).cons _
    · exact (ih _).cons_cons _

end Grammar

end MFile
