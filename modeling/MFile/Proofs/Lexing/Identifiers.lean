import MFile.Proofs.Lexing.Step

/-! A token is an identifier only if it begins with a letter. -/

namespace MFile

namespace Lexing

variable {c : Char} {cs : List Char} {kind : Kind} {more : Nat} {mode : Mode} {octave : Bool}

theorem Lexeme.mark?_identifier : mark? c ≠ some .identifier := by
  intro h
  unfold mark? at h
  split at h <;> cases h

theorem Lexeme.symbol?_word {lexeme : Lexeme} (h : symbol? c cs = some lexeme) :
    ∃ kind more, lexeme = symbol kind more ∧ kind ≠ .identifier := by
  rw [symbol?] at h
  split at h
  · cases h
    exact ⟨_, _, rfl, by decide⟩
  · obtain ⟨kind, hkind, rfl⟩ := Option.map_eq_some_iff.1 h
    exact ⟨_, _, rfl, fun hk => mark?_identifier (hk ▸ hkind)⟩

def Lexeme.Begins (c : Char) : Lexeme → Prop
  | word _ => c.isAlpha = true
  | symbol kind _ => kind ≠ .identifier
  | _ => True

theorem Lexeme.begins_ofChars? {lexeme : Lexeme} (h : ofChars? c cs = some lexeme) :
    lexeme.Begins c := by
  cases reading_ofChars? h with
  | word _ hc => exact hc
  | symbol _ h =>
    obtain ⟨kind, more, rfl, hkind⟩ := symbol?_word h
    exact hkind
  | _ => trivial

namespace State

variable {st : State}

theorem ofExtent_kind {k : Kind} {extent : Extent}
    (h : Decision.ofExtent k mode extent = .token kind more mode') : kind = k := by
  cases extent <;> cases h
  rfl

theorem decidePlain_identifier (h : st.decidePlain octave c cs = .token .identifier more mode) :
    c.isAlpha = true := by
  rw [decidePlain] at h
  cases hlexeme : Lexeme.ofChars? c cs with
  | none =>
    rw [hlexeme] at h
    cases h
  | some lexeme =>
    have hbegins := Lexeme.begins_ofChars? hlexeme
    rw [hlexeme] at h
    cases lexeme with
    | word => exact hbegins
    | symbol kind more =>
      cases h
      exact absurd rfl hbegins
    | newline | continuation => cases h
    | comment =>
      simp only [decideComment] at h
      repeat' split at h
      all_goals cases h
    | number | text => exact nomatch ofExtent_kind h
    | quote =>
      simp only [decideQuote] at h
      split at h
      · cases h
      · cases h
      · exact nomatch ofExtent_kind h
    | bang =>
      simp only [decideBang] at h
      repeat' split at h
      all_goals cases h

theorem decideCommand_identifier {k : CommandKind} :
    st.decideCommand k c cs ≠ .token .identifier more mode := by
  intro h
  simp only [decideCommand] at h
  split at h
  · cases k <;> cases h
  · cases htext : Command.text k false (c :: cs) with
    | error length => cases k <;> simp [htext] at h
    | ok length =>
      cases k with
      | words => simp [htext] at h
      | path =>
        simp only [htext] at h
        split at h <;> cases h

theorem decide_identifier (h : st.decide octave c cs = .token .identifier more mode) :
    c.isAlpha = true := by
  rw [decide] at h
  split at h
  · split at h
    · exact decidePlain_identifier h
    · exact absurd h decideCommand_identifier
  · exact decidePlain_identifier h

end State

end Lexing

open Lexing State

theorem Scan.identifier_alpha (file : String) (octave : Bool) (st : State) :
    ∀ t ∈ (ofState file octave st).tokens, t.kind = .identifier →
      ∃ c ∈ t.raw.toList.head?, c.isAlpha = true := by
  apply ofState_rec (motive := fun _ scan => ∀ t ∈ scan.tokens, t.kind = .identifier →
    ∃ c ∈ t.raw.toList.head?, c.isAlpha = true)
  case finished => exact fun st h => by simp [tokens]
  case failed => exact fun st e h => by simp [tokens]
  case taken =>
    intro st pieces next later h ih t ht hk
    obtain ⟨c, cs, kind, more, mode, hrest, hdecide, rfl, -⟩ := step_taken h
    simp only [tokens, List.map_append, List.mem_append, List.map_map, List.map_cons, List.map_nil,
      List.mem_singleton] at ht
    rcases ht with (hcomma | rfl) | ht
    · obtain ⟨t', ht', rfl⟩ := List.mem_map.1 hcomma
      rw [Function.comp_apply, (take_comma (Option.mem_toList.1 ht')).2.1] at hk
      cases hk
    · obtain rfl : kind = .identifier := hk
      exact ⟨c, by simp [hrest], decide_identifier hdecide⟩
    · exact ih t ht hk

end MFile
