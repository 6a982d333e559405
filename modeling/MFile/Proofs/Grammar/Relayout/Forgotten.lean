import MFile.Proofs.Grammar.Relayout.LineEnds
import MFile.Proofs.Lexing.Shifted

/-!
Files whose tokens differ in their places only. They give units that differ in their places only,
so two texts are compared by the tokens that are read from them.
-/

namespace MFile

open Grammar

namespace Grammar.Relayout

theorem forget_extendTo (a b : Location) :
    (a.extendTo b).forget = a.forget.extendTo b.forget := by
  have hleft : (a.extendTo b).file = a.file := by
    rw [Location.extendTo]
    split
    · split
      · split
        · rfl
        split <;> rfl
      · rfl
    · rfl
  have hright : a.forget.extendTo b.forget = a.forget := by
    rw [Location.extendTo]
    split <;> rfl
  rw [hright, Location.forget, hleft, Location.forget]

def forgotten : Relayout where
  token := Token.placeless
  place := Location.forget
  line := fun _ => 0
  respaced := false
  kind_token _ := rfl
  raw_token t ht := by
    rw [Token.placeless, ht]
    rfl
  location_token _ := rfl
  place_extendTo := forget_extendTo
  place_file _ := rfl
  line_place _ := rfl

end Grammar.Relayout

def Scan.seen (scan : Scan) : List Token :=
  (scan.tokens.map Token.placeless).filter fun t => !t.kind.isTrivia

theorem Grammar.significant_seen (scan : Scan) :
    (significant false scan.tokens).map Token.placeless = significant false scan.seen := by
  rw [Scan.seen]
  generalize scan.tokens = ts
  generalize false = afterBreak
  induction ts generalizing afterBreak with
  | nil => rfl
  | cons t ts ih =>
    by_cases ht : t.kind.isTrivia = true
    · have ht' : t.placeless.kind.isTrivia = true := ht
      rw [List.map_cons, List.filter_cons_of_neg (by simp [ht']), significant, if_pos ht, ih]
    · have ht' : ¬ t.placeless.kind.isTrivia = true := ht
      rw [List.map_cons, List.filter_cons_of_pos (by simp [ht']), significant, significant,
        if_neg ht, if_neg ht']
      change _ = if (afterBreak && t.kind == .newline) = true then _ else _
      split
      · exact ih true
      · rw [List.map_cons, ih]
        rfl

namespace FileUnit

variable {source source' : SourceText} {settings : Settings}

theorem ofSource_ok {unit : FileUnit} (h : ofSource source settings = .ok unit) :
    (Scan.ofSource source settings).failure = none ∧
      ofTokens source.name (Scan.ofSource source settings).tokens = .ok unit := by
  rw [ofSource_eq] at h
  cases hfailure : (Scan.ofSource source settings).failure with
  | none =>
    rw [hfailure] at h
    exact ⟨rfl, h⟩
  | some e =>
    rw [hfailure] at h
    cases h

theorem ofTokens_placeless {ts ts' : List Token} (file : String)
    (h : (significant false ts').map Token.placeless = (significant false ts).map Token.placeless) :
    Relayout.forgotten.outcome (ofTokens file ts') =
      Relayout.forgotten.outcome (ofTokens file ts) := by
  rw [← Relayout.outcome_map rfl, ← Relayout.outcome_map rfl]
  exact congrArg (fun ahead => Parse.outcome (Parse.fileUnit { file := file, ahead := ahead })) h

theorem ofSource_placeless (hname : source'.name = source.name)
    (hfailure : (Scan.ofSource source' settings).failure = none)
    (hseen : (Scan.ofSource source' settings).seen = (Scan.ofSource source settings).seen)
    {unit : FileUnit} (h : ofSource source settings = .ok unit) :
    ∃ unit', ofSource source' settings = .ok unit' ∧
      unit'.relocate Location.forget = unit.relocate Location.forget := by
  obtain ⟨-, hunit⟩ := ofSource_ok h
  have hsame := ofTokens_placeless source.name
    ((significant_seen _).trans ((congrArg (significant false) hseen).trans
      (significant_seen _).symm))
  rw [ofSource_eq, hfailure, hname, Option.elim_none]
  rw [hunit] at hsame
  cases hunit' : ofTokens source.name (Scan.ofSource source' settings).tokens with
  | ok unit' =>
    rw [hunit'] at hsame
    exact ⟨unit', rfl, Except.ok.inj hsame⟩
  | error e =>
    rw [hunit'] at hsame
    cases hsame

end FileUnit

end MFile
