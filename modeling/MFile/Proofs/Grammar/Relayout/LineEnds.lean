import MFile.Proofs.Grammar.Relayout.Files
import MFile.Proofs.Lexing.LineEnds.Scans

/-!
Files with carriage returns before their line feeds. They give the same units as without them, and
the same errors, in the same places.
-/

namespace MFile

open Grammar Text

def ParseError.SameVariant : ParseError → ParseError → Prop
  | .lexical e, .lexical e' => e'.fault = e.fault
  | .grammatical .., .grammatical .. => True
  | .internal .., .internal .. => True
  | _, _ => False

namespace Grammar.Relayout

def asSeen : Relayout :=
  .inPlace Token.seen false (fun _ => rfl)
    (fun t ht => by
      rw [Token.seen, ht]
      rfl)
    fun _ => rfl

theorem described_seen (found : Option Token) :
    described (found.map Token.seen) = described found := by
  cases found with
  | none => rfl
  | some t =>
    obtain ⟨kind, raw, location, span, inLine, inStatement, anonymous⟩ := t
    cases kind <;> rfl

theorem message_seen (cause : Cause) : (asSeen.cause cause).message = cause.message := by
  have htext : ∀ what found, Cause.expectedText what (found.map Token.seen) =
      Cause.expectedText what found := by
    intro what found
    rw [Cause.expectedText, described_seen, Cause.expectedText]
  cases cause with
  | expected what found =>
    cases found with
    | none => rfl
    | some t =>
      have hexpected : ∀ t, (Cause.expected what (some t)).message =
          Cause.expectedText what.text (some t) := by
        intro t
        cases what <;> rfl
      exact (hexpected t.seen).trans ((htext what.text (some t)).trans (hexpected t).symm)
  | openBlock | classItem | afterFunctions => exact htext _ _
  | _ => rfl

theorem hint?_seen (cause : Cause) : (asSeen.cause cause).hint? = cause.hint? := by
  cases cause with
  | expected what found => cases found <;> rfl
  | _ => rfl

theorem same_of_error_seen {e e' : ParseError} (h : asSeen.error e = asSeen.error e') :
    e.SameVariant e' ∧ e'.message = e.message ∧ e'.hint? = e.hint? ∧ e'.location = e.location := by
  cases e <;> cases e'
  case lexical.lexical =>
    cases h
    exact ⟨rfl, rfl, rfl, rfl⟩
  case grammatical.grammatical l cause l' cause' =>
    obtain ⟨hl, hcause⟩ := ParseError.grammatical.inj h
    refine ⟨trivial, ?_, ?_, hl.symm⟩
    · exact (message_seen cause').symm.trans ((congrArg Cause.message hcause).symm.trans
        (message_seen cause))
    · exact (hint?_seen cause').symm.trans ((congrArg Cause.hint? hcause).symm.trans
        (hint?_seen cause))
  case internal.internal =>
    cases h
    exact ⟨trivial, rfl, rfl, rfl⟩
  all_goals cases h

theorem significant_agrees {ts ts' : List Token} (h : List.Forall₂ Token.Agrees ts ts') (b : Bool) :
    (significant b ts').map Token.seen = (significant b ts).map Token.seen := by
  induction h generalizing b with
  | nil => rfl
  | @cons t t' ts ts' ht _ ih =>
    rw [significant, significant, ht.kind]
    split
    · exact ih b
    rename_i htrivia
    split
    · exact ih true
    · rw [List.map_cons, List.map_cons, ih, ht.seen (by simpa using htrivia)]

end Grammar.Relayout

def Text.crlf (text : String) : String := String.ofList (withReturns text.toList)

namespace FileUnit

open Grammar.Relayout

theorem alike_ofText {text : String} (h : '\r' ∉ text.toList) :
    (Lexing.State.ofText text).Alike (Lexing.State.ofText (crlf text)) := by
  have hrest : (crlf text).toList = withReturns text.toList := String.toList_ofList
  exact ⟨rfl, ⟨hrest, h⟩, ⟨[], List.not_mem_nil, Lexing.State.follows_ofText text,
    Lexing.State.follows_ofText (crlf text)⟩, .normal⟩

theorem dropMark_withReturns (cs : List Char) :
    SourceText.dropMark (withReturns cs) = withReturns (SourceText.dropMark cs) := by
  cases cs with
  | nil => rfl
  | cons c cs =>
    by_cases hc : c = '\n'
    · rw [hc]
      rfl
    · rw [withReturns_cons hc, SourceText.dropMark, SourceText.dropMark]
      split
      · rfl
      · rw [withReturns_cons hc]

theorem text_ofString_crlf (name text : String) (settings : Settings) :
    (SourceText.ofString name (crlf text) settings).text =
      crlf (SourceText.ofString name text settings).text := by
  have hplain : SourceText.dropMark (crlf text).toList =
      withReturns (SourceText.dropMark text.toList) := by
    rw [crlf, String.toList_ofList, dropMark_withReturns]
  have htab : (withReturns (SourceText.dropMark text.toList)).contains '\t' =
      (SourceText.dropMark text.toList).contains '\t' := by
    rw [Bool.eq_iff_iff, List.contains_iff_mem, List.contains_iff_mem, mem_withReturns (by decide)]
  rw [SourceText.ofString, SourceText.ofString, SourceText.build, SourceText.build]
  dsimp only
  rw [hplain, SourceText.tabStops, SourceText.tabStops, htab, crlf, String.toList_ofList]
  cases settings.tabWidth.filter fun width =>
      0 < width && (SourceText.dropMark text.toList).contains '\t' with
  | none => rfl
  | some width => exact congrArg String.ofList (expandTabsFrom_withReturns width 0 _)

theorem return_notMem_ofString (name : String) {text : String} (settings : Settings)
    (h : '\r' ∉ text.toList) : '\r' ∉ (SourceText.ofString name text settings).text.toList := by
  have hplain : '\r' ∉ SourceText.dropMark text.toList := by
    cases htext : text.toList with
    | nil => exact List.not_mem_nil
    | cons c cs =>
      rw [htext] at h
      rw [SourceText.dropMark]
      split
      · exact fun hmem => h (List.mem_cons_of_mem c hmem)
      · exact h
  rw [SourceText.ofString, SourceText.build]
  dsimp only
  rw [String.toList_ofList]
  cases SourceText.tabStops settings (SourceText.dropMark text.toList) with
  | none => exact hplain
  | some width => exact return_notMem_expandTabsFrom hplain

theorem ofSource_eq (source : SourceText) (settings : Settings) :
    ofSource source settings = (Scan.ofSource source settings).failure.elim
      (ofTokens source.name (Scan.ofSource source settings).tokens)
      fun e => .error (.lexical e) := by
  rw [ofSource, TokenBuffer.ofSource]
  cases (Scan.ofSource source settings).failure <;> rfl

theorem ofSource_of_scan {source : SourceText} {settings : Settings}
    (h : (Scan.ofSource source settings).failure = none) :
    ofSource source settings = ofTokens source.name (Scan.ofSource source settings).tokens := by
  rw [ofSource_eq, h, Option.elim_none]

theorem ofTokens_agrees {ts ts' : List Token} (h : List.Forall₂ Token.Agrees ts ts')
    (file : String) : asSeen.outcome (ofTokens file ts') = asSeen.outcome (ofTokens file ts) := by
  rw [← outcome_map rfl, ← outcome_map rfl]
  exact congrArg (fun ahead => Parse.outcome (Parse.fileUnit { file := file, ahead := ahead }))
    (significant_agrees h false)

theorem ofSource_alike {source source' : SourceText} (settings : Settings)
    (hname : source'.name = source.name)
    (h : (Lexing.State.ofText source.text).Alike (Lexing.State.ofText source'.text)) :
    (∀ unit, ofSource source settings = .ok unit → ofSource source' settings = .ok unit) ∧
      ∀ e, ofSource source settings = .error e → ∃ e', ofSource source' settings = .error e' ∧
        e.SameVariant e' ∧ e'.message = e.message ∧ e'.hint? = e.hint? ∧
        e'.location = e.location := by
  have hscan : (Scan.ofSource source settings).Alike (Scan.ofSource source' settings) := by
    rw [Scan.ofSource, Scan.ofSource, hname]
    exact Scan.alike_ofState _ _ h
  rw [ofSource_eq, ofSource_eq, hname]
  generalize Scan.ofSource source settings = scan at hscan
  generalize Scan.ofSource source' settings = scan' at hscan
  obtain ⟨pieces, failure, trailing⟩ := scan
  obtain ⟨pieces', failure', trailing'⟩ := scan'
  obtain ⟨htokens, hfailure⟩ := hscan
  dsimp only at hfailure ⊢
  cases hfailure with
  | @some e e' he =>
    refine ⟨by rintro _ ⟨⟩, ?_⟩
    rintro _ ⟨⟩
    rw [LexError.Agrees] at he
    rw [he]
    exact ⟨_, rfl, rfl, rfl, rfl, rfl⟩
  | none =>
    have hsame := ofTokens_agrees htokens source.name
    rw [Option.elim_none, Option.elim_none]
    generalize ofTokens source.name (Scan.tokens _) = result' at hsame
    generalize ofTokens source.name (Scan.tokens _) = result at hsame
    cases result <;> cases result'
    case error.error e e' =>
      refine ⟨by rintro _ ⟨⟩, ?_⟩
      rintro _ ⟨⟩
      exact ⟨e', rfl, same_of_error_seen (Except.error.inj hsame).symm⟩
    case ok.ok unit unit' =>
      refine ⟨?_, by rintro _ ⟨⟩⟩
      rintro _ ⟨⟩
      have hunit : unit'.relocate id = unit.relocate id := Except.ok.inj hsame
      rw [FileUnit.relocate_id, FileUnit.relocate_id] at hunit
      rw [hunit]
    all_goals cases hsame

/-- Whether lines end with a line feed alone or with a carriage return before it, a file gives the
same unit or the same error. -/
theorem ofSource_crlf (name text : String) (settings : Settings) (h : '\r' ∉ text.toList) :
    (∀ unit, ofSource (.ofString name text settings) settings = .ok unit →
      ofSource (.ofString name (crlf text) settings) settings = .ok unit) ∧
    ∀ e, ofSource (.ofString name text settings) settings = .error e →
      ∃ e', ofSource (.ofString name (crlf text) settings) settings = .error e' ∧
        e.SameVariant e' ∧ e'.message = e.message ∧ e'.hint? = e.hint? ∧
        e'.location = e.location := by
  refine ofSource_alike settings rfl ?_
  rw [text_ofString_crlf]
  exact alike_ofText (return_notMem_ofString name settings h)

theorem ofSource_crlf_continued : ∃ unit,
    ofSource (.ofString "t.m" "x = [1 ...\n  2\n 3]\n\nhold on\n" {}) {} = .ok unit ∧
      ofSource (.ofString "t.m" "x = [1 ...\r\n  2\r\n 3]\r\n\r\nhold on\r\n" {}) {} =
        .ok unit := by
  have hcrlf : "x = [1 ...\r\n  2\r\n 3]\r\n\r\nhold on\r\n" =
      crlf "x = [1 ...\n  2\n 3]\n\nhold on\n" := by decide
  have hrun : (ofSource (.ofString "t.m" "x = [1 ...\n  2\n 3]\n\nhold on\n" {})
      {}).toOption.isSome = true := by decide +kernel
  cases hunit : ofSource (.ofString "t.m" "x = [1 ...\n  2\n 3]\n\nhold on\n" {}) {} with
  | ok unit =>
    rw [hcrlf]
    exact ⟨unit, rfl, (ofSource_crlf "t.m" _ {} (by decide)).1 unit hunit⟩
  | error e =>
    rw [hunit] at hrun
    cases hrun

end FileUnit

end MFile
