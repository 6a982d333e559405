import MFile.Proofs.Lexing.Numerals

/-!
Numbers that touch. A decimal number is not cut short: with a further point and digits behind it the
whole run is malformed, and reading stops there. A hexadecimal or binary number is, by what of the
run is none of its digits.
-/

namespace MFile

open Lexing Text

/-- A number begins, at a digit or at a point that a digit follows. -/
def BeginsNumber (cs : List Char) : Prop :=
  startsWithAny Char.isDigit cs = true ∨
    ∃ ds, cs = '.' :: ds ∧ startsWithAny Char.isDigit ds = true

/-- The error is about a decimal number and a further point and digits. -/
structure LexError.AboutRun (e : LexError) (n : Decimal) (digits : List Char) : Prop where
  text_eq : e.text = n.chars ++ '.' :: digits
  nonempty : digits ≠ []
  isDigit : ∀ c ∈ digits, c.isDigit = true

namespace Token

variable {text front rest before after : List Char} {p q : Token}

theorem Between.rest_eq (hp : p.Between text front rest) (hq : q.Between text before after)
    (htouch : p.span.stop = q.span.start) : rest = q.raw.toList ++ after := by
  rw [hp.span_eq, hq.span_eq] at htouch
  apply rest_eq_of_byteCount _ htouch
  rw [← hp.text_eq, hq.text_eq, List.append_assoc]

theorem IsNumeral.head (h : p.IsNumeral rest) :
    ∃ c cs, p.raw.toList = c :: cs ∧
      (c.isDigit = true ∨ c = '.' ∧ startsWithAny Char.isDigit cs = true) := by
  cases h with
  | decimal n hraw =>
    rw [hraw]
    exact Number.head_decimal n
  | radix r hraw => exact ⟨'0', _, hraw, .inl rfl⟩

theorem IsNumeral.radix_of_touching (hp : p.IsNumeral (q.raw.toList ++ rest))
    (hq : q.IsNumeral rest) :
    ∃ r : RadixLiteral, p.raw.toList = r.chars ∧
      (q.raw.toList.head? = some '.' ∨ r.mark ∈ ['b', 'B'] ∧ r.suffix = []) := by
  obtain ⟨c, cs, hraw, hhead⟩ := hq.head
  rw [hraw, List.cons_append] at hp
  rw [hraw]
  cases hp with
  | decimal n _ hends hpoint =>
    exfalso
    obtain hc | ⟨rfl, hcs⟩ := hhead
    · have hnot : c.isDigit = false := hends.digits
      rw [hc] at hnot
      cases hnot
    · cases cs with
      | nil => cases hcs
      | cons d ds =>
        have hnot := hpoint d (ds ++ rest) rfl
        rw [startsWithAny, hnot] at hcs
        cases hcs
  | radix r hchars hends =>
    refine ⟨r, hchars, ?_⟩
    obtain hc | ⟨rfl, -⟩ := hhead
    · right
      have hdigit : startsWithAny Char.isDigit (c :: (cs ++ rest)) = true := hc
      constructor
      · have hnot : r.mark ∉ ['x', 'X'] := by
          intro hhex
          rw [hends.digits hhex] at hdigit
          cases hdigit
        have hmark := r.isMark
        simp only [List.mem_cons, List.not_mem_nil, or_false] at hmark hnot ⊢
        tauto
      · by_contra hsuffix
        rw [Number.not_digit_of_not_name (hends.suffix hsuffix)] at hdigit
        cases hdigit
    · exact .inl rfl

end Token

namespace Lexing.Number

variable {c : Char} {cs : List Char} {more : Nat}

theorem exists_run {text : List Char} {extent : Extent} {fault : Fault} (h : Numeral text extent)
    (htext : text = c :: cs) (hextent : extent = .faulty fault more) :
    ∃ (n : Decimal) (digits : List Char), c :: cs.take more = n.chars ++ '.' :: digits ∧
      digits ≠ [] ∧ ∀ d ∈ digits, d.isDigit = true := by
  cases h with
  | radix => cases hextent
  | @decimal n rest hends =>
    obtain ⟨first, others, hhead, -⟩ := head_decimal n
    rw [decimalExtent] at hextent
    split at hextent
    · cases hextent
    · rename_i hexcess
      obtain ⟨d, ds, rfl, hd, hlength⟩ := excess_ne_zero hexcess
      obtain ⟨digits, after, rfl, hrun, hdigits, -⟩ := run_split Char.isDigit ds
      refine ⟨n, d :: digits, ?_, List.cons_ne_nil _ _, List.forall_mem_cons.2 ⟨hd, hdigits⟩⟩
      rw [hlength, hrun] at hextent
      cases hextent
      have hsplit : c :: cs = (n.chars ++ '.' :: d :: digits) ++ after := by
        rw [← htext]
        simp only [List.append_assoc, List.cons_append]
      refine (chars_of_more hsplit ?_ ?_).1
      · rw [hhead]
        exact List.cons_ne_nil _ _
      · rw [hhead]
        simp only [List.length_append, List.length_cons]
        omega

theorem exists_number (h : BeginsNumber cs) :
    ∃ c ds extent, cs = c :: ds ∧ Lexeme.ofChars? c ds = some (.number extent) := by
  obtain hdigit | ⟨ds, rfl, hpoint⟩ := h
  · cases cs with
    | nil => cases hdigit
    | cons c ds => exact ⟨c, ds, _, rfl, Lexeme.ofChars?_digit hdigit ds⟩
  · cases ds with
    | nil => cases hpoint
    | cons d ds => exact ⟨'.', d :: ds, _, rfl, Lexeme.ofChars?_point hpoint ds⟩

theorem fault_of_number {extent : Extent} {fault : Fault}
    (h : Lexeme.ofChars? c cs = some (.number extent)) (hextent : extent = .faulty fault more) :
    fault = .malformedNumber := by
  obtain ⟨-, rfl⟩ | ⟨-, -, rfl⟩ := Lexeme.spells_ofChars? h
  · exact fault_afterDigit hextent
  · exact fault_afterDot hextent

end Lexing.Number

namespace Scan

open State

variable {source : SourceText} {settings : Settings} {before after : List Token} {p q : Token}

theorem run_of_failure {e : LexError} (h : e ∈ (ofSource source settings).failure)
    (hfault : e.fault = .malformedNumber) : ∃ n digits, e.AboutRun n digits := by
  obtain ⟨st, hreads, hstep⟩ := exists_failed h
  obtain ⟨c, cs, fault, skipped, length, hrest, hdecide, rfl⟩ := step_failed hstep
  obtain rfl : fault = .malformedNumber := hfault
  obtain ⟨rfl, more, rfl, hlexeme⟩ := decide_malformedNumber hdecide
  obtain ⟨n, digits, hchars, hne, hdigits⟩ :=
    Number.exists_run (Number.numeral_of_number hlexeme) rfl rfl
  refine ⟨n, digits, ?_, hne, hdigits⟩
  change (st.pastBlanks.cursor.skip 0).rest.take (more + 1) = _
  rw [Cursor.rest_skip, hrest, ← hchars]
  rfl

/-- Outside of command text, reading goes on with a number where one begins, or stops there because
it is malformed. -/
theorem number_or_failure {pieces : List Piece} {st : Lexing.State}
    (hreads : Reads source.name settings.octave (ofText source.text) pieces st)
    (hmode : ∀ command, st.pastBlanks.mode ≠ .command command)
    (hbegins : BeginsNumber st.pastBlanks.cursor.rest) :
    (∃ t ∈ (ofSource source settings).tokens,
      t.kind = .number ∧ t.span.start = st.pastBlanks.cursor.offset) ∨
    (ofSource source settings).pieces = pieces ∧ ∃ e ∈ (ofSource source settings).failure,
      e.fault = .malformedNumber ∧ e.span.start = st.pastBlanks.cursor.offset := by
  obtain ⟨c, cs, extent, hrest, hlexeme⟩ := Number.exists_number hbegins
  have hdecide : st.pastBlanks.decide settings.octave c cs =
      .ofExtent .number st.pastBlanks.mode extent := decide_of_number hmode hlexeme
  have hlater := reads_pieces hreads
  cases hextent : extent with
  | sound more =>
    left
    rw [hextent] at hdecide
    have htakes : Takes settings.octave st c cs .number more st.pastBlanks.mode :=
      ⟨hrest, hdecide⟩
    rw [ofState_taken (htakes.step source.name)] at hlater
    refine ⟨((st.decided st.pastBlanks.mode).take source.name .number more).token, ?_, rfl, rfl⟩
    rw [tokens, ofSource, hlater.1]
    simp
  | faulty fault more =>
    right
    obtain rfl := Number.fault_of_number hlexeme hextent
    rw [hextent] at hdecide
    rw [ofState_failed (step_of_fault hrest hdecide), List.append_nil] at hlater
    exact ⟨hlater.1, _, hlater.2, rfl, rfl⟩

theorem radix_of_tokens (h : (ofSource source settings).tokens = before ++ p :: q :: after)
    (hp : p.kind = .number) (hq : q.kind = .number) (htouch : p.span.stop = q.span.start) :
    ∃ r : RadixLiteral, p.raw.toList = r.chars ∧
      (q.raw.toList.head? = some '.' ∨ r.mark ∈ ['b', 'B'] ∧ r.suffix = []) := by
  have hlater : (ofSource source settings).tokens = (before ++ [p]) ++ q :: after := by
    rw [h, List.append_assoc, List.singleton_append]
  obtain ⟨front, rest, hbetween, hnumeral⟩ := isNumeral_of_tokens h hp
  obtain ⟨front', rest', hbetween', hnumeral'⟩ := isNumeral_of_tokens hlater hq
  rw [hbetween.rest_eq hbetween' htouch] at hnumeral
  exact hnumeral.radix_of_touching hnumeral'

/-- Only a hexadecimal or binary number touches the next number. Of a decimal one that goes on with
a further point and digits, reading makes the error that the whole run is malformed. -/
theorem scan_numbers_apart (source : SourceText) (settings : Settings) :
    let scan := ofSource source settings
    (∀ (before after : List Token) (p q : Token), scan.tokens = before ++ p :: q :: after →
      p.kind = .number → q.kind = .number → p.span.stop = q.span.start →
        ∃ r : RadixLiteral, p.raw.toList = r.chars ∧
          (q.raw.toList.head? = some '.' ∨ r.mark ∈ ['b', 'B'] ∧ r.suffix = [])) ∧
    (∀ (pieces : List Piece) (st : Lexing.State),
      Reads source.name settings.octave (ofText source.text) pieces st →
      (∀ command, st.pastBlanks.mode ≠ .command command) →
      BeginsNumber st.pastBlanks.cursor.rest →
        (∃ t ∈ scan.tokens, t.kind = .number ∧ t.span.start = st.pastBlanks.cursor.offset) ∨
        scan.pieces = pieces ∧ ∃ e ∈ scan.failure,
          e.fault = .malformedNumber ∧ e.span.start = st.pastBlanks.cursor.offset) ∧
    ∀ e ∈ scan.failure, e.fault = .malformedNumber → ∃ n digits, e.AboutRun n digits :=
  ⟨fun _ _ _ _ h hp hq htouch => radix_of_tokens h hp hq htouch,
    fun _ _ hreads hmode hbegins => number_or_failure hreads hmode hbegins,
    fun _ h hfault => run_of_failure h hfault⟩

def splitHexadecimal : SourceText := .ofString "t.m" "0x1.5" {}

theorem scan_splitHexadecimal : (ofSource splitHexadecimal {}).failure = none ∧
    ∃ (before after : List Token) (p q : Token),
      (ofSource splitHexadecimal {}).tokens = before ++ p :: q :: after ∧
        p.kind = .number ∧ q.kind = .number ∧ p.span.stop = q.span.start := by
  have hread : ((ofSource splitHexadecimal {}).tokens.map fun t => (t.kind, t.span)) =
      [(.number, ⟨0, 3⟩), (.number, ⟨3, 5⟩)] := by decide +kernel
  refine ⟨by decide +kernel, ?_⟩
  obtain ⟨p, rest, htokens, hp, hrest⟩ := List.map_eq_cons_iff.1 hread
  obtain ⟨q, after, rfl, hq, -⟩ := List.map_eq_cons_iff.1 hrest
  obtain ⟨hpkind, hpspan⟩ := Prod.mk.inj hp
  obtain ⟨hqkind, hqspan⟩ := Prod.mk.inj hq
  exact ⟨[], after, p, q, htokens, hpkind, hqkind, by rw [hpspan, hqspan]⟩

end Scan

end MFile
