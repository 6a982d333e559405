import MFile.Proofs.Lexing.Forward.Tokens

/-!
Decimal numbers as they are written: digits, a fraction, an exponent and an imaginary unit, with a
digit before or behind the point. Each is read as one token, up to a character that cuts numbers.
-/

namespace MFile

open Lexing Text

structure Exponent where
  mark : Char
  sign : Option Char
  digits : List Char
  isMark : mark ∈ ['e', 'E', 'd', 'D']
  isSign : ∀ c ∈ sign, c = '+' ∨ c = '-'
  isDigit : ∀ c ∈ digits, c.isDigit = true
  nonempty : digits ≠ []

structure Decimal where
  whole : List Char
  fraction : Option (List Char)
  exponent : Option Exponent
  imaginary : Option Char
  wholeDigits : ∀ c ∈ whole, c.isDigit = true
  fractionDigits : ∀ digits ∈ fraction, ∀ c ∈ digits, c.isDigit = true
  hasDigit : whole = [] → ∃ digits ∈ fraction, digits ≠ []
  imaginaryUnit : ∀ c ∈ imaginary, c ∈ ['i', 'j', 'I', 'J']

def Exponent.chars (e : Exponent) : List Char := e.mark :: (e.sign.toList ++ e.digits)

namespace Decimal

def power (n : Decimal) : List Char := n.exponent.elim [] Exponent.chars

def suffix (n : Decimal) : List Char := n.power ++ n.imaginary.toList

def point (n : Decimal) : List Char := n.fraction.elim [] ('.' :: ·)

def chars (n : Decimal) : List Char := n.whole ++ (n.point ++ n.suffix)

end Decimal

namespace Lexing.Number

variable {n : Decimal} {d : Char}

theorem suffix_head : n.suffix = [] ∨
    ∃ c cs, n.suffix = c :: cs ∧ c ∈ ['e', 'E', 'd', 'D', 'i', 'j', 'I', 'J'] := by
  rw [Decimal.suffix, Decimal.power]
  cases n.exponent with
  | some e =>
    refine .inr ⟨e.mark, _, rfl, ?_⟩
    exact List.mem_append_left ['i', 'j', 'I', 'J'] e.isMark
  | none =>
    cases himaginary : n.imaginary with
    | none => exact .inl rfl
    | some c =>
      refine .inr ⟨c, [], rfl, ?_⟩
      exact List.mem_append_right ['e', 'E', 'd', 'D'] (n.imaginaryUnit c himaginary)

theorem suffix_not_digit : startsWithAny Char.isDigit n.suffix = false := by
  obtain h | ⟨c, cs, h, hc⟩ := suffix_head (n := n)
  · rw [h]
    rfl
  · rw [h]
    have hdigit : ∀ c ∈ ['e', 'E', 'd', 'D', 'i', 'j', 'I', 'J'], c.isDigit = false :=
      forall_of_all rfl
    exact hdigit c hc

theorem fraction_point : fraction (n.point ++ n.suffix) = n.point.length := by
  rw [Decimal.point]
  cases hfraction : n.fraction with
  | none =>
    obtain h | ⟨c, cs, h, hc⟩ := suffix_head (n := n)
    · rw [h]
      rfl
    · have hdot : c ≠ '.' := by
        rintro rfl
        exact absurd hc (by decide)
      rw [h]
      simp [fraction, hdot]
  | some digits =>
    have hdigits := n.fractionDigits digits hfraction
    cases digits with
    | nil =>
      obtain h | ⟨c, cs, h, hc⟩ := suffix_head (n := n)
      · rw [h]
        rfl
      · have hclass : ∀ c ∈ ['e', 'E', 'd', 'D', 'i', 'j', 'I', 'J'], c.isDigit = false ∧
            ['*', '/', '\\', '^', '\'', '.'].contains c = false :=
          forall_of_all rfl
        obtain ⟨hdigit, hoperator⟩ := hclass c hc
        rw [h]
        change fraction ('.' :: c :: cs) = 1
        rw [fraction, hdigit, hoperator]
        rfl
    | cons d digits =>
      obtain ⟨hd, hdigits⟩ := List.forall_mem_cons.1 hdigits
      change fraction ('.' :: d :: (digits ++ n.suffix)) = (digits.length + 1) + 1
      rw [fraction, if_pos hd, run_append hdigits suffix_not_digit]
      omega

theorem exponent_power : exponent n.suffix = n.power.length := by
  rw [Decimal.suffix, Decimal.power]
  cases n.exponent with
  | none =>
    cases himaginary : n.imaginary with
    | none => rfl
    | some c =>
      have hmark : ∀ c ∈ ['i', 'j', 'I', 'J'], ['e', 'E', 'd', 'D'].contains c = false :=
        forall_of_all rfl
      change exponent [c] = 0
      rw [exponent, hmark c (n.imaginaryUnit c himaginary)]
      rfl
  | some e =>
    have himaginary : startsWithAny Char.isDigit n.imaginary.toList = false := by
      cases himaginary : n.imaginary with
      | none => rfl
      | some c =>
        have hdigit : ∀ c ∈ ['i', 'j', 'I', 'J'], c.isDigit = false := forall_of_all rfl
        exact hdigit c (n.imaginaryUnit c himaginary)
    have hrun := run_append e.isDigit himaginary
    have hpos : e.digits.length ≠ 0 := fun h => e.nonempty (List.length_eq_zero_iff.1 h)
    have hsigns : startsWithAny (fun s => s == '+' || s == '-')
        (e.sign.toList ++ e.digits ++ n.imaginary.toList) = e.sign.isSome := by
      cases hsign : e.sign with
      | some s => obtain rfl | rfl := e.isSign s hsign <;> rfl
      | none =>
        obtain ⟨d, digits, hdigits⟩ := List.exists_cons_of_ne_nil e.nonempty
        have hd : d.isDigit = true := e.isDigit d (by rw [hdigits]; exact List.mem_cons_self)
        rw [hdigits]
        change (d == '+' || d == '-') = false
        have hne : ∀ s : Char, s.isDigit = false → (d == s) = false := by
          intro s hs
          rw [beq_eq_false_iff_ne]
          rintro rfl
          rw [hs] at hd
          cases hd
        rw [hne _ rfl, hne _ rfl]
        rfl
    change exponent (e.mark :: (e.sign.toList ++ e.digits ++ n.imaginary.toList)) =
      (e.sign.toList ++ e.digits).length + 1
    rw [exponent, if_pos (List.contains_iff_mem.2 e.isMark), hsigns]
    dsimp only
    rw [List.append_assoc]
    cases hsign : e.sign with
    | none =>
      change (if run Char.isDigit (e.digits ++ n.imaginary.toList) = 0 then 0
        else 1 + 0 + run Char.isDigit (e.digits ++ n.imaginary.toList)) = e.digits.length + 1
      rw [hrun, if_neg hpos]
      omega
    | some s =>
      change (if run Char.isDigit (e.digits ++ n.imaginary.toList) = 0 then 0
        else 1 + 1 + run Char.isDigit (e.digits ++ n.imaginary.toList)) =
          (s :: e.digits).length + 1
      rw [hrun, if_neg hpos, List.length_cons]
      omega

theorem tail_suffix : tail n.suffix = .sound n.suffix.length := by
  have himaginary : imaginary n.imaginary.toList = n.imaginary.toList.length := by
    cases himaginary : n.imaginary with
    | none => rfl
    | some c =>
      change imaginary [c] = 1
      rw [imaginary, List.contains_iff_mem.2 (n.imaginaryUnit c himaginary)]
      rfl
  have hdrop : n.suffix.drop n.power.length = n.imaginary.toList := drop_length_append _ _
  rw [tail, exponent_power, hdrop, himaginary, ← List.length_append, ← Decimal.suffix,
    List.drop_length]
  rfl

theorem radix?_point : radix? (n.point ++ n.suffix) = none := by
  have hother : ∀ c ∈ '.' :: ['e', 'E', 'd', 'D', 'i', 'j', 'I', 'J'], ∀ cs,
      radix? (c :: cs) = none := by
    intro c hc cs
    have hletter : ∀ c ∈ '.' :: ['e', 'E', 'd', 'D', 'i', 'j', 'I', 'J'],
        ¬ (c = 'x' ∨ c = 'X') ∧ ¬ (c = 'b' ∨ c = 'B') := forall_of_all (by decide)
    rw [radix?, if_neg (hletter c hc).1, if_neg (hletter c hc).2]
    rfl
  rw [Decimal.point]
  cases n.fraction with
  | some digits => exact hother '.' List.mem_cons_self _
  | none =>
    obtain h | ⟨c, cs, h, hc⟩ := suffix_head (n := n)
    · rw [h]
      rfl
    · rw [h]
      exact hother c (List.mem_cons_of_mem _ hc) cs

theorem point_not_digit : startsWithAny Char.isDigit (n.point ++ n.suffix) = false := by
  rw [Decimal.point]
  cases n.fraction with
  | some digits => rfl
  | none => exact suffix_not_digit

theorem ofChars?_decimal (n : Decimal) (hd : cuts d = true) (rest : List Char) :
    ∃ c cs, n.chars = c :: cs ∧ (c = '.' ∨ c.isDigit = true) ∧
      Lexeme.ofChars? c (cs ++ d :: rest) = some (.number (.sound cs.length)) := by
  cases hwhole : n.whole with
  | cons c digits =>
    obtain ⟨hc, hdigits⟩ := List.forall_mem_cons.1 (hwhole ▸ n.wholeDigits)
    refine ⟨c, digits ++ (n.point ++ n.suffix), by rw [Decimal.chars, hwhole]; rfl, .inr hc, ?_⟩
    have hradix : ∀ extent : Extent, (if c = '0' ∧ digits.length = 0 then
        (radix? (digits ++ (n.point ++ n.suffix))).elim extent .sound else extent) = extent := by
      intro extent
      split
      · rename_i h
        rw [List.length_eq_zero_iff.1 h.2, List.nil_append, radix?_point]
        rfl
      · rfl
    rw [Lexeme.ofChars?_digit hc, afterDigit_cut hd, afterDigit,
      run_append hdigits point_not_digit]
    dsimp only
    rw [hradix, drop_length_append, fraction_point, ← List.drop_drop, drop_length_append,
      drop_length_append, tail_suffix, Extent.after, List.length_append, List.length_append,
      Nat.add_assoc]
  | nil =>
    obtain ⟨digits, hfraction, hne⟩ := n.hasDigit hwhole
    obtain ⟨c, digits, rfl⟩ := List.exists_cons_of_ne_nil hne
    obtain ⟨hc, -⟩ := List.forall_mem_cons.1 (n.fractionDigits _ hfraction)
    have hpoint : n.point = '.' :: c :: digits := by
      rw [Decimal.point, hfraction]
      rfl
    refine ⟨'.', (c :: digits) ++ n.suffix, by rw [Decimal.chars, hwhole, hpoint]; rfl, .inl rfl,
      ?_⟩
    have hrun : run Char.isDigit ((c :: digits) ++ n.suffix) = (c :: digits).length :=
      run_append (n.fractionDigits _ hfraction) suffix_not_digit
    rw [List.cons_append, List.cons_append, Lexeme.ofChars?_point hc, ← List.cons_append,
      ← List.cons_append, afterDot_cut hd, afterDot, hrun, drop_length_append, tail_suffix,
      Extent.after, List.length_append]

end Lexing.Number

end MFile
