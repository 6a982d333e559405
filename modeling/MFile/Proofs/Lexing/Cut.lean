import MFile.Lexing.Command
import MFile.Proofs.Lexing.SingleLine

/-!
Texts cut at a character that goes on with nothing. Numbers, names and symbols before it are read
as if the text ended there.
-/

namespace MFile.Lexing

open Text

def cuts (d : Char) : Bool := [' ', ',', ';', ')', ']', '\x7d'].contains d

theorem of_cuts {d : Char} {p : Char → Bool} (hd : cuts d = true)
    (hp : ([' ', ',', ';', ')', ']', '\x7d'].all fun c => !p c) = true) : p d = false := by
  have hmem := List.all_eq_true.1 hp d (List.contains_iff_mem.1 hd)
  exact Bool.not_eq_true' _ ▸ hmem

variable {c d : Char} {w rest word : List Char} {p : Char → Bool} {n : Nat}

theorem run_cut (hp : p d = false) (w rest : List Char) : run p (w ++ d :: rest) = run p w := by
  induction w with
  | nil => simp [run, hp]
  | cons c w ih =>
    rw [run, run] at ih ⊢
    rw [List.cons_append, List.takeWhile_cons, List.takeWhile_cons]
    split
    · rw [List.length_cons, List.length_cons, ih]
    · rfl

theorem startsWithAny_cut (hp : p d = false) (w rest : List Char) :
    startsWithAny p (w ++ d :: rest) = startsWithAny p w := by
  cases w with
  | nil => exact hp
  | cons => rfl

theorem isPrefixOf_cut (hd : d ∉ word) (w rest : List Char) :
    word.isPrefixOf (w ++ d :: rest) = word.isPrefixOf w := by
  induction word generalizing w with
  | nil => simp
  | cons c word ih =>
    rw [List.mem_cons, not_or] at hd
    obtain ⟨hc, hword⟩ := hd
    cases w with
    | nil => simp [List.isPrefixOf, Ne.symm hc]
    | cons e w => rw [List.cons_append, List.isPrefixOf, List.isPrefixOf, ih hword]

theorem find?_cut {words : List (List Char)} (hd : ∀ word ∈ words, d ∉ word) (w rest : List Char) :
    words.find? (·.isPrefixOf (w ++ d :: rest)) = words.find? (·.isPrefixOf w) := by
  induction words with
  | nil => rfl
  | cons word words ih =>
    obtain ⟨hword, hwords⟩ := List.forall_mem_cons.1 hd
    rw [List.find?_cons, List.find?_cons, isPrefixOf_cut hword, ih hwords]

section Stops

variable (hrest : startsWithAny p rest = false)

include hrest

theorem isPrefixOf_before (hword : ∀ c ∈ word, p c = true) (w : List Char) :
    word.isPrefixOf (w ++ rest) = word.isPrefixOf w := by
  cases rest with
  | nil => rw [List.append_nil]
  | cons d rest =>
    have hd : p d = false := hrest
    exact isPrefixOf_cut (fun hmem => Bool.noConfusion ((hword d hmem).symm.trans hd)) w rest

theorem find?_before {words : List (List Char)} (hwords : ∀ word ∈ words, ∀ c ∈ word, p c = true)
    (w : List Char) : words.find? (·.isPrefixOf (w ++ rest)) = words.find? (·.isPrefixOf w) := by
  induction words with
  | nil => rfl
  | cons word words ih =>
    obtain ⟨hword, hwords⟩ := List.forall_mem_cons.1 hwords
    rw [List.find?_cons, List.find?_cons, isPrefixOf_before hrest hword, ih hwords]

end Stops

theorem length_le_of_find? {words : List (List Char)} {word : List Char}
    (h : words.find? (·.isPrefixOf w) = some word) : word.length ≤ w.length :=
  (List.isPrefixOf_iff_prefix.1 (List.find?_some h :)).length_le

/-! ## Numbers -/

namespace Number

theorem notMem_integerClasses (hd : cuts d = true) : ∀ word ∈ integerClasses, d ∉ word := by
  intro word hword hmem
  have hcut := of_cuts hd (p := isNameChar) rfl
  have hname : integerClasses.all (·.all isNameChar) = true := rfl
  rw [List.all_eq_true.1 (List.all_eq_true.1 hname word hword) d hmem] at hcut
  cases hcut

theorem classSuffix_cut (hd : cuts d = true) (w rest : List Char) :
    classSuffix (w ++ d :: rest) = classSuffix w := by
  rw [classSuffix, classSuffix, find?_cut (notMem_integerClasses hd)]
  cases hfind : integerClasses.find? (·.isPrefixOf w) with
  | none => rfl
  | some word =>
    dsimp only
    rw [List.drop_append_of_le_length (length_le_of_find? hfind),
      startsWithAny_cut (of_cuts hd rfl)]

theorem radix?_cut (hd : cuts d = true) (w rest : List Char) :
    radix? (w ++ d :: rest) = radix? w := by
  cases w with
  | nil =>
    have hx := of_cuts hd (p := fun c => c = 'x' ∨ c = 'X') rfl
    have hb := of_cuts hd (p := fun c => c = 'b' ∨ c = 'B') rfl
    rw [List.nil_append, radix?, radix?, if_neg (of_decide_eq_false hx),
      if_neg (of_decide_eq_false hb)]
    rfl
  | cons c w =>
    have hhex := of_cuts hd (p := isHexDigit) rfl
    have hbinary := of_cuts hd (p := isBinaryDigit) rfl
    rw [List.cons_append, radix?, radix?, run_cut hhex, run_cut hbinary]
    have hsuffix : ∀ n ≤ w.length,
        classSuffix ((w ++ d :: rest).drop n) = classSuffix (w.drop n) := by
      intro n hn
      rw [List.drop_append_of_le_length hn, classSuffix_cut hd]
    split
    · rw [hsuffix _ (run_le _ _)]
    split
    · rw [hsuffix _ (run_le _ _)]
    · rfl

theorem fraction_cut (hd : cuts d = true) (w rest : List Char) :
    fraction (w ++ d :: rest) = fraction w := by
  have hdigit := of_cuts hd (p := Char.isDigit) rfl
  have hdot := of_cuts hd (p := (· == '.')) rfl
  have hoperator := of_cuts hd (p := ['*', '/', '\\', '^', '\'', '.'].contains) rfl
  rcases w with _ | ⟨c, _ | ⟨e, w⟩⟩
  · have hne : d ≠ '.' := by simpa using hdot
    simp [fraction, hne]
  · by_cases hc : c = '.'
    · subst hc
      rw [List.cons_append, List.nil_append, fraction, fraction, hdigit, hoperator]
      rfl
    · simp [fraction, hc]
  · by_cases hc : c = '.'
    · subst hc
      rw [List.cons_append, List.cons_append, fraction, fraction, run_cut hdigit]
    · simp [fraction, hc]

theorem fraction_le (w : List Char) : fraction w ≤ w.length := by
  fun_cases fraction w with
  | case1 c cs =>
    have hrun := run_le Char.isDigit cs
    rw [List.length_cons, List.length_cons]
    omega
  | _ => simp

theorem exponent_cut (hd : cuts d = true) (w rest : List Char) :
    exponent (w ++ d :: rest) = exponent w := by
  have hdigit := of_cuts hd (p := Char.isDigit) rfl
  have hsign := of_cuts hd (p := fun c => c == '+' || c == '-') rfl
  have hmark := of_cuts hd (p := ['e', 'E', 'd', 'D'].contains) rfl
  cases w with
  | nil =>
    rw [List.nil_append, exponent, hmark]
    rfl
  | cons c w =>
    rw [List.cons_append, exponent, exponent, startsWithAny_cut hsign]
    dsimp only
    have hle : (if startsWithAny (fun s => s == '+' || s == '-') w then 1 else 0) ≤ w.length := by
      cases w with
      | nil => exact Nat.zero_le _
      | cons => split <;> simp
    rw [List.drop_append_of_le_length hle, run_cut hdigit]

theorem exponent_le (w : List Char) : exponent w ≤ w.length := by
  cases w with
  | nil => exact Nat.le_refl 0
  | cons c w =>
    have hrun := run_le Char.isDigit
      (w.drop (if startsWithAny (fun s => s == '+' || s == '-') w then 1 else 0))
    rw [List.length_drop] at hrun
    rw [exponent, List.length_cons]
    dsimp only
    generalize (if startsWithAny (fun s => s == '+' || s == '-') w then 1 else 0) = sign at hrun ⊢
    split
    · split <;> omega
    · omega

theorem imaginary_cut (hd : cuts d = true) (w rest : List Char) :
    imaginary (w ++ d :: rest) = imaginary w := by
  cases w with
  | nil =>
    rw [List.nil_append, imaginary, of_cuts hd (p := ['i', 'j', 'I', 'J'].contains) rfl]
    rfl
  | cons c w =>
    rw [List.cons_append, imaginary, imaginary,
      startsWithAny_cut (of_cuts hd (p := isNameChar) rfl)]

theorem imaginary_le (w : List Char) : imaginary w ≤ w.length := by
  cases w with
  | nil => exact Nat.le_refl 0
  | cons c w =>
    rw [imaginary]
    split <;> simp

theorem excess_cut (hd : cuts d = true) (w rest : List Char) :
    excess (w ++ d :: rest) = excess w := by
  have hdigit := of_cuts hd (p := Char.isDigit) rfl
  have hdot := of_cuts hd (p := (· == '.')) rfl
  rcases w with _ | ⟨c, _ | ⟨e, w⟩⟩
  · have hne : d ≠ '.' := by simpa using hdot
    simp [excess, hne]
  · by_cases hc : c = '.'
    · subst hc
      rw [List.cons_append, List.nil_append, excess, hdigit]
      rfl
    · simp [excess, hc]
  · by_cases hc : c = '.'
    · subst hc
      rw [List.cons_append, List.cons_append, excess, excess, run_cut hdigit]
    · simp [excess, hc]

theorem tail_cut (hd : cuts d = true) (w rest : List Char) : tail (w ++ d :: rest) = tail w := by
  have hexponent := exponent_le w
  have himaginary := imaginary_le (w.drop (exponent w))
  rw [List.length_drop] at himaginary
  rw [tail, tail, exponent_cut hd, List.drop_append_of_le_length hexponent, imaginary_cut hd,
    List.drop_append_of_le_length (by omega), excess_cut hd]

theorem afterDigit_cut (hd : cuts d = true) (c : Char) (w rest : List Char) :
    afterDigit c (w ++ d :: rest) = afterDigit c w := by
  have hdigits := run_le Char.isDigit w
  have hfraction := fraction_le (w.drop (run Char.isDigit w))
  rw [List.length_drop] at hfraction
  rw [afterDigit, afterDigit, run_cut (of_cuts hd rfl), radix?_cut hd]
  dsimp only
  rw [List.drop_append_of_le_length hdigits, fraction_cut hd,
    List.drop_append_of_le_length (by omega), tail_cut hd]

theorem afterDot_cut (hd : cuts d = true) (w rest : List Char) :
    afterDot (w ++ d :: rest) = afterDot w := by
  rw [afterDot, afterDot, run_cut (of_cuts hd rfl), List.drop_append_of_le_length (run_le _ _),
    tail_cut hd]

end Number

namespace Command

theorem chainFrom_cut (hd : cuts d = true) (named : Bool) (w rest : List Char) :
    chainFrom named (w ++ d :: rest) = chainFrom named w := by
  have hname := of_cuts hd (p := isNameChar) rfl
  have halpha := of_cuts hd (p := Char.isAlpha) rfl
  have hdot : d ≠ '.' := by simpa using of_cuts hd (p := (· == '.')) rfl
  fun_induction chainFrom named w with
  | case1 named => cases rest <;> simp [chainFrom, hname, hdot]
  | case2 named c cs h ih =>
    rw [List.cons_append, chainFrom.eq_def]
    dsimp only
    rw [if_pos h, ih]
  | case3 named c h e es he ih =>
    rw [List.cons_append, List.cons_append, chainFrom, if_neg h, if_pos he, ih]
  | case4 named c h e es he =>
    rw [List.cons_append, List.cons_append, chainFrom, if_neg h, if_neg he]
  | case5 named c h =>
    rw [List.cons_append, List.nil_append, chainFrom, if_neg h, if_neg (by simp [halpha])]

theorem chain_cut (hd : cuts d = true) (w rest : List Char) : chain (w ++ d :: rest) = chain w :=
  chainFrom_cut hd false w rest

theorem chainFrom_le (named : Bool) (w : List Char) : chainFrom named w ≤ w.length := by
  fun_induction chainFrom named w with
  | case2 | case3 =>
    simp only [List.length_cons]
    omega
  | _ => exact Nat.zero_le _

theorem chain_le (w : List Char) : chain w ≤ w.length := chainFrom_le false w

end Command

end MFile.Lexing
