import MFile.Proofs.Lexing.Step

/-!
Scanners and line breaks. Numbers, literals and words of a command stay on their line; the blank
lines after a break and the rest of a continued line end with a break if they hold one, and a
block comment is read up to the break of its closing line.
-/

namespace MFile.Lexing

open Text

def Stays (cs : List Char) (n : Nat) : Prop := ∀ c ∈ cs.take n, isBreak c = false

def AtBreak (cs : List Char) : Prop := ∀ c ∈ cs.head?, isBreak c = true

namespace Stays

variable {cs : List Char} {c : Char} {m n : Nat}

theorem zero (cs : List Char) : Stays cs 0 := by simp [Stays]

theorem cons (hc : isBreak c = false) (h : Stays cs n) : Stays (c :: cs) (1 + n) := by
  intro d hd
  rw [Nat.add_comm, List.take_succ_cons, List.mem_cons] at hd
  rcases hd with rfl | hd
  · exact hc
  · exact h d hd

theorem succ (hc : isBreak c = false) (h : Stays cs n) : Stays (c :: cs) (n + 1) :=
  Nat.add_comm 1 n ▸ cons hc h

theorem pair {d : Char} (hc : isBreak c = false) (hd : isBreak d = false) (h : Stays cs n) :
    Stays (c :: d :: cs) (2 + n) := by
  rw [show 2 + n = 1 + (1 + n) by omega]
  exact cons hc (cons hd h)

theorem add (h : Stays cs m) (h' : Stays (cs.drop m) n) : Stays cs (m + n) := by
  intro d hd
  rw [List.take_add, List.mem_append] at hd
  rcases hd with hd | hd
  · exact h d hd
  · exact h' d hd

theorem mono (h : Stays cs n) (hmn : m ≤ n) : Stays cs m :=
  fun d hd => h d (List.take_subset_take_left cs hmn hd)

theorem run {p : Char → Bool} (hp : ∀ d, p d = true → isBreak d = false) (cs : List Char) :
    Stays cs (Text.run p cs) := by
  intro d hd
  rw [take_run] at hd
  exact hp d (List.mem_takeWhile_imp hd)

theorem word {w : List Char} (hw : ∀ d ∈ w, isBreak d = false) (h : w.isPrefixOf cs = true) :
    Stays cs w.length := by
  intro d hd
  rw [← List.prefix_iff_eq_take.1 (List.isPrefixOf_iff_prefix.1 h)] at hd
  exact hw d hd

theorem lineFeed_notMem (h : Stays cs n) : '\n' ∉ cs.take n := by
  intro hmem
  exact absurd (h '\n' hmem) (by decide)

end Stays

theorem not_break_of_class {p : Char → Bool} (hn : p '\n' = false) (hr : p '\r' = false) {d : Char}
    (h : p d = true) : isBreak d = false := by
  cases hb : isBreak d with
  | false => rfl
  | true =>
    simp only [isBreak, Bool.or_eq_true, beq_iff_eq] at hb
    rcases hb with rfl | rfl
    · rw [hn] at h
      cases h
    · rw [hr] at h
      cases h

theorem stays_first {p : Char → Bool} (hn : p '\n' = false) (hr : p '\r' = false)
    {cs : List Char} (h : startsWithAny p cs = true) : Stays cs 1 := by
  cases cs with
  | nil => simp [startsWithAny] at h
  | cons c cs => exact Stays.cons (not_break_of_class hn hr h) (Stays.zero cs)

/-! ## Numbers -/

namespace Number

theorem stays_digits (cs : List Char) : Stays cs (run Char.isDigit cs) :=
  Stays.run (fun _ => not_break_of_class (by decide) (by decide)) cs

theorem stays_classSuffix (cs : List Char) : Stays cs (classSuffix cs) := by
  have hall : (integerClasses.all fun w => w.all fun d => !isBreak d) = true := by rfl
  have hclasses : ∀ w ∈ integerClasses, ∀ d ∈ w, isBreak d = false := by
    intro w hw d hd
    have hd' := List.all_eq_true.1 (List.all_eq_true.1 hall w hw) d hd
    simpa using hd'
  rw [classSuffix]
  split
  · rename_i w hfind
    split
    · exact Stays.zero cs
    · have hprefix := List.find?_some hfind
      exact Stays.word (hclasses w (List.mem_of_find?_eq_some hfind)) hprefix
  · exact Stays.zero cs

theorem stays_radix {cs : List Char} {n : Nat} (h : radix? cs = some n) : Stays cs n := by
  cases cs with
  | nil => simp [radix?] at h
  | cons c cs =>
    have step : ∀ digits, isBreak c = false → Stays cs digits →
        (if digits = 0 then none else some (1 + digits + classSuffix (cs.drop digits))) =
          some n → Stays (c :: cs) n := by
      intro digits hc hdigits hn
      by_cases hzero : digits = 0
      · simp [hzero] at hn
      · rw [if_neg hzero, Option.some.injEq, Nat.add_assoc] at hn
        exact hn ▸ Stays.cons hc (hdigits.add (stays_classSuffix _))
    simp only [radix?] at h
    by_cases hx : c = 'x' ∨ c = 'X'
    · rw [if_pos hx] at h
      have hc : isBreak c = false := by rcases hx with rfl | rfl <;> decide
      exact step _ hc (Stays.run (fun _ => not_break_of_class (by decide) (by decide)) cs) h
    · rw [if_neg hx] at h
      by_cases hb : c = 'b' ∨ c = 'B'
      · rw [if_pos hb] at h
        have hc : isBreak c = false := by rcases hb with rfl | rfl <;> decide
        exact step _ hc (Stays.run (fun _ => not_break_of_class (by decide) (by decide)) cs) h
      · simp [if_neg hb] at h

theorem stays_fraction (cs : List Char) : Stays cs (fraction cs) := by
  rw [fraction.eq_def]
  split
  · rename_i c cs
    split
    · rename_i hc
      have hd := not_break_of_class (by decide) (by decide) hc
      exact Stays.pair (by decide) hd (stays_digits cs)
    · split
      · exact Stays.zero _
      · exact Stays.cons (by decide) (Stays.zero _)
  · exact Stays.cons (by decide) (Stays.zero _)
  · exact Stays.zero _

theorem stays_sign (cs : List Char) :
    Stays cs (if startsWithAny (fun s => s == '+' || s == '-') cs then 1 else 0) := by
  split
  · rename_i h
    exact stays_first (by decide) (by decide) h
  · exact Stays.zero cs

theorem stays_exponent (cs : List Char) : Stays cs (exponent cs) := by
  cases cs with
  | nil => exact Stays.zero []
  | cons c cs =>
    simp only [exponent]
    by_cases hc : ['e', 'E', 'd', 'D'].contains c = true
    · rw [if_pos hc]
      have hmark := not_break_of_class (p := ['e', 'E', 'd', 'D'].contains) (by decide) (by decide)
        hc
      have hsign := stays_sign cs
      generalize (if startsWithAny (fun s => s == '+' || s == '-') cs then 1 else 0) = sign at *
      split
      · exact Stays.zero _
      · rw [Nat.add_assoc]
        exact Stays.cons hmark (hsign.add (stays_digits _))
    · rw [if_neg hc]
      exact Stays.zero _

theorem stays_imaginary (cs : List Char) : Stays cs (imaginary cs) := by
  cases cs with
  | nil => exact Stays.zero []
  | cons c cs =>
    simp only [imaginary]
    split
    · rename_i h
      rw [Bool.and_eq_true] at h
      exact Stays.cons
        (not_break_of_class (p := ['i', 'j', 'I', 'J'].contains) (by decide) (by decide) h.1)
        (Stays.zero cs)
    · exact Stays.zero _

theorem stays_tail {cs : List Char} {n : Nat} (h : tail cs = .sound n) : Stays cs n := by
  simp only [tail] at h
  split at h
  · cases h
    exact (stays_exponent cs).add (stays_imaginary _)
  · cases h

theorem after_sound {extent : Extent} {m n : Nat} (h : extent.after m = .sound n) :
    ∃ k, extent = .sound k ∧ n = m + k := by
  cases extent with
  | sound k =>
    cases h
    exact ⟨k, rfl, rfl⟩
  | faulty fault k => cases h

theorem stays_afterDigit {c : Char} {cs : List Char} {n : Nat} (h : afterDigit c cs = .sound n) :
    Stays cs n := by
  have decimal : (tail (cs.drop (run Char.isDigit cs + fraction (cs.drop (run Char.isDigit cs))))
      ).after (run Char.isDigit cs + fraction (cs.drop (run Char.isDigit cs))) = .sound n →
      Stays cs n := by
    intro hn
    obtain ⟨k, hk, rfl⟩ := after_sound hn
    exact ((stays_digits cs).add (stays_fraction _)).add (stays_tail hk)
  simp only [afterDigit] at h
  split at h
  · cases hradix : radix? cs with
    | none =>
      rw [hradix] at h
      exact decimal h
    | some k =>
      rw [hradix] at h
      cases h
      exact stays_radix hradix
  · exact decimal h

theorem stays_afterDot {cs : List Char} {n : Nat} (h : afterDot cs = .sound n) : Stays cs n := by
  obtain ⟨k, hk, rfl⟩ := after_sound h
  exact (stays_digits cs).add (stays_tail hk)

end Number

/-! ## Literals and commands -/

theorem mapped_ok {r : Except Nat Nat} {f : Nat → Nat} {n : Nat}
    (h : (r.map f).mapError f = .ok n) : ∃ k, r = .ok k ∧ n = f k := by
  cases r with
  | error k => cases h
  | ok k =>
    cases h
    exact ⟨k, rfl, rfl⟩

theorem stays_close {quote : Char} (hq : isBreak quote = false) {cs : List Char} {n : Nat}
    (h : Quotation.close quote cs = .ok n) : Stays cs n := by
  fun_induction Quotation.close quote cs generalizing n with
  | case1 => cases h
  | case2 c cs hb => cases h
  | case3 ds _ ih =>
    obtain ⟨k, hk, rfl⟩ := mapped_ok h
    exact Stays.pair hq hq (ih hk)
  | case4 d ds _ _ =>
    cases h
    exact Stays.cons hq (Stays.zero _)
  | case5 =>
    cases h
    exact Stays.cons hq (Stays.zero _)
  | case6 c cs hb _ ih =>
    obtain ⟨k, hk, rfl⟩ := mapped_ok h
    exact Stays.cons (by simpa using hb) (ih hk)

theorem stays_extent {quote : Char} (hq : isBreak quote = false) {fault : Fault} {cs : List Char}
    {n : Nat} (h : Quotation.extent quote fault cs = .sound n) : Stays cs n := by
  rw [Quotation.extent] at h
  split at h
  · rename_i more hclose
    cases h
    exact stays_close hq hclose
  · cases h

theorem stays_commandText {kind : CommandKind} {quoted : Bool} {cs : List Char} {n : Nat}
    (h : Command.text kind quoted cs = .ok n) : Stays cs n := by
  fun_induction Command.text kind quoted cs generalizing n with
  | case1 =>
    cases h
    exact Stays.zero _
  | case2 => cases h
  | case3 =>
    cases h
    exact Stays.zero _
  | case4 c cs hstop ih =>
    obtain ⟨k, hk, rfl⟩ := mapped_ok h
    simp only [Command.isStop, Bool.or_eq_true, not_or, Bool.not_eq_true] at hstop
    exact Stays.cons hstop.1.1.1.1.1 (ih hk)
  | case5 => cases h
  | case6 ds _ ih =>
    obtain ⟨k, hk, rfl⟩ := mapped_ok h
    exact Stays.pair (by decide) (by decide) (ih hk)
  | case7 d ds _ _ ih =>
    obtain ⟨k, hk, rfl⟩ := mapped_ok h
    exact Stays.cons (by decide) (ih hk)
  | case8 =>
    cases h
    exact Stays.cons (by decide) (Stays.zero _)
  | case9 c cs hb _ ih =>
    obtain ⟨k, hk, rfl⟩ := mapped_ok h
    exact Stays.cons (by simpa using hb) (ih hk)

/-! ## Line breaks, continuations and comments -/

theorem take_blankLines (cs : List Char) :
    cs.take (blankLines cs) = [] ∨ ∃ front, cs.take (blankLines cs) = front ++ ['\n'] := by
  have hprefix : fullPart (cs.takeWhile fun c => isBlank c || isBreak c) <+: cs :=
    (List.rdropWhile_prefix _ _).trans (List.takeWhile_prefix _)
  have htake : cs.take (blankLines cs) =
      fullPart (cs.takeWhile fun c => isBlank c || isBreak c) :=
    (List.prefix_iff_eq_take.1 hprefix).symm
  rw [htake]
  exact fullPart_eq _

theorem take_throughBreak (cs : List Char) :
    '\n' ∉ cs.take (throughBreak cs) ∨
      ∃ front, cs.take (throughBreak cs) = front ++ ['\n'] := by
  have htake : cs.take (throughBreak cs) = cs.take (run (· ≠ '\n') cs + 1) := by
    rw [throughBreak, ← List.take_take, List.take_length]
  rw [htake]
  clear htake
  induction cs with
  | nil => exact Or.inl (by simp)
  | cons c cs ih =>
    by_cases hc : c = '\n'
    · exact Or.inr ⟨[], by simp [run, hc]⟩
    · have hrun : run (· ≠ '\n') (c :: cs) = run (· ≠ '\n') cs + 1 := by simp [run, hc]
      rw [hrun, List.take_succ_cons]
      rcases ih with ih | ⟨front, hfront⟩
      · refine Or.inl fun hmem => ?_
        rcases List.mem_cons.1 hmem with heq | hmem
        · exact hc heq.symm
        · exact ih hmem
      · exact Or.inr ⟨c :: front, by rw [hfront, List.cons_append]⟩

theorem stays_restOfLine (cs : List Char) : Stays cs (restOfLine cs) :=
  Stays.run (fun d hd => by simpa using hd) cs

theorem fullLines_break {cs line : List Char} (h : line ∈ (fullLines cs).dropLast) :
    line.getLast? = some '\n' := by
  induction cs generalizing line with
  | nil => simp [fullLines] at h
  | cons c cs ih =>
    rw [fullLines] at h
    by_cases hn : c = '\n'
    · rw [if_pos hn] at h
      cases hlines : fullLines cs with
      | nil => simp [hlines] at h
      | cons first lines =>
        rw [hlines, List.dropLast_cons_cons, List.mem_cons] at h
        rcases h with rfl | h
        · simp [hn]
        · exact ih (by rwa [hlines])
    · rw [if_neg hn] at h
      cases hlines : fullLines cs with
      | nil => simp [hlines] at h
      | cons first lines =>
        cases lines with
        | nil => simp [hlines] at h
        | cons second lines =>
          simp only [hlines, List.dropLast_cons_cons, List.mem_cons] at h
          rcases h with rfl | h
          · have hfirst := @ih first (by simp [hlines])
            cases first with
            | nil => simp at hfirst
            | cons d first => simpa using hfirst
          · exact ih (by simp [hlines, h])

theorem flatten_fullLines (cs : List Char) : (fullLines cs).flatten = cs := by
  induction cs with
  | nil => rfl
  | cons c cs ih =>
    rw [fullLines]
    split
    · simp [ih]
    · split
      · rename_i hlines
        simp [hlines] at ih
        simp [ih]
      · rename_i line lines hlines
        rw [hlines] at ih
        simpa using ih

theorem atBreak_drop_trimEnd {line rest : List Char}
    (h : line.getLast? = some '\n' ∨ rest = []) :
    AtBreak ((line ++ rest).drop (trimEnd isBreak line).length) := by
  have hsplit : trimEnd isBreak line ++ line.rtakeWhile isBreak = line :=
    List.rdropWhile_append_rtakeWhile
  have hcut : (line ++ rest).drop (trimEnd isBreak line).length =
      line.rtakeWhile isBreak ++ rest := by
    calc (line ++ rest).drop (trimEnd isBreak line).length
        = (trimEnd isBreak line ++ line.rtakeWhile isBreak ++ rest).drop
            (trimEnd isBreak line).length := by rw [hsplit]
      _ = line.rtakeWhile isBreak ++ rest := by rw [List.append_assoc, List.drop_left]
  rw [hcut]
  intro d hd
  cases hbreaks : line.rtakeWhile isBreak with
  | cons b breaks =>
    rw [hbreaks] at hd
    cases hd
    exact List.mem_rtakeWhile_imp (hbreaks ▸ List.mem_cons_self)
  | nil =>
    rcases h with h | rfl
    · obtain ⟨front, rfl⟩ := List.getLast?_eq_some_iff.1 h
      have hlast := List.rtakeWhile_eq_nil_iff.1 hbreaks (by simp)
      simp [isBreak] at hlast
    · simp [hbreaks] at hd

theorem atBreak_closingLine {close : List Char} {lines : List (List Char)} {n : Nat}
    (hlines : ∀ line ∈ lines.dropLast, line.getLast? = some '\n')
    (h : closingLine? close lines = some n) : AtBreak (lines.flatten.drop n) := by
  induction lines generalizing n with
  | nil => cases h
  | cons line lines ih =>
    rw [List.flatten_cons]
    simp only [closingLine?] at h
    split at h
    · cases h
      cases lines with
      | nil => exact atBreak_drop_trimEnd (Or.inr rfl)
      | cons second lines => exact atBreak_drop_trimEnd (Or.inl (hlines line (by simp)))
    · obtain ⟨m, hm, rfl⟩ := Option.map_eq_some_iff.1 h
      have hrest : ∀ l ∈ lines.dropLast, l.getLast? = some '\n' := by
        intro l hl
        cases lines with
        | nil => simp at hl
        | cons second lines => exact hlines l (by simp [hl])
      rw [← List.drop_drop, List.drop_left]
      exact ih hrest hm

theorem atBreak_blockBody {close rest : List Char} {n : Nat}
    (h : blockBody? close rest = some n) : AtBreak (rest.drop n) := by
  have hflat := flatten_fullLines rest
  have hbreaks := @fullLines_break rest
  rw [blockBody?] at h
  cases hlines : fullLines rest with
  | nil => simp [hlines] at h
  | cons line lines =>
    rw [hlines] at h hflat
    obtain ⟨m, hm, rfl⟩ := Option.map_eq_some_iff.1 h
    rw [← hflat, List.flatten_cons, ← List.drop_drop, List.drop_left]
    refine atBreak_closingLine (fun l hl => hbreaks ?_) hm
    cases lines with
    | nil => simp at hl
    | cons second lines => simp [hlines, hl]

end MFile.Lexing
