import MFile.Proofs.Lexing.Quotations
import MFile.Proofs.Lexing.Words

/-!
The text of a command is cut at the quotes that its value is read by. The scanner passes both quotes
of one that is written twice in one move and the reader looks one character ahead, but each quote
that either of them passes takes it in or out of a run, so they are inside of runs at the same
places. These places settle where the scanner stops, and with which answer.
-/

namespace MFile

open Lexing Text

namespace Lexing.Command

variable {kind : CommandKind} {inside opened : Bool} {c : Char} {cs : List Char} {n : Nat}

def ends (kind : CommandKind) (c : Char) : Bool := isStop c || (kind == .words && isBlank c)

/-- The place where text that begins inside or outside of a quoted run is cut, `opened` if a run is
still open there. The flags before and at that place are those of reading the text. -/
structure Stops (kind : CommandKind) (inside : Bool) (cs : List Char) (n : Nat) (opened : Bool) :
    Prop where
  within : n ≤ cs.length
  reading : insideAfter '\'' inside (cs.take n) = opened
  line : ∀ d ∈ cs.take n, isBreak d = false
  quoted : ∀ i < n, ∀ d, cs[i]? = some d → ends kind d = true →
    insideAfter '\'' inside (cs.take i) = true
  /-- A run that is open could have been closed further on in the line, but not in the next. -/
  next : ∀ d, cs[n]? = some d → (if opened then isBreak d else ends kind d) = true

theorem Stops.here (hreading : inside = opened)
    (hnext : ∀ d ∈ cs.head?, (if opened then isBreak d else ends kind d) = true) :
    Stops kind inside cs 0 opened where
  within := Nat.zero_le _
  reading := hreading
  line := by simp
  quoted i hi := absurd hi (Nat.not_lt_zero i)
  next d hd := hnext d (by rwa [List.head?_eq_getElem?])

theorem Stops.cons (hline : isBreak c = false) (hquoted : ends kind c = true → inside = true)
    (h : Stops kind (inside ^^ c == '\'') cs n opened) :
    Stops kind inside (c :: cs) (n + 1) opened where
  within := Nat.succ_le_succ h.within
  reading := h.reading
  line := by simpa [hline] using h.line
  quoted i hi d hd hends := by
    cases i with
    | zero =>
      obtain rfl : c = d := by simpa using hd
      exact hquoted hends
    | succ i => exact h.quoted i (Nat.lt_of_succ_lt_succ hi) d (by simpa using hd) hends
  next d hd := h.next d (by simpa using hd)

theorem Stops.le {n' : Nat} {opened' : Bool} (h : Stops kind inside cs n opened)
    (h' : Stops kind inside cs n' opened') : n' ≤ n := by
  by_contra hlt
  have hn : n < n' := Nat.lt_of_not_ge hlt
  have hlength : n < cs.length := hn.trans_le h'.within
  have hat : cs[n]? = some cs[n] := List.getElem?_eq_getElem hlength
  have hnext := h.next _ hat
  cases opened with
  | true =>
    have hmem : cs[n] ∈ cs.take n' :=
      List.mem_take_iff_getElem.2 ⟨n, lt_min hn hlength, rfl⟩
    simp [h'.line _ hmem] at hnext
  | false =>
    have hinside := h'.quoted n hn _ hat hnext
    simp [h.reading] at hinside

theorem Stops.unique {n' : Nat} {opened' : Bool} (h : Stops kind inside cs n opened)
    (h' : Stops kind inside cs n' opened') : n = n' ∧ opened = opened' := by
  obtain rfl : n = n' := le_antisymm (h'.le h) (h.le h')
  exact ⟨rfl, h.reading.symm.trans h'.reading⟩

def StopsAt (kind : CommandKind) (inside : Bool) (cs : List Char) : Except Nat Nat → Prop
  | .ok n => Stops kind inside cs n false
  | .error n => Stops kind inside cs n true

theorem StopsAt.cons {answer : Except Nat Nat} (hline : isBreak c = false)
    (hquoted : ends kind c = true → inside = true)
    (h : StopsAt kind (inside ^^ c == '\'') cs answer) :
    StopsAt kind inside (c :: cs) ((answer.map (1 + ·)).mapError (1 + ·)) := by
  cases answer with
  | ok n | error n =>
    change Stops kind inside (c :: cs) (1 + n) _
    rw [Nat.add_comm]
    exact Stops.cons hline hquoted h

/-- One that is written twice is two quotes for the reader: it is out of the run between them. -/
theorem StopsAt.doubled {answer : Except Nat Nat} (h : StopsAt kind true cs answer) :
    StopsAt kind true ('\'' :: '\'' :: cs) ((answer.map (2 + ·)).mapError (2 + ·)) := by
  cases answer with
  | ok n | error n =>
    change Stops kind true ('\'' :: '\'' :: cs) (2 + n) _
    rw [Nat.add_comm]
    apply Stops.cons (by decide) (fun _ => rfl)
    apply Stops.cons (by decide) (fun hends => absurd hends (by cases kind <;> decide))
    exact h

theorem stopsAt_text (kind : CommandKind) (inside : Bool) (cs : List Char) :
    StopsAt kind inside cs (text kind inside cs) := by
  fun_induction text kind inside cs with
  | case1 | case2 => exact Stops.here rfl (by simp)
  | case3 c cs hends => exact Stops.here rfl (by simpa [ends] using hends)
  | case4 c cs hends ih =>
    have hline : isBreak c = false := by
      by_contra hbreak
      simp [isStop, hbreak] at hends
    exact StopsAt.cons hline (fun h => absurd h hends) (by rwa [Bool.false_xor])
  | case5 c cs hbreak => exact Stops.here rfl (by simpa using hbreak)
  | case6 cs _ ih => exact ih.doubled
  | case7 d cs hbreak hd ih => exact StopsAt.cons (by decide) (fun _ => rfl) ih
  | case8 => exact Stops.cons (by decide) (fun _ => rfl) (Stops.here rfl (by simp))
  | case9 c cs hbreak hc ih =>
    apply StopsAt.cons (by simpa using hbreak) (fun _ => rfl)
    rwa [beq_eq_false_iff_ne.2 hc, Bool.xor_false]

theorem text_eq_ok_iff : text kind inside cs = .ok n ↔ Stops kind inside cs n false := by
  have hstops := stopsAt_text kind inside cs
  constructor
  · intro h
    rwa [h] at hstops
  · intro h
    cases hanswer : text kind inside cs with
    | ok n' => rw [hanswer] at hstops; rw [(h.unique hstops).1]
    | error n' => rw [hanswer] at hstops; cases (h.unique hstops).2

theorem text_eq_error_iff : text kind inside cs = .error n ↔ Stops kind inside cs n true := by
  have hstops := stopsAt_text kind inside cs
  constructor
  · intro h
    rwa [h] at hstops
  · intro h
    cases hanswer : text kind inside cs with
    | ok n' => rw [hanswer] at hstops; cases (h.unique hstops).2
    | error n' => rw [hanswer] at hstops; rw [(h.unique hstops).1]

end Lexing.Command

namespace Scan

open Lexing.State

variable {file : String} {octave : Bool} {st : Lexing.State} {t : Token} {c : Char}
  {cs : List Char} {more : Nat} {mode : Mode}

theorem text_of_takes (h : Takes octave st c cs .charArray more mode)
    (hmode : st.pastBlanks.mode = .command .words) :
    Command.text .words false (c :: cs) = .ok (more + 1) := by
  have hdecide := h.decides
  rw [State.decide, hmode] at hdecide
  dsimp only at hdecide
  split at hdecide
  · rename_i hstop
    obtain ⟨rfl, -⟩ := decidePlain_quoted hdecide rfl
    exact absurd hstop (by decide)
  · rename_i hstop
    rw [decideCommand.eq_def] at hdecide
    split at hdecide
    · cases hdecide
    · cases hword : Command.text .words false (c :: cs) with
      | error n =>
        rw [hword] at hdecide
        cases hdecide
      | ok n =>
        rw [hword] at hdecide
        cases hdecide
        have hn := Command.text_ne_zero (eq_false_of_ne_true hstop) (pastBlanks_head h.ahead) hword
        rw [Nat.sub_add_cancel (Nat.one_le_iff_ne_zero.2 hn)]

theorem text_of_mem_wordsFrom (h : t ∈ wordsFrom file octave st) :
    ∃ body n, Command.text .words false body = .ok n ∧ t.raw.toList = body.take n := by
  fun_induction wordsFrom file octave st with
  | case1 st pieces next hstep _ ih =>
    obtain hfirst | hlater := List.mem_append.1 h
    · split at hfirst
      · rename_i hmode
        obtain ⟨c, cs, kind, more, mode, htakes, rfl, -⟩ := takes_of_step hstep
        obtain ⟨hmem, hkind⟩ := List.mem_filter.1 hfirst
        rw [tokens_taken, List.mem_append, List.mem_singleton] at hmem
        obtain hcomma | rfl := hmem
        · rw [(take_comma (Option.mem_toList.1 hcomma)).2.1] at hkind
          cases hkind
        · rw [take_token_kind] at hkind
          obtain rfl := eq_of_beq hkind
          exact ⟨c :: cs, more + 1, text_of_takes htakes hmode, htakes.raw file⟩
      · cases hfirst
    · exact ih hlater
  | case2 => cases h

/-- The text of a command is scanned by the quotes that it is read by: reading it can be taken up
anywhere that is not at a quote, with the flag that the scanner stops by, the scanner stops at
exactly one place, and the value of a word is what it holds, run after run. -/
theorem commandText_quotes :
    (∀ (inside : Bool) (cs : List Char) (i : Nat), cs[i]? ≠ some '\'' →
      dequoteFrom '\'' inside cs = dequoteFrom '\'' inside (cs.take i) ++
        dequoteFrom '\'' (insideAfter '\'' inside (cs.take i)) (cs.drop i)) ∧
    (∀ (kind : CommandKind) (body : List Char) (n : Nat),
      (Command.text kind false body = .ok n ↔ Command.Stops kind false body n false) ∧
      (Command.text kind false body = .error n ↔ Command.Stops kind false body n true)) ∧
    ∀ (source : SourceText) (settings : Settings), ∀ t ∈ commandWords source settings,
      ∃ parts, Cut '\'' t.raw.toList parts ∧ t.value.toList = parts.flatMap Part.value := by
  refine ⟨fun inside cs i hi => ?_, fun kind body n => ?_, fun source settings t h => ?_⟩
  · rw [← dequoteFrom_append (by rwa [List.head?_drop]), List.take_append_drop]
  · exact ⟨Command.text_eq_ok_iff, Command.text_eq_error_iff⟩
  · obtain ⟨body, n, htext, hraw⟩ := text_of_mem_wordsFrom h
    have hcut := exists_cut false (body.take n) (Command.text_eq_ok_iff.1 htext).reading
    obtain ⟨parts, hparts⟩ := hcut
    rw [← hraw] at hparts
    refine ⟨parts, hparts, ?_⟩
    rw [Token.value, kind_of_mem_wordsFrom h, Kind.valueOf, dequote, String.toList_ofList,
      hparts.dequoteFrom]

def wordWithRun : SourceText := .ofString "t.m" "disp a'b ''c'd; x\n" {}

theorem commandText_quotes_wordWithRun :
    dequoteFrom '\'' false ['\'', ' ', '\'', '\'', 'c'] =
      dequoteFrom '\'' false ['\''] ++ dequoteFrom '\'' true [' ', '\'', '\'', 'c'] ∧
    Command.Stops .words false ['\'', ' ', '\'', '\'', '\'', 'd', ';'] 6 false ∧
    Command.Stops .path false ['a', ' ', '\'', ';'] 4 true ∧
    ∃ t ∈ commandWords wordWithRun {}, ∃ parts, Cut '\'' t.raw.toList parts ∧
      t.value.toList = parts.flatMap Part.value := by
  obtain ⟨hreading, hstops, hwords⟩ := commandText_quotes
  refine ⟨?_, (hstops .words _ 6).1.1 rfl, (hstops .path _ 4).2.1 rfl, ?_⟩
  · exact hreading false ['\'', ' ', '\'', '\'', 'c'] 1 (by decide)
  · have hword : ((commandWords wordWithRun {}).head?).isSome = true := by decide +kernel
    obtain ⟨t, ht⟩ := Option.isSome_iff_exists.1 hword
    have hmem := List.mem_of_head? ht
    exact ⟨t, hmem, hwords _ _ t hmem⟩

example : (commandWords wordWithRun {}).map (fun t => (t.value, t.raw)) =
    [("ab 'cd", "a'b ''c'd")] := by
  decide +kernel

end Scan

end MFile
