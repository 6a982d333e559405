import MFile.Proofs.Lexing.Step
import MFile.Proofs.Lexing.SingleLine

/-!
How tokens use up lines. Most stay on theirs; a line break and a continuation end with the break
they hold, and after a block comment its last line is at its end. A break is only ever read as a
line break, so no other token follows a block comment on the same line. A fault is found on the line
that has been come to.
-/

namespace MFile.Lexing

open Text

/-- How the first `n` characters, taken as a token of the given kind, use up lines. -/
inductive LineUse (cs : List Char) (n : Nat) : Kind → Prop
  | within {kind : Kind} : kind ≠ .newline → Stays cs n → LineUse cs n kind
  | through {kind : Kind} (front : List Char) : kind = .newline ∨ kind = .continuation →
      cs.take n = front ++ ['\n'] → LineUse cs n kind
  | toEnd : '\n' ∉ cs.take n → LineUse cs n .continuation
  | block : AtBreak (cs.drop n) → LineUse cs n .comment

theorem lineUse_continuation {c : Char} {cs : List Char} {n : Nat} (hc : c ≠ '\n')
    (h : '\n' ∉ cs.take n ∨ ∃ front, cs.take n = front ++ ['\n']) :
    LineUse (c :: cs) (n + 1) .continuation := by
  rcases h with h | ⟨front, hfront⟩
  · refine .toEnd fun hmem => ?_
    rw [List.take_succ_cons, List.mem_cons] at hmem
    rcases hmem with heq | hmem
    · exact hc heq.symm
    · exact h hmem
  · exact .through (c :: front) (Or.inr rfl) (by rw [List.take_succ_cons, hfront, List.cons_append])

theorem lineUse_ofExtent {kind found : Kind} {mode mode' : Mode} {extent : Extent} {c : Char}
    {cs : List Char} {more : Nat} (hk : kind ≠ .newline) (hc : isBreak c = false)
    (hs : ∀ n, extent = .sound n → Stays cs n)
    (h : Decision.ofExtent kind mode extent = .token found more mode') :
    LineUse (c :: cs) (more + 1) found := by
  cases extent with
  | sound n =>
    cases h
    exact .within hk (Stays.succ hc (hs _ rfl))
  | faulty fault n => cases h

def Lexeme.Keeps (c : Char) (cs : List Char) : Lexeme → Prop
  | newline more => ∃ front, (c :: cs).take (more + 1) = front ++ ['\n']
  | continuation more => isBreak c = false ∧
      ('\n' ∉ cs.take more ∨ ∃ front, cs.take more = front ++ ['\n'])
  | comment more => isBreak c = false ∧ more = restOfLine cs
  | word more => isBreak c = false ∧ Stays cs more
  | number extent | text extent => isBreak c = false ∧ ∀ n, extent = .sound n → Stays cs n
  | quote => c = '\''
  | bang more => c = '!' ∧ Stays cs more
  | symbol kind more => isBreak c = false ∧ kind ≠ .newline ∧ Stays cs more

theorem newline_blankLines (rest : List Char) :
    ∃ front, '\n' :: rest.take (blankLines rest) = front ++ ['\n'] := by
  rcases take_blankLines rest with hnone | ⟨front, hfront⟩
  · exact ⟨[], by rw [hnone]; rfl⟩
  · exact ⟨'\n' :: front, by rw [hfront, List.cons_append]⟩

theorem Lexeme.mark?_ne_newline {c : Char} {kind : Kind} (h : mark? c = some kind) :
    kind ≠ .newline := by
  rw [mark?.eq_def] at h
  split at h <;> simp at h <;> subst h <;> decide

theorem Lexeme.keeps_symbol {c : Char} {cs : List Char} {lexeme : Lexeme}
    (hc : isBreak c = false) (h : symbol? c cs = some lexeme) : lexeme.Keeps c cs := by
  rw [symbol?] at h
  split at h
  · rename_i hpair
    cases h
    have hclass : ∀ d, isBreak d = true → isPair c d = false := by
      intro d hd
      simp only [isBreak, Bool.or_eq_true, beq_iff_eq] at hd
      rcases hd with rfl | rfl <;> (rw [isPair.eq_def]; split <;> decide)
    exact ⟨hc, by decide, stays_first (hclass _ (by decide)) (hclass _ (by decide)) hpair⟩
  · obtain ⟨kind, hkind, rfl⟩ := Option.map_eq_some_iff.1 h
    exact ⟨hc, mark?_ne_newline hkind, Stays.zero cs⟩

theorem Lexeme.keeps_carriageReturn {cs : List Char} :
    (newline (1 + blankLines cs)).Keeps '\r' ('\n' :: cs) := by
  obtain ⟨front, hfront⟩ := newline_blankLines cs
  refine ⟨'\r' :: front, ?_⟩
  rw [List.take_succ_cons, Nat.add_comm 1, List.take_succ_cons, hfront, List.cons_append]

theorem Lexeme.keeps_dots {c : Char} {cs : List Char} (hc : isBreak c = false)
    (hdots : ['.', '.'].isPrefixOf cs = true) :
    (continuation (2 + throughBreak (cs.drop 2))).Keeps c cs := by
  obtain ⟨rest, rfl⟩ := List.isPrefixOf_iff_prefix.1 hdots
  refine ⟨hc, ?_⟩
  rw [List.cons_append, List.cons_append, List.nil_append, Nat.add_comm 2,
    List.take_succ_cons, List.take_succ_cons]
  rcases take_throughBreak rest with h | ⟨front, hfront⟩
  · exact Or.inl (by simpa using h)
  · exact Or.inr ⟨'.' :: '.' :: front, by simpa using hfront⟩

theorem Lexeme.keeps_ofChars {c : Char} {cs : List Char} {lexeme : Lexeme}
    (h : ofChars? c cs = some lexeme) : lexeme.Keeps c cs := by
  cases reading_ofChars? h with
  | lineFeed hc => exact hc ▸ newline_blankLines cs
  | carriageReturn hc hcs => exact hc ▸ hcs ▸ keeps_carriageReturn
  | comment hc => exact ⟨by obtain rfl | rfl := hc <;> rfl, rfl⟩
  | word hbreak =>
    exact ⟨hbreak, Stays.run (fun _ => not_break_of_class (by decide) (by decide)) cs⟩
  | digit hbreak => exact ⟨hbreak, fun n => Number.stays_afterDigit⟩
  | dots hc hcs => exact keeps_dots (hc ▸ rfl) hcs
  | point hc => exact ⟨hc ▸ rfl, fun n => Number.stays_afterDot⟩
  | quote hc => exact hc
  | text hc => exact ⟨hc ▸ rfl, fun n => stays_extent (by decide)⟩
  | bang hc =>
    refine ⟨hc, ?_⟩
    split
    · rename_i heq
      exact stays_first (by decide) (by decide) heq
    · exact Stays.zero cs
  | symbol hbreak h => exact keeps_symbol hbreak h

namespace State

variable {st : State} {octave : Bool} {c : Char} {cs : List Char} {kind : Kind} {more : Nat}
  {mode : Mode}

theorem lineUse_decideWord {n : Nat} (hc : isBreak c = false) (hs : Stays cs n)
    (h : st.decideWord c cs n = .token kind more mode) : LineUse (c :: cs) (more + 1) kind := by
  simp only [decideWord] at h
  split at h
  · cases h
    exact .within (by decide) (Stays.succ hc hs)
  · split at h
    · cases h
      exact .within (by decide) (Stays.succ hc hs)
    · split at h
      · cases h
        exact .within (by decide) (Stays.succ hc hs)
      · cases h
        exact .within (by decide) (Stays.succ hc hs)

theorem lineUse_decideComment (hc : isBreak c = false)
    (h : st.decideComment c cs (restOfLine cs) = .token kind more mode) :
    LineUse (c :: cs) (more + 1) kind := by
  have hline := Stays.succ hc (stays_restOfLine cs)
  simp only [decideComment] at h
  split at h
  · split at h
    · split at h
      · rename_i body hbody
        cases h
        have hbreak := atBreak_blockBody hbody
        rw [List.drop_drop] at hbreak
        exact .block (by rwa [List.drop_succ_cons])
      · cases h
    · cases h
      exact .within (by decide) hline
  · cases h
    exact .within (by decide) hline

theorem lineUse_decideQuote (h : st.decideQuote cs = .token kind more mode) :
    LineUse ('\'' :: cs) (more + 1) kind := by
  rw [decideQuote] at h
  split at h
  · cases h
    exact .within (by decide) (Stays.succ (by decide) (Stays.zero cs))
  · cases h
  · exact lineUse_ofExtent (by decide) (by decide) (fun n => stays_extent (by decide)) h

theorem lineUse_decideBang {n : Nat} (hs : Stays cs n)
    (h : st.decideBang octave cs n = .token kind more mode) :
    LineUse ('!' :: cs) (more + 1) kind := by
  rw [decideBang] at h
  split at h
  · cases h
    exact .within (by decide) (Stays.succ (by decide) hs)
  · split at h
    · cases h
      exact .within (by decide) (Stays.succ (by decide) (hs.add (stays_restOfLine _)))
    · cases h

theorem lineUse_decidePlain (h : st.decidePlain octave c cs = .token kind more mode) :
    LineUse (c :: cs) (more + 1) kind ∧ (isBreak c = true → kind = .newline) := by
  have notBreak : isBreak c = false → isBreak c = true → kind = .newline := by
    intro hc hb
    rw [hc] at hb
    cases hb
  rw [decidePlain] at h
  cases hlexeme : Lexeme.ofChars? c cs with
  | none => simp [hlexeme] at h
  | some lexeme =>
    have hkeeps := Lexeme.keeps_ofChars hlexeme
    rw [hlexeme] at h
    cases lexeme with
    | newline n =>
      obtain ⟨front, hfront⟩ := hkeeps
      cases h
      exact ⟨.through front (Or.inl rfl) hfront, fun _ => rfl⟩
    | continuation n =>
      obtain ⟨hc, hbreak⟩ := hkeeps
      cases h
      exact ⟨lineUse_continuation (by rintro rfl; cases hc) hbreak, notBreak hc⟩
    | comment n =>
      obtain ⟨hc, rfl⟩ := hkeeps
      exact ⟨lineUse_decideComment hc h, notBreak hc⟩
    | word n => exact ⟨lineUse_decideWord hkeeps.1 hkeeps.2 h, notBreak hkeeps.1⟩
    | number extent =>
      exact ⟨lineUse_ofExtent (by decide) hkeeps.1 hkeeps.2 h, notBreak hkeeps.1⟩
    | quote =>
      obtain rfl := hkeeps
      exact ⟨lineUse_decideQuote h, notBreak (by decide)⟩
    | text extent =>
      exact ⟨lineUse_ofExtent (by decide) hkeeps.1 hkeeps.2 h, notBreak hkeeps.1⟩
    | bang n =>
      obtain ⟨rfl, hs⟩ := hkeeps
      exact ⟨lineUse_decideBang hs h, notBreak (by decide)⟩
    | symbol found n =>
      obtain ⟨hc, hk, hs⟩ := hkeeps
      cases h
      exact ⟨.within hk (Stays.succ hc hs), notBreak hc⟩

theorem stays_pred {n : Nat} (hc : isBreak c = false) (h : Stays (c :: cs) n) :
    Stays (c :: cs) (n - 1 + 1) := by
  cases n with
  | zero => exact Stays.succ hc (Stays.zero cs)
  | succ n => exact h

theorem lineUse_decideCommand {command : CommandKind} (hstop : Command.isStop c = false)
    (h : st.decideCommand command c cs = .token kind more mode) :
    LineUse (c :: cs) (more + 1) kind := by
  have hc : isBreak c = false := by
    simp only [Command.isStop, Bool.or_eq_false_iff] at hstop
    exact hstop.1.1.1.1
  rw [decideCommand.eq_def] at h
  split at h
  · cases command with
    | words =>
      cases h
      exact lineUse_continuation (by rintro rfl; cases hc) (take_throughBreak cs)
    | path => cases h
  · cases htext : Command.text command false (c :: cs) with
    | error n => cases command <;> simp [htext] at h
    | ok n =>
      have hs := stays_commandText htext
      cases command with
      | words =>
        rw [htext] at h
        cases h
        exact .within (by decide) (stays_pred hc hs)
      | path =>
        simp only [htext] at h
        split at h
        · cases h
        · cases h
          have hlen : (trimEnd isBlank ((c :: cs).take n)).length ≤ n :=
            (length_trimEnd_le _ _).trans (List.length_take_le n _)
          exact .within (by decide) (stays_pred hc (hs.mono hlen))

/-- Every token keeps to its line, ends with the break it holds, or is a block comment; and a
break is only ever read as a line break. -/
theorem lineUse_decide (h : st.decide octave c cs = .token kind more mode) :
    LineUse (c :: cs) (more + 1) kind ∧ (isBreak c = true → kind = .newline) := by
  rw [decide] at h
  split at h
  · split at h
    · exact lineUse_decidePlain h
    · rename_i hstop
      have hc : isBreak c = false := by
        simp only [Command.isStop, Bool.or_eq_true, not_or, Bool.not_eq_true] at hstop
        exact hstop.1.1.1.1
      exact ⟨lineUse_decideCommand (by simpa using hstop) h, fun hb => by simp [hc] at hb⟩
  · exact lineUse_decidePlain h

/-! ## Faults -/

variable {fault : Fault} {skipped length : Nat}

theorem skipped_ofExtent {extent : Extent}
    (h : Decision.ofExtent kind mode extent = .fault fault skipped length) : skipped = 0 := by
  cases extent <;> cases h
  rfl

theorem skipped_decidePlain (h : st.decidePlain octave c cs = .fault fault skipped length) :
    skipped = 0 := by
  rw [decidePlain] at h
  split at h
  · cases h
    rfl
  · cases h
  · cases h
  · rw [decideComment] at h
    split at h
    · split at h
      · split at h <;> cases h
        rfl
      · cases h
    · cases h
  · rw [decideWord] at h
    split at h
    · cases h
    split at h
    · cases h
    split at h <;> cases h
  · exact skipped_ofExtent h
  · rw [decideQuote] at h
    split at h
    · cases h
    · cases h
      rfl
    · exact skipped_ofExtent h
  · exact skipped_ofExtent h
  · rw [decideBang] at h
    split at h
    · cases h
    split at h <;> cases h
    rfl
  · cases h

theorem dotsAt?_le {n : Nat} (h : Command.dotsAt? cs = some n) : n + 3 ≤ cs.length := by
  induction cs generalizing n with
  | nil => cases h
  | cons c cs ih =>
    rw [Command.dotsAt?] at h
    split at h
    · rename_i hdots
      cases h
      simpa using (List.isPrefixOf_iff_prefix.1 hdots).length_le
    · obtain ⟨m, hm, rfl⟩ := Option.map_eq_some_iff.1 h
      have hle := ih hm
      rw [List.length_cons]
      omega

theorem stays_decideCommand {command : CommandKind}
    (h : st.decideCommand command c cs = .fault fault skipped length) :
    Stays (c :: cs) skipped := by
  rw [decideCommand.eq_def] at h
  split at h
  · cases command with
    | words => cases h
    | path =>
      cases h
      exact Stays.zero _
  · cases htext : Command.text command false (c :: cs) with
    | error n =>
      rw [htext] at h
      cases command <;> cases h <;> exact Stays.zero _
    | ok n =>
      rw [htext] at h
      cases command with
      | words => cases h
      | path =>
        dsimp only at h
        split at h
        · rename_i hdots
          cases h
          have hlength : (trimEnd isBlank ((c :: cs).take n)).length ≤ n :=
            (length_trimEnd_le _ _).trans (List.length_take_le n _)
          have hle := dotsAt?_le hdots
          exact (stays_commandText htext).mono (by omega)
        · cases h

theorem stays_decide (h : st.decide octave c cs = .fault fault skipped length) :
    Stays (c :: cs) skipped := by
  have hplain : ∀ {st : State}, st.decidePlain octave c cs = .fault fault skipped length →
      Stays (c :: cs) skipped := fun h => skipped_decidePlain h ▸ Stays.zero _
  rw [decide] at h
  split at h
  · split at h
    · exact hplain h
    · exact stays_decideCommand h
  · exact hplain h

end State

end MFile.Lexing
