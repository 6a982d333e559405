import MFile.Proofs.Lexing.LineEnds.Lines

/-!
Two cursors at the same place of a text, of which one has carriage returns before its line feeds.
Counting what stands before them gives the same line and column, and the text of the line is the
same; bytes are counted differently, so the end of a command's head is the same place and not the
same offset.
-/

namespace MFile.Lexing

open Text

/-- The first `n` characters of a text are the first `n'` of the text with carriage returns. -/
inductive Passes : List Char → Nat → Nat → Prop
  | zero (cs : List Char) : Passes cs 0 0
  | ended (n n' : Nat) : Passes [] n n'
  | char {c : Char} {cs : List Char} {n n' : Nat} (hc : c ≠ '\n') (h : Passes cs n n') :
      Passes (c :: cs) (n + 1) (n' + 1)
  | lineFeed {cs : List Char} {n n' : Nat} (h : Passes cs n n') :
      Passes ('\n' :: cs) (n + 1) (n' + 2)

namespace Passes

variable {cs : List Char} {n n' : Nat}

theorem stays (h : Stays cs n) : Passes cs n n := by
  induction n generalizing cs with
  | zero => exact .zero cs
  | succ n ih =>
    cases cs with
    | nil => exact .ended _ _
    | cons c cs =>
      rw [Stays, List.take_succ_cons, List.forall_mem_cons] at h
      exact .char (by rintro rfl; cases h.1) (ih h.2)

theorem returned (cs : List Char) (n : Nat) : Passes cs n (returned cs n) := by
  induction n generalizing cs with
  | zero => exact .zero cs
  | succ n ih =>
    cases cs with
    | nil => exact .ended _ _
    | cons c cs =>
      by_cases hc : c = '\n'
      · subst hc
        exact .lineFeed (ih cs)
      · rw [returned_succ hc]
        exact .char hc (ih cs)

theorem add {m m' : Nat} (h : Passes cs m m') (h' : Passes (cs.drop m) n n') :
    Passes cs (m + n) (m' + n') := by
  induction h with
  | zero => rwa [Nat.zero_add, Nat.zero_add]
  | ended => exact .ended _ _
  | @char c cs m m' hc _ ih =>
    rw [Nat.add_right_comm m, Nat.add_right_comm m']
    exact .char hc (ih h')
  | @lineFeed cs m m' _ ih =>
    rw [Nat.add_right_comm m, Nat.add_right_comm m']
    exact .lineFeed (ih h')

theorem take (h : Passes cs n n') : (withReturns cs).take n' = withReturns (cs.take n) := by
  induction h with
  | zero => rfl
  | ended => rw [withReturns_nil, List.take_nil, List.take_nil, withReturns_nil]
  | char hc _ ih => rw [withReturns_cons hc, List.take_succ_cons, List.take_succ_cons, ih,
      withReturns_cons hc]
  | lineFeed _ ih => rw [withReturns_break, List.take_succ_cons, List.take_succ_cons,
      List.take_succ_cons, ih, withReturns_break]

end Passes

structure Cursor.Alike (c c' : Cursor) : Prop where
  rest : c'.rest = withReturns c.rest
  plain : '\r' ∉ c.rest

theorem takeWhile_withReturns_line (cs : List Char) :
    (withReturns cs).takeWhile (· ≠ '\n') = cs.takeWhile (· ≠ '\n') ∨
      (withReturns cs).takeWhile (· ≠ '\n') = cs.takeWhile (· ≠ '\n') ++ ['\r'] := by
  induction cs with
  | nil => exact .inl rfl
  | cons c cs ih =>
    by_cases hc : c = '\n'
    · exact .inr (by rw [hc]; rfl)
    · have hpos : decide (c ≠ '\n') = true := by simpa using hc
      simp only [withReturns_cons hc, List.takeWhile_cons, if_pos hpos]
      exact ih.imp (congrArg (c :: ·)) (congrArg (c :: ·))

theorem firstLine_withReturns {cs : List Char} (h : '\r' ∉ cs) :
    firstLine (withReturns cs) = firstLine cs := by
  have hline : '\r' ∉ cs.takeWhile (· ≠ '\n') := fun hmem =>
    h ((List.takeWhile_prefix _).subset hmem)
  have hlast : (cs.takeWhile (· ≠ '\n')).getLast? ≠ some '\r' := fun hlast =>
    hline (List.mem_of_getLast? hlast)
  rw [firstLine, firstLine, dropReturn, dropReturn, if_neg hlast]
  obtain heq | heq := takeWhile_withReturns_line cs
  · rw [heq, if_neg hlast]
  · rw [heq, if_pos List.getLast?_concat, List.dropLast_concat]

theorem lastLine_withReturns (cs : List Char) : lastLine (withReturns cs) = lastLine cs := by
  have hlast := break_notMem_lastLine cs
  have hsplit := congrArg withReturns (fullPart_append_lastLine cs)
  rw [withReturns_append, withReturns_eq_self hlast] at hsplit
  rw [← hsplit, lastLine_append hlast]
  obtain hnone | ⟨lines, hlines⟩ := fullPart_eq cs
  · rw [hnone]
    rfl
  · rw [hlines, withReturns_append, withReturns_break, withReturns_nil, List.append_cons,
      lastLine_concat, if_pos rfl, List.nil_append]

theorem position_withReturns (cs : List Char) : position (withReturns cs) = position cs := by
  have hcount : (withReturns cs).count '\n' = cs.count '\n' := by
    induction cs with
    | nil => rfl
    | cons c cs ih =>
      by_cases hc : c = '\n'
      · rw [hc, withReturns_break, List.count_cons_of_ne (by decide), List.count_cons_self,
          List.count_cons_self, ih]
      · rw [withReturns_cons hc, List.count_cons_of_ne hc, List.count_cons_of_ne hc, ih]
  rw [position_eq, position_eq, hcount, lastLine_withReturns]

theorem located_withReturns {behind rest : List Char} (hbehind : '\r' ∉ behind)
    (hrest : '\r' ∉ rest) (file : String) (text : List Char) :
    CurrentLine.located file (withReturns behind) (withReturns rest) text =
      CurrentLine.located file behind rest text := by
  have hplain : '\r' ∉ lastLine behind ++ rest := by
    rw [List.mem_append, not_or]
    refine ⟨fun hmem => hbehind ?_, hrest⟩
    rw [← fullPart_append_lastLine behind]
    exact List.mem_append_right _ hmem
  have hline : firstLine (lastLine behind ++ withReturns rest) =
      firstLine (lastLine behind ++ rest) := by
    rw [← firstLine_withReturns hplain, withReturns_append,
      withReturns_eq_self (break_notMem_lastLine behind)]
  rw [CurrentLine.located, CurrentLine.located, position_withReturns, lastLine_withReturns, hline]

inductive Mode.Alike (c c' : Cursor) : Mode → Mode → Prop
  | normal : Alike c c' .normal .normal
  | command (kind : CommandKind) : Alike c c' (.command kind) (.command kind)
  | ahead {n : Nat} (kind : CommandKind) (h : Stays c.rest n) :
      Alike c c' (.commandAfter (c.skip n).offset kind) (.commandAfter (c'.skip n).offset kind)
  | behind {headEnd headEnd' : Nat} (kind : CommandKind) (h : headEnd < c.offset)
      (h' : headEnd' < c'.offset) :
      Alike c c' (.commandAfter headEnd kind) (.commandAfter headEnd' kind)

namespace Cursor

variable {c c' : Cursor} {ch : Char} {cs : List Char} {n n' : Nat}

theorem next_of_nil (h : c.rest = []) : c.next = c := by rw [next, h]

theorem next_of_cons (h : c.rest = ch :: cs) : c.next = ⟨cs, c.offset + ch.utf8Size⟩ := by
  rw [next, h]

theorem offset_next_lt (h : c.rest = ch :: cs) : c.offset < c.next.offset := by
  rw [next_of_cons h]
  exact Nat.lt_add_of_pos_right (Char.utf8Size_pos ch)

theorem offset_le_skip (c : Cursor) (n : Nat) : c.offset ≤ (c.skip n).offset := by
  induction n generalizing c with
  | zero => exact Nat.le_refl _
  | succ n ih =>
    refine Nat.le_trans ?_ (ih c.next)
    cases hrest : c.rest with
    | nil => rw [next_of_nil hrest]
    | cons ch cs => exact (offset_next_lt hrest).le

theorem offset_lt_skip (h : c.rest = ch :: cs) (n : Nat) :
    c.offset < (c.skip (n + 1)).offset :=
  (offset_next_lt h).trans_le (offset_le_skip c.next n)

theorem skip_of_nil (h : c.rest = []) (n : Nat) : c.skip n = c := by
  induction n with
  | zero => rfl
  | succ n ih => rw [skip, next_of_nil h, ih]

namespace Alike

theorem char (h : Alike c c') (hrest : c.rest = ch :: cs) (hn : ch ≠ '\n') :
    Alike c.next c'.next := by
  have hrest' : c'.rest = ch :: withReturns cs := by rw [h.rest, hrest, withReturns_cons hn]
  have hplain := h.plain
  rw [hrest] at hplain
  rw [next_of_cons hrest, next_of_cons hrest']
  exact ⟨rfl, fun hmem => hplain (List.mem_cons_of_mem ch hmem)⟩

theorem lineFeed (h : Alike c c') (hrest : c.rest = '\n' :: cs) :
    Alike c.next c'.next.next := by
  have hrest' : c'.rest = '\r' :: '\n' :: withReturns cs := by
    rw [h.rest, hrest, withReturns_break]
  have hplain := h.plain
  rw [hrest] at hplain
  rw [next_of_cons hrest, next_of_cons hrest', next_of_cons rfl]
  exact ⟨rfl, fun hmem => hplain (List.mem_cons_of_mem _ hmem)⟩

end Alike

end Cursor

section Skip

variable {c c' : Cursor} {n n' : Nat} {mode mode' : Mode}

theorem Mode.Alike.next {ch : Char} {cs : List Char} {d : Cursor} (h : Mode.Alike c c' mode mode')
    (hrest : c.rest = ch :: cs) (hd : c'.offset < d.offset) (hnext : ch ≠ '\n' → d = c'.next) :
    Mode.Alike c.next d mode mode' := by
  cases h with
  | normal => exact .normal
  | command kind => exact .command kind
  | behind kind hlt hlt' =>
    exact .behind kind (hlt.trans (Cursor.offset_next_lt hrest)) (hlt'.trans hd)
  | @ahead n kind hstays =>
    cases n with
    | zero => exact .behind kind (Cursor.offset_next_lt hrest) hd
    | succ n =>
      rw [hrest, Stays, List.take_succ_cons, List.forall_mem_cons] at hstays
      have hn : ch ≠ '\n' := by
        rintro rfl
        cases hstays.1
      rw [hnext hn]
      have hrest_next : Stays c.next.rest n := by
        rw [Cursor.rest_next, hrest]
        exact hstays.2
      exact .ahead kind hrest_next

theorem Cursor.Alike.skip (h : c.Alike c') (hpass : Passes c.rest n n') :
    (c.skip n).Alike (c'.skip n') ∧ ∀ mode mode', Mode.Alike c c' mode mode' →
      Mode.Alike (c.skip n) (c'.skip n') mode mode' := by
  generalize hrest : c.rest = cs at hpass
  induction hpass generalizing c c' with
  | zero => exact ⟨h, fun _ _ hm => hm⟩
  | ended n n' =>
    have hrest' : c'.rest = [] := by rw [h.rest, hrest, withReturns_nil]
    rw [skip_of_nil hrest, skip_of_nil hrest']
    exact ⟨h, fun _ _ hm => hm⟩
  | @char ch cs n n' hn hpass ih =>
    have hrest' : c'.rest = ch :: withReturns cs := by rw [h.rest, hrest, withReturns_cons hn]
    have hnext : c.next.rest = cs := by rw [next_of_cons hrest]
    obtain ⟨hcursor, hmode⟩ := ih (h.char hrest hn) hnext
    exact ⟨hcursor, fun mode mode' hm => hmode mode mode'
      (hm.next hrest (offset_next_lt hrest') fun _ => rfl)⟩
  | @lineFeed cs n n' hpass ih =>
    have hrest' : c'.rest = '\r' :: '\n' :: withReturns cs := by
      rw [h.rest, hrest, withReturns_break]
    have hnext : c.next.rest = cs := by rw [next_of_cons hrest]
    obtain ⟨hcursor, hmode⟩ := ih (h.lineFeed hrest) hnext
    exact ⟨hcursor, fun mode mode' hm => hmode mode mode'
      (hm.next hrest (offset_lt_skip hrest' 1) fun hne => absurd rfl hne)⟩

theorem Mode.Alike.reached (h : Mode.Alike c c' mode mode') (hc : c.Alike c') :
    Mode.Alike c c' (mode.reached c.offset) (mode'.reached c'.offset) := by
  cases h with
  | normal => exact .normal
  | command kind => exact .command kind
  | behind kind hlt hlt' =>
    rw [Mode.reached, Mode.reached, if_neg hlt.ne', if_neg hlt'.ne', if_pos hlt, if_pos hlt']
    exact .normal
  | @ahead n kind hstays =>
    rw [Mode.reached, Mode.reached]
    cases hrest : c.rest with
    | nil =>
      have hrest' : c'.rest = [] := by rw [hc.rest, hrest, withReturns_nil]
      rw [Cursor.skip_of_nil hrest, Cursor.skip_of_nil hrest', if_pos rfl, if_pos rfl]
      exact .command kind
    | cons ch cs =>
      cases n with
      | zero =>
        rw [Cursor.skip, Cursor.skip, if_pos rfl, if_pos rfl]
        exact .command kind
      | succ n =>
        have hch : ch ≠ '\n' := by
          rintro rfl
          rw [hrest, Stays, List.take_succ_cons, List.forall_mem_cons] at hstays
          cases hstays.1
        have hrest' : c'.rest = ch :: withReturns cs := by
          rw [hc.rest, hrest, withReturns_cons hch]
        have hlt := Cursor.offset_lt_skip hrest n
        have hlt' := Cursor.offset_lt_skip hrest' n
        rw [if_neg hlt.ne, if_neg hlt'.ne, if_neg hlt.not_gt, if_neg hlt'.not_gt]
        exact .ahead kind hstays

end Skip

end MFile.Lexing
