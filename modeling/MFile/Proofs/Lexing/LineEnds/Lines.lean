import MFile.Proofs.Lexing.LineEnds.Scanners

/-!
Scanners that go on past their line, and how far the others go when they find a fault. With
carriage returns before its line feeds a text is read as far as without them, the returns that
have been passed added.
-/

namespace MFile.Lexing

open Text

variable {c : Char} {cs : List Char} {n : Nat}

/-! ## Up to a fault -/

def Extent.reach : Extent → Nat
  | sound more | faulty _ more => more

theorem Extent.reach_after (n : Nat) (extent : Extent) :
    (extent.after n).reach = n + extent.reach := by
  cases extent <;> rfl

namespace Number

theorem stays_excess (cs : List Char) : Stays cs (excess cs) := by
  rw [excess.eq_def]
  split
  · split
    · rename_i hc
      have hd := not_break_of_class (by decide) (by decide) hc
      exact Stays.pair (by decide) hd (stays_digits _)
    · exact Stays.zero _
  · exact Stays.zero _

theorem stays_tail_reach (cs : List Char) : Stays cs (tail cs).reach := by
  have hsound := (stays_exponent cs).add (stays_imaginary (cs.drop (exponent cs)))
  rw [tail]
  split
  · exact hsound
  · rename_i extra hextra
    exact hsound.add (stays_excess _)

theorem stays_afterDigit_reach (c : Char) (cs : List Char) :
    Stays cs (afterDigit c cs).reach := by
  have hpoint := (stays_digits cs).add (stays_fraction (cs.drop (run Char.isDigit cs)))
  rw [afterDigit]
  dsimp only
  split
  · cases hradix : radix? cs with
    | some n => exact stays_radix hradix
    | none =>
      rw [Option.elim_none, Extent.reach_after]
      exact hpoint.add (stays_tail_reach _)
  · rw [Extent.reach_after]
    exact hpoint.add (stays_tail_reach _)

theorem stays_afterDot_reach (cs : List Char) : Stays cs (afterDot cs).reach := by
  rw [afterDot, Extent.reach_after]
  exact (stays_digits cs).add (stays_tail_reach _)

end Number

theorem mapped_error {r : Except Nat Nat} {f : Nat → Nat} {n : Nat}
    (h : (r.map f).mapError f = .error n) : ∃ k, r = .error k ∧ n = f k := by
  cases r with
  | ok k => cases h
  | error k =>
    cases h
    exact ⟨k, rfl, rfl⟩

theorem stays_close_error {quote : Char} (hq : isBreak quote = false)
    (h : Quotation.close quote cs = .error n) : Stays cs n := by
  fun_induction Quotation.close quote cs generalizing n with
  | case1 | case2 =>
    cases h
    exact Stays.zero _
  | case3 ds _ ih =>
    obtain ⟨k, hk, rfl⟩ := mapped_error h
    exact Stays.pair hq hq (ih hk)
  | case4 | case5 => cases h
  | case6 c cs hb _ ih =>
    obtain ⟨k, hk, rfl⟩ := mapped_error h
    exact Stays.cons (by simpa using hb) (ih hk)

theorem stays_extent_reach {quote : Char} (hq : isBreak quote = false) (fault : Fault)
    (cs : List Char) : Stays cs (Quotation.extent quote fault cs).reach := by
  rw [Quotation.extent]
  split
  · rename_i hclose
    exact stays_close hq hclose
  · rename_i hclose
    exact stays_close_error hq hclose

theorem stays_commandText_error {kind : CommandKind} {quoted : Bool}
    (h : Command.text kind quoted cs = .error n) : Stays cs n := by
  fun_induction Command.text kind quoted cs generalizing n with
  | case1 | case3 | case8 => cases h
  | case2 | case5 =>
    cases h
    exact Stays.zero _
  | case4 c cs hstop ih =>
    obtain ⟨k, hk, rfl⟩ := mapped_error h
    simp only [Command.isStop, Bool.or_eq_true, not_or, Bool.not_eq_true] at hstop
    exact Stays.cons hstop.1.1.1.1.1 (ih hk)
  | case6 ds _ ih =>
    obtain ⟨k, hk, rfl⟩ := mapped_error h
    exact Stays.pair (by decide) (by decide) (ih hk)
  | case7 d ds _ _ ih =>
    obtain ⟨k, hk, rfl⟩ := mapped_error h
    exact Stays.cons (by decide) (ih hk)
  | case9 c cs hb _ ih =>
    obtain ⟨k, hk, rfl⟩ := mapped_error h
    exact Stays.cons (by simpa using hb) (ih hk)

/-! ## Past line breaks -/

def returned (cs : List Char) (n : Nat) : Nat := (withReturns (cs.take n)).length

theorem returned_succ (hc : c ≠ '\n') (cs : List Char) (n : Nat) :
    returned (c :: cs) (n + 1) = returned cs n + 1 := by
  rw [returned, List.take_succ_cons, withReturns_cons hc]
  rfl

theorem returned_append_left (as bs : List Char) (n : Nat) :
    returned (as ++ bs) (as.length + n) = (withReturns as).length + returned bs n := by
  rw [returned, List.take_length_add_append, withReturns_append, List.length_append]
  rfl

theorem restOfLine_withReturns (cs : List Char) : restOfLine (withReturns cs) = restOfLine cs :=
  run_withReturns (by decide) (by decide) cs

theorem takeWhile_withReturns_breaks {p : Char → Bool} (hn : p '\n' = true) (hr : p '\r' = true)
    (cs : List Char) : (withReturns cs).takeWhile p = withReturns (cs.takeWhile p) := by
  induction cs with
  | nil => rfl
  | cons c cs ih =>
    by_cases hc : c = '\n'
    · rw [hc, withReturns_break, List.takeWhile_cons_of_pos hr, List.takeWhile_cons_of_pos hn,
        List.takeWhile_cons_of_pos hn, ih, withReturns_break]
    · rw [withReturns_cons hc, List.takeWhile_cons, List.takeWhile_cons, ih]
      split
      · rw [withReturns_cons hc]
      · rfl

theorem trimEnd_withReturns (cs : List Char) :
    trimEnd (· ≠ '\n') (withReturns cs) = withReturns (trimEnd (· ≠ '\n') cs) := by
  change (withReturns cs).rdropWhile (· ≠ '\n') = withReturns (cs.rdropWhile (· ≠ '\n'))
  induction cs using List.reverseRecOn with
  | nil => rfl
  | append_singleton cs c ih =>
    by_cases hc : c = '\n'
    · have hlast : withReturns (cs ++ ['\n']) = (withReturns cs ++ ['\r']) ++ ['\n'] := by
        rw [withReturns_append, List.append_assoc]
        rfl
      rw [hc, List.rdropWhile_concat_neg _ _ _ (by decide), hlast,
        List.rdropWhile_concat_neg _ _ _ (by decide)]
    · have hlast : withReturns (cs ++ [c]) = withReturns cs ++ [c] := by
        rw [withReturns_append, withReturns_cons hc, withReturns_nil]
      rw [List.rdropWhile_concat_pos _ _ _ (by simpa using hc), hlast,
        List.rdropWhile_concat_pos _ _ _ (by simpa using hc), ih]

theorem blankLines_withReturns (cs : List Char) :
    blankLines (withReturns cs) = returned cs (blankLines cs) := by
  have hprefix : trimEnd (· ≠ '\n') (cs.takeWhile fun c => isBlank c || isBreak c) <+: cs :=
    (List.rdropWhile_prefix _ _).trans (List.takeWhile_prefix _)
  rw [returned, blankLines, blankLines, ← List.prefix_iff_eq_take.1 hprefix,
    takeWhile_withReturns_breaks rfl rfl, trimEnd_withReturns]

theorem throughBreak_succ (hc : c ≠ '\n') (cs : List Char) :
    throughBreak (c :: cs) = throughBreak cs + 1 := by
  have hrun : run (· ≠ '\n') (c :: cs) = run (· ≠ '\n') cs + 1 := by simp [run, hc]
  rw [throughBreak, throughBreak, hrun, List.length_cons, Nat.add_min_add_right]

theorem throughBreak_withReturns (cs : List Char) :
    throughBreak (withReturns cs) = returned cs (throughBreak cs) := by
  induction cs with
  | nil => rfl
  | cons c cs ih =>
    by_cases hc : c = '\n'
    · have hone : throughBreak ('\n' :: cs) = 1 := by simp [throughBreak, run]
      have hone' : throughBreak ('\n' :: withReturns cs) = 1 := by simp [throughBreak, run]
      rw [hc, withReturns_break, throughBreak_succ (by decide), hone, hone']
      rfl
    · rw [withReturns_cons hc, throughBreak_succ hc, throughBreak_succ hc, ih, returned_succ hc]

/-! ## Block comments -/

theorem fullLines_withReturns (cs : List Char) :
    fullLines (withReturns cs) = (fullLines cs).map withReturns := by
  induction cs with
  | nil => rfl
  | cons c cs ih =>
    by_cases hc : c = '\n'
    · rw [hc, withReturns_break, fullLines, fullLines, if_neg (by decide), if_pos rfl, fullLines,
        if_pos rfl, ih]
      rfl
    · rw [withReturns_cons hc, fullLines, fullLines, if_neg hc, if_neg hc, ih]
      cases fullLines cs with
      | nil =>
        rw [List.map_nil, List.map_singleton, withReturns_cons hc]
        rfl
      | cons line lines =>
        rw [List.map_cons, List.map_cons, withReturns_cons hc]

def IsLine (line : List Char) : Prop :=
  ∃ front, (∀ c ∈ front, isBreak c = false) ∧ (line = front ∨ line = front ++ ['\n'])

theorem isLine_fullLines (h : '\r' ∉ cs) : ∀ line ∈ fullLines cs, IsLine line := by
  induction cs with
  | nil => exact fun line hline => absurd hline List.not_mem_nil
  | cons c cs ih =>
    obtain ⟨hr, hcs⟩ := not_or.1 (mt List.mem_cons.2 h)
    rw [fullLines]
    split
    · rename_i hn
      exact List.forall_mem_cons.2 ⟨⟨[], List.forall_mem_nil _, .inr (by rw [hn]; rfl)⟩, ih hcs⟩
    rename_i hn
    have hc : isBreak c = false := by simp [isBreak, hn, Ne.symm hr]
    cases hlines : fullLines cs with
    | nil => exact List.forall_mem_singleton.2 ⟨[c], List.forall_mem_singleton.2 hc, .inl rfl⟩
    | cons line lines =>
      have hall := ih hcs
      rw [hlines, List.forall_mem_cons] at hall
      obtain ⟨⟨front, hfront, hline⟩, hlines⟩ := hall
      refine List.forall_mem_cons.2 ⟨⟨c :: front, List.forall_mem_cons.2 ⟨hc, hfront⟩, ?_⟩, hlines⟩
      exact hline.imp (congrArg (c :: ·)) (congrArg (c :: ·))

theorem trimEnd_breaks {front breaks : List Char} (hfront : ∀ c ∈ front, isBreak c = false)
    (hbreaks : ∀ c ∈ breaks, isBreak c = true) : trimEnd isBreak (front ++ breaks) = front := by
  have hkept : front.rdropWhile isBreak = front := by
    refine List.rdropWhile_eq_self_iff.2 fun hne => ?_
    simpa using hfront _ (List.getLast_mem hne)
  rw [trimEnd, List.reverse_append, List.dropWhile_append_of_pos (by simpa using hbreaks)]
  exact hkept

theorem IsLine.trimEnd {line : List Char} (h : IsLine line) :
    trimEnd isBreak (withReturns line) = trimEnd isBreak line ∧ ∀ rest,
      returned (line ++ rest) (trimEnd isBreak line).length = (trimEnd isBreak line).length := by
  obtain ⟨front, hfront, hline⟩ := h
  have hn : '\n' ∉ front := fun hmem => absurd (hfront _ hmem) (by decide)
  have hreturned : ∀ rest, returned (front ++ rest) front.length = front.length := by
    intro rest
    rw [returned, List.take_left, withReturns_eq_self hn]
  have hnone : Text.trimEnd isBreak front = front := by
    have hnil : ∀ c ∈ ([] : List Char), isBreak c = true := nofun
    have htrim := trimEnd_breaks hfront hnil
    rwa [List.append_nil] at htrim
  obtain rfl | rfl := hline
  · rw [withReturns_eq_self hn, hnone]
    exact ⟨rfl, hreturned⟩
  · have hbreaks : ∀ c ∈ ['\r', '\n'], isBreak c = true := by simp [isBreak]
    have hlast : ∀ c ∈ ['\n'], isBreak c = true := by simp [isBreak]
    have hbreak : withReturns (front ++ ['\n']) = front ++ ['\r', '\n'] := by
      rw [withReturns_append, withReturns_eq_self hn]
      rfl
    rw [hbreak, trimEnd_breaks hfront hbreaks, trimEnd_breaks hfront hlast]
    exact ⟨rfl, fun rest => by rw [List.append_assoc, hreturned]⟩

theorem closingLine?_withReturns (close : List Char) {lines : List (List Char)}
    (h : ∀ line ∈ lines, IsLine line) :
    closingLine? close (lines.map withReturns) =
      (closingLine? close lines).map (returned lines.flatten) := by
  induction lines with
  | nil => rfl
  | cons line lines ih =>
    obtain ⟨hline, hlines⟩ := List.forall_mem_cons.1 h
    obtain ⟨htrim, hlength⟩ := hline.trimEnd
    rw [List.map_cons, closingLine?, closingLine?, htrim, List.flatten_cons]
    split
    · rw [Option.map_some, hlength]
    · rw [ih hlines, Option.map_map, Option.map_map]
      refine congrArg (Option.map · _) (funext fun n => ?_)
      rw [Function.comp_apply, Function.comp_apply, returned_append_left]

theorem blockBody?_withReturns (close : List Char) (h : '\r' ∉ cs) :
    blockBody? close (withReturns cs) = (blockBody? close cs).map (returned cs) := by
  have hlines := isLine_fullLines h
  have hflat := flatten_fullLines cs
  rw [blockBody?, blockBody?, fullLines_withReturns]
  cases hfull : fullLines cs with
  | nil => rfl
  | cons line lines =>
    rw [hfull] at hlines hflat
    rw [List.map_cons]
    dsimp only
    rw [closingLine?_withReturns close (List.forall_mem_cons.1 hlines).2, Option.map_map,
      Option.map_map, ← hflat, List.flatten_cons]
    refine congrArg (Option.map · _) (funext fun n => ?_)
    rw [Function.comp_apply, Function.comp_apply, returned_append_left]

end MFile.Lexing
