import Mathlib.Order.Monotone.Basic
import MFile.Source.Text
import MFile.Proofs.Text.Position

/-!
Tabs in a text. Expanding them puts blanks in their place and leaves every other character, and a
text without them is read as it is.
-/

namespace MFile

open Text

namespace Text

variable {width column : Nat} {cs ds : List Char} {c : Char}

theorem expandTabsFrom_of_notMem (h : '\t' ∉ cs) : expandTabsFrom width column cs = cs := by
  induction cs generalizing column with
  | nil => rfl
  | cons c cs ih =>
    rw [List.mem_cons, not_or] at h
    rw [expandTabsFrom, if_neg (Ne.symm h.1), ih h.2, ih h.2, ite_self]

theorem mem_expandTabsFrom (h : c ∈ expandTabsFrom width column cs) : c = ' ' ∨ c ∈ cs := by
  induction cs generalizing column with
  | nil => cases h
  | cons d cs ih =>
    rw [expandTabsFrom] at h
    split at h
    · obtain h | h := List.mem_append.1 h
      · exact .inl (List.eq_of_mem_replicate h)
      · exact (ih h).imp_right (List.mem_cons_of_mem d)
    split at h
    all_goals
      obtain rfl | h := List.mem_cons.1 h
      · exact .inr List.mem_cons_self
      · exact (ih h).imp_right (List.mem_cons_of_mem d)

theorem expandTabsFrom_append (h : '\n' ∉ cs) (ds : List Char) :
    expandTabsFrom width column (cs ++ ds) = expandTabsFrom width column cs ++
      expandTabsFrom width (column + (expandTabsFrom width column cs).length) ds := by
  induction cs generalizing column with
  | nil => rfl
  | cons c cs ih =>
    rw [List.mem_cons, not_or] at h
    rw [List.cons_append, expandTabsFrom, expandTabsFrom]
    split
    · dsimp only
      rw [ih h.2, List.append_assoc, List.length_append, List.length_replicate, Nat.add_assoc]
    · rw [if_neg (Ne.symm h.1), if_neg (Ne.symm h.1), ih h.2, List.length_cons, List.cons_append,
        Nat.add_assoc, Nat.add_comm 1]

end Text

theorem SourceText.toList_ofString (name : String) (settings : Settings) {c : Char} {cs : List Char}
    (hmark : c ≠ '\ufeff') :
    (SourceText.ofString name (String.ofList (c :: cs)) settings).text.toList =
      (SourceText.tabStops settings (c :: cs)).elim (c :: cs) (expandTabsFrom · 0 (c :: cs)) := by
  have hplain : SourceText.dropMark (String.ofList (c :: cs)).toList = c :: cs := by
    rw [String.toList_ofList]
    exact if_neg hmark
  have htext : (SourceText.ofString name (String.ofList (c :: cs)) settings).text =
      String.ofList ((SourceText.tabStops settings
        (SourceText.dropMark (String.ofList (c :: cs)).toList)).elim
          (SourceText.dropMark (String.ofList (c :: cs)).toList)
          (expandTabsFrom · 0 (SourceText.dropMark (String.ofList (c :: cs)).toList))) := rfl
  rw [htext, hplain, String.toList_ofList]

theorem SourceText.toList_ofString_append (name : String) (settings : Settings) {c : Char}
    {cs : List Char} (hmark : c ≠ '\ufeff') (htab : '\t' ∉ c :: cs) (hline : '\n' ∉ c :: cs)
    (rest : List Char) :
    (SourceText.ofString name (String.ofList (c :: cs ++ rest)) settings).text.toList =
      c :: cs ++ (SourceText.tabStops settings (c :: cs ++ rest)).elim rest
        (expandTabsFrom · (c :: cs).length rest) := by
  rw [List.cons_append, toList_ofString name settings hmark, ← List.cons_append]
  cases SourceText.tabStops settings (c :: cs ++ rest) with
  | none => rfl
  | some width =>
    rw [Option.elim_some, Option.elim_some, expandTabsFrom_append hline,
      expandTabsFrom_of_notMem htab, Nat.zero_add]

theorem text_ofString (name : String) (settings : Settings) {c : Char} {cs : List Char}
    (hmark : c ≠ '\ufeff') (htab : '\t' ∉ c :: cs) :
    (SourceText.ofString name (String.ofList (c :: cs)) settings).text =
      String.ofList (c :: cs) := by
  have hstops : SourceText.tabStops settings (c :: cs) = none := by
    rw [SourceText.tabStops, Option.filter_eq_none_iff]
    intro width _ h
    exact htab (List.contains_iff_mem.1 (Bool.and_eq_true_iff.1 h).2)
  rw [← String.toList_inj, SourceText.toList_ofString name settings hmark, hstops,
    String.toList_ofList]
  rfl

end MFile

/-!
## Tab stops

Tab stops by counting. Reading a text with tab stops gives every character of it a line and a
column; expanding the tabs puts every character but the tabs just there, with spaces between them,
and leaves nothing that could be expanded again.
-/

namespace MFile.Text

variable {width column : Nat} {c d : Char} {cs text before after : List Char}

/-- A tab goes on to the next multiple of the width, any other character by itself. -/
def stepStop (width : Nat) (p : Nat × Nat) (c : Char) : Nat × Nat :=
  if c = '\t' then (p.1, (p.2 / width + 1) * width) else stepPosition p c

def stopPosition (width : Nat) (cs : List Char) : Nat × Nat := cs.foldl (stepStop width) (1, 0)

/-! ### Columns -/

theorem column_add_pad (hw : 0 < width) (column : Nat) :
    column + (width - column % width) = (column / width + 1) * width := by
  have hsplit := Nat.div_add_mod column width
  have hmod := Nat.mod_lt column hw
  rw [Nat.add_mul, Nat.one_mul, Nat.mul_comm]
  omega

theorem foldl_stepPosition_spaces (n line column : Nat) :
    (List.replicate n ' ').foldl stepPosition (line, column) = (line, column + n) := by
  induction n generalizing column with
  | zero => rfl
  | succ n ih =>
    have hspace : stepPosition (line, column) ' ' = (line, column + 1) := if_neg (by decide)
    rw [List.replicate_succ, List.foldl_cons, hspace, ih, Nat.add_right_comm, Nat.add_assoc]

theorem foldl_expandTabsFrom (hw : 0 < width) (cs : List Char) (line column : Nat) :
    (expandTabsFrom width column cs).foldl stepPosition (line, column) =
      cs.foldl (stepStop width) (line, column) := by
  induction cs generalizing line column with
  | nil => rfl
  | cons c cs ih =>
    rw [expandTabsFrom, List.foldl_cons, stepStop]
    split
    · dsimp only
      rw [List.foldl_append, foldl_stepPosition_spaces, ih, column_add_pad hw]
    · rw [stepPosition]
      split
      · rename_i hbreak
        rw [List.foldl_cons, stepPosition, if_pos hbreak, ih]
      · rename_i hother
        rw [List.foldl_cons, stepPosition, if_neg hother, ih]

theorem position_expandTabsFrom (hw : 0 < width) (cs : List Char) :
    position (expandTabsFrom width 0 cs) = stopPosition width cs :=
  foldl_expandTabsFrom hw cs 1 0

/-! ### Where characters go -/

theorem exists_expandTabsFrom_cons (width column : Nat) (c : Char) : ∃ shown next,
    (∀ cs, expandTabsFrom width column (c :: cs) = shown ++ expandTabsFrom width next cs) ∧
      (c ≠ '\t' ∧ shown = [c] ∨ c = '\t' ∧ ∀ d ∈ shown, d = ' ') := by
  by_cases htab : c = '\t'
  · refine ⟨List.replicate (width - column % width) ' ', column + (width - column % width),
      fun cs => ?_, .inr ⟨htab, fun d => List.eq_of_mem_replicate⟩⟩
    rw [expandTabsFrom, if_pos htab]
  · refine ⟨[c], if c = '\n' then 0 else column + 1, fun cs => ?_, .inl ⟨htab, rfl⟩⟩
    rw [expandTabsFrom, if_neg htab]
    split <;> rfl

theorem exists_expandTabsFrom_append (width column : Nat) (cs : List Char) : ∃ next, ∀ ds,
    expandTabsFrom width column (cs ++ ds) =
      expandTabsFrom width column cs ++ expandTabsFrom width next ds := by
  induction cs generalizing column with
  | nil => exact ⟨column, fun _ => rfl⟩
  | cons c cs ih =>
    obtain ⟨shown, next, hshown, -⟩ := exists_expandTabsFrom_cons width column c
    obtain ⟨last, hlast⟩ := ih next
    exact ⟨last, fun ds => by rw [List.cons_append, hshown, hshown, hlast, List.append_assoc]⟩

theorem expandTabsFrom_of_ne_tab (width : Nat) (hc : c ≠ '\t') (behind rest : List Char) :
    ∃ after, expandTabsFrom width 0 (behind ++ c :: rest) =
      expandTabsFrom width 0 behind ++ c :: after := by
  obtain ⟨next, hnext⟩ := exists_expandTabsFrom_append width 0 behind
  obtain ⟨shown, last, hshown, ⟨-, rfl⟩ | ⟨htab, -⟩⟩ := exists_expandTabsFrom_cons width next c
  · exact ⟨expandTabsFrom width last rest, by rw [hnext, hshown, List.singleton_append]⟩
  · exact absurd htab hc

theorem origin_of_expandTabsFrom (h : expandTabsFrom width column cs = before ++ c :: after) :
    (∃ behind rest, cs = behind ++ c :: rest ∧ c ≠ '\t' ∧
      (expandTabsFrom width column behind).length = before.length) ∨ c = ' ' := by
  induction cs generalizing column before with
  | nil => cases before <;> cases h
  | cons d cs ih =>
    obtain ⟨shown, next, hshown, hkind⟩ := exists_expandTabsFrom_cons width column d
    have hlater : ∀ more, before = shown ++ more →
        expandTabsFrom width next cs = more ++ c :: after →
          (∃ behind rest, d :: cs = behind ++ c :: rest ∧ c ≠ '\t' ∧
            (expandTabsFrom width column behind).length = before.length) ∨ c = ' ' := by
      intro more hbefore hmore
      refine (ih hmore).imp_left ?_
      rintro ⟨behind, rest, rfl, hc, hlength⟩
      exact ⟨d :: behind, rest, rfl, hc, by
        rw [hshown, hbefore, List.length_append, List.length_append, hlength]⟩
    rw [hshown] at h
    obtain ⟨more, hbefore, hmore⟩ | ⟨more, hhead, hmore⟩ := List.append_eq_append_iff.1 h
    · exact hlater more hbefore hmore
    · cases more with
      | nil => exact hlater [] (by rw [List.append_nil, hhead, List.append_nil]) hmore.symm
      | cons e more =>
        obtain ⟨rfl, -⟩ := List.cons.inj hmore
        obtain ⟨htab, rfl⟩ | ⟨-, hspaces⟩ := hkind
        · obtain ⟨rfl, rfl, -⟩ : before = [] ∧ d = c ∧ [] = more := by
            cases before with
            | nil => exact ⟨rfl, List.cons.inj hhead⟩
            | cons x before => simp at hhead
          exact .inl ⟨[], cs, rfl, htab, rfl⟩
        · exact .inr (hspaces c (by simp [hhead]))

theorem tab_notMem_expandTabsFrom (width column : Nat) (cs : List Char) :
    '\t' ∉ expandTabsFrom width column cs := by
  intro h
  obtain ⟨before, after, hout⟩ := List.append_of_mem h
  obtain ⟨-, -, -, htab, -⟩ | hspace := origin_of_expandTabsFrom hout
  · exact htab rfl
  · exact absurd hspace (by decide)

theorem count_expandTabsFrom (width column : Nat) (cs : List Char) :
    (expandTabsFrom width column cs).count '\n' = cs.count '\n' := by
  induction cs generalizing column with
  | nil => rfl
  | cons c cs ih =>
    obtain ⟨shown, next, hshown, hkind⟩ := exists_expandTabsFrom_cons width column c
    have hcount : shown.count '\n' = [c].count '\n' := by
      obtain ⟨-, rfl⟩ | ⟨rfl, hspaces⟩ := hkind
      · rfl
      · exact List.count_eq_zero.2 fun h => absurd (hspaces _ h) (by decide)
    rw [hshown, List.count_append, hcount, ih, ← List.count_append, List.singleton_append]

/-! ### Layout -/

/-- Each character of `text` but the tabs stands in `out` at the offset that `place` gives for it,
where tab stops lead, in the order of the text, and all else in `out` is spaces. -/
structure Places (width : Nat) (text out : List Char) (place : Nat → Nat) : Prop where
  order : StrictMonoOn place {i | ∃ c, text[i]? = some c ∧ c ≠ '\t'}
  stops : ∀ behind c rest, text = behind ++ c :: rest → c ≠ '\t' → ∃ before after,
    out = before ++ c :: after ∧ before.length = place behind.length ∧
      position before = stopPosition width behind
  spaces : ∀ before c after, out = before ++ c :: after →
    (∃ behind rest, text = behind ++ c :: rest ∧ c ≠ '\t' ∧ place behind.length = before.length) ∨
      c = ' '

/-- Where the characters of a text go is as far as the expanded text before them reaches. -/
theorem places_expandTabsFrom (hw : 0 < width) (text : List Char) :
    Places width text (expandTabsFrom width 0 text)
      fun i => (expandTabsFrom width 0 (text.take i)).length := by
  have htake : ∀ {behind : List Char} {c : Char} {rest : List Char}, text = behind ++ c :: rest →
      text.take behind.length = behind := fun h => h ▸ List.take_left
  refine ⟨?_, fun behind c rest htext hc => ?_, fun before c after hout => ?_⟩
  · rintro i ⟨c, hi, hc⟩ j - hij
    obtain ⟨more, hmore⟩ : ∃ more, text.take j = text.take i ++ c :: more := by
      obtain ⟨hlength, rfl⟩ := List.getElem?_eq_some_iff.1 hi
      obtain ⟨n, rfl⟩ := Nat.exists_eq_add_of_lt hij
      exact ⟨(text.drop (i + 1)).take n, by
        rw [Nat.add_assoc, List.take_add, List.drop_eq_getElem_cons hlength, List.take_succ_cons]⟩
    obtain ⟨after, hafter⟩ := expandTabsFrom_of_ne_tab width hc (text.take i) more
    dsimp only
    rw [hmore, hafter, List.length_append, List.length_cons]
    omega
  · obtain ⟨after, hafter⟩ := expandTabsFrom_of_ne_tab width hc behind rest
    refine ⟨expandTabsFrom width 0 behind, after, htext ▸ hafter, ?_, ?_⟩
    · rw [htake htext]
    · exact position_expandTabsFrom hw behind
  · refine (origin_of_expandTabsFrom hout).imp_left ?_
    rintro ⟨behind, rest, htext, hc, hlength⟩
    exact ⟨behind, rest, htext, hc, by rw [htake htext, hlength]⟩

/-- The layout of a text in which tabs have been expanded. -/
structure Expands (width : Nat) (text out : List Char) : Prop where
  breaks : out.count '\n' = text.count '\n'
  noTab : '\t' ∉ out
  placed : ∃ place, Places width text out place

/-- Expanding the tabs of a text keeps its layout, and there is nothing to expand a second time. -/
theorem expandTabs_layout (hw : 0 < width) (text : String) : ∃ out,
    expandTabs width text = .ok out ∧ Expands width text.toList out.toList ∧
      ∀ w, expandTabs w out = .ok out := by
  have hout := tab_notMem_expandTabsFrom width 0 text.toList
  refine ⟨String.ofList (expandTabsFrom width 0 text.toList), if_neg fun h => hw.ne' h.1, ?_, ?_⟩
  · rw [String.toList_ofList]
    exact ⟨count_expandTabsFrom width 0 _, hout, _, places_expandTabsFrom hw _⟩
  · intro w
    rw [expandTabs, String.toList_ofList, if_neg fun h => hout (List.contains_iff_mem.1 h.2),
      expandTabsFrom_of_notMem hout]

/-- Two tabs behind an accent, and one at the start of the next line. -/
theorem expandTabs_layout_twoLines :
    0 < 4 ∧ expandTabs 4 "\u00e9\t\tx\n\ty" = .ok "\u00e9       x\n    y" ∧
      Expands 4 "\u00e9\t\tx\n\ty".toList "\u00e9       x\n    y".toList := by
  have hrun : expandTabs 4 "\u00e9\t\tx\n\ty" = .ok "\u00e9       x\n    y" := by decide
  have hw : 0 < 4 := by decide
  obtain ⟨out, hout, hlayout, -⟩ := expandTabs_layout hw "\u00e9\t\tx\n\ty"
  cases hrun.symm.trans hout
  exact ⟨hw, hrun, hlayout⟩

end MFile.Text
