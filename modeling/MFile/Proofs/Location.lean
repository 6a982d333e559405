import Mathlib.Data.Prod.Lex
import Mathlib.Order.Bounds.Basic
import MFile.Location

/-!
How far locations reach. Beginnings and ends are compared by line and then by column; the end of a
range of several lines is the one that is recorded for its last line. Extending one range to another
is a join of their ends: it leaves the beginning where it is and takes the later end, however the
two ends are kept, so that the end of many ranges put together is the last of their ends.
-/

namespace MFile

/-! ## Ranges -/

namespace Location

/-- The line and the column at which a location begins. -/
def begins (l : Location) : Nat ×ₗ Nat := toLex (l.line?.getD 0, l.columns?.elim 0 (·.first))

def ends (l : Location) : Nat ×ₗ Nat := toLex (l.endLine?.getD 0, l.endColumn?.getD 0)

/-- The range of `a` begins no later than that of `b` and ends no earlier. -/
structure Covers (a b : Location) : Prop where
  ranges : a.columns?.isSome = true ∧ b.columns?.isSome = true
  begins : a.begins ≤ b.begins
  ends : b.ends ≤ a.ends

theorem Covers.trans {a b c : Location} (h : a.Covers b) (h' : b.Covers c) : a.Covers c :=
  ⟨⟨h.ranges.1, h'.ranges.2⟩, h.begins.trans h'.begins, h'.ends.trans h.ends⟩

theorem max_sameLine (line a b : Nat) :
    max (toLex (line, a)) (toLex (line, b)) = toLex (line, max a b) := by
  have hle : ∀ {a b : Nat}, a ≤ b → toLex (line, a) ≤ toLex (line, b) :=
    fun h => Prod.Lex.toLex_le_toLex.2 (.inr ⟨rfl, h⟩)
  rcases le_total a b with h | h
  · rw [max_eq_right h, max_eq_right (hle h)]
  · rw [max_eq_left h, max_eq_left (hle h)]

theorem later_eq_max (p q : Position) :
    toLex ((p.later q).line, (p.later q).column) =
      max (toLex (p.line, p.column)) (toLex (q.line, q.column)) := by
  rw [Position.later]
  split
  · rename_i h
    exact (max_eq_right (Prod.Lex.toLex_le_toLex.2 (h.imp_right (And.imp_right Nat.le_of_lt)))).symm
  · rename_i h
    refine (max_eq_left (Prod.Lex.toLex_le_toLex.2 ?_)).symm
    dsimp only
    omega

/-- A range in the file. An end that is recorded apart is on a later line. -/
structure IsRange (file : String) (l : Location) : Prop where
  file_eq : l.file = file
  place_eq : ∃ line columns stop, l.place = .span line columns stop ∧
    ∀ p ∈ (stop : Option Position), line < p.line

namespace IsRange

variable {file : String} {a b : Location}

theorem ofSpan (file : String) (line : Nat) (columns : Columns) (context : Option String) :
    IsRange file (.ofSpan file line columns context) :=
  ⟨rfl, line, columns, none, rfl, fun _ h => nomatch h⟩

theorem columns (h : IsRange file a) : a.columns?.isSome = true := by
  obtain ⟨line, columns, stop, hplace, -⟩ := h.place_eq
  rw [columns?, hplace]
  rfl

theorem begins_le_ends (h : IsRange file a) : a.begins ≤ a.ends := by
  obtain ⟨line, columns, stop, hplace, hstop⟩ := h.place_eq
  rw [begins, ends, endLine?, endColumn?, stop?, line?, columns?, hplace, Prod.Lex.toLex_le_toLex]
  cases stop with
  | none => exact .inr ⟨rfl, columns.first_le_last⟩
  | some p => exact .inl (hstop p rfl)

theorem ends_eq (h : IsRange file a) : ∃ line column, a.endLine? = some line ∧
    a.endColumn? = some column ∧ a.ends = toLex (line, column) := by
  obtain ⟨line, columns, stop, hplace, -⟩ := h.place_eq
  rw [ends, endLine?, endColumn?, stop?, line?, columns?, hplace]
  cases stop <;> exact ⟨_, _, rfl, rfl, rfl⟩

theorem extendTo (ha : IsRange file a) (hb : IsRange file b) :
    IsRange file (a.extendTo b) ∧ (a.extendTo b).begins = a.begins ∧
      (a.extendTo b).ends = max a.ends b.ends := by
  obtain ⟨endLine, endColumn, hline, hcolumn, hends⟩ := hb.ends_eq
  obtain ⟨afile, place, context⟩ := a
  obtain ⟨rfl, line, columns, stop, hplace, hstop⟩ := ha
  cases hplace
  rw [hends, Location.extendTo, if_pos hb.file_eq.symm, hline, hcolumn]
  dsimp only
  split
  · rename_i h
    obtain ⟨rfl, hfirst⟩ := h
    refine ⟨⟨rfl, _, _, stop, rfl, hstop⟩, rfl, ?_⟩
    cases stop with
    | none => exact (max_sameLine ..).symm
    | some p => exact (max_eq_left (Prod.Lex.toLex_le_toLex.2 (.inl (hstop p rfl)))).symm
  split
  · rename_i h
    cases stop with
    | none =>
      refine ⟨⟨rfl, _, _, _, rfl, ?_⟩, rfl, ?_⟩
      · rintro p ⟨⟩
        exact h
      · exact (max_eq_right (Prod.Lex.toLex_le_toLex.2 (.inl h))).symm
    | some p =>
      refine ⟨⟨rfl, _, _, _, rfl, ?_⟩, rfl, later_eq_max p ⟨endLine, endColumn⟩⟩
      rintro q ⟨⟩
      change line < (p.later ⟨endLine, endColumn⟩).line
      rw [Position.later]
      split
      · exact h
      · exact hstop p rfl
  · -- What is left over ends on an earlier line, or before the first column of its own.
    rename_i h h'
    refine ⟨⟨rfl, _, _, stop, rfl, hstop⟩, rfl, (max_eq_left ?_).symm⟩
    refine le_trans ?_ (begins_le_ends ⟨rfl, line, columns, stop, rfl, hstop⟩)
    refine Prod.Lex.toLex_le_toLex.2 ?_
    change endLine < line ∨ endLine = line ∧ endColumn ≤ columns.first
    omega

theorem covers (ha : IsRange file a) (hb : IsRange file b) (hbegins : a.begins ≤ b.begins)
    (hends : b.ends ≤ a.ends) : a.Covers b :=
  ⟨⟨ha.columns, hb.columns⟩, hbegins, hends⟩

end IsRange

end Location

/-! ## Extending as a join -/

namespace Location

variable {a b : Location}

/-- The last line and the last column there, of a location that has both. -/
def ending? (l : Location) : Option (Nat ×ₗ Nat) := do return toLex (← l.endLine?, ← l.endColumn?)

theorem IsRange.ending?_eq {file : String} (h : IsRange file a) : a.ending? = some a.ends := by
  obtain ⟨line, column, hline, hcolumn, hends⟩ := h.ends_eq
  rw [ending?, hline, hcolumn, hends]
  rfl

theorem IsRange.stop?_isSome_iff {file : String} (h : IsRange file a) :
    a.stop?.isSome = true ↔ ∃ line ∈ a.line?, ∃ last ∈ a.endLine?, line < last := by
  obtain ⟨line, columns, stop, hplace, hstop⟩ := h.place_eq
  rw [endLine?, stop?, line?, hplace]
  cases stop with
  | none => simp
  | some p => simpa using hstop p rfl

theorem extendTo_frame (a b : Location) :
    (a.extendTo b).file = a.file ∧ (a.extendTo b).context = a.context ∧
      (a.extendTo b).line? = a.line? ∧
        (a.extendTo b).columns?.map Columns.first = a.columns?.map Columns.first := by
  rw [extendTo]
  split
  · split
    · rename_i hplace _ _
      rw [line?, line?, columns?, columns?, hplace]
      split
      · exact ⟨rfl, rfl, rfl, rfl⟩
      split
      · exact ⟨rfl, rfl, rfl, rfl⟩
      · rw [hplace]
        exact ⟨rfl, rfl, rfl, rfl⟩
    · exact ⟨rfl, rfl, rfl, rfl⟩
  · exact ⟨rfl, rfl, rfl, rfl⟩

theorem columns?_eq_none_iff (l : Location) :
    (l.line? = none ∨ l.columns? = none) ↔ l.endColumn? = none := by
  obtain ⟨file, place, context⟩ := l
  rcases place with _ | _ | ⟨line, columns, _ | p⟩ <;>
    simp [line?, columns?, endColumn?, stop?]

theorem extendTo_of_missing (h : a.file ≠ b.file ∨ a.line? = none ∨ a.columns? = none ∨
    b.line? = none ∨ b.columns? = none) : a.extendTo b = a := by
  rw [extendTo]
  split
  · rename_i hfile
    split
    · rename_i hplace _ hcolumn
      have ha : ¬ (a.line? = none ∨ a.columns? = none) := by
        rw [line?, columns?, hplace]
        simp
      have hb : ¬ (b.line? = none ∨ b.columns? = none) := by
        rw [columns?_eq_none_iff, hcolumn]
        simp
      tauto
    · rfl
  · rfl

/-- The locations that can be made: of a whole file, of a line of it, of a range of columns on a
line, by extending one to another, and by keeping a source line with one. -/
inductive Made : Location → Prop
  | file (name : String) : Made ⟨name, .file, none⟩
  | line (name : String) (n : Nat) : Made ⟨name, .line n, none⟩
  | span (name : String) (n : Nat) (columns : Columns) : Made (.ofSpan name n columns none)
  | extendTo {a b : Location} (ha : Made a) (hb : Made b) : Made (a.extendTo b)
  | withContext {a : Location} (ha : Made a) (context : String) : Made { a with context }

theorem Made.isRange (h : a.Made) (hcolumns : a.columns?.isSome = true) : IsRange a.file a := by
  induction h with
  | file | line => cases hcolumns
  | span name n columns => exact .ofSpan name n columns none
  | withContext _ _ iha => exact ⟨rfl, (iha hcolumns).place_eq⟩
  | @extendTo a b _ _ iha ihb =>
    by_cases h : a.file = b.file ∧ a.columns?.isSome = true ∧ b.columns?.isSome = true
    · obtain ⟨hfile, ha, hb⟩ := h
      rw [(extendTo_frame a b).1]
      exact ((iha ha).extendTo (hfile ▸ ihb hb)).1
    · have hself : a.extendTo b = a := by
        refine extendTo_of_missing ?_
        simp only [Option.isSome_iff_ne_none] at h
        tauto
      rw [hself] at hcolumns ⊢
      exact iha hcolumns

/-- `c` goes from the beginning of `a` to the later one of the ends of `a` and `b`. -/
structure IsJoin (a b c : Location) : Prop where
  file : c.file = a.file
  context : c.context = a.context
  line : c.line? = a.line?
  first : c.columns?.map Columns.first = a.columns?.map Columns.first
  ordered : ∀ columns ∈ c.columns?, columns.first ≤ columns.last
  ending : ∃ p q, a.ending? = some p ∧ b.ending? = some q ∧ c.ending? = some (max p q)
  severalLines : c.stop?.isSome = true ↔ ∃ line ∈ a.line?, ∃ last ∈ c.endLine?, line < last

namespace IsRange

variable {file : String}

theorem isJoin (ha : IsRange file a) (hb : IsRange file b) : a.IsJoin b (a.extendTo b) := by
  obtain ⟨hrange, -, hends⟩ := ha.extendTo hb
  obtain ⟨hfile, hcontext, hline, hfirst⟩ := extendTo_frame a b
  refine ⟨hfile, hcontext, hline, hfirst, fun columns _ => columns.first_le_last, ?_, ?_⟩
  · exact ⟨a.ends, b.ends, ha.ending?_eq, hb.ending?_eq, hends ▸ hrange.ending?_eq⟩
  · rw [hrange.stop?_isSome_iff, hline]

theorem extendTo_self (h : IsRange file a) : a.extendTo a = a := by
  obtain ⟨afile, place, context⟩ := a
  obtain ⟨rfl, line, columns, stop, hplace, hstop⟩ := h
  cases hplace
  cases stop with
  | none =>
    obtain ⟨first, last, hle⟩ := columns
    simp [Location.extendTo, endLine?, endColumn?, stop?, line?, columns?, Columns.reach, hle]
  | some p =>
    have hlater := hstop p rfl
    simp [Location.extendTo, endLine?, endColumn?, stop?, Position.later, hlater, hlater.ne']

end IsRange

theorem Made.extendTo_self (h : a.Made) : a.extendTo a = a := by
  by_cases hcolumns : a.columns?.isSome = true
  · exact (h.isRange hcolumns).extendTo_self
  · refine extendTo_of_missing (.inr (.inr (.inl ?_)))
    simpa using hcolumns

/-! ## Chains -/

/-- How locations are put together: one after the other, and in groups. -/
inductive Chain
  | one (l : Location)
  | link (front back : Chain)

namespace Chain

def location : Chain → Location
  | one l => l
  | link front back => front.location.extendTo back.location

def parts : Chain → List Location
  | one l => [l]
  | link front back => front.parts ++ back.parts

variable {file : String} {chain : Chain}

/-- A chain of ranges is a range, and ends where the last of them ends. -/
theorem isRange_isGreatest (h : ∀ l ∈ chain.parts, IsRange file l) :
    IsRange file chain.location ∧
      IsGreatest {p | ∃ l ∈ chain.parts, l.ending? = some p} chain.location.ends := by
  induction chain with
  | one l =>
    have hrange : IsRange file l := h l (List.mem_singleton_self l)
    have hset : {p | ∃ m ∈ (one l).parts, m.ending? = some p} = {l.ends} := by
      ext p
      simp [parts, hrange.ending?_eq, eq_comm]
    exact ⟨hrange, hset ▸ isGreatest_singleton⟩
  | link front back ihfront ihback =>
    obtain ⟨hfront, hback⟩ := List.forall_mem_append.1 h
    obtain ⟨hrange, hgreatest⟩ := ihfront hfront
    obtain ⟨hrange', hgreatest'⟩ := ihback hback
    obtain ⟨hjoin, -, hends⟩ := hrange.extendTo hrange'
    have hset : {p | ∃ l ∈ (link front back).parts, l.ending? = some p} =
        {p | ∃ l ∈ front.parts, l.ending? = some p} ∪
          {p | ∃ l ∈ back.parts, l.ending? = some p} := by
      ext p
      simp [parts, or_and_right, exists_or]
    refine ⟨hjoin, ?_⟩
    rw [hset, location, hends]
    exact hgreatest.union hgreatest'

end Chain

/-- Extending is a join of ends. Of two ranges of a file the first is extended to the later one of
their ends and keeps the rest, a location extended to itself stays as it is, and a chain of ranges
ends where the last of its parts ends, in whatever order, groups and number they are put together.
From one file to another, or with a part missing, nothing is extended. -/
theorem extendTo_join :
    (∀ a b : Location, a.Made → b.Made → a.file = b.file → a.columns?.isSome = true →
      b.columns?.isSome = true → a.IsJoin b (a.extendTo b)) ∧
    (∀ a : Location, a.Made → a.extendTo a = a) ∧
    (∀ (file : String) (s t : Chain),
      (∀ l ∈ s.parts, l.Made ∧ l.file = file ∧ l.columns?.isSome = true) →
      (∀ l, l ∈ s.parts ↔ l ∈ t.parts) →
        ∃ p, s.location.ending? = some p ∧ t.location.ending? = some p ∧
          IsGreatest {q | ∃ l ∈ s.parts, l.ending? = some q} p) ∧
    ∀ a b : Location, a.file ≠ b.file ∨ a.line? = none ∨ a.columns? = none ∨ b.line? = none ∨
      b.columns? = none → a.extendTo b = a := by
  refine ⟨fun a b ha hb hfile hacolumns hbcolumns => ?_, fun a h => h.extendTo_self,
    fun file s t hparts hsame => ?_, fun a b => extendTo_of_missing⟩
  · exact (ha.isRange hacolumns).isJoin (hfile ▸ hb.isRange hbcolumns)
  · have hranges : ∀ l ∈ s.parts, IsRange file l := by
      intro l hl
      obtain ⟨hmade, rfl, hcolumns⟩ := hparts l hl
      exact hmade.isRange hcolumns
    obtain ⟨hs, hgreatest⟩ := Chain.isRange_isGreatest hranges
    obtain ⟨ht, hgreatest'⟩ := Chain.isRange_isGreatest fun l hl => hranges l ((hsame l).2 hl)
    have hends : t.location.ends = s.location.ends := by
      simp only [← hsame] at hgreatest'
      exact hgreatest'.unique hgreatest
    exact ⟨s.location.ends, hs.ending?_eq, hends ▸ ht.ending?_eq, hgreatest⟩

def onThirdLine : Location := .ofSpan "f.m" 3 ⟨2, 3, by decide⟩ (some "x = 1")

def onFifthLine : Location := .ofSpan "f.m" 5 ⟨5, 8, by decide⟩ none

def atLineStart : Location := .ofSpan "f.m" 3 ⟨0, 0, by decide⟩ none

theorem extendTo_join_threeRanges :
    onThirdLine.IsJoin onFifthLine (onThirdLine.extendTo onFifthLine) ∧
      (onThirdLine.extendTo onFifthLine).stop? = some ⟨5, 8⟩ ∧
      (onThirdLine.extendTo onFifthLine).extendTo (onThirdLine.extendTo onFifthLine) =
        onThirdLine.extendTo onFifthLine ∧
      ((onThirdLine.extendTo onFifthLine).extendTo atLineStart).ending? =
        (atLineStart.extendTo (onFifthLine.extendTo onThirdLine)).ending? ∧
      atLineStart.extendTo ⟨"g.m", .line 9, none⟩ = atLineStart := by
  obtain ⟨hjoin, hself, hchain, hmissing⟩ := extendTo_join
  have hthird : onThirdLine.Made := .withContext (.span "f.m" 3 ⟨2, 3, by decide⟩) "x = 1"
  have hfifth : onFifthLine.Made := .span "f.m" 5 ⟨5, 8, by decide⟩
  have hstart : atLineStart.Made := .span "f.m" 3 ⟨0, 0, by decide⟩
  refine ⟨hjoin _ _ hthird hfifth rfl rfl rfl, rfl, hself _ (hthird.extendTo hfifth), ?_,
    hmissing _ _ (.inl (by decide))⟩
  obtain ⟨p, hp, hp', -⟩ := hchain "f.m"
    (.link (.link (.one onThirdLine) (.one onFifthLine)) (.one atLineStart))
    (.link (.one atLineStart) (.link (.one onFifthLine) (.one onThirdLine)))
    (List.forall_mem_cons.2 ⟨⟨hthird, rfl, rfl⟩, List.forall_mem_cons.2 ⟨⟨hfifth, rfl, rfl⟩,
      List.forall_mem_singleton.2 ⟨hstart, rfl, rfl⟩⟩⟩)
    (fun l => List.Perm.mem_iff (List.reverse_perm [atLineStart, onFifthLine, onThirdLine]))
  exact hp.trans hp'.symm

end Location

end MFile
