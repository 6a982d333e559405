import MFile.Proofs.Report.Tallies

/-!
Carets under a source line. Without colours, the source line of a message stands behind a margin
that holds its number, and the carets behind one that is blank. The first margin is as wide as the
number needs, but no narrower than for four digits; the second has that least width whatever the
number. So the carets stand under the columns that they are about up to line 9999. There are as many
as columns on the line, but the columns are counted in 32 bits: all that there can be are none.
-/

namespace MFile.Layout

def margin (number : Nat) : List Char := (lineNumber number).toList ++ " | ".toList

def shownLine (number : Nat) (line : String) : List Char := margin number ++ line.toList

def caretMargin : List Char := List.replicate 4 ' ' ++ " | ".toList

def caretLine (columns : Columns) (line : String) : List Char :=
  let (start, width) := caretSpan columns line.length
  caretMargin ++ List.replicate start ' ' ++ List.replicate width '^'

def firstMarked (columns : Columns) (line : String) : Nat :=
  min columns.first (UInt32.ofNat line.length).toNat

variable {m : Message} {number : Nat} {columns : Columns} {line : String}

@[simp] theorem paint_full (codes text : String) : full.paint codes text = text := rfl

@[simp] theorem toList_spaces (n : Nat) : (spaces n).toList = List.replicate n ' ' :=
  String.toList_ofList

/-! ## The text of a message -/

theorem toList_carets (columns : Columns) (line : String) :
    (full.carets columns line).toList = caretLine columns line ++ ['\n'] := by
  simp [carets, caretLine, caretMargin]

theorem toList_format (hline : m.location.line? = some number)
    (hcolumns : m.location.columns? = some columns) (hcontext : m.location.context = some line) :
    (full.format m).toList =
      (full.header m).toList ++ (shownLine number line ++ '\n' :: (caretLine columns line ++
        '\n' :: (m.hint.elim "" full.help).toList)) := by
  have hsource : (full.source m.location).toList =
      shownLine number line ++ '\n' :: (caretLine columns line ++ ['\n']) := by
    rw [source, hline, hcontext, hcolumns]
    simp [toList_carets, shownLine, margin]
  have hformat : full.format m =
      full.header m ++ (full.source m.location ++ m.hint.elim "" full.help) := rfl
  rw [hformat, String.toList_append, String.toList_append, hsource]
  simp only [List.append_assoc, List.cons_append, List.nil_append]

/-! ## Offsets -/

theorem length_lineNumber (number : Nat) :
    (lineNumber number).toList.length = max 4 (toString number).length := by
  rw [lineNumber, String.toList_append, List.length_append, toList_spaces, List.length_replicate,
    String.length_toList]
  omega

theorem length_margin (number : Nat) :
    (margin number).length = max 4 (toString number).length + 3 := by
  rw [margin, List.length_append, length_lineNumber]
  rfl

theorem length_margin_eq_iff (number : Nat) : (margin number).length = 7 ↔ number < 10000 := by
  have hdigits : (toString number).length ≤ 4 ↔ number < 10000 :=
    Nat.length_repr_le_iff (by decide)
  rw [← hdigits, length_margin]
  omega

theorem caretSpan_pos (columns : Columns) (shown : Nat) : 0 < (caretSpan columns shown).2 :=
  Nat.lt_of_lt_of_le Nat.zero_lt_one (Nat.le_max_left _ _)

theorem idxOf_caretLine (columns : Columns) (line : String) :
    (caretLine columns line).idxOf '^' = 7 + firstMarked columns line := by
  obtain ⟨width, hwidth⟩ := Nat.exists_eq_add_one.2 (caretSpan_pos columns line.length)
  have hblank : '^' ∉ caretMargin ++ List.replicate (firstMarked columns line) ' ' := by
    rw [List.mem_append, List.mem_replicate, not_or]
    exact ⟨by decide, fun h => absurd h.2 (by decide)⟩
  have hline : caretLine columns line = caretMargin ++
      List.replicate (firstMarked columns line) ' ' ++ List.replicate (width + 1) '^' := by
    rw [← hwidth]
    rfl
  rw [hline, List.idxOf_append, if_neg hblank, List.replicate_succ, List.idxOf_cons_self,
    Nat.zero_add, List.length_append, List.length_replicate]
  rfl

theorem count_caretLine (columns : Columns) (line : String) :
    (caretLine columns line).count '^' = max 1 (min columns.width
      ((UInt32.ofNat line.length).toNat - firstMarked columns line)) := by
  have hmargin : caretMargin.count '^' = 0 := by decide
  rw [caretLine, caretSpan, List.count_append, List.count_append, hmargin, List.count_replicate,
    List.count_replicate_self]
  exact Nat.zero_add _

theorem lineFeed_notMem_caretLine (columns : Columns) (line : String) :
    '\n' ∉ caretLine columns line := by
  rw [caretLine, List.mem_append, List.mem_append, List.mem_replicate, List.mem_replicate, not_or,
    not_or]
  exact ⟨⟨by decide, fun h => absurd h.2 (by decide)⟩, fun h => absurd h.2 (by decide)⟩

theorem lineFeed_mem_shownLine (h : '\n' ∈ shownLine number line) : '\n' ∈ line.toList := by
  rw [shownLine, margin, lineNumber, String.toList_append, toList_spaces, List.mem_append,
    List.mem_append, List.mem_append, List.mem_replicate] at h
  obtain ((hblank | hnumber) | hbar) | hline := h
  · exact absurd hblank.2 (by decide)
  · exact absurd hnumber (break_notMem_toString number)
  · exact absurd hbar (by decide)
  · exact hline

theorem drop_shownLine (number : Nat) (line : String) (i : Nat) :
    (shownLine number line).drop ((margin number).length + i) = line.toList.drop i := by
  rw [shownLine, ← List.drop_drop, List.drop_left]

/-! ## Columns of 32 bits -/

theorem width_eq (h : columns.last < UInt32.size) : columns.width =
    if columns.first = 0 ∧ columns.last + 1 = UInt32.size then 0
    else columns.last - columns.first + 1 := by
  have hle := columns.first_le_last
  have hsum : UInt32.ofNat columns.last - UInt32.ofNat columns.first + 1 =
      UInt32.ofNat (columns.last - columns.first + 1) := by
    rw [UInt32.ofNat_add, UInt32.ofNat_sub hle]
    rfl
  rw [Columns.width, hsum]
  split
  · rename_i hall
    rw [hall.1, Nat.sub_zero, hall.2]
    rfl
  · exact UInt32.toNat_ofNat_of_lt' (by omega)

theorem firstMarked_eq (h : line.length < UInt32.size) :
    firstMarked columns line = min columns.first line.length := by
  rw [firstMarked, UInt32.toNat_ofNat_of_lt' h]

theorem count_caretLine_of_lt (hlength : line.length < UInt32.size)
    (hlast : columns.last < UInt32.size) : (caretLine columns line).count '^' =
      if columns.first = 0 ∧ columns.last + 1 = UInt32.size then 1
      else max 1 (min (columns.last - columns.first + 1)
        (line.length - min columns.first line.length)) := by
  rw [count_caretLine, firstMarked_eq hlength, UInt32.toNat_ofNat_of_lt' hlength, width_eq hlast]
  split
  · rw [Nat.zero_min]
    rfl
  · rfl

/-! ## Alignment -/

/-- A source line and its carets, one line each. The first caret stands under the first column, or
behind the line if that is shorter, if and only if the number of the line has four digits at most.
The carets go on to the last column, or to the end of the line; but there is one caret alone if the
columns are all that 32 bits have. -/
structure Underlined (number : Nat) (columns : Columns) (line : String) : Prop where
  unbroken : '\n' ∉ line.toList → '\n' ∉ shownLine number line
  carets_unbroken : '\n' ∉ caretLine columns line
  marked : (shownLine number line).drop ((margin number).length + firstMarked columns line) =
    line.toList.drop (firstMarked columns line)
  aligned : (caretLine columns line).idxOf '^' =
    (margin number).length + firstMarked columns line ↔ number < 10000
  count : (caretLine columns line).count '^' = max 1 (min columns.width
    ((UInt32.ofNat line.length).toNat - firstMarked columns line))
  exact : line.length < UInt32.size → columns.last < UInt32.size →
    firstMarked columns line = min columns.first line.length ∧
      (caretLine columns line).count '^' =
        if columns.first = 0 ∧ columns.last + 1 = UInt32.size then 1
        else max 1 (min (columns.last - columns.first + 1)
          (line.length - min columns.first line.length))

theorem underlined (number : Nat) (columns : Columns) (line : String) :
    Underlined number columns line where
  unbroken := mt lineFeed_mem_shownLine
  carets_unbroken := lineFeed_notMem_caretLine columns line
  marked := drop_shownLine number line _
  aligned := by
    rw [← length_margin_eq_iff, idxOf_caretLine]
    omega
  count := count_caretLine columns line
  exact hlength hlast := ⟨firstMarked_eq hlength, count_caretLine_of_lt hlength hlast⟩

/-- The header, the source line with its carets, and the hint stand below each other. -/
theorem format_carets (hline : m.location.line? = some number)
    (hcolumns : m.location.columns? = some columns) (hcontext : m.location.context = some line) :
    (full.format m).toList =
      (full.header m).toList ++ (shownLine number line ++ '\n' :: (caretLine columns line ++
        '\n' :: (m.hint.elim "" full.help).toList)) ∧
    Underlined number columns line :=
  ⟨toList_format hline hcolumns hcontext, underlined number columns line⟩

def markedName (line : Nat) : Message where
  location := .ofSpan "f.m" line ⟨4, 6, by decide⟩ (some "x = foo;")
  severity := .error
  text := "bad"

theorem format_carets_markedName :
    (full.format (markedName 9999)).toList =
      (full.header (markedName 9999)).toList ++ (shownLine 9999 "x = foo;" ++
        '\n' :: (caretLine ⟨4, 6, by decide⟩ "x = foo;" ++ ['\n'])) ∧
    (caretLine ⟨4, 6, by decide⟩ "x = foo;").idxOf '^' = (margin 9999).length + 4 := by
  obtain ⟨hformat, hcarets⟩ := format_carets (m := markedName 9999) rfl rfl rfl
  exact ⟨hformat, hcarets.aligned.2 (by decide)⟩

/-- One line further, the number has five digits, and the carets stand one column too far left. -/
theorem format_carets_misaligned :
    full.format (markedName 10000) =
      "f.m:10000:5: error: bad\n10000 | x = foo;\n     |     ^^^\n" ∧
    (margin 10000).length + min 4 "x = foo;".length = 12 ∧
    (caretLine ⟨4, 6, by decide⟩ "x = foo;").idxOf '^' = 11 := by
  decide +kernel

end MFile.Layout
