import Mathlib.Data.List.DropRight
import MFile.Text.Blank

/-!
Texts made of lines, and what is left of their lines when a text is trimmed. Without the breaks at
its ends a text has lost lines that hold nothing at both ends, carriage returns apart, and the
lines between them are there as they were.
-/

namespace MFile.Text

def ofLines (lines : List (List Char)) : List Char := ['\n'].intercalate lines

def Hollow (cs : List Char) : Prop := ∀ c ∈ cs, c = '\r'

variable {p q : Char → Bool} {cs front breaks text line : List Char} {lines : List (List Char)}

@[simp] theorem ofLines_singleton (line : List Char) : ofLines [line] = line :=
  List.intercalate_singleton

theorem ofLines_cons_cons (first second : List Char) (lines : List (List Char)) :
    ofLines (first :: second :: lines) = first ++ '\n' :: ofLines (second :: lines) := by
  rw [ofLines, List.intercalate_cons_cons, List.append_assoc]
  rfl

theorem ofLines_cons (line : List Char) (lines : List (List Char)) :
    ofLines (line :: lines) = line ++ lines.flatMap ('\n' :: ·) := by
  induction lines generalizing line with
  | nil => rw [ofLines_singleton, List.flatMap_nil, List.append_nil]
  | cons second lines ih => rw [ofLines_cons_cons, ih, List.flatMap_cons, List.cons_append]

theorem ofLines_concat (first : List Char) (lines : List (List Char)) (last : List Char) :
    ofLines (first :: lines ++ [last]) = ofLines (first :: lines) ++ '\n' :: last := by
  rw [List.cons_append, ofLines_cons, ofLines_cons, List.flatMap_append, List.append_assoc,
    List.flatMap_singleton]

theorem ofLines_flatMap (lines : List (List Char)) (last : List Char) :
    ofLines (lines ++ [last]) = lines.flatMap (· ++ ['\n']) ++ last := by
  induction lines with
  | nil => exact ofLines_singleton last
  | cons first lines ih =>
    rw [List.flatMap_cons, List.append_assoc, List.append_assoc, ← ih]
    cases lines with
    | nil => exact ofLines_cons_cons first last []
    | cons second lines => exact ofLines_cons_cons first second (lines ++ [last])

theorem ofLines_append_head (front line : List Char) (lines : List (List Char)) :
    ofLines ((front ++ line) :: lines) = front ++ ofLines (line :: lines) := by
  rw [ofLines_cons, ofLines_cons, List.append_assoc]

theorem ofLines_append_last (lines : List (List Char)) (line rest : List Char) :
    ofLines (lines ++ [line ++ rest]) = ofLines (lines ++ [line]) ++ rest := by
  rw [ofLines_flatMap, ofLines_flatMap, List.append_assoc]

/-! ## Trimmed texts -/

theorem exists_trim (p : Char → Bool) (cs : List Char) :
    ∃ front back, cs = front ++ trim p cs ++ back ∧ ∀ c ∈ front ++ back, p c = true := by
  have hback : trim p cs ++ (trimStart p cs).rtakeWhile p = trimStart p cs :=
    List.rdropWhile_append_rtakeWhile
  refine ⟨cs.takeWhile p, (trimStart p cs).rtakeWhile p, ?_, fun c hc => ?_⟩
  · rw [List.append_assoc, hback]
    exact List.takeWhile_append_dropWhile.symm
  · exact (List.mem_append.1 hc).elim List.mem_takeWhile_imp List.mem_rtakeWhile_imp

theorem trimEnd_append_of_all (h : ∀ c ∈ text, p c = true) (cs : List Char) :
    trimEnd p (cs ++ text) = trimEnd p cs := by
  rw [trimEnd, List.reverse_append, List.dropWhile_append_of_pos (by simpa using h), trimEnd]

theorem trim_append_of_all (h : ∀ c ∈ text, p c = true) (cs : List Char) :
    trim p (cs ++ text) = trim p cs := by
  rw [trim, trim, trimStart, trimStart, List.dropWhile_append]
  split
  · rename_i hall
    have hnone : text.dropWhile p = [] := List.dropWhile_eq_nil_iff.2 h
    rw [hnone, List.isEmpty_iff.1 hall]
  · exact trimEnd_append_of_all h _

theorem trim_trimEnd (h : ∀ c, q c = true → p c = true) (cs : List Char) :
    trim p (trimEnd q cs) = trim p cs := by
  have hsplit : trimEnd q cs ++ cs.rtakeWhile q = cs := List.rdropWhile_append_rtakeWhile
  calc trim p (trimEnd q cs)
      = trim p (trimEnd q cs ++ cs.rtakeWhile q) :=
        (trim_append_of_all (fun c hc => h c (List.mem_rtakeWhile_imp hc)) _).symm
    _ = trim p cs := by rw [hsplit]

/-! ## Lines at the ends of a text -/

theorem hollow_of_breaks (hline : '\n' ∉ line) (h : ∀ c ∈ line, isBreak c = true) :
    Hollow line := by
  intro c hc
  have hbreak := h c hc
  rw [isBreak, Bool.or_eq_true, beq_iff_eq, beq_iff_eq] at hbreak
  exact hbreak.resolve_left fun heq => hline (heq ▸ hc)

theorem exists_of_breaks_append (hne : lines ≠ []) (hlines : ∀ line ∈ lines, '\n' ∉ line)
    (hbreaks : ∀ c ∈ breaks, isBreak c = true) (h : ofLines lines = breaks ++ text) :
    ∃ lead front line more, lines = lead ++ (front ++ line) :: more ∧ (∀ l ∈ lead, Hollow l) ∧
      Hollow front ∧ text = ofLines (line :: more) := by
  induction lines generalizing breaks with
  | nil => exact absurd rfl hne
  | cons first lines ih =>
    obtain ⟨hfirst, hrest⟩ := List.forall_mem_cons.1 hlines
    cases lines with
    | nil =>
      rw [ofLines_singleton] at h
      have hfront : '\n' ∉ breaks := fun hmem => hfirst (h ▸ List.mem_append_left _ hmem)
      exact ⟨[], breaks, text, [], congrArg ([·]) h, List.forall_mem_nil _,
        hollow_of_breaks hfront hbreaks, (ofLines_singleton _).symm⟩
    | cons second lines =>
      rw [ofLines_cons_cons] at h
      obtain ⟨as, rfl, has⟩ | ⟨bs, rfl, hbs⟩ := List.append_eq_append_iff.1 h
      · have hhollow : Hollow first :=
          hollow_of_breaks hfirst fun c hc => hbreaks c (List.mem_append_left _ hc)
        cases as with
        | nil =>
          refine ⟨[], first, [], second :: lines, ?_, List.forall_mem_nil _, hhollow, ?_⟩
          · rw [List.append_nil, List.nil_append]
          · rw [ofLines_cons_cons]
            exact has.symm
        | cons c as =>
          obtain ⟨rfl, hlater⟩ := List.cons.inj has
          obtain ⟨lead, front, line, more, heq, hlead, hfront, htext⟩ :=
            ih (List.cons_ne_nil _ _) hrest
            (fun c hc => hbreaks c (List.mem_append_right _ (List.mem_cons_of_mem _ hc))) hlater
          exact ⟨first :: lead, front, line, more, congrArg (first :: ·) heq,
            List.forall_mem_cons.2 ⟨hhollow, hlead⟩, hfront, htext⟩
      · have hfront : '\n' ∉ breaks := fun hmem => hfirst (List.mem_append_left _ hmem)
        refine ⟨[], breaks, bs, second :: lines, rfl, List.forall_mem_nil _,
          hollow_of_breaks hfront hbreaks, ?_⟩
        rw [ofLines_cons_cons]
        exact hbs

theorem exists_of_append_breaks (hne : lines ≠ []) (hlines : ∀ line ∈ lines, '\n' ∉ line)
    (hbreaks : ∀ c ∈ breaks, isBreak c = true) (h : ofLines lines = text ++ breaks) :
    ∃ before line back tail, lines = before ++ (line ++ back) :: tail ∧ (∀ l ∈ tail, Hollow l) ∧
      Hollow back ∧ text = ofLines (before ++ [line]) := by
  induction lines using List.reverseRecOn generalizing breaks with
  | nil => exact absurd rfl hne
  | append_singleton lines last ih =>
    obtain ⟨hrest, hlast⟩ := List.forall_mem_append.1 hlines
    have hlast : '\n' ∉ last := hlast last (List.mem_singleton_self _)
    cases lines with
    | nil =>
      rw [List.nil_append, ofLines_singleton] at h
      have hback : '\n' ∉ breaks := fun hmem => hlast (h ▸ List.mem_append_right _ hmem)
      exact ⟨[], text, breaks, [], congrArg ([·]) h, List.forall_mem_nil _,
        hollow_of_breaks hback hbreaks, (ofLines_singleton _).symm⟩
    | cons first lines =>
      rw [ofLines_concat] at h
      -- The line feed before the last line is one of the breaks, or stands in the text.
      have hcut : (∃ cs, ofLines (first :: lines) = text ++ cs ∧ breaks = cs ++ '\n' :: last) ∨
          ∃ cs, text = ofLines (first :: lines) ++ '\n' :: cs ∧ last = cs ++ breaks := by
        obtain ⟨cs, htext, hcs⟩ | ⟨cs, hcs, hb⟩ := List.append_eq_append_iff.1 h
        · cases cs with
          | nil => exact .inl ⟨[], by rw [htext, List.append_nil, List.append_nil], hcs.symm⟩
          | cons c cs =>
            obtain ⟨rfl, hlater⟩ := List.cons.inj hcs
            exact .inr ⟨cs, htext, hlater⟩
        · exact .inl ⟨cs, hcs, hb⟩
      obtain ⟨cs, hcs, rfl⟩ | ⟨cs, rfl, rfl⟩ := hcut
      · obtain ⟨hbefore, hafter⟩ := List.forall_mem_append.1 hbreaks
        obtain ⟨before, line, back, tail, heq, htail, hback, htext⟩ :=
          ih (List.cons_ne_nil _ _) hrest hbefore hcs
        refine ⟨before, line, back, tail ++ [last], ?_, ?_, hback, htext⟩
        · rw [heq, List.append_assoc, List.cons_append]
        · exact List.forall_mem_append.2 ⟨htail, List.forall_mem_singleton.2
            (hollow_of_breaks hlast (List.forall_mem_cons.1 hafter).2)⟩
      · have hback : '\n' ∉ breaks := fun hmem => hlast (List.mem_append_right _ hmem)
        exact ⟨first :: lines, cs, breaks, [], rfl, List.forall_mem_nil _,
          hollow_of_breaks hback hbreaks, (ofLines_concat first lines cs).symm⟩

/-- The text has the lines in it, but hollow ones at both ends, and carriage returns at the two
ends of what is left. -/
def Keeps (lines : List (List Char)) (text : List Char) : Prop :=
  ∃ lead kept tail front back, lines = lead ++ kept ++ tail ∧ (∀ l ∈ lead ++ tail, Hollow l) ∧
    ofLines kept = front ++ text ++ back ∧ Hollow front ∧ Hollow back

theorem keeps_trim (hne : lines ≠ []) (hlines : ∀ line ∈ lines, '\n' ∉ line) :
    Keeps lines (trim isBreak (ofLines lines)) := by
  obtain ⟨breaks, breaks', hsplit, hbreaks⟩ := exists_trim isBreak (ofLines lines)
  generalize trim isBreak (ofLines lines) = text at hsplit
  obtain ⟨hfirst, hlast⟩ := List.forall_mem_append.1 hbreaks
  rw [List.append_assoc] at hsplit
  obtain ⟨lead, front, line, more, rfl, hlead, hfront, htext⟩ :=
    exists_of_breaks_append hne hlines hfirst hsplit
  have hmore : ∀ l ∈ line :: more, '\n' ∉ l := by
    obtain ⟨hline, hmore⟩ :=
      List.forall_mem_cons.1 fun l hl => hlines l (List.mem_append_right _ hl)
    exact List.forall_mem_cons.2 ⟨fun hmem => hline (List.mem_append_right _ hmem), hmore⟩
  obtain ⟨before, last, back, tail, heq, htail, hback, rfl⟩ :=
    exists_of_append_breaks (List.cons_ne_nil _ _) hmore hlast htext.symm
  cases before with
  | nil =>
    obtain ⟨rfl, rfl⟩ := List.cons.inj heq
    refine ⟨lead, [front ++ (last ++ back)], more, front, back, ?_, ?_, ?_, hfront, hback⟩
    · rw [List.append_assoc, List.singleton_append]
    · exact List.forall_mem_append.2 ⟨hlead, htail⟩
    · rw [ofLines_singleton, List.nil_append, ofLines_singleton, List.append_assoc]
  | cons first before =>
    obtain ⟨rfl, hrest⟩ := List.cons.inj heq
    refine ⟨lead, (front ++ line) :: (before ++ [last ++ back]), tail, front, back, ?_, ?_, ?_,
      hfront, hback⟩
    · rw [hrest]
      simp only [List.append_eq, List.append_assoc, List.cons_append, List.nil_append]
    · exact List.forall_mem_append.2 ⟨hlead, htail⟩
    · rw [ofLines_append_head, ← List.cons_append, ofLines_append_last, List.append_assoc]

end MFile.Text
