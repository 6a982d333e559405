import Mathlib.Data.List.DropRight
import MFile.Text.LineIndex

/-!
Lines and columns by counting. `position` reads a text one character after the other, and so does
`wordPosition` in numbers of 32 bits. `LineIndex` looks an offset up among the line starts; behind
every part of a text that ends on a character it gives the answer that counting in 32 bits gives,
and the line found is the one that the count has reached.
-/

namespace MFile.Text

def stepPosition (p : Nat × Nat) (c : Char) : Nat × Nat :=
  if c = '\n' then (p.1 + 1, 0) else (p.1, p.2 + 1)

/-- The line, counted from one, and the column, counted from zero, behind a text. -/
def position (cs : List Char) : Nat × Nat := cs.foldl stepPosition (1, 0)

def stepWord (p : UInt32 × UInt32) (c : Char) : UInt32 × UInt32 :=
  if c = '\n' then (p.1 + 1, 0) else (p.1, p.2 + 1)

/-- The same in numbers of 32 bits, which start over at zero. -/
def wordPosition (cs : List Char) : UInt32 × UInt32 := cs.foldl stepWord (1, 0)

def lastLine (cs : List Char) : List Char := cs.rtakeWhile (· ≠ '\n')

def fullPart (cs : List Char) : List Char := cs.rdropWhile (· ≠ '\n')

@[simp] theorem position_nil : position [] = (1, 0) := rfl

theorem position_concat (cs : List Char) (c : Char) :
    position (cs ++ [c]) = stepPosition (position cs) c := by
  simp [position]

theorem wordPosition_eq (cs : List Char) :
    wordPosition cs = (UInt32.ofNat (position cs).1, UInt32.ofNat (position cs).2) := by
  induction cs using List.reverseRecOn with
  | nil => rfl
  | append_singleton cs c ih =>
    have hstep : wordPosition (cs ++ [c]) = stepWord (wordPosition cs) c := by
      simp [wordPosition]
    rw [hstep, ih, position_concat, stepWord, stepPosition]
    split
    · rw [UInt32.ofNat_add]
      rfl
    · rw [UInt32.ofNat_add]
      rfl

@[simp] theorem lastLine_nil : lastLine [] = [] := rfl

theorem lastLine_concat (cs : List Char) (c : Char) :
    lastLine (cs ++ [c]) = if c = '\n' then [] else lastLine cs ++ [c] := by
  by_cases h : c = '\n'
  · simp [lastLine, h]
  · simp [lastLine, h]

theorem lastLine_append {a b : List Char} (h : '\n' ∉ b) :
    lastLine (a ++ b) = lastLine a ++ b := by
  induction b using List.reverseRecOn with
  | nil => simp
  | append_singleton b c ih =>
    simp only [List.mem_append, List.mem_singleton, not_or] at h
    rw [← List.append_assoc, lastLine_concat, if_neg (Ne.symm h.2), ih h.1, List.append_assoc]

theorem fullPart_append_lastLine (cs : List Char) : fullPart cs ++ lastLine cs = cs :=
  List.rdropWhile_append_rtakeWhile

theorem break_notMem_lastLine (cs : List Char) : '\n' ∉ lastLine cs := by
  intro h
  simpa using List.mem_rtakeWhile_imp h

theorem count_fullPart (cs : List Char) : (fullPart cs).count '\n' = cs.count '\n' := by
  have hsum := congrArg (List.count '\n') (fullPart_append_lastLine cs)
  rwa [List.count_append, List.count_eq_zero.2 (break_notMem_lastLine cs)] at hsum

theorem fullPart_eq (cs : List Char) :
    fullPart cs = [] ∨ ∃ lines, fullPart cs = lines ++ ['\n'] := by
  induction cs using List.reverseRecOn with
  | nil => exact Or.inl rfl
  | append_singleton cs c ih =>
    by_cases h : c = '\n'
    · exact Or.inr ⟨cs, by simp [fullPart, h]⟩
    · have hstep : fullPart (cs ++ [c]) = fullPart cs := by
        simp [fullPart, h]
      rwa [hstep]

theorem position_eq (cs : List Char) :
    position cs = (cs.count '\n' + 1, (lastLine cs).length) := by
  induction cs using List.reverseRecOn with
  | nil => rfl
  | append_singleton cs c ih =>
    rw [position_concat, ih, stepPosition, lastLine_concat]
    by_cases h : c = '\n'
    · simp [h]
    · simp [h]

theorem position_append_of_notMem {a b : List Char} (h : '\n' ∉ b) :
    position (a ++ b) = ((position a).1, (position a).2 + b.length) := by
  rw [position_eq, position_eq, List.count_append, List.count_eq_zero.2 h, lastLine_append h,
    List.length_append, Nat.add_zero]

/-! ## Cutting -/

theorem byteCount_pos {cs : List Char} (h : cs ≠ []) : 0 < byteCount cs := by
  cases cs with
  | nil => exact absurd rfl h
  | cons c cs =>
    have hc := Char.utf8Size_pos c
    rw [byteCount_cons]
    omega

theorem slice?_append (a b c : List Char) :
    slice? (a ++ b ++ c) (byteCount a) (byteCount (a ++ b)) = some b := by
  have hlen : byteCount (a ++ b) - byteCount a = byteCount b := by simp
  rw [slice?, if_pos (by simp), List.append_assoc, dropBytes?_append, Option.bind_some, hlen,
    takeBytes?_append]

theorem slice?_prefix (a b : List Char) : slice? (a ++ b) 0 (byteCount a) = some a := by
  simpa using slice?_append [] a b

/-! ## Line starts -/

theorem startsAfterBreaks_append (n : Nat) (a b : List Char) :
    startsAfterBreaks n (a ++ b) =
      startsAfterBreaks n a ++ startsAfterBreaks (n + byteCount a) b := by
  induction a generalizing n with
  | nil => simp [startsAfterBreaks]
  | cons c a ih =>
    simp only [List.cons_append, startsAfterBreaks, ih, byteCount_cons, Nat.add_assoc]
    split <;> rfl

@[simp] theorem length_startsAfterBreaks (n : Nat) (cs : List Char) :
    (startsAfterBreaks n cs).length = cs.count '\n' := by
  induction cs generalizing n with
  | nil => rfl
  | cons c cs ih =>
    by_cases h : c = '\n'
    · simp [startsAfterBreaks, h, ih]
    · simp [startsAfterBreaks, h, ih]

theorem startsAfterBreaks_bounds {n k : Nat} {cs : List Char}
    (h : k ∈ startsAfterBreaks n cs) : n < k ∧ k ≤ n + byteCount cs := by
  induction cs generalizing n with
  | nil => simp [startsAfterBreaks] at h
  | cons c cs ih =>
    have hc := Char.utf8Size_pos c
    have hcases : k = n + c.utf8Size ∨ k ∈ startsAfterBreaks (n + c.utf8Size) cs := by
      simp only [startsAfterBreaks] at h
      split at h
      · exact List.mem_cons.1 h
      · exact Or.inr h
    rw [byteCount_cons]
    rcases hcases with rfl | hk
    · omega
    · have hb := ih hk
      omega

theorem start_of_lastLine (behind rest : List Char) :
    (0 :: startsAfterBreaks 0 (behind ++ rest))[behind.count '\n']? =
      some (byteCount (fullPart behind)) := by
  have hsplit := fullPart_append_lastLine behind
  rw [← count_fullPart]
  rcases fullPart_eq behind with h | ⟨lines, h⟩
  · simp [h]
  · have hbehind : behind ++ rest = lines ++ ('\n' :: (lastLine behind ++ rest)) := by
      rw [h] at hsplit
      calc behind ++ rest = lines ++ ['\n'] ++ lastLine behind ++ rest := by rw [hsplit]
        _ = lines ++ ('\n' :: (lastLine behind ++ rest)) := by simp
    rw [hbehind, h, startsAfterBreaks_append]
    simp [startsAfterBreaks]

theorem start_after_lastLine (behind rest : List Char) :
    (0 :: startsAfterBreaks 0 (behind ++ rest))[behind.count '\n' + 1]? =
      (startsAfterBreaks (byteCount behind) rest).head? := by
  rw [List.getElem?_cons_succ, startsAfterBreaks_append,
    List.getElem?_append_right (by simp), length_startsAfterBreaks, Nat.sub_self, Nat.zero_add,
    List.head?_eq_getElem?]

theorem stop_of_line (n : Nat) (rest : List Char) :
    ((startsAfterBreaks n rest).head?).elim (n + byteCount rest) (· - 1) =
      n + byteCount (rest.takeWhile (· ≠ '\n')) := by
  induction rest generalizing n with
  | nil => rfl
  | cons c rest ih =>
    by_cases h : c = '\n'
    · have hsize : '\n'.utf8Size = 1 := rfl
      simp [startsAfterBreaks, h, hsize]
    · have hstep := ih (n + c.utf8Size)
      simpa [startsAfterBreaks, h, Nat.add_assoc] using hstep

theorem countP_starts {n : Nat} {behind rest : List Char} (hbehind : byteCount behind ≤ n)
    (hrest : ∀ k ∈ startsAfterBreaks (byteCount behind) rest, n < k) :
    (0 :: startsAfterBreaks 0 (behind ++ rest)).countP (· ≤ n) = behind.count '\n' + 1 := by
  have hbefore : ∀ k ∈ startsAfterBreaks 0 behind, decide (k ≤ n) = true := by
    intro k hk
    have hb := (startsAfterBreaks_bounds hk).2
    exact decide_eq_true (by omega)
  have hafter : ∀ k ∈ startsAfterBreaks (0 + byteCount behind) rest,
      ¬ decide (k ≤ n) = true := by
    intro k hk
    rw [Nat.zero_add] at hk
    simpa using hrest k hk
  rw [startsAfterBreaks_append, List.countP_cons, List.countP_append,
    List.countP_eq_length.2 hbefore, List.countP_eq_zero.2 hafter]
  simp

end MFile.Text

namespace MFile.LineIndex

open Text

variable {text : String} {behind rest : List Char}

/-- Looking an offset up is counting up to it, in 32 bits. -/
theorem lineCol_eq_wordPosition (h : text.toList = behind ++ rest) :
    (ofText text).lineCol (byteCount behind) =
      (wordPosition behind).map UInt32.toNat UInt32.toNat := by
  have hnext : ∀ k ∈ startsAfterBreaks (byteCount behind) rest, byteCount behind < k :=
    fun k hk => (startsAfterBreaks_bounds hk).1
  have hline := countP_starts (Nat.le_refl (byteCount behind)) hnext
  have hstart := start_of_lastLine behind rest
  have hcut : slice? (behind ++ rest) (byteCount (fullPart behind)) (byteCount behind) =
      some (lastLine behind) := by
    have hs := slice?_append (fullPart behind) (lastLine behind) rest
    rwa [fullPart_append_lastLine] at hs
  rw [wordPosition_eq, position_eq, UInt32.ofNat_add]
  simp only [lineCol, ofText, h, hline, List.getD_eq_getElem?_getD, Nat.add_sub_cancel, hstart,
    byteCount_append, Nat.le_add_right, Nat.min_eq_left, Option.getD_some, hcut]
  rfl

theorem line?_position (h : text.toList = behind ++ rest) :
    (ofText text).line? (position behind).1 =
      some (String.ofList (dropReturn (lastLine behind ++ rest.takeWhile (· ≠ '\n')))) := by
  have hstart := start_of_lastLine behind rest
  have hnext := start_after_lastLine behind rest
  have hstop := stop_of_line (byteCount behind) rest
  have hsplit := fullPart_append_lastLine behind
  have hcut : slice? (behind ++ rest) (byteCount (fullPart behind))
      (byteCount behind + byteCount (rest.takeWhile (· ≠ '\n'))) =
      some (lastLine behind ++ rest.takeWhile (· ≠ '\n')) := by
    have hs := slice?_append (fullPart behind) (lastLine behind ++ rest.takeWhile (· ≠ '\n'))
      (rest.dropWhile (· ≠ '\n'))
    rwa [← List.append_assoc, hsplit, List.append_assoc, List.takeWhile_append_dropWhile,
      byteCount_append] at hs
  simp only [position_eq, line?, ofText, h, hstart, hnext, byteCount_append, hstop, hcut,
    Option.bind_eq_bind, Option.bind_some]
  rfl

end MFile.LineIndex
