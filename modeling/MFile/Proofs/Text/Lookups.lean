import Mathlib.Data.Prod.Lex
import MFile.Proofs.Text.Position
import MFile.Text.Bytes

/-!
Looking up any offset and any line. An offset has behind it the characters that have ended there;
on a character, and past the end, its line and column are those behind these characters, and inside
a character the column is lost. So an index answers what a reading of the text in numbers of 32 bits
finds. Where these are enough for the lines of the text and the characters on each, they are the
true ones, and climb with the offsets, but for those inside a character.
-/

namespace MFile.Text

variable {m n : Nat} {c : Char} {cs behind rest piece : List Char}

/-! ## Offsets -/

def upTo : Nat → List Char → List Char
  | _, [] => []
  | n, c :: cs => if c.utf8Size ≤ n then c :: upTo (n - c.utf8Size) cs else []

/-- The offset is behind the first byte of a character and before its end. -/
def Inside (n : Nat) (cs : List Char) : Prop :=
  ∃ behind c rest, cs = behind ++ c :: rest ∧ byteCount behind < n ∧
    n < byteCount behind + c.utf8Size

theorem upTo_append (hbehind : byteCount behind ≤ n)
    (hrest : ∀ c ∈ rest.head?, n < byteCount behind + c.utf8Size) :
    upTo n (behind ++ rest) = behind := by
  induction behind generalizing n with
  | nil =>
    cases rest with
    | nil => rfl
    | cons c rest =>
      have hc : n < c.utf8Size := by simpa using hrest c rfl
      exact if_neg (Nat.not_le.2 hc)
  | cons d behind ih =>
    rw [byteCount_cons] at hbehind hrest
    rw [List.cons_append, upTo, if_pos (by omega), ih (by omega) fun c hc => ?_]
    have hlt := hrest c hc
    omega

theorem exists_upTo (n : Nat) (cs : List Char) : ∃ rest, cs = upTo n cs ++ rest ∧
    byteCount (upTo n cs) ≤ n ∧ ∀ c ∈ rest.head?, n < byteCount (upTo n cs) + c.utf8Size := by
  induction cs generalizing n with
  | nil => exact ⟨[], rfl, Nat.zero_le n, fun _ h => nomatch h⟩
  | cons c cs ih =>
    rw [upTo]
    split
    · obtain ⟨rest, hcs, hle, hrest⟩ := ih (n - c.utf8Size)
      refine ⟨rest, congrArg (c :: ·) hcs, ?_, fun d hd => ?_⟩
      · rw [byteCount_cons]
        omega
      · have hlt := hrest d hd
        rw [byteCount_cons]
        omega
    · rename_i hc
      refine ⟨c :: cs, rfl, Nat.zero_le n, ?_⟩
      rintro d ⟨⟩
      rw [byteCount_nil]
      omega

theorem upTo_mono (h : m ≤ n) (cs : List Char) : upTo m cs <+: upTo n cs := by
  induction cs generalizing m n with
  | nil => exact List.prefix_refl []
  | cons c cs ih =>
    rw [upTo, upTo]
    by_cases hm : c.utf8Size ≤ m
    · rw [if_pos hm, if_pos (hm.trans h)]
      exact (List.prefix_cons_inj c).2 (ih (Nat.sub_le_sub_right h _))
    · rw [if_neg hm]
      exact List.nil_prefix

theorem takeBytes?_inside (hbehind : byteCount behind < n) (hn : n < byteCount behind + c.utf8Size)
    (rest : List Char) : takeBytes? n (behind ++ c :: rest) = none := by
  induction behind generalizing n with
  | nil =>
    rw [byteCount_nil] at hbehind hn
    obtain ⟨k, rfl⟩ := Nat.exists_eq_add_of_lt hbehind
    rw [List.nil_append, takeBytes?, if_neg (by omega)]
  | cons d behind ih =>
    rw [byteCount_cons] at hbehind hn
    obtain ⟨k, rfl⟩ := Nat.exists_eq_add_of_lt (Nat.zero_lt_of_lt hbehind)
    rw [List.cons_append, takeBytes?, if_pos (by omega), ih (by omega) (by omega), Option.map_none]

/-! ## Positions -/

theorem position_le_append (cs more : List Char) :
    toLex (position cs) ≤ toLex (position (cs ++ more)) := by
  induction more using List.reverseRecOn with
  | nil => rw [List.append_nil]
  | append_singleton more c ih =>
    refine ih.trans ?_
    rw [← List.append_assoc, position_concat, stepPosition, Prod.Lex.toLex_le_toLex]
    split
    · exact .inl (Nat.lt_succ_self _)
    · exact .inr ⟨rfl, Nat.le_succ _⟩

theorem position_mono (h : cs <+: behind) : toLex (position cs) ≤ toLex (position behind) := by
  obtain ⟨more, rfl⟩ := h
  exact position_le_append cs more

theorem head?_pieces (separator : Char) (cs : List Char) :
    (pieces separator cs).head? = some (cs.takeWhile (· ≠ separator)) := by
  induction cs with
  | nil => rfl
  | cons c cs ih =>
    by_cases h : c = separator
    · simp [pieces, h]
    · cases hpieces : pieces separator cs with
      | nil =>
        rw [hpieces] at ih
        cases ih
      | cons piece more =>
        rw [hpieces, List.head?_cons, Option.some.injEq] at ih
        simp [pieces, h, hpieces, ih]

theorem pieces_append_cons (separator : Char) (cs rest : List Char) :
    pieces separator (cs ++ separator :: rest) = pieces separator cs ++ pieces separator rest := by
  induction cs with
  | nil => simp [pieces]
  | cons c cs ih =>
    by_cases h : c = separator
    · simp [pieces, h, ih]
    · cases hpieces : pieces separator cs with
      | nil =>
        have hlength := length_pieces separator cs
        simp [hpieces] at hlength
      | cons piece more => simp [pieces, h, ih, hpieces]

theorem getElem?_pieces (behind rest : List Char) :
    (pieces '\n' (behind ++ rest))[behind.count '\n']? =
      some (lastLine behind ++ rest.takeWhile (· ≠ '\n')) := by
  have hline : (pieces '\n' (lastLine behind ++ rest))[0]? =
      some (lastLine behind ++ rest.takeWhile (· ≠ '\n')) := by
    rw [← List.head?_eq_getElem?, head?_pieces, List.takeWhile_append_of_pos fun c hc =>
      decide_eq_true (by rintro rfl; exact break_notMem_lastLine behind hc)]
  have hsplit : behind ++ rest = fullPart behind ++ (lastLine behind ++ rest) := by
    rw [← List.append_assoc, fullPart_append_lastLine]
  rw [hsplit, ← count_fullPart]
  rcases fullPart_eq behind with hfull | ⟨lines, hfull⟩
  · rwa [hfull]
  · rw [hfull, List.append_assoc, List.singleton_append, pieces_append_cons,
      List.getElem?_append_right (by simp [length_pieces])]
    simpa [length_pieces] using hline

/-! ## Numbers of 32 bits -/

/-- The lines of a text, and the characters of each, are few enough for 32 bits. -/
structure Fits (cs : List Char) : Prop where
  lines : cs.count '\n' + 1 < UInt32.size
  columns : ∀ piece ∈ pieces '\n' cs, piece.length < UInt32.size

theorem Fits.line_lt (h : Fits (behind ++ rest)) : (position behind).1 < UInt32.size := by
  have hlines := h.lines
  rw [List.count_append] at hlines
  rw [position_eq]
  omega

theorem Fits.column_lt (h : Fits (behind ++ rest)) : (position behind).2 < UInt32.size := by
  have hline := h.columns _ (List.mem_of_getElem? (getElem?_pieces behind rest))
  rw [List.length_append] at hline
  rw [position_eq]
  exact (Nat.le_add_right _ _).trans_lt hline

theorem Fits.wordPosition (h : Fits (behind ++ rest)) :
    (wordPosition behind).map UInt32.toNat UInt32.toNat = position behind := by
  rw [wordPosition_eq, Prod.map, UInt32.toNat_ofNat_of_lt' h.line_lt,
    UInt32.toNat_ofNat_of_lt' h.column_lt]

theorem length_le_of_mem_pieces {d : Char} (h : piece ∈ pieces d cs) :
    piece.length ≤ cs.length := by
  induction cs generalizing piece with
  | nil =>
    rw [pieces, List.mem_singleton] at h
    rw [h]
  | cons c cs ih =>
    rw [pieces] at h
    split at h
    · obtain rfl | h := List.mem_cons.1 h
      · exact Nat.zero_le _
      · exact Nat.le_succ_of_le (ih h)
    · split at h
      · rw [List.mem_singleton] at h
        rw [h]
        exact Nat.succ_le_succ (Nat.zero_le _)
      · rename_i first later hpieces
        obtain rfl | h := List.mem_cons.1 h
        · exact Nat.succ_le_succ (ih (hpieces ▸ List.mem_cons_self))
        · exact Nat.le_succ_of_le (ih (hpieces ▸ List.mem_cons_of_mem _ h))

theorem fits_of_length (h : cs.length + 1 < UInt32.size) : Fits cs where
  lines := (Nat.succ_le_succ List.count_le_length).trans_lt h
  columns _ hpiece := (length_le_of_mem_pieces hpiece).trans_lt (Nat.lt_of_succ_lt h)

theorem exists_count_eq {k : Nat} (h : k ≤ cs.count c) :
    ∃ behind rest, cs = behind ++ rest ∧ behind.count c = k := by
  induction cs generalizing k with
  | nil => exact ⟨[], [], rfl, (Nat.le_zero.1 h).symm⟩
  | cons d cs ih =>
    cases k with
    | zero => exact ⟨[], d :: cs, rfl, rfl⟩
    | succ k =>
      by_cases hd : d = c
      · subst hd
        rw [List.count_cons_self] at h
        obtain ⟨behind, rest, rfl, hcount⟩ := ih (Nat.le_of_succ_le_succ h)
        exact ⟨d :: behind, rest, rfl, by rw [List.count_cons_self, hcount]⟩
      · rw [List.count_cons_of_ne hd] at h
        obtain ⟨behind, rest, rfl, hcount⟩ := ih h
        exact ⟨d :: behind, rest, rfl, by rw [List.count_cons_of_ne hd, hcount]⟩

def WithoutReturn (piece line : List Char) : Prop :=
  piece = line ++ ['\r'] ∨ piece = line ∧ line.getLast? ≠ some '\r'

theorem withoutReturn_dropReturn (piece : List Char) : WithoutReturn piece (dropReturn piece) := by
  rw [dropReturn]
  split
  · rename_i hlast
    exact .inl (List.dropLast_append_getLast? _ hlast).symm
  · rename_i hlast
    exact .inr ⟨rfl, hlast⟩

end MFile.Text

namespace MFile.LineIndex

open Text

variable {text : String} {m n : Nat} {c : Char} {behind rest : List Char}

/-! ## Lines and columns -/

/-- The line of an offset is counted by what has ended there, also inside the next character. -/
theorem countP_upTo (hbehind : byteCount behind ≤ n) (rest : List Char)
    (hrest : ∀ c ∈ rest.head?, n < byteCount behind + c.utf8Size) :
    (0 :: startsAfterBreaks 0 (behind ++ rest)).countP (· ≤ n) = behind.count '\n' + 1 := by
  refine countP_starts hbehind fun k hk => ?_
  cases rest with
  | nil => cases hk
  | cons c rest =>
    have hlt := hrest c rfl
    rw [startsAfterBreaks] at hk
    split at hk
    · obtain rfl | hk := List.mem_cons.1 hk
      · exact hlt
      · exact hlt.trans (startsAfterBreaks_bounds hk).1
    · exact hlt.trans (startsAfterBreaks_bounds hk).1

theorem lineCol_pastEnd (h : byteCount text.toList ≤ n) :
    (ofText text).lineCol n = (ofText text).lineCol (byteCount text.toList) := by
  have hcount : ∀ {n : Nat}, byteCount text.toList ≤ n →
      (0 :: startsAfterBreaks 0 text.toList).countP (· ≤ n) = text.toList.count '\n' + 1 := by
    intro n h
    have hcount := countP_upTo h [] fun c hc => nomatch hc
    rwa [List.append_nil] at hcount
  simp only [lineCol, ofText, hcount h, hcount (Nat.le_refl _), Nat.min_eq_right h, Nat.min_self]

theorem lineCol_of_inside (h : text.toList = behind ++ c :: rest) (hbehind : byteCount behind < n)
    (hn : n < byteCount behind + c.utf8Size) :
    (ofText text).lineCol n = ((wordPosition behind).1.toNat, 0) := by
  have hcount := countP_upTo hbehind.le (c :: rest) (by rintro d ⟨⟩; exact hn)
  have hstart := start_of_lastLine behind (c :: rest)
  have hsplit := fullPart_append_lastLine behind
  have hbytes : byteCount (fullPart behind) + byteCount (lastLine behind) = byteCount behind := by
    rw [← byteCount_append, hsplit]
  have hend : min n (byteCount (behind ++ c :: rest)) = n := by
    rw [byteCount_append, byteCount_cons]
    omega
  have hcut : slice? (behind ++ c :: rest) (byteCount (fullPart behind)) n = none := by
    have hdrop := dropBytes?_append (fullPart behind) (lastLine behind ++ c :: rest)
    rw [← List.append_assoc, hsplit] at hdrop
    rw [slice?, if_pos (by omega), hdrop, Option.bind_some]
    exact takeBytes?_inside (by omega) (by omega) rest
  rw [wordPosition_eq, position_eq, UInt32.ofNat_add]
  simp only [lineCol, ofText, h, hcount, List.getD_eq_getElem?_getD, Nat.add_sub_cancel, hstart,
    Option.getD_some, hend, hcut]
  rfl

theorem lineCol_of_not_inside (h : ¬ Inside n text.toList) : (ofText text).lineCol n =
    (wordPosition (upTo n text.toList)).map UInt32.toNat UInt32.toNat := by
  obtain ⟨rest, htext, hle, hrest⟩ := exists_upTo n text.toList
  generalize upTo n text.toList = behind at htext hle hrest
  cases rest with
  | nil =>
    rw [List.append_nil] at htext
    rw [lineCol_pastEnd (htext ▸ hle)]
    have hwhole : text.toList = text.toList ++ [] := (List.append_nil _).symm
    rw [lineCol_eq_wordPosition hwhole, htext]
  | cons c rest =>
    have hn : n = byteCount behind := by
      by_contra hne
      exact h ⟨behind, c, rest, htext, by omega, hrest c rfl⟩
    rw [hn, lineCol_eq_wordPosition htext]

theorem lineCol_inside (h : Inside n text.toList) :
    (ofText text).lineCol n = ((wordPosition (upTo n text.toList)).1.toNat, 0) := by
  obtain ⟨behind, c, rest, htext, hbehind, hn⟩ := h
  have hupTo : upTo n text.toList = behind :=
    htext ▸ upTo_append hbehind.le (by rintro d ⟨⟩; exact hn)
  rw [hupTo, lineCol_of_inside htext hbehind hn]

section Fits

variable (hfits : Fits text.toList)

include hfits

theorem wordPosition_upTo (n : Nat) :
    (wordPosition (upTo n text.toList)).map UInt32.toNat UInt32.toNat =
      position (upTo n text.toList) := by
  obtain ⟨rest, htext, -⟩ := exists_upTo n text.toList
  rw [htext] at hfits
  exact hfits.wordPosition

theorem lineCol_le_position (n : Nat) :
    ((ofText text).lineCol n).1 = (position (upTo n text.toList)).1 ∧
      ((ofText text).lineCol n).2 ≤ (position (upTo n text.toList)).2 := by
  rw [← wordPosition_upTo hfits]
  by_cases h : Inside n text.toList
  · rw [lineCol_inside h]
    exact ⟨rfl, Nat.zero_le _⟩
  · rw [lineCol_of_not_inside h]
    exact ⟨rfl, Nat.le_refl _⟩

/-- Lines climb with the offsets, and columns with them on a line; only an offset inside a character
has a column that is less than that of an offset before it. -/
theorem lineCol_le_iff (h : m ≤ n) :
    ((ofText text).lineCol m).1 ≤ ((ofText text).lineCol n).1 ∧
      (toLex ((ofText text).lineCol m) ≤ toLex ((ofText text).lineCol n) ↔
        ¬ (Inside n text.toList ∧ ((ofText text).lineCol m).1 = ((ofText text).lineCol n).1 ∧
          0 < ((ofText text).lineCol m).2)) := by
  obtain ⟨hline, hcol⟩ := lineCol_le_position hfits m
  obtain ⟨hline', hcol'⟩ := lineCol_le_position hfits n
  have hclimb := Prod.Lex.toLex_le_toLex.1 (position_mono (upTo_mono h text.toList))
  refine ⟨by omega, ?_⟩
  rw [Prod.Lex.toLex_le_toLex]
  by_cases hin : Inside n text.toList
  · have hnone : ((ofText text).lineCol n).2 = 0 := by rw [lineCol_inside hin]
    simp only [hin, true_and]
    omega
  · have hsame : ((ofText text).lineCol n).2 = (position (upTo n text.toList)).2 := by
      rw [lineCol_of_not_inside hin, wordPosition_upTo hfits]
    simp only [hin, false_and, not_false_eq_true, iff_true]
    omega

end Fits

/-- Behind the first character of a text that has an accent on its second one. -/
theorem lineCol_descends : (1 : Nat) ≤ 2 ∧
    ¬ toLex ((ofText "a\u00e9").lineCol 1) ≤ toLex ((ofText "a\u00e9").lineCol 2) := by
  rw [Prod.Lex.toLex_le_toLex]
  decide

theorem lineCol_le_iff_nextLine :
    Fits "a\u00e9\nb".toList ∧ (2 : Nat) ≤ 4 ∧ (ofText "a\u00e9\nb").lineCol 2 = (1, 0) ∧
      toLex ((ofText "a\u00e9\nb").lineCol 2) ≤ toLex ((ofText "a\u00e9\nb").lineCol 4) := by
  have hfits : Fits "a\u00e9\nb".toList := fits_of_length (by decide)
  refine ⟨hfits, by decide, by decide, (lineCol_le_iff hfits (by decide)).2.2 fun hinside => ?_⟩
  exact absurd hinside.2.1 (by decide)

/-- A line of one character more than 32 bits can count: its end has a column that is less than that
of the character before it. -/
theorem lineCol_starts_over {n : Nat} (hn : n + 1 = UInt32.size) (hc : c ≠ '\n')
    (h : text.toList = List.replicate (n + 1) c) :
    (ofText text).lineCol (byteCount (List.replicate n c)) = (1, n) ∧
      (ofText text).lineCol (byteCount (List.replicate (n + 1) c)) = (1, 0) := by
  have hwords : ∀ k, (wordPosition (List.replicate k c)).map UInt32.toNat UInt32.toNat =
      (1, k % UInt32.size) := by
    intro k
    have hnone : '\n' ∉ List.replicate k c := fun hmem => hc (List.eq_of_mem_replicate hmem).symm
    have hline := position_append_of_notMem (a := []) hnone
    rw [List.nil_append, List.length_replicate, position_nil, Nat.zero_add] at hline
    rw [wordPosition_eq, hline, Prod.map, UInt32.toNat_ofNat']
    rfl
  have hend : text.toList = List.replicate (n + 1) c ++ [] := by rw [h, List.append_nil]
  rw [List.replicate_succ'] at h
  rw [lineCol_eq_wordPosition h, lineCol_eq_wordPosition hend, hwords, hwords, hn, Nat.mod_self,
    Nat.mod_eq_of_lt (by omega)]
  exact ⟨rfl, rfl⟩

/-! ## Searching -/

/-- What a search for an offset among line starts gives: the start at it, or the last one before the
gap that it falls into. -/
inductive Search (starts : List Nat) (n : Nat) : Nat → Prop
  | hit {i : Nat} (h : starts[i]? = some n) : Search starts n i
  | gap {i : Nat} (hi : i ≤ starts.length) (hbelow : ∀ k ∈ starts.take i, k < n)
    (habove : ∀ k ∈ starts.drop i, n < k) : Search starts n (i - 1)

theorem pairwise_starts (text : String) : (ofText text).starts.Pairwise (· < ·) := by
  have hsorted : ∀ (n : Nat) (cs : List Char), (startsAfterBreaks n cs).Pairwise (· < ·) := by
    intro n cs
    induction cs generalizing n with
    | nil => exact .nil
    | cons c cs ih =>
      rw [startsAfterBreaks]
      split
      · exact List.pairwise_cons.2 ⟨fun k hk => (startsAfterBreaks_bounds hk).1, ih _⟩
      · exact ih _
  exact List.pairwise_cons.2 ⟨fun k hk => (startsAfterBreaks_bounds hk).1, hsorted 0 _⟩

theorem countP_search {i : Nat} (h : Search (ofText text).starts n i) :
    (ofText text).starts.countP (· ≤ n) = i + 1 := by
  have hsorted := pairwise_starts text
  have hcount : ∀ {before after : List Nat}, (ofText text).starts = before ++ after →
      (∀ k ∈ before, k ≤ n) → (∀ k ∈ after, n < k) →
        (ofText text).starts.countP (· ≤ n) = before.length := by
    intro before after hstarts hbefore hafter
    have hall : before.countP (· ≤ n) = before.length :=
      List.countP_eq_length.2 (by simpa using hbefore)
    have hnone : after.countP (· ≤ n) = 0 := List.countP_eq_zero.2 (by simpa using hafter)
    rw [hstarts, List.countP_append, hall, hnone, Nat.add_zero]
  cases h with
  | hit h =>
    -- The starts climb, so the one that is hit is the last that counts.
    obtain ⟨hi, hn⟩ := List.getElem?_eq_some_iff.1 h
    have hsplit := (List.take_append_drop i (ofText text).starts).symm
    rw [List.drop_eq_getElem_cons hi, hn, List.append_cons] at hsplit
    rw [hsplit, List.pairwise_append, List.pairwise_append] at hsorted
    obtain ⟨⟨-, -, hbelow⟩, -, habove⟩ := hsorted
    have hlength := hcount hsplit (fun k hk => ?_) fun k hk =>
      habove n (List.mem_append_right _ (List.mem_singleton_self n)) k hk
    · rwa [List.length_append, List.length_take, Nat.min_eq_left hi.le] at hlength
    · rcases List.mem_append.1 hk with hk | hk
      · exact (hbelow k hk n (List.mem_singleton_self n)).le
      · exact (List.mem_singleton.1 hk).le
  | @gap i hi hbelow habove =>
    have hlength := hcount (List.take_append_drop i _).symm (fun k hk => (hbelow k hk).le) habove
    rw [List.length_take, Nat.min_eq_left hi] at hlength
    cases i with
    | zero => exact absurd (habove 0 List.mem_cons_self) (Nat.not_lt_zero n)
    | succ i => exact hlength

theorem lineCol_search {i : Nat} (h : Search (ofText text).starts n i) :
    ((ofText text).lineCol n).1 = (UInt32.ofNat i + 1).toNat := by
  rw [lineCol, countP_search h, Nat.add_sub_cancel]

/-! ## Lines -/

/-- An index answers what a reading of the text finds: the line and the column of each offset that
is on a character, the end of the text for each offset past it, and each line of the text. The
answers are those of counting in 32 bits, and the true ones wherever the text fits. -/
structure Answers (index : LineIndex) (text : List Char) : Prop where
  lineCol : ∀ behind rest, text = behind ++ rest → index.lineCol (byteCount behind) =
    (wordPosition behind).map UInt32.toNat UInt32.toNat
  pastEnd : ∀ n, byteCount text ≤ n → index.lineCol n = index.lineCol (byteCount text)
  searched : ∀ n i, Search index.starts n i → (index.lineCol n).1 = (UInt32.ofNat i + 1).toNat
  lineCount : index.lineCount = (UInt32.ofNat (text.count '\n' + 1)).toNat
  line : ∀ k < text.count '\n' + 1, ∃ piece line, (pieces '\n' text)[k]? = some piece ∧
    WithoutReturn piece line ∧ index.line? (k + 1) = some (String.ofList line)
  noLine : ∀ n, n = 0 ∨ text.count '\n' + 1 < n → index.line? n = none
  exact : Fits text → index.lineCount = text.count '\n' + 1 ∧
    ∀ behind rest, text = behind ++ rest → index.lineCol (byteCount behind) = position behind

theorem length_starts (text : String) :
    (ofText text).starts.length = text.toList.count '\n' + 1 := by
  rw [ofText, List.length_cons, length_startsAfterBreaks]

/-- Whatever is looked up, the index of a text gives the answer that the text has. -/
theorem answers_ofText (text : String) : (ofText text).Answers text.toList := by
  have hcount : (ofText text).lineCount = (UInt32.ofNat (text.toList.count '\n' + 1)).toNat := by
    rw [lineCount, length_starts]
  refine ⟨fun behind rest => lineCol_eq_wordPosition, fun n => lineCol_pastEnd,
    fun n i => lineCol_search, hcount, fun k hk => ?_, fun n hn => ?_,
    fun hfits => ⟨?_, fun behind rest htext => ?_⟩⟩
  · obtain ⟨behind, rest, htext, rfl⟩ := exists_count_eq (Nat.le_of_lt_succ hk)
    have hline := line?_position htext
    rw [position_eq] at hline
    exact ⟨_, _, htext ▸ getElem?_pieces behind rest, withoutReturn_dropReturn _, hline⟩
  · rcases hn with rfl | hn
    · rfl
    · obtain ⟨k, rfl⟩ : ∃ k, n = k + 1 := ⟨n - 1, by omega⟩
      have hnone : (ofText text).starts[k]? = none :=
        List.getElem?_eq_none (by rw [length_starts]; omega)
      rw [line?, hnone]
      rfl
  · rw [hcount, UInt32.toNat_ofNat_of_lt' hfits.lines]
  · rw [htext] at hfits
    rw [lineCol_eq_wordPosition htext, hfits.wordPosition]

end MFile.LineIndex
