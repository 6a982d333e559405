import MFile.Proofs.Token.View

/-!
Texts in which each function is closed by an `end` of its own, and the same texts without these.
Leaving them out changes nothing up to the first of them; behind it only separators may differ up
to the next function.
-/

namespace MFile

open Grammar

namespace Depth

def closesFunction (d : Depth) (t : Token) : Bool :=
  t.isWord "end" && d.brackets == 0 && d.blocks.head?.any (·.word == "function")

def openFunctions (d : Depth) : Nat := d.blocks.countP (·.word == "function")

end Depth

/-- No function begins inside of another one, and each is closed by an `end` that stands behind a
separator; `apart` if one has just been passed. -/
def closedApart : Depth → Bool → List Token → Bool
  | d, _, [] => d.openFunctions == 0
  | d, apart, t :: ts =>
    if t.kind.isTrivia then closedApart d apart ts
    else
      (!t.isWord "function" || d.openFunctions == 0) && (!d.closesFunction t || apart) &&
        closedApart (d.step t) t.isSeparator ts

/-- A text without the `end` of each function and the separator behind it; `closed` if such an
`end` has just been passed. -/
def withoutEnds : Depth → Bool → List Token → List Token
  | _, _, [] => []
  | d, closed, t :: ts =>
    if t.kind.isTrivia then t :: withoutEnds d closed ts
    else if closed && t.isSeparator then withoutEnds d false ts
    else if d.closesFunction t then withoutEnds (d.step t) true ts
    else t :: withoutEnds (d.step t) false ts

section Closing

variable {d : Depth} {apart closed b : Bool} {t : Token} {u v ts : List Token}

theorem closesFunction_iff : d.closesFunction t = true ↔
    t.isWord "end" = true ∧ d.brackets = 0 ∧ ∃ n blocks, d.blocks = ⟨"function", n⟩ :: blocks := by
  rw [Depth.closesFunction, Bool.and_eq_true, Bool.and_eq_true, beq_iff_eq, and_assoc]
  refine and_congr_right fun _ => and_congr_right fun _ => ?_
  rcases d.blocks with _ | ⟨⟨word, n⟩, blocks⟩
  · simp
  · simp

theorem openFunctions_step (h : t.isWord "function" = false) :
    (d.step t).openFunctions ≤ d.openFunctions := by
  rw [Depth.step]
  split
  · exact Nat.le_refl _
  split
  · exact Nat.le_refl _
  split
  · rename_i hk
    have hword : t.raw ≠ "function" := by
      rintro hraw
      rw [Token.isWord, hk.1, hraw] at h
      cases h
    rw [Depth.openFunctions, Depth.openFunctions, Depth.blocksAfter]
    split
    · refine Nat.le_of_eq (List.countP_cons_of_neg ?_)
      simpa using hword
    split
    · exact (List.tail_sublist _).countP_le
    · exact Nat.le_refl _
  · exact Nat.le_refl _

theorem openFunctions_past (h : ∀ t ∈ u, t.isWord "function" = false) :
    (d.past u).openFunctions ≤ d.openFunctions := by
  induction u generalizing d with
  | nil => exact Nat.le_refl _
  | cons t u ih =>
    obtain ⟨ht, hu⟩ := List.forall_mem_cons.1 h
    exact Nat.le_trans (ih hu) (openFunctions_step ht)

theorem openFunctions_close (h : d.closesFunction t = true) :
    (d.step t).openFunctions < d.openFunctions := by
  obtain ⟨hend, hbrackets, n, blocks, hblocks⟩ := closesFunction_iff.1 h
  obtain ⟨hk, hraw⟩ := Shuts.isWord_iff.1 hend
  have hopen : Lexing.Block.ofWord? "end" = none := rfl
  simp [d.step_keyword hk hbrackets, hraw, Depth.openFunctions, Depth.blocksAfter, hblocks, hopen]

theorem not_closesFunction (hu : ∀ x ∈ t :: u, x.isWord "function" = false)
    (hcount : (d.past (t :: u)).openFunctions = d.openFunctions) :
    d.closesFunction t = false ∧ ((d.step t).past u).openFunctions = (d.step t).openFunctions := by
  obtain ⟨ht, hu⟩ := List.forall_mem_cons.1 hu
  have hrest := openFunctions_past (d := d.step t) hu
  rw [Depth.past_cons] at hcount
  have hstep := openFunctions_step (d := d) ht
  refine ⟨Bool.eq_false_iff.2 fun hcloses => ?_, by omega⟩
  have hless := openFunctions_close hcloses
  omega

theorem withoutEnds_append (hu : ∀ t ∈ u, t.isWord "function" = false)
    (hcount : (d.past u).openFunctions = d.openFunctions) (ts : List Token) :
    withoutEnds d false (u ++ ts) = u ++ withoutEnds (d.past u) false ts := by
  induction u generalizing d with
  | nil => rfl
  | cons t u ih =>
    obtain ⟨hcloses, hcount'⟩ := not_closesFunction hu hcount
    rw [List.cons_append, withoutEnds, hcloses]
    have hrest := ih (List.forall_mem_cons.1 hu).2 hcount'
    split
    · rename_i htrivia
      have hstep : d.step t = d := d.step_idle (by rw [Token.isIdle, htrivia]; rfl)
      rw [hstep] at hrest
      rw [hrest, Depth.past_cons, hstep]
      rfl
    · rw [Bool.false_and, if_neg Bool.false_ne_true, if_neg Bool.false_ne_true, hrest]
      rfl

theorem withoutEnds_separators (hv : ∀ t ∈ v, t.kind.isTrivia = true ∨ t.isSeparator = true)
    (closed : Bool) : ∃ v', (∀ t ∈ v', t.kind.isTrivia = true ∨ t.isSeparator = true) ∧
      ∀ ts, (∀ t ∈ ts.head?, t.isWord "function" = true) →
        withoutEnds d closed (v ++ ts) = v' ++ withoutEnds d false ts := by
  induction v generalizing closed with
  | nil =>
    refine ⟨[], by simp, fun ts hts => ?_⟩
    cases ts with
    | nil => rfl
    | cons t ts =>
      have hk := (Shuts.isWord_iff.1 (hts t rfl)).1
      rw [List.nil_append, List.nil_append, withoutEnds, withoutEnds, Token.isSeparator, hk]
      cases closed <;> rfl
  | cons t v ih =>
    obtain ⟨ht, hv⟩ := List.forall_mem_cons.1 hv
    by_cases htrivia : t.kind.isTrivia = true
    · obtain ⟨v', hv', hrest⟩ := ih hv closed
      refine ⟨t :: v', List.forall_mem_cons.2 ⟨ht, hv'⟩, fun ts hts => ?_⟩
      rw [List.cons_append, withoutEnds, if_pos htrivia, hrest ts hts, List.cons_append]
    have hseparator := ht.resolve_left htrivia
    have hkind : t.kind.isOpening = false ∧ t.kind.isClosing = false ∧ t.kind ≠ .keyword := by
      rw [Token.isSeparator] at hseparator
      generalize t.kind = kind at hseparator
      cases kind <;> first | exact ⟨rfl, rfl, by decide⟩ | cases hseparator
    have hstep : d.step t = d := d.step_other hkind.1 hkind.2.1 hkind.2.2
    have hcloses : d.closesFunction t = false := by
      rw [Depth.closesFunction, Token.isWord, beq_eq_false_iff_ne.2 hkind.2.2, Bool.false_and,
        Bool.false_and, Bool.false_and]
    obtain ⟨v', hv', hrest⟩ := ih hv false
    cases closed with
    | true =>
      refine ⟨v', hv', fun ts hts => ?_⟩
      rw [List.cons_append, withoutEnds, if_neg htrivia, hseparator, Bool.and_self,
        if_pos rfl, hrest ts hts]
    | false =>
      refine ⟨t :: v', List.forall_mem_cons.2 ⟨ht, hv'⟩, fun ts hts => ?_⟩
      rw [List.cons_append, withoutEnds, if_neg htrivia, hcloses, hstep, hrest ts hts]
      rfl

def apartAfter (apart : Bool) (u : List Token) : Bool :=
  u.foldl (fun apart t => if t.kind.isTrivia then apart else t.isSeparator) apart

theorem closedApart_cons : closedApart d apart (t :: ts) = true →
    closedApart (d.step t) (apartAfter apart [t]) ts = true ∧
      (t.isWord "function" = true → d.openFunctions = 0) ∧
      (d.closesFunction t = true → apart = true) := by
  intro h
  rw [closedApart] at h
  rw [apartAfter, List.foldl_cons, List.foldl_nil]
  split at h
  · rename_i htrivia
    have hidle : t.isIdle = true := by rw [Token.isIdle, htrivia, Bool.true_or]
    rw [if_pos htrivia, d.step_idle hidle]
    refine ⟨h, fun hword => ?_, fun hcloses => ?_⟩
    · rw [Token.isWord_idle hidle] at hword
      cases hword
    · have hword := (closesFunction_iff.1 hcloses).1
      rw [Token.isWord_idle hidle] at hword
      cases hword
  · rename_i htrivia
    simp only [Bool.and_eq_true, Bool.or_eq_true, Bool.not_eq_true', beq_iff_eq] at h
    rw [if_neg htrivia]
    refine ⟨h.2, fun hword => ?_, fun hcloses => ?_⟩
    · exact h.1.1.resolve_left (by rw [hword]; decide)
    · exact h.1.2.resolve_left (by rw [hcloses]; decide)

theorem closedApart_append (h : closedApart d apart (u ++ ts) = true) :
    closedApart (d.past u) (apartAfter apart u) ts = true := by
  induction u generalizing d apart with
  | nil => exact h
  | cons t u ih => exact ih (closedApart_cons h).1

theorem last_significant (h : apartAfter apart u = true) :
    (∃ t ∈ (significant b u).getLast?, t.isSeparator = true) ∨
      significant b u = [] ∧ (apart = true ∨ b = true) := by
  induction u generalizing apart b with
  | nil => exact .inr ⟨rfl, .inl h⟩
  | cons t u ih =>
    have hafter : t.kind.isTrivia = false → t.kind = .newline → t.isSeparator = true := by
      intro _ hk
      rw [Token.isSeparator, hk]
      rfl
    rcases significant_cases b t with ⟨hunseen, hview⟩ | ⟨htrivia, hview⟩
    · rw [hview]
      refine (ih h).imp_right fun hrest => ⟨hrest.1, ?_⟩
      rcases hunseen with htrivia | ⟨hb, -⟩
      · simpa [apartAfter, breakAfter, htrivia] using hrest.2
      · exact .inr hb
    · rw [hview]
      left
      rcases ih h with ⟨x, hx, hsep⟩ | ⟨hempty, hflags⟩
      · exact ⟨x, by rw [List.getLast?_cons, hx]; rfl, hsep⟩
      · rw [hempty]
        refine ⟨t, rfl, ?_⟩
        simp only [breakAfter, List.foldl_cons, List.foldl_nil, htrivia, Bool.false_eq_true,
          if_false, beq_iff_eq] at hflags
        exact hflags.elim id fun hk => hafter htrivia hk

theorem not_function_of_view (h : ∀ t ∈ significant b u, t.isWord "function" = false) :
    ∀ t ∈ u, t.isWord "function" = false :=
  fun t ht => (idle_or_mem_significant b ht).elim (fun hidle => Token.isWord_idle hidle _) (h t)

structure InFunction (d : Depth) (ts : List Token) : Prop where
  brackets : d.brackets = 0
  blocks : ∃ n, d.blocks = [⟨"function", n⟩]
  apart : closedApart d false ts = true

theorem inFunction_of_word (hbrackets : d.brackets = 0) (hblocks : d.blocks = [])
    (ht : t.isWord "function" = true) (h : closedApart d apart (t :: ts) = true) :
    InFunction (d.step t) ts := by
  obtain ⟨hk, hraw⟩ := Shuts.isWord_iff.1 ht
  have hrest := (closedApart_cons h).1
  have hstep : d.step t = { d with
      blocks := [⟨"function", d.functions⟩], functions := d.functions + 1 } := by
    rw [d.step_keyword hk hbrackets, hraw, Depth.blocksAfter, hblocks]
    rfl
  refine ⟨by rw [hstep]; exact hbrackets, ⟨_, by rw [hstep]⟩, ?_⟩
  rwa [apartAfter, List.foldl_cons, List.foldl_nil, hk, Token.isSeparator, hk] at hrest

theorem withoutEnds_word (ht : t.isWord "function" = true) :
    withoutEnds d false (t :: ts) = t :: withoutEnds (d.step t) false ts := by
  obtain ⟨hk, hraw⟩ := Shuts.isWord_iff.1 ht
  have hcloses : d.closesFunction t = false := by
    rw [Depth.closesFunction, Token.isWord, hraw, Bool.and_assoc]
    simp
  rw [withoutEnds, hcloses, hk]
  rfl

theorem withoutEnds_first {run w : List Token} (hbrackets : d.brackets = 0)
    (hblocks : d.blocks = []) (hrun : Level run) (hview : significant b ts = run ++ w)
    (hw : ∀ t ∈ w.head?, t.isWord "function" = true) (h : closedApart d apart ts = true) :
    w = [] ∧ significant b (withoutEnds d false ts) = run ∨
      ∃ t ts' d', w = t :: significant false ts' ∧ InFunction d' ts' ∧
        significant b (withoutEnds d false ts) =
          run ++ t :: significant false (withoutEnds d' false ts') := by
  cases w with
  | nil =>
    rw [List.append_nil] at hview
    have hplain := not_function_of_view (hview ▸ hrun.noFunction)
    have hover : d.past ts = d := by
      rw [← past_significant d b, hview, hrun.past_eq d hbrackets]
    have hsame := withoutEnds_append hplain (by rw [hover]) []
    rw [List.append_nil, withoutEnds, List.append_nil] at hsame
    exact .inl ⟨rfl, by rw [hsame, hview]⟩
  | cons t w =>
    obtain ⟨u, ts', rfl, hu, htrivia, hts'⟩ := significant_split hview
    have hword := hw t rfl
    have hk := (Shuts.isWord_iff.1 hword).1
    have hplain := not_function_of_view (hu ▸ hrun.noFunction)
    have hover : d.past u = d := by rw [← past_significant d b, hu, hrun.past_eq d hbrackets]
    have happend := closedApart_append h
    rw [hover] at happend
    refine .inr ⟨t, ts', d.step t, ?_, inFunction_of_word hbrackets hblocks hword happend, ?_⟩
    · rw [← hts', hk]
      rfl
    · rw [withoutEnds_append hplain (by rw [hover]), hover, withoutEnds_word hword,
        significant_concat, hu, significant_kept htrivia (by rw [hk]; nofun), hk]
      rfl

theorem gap_of_view {seps : List Token} (hview : significant b u = seps)
    (hseps : ∀ t ∈ seps, t.isSeparator = true) :
    ∀ t ∈ u, t.kind.isTrivia = true ∨ t.isSeparator = true := by
  intro t ht
  rcases idle_or_mem_significant b ht with hidle | hmem
  · rw [Token.isIdle, Bool.or_eq_true, beq_iff_eq] at hidle
    exact hidle.imp_right fun hk => by rw [Token.isSeparator, hk]; rfl
  · exact .inr (hseps t (hview ▸ hmem))

theorem view_of_gap (hu : ∀ t ∈ u, t.kind.isTrivia = true ∨ t.isSeparator = true) (b : Bool) :
    ∀ t ∈ significant b u, t.isSeparator = true := by
  intro t ht
  obtain ⟨hmem, htrivia⟩ := mem_significant ht
  exact (hu t hmem).resolve_left (by rw [htrivia]; decide)

theorem withoutEnds_gap {seps w : List Token} (hbrackets : d.brackets = 0) (hblocks : d.blocks = [])
    (hview : significant false ts = seps ++ w) (hseps : ∀ t ∈ seps, t.isSeparator = true)
    (hw : ∀ t ∈ w.head?, t.isWord "function" = true) (h : closedApart d apart ts = true)
    (b : Bool) : ∃ seps', (∀ t ∈ seps', t.isSeparator = true) ∧
      (w = [] ∧ significant b (withoutEnds d true ts) = seps' ∨
        ∃ t ts' d', w = t :: significant false ts' ∧ InFunction d' ts' ∧
          significant b (withoutEnds d true ts) =
            seps' ++ t :: significant false (withoutEnds d' false ts')) := by
  cases w with
  | nil =>
    rw [List.append_nil] at hview
    obtain ⟨v, hv, hmore⟩ := withoutEnds_separators (d := d) (gap_of_view hview hseps) true
    have hall := hmore [] (by simp)
    rw [List.append_nil, withoutEnds, List.append_nil] at hall
    exact ⟨significant b v, view_of_gap hv b, .inl ⟨rfl, by rw [hall]⟩⟩
  | cons t w =>
    have hword := hw t rfl
    have hk := (Shuts.isWord_iff.1 hword).1
    obtain ⟨u, ts', rfl, hu, htrivia, hts'⟩ := significant_split hview
    obtain ⟨v, hv, hmore⟩ := withoutEnds_separators (d := d) (gap_of_view hu hseps) true
    have hover : d.past u = d := by
      rw [← past_significant d false, hu,
        (Level.all (fun _ => .separator) hseps).past_eq d hbrackets]
    have happend := closedApart_append h
    rw [hover] at happend
    refine ⟨significant b v, view_of_gap hv b, .inr ⟨t, ts', d.step t, ?_,
      inFunction_of_word hbrackets hblocks hword happend, ?_⟩⟩
    · rw [← hts', hk]
      rfl
    · rw [hmore _ (by rintro x ⟨⟩; exact hword), withoutEnds_word hword, significant_concat,
        significant_kept htrivia (by rw [hk]; nofun), hk]
      rfl

theorem withoutEnds_function {run seps w : List Token} {e : Token} (h : InFunction d ts)
    (hrun : Level run) (he : e.isWord "end" = true)
    (hview : significant false ts = run ++ e :: (seps ++ w))
    (hseps : ∀ t ∈ seps, t.isSeparator = true) (hw : ∀ t ∈ w.head?, t.isWord "function" = true) :
    (∃ t ∈ run.getLast?, t.isSeparator = true) ∧
      ∃ seps', (∀ t ∈ seps', t.isSeparator = true) ∧
        (w = [] ∧ significant false (withoutEnds d false ts) = run ++ seps' ∨
          ∃ t ts' d', w = t :: significant false ts' ∧ InFunction d' ts' ∧
            significant false (withoutEnds d false ts) =
              run ++ (seps' ++ t :: significant false (withoutEnds d' false ts'))) := by
  obtain ⟨n, hblocks⟩ := h.blocks
  obtain ⟨hk, hraw⟩ := Shuts.isWord_iff.1 he
  obtain ⟨u, ts₁, rfl, hu, -, hts₁⟩ := significant_split hview
  have hover : d.past u = d := by rw [← past_significant d false, hu, hrun.past_eq d h.brackets]
  have hplain := not_function_of_view (hu ▸ hrun.noFunction)
  have hcloses : d.closesFunction e = true := closesFunction_iff.2 ⟨he, h.brackets, n, [], hblocks⟩
  have hat := closedApart_append h.apart
  rw [hover] at hat
  obtain ⟨hrest, -, hapart⟩ := closedApart_cons hat
  have hstep : d.step e = { d with blocks := [] } := by
    rw [d.step_keyword hk h.brackets, hraw, Depth.blocksAfter, hblocks]
    rfl
  have hwithout : withoutEnds d false (u ++ e :: ts₁) =
      u ++ withoutEnds { d with blocks := [] } true ts₁ := by
    rw [withoutEnds_append hplain (by rw [hover]), hover, withoutEnds, hcloses, hstep, hk]
    rfl
  constructor
  · rw [← hu]
    exact (last_significant (hapart hcloses)).resolve_right (by simp)
  · rw [hk] at hts₁
    rw [hstep] at hrest
    obtain ⟨seps', hseps', hgap⟩ := withoutEnds_gap (d := { d with blocks := [] })
      (by exact h.brackets) rfl hts₁ hseps hw hrest (breakAfter false u)
    rw [hwithout, significant_concat, hu]
    refine ⟨seps', hseps', hgap.imp (fun hnil => ⟨hnil.1, by rw [hnil.2]⟩) ?_⟩
    rintro ⟨t, ts', d', hw, hin, hgap⟩
    exact ⟨t, ts', d', hw, hin, by rw [hgap]⟩

theorem InFunction.goesOn {run w : List Token} (h : InFunction d ts) (hrun : Level run)
    (hview : significant false ts = run ++ w) :
    ∃ t w', w = t :: w' ∧ t.isWord "function" = false := by
  obtain ⟨n, hblocks⟩ := h.blocks
  have hopen : d.openFunctions ≠ 0 := by
    simp [Depth.openFunctions, hblocks]
  cases w with
  | nil =>
    rw [List.append_nil] at hview
    have hover : d.past ts = d := by
      rw [← past_significant d false, hview, hrun.past_eq d h.brackets]
    have hend : closedApart (d.past ts) (apartAfter false ts) [] = true :=
      closedApart_append (by rw [List.append_nil]; exact h.apart)
    rw [hover, closedApart, beq_iff_eq] at hend
    exact absurd hend hopen
  | cons t w =>
    refine ⟨t, w, rfl, Bool.eq_false_iff.2 fun hword => hopen ?_⟩
    obtain ⟨u, ts₁, rfl, hu, -, -⟩ := significant_split hview
    have hover : d.past u = d := by rw [← past_significant d false, hu, hrun.past_eq d h.brackets]
    have hat := closedApart_append h.apart
    rw [hover] at hat
    exact (closedApart_cons hat).2.1 hword

end Closing

end MFile
