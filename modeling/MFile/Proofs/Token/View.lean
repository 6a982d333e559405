import MFile.Grammar.State
import MFile.Proofs.Token.Depth

/-!
The tokens that the grammar sees among all tokens. Those that it does not see neither open nor
close anything, so the depth of a text is that of its view.
-/

namespace MFile

open Grammar

def Token.isIdle (t : Token) : Bool := t.kind.isTrivia || t.kind == .newline

namespace Depth

variable {d : Depth} {t : Token}

theorem step_idle (d : Depth) (h : t.isIdle = true) : d.step t = d := by
  rw [Token.isIdle] at h
  refine d.step_other ?_ ?_ ?_ <;> generalize t.kind = kind at h <;> cases kind <;>
    first | rfl | decide | cases h

end Depth

theorem Token.isWord_idle {t : Token} (h : t.isIdle = true) (word : String) :
    t.isWord word = false := by
  rw [Token.isIdle] at h
  rw [Token.isWord]
  generalize t.kind = kind at h
  cases kind <;> first | rfl | cases h

def breakAfter (b : Bool) (u : List Token) : Bool :=
  u.foldl (fun b t => if t.kind.isTrivia then b else t.kind == .newline) b

section View

variable {b : Bool} {l m u v : List Token} {t x : Token}

theorem significant_trivia (h : t.kind.isTrivia = true) :
    significant b (t :: u) = significant b u := by
  rw [significant, if_pos h]

theorem significant_break (h : t.kind = .newline) :
    significant true (t :: u) = significant true u := by
  rw [significant, h]
  rfl

theorem significant_kept (h : t.kind.isTrivia = false) (hb : t.kind = .newline → b = false) :
    significant b (t :: u) = t :: significant (t.kind == .newline) u := by
  rw [significant, h, if_neg Bool.false_ne_true, if_neg]
  rw [Bool.and_eq_true, beq_iff_eq]
  rintro ⟨rfl, hk⟩
  cases hb hk

theorem isIdle_of_unseen (h : t.kind.isTrivia = true ∨ b = true ∧ t.kind = .newline) :
    t.isIdle = true := by
  rw [Token.isIdle, Bool.or_eq_true, beq_iff_eq]
  exact h.imp_right And.right

theorem significant_cases (b : Bool) (t : Token) :
    ((t.kind.isTrivia = true ∨ b = true ∧ t.kind = .newline) ∧
      ∀ u, significant b (t :: u) = significant (breakAfter b [t]) u) ∨
    t.kind.isTrivia = false ∧
      ∀ u, significant b (t :: u) = t :: significant (breakAfter b [t]) u := by
  by_cases htrivia : t.kind.isTrivia = true
  · refine .inl ⟨.inl htrivia, fun u => ?_⟩
    rw [significant_trivia htrivia, breakAfter, List.foldl_cons, List.foldl_nil, if_pos htrivia]
  rw [Bool.not_eq_true] at htrivia
  have hafter : breakAfter b [t] = (t.kind == .newline) := by
    rw [breakAfter, List.foldl_cons, List.foldl_nil, if_neg (by rw [htrivia]; decide)]
  rw [hafter]
  by_cases hbreak : b = true ∧ t.kind = .newline
  · obtain ⟨rfl, hk⟩ := hbreak
    refine .inl ⟨.inr ⟨rfl, hk⟩, fun u => ?_⟩
    rw [significant_break hk, hk]
    rfl
  · exact .inr ⟨htrivia, fun u => significant_kept htrivia fun hk => by
      cases b <;> simp_all⟩

theorem breakAfter_cons (b : Bool) (t : Token) (u : List Token) :
    breakAfter b (t :: u) = breakAfter (breakAfter b [t]) u := rfl

theorem significant_concat (b : Bool) (u v : List Token) :
    significant b (u ++ v) = significant b u ++ significant (breakAfter b u) v := by
  induction u generalizing b with
  | nil => rfl
  | cons t u ih =>
    rw [List.cons_append, breakAfter_cons]
    rcases significant_cases b t with ⟨-, h⟩ | ⟨-, h⟩
    · rw [h, h, ih]
    · rw [h, h, ih, List.cons_append]

theorem significant_split (h : significant b u = l ++ x :: m) : ∃ v w, u = v ++ x :: w ∧
    significant b v = l ∧ x.kind.isTrivia = false ∧ significant (x.kind == .newline) w = m := by
  induction u generalizing b l with
  | nil => simp [significant] at h
  | cons t u ih =>
    rcases significant_cases b t with ⟨-, hview⟩ | ⟨htrivia, hview⟩
    · rw [hview] at h
      obtain ⟨v, w, rfl, hv, hx, hw⟩ := ih h
      exact ⟨t :: v, w, rfl, by rw [hview, hv], hx, hw⟩
    · rw [hview] at h
      cases l with
      | nil =>
        obtain ⟨rfl, rfl⟩ := List.cons.inj h
        refine ⟨[], u, rfl, rfl, htrivia, ?_⟩
        rw [breakAfter, List.foldl_cons, List.foldl_nil, if_neg (by rw [htrivia]; decide)]
      | cons y l =>
        obtain ⟨rfl, hrest⟩ := List.cons.inj h
        obtain ⟨v, w, rfl, hv, hx, hw⟩ := ih hrest
        exact ⟨t :: v, w, rfl, by rw [hview, hv], hx, hw⟩

theorem mem_significant (h : t ∈ significant b u) : t ∈ u ∧ t.kind.isTrivia = false := by
  obtain ⟨l, m, hsplit⟩ := List.append_of_mem h
  obtain ⟨v, w, rfl, -, htrivia, -⟩ := significant_split hsplit
  exact ⟨by simp, htrivia⟩

theorem idle_or_mem_significant (b : Bool) (h : t ∈ u) :
    t.isIdle = true ∨ t ∈ significant b u := by
  induction u generalizing b with
  | nil => exact absurd h List.not_mem_nil
  | cons x u ih =>
    rcases significant_cases b x with ⟨hidle, hview⟩ | ⟨-, hview⟩
    · rw [hview]
      rcases List.mem_cons.1 h with rfl | h
      · exact .inl (isIdle_of_unseen hidle)
      · exact ih _ h
    · rw [hview]
      rcases List.mem_cons.1 h with rfl | h
      · exact .inr List.mem_cons_self
      · exact (ih _ h).imp_right (List.mem_cons_of_mem _)

theorem past_significant (d : Depth) (b : Bool) (u : List Token) :
    d.past (significant b u) = d.past u := by
  induction u generalizing d b with
  | nil => rfl
  | cons t u ih =>
    rw [Depth.past_cons]
    rcases significant_cases b t with ⟨hidle, hview⟩ | ⟨-, hview⟩
    · rw [hview, ih, d.step_idle (isIdle_of_unseen hidle)]
    · rw [hview, Depth.past_cons, ih]

theorem functionWords_significant (d : Depth) (b : Bool) (u : List Token) :
    functionWords d (significant b u) = functionWords d u := by
  induction u generalizing d b with
  | nil => rfl
  | cons t u ih =>
    rw [functionWords]
    rcases significant_cases b t with ⟨hidle, hview⟩ | ⟨-, hview⟩
    · have hidle := isIdle_of_unseen hidle
      rw [hview, ih, Token.isWord_idle hidle, if_neg Bool.false_ne_true, d.step_idle hidle]
    · rw [hview, functionWords, ih]

end View

end MFile
