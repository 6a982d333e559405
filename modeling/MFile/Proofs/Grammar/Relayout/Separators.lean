import MFile.Proofs.Grammar.Relayout.Files
import MFile.Proofs.Token.View

/-!
Separators outside of brackets are interchangeable. What the grammar sees of two texts that differ
in these alone is the same up to separators, of which there are some at the same places.
-/

namespace MFile

open Grammar

/-- The same text with other separators outside of brackets, `d` of which are open before it. Each
of them is kept or gives way to one or more of any kind. -/
inductive Respaced : Nat → List Token → List Token → Prop
  | nil {d : Nat} : Respaced d [] []
  | keep {d : Nat} (t : Token) {ts ts' : List Token} (h : Respaced (t.kind.nest d) ts ts') :
      Respaced d (t :: ts) (t :: ts')
  | replace {t : Token} {seps ts ts' : List Token} (ht : t.isSeparator = true) (hne : seps ≠ [])
      (hseps : ∀ sep ∈ seps, sep.isSeparator = true) (h : Respaced 0 ts ts') :
      Respaced 0 (t :: ts) (seps ++ ts')

namespace Grammar.Relayout

def interchange : Relayout :=
  .inPlace id true (fun _ => rfl) (fun _ _ => rfl) fun _ => rfl

theorem significant_separators (b : Bool) {seps : List Token}
    (h : ∀ sep ∈ seps, sep.isSeparator = true) :
    ∃ kept b', (∀ ts, significant b (seps ++ ts) = kept ++ significant b' ts) ∧
      (∀ sep ∈ kept, sep.isSeparator = true) ∧ (b = false → seps ≠ [] → kept ≠ []) := by
  induction seps generalizing b with
  | nil => exact ⟨[], b, fun _ => rfl, h, fun _ hne => hne⟩
  | cons t seps ih =>
    obtain ⟨ht, hseps⟩ := List.forall_mem_cons.1 h
    by_cases hseen : t.kind = .newline → b = false
    · have htrivia : t.kind.isTrivia = false := by
        obtain hk | hk | hk := Kind.isSeparator_iff.1 ht <;> rw [hk] <;> rfl
      obtain ⟨kept, b', hkept, hall, -⟩ := ih (t.kind == .newline) hseps
      refine ⟨t :: kept, b', fun ts => ?_, List.forall_mem_cons.2 ⟨ht, hall⟩, fun _ _ => nofun⟩
      rw [List.cons_append, significant_kept htrivia hseen, hkept, List.cons_append]
    · obtain ⟨hk, hb⟩ := Classical.not_imp.1 hseen
      obtain rfl : b = true := by simpa using hb
      obtain ⟨kept, b', hkept, hall, -⟩ := ih true hseps
      refine ⟨kept, b', fun ts => ?_, hall, nofun⟩
      rw [List.cons_append, significant_break hk, hkept]

variable {d : Nat} {ts ts' : List Token}

def Spaced (b b' : Bool) (us us' : List Token) : Prop :=
  ∃ n seps seps' rest rest', us = seps ++ rest ∧ us' = seps' ++ rest' ∧
    (∀ sep ∈ seps, sep.isSeparator = true) ∧ (∀ sep ∈ seps', sep.isSeparator = true) ∧
    (b = false → b' = false → (seps = [] ↔ seps' = [])) ∧ interchange.Matched 0 n rest rest'

namespace Spaced

variable {us us' : List Token}

theorem matched (h : Spaced false false us us') : ∃ n, interchange.Matched 0 n us us' := by
  obtain ⟨n, seps, seps', rest, rest', rfl, rfl, hseps, hseps', hnone, hrest⟩ := h
  cases seps with
  | nil =>
    rw [(hnone rfl rfl).1 rfl]
    exact ⟨n, hrest⟩
  | cons sep seps =>
    cases seps' with
    | nil => cases (hnone rfl rfl).2 rfl
    | cons sep' seps' => exact ⟨n, .gap rfl hseps hseps' hrest⟩

theorem behind {b b' c c' : Bool} {kept kept' : List Token}
    (hkept : ∀ sep ∈ kept, sep.isSeparator = true) (hkept' : ∀ sep ∈ kept', sep.isSeparator = true)
    (hne : c = false → kept ≠ []) (hne' : c' = false → kept' ≠ []) (h : Spaced b b' us us') :
    Spaced c c' (kept ++ us) (kept' ++ us') := by
  obtain ⟨n, seps, seps', rest, rest', rfl, rfl, hseps, hseps', -, hrest⟩ := h
  refine ⟨n, kept ++ seps, kept' ++ seps', rest, rest', (List.append_assoc ..).symm,
    (List.append_assoc ..).symm, List.forall_mem_append.2 ⟨hkept, hseps⟩,
    List.forall_mem_append.2 ⟨hkept', hseps'⟩, fun hc hc' => ?_, hrest⟩
  simp [hne hc, hne' hc']

theorem nil {b b' : Bool} : Spaced b b' [] [] :=
  ⟨0, [], [], [], [], rfl, rfl, List.forall_mem_nil _, List.forall_mem_nil _, fun _ _ => Iff.rfl,
    .nil⟩

theorem token {b b' : Bool} {n : Nat} {t : Token} (ht : t.isSeparator = false)
    (h : interchange.Matched (t.kind.nest 0) n us us') : Spaced b b' (t :: us) (t :: us') :=
  ⟨n + 1, [], [], t :: us, t :: us', rfl, rfl, List.forall_mem_nil _, List.forall_mem_nil _,
    fun _ _ => Iff.rfl, .token (fun _ _ => ht) h⟩

end Spaced

theorem significant_respaced (h : Respaced d ts ts') :
    (d = 0 → ∀ b b', Spaced b b' (significant b ts) (significant b' ts')) ∧
      (0 < d → ∀ b, ∃ n, interchange.Matched d n (significant b ts) (significant b ts')) := by
  induction h with
  | nil => exact ⟨fun _ b b' => .nil, fun _ b => ⟨0, .nil⟩⟩
  | @keep d t ts ts' h ih =>
    by_cases htrivia : t.kind.isTrivia = true
    · have hnest : t.kind.nest d = d := by
        generalize t.kind = kind at htrivia
        cases kind <;> first | rfl | cases htrivia
      rw [hnest] at ih
      simpa only [significant_trivia htrivia] using ih
    rw [Bool.not_eq_true] at htrivia
    by_cases hsep : t.isSeparator = true
    · rw [Matched.nest_of_separator hsep] at ih
      refine ⟨fun hd b b' => ?_, fun hd b => ?_⟩
      · have hone : ∀ sep ∈ [t], sep.isSeparator = true := List.forall_mem_singleton.2 hsep
        obtain ⟨kept, c, hkept, hall, hne⟩ := significant_separators b hone
        obtain ⟨kept', c', hkept', hall', hne'⟩ := significant_separators b' hone
        have hspaced := (ih.1 hd c c').behind hall hall' (fun hb => hne hb (List.cons_ne_nil _ _))
          (fun hb => hne' hb (List.cons_ne_nil _ _))
        rwa [← hkept, ← hkept'] at hspaced
      · -- A line break right behind another one is not seen.
        by_cases hseen : t.kind = .newline → b = false
        · obtain ⟨n, hmatched⟩ := ih.2 hd (t.kind == .newline)
          rw [significant_kept htrivia hseen, significant_kept htrivia hseen]
          refine ⟨n + 1, .token (fun _ hd' => absurd hd' hd.ne') ?_⟩
          rw [Matched.nest_of_separator hsep]
          exact hmatched
        · obtain ⟨hk, hb⟩ := Classical.not_imp.1 hseen
          obtain rfl : b = true := by simpa using hb
          rw [significant_break hk, significant_break hk]
          exact ih.2 hd true
    · rw [Bool.not_eq_true] at hsep
      have hk : t.kind ≠ .newline := by
        rintro hk
        rw [Token.isSeparator, hk] at hsep
        cases hsep
      have hmatched : ∃ n, interchange.Matched (t.kind.nest d) n (significant false ts)
          (significant false ts') := by
        obtain hd | hd := Nat.eq_zero_or_pos (t.kind.nest d)
        · rw [hd]
          exact (ih.1 hd false false).matched
        · exact ih.2 hd false
      obtain ⟨n, hmatched⟩ := hmatched
      have hkept : ∀ b us, significant b (t :: us) = t :: significant false us := by
        intro b us
        rw [significant_kept htrivia (fun h => absurd h hk), beq_eq_false_iff_ne.2 hk]
      simp only [hkept]
      exact ⟨fun hd b b' => .token hsep (hd ▸ hmatched),
        fun hd b => ⟨n + 1, .token (fun _ _ => hsep) hmatched⟩⟩
  | @replace t seps ts ts' ht hne hseps h ih =>
    refine ⟨fun _ b b' => ?_, fun hd => absurd hd (Nat.lt_irrefl 0)⟩
    obtain ⟨kept, c, hkept, hall, hone⟩ :=
      significant_separators b (List.forall_mem_singleton.2 ht)
    obtain ⟨kept', c', hkept', hall', hne'⟩ := significant_separators b' hseps
    have hspaced := (ih.1 rfl c c').behind hall hall' (fun hb => hone hb (List.cons_ne_nil _ _))
      (fun hb => hne' hb hne)
    rwa [← hkept, ← hkept'] at hspaced

end Grammar.Relayout

/-- A file that parses still does with other separators outside of brackets, to the same unit. -/
theorem FileUnit.ofTokens_respaced {file : String} {ts ts' : List Token} {unit : FileUnit}
    (h : Respaced 0 ts ts') (hunit : FileUnit.ofTokens file ts = .ok unit) :
    FileUnit.ofTokens file ts' = .ok unit := by
  obtain ⟨n, hmatched⟩ := ((Grammar.Relayout.significant_respaced h).1 rfl false false).matched
  have hok := Grammar.Relayout.ofTokens_ok hmatched hunit
  rwa [Grammar.Relayout.interchange, Grammar.Relayout.inPlace, FileUnit.relocate_id] at hok

namespace FileUnit

/-- A `try` statement with the given separators outside of brackets. -/
def attempt (seps : List Token) : List Token :=
  plainToken .keyword "try" :: (seps ++ plainToken .identifier "x" :: plainToken .assignment "=" ::
    plainToken .lbracket "[" :: plainToken .identifier "a" :: plainToken .semicolon ";" ::
    plainToken .identifier "b" :: plainToken .rbracket "]" :: (seps ++
    plainToken .keyword "catch" :: (seps ++ plainToken .identifier "y" :: (seps ++
    [plainToken .keyword "end"]))))

theorem ofTokens_respaced_attempt :
    Respaced 0 (attempt [plainToken .newline "\n"])
        (attempt [plainToken .semicolon ";", plainToken .newline "\n"]) ∧
      ∃ unit, ofTokens "t.m" (attempt [plainToken .newline "\n"]) = .ok unit ∧
        ofTokens "t.m" (attempt [plainToken .semicolon ";", plainToken .newline "\n"]) =
          .ok unit := by
  have hbreak : (plainToken .newline "\n").isSeparator = true := rfl
  have hseps : ∀ sep ∈ [plainToken .semicolon ";", plainToken .newline "\n"],
      sep.isSeparator = true := by decide
  have hrespaced : Respaced 0 (attempt [plainToken .newline "\n"])
      (attempt [plainToken .semicolon ";", plainToken .newline "\n"]) :=
    .keep _ (.replace hbreak nofun hseps (.keep _ (.keep _ (.keep _ (.keep _ (.keep _ (.keep _
      (.keep _ (.replace hbreak nofun hseps (.keep _ (.replace hbreak nofun hseps (.keep _
        (.replace hbreak nofun hseps (.keep _ .nil))))))))))))))
  have hrun : (ofTokens "t.m" (attempt [plainToken .newline "\n"])).toOption.isSome = true := by
    decide +kernel
  cases hunit : ofTokens "t.m" (attempt [plainToken .newline "\n"]) with
  | ok unit => exact ⟨hrespaced, unit, rfl, ofTokens_respaced hrespaced hunit⟩
  | error e =>
    rw [hunit] at hrun
    cases hrun

end FileUnit

end MFile
