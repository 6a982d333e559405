import MFile.Text.Quoted
import MFile.Token.Basic

/-!
Reading quoted text undoes quoting it. Inside a run the reader looks one character ahead, so what
is read there is compared with the doubled text and the quote that closes it, not with the doubled
text alone. Joining and quoting texts that stay on their line, and taking the value of a token with
such a text, adds no line break.
-/

namespace MFile.Text

variable {quote c : Char}

theorem doubled_cons_quote (quote : Char) (cs : List Char) :
    doubled quote (quote :: cs) = quote :: quote :: doubled quote cs := by
  rw [doubled, List.flatMap_cons, if_pos rfl]
  rfl

theorem doubled_cons_of_ne (h : c ≠ quote) (cs : List Char) :
    doubled quote (c :: cs) = c :: doubled quote cs := by
  rw [doubled, List.flatMap_cons, if_neg h]
  rfl

theorem dequoteFrom_cons_of_ne (h : c ≠ quote) (inside : Bool) (cs : List Char) :
    dequoteFrom quote inside (c :: cs) = c :: dequoteFrom quote inside cs := by
  cases inside with
  | false => rw [dequoteFrom, if_neg h]
  | true =>
    cases cs with
    | nil => exact if_neg h
    | cons d cs => rw [dequoteFrom, if_neg h]

theorem dequoteFrom_of_notMem {cs : List Char} (h : quote ∉ cs) (inside : Bool) :
    dequoteFrom quote inside cs = cs := by
  induction cs with
  | nil => cases inside <;> rfl
  | cons c cs ih =>
    rw [List.mem_cons, not_or] at h
    rw [dequoteFrom_cons_of_ne (Ne.symm h.1), ih h.2]

theorem dequoteFrom_subset (quote : Char) (inside : Bool) (cs : List Char) :
    dequoteFrom quote inside cs ⊆ cs := by
  fun_induction dequoteFrom quote inside cs with
  | case1 => exact List.Subset.refl _
  | case2 cs ih => exact List.subset_cons_of_subset _ ih
  | case3 c cs _ ih | case8 c d cs _ ih => exact List.cons_subset_cons c ih
  | case4 => exact List.nil_subset _
  | case5 => exact List.Subset.refl _
  | case6 cs ih =>
    exact List.cons_subset_cons quote (List.subset_cons_of_subset _ ih)
  | case7 d cs _ ih => exact List.subset_cons_of_subset _ ih

theorem mem_doubled {cs : List Char} (h : c ∈ doubled quote cs) : c ∈ cs := by
  obtain ⟨d, hd, hc⟩ := List.mem_flatMap.1 h
  split at hc
  · rename_i hquote
    have hsame : c = quote := by simpa using hc
    rwa [hsame, ← hquote]
  · rwa [List.mem_singleton.1 hc]

theorem dequoteFrom_doubled_append {rest : List Char} (h : rest.head? ≠ some quote)
    (cs : List Char) :
    dequoteFrom quote true (doubled quote cs ++ quote :: rest) =
      cs ++ dequoteFrom quote false rest := by
  induction cs with
  | nil =>
    cases rest with
    | nil => exact if_pos rfl
    | cons d ds =>
      have hd : d ≠ quote := by simpa using h
      simp [doubled, dequoteFrom, hd]
  | cons c cs ih =>
    by_cases hc : c = quote
    · subst hc
      rw [doubled_cons_quote, List.cons_append, List.cons_append, dequoteFrom, if_pos rfl,
        if_pos rfl, ih, List.cons_append]
    · rw [doubled_cons_of_ne hc, List.cons_append, dequoteFrom_cons_of_ne hc, ih, List.cons_append]

theorem dequoteFrom_doubled (quote : Char) (cs : List Char) :
    dequoteFrom quote true (doubled quote cs ++ [quote]) = cs := by
  have hnone : ([] : List Char).head? ≠ some quote := nofun
  simpa [dequoteFrom] using dequoteFrom_doubled_append hnone cs

theorem dequote_enquote (quote : Char) (text : String) :
    dequote quote (enquote quote text) = text := by
  rw [dequote, enquote, String.toList_ofList, dequoteFrom, if_pos rfl, dequoteFrom_doubled,
    String.ofList_toList]

/-! ## Runs -/

/-- Whether a reader that starts inside or outside a quoted run is inside of one after a text. Each
quote takes it in or out; one that is written twice does both. -/
def insideAfter (quote : Char) : Bool → List Char → Bool
  | inside, [] => inside
  | inside, c :: cs => insideAfter quote (inside ^^ c == quote) cs

@[simp] theorem insideAfter_cons_self (inside : Bool) (cs : List Char) :
    insideAfter quote inside (quote :: cs) = insideAfter quote (!inside) cs := by
  simp [insideAfter]

theorem insideAfter_cons_of_ne (h : c ≠ quote) (inside : Bool) (cs : List Char) :
    insideAfter quote inside (c :: cs) = insideAfter quote inside cs := by
  rw [insideAfter, beq_eq_false_iff_ne.2 h, Bool.xor_false]

theorem dequoteFrom_append {rest : List Char} (h : rest.head? ≠ some quote) (inside : Bool)
    (cs : List Char) :
    dequoteFrom quote inside (cs ++ rest) =
      dequoteFrom quote inside cs ++ dequoteFrom quote (insideAfter quote inside cs) rest := by
  fun_induction dequoteFrom quote inside cs with
  | case1 inside => rfl
  | case2 cs ih => simpa [dequoteFrom] using ih
  | case3 c cs hc ih => simpa [dequoteFrom, hc, insideAfter_cons_of_ne hc] using ih
  | case4 =>
    cases rest with
    | nil => simp [dequoteFrom]
    | cons d ds =>
      have hd : d ≠ quote := by simpa using h
      simp [dequoteFrom, insideAfter, hd]
  | case5 c hc =>
    rw [insideAfter_cons_of_ne hc, insideAfter, List.singleton_append, dequoteFrom_cons_of_ne hc]
    rfl
  | case6 cs ih => simpa [dequoteFrom] using ih
  | case7 d cs hd ih => simpa [dequoteFrom, hd] using ih
  | case8 c d cs hc ih =>
    rw [List.cons_append, dequoteFrom_cons_of_ne hc, ih, insideAfter_cons_of_ne hc]
    rfl

/-- A character that stands outside of the quoted runs of a text, or one of the runs. -/
inductive Part
  | bare (c : Char)
  | run (body : List Char)

def Part.value : Part → List Char
  | bare c => [c]
  | run body => body

/-- A text cut into its runs and what stands between them. No run touches the next, since the
quotes between them would be one that is written twice. -/
inductive Cut (quote : Char) : List Char → List Part → Prop
  | nil : Cut quote [] []
  | bare {c : Char} {cs : List Char} {parts : List Part} (hc : c ≠ quote) (h : Cut quote cs parts) :
      Cut quote (c :: cs) (.bare c :: parts)
  | run {cs : List Char} {parts : List Part} (body : List Char) (hcs : cs.head? ≠ some quote)
      (h : Cut quote cs parts) :
      Cut quote (quote :: (doubled quote body ++ quote :: cs)) (.run body :: parts)

namespace Cut

variable {cs : List Char} {parts : List Part}

theorem dequoteFrom (h : Cut quote cs parts) :
    Text.dequoteFrom quote false cs = parts.flatMap Part.value := by
  induction h with
  | nil => rfl
  | bare hc _ ih => rw [dequoteFrom_cons_of_ne hc, ih]; rfl
  | run body hcs _ ih =>
    rw [Text.dequoteFrom, if_pos rfl, dequoteFrom_doubled_append hcs, ih]
    rfl

end Cut

/-- A text that ends outside of a run can be cut; what begins inside of one closes it first. -/
theorem exists_cut (inside : Bool) (cs : List Char) (h : insideAfter quote inside cs = false) :
    if inside then ∃ body rest parts, cs = doubled quote body ++ quote :: rest ∧
      rest.head? ≠ some quote ∧ Cut quote rest parts
    else ∃ parts, Cut quote cs parts := by
  fun_induction dequoteFrom quote inside cs with
  | case1 inside =>
    subst h
    exact ⟨[], .nil⟩
  | case2 cs ih =>
    obtain ⟨body, rest, parts, rfl, hrest, hcut⟩ := ih (by simpa using h)
    exact ⟨.run body :: parts, hcut.run body hrest⟩
  | case3 c cs hc ih =>
    obtain ⟨parts, hcut⟩ := ih (by rwa [insideAfter_cons_of_ne hc] at h)
    exact ⟨.bare c :: parts, hcut.bare hc⟩
  | case4 => exact ⟨[], [], [], rfl, by simp, .nil⟩
  | case5 c hc => simp [insideAfter, hc] at h
  | case6 cs ih =>
    obtain ⟨body, rest, parts, rfl, hrest, hcut⟩ := ih (by simpa using h)
    exact ⟨quote :: body, rest, parts, by simp [doubled], hrest, hcut⟩
  | case7 d cs hd ih =>
    obtain ⟨parts, hcut⟩ := ih (by simpa using h)
    exact ⟨[], d :: cs, parts, rfl, by simpa using hd, hcut⟩
  | case8 c d cs hc ih =>
    obtain ⟨body, rest, parts, hbody, hrest, hcut⟩ := ih (by rwa [insideAfter_cons_of_ne hc] at h)
    exact ⟨c :: body, rest, parts, by rw [hbody, doubled_cons_of_ne hc]; rfl, hrest, hcut⟩

end MFile.Text

/-! ## Texts that stay on their line -/

namespace MFile

open Text

def Unbroken (text : String) : Prop := ∀ c ∈ text.toList, isBreak c = false

namespace Unbroken

variable {text more : String}

theorem of_all (h : (text.toList.all fun c => !isBreak c) = true) : Unbroken text :=
  fun c hc => Bool.not_eq_true' _ ▸ List.all_eq_true.1 h c hc

theorem of_subset (h : Unbroken text) (hmore : more.toList ⊆ text.toList) : Unbroken more :=
  fun c hc => h c (hmore hc)

theorem append (h : Unbroken text) (hmore : Unbroken more) : Unbroken (text ++ more) := by
  intro c hc
  rw [String.toList_append, List.mem_append] at hc
  exact hc.elim (h c) (hmore c)

theorem enquote {quote : Char} (hquote : isBreak quote = false) (h : Unbroken text) :
    Unbroken (Text.enquote quote text) := by
  intro c hc
  rw [Text.enquote, String.toList_ofList, List.mem_cons, List.mem_append, List.mem_singleton] at hc
  obtain rfl | hc | rfl := hc
  · exact hquote
  · exact h c (mem_doubled hc)
  · exact hquote

theorem dequote (h : Unbroken text) (quote : Char) : Unbroken (Text.dequote quote text) := by
  refine h.of_subset ?_
  rw [Text.dequote, String.toList_ofList]
  exact dequoteFrom_subset quote false _

theorem valueOf (h : Unbroken text) {kind : Kind} (hkind : kind.isTrivia = false) :
    Unbroken (kind.valueOf text) := by
  cases kind with
  | comment | continuation => cases hkind
  | charArray => exact h.dequote '\''
  | string => exact h.dequote '"'
  | bang =>
    rw [Kind.valueOf]
    split
    · rename_i rest hrest
      refine h.of_subset ?_
      rw [String.toList_ofList, hrest]
      exact List.subset_cons_self _ _
    · exact h
  | directory =>
    rw [Kind.valueOf]
    split
    · exact h.dequote '\''
    · exact h
  | _ => exact h

end Unbroken

end MFile
