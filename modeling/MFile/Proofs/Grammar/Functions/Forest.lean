import MFile.Proofs.Grammar.Functions.Slots
import MFile.Proofs.Tree.Listing

/-!
From a list of functions with their parents to the functions nested in each other. While functions
are read, those that are open form a stack, and each new one is read inside of the top of what is
left of it. So among the functions behind one, its own come first, and the nested functions are
listed as they were read.
-/

namespace MFile.Grammar

/-- Functions begin with the given parents, the first of them with the number `k`, while the stack
of open functions goes from `σ` to `τ`. -/
inductive Begins : Nat → List Nat → List (Option Nat) → List Nat → Prop
  | done {k : Nat} {σ τ : List Nat} (h : τ <:+ σ) : Begins k σ [] τ
  | next {k : Nat} {σ σ' τ : List Nat} {ps : List (Option Nat)} (h : σ' <:+ σ)
    (rest : Begins (k + 1) (k :: σ') ps τ) : Begins k σ (σ'.head? :: ps) τ

namespace Begins

variable {k : Nat} {σ τ τ' : List Nat} {ps : List (Option Nat)}

theorem close (h : Begins k σ ps τ) (hτ : τ' <:+ τ) : Begins k σ ps τ' := by
  induction h with
  | done h => exact .done (hτ.trans h)
  | next h _ ih => exact .next h (ih hτ)

theorem concat (h : Begins k σ ps τ) :
    Begins k σ (ps ++ [τ.head?]) ((k + ps.length) :: τ) := by
  induction h with
  | done h => exact .next h (.done (List.suffix_refl _))
  | @next k σ σ' τ ps h _ ih =>
    refine .next h ?_
    rw [List.length_cons, Nat.add_comm ps.length, ← Nat.add_assoc]
    exact ih

end Begins

/-- The parents of functions none of which is nested in another one of them: each is on what is
left of the stack. -/
inductive Descends : List Nat → List (Option Nat) → Prop
  | nil {σ : List Nat} : Descends σ []
  | cons {σ σ' : List Nat} {ps : List (Option Nat)} (h : σ' <:+ σ) (rest : Descends σ' ps) :
    Descends σ (σ'.head? :: ps)

namespace Descends

variable {k : Nat} {σ σ' : List Nat} {ps : List (Option Nat)}

theorem mem_stack (h : Descends σ ps) (hk : some k ∈ ps) : k ∈ σ := by
  induction h with
  | nil => cases hk
  | cons h _ ih =>
    rcases List.mem_cons.1 hk with hk | hk
    · exact h.subset (List.mem_of_mem_head? hk.symm)
    · exact h.subset (ih hk)

theorem split {rs : List (Option Nat × FunctionDef)} (h : Descends (k :: σ) (rs.map (·.1)))
    (hk : k ∉ σ) : rs = rs.filter (·.1 == some k) ++ rs.filter (·.1 != some k) ∧
      Descends σ ((rs.filter (·.1 != some k)).map (·.1)) := by
  induction rs with
  | nil => exact ⟨rfl, .nil⟩
  | cons r rs ih =>
    rw [List.map_cons] at h
    generalize hp : r.1 = p at h
    cases h with
    | cons hsuffix rest =>
      rcases List.suffix_cons_iff.1 hsuffix with rfl | hinside
      · have hown : (r.1 == some k) = true := by rw [hp, List.head?_cons, beq_self_eq_true]
        obtain ⟨hsplit, hdescends⟩ := ih rest
        have hnot : (r.1 != some k) = false := by rw [bne, hown]; rfl
        simp only [List.filter_cons, hown, hnot, if_true, Bool.false_eq_true, if_false,
          List.cons_append, ← hsplit]
        exact ⟨trivial, hdescends⟩
      · -- From here on no parent is `k`.
        have hall : Descends σ ((r :: rs).map (·.1)) := by
          rw [List.map_cons, hp]
          exact .cons hinside rest
        have hnone : ∀ x ∈ r :: rs, (x.1 == some k) = false := by
          intro x hx
          rw [beq_eq_false_iff_ne]
          exact fun hx' => hk (hall.mem_stack (hx' ▸ List.mem_map_of_mem hx))
        have hown : (r :: rs).filter (·.1 == some k) = [] :=
          List.filter_eq_nil_iff.2 fun x hx => by simp [hnone x hx]
        have hother : (r :: rs).filter (·.1 != some k) = r :: rs :=
          List.filter_eq_self.2 fun x hx => by rw [bne, hnone x hx]; rfl
        rw [hown, hother]
        exact ⟨rfl, hall⟩

end Descends

namespace FunctionRun

variable {k base : Nat} {σ τ : List Nat} {es : List RunEntry}

def Filled (es : List RunEntry) : Prop := ∀ e ∈ es, e.function.isSome

theorem descends_nestFrom (h : Begins k σ (es.map (·.parent)) τ) (hσ : ∀ j ∈ σ, j < k)
    (hfilled : Filled es) : Descends σ ((nestFrom k es).map (·.1)) := by
  induction es generalizing k σ with
  | nil => exact .nil
  | cons e es ih =>
    obtain ⟨he, hes⟩ := List.forall_mem_cons.1 hfilled
    obtain ⟨f, hf⟩ := Option.isSome_iff_exists.1 he
    rw [List.map_cons] at h
    generalize hp : e.parent = p at h
    cases h with
    | @next _ _ σ' _ _ hsuffix rest =>
      have hbelow : ∀ j ∈ σ', j < k := fun j hj => hσ j (hsuffix.subset hj)
      have hlater := ih rest (by
        intro j hj
        rcases List.mem_cons.1 hj with rfl | hj
        · exact Nat.lt_succ_self _
        · exact Nat.lt_succ_of_lt (hbelow j hj)) hes
      simp only [nestFrom, hf, List.map_cons, hp]
      exact .cons hsuffix (hlater.split fun hk => Nat.lt_irrefl k (hbelow k hk)).2

def listForest (base : Nat) : Nat → List (Option Nat × FunctionDef) → List ListedFunction
  | _, [] => []
  | number, (parent, f) :: rs =>
    f.listing (parent.map (base + ·)) number ++ listForest base (number + f.count) rs

def RunEntry.listed? (base : Nat) (e : RunEntry) : Option ListedFunction :=
  e.function.map fun f => ⟨f.site.location, e.parent.map (base + ·), f.terminated⟩

theorem listForest_append (number : Nat) (rs rs' : List (Option Nat × FunctionDef)) :
    listForest base number (rs ++ rs') =
      listForest base number rs ++
        listForest base (number + countFunctions (rs.map (·.2))) rs' := by
  induction rs generalizing number with
  | nil => rfl
  | cons r rs ih =>
    obtain ⟨parent, f⟩ := r
    rw [List.cons_append, listForest, listForest, ih, List.append_assoc, List.map_cons,
      countFunctions, Nat.add_assoc]

theorem listForest_siblings {parent : Option Nat} {rs : List (Option Nat × FunctionDef)}
    (h : ∀ r ∈ rs, r.1 = parent) (number : Nat) :
    listForest base number rs =
      listFunctions (parent.map (base + ·)) number (rs.map (·.2)) := by
  induction rs generalizing number with
  | nil => rfl
  | cons r rs ih =>
    obtain ⟨hr, hrs⟩ := List.forall_mem_cons.1 h
    obtain ⟨_, f⟩ := r
    subst hr
    rw [List.map_cons, listForest, listFunctions, ih hrs]

theorem listForest_nestFrom (h : Begins k σ (es.map (·.parent)) τ) (hσ : ∀ j ∈ σ, j < k)
    (hfilled : Filled es) (hflat : ∀ e ∈ es, ∀ f ∈ e.function, f.nested = []) :
    listForest base (base + k) (nestFrom k es) = es.filterMap (RunEntry.listed? base) := by
  induction es generalizing k σ with
  | nil => rfl
  | cons e es ih =>
    obtain ⟨he, hes⟩ := List.forall_mem_cons.1 hfilled
    obtain ⟨hnone, hflat⟩ := List.forall_mem_cons.1 hflat
    obtain ⟨f, hf⟩ := Option.isSome_iff_exists.1 he
    rw [List.map_cons] at h
    generalize hp : e.parent = p at h
    cases h with
    | @next _ _ σ' _ _ hsuffix rest =>
      have hbelow : ∀ j ∈ σ', j < k := fun j hj => hσ j (hsuffix.subset hj)
      have hbelow' : ∀ j ∈ k :: σ', j < k + 1 := by
        intro j hj
        rcases List.mem_cons.1 hj with rfl | hj
        · exact Nat.lt_succ_self _
        · exact Nat.lt_succ_of_lt (hbelow j hj)
      have hsplit := ((descends_nestFrom rest hbelow' hes).split
        fun hk => Nat.lt_irrefl k (hbelow k hk)).1
      have hlater := ih rest hbelow' hes hflat
      obtain ⟨site, signature, validation, body, nested, terminated⟩ := f
      obtain rfl : nested = [] := hnone _ hf
      simp only [nestFrom, hf, listForest, FunctionDef.listing, FunctionDef.count,
        List.filterMap_cons, RunEntry.listed?, Option.map_some, List.reverse_nil, List.append_nil]
      generalize nestFrom (k + 1) es = later at hsplit hlater ⊢
      have hown : ∀ r ∈ later.filter (·.1 == some k), r.1 = some k :=
        fun r hr => by simpa using (List.mem_filter.1 hr).2
      rw [hsplit, listForest_append, listForest_siblings hown] at hlater
      rw [List.cons_append, ← hlater, Option.map_some]
      congr 3
      omega

theorem listFunctions_nest {run : FunctionRun} (h : Begins 0 [] (run.entries.map (·.parent)) τ)
    (hfilled : Filled run.entries) (hflat : ∀ e ∈ run.entries, ∀ f ∈ e.function, f.nested = []) :
    listFunctions none base run.nest = run.entries.filterMap (RunEntry.listed? base) := by
  have hroots : ∀ r ∈ nestFrom 0 run.entries, r.1 = none := by
    intro r hr
    have hdescends := descends_nestFrom h nofun hfilled
    cases hparent : r.1 with
    | none => rfl
    | some k =>
      exact nomatch hdescends.mem_stack (hparent ▸ List.mem_map_of_mem hr : some k ∈ _)
  have hlist : listForest base base _ = _ := listForest_nestFrom h nofun hfilled hflat
  rw [listForest_siblings hroots] at hlist
  rw [nest_eq]
  exact hlist

end FunctionRun

end MFile.Grammar
