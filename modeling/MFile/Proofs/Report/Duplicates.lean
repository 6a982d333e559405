import MFile.Proofs.Report.Interleaving

/-!
Equal messages about one file. A batch holds no message that was not gathered and none is lost, but
only equal neighbours are merged, and messages are sorted by location alone: a message that comes
between two equal ones at their location keeps them apart. Otherwise each message is released once.
-/

namespace MFile

/-- Two equal messages with a different one between them at the same location. -/
def Message.Interrupted (messages : List Message) : Prop :=
  ∃ a b c : Message, [a, b, c].Sublist messages ∧ a.location.order b.location = .eq ∧
    a.agrees c = true ∧ a.agrees b = false

/-- No two equal messages. -/
def Message.Distinct (messages : List Message) : Prop :=
  messages.Pairwise fun a b => a.agrees b = false

namespace Location

theorem order_of_agrees {a b : Location} (h : a.agrees b = true) : a.order b = .eq := by
  rw [agrees, Bool.and_eq_true, beq_iff_eq, beq_iff_eq] at h
  rw [order, h.1, h.2, Std.compare_self, Std.compare_self]
  rfl

theorem order_between {a b c : Location} (hab : (a.order b).isLE = true)
    (hbc : (b.order c).isLE = true) (hac : a.order c = .eq) : a.order b = .eq := by
  rw [order_eq] at *
  have hba : (compareLex (compareOn Location.file) (compareOn Location.rank) b a).isLE = true := by
    rw [Std.TransCmp.congr_right hac]
    exact hbc
  exact Std.OrientedCmp.isLE_antisymm hab hba

end Location

namespace Collector

open Message

variable {messages sorted : List Message} {m : Message}

theorem agrees_self (m : Message) : m.agrees m = true := by
  simp [agrees, Location.agrees]

theorem agrees_symm {a b : Message} (h : a.agrees b = true) : b.agrees a = true :=
  (agrees_congr h).trans (agrees_self a)

theorem location_of_agrees {a b : Message} (h : a.agrees b = true) :
    a.location.order b.location = .eq := by
  simp only [agrees, Bool.and_eq_true] at h
  exact Location.order_of_agrees h.1.1.1.1

/-! ## Merging -/

theorem mergeRuns_sublist (messages : List Message) : (mergeRuns messages).Sublist messages := by
  induction messages with
  | nil => exact .slnil
  | cons m messages ih =>
    rw [mergeRuns]
    split
    · exact .cons_cons m (List.nil_sublist _)
    · rename_i next others hnext
      rw [hnext] at ih
      split
      · exact .cons_cons m ((List.sublist_cons_self next others).trans ih)
      · exact .cons_cons m ih

theorem mergeRuns_head (m : Message) (messages : List Message) :
    ∃ others, mergeRuns (m :: messages) = m :: others := by
  rw [mergeRuns]
  split
  · exact ⟨[], rfl⟩
  · split
    · exact ⟨_, rfl⟩
    · exact ⟨_, rfl⟩

theorem exists_mem_mergeRuns (h : m ∈ messages) :
    ∃ kept ∈ mergeRuns messages, m.agrees kept = true := by
  induction messages with
  | nil => cases h
  | cons first messages ih =>
    obtain ⟨others, hfirst⟩ := mergeRuns_head first messages
    rcases List.mem_cons.1 h with rfl | h
    · exact ⟨m, hfirst ▸ List.mem_cons_self, agrees_self m⟩
    · obtain ⟨kept, hkept, hm⟩ := ih h
      rw [mergeRuns]
      split
      · rename_i hnil
        rw [hnil] at hkept
        cases hkept
      · rename_i next others hnext
        rw [hnext] at hkept
        split
        · rename_i heq
          rcases List.mem_cons.1 hkept with rfl | hkept
          · exact ⟨first, List.mem_cons_self, (agrees_congr hm).symm.trans (agrees_symm heq)⟩
          · exact ⟨kept, List.mem_cons_of_mem _ hkept, hm⟩
        · exact ⟨kept, List.mem_cons_of_mem _ hkept, hm⟩

theorem agrees_of_distinct (h : Distinct (mergeRuns messages)) {a b c : Message}
    (habc : [a, b, c].Sublist messages) (hac : a.agrees c = true) : a.agrees b = true := by
  induction messages generalizing a with
  | nil => cases habc
  | cons first messages ih =>
    rw [mergeRuns] at h
    split at h
    · rename_i hnil
      cases messages with
      | nil => cases habc <;> rename_i hrest <;> cases hrest
      | cons second messages =>
        obtain ⟨others, hsecond⟩ := mergeRuns_head second messages
        rw [hsecond] at hnil
        cases hnil
    · rename_i next others hnext
      have hhead : ∃ rest, messages = next :: rest := by
        cases messages with
        | nil => cases hnext
        | cons second messages =>
          obtain ⟨others', hsecond⟩ := mergeRuns_head second messages
          rw [hsecond] at hnext
          cases hnext
          exact ⟨messages, rfl⟩
      obtain ⟨rest, hrest⟩ := hhead
      split at h
      · rename_i heq
        obtain ⟨hfirst, hothers⟩ := List.pairwise_cons.1 h
        have hdistinct : Distinct (mergeRuns messages) := by
          rw [hnext]
          exact List.pairwise_cons.2 ⟨fun x hx => (agrees_congr heq).trans (hfirst x hx), hothers⟩
        rcases List.sublist_cons_iff.1 habc with hlater | ⟨_, hcons, hlater⟩
        · exact ih hdistinct hlater hac
        · -- The run that `a` begins goes on with `next`, which stands in for it.
          obtain ⟨rfl, rfl⟩ := List.cons.inj hcons
          have hnextc : next.agrees c = true := (agrees_congr heq).trans hac
          by_cases hb : a.agrees b = true
          · exact hb
          · rw [hrest] at hlater
            rcases List.sublist_cons_iff.1 hlater with hlater | ⟨_, hcons, -⟩
            · rw [← agrees_congr heq]
              exact ih hdistinct (hrest ▸ hlater.cons_cons next) hnextc
            · obtain ⟨rfl, -⟩ := List.cons.inj hcons
              exact heq
      · obtain ⟨hfirst, hothers⟩ := List.pairwise_cons.1 h
        rcases List.sublist_cons_iff.1 habc with hlater | ⟨_, hcons, hlater⟩
        · exact ih (hnext ▸ hothers) hlater hac
        · obtain ⟨rfl, rfl⟩ := List.cons.inj hcons
          obtain ⟨kept, hkept, hc⟩ := exists_mem_mergeRuns (hlater.subset (by simp : c ∈ [b, c]))
          rw [hnext] at hkept
          have hfalse := hfirst kept hkept
          rw [← agrees_congr hac, hc] at hfalse
          cases hfalse

theorem exists_between (hchain : messages.IsChain fun a b => a.agrees b = false) {a c : Message}
    (hac : [a, c].Sublist messages) (h : a.agrees c = true) :
    ∃ b, [a, b, c].Sublist messages ∧ a.agrees b = false := by
  induction messages with
  | nil => cases hac
  | cons first messages ih =>
    rcases List.sublist_cons_iff.1 hac with hlater | ⟨_, hcons, hlater⟩
    · obtain ⟨b, hb, hab⟩ := ih (List.isChain_of_isChain_cons hchain) hlater
      exact ⟨b, hb.cons first, hab⟩
    · obtain ⟨rfl, rfl⟩ := List.cons.inj hcons
      cases messages with
      | nil => cases hlater
      | cons second messages =>
        obtain ⟨hsecond, -⟩ := List.isChain_cons_cons.1 hchain
        rcases List.sublist_cons_iff.1 hlater with hlater | ⟨_, hcons, -⟩
        · exact ⟨second, (hlater.cons_cons second).cons_cons a, hsecond⟩
        · obtain ⟨rfl, -⟩ := List.cons.inj hcons
          rw [h] at hsecond
          cases hsecond

/-! ## Sorting -/

/-- Sorting keeps the messages at one location in order, so it interrupts none and mends none. -/
theorem interrupted_sorted (h : StablySorted messages sorted) :
    Interrupted sorted ↔ Interrupted messages := by
  have hfilter : ∀ {ms ms' : List Message},
      (∀ l : Location, ms.filter (·.location.order l == .eq) =
        ms'.filter (·.location.order l == .eq)) → Interrupted ms → Interrupted ms' := by
    rintro ms ms' hstable ⟨a, b, c, hsub, hab, hac, hne⟩
    have hat := hsub.filter (·.location.order a.location == .eq)
    have hkept : [a, b, c].filter (·.location.order a.location == .eq) = [a, b, c] := by
      refine List.filter_eq_self.2 fun x hx => beq_iff_eq.2 ?_
      simp only [List.mem_cons, List.not_mem_nil, or_false] at hx
      rcases hx with rfl | rfl | rfl
      · exact location_of_agrees (agrees_self x)
      · rw [Location.order_eq] at hab ⊢
        exact Std.OrientedCmp.eq_symm hab
      · exact location_of_agrees (agrees_symm hac)
    rw [hkept, hstable] at hat
    exact ⟨a, b, c, hat.trans List.filter_sublist, hab, hac, hne⟩
  exact ⟨hfilter h.stable, hfilter fun l => (h.stable l).symm⟩

theorem distinct_arrange (messages : List Message) :
    Distinct (arrange messages) ↔ ¬ Interrupted messages := by
  have hsorted := stablySorted_mergeSort messages
  rw [← interrupted_sorted hsorted]
  constructor
  · rintro hdistinct ⟨a, b, c, hsub, -, hac, hne⟩
    rw [agrees_of_distinct hdistinct hsub hac] at hne
    cases hne
  · intro h
    obtain ⟨runs, -, -, -, hchain⟩ := merged_mergeRuns
      (messages.mergeSort fun a b => (a.location.order b.location).isLE)
    refine List.pairwise_iff_forall_sublist.2 fun {a c} hac =>
      Bool.eq_false_iff.2 fun hagree => h ?_
    obtain ⟨b, hb, hne⟩ := exists_between hchain hac hagree
    have hsub := hb.trans (mergeRuns_sublist _)
    have hordered := hsorted.ordered.sublist hsub
    simp only [List.pairwise_cons, List.mem_cons, List.not_mem_nil, or_false, forall_eq_or_imp,
      forall_eq] at hordered
    exact ⟨a, b, c, hsub, Location.order_between hordered.1.1 hordered.2.1
      (location_of_agrees hagree), hagree, hne⟩

/-! ## Runs -/

theorem released_unregister (calls : List Call) (file : String) :
    (run (calls ++ [.unregister file])).released =
      (run calls).released ++ arrange (since file calls) := by
  have hgathered := gathered?_run calls file
  rw [run_concat, after, unregister]
  cases hopen : isOpen file calls with
  | true =>
    rw [hopen, if_pos rfl] at hgathered
    rw [hgathered]
  | false =>
    rw [hopen, if_neg Bool.false_ne_true] at hgathered
    rw [hgathered, since_of_closed hopen, arrange, List.mergeSort_nil]
    exact (List.append_nil _).symm

/-- Closing a file releases the messages that were gathered for it, and each of them just once if
no two equal ones were interrupted by a different one at their location. -/
theorem released_distinct (calls : List Call) (file : String) :
    ∃ batch, (run (calls ++ [.unregister file])).released = (run calls).released ++ batch ∧
      (∀ m ∈ batch, m ∈ since file calls) ∧
      (∀ m ∈ since file calls, ∃ released ∈ batch, m.agrees released = true) ∧
      (Distinct batch ↔ ¬ Interrupted (since file calls)) := by
  have hperm := (stablySorted_mergeSort (since file calls)).perm
  refine ⟨arrange (since file calls), released_unregister calls file, fun m hm => ?_,
    fun m hm => ?_, distinct_arrange _⟩
  · exact hperm.mem_iff.1 ((mergeRuns_sublist _).subset hm)
  · exact exists_mem_mergeRuns (hperm.mem_iff.2 hm)

/-- Two equal messages with a different one in between, all about the first line of a file. -/
def interruption : List Call :=
  [.register "a.m", notice "a.m" "x", notice "a.m" "y", notice "a.m" "x"]

/-- The batch has two equal messages. -/
theorem released_interruption : ∃ batch,
    (run (interruption ++ [.unregister "a.m"])).released = batch ∧ ¬ Distinct batch := by
  refine ⟨_, released_unregister interruption "a.m", fun hdistinct => ?_⟩
  refine (distinct_arrange (since "a.m" interruption)).1 hdistinct ⟨_, _, _, .refl _, ?_⟩
  decide

end Collector

end MFile
