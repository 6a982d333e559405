import Mathlib.Order.Nat
import Mathlib.Data.Prod.Lex
import MFile.Proofs.Grammar.Outcomes
import MFile.Proofs.Lexing.Order
import MFile.Proofs.Tree.Contents
import MFile.Proofs.Tree.Placement

/-!
What a parse gives lies between the token that it begins with and the last one that it has read.
Values that are read one after the other lie one behind the other, so a location from the first to
the last of them covers them all, and with them everything below.
-/

namespace MFile.Node

variable {file : String} {node d : Node}

/-- Below `node` stand values only, and every one of them covers its children. -/
def Tidy (file : String) (node : Node) : Prop :=
  ∀ d ∈ node.nodes, d.isValue = true ∧ d.location.IsRange file ∧
    ∀ c ∈ d.children, d.location.Covers c.2.location

namespace Tidy

theorem range (h : node.Tidy file) : node.location.IsRange file :=
  (h node (mem_nodes_self node)).2.1

theorem below (h : node.Tidy file) (hd : d ∈ node.nodes) : d.Tidy file :=
  fun e he => h e (nodes_trans hd he)

theorem child (h : node.Tidy file) {c : Child} (hc : c ∈ node.children) : c.2.Tidy file :=
  h.below (mem_nodes_iff.2 (.inr ⟨c, hc, mem_nodes_self c.2⟩))

theorem of_children (hvalue : node.isValue = true) (hrange : node.location.IsRange file)
    (hcovers : ∀ c ∈ node.children, c.2.Tidy file ∧ node.location.begins ≤ c.2.location.begins ∧
      c.2.location.ends ≤ node.location.ends) : node.Tidy file := by
  intro d hd
  rcases mem_nodes_iff.1 hd with rfl | ⟨c, hc, hd⟩
  · exact ⟨hvalue, hrange, fun c hc => hrange.covers (hcovers c hc).1.range (hcovers c hc).2.1
      (hcovers c hc).2.2⟩
  · exact (hcovers c hc).1 d hd

theorem covers {node d : Node} (h : node.Tidy file) (hd : d ∈ node.nodes) :
    node.location.Covers d.location := by
  rcases mem_nodes_iff.1 hd with rfl | ⟨c, hc, hd⟩
  · exact h.range.covers h.range le_rfl le_rfl
  · exact ((h node (mem_nodes_self node)).2.2 c hc).trans ((h.child hc).covers hd)
termination_by sizeOf node
decreasing_by exact sizeOf_lt_of_mem_children hc

theorem name_iff {n : Name} : (expr (.name n)).Tidy file ↔ (name n).Tidy file := by
  have hcopy : ∀ {a b : Node}, b.isValue = true → b.location = a.location →
      b.children = a.children → a.Tidy file → b.Tidy file := by
    intro a b hvalue hlocation hchildren h
    refine of_children hvalue (hlocation ▸ h.range) fun c hc => ?_
    rw [hchildren] at hc
    have hcovers := (h a (mem_nodes_self a)).2.2 c hc
    rw [hlocation]
    exact ⟨h.child hc, hcovers.begins, hcovers.ends⟩
  exact ⟨hcopy rfl rfl rfl, hcopy rfl rfl rfl⟩

end Tidy

end MFile.Node

namespace MFile.Grammar

/-- Where a parse stands in the tokens of its file. -/
structure Front where
  file : String
  behind : List Token
  ahead : List Token

def State.front (s : State) : Front := ⟨s.file, s.behind, s.ahead⟩

namespace Front

def tokens (m : Front) : List Token := m.behind.reverse ++ m.ahead

def past (m : Front) (t : Token) (rest : List Token) : Front := ⟨m.file, t :: m.behind, rest⟩

/-- Where the last token behind ends. -/
def reached (m : Front) : Nat ×ₗ Nat := m.behind.head?.elim ⊥ (·.location.ends)

def upcoming (m : Front) : Nat ×ₗ Nat := m.ahead.head?.elim m.reached (·.location.begins)

inductive Leads (m : Front) : Front → Prop
  | refl : Leads m m
  | past {mid : Front} {t : Token} {rest : List Token} (h : Leads m mid)
    (hahead : mid.ahead = t :: rest) : Leads m (mid.past t rest)

variable {m mid m' : Front} {t : Token} {rest : List Token}

theorem upcoming_eq (hahead : m.ahead = t :: rest) : m.upcoming = t.location.begins := by
  rw [upcoming, hahead]
  rfl

theorem reached_le_upcoming (h : Successive m.file m.tokens) : m.reached ≤ m.upcoming := by
  rw [upcoming, reached]
  cases hbehind : m.behind with
  | nil => exact bot_le
  | cons t behind =>
    cases hahead : m.ahead with
    | nil => exact le_rfl
    | cons u ahead =>
      have hsorted := h.sorted
      rw [tokens, hbehind, hahead] at hsorted
      exact (List.pairwise_append.1 hsorted).2.2 t (by simp) u List.mem_cons_self

theorem upcoming_le_ends (h : Successive m.file m.tokens) (hahead : m.ahead = t :: rest) :
    m.upcoming ≤ t.location.ends := by
  rw [upcoming_eq hahead]
  refine (h.ranges t ?_).begins_le_ends
  rw [tokens, hahead]
  exact List.mem_append_right _ List.mem_cons_self

namespace Leads

theorem trans (h : m.Leads mid) (h' : mid.Leads m') : m.Leads m' := by
  induction h' with
  | refl => exact h
  | past _ hahead ih => exact ih.past hahead

theorem file (h : m.Leads m') : m'.file = m.file := by
  induction h with
  | refl => rfl
  | past _ _ ih => exact ih

theorem tokens (h : m.Leads m') : m'.tokens = m.tokens := by
  induction h with
  | refl => rfl
  | past _ hahead ih =>
    rw [← ih, Front.tokens, Front.tokens, hahead, Front.past, List.reverse_cons, List.append_assoc]
    rfl

theorem successive (h : m.Leads m') (hm : Successive m.file m.tokens) :
    Successive m'.file m'.tokens := by
  rw [h.file, h.tokens]
  exact hm

theorem le (h : m.Leads m') (hm : Successive m.file m.tokens) :
    m.upcoming ≤ m'.upcoming ∧ m.reached ≤ m'.reached := by
  induction h with
  | refl => exact ⟨le_rfl, le_rfl⟩
  | @past mid t rest h hahead ih =>
    have hmid := h.successive hm
    have hends : mid.upcoming ≤ (mid.past t rest).reached := upcoming_le_ends hmid hahead
    have hnext := reached_le_upcoming ((refl.past hahead).successive hmid)
    exact ⟨ih.1.trans (hends.trans hnext), ih.2.trans ((reached_le_upcoming hmid).trans hends)⟩

theorem first (h : m.Leads m') :
    m' = m ∨ ∃ t rest, m.ahead = t :: rest ∧ (m.past t rest).Leads m' := by
  induction h with
  | refl => exact .inl rfl
  | @past mid t rest _ hahead ih =>
    rcases ih with rfl | ⟨u, later, hfirst, hleads⟩
    · exact .inr ⟨t, rest, hahead, .refl⟩
    · exact .inr ⟨u, later, hfirst, hleads.past hahead⟩

theorem past_first (h : m.Leads m') (hahead : m.ahead = t :: rest)
    (hshorter : m'.ahead.length < m.ahead.length) : (m.past t rest).Leads m' := by
  rcases h.first with rfl | ⟨u, later, hfirst, hleads⟩
  · exact absurd hshorter (Nat.lt_irrefl _)
  · rw [hahead] at hfirst
    cases hfirst
    exact hleads

theorem across (run : List Token) {m : Front} {rest : List Token} (hahead : m.ahead = run ++ rest) :
    m.Leads ⟨m.file, run.reverse ++ m.behind, rest⟩ := by
  induction run generalizing m with
  | nil =>
    obtain ⟨file, behind, ahead⟩ := m
    cases hahead
    exact .refl
  | cons t run ih =>
    have hrest := ih (m := m.past t (run ++ rest)) rfl
    rw [List.reverse_cons, List.append_assoc]
    exact (refl.past hahead).trans hrest

theorem passes {s s' : State} (h : s.front.Leads s'.front) : ∃ run, s.Passes run s' := by
  have hrun : ∀ m', s.front.Leads m' → ∃ run, s.ahead = run ++ m'.ahead ∧
      m'.behind = run.reverse ++ s.behind := by
    intro m' hm'
    induction hm' with
    | refl => exact ⟨[], rfl, rfl⟩
    | @past mid t rest _ hahead ih =>
      obtain ⟨run, hrun, hbehind⟩ := ih
      refine ⟨run ++ [t], ?_, ?_⟩
      · rw [hrun, hahead, List.append_assoc]
        rfl
      · rw [List.reverse_append, Front.past, hbehind]
        rfl
  obtain ⟨run, hahead, hbehind⟩ := hrun _ h
  exact ⟨run, hahead, hbehind⟩

end Leads

end Front

/-! ## Values in a row -/

/-- The nodes are values with everything below them, read from `m` to `m'` and one after the
other. -/
structure Fits (m m' : Front) (nodes : List Node) : Prop where
  successive : Successive m.file m.tokens
  leads : m.Leads m'
  tidy : ∀ node ∈ nodes, node.Tidy m.file
  within : ∀ node ∈ nodes, m.upcoming ≤ node.location.begins ∧ node.location.ends ≤ m'.reached
  sorted : nodes.Pairwise fun c d => c.location.ends ≤ d.location.begins

structure Spans (file : String) (lo hi : Nat ×ₗ Nat) (l : Location) : Prop where
  range : l.IsRange file
  begins : l.begins = lo
  ends : l.ends = hi

theorem spans_extendTo {file : String} {a b : Location} (ha : a.IsRange file) (hb : b.IsRange file)
    (hle : a.ends ≤ b.ends) : Spans file a.begins b.ends (a.extendTo b) := by
  obtain ⟨hrange, hbegins, hends⟩ := ha.extendTo hb
  exact ⟨hrange, hbegins, hends.trans (max_eq_right hle)⟩

theorem spans_lastPlace {s : State} {a : Location} (hs : Successive s.file s.front.tokens)
    (ha : a.IsRange s.file) (hle : a.ends ≤ s.front.reached) :
    Spans s.file a.begins s.front.reached (a.extendTo s.lastPlace) := by
  cases hbehind : s.behind with
  | nil =>
    have hstay : a.extendTo s.lastPlace = a := by
      rw [State.lastPlace, hbehind, Location.extendTo]
      split
      · cases a.place <;> rfl
      · rfl
    have hreached : s.front.reached = ⊥ := by
      rw [Front.reached, State.front, hbehind]
      rfl
    rw [hreached] at hle
    rw [hstay, hreached]
    exact ⟨ha, rfl, le_bot_iff.1 hle⟩
  | cons t behind =>
    have hplace : s.lastPlace = t.location := by rw [State.lastPlace, hbehind]; rfl
    have hreached : s.front.reached = t.location.ends := by
      rw [Front.reached, State.front, hbehind]
      rfl
    rw [hreached] at hle
    rw [hplace, hreached]
    refine spans_extendTo ha (hs.ranges t ?_) hle
    simp [Front.tokens, State.front, hbehind]

namespace Fits

variable {m mid m' : Front} {ns ns' u : List Node} {node first last : Node} {t : Token}
  {rest : List Token} {hi : Nat ×ₗ Nat}

theorem nil (h : Successive m.file m.tokens) : Fits m m [] :=
  ⟨h, .refl, List.forall_mem_nil _, List.forall_mem_nil _, .nil⟩

theorem successive' (h : Fits m m' ns) : Successive m'.file m'.tokens :=
  h.leads.successive h.successive

theorem append (h : Fits m mid ns) (h' : Fits mid m' ns') : Fits m m' (ns ++ ns') := by
  have hlow := (h.leads.le h.successive).1
  have hhigh := (h'.leads.le h'.successive).2
  have hmid := Front.reached_le_upcoming h'.successive
  refine ⟨h.successive, h.leads.trans h'.leads, List.forall_mem_append.2 ⟨h.tidy, ?_⟩,
    List.forall_mem_append.2 ⟨fun c hc => ?_, fun c hc => ?_⟩,
    List.pairwise_append.2 ⟨h.sorted, h'.sorted, fun c hc d hd => ?_⟩⟩
  · rw [← h.leads.file]
    exact h'.tidy
  · exact ⟨(h.within c hc).1, (h.within c hc).2.trans hhigh⟩
  · exact ⟨hlow.trans (h'.within c hc).1, (h'.within c hc).2⟩
  · exact (h.within c hc).2.trans (hmid.trans (h'.within d hd).1)

theorem skip (h : Fits m mid ns) (hleads : mid.Leads m') : Fits m m' ns := by
  have hpast : Fits mid m' [] :=
    ⟨h.successive', hleads, List.forall_mem_nil _, List.forall_mem_nil _, .nil⟩
  have hboth := h.append hpast
  rwa [List.append_nil] at hboth

theorem past (h : Fits m mid ns) (hahead : mid.ahead = t :: rest) : Fits m (mid.past t rest) ns :=
  h.skip (.past .refl hahead)

theorem close (h : Fits m m' (u ++ ns)) (hchildren : node.children.map (·.2) = ns)
    (hvalue : node.isValue = true) (hrange : node.location.IsRange m.file)
    (hlow : m.upcoming ≤ node.location.begins)
    (hfront : ∀ c ∈ u, c.location.ends ≤ node.location.begins)
    (hcovers : ∀ c ∈ ns, node.location.begins ≤ c.location.begins ∧
      c.location.ends ≤ node.location.ends)
    (hhigh : node.location.ends ≤ m'.reached) : Fits m m' (u ++ [node]) := by
  obtain ⟨htidy, hns⟩ := List.forall_mem_append.1 h.tidy
  have hnode : node.Tidy m.file := by
    refine .of_children hvalue hrange fun c hc => ?_
    have hmem : c.2 ∈ ns := hchildren ▸ List.mem_map_of_mem hc
    exact ⟨hns c.2 hmem, hcovers c.2 hmem⟩
  refine ⟨h.successive, h.leads,
    List.forall_mem_append.2 ⟨htidy, List.forall_mem_singleton.2 hnode⟩,
    List.forall_mem_append.2 ⟨(List.forall_mem_append.1 h.within).1,
      List.forall_mem_singleton.2 ⟨hlow, hhigh⟩⟩,
    List.pairwise_append.2 ⟨(List.pairwise_append.1 h.sorted).1, List.pairwise_singleton _ _, ?_⟩⟩
  exact fun c hc d hd => List.mem_singleton.1 hd ▸ hfront c hc

theorem ends_le_last (h : Fits m m' (u ++ ns)) (hlast : ns.getLast? = some last) :
    ∀ c ∈ ns, c.location.ends ≤ last.location.ends := by
  obtain ⟨before, rfl⟩ := List.getLast?_eq_some_iff.1 hlast
  intro c hc
  rcases List.mem_append.1 hc with hc | hc
  · have hsorted := (List.pairwise_append.1 h.sorted).2.1
    have hbefore := (List.pairwise_append.1 hsorted).2.2 c hc last (List.mem_singleton_self _)
    exact hbefore.trans (h.tidy last (by simp)).range.begins_le_ends
  · rw [List.mem_singleton.1 hc]

theorem close_first (h : Fits m m' (u ++ ns)) (hhead : ns.head? = some first)
    (hchildren : node.children.map (·.2) = ns) (hvalue : node.isValue = true)
    (hlocation : Spans m.file first.location.begins hi node.location)
    (hlast : ∀ c ∈ ns, c.location.ends ≤ hi) (hhi : hi ≤ m'.reached) :
    Fits m m' (u ++ [node]) := by
  obtain ⟨ns, rfl⟩ := List.head?_eq_some_iff.1 hhead
  obtain ⟨-, hsorted, hfront⟩ := List.pairwise_append.1 h.sorted
  refine h.close hchildren hvalue hlocation.range ?_ (fun c hc => ?_) (fun c hc => ⟨?_, ?_⟩) ?_
  · rw [hlocation.begins]
    exact (h.within first (by simp)).1
  · rw [hlocation.begins]
    exact hfront c hc first List.mem_cons_self
  · rw [hlocation.begins]
    rcases List.mem_cons.1 hc with rfl | hc
    · exact le_rfl
    · have hfirst := (h.tidy first (by simp)).range.begins_le_ends
      exact hfirst.trans ((List.pairwise_cons.1 hsorted).1 c hc)
  · rw [hlocation.ends]
    exact hlast c hc
  · rw [hlocation.ends]
    exact hhi

theorem spans_place {s : State} (h : Fits m s.front ns) (hnode : node ∈ ns) :
    Spans m.file node.location.begins s.front.reached (node.location.extendTo s.lastPlace) := by
  have hrange := (h.tidy node hnode).range
  have hfile : s.file = m.file := h.leads.file
  rw [← hfile] at hrange ⊢
  exact spans_lastPlace h.successive' hrange (h.within node hnode).2

theorem close_place {s : State} (h : Fits m s.front (u ++ ns)) (hhead : ns.head? = some first)
    (hchildren : node.children.map (·.2) = ns) (hvalue : node.isValue = true)
    (hlocation : node.location = first.location.extendTo s.lastPlace) :
    Fits m s.front (u ++ [node]) := by
  have hfirst := h.spans_place (List.mem_append_right _ (List.mem_of_head? hhead))
  exact h.close_first hhead hchildren hvalue (hlocation ▸ hfirst)
    (fun c hc => (h.within c (List.mem_append_right _ hc)).2) le_rfl

theorem spans_past (h : Fits m (mid.past t rest) ns) (hnode : node ∈ ns) :
    Spans m.file node.location.begins t.location.ends (node.location.extendTo t.location) := by
  have ht := h.successive'.ranges t (by simp [Front.tokens, Front.past])
  rw [h.leads.file] at ht
  exact spans_extendTo (h.tidy node hnode).range ht (h.within node hnode).2

theorem close_past (h : Fits m (mid.past t rest) (u ++ ns)) (hhead : ns.head? = some first)
    (hchildren : node.children.map (·.2) = ns) (hvalue : node.isValue = true)
    (hlocation : node.location = first.location.extendTo t.location) :
    Fits m (mid.past t rest) (u ++ [node]) := by
  have hfirst := h.spans_past (List.mem_append_right _ (List.mem_of_head? hhead))
  exact h.close_first hhead hchildren hvalue (hlocation ▸ hfirst)
    (fun c hc => (h.within c (List.mem_append_right _ hc)).2) le_rfl

theorem close_last (h : Fits m m' (u ++ ns)) (hhead : ns.head? = some first)
    (hlast : ns.getLast? = some last) (hchildren : node.children.map (·.2) = ns)
    (hvalue : node.isValue = true)
    (hlocation : node.location = first.location.extendTo last.location) :
    Fits m m' (u ++ [node]) := by
  have hfirst := List.mem_of_head? hhead
  have hlastMem := List.mem_append_right u (List.mem_of_getLast? hlast)
  have hends := h.ends_le_last hlast
  have hspans := spans_extendTo (h.tidy first (List.mem_append_right _ hfirst)).range
    (h.tidy last hlastMem).range (hends first hfirst)
  exact h.close_first hhead hchildren hvalue (hlocation ▸ hspans) hends (h.within last hlastMem).2

theorem close_token (hm : Successive m.file m.tokens) (hahead : m.ahead = t :: rest)
    (h : Fits (m.past t rest) m' ns) (hchildren : node.children.map (·.2) = ns)
    (hvalue : node.isValue = true) (hlocation : Spans m.file t.location.begins hi node.location)
    (hlast : ∀ c ∈ ns, c.location.ends ≤ hi) (hhi : hi ≤ m'.reached) : Fits m m' [node] := by
  have hstep : m.Leads (m.past t rest) := .past .refl hahead
  have hall : Fits m m' ([] ++ ns) := ((nil hm).skip hstep).append h
  have hbegins : t.location.begins ≤ (m.past t rest).upcoming := by
    rw [← Front.upcoming_eq hahead]
    exact (hstep.le hm).1
  refine hall.close hchildren hvalue hlocation.range ?_ (List.forall_mem_nil _)
    (fun c hc => ⟨?_, ?_⟩) ?_
  · rw [hlocation.begins, Front.upcoming_eq hahead]
  · rw [hlocation.begins]
    exact hbegins.trans (h.within c hc).1
  · rw [hlocation.ends]
    exact hlast c hc
  · rw [hlocation.ends]
    exact hhi

theorem close_token_last (hm : Successive m.file m.tokens) (hahead : m.ahead = t :: rest)
    (h : Fits (m.past t rest) m' ns) (hlast : ns.getLast? = some last)
    (hchildren : node.children.map (·.2) = ns) (hvalue : node.isValue = true)
    (hlocation : node.location = t.location.extendTo last.location) : Fits m m' [node] := by
  have hmem := List.mem_of_getLast? hlast
  have hrange := (h.tidy last hmem).range
  have ht := h.successive.ranges t (by simp [Front.tokens, Front.past])
  have hle : t.location.ends ≤ last.location.ends := calc
    t.location.ends = (m.past t rest).reached := rfl
    _ ≤ (m.past t rest).upcoming := Front.reached_le_upcoming h.successive
    _ ≤ last.location.begins := (h.within last hmem).1
    _ ≤ last.location.ends := hrange.begins_le_ends
  exact h.close_token hm hahead hchildren hvalue (hlocation ▸ spans_extendTo ht hrange hle)
    (ends_le_last (u := []) h hlast) (h.within last hmem).2

theorem close_token_place {s : State} (hm : Successive m.file m.tokens)
    (hahead : m.ahead = t :: rest)
    (h : Fits (m.past t rest) s.front ns) (hchildren : node.children.map (·.2) = ns)
    (hvalue : node.isValue = true) (hlocation : node.location = t.location.extendTo s.lastPlace) :
    Fits m s.front [node] := by
  have hfile : s.file = m.file := h.leads.file
  have ht := h.successive.ranges t (by simp [Front.tokens, Front.past])
  have hspans := spans_lastPlace h.successive' (hfile ▸ ht) (h.leads.le h.successive).2
  rw [hfile] at hspans
  exact h.close_token hm hahead hchildren hvalue (hlocation ▸ hspans)
    (fun c hc => (h.within c hc).2) le_rfl

theorem leaf (hm : Successive m.file m.tokens) (hahead : m.ahead = t :: rest)
    (hchildren : node.children = []) (hvalue : node.isValue = true)
    (hlocation : node.location = t.location) : Fits m (m.past t rest) [node] := by
  have hrange : t.location.IsRange m.file := by
    refine hm.ranges t ?_
    rw [Front.tokens, hahead]
    exact List.mem_append_right _ List.mem_cons_self
  have hstep : m.Leads (m.past t rest) := .past .refl hahead
  have hspans : Spans m.file t.location.begins t.location.ends node.location := by
    rw [hlocation]
    exact ⟨hrange, rfl, rfl⟩
  exact (nil (hstep.successive hm)).close_token hm hahead (by rw [hchildren]; rfl) hvalue hspans
    (List.forall_mem_nil _) le_rfl

theorem name_iff {n : Name} :
    Fits m m' (u ++ [.expr (.name n)]) ↔ Fits m m' (u ++ [.name n]) := by
  have hcopy : ∀ {a b : Node}, b.location = a.location → (a.Tidy m.file → b.Tidy m.file) →
      Fits m m' (u ++ [a]) → Fits m m' (u ++ [b]) := by
    intro a b hlocation htidy h
    obtain ⟨hfront, ha⟩ := List.forall_mem_append.1 h.tidy
    obtain ⟨hwithin, hinside⟩ := List.forall_mem_append.1 h.within
    obtain ⟨hsorted, -, hbefore⟩ := List.pairwise_append.1 h.sorted
    refine ⟨h.successive, h.leads, List.forall_mem_append.2 ⟨hfront, List.forall_mem_singleton.2
      (htidy (List.forall_mem_singleton.1 ha))⟩, List.forall_mem_append.2 ⟨hwithin,
        List.forall_mem_singleton.2 ?_⟩, List.pairwise_append.2 ⟨hsorted,
          List.pairwise_singleton _ _, fun c hc => List.forall_mem_singleton.2 ?_⟩⟩
    · rw [hlocation]
      exact hinside a (List.mem_singleton_self a)
    · rw [hlocation]
      exact hbefore c hc a (List.mem_singleton_self a)
  exact ⟨hcopy rfl Node.Tidy.name_iff.1, hcopy rfl Node.Tidy.name_iff.2⟩

end Fits

end MFile.Grammar
