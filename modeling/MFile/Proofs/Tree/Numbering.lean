import Mathlib.Algebra.BigOperators.Group.List.Basic
import Mathlib.Algebra.Group.Prod
import Mathlib.Algebra.Order.Group.Multiset
import Mathlib.Algebra.Ring.Nat
import Mathlib.Data.List.Flatten
import MFile.Proofs.Tree.Contents

/-!
The numbers in a tree. Below a statement a node is numbered right after what is below it, so the
numbers climb in the order in which a walk leaves the nodes. The numbers that no node keeps are
those of a matrix that became the left side of an assignment, and of the word `import`.
-/

namespace MFile

def WalkEvent.left? : WalkEvent → Option Node
  | .leave _ node _ => some node
  | .enter .. => none

namespace Node

/-- The numbers of the nodes of a tree, in the order in which a walk leaves them. -/
def exits (node : Node) : List NodeId := ((node.walk none .root).filterMap WalkEvent.left?).map id

theorem exits_eq (node : Node) : node.exits = node.children.flatMap (·.2.exits) ++ [node.id] := by
  have hwalk : ∀ (node : Node) parent relation,
      (node.walk parent relation).filterMap WalkEvent.left? =
        node.children.flatMap (fun c => (c.2.walk (some node) c.1).filterMap WalkEvent.left?) ++
          [node] := by
    intro node parent relation
    have henter : WalkEvent.left? (.enter relation node parent) = none := rfl
    have hleave : [WalkEvent.leave relation node parent].filterMap WalkEvent.left? = [node] := rfl
    rw [walk_eq, List.filterMap_cons_none henter, List.filterMap_append, List.filterMap_flatMap,
      hleave]
  rw [exits, hwalk, List.map_append, List.map_flatMap]
  refine congrArg (· ++ [node.id]) (congrArg (List.flatMap · node.children) (funext fun c => ?_))
  rw [exits, hwalk, hwalk]

theorem exits_perm (node : Node) : node.exits.Perm (node.nodes.map id) := by
  rw [exits_eq, nodes_eq, List.map_cons, List.map_flatMap]
  refine List.perm_append_singleton _ _ |>.trans (.cons _ ?_)
  exact List.Perm.flatMap_left _ fun c hc => exits_perm c.2
termination_by sizeOf node
decreasing_by exact sizeOf_lt_of_mem_children hc

def isMultiAssign : Node → Bool
  | stmt (.multiAssign ..) => true
  | _ => false

/-- How many numbers have been given out for the parts of a node and are not in the tree. -/
def discards (node : Node) : Nat :=
  2 * node.isMultiAssign.toNat + (node.bodies.map importCommands).sum

attribute [simp] isMultiAssign discards

def discarded (node : Node) : Nat := node.total discards

theorem discarded_eq (node : Node) :
    node.discarded = node.discards + (node.children.map (·.2.discarded)).sum :=
  total_eq _ _

theorem exits_name (n : Name) : (expr (.name n)).exits = (name n).exits := by
  rw [exits_eq, exits_eq]
  rfl

theorem discarded_name (n : Name) : (expr (.name n)).discarded = (name n).discarded := by
  rw [discarded_eq, discarded_eq]
  rfl

theorem exits_sublist {node d : Node} (h : d ∈ node.nodes) : d.exits.Sublist node.exits := by
  rw [nodes_eq, List.mem_cons, List.mem_flatMap] at h
  rcases h with rfl | ⟨c, hc, hd⟩
  · exact .refl _
  · rw [exits_eq node]
    refine (exits_sublist hd).trans (.trans ?_ (List.sublist_append_left _ _))
    exact List.sublist_flatten_of_mem (List.mem_map_of_mem (f := fun c : Child => c.2.exits) hc)
termination_by sizeOf node
decreasing_by exact sizeOf_lt_of_mem_children hc

end Node

@[simp] theorem map_children {α : Type} (r : Relation) (node : α → Node) (as : List α) :
    as.map ((fun c : Node.Child => c.2) ∘ fun a => (r, node a)) = as.map node :=
  rfl

/-! ## Numbers that climb -/

/-- The numbers from `m` up to `n`, but for `lost` of them, one after the other. -/
structure Climbs (m n lost : Nat) (ids : List Nat) : Prop where
  sorted : ids.Pairwise (· < ·)
  bounds : ∀ i ∈ ids, m ≤ i ∧ i < n
  count : m + ids.length + lost = n

namespace Climbs

variable {m k n lost lost' : Nat} {ids ids' : List Nat}

theorem nil (m : Nat) : Climbs m m 0 [] := ⟨.nil, fun _ h => absurd h List.not_mem_nil, rfl⟩

theorem single (m : Nat) : Climbs m (m + 1) 0 [m] :=
  ⟨List.pairwise_singleton _ _,
    List.forall_mem_singleton.2 ⟨Nat.le_refl _, Nat.lt_succ_self _⟩, rfl⟩

theorem append (h : Climbs m k lost ids) (h' : Climbs k n lost' ids') :
    Climbs m n (lost + lost') (ids ++ ids') := by
  have hmk := h.count
  have hkn := h'.count
  refine ⟨List.pairwise_append.2 ⟨h.sorted, h'.sorted, fun i hi j hj => ?_⟩, fun i hi => ?_, ?_⟩
  · exact (h.bounds i hi).2.trans_le (h'.bounds j hj).1
  · rcases List.mem_append.1 hi with hi | hi
    · exact ⟨(h.bounds i hi).1, (h.bounds i hi).2.trans_le (by omega)⟩
    · exact ⟨Nat.le_trans (by omega) (h'.bounds i hi).1, (h'.bounds i hi).2⟩
  · rw [List.length_append]
    omega

theorem skip (h : Climbs m n lost ids) : Climbs m (n + 1) (lost + 1) ids := by
  refine ⟨h.sorted,
    fun i hi => ⟨(h.bounds i hi).1, (h.bounds i hi).2.trans (Nat.lt_succ_self _)⟩, ?_⟩
  have hcount := h.count
  omega

theorem drop_last {i : Nat} (h : Climbs m n lost (ids ++ [i])) : Climbs m n (lost + 1) ids := by
  refine ⟨(List.pairwise_append.1 h.sorted).1,
    fun j hj => h.bounds j (List.mem_append_left _ hj), ?_⟩
  have hcount := h.count
  rw [List.length_append, List.length_singleton] at hcount
  omega

end Climbs

/-- The nodes have the numbers from `m` up to `n`, in the order in which a walk leaves what is below
them, but for `lost` numbers and those that are discarded below. -/
def Numbers (m n lost : Nat) (nodes : List Node) : Prop :=
  Climbs m n (lost + (nodes.map Node.discarded).sum) (nodes.flatMap Node.exits)

namespace Numbers

variable {m k n lost lost' : Nat} {nodes nodes' : List Node} {node : Node}

theorem nil (m : Nat) : Numbers m m 0 [] := Climbs.nil m

theorem le (h : Numbers m n lost nodes) : m ≤ n := by
  have hcount := Climbs.count h
  omega

theorem append (h : Numbers m k lost nodes) (h' : Numbers k n lost' nodes') :
    Numbers m n (lost + lost') (nodes ++ nodes') := by
  rw [Numbers, List.map_append, List.sum_append, List.flatMap_append, Nat.add_add_add_comm]
  exact Climbs.append h h'

theorem close_after {f : List Node} (h : Numbers m n lost (f ++ nodes))
    (hchildren : node.children.map (·.2) = nodes) (hdiscards : node.discards = lost)
    (hid : node.id = n) : Numbers m (n + 1) 0 (f ++ [node]) := by
  have hbelow : node.discarded = lost + (nodes.map Node.discarded).sum := by
    rw [Node.discarded_eq, hdiscards, ← hchildren, List.map_map]
    rfl
  have hexits : node.exits = nodes.flatMap Node.exits ++ [n] := by
    rw [Node.exits_eq, hid, ← hchildren, List.flatMap_map]
  have hbefore : Climbs m n (lost + ((f ++ nodes).map Node.discarded).sum)
      ((f ++ nodes).flatMap Node.exits) := h
  have hclosed := hbefore.append (.single n)
  rw [List.map_append, List.sum_append, List.flatMap_append] at hclosed
  rw [Numbers, List.map_append, List.sum_append, List.map_singleton, List.sum_singleton,
    List.flatMap_append, List.flatMap_singleton, hbelow, hexits, ← List.append_assoc]
  convert hclosed using 1
  omega

theorem close (h : Numbers m n lost nodes) (hchildren : node.children.map (·.2) = nodes)
    (hdiscards : node.discards = lost) (hid : node.id = n) : Numbers m (n + 1) 0 [node] :=
  close_after (f := []) h hchildren hdiscards hid

theorem names_iff {xs : List Name} : Numbers m n lost ((xs.map Expr.name).map .expr) ↔
    Numbers m n lost (xs.map .name) := by
  simp only [Numbers, List.map_map, List.flatMap_map, Function.comp_def, Node.exits_name,
    Node.discarded_name]

theorem name_iff {x : Name} : Numbers m n lost [.expr (.name x)] ↔ Numbers m n lost [.name x] :=
  @names_iff _ _ _ [x]

theorem leaf (hchildren : node.children = []) (hdiscards : node.discards = 0)
    (hid : node.id = m) : Numbers m (m + 1) 0 [node] :=
  (nil m).close (by rw [hchildren]; rfl) hdiscards hid

theorem eq_of_leaf (h : Numbers m n 0 [node]) (hchildren : node.children = [])
    (hdiscards : node.discards = 0) : n = m + 1 := by
  have hcount := Climbs.count h
  rw [List.flatMap_singleton, Node.exits_eq, List.map_singleton, List.sum_singleton,
    Node.discarded_eq, hchildren, hdiscards] at hcount
  exact hcount.symm

theorem after_skip (h : Numbers (m + 1) n lost nodes) : Numbers m n (lost + 1) nodes := by
  have hskip := (Climbs.nil m).skip.append h
  rwa [Numbers, Nat.add_right_comm, Nat.add_comm _ 1]

theorem elements {site : Site} {row : Row}
    (h : Numbers m n 0 [.expr (.matrix site [row])]) : Numbers m n 2 (row.items.map .expr) := by
  have hexits : (Node.expr (.matrix site [row])).exits =
      (row.items.map Node.expr).flatMap Node.exits ++ [row.site.id] ++ [site.id] := by
    rw [Node.exits_eq]
    refine congrArg (· ++ [site.id]) ?_
    simp only [Node.children, Node.exprChildren, Node.rows, List.map_singleton,
      List.flatMap_singleton]
    rw [Node.exits_eq, List.flatMap_map]
    refine congrArg (· ++ [row.site.id]) ?_
    simp only [Node.children, Node.exprs, List.flatMap_map]
  have hdiscarded : (Node.expr (.matrix site [row])).discarded =
      ((row.items.map Node.expr).map Node.discarded).sum := by
    have hrow : (Node.row row).discarded = ((row.items.map Node.expr).map Node.discarded).sum := by
      rw [Node.discarded_eq]
      simp [Function.comp_def]
    rw [Node.discarded_eq, ← hrow]
    simp
  rw [Numbers, List.map_singleton, List.sum_singleton, List.flatMap_singleton, hexits, hdiscarded,
    Nat.zero_add] at h
  rw [Numbers, Nat.add_comm]
  exact h.drop_last.drop_last

end Numbers

/-! ## What a tree takes -/

def InOrder (body : List Stmt) : Prop := ((body.map Node.stmt).flatMap Node.exits).Pairwise (· < ·)

abbrev Share := Multiset NodeId × Nat × Multiset (List Stmt)

namespace Node

def share (node : Node) : Share := ({node.id}, node.discards, node.bodies)

def shares (node : Node) : Share := node.total share

theorem shares_eq (node : Node) :
    node.shares = node.share + (node.children.map fun c => c.2.shares).sum :=
  total_eq share node

theorem sum_share (nodes : List Node) : (nodes.map share).sum =
    (↑(nodes.map id), (nodes.map discards).sum, ↑(nodes.flatMap bodies)) := by
  induction nodes with
  | nil => rfl
  | cons node nodes ih =>
    rw [List.map_cons, List.sum_cons, ih, share, Prod.mk_add_mk, Prod.mk_add_mk,
      Multiset.singleton_add, Multiset.cons_coe, Multiset.coe_add, List.map_cons, List.map_cons,
      List.sum_cons, List.flatMap_cons]

theorem stmts_sublist {node : Node} {body : List Stmt} (h : body ∈ node.bodies) :
    (body.map stmt).Sublist (node.children.map (·.2)) := by
  cases node with
  | unit u =>
    cases u with
    | script site ss fs =>
      obtain rfl := List.mem_singleton.1 h
      simp
    | _ => cases h
  | function f =>
    obtain rfl := List.mem_singleton.1 h
    have hbody := (List.sublist_append_left (f.body.map stmt) (f.nested.map function)).trans
      (List.sublist_append_right (f.validation.map block) _)
    simpa using hbody.cons (signature f.signature)
  | action c | arm c =>
    obtain rfl := List.mem_singleton.1 h
    simp
  | stmt s =>
    cases s with
    | parFor site var range workers ss =>
      obtain rfl := List.mem_singleton.1 h
      have hbody := List.sublist_append_right (workers.toList.map expr) (body.map stmt)
      simpa using (hbody.cons (expr range)).cons (name var)
    | tryCatch site ss var handler =>
      rcases List.mem_cons.1 h with rfl | h
      · simp
      · obtain rfl := Option.mem_toList.1 h
        simp
    | forLoop | whileLoop | spmd =>
      obtain rfl := List.mem_singleton.1 h
      simp
    | _ => cases h
  | _ => cases h

theorem mem_bodies_of_child {node : Node} {r : Relation} {s : Stmt}
    (h : (r, stmt s) ∈ node.children) : ∃ body ∈ node.bodies, s ∈ body := by
  have hname : ∀ n : Name, (r, stmt s) ∉ nameChildren n := by
    intro n
    cases n <;> simp
  cases node with
  | unit u =>
    cases u with
    | script site ss fs => simpa using (show s ∈ ss ∧ _ by simpa using h).1
    | _ => simp at h
  | function f => simpa using (show s ∈ f.body ∧ _ by simpa using h).1
  | action c | arm c => simpa using (show s ∈ c.body ∧ _ by simpa using h).1
  | block b =>
    obtain ⟨item, -, hitem⟩ : ∃ item ∈ b.items, ofItem item = (r, stmt s) := by simpa using h
    cases item <;> cases hitem
  | stmt s' =>
    cases s' with
    | tryCatch site ss var handler =>
      have hs : s ∈ ss ∧ Relation.body = r ∨ s ∈ handler.getD [] ∧ Relation.handler = r := by
        simpa using h
      rcases hs with hs | hs
      · exact ⟨ss, List.mem_cons_self, hs.1⟩
      · cases handler with
        | none => simp at hs
        | some handler => exact ⟨handler, by simp, hs.1⟩
    | forLoop site var range ss | parFor site var range workers ss | whileLoop site guard ss
    | spmd site options ss => simpa using (show s ∈ ss ∧ _ by simpa using h).1
    | _ => simp at h
  | name n => exact absurd h (hname n)
  | expr e =>
    cases e with
    | name n => exact absurd h (hname n)
    | _ => simp at h
  | _ => simp at h

theorem mem_bodies_of_nodes {root : Node} {s : Stmt} (h : stmt s ∈ root.nodes) :
    root = stmt s ∨ ∃ d ∈ root.nodes, ∃ body ∈ d.bodies, s ∈ body := by
  rw [nodes_eq, List.mem_cons, List.mem_flatMap] at h
  refine h.imp Eq.symm ?_
  rintro ⟨⟨r, c⟩, hc, hs⟩
  rw [nodes_eq]
  rcases mem_bodies_of_nodes hs with hchild | ⟨d, hd, hbody⟩
  · rw [show c = stmt s from hchild] at hc
    exact ⟨root, List.mem_cons_self, mem_bodies_of_child hc⟩
  · exact ⟨d, List.mem_cons_of_mem _ (List.mem_flatMap.2 ⟨_, hc, hd⟩), hbody⟩
termination_by sizeOf root
decreasing_by exact sizeOf_lt_of_mem_children hc

theorem inOrder_of_exits {node d : Node} {body : List Stmt} (h : node.exits.Pairwise (· < ·))
    (hd : d ∈ node.nodes) (hbody : body ∈ d.bodies) : InOrder body := by
  refine h.sublist (.trans ?_ (exits_sublist hd))
  rw [exits_eq, ← List.flatMap_map (f := fun c : Child => c.2)]
  exact ((stmts_sublist hbody).flatMap exits).trans (List.sublist_append_left _ _)

end Node

def sharesOf {α : Type} (node : α → Node) (as : List α) : Share :=
  (as.map fun a => (node a).shares).sum

section SharesOf

variable {α : Type} {node : α → Node}

@[simp] theorem sharesOf_nil : sharesOf node [] = 0 := rfl

@[simp] theorem sharesOf_cons (a : α) (as : List α) :
    sharesOf node (a :: as) = (node a).shares + sharesOf node as := by
  rw [sharesOf, List.map_cons, List.sum_cons, sharesOf]

@[simp] theorem sharesOf_append (as as' : List α) :
    sharesOf node (as ++ as') = sharesOf node as + sharesOf node as' := by
  rw [sharesOf, List.map_append, List.sum_append, sharesOf, sharesOf]

@[simp] theorem sum_shares (r : Relation) (as : List α) :
    (as.map ((fun c : Node.Child => c.2.shares) ∘ fun a => (r, node a))).sum = sharesOf node as :=
  rfl

end SharesOf

/-- The numbers from `m` up to `n` are those of the share, but for what is discarded, and each of
its lists of statements is in order. -/
structure Takes (m n : Nat) (w : Share) : Prop where
  climb : ∃ ids : List NodeId, (ids : Multiset NodeId) = w.1 ∧ Climbs m n w.2.1 ids
  inOrder : ∀ body ∈ w.2.2, InOrder body

namespace Takes

variable {m k n : Nat} {w w' : Share} {nodes : List Node}

theorem le (h : Takes m n w) : m ≤ n := by
  obtain ⟨ids, -, hclimb⟩ := h.climb
  have hcount := hclimb.count
  omega

theorem zero (m : Nat) : Takes m m 0 :=
  ⟨⟨[], rfl, .nil m⟩, fun _ h => absurd h (Multiset.notMem_zero _)⟩

theorem single (m : Nat) : Takes m (m + 1) ({m}, 0, 0) :=
  ⟨⟨[m], rfl, .single m⟩, fun _ h => absurd h (Multiset.notMem_zero _)⟩

theorem add (h : Takes m k w) (h' : Takes k n w') : Takes m n (w + w') := by
  obtain ⟨ids, hids, hclimb⟩ := h.climb
  obtain ⟨ids', hids', hclimb'⟩ := h'.climb
  refine ⟨⟨ids ++ ids', ?_, hclimb.append hclimb'⟩, fun body hbody => ?_⟩
  · rw [← Multiset.coe_add, hids, hids']
    rfl
  · exact (Multiset.mem_add.1 hbody).elim (h.inOrder body) (h'.inOrder body)

theorem body {ss : List Stmt} (h : Takes m n w) (hss : InOrder ss) :
    Takes m n (w + (0, 0, {ss})) := by
  refine ⟨?_, fun body hbody => ?_⟩
  · rw [Prod.fst_add, Prod.snd_add, Prod.fst_add, add_zero, add_zero]
    exact h.climb
  · rw [Prod.snd_add, Prod.snd_add, Multiset.mem_add, Multiset.mem_singleton] at hbody
    rcases hbody with hbody | rfl
    · exact h.inOrder body hbody
    · exact hss

end Takes

theorem Numbers.takes {m n lost : Nat} {nodes : List Node} (h : Numbers m n lost nodes) :
    Takes m n (sharesOf (fun node => node) nodes + (0, lost, 0)) := by
  have hsum : ∀ nodes : List Node, sharesOf (fun node => node) nodes =
      (↑(nodes.flatMap Node.exits), (nodes.map Node.discarded).sum,
        ↑(nodes.flatMap fun node => node.nodes.flatMap Node.bodies)) := by
    intro nodes
    induction nodes with
    | nil => rfl
    | cons node nodes ih =>
      have hexits : (↑(node.nodes.map Node.id) : Multiset NodeId) = ↑node.exits :=
        Multiset.coe_eq_coe.2 node.exits_perm.symm
      rw [sharesOf_cons, ih, Node.shares, Node.total, Node.sum_share, hexits, Prod.mk_add_mk,
        Prod.mk_add_mk, Multiset.coe_add, Multiset.coe_add]
      rfl
  rw [hsum, Prod.mk_add_mk, Prod.mk_add_mk, add_zero, add_zero, Nat.add_comm]
  refine ⟨⟨_, rfl, h⟩, fun body hbody => ?_⟩
  obtain ⟨node, hnode, hbody⟩ := List.mem_flatMap.1 (Multiset.mem_coe.1 hbody)
  obtain ⟨d, hd, hbody⟩ := List.mem_flatMap.1 hbody
  refine Node.inOrder_of_exits (h.sorted.sublist ?_) hd hbody
  exact List.sublist_flatten_of_mem (List.mem_map_of_mem hnode)

end MFile
