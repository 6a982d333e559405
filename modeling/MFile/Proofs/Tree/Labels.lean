import MFile.Proofs.Text.Quoted
import MFile.Proofs.Tree.Contents

/-!
Labels stay on their line. A label is the name of a kind and what the node says, and some nodes are
labelled with the names below them; so if nothing that is said in a tree breaks a line, no label of
its nodes does.
-/

namespace MFile

open Text

def Stmt.shell? : Stmt → Option String
  | .shell _ text => some text
  | _ => none

def Terminal.text? : Terminal → Option String
  | .word text | .operator text | .number text | .charArray text | .string text
  | .keyword text => some text
  | .sign _ => none

theorem UnaryOp.unbroken_symbol (op : UnaryOp) : Unbroken op.symbol :=
  .of_all (by cases op <;> decide)

theorem BinaryOp.unbroken_symbol (op : BinaryOp) : Unbroken op.symbol :=
  .of_all (by cases op <;> decide)

namespace Node

variable {node : Node}

/-- What the node says stays on a line, and so does the command that it hands to the shell. -/
structure StaysOnLine (node : Node) : Prop where
  contents : ∀ x ∈ node.contents, ∀ text ∈ x.text?, Unbroken text
  shell : ∀ s, node = .stmt s → ∀ text ∈ s.shell?, Unbroken text

theorem unbroken_kindName (node : Node) : Unbroken node.kindName := by
  cases node with
  | unit n | stmt n | name n =>
    cases n <;>
      simp only [kindName, FileUnit.kindName, Stmt.kindName, Name.kindName] <;> exact .of_all rfl
  | block b =>
    rw [kindName]
    cases b.kind <;> simp only [BlockKind.nodeName] <;> exact .of_all rfl
  | action c | arm c =>
    rw [kindName]
    split <;> exact .of_all rfl
  | expr e =>
    cases e with
    | name n => cases n <;> simp only [kindName, Expr.kindName, Name.kindName] <;> exact .of_all rfl
    | _ =>
      simp only [kindName, Expr.kindName]
      exact .of_all rfl
  | _ =>
    rw [kindName]
    exact .of_all rfl

theorem StaysOnLine.word {text : String} (h : node.StaysOnLine)
    (htext : .word text ∈ node.contents) : Unbroken text :=
  h.contents _ htext _ rfl

theorem unbroken_identifier (site : Site) {text : String}
    (h : ∀ x ∈ nameContents (.identifier site text), ∀ text ∈ x.text?, Unbroken text) :
    Unbroken text := by
  by_cases htext : text = "~"
  · subst htext
    exact .of_all rfl
  · rw [nameContents, if_neg htext] at h
    exact h _ (List.mem_singleton_self _) _ rfl

theorem unbroken_dotted (n : Name) (h : ∀ d ∈ (name n).nodes, d.StaysOnLine) :
    ∀ text ∈ n.dotted?, Unbroken text := by
  intro text htext
  have hself := h _ (mem_nodes_self _)
  cases n with
  | identifier site text' =>
    cases htext
    exact unbroken_identifier site hself.contents
  | selection site base field =>
    obtain ⟨front, hfront, rfl⟩ := Option.map_eq_some_iff.1 htext
    have hbase : ∀ d ∈ (name base).nodes, d.StaysOnLine := fun d hd =>
      h d (mem_nodes_iff.2 (.inr ⟨(.base, name base), List.mem_singleton_self _, hd⟩))
    exact ((unbroken_dotted base hbase front hfront).append (.of_all rfl)).append
      (hself.word (List.mem_singleton_self _))
  | _ => cases htext

theorem unbroken_nameDetail {n : Name}
    (h : ∀ x ∈ nameContents n, ∀ text ∈ x.text?, Unbroken text) :
    ∀ text ∈ nameDetail? n, Unbroken text := by
  intro text htext
  cases n with
  | identifier site text' =>
    cases htext
    exact unbroken_identifier site h
  | selection site base field =>
    cases htext
    exact Unbroken.append (.of_all rfl) (h _ (List.mem_singleton_self _) _ rfl)
  | _ => cases htext

theorem unbroken_detail (h : ∀ d ∈ node.nodes, d.StaysOnLine) :
    ∀ text ∈ node.detail?, Unbroken text := by
  have hself := h _ (mem_nodes_self _)
  have hbelow : ∀ {node' : Node}, node' ∈ node.nodes → ∀ d ∈ node'.nodes, d.StaysOnLine :=
    fun hnode d hd => h d (nodes_trans hnode hd)
  have hchild : ∀ {r : Relation} {node' : Node}, (r, node') ∈ node.children →
      node' ∈ node.nodes :=
    fun hc => mem_nodes_iff.2 (.inr ⟨_, hc, mem_nodes_self _⟩)
  intro text htext
  cases node with
  | function f =>
    refine unbroken_dotted f.signature.name (hbelow ?_) text htext
    exact nodes_trans (hchild List.mem_cons_self)
      (mem_nodes_iff.2 (.inr ⟨(.name, name f.signature.name), by simp, mem_nodes_self _⟩))
  | signature s =>
    exact unbroken_dotted s.name (hbelow (hchild (r := .name) (by simp))) text htext
  | definition c => exact unbroken_dotted c.name (hbelow (hchild List.mem_cons_self)) text htext
  | property p => exact unbroken_dotted p.name (hbelow (hchild List.mem_cons_self)) text htext
  | event e => exact unbroken_dotted e.name (hbelow (hchild List.mem_cons_self)) text htext
  | enumerator e => exact unbroken_dotted e.name (hbelow (hchild List.mem_cons_self)) text htext
  | attr a =>
    cases htext
    refine Unbroken.append ?_ (hself.word (List.mem_singleton_self _))
    split <;> exact .of_all rfl
  | stmt s =>
    cases s with
    | importNames site chain =>
      cases htext
      exact hself.contents _ (List.mem_singleton_self _) _ rfl
    | shell site command =>
      cases htext
      exact hself.shell _ rfl _ rfl
    | _ => cases htext
  | expr e =>
    cases e with
    | name n => exact unbroken_nameDetail hself.contents text htext
    | number site value =>
      cases htext
      exact hself.contents _ (List.mem_singleton_self _) _ rfl
    | charArray site value | string site value =>
      cases htext
      exact .enquote (by decide) (hself.contents _ (List.mem_singleton_self _) _ rfl)
    | unary site op operand =>
      cases htext
      exact UnaryOp.unbroken_symbol op
    | binary site op lhs rhs =>
      cases htext
      exact BinaryOp.unbroken_symbol op
    | _ => cases htext
  | name n => exact unbroken_nameDetail hself.contents text htext
  | _ => cases htext

theorem unbroken_label (h : ∀ d ∈ node.nodes, d.StaysOnLine) : Unbroken node.label := by
  rw [label]
  split
  · rename_i detail hdetail
    exact (node.unbroken_kindName.append (.of_all rfl)).append (unbroken_detail h _ hdetail)
  · exact node.unbroken_kindName

end Node

end MFile
