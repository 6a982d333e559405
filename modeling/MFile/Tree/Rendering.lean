import MFile.Tree.Walk

/-!
Two renderings of a tree: an outline with one line a node, indented by depth, and a graph in the
DOT notation with one box a node, joined to its parent.
-/

namespace MFile

namespace Visit

def outlineLine (v : Visit) : String :=
  String.ofList (List.replicate (2 * v.depth) ' ') ++ v.relation.label ++ ": " ++ v.node.label ++
    "\n"

def dotEscaped (label : String) : String :=
  String.ofList (label.toList.flatMap fun c => if c = '\\' ∨ c = '"' then ['\\', c] else [c])

def dotNode (id : NodeId) : String := "n" ++ toString id

def dotLines (v : Visit) : String :=
  "  " ++ dotNode v.node.id ++ " [label=\"" ++ dotEscaped v.node.label ++ "\"];\n" ++
    v.parent.elim "" fun parent =>
      "  " ++ dotNode parent.id ++ " -> " ++ dotNode v.node.id ++ " [label=\"" ++
        v.relation.label ++ "\"];\n"

end Visit

namespace FileUnit

def outline (unit : FileUnit) : String := String.join ((visits unit.walk).map Visit.outlineLine)

def graph (unit : FileUnit) : String :=
  "digraph ast \x7b\n  node [shape=box];\n" ++
    String.join ((visits unit.walk).map Visit.dotLines) ++ "\x7d\n"

end FileUnit

end MFile
