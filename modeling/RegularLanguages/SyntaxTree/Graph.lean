import RegularLanguages.SyntaxTree.Basic
/-!
# Syntax trees as graphs

A tree in the notation of graph drawing programs: its nodes, solid edges to children, dotted edges
to threads.
-/

namespace RegularLanguages.SyntaxTree

variable (t : SyntaxTree)

def nodeName (id : NodeId) : String := "n" ++ toString id

def nodeLines : List String :=
  t.nodes.toList.zipIdx.map fun (n, id) =>
    nodeName id ++ " [label=\"" ++ String.singleton n.kind.char ++ "\"];"

def childLines : List String :=
  t.nodes.toList.zipIdx.flatMap fun (n, id) =>
    (n.left.toList ++ n.right.toList).map fun child =>
      nodeName id ++ " -> " ++ nodeName child ++ ";"

def threadLines : List String :=
  t.nodes.toList.zipIdx.flatMap fun (n, id) =>
    n.thread.toList.map fun target =>
      nodeName id ++ " -> " ++ nodeName target ++ " [style=dotted];"

def toGraph : String :=
  "digraph \x7b\n" ++
    String.join ((t.nodeLines ++ t.childLines ++ t.threadLines).map fun s => "    " ++ s ++ "\n") ++
    "\x7d\n"

end RegularLanguages.SyntaxTree
