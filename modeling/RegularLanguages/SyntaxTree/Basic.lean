import RegularLanguages.Regex.Basic
/-!
# Syntax trees

The syntax tree of an expression has its nodes numbered in preorder, under a root that stands for
the end of the expression. A unary operator has its operand on the left. Each node knows its climb:
the closest ancestor with the node in its left subtree, which is where reading goes on once the
node has been read. In a node without a right child the climb is its successor in order.
-/

namespace RegularLanguages

abbrev NodeId := Nat

inductive NodeKind
  /-- The end of the expression. -/
  | root
  | symbol (s : Symbol)
  | unary (m : Quantifier)
  | binary (c : Connective)
deriving Repr, DecidableEq

def NodeKind.char : NodeKind → Char
  | root => 'λ'
  | symbol s => s.char
  | unary m => m.char
  | binary c => c.char

structure Node where
  kind : NodeKind
  left : Option NodeId
  right : Option NodeId
  parent : Option NodeId
  climb : Option NodeId
deriving Repr, DecidableEq

/-- The successor in order of a node without a right child, other than the root. -/
def Node.thread (n : Node) : Option NodeId := if n.right.isSome then none else n.climb

/-- The nodes of an expression in preorder, when the first of them is `id`. -/
def Regex.layout (id parent climb : NodeId) : Regex → List Node
  | symbol s => [⟨.symbol s, none, none, parent, climb⟩]
  | unary m e => ⟨.unary m, some (id + 1), none, parent, climb⟩ :: e.layout (id + 1) id id
  | binary c l r =>
    ⟨.binary c, some (id + 1), some (id + 1 + l.size), parent, climb⟩ ::
      (l.layout (id + 1) id id ++ r.layout (id + 1 + l.size) id climb)

structure SyntaxTree where
  nodes : Array Node
deriving Repr, DecidableEq

namespace SyntaxTree

def ofRegex : Option Regex → SyntaxTree
  | none => ⟨#[⟨.root, none, none, none, none⟩]⟩
  | some e => ⟨(⟨.root, some 1, none, none, none⟩ :: e.layout 1 0 0).toArray⟩

def ofNormalized (expr : List Char) : Except ParseError SyntaxTree :=
  ofRegex <$> Regex.parseNormalized expr

def parse (expr : List Char) : Except ParseError SyntaxTree := do
  ofNormalized (← Regex.normalize expr)

variable (t : SyntaxTree)

def root : NodeId := 0

def size : Nat := t.nodes.size

def ids : List NodeId := List.range t.size

def isEmpty : Bool := t.size = 1

def symbol? (id : NodeId) : Option Symbol :=
  match t.nodes[id]? with
  | some ⟨.symbol s, _, _, _, _⟩ => some s
  | _ => none

/-- The leaves from left to right. -/
def leaves : List NodeId := t.ids.filter fun id => (t.symbol? id).isSome

end SyntaxTree

end RegularLanguages
