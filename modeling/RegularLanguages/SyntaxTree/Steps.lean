import RegularLanguages.Search
import RegularLanguages.Sorted.Set
import RegularLanguages.SyntaxTree.Basic
/-!
# Reading along a syntax tree

Reading takes steps through the tree: down into a node that is to be read, up into a node from a
subtree that has been read. What can be read next, the composition, is found by following all such
steps to the leaves, and to the root where the expression may end.
-/

namespace RegularLanguages

/-- How reading comes to a node: up from a subtree that has been read, or down from above. -/
inductive Direction
  | up
  | down
deriving Repr, DecidableEq

abbrev Step := NodeId × Direction

/-- The leaves that can be read next, with the root if the expression may end here. -/
abbrev Composition := SortedSet NodeId

namespace Node

variable (n : Node)

def climbUp : List Step := n.climb.toList.map (·, .up)

def enterLeft : List Step := n.left.toList.map (·, .down)

def enterRight : List Step := n.right.toList.map (·, .down)

/-- Where reading goes on from the node. Up into a union it climbs past the whole union, whichever
side has been read. -/
def steps : Direction → List Step
  | .up =>
    match n.kind with
    | .root => []
    | .symbol _ | .unary .optional | .binary .union => n.climbUp
    | .binary .concat => n.enterRight
    | .unary .star | .unary .plus => n.enterLeft ++ n.climbUp
  | .down =>
    match n.kind with
    | .symbol _ => []
    | .root | .unary .plus | .binary .concat => n.enterLeft
    | .binary .union => n.enterLeft ++ n.enterRight
    | .unary .star | .unary .optional => n.enterLeft ++ n.climbUp

/-- Reading comes to rest: at a leaf that is entered, or at the root, climbed into or without a
child. -/
def isTerminal : Direction → Bool
  | .up => n.kind = .root
  | .down =>
    match n.kind with
    | .symbol _ => true
    | .root => n.left.isNone
    | _ => false

/-- The steps that follow one to the node; none where reading comes to rest. -/
def next (d : Direction) : List Step := if n.isTerminal d then [] else n.steps d

end Node

namespace SyntaxTree

variable (t : SyntaxTree)

def isTerminal (a : Step) : Bool := t.nodes[a.1]?.any (·.isTerminal a.2)

def steps (a : Step) : List Step :=
  match t.nodes[a.1]? with
  | some n => n.steps a.2
  | none => []

/-- The steps that follow one; none where reading comes to rest. -/
def next (a : Step) : List Step :=
  match t.nodes[a.1]? with
  | some n => n.next a.2
  | none => []

theorem finiteMoves_next : FiniteMoves t.next :=
  ⟨t.nodes.toList.flatMap fun n => n.next .up ++ n.next .down, fun (id, d) b h => by
    unfold next at h
    split at h
    · rename_i n hn
      refine List.mem_flatMap.2 ⟨n, ?_, ?_⟩
      · exact Array.mem_toList_iff.2 (Array.mem_of_getElem? hn)
      · cases d <;> simp [h]
    · simp at h⟩

/-- Where reading comes to rest, when it starts with the given steps. -/
def composition (starts : List Step) : Composition :=
  .ofList (((explore t.next t.finiteMoves_next starts).filter t.isTerminal).map (·.1))

end SyntaxTree

end RegularLanguages
