import RegularLanguages.MoveSystem
import RegularLanguages.SyntaxTree.Steps
/-!
# The automaton of a syntax tree

The compositions of a tree are the states of a deterministic automaton: reading a symbol moves all
leaves of a composition that carry it at once.
-/

namespace RegularLanguages.SyntaxTree

variable (t : SyntaxTree)

/-- What can be read before anything has been. -/
def initialComposition : Composition := t.composition [(root, .down)]

/-- What can be read after each leaf. -/
def followSets : SortedMap NodeId Composition :=
  .ofList (t.leaves.map fun p => (p, t.composition (t.steps (p, .up))))

/-- The expression may end here. -/
def mayEnd (c : Composition) : Bool := root ∈ c

def alphabet : SortedSet Symbol := .ofList (t.leaves.filterMap t.symbol?)

/-- The compositions after the leaves of `c` that carry `s`. -/
def followers (follow : SortedMap NodeId Composition) (c : Composition) (s : Symbol) :
    List Composition :=
  c.toList.filterMap fun p => if t.symbol? p = some s then follow.get? p else none

theorem mem_of_mem_followers {follow : SortedMap NodeId Composition} {c d : Composition}
    {s : Symbol} (h : d ∈ t.followers follow c s) : d ∈ follow.toList.map (·.2) := by
  obtain ⟨p, _, hp⟩ := List.mem_filterMap.1 h
  split at hp
  · exact List.mem_map.2 ⟨(p, d), SortedMap.mem_toList.2 hp, rfl⟩
  · simp at hp

def compositions : MoveSystem Composition :=
  let follow := t.followSets
  { alphabet := t.alphabet
    start := t.initialComposition
    move := fun c s =>
      match t.followers follow c s with
      | [] => none
      | ds => some (.ofList (ds.flatMap SortedSet.toList))
    isFinal := mayEnd
    finite := ⟨SortedSet.subsets (follow.toList.flatMap (·.2.toList)), fun c s d h => by
      split at h
      · simp at h
      · rw [← Option.some.inj h]
        refine SortedSet.mem_subsets fun p hp => ?_
        obtain ⟨d, hd, hp⟩ := List.mem_flatMap.1 (SortedSet.mem_ofList.1 hp)
        obtain ⟨e, he, rfl⟩ := List.mem_map.1 (t.mem_of_mem_followers hd)
        exact List.mem_flatMap.2 ⟨e, he, hp⟩⟩ }

/-- The automaton whose states are the compositions, numbered as they are found. -/
def toAutomaton : Automaton := t.compositions.toAutomaton fun i _ => .numbered i

end RegularLanguages.SyntaxTree
