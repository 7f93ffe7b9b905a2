import RegularLanguages.Automaton.Reachable
import RegularLanguages.Automaton.Subsets
import RegularLanguages.Partition
/-!
# Merging states and minimal automata

States of a deterministic automaton that no word tells apart are merged. A missing edge counts as
an edge to a sink, a state after all others that is not final and has no edges; the empty word
counts as one more symbol. A class is led by its least state.
-/

namespace RegularLanguages.Automaton

variable (A : Automaton)

/-- The labels that tell states apart. -/
def labels : List Label := .epsilon :: A.alphabet.toList.map .symbol

/-- The state that stands for missing edges. -/
def sink : State := A.size

/-- Where `q` moves on `l`, the sink if there is no edge. -/
def successor (q : State) (l : Label) : State := (A.targets q l).min?.getD A.sink

/-- The coarsest partition of the states and the sink that keeps final states apart from the others
and that every label respects. -/
def classes : Partition (A.size + 1) :=
  (Partition.byKey _ fun q => decide (q ∈ A.finals)).settle fun q => A.labels.map (A.successor q)

/-- The leaders of the classes that hold a state. The sink comes last, so it leads no such class. -/
def leaders (P : Partition (A.size + 1)) : List State :=
  A.states.filter fun q => P.leader q = q

def className : List State → StateName
  | [q] => A.name q
  | qs => .merge (qs.map A.name)

def quotient : Automaton :=
  let P := A.classes
  let leaders := A.leaders P
  let members := leaders.map fun h => A.states.filter fun q => P.leader q = h
  let classOf q := leaders.idxOf? (P.leader q)
  { names := (members.map A.className).toArray
    alphabet := A.alphabet
    transitions := .ofEdges <| leaders.zipIdx.flatMap fun (h, i) =>
      A.labels.filterMap fun l => do
        guard (l ≠ .epsilon ∨ (A.transitions.get? h l).isSome)
        return (i, l, ← classOf (A.successor h l))
    initial := A.initial.bind classOf
    finals := .ofList <| members.zipIdx.filterMap fun (qs, i) =>
      if qs.any (· ∈ A.finals) then some i else none }

/-- Merges the states that no word tells apart. -/
def mergeEquivalent : Except Error Automaton :=
  if A.isDeterministic then .ok A.quotient else .error .notDeterministic

/-- A smallest deterministic automaton for the same words. -/
def minimize : Except Error Automaton := do
  let B ← A.determinize
  let B ← B.reachablePart
  B.livePart.mergeEquivalent

end RegularLanguages.Automaton
