import RegularLanguages.Automaton.Reachable
import RegularLanguages.Automaton.Subsets
/-!
# Boolean operations

Complement, union, intersection and difference of the accepted words, and the test whether two
automata accept the same words. Intersection and difference come from complement and union, after
both operands have been given the symbols of either.
-/

namespace RegularLanguages.Automaton

variable (A B : Automaton)

/-- The first numbered name that no state shows. Among one more names than there are states, one is
not taken. -/
def unusedName : StateName :=
  let isTaken k := A.isState (StateName.numbered k).text
  .numbered (((List.range (A.size + 1)).find? fun k => !isTaken k).getD A.size)

def missing : List (State × Label) :=
  A.states.flatMap fun q => A.alphabet.toList.filterMap fun x =>
    if (A.transitions.get? q (.symbol x)).isSome then none else some (q, .symbol x)

/-- Sends every missing edge to a new state, if one is missing. -/
def addSink : Automaton :=
  if A.missing.isEmpty then A
  else
    let sink := A.size
    (A.addState A.unusedName false).addEdges <|
      A.alphabet.toList.map (fun x => (sink, .symbol x, sink)) ++
        A.missing.map fun (q, l) => (q, l, sink)

/-- An equivalent deterministic automaton with an edge on every symbol from every state. -/
def complete : Except Error Automaton := return (← A.determinize).addSink

def flipFinals : Automaton := { A with finals := .ofList (A.states.filter (· ∉ A.finals)) }

/-- Accepts the words over the alphabet that `A` does not accept. -/
def complement : Except Error Automaton := return (← A.complete).flipFinals

def placedEdges (place : State → State) : List Edge :=
  A.edges.map fun (s, l, d) => (place s, l, place d)

/-- Both operands side by side, each in the order of its names and under new ones, between a new
initial state and a new final state that edges on the empty word join to theirs. -/
def union : Except Error Automaton :=
  match A.initial, B.initial with
  | some p, some q =>
    let orderA := A.nameOrder
    let orderB := B.nameOrder
    let placeA q := 1 + orderA.idxOf q
    let placeB q := 1 + A.size + orderB.idxOf q
    let last := 1 + A.size + B.size
    .ok {
      names := ((List.range (last + 1)).map .numbered).toArray
      alphabet := A.alphabet ∪ B.alphabet
      transitions := .ofEdges <|
        A.placedEdges placeA ++ B.placedEdges placeB ++
          [(0, .epsilon, placeA p), (0, .epsilon, placeB q)] ++
          (A.finals.toList.map placeA ++ B.finals.toList.map placeB).map (·, .epsilon, last)
      initial := some 0
      finals := .singleton last }
  | _, _ => .error .noInitialState

/-- Accepts the words that both accept. -/
def intersection : Except Error Automaton := do
  let left ← (A.addSymbols B.alphabet).complement
  let right ← (B.addSymbols A.alphabet).complement
  (← left.union right).complement

/-- Accepts the words that `A` accepts and `B` does not. -/
def difference : Except Error Automaton := do
  A.intersection (← (B.addSymbols A.alphabet).complement)

def isEquivalent : Except Error Bool := do
  if (← A.difference B).isEmpty then
    return (← B.difference A).isEmpty
  else
    return false

end RegularLanguages.Automaton
