import RegularLanguages.Automaton.Run
/-!
# Reachable and live states

Which states the initial state reaches, which states reach a final state, and the automaton cut
down to some of its states.
-/

namespace RegularLanguages.Automaton

variable (A : Automaton)

theorem finiteMoves_successors : FiniteMoves A.transitions.successors :=
  ⟨A.edges.map (·.2.2), fun _ _ h =>
    have ⟨_, h⟩ := Transitions.mem_successors.1 h
    List.mem_map.2 ⟨_, Transitions.mem_edges.2 h, rfl⟩⟩

/-- The states reached from `q` on any word. -/
def reach (q : State) : SortedSet State :=
  .ofList (explore A.transitions.successors A.finiteMoves_successors [q])

def sources (es : List Edge) (q : State) : List State :=
  es.filterMap fun e => if e.2.2 = q then some e.1 else none

theorem finiteMoves_sources (es : List Edge) : FiniteMoves (sources es) :=
  ⟨es.map (·.1), fun _ _ h => by
    obtain ⟨e, he, h⟩ := List.mem_filterMap.1 h
    split at h
    · exact List.mem_map.2 ⟨e, he, Option.some.inj h⟩
    · simp at h⟩

/-- The states that reach a final state. -/
def live : SortedSet State :=
  .ofList (explore (sources A.edges) (finiteMoves_sources A.edges) A.finals.toList)

def isEmpty : Bool :=
  match A.initial with
  | some q => (A.reach q).toList.all (· ∉ A.finals)
  | none => true

/-- The automaton with the states of `keep` only, which keep their order, and with the edges among
them. -/
def induce (keep : SortedSet State) : Automaton :=
  let kept := A.states.filter (· ∈ keep)
  { names := (kept.map A.name).toArray
    alphabet := A.alphabet
    transitions := .ofEdges <| A.edges.filterMap fun (s, l, d) => do
      return (← kept.idxOf? s, l, ← kept.idxOf? d)
    initial := A.initial.bind kept.idxOf?
    finals := .ofList (A.finals.toList.filterMap kept.idxOf?) }

def reachablePart : Except Error Automaton :=
  match A.initial with
  | some q => .ok (A.induce (A.reach q))
  | none => .error .noInitialState

/-- Keeps the live states; an initial state that is not live is lost. -/
def livePart : Automaton := A.induce A.live

end RegularLanguages.Automaton
