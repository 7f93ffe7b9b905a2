import RegularLanguages.Automaton.Run
/-!
# Systems of moves

A system of moves reads a word deterministically: each configuration has at most one move on each
symbol. If only finitely many configurations are ever moved to, it unfolds into an automaton
whose states are the configurations that moves reach from the start, numbered in breadth-first
order, symbols in order.
-/

namespace RegularLanguages

structure MoveSystem (σ : Type) where
  alphabet : SortedSet Symbol
  start : σ
  move : σ → Symbol → Option σ
  isFinal : σ → Bool
  /-- Moves lead to finitely many configurations. -/
  finite : ∃ all : List σ, ∀ x s y, move x s = some y → y ∈ all

namespace MoveSystem

variable {σ : Type} (M : MoveSystem σ)

/-- The configurations that one move reaches, in the order of the symbols. -/
def next (x : σ) : List σ := M.alphabet.toList.filterMap (M.move x)

theorem finiteMoves_next : FiniteMoves M.next :=
  M.finite.imp fun _ h x y hy =>
    have ⟨s, _, hs⟩ := List.mem_filterMap.1 hy
    h x s y hs

variable [DecidableEq σ]

/-- The configurations that moves reach from the start, in breadth-first order. -/
def reachable : List σ := explore M.next M.finiteMoves_next [M.start]

/-- The edges between numbered configurations. -/
def edges (configs : List σ) : List Edge :=
  configs.zipIdx.flatMap fun (x, i) =>
    M.alphabet.toList.filterMap fun s => do
      return (i, .symbol s, ← configs.idxOf? (← M.move x s))

/-- The automaton of the reachable configurations; `name` names a state by its number and its
configuration. -/
def toAutomaton (name : Nat → σ → StateName) : Automaton :=
  let configs := M.reachable
  { names := (configs.zipIdx.map fun (x, i) => name i x).toArray
    alphabet := M.alphabet
    transitions := .ofEdges (M.edges configs)
    initial := some 0
    finals := .ofList <| configs.zipIdx.filterMap fun (x, i) =>
      if M.isFinal x then some i else none }

end MoveSystem

end RegularLanguages
