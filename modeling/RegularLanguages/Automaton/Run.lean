import RegularLanguages.Automaton.Basic
import RegularLanguages.Search
/-!
# Runs

An automaton reads a word by keeping the set of states it can be in. Such a set is closed under
edges on the empty word.
-/

namespace RegularLanguages.Automaton

variable (A : Automaton)

theorem finiteMoves_targets (l : Label) : FiniteMoves fun q => (A.targets q l).toList :=
  ⟨A.edges.map (·.2.2), fun _ _ h => List.mem_map.2 ⟨_, Transitions.mem_edges.2 h, rfl⟩⟩

/-- The states that a set reaches on the empty word. -/
def closure (s : SortedSet State) : SortedSet State :=
  .ofList (explore (fun q => (A.targets q .epsilon).toList) (A.finiteMoves_targets _) s.toList)

/-- The states that a set reaches on one symbol. -/
def step (s : SortedSet State) (x : Symbol) : SortedSet State :=
  A.closure (s.flatMap (A.targets · (.symbol x)))

/-- Reading a word from a set of states ends with a final state among them. -/
def acceptsFrom (s : SortedSet State) : List Char → Bool
  | [] => A.meetsFinal s
  | c :: cs =>
    match A.symbol? c with
    | some x => acceptsFrom (A.step s x) cs
    | none => false

def accepts (w : String) : Except Error Bool :=
  match A.initial with
  | some q => .ok (A.acceptsFrom (A.closure (.singleton q)) w.toList)
  | none => .error .noInitialState

/-- The names of the states that `s` reaches on the empty word, equal names once. -/
def epsilonClosure (s : String) : Except Error (List StateName) :=
  match A.find? s with
  | some q => .ok (((A.closure (.singleton q)).toList.map A.name).foldr insertSorted [])
  | none => .error (.unknownState s)

/-- No state reaches more than one other state on the empty word, and a state that has edges on a
symbol has one way only to use it, its reach on the empty word counted. -/
def isDeterministic : Bool :=
  A.states.all fun q =>
    let spread := (A.closure (.singleton q)).size - 1
    spread ≤ 1 && A.alphabet.toList.all fun x =>
      let exits := (A.targets q (.symbol x)).size
      exits = 0 || exits + spread ≤ 1

end RegularLanguages.Automaton
