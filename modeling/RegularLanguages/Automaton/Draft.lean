import RegularLanguages.Automaton.Basic
/-!
# Drafting an automaton by name

A draft takes symbols, states and edges one at a time, by name, and refuses what does not fit what
it has. A refused request leaves the draft as it was. Beside the automaton it keeps an index from
texts to states; a text names at most one state.
-/

namespace RegularLanguages

structure Draft where
  automaton : Automaton
  index : SortedMap String State

namespace Draft

def empty : Draft := ⟨default, ∅⟩

instance : Inhabited Draft := ⟨empty⟩

variable (D : Draft)

def addSymbol (c : Char) : Except Error Draft := do
  let s ← Symbol.ofChar c
  return { D with automaton := D.automaton.addSymbols (.singleton s) }

/-- The state called `name`, which is new if there is none yet. -/
def intern (name : String) : State × Draft :=
  match D.index.get? name with
  | some q => (q, D)
  | none =>
    let q := D.automaton.size
    (q, ⟨D.automaton.addState (.atom name) false, D.index.insert name q⟩)

/-- Adds a state, or marks one that is there. Marks are set and never cleared, and only one request
for an initial state is granted. -/
def addState (name : String) (isInitial isFinal : Bool) : Except Error Draft :=
  match isInitial, D.automaton.initial with
  | true, some q => .error (.duplicateInitialState (D.automaton.name q).text name)
  | _, _ =>
    let (q, D) := D.intern name
    let A := D.automaton
    .ok { D with
      automaton := { A with
        initial := if isInitial then some q else A.initial
        finals := if isFinal then A.finals.insert q else A.finals } }

def state (name : String) : Except Error State :=
  match D.index.get? name with
  | some q => .ok q
  | none => .error (.unknownState name)

/-- The label that `c` stands for, if edges can carry it. -/
def label (c : Char) : Except Error Label :=
  match Label.ofChar? c with
  | some .epsilon => .ok .epsilon
  | some (.symbol s) =>
    if s ∈ D.automaton.alphabet then .ok (.symbol s) else .error (.unknownSymbol c)
  | none => .error (.unknownSymbol c)

/-- Adds an edge between two states; of several faults the source is named first, then the target,
then the label. -/
def addEdge (src : String) (c : Char) (dst : String) : Except Error Draft := do
  let p ← D.state src
  let q ← D.state dst
  let l ← D.label c
  return { D with automaton := D.automaton.addEdge (p, l, q) }

def addEpsilonEdge (src dst : String) : Except Error Draft := D.addEdge src epsilonChar dst

end Draft

end RegularLanguages
