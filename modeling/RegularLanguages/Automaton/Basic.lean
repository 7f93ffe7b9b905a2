import RegularLanguages.Automaton.Transitions
import RegularLanguages.StateName
/-!
# Finite automata

An automaton, deterministic or not, has its states in a list; inside, a state is its place in that
list, outside it is known by the text of its name. Where several states show one name, the name
means the first of them.
-/

namespace RegularLanguages

structure Automaton where
  names : Array StateName
  alphabet : SortedSet Symbol
  transitions : Transitions
  initial : Option State
  finals : SortedSet State

namespace Automaton

def empty (alphabet : SortedSet Symbol) : Automaton := ⟨#[], alphabet, ∅, none, ∅⟩

instance : Inhabited Automaton := ⟨empty ∅⟩

variable (A : Automaton)

def size : Nat := A.names.size

def states : List State := List.range A.size

def name (q : State) : StateName := A.names[q]?.getD default

def targets (q : State) (l : Label) : SortedSet State := A.transitions.targets q l

def edges : List Edge := A.transitions.edges

/-- Adds a state at the end; it gets the number `A.size`. -/
def addState (n : StateName) (isFinal : Bool) : Automaton :=
  { A with
    names := A.names.push n
    finals := if isFinal then A.finals.insert A.size else A.finals }

def addEdge (e : Edge) : Automaton := { A with transitions := A.transitions.addEdge e }

def addEdges (es : List Edge) : Automaton := { A with transitions := A.transitions.addEdges es }

/-- Some state of a set is final. -/
def meetsFinal (s : SortedSet State) : Bool := s.toList.any (· ∈ A.finals)

/-- The name of the merger of a set of states. -/
def nameOfSet (s : SortedSet State) : StateName := .merge (s.toList.map A.name)

def symbol? (c : Char) : Option Symbol := (Symbol.ofChar? c).filter (· ∈ A.alphabet)

def addSymbols (extra : SortedSet Symbol) : Automaton := { A with alphabet := extra ∪ A.alphabet }

/-! ### Queries by name -/

def find? (s : String) : Option State := A.names.findIdx? (·.hasText s)

def sortNames (ns : List StateName) : List StateName := ns.mergeSort fun m n => (compare m n).isLE

/-- The states in the order of their names; those that show the same name keep their order. -/
def nameOrder : List State := A.states.mergeSort fun p q => (compare (A.name p) (A.name q)).isLE

def stateNames : List StateName := sortNames A.names.toList

def initialName : Option StateName := A.initial.map A.name

def finalNames : List StateName := sortNames (A.finals.toList.map A.name)

def isState (s : String) : Bool := (A.find? s).isSome

/-- The label `c` can be used: it is in the alphabet, or the empty word. -/
def usesSymbol (c : Char) : Bool :=
  match Label.ofChar? c with
  | some .epsilon => true
  | some (.symbol s) => s ∈ A.alphabet
  | none => false

def isInitial (s : String) : Bool := (A.find? s).any fun q => A.initial = some q

def isFinal (s : String) : Bool := (A.find? s).any (· ∈ A.finals)

/-- The names of the targets of a state on a label; a state or label that is not there has none. -/
def targetNames (src : String) (c : Char) : List StateName :=
  match A.find? src, Label.ofChar? c with
  | some q, some l => sortNames ((A.targets q l).toList.map A.name)
  | _, _ => []

def hasEdge (src : String) (c : Char) (dst : String) : Bool :=
  (A.targetNames src c).any (·.hasText dst)

def hasEpsilon : Bool := A.transitions.hasColumn .epsilon

def isComplete : Bool :=
  A.states.all fun q => A.alphabet.toList.all fun s => (A.transitions.get? q (.symbol s)).isSome

end Automaton

end RegularLanguages
