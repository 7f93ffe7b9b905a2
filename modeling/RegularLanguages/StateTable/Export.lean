import RegularLanguages.Automaton.Basic
import RegularLanguages.StateTable.Basic
/-!
# Automata as state tables

The first cell of a row names its state, with the mark `*` if it is final and then the mark `->` if
it is initial; the others list the targets on the label of their column, `-` for none. The initial
state comes first, then the other states that are not final, then the final ones, each group by
name. There is a column for the empty word only if some edge carries it.
-/

namespace RegularLanguages

namespace StateTable

def cornerCell : String := "δ"

def startMark : List Char := ['-', '>']

def acceptMark : List Char := ['*']

def dashCell : List Char := ['-']

end StateTable

namespace Automaton

variable (A : Automaton)

def tableLabels : List Label :=
  (if A.hasEpsilon then [.epsilon] else []) ++ A.alphabet.toList.map .symbol

/-- The states in the order of their rows. -/
def tableOrder : List State :=
  let others := A.nameOrder.filter fun q => A.initial ≠ some q
  A.initial.toList ++ others.filter (· ∉ A.finals) ++ others.filter (· ∈ A.finals)

def markedName (q : State) : List Char :=
  (if q ∈ A.finals then StateTable.acceptMark else []) ++
    (if A.initial = some q then StateTable.startMark else []) ++ (A.name q).chars

/-- The targets of a state on a label, in the order of their names. -/
def targetCell (q : State) (l : Label) : List Char :=
  match (sortNames ((A.targets q l).toList.map A.name)).map StateName.chars with
  | [] => StateTable.dashCell
  | names => [','].intercalate names

def toTable : StateTable where
  rows :=
    (StateTable.cornerCell :: A.tableLabels.map fun l => String.singleton l.char) ::
      A.tableOrder.map fun q =>
        String.ofList (A.markedName q) ::
          A.tableLabels.map fun l => String.ofList (A.targetCell q l)

def draw : String := A.toTable.draw

instance : ToString Automaton := ⟨draw⟩

end Automaton

end RegularLanguages
