import RegularLanguages.Automaton.Draft
import RegularLanguages.StateTable.Export
import RegularLanguages.Text.Blank
/-!
# Reading a state table

Columns under a blank header are left out, and a row that is too short has no targets in the rest.
All states are declared before any target is read. Cells are trimmed.
-/

namespace RegularLanguages.StateTable

open Text

/-- What a row declares: a name and its marks. -/
structure Declaration where
  name : List Char
  isInitial : Bool
  isFinal : Bool
deriving Repr, DecidableEq

/-- Takes the marks off a row label, each of them once, in either order. -/
def readMarks (isInitial isFinal : Bool) : List Char → Declaration
  | '-' :: '>' :: cs =>
    if isInitial then ⟨trim ('-' :: '>' :: cs), true, isFinal⟩ else readMarks true isFinal cs
  | '*' :: cs =>
    if isFinal then ⟨trim ('*' :: cs), isInitial, true⟩ else readMarks isInitial true cs
  | cs => ⟨trim cs, isInitial, isFinal⟩

example : readMarks false false "->*q".toList = ⟨['q'], true, true⟩ := by cbv

/-- The depth of brackets after `c`; a closing bracket without an opening one does not count. -/
def bracketDepth (depth : Nat) (c : Char) : Nat :=
  if c = '[' then depth + 1 else if c = ']' then depth - 1 else depth

/-- Splits at the commas outside brackets. -/
def splitOutside (depth : Nat) : List Char → List (List Char)
  | [] => [[]]
  | c :: cs =>
    if c = ',' ∧ depth = 0 then [] :: splitOutside depth cs
    else
      match splitOutside (bracketDepth depth c) cs with
      | [] => [[c]]
      | part :: parts => (c :: part) :: parts

example : splitOutside 0 "a,[b,c]".toList = ["a".toList, "[b,c]".toList] := by rfl

/-- The targets that a cell lists. A cell that is the name of a declared state is that state alone,
so that names with commas in them can be told from lists. -/
def readTargets (declared : List (List Char)) (cell : List Char) : List (List Char) :=
  if cell ∈ declared then [cell]
  else ((splitOutside 0 cell).map trim).filter fun target => !target.isEmpty

/-- The columns read so far, by place and label, and a draft with their symbols. -/
structure Header where
  columns : List (Nat × Char)
  draft : Draft

def Header.read (h : Header) (i : Nat) (cell : String) : Except Error Header :=
  match trim cell.toList with
  | [] => .ok h
  | [c] => do
    if h.columns.any (·.2 = c) then throw (.duplicateSymbol c)
    let D ← if c = epsilonChar then .ok h.draft else h.draft.addSymbol c
    return ⟨h.columns ++ [(i, c)], D⟩
  | cs => .error (.malformedTable (.longHeaderCell (String.ofList cs)))

def readHeader (header : List String) : Except Error Header :=
  (header.zipIdx.drop 1).foldlM (fun h (cell, i) => h.read i cell) ⟨[], .empty⟩

/-- The names declared so far, and a draft with their states. -/
structure Declared where
  names : List (List Char)
  draft : Draft

def Declared.read (d : Declared) (row : List String) : Except Error Declared := do
  let label := trim (row.headD "").toList
  let ⟨name, isInitial, isFinal⟩ := readMarks false false label
  if name.isEmpty then throw (.malformedTable (.namelessRow (String.ofList label)))
  if name ∈ d.names then throw (.duplicateState (String.ofList name))
  return ⟨d.names ++ [name], ← d.draft.addState (String.ofList name) isInitial isFinal⟩

def rowTargets (declared : List (List Char)) (row : List String) (i : Nat) : List (List Char) :=
  let cell := match row[i]? with
    | some cell => trim cell.toList
    | none => dashCell
  if cell.isEmpty ∨ cell = dashCell then [] else readTargets declared cell

def listedEdges (columns : List (Nat × Char)) (declared : List (List Char))
    (body : List (List String)) : List (String × Char × String) :=
  (body.zip declared).flatMap fun (row, src) =>
    columns.flatMap fun (i, c) =>
      (rowTargets declared row i).map fun dst => (String.ofList src, c, String.ofList dst)

def toAutomaton (t : StateTable) : Except Error Automaton :=
  match t.rows with
  | [] => .error (.malformedTable .noHeader)
  | header :: body => do
    let h ← readHeader header
    let d ← body.foldlM Declared.read ⟨[], h.draft⟩
    let D ← (listedEdges h.columns d.names body).foldlM
      (fun D (src, c, dst) => D.addEdge src c dst) d.draft
    if D.automaton.initial.isNone then throw .noInitialState
    return D.automaton

end RegularLanguages.StateTable
