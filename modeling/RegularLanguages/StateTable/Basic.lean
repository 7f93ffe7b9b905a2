/-!
# State tables

A state table shows an automaton as rows of cells: a header with a corner cell and one column per
label, then a row per state. This module is about its cells alone: a table is drawn as text with
ruled rows, each column as wide as its widest cell.
-/

namespace RegularLanguages

/-- Rows of cells. The rows may differ in length. -/
structure StateTable where
  rows : List (List String)
deriving Repr, DecidableEq, Inhabited

namespace StateTable

variable (t : StateTable)

def columnCount : Nat := (t.rows.map List.length).foldr max 0

def width (i : Nat) : Nat := (t.rows.map fun row => (row.getD i "").length).foldr max 0

def widths : List Nat := (List.range t.columnCount).map t.width

/-- A line of dashes, as wide as the table. -/
def rule : List Char := List.replicate (t.widths.foldr (· + 3 + ·) 1) '-'

/-- A row as a line: every cell with a bar before it, padded to the width of its column. -/
def line (row : List String) : List Char :=
  (t.widths.zipIdx.flatMap fun (w, i) =>
    let cell := (row.getD i "").toList
    ['|', ' '] ++ cell ++ List.replicate (w - cell.length) ' ' ++ [' ']) ++ ['|']

def lines : List (List Char) := t.rule :: t.rows.flatMap fun row => [t.line row, t.rule]

/-- The table as text, every line ended. -/
def draw : String := String.ofList (t.lines.flatMap (· ++ ['\n']))

example : (mk [["δ", "a"], ["->q"]]).draw =
    "-----------\n| δ   | a |\n-----------\n| ->q |   |\n-----------\n" := by cbv

end StateTable

end RegularLanguages
