import RegularLanguages.Text.Quoted
/-!
# Causes of failure

An operation on automata that fails says why. The wording of every cause is `Error.message`.
-/

namespace RegularLanguages

/-- Why rows of cells do not read as a state table. -/
inductive TableDefect
  | noHeader
  | longHeaderCell (cell : String)
  | namelessRow (label : String)
deriving Repr, DecidableEq

def TableDefect.message : TableDefect → String
  | noHeader => "missing header row"
  | longHeaderCell cell => "header cell " ++ Text.quote cell ++ " is not a single symbol"
  | namelessRow label => "row " ++ Text.quote label ++ " has no state name"

/-- Why an operation on automata fails. -/
inductive Error
  | invalidSymbol (c : Char)
  | duplicateInitialState (existing requested : String)
  | unknownState (name : String)
  | unknownSymbol (c : Char)
  | noInitialState
  | notDeterministic
  | duplicateState (name : String)
  | duplicateSymbol (c : Char)
  | malformedTable (defect : TableDefect)
deriving Repr, DecidableEq

def Error.message : Error → String
  | invalidSymbol c =>
    "invalid symbol " ++ Text.quoteChar c ++ ": symbols must be lowercase letters or digits"
  | duplicateInitialState existing requested =>
    "cannot make " ++ Text.quote requested ++ " initial: " ++ Text.quote existing ++
      " is already the initial state"
  | unknownState name => "unknown state " ++ Text.quote name
  | unknownSymbol c => "symbol " ++ Text.quoteChar c ++ " is not in the alphabet"
  | noInitialState => "automaton has no initial state"
  | notDeterministic => "automaton is not deterministic"
  | duplicateState name => "state " ++ Text.quote name ++ " is declared more than once"
  | duplicateSymbol c => "symbol " ++ Text.quoteChar c ++ " is declared more than once"
  | malformedTable defect => "malformed table: " ++ defect.message

theorem bind_eq_ok {ε α β : Type} {x : Except ε α} {f : α → Except ε β} {b : β} :
    (x >>= f) = .ok b ↔ ∃ a, x = .ok a ∧ f a = .ok b := by
  cases x with
  | error err => simp [bind, Except.bind]
  | ok a => simp [bind, Except.bind]

end RegularLanguages
