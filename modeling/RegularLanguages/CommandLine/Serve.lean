import RegularLanguages.Automaton.Minimal
import RegularLanguages.Automaton.Words
import RegularLanguages.Recognizer
import RegularLanguages.StateTable.Export
import RegularLanguages.SyntaxTree.Graph
/-!
# Testing words against an expression

A request has an expression and words. It is answered whether each word is in the language, and if
asked for the syntax tree, the state table and the first words of the language are shown. The exit
code is 0 if every word is accepted, 1 if some word is not, 2 if there is no expression to test.
-/

namespace RegularLanguages.CommandLine

/-- What is asked for. -/
structure Request where
  expr : String
  words : List String
  table : Bool
  minimize : Bool
  generate : Option Nat
  graph : Bool
deriving Repr, DecidableEq

structure Outcome where
  stdout : String
  stderr : String
  code : Nat
deriving Repr, DecidableEq

def isAccepted (A : Automaton) (word : String) : Bool :=
  match A.accepts word with
  | .ok accepted => accepted
  | .error _ => false

def verdictLine (A : Automaton) (word : String) : String :=
  (if isAccepted A word then "accept " else "reject ") ++ Text.quote word ++ "\n"

def failure (message : String) : Outcome := ⟨"", message ++ "\n", 2⟩

/-- Tests the words of a request on the automaton that it asks for. -/
def answer (r : Request) (tree : SyntaxTree) (A : Automaton) : Outcome where
  stdout :=
    (if r.graph then tree.toGraph else "") ++ (if r.table then A.draw else "") ++
      (match r.generate with
        | some n => String.join ((A.firstWords n).map fun w => Text.quote w ++ "\n")
        | none => "") ++
      String.join (r.words.map (verdictLine A))
  stderr := ""
  code := if r.words.all (isAccepted A) then 0 else 1

def serve (r : Request) : Outcome :=
  match Recognizer.compile r.expr with
  | .error e => failure ("invalid regular expression " ++ Text.quote r.expr ++ ": " ++ e.message)
  | .ok regex =>
    if r.minimize then
      match regex.automaton.minimize with
      | .ok A => answer r regex.tree A
      | .error e => failure ("failed to minimize: " ++ e.message)
    else answer r regex.tree regex.automaton

end RegularLanguages.CommandLine
