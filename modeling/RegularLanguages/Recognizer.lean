import RegularLanguages.Automaton.Boolean
import RegularLanguages.SyntaxTree.Automaton
/-!
# Recognizers

A recognizer tells the words of a regular expression from the others, by the automaton that the
expression compiles to.
-/

namespace RegularLanguages

/-- An expression with its normalized form, its syntax tree and its deterministic automaton. -/
structure Recognizer where
  source : String
  normalized : String
  tree : SyntaxTree
  automaton : Automaton

namespace Recognizer

def compile (source : String) : Except ParseError Recognizer := do
  let normalized ← Regex.normalize source.toList
  let tree ← SyntaxTree.ofNormalized normalized
  return ⟨source, String.ofList normalized, tree, tree.toAutomaton⟩

instance : ToString Recognizer := ⟨source⟩

variable (r : Recognizer)

/-- The word is in the language of the expression. -/
def accepts (w : String) : Bool :=
  match r.automaton.accepts w with
  | .ok accepted => accepted
  | .error _ => false

def isEquivalent (other : Recognizer) : Except Error Bool :=
  r.automaton.isEquivalent other.automaton

end Recognizer

end RegularLanguages
