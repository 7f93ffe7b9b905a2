/-!
# Operators of regular expressions
-/

namespace RegularLanguages

inductive Quantifier
  | star
  | plus
  | optional
deriving Repr, DecidableEq

def Quantifier.char : Quantifier → Char
  | star => '*'
  | plus => '+'
  | optional => '?'

def Quantifier.ofChar? (c : Char) : Option Quantifier :=
  if c = '*' then some .star else if c = '+' then some .plus else if c = '?' then some .optional
  else none

inductive Connective
  | union
  | concat
deriving Repr, DecidableEq

def Connective.char : Connective → Char
  | union => '|'
  | concat => '.'

inductive Operator
  | connective (c : Connective)
  | quantifier (m : Quantifier)
deriving Repr, DecidableEq

namespace Operator

def char : Operator → Char
  | connective c => c.char
  | quantifier m => m.char

def ofChar? (c : Char) : Option Operator :=
  if c = '|' then some (.connective .union)
  else if c = '.' then some (.connective .concat)
  else (Quantifier.ofChar? c).map .quantifier

/-- How tightly an operator binds, the loosest first. -/
def precedence : Operator → Nat
  | connective .union => 0
  | connective .concat => 1
  | quantifier _ => 2

end Operator

end RegularLanguages
