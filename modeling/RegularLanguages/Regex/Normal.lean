import RegularLanguages.Regex.Operator
import RegularLanguages.Symbol
/-!
# Normalized expressions

Normalizing checks an expression from left to right, writes the mark `.` between operands that are
to be concatenated, and leaves one quantifier of each run: the one that is repeated, or `*` if
different ones are stacked.
-/

namespace RegularLanguages

/-- Why a text is no regular expression, and where, in characters from its start. -/
inductive ParseError
  | invalidSymbol (token : Char) (position : Nat)
  | unbalancedParentheses (position : Nat)
  | unbalancedOperators (position : Nat)
deriving Repr, DecidableEq

def ParseError.message : ParseError → String
  | invalidSymbol token position =>
    "invalid symbol " ++ Text.quoteChar token ++ " at position " ++ toString position
  | unbalancedParentheses position => "unbalanced parentheses at position " ++ toString position
  | unbalancedOperators position => "unbalanced operators at position " ++ toString position

namespace Regex

/-- What has been written, the last character first, and the number of open parentheses. -/
structure Scan where
  written : List Char
  depth : Nat
deriving Repr, DecidableEq

namespace Scan

variable (s : Scan)

/-- An operator that follows would lack its left operand. -/
def lacksOperand : Bool :=
  match s.written with
  | [] => true
  | p :: _ => p = '(' || p = '|'

/-- An operand that follows is concatenated to one that is complete. -/
def endsOperand : Bool :=
  match s.written with
  | [] => false
  | p :: _ => p = ')' || (Quantifier.ofChar? p).isSome || Symbol.isValid p

def write (c : Char) : Scan := { s with written := c :: s.written }

/-- Writes a quantifier, or changes the one that it is stacked on. -/
def writeQuantifier (m : Quantifier) : Scan :=
  match s.written with
  | [] => s.write m.char
  | p :: rest =>
    match Quantifier.ofChar? p with
    | some n => { s with written := (if n = m then m.char else '*') :: rest }
    | none => s.write m.char

def read (position : Nat) (c : Char) : Except ParseError Scan :=
  if c = '(' ∨ Symbol.isValid c then
    let s := if s.endsOperand then s.write '.' else s
    .ok { s.write c with depth := if c = '(' then s.depth + 1 else s.depth }
  else if c = ')' then
    if s.depth = 0 then .error (.unbalancedParentheses position)
    else if s.lacksOperand then .error (.unbalancedOperators position)
    else .ok { s.write c with depth := s.depth - 1 }
  else if c = '|' then
    if s.lacksOperand then .error (.unbalancedOperators position) else .ok (s.write c)
  else
    match Quantifier.ofChar? c with
    | some m =>
      if s.lacksOperand then .error (.unbalancedOperators position) else .ok (s.writeQuantifier m)
    | none => .error (.invalidSymbol c position)

def readAll (position : Nat) (s : Scan) : List Char → Except ParseError Scan
  | [] => .ok s
  | c :: cs => do readAll (position + 1) (← s.read position c) cs

/-- What has been written, if the expression may end here. -/
def finish (position : Nat) : Except ParseError (List Char) :=
  if 0 < s.depth then .error (.unbalancedParentheses position)
  else if s.written.head? = some '|' then .error (.unbalancedOperators position)
  else .ok s.written.reverse

end Scan

def normalize (expr : List Char) : Except ParseError (List Char) := do
  (← Scan.readAll 0 ⟨[], 0⟩ expr).finish expr.length

example : normalize "ab*?|(c)d".toList = .ok "a.b*|(c).d".toList := by rfl

example : normalize "a|)".toList = .error (.unbalancedParentheses 2) := by rfl

end Regex

end RegularLanguages
