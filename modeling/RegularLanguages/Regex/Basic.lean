import RegularLanguages.Regex.Normal
/-!
# Regular expressions

A normalized expression is read by splitting it at its loosest operator outside parentheses, the
leftmost of them.
-/

namespace RegularLanguages

/-- A regular expression other than the empty one. -/
inductive Regex
  | symbol (s : Symbol)
  | unary (m : Quantifier) (e : Regex)
  | binary (c : Connective) (l r : Regex)
deriving Repr, DecidableEq

namespace Regex

def size : Regex → Nat
  | symbol _ => 1
  | unary _ e => e.size + 1
  | binary _ l r => l.size + r.size + 1

/-- The operators outside parentheses, with their places. -/
def outerOperators (depth place : Nat) : List Char → List (Operator × Nat)
  | [] => []
  | c :: cs =>
    if c = '(' then outerOperators (depth + 1) (place + 1) cs
    else if c = ')' then outerOperators (depth - 1) (place + 1) cs
    else
      match Operator.ofChar? c with
      | some op =>
        if depth = 0 then (op, place) :: outerOperators depth (place + 1) cs
        else outerOperators depth (place + 1) cs
      | none => outerOperators depth (place + 1) cs

/-- The leftmost of the loosest operators. -/
def loosest? : List (Operator × Nat) → Option (Operator × Nat)
  | [] => none
  | p :: ps =>
    match loosest? ps with
    | some q => if q.1.precedence < p.1.precedence then some q else some p
    | none => some p

/-- The operator at which an expression is split, with its place. -/
def splitPoint? (expr : List Char) : Option (Operator × Nat) := loosest? (outerOperators 0 0 expr)

example : splitPoint? "a.(b|c)|d".toList = some (.connective .union, 7) := by rfl

theorem place_lt_of_mem_outerOperators {depth place : Nat} {expr : List Char} {p : Operator × Nat}
    (h : p ∈ outerOperators depth place expr) : p.2 < place + expr.length := by
  induction expr generalizing depth place with
  | nil => simp [outerOperators] at h
  | cons c cs ih =>
    have step {d : Nat} (h : p ∈ outerOperators d (place + 1) cs) :
        p.2 < place + (c :: cs).length := by
      have := ih h
      simp only [List.length_cons]
      omega
    rw [outerOperators] at h
    split at h
    · exact step h
    · split at h
      · exact step h
      · split at h
        · split at h
          · rcases List.mem_cons.1 h with rfl | h
            · simp
            · exact step h
          · exact step h
        · exact step h

theorem mem_of_loosest? {ps : List (Operator × Nat)} {p : Operator × Nat}
    (h : loosest? ps = some p) : p ∈ ps := by
  induction ps with
  | nil => simp [loosest?] at h
  | cons q ps ih => grind [loosest?]

theorem place_lt_of_splitPoint? {expr : List Char} {op : Operator} {place : Nat}
    (h : splitPoint? expr = some (op, place)) : place < expr.length := by
  simpa using place_lt_of_mem_outerOperators (mem_of_loosest? h)

def inner? : List Char → Option (List Char)
  | '(' :: rest => if rest.getLast? = some ')' then some rest.dropLast else none
  | _ => none

theorem length_lt_of_inner? {expr inner : List Char} (h : inner? expr = some inner) :
    inner.length < expr.length := by
  unfold inner? at h
  split at h
  · split at h
    · cases h
      simp only [List.length_dropLast, List.length_cons]
      omega
    · cases h
  · cases h

def atom (offset : Nat) : List Char → Except ParseError Regex
  | [c] =>
    match Symbol.ofChar? c with
    | some s => .ok (.symbol s)
    | none => .error (.invalidSymbol c offset)
  | _ => .error (.unbalancedOperators offset)

/-- Reads a normalized expression that starts at `offset`. -/
def parse (offset : Nat) (expr : List Char) : Except ParseError Regex :=
  match h : splitPoint? expr with
  | some (.connective c, place) =>
    if place = 0 ∨ place + 1 = expr.length then .error (.unbalancedOperators (offset + place))
    else do
      let l ← parse offset (expr.take place)
      let r ← parse (offset + place + 1) (expr.drop (place + 1))
      return .binary c l r
  | some (.quantifier m, place) =>
    if place = 0 ∨ place + 1 ≠ expr.length then .error (.unbalancedOperators (offset + place))
    else return .unary m (← parse offset (expr.take place))
  | none =>
    match h : inner? expr with
    | some inner => parse (offset + 1) inner
    | none => atom offset expr
termination_by expr.length
decreasing_by
  · have := place_lt_of_splitPoint? h
    simp only [List.length_take]
    omega
  · have := place_lt_of_splitPoint? h
    simp only [List.length_drop]
    omega
  · have := place_lt_of_splitPoint? h
    simp only [List.length_take]
    omega
  · exact length_lt_of_inner? h

def parseNormalized (expr : List Char) : Except ParseError (Option Regex) :=
  if expr.isEmpty then .ok none else some <$> parse 0 expr

end Regex

end RegularLanguages
