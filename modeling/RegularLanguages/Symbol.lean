import RegularLanguages.Error
/-!
# Symbols and labels

A symbol is a lower-case letter or a digit of ASCII. A label of an edge is a symbol or the empty
word, which is written `&` and comes before every symbol.
-/

namespace RegularLanguages

/-- The character that stands for the empty word. -/
def epsilonChar : Char := '&'

structure Symbol where
  char : Char
  valid : (char.isLower || char.isDigit) = true
deriving Repr, DecidableEq

namespace Symbol

def isValid (c : Char) : Bool := c.isLower || c.isDigit

def ofChar? (c : Char) : Option Symbol := if h : isValid c then some ⟨c, h⟩ else none

def ofChar (c : Char) : Except Error Symbol :=
  match ofChar? c with
  | some s => .ok s
  | none => .error (.invalidSymbol c)

theorem char_injective {s t : Symbol} (h : s.char = t.char) : s = t := by
  cases s; cases t; cases h; rfl

@[simp] theorem ofChar?_char (s : Symbol) : ofChar? s.char = some s := dif_pos s.valid

theorem char_of_ofChar? {c : Char} {s : Symbol} (h : ofChar? c = some s) : s.char = c := by
  unfold ofChar? at h
  split at h <;> simp_all
  rw [← h]

instance : Ord Symbol := ⟨compareOn Symbol.char⟩

instance : Std.TransOrd Symbol := inferInstanceAs (Std.TransCmp (compareOn Symbol.char))

instance : Std.LawfulEqOrd Symbol where
  eq_of_compare {s t} (h : compare s.char t.char = .eq) :=
    char_injective (Std.compare_eq_iff_eq.1 h)
  compare_self := Std.ReflCmp.compare_self

theorem char_ne_epsilonChar (s : Symbol) : s.char ≠ epsilonChar := fun h => by
  have := s.valid
  rw [h] at this
  exact absurd this (by decide)

end Symbol

inductive Label
  | epsilon
  | symbol (s : Symbol)
deriving Repr, DecidableEq

namespace Label

def symbol? : Label → Option Symbol
  | epsilon => none
  | symbol s => some s

def isEpsilon (l : Label) : Bool := l = epsilon

def char : Label → Char
  | epsilon => epsilonChar
  | symbol s => s.char

def ofChar? (c : Char) : Option Label :=
  if c = epsilonChar then some epsilon else (Symbol.ofChar? c).map symbol

def ofChar (c : Char) : Except Error Label :=
  if c = epsilonChar then .ok epsilon else symbol <$> Symbol.ofChar c

theorem symbol?_injective {k l : Label} (h : k.symbol? = l.symbol?) : k = l := by
  cases k <;> cases l <;> simp_all [symbol?]

@[simp] theorem ofChar?_char (l : Label) : ofChar? l.char = some l := by
  cases l with
  | epsilon => rfl
  | symbol s => simp [ofChar?, char, s.char_ne_epsilonChar]

instance : Ord Label := ⟨compareOn Label.symbol?⟩

instance : Std.TransOrd Label := inferInstanceAs (Std.TransCmp (compareOn Label.symbol?))

instance : Std.LawfulEqOrd Label where
  eq_of_compare {k l} (h : compare k.symbol? l.symbol? = .eq) :=
    symbol?_injective (Std.compare_eq_iff_eq.1 h)
  compare_self {l} := (Std.ReflCmp.compare_self : compare l.symbol? l.symbol? = .eq)

end Label

end RegularLanguages
