import RegularLanguages.Text.Ranges
/-!
# Blank characters

The characters that separate words in text: Unicode property `White_Space`. A zero-width space and
a byte order mark are not among them.
-/

namespace RegularLanguages.Text

def blankRanges : List (Nat × Nat) :=
  [(0x09, 0x0D), (0x20, 0x20), (0x85, 0x85), (0xA0, 0xA0), (0x1680, 0x1680), (0x2000, 0x200A),
    (0x2028, 0x2029), (0x202F, 0x202F), (0x205F, 0x205F), (0x3000, 0x3000)]

def isBlank (c : Char) : Bool := inRanges blankRanges c

def trim (s : List Char) : List Char := ((s.dropWhile isBlank).reverse.dropWhile isBlank).reverse

example : trim " a b\t\n".toList = "a b".toList := by decide

example : isBlank '\u200B' = false := by decide

end RegularLanguages.Text
