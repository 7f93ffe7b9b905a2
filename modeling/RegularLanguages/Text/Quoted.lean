import RegularLanguages.Text.Ranges
/-!
# Quoted text

Characters and strings as messages show them: between quotes, on one line, with every character
that would be invisible or ambiguous written as an escape. A quote is escaped only inside quotes of
its own kind.
-/

namespace RegularLanguages.Text

/-- Characters without a shape of their own: controls, separators other than the space, format
characters, private use, and combining marks, which would attach to the character before them. -/
def invisibleRanges : List (Nat × Nat) :=
  [(0x00, 0x1F), (0x7F, 0xA0), (0xAD, 0xAD), (0x300, 0x36F), (0x483, 0x489), (0x591, 0x5BD),
    (0x5BF, 0x5BF), (0x5C1, 0x5C2), (0x5C4, 0x5C5), (0x5C7, 0x5C7), (0x600, 0x605), (0x610, 0x61A),
    (0x61C, 0x61C), (0x64B, 0x65F), (0x670, 0x670), (0x6D6, 0x6DD), (0x6DF, 0x6E4), (0x6E7, 0x6E8),
    (0x6EA, 0x6ED), (0x70F, 0x70F), (0x711, 0x711), (0x890, 0x891), (0x8E2, 0x8E2),
    (0x1680, 0x1680), (0x180B, 0x180F), (0x1AB0, 0x1ACE), (0x1DC0, 0x1DFF), (0x2000, 0x200F),
    (0x2028, 0x202F), (0x205F, 0x206F), (0x20D0, 0x20F0), (0x3000, 0x3000), (0x302A, 0x302D),
    (0x3099, 0x309A), (0xE000, 0xF8FF), (0xFE00, 0xFE0F), (0xFE20, 0xFE2F), (0xFEFF, 0xFEFF),
    (0xFFF0, 0xFFFB), (0xFFFE, 0xFFFF), (0x1D165, 0x1D169), (0x1D16D, 0x1D182), (0xE0000, 0x10FFFF)]

def isInvisible (c : Char) : Bool := inRanges invisibleRanges c

/-- One character between two of `mark`; an invisible one is given by its code point. -/
def escape (mark c : Char) : List Char :=
  if c = mark ∨ c = '\\' then ['\\', c]
  else if c = '\n' then ['\\', 'n']
  else if c = '\r' then ['\\', 'r']
  else if c = '\t' then ['\\', 't']
  else if c.toNat = 0 then ['\\', '0']
  else if isInvisible c then ['\\', 'u', '\x7b'] ++ Nat.toDigits 16 c.toNat ++ ['\x7d']
  else [c]

def quoteChar (c : Char) : String := String.ofList (['\''] ++ escape '\'' c ++ ['\''])

def quote (s : String) : String := String.ofList (['"'] ++ s.toList.flatMap (escape '"') ++ ['"'])

example : escape '\'' '\'' = ['\\', '\''] := by decide

example : escape '"' '\u200B' = ['\\', 'u', '\x7b', '2', '0', '0', 'b', '\x7d'] := by decide

end RegularLanguages.Text
