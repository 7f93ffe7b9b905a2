import RegularLanguages.Sorted.Set
/-!
# Names of states

A state is named by a text, or by the set of states it was merged from. What counts is the displayed
text, `[a,b]` for the merger of `a` and `b`: names compare, and are equal, as their texts do.

`StateName.chars` gives the text by recursion on the name. `StateName.spelling` spells it out one
character at a time from a stack of what is still to be shown, and is what comparisons read; the two
agree (`spelling_eq_chars`).
-/

namespace RegularLanguages

/-- The name of a state. The members of a merged name are in order, without repetition. -/
inductive StateName
  | atom (text : String)
  | group (members : List StateName)
deriving Repr, Inhabited

namespace StateName

/-- The `k`-th of the names that new states get. -/
def numbered (k : Nat) : StateName := atom ("q" ++ toString k)

mutual

/-- The displayed text. -/
def chars : StateName → List Char
  | atom text => text.toList
  | group members => '[' :: charsOf members

/-- Members with commas between them, and the closing bracket. -/
def charsOf : List StateName → List Char
  | [] => [']']
  | n :: ns => n.chars ++ tailChars ns

/-- The same for members that follow another one. -/
def tailChars : List StateName → List Char
  | [] => [']']
  | n :: ns => ',' :: n.chars ++ tailChars ns

end

def text (n : StateName) : String := String.ofList n.chars

instance : ToString StateName := ⟨text⟩

inductive Pending
  | name (n : StateName)
  | text (cs : List Char)
  | members (ns : List StateName) (started : Bool)

mutual

/-- Bounds the steps that showing a name takes. -/
def weight : StateName → Nat
  | atom text => text.toList.length + 2
  | group members => weightOf members + 1

def weightOf : List StateName → Nat
  | [] => 1
  | n :: ns => n.weight + weightOf ns + 1

end

def Pending.weight : Pending → Nat
  | name n => n.weight
  | text cs => cs.length + 1
  | members ns _ => weightOf ns

def spell : List Pending → List Char
  | [] => []
  | .name (atom text) :: stack => spell (.text text.toList :: stack)
  | .name (group members) :: stack => '[' :: spell (.members members false :: stack)
  | .text [] :: stack => spell stack
  | .text (c :: cs) :: stack => c :: spell (.text cs :: stack)
  | .members [] _ :: stack => ']' :: spell stack
  | .members (n :: ns) false :: stack => spell (.name n :: .members ns true :: stack)
  | .members (n :: ns) true :: stack => ',' :: spell (.name n :: .members ns true :: stack)
termination_by stack => stack.foldr (fun f n => f.weight + n) 0
decreasing_by all_goals simp [Pending.weight, weight, weightOf] <;> omega

/-- The displayed text, spelled out from a stack. -/
def spelling (n : StateName) : List Char := spell [.name n]

instance : BEq StateName := ⟨fun m n => m.spelling == n.spelling⟩

instance : Ord StateName := ⟨compareOn spelling⟩

instance : Std.TransOrd StateName := inferInstanceAs (Std.TransCmp (compareOn spelling))

def hasText (n : StateName) (s : String) : Bool := n.spelling == s.toList

/-- The name of the state that stands for all of `names`. -/
def merge (names : List StateName) : StateName := group (names.foldr insertSorted [])

example : (merge [atom "q1", atom "q0", atom "q1"]).chars = "[q0,q1]".toList := by cbv

def Pending.chars : Pending → List Char
  | name n => n.chars
  | text cs => cs
  | members ns false => charsOf ns
  | members ns true => tailChars ns

theorem spell_eq_flatMap (stack : List Pending) : spell stack = stack.flatMap Pending.chars := by
  fun_induction spell stack with
  | case6 started => cases started <;> simp_all [Pending.chars, charsOf, tailChars]
  | _ => simp_all [Pending.chars, StateName.chars, charsOf, tailChars]

theorem spelling_eq_chars (n : StateName) : n.spelling = n.chars := by
  simp [spelling, spell_eq_flatMap, Pending.chars]

theorem compare_def (m n : StateName) : compare m n = compare m.chars n.chars := by
  change compare m.spelling n.spelling = _
  rw [spelling_eq_chars, spelling_eq_chars]

theorem beq_iff {m n : StateName} : (m == n) = true ↔ m.chars = n.chars := by
  change (m.spelling == n.spelling) = true ↔ _
  rw [spelling_eq_chars, spelling_eq_chars, beq_iff_eq]

theorem text_inj {m n : StateName} : m.text = n.text ↔ m.chars = n.chars := String.ofList_inj

theorem hasText_iff {n : StateName} {s : String} : n.hasText s = true ↔ n.text = s := by
  rw [hasText, spelling_eq_chars, beq_iff_eq, text, ← String.toList_inj, String.toList_ofList]

theorem text_numbered (k : Nat) : (numbered k).text = "q" ++ toString k := by
  rw [text, numbered, chars, String.ofList_toList]

/-- Numbered names are told apart by their texts. -/
theorem text_numbered_injective {j k : Nat} (h : (numbered j).text = (numbered k).text) :
    j = k := by
  rw [text_numbered, text_numbered] at h
  have hdigits := congrArg String.toList ((String.append_right_inj "q").1 h)
  rw [Nat.toString_eq_repr, Nat.toString_eq_repr, Nat.toList_repr, Nat.toList_repr] at hdigits
  rw [← Nat.ofDigitChars_ten_toDigits (n := j), hdigits, Nat.ofDigitChars_ten_toDigits]

end StateName

end RegularLanguages
