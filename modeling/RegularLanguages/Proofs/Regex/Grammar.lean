import Mathlib.Computability.Language
import Mathlib.Order.CompletePartialOrder
import RegularLanguages.Regex.Basic
/-!
# The grammar of expressions

An expression is terms with `|` between them, a term is factors side by side, a factor is an atom with
quantifiers after it, and an atom is a symbol or an expression in parentheses. A phrase is a derivation;
it has a text (what it derives), a language (what it means), a normal text (what normalizing makes of
its text) and a regular expression (what parsing makes of that). The empty text derives from nothing
and is allowed beside the expressions; it means the empty word.
-/

open scoped Computability

namespace RegularLanguages

/-! ### Quantifiers -/

namespace Quantifier

/-- The words of a quantified operand. -/
def apply (L : Language Char) : Quantifier → Language Char
  | star => L∗
  | plus => L * L∗
  | optional => 1 + L

/-- What is left of a quantifier with another one stacked on it. -/
def stack (n m : Quantifier) : Quantifier := if n = m then m else star

/-- The one quantifier that is left of a run. -/
def collapse : List Quantifier → Option Quantifier
  | [] => none
  | m :: ms => some (ms.foldl stack m)

variable {L : Language Char}

theorem le_apply (m : Quantifier) : L ≤ m.apply L := by
  cases m with
  | star => exact le_kstar
  | plus =>
    calc L = L * 1 := (mul_one L).symm
      _ ≤ L * L∗ := mul_le_mul_right one_le_kstar L
  | optional => exact le_add_self

theorem apply_le (m : Quantifier) : m.apply L ≤ L∗ := by
  cases m with
  | star => exact le_rfl
  | plus => exact mul_kstar_le_kstar
  | optional => exact add_le one_le_kstar le_kstar

/-- A quantifier under a star is lost. -/
theorem kstar_apply (m : Quantifier) : (m.apply L)∗ = L∗ := by
  refine le_antisymm ?_ (kstar_mono m.le_apply)
  rw [← kstar_idem L]
  exact kstar_mono m.apply_le

theorem apply_stack (L : Language Char) (n m : Quantifier) :
    (n.stack m).apply L = m.apply (n.apply L) := by
  have hone : 1 + L∗ = L∗ := add_eq_right_iff_le.2 one_le_kstar
  have hopt : (1 + L)∗ = L∗ := kstar_apply (L := L) optional
  have hplus : (L * L∗)∗ = L∗ := kstar_apply (L := L) plus
  cases n <;> cases m
  case star.star => exact (kstar_idem L).symm
  case star.plus =>
    show L∗ = L∗ * L∗∗
    rw [kstar_idem, kstar_mul_kstar]
  case star.optional => exact hone.symm
  case plus.star => exact hplus.symm
  case plus.plus =>
    show L * L∗ = L * L∗ * (L * L∗)∗
    rw [hplus, mul_assoc, kstar_mul_kstar]
  case plus.optional => exact one_add_mul_kstar.symm
  case optional.star => exact hopt.symm
  case optional.plus =>
    show L∗ = (1 + L) * (1 + L)∗
    rw [hopt, add_mul, one_mul]
    exact (add_eq_left_iff_le.2 mul_kstar_le_kstar).symm
  case optional.optional =>
    show 1 + L = 1 + (1 + L)
    rw [← add_assoc, add_idem]

theorem apply_foldl_stack (L : Language Char) (m : Quantifier) (ms : List Quantifier) :
    (ms.foldl stack m).apply L = ms.foldl apply (m.apply L) := by
  induction ms generalizing m with
  | nil => rfl
  | cons n ms ih =>
    rw [List.foldl_cons, List.foldl_cons, ih, apply_stack]

end Quantifier

/-! ### Phrases -/

inductive Category
  | expression
  | term
  | factor
  | atom

/-- How tightly the operators of a category bind at least, outside parentheses. -/
def Category.precedence : Category → Nat
  | expression => 0
  | term => 1
  | factor => 2
  | atom => 3

inductive Phrase : Category → Type
  | symbol (s : Symbol) : Phrase .atom
  | group (e : Phrase .expression) : Phrase .atom
  | factor (a : Phrase .atom) (ms : List Quantifier) : Phrase .factor
  | single (f : Phrase .factor) : Phrase .term
  | juxtapose (f : Phrase .factor) (t : Phrase .term) : Phrase .term
  | lone (t : Phrase .term) : Phrase .expression
  | union (t : Phrase .term) (e : Phrase .expression) : Phrase .expression

namespace Phrase

def text : {c : Category} → Phrase c → List Char
  | _, symbol s => [s.char]
  | _, group e => '(' :: (e.text ++ [')'])
  | _, factor a ms => a.text ++ ms.map Quantifier.char
  | _, single f => f.text
  | _, juxtapose f t => f.text ++ t.text
  | _, lone t => t.text
  | _, union t e => t.text ++ '|' :: e.text

/-- The words that are meant. Quantifiers after an atom are applied one after the other. -/
def language : {c : Category} → Phrase c → Language Char
  | _, symbol s => {[s.char]}
  | _, group e => e.language
  | _, factor a ms => ms.foldl Quantifier.apply a.language
  | _, single f => f.language
  | _, juxtapose f t => f.language * t.language
  | _, lone t => t.language
  | _, union t e => t.language + e.language

/-- The text with concatenation marked and one quantifier left of each run. -/
def normal : {c : Category} → Phrase c → List Char
  | _, symbol s => [s.char]
  | _, group e => '(' :: (e.normal ++ [')'])
  | _, factor a ms => a.normal ++ (Quantifier.collapse ms).toList.map Quantifier.char
  | _, single f => f.normal
  | _, juxtapose f t => f.normal ++ '.' :: t.normal
  | _, lone t => t.normal
  | _, union t e => t.normal ++ '|' :: e.normal

def regex : {c : Category} → Phrase c → Regex
  | _, symbol s => .symbol s
  | _, group e => e.regex
  | _, factor a ms =>
    match Quantifier.collapse ms with
    | none => a.regex
    | some m => .unary m a.regex
  | _, single f => f.regex
  | _, juxtapose f t => .binary .concat f.regex t.regex
  | _, lone t => t.regex
  | _, union t e => .binary .union t.regex e.regex

end Phrase

def Regex.language : Regex → Language Char
  | symbol s => {[s.char]}
  | unary m e => m.apply e.language
  | binary .union l r => l.language + r.language
  | binary .concat l r => l.language * r.language

/-- A text means a language: it derives from the grammar, or it is empty and means the empty word. -/
def Denotes (source : List Char) (L : Language Char) : Prop :=
  (source = [] ∧ L = 1) ∨ ∃ e : Phrase .expression, e.text = source ∧ e.language = L

/-- A text is empty or derives from the grammar. -/
def IsExpression (source : List Char) : Prop :=
  source = [] ∨ ∃ e : Phrase .expression, e.text = source

namespace Phrase

variable {c : Category}

theorem language_regex (p : Phrase c) : p.regex.language = p.language := by
  induction p with
  | symbol s => rfl
  | group e ih => exact ih
  | factor a ms ih =>
    rw [regex, language, ← ih]
    cases ms with
    | nil => rfl
    | cons m ms => exact Quantifier.apply_foldl_stack a.regex.language m ms
  | single f ih => exact ih
  | juxtapose f t ihf iht => rw [regex, Regex.language, language, ihf, iht]
  | lone t ih => exact ih
  | union t e iht ihe => rw [regex, Regex.language, language, iht, ihe]

theorem normal_ne_nil (p : Phrase c) : p.normal ≠ [] := by
  induction p with
  | symbol s => exact List.cons_ne_nil _ _
  | group e _ => exact List.cons_ne_nil _ _
  | factor a ms ih => exact List.append_ne_nil_of_left_ne_nil ih _
  | single f ih => exact ih
  | juxtapose f t ih _ => exact List.append_ne_nil_of_left_ne_nil ih _
  | lone t ih => exact ih
  | union t e ih _ => exact List.append_ne_nil_of_left_ne_nil ih _

end Phrase

end RegularLanguages
