import RegularLanguages.Proofs.SyntaxTree.Growth
/-!
# Expressions in parentheses

No operator of a text in parentheses is outside of them, so parsing strips one pair after the other and then
splits the text inside (`Balanced.parse_wrapped`), also if that has parentheses at both ends itself. So
parentheses around an expression leave no trace in its tree (`tree_of_wrapped`).
-/

namespace RegularLanguages

namespace Regex

/-- The text in `k` pairs of parentheses. -/
def wrapped (k : Nat) (source : List Char) : List Char :=
  List.replicate k '(' ++ source ++ List.replicate k ')'

variable {xs : List Char}

@[simp] theorem wrapped_zero (xs : List Char) : wrapped 0 xs = xs := List.append_nil xs

theorem wrapped_succ (k : Nat) (xs : List Char) :
    wrapped (k + 1) xs = '(' :: (wrapped k xs ++ [')']) := by
  rw [wrapped, wrapped, List.replicate_succ, List.replicate_succ', List.cons_append, List.cons_append,
    List.append_assoc, List.append_assoc, List.append_assoc]

theorem Balanced.wrapped (hx : Balanced xs) (k : Nat) : Balanced (wrapped k xs) := by
  induction k with
  | zero => rwa [wrapped_zero]
  | succ k ih =>
    rw [wrapped_succ]
    exact ih.group

/-- Parsing strips one pair of parentheses after the other. -/
theorem Balanced.parse_wrapped (hx : Balanced xs) (k offset : Nat) :
    parse offset (Regex.wrapped k xs) = parse (offset + k) xs := by
  induction k generalizing offset with
  | zero => rw [wrapped_zero, Nat.add_zero]
  | succ k ih =>
    rw [wrapped_succ, parse_of_inner (hx.wrapped k).splitPoint?_group (inner?_group _), ih,
      Nat.add_assoc, Nat.add_comm 1]

end Regex

namespace Phrase

def wrapped (e : Phrase .expression) : Nat → Phrase .expression
  | 0 => e
  | k + 1 => lone (single (factor (group (e.wrapped k)) []))

variable (e : Phrase .expression) (k : Nat)

theorem text_wrapped : (e.wrapped k).text = Regex.wrapped k e.text := by
  induction k with
  | zero => rw [wrapped, Regex.wrapped_zero]
  | succ k ih =>
    rw [Regex.wrapped_succ, ← ih]
    exact List.append_nil _

theorem normal_wrapped : (e.wrapped k).normal = Regex.wrapped k e.normal := by
  induction k with
  | zero => rw [wrapped, Regex.wrapped_zero]
  | succ k ih =>
    rw [Regex.wrapped_succ, ← ih]
    exact List.append_nil _

theorem ofNormalized_wrapped :
    SyntaxTree.ofNormalized (Regex.wrapped k e.normal) = SyntaxTree.ofNormalized e.normal := by
  have hparse : Regex.parse 0 (Regex.wrapped k e.normal) = Regex.parse 0 e.normal := by
    rw [(Regex.balanced_normal e).parse_wrapped, Regex.parse_normal, Regex.parse_normal]
  have hne : (Regex.wrapped k e.normal).isEmpty = e.normal.isEmpty := by
    rw [← e.normal_wrapped, List.isEmpty_eq_false_iff.2 (e.wrapped k).normal_ne_nil,
      List.isEmpty_eq_false_iff.2 e.normal_ne_nil]
  rw [SyntaxTree.ofNormalized, SyntaxTree.ofNormalized, Regex.parseNormalized, Regex.parseNormalized,
    hparse, hne]

end Phrase

namespace SyntaxTree

/-- In any number of parentheses an expression stays an expression. It normalizes to the normal text in as
many parentheses, and that has the same tree, is built of the same nodes, and compiles to the same
automaton. -/
theorem tree_of_wrapped {source : List Char} (hne : source ≠ []) (h : IsExpression source) (k : Nat) :
    ∃ out t, IsExpression (Regex.wrapped k source) ∧
      Regex.normalize source = .ok out ∧
      Regex.normalize (Regex.wrapped k source) = .ok (Regex.wrapped k out) ∧
      parse source = .ok t ∧ parse (Regex.wrapped k source) = .ok t ∧
      growTree out = .ok (t.nodes.toList.map Node.knot) ∧
      growTree (Regex.wrapped k out) = .ok (t.nodes.toList.map Node.knot) ∧
      Recognizer.compile (String.ofList source) =
        .ok ⟨String.ofList source, String.ofList out, t, t.toAutomaton⟩ ∧
      Recognizer.compile (String.ofList (Regex.wrapped k source)) =
        .ok ⟨String.ofList (Regex.wrapped k source), String.ofList (Regex.wrapped k out), t,
          t.toAutomaton⟩ := by
  obtain ⟨e, rfl⟩ := h.resolve_left hne
  have hn := Regex.Scan.normalize_text e
  have hn' : Regex.normalize (Regex.wrapped k e.text) = .ok (Regex.wrapped k e.normal) := by
    rw [← e.text_wrapped, ← e.normal_wrapped, Regex.Scan.normalize_text]
  have ht := ofNormalized_normal e
  have ht' := (e.ofNormalized_wrapped k).trans ht
  refine ⟨e.normal, _, .inr ⟨e.wrapped k, e.text_wrapped k⟩, hn, hn', parse_eq hn ht, parse_eq hn' ht',
    ?_, ?_, Recognizer.compile_eq ?_ ht, Recognizer.compile_eq ?_ ht'⟩
  · rw [growTree_eq, ht]
    rfl
  · rw [growTree_eq, ht']
    rfl
  · rw [String.toList_ofList, hn]
  · rw [String.toList_ofList, hn']

/-- The expression has parentheses at both ends, which do not belong together. -/
theorem tree_of_wrapped_groups :
    IsExpression "(a|b)(c)".toList ∧ Regex.normalize "(((a|b)(c)))".toList = .ok "(((a|b).(c)))".toList ∧
      ∃ t, parse "(a|b)(c)".toList = .ok t ∧ parse "(((a|b)(c)))".toList = .ok t ∧
        growTree "(((a|b).(c)))".toList = growTree "(a|b).(c)".toList := by
  have hnormal : Regex.normalize "(a|b)(c)".toList = .ok "(a|b).(c)".toList := by rfl
  have hexpr := Regex.normalize_isOk_iff.1 ⟨_, hnormal⟩
  obtain ⟨out, t, -, hn, hn', ht, ht', hgrow, hgrow', -⟩ :=
    tree_of_wrapped (by decide) hexpr 2
  obtain rfl := Except.ok.inj (hnormal.symm.trans hn)
  exact ⟨hexpr, hn', t, ht, ht', hgrow'.trans hgrow.symm⟩

end SyntaxTree

end RegularLanguages
