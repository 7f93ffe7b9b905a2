import RegularLanguages.Proofs.Assembly
import RegularLanguages.Proofs.Regex.Parse
import RegularLanguages.Proofs.SyntaxTree.Compositions
import RegularLanguages.Recognizer
/-!
# Recognizers recognize the language of their expression

Compiling an expression goes from its text to its normal text, to its regular expression, to a syntax
tree and to an automaton, and each of them has the language that the grammar gives the expression. So a
recognizer accepts the words of that language, and compiling fails only where normalizing does.
-/

open scoped Computability

namespace RegularLanguages

/-! ### What normal texts parse to -/

theorem SyntaxTree.ofNormalized_nil : SyntaxTree.ofNormalized [] = .ok (.ofRegex none) := rfl

theorem SyntaxTree.ofNormalized_normal (e : Phrase .expression) :
    SyntaxTree.ofNormalized e.normal = .ok (.ofRegex (some e.regex)) := by
  have hne : e.normal.isEmpty = false := by
    rw [Bool.eq_false_iff, ne_eq, List.isEmpty_iff]
    exact e.normal_ne_nil
  rw [SyntaxTree.ofNormalized, Regex.parseNormalized, hne, if_neg Bool.false_ne_true,
    Regex.parse_normal]
  rfl

/-- An expression normalizes and parses to a tree whose automaton has the language of the expression. -/
theorem Denotes.exists_tree {source : List Char} {L : Language Char} (h : Denotes source L) :
    ∃ out t, Regex.normalize source = .ok out ∧ SyntaxTree.ofNormalized out = .ok t ∧
      t.toAutomaton.language = L := by
  rcases h with ⟨rfl, rfl⟩ | ⟨e, rfl, rfl⟩
  · exact ⟨[], _, rfl, SyntaxTree.ofNormalized_nil, SyntaxTree.language_toAutomaton_none⟩
  · refine ⟨e.normal, _, Regex.Scan.normalize_text e, SyntaxTree.ofNormalized_normal e, ?_⟩
    rw [SyntaxTree.language_toAutomaton_ofRegex, e.language_regex]

theorem IsExpression.exists_denotes {source : List Char} (h : IsExpression source) :
    ∃ L, Denotes source L := by
  rcases h with rfl | ⟨e, rfl⟩
  · exact ⟨1, .inl ⟨rfl, rfl⟩⟩
  · exact ⟨e.language, .inr ⟨e, rfl, rfl⟩⟩

/-- Either the text is no expression and normalizing says so, or it is one and parses. -/
theorem Regex.normalize_cases (source : List Char) :
    (∃ err, normalize source = .error err ∧ ¬IsExpression source) ∨
      ∃ out t, normalize source = .ok out ∧ SyntaxTree.ofNormalized out = .ok t ∧
        IsExpression source := by
  by_cases h : IsExpression source
  · obtain ⟨L, hL⟩ := h.exists_denotes
    obtain ⟨out, t, hn, ht, -⟩ := hL.exists_tree
    exact .inr ⟨out, t, hn, ht, h⟩
  · cases hn : normalize source with
    | error err => exact .inl ⟨err, rfl, h⟩
    | ok out => exact absurd (normalize_isOk_iff.1 ⟨out, hn⟩) h

theorem SyntaxTree.parse_eq {source out : List Char} {t : SyntaxTree}
    (hn : Regex.normalize source = .ok out) (ht : ofNormalized out = .ok t) : parse source = .ok t := by
  rw [parse, hn]
  exact ht

theorem SyntaxTree.parse_of_error {source : List Char} {err : ParseError}
    (hn : Regex.normalize source = .error err) : parse source = .error err := by
  rw [parse, hn]
  rfl

theorem SyntaxTree.parse_eq_error_iff {source : List Char} {err : ParseError} :
    parse source = .error err ↔ Regex.normalize source = .error err := by
  refine ⟨fun h => ?_, parse_of_error⟩
  rcases Regex.normalize_cases source with ⟨err', hn, -⟩ | ⟨out, t, hn, ht, -⟩
  · rw [hn]
    exact congrArg Except.error (Except.error.inj ((parse_of_error hn).symm.trans h))
  · rw [parse_eq hn ht] at h
    cases h

theorem SyntaxTree.parse_isOk_iff {source : List Char} :
    (∃ t, parse source = .ok t) ↔ IsExpression source := by
  rcases Regex.normalize_cases source with ⟨err, hn, hs⟩ | ⟨out, t, hn, ht, hs⟩
  · refine ⟨fun ⟨t, h⟩ => ?_, fun h => absurd h hs⟩
    rw [parse_of_error hn] at h
    cases h
  · exact ⟨fun _ => hs, fun _ => ⟨t, parse_eq hn ht⟩⟩

/-- No splitting or stripping of parentheses fails on a text that has been normalized. -/
theorem Regex.ofNormalized_isOk {source out : List Char} (h : normalize source = .ok out) :
    ∃ t, SyntaxTree.ofNormalized out = .ok t := by
  rcases normalize_cases source with ⟨err, hn, -⟩ | ⟨out', t, hn, ht, -⟩
  · rw [hn] at h
    cases h
  · obtain rfl := Except.ok.inj (hn.symm.trans h)
    exact ⟨t, ht⟩

/-- Requests a tree's automaton: the symbols of its leaves, and then states and edges as compositions are
found. -/
def SyntaxTree.assemble (t : SyntaxTree) : Except Error Draft :=
  t.compositions.assemble (t.leaves.filterMap t.symbol?)

theorem SyntaxTree.assemble_eq (t : SyntaxTree) :
    ∃ D, t.assemble = .ok D ∧ D.automaton = t.toAutomaton :=
  t.compositions.assemble_eq rfl

namespace Recognizer

variable {source : String} {r : Recognizer}

theorem compile_eq {out : List Char} {t : SyntaxTree} (hn : Regex.normalize source.toList = .ok out)
    (ht : SyntaxTree.ofNormalized out = .ok t) :
    compile source = .ok ⟨source, String.ofList out, t, t.toAutomaton⟩ := by
  rw [compile, hn]
  show (do let tree ← SyntaxTree.ofNormalized out; _) = _
  rw [ht]
  rfl

theorem compile_of_error {err : ParseError} (hn : Regex.normalize source.toList = .error err) :
    compile source = .error err := by
  rw [compile, hn]
  rfl

theorem compile_eq_error_iff {err : ParseError} :
    compile source = .error err ↔ Regex.normalize source.toList = .error err := by
  refine ⟨fun h => ?_, compile_of_error⟩
  rcases Regex.normalize_cases source.toList with ⟨err', hn, -⟩ | ⟨out, t, hn, ht, -⟩
  · rw [hn]
    exact congrArg Except.error (Except.error.inj ((compile_of_error hn).symm.trans h))
  · rw [compile_eq hn ht] at h
    cases h

theorem compile_isOk_iff : (∃ r, compile source = .ok r) ↔ IsExpression source.toList := by
  rcases Regex.normalize_cases source.toList with ⟨err, hn, hs⟩ | ⟨out, t, hn, ht, hs⟩
  · refine ⟨fun ⟨r, h⟩ => ?_, fun h => absurd h hs⟩
    rw [compile_of_error hn] at h
    cases h
  · exact ⟨fun _ => hs, fun _ => ⟨_, compile_eq hn ht⟩⟩

theorem accepts_eq_true (w : String) :
    r.accepts w = true ↔ r.automaton.accepts w = .ok true := by
  unfold accepts
  cases r.automaton.accepts w with
  | error err =>
    constructor
    · intro h
      cases h
    · intro h
      cases h
  | ok b => exact ⟨fun h => congrArg Except.ok h, fun h => Except.ok.inj h⟩

/-- A recognizer accepts exactly the words that its expression means. -/
theorem accepts_iff_mem (h : compile source = .ok r) :
    (∃ L, Denotes source.toList L) ∧
      ∀ L, Denotes source.toList L → ∀ w : String, r.accepts w = true ↔ w.toList ∈ L := by
  refine ⟨(compile_isOk_iff.1 ⟨r, h⟩).exists_denotes, fun L hL w => ?_⟩
  obtain ⟨out, t, hn, ht, hlang⟩ := hL.exists_tree
  obtain rfl := Except.ok.inj (h.symm.trans (compile_eq hn ht))
  rw [accepts_eq_true, Automaton.accepts_eq_ok_true, hlang]

theorem accepts_iff_mem_star :
    ∃ r, compile "a*" = .ok r ∧ r.accepts "aa" = true := by
  have hL : Denotes "a*".toList {['a']}∗ :=
    .inr ⟨.lone (.single (.factor (.symbol ⟨'a', rfl⟩) [.star])), rfl, rfl⟩
  obtain ⟨out, t, hn, ht, -⟩ := hL.exists_tree
  have hc := @compile_eq "a*" _ _ hn ht
  refine ⟨_, hc, ((accepts_iff_mem hc).2 _ hL "aa").2 ?_⟩
  refine Language.mem_kstar.2 ⟨[['a'], ['a']], rfl, fun w hw => ?_⟩
  rw [List.mem_pair, or_self] at hw
  exact Set.mem_singleton_iff.2 hw

/-- Normalizing, parsing and compiling succeed on expressions only, on all of them, and otherwise fail
alike; what has been normalized is parsed without a fault, and each request for its automaton is granted. -/
theorem compile_agrees (source : String) :
    (∀ err, Regex.normalize source.toList = .error err ↔
      SyntaxTree.parse source.toList = .error err) ∧
    (∀ err, Regex.normalize source.toList = .error err ↔ compile source = .error err) ∧
    ((∃ out, Regex.normalize source.toList = .ok out) ↔ IsExpression source.toList) ∧
    ((∃ t, SyntaxTree.parse source.toList = .ok t) ↔ IsExpression source.toList) ∧
    ((∃ r, compile source = .ok r) ↔ IsExpression source.toList) ∧
    (∀ out, Regex.normalize source.toList = .ok out → ∃ t, SyntaxTree.ofNormalized out = .ok t) ∧
    ∀ t, SyntaxTree.parse source.toList = .ok t →
      ∃ D, t.assemble = .ok D ∧ D.automaton = t.toAutomaton := by
  refine ⟨fun err => SyntaxTree.parse_eq_error_iff.symm, fun err => compile_eq_error_iff.symm,
    Regex.normalize_isOk_iff, SyntaxTree.parse_isOk_iff, compile_isOk_iff, ?_, ?_⟩
  · intro out h
    exact Regex.ofNormalized_isOk h
  · intro t _
    exact t.assemble_eq

theorem compile_agrees_star :
    ∃ out t D, Regex.normalize "a*".toList = .ok out ∧ SyntaxTree.ofNormalized out = .ok t ∧
      SyntaxTree.parse "a*".toList = .ok t ∧ t.assemble = .ok D ∧ D.automaton = t.toAutomaton := by
  obtain ⟨-, -, hnorm, hparse, -, hof, hasm⟩ := compile_agrees "a*"
  have hs : IsExpression "a*".toList :=
    .inr ⟨.lone (.single (.factor (.symbol ⟨'a', rfl⟩) [.star])), rfl⟩
  obtain ⟨out, hn⟩ := hnorm.2 hs
  obtain ⟨t, ht⟩ := hof out hn
  have hp := SyntaxTree.parse_eq hn ht
  obtain ⟨D, hD, haut⟩ := hasm t hp
  exact ⟨out, t, D, hn, ht, hp, hD, haut⟩

end Recognizer

end RegularLanguages
